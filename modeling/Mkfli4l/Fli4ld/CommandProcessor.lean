import Mathlib.Logic.Relation
import Mathlib.Tactic

/-!
# The command processor of `fli4ld`

A command processor has a queue and a thread of its own that runs the queued commands one after the other.
Any thread may queue commands, and so may a running command.  A special command asks for the termination;
from then on only clean-up commands are accepted, and the thread ends once the queue is empty.

Acceptance and the check for the end are made under the mutex of the termination flag, the queue has a
mutex of its own, and a semaphore counts the commands.  The module follows the sections under these
locks over all interleavings.  In every state the commands accepted so far are those that have run, the
one that runs, and the queue, in this order; when the thread has ended, the queue holds at most clean-up
commands of other threads (`CommandProcessor.nothing_lost`).
-/

namespace Mkfli4l
namespace Fli4ld

variable {τ α : Type}

/-- The commands: `QuitCommand` and those of the users. -/
inductive Command (α : Type)
  | quit
  | user (command : α)

/-- Who calls `queue`: a thread, or the command that is being run. -/
inductive Caller (τ : Type)
  | thread (t : τ)
  | runningCommand

/-- A call of `queue`. -/
structure Entry (τ α : Type) where
  command : Command α
  isCleanup : Bool
  caller : Caller τ

/-- Is the command of a call promised to be run, once it has been accepted?  Clean-up commands are, if a
running command has queued them. -/
def Entry.promised (e : Entry τ α) : Bool :=
  !e.isCleanup ||
    match e.caller with
    | .runningCommand => true
    | .thread _ => false

/-- Who holds `m_terminationMutex`, and how far this section has got: `queue` before or after it has
appended the command, in the latter case together with `m_queueMutex`, or `shouldTerminate` after it has
found that the termination has been requested. -/
inductive Section (τ α : Type)
  | accepted (e : Entry τ α)
  | appended (e : Entry τ α)
  | shouldTerminate

/-- Where the thread of the processor is: it has not been started, is about to call `shouldTerminate`, is
inside this call, is about to decrement the semaphore, waits for it, is about to take the first command,
runs a command, or has returned from `processCommands`. -/
inductive Worker (τ α : Type)
  | notStarted
  | check
  | checking
  | down
  | waiting
  | take
  | running (e : Entry τ α)
  | returned

/-- The state of a command processor, with the history of the calls: those that have been accepted, and
those whose commands have been run, each in their order.  `underflow` is set if `dequeue` takes a
command from an empty queue. -/
structure CommandProcessor (τ α : Type) where
  terminationMutex : Option (Section τ α)
  terminationRequested : Bool
  queue : List (Entry τ α)
  counter : ℤ
  worker : Worker τ α
  accepted : List (Entry τ α)
  ran : List (Entry τ α)
  underflow : Bool

namespace CommandProcessor

/-- A new command processor. -/
def init : CommandProcessor τ α := ⟨none, false, [], 0, .notStarted, [], [], false⟩

/-- Can the caller call `queue` now?  A running command has to be there to do so. -/
def MayCall (s : CommandProcessor τ α) : Caller τ → Prop
  | .thread _ => True
  | .runningCommand => ∃ e c, s.worker = .running e ∧ e.command = .user c

/-- Does the running command call `queue` at the moment? -/
def Queueing (s : CommandProcessor τ α) : Prop :=
  ∃ e, e.caller = .runningCommand ∧
    (s.terminationMutex = some (.accepted e) ∨ s.terminationMutex = some (.appended e))

/-- The sections of all threads.  `stop` is a call of `queue` with `QuitCommand` and a wait, which
changes nothing here. -/
inductive Step : CommandProcessor τ α → CommandProcessor τ α → Prop
  /-- `queue` locks the mutex and accepts the command. -/
  | accept (s : CommandProcessor τ α) (e : Entry τ α) (hcaller : s.MayCall e.caller)
      (hfree : s.terminationMutex = none)
      (haccept : e.isCleanup = true ∨ s.terminationRequested = false) :
      Step s { s with terminationMutex := some (.accepted e) }
  /-- `queue` locks the mutex, rejects the command and unlocks the mutex. -/
  | reject (s : CommandProcessor τ α) (e : Entry τ α) (hcaller : s.MayCall e.caller)
      (hfree : s.terminationMutex = none) (hcleanup : e.isCleanup = false)
      (hrequested : s.terminationRequested = true) :
      Step s s
  /-- `CommandQueue::queue` locks its mutex and appends the command. -/
  | append (s : CommandProcessor τ α) (e : Entry τ α)
      (hsection : s.terminationMutex = some (.accepted e)) :
      Step s { s with
        terminationMutex := some (.appended e)
        queue := s.queue ++ [e]
        accepted := s.accepted ++ [e] }
  /-- `CommandQueue::queue` increments the semaphore, and both mutexes are unlocked. -/
  | up (s : CommandProcessor τ α) (e : Entry τ α)
      (hsection : s.terminationMutex = some (.appended e)) :
      Step s { s with terminationMutex := none, counter := s.counter + 1 }
  /-- The thread is started, for the first time or after it has been waited for. -/
  | start (s : CommandProcessor τ α) (hworker : s.worker = .notStarted ∨ s.worker = .returned) :
      Step s { s with worker := .check }
  /-- `shouldTerminate` finds no request. -/
  | goOn (s : CommandProcessor τ α) (hworker : s.worker = .check) (hfree : s.terminationMutex = none)
      (hrequested : s.terminationRequested = false) :
      Step s { s with worker := .down }
  /-- `shouldTerminate` finds a request, and keeps the mutex. -/
  | checkRequest (s : CommandProcessor τ α) (hworker : s.worker = .check)
      (hfree : s.terminationMutex = none) (hrequested : s.terminationRequested = true) :
      Step s { s with worker := .checking, terminationMutex := some .shouldTerminate }
  /-- `isEmpty`, and the end of `shouldTerminate`. -/
  | checkQueue (s : CommandProcessor τ α) (hworker : s.worker = .checking)
      (hsection : s.terminationMutex = some .shouldTerminate) :
      Step s { s with
        worker := if s.queue.isEmpty then .returned else .down
        terminationMutex := none }
  /-- `Semaphore::down` decrements the counter. -/
  | down (s : CommandProcessor τ α) (hworker : s.worker = .down) :
      Step s { s with worker := .waiting, counter := s.counter - 1 }
  /-- `Semaphore::down` finds that the counter is not negative. -/
  | wake (s : CommandProcessor τ α) (hworker : s.worker = .waiting) (hcounter : 0 ≤ s.counter) :
      Step s { s with worker := .take }
  /-- `dequeue` takes the first command, while nobody appends one. -/
  | take (s : CommandProcessor τ α) (e : Entry τ α) (rest : List (Entry τ α))
      (hworker : s.worker = .take) (hmutex : ∀ e', s.terminationMutex ≠ some (.appended e'))
      (hqueue : s.queue = e :: rest) :
      Step s { s with worker := .running e, queue := rest }
  /-- `dequeue` finds no command. -/
  | takeNone (s : CommandProcessor τ α) (hworker : s.worker = .take)
      (hmutex : ∀ e', s.terminationMutex ≠ some (.appended e')) (hqueue : s.queue = []) :
      Step s { s with underflow := true }
  /-- `QuitCommand::run` sets the flag under its mutex. -/
  | runQuit (s : CommandProcessor τ α) (e : Entry τ α) (hworker : s.worker = .running e)
      (hcommand : e.command = .quit) (hfree : s.terminationMutex = none) :
      Step s { s with worker := .check, terminationRequested := true, ran := s.ran ++ [e] }
  /-- The command of a user ends. -/
  | runUser (s : CommandProcessor τ α) (e : Entry τ α) (c : α) (hworker : s.worker = .running e)
      (hcommand : e.command = .user c) (hqueueing : ¬ s.Queueing) :
      Step s { s with worker := .check, ran := s.ran ++ [e] }

/-- The states that a command processor gets into. -/
def Reachable (s : CommandProcessor τ α) : Prop := Relation.ReflTransGen Step init s

/-! ## The invariant -/

/-- The command that is being run. -/
def inFlight (s : CommandProcessor τ α) : List (Entry τ α) :=
  match s.worker with
  | .running e => [e]
  | _ => []

/-- How many commands of the queue the semaphore does not count: one that has just been appended, and one
for which the thread has decremented it. -/
def uncounted (s : CommandProcessor τ α) : ℤ :=
  (match s.terminationMutex with
    | some (.appended _) => 1
    | _ => 0) +
  match s.worker with
  | .waiting => 1
  | .take => 1
  | _ => 0

/-- What holds in every state. -/
structure Invariant (s : CommandProcessor τ α) : Prop where
  history : s.accepted = s.ran ++ s.inFlight ++ s.queue
  semaphore : s.counter + s.uncounted = s.queue.length
  awake : s.worker = .take → 0 ≤ s.counter
  noUnderflow : s.underflow = false
  /-- A command has been accepted for a good reason, which holds until it is appended. -/
  acceptable : ∀ e, s.terminationMutex = some (.accepted e) →
    (e.isCleanup = true ∨ s.terminationRequested = false) ∧ s.MayCall e.caller
  /-- `shouldTerminate` holds the mutex exactly while it checks the queue. -/
  checking : s.worker = .checking ↔ s.terminationMutex = some .shouldTerminate
  requested : s.worker = .checking ∨ s.worker = .returned → s.terminationRequested = true
  /-- After the end nothing is left that has been promised. -/
  kept : s.worker = .returned → ∀ e ∈ s.queue, e.promised = false

theorem init_invariant : Invariant (init : CommandProcessor τ α) := by
  constructor <;> simp [init, inFlight, uncounted]

theorem Invariant.not_promised {s : CommandProcessor τ α} (h : s.Invariant) {e : Entry τ α}
    (hsection : s.terminationMutex = some (.accepted e)) (hworker : s.worker = .returned) :
    e.promised = false := by
  obtain ⟨haccept, hcaller⟩ := h.acceptable e hsection
  have hrequested := h.requested (Or.inr hworker)
  have hcleanup : e.isCleanup = true := by
    rcases haccept with hcleanup | hnot
    · exact hcleanup
    · rw [hrequested] at hnot
      contradiction
  cases hwho : e.caller with
  | thread t => simp [Entry.promised, hcleanup, hwho]
  | runningCommand =>
      rw [hwho] at hcaller
      obtain ⟨_, _, hrunning, -⟩ := hcaller
      rw [hworker] at hrunning
      contradiction

theorem Invariant.queue_ne_nil {s : CommandProcessor τ α} (h : s.Invariant)
    (hworker : s.worker = .take) : s.queue ≠ [] := by
  intro hnil
  have hsemaphore := h.semaphore
  have hawake := h.awake hworker
  have huncounted : 1 ≤ s.uncounted := by
    unfold uncounted
    rw [hworker]
    split <;> simp
  rw [hnil] at hsemaphore
  simp at hsemaphore
  omega

theorem MayCall.of_idle {s s' : CommandProcessor τ α} {caller : Caller τ} (h : s.MayCall caller)
    (hidle : ∀ e, s.worker ≠ .running e) : s'.MayCall caller := by
  cases caller with
  | thread t => trivial
  | runningCommand =>
      obtain ⟨e, _, hrunning, -⟩ := h
      exact absurd hrunning (hidle e)

theorem Invariant.proceed {s : CommandProcessor τ α} (h : s.Invariant) (worker : Worker τ α)
    (hfrom : s.worker = .notStarted ∨ s.worker = .returned ∨ s.worker = .check)
    (hto : worker = .check ∨ worker = .down) : Invariant { s with worker := worker } := by
  have hidle : ∀ e, s.worker ≠ .running e := by
    intro e
    rcases hfrom with hw | hw | hw <;> simp [hw]
  have hinFlight : inFlight { s with worker := worker } = s.inFlight := by
    rcases hfrom with hw | hw | hw <;> rcases hto with rfl | rfl <;> simp [inFlight, hw]
  have huncounted : uncounted { s with worker := worker } = s.uncounted := by
    rcases hfrom with hw | hw | hw <;> rcases hto with rfl | rfl <;> simp [uncounted, hw]
  have hnot : ∀ w, (w = .take ∨ w = .checking ∨ w = .returned) → worker ≠ w := by
    rintro w (rfl | rfl | rfl) <;> rcases hto with rfl | rfl <;> simp
  have hfree : s.terminationMutex ≠ some .shouldTerminate := by
    intro hheld
    have := h.checking.mpr hheld
    rcases hfrom with hw | hw | hw <;> simp [hw] at this
  refine ⟨?_, ?_, ?_, h.noUnderflow, ?_, ?_, ?_, ?_⟩
  · rw [hinFlight]
    exact h.history
  · rw [huncounted]
    exact h.semaphore
  · intro hworker
    exact absurd hworker (hnot _ (by simp))
  · intro e he
    exact ⟨(h.acceptable e he).1, (h.acceptable e he).2.of_idle hidle⟩
  · constructor
    · intro hworker
      exact absurd hworker (hnot _ (by simp))
    · intro hheld
      exact absurd hheld hfree
  · rintro (hworker | hworker)
    · exact absurd hworker (hnot _ (by simp))
    · exact absurd hworker (hnot _ (by simp))
  · intro hworker
    exact absurd hworker (hnot _ (by simp))

/-- Every section keeps the invariant. -/
theorem Step.invariant {s s' : CommandProcessor τ α} (h : Step s s') (hs : s.Invariant) :
    s'.Invariant := by
  obtain ⟨hhistory, hsemaphore, hawake, hunderflow, hacceptable, hchecking, hrequested, hkept⟩ :=
    id hs
  cases h with
  | accept e hcaller hfree haccept =>
      refine ⟨hhistory, ?_, hawake, hunderflow, ?_, ?_, hrequested, hkept⟩
      · simpa [uncounted, hfree] using hsemaphore
      · intro e' he'
        simp at he'
        exact he' ▸ ⟨haccept, hcaller⟩
      · simpa [hfree] using hchecking
  | reject e hcaller hfree hcleanup hreq => exact hs
  | append e hsection =>
      refine ⟨?_, ?_, hawake, hunderflow, ?_, ?_, hrequested, ?_⟩
      · show s.accepted ++ [e] = s.ran ++ s.inFlight ++ (s.queue ++ [e])
        rw [hhistory, List.append_assoc]
      · simp [uncounted, hsection] at hsemaphore ⊢
        omega
      · simp
      · simpa [hsection] using hchecking
      · intro hworker e' he'
        rcases List.mem_append.mp he' with he' | he'
        · exact hkept hworker e' he'
        · rw [List.mem_singleton.mp he']
          exact hs.not_promised hsection hworker
  | up e hsection =>
      refine ⟨hhistory, ?_, ?_, hunderflow, ?_, ?_, hrequested, hkept⟩
      · simp [uncounted, hsection] at hsemaphore ⊢
        omega
      · intro hworker
        have := hawake hworker
        show 0 ≤ s.counter + 1
        omega
      · simp
      · simpa [hsection] using hchecking
  | start hworker =>
      apply hs.proceed
      · rcases hworker with hworker | hworker
        · exact Or.inl hworker
        · exact Or.inr (Or.inl hworker)
      · exact Or.inl rfl
  | goOn hworker hfree hreq => exact hs.proceed .down (Or.inr (Or.inr hworker)) (Or.inr rfl)
  | checkRequest hworker hfree hreq =>
      refine ⟨?_, ?_, ?_, hunderflow, ?_, ?_, ?_, ?_⟩
      · simpa [inFlight, hworker] using hhistory
      · simpa [uncounted, hworker, hfree] using hsemaphore
      · simp
      · simp
      · simp
      · intro _
        exact hreq
      · simp
  | checkQueue hworker hsection =>
      have hreq := hrequested (Or.inl hworker)
      cases hqueue : s.queue with
      | nil =>
          refine ⟨?_, ?_, ?_, hunderflow, ?_, ?_, ?_, ?_⟩
          · simpa [inFlight, hworker, hqueue] using hhistory
          · simpa [uncounted, hworker, hsection, hqueue] using hsemaphore
          · simp
          · simp
          · simp
          · intro _
            exact hreq
          · simp
      | cons e rest =>
          refine ⟨?_, ?_, ?_, hunderflow, ?_, ?_, ?_, ?_⟩
          · simpa [inFlight, hworker, hqueue] using hhistory
          · simpa [uncounted, hworker, hsection, hqueue] using hsemaphore
          · simp
          · simp
          · simp
          · simp
          · simp
  | down hworker =>
      have hidle : ∀ e, s.worker ≠ .running e := by simp [hworker]
      refine ⟨?_, ?_, ?_, hunderflow, ?_, ?_, ?_, ?_⟩
      · simpa [inFlight, hworker] using hhistory
      · simp [uncounted, hworker] at hsemaphore ⊢
        omega
      · simp
      · intro e he
        exact ⟨(hacceptable e he).1, (hacceptable e he).2.of_idle hidle⟩
      · simpa [hworker] using hchecking
      · simp
      · simp
  | wake hworker hcounter =>
      have hidle : ∀ e, s.worker ≠ .running e := by simp [hworker]
      refine ⟨?_, ?_, ?_, hunderflow, ?_, ?_, ?_, ?_⟩
      · simpa [inFlight, hworker] using hhistory
      · simpa [uncounted, hworker] using hsemaphore
      · intro _
        exact hcounter
      · intro e he
        exact ⟨(hacceptable e he).1, (hacceptable e he).2.of_idle hidle⟩
      · simpa [hworker] using hchecking
      · simp
      · simp
  | take e rest hworker hmutex hqueue =>
      have hidle : ∀ e, s.worker ≠ .running e := by simp [hworker]
      refine ⟨?_, ?_, ?_, hunderflow, ?_, ?_, ?_, ?_⟩
      · simpa [inFlight, hworker, hqueue] using hhistory
      · simp [uncounted, hworker, hqueue] at hsemaphore ⊢
        omega
      · simp
      · intro e' he'
        exact ⟨(hacceptable e' he').1, (hacceptable e' he').2.of_idle hidle⟩
      · simpa [hworker] using hchecking
      · simp
      · simp
  | takeNone hworker hmutex hqueue => exact absurd hqueue (hs.queue_ne_nil hworker)
  | runQuit e hworker hcommand hfree =>
      refine ⟨?_, ?_, ?_, hunderflow, ?_, ?_, ?_, ?_⟩
      · simpa [inFlight, hworker] using hhistory
      · simpa [uncounted, hworker] using hsemaphore
      · simp
      · simp [hfree]
      · simp [hfree]
      · simp
      · simp
  | runUser e c hworker hcommand hqueueing =>
      -- the calls of `queue` that are under way come from threads
      have hthread (e' : Entry τ α) (he' : s.terminationMutex = some (.accepted e'))
          (s' : CommandProcessor τ α) : s'.MayCall e'.caller := by
        cases hcaller : e'.caller with
        | thread t => trivial
        | runningCommand => exact absurd ⟨e', hcaller, Or.inl he'⟩ hqueueing
      refine ⟨?_, ?_, ?_, hunderflow, ?_, ?_, ?_, ?_⟩
      · simpa [inFlight, hworker] using hhistory
      · simpa [uncounted, hworker] using hsemaphore
      · simp
      · intro e' he'
        exact ⟨(hacceptable e' he').1, hthread e' he' _⟩
      · simpa [hworker] using hchecking
      · simp
      · simp

theorem Reachable.invariant {s : CommandProcessor τ α} (h : s.Reachable) : s.Invariant := by
  induction h with
  | refl => exact init_invariant
  | tail _ hstep ih => exact hstep.invariant ih

/-- `dequeue` never takes a command from an empty queue, and when `processCommands` has returned, the
promised commands have been run, each once and in the order in which they were accepted. -/
theorem nothing_lost {s : CommandProcessor τ α} (h : s.Reachable) :
    s.underflow = false ∧
      (s.worker = .returned → s.ran.filter Entry.promised = s.accepted.filter Entry.promised) := by
  have hs := h.invariant
  refine ⟨hs.noUnderflow, fun hworker => ?_⟩
  have hinFlight : s.inFlight = [] := by simp [inFlight, hworker]
  have hnone : s.queue.filter Entry.promised = [] := by
    rw [List.filter_eq_nil_iff]
    intro e he
    simp [hs.kept hworker e he]
  rw [hs.history, hinFlight, List.append_nil, List.filter_append, hnone, List.append_nil]

/-- A command of a user, and the end. -/
def finished : CommandProcessor ℕ ℕ where
  terminationMutex := none
  terminationRequested := true
  queue := []
  counter := 0
  worker := .returned
  accepted := [⟨.user 7, false, .thread 0⟩, ⟨.quit, false, .thread 1⟩]
  ran := [⟨.user 7, false, .thread 0⟩, ⟨.quit, false, .thread 1⟩]
  underflow := false

theorem finished_reachable : finished.Reachable := by
  have queued : Relation.ReflTransGen Step init _ :=
    (((((Relation.ReflTransGen.refl (r := Step) (a := init)).tail
      (.accept _ ⟨.user 7, false, .thread 0⟩ trivial rfl (Or.inr rfl))).tail
      (.append _ _ rfl)).tail (.up _ _ rfl)).tail
      (.accept _ ⟨.quit, false, .thread 1⟩ trivial rfl (Or.inr rfl))).tail
      (.append _ _ rfl) |>.tail (.up _ _ rfl)
  have ranUser := queued.tail (.start _ (Or.inl rfl)) |>.tail (.goOn _ rfl rfl rfl) |>.tail
    (.down _ rfl) |>.tail (.wake _ rfl (by decide)) |>.tail (.take _ _ _ rfl (by simp) rfl) |>.tail
    (.runUser _ _ 7 rfl rfl (by simp [Queueing]))
  have ranQuit := ranUser.tail (.goOn _ rfl rfl rfl) |>.tail (.down _ rfl) |>.tail
    (.wake _ rfl (by decide)) |>.tail (.take _ _ _ rfl (by simp) rfl) |>.tail
    (.runQuit _ _ rfl rfl rfl)
  exact ranQuit.tail (.checkRequest _ rfl rfl rfl) |>.tail (.checkQueue _ rfl rfl)

theorem nothing_lost_finished : finished.worker = .returned ∧ finished.underflow = false ∧
    (finished.worker = .returned →
      finished.ran.filter Entry.promised = finished.accepted.filter Entry.promised) :=
  ⟨rfl, nothing_lost finished_reachable⟩

end CommandProcessor

end Fli4ld
end Mkfli4l
