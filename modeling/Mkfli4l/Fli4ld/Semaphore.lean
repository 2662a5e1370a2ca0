import Mathlib.Data.Finset.Card
import Mathlib.Logic.Relation
import Mkfli4l.Lib.CNumber

/-!
# The semaphore of `fli4ld`

A semaphore has a counter, a mutex and a condition.  `down` decrements the counter and waits while it is
negative; `up` increments it and wakes all the waiting threads if the counter is not negative any more.  The
module follows the sections under the mutex over all interleavings of any number of threads.

No more calls of `down` complete than there is room for.  A call may wait for ever, though, while there is
room for it: `up` wakes nobody as long as two or more calls wait, and a call that has been woken waits
again if another one has decremented the counter in between.  As long as neither of this happens, no call
waits in vain (`Semaphore.law_of_calm`).
-/

namespace Mkfli4l
namespace Fli4ld

open Lib Relation

variable {τ : Type} [DecidableEq τ]

/-- The calls of a semaphore. -/
inductive Call
  | down
  | up
deriving DecidableEq

/-- A semaphore and the threads that use it: those that wait for `m_cond`, those that have been woken and
do not have the mutex yet, and the calls that each thread has still to make.  The completed calls are
counted. -/
structure Semaphore (τ : Type) where
  counter : ℤ
  waiting : Finset τ
  woken : Finset τ
  todo : τ → List Call
  downs : ℕ
  ups : ℕ

/-- What a thread does while it has the mutex: it enters `down` or `up`, or goes on behind `wait`. -/
inductive Event (τ : Type)
  | down (t : τ)
  | up (t : τ)
  | wake (t : τ)

namespace Semaphore

/-- A new semaphore, and what the threads are going to do with it. -/
def start (counter : ℤ) (programs : τ → List Call) : Semaphore τ := ⟨counter, ∅, ∅, programs, 0, 0⟩

/-- Is the thread inside of `down`? -/
def Blocked (s : Semaphore τ) (t : τ) : Prop := t ∈ s.waiting ∨ t ∈ s.woken

instance (s : Semaphore τ) (t : τ) : Decidable (s.Blocked t) := inferInstanceAs (Decidable (_ ∨ _))

/-- The thread makes the call that comes next. -/
def next (s : Semaphore τ) (t : τ) (call : Call) : Option (Semaphore τ) :=
  if s.Blocked t then none
  else
    match s.todo t with
    | [] => none
    | first :: rest => if first = call then some { s with todo := Function.update s.todo t rest } else none

/-- The loop of `down`: the thread leaves it or waits. -/
def test (s : Semaphore τ) (t : τ) : Semaphore τ :=
  if s.counter < 0 then { s with waiting := insert t s.waiting } else { s with downs := s.downs + 1 }

/-- `++m_counter` and what comes behind it. -/
def increment (s : Semaphore τ) : Semaphore τ :=
  let counter := toInt32 (s.counter + 1)
  if 0 ≤ counter then
    { s with counter := counter, waiting := ∅, woken := s.woken ∪ s.waiting, ups := s.ups + 1 }
  else { s with counter := counter, ups := s.ups + 1 }

/-- A section under the mutex.  `none` means that the thread cannot run it now. -/
def step (s : Semaphore τ) : Event τ → Option (Semaphore τ)
  | .down t => (s.next t .down).map fun s => { s with counter := toInt32 (s.counter - 1) }.test t
  | .up t => (s.next t .up).map increment
  | .wake t => if t ∈ s.woken then some ({ s with woken := s.woken.erase t }.test t) else none

/-- The states that the semaphore gets into. -/
def Reachable (counter : ℤ) (programs : τ → List Call) (s : Semaphore τ) : Prop :=
  ReflTransGen (fun s s' => ∃ e, s.step e = some s') (start counter programs) s

/-- No thread can make a step. -/
def Stuck (s : Semaphore τ) : Prop := ∀ e, s.step e = none

/-- What a semaphore promises. -/
structure Law (counter : ℤ) (s : Semaphore τ) : Prop where
  safe : (s.downs : ℤ) ≤ counter + s.ups
  live : s.Stuck → ∀ t, s.Blocked t → counter + s.ups ≤ s.downs

/-- The counter does not get out of the range of an `int`. -/
def InRange (s : Semaphore τ) : Event τ → Prop
  | .down _ => -2147483648 < s.counter
  | .up _ => s.counter < 2147483647
  | .wake _ => True

instance (s : Semaphore τ) (e : Event τ) : Decidable (s.InRange e) :=
  match e with
  | .down _ => inferInstanceAs (Decidable (_ < _))
  | .up _ => inferInstanceAs (Decidable (_ < _))
  | .wake _ => inferInstanceAs (Decidable True)

/-- Nobody is passed over: `up` finds at most one call waiting, and a call that has been woken finds that
the counter is not negative. -/
def Calm (s : Semaphore τ) : Event τ → Prop
  | .down _ => True
  | .up _ => -1 ≤ s.counter
  | .wake _ => 0 ≤ s.counter

instance (s : Semaphore τ) (e : Event τ) : Decidable (s.Calm e) :=
  match e with
  | .down _ => inferInstanceAs (Decidable True)
  | .up _ => inferInstanceAs (Decidable (_ ≤ _))
  | .wake _ => inferInstanceAs (Decidable (_ ≤ _))

/-! ### The threads inside of `down` -/

variable {initial : ℤ} {programs : τ → List Call} {s s' : Semaphore τ} {t : τ} {e : Event τ}

/-- The counter counts the calls: `testing` is the number of threads that have decremented the counter, or
have left the condition, and are in front of the test. -/
structure Accounts (initial testing : ℤ) (s : Semaphore τ) : Prop where
  disjoint : Disjoint s.waiting s.woken
  counter_eq : s.counter = initial + s.ups - s.downs - s.waiting.card - s.woken.card - testing
  counter_ge : -2147483648 ≤ s.counter
  counter_le : s.counter ≤ 2147483647
  safe : (s.downs : ℤ) ≤ initial + s.ups

/-- As many calls wait as the counter is below zero. -/
def Queued (s : Semaphore τ) : Prop := (s.waiting.card : ℤ) = max 0 (-s.counter)

theorem next_some {call : Call} (h : s.next t call = some s') :
    ¬ s.Blocked t ∧ ∃ todo, s' = { s with todo := todo } := by
  unfold next at h
  split at h
  · contradiction
  · next hfree =>
      split at h
      · contradiction
      · split at h
        · exact ⟨hfree, _, (Option.some.inj h).symm⟩
        · contradiction

theorem step_cases (h : s.step e = some s') :
    (∃ t todo, e = .down t ∧ ¬ s.Blocked t ∧
      s' = { s with todo := todo, counter := toInt32 (s.counter - 1) }.test t) ∨
    (∃ t todo, e = .up t ∧ s' = { s with todo := todo }.increment) ∨
    (∃ t, e = .wake t ∧ t ∈ s.woken ∧ s' = { s with woken := s.woken.erase t }.test t) := by
  cases e with
  | down t =>
      obtain ⟨_, hnext, rfl⟩ := Option.map_eq_some_iff.mp h
      obtain ⟨hfree, todo, rfl⟩ := next_some hnext
      exact .inl ⟨t, todo, rfl, hfree, rfl⟩
  | up t =>
      obtain ⟨_, hnext, rfl⟩ := Option.map_eq_some_iff.mp h
      obtain ⟨-, todo, rfl⟩ := next_some hnext
      exact .inr (.inl ⟨t, todo, rfl, rfl⟩)
  | wake t =>
      simp only [step] at h
      split at h
      · next hwoken => exact .inr (.inr ⟨t, rfl, hwoken, (Option.some.inj h).symm⟩)
      · contradiction

theorem Accounts.test (h : Accounts initial 1 s) (hfree : ¬ s.Blocked t) :
    Accounts initial 0 (s.test t) := by
  obtain ⟨hdisjoint, hcounter, hge, hle, hsafe⟩ := h
  have hwaiting : t ∉ s.waiting := fun h => hfree (.inl h)
  have hwoken : t ∉ s.woken := fun h => hfree (.inr h)
  unfold Semaphore.test
  split
  · refine ⟨?_, ?_, hge, hle, hsafe⟩
    · exact Finset.disjoint_insert_left.mpr ⟨hwoken, hdisjoint⟩
    · simp only [Finset.card_insert_of_notMem hwaiting]
      push_cast
      omega
  · refine ⟨hdisjoint, ?_, hge, hle, ?_⟩
    · push_cast
      omega
    · push_cast
      omega

theorem Accounts.increment (h : Accounts initial 0 s) (hrange : s.counter < 2147483647) :
    Accounts initial 0 s.increment := by
  obtain ⟨hdisjoint, hcounter, hge, hle, hsafe⟩ := h
  have hnew : toInt32 (s.counter + 1) = s.counter + 1 := toInt32_of_range (by omega) (by omega)
  have hge' : -2147483648 ≤ s.counter + 1 := by omega
  have hle' : s.counter + 1 ≤ 2147483647 := by omega
  unfold Semaphore.increment
  simp only [hnew]
  split
  · refine ⟨Finset.disjoint_empty_left _, ?_, hge', hle', ?_⟩
    · simp only [Finset.card_empty, Finset.card_union_of_disjoint hdisjoint.symm]
      push_cast
      omega
    · push_cast
      omega
  · refine ⟨hdisjoint, ?_, hge', hle', ?_⟩
    · push_cast
      omega
    · push_cast
      omega

theorem Accounts.step (h : Accounts initial 0 s) (hstep : s.step e = some s') (hrange : s.InRange e) :
    Accounts initial 0 s' := by
  obtain ⟨hdisjoint, hcounter, hge, hle, hsafe⟩ := id h
  obtain ⟨t, todo, rfl, hfree, rfl⟩ | ⟨t, todo, rfl, rfl⟩ | ⟨t, rfl, hwoken, rfl⟩ := step_cases hstep
  · have hlow : -2147483648 < s.counter := hrange
    have hnew : toInt32 (s.counter - 1) = s.counter - 1 := toInt32_of_range (by omega) (by omega)
    rw [hnew]
    refine Accounts.test ⟨hdisjoint, ?_, ?_, ?_, hsafe⟩ (fun hblocked => hfree hblocked)
    · dsimp only
      omega
    · show -2147483648 ≤ s.counter - 1
      omega
    · show s.counter - 1 ≤ 2147483647
      omega
  · have hnow : Accounts initial 0 { s with todo := todo } := ⟨hdisjoint, hcounter, hge, hle, hsafe⟩
    exact hnow.increment hrange
  · have hcard := Finset.card_erase_add_one hwoken
    apply Accounts.test
    · refine ⟨hdisjoint.mono_right (Finset.erase_subset t s.woken), ?_, hge, hle, hsafe⟩
      dsimp only
      omega
    · rintro (hwaiting | hstill)
      · exact Finset.disjoint_left.mp hdisjoint hwaiting hwoken
      · exact Finset.notMem_erase t s.woken hstill

theorem Queued.step (h : s.Queued) (haccounts : Accounts initial 0 s) (hstep : s.step e = some s')
    (hrange : s.InRange e) (hcalm : s.Calm e) : s'.Queued := by
  have hge := haccounts.counter_ge
  have hle := haccounts.counter_le
  unfold Queued at h ⊢
  obtain ⟨t, todo, rfl, hfree, rfl⟩ | ⟨t, todo, rfl, rfl⟩ | ⟨t, rfl, hwoken, rfl⟩ := step_cases hstep
  · have hlow : -2147483648 < s.counter := hrange
    have hnew : toInt32 (s.counter - 1) = s.counter - 1 := toInt32_of_range (by omega) (by omega)
    have hwaiting : t ∉ s.waiting := fun h => hfree (.inl h)
    rw [hnew]
    unfold test
    split
    · next hneg =>
        have hneg' : s.counter - 1 < 0 := hneg
        simp only [Finset.card_insert_of_notMem hwaiting]
        push_cast
        omega
    · next hneg =>
        have hneg' : ¬ s.counter - 1 < 0 := hneg
        dsimp only
        omega
  · have hcalm' : -1 ≤ s.counter := hcalm
    have hhigh : s.counter < 2147483647 := hrange
    have hnew : toInt32 (s.counter + 1) = s.counter + 1 := toInt32_of_range (by omega) (by omega)
    unfold increment
    simp only [hnew]
    rw [if_pos (by omega)]
    dsimp only
    rw [Finset.card_empty]
    omega
  · have hcalm' : 0 ≤ s.counter := hcalm
    unfold test
    rw [if_neg (by exact not_lt.mpr hcalm')]
    exact h

theorem Queued.live (h : s.Queued) (haccounts : Accounts initial 0 s) (hstuck : s.Stuck)
    (hblocked : s.Blocked t) : initial + s.ups ≤ s.downs := by
  have hcounter := haccounts.counter_eq
  -- a thread that has been woken could make a step
  have hwoken : s.woken = ∅ := by
    apply Finset.eq_empty_of_forall_notMem
    intro u hu
    have hstep := hstuck (.wake u)
    simp only [Semaphore.step, if_pos hu] at hstep
    contradiction
  have hwaiting : t ∈ s.waiting := by
    rcases hblocked with hwaiting | hwaiting
    · exact hwaiting
    · rw [hwoken] at hwaiting
      contradiction
  have hpos : 0 < s.waiting.card := Finset.card_pos.mpr ⟨t, hwaiting⟩
  rw [hwoken, Finset.card_empty] at hcounter
  unfold Queued at h
  omega

theorem Queued.passedOver (h : s.Queued) (haccounts : Accounts initial 0 s) (hstep : s.step e = some s')
    (hrange : s.InRange e) (hnot : ¬ s.Calm e) :
    s'.counter < 0 ∧ (s'.downs : ℤ) < initial + s'.ups ∧ ∃ t, s'.Blocked t := by
  have hcounter := haccounts.counter_eq
  have hge := haccounts.counter_ge
  unfold Queued at h
  obtain ⟨t, todo, rfl, hfree, rfl⟩ | ⟨t, todo, rfl, rfl⟩ | ⟨t, rfl, hwoken, rfl⟩ := step_cases hstep
  · exact absurd trivial hnot
  · have hbelow : s.counter < -1 := not_le.mp hnot
    have hnew : toInt32 (s.counter + 1) = s.counter + 1 := toInt32_of_range (by omega) (by omega)
    obtain ⟨t, ht⟩ := Finset.card_pos.mp (show 0 < s.waiting.card by omega)
    unfold increment
    simp only [hnew]
    rw [if_neg (by omega)]
    refine ⟨?_, ?_, t, .inl ht⟩
    · show s.counter + 1 < 0
      omega
    · push_cast
      omega
  · have hbelow : s.counter < 0 := not_le.mp hnot
    have hpos : 0 < s.woken.card := Finset.card_pos.mpr ⟨t, hwoken⟩
    unfold test
    rw [if_pos (by exact hbelow)]
    refine ⟨hbelow, ?_, t, .inl (Finset.mem_insert_self t s.waiting)⟩
    dsimp only
    omega

/-! ### Runs -/

omit [DecidableEq τ] in
theorem start_accounts (hpos : 0 ≤ initial) (hle : initial ≤ 2147483647) :
    Accounts initial 0 (start initial programs) := by
  refine ⟨Finset.disjoint_empty_left _, ?_, ?_, hle, ?_⟩
  · simp [start]
  · show -2147483648 ≤ initial
    omega
  · simpa [start] using hpos

omit [DecidableEq τ] in
theorem start_queued (hpos : 0 ≤ initial) : (start initial programs).Queued := by
  unfold Queued start
  simpa using hpos

/-- A step of a run in which the counter stays in its range. -/
def StepInRange (s s' : Semaphore τ) : Prop := ∃ e, s.step e = some s' ∧ s.InRange e

/-- A step of a run in which nobody is passed over, either. -/
def CalmStep (s s' : Semaphore τ) : Prop := ∃ e, s.step e = some s' ∧ s.InRange e ∧ s.Calm e

theorem accounts_of_run (hpos : 0 ≤ initial) (hle : initial ≤ 2147483647)
    (h : ReflTransGen StepInRange (start initial programs) s) : Accounts initial 0 s := by
  induction h with
  | refl => exact start_accounts hpos hle
  | tail _ hstep ih =>
      obtain ⟨e, hstep, hrange⟩ := hstep
      exact ih.step hstep hrange

theorem inRange_of_calm {s₀ : Semaphore τ} (h : ReflTransGen CalmStep s₀ s) :
    ReflTransGen StepInRange s₀ s := by
  refine ReflTransGen.mono ?_ _ _ h
  rintro _ _ ⟨e, hstep, hrange, -⟩
  exact ⟨e, hstep, hrange⟩

theorem queued_of_run (hpos : 0 ≤ initial) (hle : initial ≤ 2147483647)
    (h : ReflTransGen CalmStep (start initial programs) s) : s.Queued := by
  induction h with
  | refl => exact start_queued hpos
  | tail hrun hstep ih =>
      obtain ⟨e, hstep, hrange, hcalm⟩ := hstep
      have haccounts := accounts_of_run hpos hle (inRange_of_calm hrun)
      exact ih.step haccounts hstep hrange hcalm

/-- The semaphore keeps its promise in every run in which nobody is passed over.  If then somebody is, a
call is blocked that has a right to be completed, and the counter says that there is no room for it. -/
theorem law_of_calm (hpos : 0 ≤ initial) (hle : initial ≤ 2147483647)
    (h : ReflTransGen CalmStep (start initial programs) s) :
    Law initial s ∧
      ∀ e s', s.step e = some s' → s.InRange e → ¬ s.Calm e →
        s'.counter < 0 ∧ (s'.downs : ℤ) < initial + s'.ups ∧ ∃ t, s'.Blocked t := by
  have haccounts := accounts_of_run hpos hle (inRange_of_calm h)
  have hqueued := queued_of_run hpos hle h
  refine ⟨⟨haccounts.safe, fun hstuck t ht => hqueued.live haccounts hstuck ht⟩, ?_⟩
  intro e s' hstep hrange hnot
  exact hqueued.passedOver haccounts hstep hrange hnot

theorem law_of_calm_handover :
    ∃ s : Semaphore (Fin 2), ReflTransGen CalmStep (start 0 ![[.down], [.up]]) s ∧
      s.downs = 1 ∧ Law 0 s := by
  have hrun : ∃ s : Semaphore (Fin 2), ReflTransGen CalmStep (start 0 ![[.down], [.up]]) s ∧
      s.downs = 1 :=
    ⟨_, .tail (.tail (.single ⟨.down 0, rfl, by decide, trivial⟩) ⟨.up 1, rfl, by decide, by decide⟩)
      ⟨.wake 0, rfl, trivial, by decide⟩, rfl⟩
  obtain ⟨s, hrun, hdowns⟩ := hrun
  exact ⟨s, hrun, hdowns, (law_of_calm (by decide) (by decide) hrun).1⟩

/-- Two threads wait, and a third one makes room for one of them. -/
theorem up_wakes_nobody :
    ∃ s : Semaphore (Fin 3), Reachable 0 ![[.down], [.down], [.up]] s ∧ s.Stuck ∧ s.Blocked 0 ∧
      (s.downs : ℤ) < 0 + s.ups := by
  refine ⟨_, .tail (.tail (.single ⟨.down 0, rfl⟩) ⟨.down 1, rfl⟩) ⟨.up 2, rfl⟩, ?_, ?_, ?_⟩
  · rintro (t | t | t) <;> fin_cases t <;> rfl
  · decide
  · decide

end Semaphore

end Fli4ld
end Mkfli4l
