import Mkfli4l.Imond.Transfer

/-!
# Receiving a file

`receive_file` reads the announced number of bytes in blocks and hands each piece over to `fwrite`.  It
returns `OK` if and only if all bytes have arrived, except that the result of `read` goes into an unsigned
variable: the value `-1` for an error is taken for a length.  Besides, `fwrite` need not write anything: what
it accepts may wait in a buffer until the file is closed, and nobody looks at whether `fclose` succeeds.
`receivesRight_iff` says that these are the only ways, besides a negative size, in which it can go wrong.
-/

namespace Mkfli4l
namespace Imond
namespace Receive

open Lib Transfer

/-! ### The function -/

/-- What a call of `read` returns: some bytes, nothing at the end of the stream, or an error. -/
inductive ReadResult
  | data (bytes : Bytes)
  | eof
  | error

/-- A call of `read`, and whether the `fwrite` behind it accepts the bytes. -/
structure Event where
  result : ReadResult
  written : Bool

/-- `bytes_read`, a `size_t`. -/
def ReadResult.bytesRead : ReadResult → ℕ
  | .data bytes => bytes.length
  | .eof => 0
  | .error => 2 ^ 64 - 1

/-- What `read` can return if it is asked for `count` bytes. -/
def ReadResult.Possible (count : ℕ) : ReadResult → Prop
  | .data bytes => 1 ≤ bytes.length ∧ bytes.length ≤ count
  | _ => True

instance (count : ℕ) (result : ReadResult) : Decidable (result.Possible count) := by
  cases result
  · exact inferInstanceAs (Decidable (_ ∧ _))
  · exact .isTrue trivial
  · exact .isTrue trivial

/-- What the file holds when it is closed, what `fwrite` has accepted, what `read` has put into the buffer,
the lengths that have been passed to `read` and `fwrite`, and what has been sent to the client. -/
structure State where
  file : Bytes
  accepted : Bytes
  received : Bytes
  lengths : List ℕ
  sent : Bytes

/-- How it ends: `receive_file` returns `OK` or not, it waits for more bytes, or `fwrite` reads behind the
buffer and the behaviour is undefined. -/
inductive Outcome
  | returned (ok : Bool)
  | waiting
  | undefined
deriving DecidableEq

/-- The end of a block: it is complete, with the calls that are left, or `receive_file` ends. -/
inductive BlockEnd
  | complete (rest : List Event)
  | stopped (outcome : Outcome)

/-- The inner loop.  `none` means that a call returns what it cannot return. -/
def receiveBlock (bytesToReceive : ℕ) : ℕ → List Event → State → Option (BlockEnd × State)
  | _, [], s => some (.stopped .waiting, s)
  | bytesSum, e :: events, s =>
      let count := bytesToReceive - bytesSum
      let s := { s with lengths := s.lengths ++ [count] }
      if e.result.Possible count then
        if e.result.bytesRead = 0 then some (.stopped (.returned false), { s with sent := s.sent ++ [nak] })
        else
          let s := { s with lengths := s.lengths ++ [e.result.bytesRead] }
          match e.result with
          | .data bytes =>
              let s := { s with received := s.received ++ bytes }
              if e.written then
                let s := { s with accepted := s.accepted ++ bytes }
                if bytesSum + bytes.length < bytesToReceive then
                  receiveBlock bytesToReceive (bytesSum + bytes.length) events s
                else some (.complete events, s)
              else some (.stopped (.returned false), { s with sent := s.sent ++ [nak] })
          | _ => some (.stopped .undefined, s)
      else none

/-- The outer loop. -/
def receiveLoop (nbytes : ℤ) (events : List Event) (s : State) : Option (Outcome × State) :=
  if 0 < nbytes then
    let s := { s with sent := s.sent ++ [Transfer.ack] }
    if nbytes < blockSize then
      match receiveBlock nbytes.toNat 0 events s with
      | none => none
      | some (.stopped outcome, s) => some (outcome, s)
      | some (.complete rest, s) => receiveLoop 0 rest s
    else
      match receiveBlock blockSize 0 events s with
      | none => none
      | some (.stopped outcome, s) => some (outcome, s)
      | some (.complete rest, s) => receiveLoop (nbytes - blockSize) rest s
  else some (.returned true, { s with sent := s.sent ++ [Transfer.ack] })
termination_by nbytes.toNat
decreasing_by
  · omega
  · have hpos : 0 < blockSize := by decide
    omega

/-- `fclose`.  Until then the C library keeps what it has accepted, or a part of it, in a buffer of its own;
in the end the file holds the first `stored` bytes. -/
def State.fclose (stored : ℕ) (s : State) : State := { s with file := s.accepted.take stored }

/-- `receive_file`.  The result of `fclose` is not looked at. -/
def receiveFile (canOpen : Bool) (nbytes : ℤ) (events : List Event) (stored : ℕ) : Option (Outcome × State) :=
  if canOpen then
    match receiveLoop nbytes events ⟨[], [], [], [], []⟩ with
    | none => none
    | some (.returned ok, s) => some (.returned ok, s.fclose stored)
    | some (outcome, s) => some (outcome, s)
  else some (.returned false, ⟨[], [], [], [], [nak]⟩)

/-! ### Without blocks -/

/-- Receiving `n` bytes without blocks: the outcome, what has been received and what has been accepted. -/
inductive Course : ℕ → List Event → Outcome → Bytes → Bytes → Prop
  | done (events) : Course 0 events (.returned true) [] []
  | waiting {n} : 0 < n → Course n [] .waiting [] []
  | eof {n} (written events) : 0 < n → Course n (⟨.eof, written⟩ :: events) (.returned false) [] []
  | error {n} (written events) : 0 < n → Course n (⟨.error, written⟩ :: events) .undefined [] []
  | refused {n bytes} (events) : 1 ≤ bytes.length → bytes.length ≤ n →
      Course n (⟨.data bytes, false⟩ :: events) (.returned false) bytes []
  | piece {n bytes events outcome received accepted} : 1 ≤ bytes.length → bytes.length ≤ n →
      Course (n - bytes.length) events outcome received accepted →
      Course n (⟨.data bytes, true⟩ :: events) outcome (bytes ++ received) (bytes ++ accepted)

/-- The lengths do not exceed the buffer. -/
def State.InBuffer (s : State) : Prop := ∀ length ∈ s.lengths, length ≤ blockSize

theorem State.InBuffer.append {s : State} (h : s.InBuffer) {length : ℕ} (hle : length ≤ blockSize) :
    ∀ l ∈ s.lengths ++ [length], l ≤ blockSize := by
  intro l hl
  rcases List.mem_append.mp hl with hold | hnew
  · exact h l hold
  · rw [List.mem_singleton.mp hnew]
    exact hle

/-- What a block contributes to the course.  Behind it `n` more bytes are to be received. -/
def BlockEnd.Fits (n left : ℕ) (events : List Event) (s s' : State) : BlockEnd → Prop
  | .complete rest => s'.InBuffer ∧ ∃ bytes, s'.received = s.received ++ bytes ∧
      s'.accepted = s.accepted ++ bytes ∧
      ∀ outcome received accepted, Course n rest outcome received accepted →
        Course (left + n) events outcome (bytes ++ received) (bytes ++ accepted)
  | .stopped outcome => (outcome = .undefined ∨ s'.InBuffer) ∧ (outcome = .undefined → ¬ s'.InBuffer) ∧
      ∃ received accepted, s'.received = s.received ++ received ∧ s'.accepted = s.accepted ++ accepted ∧
        Course (left + n) events outcome received accepted

theorem BlockEnd.Fits.piece {n left : ℕ} {bytes : Bytes} {events : List Event} {s s₁ s' : State}
    {blockEnd : BlockEnd} (h : blockEnd.Fits n (left - bytes.length) events s₁ s')
    (hreceived : s₁.received = s.received ++ bytes) (haccepted : s₁.accepted = s.accepted ++ bytes)
    (hone : 1 ≤ bytes.length) (hmany : bytes.length ≤ left) :
    blockEnd.Fits n left (⟨.data bytes, true⟩ :: events) s s' := by
  cases blockEnd with
  | complete rest =>
      obtain ⟨hbuffer, more, hreceived', haccepted', hcourse⟩ := h
      refine ⟨hbuffer, bytes ++ more, ?_, ?_, ?_⟩
      · rw [hreceived', hreceived, List.append_assoc]
      · rw [haccepted', haccepted, List.append_assoc]
      · intro outcome received accepted hrest
        rw [List.append_assoc, List.append_assoc]
        apply Course.piece hone (by omega)
        rw [Nat.sub_add_comm hmany]
        exact hcourse outcome received accepted hrest
  | stopped outcome =>
      obtain ⟨hbuffer, hundefined, received, accepted, hreceived', haccepted', hcourse⟩ := h
      refine ⟨hbuffer, hundefined, bytes ++ received, bytes ++ accepted, ?_, ?_, ?_⟩
      · rw [hreceived', hreceived, List.append_assoc]
      · rw [haccepted', haccepted, List.append_assoc]
      · apply Course.piece hone (by omega)
        rw [Nat.sub_add_comm hmany]
        exact hcourse

theorem receiveBlock_fits (n : ℕ) {bytesToReceive bytesSum : ℕ} {events : List Event} {s s' : State}
    {blockEnd : BlockEnd} (h : receiveBlock bytesToReceive bytesSum events s = some (blockEnd, s'))
    (hs : s.InBuffer) (hle : bytesToReceive ≤ blockSize) (hlt : bytesSum < bytesToReceive) :
    blockEnd.Fits n (bytesToReceive - bytesSum) events s s' := by
  induction events generalizing bytesSum s with
  | nil =>
      simp only [receiveBlock, Option.some.injEq, Prod.mk.injEq] at h
      obtain ⟨rfl, rfl⟩ := h
      exact ⟨.inr hs, nofun, [], [], by simp, by simp, .waiting (by omega)⟩
  | cons e events ih =>
      obtain ⟨result, written⟩ := e
      have hcount := hs.append (show bytesToReceive - bytesSum ≤ blockSize by omega)
      rw [receiveBlock] at h
      dsimp only at h
      split at h
      · next hpossible =>
          cases result with
          | eof =>
              simp only [ReadResult.bytesRead, if_true, Option.some.injEq, Prod.mk.injEq] at h
              obtain ⟨rfl, rfl⟩ := h
              exact ⟨.inr hcount, nofun, [], [], by simp, by simp, .eof _ _ (by omega)⟩
          | error =>
              -- as a `size_t`, the -1 of `read` is longer than the buffer
              simp [ReadResult.bytesRead] at h
              obtain ⟨rfl, rfl⟩ := h
              refine ⟨.inl rfl, ?_, [], [], by simp, by simp, .error _ _ (by omega)⟩
              intro _ hbuffer
              have hlong := hbuffer (2 ^ 64 - 1) (by simp)
              exact absurd hlong (by decide)
          | data bytes =>
              obtain ⟨hone, hmany⟩ : 1 ≤ bytes.length ∧ bytes.length ≤ bytesToReceive - bytesSum := hpossible
              have hne : ¬ bytes.length = 0 := by omega
              simp only [ReadResult.bytesRead, hne, if_false] at h
              have hboth : ∀ l ∈ s.lengths ++ [bytesToReceive - bytesSum] ++ [bytes.length], l ≤ blockSize :=
                State.InBuffer.append (s := { s with lengths := s.lengths ++ [bytesToReceive - bytesSum] })
                  hcount (by omega)
              cases written with
              | false =>
                  simp only [Bool.false_eq_true, if_false, Option.some.injEq, Prod.mk.injEq] at h
                  obtain ⟨rfl, rfl⟩ := h
                  exact ⟨.inr hboth, nofun, bytes, [], rfl, by simp, .refused _ hone (by omega)⟩
              | true =>
                  simp only [if_true] at h
                  split at h
                  · next hmore =>
                      -- the block goes on, with less to receive
                      have hnext := ih h hboth hmore
                      rw [← Nat.sub_sub] at hnext
                      exact hnext.piece rfl rfl hone hmany
                  · next hlast =>
                      simp only [Option.some.injEq, Prod.mk.injEq] at h
                      obtain ⟨rfl, rfl⟩ := h
                      refine ⟨hboth, bytes, rfl, rfl, ?_⟩
                      intro outcome received accepted hrest
                      apply Course.piece hone (by omega)
                      have hnone : bytesToReceive - bytesSum + n - bytes.length = n := by omega
                      rw [hnone]
                      exact hrest
      · contradiction

/-- The loop over the blocks. -/
theorem receiveLoop_fits {nbytes : ℤ} {events : List Event} {s s' : State} {outcome : Outcome}
    (h : receiveLoop nbytes events s = some (outcome, s')) (hs : s.InBuffer) :
    (outcome = .undefined ∨ s'.InBuffer) ∧ (outcome = .undefined → ¬ s'.InBuffer) ∧
      ∃ received accepted, s'.received = s.received ++ received ∧ s'.accepted = s.accepted ++ accepted ∧
        Course nbytes.toNat events outcome received accepted := by
  have hsize : (blockSize : ℤ) = 1024 := rfl
  induction hn : nbytes.toNat using Nat.strong_induction_on generalizing nbytes events s with
  | _ m ih =>
      rw [receiveLoop] at h
      split at h
      · next hpos =>
          -- both kinds of blocks: a number of bytes now and the rest afterwards
          have hblock (now : ℕ) (later : ℤ) (hnow : 0 < now) (hle : now ≤ blockSize)
              (hsum : now + later.toNat = m)
              (h : (match receiveBlock now 0 events { s with sent := s.sent ++ [Transfer.ack] } with
                | none => none
                | some (.stopped outcome, s) => some (outcome, s)
                | some (.complete rest, s) => receiveLoop later rest s) = some (outcome, s')) :
              (outcome = .undefined ∨ s'.InBuffer) ∧ (outcome = .undefined → ¬ s'.InBuffer) ∧
                ∃ received accepted, s'.received = s.received ++ received ∧
                  s'.accepted = s.accepted ++ accepted ∧
                  Course m events outcome received accepted := by
            cases hrun : receiveBlock now 0 events { s with sent := s.sent ++ [Transfer.ack] } with
            | none =>
                rw [hrun] at h
                contradiction
            | some result =>
                obtain ⟨blockEnd, s₁⟩ := result
                have hfits := receiveBlock_fits later.toNat hrun hs hle hnow
                rw [Nat.sub_zero] at hfits
                rw [hrun] at h
                cases blockEnd with
                | stopped outcome₁ =>
                    simp only [Option.some.injEq, Prod.mk.injEq] at h
                    obtain ⟨rfl, rfl⟩ := h
                    rw [← hsum]
                    exact hfits
                | complete rest =>
                    obtain ⟨hbuffer, bytes, hreceived, haccepted, hcourse⟩ := hfits
                    -- the block is complete, and the loop goes on with the rest of the calls
                    obtain ⟨hin, hout, received, accepted, hreceived', haccepted', hrest⟩ :=
                      ih later.toNat (by omega) h hbuffer rfl
                    refine ⟨hin, hout, bytes ++ received, bytes ++ accepted, ?_, ?_, ?_⟩
                    · rw [hreceived', hreceived, List.append_assoc]
                    · rw [haccepted', haccepted, List.append_assoc]
                    · rw [← hsum]
                      exact hcourse outcome received accepted hrest
          dsimp only at h
          split at h
          · next hlt => exact hblock nbytes.toNat 0 (by omega) (by omega) (by omega) h
          · next hge => exact hblock blockSize (nbytes - blockSize) (by decide) (le_refl _) (by omega) h
      · next hnone =>
          simp only [Option.some.injEq, Prod.mk.injEq] at h
          obtain ⟨rfl, rfl⟩ := h
          have hzero : m = 0 := by omega
          rw [hzero]
          exact ⟨.inr hs, nofun, [], [], by simp, by simp, .done events⟩

/-! ### When it is right -/

/-- The bytes of a call of `read`. -/
def Event.bytes (e : Event) : Bytes :=
  match e.result with
  | .data bytes => bytes
  | _ => []

/-- A call of `read` that returns some bytes, which `fwrite` accepts. -/
def Event.Arrives (e : Event) : Prop := ∃ bytes, e = ⟨.data bytes, true⟩

/-- A call of `read` returns an error before `n` bytes have been received. -/
def ErrorReached (n : ℕ) (events : List Event) : Prop :=
  ∃ used written rest, events = used ++ ⟨.error, written⟩ :: rest ∧ (∀ e ∈ used, e.Arrives) ∧
    (used.flatMap Event.bytes).length < n

variable {n : ℕ} {events : List Event} {outcome : Outcome} {received accepted bytes : Bytes} {written : Bool}

theorem ErrorReached.cons (h : 0 < n) : ErrorReached n (⟨.error, written⟩ :: events) :=
  ⟨[], written, events, rfl, nofun, h⟩

theorem errorReached_piece (hle : bytes.length ≤ n) :
    ErrorReached n (⟨.data bytes, true⟩ :: events) ↔ ErrorReached (n - bytes.length) events := by
  constructor
  · rintro ⟨used, written, rest, hevents, harrive, hlt⟩
    cases used with
    | nil => cases hevents
    | cons e used =>
        obtain ⟨rfl, rfl⟩ := List.cons.inj hevents
        rw [List.flatMap_cons, List.length_append] at hlt
        refine ⟨used, written, rest, rfl, fun e he => harrive e (List.mem_cons_of_mem _ he), ?_⟩
        have hfirst : (Event.bytes ⟨.data bytes, true⟩).length = bytes.length := rfl
        omega
  · rintro ⟨used, written, rest, rfl, harrive, hlt⟩
    refine ⟨⟨.data bytes, true⟩ :: used, written, rest, rfl, ?_, ?_⟩
    · exact List.forall_mem_cons.mpr ⟨⟨bytes, rfl⟩, harrive⟩
    · rw [List.flatMap_cons, List.length_append]
      show bytes.length + (used.flatMap Event.bytes).length < n
      omega

theorem not_errorReached_cons {e : Event} (herror : e.result ≠ .error) (harrives : ¬ e.Arrives) :
    ¬ ErrorReached n (e :: events) := by
  rintro ⟨used, written, rest, hevents, harrive, -⟩
  cases used with
  | nil =>
      obtain ⟨rfl, -⟩ := List.cons.inj hevents
      exact herror rfl
  | cons e' used =>
      obtain ⟨rfl, -⟩ := List.cons.inj hevents
      exact harrives (harrive e List.mem_cons_self)

theorem Course.undefined_iff (h : Course n events outcome received accepted) :
    outcome = .undefined ↔ ErrorReached n events := by
  induction h with
  | done events => exact iff_of_false nofun fun ⟨_, _, _, _, _, hlt⟩ => absurd hlt (Nat.not_lt_zero _)
  | waiting hpos => exact iff_of_false nofun fun ⟨used, _, _, hevents, _⟩ => by cases used <;> cases hevents
  | eof written events hpos => exact iff_of_false nofun (not_errorReached_cons nofun nofun)
  | error written events hpos => exact iff_of_true rfl (.cons hpos)
  | refused events hone hle =>
      refine iff_of_false nofun (not_errorReached_cons nofun ?_)
      rintro ⟨bytes, heq⟩
      cases heq
  | piece hone hle hrest ih => rw [errorReached_piece hle, ih]

theorem Course.ok_iff (h : Course n events outcome received accepted) :
    outcome = .returned true ↔ accepted = received ∧ received.length = n := by
  induction h with
  | done events => exact iff_of_true rfl ⟨rfl, rfl⟩
  | waiting hpos => exact iff_of_false nofun fun h => absurd h.2 hpos.ne
  | eof written events hpos => exact iff_of_false nofun fun h => absurd h.2 hpos.ne
  | error written events hpos => exact iff_of_false nofun fun h => absurd h.2 hpos.ne
  | refused events hone hle =>
      refine iff_of_false nofun fun h => ?_
      rw [← h.1] at hone
      exact absurd hone (by decide)
  | piece hone hle hrest ih =>
      rw [ih, List.append_right_inj, List.length_append]
      apply and_congr_right
      intro _
      omega

/-- All of `n` bytes are received and accepted. -/
def Completes (n : ℕ) (events : List Event) : Prop :=
  ∃ used rest, events = used ++ rest ∧ (∀ e ∈ used, e.Arrives) ∧ (used.flatMap Event.bytes).length = n

theorem not_completes_cons {e : Event} (hpos : 0 < n) (harrives : ¬ e.Arrives) :
    ¬ Completes n (e :: events) := by
  rintro ⟨used, rest, hevents, harrive, hlength⟩
  cases used with
  | nil => exact hpos.ne hlength
  | cons e' used =>
      obtain ⟨rfl, -⟩ := List.cons.inj hevents
      exact harrives (harrive e List.mem_cons_self)

theorem completes_piece (hone : 1 ≤ bytes.length) (hle : bytes.length ≤ n) :
    Completes n (⟨.data bytes, true⟩ :: events) ↔ Completes (n - bytes.length) events := by
  have hsum : ∀ used, ((⟨.data bytes, true⟩ :: used : List Event).flatMap Event.bytes).length =
      bytes.length + (used.flatMap Event.bytes).length := fun used => by
    rw [List.flatMap_cons, List.length_append]
    rfl
  constructor
  · rintro ⟨used, rest, hevents, harrive, hlength⟩
    cases used with
    | nil =>
        have hzero : 0 = n := hlength
        omega
    | cons e used =>
        obtain ⟨rfl, rfl⟩ := List.cons.inj hevents
        rw [hsum] at hlength
        exact ⟨used, rest, rfl, fun e he => harrive e (List.mem_cons_of_mem _ he), by omega⟩
  · rintro ⟨used, rest, rfl, harrive, hlength⟩
    refine ⟨⟨.data bytes, true⟩ :: used, rest, rfl, List.forall_mem_cons.mpr ⟨⟨bytes, rfl⟩, harrive⟩, ?_⟩
    rw [hsum]
    omega

theorem Course.completes_iff (h : Course n events outcome received accepted) :
    outcome = .returned true ↔ Completes n events := by
  induction h with
  | done events => exact iff_of_true rfl ⟨[], events, rfl, nofun, rfl⟩
  | waiting hpos =>
      refine iff_of_false nofun fun ⟨used, rest, hevents, _, hlength⟩ => ?_
      obtain ⟨rfl, -⟩ := List.append_eq_nil_iff.mp hevents.symm
      exact hpos.ne hlength
  | eof written events hpos => exact iff_of_false nofun (not_completes_cons hpos nofun)
  | error written events hpos => exact iff_of_false nofun (not_completes_cons hpos nofun)
  | refused events hone hle =>
      refine iff_of_false nofun (not_completes_cons (by omega) ?_)
      rintro ⟨bytes, heq⟩
      cases heq
  | piece hone hle hrest ih => rw [completes_piece hone hle, ih]

theorem receiveFile_course {nbytes : ℤ} {stored : ℕ} {s : State}
    (h : receiveFile true nbytes events stored = some (outcome, s)) :
    (outcome = .undefined ∨ s.InBuffer) ∧ (outcome = .undefined → ¬ s.InBuffer) ∧
      (outcome = .returned true → s.file = s.accepted.take stored) ∧
      Course nbytes.toNat events outcome s.received s.accepted := by
  rw [receiveFile, if_pos rfl] at h
  cases hloop : receiveLoop nbytes events ⟨[], [], [], [], []⟩ with
  | none =>
      rw [hloop] at h
      contradiction
  | some result =>
      obtain ⟨outcome₁, s₁⟩ := result
      obtain ⟨hin, hout, received, accepted, hreceived, haccepted, hcourse⟩ := receiveLoop_fits hloop nofun
      rw [List.nil_append] at hreceived haccepted
      rw [← hreceived, ← haccepted] at hcourse
      rw [hloop] at h
      cases outcome₁ with
      | returned ok =>
          -- closing the file changes nothing but the file
          obtain ⟨rfl, rfl⟩ := Prod.mk.inj (Option.some.inj h)
          exact ⟨hin, hout, fun _ => rfl, hcourse⟩
      | waiting =>
          obtain ⟨rfl, rfl⟩ := Prod.mk.inj (Option.some.inj h)
          exact ⟨hin, hout, nofun, hcourse⟩
      | undefined =>
          obtain ⟨rfl, rfl⟩ := Prod.mk.inj (Option.some.inj h)
          exact ⟨hin, hout, nofun, hcourse⟩

/-- No length is greater than the buffer, `OK` is returned if and only if the announced number of bytes has
been received and written, and then the file holds these bytes. -/
structure ReceivesRight (canOpen : Bool) (nbytes : ℤ) (outcome : Outcome) (s : State) : Prop where
  buffer : s.InBuffer
  ok_iff : outcome = .returned true ↔
    canOpen = true ∧ s.accepted = s.received ∧ (s.received.length : ℤ) = nbytes
  file_eq : outcome = .returned true → s.file = s.received

/-- This is so if and only if the file cannot be opened, or the announced size is not negative, no `read`
returns an error before all bytes have been received, and if they all are, they can all be stored. -/
theorem receivesRight_iff {canOpen : Bool} {nbytes : ℤ} {stored : ℕ} {s : State}
    (h : receiveFile canOpen nbytes events stored = some (outcome, s)) :
    ReceivesRight canOpen nbytes outcome s ↔
      (canOpen = true → 0 ≤ nbytes ∧ ¬ ErrorReached nbytes.toNat events ∧
        (Completes nbytes.toNat events → nbytes.toNat ≤ stored)) := by
  cases canOpen with
  | false =>
      simp only [receiveFile, Bool.false_eq_true, if_false, Option.some.injEq, Prod.mk.injEq] at h
      obtain ⟨rfl, rfl⟩ := h
      exact iff_of_true ⟨nofun, iff_of_false nofun fun h => Bool.false_ne_true h.1, nofun⟩ nofun
  | true =>
      obtain ⟨hin, hout, hfile, hcourse⟩ := receiveFile_course h
      have hok := hcourse.ok_iff
      constructor
      · rintro ⟨hbuffer, hiff, hstored⟩ -
        refine ⟨?_, fun herror => hout (hcourse.undefined_iff.mpr herror) hbuffer, fun hall => ?_⟩
        · by_contra hneg
          have hnone : nbytes.toNat = 0 := by omega
          have hdone : outcome = .returned true :=
            hcourse.completes_iff.mpr (by rw [hnone]; exact ⟨[], events, rfl, nofun, rfl⟩)
          obtain ⟨-, -, hlength⟩ := hiff.mp hdone
          omega
        · -- the file holds all bytes, and it holds no more than could be stored
          have hdone := hcourse.completes_iff.mpr hall
          obtain ⟨haccepted, hlength⟩ := hok.mp hdone
          have htake : s.accepted.take stored = s.received := (hfile hdone).symm.trans (hstored hdone)
          rw [haccepted] at htake
          rw [← hlength]
          exact List.take_eq_self_iff s.received |>.mp htake
      · intro hcond
        obtain ⟨hpos, hnone, hstored⟩ := hcond rfl
        refine ⟨?_, ?_, fun hdone => ?_⟩
        · rcases hin with hundefined | hbuffer
          · exact absurd (hcourse.undefined_iff.mp hundefined) hnone
          · exact hbuffer
        · rw [hok]
          constructor
          · rintro ⟨hsame, hlength⟩
            exact ⟨rfl, hsame, by omega⟩
          · rintro ⟨-, hsame, hlength⟩
            exact ⟨hsame, by omega⟩
        · obtain ⟨haccepted, hlength⟩ := hok.mp hdone
          have hroom := hstored (hcourse.completes_iff.mp hdone)
          rw [hfile hdone, haccepted]
          exact List.take_of_length_le (by omega)

/-- Three bytes in two pieces, which can be stored. -/
theorem receivesRight_iff_pieces : ∃ s,
    receiveFile true 3 [⟨.data [1, 2], true⟩, ⟨.data [3], true⟩] 3 = some (.returned true, s) ∧
      s.file = [1, 2, 3] ∧ ReceivesRight true 3 (.returned true) s := by
  have hblock : receiveLoop 3 [⟨.data [1, 2], true⟩, ⟨.data [3], true⟩] ⟨[], [], [], [], []⟩ =
      receiveLoop 0 [] ⟨[], [1, 2, 3], [1, 2, 3], [3, 2, 1, 1], [Transfer.ack]⟩ := by
    rw [receiveLoop, if_pos (by decide)]
    rfl
  have hend : receiveLoop 0 [] ⟨[], [1, 2, 3], [1, 2, 3], [3, 2, 1, 1], [Transfer.ack]⟩ =
      some (.returned true, ⟨[], [1, 2, 3], [1, 2, 3], [3, 2, 1, 1], [Transfer.ack, Transfer.ack]⟩) := by
    rw [receiveLoop, if_neg (by decide)]
    rfl
  have hrun : receiveFile true 3 [⟨.data [1, 2], true⟩, ⟨.data [3], true⟩] 3 =
      some (.returned true, ⟨[1, 2, 3], [1, 2, 3], [1, 2, 3], [3, 2, 1, 1], [Transfer.ack, Transfer.ack]⟩) := by
    rw [receiveFile, if_pos rfl, hblock, hend]
    rfl
  refine ⟨_, hrun, rfl, (receivesRight_iff hrun).mpr fun _ => ⟨by decide, ?_, fun _ => le_refl _⟩⟩
  rintro ⟨used, written, rest, hevents, -⟩
  have hmem : ⟨.error, written⟩ ∈ used ++ ⟨.error, written⟩ :: rest :=
    List.mem_append_right used List.mem_cons_self
  rw [← hevents] at hmem
  simp at hmem

/-- An error instead of five bytes: `fwrite` is called for 2^64 - 1 bytes.  And three bytes of which none can
be stored: `OK` is returned, but the file is empty. -/
theorem receiveFile_error :
    (receiveFile true 5 [⟨.error, false⟩] 0 =
        some (.undefined, ⟨[], [], [], [5, 2 ^ 64 - 1], [Transfer.ack]⟩) ∧
      ¬ ReceivesRight true 5 .undefined ⟨[], [], [], [5, 2 ^ 64 - 1], [Transfer.ack]⟩) ∧
    receiveFile true 3 [⟨.data [1, 2, 3], true⟩] 0 =
        some (.returned true, ⟨[], [1, 2, 3], [1, 2, 3], [3, 3], [Transfer.ack, Transfer.ack]⟩) ∧
      ¬ ReceivesRight true 3 (.returned true)
        ⟨[], [1, 2, 3], [1, 2, 3], [3, 3], [Transfer.ack, Transfer.ack]⟩ := by
  have hloop : receiveLoop 3 [⟨.data [1, 2, 3], true⟩] ⟨[], [], [], [], []⟩ =
      receiveLoop 0 [] ⟨[], [1, 2, 3], [1, 2, 3], [3, 3], [Transfer.ack]⟩ := by
    rw [receiveLoop, if_pos (by decide)]
    rfl
  have hend : receiveLoop 0 [] ⟨[], [1, 2, 3], [1, 2, 3], [3, 3], [Transfer.ack]⟩ =
      some (.returned true, ⟨[], [1, 2, 3], [1, 2, 3], [3, 3], [Transfer.ack, Transfer.ack]⟩) := by
    rw [receiveLoop, if_neg (by decide)]
    rfl
  refine ⟨⟨?_, fun h => ?_⟩, ?_, fun h => ?_⟩
  · rw [receiveFile, if_pos rfl, receiveLoop, if_pos (by decide)]
    rfl
  · exact absurd (h.buffer (2 ^ 64 - 1) (by simp)) (by decide)
  · rw [receiveFile, if_pos rfl, hloop, hend]
    rfl
  · exact absurd (h.file_eq rfl) (by decide)

end Receive
end Imond
end Mkfli4l
