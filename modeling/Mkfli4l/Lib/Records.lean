import Mathlib.Tactic

/-!
# Records that say how long they are

A range of bytes holds records one after the other.  The header of a record says how long it is, and the
next one begins behind that length, rounded up to a multiple of four.  A loop over the records subtracts
the rounded length from what remains of the range.  It does not get to its end if the last record has too
little behind it to be rounded up, and otherwise if its body comes through for every record.
-/

namespace Mkfli4l
namespace Lib

/-- A length rounded up to a multiple of four. -/
def roundUp (n : ℕ) : ℕ := (n + 3) / 4 * 4

theorem le_roundUp (n : ℕ) : n ≤ roundUp n := by
  unfold roundUp
  omega

/-- Where a record begins, how long it is, and how much of the range remains from there on. -/
structure Record where
  pos : ℕ
  length : ℕ
  room : ℕ
deriving DecidableEq

/-- What remains goes on to where the next record would begin. -/
def Record.Padded (r : Record) : Prop := roundUp r.length ≤ r.room

instance (r : Record) : Decidable r.Padded := inferInstanceAs (Decidable (_ ≤ _))

section Records

variable (header : ℕ) (total : ℕ → ℕ)

/-- The records of a range, if they are no more than the number that is given first. -/
def recordsUpTo : ℕ → ℕ → ℕ → List Record
  | 0, _, _ => []
  | n + 1, pos, room =>
      if header ≤ room ∧ header ≤ total pos ∧ total pos ≤ room then
        ⟨pos, total pos, room⟩ :: recordsUpTo n (pos + roundUp (total pos)) (room - roundUp (total pos))
      else []

/-- The records from a position on, in a range of some bytes.  What is shorter than a header or longer than
what remains is none. -/
def records (pos room : ℕ) : List Record := recordsUpTo header total room pos room

variable {header total} {pos room : ℕ} {r : Record}

theorem recordsUpTo_eq (hheader : 0 < header) {n : ℕ} (h : room ≤ n) :
    recordsUpTo header total n pos room = records header total pos room := by
  unfold records
  induction n using Nat.strong_induction_on generalizing pos room with
  | _ n ih =>
      by_cases hroom : room = 0
      · subst hroom
        cases n with
        | zero => rfl
        | succ n =>
            have hnot : ¬ (header ≤ 0 ∧ header ≤ total pos ∧ total pos ≤ 0) := by omega
            exact if_neg hnot
      · obtain ⟨m, rfl⟩ := Nat.exists_eq_succ_of_ne_zero hroom
        obtain ⟨k, rfl⟩ : ∃ k, n = k + 1 := ⟨n - 1, by omega⟩
        rw [recordsUpTo, recordsUpTo]
        split
        · have hle := le_roundUp (total pos)
          rw [ih k (by omega) (by omega), ih m (by omega) (by omega)]
        · rfl

theorem records_of_header (hheader : 0 < header) (h : header ≤ room ∧ header ≤ total pos ∧ total pos ≤ room) :
    records header total pos room = ⟨pos, total pos, room⟩ ::
      records header total (pos + roundUp (total pos)) (room - roundUp (total pos)) := by
  have hle := le_roundUp (total pos)
  obtain ⟨m, rfl⟩ : ∃ m, room = m + 1 := ⟨room - 1, by omega⟩
  rw [records, recordsUpTo, if_pos h, recordsUpTo_eq hheader (by omega)]

theorem records_of_not (h : ¬ (header ≤ room ∧ header ≤ total pos ∧ total pos ≤ room)) :
    records header total pos room = [] := by
  unfold records
  cases room with
  | zero => rfl
  | succ n => rw [recordsUpTo, if_neg h]

theorem mem_records (hheader : 0 < header) (h : r ∈ records header total pos room) :
    pos ≤ r.pos ∧ r.pos + r.room = pos + room ∧ header ≤ r.length ∧ r.length ≤ r.room := by
  induction hlen : room using Nat.strong_induction_on generalizing pos room with
  | _ len ih =>
      subst hlen
      by_cases hfirst : header ≤ room ∧ header ≤ total pos ∧ total pos ≤ room
      · rw [records_of_header hheader hfirst] at h
        rcases List.mem_cons.mp h with rfl | hrest
        · exact ⟨Nat.le.refl, rfl, hfirst.2⟩
        · have hle := le_roundUp (total pos)
          obtain ⟨hpos, hend, hlength⟩ := ih _ (by omega) hrest rfl
          refine ⟨by omega, ?_, hlength⟩
          have hroom : 0 < room - roundUp (total pos) := by omega
          omega
      · rw [records_of_not hfirst] at h
        exact nomatch h

end Records

/-! ### Loops over records -/

section Loops

variable {ε σ : Type*}

/-- A loop over the records of a range.  The length of a record is read when there is room for a header,
and the rounded length is subtracted behind the body, with an error if it is more than what remains. -/
def recordLoop (header : ℕ) [NeZero header] (lengthAt : ℕ → Except ε ℕ) (wraps : ε)
    (body : Record → σ → Except ε σ) (pos room : ℕ) (s : σ) : Except ε σ :=
  if header ≤ room then
    match lengthAt pos with
    | .error e => .error e
    | .ok n =>
        if header ≤ n ∧ n ≤ room then
          match body ⟨pos, n, room⟩ s with
          | .error e => .error e
          | .ok s =>
              if roundUp n ≤ room then
                recordLoop header lengthAt wraps body (pos + roundUp n) (room - roundUp n) s
              else .error wraps
        else .ok s
  else .ok s
termination_by room
decreasing_by
  have hheader := Nat.pos_of_ne_zero (NeZero.ne header)
  have hle := le_roundUp n
  omega

variable {header : ℕ} [NeZero header] {lengthAt : ℕ → Except ε ℕ} {wraps : ε} {body : Record → σ → Except ε σ}
  {total : ℕ → ℕ} {P : Record → Prop} {pos room : ℕ}

theorem recordLoop_ok_iff (hread : ∀ p, p + header ≤ pos + room → lengthAt p = .ok (total p))
    (hbody : ∀ r ∈ records header total pos room, ∀ s, (∃ s', body r s = .ok s') ↔ P r) (s : σ) :
    (∃ s', recordLoop header lengthAt wraps body pos room s = .ok s') ↔
      ∀ r ∈ records header total pos room, P r ∧ r.Padded := by
  have hheader := Nat.pos_of_ne_zero (NeZero.ne header)
  induction hlen : room using Nat.strong_induction_on generalizing pos room s with
  | _ len ih =>
      subst hlen
      rw [recordLoop]
      by_cases hroom : header ≤ room
      · rw [if_pos hroom, hread pos (by omega)]
        dsimp only
        by_cases hfirst : header ≤ total pos ∧ total pos ≤ room
        · rw [if_pos hfirst, records_of_header hheader ⟨hroom, hfirst⟩, List.forall_mem_cons]
          rw [records_of_header hheader ⟨hroom, hfirst⟩, List.forall_mem_cons] at hbody
          obtain ⟨hown, hrest⟩ := hbody
          rw [← hown s]
          cases hstep : body ⟨pos, total pos, room⟩ s with
          | error e => simp
          | ok s₁ =>
              dsimp only
              by_cases hpadded : roundUp (total pos) ≤ room
              · have hle := le_roundUp (total pos)
                have hown' : (∃ s', Except.ok s₁ = (Except.ok s' : Except ε σ)) ∧
                    Record.Padded ⟨pos, total pos, room⟩ := ⟨⟨s₁, rfl⟩, hpadded⟩
                rw [if_pos hpadded, and_iff_right hown']
                exact ih _ (by omega) (fun p hp => hread p (by omega)) hrest s₁ rfl
              · -- the subtraction wraps around: no later record is looked at
                rw [if_neg hpadded]
                exact iff_of_false (fun ⟨s', hs'⟩ => nomatch hs') fun hall => hpadded hall.1.2
        · rw [if_neg hfirst, records_of_not fun h => hfirst h.2]
          exact iff_of_true ⟨s, rfl⟩ nofun
      · rw [if_neg hroom, records_of_not fun h => hroom h.1]
        exact iff_of_true ⟨s, rfl⟩ nofun

end Loops

end Lib
end Mkfli4l
