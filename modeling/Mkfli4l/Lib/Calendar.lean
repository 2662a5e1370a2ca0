import Mathlib.Algebra.Group.End
import Mathlib.Tactic

/-!
# Calendars

A calendar with twelve months is given by the lengths of its months.  Its days follow each other, so
that going to the next day is a permutation of its dates, and the date that is `n` days later (earlier,
if `n` is negative) is given by the power of this permutation.

Two calendars can be compared by a function between their dates that takes the next day to the next
day.
-/

namespace Mkfli4l
namespace Lib

/-- A day of a month of a year. -/
@[ext]
structure Date where
  day : ℤ
  month : ℤ
  year : ℤ
deriving DecidableEq, Repr

/-- The number of days of a month of a year. -/
structure Calendar where
  monthDays : ℤ → ℤ → ℤ
  pos : ∀ month year, 1 ≤ month → month ≤ 12 → 1 ≤ monthDays month year

/-- The first day of the month behind a date. -/
def Date.firstOfNext (d : Date) : Date :=
  if 12 < d.month + 1 then ⟨1, 1, d.year + 1⟩ else ⟨1, d.month + 1, d.year⟩

namespace Calendar

variable (C : Calendar)

/-- The dates of a calendar. -/
structure Valid (d : Date) : Prop where
  month_pos : 1 ≤ d.month
  month_le : d.month ≤ 12
  day_pos : 1 ≤ d.day
  day_le : d.day ≤ C.monthDays d.month d.year

/-- A date that there is in the calendar. -/
abbrev ValidDate := {d : Date // C.Valid d}

/-- The last day of the month in front of a date. -/
def lastOfPrev (d : Date) : Date :=
  if d.month - 1 = 0 then ⟨C.monthDays 12 (d.year - 1), 12, d.year - 1⟩
  else ⟨C.monthDays (d.month - 1) d.year, d.month - 1, d.year⟩

/-- The next day. -/
def next (d : Date) : Date :=
  if d.day < C.monthDays d.month d.year then ⟨d.day + 1, d.month, d.year⟩ else d.firstOfNext

/-- The day before. -/
def prev (d : Date) : Date :=
  if 1 < d.day then ⟨d.day - 1, d.month, d.year⟩ else C.lastOfPrev d

variable {C} {d : Date}

theorem Valid.firstOfNext (h : C.Valid d) : C.Valid d.firstOfNext := by
  have hmonth := h.month_pos
  have hmonth' := h.month_le
  unfold Date.firstOfNext
  split
  · refine ⟨?_, ?_, ?_, ?_⟩
    · show (1 : ℤ) ≤ 1
      omega
    · show (1 : ℤ) ≤ 12
      omega
    · show (1 : ℤ) ≤ 1
      omega
    · exact C.pos 1 (d.year + 1) (by omega) (by omega)
  · next hle =>
      refine ⟨?_, ?_, ?_, ?_⟩
      · show 1 ≤ d.month + 1
        omega
      · show d.month + 1 ≤ 12
        omega
      · show (1 : ℤ) ≤ 1
        omega
      · exact C.pos (d.month + 1) d.year (by omega) (by omega)

theorem Valid.lastOfPrev (h : C.Valid d) : C.Valid (C.lastOfPrev d) := by
  have hmonth := h.month_pos
  have hmonth' := h.month_le
  unfold Calendar.lastOfPrev
  split
  · have hpos := C.pos 12 (d.year - 1) (by omega) (by omega)
    refine ⟨?_, ?_, hpos, ?_⟩
    · show (1 : ℤ) ≤ 12
      omega
    · show (12 : ℤ) ≤ 12
      omega
    · exact le_refl (C.monthDays 12 (d.year - 1))
  · have hpos := C.pos (d.month - 1) d.year (by omega) (by omega)
    refine ⟨?_, ?_, hpos, ?_⟩
    · show 1 ≤ d.month - 1
      omega
    · show d.month - 1 ≤ 12
      omega
    · exact le_refl (C.monthDays (d.month - 1) d.year)

theorem Valid.next (h : C.Valid d) : C.Valid (C.next d) := by
  unfold Calendar.next
  split
  · next hlt =>
      have hday := h.day_pos
      refine ⟨h.month_pos, h.month_le, ?_, ?_⟩
      · show 1 ≤ d.day + 1
        omega
      · show d.day + 1 ≤ C.monthDays d.month d.year
        omega
  · exact h.firstOfNext

theorem Valid.prev (h : C.Valid d) : C.Valid (C.prev d) := by
  unfold Calendar.prev
  split
  · next hlt =>
      have hday := h.day_le
      refine ⟨h.month_pos, h.month_le, ?_, ?_⟩
      · show 1 ≤ d.day - 1
        omega
      · show d.day - 1 ≤ C.monthDays d.month d.year
        omega
  · exact h.lastOfPrev

theorem prev_next (h : C.Valid d) : C.prev (C.next d) = d := by
  obtain ⟨hmonth, hmonth', hday, hday'⟩ := h
  unfold Calendar.next
  split
  · unfold Calendar.prev
    rw [if_pos (show 1 < d.day + 1 by omega)]
    ext
    · show d.day + 1 - 1 = d.day
      omega
    · rfl
    · rfl
  · next hlast =>
      have hlen : C.monthDays d.month d.year = d.day := by omega
      unfold Date.firstOfNext
      split
      · have hdec : d.month = 12 := by omega
        have hyear : d.year + 1 - 1 = d.year := by omega
        simp only [Calendar.prev, lt_irrefl, if_false, Calendar.lastOfPrev, sub_self, if_true, hyear]
        ext
        · rw [← hdec, hlen]
        · exact hdec.symm
        · rfl
      · have hback : d.month + 1 - 1 = d.month := by omega
        have hne : d.month ≠ 0 := by omega
        simp only [Calendar.prev, lt_irrefl, if_false, Calendar.lastOfPrev, hback, hne, hlen]

theorem next_prev (h : C.Valid d) : C.next (C.prev d) = d := by
  obtain ⟨hmonth, hmonth', hday, hday'⟩ := h
  unfold Calendar.prev
  split
  · have hlt : d.day - 1 < C.monthDays d.month d.year := by omega
    have hback : d.day - 1 + 1 = d.day := by omega
    simp only [Calendar.next, hlt, if_true, hback]
  · next hfirst =>
      have hone : d.day = 1 := by omega
      unfold Calendar.lastOfPrev
      split
      · have hjan : d.month = 1 := by omega
        have hyear : d.year - 1 + 1 = d.year := by omega
        have htwelve : (12 : ℤ) < 12 + 1 := by omega
        simp only [Calendar.next, lt_irrefl, if_false, Date.firstOfNext, htwelve, if_true, hyear]
        ext
        · exact hone.symm
        · exact hjan.symm
        · rfl
      · have hback : d.month - 1 + 1 = d.month := by omega
        have hle : ¬ 12 < d.month := by omega
        simp only [Calendar.next, lt_irrefl, if_false, Date.firstOfNext, hback, hle]
        ext
        · exact hone.symm
        · rfl
        · rfl

/-- Going to the next day. -/
def nextDay (C : Calendar) : Equiv.Perm C.ValidDate where
  toFun := fun d => ⟨C.next d.1, d.2.next⟩
  invFun := fun d => ⟨C.prev d.1, d.2.prev⟩
  left_inv := fun d => Subtype.ext (prev_next d.2)
  right_inv := fun d => Subtype.ext (next_prev d.2)

/-- The date `n` days later. -/
def later (C : Calendar) (n : ℤ) (d : C.ValidDate) : C.ValidDate := (C.nextDay ^ n) d

variable {v : C.ValidDate} {m n : ℤ}

@[simp] theorem later_zero (v : C.ValidDate) : C.later 0 v = v := rfl

theorem later_add (m n : ℤ) (v : C.ValidDate) : C.later (m + n) v = C.later m (C.later n v) := by
  unfold later
  rw [zpow_add, Equiv.Perm.mul_apply]

theorem later_one (v : C.ValidDate) : C.later 1 v = C.nextDay v := by
  unfold later
  rw [zpow_one]

theorem later_neg_later (n : ℤ) (v : C.ValidDate) : C.later (-n) (C.later n v) = v := by
  rw [← later_add, neg_add_cancel, later_zero]

theorem later_eq_iff {w : C.ValidDate} : C.later n v = w ↔ C.later (-n) w = v := by
  constructor
  · rintro rfl
    exact later_neg_later n v
  · rintro rfl
    rw [← later_add, add_neg_cancel, later_zero]

theorem later_within (k : ℕ) (hk : v.1.day + k ≤ C.monthDays v.1.month v.1.year) :
    (C.later k v).1 = ⟨v.1.day + k, v.1.month, v.1.year⟩ := by
  induction k with
  | zero => simp
  | succ k ih =>
      push_cast at hk ⊢
      have hstep : C.later ((k : ℤ) + 1) v = C.nextDay (C.later k v) := by
        rw [add_comm, later_add, later_one]
      rw [hstep]
      show C.next (C.later k v).1 = _
      rw [ih (by omega)]
      have hlt : v.1.day + (k : ℤ) < C.monthDays v.1.month v.1.year := by omega
      simp only [Calendar.next, hlt, if_true, add_assoc]

theorem later_firstOfNext (v : C.ValidDate) :
    C.later (C.monthDays v.1.month v.1.year - v.1.day + 1) v = ⟨v.1.firstOfNext, v.2.firstOfNext⟩ := by
  obtain ⟨k, hk⟩ := Int.eq_ofNat_of_zero_le (sub_nonneg.mpr v.2.day_le)
  rw [hk, add_comm, later_add, later_one]
  apply Subtype.ext
  show C.next (C.later k v).1 = _
  rw [later_within k (by omega)]
  have hlast : ¬ v.1.day + (k : ℤ) < C.monthDays v.1.month v.1.year := by omega
  simp only [Calendar.next, hlast, if_false]
  rfl

theorem later_beyond (n : ℤ) (v : C.ValidDate) : C.later n v =
    C.later (v.1.day + n - C.monthDays v.1.month v.1.year - 1) ⟨v.1.firstOfNext, v.2.firstOfNext⟩ := by
  rw [← later_firstOfNext, ← later_add]
  congr 1
  omega

theorem later_lastOfPrev (v : C.ValidDate) :
    C.later (-v.1.day) v = ⟨C.lastOfPrev v.1, v.2.lastOfPrev⟩ := by
  have hday := v.2.day_pos
  obtain ⟨k, hk⟩ := Int.eq_ofNat_of_zero_le (show 0 ≤ v.1.day - 1 by omega)
  have hfirst : C.Valid ⟨1, v.1.month, v.1.year⟩ :=
    ⟨v.2.month_pos, v.2.month_le, le_refl 1, C.pos _ _ v.2.month_pos v.2.month_le⟩
  -- the date is reached from the first day of its month
  have hreach : C.later k ⟨⟨1, v.1.month, v.1.year⟩, hfirst⟩ = v := by
    have hle := v.2.day_le
    apply Subtype.ext
    rw [later_within k (by show 1 + (k : ℤ) ≤ C.monthDays v.1.month v.1.year; omega)]
    ext
    · show 1 + (k : ℤ) = v.1.day
      omega
    · rfl
    · rfl
  have hback : C.later (-v.1.day) v = C.later (-1) ⟨⟨1, v.1.month, v.1.year⟩, hfirst⟩ := by
    have hsum : -v.1.day = -1 + -(k : ℤ) := by omega
    rw [hsum, later_add]
    congr 1
    exact later_eq_iff.mp hreach
  rw [hback]
  apply Subtype.ext
  show C.prev ⟨1, v.1.month, v.1.year⟩ = C.lastOfPrev v.1
  unfold Calendar.prev
  rw [if_neg (by exact lt_irrefl 1)]
  rfl

theorem later_before (n : ℤ) (v : C.ValidDate) :
    C.later n v = C.later (v.1.day + n) ⟨C.lastOfPrev v.1, v.2.lastOfPrev⟩ := by
  rw [← later_lastOfPrev, ← later_add]
  congr 1
  omega

theorem later_of_lastOfPrev {w : C.ValidDate} (h : C.lastOfPrev v.1 = w.1) (n : ℤ) :
    C.later n v = C.later (v.1.day + n) w := by
  rw [later_before]
  congr 1
  exact Subtype.ext h

theorem later_within_back {n : ℤ} (hn : n ≤ 0) (hpos : 1 ≤ v.1.day + n) :
    (C.later n v).1 = ⟨v.1.day + n, v.1.month, v.1.year⟩ := by
  have hle := v.2.day_le
  have hvalid : C.Valid ⟨v.1.day + n, v.1.month, v.1.year⟩ :=
    ⟨v.2.month_pos, v.2.month_le, hpos, by show v.1.day + n ≤ C.monthDays v.1.month v.1.year; omega⟩
  obtain ⟨k, hk⟩ := Int.eq_ofNat_of_zero_le (show 0 ≤ -n by omega)
  have hreach : C.later k ⟨⟨v.1.day + n, v.1.month, v.1.year⟩, hvalid⟩ = v := by
    apply Subtype.ext
    rw [later_within k (by show v.1.day + n + (k : ℤ) ≤ C.monthDays v.1.month v.1.year; omega)]
    ext
    · show v.1.day + n + (k : ℤ) = v.1.day
      omega
    · rfl
    · rfl
  have hneg : n = -(k : ℤ) := by omega
  rw [hneg, later_eq_iff.mp hreach, ← hneg]

theorem year_le_later (k : ℕ) (v : C.ValidDate) : v.1.year ≤ (C.later k v).1.year := by
  induction k with
  | zero => simp
  | succ k ih =>
      push_cast
      rw [add_comm, later_add, later_one]
      refine le_trans ih ?_
      show (C.later k v).1.year ≤ (C.next (C.later k v).1).year
      unfold Calendar.next Date.firstOfNext
      split
      · exact le_refl _
      · split
        · show (C.later k v).1.year ≤ (C.later k v).1.year + 1
          omega
        · exact le_refl _

theorem later_year_le (k : ℕ) (v : C.ValidDate) : (C.later (-k) v).1.year ≤ v.1.year := by
  have hle := year_le_later k (C.later (-k) v)
  rwa [← later_add, add_neg_cancel, later_zero] at hle

theorem later_months {L : ℤ} (hL : ∀ month year, L ≤ C.monthDays month year) (k : ℕ) {n : ℕ}
    (hk : v.1.month + k ≤ 12) (hfit : v.1.day + n ≤ L * (k + 1)) :
    v.1.month ≤ (C.later n v).1.month ∧ (C.later n v).1.month ≤ v.1.month + k ∧
      (C.later n v).1.year = v.1.year := by
  induction k generalizing n v with
  | zero =>
      have hlen := hL v.1.month v.1.year
      rw [later_within n (by simp only [Nat.cast_zero, zero_add, mul_one] at hfit; omega)]
      exact ⟨le_refl _, by simp, rfl⟩
  | succ k ih =>
      have hlen := hL v.1.month v.1.year
      by_cases hwithin : v.1.day + (n : ℤ) ≤ C.monthDays v.1.month v.1.year
      · rw [later_within n hwithin]
        exact ⟨le_refl _, by push_cast; omega, rfl⟩
      · obtain ⟨j, hj⟩ := Int.eq_ofNat_of_zero_le
          (show 0 ≤ v.1.day + (n : ℤ) - C.monthDays v.1.month v.1.year - 1 by omega)
        push_cast at hk hfit
        have hfirst : v.1.firstOfNext = ⟨1, v.1.month + 1, v.1.year⟩ := if_neg (by omega)
        have hnext := ih (v := ⟨v.1.firstOfNext, v.2.firstOfNext⟩) (n := j)
        simp only [hfirst] at hnext
        rw [later_beyond, hj]
        simp only [hfirst]
        obtain ⟨hlow, hhigh, hyear⟩ := hnext (by omega) (by rw [← hj]; linarith)
        exact ⟨by omega, by push_cast; omega, hyear⟩

theorem strictMono_later {f : C.ValidDate → ℤ} (hf : ∀ v, f v < f (C.nextDay v)) (v : C.ValidDate) :
    StrictMono fun n => f (C.later n v) := by
  apply strictMono_int_of_lt_succ
  intro n
  rw [add_comm, later_add, later_one]
  exact hf (C.later n v)

/-- Going on by a number of months from the first day of a month: the number of days, and the first day of
the month that is reached. -/
def monthsOn (C : Calendar) : ℕ → Date → ℤ × Date
  | 0, d => (0, d)
  | k + 1, d =>
      let (days, first) := C.monthsOn k d.firstOfNext
      (C.monthDays d.month d.year + days, first)

theorem later_monthsOn (k : ℕ) {v : C.ValidDate} (hfirst : v.1.day = 1) :
    (C.later (C.monthsOn k v.1).1 v).1 = (C.monthsOn k v.1).2 := by
  induction k generalizing v with
  | zero => rfl
  | succ k ih =>
      have hday : v.1.firstOfNext.day = 1 := by
        unfold Date.firstOfNext
        split <;> rfl
      have hnext := ih (v := ⟨v.1.firstOfNext, v.2.firstOfNext⟩) hday
      have hdays : (C.monthsOn (k + 1) v.1).1 =
          (C.monthsOn k v.1.firstOfNext).1 + (C.monthDays v.1.month v.1.year - v.1.day + 1) := by
        show C.monthDays v.1.month v.1.year + (C.monthsOn k v.1.firstOfNext).1 = _
        omega
      rw [hdays, later_add, later_firstOfNext]
      exact hnext

theorem later_map {C' : Calendar} {f : C.ValidDate → C'.ValidDate}
    (hf : ∀ v, f (C.nextDay v) = C'.nextDay (f v)) (n : ℤ) (v : C.ValidDate) :
    f (C.later n v) = C'.later n (f v) := by
  have hnat : ∀ (k : ℕ) (v : C.ValidDate), f (C.later k v) = C'.later k (f v) := by
    intro k
    induction k with
    | zero => exact fun _ => rfl
    | succ k ih =>
        intro v
        push_cast
        rw [add_comm, later_add, later_one, hf, ih, later_add, later_one]
  obtain ⟨k, rfl | rfl⟩ := n.eq_nat_or_neg
  · exact hnat k v
  · have hforth := hnat k (C.later (-k) v)
    rw [← later_add, add_neg_cancel, later_zero] at hforth
    exact (later_eq_iff.mp hforth.symm).symm

end Calendar

end Lib
end Mkfli4l
