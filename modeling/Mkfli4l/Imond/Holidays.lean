import Mkfli4l.Imond.DayArithmetic

/-!
# Holidays

`is_holiday` of `imond` computes the date of Easter Sunday by the formula of Gauss, from it the holidays
of the year, and keeps them in static variables as long as it is asked for the same year.

The formula is compared with the algorithm of Meeus, Jones and Butcher: its two exceptions are the years
in which that algorithm takes a week away.
-/

namespace Mkfli4l
namespace Imond

open Lib

/-! ### The function -/

/-- `struct holidays`: a day of a month.  In `holiday_table` the month 0 stands for a number of days
behind Easter Sunday. -/
structure Holiday where
  day : ℤ
  month : ℤ
deriving DecidableEq, Repr

def holidayTable : List Holiday :=
  [⟨1, 1⟩, ⟨1, 5⟩, ⟨3, 10⟩, ⟨25, 12⟩, ⟨26, 12⟩, ⟨-2, 0⟩, ⟨1, 0⟩, ⟨39, 0⟩, ⟨50, 0⟩]

/-- The static variables: `last_year`, `ostern_day`, `ostern_month` and `holidays`. -/
structure HolidayState where
  lastYear : ℤ
  osternDay : ℤ
  osternMonth : ℤ
  holidays : List Holiday

/-- The static variables at the start of the program. -/
def HolidayState.initial : HolidayState := ⟨0, 0, 0, List.replicate 9 ⟨0, 0⟩⟩

/-- The numbers from which the date of Easter Sunday is computed: `a`, `D` and `e`. -/
def gaussOffset (year : ℤ) : ℤ :=
  let a := year.tmod 19
  let b := year.tmod 4
  let c := year.tmod 7
  let m := (8 * year.tdiv 100 + 13).tdiv 25 - 2
  let s := year.tdiv 100 - year.tdiv 400 - 2
  let M := (15 + s - m).tmod 30
  let N := (6 + s).tmod 7
  let d := (M + 19 * a).tmod 30
  let D := if d = 29 then 28 else if d = 28 ∧ 11 ≤ a then 27 else d
  let e := (2 * b + 4 * c + 6 * D + N).tmod 7
  D + e + 1

/-- The loop that takes the day of Easter Sunday over the ends of the months. -/
def carryMonths (osternDay osternMonth : ℤ) : ℤ × ℤ :=
  if 31 < osternDay then carryMonths (osternDay - 31) (osternMonth + 1) else (osternDay, osternMonth)
termination_by osternDay.toNat
decreasing_by omega

/-- The holidays of a year.  `none` means that `add_days` does not come back. -/
def fillHolidays (osternDay osternMonth year : ℤ) : Option (List Holiday) :=
  holidayTable.mapM fun entry =>
    if entry.month = 0 then
      (addDays osternDay osternMonth year entry.day).map fun date => ⟨date.1, date.2⟩
    else some ⟨entry.day, entry.month⟩

/-- The static variables after they have been computed for a year. -/
def computeHolidays (year : ℤ) : Option HolidayState :=
  let ostern := carryMonths (21 + gaussOffset year) 3
  (fillHolidays ostern.1 ostern.2 year).map fun holidays => ⟨year, ostern.1, ostern.2, holidays⟩

/-- `is_holiday`: the answer and the static variables afterwards. -/
def isHoliday (day month year : ℤ) (s : HolidayState) : Option (Bool × HolidayState) :=
  (if s.lastYear ≠ year then computeHolidays year else some s).map fun s =>
    (s.holidays.any fun holiday => holiday.day == day && holiday.month == month, s)

/-- The static variables after a sequence of calls. -/
def afterCalls : List (ℤ × ℤ × ℤ) → HolidayState → Option HolidayState
  | [], s => some s
  | (day, month, year) :: calls, s =>
      match isHoliday day month year s with
      | none => none
      | some (_, s) => afterCalls calls s

/-! ### Easter Sunday -/

/-- The days behind the 22nd of March by the algorithm of Meeus, Jones and Butcher. -/
def meeusOffset (year : ℤ) : ℤ :=
  let a := year % 19
  let b := year / 100
  let c := year % 100
  let d := b / 4
  let e := b % 4
  let f := (b + 8) / 25
  let g := (b - f + 1) / 3
  let h := (19 * a + b - d - g + 15) % 30
  let i := c / 4
  let k := c % 4
  let l := (32 + 2 * e + 2 * i - h - k) % 7
  let m := (a + 11 * h + 22 * l) / 451
  h + l - 7 * m

theorem weekday_eq (year h : ℤ) :
    (2 * (year % 4) + 4 * (year % 7) + 6 * h + (6 + (year / 100 - year / 100 / 4 - 2)) % 7) % 7 =
      (32 + 2 * (year / 100 % 4) + 2 * (year % 100 / 4) - h - year % 100 % 4) % 7 := by
  -- the two sides differ by a multiple of seven
  have hdiff : 2 * (year % 4) + 4 * (year % 7) + 6 * h + (6 + (year / 100 - year / 100 / 4 - 2)) % 7 =
      32 + 2 * (year / 100 % 4) + 2 * (year % 100 / 4) - h - year % 100 % 4 +
        7 * (year % 100 % 4 + 229 * (year / 100 / 4) + 57 * (year / 100 % 4) + 2 * (year % 100 / 4) + h - 4 -
          4 * (year / 7) - (6 + (year / 100 - year / 100 / 4 - 2)) / 7) := by
    omega
  rw [hdiff, Int.add_mul_emod_self_left]

theorem exceptions_eq {a h l u w : ℤ} (ha : 0 ≤ a ∧ a ≤ 18) (hh : 0 ≤ h ∧ h ≤ 29)
    (hl : (u + 6 * h + w) % 7 = l) :
    let D := if h = 29 then 28 else if h = 28 ∧ 11 ≤ a then 27 else h
    D + (u + 6 * D + w) % 7 = h + l - 7 * ((a + 11 * h + 22 * l) / 451) := by
  intro D
  have hweek : 0 ≤ l ∧ l ≤ 6 := by omega
  by_cases hlast : h = 29
  · have hD : D = 28 := if_pos hlast
    rw [hD]
    by_cases hsat : l = 6
    · have hone : (a + 11 * h + 22 * l) / 451 = 1 := by omega
      omega
    · have hzero : (a + 11 * h + 22 * l) / 451 = 0 := by omega
      omega
  · by_cases hlate : h = 28 ∧ 11 ≤ a
    · have hD : D = 27 := (if_neg hlast).trans (if_pos hlate)
      rw [hD]
      by_cases hsat : l = 6
      · have hone : (a + 11 * h + 22 * l) / 451 = 1 := by omega
        omega
      · have hzero : (a + 11 * h + 22 * l) / 451 = 0 := by omega
        omega
    · have hD : D = h := (if_neg hlast).trans (if_neg hlate)
      have hnone : (a + 11 * h + 22 * l) / 451 = 0 := by omega
      rw [hD, hnone, hl]
      omega

variable {year osternDay day month n : ℤ}

theorem gaussOffset_eq (hyear : 0 ≤ year) : gaussOffset year = meeusOffset year + 1 := by
  have hcentury : year.tdiv 100 = year / 100 := Int.tdiv_eq_ediv_of_nonneg hyear
  have hquart : year.tdiv 400 = year / 100 / 4 := by
    rw [Int.tdiv_eq_ediv_of_nonneg hyear]
    omega
  have hmoon : (8 * (year / 100) + 13).tdiv 25 = (year / 100 - (year / 100 + 8) / 25 + 1) / 3 := by
    rw [Int.tdiv_eq_ediv_of_nonneg (by omega)]
    omega
  have hN : (6 + (year / 100 - year / 100 / 4 - 2)).tmod 7 = (6 + (year / 100 - year / 100 / 4 - 2)) % 7 :=
    Int.tmod_eq_emod_of_nonneg (by omega)
  unfold gaussOffset meeusOffset
  simp only [hcentury, hquart, hmoon, hN, Int.tmod_eq_emod_of_nonneg hyear]
  clear hcentury hquart hmoon hN
  -- the correction of the lunar orbit, which both write in the same way now
  generalize hg : (year / 100 - (year / 100 + 8) / 25 + 1) / 3 = g
  have hnonneg : 0 ≤ 15 + (year / 100 - year / 100 / 4 - 2) - (g - 2) := by omega
  clear hg
  have hd : ((15 + (year / 100 - year / 100 / 4 - 2) - (g - 2)).tmod 30 + 19 * (year % 19)).tmod 30 =
      (19 * (year % 19) + year / 100 - year / 100 / 4 - g + 15) % 30 := by
    have hmod := Int.emod_nonneg (15 + (year / 100 - year / 100 / 4 - 2) - (g - 2)) (show (30 : ℤ) ≠ 0 by decide)
    have hyear19 := Int.emod_nonneg year (show (19 : ℤ) ≠ 0 by decide)
    rw [Int.tmod_eq_emod_of_nonneg hnonneg, Int.tmod_eq_emod_of_nonneg (by omega), Int.emod_add_emod]
    congr 1
    ring
  simp only [hd]
  have hweek := weekday_eq year ((19 * (year % 19) + year / 100 - year / 100 / 4 - g + 15) % 30)
  have hlow := Int.emod_nonneg (19 * (year % 19) + year / 100 - year / 100 / 4 - g + 15)
    (show (30 : ℤ) ≠ 0 by decide)
  have hhigh := Int.emod_lt_of_pos (19 * (year % 19) + year / 100 - year / 100 / 4 - g + 15)
    (show (0 : ℤ) < 30 by decide)
  generalize (19 * (year % 19) + year / 100 - year / 100 / 4 - g + 15) % 30 = h at hweek hlow hhigh ⊢
  have hsum := exceptions_eq (a := year % 19) (by omega) ⟨hlow, by omega⟩ hweek
  rw [Int.tmod_eq_emod_of_nonneg]
  · exact congrArg (· + 1) hsum
  · clear hweek hsum
    split_ifs <;> omega

theorem gaussOffset_bounds (year : ℤ) : -34 ≤ gaussOffset year ∧ gaussOffset year ≤ 35 := by
  unfold gaussOffset
  extract_lets a b c m s M N d D e
  have hd := Int.tmod_lt_of_pos (M + 19 * a) (show (0 : ℤ) < 30 by decide)
  have hd' := Int.lt_tmod_of_pos (M + 19 * a) (show (0 : ℤ) < 30 by decide)
  have he := Int.tmod_lt_of_pos (2 * b + 4 * c + 6 * D + N) (show (0 : ℤ) < 7 by decide)
  have he' := Int.lt_tmod_of_pos (2 * b + 4 * c + 6 * D + N) (show (0 : ℤ) < 7 by decide)
  have hD : -29 ≤ D ∧ D ≤ 28 := by
    show -29 ≤ (if d = 29 then 28 else if d = 28 ∧ 11 ≤ a then 27 else d) ∧
      (if d = 29 then 28 else if d = 28 ∧ 11 ≤ a then 27 else d) ≤ 28
    split_ifs <;> omega
  omega

theorem meeusOffset_bounds (year : ℤ) : 0 ≤ meeusOffset year ∧ meeusOffset year ≤ 34 := by
  unfold meeusOffset
  extract_lets a b c d e f g h i k l m
  omega

theorem carryMonths_eq (h : osternDay ≤ 62) :
    carryMonths osternDay 3 = if 31 < osternDay then (osternDay - 31, 4) else (osternDay, 3) := by
  rw [carryMonths]
  split
  · rw [carryMonths, if_neg (by omega)]
    rfl
  · rfl

/-- Easter Sunday of a year by the algorithm of Meeus, Jones and Butcher. -/
def meeusEaster (year : ℤ) : Date :=
  ⟨(meeusOffset year + 114) % 31 + 1, (meeusOffset year + 114) / 31, year⟩

theorem meeusEaster_eq (year : ℤ) :
    meeusEaster year =
      if 9 < meeusOffset year then ⟨meeusOffset year - 9, 4, year⟩ else ⟨meeusOffset year + 22, 3, year⟩ := by
  have hbounds := meeusOffset_bounds year
  unfold meeusEaster
  split
  · ext
    · show (meeusOffset year + 114) % 31 + 1 = meeusOffset year - 9
      omega
    · show (meeusOffset year + 114) / 31 = 4
      omega
    · rfl
  · ext
    · show (meeusOffset year + 114) % 31 + 1 = meeusOffset year + 22
      omega
    · show (meeusOffset year + 114) / 31 = 3
      omega
    · rfl

theorem carryMonths_gaussOffset (hyear : 0 ≤ year) :
    carryMonths (21 + gaussOffset year) 3 = ((meeusEaster year).day, (meeusEaster year).month) := by
  have hbounds := meeusOffset_bounds year
  rw [gaussOffset_eq hyear, carryMonths_eq (by omega), meeusEaster_eq]
  by_cases hlate : 9 < meeusOffset year
  · rw [if_pos hlate, if_pos (by omega)]
    show (21 + (meeusOffset year + 1) - 31, (4 : ℤ)) = (meeusOffset year - 9, 4)
    congr 1
    omega
  · rw [if_neg hlate, if_neg (by omega)]
    show (21 + (meeusOffset year + 1), (3 : ℤ)) = (meeusOffset year + 22, 3)
    congr 1
    omega

/-! ### The holidays of a year -/

theorem addForward_ends (k : ℕ) (hn : 0 ≤ n) (hmonth : 1 ≤ month)
    (hk : month + k ≤ 12) (hfit : day + n ≤ 28 * (k + 1)) :
    ∃ day' month', addForward ⟨day, month, year, n⟩ = some ⟨day', month', year, 0⟩ := by
  have hmax : day + n ≤ maxInt := by
    unfold maxInt
    omega
  induction k generalizing day month n with
  | zero =>
      rcases hn.lt_or_eq with hpos | rfl
      · have hlen := (monthDays_le month year).1
        rw [addForward_round hpos hmonth (by omega) hmax, if_neg (by omega)]
        exact ⟨day + n, month, rfl⟩
      · exact ⟨day, month, addForward_zero⟩
  | succ k ih =>
      push_cast at hk hfit
      rcases hn.lt_or_eq with hpos | rfl
      · have hlen := (monthDays_le month year).1
        rw [addForward_round hpos hmonth (by omega) hmax]
        split
        · rw [if_neg (by omega)]
          exact ih (by omega) (by omega) (by omega) (by omega) (by omega)
        · exact ⟨day + n, month, rfl⟩
      · exact ⟨day, month, addForward_zero⟩

theorem addBackward_ends (hn : n < 0) (hmonth : 1 < month) (hle : month ≤ 12) (hfit : -27 ≤ day + n) :
    ∃ day' month', addBackward ⟨day, month, year, n⟩ = some ⟨day', month', year, 0⟩ := by
  have hmin : minInt ≤ day + n := by
    unfold minInt
    omega
  rw [addBackward_round hn (by omega) hle hmin]
  split
  · have hlen := (monthDays_le (month - 1) year).1
    rw [if_neg (by omega)]
    rcases (show day + n ≤ 0 by assumption).lt_or_eq with hneg | hzero
    · rw [addBackward_round hneg (by omega) (by omega) (by omega), if_neg (by omega)]
      exact ⟨_, _, rfl⟩
    · rw [hzero]
      exact ⟨_, _, addBackward_zero⟩
  · exact ⟨day + n, month, rfl⟩

theorem addDays_ends (hmonth : 1 < month) (hle : month ≤ 6) (hday : -13 ≤ day)
    (hday' : day ≤ 31) (hn : -2 ≤ n) (hn' : n ≤ 50) :
    ∃ date, addDays day month year n = some date := by
  unfold addDays
  by_cases hneg : n < 0
  · have hforward : addForward ⟨day, month, year, n⟩ = some ⟨day, month, year, n⟩ := by
      rw [addForward, if_neg (by show ¬ 0 < n; omega)]
    have hends : ∃ day' month', addBackward ⟨day, month, year, n⟩ = some ⟨day', month', year, 0⟩ :=
      addBackward_ends hneg hmonth (by omega) (by omega)
    obtain ⟨day', month', hback⟩ := hends
    rw [hforward, Option.bind_some, hback]
    exact ⟨(day', month'), rfl⟩
  · have hends : ∃ day' month', addForward ⟨day, month, year, n⟩ = some ⟨day', month', year, 0⟩ :=
      addForward_ends 3 (by omega) (by omega) (by omega) (by omega)
    obtain ⟨day', month', hforward⟩ := hends
    rw [hforward, Option.bind_some, addBackward_zero]
    exact ⟨(day', month'), rfl⟩

/-- The days of the table that are counted from Easter Sunday on. -/
def easterOffsets : List ℤ := [-2, 1, 39, 50]

/-- The days of the table that are the same every year. -/
def fixedHolidays : List Holiday := [⟨1, 1⟩, ⟨1, 5⟩, ⟨3, 10⟩, ⟨25, 12⟩, ⟨26, 12⟩]

theorem fillHolidays_eq {osternMonth : ℤ} {f : ℤ → ℤ × ℤ}
    (hf : ∀ n ∈ easterOffsets, addDays osternDay osternMonth year n = some (f n)) :
    fillHolidays osternDay osternMonth year =
      some (fixedHolidays ++ easterOffsets.map fun n => ⟨(f n).1, (f n).2⟩) := by
  simp only [easterOffsets, List.forall_mem_cons] at hf
  simp [fillHolidays, holidayTable, fixedHolidays, easterOffsets, hf]

theorem fillHolidays_ends {osternMonth : ℤ} (hmonth : 1 < osternMonth)
    (hle : osternMonth ≤ 6) (hday : -13 ≤ osternDay) (hday' : osternDay ≤ 31) :
    ∃ holidays, fillHolidays osternDay osternMonth year = some holidays := by
  have hends : ∀ n ∈ easterOffsets, ∃ date, addDays osternDay osternMonth year n = some date := by
    intro n hn
    simp only [easterOffsets, List.mem_cons, List.not_mem_nil, or_false] at hn
    exact addDays_ends hmonth hle hday hday' (by omega) (by omega)
  choose! f hf using hends
  exact ⟨_, fillHolidays_eq hf⟩

theorem computeHolidays_ends (year : ℤ) :
    ∃ s, computeHolidays year = some s ∧ s.lastYear = year := by
  have hbounds := gaussOffset_bounds year
  have hends : ∃ holidays, fillHolidays (carryMonths (21 + gaussOffset year) 3).1
      (carryMonths (21 + gaussOffset year) 3).2 year = some holidays := by
    rw [carryMonths_eq (by omega)]
    split
    · exact fillHolidays_ends (by norm_num) (by norm_num) (by show -13 ≤ _ - (31 : ℤ); omega)
        (by show _ - (31 : ℤ) ≤ 31; omega)
    · exact fillHolidays_ends (by norm_num) (by norm_num) (by show -13 ≤ 21 + gaussOffset year; omega)
        (by show 21 + gaussOffset year ≤ 31; omega)
  obtain ⟨holidays, hfill⟩ := hends
  unfold computeHolidays
  dsimp only
  rw [hfill]
  exact ⟨_, rfl, rfl⟩

/-! ### Runs -/

/-- The static variables belong to the year for which they were computed. -/
def Cached (s : HolidayState) : Prop := s.lastYear ≠ 0 → computeHolidays s.lastYear = some s

theorem HolidayState.initial_cached : Cached .initial := fun h => absurd rfl h

theorem isHoliday_cached {s : HolidayState} (hs : Cached s) (day month year : ℤ) :
    ∃ s', isHoliday day month year s =
        some (s'.holidays.any fun holiday => holiday.day == day && holiday.month == month, s') ∧
      Cached s' ∧ (year ≠ 0 → computeHolidays year = some s') := by
  unfold isHoliday
  by_cases hsame : s.lastYear = year
  · rw [if_neg (not_not.mpr hsame)]
    refine ⟨s, rfl, hs, ?_⟩
    rw [← hsame]
    exact hs
  · obtain ⟨s', hcompute, hlast⟩ := computeHolidays_ends year
    rw [if_pos hsame, hcompute]
    refine ⟨s', rfl, ?_, fun _ => rfl⟩
    intro _
    rw [hlast, hcompute]

theorem afterCalls_cached (calls : List (ℤ × ℤ × ℤ)) {s : HolidayState} (hs : Cached s) :
    ∃ s', afterCalls calls s = some s' ∧ Cached s' := by
  induction calls generalizing s with
  | nil => exact ⟨s, rfl, hs⟩
  | cons call calls ih =>
      obtain ⟨day, month, year⟩ := call
      obtain ⟨s', hcall, hs', -⟩ := isHoliday_cached hs day month year
      unfold afterCalls
      rw [hcall]
      exact ih hs'

/-! ### The right holidays -/

theorem meeusEaster_valid (year : ℤ) : gregorian.Valid (meeusEaster year) := by
  have hbounds := meeusOffset_bounds year
  rw [meeusEaster_eq]
  split
  · refine ⟨by norm_num, by norm_num, ?_, ?_⟩
    · show 1 ≤ meeusOffset year - 9
      omega
    · show meeusOffset year - 9 ≤ 30
      omega
  · refine ⟨by norm_num, by norm_num, ?_, ?_⟩
    · show 1 ≤ meeusOffset year + 22
      omega
    · show meeusOffset year + 22 ≤ 31
      omega

/-- Easter Sunday of a year. -/
def easterSunday (year : ℤ) : gregorian.ValidDate := ⟨meeusEaster year, meeusEaster_valid year⟩

theorem easterSunday_bounds (year : ℤ) :
    (easterSunday year).1.month = 3 ∧ 22 ≤ (easterSunday year).1.day ∧ (easterSunday year).1.day ≤ 31 ∨
      (easterSunday year).1.month = 4 ∧ 1 ≤ (easterSunday year).1.day ∧ (easterSunday year).1.day ≤ 25 := by
  have hbounds := meeusOffset_bounds year
  have heq : (easterSunday year).1 = _ := meeusEaster_eq year
  rw [heq]
  split
  · refine .inr ⟨rfl, ?_, ?_⟩
    · show 1 ≤ meeusOffset year - 9
      omega
    · show meeusOffset year - 9 ≤ 25
      omega
  · refine .inl ⟨rfl, ?_, ?_⟩
    · show 22 ≤ meeusOffset year + 22
      omega
    · show meeusOffset year + 22 ≤ 31
      omega

theorem gregorian_ge (month year : ℤ) : 28 ≤ gregorian.monthDays month year := by
  unfold gregorian
  dsimp only
  split_ifs <;> omega

theorem easter_later (hn : n ∈ easterOffsets) :
    3 ≤ (gregorian.later n (easterSunday year)).1.month ∧
      (gregorian.later n (easterSunday year)).1.year = year := by
  have hbounds := easterSunday_bounds year
  simp only [easterOffsets, List.mem_cons, List.not_mem_nil, or_false] at hn
  by_cases hback : n < 0
  · obtain rfl : n = -2 := by omega
    by_cases hwithin : 1 ≤ (easterSunday year).1.day + -2
    · rw [Calendar.later_within_back (by norm_num) hwithin]
      exact ⟨by show 3 ≤ (easterSunday year).1.month; omega, rfl⟩
    · -- a Good Friday in March
      have hmarch : gregorian.Valid ⟨31, 3, year⟩ := ⟨by norm_num, by norm_num, by norm_num, le_refl 31⟩
      have hapril : (easterSunday year).1.month = 4 := by omega
      have hprev : gregorian.lastOfPrev (easterSunday year).1 = ⟨31, 3, year⟩ := by
        unfold Calendar.lastOfPrev
        rw [hapril]
        rfl
      rw [Calendar.later_of_lastOfPrev (w := ⟨_, hmarch⟩) hprev, Calendar.later_within_back]
      · exact ⟨le_refl 3, rfl⟩
      · omega
      · show 1 ≤ 31 + ((easterSunday year).1.day + -2)
        omega
  · obtain ⟨k, rfl⟩ := Int.eq_ofNat_of_zero_le (Int.not_lt.mp hback)
    obtain ⟨hlow, -, hyear⟩ := Calendar.later_months (v := easterSunday year) gregorian_ge 3 (n := k)
      (by push_cast; omega) (by push_cast; omega)
    exact ⟨by omega, hyear⟩

theorem addDays_easter (hyear : minInt ≤ year) (hmax : year ≤ maxInt) (hn : n ∈ easterOffsets) :
    addDays (meeusEaster year).day (meeusEaster year).month year n =
      some ((gregorian.later n (easterSunday year)).1.day, (gregorian.later n (easterSunday year)).1.month) := by
  have hbounds := easterSunday_bounds year
  obtain ⟨hmonth, hsame⟩ : 3 ≤ _ ∧ _ = year := easter_later hn
  have hn' := hn
  simp only [easterOffsets, List.mem_cons, List.not_mem_nil, or_false] at hn'
  have hnot : ¬ InLeapFebruary (easterSunday year).1 := by
    intro h
    have htwo := h.1
    omega
  have hnot' : ¬ InLeapFebruary (gregorian.later n (easterSunday year)).1 := by
    intro h
    have htwo := h.1
    omega
  apply (addDays_later (v := easterSunday year) _ hyear hmax).mpr
  · refine .inr ⟨?_, ?_, ?_, iff_of_false hnot hnot', fun h => hnot' h.1⟩
    · unfold maxInt
      omega
    · omega
    · omega
  · unfold minInt
    omega

theorem computeHolidays_eq (hyear : 0 ≤ year) (hmax : year ≤ maxInt) :
    computeHolidays year = some ⟨year, (meeusEaster year).day, (meeusEaster year).month,
      fixedHolidays ++ easterOffsets.map fun n =>
        ⟨(gregorian.later n (easterSunday year)).1.day, (gregorian.later n (easterSunday year)).1.month⟩⟩ := by
  have hmin : minInt ≤ year := by
    unfold minInt
    omega
  have hfill := fillHolidays_eq fun n hn => addDays_easter hmin hmax hn
  unfold computeHolidays
  rw [carryMonths_gaussOffset hyear]
  dsimp only
  rw [hfill]
  rfl

/-- After any calls, Easter Sunday of a year is the one of the Gregorian calendar, and a date of the year is
a holiday if it is one of the fixed days or the right number of days away from Easter Sunday. -/
theorem isHoliday_iff (calls : List (ℤ × ℤ × ℤ)) (day month : ℤ) {year : ℤ} (hyear : 1583 ≤ year)
    (hmax : year ≤ maxInt) :
    ∃ s answer s', afterCalls calls .initial = some s ∧ isHoliday day month year s = some (answer, s') ∧
      s'.osternDay = (meeusEaster year).day ∧ s'.osternMonth = (meeusEaster year).month ∧
      (answer = true ↔ ⟨day, month⟩ ∈ fixedHolidays ∨
        ∃ n ∈ easterOffsets, (gregorian.later n (easterSunday year)).1 = ⟨day, month, year⟩) := by
  obtain ⟨s, hcalls, hs⟩ := afterCalls_cached calls HolidayState.initial_cached
  obtain ⟨s', hcall, -, hcompute⟩ := isHoliday_cached hs day month year
  have hstate := hcompute (by omega)
  rw [computeHolidays_eq (by omega) hmax] at hstate
  obtain rfl := Option.some.inj hstate
  refine ⟨s, _, _, hcalls, hcall, rfl, rfl, ?_⟩
  simp only [List.any_append, Bool.or_eq_true, List.any_eq_true, List.mem_map, Bool.and_eq_true, beq_iff_eq]
  apply or_congr
  · constructor
    · rintro ⟨holiday, hmem, rfl, rfl⟩
      exact hmem
    · intro hmem
      exact ⟨_, hmem, rfl, rfl⟩
  · constructor
    · rintro ⟨holiday, ⟨n, hn, rfl⟩, rfl, rfl⟩
      refine ⟨n, hn, ?_⟩
      ext
      · rfl
      · rfl
      · exact (easter_later hn).2
    · rintro ⟨n, hn, hdate⟩
      refine ⟨_, ⟨n, hn, rfl⟩, ?_, ?_⟩
      · show (gregorian.later n (easterSunday year)).1.day = day
        rw [hdate]
      · show (gregorian.later n (easterSunday year)).1.month = month
        rw [hdate]

/-- Easter Monday 2024, asked for after a day of the year before. -/
theorem isHoliday_iff_monday : ∃ s answer s', afterCalls [(9, 4, 2023)] .initial = some s ∧
    isHoliday 1 4 2024 s = some (answer, s') ∧ answer = true := by
  obtain ⟨s, answer, s', hcalls, hcall, -, -, hiff⟩ := isHoliday_iff [(9, 4, 2023)] 1 4
    (show (1583 : ℤ) ≤ 2024 by decide) (by decide)
  exact ⟨s, answer, s', hcalls, hcall, hiff.mpr (.inr ⟨1, by decide, by decide⟩)⟩

end Imond
end Mkfli4l
