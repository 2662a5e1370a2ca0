import Mkfli4l.Lib.Calendar

/-!
# Adding days

`add_days` of `imond` adds a number of days to a date, or takes days away if the number is negative.
Its two loops carry what is left over the ends of the months.

The loops correct the length of the first month in leap years, not that of the second one.  So they
count in a calendar of their own, in which the January of a leap year has 32 days and its February has
28.  This calendar has the same dates as the Gregorian one outside of the February of leap years, which
is where the results go wrong (`addDays_iff`).
-/

namespace Mkfli4l
namespace Imond

open Lib

/-- The largest `int`. -/
def maxInt : ℤ := 2147483647

/-- The smallest `int`. -/
def minInt : ℤ := -2147483648

def isLeapYear (y : ℤ) : Bool := y.tmod 4 == 0 && (y.tmod 100 != 0 || y.tmod 400 == 0)

def gDaysPerMonth : List ℤ := [31, 28, 31, 30, 31, 30, 31, 31, 30, 31, 30, 31]

/-- `days_this_month`, with the correction for leap years.  `none` means that the month is none of the
table. -/
def daysThisMonth (month year : ℤ) : Option ℤ :=
  if month < 1 then none
  else (gDaysPerMonth[(month - 1).toNat]?).map fun days =>
    if month = 1 ∧ isLeapYear year = true then days + 1 else days

theorem gDaysPerMonth_range : ∀ i < 12, ∃ days, gDaysPerMonth[i]? = some days ∧ 28 ≤ days ∧ days ≤ 31 := by
  decide

theorem daysThisMonth_of_range {month : ℤ} (hpos : 1 ≤ month) (hle : month ≤ 12) (year : ℤ) :
    ∃ days, daysThisMonth month year = some days ∧ 28 ≤ days ∧ days ≤ 32 := by
  obtain ⟨days, hdays, hlow, hhigh⟩ := gDaysPerMonth_range (month - 1).toNat (by omega)
  unfold daysThisMonth
  rw [if_neg (by omega), hdays]
  refine ⟨_, rfl, ?_, ?_⟩
  · dsimp only
    split <;> omega
  · dsimp only
    split <;> omega

theorem daysThisMonth_some {month year days : ℤ} (h : daysThisMonth month year = some days) :
    28 ≤ days ∧ 1 ≤ month ∧ month ≤ 12 := by
  unfold daysThisMonth at h
  split at h
  · contradiction
  · next hpos =>
      obtain ⟨d, hd, -⟩ := Option.map_eq_some_iff.mp h
      have hlt : (month - 1).toNat < 12 := (List.getElem?_eq_some_iff.mp hd).1
      have hle : month ≤ 12 := by omega
      obtain ⟨days', hdays, hge, -⟩ := daysThisMonth_of_range (Int.not_lt.mp hpos) hle year
      have hsame : daysThisMonth month year = some days := by
        unfold daysThisMonth
        rw [if_neg hpos]
        exact h
      rw [hdays] at hsame
      obtain rfl := Option.some.inj hsame
      exact ⟨hge, Int.not_lt.mp hpos, hle⟩

/-- The variables of the loops. -/
structure Adding where
  startDay : ℤ
  startMonth : ℤ
  startYear : ℤ
  nDays : ℤ

/-- The first loop of `add_days`.  `none` means that an `int` overflows or that there is no such month. -/
def addForward (s : Adding) : Option Adding :=
  if 0 < s.nDays then
    let startDay := s.startDay + s.nDays
    if maxInt < startDay then none
    else
      match hdays : daysThisMonth s.startMonth s.startYear with
      | none => none
      | some days =>
          if days < startDay then
            if 12 < s.startMonth + 1 then
              if s.startYear = maxInt then none
              else addForward ⟨1, 1, s.startYear + 1, startDay - days - 1⟩
            else addForward ⟨1, s.startMonth + 1, s.startYear, startDay - days - 1⟩
          else some ⟨startDay, s.startMonth, s.startYear, 0⟩
  else some s
termination_by (if 28 < s.startDay then 1 else 0, s.nDays.toNat)
decreasing_by
  all_goals
    have hge := (daysThisMonth_some hdays).1
    have hday : ¬ (28 : ℤ) < 1 := by omega
    simp only [Prod.lex_def, hday, if_false]
    split
    · exact .inl Nat.one_pos
    · exact .inr ⟨rfl, by omega⟩

/-- The second loop of `add_days`. -/
def addBackward (s : Adding) : Option Adding :=
  if s.nDays < 0 then
    let startDay := s.startDay + s.nDays
    if startDay < minInt then none
    else if startDay ≤ 0 then
      if s.startMonth - 1 = 0 then
        if s.startYear = minInt then none
        else
          match hdays : daysThisMonth 12 (s.startYear - 1) with
          | none => none
          | some days => addBackward ⟨days, 12, s.startYear - 1, startDay⟩
      else
        match hdays : daysThisMonth (s.startMonth - 1) s.startYear with
        | none => none
        | some days => addBackward ⟨days, s.startMonth - 1, s.startYear, startDay⟩
    else some ⟨startDay, s.startMonth, s.startYear, 0⟩
  else some s
termination_by (if s.startDay < 1 then 1 else 0, (-s.nDays).toNat)
decreasing_by
  all_goals
    have hge := (daysThisMonth_some hdays).1
    have hday : ¬ days < 1 := by omega
    simp only [Prod.lex_def, hday, if_false]
    split
    · exact .inl Nat.one_pos
    · exact .inr ⟨rfl, by omega⟩

/-- `add_days`: the new day and the new month. -/
def addDays (startDay startMonth startYear nDays : ℤ) : Option (ℤ × ℤ) :=
  ((addForward ⟨startDay, startMonth, startYear, nDays⟩).bind addBackward).map fun s =>
    (s.startDay, s.startMonth)

/-! ### The two calendars -/

/-- The leap years of the Gregorian calendar. -/
def IsLeap (year : ℤ) : Prop := year % 4 = 0 ∧ (year % 100 ≠ 0 ∨ year % 400 = 0)

instance (year : ℤ) : Decidable (IsLeap year) := inferInstanceAs (Decidable (_ ∧ _))

theorem isLeapYear_iff (year : ℤ) : isLeapYear year = true ↔ IsLeap year := by
  have hrem : ∀ k : ℤ, year.tmod k = 0 ↔ year % k = 0 := by
    intro k
    rw [← Int.dvd_iff_tmod_eq_zero, ← Int.dvd_iff_emod_eq_zero]
  simp [isLeapYear, IsLeap, hrem]

/-- The months with 30 days. -/
def IsShort (month : ℤ) : Prop := month = 4 ∨ month = 6 ∨ month = 9 ∨ month = 11

instance (month : ℤ) : Decidable (IsShort month) := inferInstanceAs (Decidable (_ ∨ _))

/-- The Gregorian calendar. -/
def gregorian : Calendar where
  monthDays := fun month year =>
    if month = 2 then if IsLeap year then 29 else 28
    else if IsShort month then 30
    else 31
  pos := by
    intro month year _ _
    split_ifs <;> omega

/-- The calendar in which the loops count. -/
def loopCalendar : Calendar where
  monthDays := fun month year =>
    if month = 1 ∧ IsLeap year then 32
    else if month = 2 then 28
    else if IsShort month then 30
    else 31
  pos := by
    intro month year _ _
    split_ifs <;> omega

theorem daysThisMonth_eq {month : ℤ} (hpos : 1 ≤ month) (hle : month ≤ 12) (year : ℤ) :
    daysThisMonth month year = some (loopCalendar.monthDays month year) := by
  have hmonths : month = 1 ∨ month = 2 ∨ month = 3 ∨ month = 4 ∨ month = 5 ∨ month = 6 ∨ month = 7 ∨
      month = 8 ∨ month = 9 ∨ month = 10 ∨ month = 11 ∨ month = 12 := by omega
  rcases hmonths with rfl | rfl | rfl | rfl | rfl | rfl | rfl | rfl | rfl | rfl | rfl | rfl
  · by_cases hleap : IsLeap year
    · simp [daysThisMonth, gDaysPerMonth, loopCalendar, isLeapYear_iff, hleap]
    · simp [daysThisMonth, gDaysPerMonth, loopCalendar, isLeapYear_iff, hleap, IsShort]
  all_goals simp [daysThisMonth, gDaysPerMonth, loopCalendar, IsShort]

theorem monthDays_le (month year : ℤ) :
    28 ≤ loopCalendar.monthDays month year ∧ loopCalendar.monthDays month year ≤ 32 := by
  unfold loopCalendar
  dsimp only
  split_ifs <;> omega

/-- The date lies in the February of a leap year. -/
def InLeapFebruary (d : Date) : Prop := d.month = 2 ∧ IsLeap d.year

instance (d : Date) : Decidable (InLeapFebruary d) := inferInstanceAs (Decidable (_ ∧ _))

/-- The same day in the calendar of the loops. -/
def shiftDate (d : Date) : Date :=
  if InLeapFebruary d then if d.day = 1 then ⟨32, 1, d.year⟩ else ⟨d.day - 1, 2, d.year⟩ else d

variable {d : Date} {v : gregorian.ValidDate}

theorem shiftDate_of_not (h : ¬ InLeapFebruary d) : shiftDate d = d := if_neg h

theorem monthDays_eq {month year : ℤ} (h : IsLeap year → month ≠ 1 ∧ month ≠ 2) :
    loopCalendar.monthDays month year = gregorian.monthDays month year := by
  unfold loopCalendar gregorian
  dsimp only
  by_cases hleap : IsLeap year
  · obtain ⟨hone, htwo⟩ := h hleap
    simp [hone, htwo]
  · simp [hleap]

theorem gregorian_le (month year : ℤ) : gregorian.monthDays month year ≤ 31 := by
  unfold gregorian
  dsimp only
  split_ifs <;> omega

theorem valid_of_not (h : ¬ InLeapFebruary d) (hd : gregorian.Valid d) : loopCalendar.Valid d := by
  obtain ⟨hmonth, hmonth', hday, hday'⟩ := hd
  refine ⟨hmonth, hmonth', hday, ?_⟩
  by_cases hjan : IsLeap d.year ∧ d.month = 1
  · obtain ⟨hleap, hone⟩ := hjan
    simp only [gregorian, hone, IsShort] at hday'
    simp only [loopCalendar, hone, hleap, and_self, if_true]
    norm_num at hday'
    omega
  · rw [monthDays_eq]
    · exact hday'
    · exact fun hleap => ⟨fun hone => hjan ⟨hleap, hone⟩, fun htwo => h ⟨htwo, hleap⟩⟩

theorem gregorian_leapFebruary (h : InLeapFebruary d) :
    gregorian.monthDays d.month d.year = 29 := by
  simp [gregorian, h.1, h.2]

theorem shiftDate_valid (hd : gregorian.Valid d) : loopCalendar.Valid (shiftDate d) := by
  unfold shiftDate
  split
  · next h =>
      have hlen := gregorian_leapFebruary h
      have hday := hd.day_le
      have hpos := hd.day_pos
      rw [hlen] at hday
      split
      · refine ⟨?_, ?_, ?_, ?_⟩
        · show (1 : ℤ) ≤ 1
          omega
        · show (1 : ℤ) ≤ 12
          omega
        · show (1 : ℤ) ≤ 32
          omega
        · simp [loopCalendar, h.2]
      · next hne =>
          refine ⟨?_, ?_, ?_, ?_⟩
          · show (1 : ℤ) ≤ 2
            omega
          · show (2 : ℤ) ≤ 12
            omega
          · show 1 ≤ d.day - 1
            omega
          · simp only [loopCalendar]
            norm_num
            omega
  · next h => exact valid_of_not h hd

theorem shiftDate_next (hd : gregorian.Valid d) :
    shiftDate (gregorian.next d) = loopCalendar.next (shiftDate d) := by
  have hday := hd.day_le
  have hpos := hd.day_pos
  by_cases hfeb : InLeapFebruary d
  · have hlen := gregorian_leapFebruary hfeb
    obtain ⟨day, month, year⟩ := d
    obtain ⟨rfl, hleap⟩ : month = 2 ∧ IsLeap year := hfeb
    simp only [hlen] at hday hpos
    have hlen' : gregorian.monthDays 2 year = 29 := hlen
    -- the first of February is the thirty-second of January, the others are one day earlier
    have hjan : loopCalendar.monthDays 1 year = 32 := by simp [loopCalendar, hleap]
    have hfeb' : loopCalendar.monthDays 2 year = 28 := by simp [loopCalendar]
    by_cases hlast : day = 29
    · subst hlast
      simp [Calendar.next, hlen', shiftDate, InLeapFebruary, hleap, hfeb', Date.firstOfNext]
    · have hlt : day < 29 := by omega
      by_cases hfirst : day = 1
      · subst hfirst
        simp [Calendar.next, hlen', shiftDate, InLeapFebruary, hleap, hjan, Date.firstOfNext]
      · have hne : ¬ day = 0 := by omega
        have hlt' : day - 1 < 28 := by omega
        simp [Calendar.next, hlen', shiftDate, InLeapFebruary, hleap, hfeb', hlt, hlt', hfirst, hne]
  · rw [shiftDate_of_not hfeb]
    by_cases hjan : IsLeap d.year ∧ d.month = 1
    · obtain ⟨day, month, year⟩ := d
      obtain ⟨hleap, rfl⟩ : IsLeap year ∧ month = 1 := hjan
      have hlen : gregorian.monthDays 1 year = 31 := by simp [gregorian, IsShort]
      have hlen' : loopCalendar.monthDays 1 year = 32 := by simp [loopCalendar, hleap]
      simp only [hlen] at hday
      by_cases hlast : day = 31
      · subst hlast
        simp [Calendar.next, hlen, hlen', shiftDate, InLeapFebruary, hleap, Date.firstOfNext]
      · have hlt : day < 31 := by omega
        have hlt' : day < 32 := by omega
        simp [Calendar.next, hlen, hlen', shiftDate, InLeapFebruary, hlt, hlt']
    · have hlen : loopCalendar.monthDays d.month d.year = gregorian.monthDays d.month d.year :=
        monthDays_eq fun hleap => ⟨fun hone => hjan ⟨hleap, hone⟩, fun htwo => hfeb ⟨htwo, hleap⟩⟩
      -- after any other day there is no leap February, for this is not the last day of its January
      have hnot : ¬ InLeapFebruary (gregorian.next d) := by
        unfold Calendar.next Date.firstOfNext
        split_ifs
        · exact hfeb
        · exact fun h => absurd h.1 (show (1 : ℤ) ≠ 2 by decide)
        · rintro ⟨htwo, hleap⟩
          have htwo : d.month + 1 = 2 := htwo
          exact hjan ⟨hleap, by omega⟩
      rw [shiftDate_of_not hnot]
      unfold Calendar.next
      rw [hlen]

/-- The same day in the calendar of the loops, for dates that there are. -/
def shift (v : gregorian.ValidDate) : loopCalendar.ValidDate := ⟨shiftDate v.1, shiftDate_valid v.2⟩

theorem shift_later (n : ℤ) (v : gregorian.ValidDate) :
    shift (gregorian.later n v) = loopCalendar.later n (shift v) :=
  Calendar.later_map (fun v => Subtype.ext (shiftDate_next v.2)) n v

/-! ### What the loops compute -/

/-- The variables of the loops at a date. -/
def Adding.at (d : Date) (n : ℤ) : Adding := ⟨d.day, d.month, d.year, n⟩

section loops

variable {day month year n : ℤ}

theorem addForward_round (hn : 0 < n) (hpos : 1 ≤ month) (hle : month ≤ 12) (hfit : day + n ≤ maxInt) :
    addForward ⟨day, month, year, n⟩ =
      if loopCalendar.monthDays month year < day + n then
        if 12 < month + 1 then
          if year = maxInt then none
          else addForward ⟨1, 1, year + 1, day + n - loopCalendar.monthDays month year - 1⟩
        else addForward ⟨1, month + 1, year, day + n - loopCalendar.monthDays month year - 1⟩
      else some ⟨day + n, month, year, 0⟩ := by
  have hlen := daysThisMonth_eq hpos hle year
  have hnot : ¬ maxInt < day + n := Int.not_lt.mpr hfit
  rw [addForward]
  simp only [hn, if_true, hnot, if_false]
  split
  · next hnone => exact nomatch hlen.symm.trans hnone
  · next days hsome =>
      obtain rfl := Option.some.inj (hlen.symm.trans hsome)
      rfl

theorem addForward_zero : addForward ⟨day, month, year, 0⟩ = some ⟨day, month, year, 0⟩ := by
  rw [addForward]
  simp

theorem addForward_overflow (hn : 0 < n) (hfit : maxInt < day + n) :
    addForward ⟨day, month, year, n⟩ = none := by
  rw [addForward]
  simp only [hn, hfit, if_true]

theorem addBackward_round (hn : n < 0) (hpos : 1 ≤ month) (hle : month ≤ 12) (hfit : minInt ≤ day + n) :
    addBackward ⟨day, month, year, n⟩ =
      if day + n ≤ 0 then
        if month - 1 = 0 then
          if year = minInt then none
          else addBackward ⟨loopCalendar.monthDays 12 (year - 1), 12, year - 1, day + n⟩
        else addBackward ⟨loopCalendar.monthDays (month - 1) year, month - 1, year, day + n⟩
      else some ⟨day + n, month, year, 0⟩ := by
  have hnot : ¬ day + n < minInt := Int.not_lt.mpr hfit
  rw [addBackward]
  simp only [hn, if_true, hnot, if_false]
  by_cases hday : day + n ≤ 0
  · rw [if_pos hday, if_pos hday]
    by_cases hjan : month - 1 = 0
    · have hlen : daysThisMonth 12 (year - 1) = _ := daysThisMonth_eq (by omega) (by omega) (year - 1)
      rw [if_pos hjan, if_pos hjan]
      by_cases hmin : year = minInt
      · rw [if_pos hmin, if_pos hmin]
      · rw [if_neg hmin, if_neg hmin]
        split
        · next hnone => exact nomatch hlen.symm.trans hnone
        · next days hsome =>
            obtain rfl := Option.some.inj (hlen.symm.trans hsome)
            rfl
    · have hlen : daysThisMonth (month - 1) year = _ := daysThisMonth_eq (by omega) (by omega) year
      rw [if_neg hjan, if_neg hjan]
      split
      · next hnone => exact nomatch hlen.symm.trans hnone
      · next days hsome =>
          obtain rfl := Option.some.inj (hlen.symm.trans hsome)
          rfl
  · rw [if_neg hday, if_neg hday]

theorem addBackward_zero : addBackward ⟨day, month, year, 0⟩ = some ⟨day, month, year, 0⟩ := by
  rw [addBackward]
  simp

end loops

theorem addForward_eq (k : ℕ) (v : loopCalendar.ValidDate) (hday : v.1.day + k ≤ maxInt)
    (hyear : v.1.year ≤ maxInt) :
    addForward (.at v.1 k) =
      if (loopCalendar.later k v).1.year ≤ maxInt then some (.at (loopCalendar.later k v).1 0) else none := by
  induction k using Nat.strong_induction_on generalizing v with
  | _ k ih =>
      show addForward ⟨v.1.day, v.1.month, v.1.year, k⟩ = _
      by_cases hk : 0 < k
      · have hle := v.2.day_le
        have hbounds := monthDays_le v.1.month v.1.year
        rw [addForward_round (by omega) v.2.month_pos v.2.month_le hday]
        by_cases hwithin : v.1.day + (k : ℤ) ≤ loopCalendar.monthDays v.1.month v.1.year
        · rw [if_neg (Int.not_lt.mpr hwithin), Calendar.later_within k hwithin, if_pos hyear]
          rfl
        · -- what is left after the first day of the next month
          obtain ⟨j, hj⟩ := Int.eq_ofNat_of_zero_le
            (show 0 ≤ v.1.day + (k : ℤ) - loopCalendar.monthDays v.1.month v.1.year - 1 by omega)
          have hlater : loopCalendar.later k v =
              loopCalendar.later j ⟨v.1.firstOfNext, v.2.firstOfNext⟩ := by
            rw [Calendar.later_beyond, hj]
          have hnext := ih j (by omega) ⟨v.1.firstOfNext, v.2.firstOfNext⟩
          rw [if_pos (Int.not_le.mp hwithin), hlater, hj]
          by_cases hdec : 12 < v.1.month + 1
          · have hfirst : v.1.firstOfNext = ⟨1, 1, v.1.year + 1⟩ := if_pos hdec
            rw [if_pos hdec]
            by_cases hmax : v.1.year = maxInt
            · have hge : v.1.firstOfNext.year ≤ _ :=
                Calendar.year_le_later j ⟨v.1.firstOfNext, v.2.firstOfNext⟩
              have hyear' : v.1.firstOfNext.year = v.1.year + 1 := by rw [hfirst]
              rw [if_pos hmax, if_neg (by omega)]
            · rw [if_neg hmax]
              simp only [hfirst] at hnext ⊢
              exact hnext (by omega) (by omega)
          · have hfirst : v.1.firstOfNext = ⟨1, v.1.month + 1, v.1.year⟩ := if_neg hdec
            rw [if_neg hdec]
            simp only [hfirst] at hnext ⊢
            exact hnext (by omega) hyear
      · obtain rfl : k = 0 := by omega
        have hzero : ((0 : ℕ) : ℤ) = 0 := rfl
        rw [hzero, addForward_zero, Calendar.later_zero, if_pos hyear]
        rfl

theorem addBackward_eq (k : ℕ) (v : loopCalendar.ValidDate) (hday : minInt ≤ -(k : ℤ))
    (hyear : minInt ≤ v.1.year) :
    addBackward (.at v.1 (-k)) =
      if minInt ≤ (loopCalendar.later (-k) v).1.year then some (.at (loopCalendar.later (-k) v).1 0)
      else none := by
  induction k using Nat.strong_induction_on generalizing v with
  | _ k ih =>
      show addBackward ⟨v.1.day, v.1.month, v.1.year, -k⟩ = _
      by_cases hk : 0 < k
      · have hpos := v.2.day_pos
        rw [addBackward_round (by omega) v.2.month_pos v.2.month_le (by omega)]
        by_cases hwithin : v.1.day + -(k : ℤ) ≤ 0
        · -- what is left before the last day of the previous month
          obtain ⟨j, hj⟩ := Int.eq_ofNat_of_zero_le (show 0 ≤ -(v.1.day + -(k : ℤ)) by omega)
          have hleft : v.1.day + -(k : ℤ) = -(j : ℤ) := by omega
          have hlater : loopCalendar.later (-k) v =
              loopCalendar.later (-j) ⟨loopCalendar.lastOfPrev v.1, v.2.lastOfPrev⟩ := by
            rw [Calendar.later_before, hleft]
          have hnext := ih j (by omega) ⟨loopCalendar.lastOfPrev v.1, v.2.lastOfPrev⟩ (by omega)
          rw [if_pos hwithin, hlater, hleft]
          by_cases hjan : v.1.month - 1 = 0
          · have hlast : loopCalendar.lastOfPrev v.1 =
                ⟨loopCalendar.monthDays 12 (v.1.year - 1), 12, v.1.year - 1⟩ := if_pos hjan
            rw [if_pos hjan]
            by_cases hmin : v.1.year = minInt
            · have hle : _ ≤ (loopCalendar.lastOfPrev v.1).year :=
                Calendar.later_year_le j ⟨loopCalendar.lastOfPrev v.1, v.2.lastOfPrev⟩
              have hyear' : (loopCalendar.lastOfPrev v.1).year = v.1.year - 1 := by rw [hlast]
              rw [if_pos hmin, if_neg (by omega)]
            · rw [if_neg hmin]
              simp only [hlast] at hnext ⊢
              exact hnext (by omega)
          · have hlast : loopCalendar.lastOfPrev v.1 =
                ⟨loopCalendar.monthDays (v.1.month - 1) v.1.year, v.1.month - 1, v.1.year⟩ := if_neg hjan
            rw [if_neg hjan]
            simp only [hlast] at hnext ⊢
            exact hnext hyear
        · rw [if_neg hwithin, Calendar.later_within_back (by omega) (by omega), if_pos hyear]
          rfl
      · obtain rfl : k = 0 := by omega
        have hzero : -((0 : ℕ) : ℤ) = 0 := rfl
        rw [hzero, addBackward_zero, Calendar.later_zero, if_pos hyear]
        rfl

theorem shiftDate_next_leapFebruary (h : InLeapFebruary d) (hd : gregorian.Valid d) :
    shiftDate (gregorian.next d) = if d.day = 29 then ⟨1, 3, d.year⟩ else d := by
  have hday := hd.day_le
  have hpos := hd.day_pos
  have hlen := gregorian_leapFebruary h
  obtain ⟨day, month, year⟩ := d
  obtain ⟨rfl, hleap⟩ : month = 2 ∧ IsLeap year := h
  simp only [hlen] at hday hpos
  have hlen' : gregorian.monthDays 2 year = 29 := hlen
  by_cases hlast : day = 29
  · subst hlast
    simp [Calendar.next, hlen', Date.firstOfNext, shiftDate, InLeapFebruary]
  · have hlt : day < 29 := by omega
    have hne : ¬ day = 0 := by omega
    simp [Calendar.next, hlen', shiftDate, InLeapFebruary, hleap, hlt, hlast, hne]

/-- The date from which the loops count.  In the February of a leap year the loops take the day for the
one behind it. -/
def loopStart (v : gregorian.ValidDate) : loopCalendar.ValidDate :=
  if InLeapFebruary v.1 then shift (gregorian.later 1 v) else shift v

theorem loopStart_eq (h : ¬ (InLeapFebruary v.1 ∧ v.1.day = 29)) : (loopStart v).1 = v.1 := by
  unfold loopStart
  split
  · next hfeb =>
      have hne : v.1.day ≠ 29 := fun hlast => h ⟨hfeb, hlast⟩
      rw [Calendar.later_one]
      show shiftDate (gregorian.next v.1) = v.1
      rw [shiftDate_next_leapFebruary hfeb v.2, if_neg hne]
  · next hfeb => exact shiftDate_of_not hfeb

theorem loopStart_leapDay (hfeb : InLeapFebruary v.1) (hlast : v.1.day = 29) :
    (loopStart v).1 = ⟨1, 3, v.1.year⟩ := by
  unfold loopStart
  rw [if_pos hfeb, Calendar.later_one]
  show shiftDate (gregorian.next v.1) = _
  rw [shiftDate_next_leapFebruary hfeb v.2, if_pos hlast]

theorem addForward_loopStart {k : ℕ} (hk : 0 < k) (hday : v.1.day + k ≤ maxInt)
    (hyear : v.1.year ≤ maxInt) :
    addForward (.at v.1 k) =
      if (loopCalendar.later k (loopStart v)).1.year ≤ maxInt
      then some (.at (loopCalendar.later k (loopStart v)).1 0) else none := by
  by_cases hleap : InLeapFebruary v.1 ∧ v.1.day = 29
  · obtain ⟨hfeb, hlast⟩ := hleap
    have hstart := loopStart_leapDay hfeb hlast
    have hrest := addForward_eq k (loopStart v)
    simp only [hstart] at hrest
    rw [← hrest (by omega) hyear]
    show addForward ⟨v.1.day, v.1.month, v.1.year, k⟩ = _
    rw [addForward_round (by omega) v.2.month_pos v.2.month_le hday, hfeb.1, hlast]
    have hlen : loopCalendar.monthDays 2 v.1.year = 28 := by simp [loopCalendar]
    have hleft : 29 + (k : ℤ) - 28 - 1 = k := by omega
    rw [hlen, if_pos (by omega), if_neg (by omega), hleft]
    rfl
  · have hstart := loopStart_eq hleap
    have hrest := addForward_eq k (loopStart v)
    simp only [hstart] at hrest
    exact hrest hday hyear

theorem addBackward_loopStart {k : ℕ} (hk : 0 < k) (hday : minInt ≤ -(k : ℤ))
    (hyear : minInt ≤ v.1.year) :
    addBackward (.at v.1 (-k)) =
      if minInt ≤ (loopCalendar.later (-k) (loopStart v)).1.year
      then some (.at (loopCalendar.later (-k) (loopStart v)).1 0) else none := by
  by_cases hleap : InLeapFebruary v.1 ∧ v.1.day = 29
  · obtain ⟨hfeb, hlast⟩ := hleap
    have hstart := loopStart_leapDay hfeb hlast
    have hlen : loopCalendar.monthDays 2 v.1.year = 28 := by simp [loopCalendar]
    have hlen' : loopCalendar.monthDays 1 v.1.year = 32 := by simp [loopCalendar, hfeb.2]
    -- the date from which the loops count is the day behind the last of February
    let feb : loopCalendar.ValidDate := ⟨⟨28, 2, v.1.year⟩, by norm_num, by norm_num, by norm_num, hlen.ge⟩
    let jan : loopCalendar.ValidDate := ⟨⟨32, 1, v.1.year⟩, by norm_num, by norm_num, by norm_num, hlen'.ge⟩
    -- both sides go back to the end of February, and from there to January
    have hprev : loopCalendar.lastOfPrev (loopStart v).1 = feb.1 := by
      rw [hstart]
      show (⟨loopCalendar.monthDays 2 v.1.year, 2, v.1.year⟩ : Date) = ⟨28, 2, v.1.year⟩
      rw [hlen]
    have hprev' : loopCalendar.lastOfPrev feb.1 = jan.1 := by
      show (⟨loopCalendar.monthDays 1 v.1.year, 1, v.1.year⟩ : Date) = ⟨32, 1, v.1.year⟩
      rw [hlen']
    have hone : (loopStart v).1.day + -(k : ℤ) = 1 + -(k : ℤ) := by rw [hstart]
    have hsum : 28 + (1 + -(k : ℤ)) = 29 + -(k : ℤ) := by omega
    show addBackward ⟨v.1.day, v.1.month, v.1.year, -k⟩ = _
    rw [addBackward_round (by omega) v.2.month_pos v.2.month_le (by omega), hfeb.1, hlast,
      Calendar.later_of_lastOfPrev hprev, hone]
    by_cases hwithin : 29 + -(k : ℤ) ≤ 0
    · obtain ⟨j, hj⟩ := Int.eq_ofNat_of_zero_le (show 0 ≤ -(29 + -(k : ℤ)) by omega)
      have hleft : 29 + -(k : ℤ) = -(j : ℤ) := by omega
      have hrest := addBackward_eq j jan (by omega) hyear
      have htwo : feb.1.day + (1 + -(k : ℤ)) = -(j : ℤ) := by
        show 28 + (1 + -(k : ℤ)) = -(j : ℤ)
        omega
      rw [if_pos hwithin, if_neg (by omega), Calendar.later_of_lastOfPrev hprev', htwo, hleft, ← hrest]
      show addBackward ⟨loopCalendar.monthDays 1 v.1.year, 1, v.1.year, -j⟩ = _
      rw [hlen']
      rfl
    · have hsame : (loopCalendar.later (1 + -(k : ℤ)) feb).1 = ⟨28 + (1 + -(k : ℤ)), 2, v.1.year⟩ := by
        apply Calendar.later_within_back
        · omega
        · show 1 ≤ 28 + (1 + -(k : ℤ))
          omega
      rw [if_neg hwithin, hsame, hsum, if_pos hyear]
      rfl
  · have hstart := loopStart_eq hleap
    have hrest := addBackward_eq k (loopStart v) hday
    simp only [hstart] at hrest
    exact hrest hyear

theorem loopStart_year (v : gregorian.ValidDate) : (loopStart v).1.year = v.1.year := by
  by_cases hleap : InLeapFebruary v.1 ∧ v.1.day = 29
  · rw [loopStart_leapDay hleap.1 hleap.2]
  · rw [loopStart_eq hleap]

theorem addDays_loopCalendar {n : ℤ} (hn : n ≠ 0) (hmin : minInt ≤ n)
    (hyear : minInt ≤ v.1.year) (hyear' : v.1.year ≤ maxInt) :
    addDays v.1.day v.1.month v.1.year n =
      if v.1.day + n ≤ maxInt ∧ minInt ≤ (loopCalendar.later n (loopStart v)).1.year ∧
          (loopCalendar.later n (loopStart v)).1.year ≤ maxInt
      then some ((loopCalendar.later n (loopStart v)).1.day, (loopCalendar.later n (loopStart v)).1.month)
      else none := by
  have hstart := loopStart_year v
  unfold addDays
  rcases lt_or_gt_of_ne hn with hneg | hpos
  · obtain ⟨k, hk⟩ := Int.eq_ofNat_of_zero_le (show 0 ≤ -n by omega)
    obtain rfl : n = -(k : ℤ) := by omega
    -- the first loop has no rounds
    have hforward : addForward ⟨v.1.day, v.1.month, v.1.year, -k⟩ = some (.at v.1 (-k)) := by
      rw [addForward, if_neg (by show ¬ 0 < -(k : ℤ); omega)]
      rfl
    have hday := v.2.day_le
    have hlen := gregorian_le v.1.month v.1.year
    have hle := Calendar.later_year_le k (loopStart v)
    have hfit : v.1.day + -(k : ℤ) ≤ maxInt := by
      unfold maxInt
      omega
    rw [hforward, Option.bind_some, addBackward_loopStart (by omega) hmin hyear]
    by_cases hlow : minInt ≤ (loopCalendar.later (-k) (loopStart v)).1.year
    · rw [if_pos hlow, if_pos ⟨hfit, hlow, by omega⟩]
      rfl
    · rw [if_neg hlow, if_neg (fun h => hlow h.2.1)]
      rfl
  · obtain ⟨k, rfl⟩ := Int.eq_ofNat_of_zero_le hpos.le
    have hge := Calendar.year_le_later k (loopStart v)
    by_cases hfit : v.1.day + (k : ℤ) ≤ maxInt
    · have hforward := addForward_loopStart (show 0 < k by omega) hfit hyear'
      simp only [Adding.at] at hforward
      rw [hforward]
      by_cases hhigh : (loopCalendar.later k (loopStart v)).1.year ≤ maxInt
      · rw [if_pos hhigh, if_pos ⟨hfit, by omega, hhigh⟩, Option.bind_some, addBackward_zero]
        rfl
      · rw [if_neg hhigh, if_neg (fun h => hhigh h.2.2)]
        rfl
    · rw [addForward_overflow (by omega) (Int.not_le.mp hfit), if_neg (fun h => hfit h.1)]
      rfl

/-! ### When the result is right -/

/-- The day and the month of the date `n` days later are found: no `int` overflows, both dates or none of
them lie in the February of a leap year, and the new date is not its last day. -/
structure CountsRight (v : gregorian.ValidDate) (n : ℤ) : Prop where
  fits : v.1.day + n ≤ maxInt
  year_ge : minInt ≤ (gregorian.later n v).1.year
  year_le : (gregorian.later n v).1.year ≤ maxInt
  same : InLeapFebruary v.1 ↔ InLeapFebruary (gregorian.later n v).1
  not_leapDay : ¬ (InLeapFebruary (gregorian.later n v).1 ∧ (gregorian.later n v).1.day = 29)

theorem shiftDate_ne (h : InLeapFebruary d) :
    ((shiftDate d).day, (shiftDate d).month) ≠ (d.day, d.month) := by
  unfold shiftDate
  rw [if_pos h]
  split
  · intro heq
    have hmonth : (1 : ℤ) = d.month := congrArg Prod.snd heq
    have htwo := h.1
    omega
  · intro heq
    have hday : d.day - 1 = d.day := congrArg Prod.fst heq
    omega

theorem shiftDate_next_ne (h : ¬ InLeapFebruary d) (hd : gregorian.Valid d) :
    ((shiftDate (gregorian.next d)).day, (shiftDate (gregorian.next d)).month) ≠ (d.day, d.month) := by
  have hpos := hd.day_pos
  have hmonth := hd.month_pos
  rw [shiftDate_next hd, shiftDate_of_not h]
  unfold Calendar.next Date.firstOfNext
  intro heq
  split_ifs at heq
  · have hday : d.day + 1 = d.day := congrArg Prod.fst heq
    omega
  · have hmonth' : (1 : ℤ) = d.month := congrArg Prod.snd heq
    omega
  · have hmonth' : d.month + 1 = d.month := congrArg Prod.snd heq
    omega

theorem later_loopStart (n : ℤ) (v : gregorian.ValidDate) :
    (loopCalendar.later n (loopStart v)).1 =
      if InLeapFebruary v.1 then shiftDate (gregorian.next (gregorian.later n v).1)
      else shiftDate (gregorian.later n v).1 := by
  unfold loopStart
  split
  · rw [← shift_later, ← Calendar.later_add, add_comm, Calendar.later_add, Calendar.later_one]
    rfl
  · rw [← shift_later]
    rfl

theorem addDays_zero (day month year : ℤ) : addDays day month year 0 = some (day, month) := by
  unfold addDays
  rw [addForward_zero, Option.bind_some, addBackward_zero]
  rfl

theorem later_loopStart_iff (n : ℤ) (v : gregorian.ValidDate) :
    ((loopCalendar.later n (loopStart v)).1.day, (loopCalendar.later n (loopStart v)).1.month) =
        ((gregorian.later n v).1.day, (gregorian.later n v).1.month) ↔
      (loopCalendar.later n (loopStart v)).1 = (gregorian.later n v).1 ∧
        (InLeapFebruary v.1 ↔ InLeapFebruary (gregorian.later n v).1) ∧
        ¬ (InLeapFebruary (gregorian.later n v).1 ∧ (gregorian.later n v).1.day = 29) := by
  constructor
  · intro hpair
    rw [later_loopStart] at hpair ⊢
    by_cases hstart : InLeapFebruary v.1
    · rw [if_pos hstart] at hpair ⊢
      by_cases hnew : InLeapFebruary (gregorian.later n v).1
      · have hnext := shiftDate_next_leapFebruary hnew (gregorian.later n v).2
        by_cases hlast : (gregorian.later n v).1.day = 29
        · rw [hnext, if_pos hlast] at hpair
          have hmonth : (3 : ℤ) = (gregorian.later n v).1.month := congrArg Prod.snd hpair
          have htwo := hnew.1
          omega
        · rw [hnext, if_neg hlast]
          exact ⟨rfl, iff_of_true hstart hnew, fun h => hlast h.2⟩
      · exact absurd hpair (shiftDate_next_ne hnew (gregorian.later n v).2)
    · rw [if_neg hstart] at hpair ⊢
      by_cases hnew : InLeapFebruary (gregorian.later n v).1
      · exact absurd hpair (shiftDate_ne hnew)
      · rw [shiftDate_of_not hnew]
        exact ⟨rfl, iff_of_false hstart hnew, fun h => hnew h.1⟩
  · rintro ⟨hsame, -, -⟩
    rw [hsame]

theorem loopStart_right {n : ℤ} (hsame : InLeapFebruary v.1 ↔ InLeapFebruary (gregorian.later n v).1)
    (hlast : ¬ (InLeapFebruary (gregorian.later n v).1 ∧ (gregorian.later n v).1.day = 29)) :
    (loopCalendar.later n (loopStart v)).1 = (gregorian.later n v).1 := by
  rw [later_loopStart]
  by_cases hstart : InLeapFebruary v.1
  · have hnew := hsame.mp hstart
    rw [if_pos hstart, shiftDate_next_leapFebruary hnew (gregorian.later n v).2,
      if_neg (fun h => hlast ⟨hnew, h⟩)]
  · rw [if_neg hstart, shiftDate_of_not (fun hnew => hstart (hsame.mpr hnew))]

theorem addDays_later {n : ℤ} (hmin : minInt ≤ n)
    (hyear : minInt ≤ v.1.year) (hyear' : v.1.year ≤ maxInt) :
    addDays v.1.day v.1.month v.1.year n =
        some ((gregorian.later n v).1.day, (gregorian.later n v).1.month) ↔
      n = 0 ∨ CountsRight v n := by
  by_cases hzero : n = 0
  · subst hzero
    rw [addDays_zero, Calendar.later_zero]
    simp
  · have hloop := addDays_loopCalendar hzero hmin hyear hyear'
    constructor
    · intro hright
      rw [hright] at hloop
      split at hloop
      · next hfits =>
          obtain ⟨hfit, hlow, hhigh⟩ := hfits
          obtain ⟨hend, hsame, hlast⟩ := (later_loopStart_iff n v).mp (Option.some.inj hloop).symm
          rw [hend] at hlow hhigh
          exact .inr ⟨hfit, hlow, hhigh, hsame, hlast⟩
      · contradiction
    · rintro (hn | hright)
      · exact absurd hn hzero
      · rw [hloop, loopStart_right hright.same hright.not_leapDay,
          if_pos ⟨hright.fits, hright.year_ge, hright.year_le⟩]

/-- The day and the month of the date `n` days later are found, and those of the first date if `n` days
are taken away again, outside of the February of leap years. -/
theorem addDays_iff {v : gregorian.ValidDate} {n : ℤ} (hmin : minInt ≤ n) (hmax : n ≤ maxInt)
    (hyear : minInt ≤ v.1.year) (hyear' : v.1.year ≤ maxInt) :
    (addDays v.1.day v.1.month v.1.year n =
        some ((gregorian.later n v).1.day, (gregorian.later n v).1.month) ↔
      n = 0 ∨ CountsRight v n) ∧
    (minInt ≤ (gregorian.later n v).1.year → (gregorian.later n v).1.year ≤ maxInt →
      (addDays (gregorian.later n v).1.day (gregorian.later n v).1.month (gregorian.later n v).1.year (-n) =
          some (v.1.day, v.1.month) ↔
        n = 0 ∨ CountsRight (gregorian.later n v) (-n))) := by
  refine ⟨addDays_later hmin hyear hyear', ?_⟩
  intro hlow hhigh
  have hneg : minInt ≤ -n := by
    unfold minInt
    unfold maxInt at hmax
    omega
  have hback := addDays_later hneg hlow hhigh
  rw [Calendar.later_neg_later, neg_eq_zero] at hback
  exact hback

/-- The last day of a year. -/
def newYearsEve : gregorian.ValidDate := ⟨⟨31, 12, 2023⟩, by decide, by decide, by decide, by decide⟩

theorem addDays_iff_newYear : addDays 31 12 2023 3 = some (3, 1) ∧ addDays 3 1 2024 (-3) = some (31, 12) := by
  have hlater : (gregorian.later 3 newYearsEve).1 = ⟨3, 1, 2024⟩ := by decide
  have hback : (gregorian.later (-3) (gregorian.later 3 newYearsEve)).1 = ⟨31, 12, 2023⟩ := by decide
  have hiff := addDays_iff (v := newYearsEve) (n := 3) (by decide) (by decide) (by decide) (by decide)
  constructor
  · have hthere := hiff.1.mpr (.inr ⟨by decide, by decide, by decide, by decide, by decide⟩)
    rw [hlater] at hthere
    exact hthere
  · have hagain := (hiff.2 (by decide) (by decide)).mpr
      (.inr ⟨by decide, by decide, by decide, by decide, by decide⟩)
    rw [hlater] at hagain
    exact hagain

/-- The day behind the last of January 2024 is the first of February. -/
theorem addDays_january :
    addDays 31 1 2024 1 = some (32, 1) ∧
      (gregorian.later 1 ⟨⟨31, 1, 2024⟩, by decide, by decide, by decide, by decide⟩).1 = ⟨1, 2, 2024⟩ := by
  constructor
  · have hloop := addDays_loopCalendar (v := ⟨⟨31, 1, 2024⟩, by decide, by decide, by decide, by decide⟩)
      (n := 1) (by decide) (by decide) (by decide) (by decide)
    rw [if_pos (by decide)] at hloop
    exact hloop.trans (by decide)
  · decide

end Imond
end Mkfli4l
