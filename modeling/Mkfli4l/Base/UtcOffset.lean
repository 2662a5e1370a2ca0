import Mkfli4l.Imond.DayArithmetic
import Mkfli4l.Lib.CNumber

/-!
# The offset of the local time

`add-days` finds out by how much the local time differs from UTC.  `utc_offset` takes the same point in
time, broken down once for each of them, and counts the seconds in a calendar in which every month has 31
days.  This calendar goes on whenever the Gregorian one does, and it differs from it by whole days, so the
remainder of the difference by the length of a day is right, with its sign.

The seconds are counted in an `int`, though.  In October 2036 the calendar with the longer months gets
beyond its range, and the difference between a time before that point and one behind it is wrong
(`utcOffset_iff`).
-/

namespace Mkfli4l
namespace Base

open Lib Imond

/-- The fields of `struct tm` that `utc_offset` reads. -/
structure Tm where
  tmSec : ℤ
  tmMin : ℤ
  tmHour : ℤ
  tmMday : ℤ
  tmMon : ℤ
  tmYear : ℤ

/-- `local_sec` and `gmt_sec`: a sum of `int`s, which wraps around. -/
def fakeSeconds (tm : Tm) : ℤ :=
  toInt32 ((tm.tmYear - 70) * 3600 * 24 * 31 * 12 +
    tm.tmMon * 3600 * 24 * 31 +
    (tm.tmMday - 1) * 3600 * 24 +
    tm.tmHour * 3600 +
    tm.tmMin * 60 +
    tm.tmSec)

/-- `utc_offset`, with a `long` that is wider than an `int`. -/
def utcOffset (tmLocal tmGmt : Tm) : ℤ := (fakeSeconds tmGmt - fakeSeconds tmLocal).tmod 86400

/-! ### Broken-down time -/

/-- The first day of 1970. -/
def epoch : gregorian.ValidDate := ⟨⟨1, 1, 1970⟩, by decide, by decide, by decide, by decide⟩

/-- The Gregorian date, `t` seconds after the epoch. -/
def dateAt (t : ℤ) : Date := (gregorian.later (t / 86400) epoch).1

/-- The Gregorian broken-down time, `t` seconds after the epoch. -/
def brokenDown (t : ℤ) : Tm where
  tmSec := t % 60
  tmMin := t % 3600 / 60
  tmHour := t % 86400 / 3600
  tmMday := (dateAt t).day
  tmMon := (dateAt t).month - 1
  tmYear := (dateAt t).year - 1900

/-! ### The calendar with the long months -/

/-- The days since the epoch in a calendar with 31 days in every month. -/
def fakeDays (d : Date) : ℤ := (d.year - 1970) * 372 + (d.month - 1) * 31 + (d.day - 1)

/-- The seconds since the epoch in this calendar. -/
def fakeTime (t : ℤ) : ℤ := fakeDays (dateAt t) * 86400 + t % 86400

theorem fakeSeconds_brokenDown (t : ℤ) : fakeSeconds (brokenDown t) = toInt32 (fakeTime t) := by
  unfold fakeSeconds fakeTime fakeDays brokenDown
  congr 1
  dsimp only
  omega

theorem fakeDays_nextDay (v : gregorian.ValidDate) :
    fakeDays v.1 < fakeDays (gregorian.nextDay v).1 := by
  have hlen := gregorian_le v.1.month v.1.year
  have hday := v.2.day_le
  have hmonth := v.2.month_le
  show fakeDays v.1 < fakeDays (gregorian.next v.1)
  unfold fakeDays Calendar.next Date.firstOfNext
  split
  · dsimp only
    omega
  · split
    · dsimp only
      omega
    · dsimp only
      omega

theorem fakeTime_strictMono : StrictMono fakeTime := by
  intro s t hlt
  have hdays := Calendar.strictMono_later (f := fun v => fakeDays v.1) fakeDays_nextDay epoch
  have hle : fakeDays (dateAt s) ≤ fakeDays (dateAt t) := hdays.monotone (show s / 86400 ≤ t / 86400 by omega)
  unfold fakeTime
  by_cases hsame : s / 86400 = t / 86400
  · omega
  · have hnext : fakeDays (dateAt s) < fakeDays (dateAt t) :=
      hdays (show s / 86400 < t / 86400 by omega)
    omega

theorem fakeTime_emod (t : ℤ) : fakeTime t % 86400 = t % 86400 := by
  unfold fakeTime
  omega

/-- The 25th of October 2036, 3:14:08. -/
def wrapsAt : ℤ := 2108517248

theorem dateAt_months (k rest : ℕ) (n : ℤ) (date : Date)
    (hmonths : gregorian.monthsOn k epoch.1 = (n, date)) {t : ℤ} (hday : t / 86400 = n + rest)
    (hfirst : date.day = 1)
    (hwithin : 1 + (rest : ℤ) ≤ gregorian.monthDays date.month date.year) :
    dateAt t = ⟨1 + rest, date.month, date.year⟩ := by
  have hmonth := Calendar.later_monthsOn k (v := epoch) rfl
  rw [hmonths] at hmonth
  dsimp only at hmonth
  unfold dateAt
  rw [hday, add_comm, Calendar.later_add, Calendar.later_within, hmonth, hfirst]
  rw [hmonth, hfirst]
  exact hwithin

theorem dateAt_october {t : ℤ} (hday : t / 86400 = 24404) : dateAt t = ⟨25, 10, 2036⟩ :=
  dateAt_months 801 24 24380 ⟨1, 10, 2036⟩ (by decide +kernel) hday
    (by decide) (by decide)

theorem fakeTime_wrapsAt : fakeTime wrapsAt = 2147483648 := by
  unfold fakeTime
  rw [dateAt_october (by decide)]
  decide

theorem fakeTime_range {t : ℤ} (hlow : -86400 ≤ t) (hhigh : t < 2147570048) :
    -86400 ≤ fakeTime t ∧ fakeTime t < 2187227648 := by
  have hfirst : fakeTime (-86400) = -86400 := by decide
  have hlast : fakeTime 2147570048 = 2187227648 := by
    have hdate : dateAt 2147570048 = ⟨20, 1, 2038⟩ :=
      dateAt_months 816 19 24837 ⟨1, 1, 2038⟩ (by decide +kernel) (by decide)
        (by decide) (by decide)
    unfold fakeTime
    rw [hdate]
    decide
  constructor
  · rw [← hfirst]
    exact fakeTime_strictMono.monotone hlow
  · rw [← hlast]
    exact fakeTime_strictMono hhigh

theorem toInt32_fakeTime {t : ℤ} (hlow : -86400 ≤ t) (hhigh : t < 2147570048) :
    toInt32 (fakeTime t) = if t < wrapsAt then fakeTime t else fakeTime t - 4294967296 := by
  obtain ⟨hfirst, hlast⟩ := fakeTime_range hlow hhigh
  have hwraps : fakeTime t < 2147483648 ↔ t < wrapsAt := by
    rw [← fakeTime_wrapsAt]
    exact fakeTime_strictMono.lt_iff_lt
  unfold toInt32
  split_ifs with hlt hbefore <;> omega

/-! ### The offset -/

theorem tmod_day_eq {z c : ℤ} (hmod : (z - c) % 86400 = 0) (hlow : -86400 < c) (hhigh : c < 86400)
    (hneg : z < 0 → c ≤ 0) (hpos : 0 < z → 0 ≤ c) (hzero : z = 0 → c = 0) : z.tmod 86400 = c := by
  rcases lt_trichotomy z 0 with hz | hz | hz
  · have hc := hneg hz
    have hopposite : (-z).tmod 86400 = -c := by
      rw [Int.tmod_eq_emod_of_nonneg (by omega)]
      omega
    rw [Int.neg_tmod] at hopposite
    omega
  · rw [hz, hzero hz]
    rfl
  · have hc := hpos hz
    rw [Int.tmod_eq_emod_of_nonneg hz.le]
    omega

theorem tmod_day_sign (z : ℤ) : (0 ≤ z → 0 ≤ z.tmod 86400) ∧ (z ≤ 0 → z.tmod 86400 ≤ 0) := by
  constructor
  · exact fun hz => Int.tmod_nonneg 86400 hz
  · intro hz
    have hopposite := Int.tmod_nonneg 86400 (show 0 ≤ -z by omega)
    rw [Int.neg_tmod] at hopposite
    omega

/-- The offset of the local time is found, unless one of the two times is before the point where the sums
wrap around, and the other one is not. -/
theorem utcOffset_iff (t offset : ℤ) (hpos : 0 ≤ t) (hmax : t < 2147483648) (hlow : -86400 < offset)
    (hhigh : offset < 86400) :
    utcOffset (brokenDown (t + offset)) (brokenDown t) = -offset ↔
      (t < wrapsAt ↔ t + offset < wrapsAt) := by
  have hgmt := toInt32_fakeTime (t := t) (by omega) (by omega)
  have hlocal := toInt32_fakeTime (t := t + offset) (by omega) (by omega)
  have hresidue : (fakeTime t - fakeTime (t + offset) + offset) % 86400 = 0 := by
    have := fakeTime_emod t
    have := fakeTime_emod (t + offset)
    omega
  -- the calendar goes on with the time
  have hforth : 0 < offset → fakeTime t < fakeTime (t + offset) :=
    fun h => fakeTime_strictMono (by omega)
  have hback : offset < 0 → fakeTime (t + offset) < fakeTime t :=
    fun h => fakeTime_strictMono (by omega)
  have hsame : offset = 0 → fakeTime (t + offset) = fakeTime t := fun h => by rw [h, add_zero]
  unfold utcOffset
  rw [fakeSeconds_brokenDown, fakeSeconds_brokenDown, hgmt, hlocal]
  constructor
  · intro hright
    -- on different sides the difference is wrong by `2 ^ 32`, and has the wrong sign
    by_contra hsides
    obtain ⟨hgmtLow, hgmtHigh⟩ := fakeTime_range (t := t) (by omega) (by omega)
    obtain ⟨hlocalLow, hlocalHigh⟩ := fakeTime_range (t := t + offset) (by omega) (by omega)
    by_cases hbefore : t < wrapsAt
    · have hafter : ¬ t + offset < wrapsAt := fun h => hsides (iff_of_true hbefore h)
      rw [if_pos hbefore, if_neg hafter] at hright
      have hsign := (tmod_day_sign (fakeTime t - (fakeTime (t + offset) - 4294967296))).1 (by omega)
      omega
    · have hafter : t + offset < wrapsAt := by
        by_contra h
        exact hsides (iff_of_false hbefore h)
      rw [if_neg hbefore, if_pos hafter] at hright
      have hsign := (tmod_day_sign (fakeTime t - 4294967296 - fakeTime (t + offset))).2 (by omega)
      omega
  · intro hsides
    have hdiff : (if t < wrapsAt then fakeTime t else fakeTime t - 4294967296) -
        (if t + offset < wrapsAt then fakeTime (t + offset) else fakeTime (t + offset) - 4294967296) =
        fakeTime t - fakeTime (t + offset) := by
      split_ifs <;> omega
    rw [hdiff]
    apply tmod_day_eq <;> omega

theorem utcOffset_iff_newYear :
    utcOffset (brokenDown 946684800) (brokenDown (946684800 - 3600)) = -3600 := by
  have hright := (utcOffset_iff (946684800 - 3600) 3600 (by decide) (by decide) (by decide) (by decide)).mpr
    (by decide)
  exact hright

/-- In the last second before that point, a local time that is an hour ahead is taken to be more than five
hours behind. -/
theorem utcOffset_october :
    0 ≤ wrapsAt - 1 ∧ wrapsAt - 1 < 2147483648 ∧
      utcOffset (brokenDown (wrapsAt - 1 + 3600)) (brokenDown (wrapsAt - 1)) = 19696 ∧
      utcOffset (brokenDown (wrapsAt - 1 + 3600)) (brokenDown (wrapsAt - 1)) ≠ -3600 := by
  have hvalue : utcOffset (brokenDown (wrapsAt - 1 + 3600)) (brokenDown (wrapsAt - 1)) = 19696 := by
    unfold utcOffset
    rw [fakeSeconds_brokenDown, fakeSeconds_brokenDown]
    unfold fakeTime
    rw [dateAt_october (by decide), dateAt_october (by decide)]
    decide
  refine ⟨by decide, by decide, hvalue, ?_⟩
  rw [hvalue]
  decide

end Base
end Mkfli4l
