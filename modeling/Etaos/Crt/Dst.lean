import Etaos.Crt.Calendar

/-!
# Daylight saving time

The decision of `time.c` whether a standard time is in the daylight saving time of its year, with
the integer widths of the AVR.  The dates of the last transitions that were computed are kept.

The day of the week of the first day of a month is computed in an `int`: the days since 1970 do
not fit from October 2059 on, and the day that is found is then a Tuesday.
-/

set_option linter.style.nameCheck false

namespace Etaos.Crt

open Gregorian

/-! ### The transitions -/

/-- The `struct transitiondate`. -/
structure TransitionDate where
  yr : Int
  yd : Int
  ms : Int
  deriving DecidableEq

/-- The variables `dststart` and `dstend`. -/
structure Dst where
  dststart : TransitionDate
  dstend : TransitionDate
  deriving DecidableEq

/-- The variables before the first call. -/
def Dst.init : Dst where
  dststart := { yr := -1, yd := 0, ms := 0 }
  dstend := { yr := -1, yd := 0, ms := 0 }

/-- The constant `DAY_MILLISEC`. -/
def DAY_MILLISEC : Int := 24 * 60 * 60 * 1000

/-- The option `CONFIG_DST_BIAS`, a difference of a day at most. -/
structure DstBias where
  seconds : Int
  neg_le : -86400 ≤ seconds
  le : seconds ≤ 86400

/-- The variable `monthdow` of `cvtdate`, for the day `yearday` of the year. -/
def monthDow (year yearday : Int) : Int :=
  let days := toInt16 (toInt16 (year - 70) * 365)
  let days := toInt16 (toInt16 (yearday + days) + toInt16 (toInt16 (year - 1) / 4))
  toInt16 ((toInt32 (toInt32 (days - _LEAP_YEAR_ADJUST) + _BASE_DOW)).tmod 7)

/-- The day of the year of a transition date, from the first day of its month and the day of the
week of that, and the last day of the month. -/
def dayInMonth (yearday monthdow week dayofweek last : Int) : Int :=
  let yearday :=
    if monthdow ≤ dayofweek then
      toInt16 (yearday + toInt16 (toInt16 (dayofweek - monthdow) + toInt16 ((week - 1) * 7)))
    else
      toInt16 (yearday + toInt16 (toInt16 (dayofweek - monthdow) + toInt16 (week * 7)))
  if week = 5 ∧ yearday > last then toInt16 (yearday - 7) else yearday

/-- The day of the year of a transition date, in `cvtdate`. -/
def transitionDay (datetype year : Int) (month : ℕ) (week dayofweek date : Int) : Option Int := do
  let days := if isLeapYear year then _lpdays else _days
  if datetype = 1 then
    let yearday := toInt16 (1 + (← days[month - 1]?))
    some (dayInMonth yearday (monthDow year yearday) week dayofweek (← days[month]?))
  else
    some (toInt16 ((← days[month - 1]?) + date))

/-- The milliseconds of the day of a transition date. -/
def transitionMs (hour min sec msec : Int) : Int :=
  toInt32 (msec + toInt32 (1000 * toInt32 (sec + toInt32 (60 * toInt32 (min + toInt32 (60 * hour))))))

/-- The function `cvtdate`. -/
def cvtdate (bias : DstBias) (s : Dst) (trantype datetype year : Int) (month : ℕ)
    (week dayofweek date hour min sec msec : Int) : Option Dst := do
  let yd ← transitionDay datetype year month week dayofweek date
  let ms := transitionMs hour min sec msec
  if trantype = 1 then
    some { s with dststart := { yr := year, yd, ms } }
  else
    let ms := toInt32 (ms + toInt32 (bias.seconds * 1000))
    if ms < 0 then
      some { s with
        dstend := { yr := year, yd := toInt16 (yd - 1), ms := toInt32 (ms + DAY_MILLISEC) } }
    else if ms ≥ DAY_MILLISEC then
      some { s with
        dstend := { yr := year, yd := toInt16 (yd + 1), ms := toInt32 (ms - DAY_MILLISEC) } }
    else
      some { s with dstend := { yr := year, yd, ms } }

/-- The transition dates of a year are computed. -/
def computeDst (bias : DstBias) (s : Dst) (year : Int) : Option Dst := do
  let s ← cvtdate bias s 1 1 year 3 5 0 0 2 0 0 0
  cvtdate bias s 0 1 year 10 5 0 0 2 0 0 0

/-- The transition dates of a year are computed, unless they are there. -/
def updateDst (bias : DstBias) (s : Dst) (year : Int) : Option Dst :=
  if year ≠ s.dststart.yr ∨ year ≠ s.dstend.yr then computeDst bias s year else some s

/-- The comparison of `time_isindst` with the transition dates. -/
def inTransitions (s : Dst) (tb : Tm) : Bool :=
  let ms := toInt32 (1000 *
    toInt32 (toInt32 (tb.sec + toInt32 (60 * tb.min)) + toInt32 (3600 * tb.hour)))
  let onDay := if tb.yday = s.dststart.yd then decide (ms ≥ s.dststart.ms) else ms < s.dstend.ms
  if s.dststart.yd < s.dstend.yd then
    if tb.yday < s.dststart.yd ∨ tb.yday > s.dstend.yd then
      false
    else if tb.yday > s.dststart.yd ∧ tb.yday < s.dstend.yd then
      true
    else
      onDay
  else if tb.yday < s.dstend.yd ∨ tb.yday > s.dststart.yd then
    true
  else if tb.yday > s.dstend.yd ∧ tb.yday < s.dststart.yd then
    false
  else
    onDay

/-- The function `time_isindst`, with the variables that it leaves. -/
def timeIsindst (bias : DstBias) (_daylight : Bool) (s : Dst) (tb : Tm) : Option (Dst × Bool) :=
  if !_daylight then
    some (s, false)
  else
    (updateDst bias s tb.year).map fun s => (s, inTransitions s tb)

/-- The variables after a sequence of calls, in each of which the flag `_daylight` is set or
not. -/
def afterCalls (bias : DstBias) : Dst → List (Bool × Tm) → Option Dst
  | s, [] => some s
  | s, (_daylight, tb) :: calls => do
      let (s, _) ← timeIsindst bias _daylight s tb
      afterCalls bias s calls

/-! ### Daylight saving time -/

/-- The day of the week of a day since the beginning of 1970, a Thursday, from Sunday on. -/
def weekday (day : ℕ) : ℕ :=
  (day + 4) % 7

/-- The last day of a month. -/
def lastDay (y m : ℕ) : ℕ :=
  daysBeforeYear 1970 y + daysBeforeMonth y (m + 1) - 1

/-- The last day of a month that is the weekday `w`. -/
def lastWeekday (y m w : ℕ) : ℕ :=
  lastDay y m - (weekday (lastDay y m) + 7 - w) % 7

/-- The year of a time. -/
def yearOf (n : ℕ) : ℕ :=
  (Date.next^[n / 86400] (Date.newYear 1970)).year

/-- The time 02:00 of the last weekday `w` of March. -/
def dstStart (y w : ℕ) : Int :=
  lastWeekday y 2 w * 86400 + 7200

/-- The standard time of 02:00 of the last weekday `w` of October. -/
def dstEnd (bias : DstBias) (y w : ℕ) : Int :=
  lastWeekday y 9 w * 86400 + 7200 + bias.seconds

/-- The time is in the daylight saving time of its year, from 02:00 on the last Sunday of March
until 02:00 on the last Sunday of October. -/
def InDst (bias : DstBias) (n : ℕ) : Prop :=
  dstStart (yearOf n) 0 ≤ n ∧ n < dstEnd bias (yearOf n) 0

/-- The time is between two times. -/
def Between (n : ℕ) (a b : Int) : Prop :=
  min a b ≤ n ∧ n < max a b

/-- The time is not between the last Sunday and the last Tuesday of a transition that is computed
from days that do not fit. -/
def Decided (bias : DstBias) (n : ℕ) : Prop :=
  (2060 ≤ yearOf n → ¬ Between n (dstStart (yearOf n) 0) (dstStart (yearOf n) 2)) ∧
    (2059 ≤ yearOf n → ¬ Between n (dstEnd bias (yearOf n) 0) (dstEnd bias (yearOf n) 2))

/-! ### Weekdays -/

/-- The last weekday of a month is that weekday, in the last week of the month. -/
theorem weekday_lastWeekday {y m w : ℕ} (hw : w < 7) (hlast : 7 ≤ lastDay y m) :
  weekday (lastWeekday y m w) = w ∧ lastWeekday y m w ≤ lastDay y m ∧
    lastDay y m < lastWeekday y m w + 7
  := by
  rw [lastWeekday, weekday, weekday]
  omega

/-- A day of the last week of a month is its last weekday. -/
theorem lastWeekday_eq {y m w day : ℕ} (hw : w < 7) (hday : weekday day = w)
    (hle : day ≤ lastDay y m) (hlt : lastDay y m < day + 7) :
  lastWeekday y m w = day
  := by
  rw [weekday] at hday
  rw [lastWeekday, weekday]
  omega

/-! ### The transition dates of a year -/

/-- The days before March and before October. -/
theorem daysBeforeMonth_le (y : ℕ) {m : ℕ} (hm : m = 2 ∨ m = 9) :
  daysBeforeMonth y m ≤ 274 ∧ daysBeforeMonth y (m + 1) = daysBeforeMonth y m + 31
  := by
  rcases hm with rfl | rfl <;> cases hleap : isLeap y <;>
    simp [daysBeforeMonth, Finset.sum_range_succ, daysInMonth, hleap]

/-- The first year in which the days since 1970 do not fit for the last Sunday of a month. -/
def firstWrapped (m : ℕ) : ℕ :=
  if m = 2 then 2060 else 2059

/-- The weekday that `cvtdate` takes for a Sunday. -/
def takenWeekday (y m : ℕ) : ℕ :=
  if y < firstWrapped m then 0 else 2

/-- The days since 1970 that are added up in an `int` fit until the first year in which they do
not. -/
theorem lt_firstWrapped_iff {y m : ℕ} (hy : 1970 ≤ y) (hy' : y < 2100) (hm : m = 2 ∨ m = 9) :
  y < firstWrapped m ↔ daysBeforeYear 1970 y + daysBeforeMonth y m + 17 < 32768
  := by
  have hdays := daysBeforeYear_eq (y - 1970) (by omega)
  rw [show 1970 + (y - 1970) = y by omega] at hdays
  rw [hdays, firstWrapped]
  rcases hm with rfl | rfl <;> cases hleap : isLeap y <;>
    simp [daysBeforeMonth, Finset.sum_range_succ, daysInMonth, hleap] <;> omega

theorem toInt16_add_toInt16 (a b : Int) : toInt16 (a + toInt16 b) = toInt16 (a + b) := by
  rw [toInt16, toInt16, toInt16]
  omega

theorem toInt16_toInt16_add (a b : Int) : toInt16 (toInt16 a + b) = toInt16 (a + b) := by
  rw [Int.add_comm, toInt16_add_toInt16, Int.add_comm]

/-- The days since 1970, as they are added up. -/
theorem daysSum_eq {y before : ℕ} (hy : 1970 ≤ y) (hy' : y < 2100) :
  toInt16 (toInt16 (before + toInt16 (toInt16 ((y : Int) - 1900 - 70) * 365))
      + toInt16 (toInt16 ((y : Int) - 1900 - 1) / 4)) =
    toInt16 ((daysBeforeYear 1970 y + before + 17 : ℕ) : Int)
  := by
  have hdays := daysBeforeYear_eq (y - 1970) (by omega)
  rw [show 1970 + (y - 1970) = y by omega] at hdays
  have hyear : toInt16 ((y : Int) - 1900 - 70) = y - 1970 := by
    rw [toInt16_eq] <;> omega
  have hleap : toInt16 (toInt16 ((y : Int) - 1900 - 1) / 4) = (y - 1901) / 4 := by
    rw [toInt16_eq (x := (y : Int) - 1900 - 1) (by omega) (by omega), toInt16_eq] <;> omega
  have hsum : before + ((y : Int) - 1970) * 365 + (y - 1901) / 4
      = (365 * (y - 1970) + (y - 1970 + 1) / 4 + before + 17 : ℕ) := by
    omega
  rw [hyear, hleap, hdays, toInt16_add_toInt16, toInt16_toInt16_add, hsum]

/-- The day of the week that `cvtdate` computes for the first day of a month. -/
theorem monthDow_eq {y m : ℕ} (hy : 1970 ≤ y) (hy' : y < 2100) (hm : m = 2 ∨ m = 9) :
  monthDow ((y : Int) - 1900) (daysBeforeMonth y m) =
    if y < firstWrapped m then
      ((weekday (daysBeforeYear 1970 y + daysBeforeMonth y m) : ℕ) : Int)
    else
      -((65532 - (daysBeforeYear 1970 y + daysBeforeMonth y m : ℕ)) % 7)
  := by
  have hadjust : _LEAP_YEAR_ADJUST = 17 := rfl
  have hbase : _BASE_DOW = 4 := rfl
  have hbefore := (daysBeforeMonth_le y hm).1
  have hbound : daysBeforeYear 1970 y < 48000 := by
    have hdays := daysBeforeYear_eq (y - 1970) (by omega)
    rw [show 1970 + (y - 1970) = y by omega] at hdays
    omega
  have hday : daysBeforeYear 1970 y + daysBeforeMonth y m < 48274 := by omega
  simp only [monthDow, hadjust, hbase, daysSum_eq hy hy', lt_firstWrapped_iff hy hy' hm]
  generalize daysBeforeYear 1970 y + daysBeforeMonth y m = day at *
  split
  · rename_i hlt
    have hfits : toInt16 ((day + 17 : ℕ) : Int) = day + 17 := by
      rw [toInt16_eq] <;> omega
    rw [hfits, toInt32_eq (x := (day : Int) + 17 - 17) (by omega) (by omega),
      toInt32_eq (by omega) (by omega), Int.tmod_eq_emod_of_nonneg (by omega), weekday,
      toInt16_eq] <;>
      omega
  · rename_i hle
    have hwrapped : toInt16 ((day + 17 : ℕ) : Int) = day + 17 - 65536 := by
      rw [toInt16]
      omega
    have hminus : (day : Int) + 17 - 65536 - 17 + 4 = -(65532 - day) := by omega
    rw [hwrapped, toInt32_eq (x := (day : Int) + 17 - 65536 - 17) (by omega) (by omega),
      toInt32_eq (by omega) (by omega), hminus, Int.neg_tmod,
      Int.tmod_eq_emod_of_nonneg (by omega), toInt16_eq] <;>
      omega

/-- The day that is found in a month of 31 days is seven days at most before its end, and a whole
number of weeks behind the day that is taken for a Sunday. -/
theorem dayInMonth_eq {before : ℕ} {d : Int} (hbefore : before ≤ 274) (hlo : -6 ≤ d) (hhi : d ≤ 6) :
  ∃ k : ℕ, 24 ≤ k ∧ k ≤ 30 ∧ (d + k) % 7 = 0 ∧
    dayInMonth before d 5 0 (before + 30) = (before + k : ℕ)
  := by
  have hneg : toInt16 (0 - d) = -d := by
    rw [toInt16_eq] <;> omega
  have hweek : toInt16 ((5 - 1) * 7) = 28 ∧ toInt16 (5 * 7) = 35 := by decide
  have hday (w : Int) (hw : 28 ≤ w) (hw' : w ≤ 35) :
      toInt16 (before + toInt16 (-d + w)) = before - d + w := by
    rw [toInt16_eq (x := -d + w) (by omega) (by omega), toInt16_eq] <;> omega
  have hearlier (w : Int) (hw : 28 ≤ w) (hw' : w ≤ 35) :
      toInt16 (before - d + w - 7) = before - d + w - 7 := by
    rw [toInt16_eq] <;> omega
  rw [dayInMonth, hneg, hweek.1, hweek.2, hday 28 (by decide) (by decide),
    hday 35 (by decide) (by decide)]
  simp only [true_and]
  rcases Int.lt_or_le 0 d with hpos | hle
  · rw [if_neg (not_le.mpr hpos)]
    split
    · rw [hearlier 35 (by decide) (by decide)]
      refine ⟨(28 - d).toNat, ?_, ?_, ?_, ?_⟩ <;> omega
    · refine ⟨(35 - d).toNat, ?_, ?_, ?_, ?_⟩ <;> omega
  · rw [if_pos hle]
    split
    · rw [hearlier 28 (by decide) (by decide)]
      refine ⟨(21 - d).toNat, ?_, ?_, ?_, ?_⟩ <;> omega
    · refine ⟨(28 - d).toNat, ?_, ?_, ?_, ?_⟩ <;> omega

/-- The day of the week that is computed is near enough to zero, and a whole number of weeks
behind it are the days that are taken for a Sunday. -/
theorem monthDow_bounds {y m : ℕ} (hy : 1970 ≤ y) (hy' : y < 2100) (hm : m = 2 ∨ m = 9) :
  -6 ≤ monthDow ((y : Int) - 1900) (daysBeforeMonth y m) ∧
    monthDow ((y : Int) - 1900) (daysBeforeMonth y m) ≤ 6 ∧
    ∀ k : ℕ, (monthDow ((y : Int) - 1900) (daysBeforeMonth y m) + k) % 7 = 0 →
      weekday (daysBeforeYear 1970 y + daysBeforeMonth y m + k) = takenWeekday y m
  := by
  rw [monthDow_eq hy hy' hm, takenWeekday]
  simp only [weekday]
  split
  · refine ⟨by omega, by omega, ?_⟩
    intro k hk
    omega
  · refine ⟨by omega, by omega, ?_⟩
    intro k hk
    omega

/-- The day that `cvtdate` finds is the last weekday that it takes for a Sunday. -/
theorem transitionDay_eq {y m : ℕ} (hy : 1970 ≤ y) (hy' : y < 2100) (hm : m = 2 ∨ m = 9) :
  ∃ k ≤ 30, transitionDay 1 ((y : Int) - 1900) (m + 1) 5 0 0
      = some ((daysBeforeMonth y m + k : ℕ) : Int) ∧
    lastWeekday y m (takenWeekday y m) = daysBeforeYear 1970 y + daysBeforeMonth y m + k
  := by
  obtain ⟨hbefore, hlength⟩ := daysBeforeMonth_le y hm
  obtain ⟨hlo, hhi, htaken⟩ := monthDow_bounds hy hy' hm
  obtain ⟨k, hk, hk', hmod, hday⟩ := dayInMonth_eq hbefore hlo hhi
  have hmonth : m + 1 ≤ 12 := by omega
  have hdays : (if isLeapYear ((y : Int) - 1900) then _lpdays else _days)
      = lastDays (isLeap y) := by
    rw [isLeapYear_eq (by omega)]
    rfl
  have hfirst : toInt16 (1 + ((daysBeforeMonth y m : Int) - 1)) = daysBeforeMonth y m := by
    rw [toInt16_eq] <;> omega
  have hnext : ((daysBeforeMonth y (m + 1) : ℕ) : Int) - 1 = daysBeforeMonth y m + 30 := by omega
  have hlast : lastDay y m = daysBeforeYear 1970 y + daysBeforeMonth y m + 30 := by
    rw [lastDay]
    omega
  refine ⟨k, hk', ?_, ?_⟩
  · rw [transitionDay, hdays, if_pos rfl]
    simp only [Nat.add_sub_cancel, lastDays_get (show m ≤ 12 by omega), lastDays_get hmonth,
      Option.bind_eq_bind, Option.bind_some, hfirst, hnext, hday]
  · apply lastWeekday_eq
    · rw [takenWeekday]
      split <;> decide
    · apply htaken k hmod
    · omega
    · omega

/-! ### The variables between the calls -/

/-- The transitions in the variables are at the times `a` and `b` of the year `y`. -/
structure Marks (s : Dst) (y : ℕ) (a b : Int) : Prop where
  start_nonneg : 0 ≤ s.dststart.ms
  start_lt : s.dststart.ms < DAY_MILLISEC
  start : (daysBeforeYear 1970 y + s.dststart.yd) * DAY_MILLISEC + s.dststart.ms = a * 1000
  end_nonneg : 0 ≤ s.dstend.ms
  end_lt : s.dstend.ms < DAY_MILLISEC
  ends : (daysBeforeYear 1970 y + s.dstend.yd) * DAY_MILLISEC + s.dstend.ms = b * 1000
  lt : s.dststart.yd < s.dstend.yd

/-- The variables are as they were at first, or hold the transitions of a year. -/
def Kept (bias : DstBias) (s : Dst) : Prop :=
  s = .init ∨ ∃ s₀ year, computeDst bias s₀ year = some s

theorem cvtdate_yr {bias : DstBias} {s s' : Dst} {trantype datetype year : Int} {month : ℕ}
    {week dayofweek date hour min sec msec : Int}
    (h : cvtdate bias s trantype datetype year month week dayofweek date hour min sec msec
      = some s') :
  if trantype = 1 then s'.dststart.yr = year ∧ s'.dstend = s.dstend
  else s'.dstend.yr = year ∧ s'.dststart = s.dststart
  := by
  obtain ⟨yd, -, h⟩ := Option.bind_eq_some_iff.mp h
  dsimp only at h
  split at h
  · rename_i htype
    obtain rfl := Option.some.inj h
    rw [if_pos htype]
    exact ⟨rfl, rfl⟩
  · rename_i htype
    rw [if_neg htype]
    split at h
    · obtain rfl := Option.some.inj h
      exact ⟨rfl, rfl⟩
    · split at h <;> obtain rfl := Option.some.inj h <;> exact ⟨rfl, rfl⟩

/-- The variables hold the year they were computed for. -/
theorem computeDst_yr {bias : DstBias} {s s' : Dst} {year : Int}
    (h : computeDst bias s year = some s') :
  s'.dststart.yr = year ∧ s'.dstend.yr = year
  := by
  obtain ⟨s₁, hs₁, hs'⟩ := Option.bind_eq_some_iff.mp h
  obtain ⟨hstart, -⟩ := cvtdate_yr hs₁
  obtain ⟨hend, hsame⟩ := cvtdate_yr hs'
  rw [hsame]
  exact ⟨hstart, hend⟩

theorem Kept.timeIsindst {bias : DstBias} {_daylight : Bool} {s s' : Dst} {tb : Tm} {b : Bool}
    (hs : Kept bias s) (h : timeIsindst bias _daylight s tb = some (s', b)) :
  Kept bias s'
  := by
  rw [Crt.timeIsindst] at h
  split at h
  · obtain ⟨rfl, -⟩ := Prod.mk.inj (Option.some.inj h)
    apply hs
  · obtain ⟨s₁, hs₁, h⟩ := Option.map_eq_some_iff.mp h
    obtain ⟨rfl, -⟩ := Prod.mk.inj h
    rw [updateDst] at hs₁
    split at hs₁
    · exact .inr ⟨s, tb.year, hs₁⟩
    · obtain rfl := Option.some.inj hs₁
      apply hs

/-- Calls keep transitions of a year in the variables. -/
theorem kept_afterCalls {bias : DstBias} {calls : List (Bool × Tm)} {s s' : Dst}
    (hs : Kept bias s) (h : afterCalls bias s calls = some s') :
  Kept bias s'
  := by
  induction calls generalizing s with
  | nil =>
      obtain rfl := Option.some.inj h
      apply hs
  | cons call calls ih =>
      obtain ⟨⟨s₁, b⟩, hs₁, h⟩ := Option.bind_eq_some_iff.mp h
      apply ih (hs.timeIsindst hs₁) h

/-- The transitions of a year are those of the weekdays that are taken for a Sunday. -/
theorem computeDst_eq (bias : DstBias) {y : ℕ} (hy : 1970 ≤ y) (hy' : y < 2100) :
  ∃ s', (∀ s, computeDst bias s ((y : Int) - 1900) = some s') ∧
    Marks s' y (dstStart y (takenWeekday y 2)) (dstEnd bias y (takenWeekday y 9))
  := by
  obtain ⟨k, hk, hmarch, hstart⟩ := transitionDay_eq hy hy' (.inl rfl)
  obtain ⟨k', hk', hoctober, hend⟩ := transitionDay_eq hy hy' (.inr rfl)
  obtain ⟨hbefore, hlength⟩ := daysBeforeMonth_le y (.inl rfl)
  obtain ⟨hbefore', hlength'⟩ := daysBeforeMonth_le y (.inr rfl)
  have hmono := daysBeforeMonth_mono y (show 4 ≤ 9 by decide)
  have hapril : daysBeforeMonth y 4 = daysBeforeMonth y 3 + 30 := daysBeforeMonth_succ y 3
  have hmarch' : daysBeforeMonth y 3 = daysBeforeMonth y 2 + 31 := hlength
  have hday : DAY_MILLISEC = 86400000 := rfl
  have htwo : transitionMs 2 0 0 0 = 7200000 := by decide
  have hlo := bias.neg_le
  have hhi := bias.le
  have hbias : toInt32 (7200000 + toInt32 (bias.seconds * 1000))
      = 7200000 + bias.seconds * 1000 := by
    rw [toInt32_eq (x := bias.seconds * 1000) (by omega) (by omega), toInt32_eq] <;> omega
  have hzero : ¬ (0 : Int) = 1 := by decide
  simp only [computeDst, cvtdate, hmarch, hoctober, htwo, hbias, if_neg hzero, if_true,
    Option.bind_eq_bind, Option.bind_some, dstStart, dstEnd, hstart, hend, hday]
  split
  · refine ⟨_, fun _ => rfl, ?_⟩
    have hms : toInt32 (7200000 + bias.seconds * 1000 + 86400000)
        = 7200000 + bias.seconds * 1000 + 86400000 := by
      rw [toInt32_eq] <;> omega
    have hyd : toInt16 ((daysBeforeMonth y 9 + k' : ℕ) - 1 : Int)
        = (daysBeforeMonth y 9 + k' : ℕ) - 1 := by
      rw [toInt16_eq] <;> omega
    constructor <;> simp only [hday, hms, hyd] <;> clear hms hyd <;> omega
  · split
    · refine ⟨_, fun _ => rfl, ?_⟩
      have hms : toInt32 (7200000 + bias.seconds * 1000 - 86400000)
          = 7200000 + bias.seconds * 1000 - 86400000 := by
        rw [toInt32_eq] <;> omega
      have hyd : toInt16 ((daysBeforeMonth y 9 + k' : ℕ) + 1 : Int)
          = (daysBeforeMonth y 9 + k' : ℕ) + 1 := by
        rw [toInt16_eq] <;> omega
      constructor <;> simp only [hday, hms, hyd] <;> clear hms hyd <;> omega
    · refine ⟨_, fun _ => rfl, ?_⟩
      constructor <;> simp only [hday] <;> omega

/-- The transition dates of any year are computed. -/
theorem exists_computeDst (bias : DstBias) (s : Dst) (year : Int) :
  ∃ s', computeDst bias s year = some s'
  := by
  have hday (m : ℕ) (hm : m + 1 ≤ 12) : ∃ yd, transitionDay 1 year (m + 1) 5 0 0 = some yd := by
    have hlength : (if isLeapYear year then _lpdays else _days).length = 13 := by
      cases isLeapYear year <;> rfl
    rw [transitionDay, if_pos rfl, Nat.add_sub_cancel,
      List.getElem?_eq_getElem (by omega), List.getElem?_eq_getElem (by omega)]
    exact ⟨_, rfl⟩
  obtain ⟨yd, hyd⟩ := hday 2 (by decide)
  obtain ⟨yd', hyd'⟩ := hday 9 (by decide)
  simp only [computeDst, cvtdate, hyd, hyd', Option.bind_eq_bind, Option.bind_some, if_true]
  split
  · exact ⟨_, rfl⟩
  · split
    · exact ⟨_, rfl⟩
    · split <;> exact ⟨_, rfl⟩

theorem exists_afterCalls (bias : DstBias) (calls : List (Bool × Tm)) (s : Dst) :
  ∃ s', afterCalls bias s calls = some s'
  := by
  induction calls generalizing s with
  | nil => exact ⟨s, rfl⟩
  | cons call calls ih =>
      obtain ⟨s₁, b, hs₁⟩ : ∃ s₁ b, timeIsindst bias call.1 s call.2 = some (s₁, b) := by
        rw [timeIsindst]
        split
        · exact ⟨_, _, rfl⟩
        · rw [updateDst]
          split
          · obtain ⟨s', hs'⟩ := exists_computeDst bias s call.2.year
            rw [hs']
            exact ⟨_, _, rfl⟩
          · exact ⟨_, _, rfl⟩
      obtain ⟨s', hs'⟩ := ih s₁
      use s'
      rw [afterCalls, hs₁]
      exact hs'

/-- The variables hold the transitions of the year that they are updated for. -/
theorem Kept.updateDst {bias : DstBias} {s s' : Dst} (hs : Kept bias s) {year : Int}
    (hyear : year ≠ -1) (h : ∀ s₀, computeDst bias s₀ year = some s') :
  updateDst bias s year = some s'
  := by
  rw [Crt.updateDst]
  split
  · apply h
  · rename_i hsame
    obtain ⟨hstart, -⟩ : year = s.dststart.yr ∧ year = s.dstend.yr := by
      constructor <;> by_contra hne <;> apply hsame <;> tauto
    rcases hs with rfl | ⟨s₀, year', hs₀⟩
    · exact absurd hstart hyear
    · obtain ⟨hyr, -⟩ := computeDst_yr hs₀
      rw [hyr] at hstart
      rw [← hs₀, ← hstart, h]

/-! ### The decision -/

/-- The comparison with the transitions of the year of a time. -/
theorem inTransitions_iff {s : Dst} {n : ℕ} {a b : Int} (hs : Marks s (yearOf n) a b) :
  inTransitions s (brokenDown n) = true ↔ a ≤ n ∧ n < b
  := by
  obtain ⟨hstart, hstart', hstart'', hend, hend', hend'', hlt⟩ := hs
  obtain ⟨-, -, hnumber⟩ := Date.iterate_next 1970 (n / 86400)
  rw [Date.number, ← yearOf] at hnumber
  have hday : DAY_MILLISEC = 86400000 := rfl
  have hms : toInt32 (1000 * toInt32 (toInt32 ((n % 86400 % 60 : ℕ)
      + toInt32 (60 * (n % 86400 / 60 % 60 : ℕ))) + toInt32 (3600 * (n % 86400 / 3600 : ℕ))))
        = 1000 * (n % 86400 : ℕ) := by
    rw [toInt32_eq (x := 60 * ((n % 86400 / 60 % 60 : ℕ) : Int)) (by omega) (by omega),
      toInt32_eq (x := 3600 * ((n % 86400 / 3600 : ℕ) : Int)) (by omega) (by omega),
      toInt32_eq (x := ((n % 86400 % 60 : ℕ) : Int) + 60 * (n % 86400 / 60 % 60 : ℕ)) (by omega)
        (by omega),
      toInt32_eq (x := _ + 3600 * ((n % 86400 / 3600 : ℕ) : Int)) (by omega) (by omega),
      toInt32_eq] <;> omega
  simp only [inTransitions, brokenDown, hms, if_pos hlt]
  rw [hday] at hstart' hstart'' hend' hend''
  generalize (Date.next^[n / 86400] (Date.newYear 1970)).dayOfYear = yday at *
  split
  · simp only [Bool.false_eq_true, false_iff]
    omega
  · split
    · simp only [true_iff]
      omega
    · split
      · rw [decide_eq_true_eq]
        omega
      · rw [decide_eq_true_eq]
        omega

/-- Two intervals that begin and end near to each other agree on a time exactly when it is not
between their beginnings or their ends. -/
theorem agree_iff {a a' b b' : Int} (hsep : max a a' ≤ min b b') (n : ℕ) :
  ((a ≤ n ∧ n < b) ↔ (a' ≤ n ∧ n < b')) ↔ ¬ Between n a' a ∧ ¬ Between n b' b
  := by
  simp only [Between]
  omega

theorem brokenDown_year (n : ℕ) : (brokenDown n).year = (yearOf n : Int) - 1900 := rfl

/-- A time up to the end of 2099 is in the years of the calendar. -/
theorem yearOf_bounds {n : ℕ} (hn : n < 4102444800) : 1970 ≤ yearOf n ∧ yearOf n < 2100 := by
  obtain ⟨-, hyear, hnumber⟩ := Date.iterate_next 1970 (n / 86400)
  rw [Date.number, ← yearOf] at hnumber
  rw [← yearOf] at hyear
  use hyear
  by_contra hge
  have hmono := daysBeforeYear_mono 1970 (show 2100 ≤ yearOf n by omega)
  have hdays := daysBeforeYear_eq 130 (by decide)
  norm_num at hdays
  omega

/-- Whatever weekday is taken for a Sunday, daylight saving time begins in March and ends in
October. -/
theorem dstStart_le_dstEnd (bias : DstBias) {y w w' : ℕ} (hw : w < 7)
    (hw' : w' < 7) :
  dstStart y w ≤ dstEnd bias y w'
  := by
  have hmono : daysBeforeMonth y 4 ≤ daysBeforeMonth y 10 := daysBeforeMonth_mono y (by decide)
  have hapril : daysBeforeMonth y 4 = daysBeforeMonth y 3 + 30 := daysBeforeMonth_succ y 3
  have hmarch : daysBeforeMonth y 3 = daysBeforeMonth y 2 + 31 := daysBeforeMonth_succ y 2
  have hlast : lastDay y 2 = daysBeforeYear 1970 y + daysBeforeMonth y 3 - 1 := rfl
  have hlast' : lastDay y 9 = daysBeforeYear 1970 y + daysBeforeMonth y 10 - 1 := rfl
  obtain ⟨-, hle, -⟩ := weekday_lastWeekday (y := y) (m := 2) hw (by omega)
  obtain ⟨-, -, hlt⟩ := weekday_lastWeekday (y := y) (m := 9) hw' (by omega)
  have hbias := bias.neg_le
  rw [dstStart, dstEnd]
  omega

/-- After any calls, the decision for a time up to the end of 2099 is the right one exactly when
the time is not between the transition and the Tuesday that is taken for its Sunday. -/
theorem timeIsindst_iff (bias : DstBias) (calls : List (Bool × Tm)) (n : ℕ) (hn : n < 4102444800) :
  ∃ s tb s' b, afterCalls bias .init calls = some s ∧ gmtimeR n = some tb ∧
    timeIsindst bias true s tb = some (s', b) ∧ ((b = true ↔ InDst bias n) ↔ Decided bias n)
  := by
  obtain ⟨s, hs⟩ := exists_afterCalls bias calls .init
  obtain ⟨hy, hy'⟩ := yearOf_bounds hn
  obtain ⟨s', hcompute, hmarks⟩ := computeDst_eq bias hy hy'
  have hkept := kept_afterCalls (.inl rfl) hs
  have hupdate := hkept.updateDst (by omega) hcompute
  rw [← brokenDown_year] at hupdate
  use s, brokenDown n, s', inTransitions s' (brokenDown n), hs, gmtimeR_eq hn
  constructor
  · rw [timeIsindst, hupdate]
    rfl
  · have htaken (m : ℕ) : takenWeekday (yearOf n) m < 7 := by
      rw [takenWeekday]
      split <;> decide
    have hmarch : firstWrapped 2 = 2060 := rfl
    have hoctober : firstWrapped 9 = 2059 := rfl
    rw [inTransitions_iff hmarks, InDst, agree_iff, Decided]
    · apply and_congr
      · rw [takenWeekday, hmarch]
        split
        · rename_i hlt
          simp only [Between]
          omega
        · rename_i hge
          simp only [not_lt.mp hge, true_imp_iff]
      · rw [takenWeekday, hoctober]
        split
        · rename_i hlt
          simp only [Between]
          omega
        · rename_i hge
          simp only [not_lt.mp hge, true_imp_iff]
    · rw [max_le_iff, le_min_iff, le_min_iff]
      exact ⟨⟨dstStart_le_dstEnd bias (htaken 2) (htaken 9),
        dstStart_le_dstEnd bias (htaken 2) (by decide)⟩,
        dstStart_le_dstEnd bias (by decide) (htaken 9),
        dstStart_le_dstEnd bias (by decide) (by decide)⟩

/-- The bias of the builds. -/
def DstBias.hour : DstBias where
  seconds := -3600
  neg_le := by decide
  le := by decide

/-- The summer of 2016, after calls for a time of the year 1970 and for a time of 2016. -/
theorem timeIsindst_iff_summer :
  ∃ s tb s' b, afterCalls .hour .init [(true, brokenDown 0), (true, brokenDown 1451606400)] = some s ∧
    gmtimeR 1467331200 = some tb ∧ timeIsindst .hour true s tb = some (s', b) ∧
    ((b = true ↔ InDst .hour 1467331200) ↔ Decided .hour 1467331200)
  := timeIsindst_iff .hour _ 1467331200 (by decide)

/-- Noon of the Monday behind the last Sunday of March 2060 is not decided to be in the daylight
saving time, which has begun. -/
theorem not_timeIsindst_monday :
  ∃ tb s', gmtimeR 2847787200 = some tb ∧ timeIsindst .hour true .init tb = some (s', false) ∧
    InDst .hour 2847787200
  := by
  have hgmtime := gmtimeR_eq (n := 2847787200) (by decide)
  have hfields : gmtimeR (2847787200 : ℕ) = some {
      sec := 0, min := 0, hour := 12, mday := 29, mon := 2, year := 160, wday := 1, yday := 88,
      isdst := 0 } := by
    decide
  have hyear : yearOf 2847787200 = 2060 := by
    have hbroken := brokenDown_year 2847787200
    rw [Option.some.inj (hgmtime.symm.trans hfields)] at hbroken
    dsimp only at hbroken
    omega
  refine ⟨_, {
      dststart := { yr := 160, yd := 89, ms := 7200000 }
      dstend := { yr := 160, yd := 299, ms := 3600000 } }, hfields, by decide, ?_⟩
  have hdays : daysBeforeYear 1970 2060 = 32872 := daysBeforeYear_eq 90 (by decide)
  have hmarch : daysBeforeMonth 2060 3 = 91 := by decide
  have hoctober : daysBeforeMonth 2060 10 = 305 := by decide
  rw [InDst, hyear, dstStart, dstEnd, lastWeekday, lastWeekday, lastDay, lastDay, hdays, hmarch,
    hoctober]
  decide

end Etaos.Crt
