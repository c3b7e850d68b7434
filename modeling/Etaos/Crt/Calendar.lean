import Etaos.Crt.Time
import Mathlib.Tactic.IntervalCases

/-!
# The calendar of the conversions

The fields that `gmtime_r` computes are those of the Gregorian calendar, and the functions
of `mktime.c` undo the conversions, for the times up to the end of the year 2099.
-/

namespace Etaos.Crt

open Gregorian

/-- The calendar fields of `n` seconds after the beginning of 1970, a Thursday. -/
def brokenDown (n : ℕ) : Tm :=
  let date := Date.next^[n / 86400] (Date.newYear 1970)
  let time := n % 86400
  { sec := (time % 60 : ℕ)
    min := (time / 60 % 60 : ℕ)
    hour := (time / 3600 : ℕ)
    mday := date.day
    mon := date.month
    year := date.year - 1900
    wday := ((n / 86400 + 4) % 7 : ℕ)
    yday := date.dayOfYear
    isdst := 0 }

/-- The table of the last days of the months. -/
def lastDays (leap : Bool) : List Int :=
  if leap then _lpdays else _days

/-- From one entry of the tables to the next are the days of a month. -/
theorem lastDays_succ {y m : ℕ} (hm : m < 12) {d : Int} (hd : (lastDays (isLeap y))[m]? = some d) :
  (lastDays (isLeap y))[m + 1]? = some (d + daysInMonth y m)
  := by
  rw [lastDays, _days, _lpdays] at hd ⊢
  cases hleap : isLeap y <;> rw [hleap] at hd <;> interval_cases m <;> cases hd <;>
    simp [daysInMonth, hleap]

/-- The tables hold the days before the months, less one. -/
theorem lastDays_get {y m : ℕ} (hm : m ≤ 12) :
  (lastDays (isLeap y))[m]? = some (daysBeforeMonth y m - 1 : Int)
  := by
  induction m with
  | zero => cases isLeap y <;> rfl
  | succ m ih =>
      rw [lastDays_succ hm (ih (by omega)), daysBeforeMonth_succ, Nat.cast_add, sub_add_eq_add_sub]

/-- The search for a month ends at the first one that is late enough. -/
theorem findMonth_eq {yday x : Int} :
    ∀ {mdays : List Int} (i k : ℕ), (∀ j < k, ∀ d ∈ mdays[j]?, d < yday) →
      mdays[k]? = some x → yday ≤ x → findMonth yday mdays i = some (i + k)
  | [], i, k, _, hk, _ => by cases hk
  | d :: mdays, i, 0, _, hk, hx => by
      obtain rfl : d = x := by simpa using hk
      rw [findMonth, if_neg (not_lt.mpr hx)]
      rfl
  | d :: mdays, i, k + 1, hlt, hk, hx => by
      have hd : d < yday := hlt 0 (by omega) d (by simp)
      rw [findMonth, if_pos hd, findMonth_eq (i + 1) k _ (by simpa using hk) hx]
      · congr 1
        omega
      · intro j hj d' hd'
        apply hlt (j + 1) (by omega)
        simpa using hd'

/-- The month and the day that `gmtime_r` finds for a day of the year. -/
theorem findMonth_lastDays {y m n : ℕ} (hm : m < 12) (hle : daysBeforeMonth y m ≤ n)
    (hlt : n < daysBeforeMonth y (m + 1)) :
  findMonth n ((lastDays (isLeap y)).drop 1) 1 = some (1 + m)
  := by
  apply findMonth_eq 1 m (x := daysBeforeMonth y (m + 1) - 1)
  · intro j hj d hd
    rw [List.getElem?_drop, Nat.add_comm, lastDays_get (by omega)] at hd
    obtain rfl := Option.some.inj hd
    have hmono := daysBeforeMonth_mono y (show j + 1 ≤ m from hj)
    omega
  · rw [List.getElem?_drop, Nat.add_comm, lastDays_get (by omega)]
  · omega

/-- The `j`-th year of a four-year interval is a leap year when `j` is two. -/
theorem isLeap_interval {q j : ℕ} (hq : q ≤ 32) (hj : j < 4) (h : 4 * q + j < 130) :
  isLeap (1970 + (4 * q + j)) = decide (j = 2)
  := by
  have hleap := isLeap_iff (show 1901 ≤ 1970 + (4 * q + j) by omega) (by omega)
  rw [Bool.eq_iff_iff, hleap, decide_eq_true_eq]
  omega

/-- The year that `gmtime_r` finds for a time of `n` seconds: the time is `c` seconds later
than its beginning. -/
theorem yearInInterval_spec {n : ℕ} (h : n < 4102444800) :
  ∃ y c : ℕ, yearInInterval ((n / 126230400 : ℕ) * 4 + 70) (n % 126230400 : ℕ)
      = ((y : Int) - 1900, (c : Int), isLeap y) ∧
    1970 ≤ y ∧ y < 2100 ∧ c < daysInYear y * 86400 ∧
    daysBeforeYear 1970 y * 86400 + c = n
  := by
  set q := n / 126230400 with hq
  set r := n % 126230400 with hr
  have hn : n = 126230400 * q + r := by omega
  have hr' : r < 126230400 := by omega
  -- The year is the `j`-th of the interval, which `c` seconds are left of.
  have hyear (j c : ℕ) (hj : j < 4) (hrc : r = (365 * j + (j + 1) / 4) * 86400 + c)
      (hc : c < (if j = 2 then 366 else 365) * 86400)
      (hcode : yearInInterval (q * 4 + 70) r
        = (((q * 4 + 70 + j : ℕ) : Int), (c : Int), decide (j = 2))) :
      ∃ y c : ℕ, yearInInterval (q * 4 + 70) r = ((y : Int) - 1900, (c : Int), isLeap y) ∧
        1970 ≤ y ∧ y < 2100 ∧ c < daysInYear y * 86400 ∧
        daysBeforeYear 1970 y * 86400 + c = n := by
    have hlt : 4 * q + j < 130 := by
      split at hc <;> omega
    have hleap := isLeap_interval (by omega) hj hlt
    refine ⟨1970 + (4 * q + j), c, ?_, by omega, by omega, ?_, ?_⟩
    · rw [hcode, hleap]
      congr 1
      push_cast
      omega
    · rw [daysInYear, hleap]
      simpa using hc
    · rw [daysBeforeYear_eq _ (by omega)]
      omega
  have hyearSec : _YEAR_SEC = 31536000 := rfl
  have hlong : toUInt32 (_YEAR_SEC + _DAY_SEC) = 31622400 := by decide
  rcases Nat.lt_or_ge r 31536000 with h₁ | h₁
  · apply hyear 0 r (by omega) (by omega) (by simpa using h₁)
    rw [yearInInterval, if_neg (by rw [hyearSec]; omega)]
    simp
  · rcases Nat.lt_or_ge r 63072000 with h₂ | h₂
    · apply hyear 1 (r - 31536000) (by omega) (by omega) (by simp; omega)
      have hc : toInt64 ((r : Int) - _YEAR_SEC) = (r - 31536000 : ℕ) := by
        rw [hyearSec, toInt64_eq] <;> omega
      rw [yearInInterval, if_pos (by rw [hyearSec]; omega), hc,
        if_neg (by rw [hyearSec]; omega), toUInt32_eq (by omega) (by omega)]
      rfl
    · have hc : toInt64 ((r : Int) - _YEAR_SEC) = (r - 31536000 : ℕ) := by
        rw [hyearSec, toInt64_eq] <;> omega
      have hc' : toInt64 (((r - 31536000 : ℕ) : Int) - _YEAR_SEC) = (r - 63072000 : ℕ) := by
        rw [hyearSec, toInt64_eq] <;> omega
      have hy : toUInt32 ((q : Int) * 4 + 70 + 1) = (q : Int) * 4 + 70 + 1 :=
        toUInt32_eq (by omega) (by omega)
      have hy' : toUInt32 ((q : Int) * 4 + 70 + 1 + 1) = (q : Int) * 4 + 70 + 1 + 1 :=
        toUInt32_eq (by omega) (by omega)
      rcases Nat.lt_or_ge r 94694400 with h₃ | h₃
      · apply hyear 2 (r - 63072000) (by omega) (by omega) (by simp; omega)
        rw [yearInInterval, if_pos (by rw [hyearSec]; omega), hc,
          if_pos (by rw [hyearSec]; omega), hc', hlong, if_neg (by omega), hy, hy']
        rfl
      · apply hyear 3 (r - 94694400) (by omega) (by omega) (by simp; omega)
        have hc'' : toInt64 (((r - 63072000 : ℕ) : Int) - 31622400) = (r - 94694400 : ℕ) := by
          rw [toInt64_eq] <;> omega
        have hy'' : toUInt32 ((q : Int) * 4 + 70 + 1 + 1 + 1) = (q : Int) * 4 + 70 + 1 + 1 + 1 :=
          toUInt32_eq (by omega) (by omega)
        rw [yearInInterval, if_pos (by rw [hyearSec]; omega), hc,
          if_pos (by rw [hyearSec]; omega), hc', hlong, if_pos (by omega), hc'', hy, hy', hy'']
        rfl

/-- The date of `n` seconds after the beginning of 1970 is the one with as many days before
it. -/
theorem date_eq {d : Date} {n c : ℕ} (hvalid : d.Valid) (hyear : 1970 ≤ d.year)
    (hn : d.number 1970 * 86400 + c = n) (hc : c < 86400) :
  Date.next^[n / 86400] (Date.newYear 1970) = d
  := by
  have hdays : n / 86400 = d.number 1970 := by omega
  rw [hdays, ← hvalid.eq_iterate hyear]

/-- The four-year interval that `gmtime_r` finds, its first year, and the time in it. -/
theorem interval_eq {n : ℕ} (h : n < 4102444800) :
  toUInt32 ((n : Int).tdiv _FOUR_YEAR_SEC) = (n / 126230400 : ℕ) ∧
    toInt64 ((n : Int) - toUInt32 ((n / 126230400 : ℕ) * _FOUR_YEAR_SEC))
      = (n % 126230400 : ℕ) ∧
    toUInt32 (toUInt32 ((n / 126230400 : ℕ) * 4) + 70) = (n / 126230400 : ℕ) * 4 + 70
  := by
  have hfour : _FOUR_YEAR_SEC = 126230400 := rfl
  refine ⟨?_, ?_, ?_⟩
  · rw [hfour, Int.tdiv_eq_ediv_of_nonneg (by omega), toUInt32_eq] <;> omega
  · rw [hfour, toUInt32_eq (by omega) (by omega), toInt64_eq] <;> omega
  · have hfirst : toUInt32 ((n / 126230400 : ℕ) * 4 : Int) = (n / 126230400 : ℕ) * 4 := by
      rw [toUInt32_eq] <;> omega
    rw [hfirst, toUInt32_eq] <;> omega

/-- The day of the year that `gmtime_r` finds, and the time on it. -/
theorem day_eq {c : ℕ} (h : c < 366 * 86400) :
  toInt16 ((c : Int).tdiv _DAY_SEC) = (c / 86400 : ℕ) ∧
    toInt64 ((c : Int) - toUInt32 (toUInt32 (c / 86400 : ℕ) * _DAY_SEC)) = (c % 86400 : ℕ)
  := by
  have hday : _DAY_SEC = 86400 := rfl
  constructor
  · rw [hday, Int.tdiv_eq_ediv_of_nonneg (by omega), toInt16_eq] <;> omega
  · have hyday : toUInt32 ((c / 86400 : ℕ) : Int) = (c / 86400 : ℕ) := by
      rw [toUInt32_eq] <;> omega
    rw [hyday, hday, toUInt32_eq (by omega) (by omega), toInt64_eq] <;> omega

/-- The clock time of `s` seconds. -/
theorem clock_eq {s : ℕ} (h : s < 86400) :
  toInt16 ((s : Int).tdiv 3600) = (s / 3600 : ℕ) ∧
    toInt64 ((s : Int) - toInt32 ((s / 3600 : ℕ) * 3600)) = (s % 3600 : ℕ) ∧
    toInt16 (((s % 3600 : ℕ) : Int).tdiv 60) = (s / 60 % 60 : ℕ) ∧
    toInt16 (toInt64 ((s % 3600 : ℕ) - toInt16 ((s / 60 % 60 : ℕ) * 60))) = (s % 60 : ℕ)
  := by
  refine ⟨?_, ?_, ?_, ?_⟩
  · rw [Int.tdiv_eq_ediv_of_nonneg (by omega), toInt16_eq] <;> omega
  · rw [toInt32_eq (by omega) (by omega), toInt64_eq] <;> omega
  · rw [Int.tdiv_eq_ediv_of_nonneg (by omega), toInt16_eq] <;> omega
  · have hmin : toInt16 ((s / 60 % 60 : ℕ) * 60 : Int) = (s / 60 % 60 : ℕ) * 60 := by
      rw [toInt16_eq] <;> omega
    rw [hmin, toInt64_eq (by omega) (by omega), toInt16_eq] <;> omega

theorem weekday_eq {n : ℕ} (h : n < 4102444800) :
  toInt16 (((n : Int).tdiv _DAY_SEC + _BASE_DOW).tmod 7) = ((n / 86400 + 4) % 7 : ℕ)
  := by
  have hday : _DAY_SEC = 86400 := rfl
  have hbase : _BASE_DOW = 4 := rfl
  rw [hday, hbase, Int.tdiv_eq_ediv_of_nonneg (by omega),
    Int.tmod_eq_emod_of_nonneg (by omega), toInt16_eq] <;> omega

/-- The date with `d` days of the year `y` before it is the one in the month `m`. -/
theorem date_of_month {y m d : ℕ} (hm : m < 12) (hle : daysBeforeMonth y m ≤ d)
    (hlt : d < daysBeforeMonth y (m + 1)) :
  (⟨y, m, d - daysBeforeMonth y m + 1⟩ : Date).Valid ∧
    (⟨y, m, d - daysBeforeMonth y m + 1⟩ : Date).dayOfYear = d
  := by
  rw [daysBeforeMonth_succ] at hlt
  refine ⟨⟨hm, by simp, ?_⟩, ?_⟩
  · dsimp only
    omega
  · simp only [Date.dayOfYear]
    omega

/-- The fields of a date fit an `int`. -/
theorem date_fields_eq {y m c b : ℕ} (hy : y < 2100) (hm : m < 12) (hc : c < 366 * 86400)
    (hb : b ≤ c / 86400) :
  toInt16 ((y : Int) - 1900) = y - 1900 ∧ toInt16 (m : Int) = m ∧
    toInt16 ((c / 86400 : ℕ) - (b - 1 : Int)) = (c / 86400 - b + 1 : ℕ)
  := by
  refine ⟨?_, ?_, ?_⟩
  · rw [toInt16_eq] <;> omega
  · rw [toInt16_eq] <;> omega
  · rw [toInt16_eq] <;> omega

/-- The function `gmtime_r` yields the fields of the Gregorian calendar. -/
theorem gmtimeR_eq {n : ℕ} (h : n < 4102444800) : gmtimeR n = some (brokenDown n) := by
  obtain ⟨y, c, hcode, hy, hy', hc, hn⟩ := yearInInterval_spec h
  obtain ⟨m, hm, hle, hlt⟩ := exists_month (Nat.div_lt_of_lt_mul (by rwa [Nat.mul_comm]))
  have hc' : c < 366 * 86400 := by
    rw [daysInYear] at hc
    split at hc <;> omega
  obtain ⟨hvalid, hdayOfYear⟩ := date_of_month hm hle hlt
  have hnumber : Date.number 1970 ⟨y, m, c / 86400 - daysBeforeMonth y m + 1⟩ * 86400
      + c % 86400 = n := by
    rw [Date.number, hdayOfYear, Nat.add_mul, Nat.add_assoc, Nat.div_add_mod', hn]
  have hiter := date_eq hvalid hy hnumber (Nat.mod_lt c (by decide))
  obtain ⟨hq, hr, hfirst⟩ := interval_eq h
  obtain ⟨hyday, htime⟩ := day_eq hc'
  obtain ⟨hhour, hhour', hmin, hsec⟩ := clock_eq (Nat.mod_lt c (show 86400 > 0 by decide))
  obtain ⟨hyear, hmon, hmday⟩ := date_fields_eq hy' hm hc' hle
  have hmonth : findMonth (c / 86400 : ℕ) ((lastDays (isLeap y)).drop 1) 1 = some (1 + m) :=
    findMonth_lastDays hm hle hlt
  have hmonths : (if isLeap y then _lpdays else _days) = lastDays (isLeap y) := rfl
  rw [gmtimeR, hq, hr, hfirst, hcode]
  dsimp only
  rw [hyear, hyday, htime, hmonths, hmonth]
  simp only [Option.bind_eq_bind, Option.bind_some, Nat.add_sub_cancel_left]
  rw [lastDays_get hm.le, Option.bind_some, hmday, weekday_eq h, hhour, hhour', hmin, hsec,
    hmon]
  have htime' : n % 86400 = c % 86400 := by rw [← hn, Nat.mul_add_mod']
  simp only [brokenDown, hiter, hdayOfYear, htime']

/-! ### The way back -/

/-- The rule of `is_leap_year` is that of the calendar. -/
theorem isLeapYear_eq {y : ℕ} (h : y < 32768) : isLeapYear ((y : Int) - 1900) = isLeap y := by
  have hyear : toInt16 ((y : Int) - 1900 + 1900) = y := by
    rw [toInt16_eq] <;> omega
  rw [isLeapYear, hyear, Int.tmod_eq_emod_of_nonneg (by omega),
    Int.tmod_eq_emod_of_nonneg (by omega), isLeap]
  congr 1
  · congr 1
    · exact decide_eq_decide.mpr (by omega)
    · exact decide_eq_decide.mpr (by omega)
  · exact decide_eq_decide.mpr (by omega)

/-- The table of leap years has one day more from the third entry on. -/
theorem lpdays_get {m : ℕ} (hm : m < 12) :
  _lpdays[m]? = _days[m]?.map fun x => if 1 < m then x + 1 else x
  := by
  interval_cases m <;> rfl

/-- The days before a month, less one, as `__mktime` adjusts them for a leap year. -/
theorem monthDays_eq {y m : ℕ} (hm : m < 12) :
  ∃ x, _days[m]? = some x ∧
    (if isLeap y && (m : Int) > 1 then x + 1 else x) = (daysBeforeMonth y m : Int) - 1
  := by
  have hget := lastDays_get (y := y) hm.le
  cases hleap : isLeap y with
  | false =>
      rw [hleap] at hget
      exact ⟨_, hget, by simp⟩
  | true =>
      rw [hleap] at hget
      change _lpdays[m]? = _ at hget
      rw [lpdays_get hm] at hget
      obtain ⟨x, hx, hvalue⟩ := Option.map_eq_some_iff.mp hget
      exact ⟨x, hx, by simpa using hvalue⟩

/-- The days before a year, as `__mktime` computes them. -/
theorem yearDays_eq {y : ℕ} (h : 1970 ≤ y) (h' : y < 2100) :
  toInt64 (toUInt64 (toUInt64 (toInt64 ((y : Int) - 1900 + BASE_YEAR - EPOCH_BASE)) * 365)
      + toUInt64 (toUInt64 ((y : Int) - 1900 - 1) / 4 - _LEAP_YEAR_ADJUST))
    = daysBeforeYear 1970 y
  := by
  obtain ⟨k, rfl⟩ := Nat.exists_eq_add_of_le h
  rw [daysBeforeYear_eq k (by omega), BASE_YEAR, EPOCH_BASE, _LEAP_YEAR_ADJUST]
  have hyears : toInt64 (((1970 + k : ℕ) : Int) - 1900 + 1900 - 1970) = k := by
    rw [toInt64_eq] <;> omega
  have hdays : toUInt64 (toUInt64 k * 365) = k * 365 := by
    rw [toUInt64_eq (x := k) (by omega) (by omega), toUInt64_eq] <;> omega
  have hleap : toUInt64 (toUInt64 (((1970 + k : ℕ) : Int) - 1900 - 1) / 4 - 17)
      = ((k + 1) / 4 : ℕ) := by
    rw [toUInt64_eq (x := ((1970 + k : ℕ) : Int) - 1900 - 1) (by omega) (by omega), toUInt64_eq]
      <;> omega
  rw [hyears, hdays, hleap, toInt64_eq] <;> omega

/-- The seconds of a date and a clock time, as `__mktime` computes them. -/
theorem seconds_eq {days hour min sec : ℕ} (hd : days < 60000) (hh : hour < 24)
    (hm : min < 60) (hs : sec < 60) :
  toInt64 (toInt64 (toUInt64 (toInt64 (toInt64 (toUInt64 (toInt64 (toInt64
      (toUInt64 days * 24) + hour)) * 60) + min)) * 60) + sec)
    = (((days * 24 + hour) * 60 + min) * 60 + sec : ℕ)
  := by
  have hhours : toInt64 (toInt64 (toUInt64 days * 24) + hour) = (days * 24 + hour : ℕ) := by
    rw [toUInt64_eq (x := days) (by omega) (by omega), toInt64_eq (x := days * 24) (by omega)
      (by omega), toInt64_eq] <;> omega
  have hminutes : toInt64 (toInt64 (toUInt64 (days * 24 + hour : ℕ) * 60) + min)
      = ((days * 24 + hour) * 60 + min : ℕ) := by
    rw [toUInt64_eq (by omega) (by omega), toInt64_eq (x := (days * 24 + hour : ℕ) * 60)
      (by omega) (by omega), toInt64_eq] <;> omega
  have hseconds : toInt64 (toInt64 (toUInt64 ((days * 24 + hour) * 60 + min : ℕ) * 60) + sec)
      = (((days * 24 + hour) * 60 + min) * 60 + sec : ℕ) := by
    rw [toUInt64_eq (by omega) (by omega),
      toInt64_eq (x := ((days * 24 + hour) * 60 + min : ℕ) * 60) (by omega) (by omega),
      toInt64_eq] <;> omega
  rw [hhours, hminutes, hseconds]

/-- The date of a time before the year 2100. -/
theorem date_bounds {n : ℕ} (h : n < 4102444800) {d : Date}
    (hd : d = Date.next^[n / 86400] (Date.newYear 1970)) :
  d.Valid ∧ 1970 ≤ d.year ∧ d.year < 2100 ∧ d.number 1970 = n / 86400
  := by
  obtain ⟨hvalid, hyear, hnumber⟩ := Date.iterate_next 1970 (n / 86400)
  rw [← hd] at hvalid hyear hnumber
  refine ⟨hvalid, hyear, ?_, hnumber⟩
  by_contra hlate
  have hmono := daysBeforeYear_mono 1970 (not_lt.mp hlate)
  have hlast := daysBeforeYear_eq 130 (by omega)
  rw [Date.number] at hnumber
  norm_num at hlast
  omega

/-- The difference of the time zone and of the daylight saving time, as `__mktime` adds
them. -/
theorem localTime_eq {n : ℕ} (h : n < 4102444800) {_timezone _dstbias : Int}
    (hzone : -2 ^ 31 ≤ _timezone ∧ _timezone < 2 ^ 31)
    (hbias : -2 ^ 31 ≤ _dstbias ∧ _dstbias < 2 ^ 31) (dst tz : Bool) :
  (if tz && decide ((if dst then 1 else 0 : Int) > 0) then
      toInt64 ((if tz then toInt64 ((n : Int) + _timezone) else n) + _dstbias)
    else if tz then toInt64 ((n : Int) + _timezone) else n)
    = (n : Int) + (if tz then _timezone else 0) + (if tz && dst then _dstbias else 0)
  := by
  have hzone' : toInt64 ((n : Int) + _timezone) = n + _timezone := by
    rw [toInt64_eq] <;> omega
  have hbias' : toInt64 ((n : Int) + _timezone + _dstbias) = n + _timezone + _dstbias := by
    rw [toInt64_eq] <;> omega
  cases tz
  · simp
  · cases dst
    · simp [hzone']
    · simp [hzone', hbias']

/-- The function `__mktime` undoes `gmtime_r`, and adds the difference of the time zone and
of the daylight saving time to a local time. -/
theorem mktime_eq {n : ℕ} (h : n < 4102444800) {_timezone _dstbias : Int}
    (hzone : -2 ^ 31 ≤ _timezone ∧ _timezone < 2 ^ 31)
    (hbias : -2 ^ 31 ≤ _dstbias ∧ _dstbias < 2 ^ 31) (dst tz : Bool) :
  __mktime _timezone _dstbias { brokenDown n with isdst := if dst then 1 else 0 } tz
    = some (n + (if tz then _timezone else 0) + (if tz && dst then _dstbias else 0),
      { brokenDown n with isdst := if dst then 1 else 0 })
  := by
  set d := Date.next^[n / 86400] (Date.newYear 1970) with hd
  obtain ⟨hvalid, hyear, hyear', hnumber⟩ := date_bounds h hd
  obtain ⟨x, hx, hadjust⟩ := monthDays_eq (y := d.year) hvalid.month
  have hmon : ¬ ((d.month : Int) < 0 ∨ (d.month : Int) > 11) := by
    have := hvalid.month
    omega
  have hleap : isLeapYear (toInt16 ((d.year : Int) - 1900)) = isLeap d.year := by
    rw [toInt16_eq (by omega) (by omega), isLeapYear_eq (by omega)]
  have hdays : toInt64 (toInt64 ((daysBeforeYear 1970 d.year : Int)
      + ((daysBeforeMonth d.year d.month : Int) - 1)) + d.day) = (n / 86400 : ℕ) := by
    have hpos := hvalid.pos
    rw [Date.number, Date.dayOfYear] at hnumber
    rw [toInt64_eq (x := daysBeforeYear 1970 d.year + ((daysBeforeMonth d.year d.month : Int) - 1))
      (by omega) (by omega), toInt64_eq] <;> omega
  have htime : (((n / 86400) * 24 + n % 86400 / 3600) * 60 + n % 86400 / 60 % 60) * 60
      + n % 86400 % 60 = n := by
    omega
  have hseconds := seconds_eq (show n / 86400 < 60000 by omega)
    (show n % 86400 / 3600 < 24 by omega) (Nat.mod_lt (n % 86400 / 60) (by decide))
    (Nat.mod_lt (n % 86400) (by decide))
  rw [htime] at hseconds
  rw [__mktime, normalizeMonth, if_neg (by simpa [brokenDown, ← hd] using hmon)]
  simp only [brokenDown, ← hd, Int.toNat_natCast, hx, Option.bind_eq_bind, Option.bind_some]
  rw [hleap, hadjust, yearDays_eq hyear hyear', hdays, hseconds]
  refine congrArg some (Prod.ext ?_ rfl)
  dsimp only
  apply localTime_eq h hzone hbias

/-! ### Local times -/

/-- The search for a month ends when some month is late enough. -/
theorem exists_findMonth {yday : Int} :
    ∀ {mdays : List Int} (i : ℕ), (∃ d ∈ mdays, yday ≤ d) →
      ∃ k < mdays.length, findMonth yday mdays i = some (i + k)
  | [], i, h => by simp at h
  | d :: mdays, i, h => by
      rw [findMonth]
      split
      · rename_i hlt
        have hrest : ∃ d ∈ mdays, yday ≤ d := by
          obtain ⟨d', hd', hle⟩ := h
          rcases List.mem_cons.mp hd' with rfl | hmem
          · exact absurd hle (not_le.mpr hlt)
          · exact ⟨d', hmem, hle⟩
        obtain ⟨k, hk, hfind⟩ := exists_findMonth (i + 1) hrest
        refine ⟨k + 1, by simpa using hk, ?_⟩
        rw [hfind]
        congr 1
        omega
      · exact ⟨0, by simp, rfl⟩

/-- The day of the year is in the table when the time in the interval is. -/
theorem yearInInterval_day (tmptimer : Int) {ctimer : Int} (h : -126230400 < ctimer)
    (h' : ctimer < 126230400) :
  toInt16 ((yearInInterval tmptimer ctimer).2.1.tdiv _DAY_SEC)
    ≤ if (yearInInterval tmptimer ctimer).2.2 then 365 else 364
  := by
  have hyearSec : _YEAR_SEC = 31536000 := rfl
  have hlong : toUInt32 (_YEAR_SEC + _DAY_SEC) = 31622400 := by decide
  have hday : _DAY_SEC = 86400 := rfl
  have hbound {c b : Int} (hc : 0 ≤ c) (hb : c < (b + 1) * 86400) (hb' : b < 400) :
      toInt16 (c.tdiv _DAY_SEC) ≤ b := by
    rw [hday, Int.tdiv_eq_ediv_of_nonneg hc, toInt16_eq] <;> omega
  rw [yearInInterval, hlong, hyearSec]
  split
  · have hc : toInt64 (ctimer - 31536000) = ctimer - 31536000 := by
      rw [toInt64_eq] <;> omega
    rw [hc]
    dsimp only
    split
    · have hc' : toInt64 (ctimer - 31536000 - 31536000) = ctimer - 63072000 := by
        rw [toInt64_eq] <;> omega
      rw [hc']
      split
      · have hc'' : toInt64 (ctimer - 63072000 - 31622400) = ctimer - 94694400 := by
          rw [toInt64_eq] <;> omega
        rw [hc'']
        dsimp only
        apply hbound <;> omega
      · dsimp only
        rw [if_pos rfl]
        apply hbound <;> omega
    · dsimp only
      apply hbound <;> omega
  · dsimp only
    rcases Int.lt_or_le ctimer 0 with hneg | hpos
    · have hneg' : ctimer.tdiv 86400 = -((-ctimer) / 86400) := by
        rw [← Int.tdiv_eq_ediv_of_nonneg (by omega), Int.neg_tdiv, neg_neg]
      rw [hday, hneg', toInt16_eq] <;> simp <;> omega
    · apply hbound <;> omega

/-- The function `gmtime_r` stays in its tables for the times from 1966 on that fit in 32
bits. -/
theorem exists_gmtimeR {timer : Int} (h : -126230400 < timer) (h' : timer < 2 ^ 32) :
  ∃ tm, gmtimeR timer = some tm
  := by
  have hfour : _FOUR_YEAR_SEC = 126230400 := rfl
  have hctimer : -126230400 < toInt64 (timer - toUInt32 (toUInt32
      (timer.tdiv _FOUR_YEAR_SEC) * _FOUR_YEAR_SEC)) ∧
      toInt64 (timer - toUInt32 (toUInt32 (timer.tdiv _FOUR_YEAR_SEC) * _FOUR_YEAR_SEC))
        < 126230400 := by
    rw [hfour]
    rcases Int.lt_or_le timer 0 with hneg | hpos
    · have hzero : timer.tdiv 126230400 = 0 := by
        rw [← neg_neg timer, Int.neg_tdiv, Int.tdiv_eq_ediv_of_nonneg (by omega)]
        omega
      rw [hzero]
      simp only [toUInt32, zero_mul, Int.zero_emod, sub_zero]
      rw [toInt64_eq] <;> omega
    · rw [Int.tdiv_eq_ediv_of_nonneg hpos,
        toUInt32_eq (x := timer / 126230400) (by omega) (by omega),
        toUInt32_eq (by omega) (by omega), toInt64_eq] <;> omega
  have hday := yearInInterval_day
    (toUInt32 (toUInt32 (toUInt32 (timer.tdiv _FOUR_YEAR_SEC) * 4) + 70)) hctimer.1 hctimer.2
  obtain ⟨⟨year, ctimer, leap⟩, hyear⟩ : ∃ x, x = yearInInterval
    (toUInt32 (toUInt32 (toUInt32 (timer.tdiv _FOUR_YEAR_SEC) * 4) + 70))
    (toInt64 (timer - toUInt32 (toUInt32 (timer.tdiv _FOUR_YEAR_SEC) * _FOUR_YEAR_SEC))) :=
    ⟨_, rfl⟩
  rw [← hyear] at hday
  dsimp only at hday
  have hmonth : ∃ d ∈ (lastDays leap).drop 1, toInt16 (ctimer.tdiv _DAY_SEC) ≤ d := by
    cases leap
    · exact ⟨364, by decide, hday⟩
    · exact ⟨365, by decide, hday⟩
  obtain ⟨k, hk, hfind⟩ := exists_findMonth 1 hmonth
  have hk' : k < (lastDays leap).length := by
    rw [List.length_drop] at hk
    omega
  rw [gmtimeR, ← hyear]
  dsimp only
  have hmonths : (if leap then _lpdays else _days) = lastDays leap := rfl
  rw [hmonths, hfind]
  simp only [Option.bind_eq_bind, Option.bind_some, Nat.add_sub_cancel_left]
  rw [List.getElem?_eq_getElem hk']
  exact ⟨_, rfl⟩

/-- The function `localtime_r` yields the fields of the local time, and `mktime` leads back
to the time. -/
theorem localtimeR_eq {_timezone bias t : Int} {_daylight : Bool} {time_isindst : Tm → Int}
    {time : Tm} {n : ℕ} (hzone : -2 ^ 31 ≤ _timezone ∧ _timezone < 2 ^ 31)
    (hbias : -2 ^ 31 ≤ bias ∧ bias < 2 ^ 31) (htime : gmtimeR (t - _timezone) = some time)
    (hn : (n : Int) = if _daylight && time_isindst time ≠ 0 then t - _timezone - bias
      else t - _timezone) (h : n < 4102444800) :
  ∃ tm, localtimeR _timezone bias _daylight time_isindst t = some tm ∧
    tm = { brokenDown n with isdst := if _daylight && time_isindst time ≠ 0 then 1 else 0 } ∧
    mktime _timezone bias tm = some (t, tm)
  := by
  have hdst (dst : Bool) := mktime_eq h hzone hbias dst true
  have ht : toInt64 (t - _timezone) = t - _timezone := by
    split at hn <;> rw [toInt64_eq] <;> omega
  simp only [localtimeR, ht, htime, Option.bind_eq_bind, Option.bind_some]
  cases hflag : _daylight && decide (time_isindst time ≠ 0)
  · simp only [hflag, Bool.false_eq_true, if_false] at hn ⊢
    rw [← hn] at htime
    obtain rfl := Option.some.inj (htime.symm.trans (gmtimeR_eq h))
    refine ⟨_, rfl, rfl, ?_⟩
    have ht' : t = n + _timezone + 0 := by omega
    rw [mktime, ht']
    apply hdst false
  · simp only [hflag, if_true] at hn ⊢
    have ht' : toInt64 (t - _timezone - bias) = n := by
      rw [toInt64_eq] <;> omega
    rw [ht', gmtimeR_eq h]
    refine ⟨_, rfl, rfl, ?_⟩
    have ht'' : t = n + _timezone + bias := by omega
    rw [mktime, ht'']
    apply hdst true

/-- The round trip of the calendar, for the times up to the end of 2099: `gmtime_r` yields
the fields of the Gregorian calendar, which `_mktime` converts back, and so does `mktime` the
fields of a local time, whatever `time_isindst` answers. -/
theorem calendar_roundTrip :
  (∀ n : ℕ, n < 4102444800 →
    gmtimeR n = some (brokenDown n) ∧ ∀ _timezone _dstbias : Int,
      -2 ^ 31 ≤ _timezone ∧ _timezone < 2 ^ 31 → -2 ^ 31 ≤ _dstbias ∧ _dstbias < 2 ^ 31 →
      _mktime _timezone _dstbias (brokenDown n) = some ((n : Int), brokenDown n)) ∧
  ∀ (_timezone bias t : Int) (_daylight : Bool) (time_isindst : Tm → Int),
    -2 ^ 31 ≤ _timezone ∧ _timezone < 2 ^ 31 → -2 ^ 31 ≤ bias ∧ bias < 2 ^ 31 →
    -126230400 < t - _timezone ∧ t - _timezone < 2 ^ 32 →
    ∃ time, gmtimeR (t - _timezone) = some time ∧ ∀ n : ℕ, n < 4102444800 →
      (n : Int) = (if _daylight && time_isindst time ≠ 0 then t - _timezone - bias
        else t - _timezone) →
      ∃ tm, localtimeR _timezone bias _daylight time_isindst t = some tm ∧
        tm = { brokenDown n with
          isdst := if _daylight && time_isindst time ≠ 0 then 1 else 0 } ∧
        mktime _timezone bias tm = some (t, tm)
  := by
  constructor
  · intro n h
    use gmtimeR_eq h
    intro _timezone _dstbias hzone hbias
    have hn : (n : Int) = n + 0 + 0 := by omega
    rw [_mktime, hn]
    exact mktime_eq h hzone hbias false false
  · intro _timezone bias t _daylight time_isindst hzone hbias hstandard
    obtain ⟨time, htime⟩ := exists_gmtimeR hstandard.1 hstandard.2
    refine ⟨time, htime, ?_⟩
    intro n h hn
    apply localtimeR_eq hzone hbias htime hn h

/-- The round trip at the leap day of the year 2000, and at the time of the time test with
daylight saving time. -/
theorem calendar_roundTrip_leapDay :
  _mktime 0 0 (brokenDown 951782400) = some (951782400, brokenDown 951782400) ∧
    ∃ tm, localtimeR (-3600) (-3600) true (fun _ => 1) 1234567890 = some tm ∧
      mktime (-3600) (-3600) tm = some (1234567890, tm)
  := by
  constructor
  · exact (calendar_roundTrip.1 951782400 (by decide)).2 0 0 (by decide) (by decide)
  · obtain ⟨time, -, hlocal⟩ := calendar_roundTrip.2 (-3600) (-3600) 1234567890 true
      (fun _ => 1) (by decide) (by decide) (by decide)
    obtain ⟨tm, htm, -, hmktime⟩ := hlocal 1234575090 (by decide) (by decide)
    exact ⟨tm, htm, hmktime⟩

end Etaos.Crt
