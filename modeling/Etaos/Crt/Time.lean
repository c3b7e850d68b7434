import Etaos.Library.Gregorian

/-!
# Calendar times

The conversions between a time in seconds and its calendar fields, of `gmtime.c`,
`localtime.c` and `mktime.c`, with the integer widths of the AVR: an `int` has 16 bits, a
`long` 32, and `time_t` is a signed integer of 64 bits.  Every operation is made in the type
that the conversions of the language give it, and its value is brought into that type.
-/

set_option linter.style.nameCheck false

namespace Etaos.Crt

/-! ### Integers -/

/-- The value of an `int`. -/
def toInt16 (x : Int) : Int :=
  (x + 2 ^ 15) % 2 ^ 16 - 2 ^ 15

/-- The value of a `uint32_t`, which is an `unsigned long`. -/
def toUInt32 (x : Int) : Int :=
  x % 2 ^ 32

/-- The value of a `long`. -/
def toInt32 (x : Int) : Int :=
  (x + 2 ^ 31) % 2 ^ 32 - 2 ^ 31

/-- The value of an `unsigned long long`. -/
def toUInt64 (x : Int) : Int :=
  x % 2 ^ 64

/-- The value of a `time_t`. -/
def toInt64 (x : Int) : Int :=
  (x + 2 ^ 63) % 2 ^ 64 - 2 ^ 63

theorem toInt16_eq {x : Int} (h : -2 ^ 15 ≤ x) (h' : x < 2 ^ 15) : toInt16 x = x := by
  rw [toInt16]
  omega

theorem toUInt32_eq {x : Int} (h : 0 ≤ x) (h' : x < 2 ^ 32) : toUInt32 x = x := by
  rw [toUInt32]
  omega

theorem toInt32_eq {x : Int} (h : -2 ^ 31 ≤ x) (h' : x < 2 ^ 31) : toInt32 x = x := by
  rw [toInt32]
  omega

theorem toUInt64_eq {x : Int} (h : 0 ≤ x) (h' : x < 2 ^ 64) : toUInt64 x = x := by
  rw [toUInt64]
  omega

theorem toInt64_eq {x : Int} (h : -2 ^ 63 ≤ x) (h' : x < 2 ^ 63) : toInt64 x = x := by
  rw [toInt64]
  omega

/-! ### The conversions -/

/-- The calendar fields of a time. -/
structure Tm where
  sec : Int
  min : Int
  hour : Int
  mday : Int
  mon : Int
  year : Int
  wday : Int
  yday : Int
  isdst : Int
  deriving DecidableEq

def _BASE_DOW : Int := 4
def _DAY_SEC : Int := 24 * 60 * 60
def _YEAR_SEC : Int := _DAY_SEC * 365
def _FOUR_YEAR_SEC : Int := 1461 * _DAY_SEC
def _LEAP_YEAR_ADJUST : Int := 17
def BASE_YEAR : Int := 1900
def EPOCH_BASE : Int := 1970

/-- The last days of the months, and the day before the year. -/
def _days : List Int := [-1, 30, 58, 89, 119, 150, 180, 211, 242, 272, 303, 333, 364]

/-- The last days of the months of a leap year. -/
def _lpdays : List Int := [-1, 30, 59, 90, 120, 151, 181, 212, 243, 273, 304, 334, 365]

/-- The year within a four-year interval that begins with the year `tmptimer`, the time
since its beginning, and whether it is a leap year. -/
def yearInInterval (tmptimer ctimer : Int) : Int × Int × Bool :=
  if ctimer ≥ _YEAR_SEC then
    let tmptimer := toUInt32 (tmptimer + 1)
    let ctimer := toInt64 (ctimer - _YEAR_SEC)
    if ctimer ≥ _YEAR_SEC then
      let tmptimer := toUInt32 (tmptimer + 1)
      let ctimer := toInt64 (ctimer - _YEAR_SEC)
      if ctimer ≥ toUInt32 (_YEAR_SEC + _DAY_SEC) then
        (toUInt32 (tmptimer + 1), toInt64 (ctimer - toUInt32 (_YEAR_SEC + _DAY_SEC)), false)
      else
        (tmptimer, ctimer, true)
    else
      (tmptimer, ctimer, false)
  else
    (tmptimer, ctimer, false)

/-- The search for the month that ends at the day `yday` or later; it does not end in the
table when there is none. -/
def findMonth (yday : Int) : List Int → Nat → Option Nat
  | [], _ => none
  | d :: mdays, tmptimer =>
      if d < yday then
        findMonth yday mdays (tmptimer + 1)
      else
        some tmptimer

/-- The function `gmtime_r`, for a place to store the fields. -/
def gmtimeR (timer : Int) : Option Tm := do
  let tmptimer := toUInt32 (timer.tdiv _FOUR_YEAR_SEC)
  let ctimer := toInt64 (timer - toUInt32 (tmptimer * _FOUR_YEAR_SEC))
  let (tmptimer, ctimer, isleapyear) :=
    yearInInterval (toUInt32 (toUInt32 (tmptimer * 4) + 70)) ctimer
  let year := toInt16 tmptimer
  let yday := toInt16 (ctimer.tdiv _DAY_SEC)
  let ctimer := toInt64 (ctimer - toUInt32 (toUInt32 yday * _DAY_SEC))
  let mdays := if isleapyear then _lpdays else _days
  let tmptimer ← findMonth yday (mdays.drop 1) 1
  let mon := tmptimer - 1
  let mday := toInt16 (yday - (← mdays[mon]?))
  let wday := toInt16 ((timer.tdiv _DAY_SEC + _BASE_DOW).tmod 7)
  let hour := toInt16 (ctimer.tdiv 3600)
  let ctimer := toInt64 (ctimer - toInt32 (hour * 3600))
  let min := toInt16 (ctimer.tdiv 60)
  let sec := toInt16 (toInt64 (ctimer - toInt16 (min * 60)))
  some { sec, min, hour, mday, mon := toInt16 mon, year, wday, yday, isdst := 0 }

/-- The function `is_leap_year`. -/
def isLeapYear (year : Int) : Bool :=
  let year := toInt16 (year + 1900)
  (year % 4 = 0 && year.tmod 100 ≠ 0) || year.tmod 400 = 0

/-- The normalisation of the month in `__mktime`: the year, and the fields. -/
def normalizeMonth (t : Tm) : Int × Tm :=
  if t.mon < 0 ∨ t.mon > 11 then
    let tmp1 := toInt64 (t.year + t.mon.tdiv 12)
    let mon := t.mon.tmod 12
    if mon < 0 then
      (toInt64 (tmp1 - 1), { t with mon := mon + 12 })
    else
      (tmp1, { t with mon })
  else
    (t.year, t)

/-- The function `__mktime`, with the fields it leaves behind. -/
def __mktime (_timezone _dstbias : Int) (t : Tm) (tz : Bool) : Option (Int × Tm) := do
  let (tmp1, t) := normalizeMonth t
  let tmp2 ← _days[t.mon.toNat]?
  let tmp2 := if isLeapYear (toInt16 tmp1) && t.mon > 1 then tmp2 + 1 else tmp2
  let tmp3 := toInt64 (toUInt64 (toUInt64 (toInt64 (tmp1 + BASE_YEAR - EPOCH_BASE)) * 365)
    + toUInt64 (toUInt64 (tmp1 - 1) / 4 - _LEAP_YEAR_ADJUST))
  let tmp3 := toInt64 (tmp3 + tmp2)
  let tmp1 := toInt64 (tmp3 + t.mday)
  let tmp2 := toInt64 (toUInt64 tmp1 * 24)
  let tmp1 := toInt64 (tmp2 + t.hour)
  let tmp2 := toInt64 (toUInt64 tmp1 * 60)
  let tmp1 := toInt64 (tmp2 + t.min)
  let tmp2 := toInt64 (toUInt64 tmp1 * 60)
  let tmp1 := toInt64 (tmp2 + t.sec)
  let tmp1 := if tz then toInt64 (tmp1 + _timezone) else tmp1
  let tmp1 := if tz && t.isdst > 0 then toInt64 (tmp1 + _dstbias) else tmp1
  some (tmp1, t)

/-- The function `mktime`, for a local time. -/
def mktime (_timezone _dstbias : Int) (tm : Tm) : Option (Int × Tm) :=
  __mktime _timezone _dstbias tm true

/-- The function `_mktime`, for a standard time. -/
def _mktime (_timezone _dstbias : Int) (tm : Tm) : Option (Int × Tm) :=
  __mktime _timezone _dstbias tm false

/-- The function `localtime_r`, where `bias` is `CONFIG_DST_BIAS`, and `time_isindst` is the
function of that name. -/
def localtimeR (_timezone bias : Int) (_daylight : Bool) (time_isindst : Tm → Int)
    (t : Int) : Option Tm := do
  let timer := toInt64 (t - _timezone)
  let time ← gmtimeR timer
  if _daylight && time_isindst time ≠ 0 then
    let timer := toInt64 (timer - bias)
    let time ← gmtimeR timer
    some { time with isdst := 1 }
  else
    some time

end Etaos.Crt
