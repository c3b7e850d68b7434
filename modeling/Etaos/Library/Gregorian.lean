import Mathlib.Algebra.BigOperators.Intervals
import Mathlib.Algebra.Order.BigOperators.Group.Finset
import Mathlib.Logic.Function.Iterate

/-!
# The Gregorian calendar

A date is a year, a month counted from `0`, and a day counted from `1`.  `Date.next` is the
day after, and the days of the calendar are numbered by the days since the first day of an
epoch year `e`.  `Date.eq_iterate` says that a valid date is the one its number leads to.
-/

namespace Gregorian

/-- Every fourth year is a leap year, but of the centuries only every fourth one. -/
def isLeap (y : ℕ) : Bool :=
  (y % 4 = 0 && y % 100 ≠ 0) || y % 400 = 0

/-- The number of days of the months of a year. -/
def daysInMonth (y : ℕ) : ℕ → ℕ
  | 1 => if isLeap y then 29 else 28
  | 3 | 5 | 8 | 10 => 30
  | _ => 31

def daysInYear (y : ℕ) : ℕ :=
  if isLeap y then 366 else 365

/-- The days of the year `y` before its month `m`. -/
def daysBeforeMonth (y m : ℕ) : ℕ :=
  ∑ k ∈ Finset.range m, daysInMonth y k

/-- The days before the year `y`, from the beginning of the year `e` on. -/
def daysBeforeYear (e y : ℕ) : ℕ :=
  ∑ k ∈ Finset.Ico e y, daysInYear k

/-- A date, with its month counted from `0` and its day from `1`. -/
structure Date where
  year : ℕ
  month : ℕ
  day : ℕ
  deriving DecidableEq

namespace Date

/-- The dates of the calendar. -/
structure Valid (d : Date) : Prop where
  month : d.month < 12
  pos : 1 ≤ d.day
  day : d.day ≤ daysInMonth d.year d.month

/-- The day after. -/
def next (d : Date) : Date :=
  if d.day < daysInMonth d.year d.month then
    { d with day := d.day + 1 }
  else if d.month < 11 then
    { d with month := d.month + 1, day := 1 }
  else
    { year := d.year + 1, month := 0, day := 1 }

/-- The days of the year before a date. -/
def dayOfYear (d : Date) : ℕ :=
  daysBeforeMonth d.year d.month + (d.day - 1)

/-- The days before a date, from the beginning of the year `e` on. -/
def number (e : ℕ) (d : Date) : ℕ :=
  daysBeforeYear e d.year + d.dayOfYear

/-- The first day of a year. -/
def newYear (e : ℕ) : Date where
  year := e
  month := 0
  day := 1

end Date

theorem daysInMonth_pos (y m : ℕ) : 1 ≤ daysInMonth y m := by
  rw [daysInMonth.eq_def]
  split
  · split <;> omega
  · omega
  · omega
  · omega
  · omega
  · omega

@[simp]
theorem daysBeforeMonth_zero (y : ℕ) : daysBeforeMonth y 0 = 0 := rfl

theorem daysBeforeMonth_succ (y m : ℕ) :
  daysBeforeMonth y (m + 1) = daysBeforeMonth y m + daysInMonth y m
  := Finset.sum_range_succ _ m

theorem daysBeforeMonth_mono (y : ℕ) {m n : ℕ} (h : m ≤ n) :
  daysBeforeMonth y m ≤ daysBeforeMonth y n
  := by
  apply Finset.sum_le_sum_of_subset
  apply Finset.range_mono h

/-- The months make up the year. -/
theorem daysBeforeMonth_twelve (y : ℕ) : daysBeforeMonth y 12 = daysInYear y := by
  simp only [daysBeforeMonth, Finset.sum_range_succ, Finset.range_zero, Finset.sum_empty,
    daysInMonth, daysInYear]
  split <;> rfl

@[simp]
theorem daysBeforeYear_self (e : ℕ) : daysBeforeYear e e = 0 := by
  simp [daysBeforeYear]

theorem daysBeforeYear_succ {e y : ℕ} (h : e ≤ y) :
  daysBeforeYear e (y + 1) = daysBeforeYear e y + daysInYear y
  := Finset.sum_Ico_succ_top h _

theorem daysBeforeYear_mono (e : ℕ) {y z : ℕ} (h : y ≤ z) :
  daysBeforeYear e y ≤ daysBeforeYear e z
  := by
  apply Finset.sum_le_sum_of_subset
  apply Finset.Ico_subset_Ico_right h

namespace Date

variable {d d' : Date} {e : ℕ}

theorem Valid.valid_next (h : d.Valid) : d.next.Valid := by
  obtain ⟨hmonth, hpos, hday⟩ := h
  rw [next]
  split
  · rename_i hlt
    exact ⟨hmonth, by simp, hlt⟩
  · split
    · rename_i hlt
      exact ⟨by dsimp only; omega, le_refl 1, daysInMonth_pos _ _⟩
    · exact ⟨by simp, le_refl 1, daysInMonth_pos _ _⟩

theorem le_year_next (d : Date) : d.year ≤ d.next.year := by
  rw [next]
  split
  · apply le_refl
  · split
    · apply le_refl
    · apply Nat.le_succ

/-- A date comes before the end of its year. -/
theorem Valid.dayOfYear_lt (h : d.Valid) : d.dayOfYear < daysInYear d.year := by
  obtain ⟨hmonth, hpos, hday⟩ := h
  have hsucc := daysBeforeMonth_succ d.year d.month
  have hmono := daysBeforeMonth_mono d.year (show d.month + 1 ≤ 12 from hmonth)
  rw [daysBeforeMonth_twelve] at hmono
  rw [dayOfYear]
  omega

/-- The day after has the number after. -/
theorem Valid.number_next (h : d.Valid) (he : e ≤ d.year) :
  d.next.number e = d.number e + 1
  := by
  obtain ⟨hmonth, hpos, hday⟩ := h
  rw [next]
  split
  · simp only [number, dayOfYear]
    omega
  · rename_i hlast
    split
    · simp only [number, dayOfYear, daysBeforeMonth_succ]
      omega
    · rename_i hdecember
      have hmonth' : d.month = 11 := by omega
      have htwelve := daysBeforeMonth_twelve d.year
      rw [show 12 = 11 + 1 from rfl, daysBeforeMonth_succ] at htwelve
      rw [hmonth'] at hlast hday
      simp only [number, dayOfYear, daysBeforeYear_succ he, daysBeforeMonth_zero, hmonth']
      omega

theorem newYear_valid (e : ℕ) : (newYear e).Valid where
  month := by simp [newYear]
  pos := le_refl 1
  day := daysInMonth_pos e 0

@[simp]
theorem newYear_number (e : ℕ) : (newYear e).number e = 0 := by
  simp [newYear, number, dayOfYear]

/-- The dates from an epoch on are valid, and numbered in order. -/
theorem iterate_next (e n : ℕ) :
  (Date.next^[n] (newYear e)).Valid ∧ e ≤ (Date.next^[n] (newYear e)).year ∧
    (Date.next^[n] (newYear e)).number e = n
  := by
  induction n with
  | zero => exact ⟨newYear_valid e, le_refl e, newYear_number e⟩
  | succ n ih =>
      obtain ⟨hvalid, hyear, hnumber⟩ := ih
      rw [Function.iterate_succ_apply']
      refine ⟨hvalid.valid_next, hyear.trans (le_year_next _), ?_⟩
      rw [hvalid.number_next hyear, hnumber]

/-- An earlier month or day has a smaller day of the year. -/
theorem Valid.eq_of_dayOfYear (h : d.Valid) (h' : d'.Valid) (hyear : d.year = d'.year)
    (hday : d.dayOfYear = d'.dayOfYear) :
  d = d'
  := by
  obtain ⟨y, m, n⟩ := d
  obtain ⟨y', m', n'⟩ := d'
  obtain ⟨hmonth, hpos, hle⟩ := h
  obtain ⟨hmonth', hpos', hle'⟩ := h'
  obtain rfl : y = y' := hyear
  simp only [dayOfYear] at *
  have hsucc := daysBeforeMonth_succ y m
  have hsucc' := daysBeforeMonth_succ y m'
  rcases Nat.lt_trichotomy m m' with hlt | rfl | hlt
  · have hmono := daysBeforeMonth_mono y (show m + 1 ≤ m' from hlt)
    omega
  · obtain rfl : n = n' := by omega
    rfl
  · have hmono := daysBeforeMonth_mono y (show m' + 1 ≤ m from hlt)
    omega

/-- A valid date is determined by its number. -/
theorem Valid.eq_of_number (h : d.Valid) (h' : d'.Valid) (he : e ≤ d.year)
    (he' : e ≤ d'.year) (hnumber : d.number e = d'.number e) :
  d = d'
  := by
  have hlt := h.dayOfYear_lt
  have hlt' := h'.dayOfYear_lt
  have hsucc := daysBeforeYear_succ he
  have hsucc' := daysBeforeYear_succ he'
  simp only [number] at hnumber
  rcases Nat.lt_trichotomy d.year d'.year with hyear | hyear | hyear
  · have hmono := daysBeforeYear_mono e (show d.year + 1 ≤ d'.year from hyear)
    omega
  · apply h.eq_of_dayOfYear h' hyear
    rw [hyear] at hnumber
    omega
  · have hmono := daysBeforeYear_mono e (show d'.year + 1 ≤ d.year from hyear)
    omega

/-- A valid date is the one that its number leads to. -/
theorem Valid.eq_iterate (h : d.Valid) (he : e ≤ d.year) :
  d = Date.next^[d.number e] (newYear e)
  := by
  obtain ⟨hvalid, hyear, hnumber⟩ := iterate_next e (d.number e)
  apply h.eq_of_number hvalid he hyear
  rw [hnumber]

end Date

/-- A day of the year lies in one of its months. -/
theorem exists_month {y n : ℕ} (h : n < daysInYear y) :
  ∃ m < 12, daysBeforeMonth y m ≤ n ∧ n < daysBeforeMonth y (m + 1)
  := by
  rw [← daysBeforeMonth_twelve] at h
  have hlast (k : ℕ) (hk : n < daysBeforeMonth y k) :
      ∃ m < k, daysBeforeMonth y m ≤ n ∧ n < daysBeforeMonth y (m + 1) := by
    induction k with
    | zero => simp at hk
    | succ k ih =>
        by_cases hlt : n < daysBeforeMonth y k
        · obtain ⟨m, hm, hbounds⟩ := ih hlt
          exact ⟨m, by omega, hbounds⟩
        · exact ⟨k, by omega, not_lt.mp hlt, hk⟩
  apply hlast 12 h

/-- Before the year 2100 every fourth year since 1968 is a leap year. -/
theorem isLeap_iff {y : ℕ} (h : 1901 ≤ y) (h' : y < 2100) : isLeap y = true ↔ y % 4 = 0 := by
  simp only [isLeap, Bool.or_eq_true, Bool.and_eq_true, decide_eq_true_eq]
  omega

/-- The days since 1970, in the years before 2100. -/
theorem daysBeforeYear_eq (n : ℕ) (h : n ≤ 130) :
  daysBeforeYear 1970 (1970 + n) = 365 * n + (n + 1) / 4
  := by
  induction n with
  | zero => rfl
  | succ n ih =>
      rw [← Nat.add_assoc, daysBeforeYear_succ (by omega), ih (by omega), daysInYear]
      have hleap := isLeap_iff (show 1901 ≤ 1970 + n by omega) (by omega)
      split
      · rename_i hyear
        rw [hleap] at hyear
        omega
      · rename_i hyear
        rw [hleap] at hyear
        omega

end Gregorian
