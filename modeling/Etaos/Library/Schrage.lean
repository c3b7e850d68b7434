import Mathlib.Data.Int.ModEq
import Mathlib.Tactic.Linarith
import Mathlib.Tactic.Ring

/-!
# Schrage's method

A multiplicative generator sends a number `x` to the remainder of `a * x` by a modulus `m`.  When
`m = a * q + r` with `r < q`, the product is congruent to `a * (x mod q) - r * (x div q)`, and
neither the two products nor their difference leave the range from `-m` to `m`.  This holds for
negative numbers as well, with the division that rounds to zero.
-/

namespace Schrage

/-- The modulus `a * q + r` with its multiplier `a`. -/
structure Modulus where
  a : ℤ
  q : ℤ
  r : ℤ
  a_pos : 0 < a
  r_nonneg : 0 ≤ r
  r_lt : r < q

namespace Modulus

/-- The modulus itself. -/
def m (s : Modulus) : ℤ :=
  s.a * s.q + s.r

/-- The difference of the products. -/
def reduce (s : Modulus) (x : ℤ) : ℤ :=
  s.a * x.tmod s.q - s.r * x.tdiv s.q

/-- The number after `x`: the difference, which is corrected when it is negative. -/
def next (s : Modulus) (x : ℤ) : ℤ :=
  if s.reduce x < 0 then s.reduce x + s.m else s.reduce x

variable (s : Modulus) {x : ℤ}

theorem q_pos : 0 < s.q := s.r_nonneg.trans_lt s.r_lt

theorem reduce_modEq (x : ℤ) : s.reduce x ≡ s.a * x [ZMOD s.m] := by
  apply Int.modEq_iff_dvd.mpr
  use x.tdiv s.q
  have hx := Int.mul_tdiv_add_tmod x s.q
  calc s.a * x - s.reduce x
      = s.a * (s.q * x.tdiv s.q + x.tmod s.q) - s.reduce x := by rw [hx]
    _ = s.m * x.tdiv s.q := by rw [reduce, m]; ring

theorem next_modEq (x : ℤ) : s.next x ≡ s.a * x [ZMOD s.m] := by
  rw [next]
  split
  · exact (Int.add_modEq_right).trans (s.reduce_modEq x)
  · apply s.reduce_modEq

/-- The remainder has the sign of the number, and is smaller than the divisor. -/
theorem tmod_bounds (x : ℤ) :
  (0 ≤ x → 0 ≤ x.tmod s.q ∧ x.tmod s.q ≤ s.q - 1) ∧
    (x ≤ 0 → -(s.q - 1) ≤ x.tmod s.q ∧ x.tmod s.q ≤ 0)
  := by
  have hq := s.q_pos
  have hpos {y : ℤ} (hy : 0 ≤ y) : 0 ≤ y.tmod s.q ∧ y.tmod s.q ≤ s.q - 1 :=
    ⟨Int.tmod_nonneg _ hy, Int.le_sub_one_of_lt (Int.tmod_lt_of_pos y hq)⟩
  refine ⟨hpos, fun hx => ?_⟩
  obtain ⟨hlow, hhigh⟩ := hpos (Int.neg_nonneg.mpr hx)
  rw [Int.neg_tmod] at hlow hhigh
  constructor <;> linarith

/-- The quotient has the sign of the number, and is not much larger than the multiplier. -/
theorem tdiv_bounds (hlow : -(s.m + 1) ≤ x) (hhigh : x ≤ s.m + 1) :
  (0 ≤ x → 0 ≤ x.tdiv s.q ∧ x.tdiv s.q ≤ s.a + 1) ∧
    (x ≤ 0 → -(s.a + 1) ≤ x.tdiv s.q ∧ x.tdiv s.q ≤ 0)
  := by
  have hq := s.q_pos
  have hpos {y : ℤ} (hy : 0 ≤ y) (hym : y ≤ s.m + 1) :
      0 ≤ y.tdiv s.q ∧ y.tdiv s.q ≤ s.a + 1 := by
    use Int.tdiv_nonneg hy hq.le
    rw [Int.tdiv_eq_ediv_of_nonneg hy]
    apply Int.ediv_le_of_le_mul hq
    calc y ≤ s.m + 1 := hym
      _ ≤ (s.a + 1) * s.q := by rw [m]; linarith [s.r_lt]
  refine ⟨fun hx => hpos hx hhigh, fun hx => ?_⟩
  obtain ⟨hneg, hle⟩ := hpos (Int.neg_nonneg.mpr hx) (by linarith)
  rw [Int.neg_tdiv] at hneg hle
  constructor <;> linarith

/-- Each product is at most `m - a` in absolute value, and both have the sign of the number. -/
theorem products_bounds (hlow : -(s.m + 1) ≤ x) (hhigh : x ≤ s.m + 1) :
  (0 ≤ s.a * x.tmod s.q ∧ s.a * x.tmod s.q ≤ s.m - s.a ∧
      0 ≤ s.r * x.tdiv s.q ∧ s.r * x.tdiv s.q ≤ s.m - s.a) ∨
    (-(s.m - s.a) ≤ s.a * x.tmod s.q ∧ s.a * x.tmod s.q ≤ 0 ∧
      -(s.m - s.a) ≤ s.r * x.tdiv s.q ∧ s.r * x.tdiv s.q ≤ 0)
  := by
  have ha := s.a_pos
  have hr := s.r_nonneg
  obtain ⟨hmod, hmod'⟩ := s.tmod_bounds x
  obtain ⟨hdiv, hdiv'⟩ := s.tdiv_bounds hlow hhigh
  -- The largest remainder, and the largest quotient.
  have hlast : s.a * (s.q - 1) ≤ s.m - s.a := by
    rw [m]
    linarith
  have hfirst : s.r * (s.a + 1) ≤ s.m - s.a := by
    have hle : s.r * s.a ≤ (s.q - 1) * s.a :=
      mul_le_mul_of_nonneg_right (Int.le_sub_one_of_lt s.r_lt) ha.le
    rw [m]
    linarith
  rcases le_total 0 x with hx | hx
  · left
    obtain ⟨hmod₀, hmod₁⟩ := hmod hx
    obtain ⟨hdiv₀, hdiv₁⟩ := hdiv hx
    exact ⟨mul_nonneg ha.le hmod₀, (mul_le_mul_of_nonneg_left hmod₁ ha.le).trans hlast,
      mul_nonneg hr hdiv₀, (mul_le_mul_of_nonneg_left hdiv₁ hr).trans hfirst⟩
  · right
    obtain ⟨hmod₀, hmod₁⟩ := hmod' hx
    obtain ⟨hdiv₀, hdiv₁⟩ := hdiv' hx
    have hmod₂ := mul_le_mul_of_nonneg_left hmod₀ ha.le
    have hdiv₂ := mul_le_mul_of_nonneg_left hdiv₀ hr
    exact ⟨by linarith, mul_nonpos_of_nonneg_of_nonpos ha.le hmod₁, by linarith,
      mul_nonpos_of_nonneg_of_nonpos hr hdiv₁⟩

theorem reduce_bounds (hlow : -(s.m + 1) ≤ x) (hhigh : x ≤ s.m + 1) :
  -(s.m - s.a) ≤ s.reduce x ∧ s.reduce x ≤ s.m - s.a
  := by
  rw [reduce]
  rcases s.products_bounds hlow hhigh with ⟨h₁, h₂, h₃, h₄⟩ | ⟨h₁, h₂, h₃, h₄⟩ <;>
    constructor <;> linarith

/-- The number after `x` is the remainder of the product. -/
theorem next_eq (hlow : -(s.m + 1) ≤ x) (hhigh : x ≤ s.m + 1) :
  s.next x = s.a * x % s.m
  := by
  obtain ⟨hge, hle⟩ := s.reduce_bounds hlow hhigh
  have ha := s.a_pos
  have hrange : 0 ≤ s.next x ∧ s.next x < s.m := by
    rw [next]
    split <;> constructor <;> linarith
  rw [← (s.next_modEq x).eq, Int.emod_eq_of_lt hrange.1 hrange.2]

end Modulus

end Schrage
