import Mathlib.Data.BitVec

/-!
# Fields of a machine word

A mask names a field of a word.  `put x mask v` is the word `x` with the field of `mask` taken
from `v`.  What is read from a field after a write depends on how the two masks meet.
-/

namespace BitField

variable {w : ℕ}

/-- The word `x` with the bits of `mask` taken from `v`. -/
def put (x mask v : BitVec w) : BitVec w :=
  x &&& ~~~mask ||| v &&& mask

variable {x mask mask' v : BitVec w}

/-- A field that lies in the one written holds what was written. -/
theorem put_and_of_subset (h : mask' &&& mask = mask') :
  put x mask v &&& mask' = v &&& mask'
  := by
  ext i hi
  have hbit := congrArg (fun z => z[i]) h
  simp only [put, BitVec.getElem_and, BitVec.getElem_or, BitVec.getElem_not] at hbit ⊢
  revert hbit
  cases x[i] <;> cases mask[i] <;> cases mask'[i] <;> cases v[i] <;> simp

theorem put_and_self : put x mask v &&& mask = v &&& mask :=
  put_and_of_subset (BitVec.and_self)

/-- A write leaves the other fields as they are. -/
theorem put_and_of_disjoint (h : mask &&& mask' = 0) :
  put x mask v &&& mask' = x &&& mask'
  := by
  ext i hi
  have hbit := congrArg (fun z => z[i]) h
  simp only [put, BitVec.getElem_and, BitVec.getElem_or, BitVec.getElem_not,
    BitVec.ofNat_eq_ofNat, BitVec.getElem_zero] at hbit ⊢
  revert hbit
  cases x[i] <;> cases mask[i] <;> cases mask'[i] <;> cases v[i] <;> simp

/-- Setting all bits of a field. -/
theorem put_allOnes : put x mask (BitVec.allOnes w) = x ||| mask := by
  ext i hi
  simp only [put, BitVec.getElem_and, BitVec.getElem_or, BitVec.getElem_not,
    BitVec.getElem_allOnes]
  cases x[i] <;> cases mask[i] <;> rfl

/-- Clearing all bits of a field. -/
theorem put_zero : put x mask 0 = x &&& ~~~mask := by
  ext i hi
  simp [put]

/-- The number in a field of `k` bits from bit `s` on, at its place. -/
theorem toNat_and_field {k s n : ℕ} :
  (BitVec.ofNat w n &&& BitVec.ofNat w ((2 ^ k - 1) <<< s)).toNat
    = n % 2 ^ w / 2 ^ s % 2 ^ k * 2 ^ s
  := by
  rw [BitVec.toNat_and, BitVec.toNat_ofNat, BitVec.toNat_ofNat]
  apply Nat.eq_of_testBit_eq
  intro i
  rw [Nat.testBit_and, Nat.testBit_mod_two_pow, Nat.testBit_mod_two_pow, Nat.testBit_shiftLeft,
    Nat.testBit_two_pow_sub_one, ← Nat.shiftLeft_eq, Nat.testBit_shiftLeft,
    Nat.testBit_mod_two_pow, ← Nat.shiftRight_eq_div_pow, Nat.testBit_shiftRight,
    Nat.testBit_mod_two_pow]
  by_cases hi : s ≤ i
  · obtain ⟨j, rfl⟩ := Nat.exists_eq_add_of_le hi
    have hj : s + j - s = j := by omega
    rw [hj]
    by_cases hlt : s + j < w
    · simp [hlt, Bool.and_comm]
    · simp [hlt]
  · simp [hi]

end BitField
