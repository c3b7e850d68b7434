import Etaos.Library.Run
import Etaos.Library.Schrage

/-!
# Random numbers

The generator of `rand.c` where `long` has 32 bits.  A function has no result when an operation on
numbers of the type `long` overflows.

The seed is converted to `long`, so that the seeds from `2 ^ 31` on are negative numbers.  Schrage's
method covers these too, down to the smallest one.
-/

set_option linter.style.nameCheck false

namespace Etaos.Crt

/-- The constant `RAND_MAX`. -/
def RAND_MAX : UInt32 := 0x7FFF

/-- The value of an operation on numbers of the type `long`, unless it overflows. -/
def checkLong (v : ℤ) : Option ℤ :=
  if -2 ^ 31 ≤ v ∧ v < 2 ^ 31 then some v else none

/-- The function `do_random`, with the new seed and the number that it returns.  There is no such
number when the divisor `max + 1` wraps around to zero. -/
def doRandom (seed max : UInt32) : Option (UInt32 × Option UInt32) := do
  let x := seed.toInt32.toInt
  let x := if x = 0 then 123459876 else x
  let high ← checkLong (x.tdiv 127773)
  let low ← checkLong (x.tmod 127773)
  let lows ← checkLong (16807 * low)
  let highs ← checkLong (2836 * high)
  let x ← checkLong (lows - highs)
  let x ← if x < 0 then checkLong (x + 0x7FFFFFFF) else some x
  let seed := UInt32.ofInt x
  some (seed, if max + 1 = 0 then none else some (seed % (max + 1)))

/-- The function `srand`, with the value of `__seed` after it. -/
def srand (seed : UInt32) : UInt32 := seed

/-- The function `random_m`, from the value of `__seed`. -/
def randomM (seed max : UInt32) : Option (UInt32 × Option UInt32) :=
  doRandom seed max

/-- The function `random`. -/
def random (seed : UInt32) : Option (UInt32 × Option UInt32) :=
  doRandom seed RAND_MAX

/-- The function `random_r`, with the value that `sptr` points to. -/
def randomR (sptr max : UInt32) : Option (UInt32 × Option UInt32) :=
  doRandom sptr (if max = 0 then RAND_MAX else max)

/-- The calls that change the seed. -/
inductive RandomOp where
  | srand (seed : UInt32)
  | randomM (max : UInt32)
  | random
  | randomR (max : UInt32)

/-- The seed after a call. -/
def RandomOp.next (seed : UInt32) : RandomOp → Option UInt32
  | .srand new => some (Crt.srand new)
  | .randomM max => (Crt.randomM seed max).map Prod.fst
  | .random => (Crt.random seed).map Prod.fst
  | .randomR max => (Crt.randomR seed max).map Prod.fst

/-! ### The generator -/

/-- The modulus `2 ^ 31 - 1` with the multiplier 16807. -/
def modulus : Schrage.Modulus where
  a := 16807
  q := 127773
  r := 2836
  a_pos := by decide
  r_nonneg := by decide
  r_lt := by decide

/-- The number that a seed stands for: the seed as a signed number, or 123459876 when it is 0. -/
def seedValue (seed : UInt32) : ℤ :=
  if seed = 0 then 123459876 else seed.toInt32.toInt

/-- A call of `random_m` does not overflow, its new seed is the product of the old one with 16807
modulo `2 ^ 31 - 1`, and what it returns is at most `max`. -/
def Draws (seed max : UInt32) : Prop :=
  ∃ new num, randomM seed max = some (new, num) ∧
    new.toNat = 16807 * seedValue seed % (2 ^ 31 - 1) ∧ new.toNat ≤ 2 ^ 31 - 2 ∧
    (max.toNat < 2 ^ 32 - 1 → ∃ n, num = some n ∧ n ≤ max)

@[simp] theorem modulus_a : modulus.a = 16807 := rfl
@[simp] theorem modulus_q : modulus.q = 127773 := rfl
@[simp] theorem modulus_r : modulus.r = 2836 := rfl
@[simp] theorem modulus_m : modulus.m = 2 ^ 31 - 1 := rfl

theorem checkLong_eq {v : ℤ} (hlow : -2 ^ 31 ≤ v) (hhigh : v < 2 ^ 31) :
  checkLong v = some v
  := if_pos ⟨hlow, hhigh⟩

theorem seedValue_eq (seed : UInt32) :
  seedValue seed = if seed.toInt32.toInt = 0 then 123459876 else seed.toInt32.toInt
  := by
  have hzero : seed.toInt32.toInt = 0 ↔ seed = 0 := by
    constructor
    · intro h
      have hint : seed.toInt32 = 0 := Int32.toInt.inj h
      rw [← seed.toUInt32_toInt32, hint]
      rfl
    · rintro rfl
      rfl
  simp only [seedValue, hzero]

theorem seedValue_bounds (seed : UInt32) :
  -(modulus.m + 1) ≤ seedValue seed ∧ seedValue seed ≤ modulus.m + 1
  := by
  have hlow := seed.toInt32.le_toInt
  have hhigh := seed.toInt32.toInt_lt
  rw [modulus_m, seedValue]
  split <;> constructor <;> omega

/-- No operation of `do_random` overflows, and the new seed is the number after the old one. -/
theorem doRandom_eq (seed max : UInt32) :
  doRandom seed max = some (UInt32.ofInt (modulus.next (seedValue seed)),
    if max + 1 = 0 then none
    else some (UInt32.ofInt (modulus.next (seedValue seed)) % (max + 1)))
  := by
  obtain ⟨hlow, hhigh⟩ := seedValue_bounds seed
  obtain ⟨hmod, hmod'⟩ := modulus.tmod_bounds (seedValue seed)
  obtain ⟨hdiv, hdiv'⟩ := modulus.tdiv_bounds hlow hhigh
  have hproducts := modulus.products_bounds hlow hhigh
  obtain ⟨hge, hle⟩ := modulus.reduce_bounds hlow hhigh
  have hreduce : modulus.reduce (seedValue seed)
      = 16807 * (seedValue seed).tmod 127773 - 2836 * (seedValue seed).tdiv 127773 := rfl
  simp only [modulus_a, modulus_q, modulus_r, modulus_m] at hmod hmod' hdiv hdiv' hproducts hge hle
  rw [doRandom]
  dsimp only
  rw [← seedValue_eq, checkLong_eq (by omega) (by omega), Option.bind_eq_bind, Option.bind_some,
    checkLong_eq (by omega) (by omega), Option.bind_some, checkLong_eq (by omega) (by omega),
    Option.bind_some, checkLong_eq (by omega) (by omega), Option.bind_some, ← hreduce,
    checkLong_eq (by omega) (by omega), Option.bind_some, Schrage.Modulus.next]
  split
  · rw [checkLong_eq (by omega) (by omega), Option.bind_some]
    rfl
  · rfl

/-- A number that is not negative is not changed by its conversion to `uint32_t`. -/
theorem toNat_ofInt {v : ℤ} (hlow : 0 ≤ v) (hhigh : v < 2 ^ 32) :
  ((UInt32.ofInt v).toNat : ℤ) = v
  := by
  rw [UInt32.ofInt, UInt32.toNat_ofNat']
  omega

/-- The remainder by `max + 1` is at most `max`, unless the divisor wraps around. -/
theorem mod_succ_le (seed : UInt32) {max : UInt32} (hmax : max.toNat < 2 ^ 32 - 1) :
  max + 1 ≠ 0 ∧ seed % (max + 1) ≤ max
  := by
  have hsucc : (max + 1).toNat = max.toNat + 1 := by
    rw [UInt32.toNat_add, UInt32.toNat_one, Nat.mod_eq_of_lt (by omega)]
  constructor
  · intro hzero
    rw [hzero] at hsucc
    cases hsucc
  · rw [UInt32.le_iff_toNat_le, UInt32.toNat_mod, hsucc]
    apply Nat.le_of_lt_succ
    apply Nat.mod_lt _ (Nat.succ_pos _)

/-- A call of `random_m` meets the law, whatever the seed. -/
theorem draws (seed max : UInt32) : Draws seed max := by
  obtain ⟨hlow, hhigh⟩ := seedValue_bounds seed
  have hnext := modulus.next_eq hlow hhigh
  simp only [modulus_a, modulus_m] at hnext
  have htoNat := toNat_ofInt (v := modulus.next (seedValue seed)) (by omega) (by omega)
  refine ⟨_, _, doRandom_eq seed max, ?_, ?_, ?_⟩
  · rw [htoNat, hnext]
  · omega
  · intro hmax
    obtain ⟨hzero, hle⟩ := mod_succ_le (UInt32.ofInt (modulus.next (seedValue seed))) hmax
    exact ⟨_, if_neg hzero, hle⟩

/-- From every seed, any number of calls returns without an overflow, and so does the next call of
`random_m`, which takes the seed to its product with 16807 modulo `2 ^ 31 - 1` and returns a number
that is at most `max`. -/
theorem random_spec (seed : UInt32) (calls : List RandomOp) (max : UInt32) :
  ∃ last, Run.exec RandomOp.next seed calls = some last ∧ Draws last max
  := by
  have hcall (seed : UInt32) (call : RandomOp) : ∃ new, call.next seed = some new := by
    cases call with
    | srand new => exact ⟨new, rfl⟩
    | randomM max => exact ⟨_, congrArg (Option.map Prod.fst) (doRandom_eq seed max)⟩
    | random => exact ⟨_, congrArg (Option.map Prod.fst) (doRandom_eq seed RAND_MAX)⟩
    | randomR max => exact ⟨_, congrArg (Option.map Prod.fst) (doRandom_eq seed _)⟩
  have hmeets : Run.Meets RandomOp.next (fun _ _ => True) seed calls :=
    Run.Meets.of_forall (fun _ _ => trivial) seed calls
  obtain ⟨last, hrun, -⟩ := Run.exec_of_meets (fun _ => True)
    (fun seed call _ _ => by simpa using hcall seed call) calls trivial hmeets
  exact ⟨last, hrun, draws last max⟩

/-- The smallest number of the type `long` as a seed. -/
example : doRandom 0x80000000 99 = some (2147466840, some 40) := by decide

end Etaos.Crt
