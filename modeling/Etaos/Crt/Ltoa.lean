import Mathlib.Data.Nat.Digits.Lemmas
import Mathlib.Data.List.Induction
import Etaos.Crt.Printf

/-!
# Numbers and their text

The functions `ltoa` and `strtol`, with a `long` of 32 bits.  A string is the list of its
characters without the terminating `NUL`; a function has no result when it reads or writes outside
of a string, or does not return.

`ltoa` writes the canonical numeral of every number, and `strtol` reads it, but for the smallest
`long` in base 10, whose negation wraps around.
-/

set_option linter.style.nameCheck false

namespace Etaos.Crt

/-! ### Writing -/

/-- The value of a number as a `long`. -/
def toLong (n : ℤ) : ℤ :=
  n.bmod (2 ^ 32)

/-- The function `__swap`, for two places of a string. -/
def __swap (str : List Char) (x y : ℕ) : Option (List Char) := do
  let n ← str[x]?
  let c ← str[y]?
  some ((str.set x c).set y n)

/-- The loop of `strrev`. -/
def strrevLoop : ℕ → ℕ → ℕ → List Char → Option (List Char)
  | 0, _, _, _ => none
  | n + 1, start, end', str =>
      if start < end' then do
        let str ← __swap str start end'
        strrevLoop n (start + 1) (end' - 1) str
      else
        some str

/-- The function `strrev`, with a `size_t` of 16 bits. -/
def strrev (str : List Char) : Option (List Char) :=
  strrevLoop (str.length + 1) 0 ((str.length + (2 ^ 16 - 1)) % 2 ^ 16) str

/-- The loop of `ltoa`, in at most `n` turns. -/
def ltoaLoop (base : ℤ) : ℕ → ℤ → List Char → Option (List Char)
  | 0, _, _ => none
  | n + 1, num, str =>
      if num = 0 then
        some str
      else
        let remainder := num.tmod base
        let c := if remainder > 9 then remainder - 10 + 'a'.toNat else remainder + '0'.toNat
        ltoaLoop base n (num.tdiv base) (str ++ [Char.ofNat (c % 256).toNat])

/-- The function `ltoa`. -/
def ltoa (num base : ℤ) : Option (List Char) :=
  if num = 0 then
    some ['0']
  else
    let neg : Bool := num < 0 ∧ base = 10
    let num := if neg then toLong (-num) else num
    do
      let str ← ltoaLoop base (num.natAbs + 1) num []
      strrev (if neg then str ++ ['-'] else str)

/-! ### Reading -/

/-- The constant `LONG_MAX`. -/
def LONG_MAX : ℤ := 2147483647

/-- The constant `LONG_MIN`. -/
def LONG_MIN : ℤ := -LONG_MAX - 1

/-- The function `isupper`. -/
def isupper (c : Char) : Bool :=
  'A' ≤ c ∧ c ≤ 'Z'

/-- The function `isalpha`. -/
def isalpha (c : Char) : Bool :=
  'A' ≤ c ∧ c ≤ 'Z' ∨ 'a' ≤ c ∧ c ≤ 'z'

/-- The function `isspace`. -/
def isspace (c : Char) : Bool :=
  c = ' ' ∨ c = '\t' ∨ c = '\n' ∨ c.toNat = 10

/-- The function `isdigit`. -/
def isdigit (c : Char) : Bool :=
  '0' ≤ c ∧ c ≤ '9'

/-- The loop of `strtol` over white space, which ends with the character behind it. -/
def skipSpace (nptr : List Char) : ℕ → ℕ → Option (Char × ℕ)
  | 0, _ => none
  | n + 1, s => do
      let c ← charAt nptr s
      if isspace c then skipSpace nptr n (s + 1) else some (c, s + 1)

/-- The sign that `strtol` picks up. -/
def pickSign (nptr : List Char) (c : Char) (s : ℕ) : Option (Bool × Char × ℕ) :=
  if c = '-' then do
    let c ← charAt nptr s
    some (true, c, s + 1)
  else if c = '+' then do
    let c ← charAt nptr s
    some (false, c, s + 1)
  else
    some (false, c, s)

/-- The prefix of a base that `strtol` picks up. -/
def pickBase (nptr : List Char) (base : ℕ) (c : Char) (s : ℕ) : Option (ℕ × Char × ℕ) := do
  if (base = 0 ∨ base = 16) ∧ c = '0' ∧
      (charAt nptr s = some 'x' ∨ charAt nptr s = some 'X') then
    let c ← charAt nptr (s + 1)
    some (16, c, s + 2)
  else if (base = 0 ∨ base = 2) ∧ c = '0' ∧
      (charAt nptr s = some 'b' ∨ charAt nptr s = some 'B') then
    let c ← charAt nptr (s + 1)
    some (2, c, s + 2)
  else if base = 0 then
    some (if c = '0' then 8 else 10, c, s)
  else
    some (base, c, s)

/-- The value of a character as a digit. -/
def digitOf (c : Char) : Option ℕ :=
  if isdigit c then
    some (c.toNat - '0'.toNat)
  else if isalpha c then
    some (c.toNat - if isupper c then 'A'.toNat - 10 else 'a'.toNat - 10)
  else
    none

/-- The loop of `strtol` over the digits, with `acc`, `any` and `s` at its end. -/
def accumulate (nptr : List Char) (base cutoff cutlim : ℕ) :
    ℕ → Char → ℕ → ℕ → ℤ → Option (ℕ × ℤ × ℕ)
  | 0, _, _, _, _ => none
  | n + 1, c, s, acc, any =>
      match digitOf c with
      | none => some (acc, any, s)
      | some d =>
          if d ≥ base then
            some (acc, any, s)
          else do
            let c ← charAt nptr s
            if any < 0 ∨ acc > cutoff ∨ acc = cutoff ∧ d > cutlim then
              accumulate nptr base cutoff cutlim n c (s + 1) acc (-1)
            else
              accumulate nptr base cutoff cutlim n c (s + 1) ((acc * base + d) % 2 ^ 32) 1

/-- The function `strtol`, for a base that is not negative, with the offset that is stored at
`endptr`. -/
def strtol (nptr : List Char) (base : ℕ) : Option (ℤ × ℕ) := do
  let (c, s) ← skipSpace nptr (nptr.length + 1) 0
  let (neg, c, s) ← pickSign nptr c s
  let (base, c, s) ← pickBase nptr base c s
  let cutoff := if neg then LONG_MIN.natAbs else LONG_MAX.natAbs
  let cutlim := cutoff % base
  let cutoff := cutoff / base
  let (acc, any, s) ← accumulate nptr base cutoff cutlim (nptr.length + 1) c s 0 0
  let acc : ℤ := if any < 0 then (if neg then LONG_MIN else LONG_MAX) else if neg then -acc else acc
  some (toLong acc, if any = 0 then 0 else s - 1)

/-! ### Numerals -/

/-- The character of a digit. -/
def digitChar (d : ℕ) : Char :=
  if d > 9 then Char.ofNat (d - 10 + 'a'.toNat) else Char.ofNat (d + '0'.toNat)

/-- The canonical numeral of a number: the minus sign of a negative number, and the digits of its
magnitude from the highest one on; the number 0 has one digit. -/
def signedNumeral (base : ℕ) (n : ℤ) : List Char :=
  (if n < 0 then ['-'] else []) ++
    if n = 0 then ['0'] else (Nat.digits base n.natAbs).reverse.map digitChar

/-- The text that `ltoa` writes is the canonical numeral, and `strtol` reads the number from it. -/
def RoundTrip (base : ℕ) (n : ℤ) : Prop :=
  ∃ text, ltoa n base = some text ∧ text = signedNumeral base n ∧
    ∃ endptr, strtol text base = some (n, endptr)

theorem digitOf_digitChar : ∀ d < 36, digitOf (digitChar d) = some d := by decide

theorem digitChar_plain : ∀ d < 36, isspace (digitChar d) = false ∧ digitChar d ≠ '-' ∧
    digitChar d ≠ '+' ∧ (digitChar d = '0' ↔ d = 0) := by decide

/-! ### Reversing a string -/

theorem set_middle (l l' : List Char) (a c : Char) :
  (l ++ a :: l').set l.length c = l ++ c :: l'
  := by
  rw [List.set_append_right _ _ (Nat.le_refl _), Nat.sub_self, List.set_cons_zero]

theorem getElem?_middle (l l' : List Char) (a : Char) : (l ++ a :: l')[l.length]? = some a := by
  rw [List.getElem?_append_right (Nat.le_refl _), Nat.sub_self, List.getElem?_cons_zero]

/-- The first and the last character of a part of a string are swapped. -/
theorem __swap_eq (l l' m : List Char) (a b : Char) :
  __swap (l ++ a :: (m ++ b :: l')) l.length (l.length + m.length + 1)
    = some (l ++ b :: (m ++ a :: l'))
  := by
  have hsplit (c d : Char) : l ++ c :: (m ++ d :: l') = (l ++ c :: m) ++ d :: l' := by simp
  have hlength (c : Char) : l.length + m.length + 1 = (l ++ c :: m).length := by
    rw [List.length_append, List.length_cons, Nat.add_assoc]
  have hlast : (l ++ a :: (m ++ b :: l'))[l.length + m.length + 1]? = some b := by
    rw [hsplit, hlength a, getElem?_middle]
  rw [__swap, getElem?_middle, hlast]
  simp only [Option.bind_eq_bind, Option.bind_some]
  rw [set_middle, hsplit, hlength b, set_middle, hsplit]

/-- The loop of `strrev` reverses the part of a string between its two places. -/
theorem strrevLoop_eq (m : List Char) :
    ∀ (l l' : List Char) (n : ℕ), m.length < n →
      strrevLoop n l.length (l.length + m.length - 1) (l ++ m ++ l') = some (l ++ m.reverse ++ l')
  := by
  induction m using List.bidirectionalRec with
  | nil =>
      intro l l' n hn
      obtain ⟨n, rfl⟩ : ∃ k, n = k + 1 := ⟨n - 1, by omega⟩
      rw [strrevLoop, if_neg (by rw [List.length_nil]; omega)]
      rfl
  | singleton a =>
      intro l l' n hn
      obtain ⟨n, rfl⟩ : ∃ k, n = k + 1 := ⟨n - 1, by omega⟩
      rw [strrevLoop, if_neg (by rw [List.length_singleton]; omega)]
      rfl
  | cons_append a m b ih =>
      intro l l' n hn
      obtain ⟨n, rfl⟩ : ∃ k, n = k + 1 := ⟨n - 1, by omega⟩
      have hm : (a :: (m ++ [b])).length = m.length + 2 := by simp
      have hend : l.length + (a :: (m ++ [b])).length - 1 = l.length + m.length + 1 := by omega
      have hsplit : l ++ a :: (m ++ [b]) ++ l' = l ++ a :: (m ++ b :: l') := by simp
      have hih := ih (l ++ [b]) (a :: l') n (by omega)
      have hstart : (l ++ [b]).length = l.length + 1 := by simp
      have hpred : l.length + m.length + 1 - 1 = l.length + 1 + m.length - 1 := by omega
      have hnext : l ++ b :: (m ++ a :: l') = l ++ [b] ++ m ++ (a :: l') := by simp
      rw [hstart] at hih
      rw [strrevLoop, hend, if_pos (by omega), hsplit, __swap_eq, Option.bind_eq_bind,
        Option.bind_some, hpred, hnext, hih]
      simp

/-- The function `strrev` reverses a string that is not empty. -/
theorem strrev_eq {str : List Char} (hne : str ≠ []) (hsize : str.length < 2 ^ 16) :
  strrev str = some str.reverse
  := by
  have hpos := List.length_pos_of_ne_nil hne
  have hend : (str.length + (2 ^ 16 - 1)) % 2 ^ 16 = str.length - 1 := by omega
  have hloop := strrevLoop_eq str [] [] (str.length + 1) (Nat.lt_succ_self _)
  rw [strrev, hend]
  simpa using hloop

/-! ### Writing a numeral -/

/-- The character that the loop of `ltoa` writes for a remainder. -/
theorem ofNat_remainder : ∀ d : ℕ, d < 36 →
    Char.ofNat ((if (d : ℤ) > 9 then (d : ℤ) - 10 + 'a'.toNat else d + '0'.toNat) % 256).toNat
      = digitChar d := by decide

/-- The loop of `ltoa` writes the digits from the lowest one on. -/
theorem ltoaLoop_eq {base : ℕ} (hbase : 2 ≤ base) (hmax : base ≤ 36) :
    ∀ (n k : ℕ) (str : List Char), k < n →
      ltoaLoop base n k str = some (str ++ (Nat.digits base k).map digitChar)
  | 0, _, _, hn => by omega
  | n + 1, k, str, hn => by
      rw [ltoaLoop]
      by_cases hk : k = 0
      · subst hk
        simp
      · have hmod : (k : ℤ).tmod base = (k % base : ℕ) := rfl
        have hdiv : (k : ℤ).tdiv base = (k / base : ℕ) := rfl
        have hdigit : k % base < 36 := (Nat.mod_lt _ (by omega)).trans_le hmax
        have hlt : k / base < n := by
          have := Nat.div_lt_self (Nat.pos_of_ne_zero hk) hbase
          omega
        rw [if_neg (by omega), hmod, hdiv]
        dsimp only
        rw [ofNat_remainder _ hdigit, ltoaLoop_eq hbase hmax n _ _ hlt,
          Nat.digits_def' hbase (Nat.pos_of_ne_zero hk), List.map_cons, List.append_assoc]
        rfl

/-- A numeral has no more digits than bits. -/
theorem length_digits_le {base k : ℕ} (hbase : 2 ≤ base) (hk : k < 2 ^ 32) :
  (Nat.digits base k).length ≤ 32
  := by
  rw [Nat.digits_length_le_iff (by omega)]
  exact hk.trans_le (Nat.pow_le_pow_left hbase 32)

/-- The function `ltoa` writes the canonical numeral. -/
theorem ltoa_eq {base : ℕ} (hbase : 2 ≤ base) (hmax : base ≤ 36) {n : ℤ} (hlow : LONG_MIN < n)
    (hhigh : n ≤ LONG_MAX) (hneg : 0 ≤ n ∨ base = 10) :
  ltoa n base = some (signedNumeral base n)
  := by
  have hmin : LONG_MIN = -2147483648 := rfl
  have hlong : LONG_MAX = 2147483647 := rfl
  rw [ltoa, signedNumeral]
  by_cases hzero : n = 0
  · subst hzero
    rfl
  · have hdigits : Nat.digits base n.natAbs ≠ [] := Nat.digits_ne_nil_iff_ne_zero.mpr (by omega)
    have hlength := length_digits_le hbase (show n.natAbs < 2 ^ 32 by omega)
    have hreverse {str : List Char} (hstr : str.length ≤ 33) (hne : str ≠ []) :
        strrev str = some str.reverse := strrev_eq hne (by omega)
    rw [if_neg hzero, if_neg hzero]
    by_cases hsign : n < 0
    · obtain rfl := hneg.resolve_left (by omega)
      have habs : toLong (-n) = (n.natAbs : ℕ) := by
        rw [toLong, Int.bmod_eq_of_le (by omega) (by omega)]
        omega
      have hflag : decide (n < 0 ∧ ((10 : ℕ) : ℤ) = 10) = true := by simp [hsign]
      dsimp only
      rw [hflag]
      simp only [if_true]
      rw [if_pos hsign, habs, Int.natAbs_natCast, ltoaLoop_eq hbase hmax _ _ _ (Nat.lt_succ_self _),
        Option.bind_eq_bind, Option.bind_some, List.nil_append,
        hreverse (by simp; omega) (by simp)]
      simp
    · have habs : n = (n.natAbs : ℕ) := by omega
      have hflag : decide (n < 0 ∧ (base : ℤ) = 10) = false := by simp [hsign]
      have hloop := ltoaLoop_eq hbase hmax (n.natAbs + 1) n.natAbs [] (Nat.lt_succ_self _)
      rw [← habs] at hloop
      dsimp only
      rw [hflag]
      simp only [Bool.false_eq_true, if_false]
      rw [if_neg hsign, hloop, Option.bind_eq_bind, Option.bind_some, List.nil_append,
        hreverse (by simp; omega) (by simpa using hdigits)]
      simp

/-! ### Reading a numeral -/

/-- The value of the digits from the highest one on, behind a value that is accumulated. -/
def accumulated (base acc : ℕ) (l : List ℕ) : ℕ :=
  l.foldl (fun acc d => acc * base + d) acc

theorem le_accumulated {base : ℕ} (hbase : 2 ≤ base) (l : List ℕ) :
    ∀ acc, acc ≤ accumulated base acc l
  := by
  induction l with
  | nil => exact fun acc => Nat.le_refl acc
  | cons d l ih =>
      intro acc
      have hacc : acc * 1 ≤ acc * base := Nat.mul_le_mul_left acc (by omega)
      have := ih (acc * base + d)
      rw [accumulated] at this ⊢
      rw [List.foldl_cons]
      omega

theorem accumulated_digits (base n : ℕ) : accumulated base 0 (Nat.digits base n).reverse = n := by
  rw [accumulated, List.foldl_reverse]
  conv_rhs => rw [← Nat.ofDigits_digits base n, Nat.ofDigits_eq_foldr]
  congr 1
  funext d acc
  rw [Nat.add_comm, Nat.mul_comm]
  rfl

theorem charAt_middle (l l' : List Char) (c : Char) : charAt (l ++ c :: l') l.length = some c := by
  rw [charAt, List.append_assoc, List.cons_append, getElem?_middle]

theorem charAt_end (l : List Char) : charAt l l.length = some NUL := by
  rw [charAt, getElem?_middle]

/-- A value that is within the limit is not above the cutoff. -/
theorem not_above_cutoff {base limit acc d : ℕ} (hbase : 2 ≤ base)
    (hle : acc * base + d ≤ limit) :
  ¬ (acc > limit / base ∨ acc = limit / base ∧ d > limit % base)
  := by
  have hdiv : acc ≤ limit / base := by
    rw [Nat.le_div_iff_mul_le (by omega)]
    omega
  rintro (hgt | ⟨rfl, hgt⟩)
  · omega
  · have hsum := Nat.div_add_mod' limit base
    omega

/-- The loop of `strtol` reads the digits up to the `NUL`, when their value is within the limit. -/
theorem accumulate_eq {base limit : ℕ} (hbase : 2 ≤ base) (hmax : base ≤ 36)
    (hlimit : limit < 2 ^ 32) (l : List ℕ) :
    ∀ (before : List Char) (acc n : ℕ) (any : ℤ) (c : Char), (∀ d ∈ l, d < base) →
      charAt (before ++ l.map digitChar) before.length = some c →
      accumulated base acc l ≤ limit → l.length < n → 0 ≤ any →
      accumulate (before ++ l.map digitChar) base (limit / base) (limit % base) n c
          (before.length + 1) acc any
        = some (accumulated base acc l, if l = [] then any else 1, before.length + l.length + 1)
  := by
  induction l with
  | nil =>
      intro before acc n any c _ hc _ hn _
      obtain ⟨n, rfl⟩ : ∃ k, n = k + 1 := ⟨n - 1, by omega⟩
      rw [List.map_nil, List.append_nil, charAt_end] at hc
      obtain rfl := Option.some.inj hc
      rfl
  | cons d l ih =>
      intro before acc n any c hdigits hc hle hn hany
      obtain ⟨n, rfl⟩ : ∃ k, n = k + 1 := ⟨n - 1, by omega⟩
      rw [List.forall_mem_cons] at hdigits
      rw [List.map_cons, charAt_middle] at hc
      obtain rfl := Option.some.inj hc
      have hsplit : before ++ (d :: l).map digitChar
          = (before ++ [digitChar d]) ++ l.map digitChar := by simp
      have hlength : (before ++ [digitChar d]).length = before.length + 1 := by simp
      obtain ⟨c, hc⟩ : ∃ c, charAt (before ++ [digitChar d] ++ l.map digitChar)
          (before ++ [digitChar d]).length = some c := by
        cases l with
        | nil => exact ⟨NUL, by rw [List.map_nil, List.append_nil, charAt_end]⟩
        | cons d' l => exact ⟨digitChar d', by rw [List.map_cons, charAt_middle]⟩
      have hacc : acc * base + d ≤ limit := (le_accumulated hbase l _).trans hle
      have hlegal := not_above_cutoff hbase hacc
      have hread := ih (before ++ [digitChar d]) (acc * base + d) n 1 c hdigits.2 hc hle
        (by rw [List.length_cons] at hn; omega) (by decide)
      rw [hlength] at hc hread
      have hwrap : (acc * base + d) % 2 ^ 32 = acc * base + d := Nat.mod_eq_of_lt (by omega)
      rw [hsplit, accumulate, digitOf_digitChar d (by omega)]
      dsimp only
      rw [if_neg (by omega), hc, Option.bind_eq_bind, Option.bind_some,
        if_neg (not_or.mpr ⟨by omega, hlegal⟩), hwrap, hread]
      simp [accumulated, Nat.add_assoc, Nat.add_comm 1]

/-- The text of a sign and digits. -/
def signed (neg : Bool) (l : List ℕ) : List Char :=
  (if neg then ['-'] else []) ++ l.map digitChar

theorem skipSpace_eq {nptr : List Char} {c : Char} {n s : ℕ} (hc : charAt nptr s = some c)
    (hspace : isspace c = false) :
  skipSpace nptr (n + 1) s = some (c, s + 1)
  := by
  rw [skipSpace, hc, Option.bind_eq_bind, Option.bind_some, hspace]
  rfl

/-- No prefix is picked up in front of digits that do not begin with a 0, or of the digit 0. -/
theorem pickBase_eq {nptr : List Char} {base : ℕ} (hbase : 2 ≤ base) {c : Char} {s : ℕ}
    (hzero : c = '0' → charAt nptr s = some NUL) :
  pickBase nptr base c s = some (base, c, s)
  := by
  have hnone {x y : Char} (hx : x ≠ NUL) (hy : y ≠ NUL) :
      ¬ (c = '0' ∧ (charAt nptr s = some x ∨ charAt nptr s = some y)) := by
    rintro ⟨hc, hxy⟩
    rw [hzero hc, Option.some_inj, Option.some_inj] at hxy
    exact hxy.elim (fun h => hx h.symm) fun h => hy h.symm
  rw [pickBase, if_neg fun h => hnone (by decide) (by decide) h.2,
    if_neg fun h => hnone (by decide) (by decide) h.2, if_neg (by omega)]

/-- In front of digits, `strtol` picks up the sign and the first digit. -/
theorem pick_signed {base : ℕ} (hbase : 2 ≤ base) (neg : Bool) {d : ℕ} {l : List ℕ} (hd : d < 36)
    (hzero : d = 0 → l = []) :
  ∃ c s, skipSpace (signed neg (d :: l)) ((signed neg (d :: l)).length + 1) 0 = some (c, s) ∧
    pickSign (signed neg (d :: l)) c s
      = some (neg, digitChar d, (if neg then ['-'] else []).length + 1) ∧
    pickBase (signed neg (d :: l)) base (digitChar d) ((if neg then ['-'] else []).length + 1)
      = some (base, digitChar d, (if neg then ['-'] else []).length + 1)
  := by
  obtain ⟨hspace, hminus, hplus, hdigit⟩ := digitChar_plain d hd
  have hend : digitChar d = '0' →
      charAt (signed neg (d :: l)) ((if neg then ['-'] else []).length + 1) = some NUL := by
    intro hc
    rw [hzero (hdigit.mp hc)]
    cases neg <;> rfl
  cases neg with
  | false =>
      refine ⟨digitChar d, 1, skipSpace_eq rfl hspace, ?_, pickBase_eq hbase hend⟩
      rw [pickSign, if_neg hminus, if_neg hplus]
      rfl
  | true =>
      refine ⟨'-', 1, skipSpace_eq rfl rfl, ?_, pickBase_eq hbase hend⟩
      rw [pickSign, if_pos rfl]
      rfl

/-- The function `strtol` reads a sign and digits. -/
theorem strtol_signed {base : ℕ} (hbase : 2 ≤ base) (hmax : base ≤ 36) (neg : Bool) {d : ℕ}
    {l : List ℕ} (hdigits : ∀ x ∈ d :: l, x < base) (hzero : d = 0 → l = [])
    (hle : accumulated base 0 (d :: l) ≤ if neg then LONG_MIN.natAbs else LONG_MAX.natAbs) :
  ∃ endptr, strtol (signed neg (d :: l)) base = some
    (toLong (if neg then -(accumulated base 0 (d :: l) : ℤ) else accumulated base 0 (d :: l)),
      endptr)
  := by
  have hlimit : (if neg then LONG_MIN.natAbs else LONG_MAX.natAbs) < 2 ^ 32 := by
    cases neg <;> decide
  have hd : d < 36 := (hdigits d List.mem_cons_self).trans_le hmax
  obtain ⟨c, s, hspace, hsign, hprefix⟩ := pick_signed hbase neg hd hzero
  have hread := accumulate_eq hbase hmax hlimit (d :: l) (if neg then ['-'] else []) 0
    ((signed neg (d :: l)).length + 1) 0 (digitChar d) hdigits
    (by rw [List.map_cons, charAt_middle]) hle (by simp [signed]) (Int.le_refl 0)
  rw [← signed] at hread
  rw [strtol]
  simp only [Option.bind_eq_bind, hspace, hsign, hprefix, hread, Option.bind_some]
  cases neg <;> exact ⟨_, rfl⟩

/-! ### The round trip -/

/-- The text of a number that is not the smallest `long` is read again. -/
theorem strtol_signedNumeral {base : ℕ} (hbase : 2 ≤ base) (hmax : base ≤ 36) {n : ℤ}
    (hlow : LONG_MIN ≤ n) (hhigh : n ≤ LONG_MAX) :
  ∃ endptr, strtol (signedNumeral base n) base = some (n, endptr)
  := by
  have hmin : LONG_MIN = -2147483648 := rfl
  have hlong : LONG_MAX = 2147483647 := rfl
  have hself : toLong n = n := Int.bmod_eq_of_le (by omega) (by omega)
  by_cases hzero : n = 0
  · subst hzero
    obtain ⟨endptr, hread⟩ := strtol_signed hbase hmax false (d := 0) (l := []) (by simp; omega)
      (fun _ => rfl) (by simp [accumulated])
    have hvalue : accumulated base 0 [0] = 0 := by simp [accumulated]
    have htext : signedNumeral base 0 = signed false [0] := rfl
    rw [hvalue] at hread
    exact ⟨endptr, htext ▸ hread⟩
  · have hdigits : Nat.digits base n.natAbs ≠ [] := Nat.digits_ne_nil_iff_ne_zero.mpr (by omega)
    obtain ⟨d, l, hl⟩ : ∃ d l, (Nat.digits base n.natAbs).reverse = d :: l :=
      List.exists_cons_of_ne_nil (by simpa using hdigits)
    have hvalue : accumulated base 0 (d :: l) = n.natAbs := by
      rw [← hl, accumulated_digits]
    have hlt : ∀ x ∈ d :: l, x < base := by
      intro x hx
      rw [← hl, List.mem_reverse] at hx
      exact Nat.digits_lt_base hbase hx
    have hfirst : d ≠ 0 := by
      have hlast := Nat.getLast_digit_ne_zero base (show n.natAbs ≠ 0 by omega)
      have hconcat : Nat.digits base n.natAbs = l.reverse ++ [d] := by
        rw [← List.reverse_cons, ← hl, List.reverse_reverse]
      simpa [hconcat] using hlast
    have htext : signedNumeral base n = signed (n < 0) (d :: l) := by
      rw [signedNumeral, if_neg hzero, hl, signed]
      simp
    have hbound : n.natAbs ≤ if decide (n < 0) then LONG_MIN.natAbs else LONG_MAX.natAbs := by
      by_cases hneg : n < 0
      · rw [if_pos (decide_eq_true hneg)]
        omega
      · rw [if_neg (by simpa using hneg)]
        omega
    have hsigned : (if decide (n < 0) then -(n.natAbs : ℤ) else n.natAbs) = n := by
      by_cases hneg : n < 0
      · rw [if_pos (decide_eq_true hneg)]
        omega
      · rw [if_neg (by simpa using hneg)]
        omega
    obtain ⟨endptr, hread⟩ := strtol_signed hbase hmax (n < 0) hlt (fun h => absurd h hfirst)
      (hvalue ▸ hbound)
    refine ⟨endptr, ?_⟩
    rw [htext, hread, hvalue, hsigned, hself]

/-- In base 10 the round trip holds for every number but the smallest `long`, and in every base from
2 to 36 for every number that is not negative. -/
theorem strtol_ltoa_iff {n : ℤ} (hlow : LONG_MIN ≤ n) (hhigh : n ≤ LONG_MAX) :
  (RoundTrip 10 n ↔ n ≠ LONG_MIN) ∧
    (0 ≤ n → ∀ base, 2 ≤ base → base ≤ 36 → RoundTrip base n)
  := by
  have hmin : LONG_MIN = -2147483648 := rfl
  have htrip {base : ℕ} (hbase : 2 ≤ base) (hmax : base ≤ 36) (hlt : LONG_MIN < n)
      (hneg : 0 ≤ n ∨ base = 10) : RoundTrip base n :=
    ⟨_, ltoa_eq hbase hmax hlt hhigh hneg, rfl, strtol_signedNumeral hbase hmax hlow hhigh⟩
  constructor
  · constructor
    · rintro ⟨text, htext, -, endptr, hread⟩ rfl
      have hlost : (ltoa LONG_MIN 10).bind (strtol · 10) = some (0, 0) := by decide
      rw [Nat.cast_ofNat] at htext
      rw [htext, Option.bind_some, hread] at hlost
      simp [hmin] at hlost
    · intro hne
      exact htrip (by decide) (by decide) (by omega) (.inr rfl)
  · intro hn base hbase hmax
    exact htrip hbase hmax (by omega) (.inl hn)

/-- The theorem applied to the largest `long`. -/
theorem strtol_ltoa_iff_max :
  (RoundTrip 10 LONG_MAX ↔ LONG_MAX ≠ LONG_MIN) ∧
    (0 ≤ LONG_MAX → ∀ base, 2 ≤ base → base ≤ 36 → RoundTrip base LONG_MAX)
  := strtol_ltoa_iff (by decide) (by decide)

/-- The text for the smallest `long` has no digits, and is read as 0. -/
theorem not_strtol_ltoa_min :
  ltoa LONG_MIN 10 = some "-./,),(-*,(".toList ∧ ¬ RoundTrip 10 LONG_MIN
  := by
  have htext : ltoa LONG_MIN 10 = some "-./,),(-*,(".toList := by decide
  have hread : strtol "-./,),(-*,(".toList 10 = some (0, 0) := by decide
  refine ⟨htext, ?_⟩
  rintro ⟨text, htext', -, endptr, hread'⟩
  obtain rfl := Option.some.inj (htext.symm.trans htext')
  rw [hread] at hread'
  cases hread'

end Etaos.Crt
