import Etaos.Fs.Dirent
import Mathlib.Algebra.Group.Nat.Defs
import Mathlib.Tactic.Use

/-!
# The base name and the base path

The functions `basename` and `basepath`, with the memory that they allocate and write to.  A
`size_t` has the 16 bits of the AVR, and all memory that is asked for is there.

Both functions go back from the end of the path to its last slash, `basepath` past a slash in
front.
-/

namespace Etaos.Fs

/-! ### Strings in memory -/

/-- The byte `NUL`. -/
def NUL : Char := Char.ofNat 0

/-- Memory that is allocated for a string. -/
structure StringBuffer where
  bytes : List Char
  /-- No byte was written outside of the memory. -/
  inside : Bool
  deriving DecidableEq

namespace StringBuffer

/-- The function `kzalloc`, for an `int` that becomes a `size_t`. -/
def kzalloc (size : ℕ) : StringBuffer where
  bytes := List.replicate (size % 2 ^ 16) NUL
  inside := true

/-- The assignment `b[i] = c`. -/
def store (b : StringBuffer) (i : ℕ) (c : Char) : StringBuffer where
  bytes := b.bytes.set i c
  inside := b.inside && i < b.bytes.length

/-- The loop of `strncpy`, which stops behind a `NUL`. -/
def strncpyLoop : List Char → ℕ → ℕ → StringBuffer → StringBuffer
  | _, _, 0, b => b
  | [], i, _ + 1, b => b.store i NUL
  | c :: src, i, num + 1, b => strncpyLoop src (i + 1) num (b.store i c)

/-- The function `strncpy`. -/
def strncpy (b : StringBuffer) (src : List Char) (num : ℕ) : StringBuffer :=
  strncpyLoop src 0 num b

/-- The loop of `strcpy`, which does not copy the `NUL`. -/
def strcpyLoop : List Char → ℕ → StringBuffer → StringBuffer
  | [], _, b => b
  | c :: src, i, b => strcpyLoop src (i + 1) (b.store i c)

/-- The function `strcpy`. -/
def strcpy (b : StringBuffer) (src : List Char) : StringBuffer :=
  strcpyLoop src 0 b

/-- The memory holds the string with a `NUL` behind it, and no byte was written outside of it. -/
def Holds (b : StringBuffer) (s : Str) : Prop :=
  b.inside = true ∧ s ++ [NUL] <+: b.bytes

end StringBuffer

/-! ### The functions -/

/-- The loop of `basename` from `idx` down, where `len` is the index of the last byte. -/
def basenameCopy (path : Str) (len : ℕ) (idx : ℕ) : StringBuffer :=
  if path[idx]? = some '/' then
    let len := len - idx + 1
    ((StringBuffer.kzalloc len).strncpy (path.drop (idx + 1)) (len - 1)).store (len - 1) NUL
  else
    match idx with
    | 0 => (StringBuffer.kzalloc (len + 2)).strcpy path
    | idx + 1 => basenameCopy path len idx

/-- The function `basename`. -/
def basenameBuffer (path : Str) : Option StringBuffer :=
  if path = [] then
    none
  else
    let len := path.length - 1
    some (basenameCopy path len len)

/-- The loop of `basepath` from `idx` down. -/
def basepathCopy (path : Str) (idx : ℕ) : StringBuffer :=
  if path[idx]? = some '/' ∧ idx ≠ 0 then
    let len := idx + 1
    ((StringBuffer.kzalloc len).strncpy path (len - 1)).store (len - 1) NUL
  else
    match idx with
    | 0 => (StringBuffer.kzalloc 2).store 0 '/'
    | idx + 1 => basepathCopy path idx

/-- The function `basepath`. -/
def basepathBuffer (path : Str) : Option StringBuffer :=
  if path = [] then none else some (basepathCopy path (path.length - 1))

/-! ### Copies -/

namespace StringBuffer

variable {a : List Char} {n : ℕ} (inside : Bool)

/-- A byte is stored in front of zeros. -/
theorem store_zeros (c : Char) :
  store { bytes := a ++ List.replicate (n + 1) NUL, inside } a.length c
    = { bytes := a ++ [c] ++ List.replicate n NUL, inside }
  := by
  rw [store, List.replicate_succ]
  simp

/-- With room for them, the bytes of the string are copied. -/
theorem strncpyLoop_zeros (src : List Char) {num : ℕ} (hnum : num ≤ src.length)
    (hroom : num ≤ n) :
  strncpyLoop src a.length num { bytes := a ++ List.replicate n NUL, inside }
    = { bytes := a ++ src.take num ++ List.replicate (n - num) NUL, inside }
  := by
  induction num generalizing src a n with
  | zero => simp [strncpyLoop]
  | succ num ih =>
      obtain ⟨n, rfl⟩ : ∃ k, n = k + 1 := ⟨n - 1, by omega⟩
      cases src with
      | nil => simp at hnum
      | cons c src =>
          have hnext := ih (a := a ++ [c]) (n := n) src (by simpa using hnum) (by omega)
          rw [strncpyLoop, store_zeros]
          simpa using hnext

theorem strcpyLoop_zeros (src : List Char) (hroom : src.length ≤ n) :
  strcpyLoop src a.length { bytes := a ++ List.replicate n NUL, inside }
    = { bytes := a ++ src ++ List.replicate (n - src.length) NUL, inside }
  := by
  induction src generalizing a n with
  | nil => simp [strcpyLoop]
  | cons c src ih =>
      rw [List.length_cons] at hroom
      obtain ⟨n, rfl⟩ : ∃ k, n = k + 1 := ⟨n - 1, by omega⟩
      have hnext := ih (a := a ++ [c]) (n := n) (by omega)
      rw [strcpyLoop, store_zeros]
      simpa using hnext

/-- A copy of the first `num` bytes of a string, with a `NUL` behind them. -/
theorem holds_strncpy {src : List Char} {num : ℕ} (hnum : num ≤ src.length)
    (hsize : num + 1 < 2 ^ 16) :
  (((kzalloc (num + 1)).strncpy src num).store num NUL).Holds (src.take num)
  := by
  have hcopy := strncpyLoop_zeros (a := []) (n := num + 1) true src hnum
    (Nat.le_succ num)
  have hlength : (src.take num).length = num := by
    rw [List.length_take]
    omega
  have hstore := store_zeros (a := src.take num) (n := 0) true NUL
  rw [hlength] at hstore
  rw [kzalloc, Nat.mod_eq_of_lt hsize, strncpy]
  rw [List.nil_append, List.nil_append, Nat.add_sub_cancel_left, List.length_nil] at hcopy
  rw [hcopy, hstore]
  use rfl
  apply List.prefix_append

/-- A copy of a string. -/
theorem holds_strcpy {src : List Char} (hsize : src.length + 1 < 2 ^ 16) :
  ((kzalloc (src.length + 1)).strcpy src).Holds src
  := by
  have hcopy := strcpyLoop_zeros (a := []) (n := src.length + 1) true src
    (Nat.le_succ _)
  rw [List.nil_append, List.nil_append, Nat.add_sub_cancel_left, List.length_nil] at hcopy
  rw [kzalloc, Nat.mod_eq_of_lt hsize, strcpy, hcopy]
  use rfl
  apply List.prefix_rfl

end StringBuffer

section Copy

variable {path : Str}

/-- The memory of `basename` holds the string that is returned. -/
theorem holds_basenameCopy (hint : path.length < 2 ^ 15) {idx : ℕ} (hidx : idx < path.length) :
  (basenameCopy path (path.length - 1) idx).Holds (basenameLoop path idx)
  := by
  have hcopy {idx : ℕ} (hidx : idx < path.length) :
      (((StringBuffer.kzalloc (path.length - 1 - idx + 1)).strncpy (path.drop (idx + 1))
        (path.length - 1 - idx)).store (path.length - 1 - idx) NUL).Holds
        (path.drop (idx + 1)) := by
    have hlength : (path.drop (idx + 1)).length = path.length - 1 - idx := by
      rw [List.length_drop]
      omega
    have hholds := StringBuffer.holds_strncpy (Nat.le_of_eq hlength.symm)
      (by omega)
    rwa [← hlength, List.take_length, hlength] at hholds
  induction idx with
  | zero =>
      rw [basenameCopy, basenameLoop]
      split
      · exact hcopy hidx
      · have hlength : path.length - 1 + 2 = path.length + 1 := by omega
        rw [hlength]
        apply StringBuffer.holds_strcpy
        omega
  | succ idx ih =>
      rw [basenameCopy, basenameLoop]
      split
      · exact hcopy hidx
      · exact ih (by omega)

/-- The memory of `basepath` holds the string that is returned. -/
theorem holds_basepathCopy (hint : path.length < 2 ^ 15) {idx : ℕ} (hidx : idx < path.length) :
  (basepathCopy path idx).Holds (basepathLoop path idx)
  := by
  induction idx with
  | zero =>
      have hne : ¬ (path[0]? = some '/' ∧ 0 ≠ 0) := by simp
      rw [basepathCopy, if_neg hne, basepathLoop]
      use rfl
      apply List.prefix_rfl
  | succ idx ih =>
      rw [basepathCopy, basepathLoop]
      have hne : idx + 1 ≠ 0 := Nat.succ_ne_zero idx
      simp only [hne, ne_eq, not_false_eq_true, and_true]
      split
      · exact StringBuffer.holds_strncpy (Nat.le_of_lt hidx) (by omega)
      · exact ih (by omega)

end Copy

/-! ### The last slash -/

/-- The last slash of the path has the index `k`. -/
def IsLastSlash (path : Str) (k : ℕ) : Prop :=
  path[k]? = some '/' ∧ ∀ j > k, path[j]? ≠ some '/'

section Slash

variable {path : Str} {k idx : ℕ}

theorem IsLastSlash.lt_length (h : IsLastSlash path k) : k < path.length := by
  have hsome : path[k]?.isSome := by
    rw [h.1]
    rfl
  simpa using hsome

/-- From behind the last slash, `basename` goes back to it. -/
theorem basenameLoop_of_last (h : IsLastSlash path k) (hidx : k ≤ idx) :
  basenameLoop path idx = path.drop (k + 1)
  := by
  induction idx with
  | zero =>
      obtain rfl : k = 0 := by omega
      rw [basenameLoop, if_pos h.1]
  | succ idx ih =>
      rw [basenameLoop]
      by_cases hk : k = idx + 1
      · rw [← hk, if_pos h.1, hk]
      · rw [if_neg (h.2 (idx + 1) (by omega)), ih (by omega)]

/-- Without a slash, `basename` returns the path. -/
theorem basenameLoop_of_not_mem (h : '/' ∉ path) (idx : ℕ) : basenameLoop path idx = path := by
  have hne (i : ℕ) : path[i]? ≠ some '/' := fun hi => h (List.mem_of_getElem? hi)
  induction idx with
  | zero => rw [basenameLoop, if_neg (hne 0)]
  | succ idx ih => rw [basenameLoop, if_neg (hne (idx + 1)), ih]

/-- From behind the last slash, `basepath` goes back to it. -/
theorem basepathLoop_of_last (h : IsLastSlash path k) (hpos : 0 < k) (hidx : k ≤ idx) :
  basepathLoop path idx = path.take k
  := by
  induction idx with
  | zero => omega
  | succ idx ih =>
      rw [basepathLoop]
      by_cases hk : k = idx + 1
      · rw [← hk, if_pos h.1]
      · rw [if_neg (h.2 (idx + 1) (by omega)), ih (by omega)]

/-- Without a slash behind the first byte, `basepath` returns a slash. -/
theorem basepathLoop_of_forall_ne (h : ∀ j > 0, path[j]? ≠ some '/') (idx : ℕ) :
  basepathLoop path idx = ['/']
  := by
  induction idx with
  | zero => rfl
  | succ idx ih => rw [basepathLoop, if_neg (h (idx + 1) (Nat.succ_pos idx)), ih]

/-- A slash stands between what is before it and what is behind it. -/
theorem take_append_drop_of_slash (h : path[k]? = some '/') :
  path.take k ++ '/' :: path.drop (k + 1) = path
  := by
  obtain ⟨hlt, hk⟩ := List.getElem?_eq_some_iff.mp h
  rw [← hk, List.getElem_cons_drop, List.take_append_drop]

end Slash

/-! ### Decomposition -/

/-- What the two functions return for a path: two strings, which their memory holds, are the
parts behind and before the last slash, or the path and a slash when there is none. -/
structure Decomposes (path : Str) (base dir : Str) : Prop where
  /-- The memory of `basename` holds the base name. -/
  basename : ∃ b, basenameBuffer path = some b ∧ b.Holds base
  /-- The memory of `basepath` holds the base path. -/
  basepath : ∃ b, basepathBuffer path = some b ∧ b.Holds dir
  base_of_last : ∀ k, IsLastSlash path k → base = path.drop (k + 1)
  base_of_not_mem : '/' ∉ path → base = path
  dir_of_pos : ∀ k, IsLastSlash path k → 0 < k → dir = path.take k
  dir_of_zero : IsLastSlash path 0 → dir = ['/']
  dir_of_not_mem : '/' ∉ path → dir = ['/']
  /-- The parts make up the path. -/
  append : ∀ k, IsLastSlash path k → 0 < k → dir ++ '/' :: base = path

/-- The functions decompose every path that is not empty and whose length is an `int`. -/
theorem decomposes {path : Str} (hne : path ≠ []) (hint : path.length < 2 ^ 15) :
  ∃ base dir, basename path = some base ∧ basepath path = some dir ∧ Decomposes path base dir
  := by
  have hpos := List.length_pos_of_ne_nil hne
  have hlast : path.length - 1 < path.length := by omega
  refine ⟨_, _, if_neg hne, if_neg hne, ?_⟩
  constructor
  · use basenameCopy path (path.length - 1) (path.length - 1)
    use if_neg hne
    apply holds_basenameCopy hint hlast
  · use basepathCopy path (path.length - 1)
    use if_neg hne
    apply holds_basepathCopy hint hlast
  · intro k hk
    have hlt := hk.lt_length
    apply basenameLoop_of_last hk
    omega
  · intro hmem
    apply basenameLoop_of_not_mem hmem
  · intro k hk hkpos
    have hlt := hk.lt_length
    apply basepathLoop_of_last hk hkpos
    omega
  · intro hk
    apply basepathLoop_of_forall_ne hk.2
  · intro hmem
    apply basepathLoop_of_forall_ne
    intro j _ hj
    exact hmem (List.mem_of_getElem? hj)
  · intro k hk hkpos
    have hlt := hk.lt_length
    have hle : k ≤ path.length - 1 := by omega
    rw [basenameLoop_of_last hk hle, basepathLoop_of_last hk hkpos hle]
    apply take_append_drop_of_slash hk.1

/-- The theorem applied to the path `//a/`, which ends with a slash. -/
theorem decomposes_trailing :
  ['/', '/', 'a', '/'] ≠ [] ∧ ['/', '/', 'a', '/'].length < 2 ^ 15 ∧
    ∃ base dir, basename ['/', '/', 'a', '/'] = some base ∧
      basepath ['/', '/', 'a', '/'] = some dir ∧ Decomposes ['/', '/', 'a', '/'] base dir
  :=
  ⟨by decide, by decide, decomposes (by decide) (by decide)⟩

end Etaos.Fs
