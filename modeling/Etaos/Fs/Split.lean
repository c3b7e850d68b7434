import Etaos.Fs.Path
import Etaos.Library.Blocks
import Mathlib.Data.List.Induction
import Mathlib.Tactic.Use

/-!
# Arrays of segments

The functions `path_split` and `strsplit` count the delimiters of a string to make room for
pointers to its segments, and one more for a segment behind the last delimiter, which they see
from an address.  The addresses and `size_t` are those of the AVR, and all memory that is asked
for is there.

`path_split` compares addresses in the string that it has counted in.  `strsplit` compares an
address in its copy of the string with one in the string itself.
-/

namespace Etaos.Fs

open Segments

/-! ### Memory -/

/-- The number of addresses of the AVR. -/
def memorySize : ℕ := 2 ^ 16

/-- The size of a pointer. -/
def pointerSize : ℕ := 2

/-- The pointer `NULL`. -/
def nullAddress : ℕ := 0

/-- Where a string of the length `len`, a copy of it, and the string of the delimiter lie. -/
structure Layout (len : ℕ) where
  str : ℕ
  dup : ℕ
  delim : ℕ
  str_pos : nullAddress < str
  dup_pos : nullAddress < dup
  delim_pos : nullAddress < delim
  str_end : str + (len + 1) ≤ memorySize
  dup_end : dup + (len + 1) ≤ memorySize
  delim_end : delim + 2 ≤ memorySize
  str_dup : Blocks.Disjoint (str, len + 1) (dup, len + 1)
  str_delim : Blocks.Disjoint (str, len + 1) (delim, 2)
  dup_delim : Blocks.Disjoint (dup, len + 1) (delim, 2)

/-- An array of pointers to strings. -/
structure PointerArray where
  slots : List (Option Str)
  /-- No pointer was stored outside of the array. -/
  inside : Bool
  deriving DecidableEq

namespace PointerArray

/-- The array that `kzalloc` returns for a number of bytes. -/
def kzalloc (size : ℕ) : PointerArray where
  slots := List.replicate (size / pointerSize) none
  inside := true

/-- The assignment `*(result + idx) = token`. -/
def store (result : PointerArray) (idx : ℕ) (token : Option Str) : PointerArray where
  slots := result.slots.set idx token
  inside := result.inside && idx < result.slots.length

/-- The array begins with the strings and a `NULL` behind them, and no pointer was stored
outside of it. -/
def Stores (result : PointerArray) (strings : List Str) : Prop :=
  result.inside = true ∧ strings.map some ++ [none] <+: result.slots

end PointerArray

/-! ### The functions -/

/-- The loop over the string from the address `tmp` on, with the number of the delimiters that
it has met and the address of the last one. -/
def countLoop (delim : Char) : Str → ℕ → ℕ → ℕ → ℕ × ℕ
  | [], _, count, last => (count, last)
  | c :: s, tmp, count, last =>
      if c = delim then
        countLoop delim s (tmp + 1) (count + 1) tmp
      else
        countLoop delim s (tmp + 1) count last

/-- The number of pointers for the string that is counted at the address `tmp`, where the end is
that of the string at the address `s`. -/
def slotCount (path : Str) (delim : Char) (tmp s : ℕ) : ℕ :=
  let (count, last) := countLoop delim path tmp 0 nullAddress
  count + (if last < s + path.length - 1 then 1 else 0) + 1

/-- The loop over the tokens from the index `idx` on, and the terminating pointer.  Before a
token is stored, its index is checked. -/
def storeLoop (check : ℕ → Bool) : List Str → ℕ → PointerArray → Option PointerArray
  | [], idx, result => some (result.store idx none)
  | token :: rest, idx, result =>
      if check idx then
        storeLoop check rest (idx + 1) (result.store idx (some token))
      else
        none

/-- The array for a number of pointers.  Its size is a `size_t`. -/
def pointers (count : ℕ) : PointerArray :=
  .kzalloc (pointerSize * count % memorySize)

/-- The function `path_split`, for a copy of the path at the address `layout.dup`. -/
def pathSplitArray (path : Str) (delim : Char) (layout : Layout path.length) :
    Option PointerArray :=
  let count := slotCount path delim layout.dup layout.dup
  storeLoop (fun _ => true) (tokens [delim] (path.length + 1) (some path)) 0 (pointers count)

/-- The function `strsplit`, for a string at the address `layout.str`.  It has no result when
its assertion fails. -/
def strsplit (s : Str) (delim : Char) (layout : Layout s.length) : Option PointerArray :=
  let count := slotCount s delim layout.dup layout.str
  storeLoop (fun idx => idx < count) (tokens [delim] (s.length + 1) (some s)) 0 (pointers count)

/-! ### The number of the pointers -/

section Count

variable {path : Str} {delim : Char}

/-- The loop counts the delimiters. -/
theorem countLoop_count (path : Str) (tmp count last : ℕ) :
  (countLoop delim path tmp count last).1 = count + path.count delim
  := by
  induction path generalizing tmp count last with
  | nil => rfl
  | cons c path ih =>
      rw [countLoop, List.count_cons]
      split
      · rename_i hc
        rw [ih, if_pos (by simpa using hc), Nat.add_right_comm, Nat.add_assoc]
      · rename_i hc
        rw [ih, if_neg (by simpa using hc), Nat.add_zero]

theorem countLoop_append (path path' : Str) (tmp count last : ℕ) :
  countLoop delim (path ++ path') tmp count last
    = countLoop delim path' (tmp + path.length) (countLoop delim path tmp count last).1
        (countLoop delim path tmp count last).2
  := by
  induction path generalizing tmp count last with
  | nil => rfl
  | cons c path ih =>
      rw [List.cons_append, countLoop, countLoop, List.length_cons, ← Nat.add_assoc,
        Nat.add_right_comm]
      split <;> apply ih

/-- Without a delimiter the loop keeps the address. -/
theorem countLoop_last_of_not_mem (h : delim ∉ path) (tmp count last : ℕ) :
  (countLoop delim path tmp count last).2 = last
  := by
  induction path generalizing tmp count last with
  | nil => rfl
  | cons c path ih =>
      rw [List.mem_cons, not_or] at h
      rw [countLoop, if_neg (Ne.symm h.1), ih h.2]

/-- With a delimiter the loop returns an address in the string, and that of its end exactly when
the string ends with the delimiter. -/
theorem countLoop_last_of_mem (h : delim ∈ path) (tmp count last : ℕ) :
  ∃ i, (countLoop delim path tmp count last).2 = tmp + i ∧ i < path.length ∧
    (i + 1 = path.length ↔ path.getLast? = some delim)
  := by
  induction path using List.reverseRecOn with
  | nil => cases h
  | append_singleton path c ih =>
      rw [countLoop_append, countLoop]
      by_cases hc : c = delim
      · rw [if_pos hc, countLoop]
        use path.length
        simp [hc]
      · have hmem : delim ∈ path := by simpa [Ne.symm hc] using h
        obtain ⟨i, hi, hlt, -⟩ := ih hmem
        rw [if_neg hc, countLoop]
        use i, hi
        simp only [List.length_append, List.length_singleton, List.getLast?_concat,
          Option.some.injEq, hc, iff_false]
        omega

end Count

section Layout

variable {s : Str} {delim : Char}

/-- The string and its copy leave room for an array. -/
theorem Layout.length_lt {len : ℕ} (layout : Layout len) : 2 * len + 4 < memorySize := by
  obtain ⟨str, dup, sdelim, hstr, hdup, hdelim, hstr', hdup', hdelim', hsd, hsl, hdl⟩ := layout
  simp only [Blocks.Disjoint, memorySize, nullAddress] at *
  omega

/-- The number of pointers is that of the delimiters and one, and one more when the address of
the last delimiter is below that of the last byte of the string at `s`. -/
theorem slotCount_eq (path : Str) (tmp s : ℕ) :
  slotCount path delim tmp s = path.count delim
    + (if (countLoop delim path tmp 0 nullAddress).2 < s + path.length - 1 then 1 else 0) + 1
  := by
  rw [slotCount]
  dsimp only
  rw [countLoop_count, Nat.zero_add]

/-- The array has as many pointers as were counted. -/
theorem pointers_eq (layout : Layout s.length) (tmp str : ℕ) :
  pointers (slotCount s delim tmp str) = {
    slots := List.replicate (slotCount s delim tmp str) none
    inside := true }
  := by
  have hlayout := layout.length_lt
  have hcount : s.count delim ≤ s.length := List.count_le_length
  have hsmall : slotCount s delim tmp str ≤ s.length + 2 := by
    rw [slotCount_eq]
    split <;> omega
  rw [pointers, PointerArray.kzalloc, pointerSize, Nat.mod_eq_of_lt (by omega),
    Nat.mul_div_cancel_left _ (by decide)]

/-- Without a delimiter there is room for the string and the pointer behind it. -/
theorem length_segments_lt_of_not_mem (h : delim ∉ s) (tmp : ℕ) {str : ℕ}
    (hstr : nullAddress < str) :
  (segments delim s).length < slotCount s delim tmp str
  := by
  rw [slotCount_eq, countLoop_last_of_not_mem h, nullAddress]
  by_cases hnil : s = []
  · rw [hnil, segments_nil, List.length_nil]
    apply Nat.succ_pos
  · have hlength := List.length_pos_of_ne_nil hnil
    rw [segments_eq_singleton hnil h, List.length_singleton, if_pos (by omega)]
    omega

/-- `path_split` has room for the segments and the pointer behind them. -/
theorem length_segments_lt_slotCount (s : Str) (delim : Char) {tmp : ℕ}
    (htmp : nullAddress < tmp) :
  (segments delim s).length < slotCount s delim tmp tmp
  := by
  by_cases hmem : delim ∈ s
  · obtain ⟨i, hi, hlt, hend⟩ := countLoop_last_of_mem hmem tmp 0 nullAddress
    rw [slotCount_eq, hi]
    by_cases hlast : s.getLast? = some delim
    · have hle := length_segments_of_getLast hlast
      omega
    · have hle := length_segments_le delim s
      have hinner : i + 1 ≠ s.length := fun heq => hlast (hend.mp heq)
      rw [if_pos (by omega)]
      omega
  · apply length_segments_lt_of_not_mem hmem tmp htmp

/-- `strsplit` has room for the segments and the pointer behind them exactly when its copy is
below the string, there are no delimiters, or a part between them is empty. -/
theorem length_segments_lt_slotCount_iff (layout : Layout s.length) :
  (segments delim s).length < slotCount s delim layout.dup layout.str ↔
    layout.dup < layout.str ∨ delim ∉ s ∨ [] ∈ s.splitOn delim
  := by
  by_cases hmem : delim ∈ s
  · obtain ⟨i, hi, hlt, -⟩ := countLoop_last_of_mem hmem layout.dup 0 nullAddress
    have hle := length_segments_le delim s
    have hfull := length_segments_eq_iff (d := delim) (l := s)
    rw [slotCount_eq, hi]
    simp only [hmem, not_true_eq_false, false_or]
    rcases layout.str_dup with habove | hbelow
    · -- the copy is behind the string, and so is the last delimiter
      rw [if_neg (by dsimp only at habove; omega)]
      simp only [show ¬ layout.dup < layout.str by dsimp only at habove; omega, false_or]
      rw [← not_iff_not, not_not] at hfull
      rw [← hfull]
      omega
    · rw [if_pos (by dsimp only at hbelow; omega)]
      simp only [show layout.dup < layout.str by dsimp only at hbelow; omega, true_or, iff_true]
      omega
  · simp only [hmem, not_false_eq_true, true_or, or_true, iff_true]
    apply length_segments_lt_of_not_mem hmem layout.dup layout.str_pos

end Layout

/-! ### Storing the pointers -/

section Store

variable {check : ℕ → Bool}

/-- With room for them, the strings and the `NULL` behind them are stored. -/
theorem storeLoop_eq {l : List Str} {a : List (Option Str)} {n : ℕ} (inside : Bool)
    (hcheck : ∀ idx, idx < a.length + l.length → check idx = true) (hroom : l.length < n) :
  storeLoop check l a.length { slots := a ++ List.replicate n none, inside }
    = some { slots := a ++ l.map some ++ List.replicate (n - l.length) none, inside }
  := by
  obtain ⟨n, rfl⟩ : ∃ k, n = k + 1 := ⟨n - 1, by omega⟩
  induction l generalizing a n with
  | nil =>
      rw [storeLoop, PointerArray.store]
      simp [List.replicate_succ]
  | cons token l ih =>
      obtain ⟨n, rfl⟩ : ∃ k, n = k + 1 := ⟨n - 1, by simp only [List.length_cons] at hroom; omega⟩
      rw [List.length_cons] at hcheck hroom
      have hnext := ih (a := a ++ [some token]) (n := n)
        (by simpa [Nat.add_assoc, Nat.add_comm 1] using hcheck) (by omega)
      rw [storeLoop, if_pos (hcheck a.length (by omega)), PointerArray.store,
        List.replicate_succ]
      simpa [List.replicate_succ] using hnext

/-- Strings that are stored inside of an array have room in it. -/
theorem lt_of_storeLoop {l : List Str} {idx : ℕ} {result result' : PointerArray}
    (h : storeLoop check l idx result = some result') (hinside : result'.inside = true) :
  idx + l.length < result.slots.length
  := by
  induction l generalizing idx result with
  | nil =>
      obtain rfl := Option.some.inj h
      rw [PointerArray.store] at hinside
      simpa using (Bool.and_eq_true_iff.mp hinside).2
  | cons token l ih =>
      rw [storeLoop] at h
      split at h
      · have hnext := ih h
        rw [PointerArray.store, List.length_set] at hnext
        rw [List.length_cons]
        omega
      · cases h

/-- Strings are stored in a new array exactly when there is room for them and the pointer behind
them. -/
theorem stores_iff {l : List Str} {n : ℕ} (hcheck : ∀ idx < l.length, check idx = true) :
  (∃ result, storeLoop check l 0 { slots := List.replicate n none, inside := true } = some result ∧
      result.Stores l) ↔
    l.length < n
  := by
  constructor
  · rintro ⟨result, hresult, hinside, -⟩
    have hlt := lt_of_storeLoop hresult hinside
    simpa using hlt
  · intro hroom
    have hstore := storeLoop_eq (a := []) true (by simpa using hcheck) hroom
    refine ⟨_, hstore, rfl, ?_⟩
    obtain ⟨k, hk⟩ : ∃ k, n - l.length = k + 1 := ⟨n - l.length - 1, by omega⟩
    use List.replicate k none
    rw [List.nil_append, hk, List.replicate_succ, List.append_assoc]
    rfl

end Store

/-! ### The results -/

/-- `path_split` stores the segments of a path inside of its array. -/
theorem pathSplitArray_stores (path : Str) (delim : Char) (layout : Layout path.length) :
  ∃ result, pathSplitArray path delim layout = some result ∧
    result.Stores (segments delim path)
  := by
  rw [pathSplitArray, tokens_eq delim _ _ (Nat.lt_succ_self _), pointers_eq layout,
    stores_iff fun _ _ => rfl]
  apply length_segments_lt_slotCount path delim layout.dup_pos

/-- `strsplit` stores the segments of a string inside of its array exactly when its copy is below
the string, there are no delimiters, or a part between them is empty. -/
theorem strsplit_stores_iff (s : Str) (delim : Char) (layout : Layout s.length) :
  (∃ result, strsplit s delim layout = some result ∧ result.Stores (segments delim s)) ↔
    layout.dup < layout.str ∨ delim ∉ s ∨ [] ∈ s.splitOn delim
  := by
  have hle := length_segments_le delim s
  have hcount : s.count delim < slotCount s delim layout.dup layout.str := by
    rw [slotCount_eq]
    omega
  rw [strsplit, tokens_eq delim _ _ (Nat.lt_succ_self _), pointers_eq layout, stores_iff]
  · apply length_segments_lt_slotCount_iff
  · intro idx hidx
    simp only [decide_eq_true_eq]
    omega

/-- The string `a/b` has its copy behind it. -/
def behind : Layout ['a', '/', 'b'].length where
  str := 100
  dup := 200
  delim := 300
  str_pos := by decide
  dup_pos := by decide
  delim_pos := by decide
  str_end := by decide
  dup_end := by decide
  delim_end := by decide
  str_dup := by decide
  str_delim := by decide
  dup_delim := by decide

/-- The `NULL` behind the two segments of `a/b` is stored outside of an array for two pointers. -/
theorem not_stores_behind :
  strsplit ['a', '/', 'b'] '/' behind
      = some { slots := [some ['a'], some ['b']], inside := false } ∧
    ¬ ∃ result, strsplit ['a', '/', 'b'] '/' behind = some result ∧
      result.Stores (segments '/' ['a', '/', 'b'])
  := by
  constructor
  · decide
  · rw [strsplit_stores_iff]
    decide

end Etaos.Fs
