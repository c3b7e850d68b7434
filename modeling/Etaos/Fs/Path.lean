import Etaos.Fs.Dirent
import Etaos.Library.Segments

/-!
# The sections of a path

`path_split` stores the segments of a path between its delimiters, and has room for them; the
non-empty sections of a path are its segments between slashes.
-/

namespace Etaos.Fs

open Segments

/-- The non-empty sections of a path. -/
def sections (path : Str) : List Str :=
  (path.splitOn '/').filter (· ≠ [])

@[simp]
theorem sections_nil : sections [] = [] := segments_nil '/'

variable {delim : Char}

theorem contains_singleton (delim : Char) : ([delim].contains ·) = (· == delim) := by
  funext c
  rw [List.contains_cons, List.contains_nil, Bool.or_false]

theorem not_contains_singleton (delim : Char) : (! [delim].contains ·) = (· != delim) := by
  funext c
  rw [List.contains_cons, List.contains_nil, Bool.or_false]
  rfl

/-- `strtok_r` takes the first segment off a string. -/
theorem strtokR_eq (delim : Char) (s : Str) :
  (strtokR s [delim] = none ∧ segments delim s = []) ∨
    (∃ tok, strtokR s [delim] = some (tok, none) ∧ segments delim s = [tok]) ∨
    ∃ tok last, strtokR s [delim] = some (tok, some last) ∧
      segments delim s = tok :: segments delim last ∧ last.length < s.length
  := by
  have hlength := (List.dropWhile_sublist (l := s) (· == delim)).length_le
  rw [strtokR, contains_singleton, not_contains_singleton, ← segments_dropWhile delim s]
  cases hs : s.dropWhile (· == delim) with
  | nil => exact .inl ⟨rfl, segments_nil delim⟩
  | cons c t =>
      right
      have hc : c ≠ delim := by
        have hhead := List.head?_dropWhile_not (· == delim) s
        rw [hs] at hhead
        simpa using hhead
      have hrest := (List.dropWhile_sublist (l := c :: t) (· != delim)).length_le
      rw [hs] at hlength
      rw [segments_cons hc]
      dsimp only
      cases hdrop : (c :: t).dropWhile (· != delim) with
      | nil => exact .inl ⟨_, rfl, by rw [List.tail_nil, segments_nil]⟩
      | cons d last =>
          right
          rw [hdrop, List.length_cons] at hrest
          exact ⟨_, last, rfl, rfl, by omega⟩

/-- The tokens of a string are its segments. -/
theorem tokens_eq (delim : Char) :
    ∀ (n : ℕ) (s : Str), s.length < n → tokens [delim] n (some s) = segments delim s
  | 0, s, h => by omega
  | n + 1, s, h => by
      rw [tokens]
      rcases strtokR_eq delim s with
        ⟨htok, hs⟩ | ⟨tok, htok, hs⟩ | ⟨tok, last, htok, hs, hlast⟩
      · rw [htok, hs]
      · rw [htok, hs]
        dsimp only
        rw [tokens]
      · rw [htok, hs]
        dsimp only
        rw [tokens_eq delim n last (by omega)]

/-- `path_split` has room for the segments and the pointer behind them. -/
theorem length_segments_lt (delim : Char) (path : Str) :
  (segments delim path).length < sectionCount path delim
  := by
  rw [sectionCount]
  split
  · rename_i hlast
    have hle := length_segments_of_getLast hlast
    omega
  · have hle := length_segments_le delim path
    omega

/-- `path_split` returns the segments of a path. -/
theorem pathSplit_eq (path : Str) (delim : Char) :
  pathSplit path delim = some (segments delim path)
  := by
  rw [pathSplit, tokens_eq delim _ _ (Nat.lt_succ_self _), if_pos (length_segments_lt delim path)]

/-- `fs_split_path` returns the sections of a path. -/
theorem fsSplitPath_eq (path : Str) : fsSplitPath path = some (sections path) :=
  pathSplit_eq path '/'

end Etaos.Fs
