import Mathlib.Data.List.TakeWhile

/-!
# Segments of a list

A delimiter cuts a list into parts.  The segments of the list are the parts that are not empty,
in their order, so that each of them is a longest part without a delimiter.

A scan that skips delimiters and takes what follows up to the next one takes the first segment
off a list.  There is at most one segment more than there are delimiters, and as many exactly
when no part is empty.
-/

namespace Segments

variable {α : Type*} [DecidableEq α] {d : α} {l : List α}

/-- The parts of a list without the delimiter `d` that are not empty, in their order. -/
def segments (d : α) (l : List α) : List (List α) :=
  (l.splitOn d).filter (· ≠ [])

@[simp]
theorem segments_nil (d : α) : segments d [] = [] := by
  rw [segments, List.splitOn_nil]
  rfl

/-- A delimiter separates segments. -/
theorem segments_append (d : α) (a b : List α) :
  segments d (a ++ d :: b) = segments d a ++ segments d b
  := by
  rw [segments, List.splitOn_append_cons_self, List.filter_append]
  rfl

/-- A list without delimiters is a segment. -/
theorem segments_eq_singleton (hne : l ≠ []) (hl : d ∉ l) : segments d l = [l] := by
  rw [segments, List.splitOn_eq_singleton hl]
  simp [hne]

/-- A delimiter in front makes no segment. -/
theorem segments_cons_self (d : α) (l : List α) : segments d (d :: l) = segments d l :=
  (segments_append d [] l).trans (by rw [segments_nil, List.nil_append])

/-- Delimiters in front make no segments. -/
theorem segments_dropWhile (d : α) (l : List α) :
  segments d (l.dropWhile (· == d)) = segments d l
  := by
  induction l with
  | nil => rfl
  | cons c l ih =>
      rw [List.dropWhile_cons]
      split
      · rename_i hc
        obtain rfl : c = d := by simpa using hc
        rw [ih, segments_cons_self]
      · rfl

/-- What a list begins with is a segment when it is not a delimiter. -/
theorem segments_cons {c : α} (hc : c ≠ d) (l : List α) :
  segments d (c :: l)
    = (c :: l).takeWhile (· != d) :: segments d ((c :: l).dropWhile (· != d)).tail
  := by
  have htake : (c :: l).takeWhile (· != d) ≠ [] := by
    rw [List.takeWhile_cons_of_pos (by simpa using hc)]
    apply List.cons_ne_nil
  have hmem : d ∉ (c :: l).takeWhile (· != d) := by
    intro hmem
    have hd := List.mem_takeWhile_imp hmem
    simp at hd
  have hhead := List.head?_dropWhile_not (· != d) (c :: l)
  have hsplit : segments d ((c :: l).takeWhile (· != d) ++ (c :: l).dropWhile (· != d))
      = segments d (c :: l) := by rw [List.takeWhile_append_dropWhile]
  rw [← hsplit]
  cases hdrop : (c :: l).dropWhile (· != d) with
  | nil => rw [List.append_nil, segments_eq_singleton htake hmem, List.tail_nil, segments_nil]
  | cons e rest =>
      rw [hdrop] at hhead
      obtain rfl : e = d := by simpa using hhead
      rw [segments_append, segments_eq_singleton htake hmem, List.tail_cons]
      rfl

/-! ### The number of the segments -/

theorem length_splitOn (d : α) (l : List α) : (l.splitOn d).length = l.count d + 1 := by
  induction l with
  | nil => rw [List.splitOn_nil, List.count_nil, List.length_singleton]
  | cons c l ih =>
      rw [List.splitOn_cons_eq_if_modifyHead, List.count_cons]
      split
      · rw [List.length_cons, ih]
      · rw [List.length_modifyHead, ih, Nat.add_zero]

theorem length_segments_le (d : α) (l : List α) : (segments d l).length ≤ l.count d + 1 := by
  rw [segments, ← length_splitOn]
  apply List.length_filter_le

/-- There is one segment more than there are delimiters exactly when no part is empty. -/
theorem length_segments_eq_iff :
  (segments d l).length = l.count d + 1 ↔ [] ∉ l.splitOn d
  := by
  rw [segments, ← length_splitOn, List.length_filter_eq_length_iff]
  simp only [decide_eq_true_eq]
  constructor
  · intro h hmem
    exact h [] hmem rfl
  · rintro h _ hmem rfl
    exact h hmem

/-- A list that ends with a delimiter has an empty part. -/
theorem length_segments_of_getLast (h : l.getLast? = some d) :
  (segments d l).length ≤ l.count d
  := by
  obtain ⟨front, rfl⟩ := List.getLast?_eq_some_iff.mp h
  have hfront := length_segments_le d front
  rw [segments_append, segments_nil, List.append_nil, List.count_append,
    List.count_singleton_self]
  exact hfront

end Segments
