import Mathlib.Data.List.Nodup

/-!
# Cursors that are kept as elements

The elements of a list are returned one by one, and a position in the list is kept as the element
that was returned last: `follow l entry` is the element behind `entry`, and `NULL` is both the
position in front of the list and the one at its end.  After `n` calls the element at the index
`n` modulo the length and one is returned.

`Calls` shares one such position between several lists.  As long as it is never taken from one
list to another, every list is enumerated as if it had its own.
-/

namespace Cursor

variable {α D : Type*}

/-- The element behind `entry`, or the first one. -/
def follow [DecidableEq α] (l : List α) : Option α → Option α
  | none => l.head?
  | some x => (l.dropWhile (· != x)).tail.head?

/-- The element in front of the index `i`. -/
def before (l : List α) : ℕ → Option α
  | 0 => none
  | i + 1 => l[i]?

/-- The index of the element that is returned after `n` calls. -/
def index (l : List α) (n : ℕ) : ℕ :=
  n % (l.length + 1)

section Follow

variable {l : List α} {i n : ℕ}

theorem index_le (l : List α) (n : ℕ) : index l n ≤ l.length :=
  Nat.le_of_lt_succ (Nat.mod_lt n (Nat.succ_pos _))

/-- What is behind the element in front of an index is at that index. -/
theorem follow_before [DecidableEq α] (hl : l.Nodup) (hi : i ≤ l.length) :
  follow l (before l i) = l[i]?
  := by
  cases i with
  | zero => rw [before, follow, List.head?_eq_getElem?]
  | succ i =>
      obtain ⟨x, hx⟩ : ∃ x, l[i]? = some x := ⟨_, List.getElem?_eq_getElem hi⟩
      have hsplit : l.take i ++ x :: l.drop (i + 1) = l := by
        obtain ⟨hlt, rfl⟩ := List.getElem?_eq_some_iff.mp hx
        rw [List.getElem_cons_drop, List.take_append_drop]
      have hnot : ∀ y ∈ l.take i, (y != x) = true := by
        intro y hy
        rw [← hsplit] at hl
        simpa using (List.nodup_append.mp hl).2.2 y hy x List.mem_cons_self
      have hdrop : l.dropWhile (· != x) = x :: l.drop (i + 1) := by
        conv_lhs => rw [← hsplit]
        rw [List.dropWhile_append_of_pos hnot, List.dropWhile_cons_of_neg (by simp)]
      rw [before, hx, follow, hdrop, List.tail_cons, List.head?_drop]

/-- The element that is returned is the one in front of the next index. -/
theorem before_index_succ (l : List α) (n : ℕ) :
  before l (index l (n + 1)) = l[index l n]?
  := by
  have hle := index_le l n
  rw [index] at hle ⊢
  rw [index, Nat.add_mod]
  by_cases hend : n % (l.length + 1) = l.length
  · rw [hend, List.getElem?_eq_none (Nat.le_refl _)]
    cases l <;> simp [before]
  · have hone : 1 % (l.length + 1) = 1 := Nat.mod_eq_of_lt (by omega)
    rw [hone, Nat.mod_eq_of_lt (by omega), before]

end Follow

/-! ### A position that is shared -/

variable [DecidableEq D]

/-- The position that lists share, and the calls that were made with their results. -/
structure Calls (D α : Type*) where
  entry : Option α
  log : List (D × Option α)

namespace Calls

variable {L : D → List α} {s : Calls D α} {d : D}

/-- The number of the calls for a list. -/
def count (log : List (D × Option α)) (d : D) : ℕ :=
  log.countP fun call => call.1 = d

/-- The state before all calls. -/
def init : Calls D α where
  entry := none
  log := []

/-- A call for a list. -/
def call [DecidableEq α] (L : D → List α) (s : Calls D α) (d : D) : Calls D α where
  entry := follow (L d) s.entry
  log := s.log ++ [(d, follow (L d) s.entry)]

/-- The calls for a list return its elements in their order and then `NULL`, and start over. -/
def Enumerates (L : D → List α) (log : List (D × Option α)) : Prop :=
  ∀ k d r, log[k]? = some (d, r) → r = (L d)[index (L d) (count (log.take k) d)]?

/-- The position is in no other list. -/
def Undisturbed (L : D → List α) (s : Calls D α) (d : D) : Prop :=
  ∀ x, s.entry = some x → x ∈ L d

/-- Every list has been enumerated, and the position is the one of the list that it is in. -/
structure Inv (L : D → List α) (s : Calls D α) : Prop where
  enumerates : Enumerates L s.log
  entry : ∀ d x, s.entry = some x → x ∈ L d → before (L d) (index (L d) (count s.log d)) = some x
  other : ∀ d, (∀ x, s.entry = some x → x ∉ L d) →
    before (L d) (index (L d) (count s.log d)) = none

theorem count_append (log : List (D × Option α)) (d d' : D) (r : Option α) :
  count (log ++ [(d', r)]) d = count log d + if d' = d then 1 else 0
  := by
  simp [count, List.countP_append, List.countP_singleton]

theorem Inv.init (L : D → List α) : Inv L init := by
  have hzero (d : D) : index (L d) (count ([] : List (D × Option α)) d) = 0 := Nat.zero_mod _
  constructor
  · intro k d r hk
    simp [Calls.init] at hk
  · intro d x hx
    cases hx
  · intro d _
    rw [Calls.init, hzero, before]

/-- A call that does not take the position from another list returns the next element. -/
theorem Inv.call [DecidableEq α] (hnodup : ∀ d, (L d).Nodup)
    (hdisjoint : ∀ d d' x, x ∈ L d → x ∈ L d' → d = d') (h : Inv L s) (hok : Undisturbed L s d) :
  Inv L (s.call L d)
  := by
  have hbefore : before (L d) (index (L d) (count s.log d)) = s.entry := by
    cases hentry : s.entry with
    | none =>
        apply h.other
        intro x hx
        rw [hentry] at hx
        cases hx
    | some x => exact h.entry d x hentry (hok x hentry)
  have hfollow : follow (L d) s.entry = (L d)[index (L d) (count s.log d)]? := by
    rw [← hbefore, follow_before (hnodup d) (index_le _ _)]
  have hmem (x : α) (hx : follow (L d) s.entry = some x) : x ∈ L d := by
    rw [hfollow] at hx
    exact List.mem_of_getElem? hx
  have hnext : before (L d) (index (L d) (count (s.call L d).log d)) = follow (L d) s.entry := by
    rw [Calls.call, count_append, if_pos rfl, before_index_succ, hfollow]
  have hkeep {d' : D} (hd : d' ≠ d) : count (s.call L d).log d' = count s.log d' := by
    rw [Calls.call, count_append, if_neg (Ne.symm hd), Nat.add_zero]
  have hother {d' : D} (hd : d' ≠ d) : before (L d') (index (L d') (count s.log d')) = none := by
    apply h.other
    intro x hx hx'
    exact hd (hdisjoint d' d x hx' (hok x hx))
  constructor
  · intro k d' r hk
    rw [Calls.call] at hk ⊢
    dsimp only at hk ⊢
    rw [List.getElem?_append] at hk
    split at hk
    · rename_i hlt
      rw [List.take_append_of_le_length (Nat.le_of_lt hlt)]
      exact h.enumerates k d' r hk
    · rename_i hge
      have hend : k = s.log.length := by
        by_contra hne
        rw [List.getElem?_eq_none (by simp; omega)] at hk
        cases hk
      rw [hend, Nat.sub_self] at hk
      obtain ⟨rfl, rfl⟩ := Prod.mk.inj (Option.some.inj hk)
      rw [hend, List.take_left, hfollow]
  · intro d' x hx hx'
    by_cases hd : d' = d
    · rw [hd, hnext]
      exact hx
    · exact absurd (hdisjoint d' d x hx' (hmem x hx)) hd
  · intro d' hnot
    by_cases hd : d' = d
    · subst hd
      rw [hnext]
      cases hx : follow (L d') s.entry with
      | none => rfl
      | some x => exact absurd (hmem x hx) (hnot x hx)
    · rw [hkeep hd, hother hd]

end Calls

end Cursor
