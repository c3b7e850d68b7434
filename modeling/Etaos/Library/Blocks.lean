import Mathlib.Data.List.Pairwise
import Mathlib.Data.List.Perm.Basic
import Mathlib.Algebra.Order.Group.Nat

/-!
# Blocks of addresses

A block `(a, n)` is the `n` addresses from `a` on.  `cover l b` counts the blocks of the list
`l` that the address `b` lies in, so that an equation between such counts says that lists of
blocks have the same addresses.  `Separated l` says that the blocks of `l` are in order and
that no two of them are adjacent; `insert` adds a block to such a list, and merges it with the
blocks it is adjacent to.
-/

namespace Blocks

/-- Whether an address lies in a block. -/
def Mem (b : ℕ) (x : ℕ × ℕ) : Prop :=
  x.1 ≤ b ∧ b < x.1 + x.2

instance (b : ℕ) (x : ℕ × ℕ) : Decidable (Mem b x) :=
  inferInstanceAs (Decidable (_ ∧ _))

/-- The number of blocks of a list that an address lies in. -/
def cover (l : List (ℕ × ℕ)) (b : ℕ) : ℕ :=
  l.countP fun x => Mem b x

/-- One block ends before the other one begins. -/
def Disjoint (x y : ℕ × ℕ) : Prop :=
  x.1 + x.2 ≤ y.1 ∨ y.1 + y.2 ≤ x.1

instance (x y : ℕ × ℕ) : Decidable (Disjoint x y) :=
  inferInstanceAs (Decidable (_ ∨ _))

/-- The blocks are in order, with an address between any two of them. -/
def Separated (l : List (ℕ × ℕ)) : Prop :=
  l.Pairwise fun x y => x.1 + x.2 < y.1

@[simp]
theorem cover_nil (b : ℕ) : cover [] b = 0 := rfl

theorem cover_cons (x : ℕ × ℕ) (l : List (ℕ × ℕ)) (b : ℕ) :
  cover (x :: l) b = cover l b + if Mem b x then 1 else 0
  := by
  simp [cover, List.countP_cons]

theorem cover_singleton (x : ℕ × ℕ) (b : ℕ) : cover [x] b = if Mem b x then 1 else 0 := by
  simp [cover_cons]

theorem cover_append (l l' : List (ℕ × ℕ)) (b : ℕ) :
  cover (l ++ l') b = cover l b + cover l' b
  := List.countP_append

theorem cover_perm {l l' : List (ℕ × ℕ)} (h : l.Perm l') (b : ℕ) :
  cover l b = cover l' b
  := h.countP_eq _

/-- An address in a block of a list is covered by the list. -/
theorem cover_pos {l : List (ℕ × ℕ)} {x : ℕ × ℕ} {b : ℕ} (hx : x ∈ l) (hb : Mem b x) :
  1 ≤ cover l b
  := by
  rw [cover, Nat.succ_le_iff, List.countP_pos_iff]
  use x, hx
  simpa using hb

theorem exists_mem_of_cover_ne_zero {l : List (ℕ × ℕ)} {b : ℕ} (h : cover l b ≠ 0) :
  ∃ x ∈ l, Mem b x
  := by
  rw [cover, ← Nat.pos_iff_ne_zero, List.countP_pos_iff] at h
  simpa using h

/-- A block is cut in two. -/
theorem cover_split (a m n b : ℕ) :
  cover [(a, m + n)] b = cover [(a, m)] b + cover [(a + m, n)] b
  := by
  simp only [cover_singleton]
  by_cases hlow : b < a + m
  · have hhigh : ¬ Mem b (a + m, n) := by
      simp only [Mem]
      omega
    have hboth : Mem b (a, m + n) ↔ Mem b (a, m) := by
      simp only [Mem]
      omega
    simp only [hhigh, hboth, if_false, Nat.add_zero]
  · have hlow' : ¬ Mem b (a, m) := by
      simp only [Mem]
      omega
    have hboth : Mem b (a, m + n) ↔ Mem b (a + m, n) := by
      simp only [Mem]
      omega
    simp only [hlow', hboth, if_false, Nat.zero_add]

/-- Blocks without a common address are disjoint. -/
theorem disjoint_of_not_mem {x y : ℕ × ℕ} (hx : 0 < x.2) (hy : 0 < y.2)
    (h : ∀ b, Mem b x → ¬ Mem b y) :
  Disjoint x y
  := by
  by_contra hnot
  rw [Disjoint, not_or] at hnot
  rcases Nat.le_total x.1 y.1 with hle | hle
  · apply h y.1 <;> simp only [Mem] <;> omega
  · apply h x.1 <;> simp only [Mem] <;> omega

/-- Blocks counted once by the lists they are on are disjoint. -/
theorem disjoint_of_cover_le {l l' : List (ℕ × ℕ)} (h : ∀ b, cover l b + cover l' b ≤ 1)
    {x y : ℕ × ℕ} (hx : x ∈ l) (hy : y ∈ l') (hxpos : 0 < x.2) (hypos : 0 < y.2) :
  Disjoint x y
  := by
  apply disjoint_of_not_mem hxpos hypos
  intro b hbx hby
  have hlx := cover_pos hx hbx
  have hly := cover_pos hy hby
  have hle := h b
  omega

/-- A block that is disjoint from the blocks of a list is added to it. -/
theorem cover_cons_le_one {l : List (ℕ × ℕ)} {x : ℕ × ℕ} (hl : ∀ b, cover l b ≤ 1)
    (hx : ∀ y ∈ l, Disjoint y x) (b : ℕ) :
  cover (x :: l) b ≤ 1
  := by
  rw [cover_cons]
  split
  · rename_i hb
    have hzero : cover l b = 0 := by
      by_contra hne
      obtain ⟨y, hy, hby⟩ := exists_mem_of_cover_ne_zero hne
      have hdisjoint := hx y hy
      simp only [Disjoint, Mem] at hdisjoint hb hby
      omega
    omega
  · apply hl

/-! ### Insertion -/

/-- A block is merged with the first block of a list when that is adjacent to it. -/
def mergeNext (x : ℕ × ℕ) : List (ℕ × ℕ) → List (ℕ × ℕ)
  | [] => [x]
  | y :: l => if x.1 + x.2 = y.1 then (x.1, x.2 + y.2) :: l else x :: y :: l

/-- A block is inserted in order, and merged with the blocks it is adjacent to. -/
def insert (x : ℕ × ℕ) : List (ℕ × ℕ) → List (ℕ × ℕ)
  | [] => [x]
  | y :: l =>
      if y.1 + y.2 = x.1 then
        mergeNext (y.1, y.2 + x.2) l
      else if x.1 < y.1 then
        mergeNext x (y :: l)
      else
        y :: insert x l

theorem cover_mergeNext (x : ℕ × ℕ) (l : List (ℕ × ℕ)) (b : ℕ) :
  cover (mergeNext x l) b = cover l b + cover [x] b
  := by
  cases l with
  | nil => simp [mergeNext]
  | cons y l =>
      rw [mergeNext]
      split
      · rename_i hadjacent
        have hsplit := cover_split x.1 x.2 y.2 b
        rw [hadjacent] at hsplit
        rw [cover_cons _ l, ← cover_singleton, hsplit, cover_cons y l, ← cover_singleton]
        simp only [Prod.mk.eta]
        omega
      · rw [cover_cons x, cover_singleton]

/-- An insertion adds the addresses of the block. -/
theorem cover_insert (x : ℕ × ℕ) (l : List (ℕ × ℕ)) (b : ℕ) :
  cover (insert x l) b = cover l b + cover [x] b
  := by
  induction l with
  | nil => simp [insert]
  | cons y l ih =>
      rw [insert]
      split
      · rename_i hadjacent
        have hsplit := cover_split y.1 y.2 x.2 b
        rw [hadjacent] at hsplit
        rw [cover_mergeNext, hsplit, cover_cons y l, ← cover_singleton]
        simp only [Prod.mk.eta]
        omega
      · split
        · apply cover_mergeNext
        · rw [cover_cons y (insert x l), ih, cover_cons y l]
          omega

/-- The blocks of a merged list begin no earlier. -/
theorem lt_of_mem_mergeNext {x : ℕ × ℕ} {l : List (ℕ × ℕ)} {c : ℕ} (hx : c < x.1)
    (hl : ∀ y ∈ l, c < y.1) :
  ∀ y ∈ mergeNext x l, c < y.1
  := by
  cases l with
  | nil => simpa [mergeNext] using hx
  | cons y l =>
      rw [mergeNext]
      split
      · simp only [List.mem_cons, forall_eq_or_imp] at hl ⊢
        exact ⟨hx, hl.2⟩
      · simp only [List.mem_cons, forall_eq_or_imp] at hl ⊢
        exact ⟨hx, hl⟩

theorem lt_of_mem_insert {x : ℕ × ℕ} {c : ℕ} (hx : c < x.1) :
    ∀ {l : List (ℕ × ℕ)}, (∀ y ∈ l, c < y.1) → ∀ y ∈ insert x l, c < y.1
  | [], _ => by simpa [insert] using hx
  | y :: l, hl => by
      simp only [List.mem_cons, forall_eq_or_imp] at hl
      rw [insert]
      split
      · exact lt_of_mem_mergeNext (show c < (y.1, y.2 + x.2).1 from hl.1) hl.2
      · split
        · apply lt_of_mem_mergeNext hx
          simpa using hl
        · simp only [List.mem_cons, forall_eq_or_imp]
          exact ⟨hl.1, lt_of_mem_insert hx hl.2⟩

/-- A block before the blocks of a list is merged with it. -/
theorem Separated.mergeNext {x : ℕ × ℕ} {l : List (ℕ × ℕ)} (h : Separated l)
    (hpos : ∀ y ∈ l, 0 < y.2) (hx : ∀ y ∈ l, x.1 + x.2 ≤ y.1) :
  Separated (mergeNext x l)
  := by
  cases l with
  | nil => simp [Blocks.mergeNext, Separated]
  | cons y l =>
      rw [Blocks.mergeNext]
      simp only [Separated, List.pairwise_cons] at h
      split
      · rename_i hadjacent
        simp only [Separated, List.pairwise_cons]
        refine ⟨?_, h.2⟩
        intro z hz
        have := h.1 z hz
        omega
      · rename_i hnot
        simp only [Separated, List.pairwise_cons, List.mem_cons, forall_eq_or_imp]
        have hy := hx y List.mem_cons_self
        refine ⟨⟨by omega, ?_⟩, h⟩
        intro z hz
        have := h.1 z hz
        omega

/-- An insertion of a block that is disjoint from the others keeps them separated. -/
theorem Separated.insert {x : ℕ × ℕ} (hxpos : 0 < x.2) :
    ∀ {l : List (ℕ × ℕ)}, Separated l → (∀ y ∈ l, 0 < y.2) → (∀ y ∈ l, Disjoint y x) →
      Separated (insert x l)
  | [], _, _, _ => by simp [Blocks.insert, Separated]
  | y :: l, h, hpos, hdisjoint => by
      have hcons := h
      simp only [Separated, List.pairwise_cons] at hcons
      have hypos := hpos y List.mem_cons_self
      have hy := hdisjoint y List.mem_cons_self
      have hpos' (z : ℕ × ℕ) (hz : z ∈ l) : 0 < z.2 := hpos z (List.mem_cons_of_mem y hz)
      have hdisjoint' (z : ℕ × ℕ) (hz : z ∈ l) : Disjoint z x :=
        hdisjoint z (List.mem_cons_of_mem y hz)
      simp only [Disjoint] at hy hdisjoint'
      rw [Blocks.insert]
      split
      · rename_i hadjacent
        apply Separated.mergeNext hcons.2 hpos'
        intro z hz
        have := hcons.1 z hz
        have := hpos' z hz
        rcases hdisjoint' z hz with hlt | hlt <;> dsimp only <;> omega
      · split
        · apply Separated.mergeNext h hpos
          intro z hz
          rcases List.mem_cons.mp hz with rfl | hz
          · omega
          · have := hcons.1 z hz
            omega
        · have hlt : y.1 + y.2 < x.1 := by omega
          simp only [Separated, List.pairwise_cons]
          refine ⟨?_, Separated.insert hxpos hcons.2 hpos' hdisjoint'⟩
          apply lt_of_mem_insert hlt hcons.1

/-- The blocks of a list that a block is inserted into keep their least length. -/
theorem le_of_mem_insert {x : ℕ × ℕ} {n : ℕ} (hx : n ≤ x.2) :
    ∀ {l : List (ℕ × ℕ)}, (∀ y ∈ l, n ≤ y.2) → ∀ y ∈ insert x l, n ≤ y.2
  | [], _ => by simpa [insert] using hx
  | y :: l, hl => by
      simp only [List.mem_cons, forall_eq_or_imp] at hl
      have hmerge {z : ℕ × ℕ} {l : List (ℕ × ℕ)} (hz : n ≤ z.2) (hl : ∀ y ∈ l, n ≤ y.2) :
          ∀ y ∈ mergeNext z l, n ≤ y.2 := by
        cases l with
        | nil => simpa [mergeNext] using hz
        | cons w l =>
            simp only [List.mem_cons, forall_eq_or_imp] at hl
            rw [mergeNext]
            split
            · simp only [List.mem_cons, forall_eq_or_imp]
              exact ⟨by omega, hl.2⟩
            · simp only [List.mem_cons, forall_eq_or_imp]
              exact ⟨hz, hl.1, hl.2⟩
      rw [insert]
      split
      · apply hmerge (by dsimp only; omega) hl.2
      · split
        · apply hmerge hx
          simpa using hl
        · simp only [List.mem_cons, forall_eq_or_imp]
          exact ⟨hl.1, le_of_mem_insert hx hl.2⟩

/-- The blocks of a list that a block is inserted into end no later. -/
theorem end_lt_of_mem_insert {c : ℕ} :
    ∀ {x : ℕ × ℕ} {l : List (ℕ × ℕ)}, x.1 + x.2 < c → (∀ y ∈ l, y.1 + y.2 < c) →
      ∀ y ∈ insert x l, y.1 + y.2 < c
  | x, [], hx, _ => by simpa [insert] using hx
  | x, y :: l, hx, hl => by
      simp only [List.mem_cons, forall_eq_or_imp] at hl
      have hmerge {z : ℕ × ℕ} {l : List (ℕ × ℕ)} (hz : z.1 + z.2 < c)
          (hl : ∀ y ∈ l, y.1 + y.2 < c) : ∀ y ∈ mergeNext z l, y.1 + y.2 < c := by
        cases l with
        | nil => simpa [mergeNext] using hz
        | cons w l =>
            simp only [List.mem_cons, forall_eq_or_imp] at hl
            rw [mergeNext]
            split
            · simp only [List.mem_cons, forall_eq_or_imp]
              exact ⟨by omega, hl.2⟩
            · simp only [List.mem_cons, forall_eq_or_imp]
              exact ⟨hz, hl.1, hl.2⟩
      rw [insert]
      split
      · apply hmerge (by dsimp only; omega) hl.2
      · split
        · apply hmerge hx
          simpa using hl
        · simp only [List.mem_cons, forall_eq_or_imp]
          exact ⟨hl.1, end_lt_of_mem_insert hx hl.2⟩

end Blocks
