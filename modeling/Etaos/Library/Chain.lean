import Mathlib.Data.List.Nodup
import Mathlib.Data.List.Basic
import Mathlib.Logic.Function.Basic

/-!
# Singly linked lists in a heap

A heap of nodes `α` gives every node the node after it, `next : α → Option α`.
`Segment next p l q` says that following `next` from `p` meets the nodes of `l` in order
and ends at `q`; a `Chain` is a segment that ends at `none`.

A place in a list is named by the node before it, or by `none` for the head: writing `v`
into the place after the nodes of `a` changes the `next` field of the last node of `a`, or
the head when `a` is empty.  `splice` is that write.
-/

namespace Chain

variable {α : Type*}

/-- Following `next` from `p` meets exactly the nodes of `l`, in order, and then `q`. -/
def Segment (next : α → Option α) : Option α → List α → Option α → Prop
  | p, [], q => p = q
  | p, a :: l, q => p = some a ∧ Segment next (next a) l q

/-- Following `next` from `p` meets exactly the nodes of `l`, in order, and ends. -/
def IsChain (next : α → Option α) (p : Option α) (l : List α) : Prop :=
  Segment next p l none

@[simp]
theorem segment_nil {next : α → Option α} {p q : Option α} :
  Segment next p [] q ↔ p = q
  := Iff.rfl

@[simp]
theorem segment_cons {next : α → Option α} {p q : Option α} {a : α} {l : List α} :
  Segment next p (a :: l) q ↔ p = some a ∧ Segment next (next a) l q
  := Iff.rfl

theorem segment_append {next : α → Option α} {q : Option α} :
    ∀ {p : Option α} {l₁ l₂ : List α},
      Segment next p (l₁ ++ l₂) q ↔ ∃ r, Segment next p l₁ r ∧ Segment next r l₂ q
  | p, [], l₂ => by simp
  | p, a :: l₁, l₂ => by
      rw [List.cons_append, segment_cons, segment_append]
      constructor
      · rintro ⟨hp, r, h₁, h₂⟩
        use r, ⟨hp, h₁⟩
      · rintro ⟨r, ⟨hp, h₁⟩, h₂⟩
        use hp, r

/-- A segment that stops at the first time it meets its end has one list of nodes only. -/
theorem segment_unique {next : α → Option α} {q : Option α} :
    ∀ {p : Option α} {l l' : List α}, (∀ a ∈ l, q ≠ some a) → (∀ a ∈ l', q ≠ some a) →
      Segment next p l q → Segment next p l' q → l = l'
  | _, [], [], _, _, _, _ => rfl
  | _, [], a :: _, _, hl', h, h' => absurd (h.symm.trans h'.1) (hl' a List.mem_cons_self)
  | _, a :: _, [], hl, _, h, h' => absurd (h'.symm.trans h.1) (hl a List.mem_cons_self)
  | _, a :: l, b :: l', hl, hl', h, h' => by
      obtain rfl := Option.some.inj (h.1.symm.trans h'.1)
      rw [List.forall_mem_cons] at hl hl'
      rw [segment_unique hl.2 hl'.2 h.2 h'.2]

/-- A segment through `a` first meets `a` through some node pointing to it, and goes on
from the node after `a`. -/
theorem segment_middle {next : α → Option α} {p q : Option α} {l₁ l₂ : List α} {a : α} :
  Segment next p (l₁ ++ a :: l₂) q
    ↔ Segment next p l₁ (some a) ∧ Segment next (next a) l₂ q
  := by
  rw [segment_append]
  constructor
  · rintro ⟨r, h₁, rfl, h₂⟩
    use h₁
  · rintro ⟨h₁, h₂⟩
    use some a, h₁, rfl

/-- The nodes met before the end of the list are determined by the heap. -/
theorem IsChain.unique {next : α → Option α} :
    ∀ {p : Option α} {l l' : List α}, IsChain next p l → IsChain next p l' → l = l'
  | p, [], [], _, _ => rfl
  | p, [], b :: l', h, h' => by
      obtain rfl : p = none := h
      cases h'.1
  | p, a :: l, [], h, h' => by
      obtain rfl : p = none := h'
      cases h.1
  | p, a :: l, b :: l', h, h' => by
      obtain ⟨rfl, h⟩ := h
      obtain ⟨hab, h'⟩ := h'
      obtain rfl := Option.some.inj hab
      rw [IsChain.unique h h']

/-- A chain does not meet a node twice, as it would not end. -/
theorem IsChain.nodup {next : α → Option α} :
    ∀ {p : Option α} {l : List α}, IsChain next p l → l.Nodup
  | _, [], _ => List.nodup_nil
  | _, a :: l, h => by
      rw [List.nodup_cons]
      refine ⟨?_, IsChain.nodup h.2⟩
      intro hmem
      obtain ⟨s, t, rfl⟩ := List.append_of_mem hmem
      have heq := IsChain.unique h.2 (segment_middle.mp h.2).2
      have := congrArg List.length heq
      simp at this
      omega

theorem IsChain.nil_iff {next : α → Option α} {l : List α} :
  IsChain next none l ↔ l = []
  := by
  cases l with
  | nil => simp [IsChain]
  | cons a l => simp [IsChain]

theorem IsChain.head?_eq {next : α → Option α} {p : Option α} {l : List α}
    (h : IsChain next p l) :
  l.head? = p
  := by
  cases l with
  | nil => simpa [IsChain, eq_comm] using h
  | cons a l => simp [h.1]

/-- A segment depends on the `next` fields of its own nodes only. -/
theorem segment_congr {next next' : α → Option α} {q : Option α} :
    ∀ {p : Option α} {l : List α}, (∀ a ∈ l, next' a = next a) → Segment next p l q →
      Segment next' p l q
  | p, [], _, h => h
  | p, a :: l, hsame, h => by
      rw [List.forall_mem_cons] at hsame
      rw [segment_cons, hsame.1]
      exact ⟨h.1, segment_congr hsame.2 h.2⟩

variable [DecidableEq α]

/-- Changing the `next` field of a node outside a segment does not change the segment. -/
theorem segment_update {next : α → Option α} {a : α} {v : Option α} {q : Option α} :
    ∀ {p : Option α} {l : List α}, a ∉ l →
      (Segment (Function.update next a v) p l q ↔ Segment next p l q)
  | p, [], _ => Iff.rfl
  | p, b :: l, h => by
      rw [List.mem_cons, not_or] at h
      rw [segment_cons, segment_cons, Function.update_of_ne (Ne.symm h.1),
        segment_update h.2]

/-- The head and the `next` fields after writing `v` into the place after the node
`place`, or into the head when there is no such node. -/
def splice (next : α → Option α) (p : Option α) (place v : Option α) :
    Option α × (α → Option α) :=
  match place with
  | none => (v, next)
  | some a => (p, Function.update next a v)

/-- Writing `v` into the place after a segment makes the segment end at `v`. -/
theorem segment_splice {next : α → Option α} {p q v : Option α} {l : List α}
    (hnodup : l.Nodup) (h : Segment next p l q) :
  Segment (splice next p l.getLast? v).2 (splice next p l.getLast? v).1 l v
  := by
  rcases List.eq_nil_or_concat l with rfl | ⟨l, a, rfl⟩
  · rfl
  · rw [List.concat_eq_append] at hnodup h ⊢
    have ha : a ∉ l := by
      rw [List.nodup_append] at hnodup
      intro hal
      apply hnodup.2.2 a hal a (List.mem_singleton_self a) rfl
    rw [List.getLast?_append_of_ne_nil l (List.cons_ne_nil a []), List.getLast?_singleton]
    rw [segment_middle] at h ⊢
    use (segment_update ha).mpr h.1
    apply Function.update_self

/-- Writing into a place of one list leaves a segment of other nodes as it is. -/
theorem segment_splice_of_disjoint {next : α → Option α} {p p' q v : Option α}
    {l l' : List α} (hdisjoint : ∀ a ∈ l, a ∉ l') :
  Segment (splice next p l.getLast? v).2 p' l' q ↔ Segment next p' l' q
  := by
  cases hl : l.getLast? with
  | none => rfl
  | some a => apply segment_update (hdisjoint a (List.mem_of_getLast? hl))

/-- Writing `v` into the place after a segment joins it to the segment from `v`. -/
theorem segment_splice_append {next : α → Option α} {p q v w : Option α} {l l' : List α}
    (hnodup : l.Nodup) (hdisjoint : ∀ a ∈ l, a ∉ l') (h : Segment next p l q)
    (h' : Segment next v l' w) :
  Segment (splice next p l.getLast? v).2 (splice next p l.getLast? v).1 (l ++ l') w
  := by
  rw [segment_append]
  use v, segment_splice hnodup h
  apply (segment_splice_of_disjoint hdisjoint).mpr h'

theorem isChain_splice {next : α → Option α} {p q v : Option α} {l l' : List α}
    (hnodup : l.Nodup) (hdisjoint : ∀ a ∈ l, a ∉ l') (h : Segment next p l q)
    (h' : IsChain next v l') :
  IsChain (splice next p l.getLast? v).2 (splice next p l.getLast? v).1 (l ++ l')
  := segment_splice_append hnodup hdisjoint h h'

/-- The node `a` of a segment is followed by the segment from `v`. -/
theorem segment_relink {next : α → Option α} {p v w : Option α} {l l' : List α} {a : α}
    (ha : a ∉ l) (ha' : a ∉ l') (h : Segment next p l (some a)) (h' : Segment next v l' w) :
  Segment (Function.update next a v) p (l ++ a :: l') w
  := by
  rw [segment_middle, Function.update_self]
  use (segment_update ha).mpr h
  apply (segment_update ha').mpr h'

theorem isChain_relink {next : α → Option α} {p v : Option α} {l l' : List α} {a : α}
    (ha : a ∉ l) (ha' : a ∉ l') (h : Segment next p l (some a)) (h' : IsChain next v l') :
  IsChain (Function.update next a v) p (l ++ a :: l')
  := segment_relink ha ha' h h'

/-- The node `a` is linked in behind a segment and before the segment from `v`. -/
theorem segment_link {next : α → Option α} {p q v w : Option α} {l l' : List α} {a : α}
    (hnodup : l.Nodup) (hdisjoint : ∀ b ∈ l, b ∉ l') (ha : a ∉ l) (ha' : a ∉ l')
    (h : Segment next p l q) (h' : Segment next v l' w) :
  Segment (Function.update (splice next p l.getLast? (some a)).2 a v)
    (splice next p l.getLast? (some a)).1 (l ++ a :: l') w
  := by
  apply segment_relink ha ha' (segment_splice hnodup h)
  apply (segment_splice_of_disjoint hdisjoint).mpr h'

theorem isChain_link {next : α → Option α} {p q v : Option α} {l l' : List α} {a : α}
    (hnodup : l.Nodup) (hdisjoint : ∀ b ∈ l, b ∉ l') (ha : a ∉ l) (ha' : a ∉ l')
    (h : Segment next p l q) (h' : IsChain next v l') :
  IsChain (Function.update (splice next p l.getLast? (some a)).2 a v)
    (splice next p l.getLast? (some a)).1 (l ++ a :: l')
  := segment_link hnodup hdisjoint ha ha' h h'

theorem splice_apply_of_ne {next : α → Option α} {p place v : Option α} {a : α}
    (ha : place ≠ some a) :
  (splice next p place v).2 a = next a
  := by
  cases place with
  | none => rfl
  | some b =>
      apply Function.update_of_ne
      rintro rfl
      apply ha rfl

/-- A write into a place does not touch the `next` field of another node. -/
theorem splice_update {next : α → Option α} {p place v w : Option α} {a : α}
    (ha : place ≠ some a) :
  splice (Function.update next a w) p place v
    = ((splice next p place v).1, Function.update (splice next p place v).2 a w)
  := by
  cases place with
  | none => rfl
  | some b =>
      have hb : b ≠ a := fun e => ha (e ▸ rfl)
      simp only [splice, Function.update_comm hb]

end Chain
