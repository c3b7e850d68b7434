import Etaos.Library.Chain

/-!
# Doubly linked lists that end

Following `next` from the head meets the nodes of a list in order and ends, and following `prev`
from the last node meets them in the opposite order and ends.  A node is linked in between two
parts of the list, or unlinked, by writes to the fields of its neighbours or to the head.
-/

namespace DoubleChain

open Chain

variable {α : Type*}

/-- The list with the head `p` has the nodes of `l`. -/
structure IsList (next prev : α → Option α) (p : Option α) (l : List α) : Prop where
  nodup : l.Nodup
  next : IsChain next p l
  prev : ∃ tail, IsChain prev tail l.reverse

variable {next prev next' prev' : α → Option α} {p p' : Option α} {a b l : List α} {x : α}

theorem isList_nil : IsList next prev none [] :=
  ⟨List.nodup_nil, rfl, none, rfl⟩

/-- The field of a node after a write into a place is determined by the field before it. -/
theorem splice_congr [DecidableEq α] {place v : Option α} (h : next' x = next x) :
  (splice next' p' place v).2 x = (splice next p place v).2 x
  := by
  cases place with
  | none => exact h
  | some y =>
      simp only [splice, Function.update_apply, h]

namespace IsList

theorem head_eq (h : IsList next prev p l) : p = l.head? :=
  h.next.head?_eq.symm

theorem congr (h : IsList next prev p l) (hnext : ∀ x ∈ l, next' x = next x)
    (hprev : ∀ x ∈ l, prev' x = prev x) :
  IsList next' prev' p l
  := by
  obtain ⟨tail, htail⟩ := h.prev
  use h.nodup, segment_congr hnext h.next, tail
  apply segment_congr _ htail
  intro x hx
  apply hprev x (List.mem_reverse.mp hx)

/-- The node behind a node. -/
theorem next_middle (h : IsList next prev p (a ++ x :: b)) : next x = b.head? := by
  have hnext : IsChain next (next x) b := (segment_middle.mp h.next).2
  exact hnext.head?_eq.symm

/-- The node before a node. -/
theorem prev_middle (h : IsList next prev p (a ++ x :: b)) : prev x = a.getLast? := by
  obtain ⟨tail, htail⟩ := h.prev
  rw [List.reverse_append, List.reverse_cons, List.append_assoc, List.singleton_append] at htail
  have hprev : IsChain prev (prev x) a.reverse := (segment_middle.mp htail).2
  rw [← hprev.head?_eq, List.head?_reverse]

/-- A part of the list is a list again when its neighbours are taken off. -/
private theorem parts (h : IsList next prev p (a ++ b)) :
  (∃ q, Segment next p a q ∧ IsChain next q b) ∧
    ∃ tail q, Segment prev tail b.reverse q ∧ IsChain prev q a.reverse
  := by
  constructor
  · exact segment_append.mp h.next
  · obtain ⟨tail, htail⟩ := h.prev
    rw [List.reverse_append] at htail
    use tail
    exact segment_append.mp htail

variable [DecidableEq α]

/-- A node that is linked in between two parts of the list: the fields of the node, of the last
node in front of it and of the first node behind it are written, or the head. -/
theorem insert (h : IsList next prev p (a ++ b)) (hx : x ∉ a ++ b)
    (hnext : ∀ y ∈ a ++ x :: b,
      next' y = Function.update (splice next p a.getLast? (some x)).2 x b.head? y)
    (hprev : ∀ y ∈ a ++ x :: b,
      prev' y = Function.update (splice prev none b.head? (some x)).2 x a.getLast? y)
    (hhead : p' = (splice next p a.getLast? (some x)).1) :
  IsList next' prev' p' (a ++ x :: b)
  := by
  obtain ⟨hxa, hxb⟩ := not_or.mp fun hmem => hx (List.mem_append.mpr hmem)
  obtain ⟨ha, hb, hab⟩ := List.nodup_append'.mp h.nodup
  obtain ⟨⟨q, hfront, hback⟩, tail, r, hbackPrev, hfrontPrev⟩ := h.parts
  constructor
  · rw [List.nodup_middle, List.nodup_cons]
    exact ⟨hx, h.nodup⟩
  · rw [hhead]
    apply segment_congr hnext
    apply isChain_link ha (fun y hy hy' => hab hy hy') hxa hxb hfront
    rwa [hback.head?_eq]
  · use (splice prev tail b.reverse.getLast? (some x)).1
    have hlast : b.reverse.getLast? = b.head? := List.getLast?_reverse
    have hlink : IsChain (Function.update (splice prev tail b.reverse.getLast? (some x)).2 x r)
        (splice prev tail b.reverse.getLast? (some x)).1 (b.reverse ++ x :: a.reverse) := by
      apply isChain_link (List.nodup_reverse.mpr hb) _ (by simpa using hxb) (by simpa using hxa)
        hbackPrev hfrontPrev
      intro y hy hy'
      apply hab (List.mem_reverse.mp hy') (List.mem_reverse.mp hy)
    have hreverse : (a ++ x :: b).reverse = b.reverse ++ x :: a.reverse := by simp
    rw [hreverse]
    apply segment_congr _ hlink
    intro y hy
    rw [hprev y (by rwa [← List.mem_reverse, hreverse]), hlast, ← hfrontPrev.head?_eq,
      List.head?_reverse]
    by_cases hyx : y = x
    · rw [hyx, Function.update_self, Function.update_self]
    · rw [Function.update_of_ne hyx, Function.update_of_ne hyx]
      apply splice_congr rfl

/-- A node that is unlinked: its neighbours are linked to one another. -/
theorem remove (h : IsList next prev p (a ++ x :: b))
    (hnext : ∀ y ∈ a ++ b, next' y = (splice next p a.getLast? b.head?).2 y)
    (hprev : ∀ y ∈ a ++ b, prev' y = (splice prev none b.head? a.getLast?).2 y)
    (hhead : p' = (splice next p a.getLast? b.head?).1) :
  IsList next' prev' p' (a ++ b)
  := by
  have hnodup : (a ++ b).Nodup := (List.nodup_cons.mp (List.nodup_middle.mp h.nodup)).2
  obtain ⟨ha, hb, hab⟩ := List.nodup_append'.mp hnodup
  obtain ⟨⟨q, hfront, -, hback⟩, tail, r, hbackPrev, hfrontPrev⟩ := h.parts
  rw [List.reverse_cons, segment_append] at hbackPrev
  obtain ⟨s, hbackPrev, rfl, hr⟩ := hbackPrev
  obtain rfl : prev x = r := hr
  constructor
  · exact hnodup
  · rw [hhead]
    apply segment_congr hnext
    apply isChain_splice ha (fun y hy hy' => hab hy hy') hfront
    rwa [IsChain.head?_eq hback]
  · use (splice prev tail b.reverse.getLast? (prev x)).1
    have hlast : b.reverse.getLast? = b.head? := List.getLast?_reverse
    have hlink : IsChain (splice prev tail b.reverse.getLast? (prev x)).2
        (splice prev tail b.reverse.getLast? (prev x)).1 (b.reverse ++ a.reverse) := by
      apply isChain_splice (List.nodup_reverse.mpr hb) _ hbackPrev hfrontPrev
      intro y hy hy'
      apply hab (List.mem_reverse.mp hy') (List.mem_reverse.mp hy)
    rw [List.reverse_append]
    apply segment_congr _ hlink
    intro y hy
    rw [hprev y (by rwa [← List.mem_reverse, List.reverse_append]), hlast, h.prev_middle]
    apply splice_congr rfl

end IsList

end DoubleChain
