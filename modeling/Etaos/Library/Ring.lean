import Etaos.Library.Chain

/-!
# Doubly linked rings

A ring is a circular list that goes through its head: following `next` from the head `h`
meets the nodes of `l` in order and then `h` again, and following `prev` meets them in the
opposite order.  A node is linked in between two neighbours by four writes, and unlinked by
two.
-/

namespace Ring

variable {α : Type*}

/-- Following `next` from the head `h` meets the nodes of `l`, and then `h` again. -/
def Cycle (next : α → Option α) (h : α) (l : List α) : Prop :=
  Chain.Segment next (some h) (h :: l) (some h)

/-- The ring of the head `h` has the nodes of `l`. -/
structure IsRing (next prev : α → Option α) (h : α) (l : List α) : Prop where
  nodup : (h :: l).Nodup
  next : Cycle next h l
  prev : Cycle prev h l.reverse

/-- The first node of a part of a ring, or the head behind it. -/
def first (h : α) (l : List α) : α :=
  l.head?.getD h

/-- The last node of a part of a ring, or the head in front of it. -/
def last (h : α) (l : List α) : α :=
  l.getLast?.getD h

/-- The first element behind the head. -/
@[simp]
theorem first_cons (h a : α) (l : List α) : first h (a :: l) = a := rfl

@[simp]
theorem first_nil (h : α) : first h [] = h := rfl

@[simp]
theorem last_nil (h : α) : last h [] = h := rfl

/-- The last element before the head. -/
@[simp]
theorem last_append_singleton (h a : α) (l : List α) : last h (l ++ [a]) = a := by
  simp [last]

/-- The ends change places when the list is reversed. -/
theorem first_reverse (h : α) (l : List α) : first h l.reverse = last h l := by
  rw [first, last, List.head?_reverse]

theorem getLast?_cons_eq_last (h : α) (l : List α) : (h :: l).getLast? = some (last h l) := by
  rw [last, List.getLast?_cons]

variable {next prev : α → Option α} {h x : α} {a b l : List α}

/-- A segment that ends at the head begins with its first node, or with the head. -/
theorem segment_first {p : Option α} (hs : Chain.Segment next p l (some h)) :
  p = some (first h l)
  := by
  cases l with
  | nil => exact hs
  | cons x l => exact hs.1

/-- The head is followed by the first element. -/
theorem Cycle.head (hc : Cycle next h l) : next h = some (first h l) :=
  segment_first hc.2

/-- An element is followed by the next one, and the last one by the head. -/
theorem Cycle.middle (hc : Cycle next h (a ++ x :: b)) : next x = some (first h b) := by
  rw [Cycle, ← List.cons_append, Chain.segment_middle] at hc
  apply segment_first hc.2

/-- The ring read in the opposite direction. -/
theorem IsRing.symm (hr : IsRing next prev h l) : IsRing prev next h l.reverse where
  nodup := by simpa using hr.nodup
  next := hr.prev
  prev := by simpa using hr.next

/-- The link of the head. -/
theorem IsRing.next_head (hr : IsRing next prev h l) : next h = some (first h l) :=
  hr.next.head

/-- The link of an element. -/
theorem IsRing.next_node (hr : IsRing next prev h (a ++ x :: b)) : next x = some (first h b) :=
  hr.next.middle

/-- The link back from an element. -/
theorem IsRing.prev_node (hr : IsRing next prev h (a ++ x :: b)) : prev x = some (last h a) := by
  have hprev := hr.prev
  rw [List.reverse_append, List.reverse_cons, List.append_assoc, List.singleton_append] at hprev
  rw [hprev.middle, first_reverse]

/-- The node behind the last node of `a` is the first node of `b`. -/
theorem IsRing.next_last (hr : IsRing next prev h (a ++ b)) :
  next (last h a) = some (first h b)
  := by
  rcases List.eq_nil_or_concat a with rfl | ⟨a, x, rfl⟩
  · exact hr.next_head
  · rw [List.concat_eq_append] at hr ⊢
    rw [List.append_assoc, List.singleton_append] at hr
    rw [last_append_singleton]
    exact hr.next_node

theorem IsRing.prev_first (hr : IsRing next prev h (a ++ b)) :
  prev (first h b) = some (last h a)
  := by
  have hsymm := hr.symm
  rw [List.reverse_append] at hsymm
  have hnext := hsymm.next_last
  rwa [first_reverse, ← first_reverse h b.reverse, List.reverse_reverse] at hnext

/-- A walk is at the head when no node is left. -/
theorem first_eq_head_iff (hh : h ∉ b) : first h b = h ↔ b = [] := by
  cases b with
  | nil => simp
  | cons x l =>
      rw [List.mem_cons, not_or] at hh
      simpa using Ne.symm hh.1

/-- The head is no element. -/
theorem IsRing.head_not_mem (hr : IsRing next prev h l) : h ∉ l :=
  (List.nodup_cons.mp hr.nodup).1

/-- A ring has one list of nodes only. -/
theorem IsRing.unique {prev' : α → Option α} (ha : IsRing next prev h a)
    (hb : IsRing next prev' h b) :
  a = b
  := by
  have hne {l : List α} (hl : h ∉ l) : ∀ x ∈ l, some h ≠ some x := by
    rintro x hx heq
    exact hl (Option.some.inj heq ▸ hx)
  apply Chain.segment_unique (hne ha.head_not_mem) (hne hb.head_not_mem) ha.next.2 hb.next.2

/-- A ring depends on the fields of its own nodes only. -/
theorem IsRing.congr {next' prev' : α → Option α} (hr : IsRing next prev h l)
    (hnext : ∀ x ∈ h :: l, next' x = next x) (hprev : ∀ x ∈ h :: l, prev' x = prev x) :
  IsRing next' prev' h l
  := by
  refine ⟨hr.nodup, Chain.segment_congr hnext hr.next, Chain.segment_congr ?_ hr.prev⟩
  intro x hx
  apply hprev x
  simpa using hx

/-- The nodes in front of a place of a ring are not behind it. -/
theorem nodup_split (hn : (h :: (a ++ b)).Nodup) :
  (h :: a).Nodup ∧ ∀ x ∈ h :: a, x ∉ b
  := by
  rw [← List.cons_append, List.nodup_append'] at hn
  use hn.1
  intro x hx hxb
  apply hn.2.2 hx hxb

theorem last_mem (h : α) (l : List α) : last h l ∈ h :: l := by
  apply List.mem_of_getLast? (getLast?_cons_eq_last h l)

theorem first_mem (h : α) (l : List α) : first h l ∈ h :: l := by
  cases l with
  | nil => exact List.mem_cons_self
  | cons x l => exact List.mem_cons_of_mem h List.mem_cons_self

variable [DecidableEq α]

/-- A node is linked in behind the nodes of `a`. -/
theorem Cycle.link (hn : (h :: (a ++ b)).Nodup) (hx : x ∉ h :: (a ++ b))
    (hc : Cycle next h (a ++ b)) :
  Cycle (Function.update (Function.update next x (some (first h b))) (last h a) (some x)) h
    (a ++ x :: b)
  := by
  obtain ⟨ha, hdisjoint⟩ := nodup_split hn
  rw [Cycle, ← List.cons_append, Chain.segment_append] at hc
  obtain ⟨r, hfront, hback⟩ := hc
  obtain rfl := segment_first hback
  rw [← List.cons_append, List.mem_append, not_or] at hx
  have hlink := Chain.segment_link ha hdisjoint hx.1 hx.2 hfront hback
  rw [getLast?_cons_eq_last] at hlink
  have hne : last h a ≠ x := by
    rintro rfl
    apply hx.1 (last_mem h a)
  rw [Function.update_comm hne.symm]
  exact hlink

/-- The node `x` is unlinked. -/
theorem Cycle.unlink (hn : (h :: (a ++ x :: b)).Nodup) (hc : Cycle next h (a ++ x :: b)) :
  Cycle (Function.update next (last h a) (some (first h b))) h (a ++ b)
  := by
  obtain ⟨ha, hdisjoint⟩ := nodup_split hn
  rw [Cycle, ← List.cons_append, Chain.segment_append] at hc
  obtain ⟨r, hfront, rfl, hback⟩ := hc
  have hdisjoint' (y : α) (hy : y ∈ h :: a) : y ∉ b := by
    intro hyb
    apply hdisjoint y hy (List.mem_cons_of_mem x hyb)
  have hjoin := Chain.segment_splice_append ha hdisjoint' hfront hback
  rw [getLast?_cons_eq_last, segment_first hback] at hjoin
  exact hjoin

/-- A node is linked in between the nodes of `a` and those of `b`. -/
theorem IsRing.link (hr : IsRing next prev h (a ++ b)) (hx : x ∉ h :: (a ++ b)) :
  IsRing (Function.update (Function.update next x (some (first h b))) (last h a) (some x))
    (Function.update (Function.update prev (first h b) (some x)) x (some (last h a))) h
    (a ++ x :: b)
  := by
  constructor
  · rw [← List.cons_append, List.nodup_middle, List.cons_append, List.nodup_cons]
    exact ⟨hx, hr.nodup⟩
  · apply hr.next.link hr.nodup hx
  · have hsymm := hr.symm
    rw [List.reverse_append] at hsymm
    have hx' : x ∉ h :: (b.reverse ++ a.reverse) := by
      simpa [and_comm] using hx
    have hlink := hsymm.next.link hsymm.nodup hx'
    have hne : first h b ≠ x := by
      rintro rfl
      have := first_mem h b
      simp only [List.mem_cons, List.mem_append, not_or] at hx this
      tauto
    rw [first_reverse, ← first_reverse h b.reverse, List.reverse_reverse,
      Function.update_comm hne.symm] at hlink
    rw [List.reverse_append, List.reverse_cons, List.append_assoc, List.singleton_append]
    exact hlink

/-- The node `x` is unlinked from its neighbours. -/
theorem IsRing.unlink (hr : IsRing next prev h (a ++ x :: b)) :
  IsRing (Function.update next (last h a) (some (first h b)))
    (Function.update prev (first h b) (some (last h a))) h (a ++ b)
  := by
  constructor
  · apply List.Nodup.sublist _ hr.nodup
    exact ((List.sublist_cons_self x b).append_left a).cons_cons h
  · apply hr.next.unlink hr.nodup
  · have hsymm := hr.symm
    rw [List.reverse_append, List.reverse_cons, List.append_assoc,
      List.singleton_append] at hsymm
    have hunlink := hsymm.next.unlink hsymm.nodup
    rw [first_reverse, ← first_reverse h b.reverse, List.reverse_reverse] at hunlink
    rw [List.reverse_append]
    exact hunlink

end Ring
