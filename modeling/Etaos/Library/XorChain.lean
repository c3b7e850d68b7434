import Mathlib.Data.List.Nodup
import Mathlib.Data.List.Basic
import Mathlib.Logic.Function.Basic

/-!
# Lists linked by the exclusive or of neighbours

A node of such a list has one link, the exclusive or of the addresses of its two neighbours.
`Segment ptr p l q` says that the links of the nodes of `l` are those of a list in which `p` comes
before `l` and `q` behind it; a `Chain` is a segment with the address zero at both ends.
-/

namespace XorChain

variable {w : ℕ}

/-- The first address of a part of a list, or the address `q` behind it. -/
def first (l : List (BitVec w)) (q : BitVec w) : BitVec w :=
  l.head?.getD q

/-- The last address of a part of a list, or the address `p` in front of it. -/
def last (p : BitVec w) (l : List (BitVec w)) : BitVec w :=
  l.getLast?.getD p

/-- The links of the nodes of `l`, between `p` and `q`. -/
def Segment (ptr : BitVec w → BitVec w) : BitVec w → List (BitVec w) → BitVec w → Prop
  | _, [], _ => True
  | p, a :: l, q => ptr a = p ^^^ first l q ∧ Segment ptr a l q

/-- The links of a whole list. -/
structure Chain (ptr : BitVec w → BitVec w) (l : List (BitVec w)) : Prop where
  nodup : l.Nodup
  ne_zero : 0 ∉ l
  segment : Segment ptr 0 l 0

section

variable (p q a : BitVec w) (l l' : List (BitVec w))

@[simp] theorem first_nil : first [] q = q := rfl

@[simp] theorem first_cons : first (a :: l) q = a := rfl

@[simp] theorem last_nil : last p [] = p := rfl

theorem last_cons : last p (a :: l) = last a l := by
  simp [last, List.getLast?_cons]

@[simp] theorem last_concat : last p (l ++ [a]) = a := by
  simp [last]

theorem first_append : first (l ++ l') q = first l (first l' q) := by
  cases l <;> rfl

theorem first_reverse : first l.reverse q = last q l := by
  rw [first, last, List.head?_reverse]

theorem last_reverse : last p l.reverse = first l p := by
  rw [first, last, List.getLast?_reverse]

end

variable {ptr : BitVec w → BitVec w} {p q a x v : BitVec w} {l l' : List (BitVec w)}

theorem segment_append :
    ∀ {p : BitVec w} {l : List (BitVec w)},
      Segment ptr p (l ++ l') q ↔ Segment ptr p l (first l' q) ∧ Segment ptr (last p l) l' q
  | p, [] => by simp [Segment]
  | p, a :: l => by
      rw [List.cons_append, Segment, Segment, segment_append, first_append, last_cons, and_assoc]

/-- The link of a node in the middle of a segment. -/
theorem segment_middle :
  Segment ptr p (l ++ a :: l') q ↔
    Segment ptr p l a ∧ ptr a = last p l ^^^ first l' q ∧ Segment ptr a l' q
  := by
  rw [segment_append, first_cons, Segment]

/-- A segment read from right to left. -/
theorem Segment.reverse : ∀ {p : BitVec w} {l : List (BitVec w)}, Segment ptr p l q →
    Segment ptr q l.reverse p
  | p, [], _ => trivial
  | p, a :: l, h => by
      rw [List.reverse_cons, segment_append, Segment, last_reverse, first_nil, first_cons]
      exact ⟨h.2.reverse, by rw [h.1, BitVec.xor_comm], trivial⟩

/-- A segment depends on the links of its own nodes only. -/
theorem segment_congr {ptr' : BitVec w → BitVec w} :
    ∀ {p : BitVec w} {l : List (BitVec w)}, (∀ a ∈ l, ptr' a = ptr a) → Segment ptr p l q →
      Segment ptr' p l q
  | p, [], _, _ => trivial
  | p, a :: l, hsame, h => by
      rw [List.forall_mem_cons] at hsame
      exact ⟨hsame.1.trans h.1, segment_congr hsame.2 h.2⟩

theorem segment_update (hx : x ∉ l) (h : Segment ptr p l q) :
  Segment (Function.update ptr x v) p l q
  := by
  apply segment_congr _ h
  intro a ha
  apply Function.update_of_ne
  rintro rfl
  apply hx ha

/-- The address behind a segment changes, with the link of its last node. -/
theorem segment_relink_last {q' : BitVec w} (ha : a ∉ l) (h : Segment ptr p (l ++ [a]) q) :
  Segment (Function.update ptr a (last p l ^^^ q')) p (l ++ [a]) q'
  := by
  rw [segment_append] at h ⊢
  use segment_update ha h.1
  rw [Segment, Function.update_self]
  use rfl
  trivial

/-- The address in front of a segment changes, with the link of its first node. -/
theorem segment_relink_first {p' : BitVec w} (ha : a ∉ l) (h : Segment ptr p (a :: l) q) :
  Segment (Function.update ptr a (p' ^^^ first l q)) p' (a :: l) q
  := by
  rw [Segment, Function.update_self]
  use rfl
  apply segment_update ha h.2

/-- A neighbour is found from the link and the other neighbour. -/
theorem xor_cancel (a b : BitVec w) : a ^^^ (a ^^^ b) = b := by
  rw [← BitVec.xor_assoc, BitVec.xor_self, BitVec.zero_xor]

/-- The neighbours of a node are equal when the next address is found from the wrong one. -/
theorem eq_of_xor_eq {a b c : BitVec w} (h : c = a ^^^ (b ^^^ c)) : a = b := by
  have hxor : a ^^^ c = b ^^^ c := by
    calc a ^^^ c = a ^^^ (a ^^^ (b ^^^ c)) := congrArg (a ^^^ ·) h
      _ = b ^^^ c := xor_cancel a (b ^^^ c)
  apply (BitVec.xor_left_inj c).mp hxor

end XorChain
