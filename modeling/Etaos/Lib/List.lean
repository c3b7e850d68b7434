import Etaos.Library.Ring
import Etaos.Library.Shares

/-!
# Linked lists

The doubly linked lists of `list.h`.  A list is the ring of a list head that is not an entry
itself.  A pointer to a list head is `none` when it is `NULL`; a function that follows such a
pointer has no result.
-/

set_option linter.style.nameCheck false
set_option linter.unusedSectionVars false

namespace Etaos.Lib

/-- The fields of `struct list_head` at the addresses `A`. -/
structure ListHeads (A : Type) where
  next : A → Option A
  prev : A → Option A

namespace ListHeads

variable {A : Type} [DecidableEq A]

/-- The function `list_head_init`. -/
def listHeadInit (k : ListHeads A) (list : A) : ListHeads A where
  next := Function.update k.next list (some list)
  prev := Function.update k.prev list (some list)

/-- The function `__list_add`. -/
def __listAdd (k : ListHeads A) (lnew prev next : A) : ListHeads A where
  next := Function.update (Function.update k.next lnew (some next)) prev (some lnew)
  prev := Function.update (Function.update k.prev next (some lnew)) lnew (some prev)

/-- The function `__list_del`. -/
def __listDel (k : ListHeads A) (prev next : A) : ListHeads A where
  next := Function.update k.next prev (some next)
  prev := Function.update k.prev next (some prev)

/-- The function `list_del`. -/
def listDel (k : ListHeads A) (entry : A) : Option (ListHeads A) := do
  let prev ← k.prev entry
  let next ← k.next entry
  let k := k.__listDel prev next
  some { next := Function.update k.next entry none, prev := Function.update k.prev entry none }

/-- The function `list_empty`. -/
def listEmpty (k : ListHeads A) (head : A) : Bool :=
  k.next head = some head

/-- The function `list_is_last`. -/
def listIsLast (k : ListHeads A) (list head : A) : Bool :=
  k.next list = some head

/-- The macro `list_add`. -/
def listAdd (k : ListHeads A) (n h : A) : Option (ListHeads A) := do
  let next ← k.next h
  some (k.__listAdd n h next)

/-- The macro `list_add_tail`. -/
def listAddTail (k : ListHeads A) (n h : A) : Option (ListHeads A) := do
  let prev ← k.prev h
  some (k.__listAdd n prev h)

/-! ### Lists -/

/-- The entries of the list with the head `h` are `l`. -/
abbrev IsList (k : ListHeads A) (h : A) (l : List A) : Prop :=
  Ring.IsRing k.next k.prev h l

/-- Only the fields of the entries of `l` differ. -/
def SameOff (k k' : ListHeads A) (l : List A) : Prop :=
  ∀ x, x ∉ l → k'.next x = k.next x ∧ k'.prev x = k.prev x

variable {k k' : ListHeads A} {h x : A} {a b l l' : List A}

/-- A list none of whose entries differ stays as it is. -/
theorem IsList.congr (hl : k.IsList h l) (hsame : k.SameOff k' l')
    (hdisjoint : ∀ x ∈ h :: l, x ∉ l') :
  k'.IsList h l
  := by
  apply Ring.IsRing.congr hl
  · intro x hx
    apply (hsame x (hdisjoint x hx)).1
  · intro x hx
    apply (hsame x (hdisjoint x hx)).2

/-- An initialized list is empty. -/
theorem isList_listHeadInit (k : ListHeads A) (h : A) : (k.listHeadInit h).IsList h [] := by
  constructor
  · simp
  · exact ⟨rfl, Function.update_self ..⟩
  · exact ⟨rfl, Function.update_self ..⟩

theorem sameOff_listHeadInit (k : ListHeads A) (h : A) :
  k.SameOff (k.listHeadInit h) [h]
  := by
  intro y hy
  rw [List.mem_singleton] at hy
  exact ⟨Function.update_of_ne hy .., Function.update_of_ne hy ..⟩

theorem IsList.listEmpty_iff (hl : k.IsList h l) : k.listEmpty h ↔ l = [] := by
  rw [listEmpty, decide_eq_true_eq, hl.next_head, Option.some_inj,
    Ring.first_eq_head_iff hl.head_not_mem]

theorem IsList.listIsLast_iff (hl : k.IsList h (a ++ x :: b)) : k.listIsLast x h ↔ b = [] := by
  have hh : h ∉ b := by
    intro hb
    apply hl.head_not_mem
    simp [hb]
  rw [listIsLast, decide_eq_true_eq, hl.next_node, Option.some_inj, Ring.first_eq_head_iff hh]

/-- An entry is linked in between the entries of `a` and those of `b`. -/
theorem IsList.link (hl : k.IsList h (a ++ b)) (hx : x ∉ h :: (a ++ b)) :
  (k.__listAdd x (Ring.last h a) (Ring.first h b)).IsList h (a ++ x :: b) ∧
    k.SameOff (k.__listAdd x (Ring.last h a) (Ring.first h b)) (x :: h :: (a ++ b))
  := by
  use Ring.IsRing.link hl hx
  intro y hy
  have hlast := Ring.last_mem h a
  have hfirst := Ring.first_mem h b
  simp only [List.mem_cons, List.mem_append, not_or] at hy hlast hfirst
  have hyx : y ≠ x := hy.1
  have hyl : y ≠ Ring.last h a := by
    rintro rfl
    tauto
  have hyf : y ≠ Ring.first h b := by
    rintro rfl
    tauto
  simp only [__listAdd]
  rw [Function.update_of_ne hyl, Function.update_of_ne hyx, Function.update_of_ne hyx,
    Function.update_of_ne hyf]
  exact ⟨rfl, rfl⟩

/-- An entry is added behind the last entry of `a`. -/
theorem IsList.listAdd (hl : k.IsList h (a ++ b)) (hx : x ∉ h :: (a ++ b)) :
  ∃ k', k.listAdd x (Ring.last h a) = some k' ∧ k'.IsList h (a ++ x :: b) ∧
    k.SameOff k' (x :: h :: (a ++ b))
  := by
  refine ⟨_, ?_, hl.link hx⟩
  rw [ListHeads.listAdd, hl.next_last]
  rfl

/-- An entry is added in front of the first entry of `b`. -/
theorem IsList.listAddTail (hl : k.IsList h (a ++ b)) (hx : x ∉ h :: (a ++ b)) :
  ∃ k', k.listAddTail x (Ring.first h b) = some k' ∧ k'.IsList h (a ++ x :: b) ∧
    k.SameOff k' (x :: h :: (a ++ b))
  := by
  refine ⟨_, ?_, hl.link hx⟩
  rw [ListHeads.listAddTail, hl.prev_first]
  rfl

/-- An entry is deleted. -/
theorem IsList.listDel (hl : k.IsList h (a ++ x :: b)) :
  ∃ k', k.listDel x = some k' ∧ k'.IsList h (a ++ b) ∧ k.SameOff k' (h :: (a ++ x :: b))
  := by
  have hx : x ∉ h :: (a ++ b) := by
    have hnodup := hl.nodup
    rw [← List.cons_append, List.nodup_middle, List.nodup_cons] at hnodup
    exact hnodup.1
  have hdel : k.listDel x = some
      { next := Function.update (k.__listDel (Ring.last h a) (Ring.first h b)).next x none
        prev := Function.update (k.__listDel (Ring.last h a) (Ring.first h b)).prev x none } := by
    rw [ListHeads.listDel, hl.next_node, hl.prev_node]
    rfl
  refine ⟨_, hdel, ?_, ?_⟩
  · apply Ring.IsRing.congr (Ring.IsRing.unlink hl)
    · intro y hy
      apply Function.update_of_ne
      rintro rfl
      apply hx hy
    · intro y hy
      apply Function.update_of_ne
      rintro rfl
      apply hx hy
  · intro y hy
    have hlast := Ring.last_mem h a
    have hfirst := Ring.first_mem h b
    simp only [List.mem_cons, List.mem_append, not_or] at hy hlast hfirst
    have hyx : y ≠ x := hy.2.2.1
    have hyl : y ≠ Ring.last h a := by
      rintro rfl
      tauto
    have hyf : y ≠ Ring.first h b := by
      rintro rfl
      tauto
    simp only [__listDel]
    rw [Function.update_of_ne hyx, Function.update_of_ne hyl, Function.update_of_ne hyx,
      Function.update_of_ne hyf]
    exact ⟨rfl, rfl⟩

/-! ### Families of lists -/

/-- The lists with the heads `heads` have the entries `L`, and share no node. -/
structure IsLists (k : ListHeads A) (heads : List A) (L : A → List A) : Prop where
  isList : ∀ h ∈ heads, k.IsList h (L h)
  nodup : (heads ++ heads.flatMap L).Nodup

namespace IsLists

variable {heads : List A} {L : A → List A}

theorem heads_nodup (hk : k.IsLists heads L) : heads.Nodup :=
  (List.nodup_append'.mp hk.nodup).1

/-- The nodes of one list are not on another one. -/
theorem disjoint (hk : k.IsLists heads L) {h' : A} (hh : h ∈ heads) (hh' : h' ∈ heads)
    (hne : h' ≠ h) (hx : x ∈ h' :: L h') :
  x ∉ h :: L h
  := by
  have hnodup := hk.nodup
  rw [List.nodup_append'] at hnodup
  obtain ⟨-, hentries, hdisjoint⟩ := hnodup
  intro hmem
  rcases List.mem_cons.mp hx with rfl | hx
  · rcases List.mem_cons.mp hmem with rfl | hmem
    · exact hne rfl
    · apply hdisjoint hh' (List.mem_flatMap.mpr ⟨h, hh, hmem⟩)
  · rcases List.mem_cons.mp hmem with rfl | hmem
    · apply hdisjoint hh (List.mem_flatMap.mpr ⟨h', hh', hx⟩)
    · apply hne
      apply Shares.holder_unique hentries hh' hh hx hmem

/-- The lists after a change of one of them, which touches no other node but the entry `x`. -/
theorem update (hk : k.IsLists heads L) (hh : h ∈ heads) (hl : k'.IsList h l)
    (hsame : k.SameOff k' l') (hl' : ∀ y ∈ l', y ∈ h :: L h ∨ y ∉ heads ++ heads.flatMap L)
    (hnodup : (heads ++ heads.flatMap (Function.update L h l)).Nodup) :
  k'.IsLists heads (Function.update L h l)
  := by
  refine ⟨?_, hnodup⟩
  intro h' hh'
  by_cases hne : h' = h
  · rw [hne, Function.update_self]
    apply hl
  · rw [Function.update_of_ne hne]
    apply (hk.isList h' hh').congr hsame
    intro y hy hyl
    rcases hl' y hyl with hyh | hyn
    · apply hk.disjoint hh hh' hne hy hyh
    · apply hyn
      rcases List.mem_cons.mp hy with rfl | hy
      · apply List.mem_append_left _ hh'
      · apply List.mem_append_right
        apply List.mem_flatMap.mpr ⟨h', hh', hy⟩

/-- An entry that is on no list is added to one. -/
theorem listAdd (hk : k.IsLists heads L) (hh : h ∈ heads)
    (hx : x ∉ heads ++ heads.flatMap L) :
  ∃ k', k.listAdd x h = some k' ∧ k'.IsLists heads (Function.update L h (x :: L h))
  := by
  have hperm := Shares.perm_give (L := L) hk.heads_nodup hh x
  have hxh : x ∉ h :: L h := by
    intro hmem
    apply hx
    rcases List.mem_cons.mp hmem with rfl | hmem
    · apply List.mem_append_left _ hh
    · apply List.mem_append_right
      apply List.mem_flatMap.mpr ⟨h, hh, hmem⟩
  obtain ⟨k', hk', hlist, hsame⟩ := ListHeads.IsList.listAdd (a := []) (hk.isList h hh) hxh
  refine ⟨k', hk', hk.update hh hlist hsame ?_ ?_⟩
  · intro y hy
    rcases List.mem_cons.mp hy with rfl | hy
    · exact .inr hx
    · exact .inl hy
  · rw [(hperm.append_left heads).nodup_iff, List.nodup_middle]
    apply List.nodup_cons.mpr ⟨hx, hk.nodup⟩

/-- An entry is deleted from its list, and is on no list then. -/
theorem listDel (hk : k.IsLists heads L) (hh : h ∈ heads) (hx : L h = a ++ x :: b) :
  ∃ k', k.listDel x = some k' ∧ k'.IsLists heads (Function.update L h (a ++ b)) ∧
    x ∉ heads ++ heads.flatMap (Function.update L h (a ++ b))
  := by
  have hperm := Shares.perm_take hk.heads_nodup hh hx
  have hlist := hk.isList h hh
  rw [hx] at hlist
  obtain ⟨k', hk', hlist', hsame⟩ := hlist.listDel
  have hnodup := hk.nodup
  rw [← (hperm.append_left heads).nodup_iff, List.nodup_middle, List.nodup_cons] at hnodup
  refine ⟨k', hk', hk.update hh hlist' hsame ?_ hnodup.2, hnodup.1⟩
  intro y hy
  rw [hx]
  exact .inl hy

/-- The list of a new head is empty. -/
theorem listHeadInit (hk : k.IsLists heads L) (hh : h ∉ heads ++ heads.flatMap L) :
  (k.listHeadInit h).IsLists (h :: heads) (Function.update L h [])
  := by
  have hnot : h ∉ heads := fun hmem => hh (List.mem_append_left _ hmem)
  constructor
  · intro h' hh'
    by_cases hne : h' = h
    · rw [hne, Function.update_self]
      apply isList_listHeadInit
    · have hmem : h' ∈ heads := List.mem_of_ne_of_mem hne hh'
      rw [Function.update_of_ne hne]
      apply (hk.isList h' hmem).congr (sameOff_listHeadInit k h)
      intro y hy hyh
      rw [List.mem_singleton] at hyh
      subst hyh
      apply hh
      rcases List.mem_cons.mp hy with rfl | hy
      · exact absurd rfl hne
      · apply List.mem_append_right
        apply List.mem_flatMap.mpr ⟨h', hmem, hy⟩
  · rw [List.flatMap_cons, Function.update_self, List.nil_append,
      Shares.flatMap_update_of_notMem hnot, List.cons_append, List.nodup_cons]
    exact ⟨hh, hk.nodup⟩

/-- An empty list that is set up again stays empty. -/
theorem listHeadInit_again (hk : k.IsLists heads L) (hh : h ∈ heads) (hempty : L h = []) :
  (k.listHeadInit h).IsLists heads L
  := by
  have hL : Function.update L h [] = L := by
    rw [← hempty, Function.update_eq_self]
  have hupdate := hk.update hh (isList_listHeadInit k h) (sameOff_listHeadInit k h) (by simp)
  rw [hL] at hupdate
  apply hupdate hk.nodup

end IsLists

end ListHeads

end Etaos.Lib
