import Mathlib.Data.List.Perm.Basic
import Mathlib.Data.List.Nodup
import Mathlib.Data.List.Pairwise
import Mathlib.Logic.Function.Basic

/-!
# Shares

Things are held by holders, each of which has a list of them.  When the list of one holder
changes, the things held by all of them change by the same things.
-/

namespace Shares

variable {H α : Type*} [DecidableEq H] {holders : List H} {L : H → List α} {h : H}

/-- The lists of the other holders stay. -/
theorem flatMap_update_of_notMem {l : List α} (hh : h ∉ holders) :
  holders.flatMap (Function.update L h l) = holders.flatMap L
  := by
  apply List.flatMap_congr
  intro x hx
  apply Function.update_of_ne
  rintro rfl
  apply hh hx

/-- The things held without those of one holder. -/
theorem exists_perm_append (hnodup : holders.Nodup) (hh : h ∈ holders) :
  ∃ rest, ∀ l, (holders.flatMap (Function.update L h l)).Perm (l ++ rest)
  := by
  obtain ⟨a, b, rfl⟩ := List.append_of_mem hh
  rw [List.nodup_append', List.nodup_cons, List.disjoint_cons_right] at hnodup
  obtain ⟨-, ⟨hb, -⟩, ha, -⟩ := hnodup
  use a.flatMap L ++ b.flatMap L
  intro l
  rw [List.flatMap_append, List.flatMap_cons, Function.update_self,
    flatMap_update_of_notMem ha, flatMap_update_of_notMem hb]
  apply List.perm_append_comm_assoc

/-- A thing that is given to a holder is held then. -/
theorem perm_give (hnodup : holders.Nodup) (hh : h ∈ holders) (x : α) :
  (holders.flatMap (Function.update L h (x :: L h))).Perm (x :: holders.flatMap L)
  := by
  obtain ⟨rest, hrest⟩ := exists_perm_append (L := L) hnodup hh
  apply (hrest _).trans
  have hold := hrest (L h)
  rw [Function.update_eq_self] at hold
  apply (hold.symm.cons x)

/-- A thing that is taken from a holder is not held any more. -/
theorem perm_take (hnodup : holders.Nodup) (hh : h ∈ holders) {a b : List α} {x : α}
    (hx : L h = a ++ x :: b) :
  (x :: holders.flatMap (Function.update L h (a ++ b))).Perm (holders.flatMap L)
  := by
  obtain ⟨rest, hrest⟩ := exists_perm_append (L := L) hnodup hh
  have hold := hrest (L h)
  rw [Function.update_eq_self, hx] at hold
  apply ((hrest _).cons x).trans
  rw [← List.cons_append]
  apply (List.perm_middle.symm.append_right rest).trans hold.symm

/-- The things held are those of some of the holders when the others hold nothing. -/
theorem perm_of_subset (hnodup : holders.Nodup) {part : List H} (hpart : part.Nodup)
    (hsub : part ⊆ holders) (hnone : ∀ h ∈ holders, h ∉ part → L h = []) :
  (holders.flatMap L).Perm (part.flatMap L)
  := by
  have hsplit : holders.Perm (part ++ holders.filter (· ∉ part)) := by
    rw [List.perm_ext_iff_of_nodup hnodup]
    · intro h
      simp only [List.mem_append, List.mem_filter, decide_eq_true_eq]
      have := hsub (a := h)
      tauto
    · rw [List.nodup_append']
      refine ⟨hpart, hnodup.filter _, ?_⟩
      intro h hh hrest
      exact of_decide_eq_true (List.mem_filter.mp hrest).2 hh
  have hrest : (holders.filter (· ∉ part)).flatMap L = [] := by
    rw [List.flatMap_eq_nil_iff]
    intro h hh
    obtain ⟨hmem, hnot⟩ := List.mem_filter.mp hh
    apply hnone h hmem (of_decide_eq_true hnot)
  apply (hsplit.flatMap_right L).trans
  rw [List.flatMap_append, hrest, List.append_nil]

/-- Of the things held each once, one is held by one holder. -/
theorem holder_unique (hnodup : (holders.flatMap L).Nodup) {h' : H} {x : α}
    (hh : h ∈ holders) (hh' : h' ∈ holders) (hx : x ∈ L h) (hx' : x ∈ L h') :
  h = h'
  := by
  by_contra hne
  rw [List.nodup_flatMap] at hnodup
  have hsymm : Std.Symm (Function.onFun List.Disjoint L) := ⟨fun _ _ hd => List.disjoint_comm.mp hd⟩
  apply hnodup.2.forall hh hh' hne hx hx'

end Shares
