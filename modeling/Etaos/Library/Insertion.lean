import Mathlib.Data.List.Nodup
import Mathlib.Data.List.TakeWhile
import Mathlib.Data.Prod.Lex
import Mathlib.Order.Lattice

/-!
# Insertion into lists sorted by a key

A walk over a list stops at the first element that it does not keep, and the new element goes
there.  When the list is sorted by a key and the test fits the key, the list stays sorted and
the first element that passes a test has the smallest key.
-/

namespace Insertion

variable {α β : Type*}

/-- The list with `t` behind the elements that are kept. -/
def insertBehind (keep : α → Bool) (t : α) (l : List α) : List α :=
  l.takeWhile keep ++ t :: l.dropWhile keep

section insertBehind

variable {keep : α → Bool} {t : α} {l : List α}

theorem perm_insertBehind : (insertBehind keep t l).Perm (t :: l) := by
  rw [insertBehind]
  apply List.perm_middle.trans
  rw [List.takeWhile_append_dropWhile]

theorem mem_insertBehind {x : α} : x ∈ insertBehind keep t l ↔ x = t ∨ x ∈ l := by
  rw [perm_insertBehind.mem_iff, List.mem_cons]

theorem length_insertBehind : (insertBehind keep t l).length = l.length + 1 :=
  perm_insertBehind.length_eq

/-- The elements that were there before keep their order. -/
theorem sublist_insertBehind : l.Sublist (insertBehind keep t l) := by
  have h : (l.takeWhile keep ++ l.dropWhile keep).Sublist (insertBehind keep t l) :=
    (List.Sublist.refl _).append (List.sublist_cons_self _ _)
  rwa [List.takeWhile_append_dropWhile] at h

/-- The walk depends on the elements of the list only. -/
theorem insertBehind_congr {keep' : α → Bool} (h : ∀ x ∈ l, keep' x = keep x) :
  insertBehind keep' t l = insertBehind keep t l
  := by
  have hwalk : l.takeWhile keep' = l.takeWhile keep ∧ l.dropWhile keep' = l.dropWhile keep := by
    induction l with
    | nil => simp
    | cons a l ih =>
        have ha : keep' a = keep a := h a List.mem_cons_self
        obtain ⟨htake, hdrop⟩ := ih fun x hx => h x (List.mem_cons_of_mem a hx)
        rw [List.takeWhile_cons, List.takeWhile_cons, List.dropWhile_cons, List.dropWhile_cons,
          ha, htake, hdrop]
        exact ⟨rfl, rfl⟩
  rw [insertBehind, insertBehind, hwalk.1, hwalk.2]

/-- The elements that the walk passes over come before the new one. -/
theorem before_insertBehind {x : α} (hx : x ∈ l.takeWhile keep) :
  [x, t].Sublist (insertBehind keep t l)
  := by
  have hxs : [x].Sublist (l.takeWhile keep) := List.singleton_sublist.mpr hx
  have ht : [t].Sublist (t :: l.dropWhile keep) := by simp
  apply hxs.append ht

end insertBehind

/-- The removal of another element leaves the order of some elements alone. -/
theorem sublist_erase [DecidableEq α] {l l' : List α} {t : α} (h : l'.Sublist l) (ht : t ∉ l') :
  l'.Sublist (l.erase t)
  := by
  rw [← List.erase_of_not_mem ht]
  apply h.erase

/-- An element that follows the elements of one part and precedes those of the other goes in
between. -/
theorem pairwise_middle {r : α → α → Prop} {a b : List α} {t : α} (h : (a ++ b).Pairwise r)
    (ha : ∀ x ∈ a, r x t) (hb : ∀ y ∈ b, r t y) :
  (a ++ t :: b).Pairwise r
  := by
  rw [List.pairwise_append] at h
  rw [List.pairwise_append, List.pairwise_cons]
  refine ⟨h.1, ⟨hb, h.2.1⟩, ?_⟩
  intro x hx y hy
  rcases List.mem_cons.mp hy with rfl | hy
  · apply ha x hx
  · apply h.2.2 x hx y hy

variable [LinearOrder β]

/-- The keys of the elements do not decrease along the list. -/
def SortedBy (key : α → β) (l : List α) : Prop :=
  l.Pairwise fun a b => key a ≤ key b

instance (key : α → β) (l : List α) : Decidable (SortedBy key l) :=
  inferInstanceAs (Decidable (l.Pairwise _))

namespace SortedBy

variable {key key' : α → β} {l : List α} {t : α}

theorem nil : SortedBy key [] := List.Pairwise.nil

theorem congr (h : SortedBy key l) (hkey : ∀ x ∈ l, key' x = key x) : SortedBy key' l := by
  apply List.Pairwise.imp_of_mem _ h
  intro a b ha hb hab
  rwa [hkey a ha, hkey b hb]

theorem sublist {l' : List α} (h : SortedBy key l) (hl : l'.Sublist l) : SortedBy key l' :=
  List.Pairwise.sublist hl h

/-- The element behind the walk bounds the keys of all the elements that follow. -/
theorem le_of_mem_dropWhile {keep : α → Bool} {v : β} :
    ∀ {l : List α}, SortedBy key l → (∀ x ∈ l, keep x = false → v ≤ key x) →
      ∀ x ∈ l.dropWhile keep, v ≤ key x
  | [], _, _, _, hx => by cases hx
  | a :: l, h, hv, x, hx => by
      rw [SortedBy, List.pairwise_cons] at h
      cases ha : keep a with
      | true =>
          rw [List.dropWhile_cons_of_pos ha] at hx
          have hv' : ∀ y ∈ l, keep y = false → v ≤ key y := by
            intro y hy
            apply hv y (List.mem_cons_of_mem a hy)
          apply le_of_mem_dropWhile h.2 hv' x hx
      | false =>
          rw [List.dropWhile_cons_of_neg (by simp [ha])] at hx
          have hva : v ≤ key a := hv a List.mem_cons_self ha
          rcases List.mem_cons.mp hx with rfl | hx
          · apply hva
          · apply hva.trans (h.1 x hx)

/-- An insertion behind the elements of smaller keys, with those of the same key on either
side, keeps the list sorted. -/
theorem insertBehind {keep : α → Bool} (h : SortedBy key l)
    (hkeep : ∀ x ∈ l, keep x = true → key x ≤ key t)
    (hdrop : ∀ x ∈ l, keep x = false → key t ≤ key x) :
  SortedBy key (insertBehind keep t l)
  := by
  have hafter : ∀ x ∈ l.dropWhile keep, key t ≤ key x := h.le_of_mem_dropWhile hdrop
  have hbefore : ∀ x ∈ l.takeWhile keep, key x ≤ key t := by
    intro x hx
    apply hkeep x ((List.takeWhile_prefix keep).subset hx) (List.mem_takeWhile_imp hx)
  rw [SortedBy, Insertion.insertBehind, List.pairwise_append, List.pairwise_cons]
  refine ⟨h.sublist (List.takeWhile_prefix keep).sublist,
    ⟨hafter, h.sublist (List.dropWhile_suffix keep).sublist⟩, ?_⟩
  intro x hx y hy
  rcases List.mem_cons.mp hy with rfl | hy
  · apply hbefore x hx
  · apply (hbefore x hx).trans (hafter y hy)

/-- A walk that keeps the elements with keys up to that of `x` passes over `x`. -/
theorem mem_takeWhile {keep : α → Bool} {x : α} :
    ∀ {l : List α}, SortedBy key l → x ∈ l → (∀ y ∈ l, key y ≤ key x → keep y = true) →
      x ∈ l.takeWhile keep
  | a :: l, h, hx, hkeep => by
      rw [SortedBy, List.pairwise_cons] at h
      have hax : key a ≤ key x := by
        rcases List.mem_cons.mp hx with rfl | hx
        · apply le_refl
        · apply h.1 x hx
      rw [List.takeWhile_cons_of_pos (hkeep a List.mem_cons_self hax)]
      rcases List.mem_cons.mp hx with rfl | hx
      · apply List.mem_cons_self
      · apply List.mem_cons_of_mem
        apply mem_takeWhile h.2 hx
        intro y hy
        apply hkeep y (List.mem_cons_of_mem a hy)

/-- The first element that passes a test has the smallest key among those that do. -/
theorem le_of_find? {p : α → Bool} {a : α} :
    ∀ {l : List α}, SortedBy key l → l.find? p = some a → ∀ b ∈ l, p b = true → key a ≤ key b
  | c :: l, h, ha, b, hb, hpb => by
      rw [SortedBy, List.pairwise_cons] at h
      cases hc : p c with
      | true =>
          rw [List.find?_cons_of_pos hc] at ha
          obtain rfl := Option.some.inj ha
          rcases List.mem_cons.mp hb with rfl | hb
          · apply le_refl
          · apply h.1 b hb
      | false =>
          rw [List.find?_cons_of_neg (by simp [hc])] at ha
          rcases List.mem_cons.mp hb with rfl | hb
          · simp [hpb] at hc
          · apply le_of_find? h.2 ha b hb hpb

end SortedBy

variable {γ : Type*} [LinearOrder γ]

/-- The elements are sorted by a key, and those with the same key by their arrival. -/
def StableBy (key : α → β) (arrival : α → γ) (l : List α) : Prop :=
  SortedBy (fun x => toLex (key x, arrival x)) l

namespace StableBy

variable {key : α → β} {arrival : α → γ} {l : List α} {t : α}

theorem sublist {l' : List α} (h : StableBy key arrival l) (hl : l'.Sublist l) :
  StableBy key arrival l'
  := SortedBy.sublist h hl

/-- The latest element goes behind the elements with a key up to its own. -/
theorem insertBehind {keep : α → Bool} (h : StableBy key arrival l)
    (hkeep : ∀ x ∈ l, keep x = true ↔ key x ≤ key t) (hlast : ∀ x ∈ l, arrival x < arrival t) :
  StableBy key arrival (insertBehind keep t l)
  := by
  apply SortedBy.insertBehind h
  · intro x hx hkept
    rw [Prod.Lex.toLex_le_toLex]
    rcases ((hkeep x hx).mp hkept).lt_or_eq with hlt | heq
    · exact .inl hlt
    · exact .inr ⟨heq, (hlast x hx).le⟩
  · intro x hx hkept
    rw [Prod.Lex.toLex_le_toLex]
    left
    rw [← not_le, ← hkeep x hx, hkept]
    exact Bool.false_ne_true

end StableBy

end Insertion
