import Mathlib.Data.Finset.Card
import Mathlib.Logic.Relation
import Mathlib.Tactic.Common

/-!
# Marking of a graph

A node that is visited is marked, and then its successors are visited in order; a visit to a
node with a mark does nothing.  In a finite graph a visit ends, and the visits to some roots mark
the nodes that can be reached from them.
-/

namespace Marking

variable {α : Type*} [DecidableEq α]

/-- A node is visited, when the fuel lasts: the set of the nodes with a mark. -/
def visit (succ : α → List α) : ℕ → α → Finset α → Option (Finset α)
  | 0, _, _ => none
  | fuel + 1, x, S =>
      if x ∈ S then some S
      else (succ x).foldlM (fun S y => visit succ fuel y S) (insert x S)

/-- Some nodes are visited in order. -/
def visitAll (succ : α → List α) (fuel : ℕ) (l : List α) (S : Finset α) : Option (Finset α) :=
  l.foldlM (fun S y => visit succ fuel y S) S

/-- A path leads from one node to another. -/
def Reach (succ : α → List α) : α → α → Prop :=
  Relation.ReflTransGen fun x y => y ∈ succ x

variable {succ : α → List α} {fuel : ℕ} {x y : α} {l : List α} {S S' U : Finset α}

theorem visit_succ :
  visit succ (fuel + 1) x S = if x ∈ S then some S else visitAll succ fuel (succ x) (insert x S)
  := rfl

@[simp]
theorem visitAll_nil : visitAll succ fuel [] S = some S := rfl

theorem visitAll_cons :
  visitAll succ fuel (x :: l) S = (visit succ fuel x S).bind (visitAll succ fuel l)
  := rfl

theorem visitAll_append {l' : List α} :
  visitAll succ fuel (l ++ l') S = (visitAll succ fuel l S).bind (visitAll succ fuel l')
  := List.foldlM_append

/-- What the visits to the nodes of `l` add to the marks: the nodes of `l`, and what they lead to,
with their successors. -/
structure Visited (succ : α → List α) (U : Finset α) (l : List α) (S S' : Finset α) : Prop where
  mono : S ⊆ S'
  sub : S' ⊆ U
  mem : ∀ x ∈ l, x ∈ S'
  reach : ∀ y ∈ S', y ∉ S → ∃ x ∈ l, Reach succ x y
  closed : ∀ y ∈ S', y ∉ S → ∀ z ∈ succ y, z ∈ S'

/-- The nodes without a mark become fewer. -/
private theorem card_lt (hx : x ∈ U) (hS : x ∉ S) : (U \ insert x S).card < (U \ S).card := by
  apply Finset.card_lt_card
  rw [Finset.ssubset_iff_of_subset]
  · exact ⟨x, by simp [hx, hS], by simp⟩
  · intro y
    simp only [Finset.mem_sdiff, Finset.mem_insert, not_or]
    exact fun hy => ⟨hy.1, hy.2.2⟩

/-- The visits to some nodes end when every one of them does. -/
private theorem visitAll_visited (hfuel : ∀ x ∈ U, ∀ S ⊆ U, (U \ S).card < fuel →
      ∃ S', visit succ fuel x S = some S' ∧ Visited succ U [x] S S') :
    ∀ {l : List α} {S : Finset α}, (∀ x ∈ l, x ∈ U) → S ⊆ U → (U \ S).card < fuel →
      ∃ S', visitAll succ fuel l S = some S' ∧ Visited succ U l S S'
  | [], S, _, hS, _ => ⟨S, rfl, Finset.Subset.refl S, hS, by simp, by grind, by grind⟩
  | x :: l, S, hl, hS, hcard => by
      obtain ⟨S₁, heq₁, hv₁⟩ := hfuel x (hl x List.mem_cons_self) S hS hcard
      have hle : (U \ S₁).card ≤ (U \ S).card :=
        Finset.card_le_card (Finset.sdiff_subset_sdiff (Finset.Subset.refl U) hv₁.mono)
      obtain ⟨S₂, heq₂, hv₂⟩ := visitAll_visited hfuel
        (fun y hy => hl y (List.mem_cons_of_mem x hy)) hv₁.sub (hle.trans_lt hcard)
      refine ⟨S₂, by rw [visitAll_cons, heq₁]; exact heq₂, hv₁.mono.trans hv₂.mono, hv₂.sub,
        ?_, ?_, ?_⟩
      · intro y hy
        rcases List.mem_cons.mp hy with rfl | hy
        · exact hv₂.mono (hv₁.mem y (by simp))
        · exact hv₂.mem y hy
      · intro y hy hyS
        by_cases hy₁ : y ∈ S₁
        · obtain ⟨z, hz, hzy⟩ := hv₁.reach y hy₁ hyS
          obtain rfl := List.mem_singleton.mp hz
          exact ⟨z, List.mem_cons_self, hzy⟩
        · obtain ⟨z, hz, hzy⟩ := hv₂.reach y hy hy₁
          exact ⟨z, List.mem_cons_of_mem x hz, hzy⟩
      · intro y hy hyS z hz
        by_cases hy₁ : y ∈ S₁
        · exact hv₂.mono (hv₁.closed y hy₁ hyS z hz)
        · exact hv₂.closed y hy hy₁ z hz

/-- A visit ends when there is fuel for every node without a mark. -/
theorem visit_visited (hU : ∀ x ∈ U, ∀ y ∈ succ x, y ∈ U) :
    ∀ (fuel : ℕ) {x : α} {S : Finset α}, x ∈ U → S ⊆ U → (U \ S).card < fuel →
      ∃ S', visit succ fuel x S = some S' ∧ Visited succ U [x] S S'
  | 0, _, _, _, _, hfuel => absurd hfuel (Nat.not_lt_zero _)
  | fuel + 1, x, S, hx, hS, hfuel => by
      rw [visit_succ]
      by_cases hxS : x ∈ S
      · rw [if_pos hxS]
        exact ⟨S, rfl, Finset.Subset.refl S, hS, by simpa using hxS, by grind, by grind⟩
      · rw [if_neg hxS]
        have hcard := card_lt hx hxS
        obtain ⟨S', heq, hv⟩ := visitAll_visited
          (fun x hx S hS hcard => visit_visited hU fuel hx hS hcard)
          (hU x hx) (Finset.insert_subset hx hS) (by omega)
        refine ⟨S', heq, (Finset.subset_insert x S).trans hv.mono, hv.sub, ?_, ?_, ?_⟩
        · simpa using hv.mono (Finset.mem_insert_self x S)
        · intro y hy hyS
          use x, by simp
          by_cases hyx : y = x
          · rw [hyx]
            exact Relation.ReflTransGen.refl
          · obtain ⟨z, hz, hzy⟩ := hv.reach y hy (by simp [hyx, hyS])
            exact Relation.ReflTransGen.head hz hzy
        · intro y hy hyS z hz
          by_cases hyx : y = x
          · rw [hyx] at hz
            exact hv.mem z hz
          · exact hv.closed y hy (by simp [hyx, hyS]) z hz

/-- The visits to the roots mark what can be reached from them, when nothing has a mark before. -/
theorem visitAll_roots (hU : ∀ x ∈ U, ∀ y ∈ succ x, y ∈ U) (hl : ∀ x ∈ l, x ∈ U)
    (hfuel : U.card < fuel) :
  ∃ S', visitAll succ fuel l ∅ = some S' ∧ S' ⊆ U ∧ ∀ y, y ∈ S' ↔ ∃ x ∈ l, Reach succ x y
  := by
  obtain ⟨S', heq, hv⟩ := visitAll_visited
    (fun x hx S hS hcard => visit_visited hU fuel hx hS hcard) hl
    (Finset.empty_subset U) (by simpa using hfuel)
  refine ⟨S', heq, hv.sub, fun y => ⟨fun hy => hv.reach y hy (by simp), ?_⟩⟩
  rintro ⟨x, hx, hxy⟩
  induction hxy with
  | refl => exact hv.mem x hx
  | tail _ hyz ih => exact hv.closed _ ih (by simp) _ hyz

end Marking
