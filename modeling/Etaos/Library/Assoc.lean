import Mathlib.Data.List.Basic
import Mathlib.Data.Option.Basic

/-!
# Association lists up to an equivalence

An association list is a list of keys with their values.  Keys are compared by a function with
values in `Bool`, and the value of a key is the one of the first entry whose key is the same.  When
the comparison is an equivalence the lookups see a finite map, whatever the order of the entries.
-/

namespace Assoc

variable {κ β : Type*} {same : κ → κ → Bool} {k k' : κ} {v : β} {e : κ × β} {l l' : List (κ × β)}

/-- The value of a key. -/
def lookup (same : κ → κ → Bool) (k : κ) : List (κ × β) → Option β
  | [] => none
  | e :: l => if same k e.1 then some e.2 else lookup same k l

/-- The first entry with a key gets a value. -/
def replace (same : κ → κ → Bool) (k : κ) (v : β) : List (κ × β) → List (κ × β)
  | [] => []
  | e :: l => if same k e.1 then (e.1, v) :: l else e :: replace same k v l

/-- A key gets a value: a new key comes first. -/
def store (same : κ → κ → Bool) (k : κ) (v : β) (l : List (κ × β)) : List (κ × β) :=
  if (lookup same k l).isSome then replace same k v l else (k, v) :: l

/-- The first entry with a key is removed. -/
def delete (same : κ → κ → Bool) (k : κ) : List (κ × β) → List (κ × β)
  | [] => []
  | e :: l => if same k e.1 then l else e :: delete same k l

/-- The entries of a list get in. -/
def union (same : κ → κ → Bool) (l l' : List (κ × β)) : List (κ × β) :=
  l'.foldl (fun l e => store same e.1 e.2 l) l

/-- No two keys are the same. -/
def Distinct (same : κ → κ → Bool) (l : List (κ × β)) : Prop :=
  l.Pairwise fun e e' => same e.1 e'.1 = false

/-! ### The index of a key -/

/-- The lookup goes by the index of the key. -/
theorem lookup_eq (same : κ → κ → Bool) (k : κ) (l : List (κ × β)) :
  lookup same k l = ((l.map Prod.fst).findIdx? (same k)).bind ((l.map Prod.snd)[·]?)
  := by
  induction l with
  | nil => rfl
  | cons e l ih =>
      rw [lookup, List.map_cons, List.map_cons, List.findIdx?_cons]
      by_cases he : same k e.1
      · rw [if_pos he, if_pos he]
        rfl
      · rw [if_neg he, if_neg he, ih]
        cases (l.map Prod.fst).findIdx? (same k) <;> rfl

/-- The keys stay when a value is replaced. -/
theorem replace_eq {i : ℕ} (h : (l.map Prod.fst).findIdx? (same k) = some i) (v : β) :
  (replace same k v l).map Prod.fst = l.map Prod.fst ∧
    (replace same k v l).map Prod.snd = (l.map Prod.snd).set i v
  := by
  induction l generalizing i with
  | nil => cases h
  | cons e l ih =>
      rw [List.map_cons, List.findIdx?_cons] at h
      rw [replace]
      by_cases he : same k e.1
      · rw [if_pos he] at h ⊢
        cases h
        exact ⟨rfl, rfl⟩
      · rw [if_neg he] at h ⊢
        obtain ⟨j, hj, rfl⟩ := Option.map_eq_some_iff.mp h
        obtain ⟨hfst, hsnd⟩ := ih hj
        rw [List.map_cons, List.map_cons, List.map_cons, List.map_cons, hfst, hsnd]
        exact ⟨rfl, rfl⟩

/-- The entry that is deleted is the one that the search for the key ends at. -/
theorem delete_eq {i : ℕ} (h : (l.map Prod.fst).findIdx? (same k) = some i) :
  delete same k l = l.eraseIdx i
  := by
  induction l generalizing i with
  | nil => cases h
  | cons e l ih =>
      rw [List.map_cons, List.findIdx?_cons] at h
      rw [delete]
      by_cases he : same k e.1
      · rw [if_pos he] at h ⊢
        cases h
        rfl
      · rw [if_neg he] at h ⊢
        obtain ⟨j, hj, rfl⟩ := Option.map_eq_some_iff.mp h
        rw [ih hj]
        rfl

/-- A key is looked up by a search among the keys. -/
theorem lookup_isSome_iff (same : κ → κ → Bool) (k : κ) (l : List (κ × β)) :
  (lookup same k l).isSome ↔ ((l.map Prod.fst).findIdx? (same k)).isSome
  := by
  induction l with
  | nil => rfl
  | cons e l ih =>
      rw [lookup, List.map_cons, List.findIdx?_cons]
      by_cases he : same k e.1
      · simp [he]
      · simp [he, ih]

theorem exists_findIdx_of_lookup (h : (lookup same k l).isSome) :
  ∃ i, (l.map Prod.fst).findIdx? (same k) = some i
  := Option.isSome_iff_exists.mp ((lookup_isSome_iff same k l).mp h)

theorem lookup_isSome_of_findIdx {i : ℕ} (h : (l.map Prod.fst).findIdx? (same k) = some i) :
  (lookup same k l).isSome
  := by
  rw [lookup_isSome_iff, h]
  rfl

theorem findIdx_eq_none_iff :
  (l.map Prod.fst).findIdx? (same k) = none ↔ lookup same k l = none
  := by
  rw [← Option.not_isSome_iff_eq_none, ← lookup_isSome_iff, Option.not_isSome_iff_eq_none]

/-- A value that is looked up is in an entry whose key is the same. -/
theorem exists_of_lookup (h : lookup same k l = some v) : ∃ e ∈ l, same k e.1 ∧ e.2 = v := by
  induction l with
  | nil => cases h
  | cons e l ih =>
      rw [lookup] at h
      by_cases he : same k e.1
      · rw [if_pos he] at h
        exact ⟨e, List.mem_cons_self, he, Option.some.inj h⟩
      · rw [if_neg he] at h
        obtain ⟨e', he', hsame⟩ := ih h
        exact ⟨e', List.mem_cons_of_mem e he', hsame⟩

/-- A key that has no value is the same as none of the keys. -/
theorem lookup_eq_none_iff : lookup same k l = none ↔ ∀ e ∈ l, same k e.1 = false := by
  induction l with
  | nil => simp [lookup]
  | cons e l ih =>
      rw [lookup, List.forall_mem_cons]
      by_cases he : same k e.1
      · simp [he]
      · simp [he, ih]

/-- Only a new key makes the list longer. -/
theorem length_store (k : κ) (v : β) (l : List (κ × β)) :
  (store same k v l).length = if (lookup same k l).isSome then l.length else l.length + 1
  := by
  rw [store]
  by_cases h : (lookup same k l).isSome
  · obtain ⟨i, hi⟩ := exists_findIdx_of_lookup h
    rw [if_pos h, if_pos h, ← List.length_map Prod.fst, (replace_eq hi v).1, List.length_map]
  · rw [if_neg h, if_neg h, List.length_cons]

/-- A key that is deleted makes the list shorter. -/
theorem length_delete (h : (lookup same k l).isSome) :
  (delete same k l).length + 1 = l.length
  := by
  induction l with
  | nil => cases h
  | cons e l ih =>
      rw [lookup] at h
      rw [delete]
      by_cases he : same k e.1
      · rw [if_pos he, List.length_cons]
      · rw [if_neg he] at h ⊢
        rw [List.length_cons, ih h, List.length_cons]

/-- A key comes in only when it is the same as none. -/
theorem distinct_store (hl : Distinct same l) (k : κ) (v : β) :
  Distinct same (store same k v l)
  := by
  rw [store]
  by_cases h : (lookup same k l).isSome
  · have hfst : (replace same k v l).map Prod.fst = l.map Prod.fst := by
      obtain ⟨i, hi⟩ := exists_findIdx_of_lookup h
      exact (replace_eq hi v).1
    rw [if_pos h]
    have hl' : (l.map Prod.fst).Pairwise fun a b => same a b = false := List.pairwise_map.mpr hl
    rw [← hfst] at hl'
    exact List.pairwise_map.mp hl'
  · rw [if_neg h]
    rw [Option.not_isSome_iff_eq_none, lookup_eq_none_iff] at h
    exact List.pairwise_cons.mpr ⟨h, hl⟩

/-- The other entries stay in their order. -/
theorem delete_sublist (k : κ) (l : List (κ × β)) : (delete same k l).Sublist l := by
  induction l with
  | nil => exact List.Sublist.refl _
  | cons e l ih =>
      rw [delete]
      by_cases he : same k e.1
      · rw [if_pos he]
        exact List.sublist_cons_self e l
      · rw [if_neg he]
        exact ih.cons_cons e

theorem distinct_delete (hl : Distinct same l) (k : κ) : Distinct same (delete same k l) :=
  List.Pairwise.sublist (delete_sublist k l) hl

/-! ### Lookups see a map -/

section equivalence

variable (hsame : Equivalence fun a b => same a b = true)

include hsame

/-- Keys that are the same are the same as the same keys. -/
theorem same_congr (h : same k k' = true) (x : κ) : same k x = same k' x := by
  rw [Bool.eq_iff_iff]
  exact ⟨hsame.trans (hsame.symm h), hsame.trans h⟩

/-- Keys that are the same have the same value. -/
theorem lookup_congr (h : same k k' = true) (l : List (κ × β)) :
  lookup same k l = lookup same k' l
  := by
  induction l with
  | nil => rfl
  | cons e l ih => rw [lookup, lookup, same_congr hsame h, ih]

/-- The value of a key is replaced, and those of others are not. -/
theorem lookup_replace (h : (lookup same k l).isSome) (k' : κ) :
  lookup same k' (replace same k v l) = if same k' k then some v else lookup same k' l
  := by
  induction l with
  | nil => cases h
  | cons e l ih =>
      rw [lookup] at h
      rw [replace]
      by_cases he : same k e.1
      · rw [if_pos he, lookup, lookup]
        by_cases hk : same k' k
        · rw [if_pos hk, if_pos (hsame.trans hk he)]
        · have he' : ¬ same k' e.1 = true := fun he' => hk (hsame.trans he' (hsame.symm he))
          rw [if_neg hk, if_neg he', if_neg he']
      · rw [if_neg he] at h ⊢
        rw [lookup, lookup, ih h]
        by_cases hk : same k' k
        · have he' : ¬ same k' e.1 = true := fun he' => he (hsame.trans (hsame.symm hk) he')
          rw [if_pos hk, if_neg he', if_pos hk]
        · rw [if_neg hk, if_neg hk]

/-- A key that got a value has it, and the other keys have their own. -/
theorem lookup_store (k k' : κ) (v : β) (l : List (κ × β)) :
  lookup same k' (store same k v l) = if same k' k then some v else lookup same k' l
  := by
  rw [store]
  by_cases h : (lookup same k l).isSome
  · rw [if_pos h, lookup_replace hsame h]
  · rw [if_neg h, lookup]

theorem lookup_delete_of_ne (h : ¬ same k' k = true) (l : List (κ × β)) :
  lookup same k' (delete same k l) = lookup same k' l
  := by
  induction l with
  | nil => rfl
  | cons e l ih =>
      rw [delete, lookup]
      by_cases he : same k e.1
      · have he' : ¬ same k' e.1 = true := fun he' => h (hsame.trans he' (hsame.symm he))
        rw [if_pos he, if_neg he']
      · rw [if_neg he, lookup, ih]

/-- A key that is removed has no value, and the other keys have their own. -/
theorem lookup_delete (hl : Distinct same l) (k k' : κ) :
  lookup same k' (delete same k l) = if same k' k then none else lookup same k' l
  := by
  by_cases hk : same k' k
  · rw [if_pos hk, lookup_congr hsame hk]
    induction l with
    | nil => rfl
    | cons e l ih =>
        obtain ⟨he, hl⟩ := List.pairwise_cons.mp hl
        rw [delete]
        by_cases hke : same k e.1
        · rw [if_pos hke, lookup_eq_none_iff]
          intro e' he'
          rw [same_congr hsame hke]
          exact he e' he'
        · rw [if_neg hke, lookup, if_neg hke]
          exact ih hl
  · rw [if_neg hk, lookup_delete_of_ne hsame hk]

/-- A key has the value that got in, or else its own. -/
theorem lookup_union (hl' : Distinct same l') (k : κ) (l : List (κ × β)) :
  lookup same k (union same l l') = (lookup same k l').or (lookup same k l)
  := by
  induction l' generalizing l with
  | nil => rfl
  | cons e l' ih =>
      obtain ⟨he, hl'⟩ := List.pairwise_cons.mp hl'
      rw [union, List.foldl_cons, ← union, ih hl', lookup_store hsame, lookup]
      by_cases hke : same k e.1
      · have hnone : lookup same k l' = none := by
          rw [lookup_congr hsame hke, lookup_eq_none_iff]
          exact he
        rw [if_pos hke, if_pos hke, hnone]
        rfl
      · rw [if_neg hke, if_neg hke]

/-- When the keys are different each entry is found. -/
theorem lookup_of_mem (hl : Distinct same l) (he : e ∈ l) : lookup same e.1 l = some e.2 := by
  induction l with
  | nil => cases he
  | cons e' l ih =>
      obtain ⟨hne, hl⟩ := List.pairwise_cons.mp hl
      rw [lookup]
      rcases List.mem_cons.mp he with rfl | he
      · rw [if_pos (hsame.refl e.1)]
      · have hke : ¬ same e.1 e'.1 = true := fun h => by
          have hfalse := hne e he
          rw [hsame.symm h] at hfalse
          cases hfalse
        rw [if_neg hke, ih hl he]

/-- A list with different keys is no longer than a list that has all of them. -/
theorem length_le (hl : Distinct same l) (h : ∀ e ∈ l, (lookup same e.1 l').isSome) :
  l.length ≤ l'.length
  := by
  induction l generalizing l' with
  | nil => exact Nat.zero_le _
  | cons e l ih =>
      obtain ⟨he, hl⟩ := List.pairwise_cons.mp hl
      obtain ⟨hhead, htail⟩ := List.forall_mem_cons.mp h
      have hrest : ∀ e' ∈ l, (lookup same e'.1 (delete same e.1 l')).isSome := by
        intro e' he'
        have hne : ¬ same e'.1 e.1 = true := fun hk => by
          have hfalse := he e' he'
          rw [hsame.symm hk] at hfalse
          cases hfalse
        rw [lookup_delete_of_ne hsame hne]
        exact htail e' he'
      have := ih hl hrest
      have := length_delete hhead
      rw [List.length_cons]
      omega

/-- Two lists are as long as one another and the second one has all entries of the first one exactly
when all keys have the same values in them. -/
theorem agree_iff (hl : Distinct same l) (hl' : Distinct same l') (r : β → β → Prop) :
  (l.length = l'.length ∧ ∀ e ∈ l, ∃ v ∈ lookup same e.1 l', r e.2 v)
    ↔ ∀ k, Option.Rel r (lookup same k l) (lookup same k l')
  := by
  constructor
  · rintro ⟨hlength, h⟩ k
    have hsome : ∀ e ∈ l, (lookup same e.1 l').isSome := by
      intro e he
      obtain ⟨v, hv, -⟩ := h e he
      exact Option.isSome_of_mem hv
    cases hk : lookup same k l with
    | some v =>
        obtain ⟨e, he, hke, rfl⟩ := exists_of_lookup hk
        obtain ⟨v', hv', hr⟩ := h e he
        rw [lookup_congr hsame hke, Option.mem_def.mp hv']
        exact .some hr
    | none =>
        cases hk' : lookup same k l' with
        | none => exact .none
        | some v' =>
            -- with one more entry the first list is too long
            have hmore : Distinct same ((k, v') :: l) :=
              List.pairwise_cons.mpr ⟨lookup_eq_none_iff.mp hk, hl⟩
            have hle := length_le hsame hmore
              (List.forall_mem_cons.mpr ⟨by simp [hk'], hsome⟩)
            rw [List.length_cons] at hle
            omega
  · intro h
    have hmem : ∀ e ∈ l, ∃ v ∈ lookup same e.1 l', r e.2 v := by
      intro e he
      have hrel := h e.1
      rw [lookup_of_mem hsame hl he] at hrel
      cases hv : lookup same e.1 l' with
      | none =>
          rw [hv] at hrel
          cases hrel
      | some v =>
          rw [hv] at hrel
          cases hrel with
          | some hr => exact ⟨v, rfl, hr⟩
    refine ⟨Nat.le_antisymm ?_ ?_, hmem⟩
    · apply length_le hsame hl
      intro e he
      obtain ⟨v, hv, -⟩ := hmem e he
      exact Option.isSome_of_mem hv
    · apply length_le hsame hl'
      intro e he
      have hrel := h e.1
      rw [lookup_of_mem hsame hl' he] at hrel
      cases hv : lookup same e.1 l with
      | none =>
          rw [hv] at hrel
          cases hrel
      | some v => rfl

end equivalence

end Assoc
