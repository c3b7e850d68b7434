import Etaos.Vm.Sweep
import Etaos.Vm.HeapSpec

/-!
# The cache of the strings is purged

The cache is a list of strings.  The strings without the current mark are unlinked from it, and
the others stay in their order.
-/

namespace Etaos.Vm.Memory

open Chain

variable {m m' : Memory} {g : Bool} {fuel pstr : ℕ} {p : Option ℕ} {l : List ℕ}

/-- An object has the current mark. -/
def marked (m : Memory) (g : Bool) (p : ℕ) : Bool :=
  (m.desc p).gcval == g

/-- Only the links of the strings of `l` change. -/
def Unlinked (l : List ℕ) (m m' : Memory) : Prop :=
  ∀ c, (∀ y ∈ l, c < y + 4 ∨ y + 6 ≤ c) → m' c = m c

theorem Unlinked.refl (l : List ℕ) (m : Memory) : Unlinked l m m := fun _ _ => rfl

/-- Two changes of the cache links one after the other. -/
theorem Unlinked.trans {m'' : Memory} (h : Unlinked l m m') (h' : Unlinked l m' m'') :
  Unlinked l m m''
  := fun c hc => (h' c hc).trans (h c hc)

theorem Unlinked.mono {l' : List ℕ} (h : Unlinked l m m') (hl : l ⊆ l') : Unlinked l' m m' :=
  fun c hc => h c fun y hy => hc y (hl hy)

/-- The mark of an object is not in its cache link. -/
theorem Unlinked.marked {q : ℕ} (h : Unlinked l m m') (hq : ∀ y ∈ l, y = q ∨ Apart y q) :
  m'.marked g q = m.marked g q
  := by
  have hdesc : m'.desc q = m.desc q := by
    apply word_congr <;>
    · apply h
      intro y hy
      have := hq y hy
      simp only [Apart, HEAP_MIN_CHUNK_SIZE] at this
      omega
  rw [Memory.marked, Memory.marked, hdesc]

/-- The cache link of an object that is not on the list stays. -/
theorem Unlinked.next {q : ℕ} (h : Unlinked l m m') (hq : ∀ y ∈ l, Apart y q) :
  m'.next q = m.next q
  := by
  apply ptr_congr
  apply word_congr <;>
  · apply h
    intro y hy
    have := hq y hy
    simp only [Apart, HEAP_MIN_CHUNK_SIZE] at this
    omega

/-- The walk over the strings depends on their marks only. -/
theorem dropWhile_marked :
    ∀ {l : List ℕ}, (∀ y ∈ l, m'.marked g y = m.marked g y) →
      (l.dropWhile fun q => !m'.marked g q) = l.dropWhile fun q => !m.marked g q
  | [], _ => rfl
  | q :: l, h => by
      rw [List.forall_mem_cons] at h
      rw [List.dropWhile_cons, List.dropWhile_cons, h.1, dropWhile_marked h.2]

/-- The strings that the walk passes over have no mark. -/
theorem filter_dropWhile_marked (m : Memory) (g : Bool) :
    ∀ l : List ℕ, (l.dropWhile fun q => !m.marked g q).filter (m.marked g) = l.filter (m.marked g)
  | [] => rfl
  | q :: l => by
      cases hmark : m.marked g q with
      | true => rw [List.dropWhile_cons_of_neg (by simp [hmark])]
      | false =>
          rw [List.dropWhile_cons_of_pos (by simp [hmark]), filter_dropWhile_marked m g l,
            List.filter_cons_of_neg (by simp [hmark])]

/-- The first string with the mark. -/
theorem skipStrings_eq :
    ∀ {fuel : ℕ} {p : Option ℕ} {l : List ℕ}, IsChain m.next p l → l.length < fuel →
      m.skipStrings g fuel p = some (l.dropWhile fun q => !m.marked g q).head?
  | _ + 1, _, [], hl, _ => by
      obtain rfl : _ = none := hl
      rfl
  | fuel + 1, _, q :: l, ⟨hq, hl⟩, hfuel => by
      subst hq
      rw [skipStrings]
      cases hmark : m.marked g q with
      | true =>
          rw [List.dropWhile_cons_of_neg (by simp [hmark])]
          rw [Memory.marked, beq_iff_eq] at hmark
          rw [if_neg (by simp [hmark])]
          rfl
      | false =>
          rw [List.dropWhile_cons_of_pos (by simp [hmark])]
          rw [Memory.marked, beq_eq_false_iff_ne] at hmark
          rw [if_pos hmark]
          apply skipStrings_eq hl
          simpa using hfuel

/-- The strings without the mark behind a string are unlinked. -/
theorem unlinkStrings_eq :
    ∀ {fuel : ℕ} {l : List ℕ} {m : Memory}, IsChain m.next (m.next pstr) l → l.length < fuel →
      (∀ y ∈ l, Apart pstr y) →
        ∃ m', m.unlinkStrings g pstr fuel = some m' ∧ Unlinked [pstr] m m' ∧
          m'.next pstr = (l.dropWhile fun q => !m.marked g q).head?
  | fuel + 1, [], m, hl, _, _ => by
      have hnext : m.next pstr = none := hl
      refine ⟨m, ?_, Unlinked.refl _ m, hnext⟩
      rw [unlinkStrings, hnext]
  | fuel + 1, q :: l, m, ⟨hq, hl⟩, hfuel, hapart => by
      rw [List.forall_mem_cons] at hapart
      rw [unlinkStrings, hq]
      dsimp only
      cases hmark : m.marked g q with
      | true =>
          rw [List.dropWhile_cons_of_neg (by simp [hmark])]
          rw [Memory.marked, beq_iff_eq] at hmark
          rw [if_neg (by simp [hmark])]
          exact ⟨m, rfl, Unlinked.refl _ m, hq⟩
      | false =>
          rw [List.dropWhile_cons_of_pos (by simp [hmark])]
          rw [Memory.marked, beq_eq_false_iff_ne] at hmark
          rw [if_pos hmark]
          have hset : Unlinked [pstr] m (m.setNext pstr (m.next q)) := by
            intro c hc
            have := hc pstr (by simp)
            apply setWord_apply_of_ne <;> omega
          have hself : (m.setNext pstr (m.next q)).next pstr = m.next q :=
            ptr_setPtr_self (valid_next m q)
          have hother (y : ℕ) (hy : y ∈ l) : (m.setNext pstr (m.next q)).next y = m.next y :=
            hset.next (by simpa using hapart.2 y hy)
          have hchain : IsChain (m.setNext pstr (m.next q)).next
              ((m.setNext pstr (m.next q)).next pstr) l := by
            rw [hself]
            exact segment_congr hother hl
          obtain ⟨m', heq, hunlinked, hnext⟩ := unlinkStrings_eq hchain (by simpa using hfuel)
            hapart.2
          refine ⟨m', heq, hset.trans hunlinked, ?_⟩
          rw [hnext, dropWhile_marked]
          intro y hy
          exact hset.marked (by simpa using .inr (hapart.2 y hy))

/-- The strings with the mark stay behind a string that has it. -/
theorem purgeStrings_eq :
    ∀ (fuel : ℕ) {pstr : ℕ} {l : List ℕ} {m : Memory}, IsChain m.next (m.next pstr) l →
      l.length < fuel → (pstr :: l).Pairwise Apart →
        ∃ m', m.purgeStrings g fuel pstr = some m' ∧
          IsChain m'.next (m'.next pstr) (l.filter (m.marked g)) ∧
            Unlinked (pstr :: l.filter (m.marked g)) m m'
  | fuel + 1, pstr, [], m, hl, _, _ => by
      have hnext : m.next pstr = none := hl
      refine ⟨m, ?_, hl, Unlinked.refl _ m⟩
      rw [purgeStrings, hnext]
  | fuel + 1, pstr, q :: l, m, hl, hfuel, hapart => by
      have hlist := List.pairwise_cons.mp hapart
      obtain ⟨m₁, heq₁, hunlinked₁, hnext₁⟩ := unlinkStrings_eq (g := g) hl hfuel hlist.1
      have hmarked (y : ℕ) (hy : y ∈ q :: l) : m₁.marked g y = m.marked g y :=
        hunlinked₁.marked (by simpa using .inr (hlist.1 y hy))
      have hfilter := filter_dropWhile_marked m g (q :: l)
      have hsplit := List.takeWhile_append_dropWhile (p := fun q => !m.marked g q) (l := q :: l)
      have hsome : m.next pstr = some q := hl.1
      rw [purgeStrings, hsome]
      simp only [heq₁, Option.bind_eq_bind, Option.bind_some, hnext₁]
      have hchain : IsChain m₁.next (m.next pstr) (q :: l) := by
        apply segment_congr _ hl
        intro y hy
        exact hunlinked₁.next (by simpa using hlist.1 y hy)
      cases hdrop : (q :: l).dropWhile fun q => !m.marked g q with
      | nil =>
          obtain ⟨fuel, rfl⟩ : ∃ k, fuel = k + 1 := ⟨fuel - 1, by simp at hfuel; omega⟩
          rw [hdrop] at hnext₁ hfilter
          rw [← hfilter]
          refine ⟨m₁, ?_, hnext₁, hunlinked₁⟩
          rw [List.head?_nil, Option.getD_none, purgeStrings, hnext₁]
          rfl
      | cons r l' =>
          rw [hdrop] at hnext₁ hfilter hsplit
          rw [← hsplit] at hchain hlist
          have hsub : (r :: l').Sublist (q :: l) := by
            rw [← hsplit]
            exact List.sublist_append_right _ _
          have hlength := hsub.length_le
          have hchain' : IsChain m₁.next (m₁.next r) l' := (segment_middle.mp hchain).2
          have hapart' : (r :: l').Pairwise Apart := (List.pairwise_cons.mp hapart).2.sublist hsub
          obtain ⟨m', heq', hchain'', hunlinked'⟩ := purgeStrings_eq fuel hchain'
            (by simp at hlength hfuel; omega) hapart'
          have hr : m.marked g r = true := by
            have := List.head?_dropWhile_not (fun q => !m.marked g q) (q :: l)
            rw [hdrop] at this
            simpa using this
          have hfilter' : l'.filter (m₁.marked g) = l'.filter (m.marked g) := by
            apply List.filter_congr
            intro y hy
            exact hmarked y (hsub.subset (List.mem_cons_of_mem r hy))
          rw [List.filter_cons_of_pos hr, ← hfilter'] at hfilter
          rw [← hfilter]
          have hpstr : ∀ y ∈ r :: l'.filter (m₁.marked g), Apart y pstr := by
            intro y hy
            have hy' : y ∈ r :: l' := by
              rcases List.mem_cons.mp hy with rfl | hy
              · exact List.mem_cons_self
              · exact List.mem_cons_of_mem r (List.mem_of_mem_filter hy)
            exact Or.symm (hlist.1 y (List.mem_append_right _ hy'))
          refine ⟨m', heq', ?_, ?_⟩
          · rw [hunlinked'.next hpstr, hnext₁]
            exact ⟨rfl, hchain''⟩
          · apply (hunlinked₁.mono (by simp)).trans
            exact hunlinked'.mono (List.subset_cons_self _ _)

/-- The strings with the mark stay in the cache. -/
theorem purgeStringCache_eq (hl : IsChain m.next p l) (hfuel : l.length < fuel)
    (hapart : l.Pairwise Apart) :
  ∃ p' m', m.purgeStringCache g fuel p = some (p', m') ∧
    IsChain m'.next p' (l.filter (m.marked g)) ∧ Unlinked (l.filter (m.marked g)) m m'
  := by
  have hfilter := filter_dropWhile_marked m g l
  have hsplit := List.takeWhile_append_dropWhile (p := fun q => !m.marked g q) (l := l)
  rw [purgeStringCache, skipStrings_eq hl hfuel]
  cases hdrop : l.dropWhile fun q => !m.marked g q with
  | nil =>
      rw [hdrop] at hfilter
      rw [← hfilter]
      exact ⟨none, m, rfl, rfl, Unlinked.refl _ m⟩
  | cons q l' =>
      rw [hdrop] at hfilter hsplit
      rw [← hsplit] at hl
      have hq : m.marked g q = true := by
        have := List.head?_dropWhile_not (fun q => !m.marked g q) l
        rw [hdrop] at this
        simpa using this
      have hsub : (q :: l').Sublist l := by
        rw [← hsplit]
        exact List.sublist_append_right _ _
      have hlength := hsub.length_le
      have hchain : IsChain m.next (m.next q) l' := (segment_middle.mp hl).2
      obtain ⟨m', heq, hchain', hunlinked⟩ := purgeStrings_eq (g := g) fuel hchain
        (by simp at hlength; omega) (hapart.sublist hsub)
      rw [List.filter_cons_of_pos hq] at hfilter
      rw [← hfilter]
      refine ⟨some q, m', ?_, ⟨rfl, hchain'⟩, hunlinked⟩
      simp [heq]

end Etaos.Vm.Memory
