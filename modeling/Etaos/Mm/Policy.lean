import Etaos.Mm.Partition

/-!
# Allocation policies

The node that an allocation takes, under each policy, as a choice from the list of free blocks,
and what is returned for requests of every size.  The size of a request is compared with the
nodes after the header is added to it, in the arithmetic of `size_t`.
-/

namespace Etaos.Mm

variable {arch : Arch} {need : ℕ} {l : List (ℕ × ℕ)} {x : ℕ × ℕ}

/-! ### The choice from a list -/

/-- The answer of the comparator of a policy, from the sizes of the nodes. -/
def Allocator.compareSize : Allocator → Option ℕ → ℕ → MmState
  | .bestFit, none, _ => .prefer
  | .bestFit, some prev, current => if prev > current then .prefer else .reject
  | .firstFit, _, _ => .accept
  | .worstFit, none, _ => .prefer
  | .worstFit, some prev, current => if current > prev then .prefer else .reject

/-- The block that the search for a node of the size `need` ends with, from the block `fit`. -/
def choose (policy : Allocator) (need : ℕ) : Option (ℕ × ℕ) → List (ℕ × ℕ) → Option (ℕ × ℕ)
  | fit, [] => fit
  | fit, x :: l =>
      if x.2 ≥ need then
        match policy.compareSize (fit.map Prod.snd) x.2 with
        | .reject => choose policy need fit l
        | .accept => some x
        | .prefer => if x.2 = need then some x else choose policy need (some x) l
      else
        choose policy need fit l

/-- A block is sufficient for a request, and the one that the policy is to take. -/
def Optimal (policy : Allocator) (need : ℕ) (l : List (ℕ × ℕ)) (x : ℕ × ℕ) : Prop :=
  need ≤ x.2 ∧ ∀ y ∈ l, need ≤ y.2 →
    match policy with
    | .bestFit => x.2 ≤ y.2
    | .firstFit => x.1 ≤ y.1
    | .worstFit => y.2 ≤ x.2

/-- The first sufficient block has exactly the size needed, and there is a larger one. -/
def Early (need : ℕ) (l : List (ℕ × ℕ)) : Prop :=
  ∃ x, l.find? (fun x => decide (need ≤ x.2)) = some x ∧ x.2 = need ∧ ∃ y ∈ l, need < y.2

theorem choose_mem {policy : Allocator} :
    ∀ {l : List (ℕ × ℕ)} {fit : Option (ℕ × ℕ)}, choose policy need fit l = some x →
      fit = some x ∨ x ∈ l ∧ need ≤ x.2
  | [], fit, h => .inl h
  | y :: l, fit, h => by
      have hrest {fit' : Option (ℕ × ℕ)} (h : choose policy need fit' l = some x) :
          fit' = some x ∨ x ∈ y :: l ∧ need ≤ x.2 := by
        rcases choose_mem h with hfit | ⟨hx, hneed⟩
        · left
          apply hfit
        · right
          use List.mem_cons_of_mem y hx
      rw [choose] at h
      split at h
      · rename_i hy
        have hself : y ∈ y :: l := List.mem_cons_self
        split at h
        · apply hrest h
        · obtain rfl := Option.some.inj h
          exact .inr ⟨hself, hy⟩
        · split at h
          · obtain rfl := Option.some.inj h
            exact .inr ⟨hself, hy⟩
          · right
            rcases hrest h with heq | hx
            · obtain rfl := Option.some.inj heq
              exact ⟨hself, hy⟩
            · apply hx
      · apply hrest h

/-- Once a block is chosen, one is chosen at the end. -/
theorem choose_some (policy : Allocator) (need : ℕ) :
    ∀ (l : List (ℕ × ℕ)) (x : ℕ × ℕ), choose policy need (some x) l ≠ none
  | [], x => by simp [choose]
  | y :: l, x => by
      rw [choose]
      split
      · split
        · apply choose_some
        · simp
        · split
          · simp
          · apply choose_some
      · apply choose_some

/-- Nothing is chosen only when no block is sufficient. -/
theorem choose_eq_none {policy : Allocator} :
    ∀ {l : List (ℕ × ℕ)}, choose policy need none l = none ↔ ∀ x ∈ l, x.2 < need
  | [] => by simp [choose]
  | y :: l => by
      rw [choose, List.forall_mem_cons]
      split
      · rename_i hy
        have hprefer : policy.compareSize ((none : Option (ℕ × ℕ)).map Prod.snd) y.2 ≠ .reject := by
          cases policy <;> simp [Allocator.compareSize]
        constructor
        · intro h
          exfalso
          split at h
          · rename_i hreject
            exact hprefer hreject
          · cases h
          · split at h
            · cases h
            · exact choose_some policy need l y h
        · rintro ⟨hlt, -⟩
          omega
      · rename_i hy
        rw [choose_eq_none]
        constructor
        · intro h
          use by omega
        · rintro ⟨-, h⟩
          apply h

/-- First fit takes the first sufficient block. -/
theorem choose_firstFit :
    ∀ (l : List (ℕ × ℕ)),
      choose .firstFit need none l = l.find? fun x => decide (need ≤ x.2)
  | [] => rfl
  | y :: l => by
      rw [choose, List.find?_cons]
      by_cases hy : need ≤ y.2
      · simp [hy, Allocator.compareSize]
      · simp [hy, choose_firstFit l]

/-- Best fit takes a sufficient block of minimal size. -/
theorem choose_bestFit :
    ∀ {l : List (ℕ × ℕ)} {fit : Option (ℕ × ℕ)}, (∀ f ∈ fit, need < f.2) →
      choose .bestFit need fit l = some x →
      (∀ f ∈ fit, x.2 ≤ f.2) ∧ ∀ y ∈ l, need ≤ y.2 → x.2 ≤ y.2
  | [], fit, _, h => by
      rw [choose] at h
      simp [h]
  | y :: l, fit, hfit, h => by
      -- the search goes on with the same block
      have hrest (hy : ∀ f ∈ fit, need ≤ y.2 → f.2 ≤ y.2) (hsome : need ≤ y.2 → fit ≠ none)
          (h : choose .bestFit need fit l = some x) :
          (∀ f ∈ fit, x.2 ≤ f.2) ∧ ∀ z ∈ y :: l, need ≤ z.2 → x.2 ≤ z.2 := by
        obtain ⟨hle, hall⟩ := choose_bestFit hfit h
        use hle
        rw [List.forall_mem_cons]
        refine ⟨?_, hall⟩
        intro hneed
        obtain ⟨f, hf⟩ := Option.ne_none_iff_exists'.mp (hsome hneed)
        exact (hle f hf).trans (hy f hf hneed)
      -- the block `y` is better, and the search stops at it or goes on with it
      have hbetter (hy : need ≤ y.2) (hlt : ∀ f ∈ fit, y.2 < f.2)
          (h : (if y.2 = need then some y else choose .bestFit need (some y) l) = some x) :
          (∀ f ∈ fit, x.2 ≤ f.2) ∧ ∀ z ∈ y :: l, need ≤ z.2 → x.2 ≤ z.2 := by
        have hbound : x.2 ≤ y.2 ∧ ∀ z ∈ l, need ≤ z.2 → x.2 ≤ z.2 := by
          split at h
          · rename_i heq
            obtain rfl := Option.some.inj h
            rw [heq]
            exact ⟨le_refl _, fun z _ hz => hz⟩
          · obtain ⟨hle, hall⟩ := choose_bestFit (by simp; omega) h
            exact ⟨hle y rfl, hall⟩
        constructor
        · intro f hf
          have := hlt f hf
          omega
        · rw [List.forall_mem_cons]
          exact ⟨fun _ => hbound.1, hbound.2⟩
      rw [choose] at h
      split at h
      · rename_i hy
        cases fit with
        | none => exact hbetter hy (by simp) h
        | some f =>
            simp only [Option.map_some, Allocator.compareSize] at h
            by_cases hf : f.2 > y.2
            · rw [if_pos hf] at h
              exact hbetter hy (by simpa using hf) h
            · rw [if_neg hf] at h
              exact hrest (by simpa using fun _ => Nat.le_of_not_lt hf) (by simp) h
      · rename_i hy
        exact hrest (fun _ _ hneed => absurd hneed hy) (fun hneed => absurd hneed hy) h

/-- Once worst fit has found a block with bytes to spare, it ends with a largest block. -/
theorem choose_worstFit_some :
    ∀ {l : List (ℕ × ℕ)} {g : ℕ × ℕ}, need < g.2 → choose .worstFit need (some g) l = some x →
      g.2 ≤ x.2 ∧ ∀ y ∈ l, y.2 ≤ x.2
  | [], g, _, h => by
      rw [choose] at h
      simp [Option.some.inj h]
  | y :: l, g, hg, h => by
      -- the block `f` is kept, and is not smaller than `y`
      have hrest {f : ℕ × ℕ} (hgf : g.2 ≤ f.2) (hyf : y.2 ≤ f.2)
          (h : choose .worstFit need (some f) l = some x) :
          g.2 ≤ x.2 ∧ ∀ z ∈ y :: l, z.2 ≤ x.2 := by
        obtain ⟨hle, hall⟩ := choose_worstFit_some (by omega) h
        rw [List.forall_mem_cons]
        exact ⟨hgf.trans hle, hyf.trans hle, hall⟩
      rw [choose] at h
      split at h
      · simp only [Option.map_some, Allocator.compareSize] at h
        by_cases hy : y.2 > g.2
        · -- a block larger than `g` does not have exactly the size needed
          rw [if_pos hy] at h
          simp only [if_neg (show y.2 ≠ need by omega)] at h
          exact hrest hy.le le_rfl h
        · rw [if_neg hy] at h
          exact hrest le_rfl (by omega) h
      · exact hrest le_rfl (by omega) h

/-- Worst fit takes a largest block, but for the early end at an exact fit. -/
theorem choose_worstFit :
    ∀ {l : List (ℕ × ℕ)}, choose .worstFit need none l = some x →
      ((∀ y ∈ l, y.2 ≤ x.2) ↔ ¬ Early need l)
  | [], h => by simp [choose] at h
  | y :: l, h => by
      rw [choose] at h
      split at h
      · rename_i hy
        simp only [Option.map_none, Allocator.compareSize] at h
        rw [Early, List.find?_cons_of_pos (by simpa using hy)]
        split at h
        · rename_i heq
          obtain rfl := Option.some.inj h
          constructor
          · rintro hall ⟨x, hx, hexact, z, hz, hlt⟩
            have := hall z hz
            omega
          · intro hnot z hz
            by_contra hlt
            exact hnot ⟨y, rfl, heq, z, hz, by omega⟩
        · rename_i hne
          obtain ⟨hle, hall⟩ := choose_worstFit_some (by omega) h
          constructor
          · rintro - ⟨z, hz, hexact, -⟩
            obtain rfl := Option.some.inj hz
            exact hne hexact
          · intro _
            rw [List.forall_mem_cons]
            exact ⟨hle, hall⟩
      · rename_i hy
        have hx : need ≤ x.2 := by
          rcases choose_mem h with heq | ⟨-, hx⟩
          · cases heq
          · exact hx
        have hearly : Early need (y :: l) ↔ Early need l := by
          rw [Early, Early, List.find?_cons_of_neg (by simpa using hy)]
          constructor
          · rintro ⟨z, hz, hexact, w, hw, hlt⟩
            rcases List.mem_cons.mp hw with rfl | hw
            · omega
            · exact ⟨z, hz, hexact, w, hw, hlt⟩
          · rintro ⟨z, hz, hexact, w, hw, hlt⟩
            exact ⟨z, hz, hexact, w, List.mem_cons_of_mem y hw, hlt⟩
        rw [hearly, List.forall_mem_cons, ← choose_worstFit h]
        constructor
        · rintro ⟨-, hall⟩
          exact hall
        · intro hall
          exact ⟨by omega, hall⟩

/-! ### The choice of the walk -/

namespace Heap

variable {h : Heap} {policy : Allocator}

/-- A comparator looks at the sizes of the nodes. -/
theorem compare_eq (policy : Allocator) (h : Heap) (prev : Option ℕ) (current : ℕ) :
  compare policy h prev current = policy.compareSize (prev.map h.size) (h.size current)
  := by
  cases policy <;> cases prev <;> rfl

/-- The walk ends with the node of the block that is chosen from the list. -/
theorem At.findFit_choose (policy : Allocator) (need : ℕ) :
    ∀ {b a : List (ℕ × ℕ)} {p : Option ℕ} {fit : Option (ℕ × Option ℕ)}
      {seed : Option (ℕ × ℕ)} (n : ℕ), h.At a b p → b.length ≤ n →
      fit.map Prod.fst = seed.map Prod.fst → (∀ x ∈ seed, h.size x.1 = x.2) →
      ∃ r, h.findFit (compare policy) need n (a.map Prod.fst).getLast? p fit = some r ∧
        r.map Prod.fst = (Mm.choose policy need seed b).map Prod.fst
  | [], a, p, fit, seed, n, hat, _, hfit, _ => by
      have hp : p = none := hat.chain
      subst hp
      exact ⟨fit, by rw [Heap.findFit], hfit⟩
  | x :: b, a, p, fit, seed, 0, _, hn, _, _ => by simp at hn
  | x :: b, a, p, fit, seed, n + 1, hat, hn, hfit, hseed => by
      obtain ⟨rfl, hat'⟩ := hat.next
      have hx : h.size x.1 = x.2 := hat.size x (by simp)
      have hlast : some x.1 = ((a ++ [x]).map Prod.fst).getLast? := by simp
      have hrest {fit : Option (ℕ × Option ℕ)} {seed : Option (ℕ × ℕ)}
          (hfit : fit.map Prod.fst = seed.map Prod.fst) (hseed : ∀ x ∈ seed, h.size x.1 = x.2) :
          ∃ r, h.findFit (compare policy) need n (some x.1) (h.next x.1) fit = some r ∧
            r.map Prod.fst = (Mm.choose policy need seed b).map Prod.fst := by
        rw [hlast]
        apply At.findFit_choose policy need n hat' (by simpa using hn) hfit hseed
      have hself {npp : Option ℕ} : (some (x.1, npp)).map Prod.fst = (some x).map Prod.fst := rfl
      have hsizes : (fit.map Prod.fst).map h.size = seed.map Prod.snd := by
        rw [hfit, Option.map_map]
        apply Option.map_congr
        exact hseed
      rw [Heap.findFit, Mm.choose, compare_eq, hsizes, hx]
      split
      · cases policy.compareSize (seed.map Prod.snd) x.2 with
        | reject => exact hrest hfit hseed
        | accept => exact ⟨_, rfl, hself⟩
        | prefer =>
            dsimp only
            split
            · exact ⟨_, rfl, hself⟩
            · exact hrest hself (by simpa using hx)
      · exact hrest hfit hseed

/-- An allocation takes the block that is chosen from the free list, and leaves the heap as it
is when there is none. -/
theorem FreeList.alloc_choose (hlist : h.FreeList l) (hl : Blocks.Separated l)
    (hfits : ∀ x ∈ l, arch.Fits x) (policy : Allocator) (size : ℕ) :
  Mm.choose policy (needFor arch size) none l = none ∧
      h.rawMmHeapAlloc arch size (compare policy) = some (h, none) ∨
    ∃ x h' l', Mm.choose policy (needFor arch size) none l = some x ∧ x ∈ l ∧
      h.rawMmHeapAlloc arch size (compare policy) = some (h', some (x.1 + arch.heapOverhead)) ∧
      Taken arch h h' l l' (needFor arch size) x.1 ∧ h'.size x.1 ≤ x.2
  := by
  have hnone : ∀ f ∈ (none : Option (ℕ × Option ℕ)), Place ([] ++ l) (needFor arch size) f := by
    simp
  obtain ⟨r, hfind, hplace⟩ := hlist.start.findFit (compare policy) (needFor arch size)
    arch.space (length_le_space hl hfits) hnone
  have hseed : (none : Option (ℕ × Option ℕ)).map Prod.fst = (none : Option (ℕ × ℕ)).map Prod.fst :=
    rfl
  obtain ⟨r', hfind', hchoose⟩ := hlist.start.findFit_choose policy (needFor arch size)
    arch.space (length_le_space hl hfits) hseed (by simp)
  obtain rfl := Option.some.inj (hfind.symm.trans hfind')
  rw [List.map_nil, List.getLast?_nil] at hfind
  rw [rawMmHeapAlloc]
  simp only [hfind, Option.map_some]
  cases r with
  | none =>
      left
      rw [Option.map_none, eq_comm, Option.map_eq_none_iff] at hchoose
      exact ⟨hchoose, rfl⟩
  | some f =>
      right
      obtain ⟨a, x, b, hab, rfl, hle⟩ := hplace f rfl
      rw [List.nil_append] at hab
      subst hab
      have hx := hfits x (by simp)
      have hnode := hx.sizeofNode_lt
      obtain ⟨l', htaken⟩ := hlist.take hl hfits (le_needFor size hnode) hle
      simp only [toPtr_area hx]
      -- the blocks of the list begin at different addresses
      have hchosen : Mm.choose policy (needFor arch size) none (a ++ x :: b) = some x := by
        rw [Option.map_some, eq_comm, Option.map_eq_some_iff] at hchoose
        obtain ⟨y, hy, hyx⟩ := hchoose
        rcases choose_mem hy with heq | ⟨hmem, -⟩
        · cases heq
        · rw [hy, List.inj_on_of_nodup_map (starts_nodup hl) hmem (by simp) hyx]
      refine ⟨x, _, l', hchosen, by simp, rfl, htaken, ?_⟩
      have hsize : h.size x.1 = x.2 := hlist.size x (by simp)
      rw [← hsize] at hle ⊢
      apply takeFit_size_le hle

/-! ### The policies -/

/-- What the policies promise for a request: nothing is returned only when no block is large
enough, and otherwise the block returned is the one that the policy is to take. -/
def Documented (arch : Arch) (policy : Allocator) (size : ℕ) (l : List (ℕ × ℕ)) :
    Option ℕ → Prop
  | none => ∀ x ∈ l, x.2 < size + arch.heapOverhead
  | some ptr =>
      ∃ x ∈ l, x.1 = mmRegionToNode arch ptr ∧ Optimal policy (size + arch.heapOverhead) l x

/-- The first block of a separated list that is sufficient has the lowest address. -/
theorem find_lowest (hl : Blocks.Separated l)
    (hfind : l.find? (fun x => decide (need ≤ x.2)) = some x) {y : ℕ × ℕ} (hy : y ∈ l)
    (hneed : need ≤ y.2) :
  x.1 ≤ y.1
  := by
  obtain ⟨hx, a, b, rfl, ha⟩ := List.find?_eq_some_iff_append.mp hfind
  rw [Blocks.Separated, List.pairwise_append, List.pairwise_cons] at hl
  rcases List.mem_append.mp hy with hy | hy
  · have := ha y hy
    simp [hneed] at this
  · rcases List.mem_cons.mp hy with rfl | hy
    · apply le_rfl
    · have := hl.2.1.1 y hy
      omega

/-- The block that is chosen is the one that the policy is to take, unless worst fit ends
early. -/
theorem optimal_choose (hl : Blocks.Separated l) {policy : Allocator}
    (hchoose : choose policy need none l = some x) :
  Optimal policy need l x ↔ (policy = .worstFit → ¬ Early need l)
  := by
  have hx : need ≤ x.2 := by
    rcases choose_mem hchoose with heq | ⟨-, hx⟩
    · cases heq
    · exact hx
  cases policy with
  | bestFit =>
      have hbest := choose_bestFit (by simp) hchoose
      simp only [reduceCtorEq, false_implies, iff_true]
      exact ⟨hx, hbest.2⟩
  | firstFit =>
      rw [choose_firstFit] at hchoose
      simp only [reduceCtorEq, false_implies, iff_true]
      exact ⟨hx, fun y hy hneed => find_lowest hl hchoose hy hneed⟩
  | worstFit =>
      rw [← choose_worstFit hchoose, Optimal]
      simp only [forall_const]
      constructor
      · rintro ⟨-, hall⟩ y hy
        by_cases hneed : need ≤ y.2
        · apply hall y hy hneed
        · omega
      · intro hall
        exact ⟨hx, fun y hy _ => hall y hy⟩

/-- Which blocks are sufficient does not depend on the room that a header needs. -/
theorem sufficient_iff (hfits : ∀ x ∈ l, arch.Fits x) {size : ℕ}
    (hsize : size + arch.heapOverhead < arch.space) {y : ℕ × ℕ} (hy : y ∈ l) :
  needFor arch size ≤ y.2 ↔ size + arch.heapOverhead ≤ y.2
  := by
  have hfit := hfits y hy
  have := hfit.size
  have := hfit.space
  rw [needFor_eq (by simpa [mmAlignment] using hsize) (by omega), max_le_iff]
  omega

/-- For the policy, the size of the node is as good as the size of the request. -/
theorem optimal_needFor (hfits : ∀ x ∈ l, arch.Fits x) {size : ℕ}
    (hsize : size + arch.heapOverhead < arch.space) {policy : Allocator} (hx : x ∈ l) :
  Optimal policy (needFor arch size) l x ↔ Optimal policy (size + arch.heapOverhead) l x
  := by
  rw [Optimal, Optimal, sufficient_iff hfits hsize hx]
  constructor
  · rintro ⟨hle, hall⟩
    refine ⟨hle, fun y hy hneed => hall y hy ?_⟩
    rwa [sufficient_iff hfits hsize hy]
  · rintro ⟨hle, hall⟩
    refine ⟨hle, fun y hy hneed => hall y hy ?_⟩
    rwa [← sufficient_iff hfits hsize hy]

/-- An allocation does what is promised of its policy when the size of the node does not wrap
around to the size of a node there is, and worst fit does not end early. -/
theorem documented_iff (hlist : h.FreeList l) (hl : Blocks.Separated l)
    (hfits : ∀ x ∈ l, arch.Fits x) (policy : Allocator) (size : ℕ) :
  (∃ h' ptr, h.rawMmHeapAlloc arch size (compare policy) = some (h', ptr) ∧
      Documented arch policy size l ptr) ↔
    (size + arch.heapOverhead < arch.space ∨ ∀ x ∈ l, x.2 < needFor arch size) ∧
      (policy = .worstFit → ¬ Early (needFor arch size) l)
  := by
  rcases hlist.alloc_choose hl hfits policy size with ⟨hchoose, hrun⟩ | hsome
  · have hnone := choose_eq_none.mp hchoose
    rw [hrun]
    constructor
    · rintro -
      refine ⟨.inr hnone, ?_⟩
      rintro - ⟨x, hx, -, y, hy, hlt⟩
      have := hnone y hy
      omega
    · rintro -
      refine ⟨h, none, rfl, ?_⟩
      intro x hx
      have hlt := hnone x hx
      by_cases hsize : size + arch.heapOverhead < arch.space
      · have := sufficient_iff hfits hsize hx
        omega
      · have := (hfits x hx).space
        omega
  · obtain ⟨x, h', l', hchoose, hx, hrun, -, -⟩ := hsome
    have hneed : needFor arch size ≤ x.2 := by
      rcases choose_mem hchoose with heq | ⟨-, hneed⟩
      · cases heq
      · exact hneed
    have hregion := HeapSystem.mmRegionToNode_add (hfits x hx)
    rw [← optimal_choose hl hchoose, hrun]
    constructor
    · rintro ⟨_, _, heq, hdocumented⟩
      obtain ⟨rfl, rfl⟩ := Prod.mk.inj (Option.some.inj heq)
      obtain ⟨y, hy, hstart, hoptimal⟩ := hdocumented
      rw [hregion] at hstart
      obtain rfl := List.inj_on_of_nodup_map (starts_nodup hl) hy hx hstart
      have hsize : size + arch.heapOverhead < arch.space := by
        have := hoptimal.1
        have := (hfits y hy).space
        omega
      exact ⟨.inl hsize, (optimal_needFor hfits hsize hx).mpr hoptimal⟩
    · rintro ⟨hsize | hall, hoptimal⟩
      · refine ⟨h', _, rfl, x, hx, hregion.symm, ?_⟩
        exact (optimal_needFor hfits hsize hx).mp hoptimal
      · have := hall x hx
        omega

/-- A free list of two nodes. -/
def two (x y : ℕ × ℕ) : Heap where
  size := fun a => if a = x.1 then x.2 else y.2
  next := fun a => if a = x.1 then some y.1 else none
  root := some x.1

/-- The nodes of an AVR that is given two blocks. -/
theorem two_fits {x y : ℕ × ℕ} (hx : 0 < x.1) (hsize : 4 ≤ x.2 ∧ 4 ≤ y.2)
    (hlt : x.1 + x.2 < y.1) (hy : y.1 + y.2 < 2 ^ 16) :
  (two x y).FreeList [x, y] ∧ Blocks.Separated [x, y] ∧ ∀ z ∈ [x, y], Arch.avr.Fits z
  := by
  have hne : y.1 ≠ x.1 := by omega
  refine ⟨⟨?_, ?_⟩, ?_, ?_⟩
  · simp [two, Chain.IsChain, Chain.Segment, hne]
  · simp [two, hne]
  · simpa [Blocks.Separated] using hlt
  · simp only [List.mem_cons, List.not_mem_nil, or_false, forall_eq_or_imp, forall_eq]
    constructor
    · exact ⟨hx, hsize.1, by simp only [Arch.avr]; omega⟩
    · exact ⟨by omega, hsize.2, by simp only [Arch.avr]; omega⟩

/-- Best fit takes the smaller one of two nodes. -/
theorem documented_iff_smaller :
  (∃ h' ptr, (two (256, 20) (300, 12)).rawMmHeapAlloc Arch.avr 8 (compare .bestFit)
        = some (h', ptr) ∧ Documented Arch.avr .bestFit 8 [(256, 20), (300, 12)] ptr) ↔
    (8 + Arch.avr.heapOverhead < Arch.avr.space ∨
        ∀ x ∈ [(256, 20), (300, 12)], x.2 < needFor Arch.avr 8) ∧
      (Allocator.bestFit = .worstFit → ¬ Early (needFor Arch.avr 8) [(256, 20), (300, 12)])
  := by
  obtain ⟨hlist, hl, hfits⟩ :=
    two_fits (x := (256, 20)) (y := (300, 12)) (by decide) (by decide) (by decide) (by decide)
  apply documented_iff hlist hl hfits

/-- Worst fit takes the first of two nodes, which fits exactly, and not the larger one. -/
theorem worstFit_exact :
  (two (256, 10) (300, 20)).FreeList [(256, 10), (300, 20)] ∧
    Blocks.Separated [(256, 10), (300, 20)] ∧
    (∀ x ∈ [(256, 10), (300, 20)], Arch.avr.Fits x) ∧
    ¬ ∃ h' ptr, (two (256, 10) (300, 20)).rawMmHeapAlloc Arch.avr 8 (compare .worstFit)
      = some (h', ptr) ∧ Documented Arch.avr .worstFit 8 [(256, 10), (300, 20)] ptr
  := by
  obtain ⟨hlist, hl, hfits⟩ :=
    two_fits (x := (256, 10)) (y := (300, 20)) (by decide) (by decide) (by decide) (by decide)
  refine ⟨hlist, hl, hfits, ?_⟩
  rintro ⟨h', ptr, hrun, hdocumented⟩
  have hptr : ((two (256, 10) (300, 20)).rawMmHeapAlloc Arch.avr 8 (compare .worstFit)).map
      Prod.snd = some (some 258) := by rfl
  rw [hrun] at hptr
  obtain rfl := Option.some.inj hptr
  obtain ⟨x, hmem, hx, -, hall⟩ := hdocumented
  rw [show mmRegionToNode Arch.avr 258 = 256 by rfl] at hx
  have hlarger : 20 ≤ x.2 := hall (300, 20) (by simp) (by decide)
  simp only [List.mem_cons, List.not_mem_nil, or_false] at hmem
  rcases hmem with rfl | rfl
  · simp at hlarger
  · simp at hx

/-! ### Sizes -/

/-- The function `mm_alloc`, with the policy of the build. -/
def mmAlloc (arch : Arch) (policy : Allocator) (h : Heap) (size : ℕ) :
    Option (Heap × Option ℕ) :=
  h.rawMmHeapAlloc arch size (compare policy)

/-- The function `kzalloc`, but for the bytes of the user that it clears. -/
def kzalloc (arch : Arch) (policy : Allocator) (h : Heap) (size : ℕ) :
    Option (Heap × Option ℕ) :=
  h.mmAlloc arch policy size

/-- The function `calloc`. -/
def calloc (arch : Arch) (policy : Allocator) (h : Heap) (num size : ℕ) :
    Option (Heap × Option ℕ) :=
  h.kzalloc arch policy (size * num % arch.space)

/-- A request for a number of bytes is honoured: the heap is left as it is, or the block of
the pointer returned has that many bytes behind the pointer, and is a part of one node that
was free. -/
def Honoured (arch : Arch) (bytes : ℕ) (h : Heap) (l : List (ℕ × ℕ)) :
    Heap × Option ℕ → Prop
  | (h', none) => h' = h
  | (h', some ptr) =>
      let node := mmRegionToNode arch ptr
      ptr + bytes ≤ node + h'.size node ∧
        ∃ x ∈ l, x.1 ≤ node ∧ node ≤ ptr ∧ node + h'.size node ≤ x.1 + x.2

/-- A size that wraps around has the node of the size that it wraps around to. -/
theorem needFor_mod (arch : Arch) (size : ℕ) :
  needFor arch (size % arch.space) = needFor arch size
  := by
  rw [needFor, needFor, Nat.mod_add_mod]

/-- A request is honoured when the size of the node does not wrap around, or wraps around to a
size that no node has. -/
theorem honoured_alloc (hlist : h.FreeList l) (hl : Blocks.Separated l)
    (hfits : ∀ x ∈ l, arch.Fits x) (policy : Allocator) (size : ℕ) :
  (∃ r, h.rawMmHeapAlloc arch (size % arch.space) (compare policy) = some r ∧
      Honoured arch size h l r) ↔
    size + arch.heapOverhead < arch.space ∨ ∀ x ∈ l, x.2 < needFor arch size
  := by
  rcases hlist.alloc_choose hl hfits policy (size % arch.space) with ⟨hchoose, hrun⟩ | hsome
  · rw [needFor_mod] at hchoose
    rw [hrun]
    constructor
    · rintro -
      exact .inr (choose_eq_none.mp hchoose)
    · rintro -
      exact ⟨_, rfl, rfl⟩
  · obtain ⟨x, h', l', hchoose, hx, hrun, htaken, hle⟩ := hsome
    rw [needFor_mod] at hchoose htaken
    have hneed : needFor arch size ≤ x.2 := by
      rcases choose_mem hchoose with heq | ⟨-, hneed⟩
      · cases heq
      · exact hneed
    have hspace := (hfits x hx).space
    have hregion := HeapSystem.mmRegionToNode_add (hfits x hx)
    rw [hrun]
    constructor
    · rintro ⟨_, heq, hhonoured⟩
      obtain rfl := Option.some.inj heq
      have hbytes := hhonoured.1
      rw [hregion] at hbytes
      left
      omega
    · rintro (hsize | hall)
      · refine ⟨_, rfl, ?_⟩
        rw [Honoured, hregion]
        have htaken_le := htaken.need_le
        rw [needFor_eq (by simpa [mmAlignment] using hsize)
          (by have := (hfits x hx).size; omega)] at htaken_le
        have := le_max_left (size + arch.heapOverhead) arch.sizeofNode
        exact ⟨by omega, x, hx, le_rfl, by omega, by omega⟩
      · have := hall x hx
        omega

/-- The requests that `mm_alloc` and `calloc` honour. -/
theorem honoured_iff (hlist : h.FreeList l) (hl : Blocks.Separated l)
    (hfits : ∀ x ∈ l, arch.Fits x) (policy : Allocator) :
  (∀ size < arch.space,
    ((∃ r, h.mmAlloc arch policy size = some r ∧ Honoured arch size h l r) ↔
      size + arch.heapOverhead < arch.space ∨ ∀ x ∈ l, x.2 < needFor arch size)) ∧
    ∀ num < arch.space, ∀ size < arch.space,
      ((∃ r, h.calloc arch policy num size = some r ∧ Honoured arch (num * size) h l r) ↔
        num * size + arch.heapOverhead < arch.space ∨
          ∀ x ∈ l, x.2 < needFor arch (num * size % arch.space))
  := by
  constructor
  · intro size hsize
    have halloc := honoured_alloc hlist hl hfits policy size
    rw [Nat.mod_eq_of_lt hsize] at halloc
    exact halloc
  · intro num _ size _
    rw [needFor_mod, calloc, kzalloc, mmAlloc, Nat.mul_comm size num]
    apply honoured_alloc hlist hl hfits policy

/-- The requests that are honoured with two nodes on an AVR. -/
theorem honoured_iff_two :
  (∀ size < Arch.avr.space,
    ((∃ r, (two (256, 20) (300, 12)).mmAlloc Arch.avr .bestFit size = some r ∧
        Honoured Arch.avr size (two (256, 20) (300, 12)) [(256, 20), (300, 12)] r) ↔
      size + Arch.avr.heapOverhead < Arch.avr.space ∨
        ∀ x ∈ [(256, 20), (300, 12)], x.2 < needFor Arch.avr size)) ∧
    ∀ num < Arch.avr.space, ∀ size < Arch.avr.space,
      ((∃ r, (two (256, 20) (300, 12)).calloc Arch.avr .bestFit num size = some r ∧
          Honoured Arch.avr (num * size) (two (256, 20) (300, 12)) [(256, 20), (300, 12)] r) ↔
        num * size + Arch.avr.heapOverhead < Arch.avr.space ∨
          ∀ x ∈ [(256, 20), (300, 12)], x.2 < needFor Arch.avr (num * size % Arch.avr.space))
  := by
  obtain ⟨hlist, hl, hfits⟩ :=
    two_fits (x := (256, 20)) (y := (300, 12)) (by decide) (by decide) (by decide) (by decide)
  apply honoured_iff hlist hl hfits

/-- A request for 65535 bytes is given a node of 4 bytes, and one for an array of 256 times
256 bytes as well. -/
theorem size_wraps :
  (two (256, 20) (300, 12)).FreeList [(256, 20), (300, 12)] ∧
    Blocks.Separated [(256, 20), (300, 12)] ∧
    (∀ x ∈ [(256, 20), (300, 12)], Arch.avr.Fits x) ∧
    (¬ ∃ r, (two (256, 20) (300, 12)).mmAlloc Arch.avr .bestFit 65535 = some r ∧
      Honoured Arch.avr 65535 (two (256, 20) (300, 12)) [(256, 20), (300, 12)] r) ∧
    ¬ ∃ r, (two (256, 20) (300, 12)).calloc Arch.avr .bestFit 256 256 = some r ∧
      Honoured Arch.avr (256 * 256) (two (256, 20) (300, 12)) [(256, 20), (300, 12)] r
  := by
  obtain ⟨hlist, hl, hfits⟩ :=
    two_fits (x := (256, 20)) (y := (300, 12)) (by decide) (by decide) (by decide) (by decide)
  have hwraps (size : ℕ) (hsize : 65535 ≤ size) (hneed : needFor Arch.avr size = 4) :
      ¬ ∃ r, (two (256, 20) (300, 12)).rawMmHeapAlloc Arch.avr (size % Arch.avr.space)
          (compare .bestFit) = some r ∧
        Honoured Arch.avr size (two (256, 20) (300, 12)) [(256, 20), (300, 12)] r := by
    rw [honoured_alloc hlist hl hfits, hneed]
    rintro (hlt | hall)
    · have hspace : Arch.avr.space = 65536 := rfl
      have hoverhead : Arch.avr.heapOverhead = 2 := rfl
      omega
    · have := hall (256, 20) (by simp)
      omega
  refine ⟨hlist, hl, hfits, ?_, ?_⟩
  · apply hwraps 65535 le_rfl (by rfl)
  · apply hwraps (256 * 256) (by decide) (by rfl)

end Heap

end Etaos.Mm
