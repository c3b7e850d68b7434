import Etaos.Mm.HeapSpec

/-!
# The heap partitions its memory

In every run in which disjoint regions are added, and in which only blocks that were handed
out are released and written to, the nodes of the free list and the blocks handed out
partition the bytes that were added.
-/

namespace Etaos.Mm

variable {arch : Arch}

namespace HeapSystem

variable {s : HeapSystem} {l : List (ℕ × ℕ)}

/-- The blocks handed out. -/
def liveBlocks (arch : Arch) (s : HeapSystem) : List (ℕ × ℕ) :=
  s.live.map (s.blockOf arch)

/-- The free list is `l`, strictly sorted and without adjacent nodes.  Its nodes hold their
headers, and together with the blocks handed out they have every byte that was added once. -/
structure Partition (arch : Arch) (s : HeapSystem) (l : List (ℕ × ℕ)) : Prop where
  freeList : s.heap.FreeList l
  separated : Blocks.Separated l
  fits : ∀ x ∈ l, arch.Fits x
  fits_live : ∀ p ∈ s.live, arch.Fits (s.blockOf arch p)
  cover : ∀ b, Blocks.cover l b + Blocks.cover (s.liveBlocks arch) b = Blocks.cover s.added b
  once : ∀ b, Blocks.cover s.added b ≤ 1

/-- The condition on a step.  The regions are disjoint, are not at `NULL`, can hold a header
and do not reach the end of the address space; the size of an allocation does not overflow; a
pointer that is released was handed out; and the owner of a block writes to its bytes only. -/
def Ok (arch : Arch) (s : HeapSystem) : HeapOp → Prop
  | .addBlock addr size =>
      0 < addr ∧ addr + size < arch.space ∧ arch.sizeofNode ≤ (aligned arch addr size).2 ∧
        ∀ x ∈ s.added, Blocks.Disjoint x (aligned arch addr size)
  | .alloc _ size => size + arch.heapOverhead + (mmAlignment - 1) < arch.space
  | .free ptr => ptr ∈ s.live
  | .write ptr a _ _ => ptr ∈ s.live ∧ Blocks.Mem a (s.blockOf arch ptr)

instance (s : HeapSystem) : (op : HeapOp) → Decidable (Ok arch s op)
  | .addBlock _ _ => inferInstanceAs (Decidable (_ ∧ _ ∧ _ ∧ _))
  | .alloc _ _ => inferInstanceAs (Decidable (_ < _))
  | .free _ => inferInstanceAs (Decidable (_ ∈ _))
  | .write _ _ _ _ => inferInstanceAs (Decidable (_ ∧ _))

/-- The pointer to the bytes behind the size of a node leads back to the node. -/
theorem mmRegionToNode_add {x : ℕ × ℕ} (hx : arch.Fits x) :
  Heap.mmRegionToNode arch (x.1 + arch.heapOverhead) = x.1
  := by
  have hspace := hx.space
  rw [Heap.mmRegionToNode]
  rw [show x.1 + arch.heapOverhead + arch.space - arch.heapOverhead = x.1 + arch.space by omega]
  rw [Nat.add_mod_right, Nat.mod_eq_of_lt]
  omega

theorem aligned_eq {addr size : ℕ} (h : addr < arch.space) :
  aligned arch addr size = (addr, size)
  := by
  simp [aligned, mmTopAlign, mmBottomAlign, mmAlignment, Nat.mod_eq_of_lt h]

/-- The header of a block handed out is in no free node. -/
theorem Partition.cover_eq_zero (h : s.Partition arch l) {p : ℕ} (hp : p ∈ s.live) :
  Blocks.cover l (Heap.mmRegionToNode arch p) = 0
  := by
  have hpos := (h.fits_live p hp).size_pos
  have hlive : 1 ≤ Blocks.cover (s.liveBlocks arch) (Heap.mmRegionToNode arch p) := by
    apply Blocks.cover_pos (List.mem_map_of_mem hp)
    simp only [Blocks.Mem, blockOf] at hpos ⊢
    omega
  have hcover := h.cover (Heap.mmRegionToNode arch p)
  have honce := h.once (Heap.mmRegionToNode arch p)
  omega

/-- An address in no free node is not the start of one. -/
theorem Partition.not_start (h : s.Partition arch l) {q : ℕ} (hq : Blocks.cover l q = 0) :
  q ∉ l.map Prod.fst
  := by
  intro hmem
  obtain ⟨x, hx, rfl⟩ := List.mem_map.mp hmem
  have := (h.fits x hx).size_pos
  have := Blocks.cover_pos (b := x.1) hx (by simp only [Blocks.Mem]; omega)
  omega

/-- A block inserted into the free list fits when it did before. -/
theorem fits_insert {x : ℕ × ℕ} (hx : arch.Fits x) (hl : ∀ y ∈ l, arch.Fits y) :
  ∀ y ∈ Blocks.insert x l, arch.Fits y
  := by
  intro y hy
  constructor
  · apply Blocks.lt_of_mem_insert hx.pos (fun z hz => (hl z hz).pos) y hy
  · apply Blocks.le_of_mem_insert hx.size (fun z hz => (hl z hz).size) y hy
  · apply Blocks.end_lt_of_mem_insert hx.space (fun z hz => (hl z hz).space) y hy

/-- The heap without memory is partitioned. -/
theorem partition_empty (size : ℕ → ℕ) (next : ℕ → Option ℕ) :
  (empty size next).Partition arch []
  := by
  constructor
  · exact ⟨rfl, by simp⟩
  all_goals simp [Blocks.Separated, liveBlocks, empty]

/-- The addition of a region, when its node is released without going around a cycle. -/
theorem step_addBlock {addr size : ℕ} {heap : Heap} {e : Int} (hpos : 0 < addr)
    (hspace : addr + size < arch.space) (hsize : arch.sizeofNode ≤ size)
    (hfree : { s.heap with size := Function.update s.heap.size addr size }.freeNode arch addr
      arch.space none s.heap.root = some (heap, e)) :
  step arch s (.addBlock addr size)
    = some { s with heap, added := (addr, size) :: s.added }
  := by
  have hfits : arch.Fits (addr, size) := ⟨hpos, hsize, hspace⟩
  have haligned : aligned arch addr size = (addr, size) := aligned_eq (by omega)
  have hregion := mmRegionToNode_add hfits
  obtain ⟨hnode, hblock⟩ := Prod.mk.inj haligned
  rw [hnode] at hblock
  have hle := arch.heapOverhead_le
  have harea : (addr + arch.heapOverhead) % arch.space = addr + arch.heapOverhead := by
    rw [Nat.mod_eq_of_lt]
    omega
  rw [step, haligned, Heap.rawMmHeapAddBlock]
  simp only [hnode, hblock, harea, Arch.toPtr_eq (a := addr + arch.heapOverhead) (by omega),
    Heap.rawMmHeapFree, hregion, hfree, Option.map_some]

/-- A region is added. -/
theorem Partition.addBlock (h : s.Partition arch l) {addr size : ℕ}
    (hok : Ok arch s (.addBlock addr size)) :
  ∃ t, step arch s (.addBlock addr size) = some t ∧ ∃ l', t.Partition arch l'
  := by
  obtain ⟨hpos, hspace, hsize, hdisjoint⟩ := hok
  have haligned : aligned arch addr size = (addr, size) := aligned_eq (by omega)
  rw [haligned] at hsize hdisjoint
  have hfits : arch.Fits (addr, size) := ⟨hpos, hsize, hspace⟩
  have honce := Blocks.cover_cons_le_one h.once hdisjoint
  have hfree (x : ℕ × ℕ) (hx : x ∈ l) : Blocks.Disjoint x (addr, size) := by
    apply Blocks.disjoint_of_cover_le _ hx (List.mem_singleton_self (addr, size))
      (h.fits x hx).size_pos hfits.size_pos
    intro b
    have := h.cover b
    have := honce b
    rw [Blocks.cover_cons, ← Blocks.cover_singleton] at this
    omega
  have hstart (x : ℕ × ℕ) (hx : x ∈ l) : x.1 ≠ addr := by
    have := hfree x hx
    have := (h.fits x hx).size_pos
    have := hfits.size_pos
    simp only [Blocks.Disjoint] at *
    omega
  -- the header that is written is not in a block handed out
  have hlive (p : ℕ) (hp : p ∈ s.live) : Heap.mmRegionToNode arch p ≠ addr := by
    rintro rfl
    have hmem : s.blockOf arch p ∈ s.liveBlocks arch := List.mem_map_of_mem hp
    have hppos := (h.fits_live p hp).size_pos
    have hnode : Blocks.Mem (Heap.mmRegionToNode arch p) (s.blockOf arch p) := by
      simp only [Blocks.Mem, blockOf] at hppos ⊢
      omega
    have := Blocks.cover_pos hmem hnode
    have := h.cover (Heap.mmRegionToNode arch p)
    have hone := honce (Heap.mmRegionToNode arch p)
    have hself : Blocks.Mem (Heap.mmRegionToNode arch p) (Heap.mmRegionToNode arch p, size) := by
      have := hfits.size_pos
      simp only [Blocks.Mem] at this ⊢
      omega
    rw [Blocks.cover_cons, if_pos hself] at hone
    omega
  let heap₀ : Heap := { s.heap with size := Function.update s.heap.size addr size }
  have hsize₀ : heap₀.size addr = size := Function.update_self ..
  have hlist : heap₀.FreeList l := by
    refine ⟨h.freeList.chain, ?_⟩
    intro x hx
    rw [← h.freeList.size x hx]
    apply Function.update_of_ne (hstart x hx)
  have hfits₀ : arch.Fits (addr, heap₀.size addr) := by rwa [hsize₀]
  have hfree₀ : ∀ x ∈ l, Blocks.Disjoint x (addr, heap₀.size addr) := by rwa [hsize₀]
  obtain ⟨heap', hrun, hlist', hframe⟩ := hlist.freeNode h.separated h.fits hfits₀ hfree₀
  rw [hsize₀] at hlist'
  have hblock (p : ℕ) (hp : p ∈ s.live) :
      blockOf arch { s with heap := heap' } p = s.blockOf arch p := by
    have hkept : heap₀.size (Heap.mmRegionToNode arch p)
        = s.heap.size (Heap.mmRegionToNode arch p) := Function.update_of_ne (hlive p hp) ..
    rw [blockOf, blockOf, hframe _ (h.not_start (h.cover_eq_zero hp)) (hlive p hp), hkept]
  refine ⟨_, step_addBlock hpos hspace hsize hrun, _, hlist', ?_, ?_, ?_, ?_, honce⟩
  · apply Blocks.Separated.insert hfits.size_pos h.separated
      (fun x hx => (h.fits x hx).size_pos) hfree
  · apply fits_insert hfits h.fits
  · intro p hp
    have := h.fits_live p hp
    rwa [← hblock p hp] at this
  · intro b
    have hmap : liveBlocks arch { s with heap := heap', added := (addr, size) :: s.added }
        = s.liveBlocks arch := List.map_congr_left hblock
    have := h.cover b
    rw [hmap, Blocks.cover_insert, Blocks.cover_cons _ s.added, ← Blocks.cover_singleton]
    omega

/-- A block that was taken off the free list is handed out, and the other blocks handed out
are kept. -/
theorem Partition.taken (h : s.Partition arch l) {heap' : Heap} {l' : List (ℕ × ℕ)} {need fit : ℕ}
    (htaken : Heap.Taken arch s.heap heap' l l' need fit) :
  (∀ p ∈ s.live, blockOf arch
      { s with heap := heap', live := (fit + arch.heapOverhead) :: s.live } p = s.blockOf arch p) ∧
    Partition arch { s with heap := heap', live := (fit + arch.heapOverhead) :: s.live } l'
  := by
  have hregion : Heap.mmRegionToNode arch (fit + arch.heapOverhead) = fit :=
    mmRegionToNode_add htaken.fits_taken
  have hblock (p : ℕ) (hp : p ∈ s.live) : blockOf arch
      { s with heap := heap', live := (fit + arch.heapOverhead) :: s.live } p
        = s.blockOf arch p := by
    rw [blockOf, blockOf, htaken.frame _ (h.cover_eq_zero hp)]
  refine ⟨hblock, htaken.freeList, htaken.separated, htaken.fits, ?_, ?_, h.once⟩
  · intro p hp
    rcases List.mem_cons.mp hp with rfl | hp
    · rw [blockOf, hregion]
      exact htaken.fits_taken
    · rw [hblock p hp]
      apply h.fits_live p hp
  · intro b
    have hmap : s.live.map
        (blockOf arch { s with heap := heap', live := (fit + arch.heapOverhead) :: s.live })
          = s.liveBlocks arch := List.map_congr_left hblock
    have := htaken.cover b
    have := h.cover b
    rw [liveBlocks, List.map_cons, hmap, Blocks.cover_cons, ← Blocks.cover_singleton]
    rw [blockOf, hregion]
    dsimp only
    omega

/-- An allocation finds nothing, or takes a block off the free list. -/
theorem Partition.alloc (h : s.Partition arch l) {policy : Allocator} {size : ℕ}
    (hok : Ok arch s (.alloc policy size)) :
  ∃ t, step arch s (.alloc policy size) = some t ∧ ∃ l', t.Partition arch l'
  := by
  rcases h.freeList.alloc h.separated h.fits hok (Heap.compare policy) with hnone | hsome
  · refine ⟨s, ?_, l, h⟩
    rw [step, hnone]
    rfl
  · obtain ⟨heap', fit, l', hrun, htaken⟩ := hsome
    refine ⟨{ s with heap := heap', live := (fit + arch.heapOverhead) :: s.live }, ?_, l',
      (h.taken htaken).2⟩
    rw [step, hrun]
    rfl

/-- The addresses of one of the blocks handed out are counted apart. -/
theorem Partition.cover_erase (h : s.Partition arch l) {ptr : ℕ} (hptr : ptr ∈ s.live) (b : ℕ) :
  Blocks.cover l b + Blocks.cover [s.blockOf arch ptr] b
    + Blocks.cover ((s.live.erase ptr).map (s.blockOf arch)) b = Blocks.cover s.added b
  := by
  have hperm : (s.liveBlocks arch).Perm
      (s.blockOf arch ptr :: (s.live.erase ptr).map (s.blockOf arch)) :=
    (List.perm_cons_erase hptr).map (s.blockOf arch)
  rw [← h.cover b, Blocks.cover_perm hperm, Blocks.cover_singleton, Blocks.cover_cons]
  omega

/-- Two blocks handed out are disjoint. -/
theorem Partition.disjoint_live (h : s.Partition arch l) {ptr p : ℕ} (hptr : ptr ∈ s.live)
    (hp : p ∈ s.live.erase ptr) :
  Blocks.Disjoint (s.blockOf arch ptr) (s.blockOf arch p)
  := by
  apply Blocks.disjoint_of_cover_le (l := [s.blockOf arch ptr]) _ (by simp)
    (List.mem_map_of_mem hp) (h.fits_live ptr hptr).size_pos
    (h.fits_live p (List.mem_of_mem_erase hp)).size_pos
  intro b
  have := h.cover_erase hptr b
  have := h.once b
  omega

/-- A block that was handed out is released, and the others are kept. -/
theorem Partition.release (h : s.Partition arch l) {ptr : ℕ} (hptr : ptr ∈ s.live) :
  ∃ heap' l',
    step arch s (.free ptr) = some { s with heap := heap', live := s.live.erase ptr } ∧
      (∀ p ∈ s.live.erase ptr,
        blockOf arch { s with heap := heap', live := s.live.erase ptr } p = s.blockOf arch p) ∧
      Partition arch { s with heap := heap', live := s.live.erase ptr } l'
  := by
  have hfits := h.fits_live ptr hptr
  have hcover := h.cover_erase hptr
  have hfree (x : ℕ × ℕ) (hx : x ∈ l) : Blocks.Disjoint x (s.blockOf arch ptr) := by
    apply Blocks.disjoint_of_cover_le _ hx (List.mem_singleton_self (s.blockOf arch ptr))
      (h.fits x hx).size_pos hfits.size_pos
    intro b
    have := hcover b
    have := h.once b
    omega
  have hlive (p : ℕ) (hp : p ∈ s.live.erase ptr) :
      Heap.mmRegionToNode arch p ≠ Heap.mmRegionToNode arch ptr := by
    have hdisjoint := h.disjoint_live hptr hp
    have hppos := (h.fits_live p (List.mem_of_mem_erase hp)).size_pos
    have hpos := hfits.size_pos
    simp only [Blocks.Disjoint, blockOf] at hdisjoint hpos hppos
    omega
  obtain ⟨heap', hrun, hlist', hframe⟩ := h.freeList.freeNode h.separated h.fits hfits hfree
  have hblock (p : ℕ) (hp : p ∈ s.live.erase ptr) :
      blockOf arch { s with heap := heap', live := s.live.erase ptr } p = s.blockOf arch p := by
    rw [blockOf, blockOf, hframe _ (h.not_start (h.cover_eq_zero (List.mem_of_mem_erase hp)))
      (hlive p hp)]
  refine ⟨heap', _, ?_, hblock, hlist', ?_, ?_, ?_, ?_, h.once⟩
  · rw [step, Heap.rawMmHeapFree, hrun]
    rfl
  · apply Blocks.Separated.insert hfits.size_pos h.separated
      (fun x hx => (h.fits x hx).size_pos) hfree
  · apply fits_insert hfits h.fits
  · intro p hp
    rw [hblock p hp]
    apply h.fits_live p (List.mem_of_mem_erase hp)
  · intro b
    have hmap : liveBlocks arch { s with heap := heap', live := s.live.erase ptr }
        = (s.live.erase ptr).map (s.blockOf arch) := List.map_congr_left hblock
    have := hcover b
    rw [hmap, Blocks.cover_insert]
    simp only [blockOf] at this
    omega

/-- The release of a block that was handed out goes through. -/
theorem Partition.free (h : s.Partition arch l) {ptr : ℕ} (hptr : ptr ∈ s.live) :
  ∃ t, step arch s (.free ptr) = some t ∧ ∃ l', t.Partition arch l'
  := by
  obtain ⟨heap', l', hstep, -, hpartition⟩ := h.release hptr
  exact ⟨_, hstep, l', hpartition⟩

/-- The owner of a block writes to it. -/
theorem Partition.write (h : s.Partition arch l) {ptr a size : ℕ} {next : Option ℕ}
    (hok : Ok arch s (.write ptr a size next)) :
  ∃ t, step arch s (.write ptr a size next) = some t ∧ ∃ l', t.Partition arch l'
  := by
  obtain ⟨hptr, ha⟩ := hok
  have hmem : s.blockOf arch ptr ∈ s.liveBlocks arch := List.mem_map_of_mem hptr
  have hzero : Blocks.cover l a = 0 := by
    have := Blocks.cover_pos hmem ha
    have := h.cover a
    have := h.once a
    omega
  have hnot := h.not_start hzero
  let size' := Function.update s.heap.size a
    (if a = Heap.mmRegionToNode arch ptr then s.heap.size a else size)
  -- the size of a block is not among the bytes that the owner of another block writes to
  have hkept (p : ℕ) (hp : p ∈ s.live) :
      size' (Heap.mmRegionToNode arch p) = s.heap.size (Heap.mmRegionToNode arch p) := by
    by_cases heq : Heap.mmRegionToNode arch p = a
    · have hown : a = Heap.mmRegionToNode arch ptr := by
        by_cases hpp : p = ptr
        · rw [← heq, hpp]
        · have hdisjoint := h.disjoint_live hptr ((List.mem_erase_of_ne hpp).mpr hp)
          have hppos := (h.fits_live p hp).size_pos
          simp only [Blocks.Disjoint, Blocks.Mem, blockOf] at hdisjoint hppos ha
          omega
      simp only [size', heq, Function.update_self, if_pos hown]
    · apply Function.update_of_ne heq
  have hstart (x : ℕ × ℕ) (hx : x ∈ l) : x.1 ≠ a := by
    rintro rfl
    apply hnot (List.mem_map_of_mem hx)
  refine ⟨{ s with heap := { s.heap with
    size := size'
    next := Function.update s.heap.next a next } }, rfl, l, ⟨?_, ?_⟩, h.separated, h.fits, ?_, ?_,
    h.once⟩
  · apply (Chain.segment_update hnot).mpr h.freeList.chain
  · intro x hx
    rw [← h.freeList.size x hx]
    apply Function.update_of_ne (hstart x hx)
  · intro p hp
    rw [blockOf]
    simp only [hkept p hp]
    apply h.fits_live p hp
  · intro b
    rw [← h.cover b]
    have hmap : liveBlocks arch { s with heap := { s.heap with
        size := size'
        next := Function.update s.heap.next a next } } = s.liveBlocks arch := by
      apply List.map_congr_left
      intro p hp
      simp only [blockOf, hkept p hp]
    rw [hmap]

/-- Every step that meets the condition goes through and keeps the memory partitioned. -/
theorem Partition.step (h : s.Partition arch l) {op : HeapOp} (hok : Ok arch s op) :
  ∃ t, s.step arch op = some t ∧ ∃ l', t.Partition arch l'
  := by
  cases op with
  | addBlock addr size => apply h.addBlock hok
  | alloc policy size => apply h.alloc hok
  | free ptr => apply h.free hok
  | write ptr a size next => apply h.write hok

/-- Every run from the heap without memory goes through and leaves its memory partitioned. -/
theorem exec_partition (arch : Arch) (size : ℕ → ℕ) (next : ℕ → Option ℕ) (ops : List HeapOp)
    (hok : Run.Meets (step arch) (Ok arch) (empty size next) ops) :
  ∃ t, Run.exec (step arch) (empty size next) ops = some t ∧ ∃ l, t.Partition arch l
  := by
  apply Run.exec_of_meets (fun s : HeapSystem => ∃ l, s.Partition arch l) _ ops
    ⟨[], partition_empty size next⟩ hok
  rintro s op ⟨l, h⟩ hop
  apply h.step hop

/-- Three regions are added to the heap of an AVR, the second one between the others; two
blocks are taken and released. -/
theorem exec_partition_avr :
  ∃ t, Run.exec (step Arch.avr) (empty (fun _ => 0) (fun _ => none))
      [.addBlock 256 64, .addBlock 400 20, .alloc .bestFit 10, .addBlock 320 40,
        .alloc .worstFit 7, .write 402 410 3 none, .free 402, .alloc .firstFit 100]
    = some t ∧ ∃ l, t.Partition Arch.avr l
  := by
  apply exec_partition
  decide

end HeapSystem

end Etaos.Mm
