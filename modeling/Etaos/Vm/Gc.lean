import Etaos.Vm.SweepSpec
import Etaos.Vm.Sound

/-!
# The collector keeps what can be reached

A run of the collector keeps the objects that can be reached from the roots, with their fields, and
makes one free chunk of everything between two of them.
-/

namespace Etaos.Vm

open Chain Marking Tiling

namespace Memory

variable {m : Memory} {g : Bool} {S : Finset ℕ} {p : ℕ}

/-- Painting sets the mark of the objects it is for, and leaves other descriptors alone. -/
theorem desc_paint (hp : p + 1 ∉ S) :
  (m.paint g S).desc p = if p ∈ S then (m.desc p).setGcval g else m.desc p
  := by
  have hword : (m.desc p).setGcval g = m (p + 1) ++ markByte g (m p) := setGcval_append _ _ _
  rw [hword, desc, word, paint_of_not_mem hp, paint]
  split <;> rfl

end Memory

namespace State

/-- What a run of the collector does: the objects that can be reached stay, with their fields, and
no two free chunks follow one another. -/
structure Collected (vm vm' : State) : Prop where
  global : vm'.global = vm.global
  heap : vm'.heap = { vm.heap with
    mem := vm'.heap.mem
    pfreelist := vm'.heap.pfreelist
    avail := vm'.heap.avail
    gcval := !vm.heap.gcval }
  objects : ∀ p, p ∈ vm'.heap.objects ↔ p ∈ vm.heap.objects ∧ vm.Reachable p
  sublist : vm'.heap.objects.Sublist vm.heap.objects
  desc : ∀ p ∈ vm'.heap.objects,
    vm'.heap.mem.desc p = (vm.heap.mem.desc p).setGcval (!vm.heap.gcval)
  fields : ∀ p ∈ vm'.heap.objects, ∀ c, p < c → c < p + vm.heap.mem.extent p →
    (vm.heap.mem.type p = some .str → c < p + 4 ∨ p + 6 ≤ c) → vm'.heap.mem c = vm.heap.mem c
  outside : ∀ c, c < vm.heap.base ∨ vm.heap.base + vm.heap.size ≤ c →
    c ≠ vm.global.nativeframe → vm'.heap.mem c = vm.heap.mem c
  coalesced : vm'.heap.chunks.IsChain fun p q =>
    vm'.heap.isFree p = false ∨ vm'.heap.isFree q = false
  strings : ∀ l, IsChain vm.heap.mem.next vm.pstrcache l →
    ∃ l', IsChain vm'.heap.mem.next vm'.pstrcache l' ∧ l'.Sublist l ∧
      ∀ p ∈ l, p ∈ l' ↔ vm.Reachable p

variable {vm : State} {h₂ : Heap} {S : Finset ℕ} {l lf : List ℕ} {p q c : ℕ}

/-- The marking puts the new mark on what can be reached. -/
theorem Sound.gcMarkRoots_eq (hv : vm.Sound) :
  ∃ S ⊆ vm.known, vm.heap.gcMarkRoots vm.global (vm.heap.size + 2)
      = some ({ vm.heap with
          gcval := !vm.heap.gcval
          mem := vm.heap.mem.paint (!vm.heap.gcval) S }, .ok) ∧ ∀ q, q ∈ S ↔ vm.Reachable q
  := by
  apply Heap.gcMarkRoots_eq hv.typed _ hv.roots hv.card_known_lt
  intro q hq
  rcases mem_known.mp hq with rfl | hq
  · exact hv.mark
  · exact hv.inv.marked q hq

/-! ### The cache of the strings -/

/-- The heap when the objects of `S` have the new mark, and only the strings of `l` are in the
cache. -/
structure Purged (vm : State) (h₂ : Heap) (S : Finset ℕ) (l : List ℕ) : Prop where
  eq : h₂ = { vm.heap with mem := h₂.mem, gcval := !vm.heap.gcval }
  sub : S ⊆ vm.known
  strings : l ⊆ vm.heap.objects
  frame : ∀ c, c ∉ S → (∀ y ∈ l, c < y + 4 ∨ y + 6 ≤ c) → h₂.mem c = vm.heap.mem c
  desc : ∀ p, p ∈ vm.heap.chunks ∨ p = vm.global.nativeframe →
    h₂.mem.desc p = if p ∈ S then (vm.heap.mem.desc p).setGcval (!vm.heap.gcval)
      else vm.heap.mem.desc p

/-- The strings of the cache that have the new mark stay in it. -/
theorem Sound.purged (hv : vm.Sound) (hS : S ⊆ vm.known)
    (hl : IsChain vm.heap.mem.next vm.pstrcache l) (hobjects : l ⊆ vm.heap.objects) :
  ∃ pstrcache mem, (vm.heap.mem.paint (!vm.heap.gcval) S).purgeStringCache (!vm.heap.gcval)
      (vm.heap.size + 2) vm.pstrcache = some (pstrcache, mem) ∧
    IsChain mem.next pstrcache (l.filter fun p => p ∈ S) ∧
      Purged vm { vm.heap with mem, gcval := !vm.heap.gcval } S (l.filter fun p => p ∈ S)
  := by
  obtain ⟨lf, hs, -⟩ := hv.inv.shape
  set m := vm.heap.mem.paint (!vm.heap.gcval) S with hm
  have hchunks (y : ℕ) (hy : y ∈ l) : y ∈ vm.heap.chunks :=
    (Heap.mem_objects.mp (hobjects hy)).1
  have hchain : IsChain m.next vm.pstrcache l := by
    apply segment_congr _ hl
    intro y hy
    have := hv.bounds (hchunks y hy)
    rw [HEAP_MIN_CHUNK_SIZE] at this
    apply Memory.ptr_congr
    apply Memory.word_congr <;>
    · apply Memory.paint_of_not_mem
      exact hv.not_mem_of_chunk hS (hchunks y hy) (by omega) (by omega)
  have hlength : l.length < vm.heap.size + 2 := by
    have hsub : l ⊆ vm.heap.chunks := hchunks
    have := (List.subperm_of_subset hl.nodup hsub).length_le
    have := hs.tiles.length_le
    omega
  have hapart : l.Pairwise Apart := by
    apply hl.nodup.imp_of_mem
    intro y z hy hz hne
    exact (hs.apart (hchunks y hy) (hchunks z hz)).resolve_left hne
  have hdesc (p : ℕ) (hp : p ∈ vm.heap.chunks ∨ p = vm.global.nativeframe) :
      m.desc p = if p ∈ S then (vm.heap.mem.desc p).setGcval (!vm.heap.gcval)
        else vm.heap.mem.desc p := by
    apply Memory.desc_paint
    rcases hp with hp | rfl
    · have := hv.bounds hp
      rw [HEAP_MIN_CHUNK_SIZE] at this
      exact hv.not_mem_of_chunk hS hp (by omega) (by omega)
    · intro hmem
      have hframe := hv.frame
      rcases mem_known.mp (hS hmem) with heq | hobj
      · omega
      · have := hv.bounds (Heap.mem_objects.mp hobj).1
        rw [HEAP_MIN_CHUNK_SIZE] at this
        omega
  have hfilter : l.filter (m.marked (!vm.heap.gcval)) = l.filter fun p => p ∈ S := by
    apply List.filter_congr
    intro y hy
    have hold := hv.inv.marked y (hobjects hy)
    rw [Heap.mark] at hold
    rw [Memory.marked, hdesc y (.inl (hchunks y hy))]
    by_cases hyS : y ∈ S
    · simp [hyS]
    · simp [hyS, hold]
  obtain ⟨p', m', heq, hchain', hunlinked⟩ := Memory.purgeStringCache_eq (g := !vm.heap.gcval)
    hchain hlength hapart
  rw [hfilter] at hchain' hunlinked
  refine ⟨p', m', heq, hchain', rfl, hS, ?_, ?_, ?_⟩
  · exact fun y hy => hobjects (List.mem_of_mem_filter hy)
  · intro c hc hlinks
    exact (hunlinked c hlinks).trans (Memory.paint_of_not_mem hc)
  · intro p hp
    rw [← hdesc p hp]
    have hout (k : ℕ) (hk : k ≤ 1) (y : ℕ) (hy : y ∈ l.filter fun p => p ∈ S) :
        p + k < y + 4 ∨ y + 6 ≤ p + k := by
      have hychunk := hchunks y (List.mem_of_mem_filter hy)
      have hybounds := hv.bounds hychunk
      rw [HEAP_MIN_CHUNK_SIZE] at hybounds
      rcases hp with hp | rfl
      · have := hs.apart hychunk hp
        simp only [Apart, HEAP_MIN_CHUNK_SIZE] at this
        omega
      · have := hv.frame
        omega
    exact Memory.word_congr (hunlinked p (hout 0 (by omega))) (hunlinked (p + 1) (hout 1 le_rfl))

namespace Purged

variable (hp₂ : Purged vm h₂ S l)

include hp₂

/-- What is free before the marks are set is free afterwards. -/
theorem isFree (hp : p ∈ vm.heap.chunks) : h₂.isFree p = vm.heap.isFree p := by
  rw [Heap.isFree, hp₂.desc p (.inl hp), Heap.isFree]
  split
  · rw [Desc.free_setGcval]
  · rfl

/-- The marks and the cache links leave the sizes alone. -/
theorem extent (hp : p ∈ vm.heap.chunks) : h₂.mem.extent p = vm.heap.mem.extent p := by
  rw [Memory.extent, Memory.extent, hp₂.desc p (.inl hp)]
  split <;> simp

/-- The free list is not reached by the marks and the cache links. -/
theorem shape (hv : vm.Sound) (hs : vm.heap.Shape vm.heap.chunks lf) :
  h₂.Shape vm.heap.chunks lf
  := by
  apply hs.congr (by rw [hp₂.eq]) fun p hp => hp₂.extent hp
  intro p hp c hpc hc
  have hlarge := hs.large p (hs.sub hp)
  have hfree := (hs.free p hp).2
  have hobj (y : ℕ) (hy : y ∈ vm.heap.objects) : Apart p y := by
    obtain ⟨hychunk, hlive⟩ := Heap.mem_objects.mp hy
    apply (hs.apart (hs.sub hp) hychunk).resolve_left
    rintro rfl
    cases hfree.symm.trans hlive
  rw [HEAP_MIN_CHUNK_SIZE] at hlarge
  apply hp₂.frame
  · by_cases hcp : c = p
    · intro hmem
      have hbounds := hv.ne_nativeframe (hs.sub hp)
      have hpobj := hobj p ((mem_known.mp (hp₂.sub (hcp ▸ hmem))).resolve_left hbounds)
      simp only [Apart, HEAP_MIN_CHUNK_SIZE] at hpobj
      omega
    · exact hv.not_mem_of_chunk hp₂.sub (hs.sub hp) (by omega) (by omega)
  · intro y hy
    have := hobj y (hp₂.strings hy)
    simp only [Apart, HEAP_MIN_CHUNK_SIZE] at this
    omega

/-- The sweep keeps the objects that are marked. -/
theorem kept (hv : vm.Sound) (hp : p ∈ vm.heap.chunks) :
  h₂.kept p = true ↔ vm.heap.isFree p = false ∧ p ∈ S
  := by
  have hgcval : h₂.gcval = !vm.heap.gcval := by rw [hp₂.eq]
  rw [Heap.kept_iff, hp₂.isFree hp, Heap.mark, hp₂.desc p (.inl hp), hgcval]
  apply and_congr_right
  intro hlive
  have hold : (vm.heap.mem.desc p).gcval = vm.heap.gcval :=
    hv.inv.marked p (Heap.mem_objects.mpr ⟨hp, hlive⟩)
  by_cases hpS : p ∈ S
  · simp [hpS]
  · simp [hpS, hold]

end Purged

/-! ### The run of the collector -/

/-- What a reachable object refers to is reachable. -/
theorem Reachable.succ (hp : vm.Reachable p) (hq : q ∈ vm.heap.mem.succ vm.global.nativeframe p) :
  vm.Reachable q
  := by
  obtain ⟨r, hr, hrp⟩ := hp
  exact ⟨r, hr, hrp.tail hq⟩

/-- A root is reachable. -/
theorem reachable_of_root (hp : some p ∈ vm.heap.roots vm.global) : vm.Reachable p :=
  ⟨p, hp, Relation.ReflTransGen.refl⟩

/-- The native frame is a root. -/
theorem reachable_nativeframe : vm.Reachable vm.global.nativeframe := by
  apply reachable_of_root
  simp [Heap.roots]

namespace Collected

variable {vm' : State} (hv : vm.Sound) (hc : Collected vm vm')

include hc

/-- The collector keeps the objects that are reachable, and the native frame. -/
theorem mem_known : p ∈ vm'.known ↔ p ∈ vm.known ∧ vm.Reachable p := by
  rw [State.mem_known, State.mem_known, hc.global, hc.objects]
  constructor
  · rintro (rfl | hp)
    · exact ⟨.inl rfl, reachable_nativeframe⟩
    · exact ⟨.inr hp.1, hp.2⟩
  · rintro ⟨rfl | hp, hreach⟩
    · exact .inl rfl
    · exact .inr ⟨hp, hreach⟩

/-- An object that is kept has its size. -/
theorem extent (hp : p ∈ vm'.known) : vm'.extent p = vm.extent p := by
  rw [State.extent, State.extent, hc.global]
  rcases State.mem_known.mp hp with rfl | hobj
  · rw [hc.global, if_pos rfl, if_pos rfl]
  · rw [Memory.extent, Memory.extent, hc.desc p hobj]
    simp

include hv

/-- An object that is kept has its fields. -/
theorem sameFields : Memory.SameFields vm'.known vm.heap.mem vm'.heap.mem := by
  intro p hp q hpq hq
  have hknown := ((hc.mem_known).mp hp).1
  have hlayout := (hv.typed.layout p hknown).2
  rcases State.mem_known.mp hp with rfl | hobj
  · rw [hc.global] at hpq hq hlayout
    rw [State.extent, if_pos rfl] at hlayout
    have := hv.frame
    exact hc.outside q (by omega) (by omega)
  · have hchunk := (Heap.mem_objects.mp ((hc.objects p).mp hobj).1).1
    rw [hv.extent_eq hchunk] at hlayout
    apply hc.fields p hobj q hpq (by omega)
    intro htype
    have : vm.heap.mem.layout p = 2 := by rw [Memory.layout, htype]
    omega

/-- The objects that are kept refer to objects that are kept. -/
theorem closedIn : vm.heap.mem.ClosedIn vm.global.nativeframe vm'.known := by
  intro p hp q hq
  rw [hc.mem_known] at hp ⊢
  exact ⟨hv.succ_known hp.1 hq, hp.2.succ hq⟩

/-- The state is sound after the run. -/
theorem sound (hinv : vm'.heap.Inv)
    (hmark : vm'.heap.mark vm.global.nativeframe = vm'.heap.gcval) :
  vm'.Sound
  := by
  have hbase : vm'.heap.base = vm.heap.base := by rw [hc.heap]
  have hsize : vm'.heap.size = vm.heap.size := by rw [hc.heap]
  refine ⟨⟨hinv, ?_, ?_, ?_⟩, ?_⟩
  · rw [hc.global]
    exact hv.pos
  · rw [hc.global, hbase, hsize]
    exact hv.frame
  · rw [hc.global]
    exact hmark
  · apply hv.part hc.global
    · exact fun p hp => (hc.mem_known.mp hp).1
    · exact hc.closedIn hv
    · exact hc.sameFields hv
    · exact fun p hp => hc.extent hp
    · rw [hc.global, Heap.roots, Heap.roots, hc.heap]
    · intro p hp
      exact hc.mem_known.mpr ⟨(hv.roots _ hp).1, reachable_of_root hp⟩
    · obtain ⟨l, hl, hstr⟩ := hv.strings
      obtain ⟨l', hl', hsublist, hmem⟩ := hc.strings l hl
      refine ⟨l', hl', ?_⟩
      intro p hp
      have hpl := hsublist.subset hp
      exact ⟨(hc.objects p).mpr ⟨(hstr p hpl).1, (hmem p hpl).mp hp⟩, (hstr p hpl).2⟩

end Collected

/-! ### The walk over the heap -/

/-- The heap when the objects of `S` are left. -/
structure Walked (vm : State) (h₂ h₃ : Heap) (S : Finset ℕ) : Prop where
  inv : h₃.Inv
  eq : h₃ = { h₂ with mem := h₃.mem, pfreelist := h₃.pfreelist, avail := h₃.avail }
  objects : h₃.objects = vm.heap.objects.filter fun p => p ∈ S
  desc : ∀ p ∈ h₃.objects, h₃.mem.desc p = h₂.mem.desc p
  frame : ∀ c, (∀ y ∈ vm.heap.chunks, y ∉ h₃.objects → c < y ∨ y + vm.heap.mem.extent y ≤ c) →
    h₃.mem c = h₂.mem c
  coalesced : h₃.chunks.IsChain fun p q => h₃.isFree p = false ∨ h₃.isFree q = false

/-- The sweep goes through all chunks. -/
theorem Purged.walked (hp₂ : Purged vm h₂ S l) (hv : vm.Sound) :
  ∃ h₃, h₂.sweepFrom (vm.heap.size + 2) vm.heap.base = some h₃ ∧ Walked vm h₂ h₃ S
  := by
  obtain ⟨lf, hs, hperm⟩ := hv.inv.shape
  have hlisted (p : ℕ) (hp : p ∈ vm.heap.chunks) (hfree : h₂.isFree p = true) : p ∈ lf := by
    rw [hp₂.isFree hp] at hfree
    exact hperm.mem_iff.mpr (Heap.mem_freeChunks.mpr ⟨hp, hfree⟩)
  have hlength : vm.heap.chunks.length + 1 < vm.heap.size + 2 := by
    have := hs.tiles.length_le
    omega
  have hstart : vm.heap.chunks.head?.getD h₂.limit = vm.heap.base := by
    have htiles := hs.tiles
    have hlimit : h₂.limit = vm.heap.base + vm.heap.size := by rw [Heap.limit, hp₂.eq]
    revert htiles
    cases vm.heap.chunks with
    | nil => exact fun htiles => hlimit.trans htiles.symm
    | cons p cs => exact fun htiles => htiles.1
  obtain ⟨h₃, cs, l₃, hsweep, hw⟩ := Heap.sweepFrom_eq (vm.heap.size + 2) vm.heap.chunks (a := [])
    (hp₂.shape hv hs) hlisted hlength
  rw [hstart] at hsweep
  have hchunks : h₃.chunks = cs := hw.shape.chunks_eq
  have hobjects : h₃.objects = vm.heap.chunks.filter h₂.kept := by
    rw [Heap.objects, hchunks]
    exact hw.kept
  have hdesc (p : ℕ) (hp : p ∈ h₃.objects) : h₃.mem.desc p = h₂.mem.desc p :=
    hw.desc p (hobjects ▸ hp)
  have hgcval : h₃.gcval = h₂.gcval := by rw [hw.writes.eq]
  refine ⟨h₃, hsweep, ?_, hw.writes.eq, ?_, hdesc, ?_, hchunks ▸ hw.coalesced⟩
  · apply hw.shape.inv hw.listed
    intro p hp hlive
    have hobj : p ∈ h₃.objects := Heap.mem_objects.mpr ⟨hchunks ▸ hp, hlive⟩
    have hkept := List.of_mem_filter (hobjects ▸ hobj)
    rw [Heap.mark, hdesc p hobj, hgcval]
    exact (Heap.kept_iff.mp hkept).2
  · rw [hobjects, Heap.objects, List.filter_filter]
    apply List.filter_congr
    intro p hp
    rw [Bool.eq_iff_iff, hp₂.kept hv hp]
    simp [and_comm]
  · intro c hc
    apply hw.writes.frame
    intro y hy
    have hdead : y ∈ vm.heap.chunks ∧ h₂.kept y = false := by
      rcases List.mem_append.mp hy with hyl | hyf
      · have hychunk := hs.sub hyl
        refine ⟨hychunk, ?_⟩
        rw [← Bool.not_eq_true, hp₂.kept hv hychunk, (hs.free y hyl).2]
        simp
      · simpa using List.mem_filter.mp hyf
    rw [hp₂.extent hdead.1]
    apply hc y hdead.1
    rw [hobjects, List.mem_filter, hdead.2]
    simp

/-- A run of the collector keeps the objects that can be reached. -/
theorem Sound.gcRun (hv : vm.Sound) :
  ∃ vm', vm.gcRun = some (vm', .ok) ∧ vm'.Sound ∧ Collected vm vm'
  := by
  obtain ⟨S, hS, hmarkRoots, hreach⟩ := hv.gcMarkRoots_eq
  obtain ⟨l, hl, hstr⟩ := hv.strings
  obtain ⟨pstrcache, mem, hpurge, hchain, hp₂⟩ := hv.purged hS hl fun p hp => (hstr p hp).1
  obtain ⟨h₃, hsweep, hw⟩ := hp₂.walked hv
  have hmem (p : ℕ) : p ∈ h₃.objects ↔ p ∈ vm.heap.objects ∧ vm.Reachable p := by
    rw [hw.objects, List.mem_filter, decide_eq_true_iff, hreach]
  have hchunk (p : ℕ) (hp : p ∈ h₃.objects) : p ∈ vm.heap.chunks :=
    (Heap.mem_objects.mp ((hmem p).mp hp).1).1
  have hgcval : h₃.gcval = !vm.heap.gcval := by rw [hw.eq]
  -- the bytes of the objects that are left
  have hbytes (p : ℕ) (hp : p ∈ h₃.objects) (c : ℕ) (hpc : p ≤ c)
      (hc : c < p + vm.heap.mem.extent p) : h₃.mem c = mem c := by
    apply hw.frame
    intro y hy hdead
    have hne : p ≠ y := fun heq => hdead (heq ▸ hp)
    have := hv.disjoint (hchunk p hp) hy hne
    omega
  have houtside (c : ℕ) (hc : c < vm.heap.base ∨ vm.heap.base + vm.heap.size ≤ c) :
      h₃.mem c = mem c := by
    apply hw.frame
    intro y hy _
    have := hv.bounds hy
    omega
  have hc : Collected vm { vm with heap := h₃, pstrcache } := by
    constructor
    · rfl
    · exact hw.eq
    · exact hmem
    · dsimp only
      rw [hw.objects]
      exact List.filter_sublist
    · intro p hp
      have hpS := (hreach p).mpr ((hmem p).mp hp).2
      exact (hw.desc p hp).trans ((hp₂.desc p (.inl (hchunk p hp))).trans (if_pos hpS))
    · intro p hp c hpc hcp hstring
      have hpchunk := hchunk p hp
      refine (hbytes p hp c hpc.le hcp).trans (hp₂.frame c ?_ ?_)
      · exact hv.not_mem_of_chunk hS hpchunk hpc hcp
      · intro y hy
        have hyl := hstr y (List.mem_of_mem_filter hy)
        have hychunk := (Heap.mem_objects.mp hyl.1).1
        have hbounds := hv.bounds hychunk
        rw [HEAP_MIN_CHUNK_SIZE] at hbounds
        by_cases hyp : p = y
        · rw [← hyp]
          apply hstring
          rw [hyp]
          exact hyl.2
        · have := hv.disjoint hpchunk hychunk hyp
          omega
    · intro c hc hne
      refine (houtside c hc).trans (hp₂.frame c ?_ ?_)
      · intro hcS
        have hbounds := hv.bounds
          (Heap.mem_objects.mp ((mem_known.mp (hS hcS)).resolve_left hne)).1
        rw [HEAP_MIN_CHUNK_SIZE] at hbounds
        omega
      · intro y hy
        have hbounds := hv.bounds
          (Heap.mem_objects.mp (hstr y (List.mem_of_mem_filter hy)).1).1
        rw [HEAP_MIN_CHUNK_SIZE] at hbounds
        omega
    · exact hw.coalesced
    · intro l' hl'
      obtain rfl := IsChain.unique hl hl'
      refine ⟨l.filter fun p => p ∈ S, ?_, List.filter_sublist, ?_⟩
      · apply segment_congr _ hchain
        intro y hy
        obtain ⟨hyl, hyS⟩ := List.mem_filter.mp hy
        rw [decide_eq_true_iff] at hyS
        have hobj : y ∈ h₃.objects := (hmem y).mpr ⟨(hstr y hyl).1, (hreach y).mp hyS⟩
        have hbounds := hv.bounds (hchunk y hobj)
        rw [HEAP_MIN_CHUNK_SIZE] at hbounds
        apply Memory.ptr_congr
        apply Memory.word_congr <;>
        · apply hbytes y hobj <;> omega
      · intro p hp
        rw [List.mem_filter, decide_eq_true_iff, hreach]
        exact and_iff_right hp
  refine ⟨_, ?_, hc.sound hv hw.inv ?_, hc⟩
  · rw [State.gcRun, hmarkRoots]
    simp only [Option.bind_eq_bind, Option.bind_some, if_true, Heap.gcSweep, hpurge, hsweep]
  · have hframe := hv.frame
    have hnf : h₃.mem.desc vm.global.nativeframe = mem.desc vm.global.nativeframe :=
      Memory.word_congr (houtside _ (by omega)) (houtside _ (by omega))
    have hmem : vm.global.nativeframe ∈ S := (hreach _).mpr reachable_nativeframe
    have hdesc : mem.desc vm.global.nativeframe = _ := hp₂.desc _ (.inr rfl)
    rw [if_pos hmem] at hdesc
    dsimp only
    rw [Heap.mark, hnf, hdesc, Desc.gcval_setGcval, hgcval]

/-- The bytes of the objects that are gone are available again. -/
theorem Collected.avail {vm' : State} (hc : Collected vm vm') (hv : vm.Sound) (hv' : vm'.Sound) :
  vm'.heap.avail = vm.heap.avail +
    ((vm.heap.objects.filter fun p => p ∉ vm'.heap.objects).map vm.heap.mem.extent).sum
  := by
  have hextent : vm'.heap.objects.map vm'.heap.mem.extent
      = vm'.heap.objects.map vm.heap.mem.extent := by
    apply List.map_congr_left
    intro p hp
    rw [Memory.extent, Memory.extent, hc.desc p hp]
    simp
  have hkept : (vm.heap.objects.filter fun p => p ∈ vm'.heap.objects).Perm vm'.heap.objects := by
    rw [List.perm_ext_iff_of_nodup (hv.inv.nodup_objects.filter _) hv'.inv.nodup_objects]
    intro p
    rw [List.mem_filter, decide_eq_true_iff]
    exact ⟨And.right, fun hp => ⟨hc.sublist.subset hp, hp⟩⟩
  have hsplit := ((List.filter_append_perm (fun p => p ∈ vm'.heap.objects) vm.heap.objects).map
    vm.heap.mem.extent).sum_eq
  have hsum := (hkept.map vm.heap.mem.extent).sum_eq
  have hsize : vm'.heap.size = vm.heap.size := by rw [hc.heap]
  have := hv.inv.avail_add
  have := hv'.inv.avail_add
  rw [List.map_append, List.sum_append] at hsplit
  rw [hextent] at this
  simp only [decide_not] at hsplit ⊢
  omega

/-- A run of the collector ends, keeps what can be reached, and makes the other bytes
available. -/
theorem gcRun_reclaims (hv : vm.Sound) :
  ∃ vm', vm.gcRun = some (vm', .ok) ∧ Collected vm vm' ∧
    vm'.heap.avail = vm.heap.avail +
      ((vm.heap.objects.filter fun p => p ∉ vm'.heap.objects).map vm.heap.mem.extent).sum
  := by
  obtain ⟨vm', heq, hv', hc⟩ := hv.gcRun
  exact ⟨vm', heq, hc, hc.avail hv hv'⟩

/-- The collector keeps the tuple and its item, and reclaims the other integer. -/
theorem gcRun_reclaims_sample :
  ∃ vm', sample.gcRun = some (vm', .ok) ∧ Collected sample vm' ∧
    vm'.heap.avail = sample.heap.avail +
      ((sample.heap.objects.filter fun p => p ∉ vm'.heap.objects).map
        sample.heap.mem.extent).sum ∧
    vm'.heap.objects = [32, 40] ∧ vm'.heap.avail = 48
  := by
  obtain ⟨vm', heq, hc, havail⟩ := gcRun_reclaims sample_sound
  have hobjects : sample.gcRun.map (fun r => (r.1.heap.objects, r.1.heap.avail))
      = some ([32, 40], 48) := by decide +kernel
  rw [heq, Option.map_some, Option.some_inj, Prod.mk.injEq] at hobjects
  exact ⟨vm', heq, hc, havail, hobjects⟩

end State

end Etaos.Vm
