import Etaos.Vm.Gc

/-!
# Runs of the virtual machine

What happens to the heap of the virtual machine: objects are allocated and filled in, written,
released and collected.  In every run that starts with `heap_init` the state stays sound.
-/

namespace Etaos.Vm.State

open Chain Marking

variable {vm vm' : State} {h : Heap} {l : List ℕ} {n p q c : ℕ}

/-! ### Writes into some chunks -/

section

variable (hv : vm.Placed) (hw : Heap.WritesIn l vm.heap h) (hl : l ⊆ vm.heap.chunks)

include hv hw hl

theorem Placed.chunk_unchanged (hq : q ∈ vm.heap.chunks) (hql : q ∉ l) (hqc : q ≤ c)
    (hc : c < q + vm.heap.mem.extent q) :
  h.mem c = vm.heap.mem c
  := by
  apply hw.frame
  intro y hy
  have hne : q ≠ y := fun heq => hql (heq ▸ hy)
  have := hv.disjoint hq (hl hy) hne
  omega

theorem Placed.outside_unchanged (hc : c < vm.heap.base ∨ vm.heap.base + vm.heap.size ≤ c) :
  h.mem c = vm.heap.mem c
  := by
  apply hw.frame
  intro y hy
  have := hv.bounds (hl hy)
  omega

theorem Placed.of_writesIn (hinv : h.Inv) : ({ vm with heap := h } : State).Placed := by
  have hbase : h.base = vm.heap.base := by rw [hw.eq]
  have hsize : h.size = vm.heap.size := by rw [hw.eq]
  have hgcval : h.gcval = vm.heap.gcval := by rw [hw.eq]
  have hframe := hv.frame
  refine ⟨hinv, hv.pos, ?_, ?_⟩
  · dsimp only
    rw [hbase, hsize]
    exact hframe
  · have hdesc : h.mem.desc vm.global.nativeframe = vm.heap.mem.desc vm.global.nativeframe :=
      Memory.word_congr (hv.outside_unchanged hw hl (by omega))
        (hv.outside_unchanged hw hl (by omega))
    dsimp only
    rw [Heap.mark, hdesc, hgcval]
    exact hv.mark

end

/-! ### Allocation -/

theorem adjustedSize_spec (hn : n ≤ 2040) :
  HEAP_MIN_CHUNK_SIZE ≤ Heap.adjustedSize n ∧ Heap.adjustedSize n % 4 = 0 ∧
    Heap.adjustedSize n ≤ 2040 ∧ n ≤ Heap.adjustedSize n
  := by
  rw [Heap.adjustedSize, HEAP_MIN_CHUNK_SIZE]
  omega

/-- A state after an attempt to allocate: no chunk is large enough, or one was allocated. -/
inductive Answered (vm : State) (size : ℕ) : State × Except PmReturn ℕ → Prop
  | full (hfull : ∀ p ∈ vm.heap.freeChunks, vm.heap.chunkSize p < size) :
      Answered vm size (vm, .error .exMem)
  | found {h : Heap} {p : ℕ} (hinv : h.Inv) (hallocated : Heap.Allocated vm.heap h p size) :
      Answered vm size ({ vm with heap := h }, .ok p)

/-- An allocation collects when no chunk is large enough, and then tries again. -/
theorem Sound.getChunk (hv : vm.Sound) (hn : n ≤ 2040) :
  ∃ vm₁ r, vm.getChunk n = some r ∧ vm₁.Sound ∧ Answered vm₁ (Heap.adjustedSize n) r ∧
    (vm₁ = vm ∧ (vm.heap.autoGc = true → vm.heap.mem (vm.global.nativeframe + 8) = 0 →
        ∃ p, r.2 = .ok p) ∨
      Collected vm vm₁ ∧ ∀ p ∈ vm.heap.freeChunks, vm.heap.chunkSize p < Heap.adjustedSize n)
  := by
  obtain ⟨hmin, hmod, hmax, -⟩ := adjustedSize_spec hn
  have hlive : ¬ HEAP_MAX_LIVE_CHUNK_SIZE < n := by
    rw [HEAP_MAX_LIVE_CHUNK_SIZE]
    omega
  rw [State.getChunk, if_neg hlive]
  rcases hv.inv.getChunkImpl hmin hmod hmax with ⟨heq, hfull⟩ | ⟨h, p, heq, hinv, hallocated⟩
  · simp only [heq, Option.bind_eq_bind, Option.bind_some]
    by_cases hgc : vm.heap.autoGc = true ∧ vm.heap.mem (vm.global.nativeframe + 8) = 0
    · obtain ⟨vm₁, hrun, hv₁, hc⟩ := hv.gcRun
      rw [if_pos hgc]
      simp only [hrun, Option.bind_some, if_true]
      rcases hv₁.inv.getChunkImpl hmin hmod hmax with ⟨heq₁, hfull₁⟩ | ⟨h₁, p, heq₁, hinv, ha⟩
      · rw [heq₁]
        exact ⟨vm₁, _, rfl, hv₁, .full hfull₁, .inr ⟨hc, hfull⟩⟩
      · rw [heq₁]
        exact ⟨vm₁, _, rfl, hv₁, .found hinv ha, .inr ⟨hc, hfull⟩⟩
    · rw [if_neg hgc]
      refine ⟨vm, _, rfl, hv, .full hfull, .inl ⟨rfl, ?_⟩⟩
      intro hauto hactive
      exact absurd ⟨hauto, hactive⟩ hgc
  · simp only [heq, Option.bind_eq_bind, Option.bind_some]
    exact ⟨vm, _, rfl, hv, .found hinv hallocated, .inl ⟨rfl, fun _ _ => ⟨p, rfl⟩⟩⟩

/-- What an allocation leaves of an object: its size, its type and its fields. -/
structure Kept (vm vm' : State) (p : ℕ) : Prop where
  object : p ∈ vm'.heap.objects
  extent : vm'.heap.mem.extent p = vm.heap.mem.extent p
  type : vm'.heap.mem.type p = vm.heap.mem.type p
  fields : ∀ c, p < c → c < p + vm.heap.mem.extent p →
    (vm.heap.mem.type p = some .str → c < p + 4 ∨ p + 6 ≤ c) → vm'.heap.mem c = vm.heap.mem c

theorem Kept.refl (hp : p ∈ vm.heap.objects) : Kept vm vm p :=
  ⟨hp, rfl, rfl, fun _ _ _ _ => rfl⟩

/-- The collector keeps the objects that can be reached. -/
theorem Collected.kept (hc : Collected vm vm') (hp : p ∈ vm.heap.objects)
    (hreach : vm.Reachable p) :
  Kept vm vm' p
  := by
  have hobj := (hc.objects p).mpr ⟨hp, hreach⟩
  refine ⟨hobj, ?_, ?_, hc.fields p hobj⟩
  · rw [Memory.extent, Memory.extent, hc.desc p hobj]
    simp
  · rw [Memory.type, Memory.type, hc.desc p hobj, Desc.type_setGcval]

/-- An allocation writes into free chunks only. -/
theorem Kept.allocated {vm₁ : State} {size : ℕ} (hk : Kept vm vm₁ p) (hv₁ : vm₁.Sound)
    (ha : Heap.Allocated vm₁.heap h q size) :
  Kept vm { vm₁ with heap := h } p
  := by
  obtain ⟨hchunk, hlive⟩ := Heap.mem_objects.mp hk.object
  have hfree : p ∉ vm₁.heap.freeChunks := by
    rw [Heap.mem_freeChunks, hlive]
    simp
  have hl : vm₁.heap.freeChunks ⊆ vm₁.heap.chunks := fun y hy => (Heap.mem_freeChunks.mp hy).1
  have hbounds := hv₁.bounds hchunk
  rw [HEAP_MIN_CHUNK_SIZE] at hbounds
  have hbytes (c : ℕ) (hpc : p ≤ c) (hc : c < p + vm₁.heap.mem.extent p) :
      h.mem c = vm₁.heap.mem c :=
    hv₁.chunk_unchanged ha.writes hl hchunk hfree hpc hc
  have hdesc : h.mem.desc p = vm₁.heap.mem.desc p :=
    Memory.word_congr (hbytes p le_rfl (by omega)) (hbytes (p + 1) (by omega) (by omega))
  constructor
  · exact ha.objects.mem_iff.mpr (List.mem_cons_of_mem q hk.object)
  · exact (Memory.extent_congr hdesc).trans hk.extent
  · rw [← hk.type]
    dsimp only
    rw [Memory.type, Memory.type, hdesc]
  · intro c hpc hc hstring
    exact (hbytes c hpc.le (by rw [hk.extent]; exact hc)).trans (hk.fields c hpc hc hstring)

/-- An allocation gives an object of its own, and leaves what can be reached as it is; or there is
no chunk that is large enough, also after a run of the collector. -/
theorem getChunk_fresh (hv : vm.Sound) (hn : n ≤ 2040) :
  ∃ vm' r, vm.getChunk n = some (vm', r) ∧
    (∀ p ∈ vm.heap.objects, vm.Reachable p → Kept vm vm' p ∧ r ≠ .ok p) ∧
      match r with
      | .ok p => n ≤ vm'.heap.mem.extent p ∧ p ∈ vm'.heap.objects ∧
          ∀ q ∈ vm'.heap.objects, q ≠ p → q ∈ vm.heap.objects ∧
            (q + vm'.heap.mem.extent q ≤ p ∨ p + vm'.heap.mem.extent p ≤ q)
      | .error e => e = .exMem ∧
          (∀ p ∈ vm'.heap.freeChunks, vm'.heap.chunkSize p < Heap.adjustedSize n) ∧
          (vm.heap.autoGc = true → vm.heap.mem (vm.global.nativeframe + 8) = 0 → Collected vm vm')
  := by
  obtain ⟨-, -, -, hle⟩ := adjustedSize_spec hn
  obtain ⟨vm₁, ⟨vm', r⟩, heq, hv₁, hr, hrun⟩ := hv.getChunk hn
  have hkept (p : ℕ) (hp : p ∈ vm.heap.objects) (hreach : vm.Reachable p) : Kept vm vm₁ p := by
    rcases hrun with ⟨rfl, -⟩ | ⟨hc, -⟩
    · exact Kept.refl hp
    · exact hc.kept hp hreach
  have hobjects (q : ℕ) (hq : q ∈ vm₁.heap.objects) : q ∈ vm.heap.objects := by
    rcases hrun with ⟨rfl, -⟩ | ⟨hc, -⟩
    · exact hq
    · exact hc.sublist.subset hq
  refine ⟨vm', r, heq, ?_⟩
  cases hr with
  | full hfull =>
      refine ⟨fun p hp hreach => ⟨hkept p hp hreach, by simp⟩, rfl, hfull, ?_⟩
      intro hauto hactive
      rcases hrun with ⟨-, hsome⟩ | ⟨hc, -⟩
      · obtain ⟨p, hp⟩ := hsome hauto hactive
        cases hp
      · exact hc
  | found hinv ha =>
      rename_i h p
      have hp : p ∈ h.objects := ha.objects.mem_iff.mpr List.mem_cons_self
      have hl : vm₁.heap.freeChunks ⊆ vm₁.heap.chunks := fun y hy => (Heap.mem_freeChunks.mp hy).1
      have hplaced := hv₁.of_writesIn ha.writes hl hinv
      refine ⟨?_, ?_, hp, ?_⟩
      · intro q hq hreach
        have hkq := hkept q hq hreach
        refine ⟨hkq.allocated hv₁ ha, ?_⟩
        intro heqr
        obtain rfl := Except.ok.inj heqr
        have hlive := (Heap.mem_objects.mp hkq.object).2
        cases (Heap.mem_freeChunks.mp ha.free.1).2.symm.trans hlive
      · have := ha.extent
        dsimp only
        omega
      · intro q hq hne
        refine ⟨hobjects q ((List.mem_cons.mp (ha.objects.mem_iff.mp hq)).resolve_left hne), ?_⟩
        exact hplaced.disjoint (Heap.mem_objects.mp hq).1 (Heap.mem_objects.mp hp).1 hne

/-- An allocation beside a tuple that is a root: it gets the chunk that is free. -/
theorem getChunk_fresh_sample :
  ∃ vm', sample.getChunk 20 = some (vm', .ok 56) ∧ Kept sample vm' 32 ∧
    20 ≤ vm'.heap.mem.extent 56 ∧ 56 ∈ vm'.heap.objects ∧
    ∀ q ∈ vm'.heap.objects, q ≠ 56 → q ∈ sample.heap.objects ∧
      (q + vm'.heap.mem.extent q ≤ 56 ∨ 56 + vm'.heap.mem.extent 56 ≤ q)
  := by
  obtain ⟨vm', r, heq, hkept, hr⟩ := getChunk_fresh sample_sound (n := 20) (by decide)
  have hresult : (sample.getChunk 20).map Prod.snd = some (.ok 56) := by decide +kernel
  rw [heq, Option.map_some, Option.some_inj] at hresult
  dsimp only at hresult
  subst hresult
  exact ⟨vm', heq, (hkept 32 (by decide) (reachable_of_root (by decide))).1, hr⟩

/-! ### Release -/

/-- Nothing refers to an object. -/
structure Unreferenced (vm : State) (p : ℕ) : Prop where
  object : p ∈ vm.heap.objects
  succ : ∀ q ∈ vm.known, q ≠ p → p ∉ vm.heap.mem.succ vm.global.nativeframe q
  roots : some p ∉ vm.heap.roots vm.global
  strings : ∀ l, IsChain vm.heap.mem.next vm.pstrcache l → p ∉ l

/-- An object that nothing refers to is released. -/
theorem Sound.freeChunk (hv : vm.Sound) (hp : Unreferenced vm p) :
  ∃ h, vm.heap.freeChunk p = some h ∧ ({ vm with heap := h } : State).Sound ∧
    Heap.Released vm.heap h p
  := by
  obtain ⟨h, heq, hinv, hr⟩ := hv.inv.freeChunk hp.object
  refine ⟨h, heq, ?_, hr⟩
  obtain ⟨hpchunk, hplive⟩ := Heap.mem_objects.mp hp.object
  have hl : p :: vm.heap.freeChunks ⊆ vm.heap.chunks := by
    rw [List.cons_subset]
    exact ⟨hpchunk, fun y hy => (Heap.mem_freeChunks.mp hy).1⟩
  have hobj (q : ℕ) : q ∈ h.objects ↔ q ∈ vm.heap.objects ∧ q ≠ p := by
    have hnodup := hr.objects.nodup_iff.mp hv.inv.nodup_objects
    rw [List.nodup_cons] at hnodup
    rw [hr.objects.mem_iff, List.mem_cons]
    constructor
    · intro hq
      exact ⟨.inr hq, fun heq => hnodup.1 (heq ▸ hq)⟩
    · rintro ⟨rfl | hq, hne⟩
      · exact absurd rfl hne
      · exact hq
  have hnf := hv.ne_nativeframe hpchunk
  have hknown (q : ℕ) :
      q ∈ ({ vm with heap := h } : State).known ↔ q ∈ vm.known ∧ q ≠ p := by
    rw [mem_known, mem_known, hobj]
    constructor
    · rintro (rfl | hq)
      · exact ⟨.inl rfl, hnf.symm⟩
      · exact ⟨.inr hq.1, hq.2⟩
    · rintro ⟨rfl | hq, hne⟩
      · exact .inl rfl
      · exact .inr ⟨hq, hne⟩
  have hbytes (q : ℕ) (hq : q ∈ vm.known) (hne : q ≠ p) (c : ℕ) (hqc : q ≤ c)
      (hc : c < q + vm.extent q) : h.mem c = vm.heap.mem c := by
    rcases mem_known.mp hq with rfl | hqobj
    · have hframe := hv.frame
      rw [extent, if_pos rfl] at hc
      exact hv.outside_unchanged hr.writes hl (by omega)
    · obtain ⟨hqchunk, hqlive⟩ := Heap.mem_objects.mp hqobj
      rw [hv.extent_eq hqchunk] at hc
      apply hv.chunk_unchanged hr.writes hl hqchunk _ hqc hc
      rw [List.mem_cons, Heap.mem_freeChunks, hqlive]
      simp [hne]
  refine ⟨hv.of_writesIn hr.writes hl hinv, ?_⟩
  apply hv.part
  · rfl
  · exact fun q hq => ((hknown q).mp hq).1
  · intro q hq y hy
    rw [hknown] at hq ⊢
    use hv.succ_known hq.1 hy
    rintro rfl
    exact hp.succ q hq.1 hq.2 hy
  · intro q hq c hqc hc
    rw [hknown] at hq
    have := (hv.typed.layout q hq.1).2
    exact hbytes q hq.1 hq.2 c hqc.le (by omega)
  · intro q hq
    rw [hknown] at hq
    have hlayout := (hv.typed.layout q hq.1).1
    have hextent : h.mem.extent q = vm.heap.mem.extent q := by
      apply Memory.extent_congr
      exact Memory.word_congr (hbytes q hq.1 hq.2 q le_rfl (by omega))
        (hbytes q hq.1 hq.2 (q + 1) (by omega) (by omega))
    rw [extent, extent, hextent]
  · dsimp only
    rw [Heap.roots, Heap.roots, hr.writes.eq]
  · intro q hq
    rw [hknown]
    use (hv.roots _ hq).1
    rintro rfl
    exact hp.roots hq
  · obtain ⟨s, hs, hstr⟩ := hv.strings
    have hps := hp.strings s hs
    have hne (y : ℕ) (hy : y ∈ s) : y ≠ p := fun heq => hps (heq ▸ hy)
    refine ⟨s, ?_, fun y hy => ⟨(hobj y).mpr ⟨(hstr y hy).1, hne y hy⟩, (hstr y hy).2⟩⟩
    apply segment_congr _ hs
    intro y hy
    have hobject := (hstr y hy).1
    have hychunk := (Heap.mem_objects.mp hobject).1
    have hbounds := hv.bounds hychunk
    rw [HEAP_MIN_CHUNK_SIZE, ← hv.extent_eq hychunk] at hbounds
    apply Memory.ptr_congr
    apply Memory.word_congr <;>
    · apply hbytes y (mem_known.mpr (.inr hobject)) (hne y hy) <;> omega

/-! ### Writes -/

/-- The fields of the objects and of the native frame are written, and the roots; the sizes and the
marks of the objects stay. -/
structure Written (vm vm' : State) : Prop where
  nativeframe : vm'.global.nativeframe = vm.global.nativeframe
  heap : vm'.heap = { vm'.heap with
    base := vm.heap.base
    size := vm.heap.size
    pfreelist := vm.heap.pfreelist
    avail := vm.heap.avail
    gcval := vm.heap.gcval }
  frame : ∀ c, (∀ p ∈ vm.known, c < p ∨ p + vm.extent p ≤ c) → vm'.heap.mem c = vm.heap.mem c
  live : ∀ p ∈ vm.heap.objects, vm'.heap.isFree p = false ∧ vm'.heap.objSize p = vm.heap.objSize p
  mark : ∀ p ∈ vm.known, vm'.heap.mark p = vm.heap.mark p

theorem Written.placed (hw : Written vm vm') (hv : vm.Placed) : vm'.Placed := by
  obtain ⟨l, hs, hperm⟩ := hv.inv.shape
  have hbase : vm'.heap.base = vm.heap.base := by rw [hw.heap]
  have hsize : vm'.heap.size = vm.heap.size := by rw [hw.heap]
  have hgcval : vm'.heap.gcval = vm.heap.gcval := by rw [hw.heap]
  -- the bytes of a chunk that is free
  have hfree (p : ℕ) (hp : p ∈ vm.heap.chunks) (hpf : vm.heap.isFree p = true) (c : ℕ)
      (hpc : p ≤ c) (hc : c < p + 6) : vm'.heap.mem c = vm.heap.mem c := by
    have hbounds := hv.bounds hp
    rw [HEAP_MIN_CHUNK_SIZE] at hbounds
    apply hw.frame
    intro q hq
    rcases mem_known.mp hq with rfl | hqobj
    · have := hv.frame
      rw [extent, if_pos rfl]
      omega
    · obtain ⟨hqchunk, hqlive⟩ := Heap.mem_objects.mp hqobj
      have hne : p ≠ q := by
        rintro rfl
        cases hpf.symm.trans hqlive
      rw [hv.extent_eq hqchunk]
      have := hv.disjoint hp hqchunk hne
      omega
  have hdesc (p : ℕ) (hp : p ∈ vm.heap.chunks) (hpf : vm.heap.isFree p = true) :
      vm'.heap.mem.desc p = vm.heap.mem.desc p :=
    Memory.word_congr (hfree p hp hpf p le_rfl (by omega))
      (hfree p hp hpf (p + 1) (by omega) (by omega))
  have hsame (p : ℕ) (hp : p ∈ vm.heap.chunks) :
      vm'.heap.isFree p = vm.heap.isFree p ∧ vm'.heap.mem.extent p = vm.heap.mem.extent p := by
    cases hpf : vm.heap.isFree p with
    | true => exact ⟨by rw [Heap.isFree, hdesc p hp hpf]; exact hpf,
        Memory.extent_congr (hdesc p hp hpf)⟩
    | false =>
        obtain ⟨hlive, hobjSize⟩ := hw.live p (Heap.mem_objects.mpr ⟨hp, hpf⟩)
        refine ⟨hlive, ?_⟩
        rw [Memory.extent_of_live hlive, Memory.extent_of_live hpf]
        exact hobjSize
  have hs' : vm'.heap.Shape vm.heap.chunks l := by
    apply hs.congr (by rw [hw.heap]) fun p hp => (hsame p hp).2
    intro p hp
    exact hfree p (hs.sub hp) (hs.free p hp).2
  refine ⟨?_, ?_, ?_, ?_⟩
  · apply hs'.inv
    · intro p hp hpf
      rw [(hsame p hp).1] at hpf
      exact hperm.mem_iff.mpr (Heap.mem_freeChunks.mpr ⟨hp, hpf⟩)
    · intro p hp hlive
      rw [(hsame p hp).1] at hlive
      have hobj := Heap.mem_objects.mpr ⟨hp, hlive⟩
      rw [hw.mark p (mem_known.mpr (.inr hobj)), hgcval]
      exact hv.inv.marked p hobj
  · rw [hw.nativeframe]
    exact hv.pos
  · rw [hw.nativeframe, hbase, hsize]
    exact hv.frame
  · rw [hw.nativeframe, hgcval, hw.mark _ (mem_known.mpr (.inl rfl))]
    exact hv.mark

/-! ### Runs -/

/-- What happens to the heap.  The virtual machine fills in an object that it allocated before it
does anything else with the heap, and it writes references to objects only. -/
inductive Step : State → State → Prop
  | collect {vm vm' : State} {r : PmReturn} (hrun : vm.gcRun = some (vm', r)) : Step vm vm'
  | refuse {vm vm' : State} {n : ℕ} {e : PmReturn} (hn : n ≤ 2040)
      (hget : vm.getChunk n = some (vm', .error e)) : Step vm vm'
  | new {vm vm₁ vm' : State} {n p : ℕ} (hn : n ≤ 2040)
      (hget : vm.getChunk n = some (vm₁, .ok p)) (hwritten : Written vm₁ vm')
      (hformed : vm'.Formed) : Step vm vm'
  | release {vm : State} {h : Heap} {p : ℕ} (hp : Unreferenced vm p)
      (hfree : vm.heap.freeChunk p = some h) : Step vm { vm with heap := h }
  | write {vm vm' : State} (hwritten : Written vm vm') (hformed : vm'.Formed) : Step vm vm'

/-- A heap with other temporary roots, or with another setting, is a write. -/
private theorem step_of_roots (hv : vm.Sound) {tempRoots : ℕ → Option ℕ} {tempRootIndex : ℕ}
    {autoGc : Bool}
    (hroots : ∀ i < tempRootIndex, (Ref.item (tempRoots i)).Ok vm.heap.mem vm.known) :
  Step vm { vm with heap := { vm.heap with tempRoots, tempRootIndex, autoGc } }
  := by
  apply Step.write
  · exact ⟨rfl, rfl, fun _ _ => rfl, fun p hp => ⟨(Heap.mem_objects.mp hp).2, rfl⟩,
      fun _ _ => rfl⟩
  · refine ⟨hv.typed, ?_, hv.strings⟩
    intro p hp
    rcases List.mem_append.mp hp with hp | hp
    · exact hv.roots p (List.mem_append_left _ hp)
    · obtain ⟨i, hi, rfl⟩ := List.mem_map.mp hp
      exact hroots i (List.mem_range.mp hi)

theorem Sound.tempRoot (hv : vm.Sound) {i : ℕ} (hi : i < vm.heap.tempRootIndex) :
  (Ref.item (vm.heap.tempRoots i)).Ok vm.heap.mem vm.known
  := by
  apply hv.roots
  exact List.mem_append_right _ (List.mem_map.mpr ⟨i, List.mem_range.mpr hi, rfl⟩)

theorem Sound.step_gcSetAuto (hv : vm.Sound) (autoGc : Bool) :
  Step vm { vm with heap := vm.heap.gcSetAuto autoGc }
  := step_of_roots hv fun _ hi => hv.tempRoot hi

theorem Sound.step_gcPushTempRoot (hv : vm.Sound) {pobj : Option ℕ} (objid : ℕ)
    (hp : (Ref.item pobj).Ok vm.heap.mem vm.known) :
  Step vm { vm with heap := (vm.heap.gcPushTempRoot pobj objid).1 }
  := by
  rw [Heap.gcPushTempRoot]
  split
  · apply step_of_roots hv
    intro i hi
    by_cases hlast : i = vm.heap.tempRootIndex
    · rw [hlast, Function.update_self]
      exact hp
    · rw [Function.update_of_ne hlast]
      exact hv.tempRoot (by omega)
  · exact step_of_roots hv fun _ hi => hv.tempRoot hi

theorem Sound.step_gcPopTempRoot (hv : vm.Sound) {objid : ℕ}
    (hobjid : objid ≤ vm.heap.tempRootIndex) :
  Step vm { vm with heap := vm.heap.gcPopTempRoot objid }
  := step_of_roots hv fun _ hi => hv.tempRoot (hi.trans_le hobjid)

/-- Every step keeps the state sound. -/
theorem Step.sound (hstep : Step vm vm') (hv : vm.Sound) : vm'.Sound := by
  cases hstep with
  | collect hrun =>
      obtain ⟨vm₁, heq, hv₁, -⟩ := hv.gcRun
      obtain ⟨rfl, -⟩ := Prod.mk.inj (Option.some.inj (heq.symm.trans hrun))
      exact hv₁
  | refuse hn hget =>
      obtain ⟨vm₁, r, heq, hv₁, hr, -⟩ := hv.getChunk hn
      obtain rfl := Option.some.inj (heq.symm.trans hget)
      cases hr
      exact hv₁
  | new hn hget hwritten hformed =>
      obtain ⟨vm₁, r, heq, hv₁, hr, -⟩ := hv.getChunk hn
      obtain rfl := Option.some.inj (heq.symm.trans hget)
      cases hr with
      | found hinv hallocated =>
          have hplaced := hv₁.of_writesIn hallocated.writes
            (fun p hp => (Heap.mem_freeChunks.mp hp).1) hinv
          exact ⟨hwritten.placed hplaced, hformed⟩
  | release hp hfree =>
      obtain ⟨h, heq, hv', -⟩ := hv.freeChunk hp
      obtain rfl := Option.some.inj (heq.symm.trans hfree)
      exact hv'
  | write hwritten hformed => exact ⟨hwritten.placed hv.toPlaced, hformed⟩

/-- The state stays sound in every run. -/
theorem run_sound (hv : vm.Sound) (hrun : Relation.ReflTransGen Step vm vm') : vm'.Sound := by
  induction hrun with
  | refl => exact hv
  | tail _ hstep ih => exact hstep.sound ih

/-- In every run from the start the state is sound, and the free bytes are counted. -/
theorem sound_of_run {mem : Memory} {base size nativeframe : ℕ} {vm₀ : State} (hbase : 0 < base)
    (hmin : HEAP_MIN_CHUNK_SIZE ≤ size) (hmod : size % 4 = 0) (hbound : base + size < 2 ^ 16)
    (hpos : 0 < nativeframe) (hframe : nativeframe + 26 ≤ base ∨ base + size ≤ nativeframe)
    (hstart : start mem base size nativeframe = some vm₀)
    (hrun : Relation.ReflTransGen Step vm₀ vm) :
  vm.Sound ∧ vm.heap.avail + (vm.heap.objects.map vm.heap.mem.extent).sum = vm.heap.size
  := by
  obtain ⟨vm₁, heq, hv, -⟩ := start_sound mem hbase hmin hmod hbound hpos hframe
  obtain rfl := Option.some.inj (heq.symm.trans hstart)
  have hv' := run_sound hv hrun
  exact ⟨hv', hv'.inv.avail_add⟩

/-- The heap of 64 bytes at the start. -/
def sampleStart : State :=
  (start (fun _ => 0) 32 64 4).get (by decide +kernel)

/-- An object of six bytes was allocated at the start, and is an integer and a root. -/
def sampleNew : State :=
  let vm := ((sampleStart.getChunk 6).get (by decide +kernel)).1
  { vm with heap := { vm.heap.modifyDesc 32 fun od => od.setType PmType.int.code with
      tempRoots := fun _ => some 32
      tempRootIndex := 1 } }

/-- The object is allocated and filled in. -/
theorem step_sampleNew : Step sampleStart sampleNew := by
  have hget : sampleStart.getChunk 6
      = some (((sampleStart.getChunk 6).get (by decide +kernel)).1, .ok 32) := by
    have hresult : ((sampleStart.getChunk 6).get (by decide +kernel)).2 = .ok 32 := by
      decide +kernel
    rw [← hresult, Prod.mk.eta, Option.some_get]
  apply Step.new (by decide) hget
  · constructor
    · rfl
    · rfl
    · intro c hc
      have hout := hc 32 (by decide +kernel)
      have hextent : ((sampleStart.getChunk 6).get (by decide +kernel)).1.extent 32 = 8 := by
        decide +kernel
      apply Memory.setDesc_apply
      omega
    · decide +kernel
    · decide +kernel
  · refine ⟨⟨?_, ?_, ?_, ?_, ?_, ?_⟩, ?_, [], rfl, by simp⟩ <;> decide +kernel

/-- A run that allocates an object and collects: the object is a root, and stays. -/
theorem sound_of_run_collect :
  ∃ vm, start (fun _ => 0) 32 64 4 = some sampleStart ∧
    Relation.ReflTransGen Step sampleStart vm ∧ vm.heap.objects = [32] ∧
    vm.Sound ∧ vm.heap.avail + (vm.heap.objects.map vm.heap.mem.extent).sum = vm.heap.size
  := by
  have hstart : start (fun _ => 0) 32 64 4 = some sampleStart := by
    rw [sampleStart, Option.some_get]
  obtain ⟨vm₀, heq, hv₀, -⟩ := @start_sound (fun _ => 0) 32 64 4 (by decide) (by decide)
    (by decide) (by decide) (by decide) (by decide)
  obtain rfl := Option.some.inj (hstart.symm.trans heq)
  obtain ⟨vm, hgc, -, -⟩ := (step_sampleNew.sound hv₀).gcRun
  have hrun : Relation.ReflTransGen Step sampleStart vm :=
    .tail (.single step_sampleNew) (.collect hgc)
  have hobjects : sampleNew.gcRun.map (fun r => r.1.heap.objects) = some [32] := by
    decide +kernel
  rw [hgc, Option.map_some, Option.some_inj] at hobjects
  exact ⟨vm, hstart, hrun, hobjects, sound_of_run (by decide) (by decide) (by decide) (by decide)
    (by decide) (by decide) hstart hrun⟩

end Etaos.Vm.State
