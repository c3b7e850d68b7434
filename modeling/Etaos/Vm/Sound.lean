import Etaos.Vm.HeapSpec
import Etaos.Vm.Fields
import Etaos.Vm.Sweep

/-!
# Sound states of the virtual machine

The heap of a sound state is cut into chunks, its objects have types and refer to objects, and the
strings in the cache are objects.  The state at the start is sound.
-/

namespace Etaos.Vm

open Chain Marking Tiling

namespace Heap

variable {h h' : Heap} {cs l : List ℕ}

/-- The shape depends on the sizes of the chunks and on the links of those that are free. -/
theorem Shape.congr (hs : h.Shape cs l)
    (heq : h' = { h' with
      base := h.base
      size := h.size
      pfreelist := h.pfreelist
      avail := h.avail })
    (hext : ∀ p ∈ cs, h'.mem.extent p = h.mem.extent p)
    (hfree : ∀ p ∈ l, ∀ c, p ≤ c → c < p + 6 → h'.mem c = h.mem c) :
  h'.Shape cs l
  := by
  have hbase : h'.base = h.base := by rw [heq]
  have hsize : h'.size = h.size := by rw [heq]
  constructor
  · rw [hbase]
    exact hs.base_pos
  · rw [hbase, hsize]
    exact hs.bound
  · rw [hbase, hsize]
    exact hs.tiles.congr hext
  · intro p hp
    rw [hext p hp]
    exact hs.large p hp
  · exact hs.freeList.congr hfree (by rw [heq]) (by rw [heq])
  · intro p hp
    have hdesc : h'.mem.desc p = h.mem.desc p :=
      Memory.word_congr (hfree p hp p le_rfl (by omega)) (hfree p hp (p + 1) (by omega) (by omega))
    use hs.sub hp
    rw [isFree, hdesc]
    exact (hs.free p hp).2

end Heap

namespace State

/-- The number of bytes of an object.  The native frame is not on the heap. -/
def extent (vm : State) (p : ℕ) : ℕ :=
  if p = vm.global.nativeframe then 26 else vm.heap.mem.extent p

/-- The objects on the heap, and the native frame. -/
def known (vm : State) : Finset ℕ :=
  insert vm.global.nativeframe vm.heap.objects.toFinset

/-- An object can be reached from the roots. -/
def Reachable (vm : State) (p : ℕ) : Prop :=
  ∃ r, some r ∈ vm.heap.roots vm.global ∧ Reach (vm.heap.mem.succ vm.global.nativeframe) r p

/-- The heap is cut into chunks, and the native frame is behind or before it. -/
structure Placed (vm : State) : Prop where
  inv : vm.heap.Inv
  pos : 0 < vm.global.nativeframe
  frame : vm.global.nativeframe + 26 ≤ vm.heap.base ∨
    vm.heap.base + vm.heap.size ≤ vm.global.nativeframe
  mark : vm.heap.mark vm.global.nativeframe = vm.heap.gcval

/-- The objects are typed, the roots are objects, and the cache of the strings is a list of
strings. -/
structure Formed (vm : State) : Prop where
  typed : vm.heap.mem.Typed vm.global.nativeframe vm.extent vm.known
  roots : ∀ p ∈ vm.heap.roots vm.global, (Ref.item p).Ok vm.heap.mem vm.known
  strings : ∃ l, IsChain vm.heap.mem.next vm.pstrcache l ∧
    ∀ p ∈ l, p ∈ vm.heap.objects ∧ vm.heap.mem.type p = some .str

/-- A state that the virtual machine is in between two operations on its heap. -/
structure Sound (vm : State) : Prop extends Placed vm, Formed vm

variable {vm : State} {S : Finset ℕ} {p q c : ℕ}

/-- The objects that may be referred to are those of the heap and the native frame. -/
theorem mem_known : p ∈ vm.known ↔ p = vm.global.nativeframe ∨ p ∈ vm.heap.objects := by
  simp [known]

namespace Placed

variable (hv : vm.Placed)

include hv

/-- A chunk lies within the heap. -/
theorem bounds (hp : p ∈ vm.heap.chunks) :
  vm.heap.base ≤ p ∧ HEAP_MIN_CHUNK_SIZE ≤ vm.heap.mem.extent p ∧
    p + vm.heap.mem.extent p ≤ vm.heap.base + vm.heap.size
  := by
  obtain ⟨l, hs, -⟩ := hv.inv.shape
  exact ⟨(hs.tiles.bounds hp).1, hs.large p hp, (hs.tiles.bounds hp).2⟩

/-- Chunks do not overlap. -/
theorem disjoint (hp : p ∈ vm.heap.chunks) (hq : q ∈ vm.heap.chunks) (hne : p ≠ q) :
  p + vm.heap.mem.extent p ≤ q ∨ q + vm.heap.mem.extent q ≤ p
  := by
  obtain ⟨l, hs, -⟩ := hv.inv.shape
  exact hs.tiles.disjoint hp hq hne

/-- The native frame is outside of the heap. -/
theorem ne_nativeframe (hp : p ∈ vm.heap.chunks) : p ≠ vm.global.nativeframe := by
  have := hv.bounds hp
  have := hv.frame
  rw [HEAP_MIN_CHUNK_SIZE] at *
  omega

theorem extent_eq (hp : p ∈ vm.heap.chunks) : vm.extent p = vm.heap.mem.extent p :=
  if_neg (hv.ne_nativeframe hp)

/-- No object is at the null pointer. -/
theorem known_pos (hp : p ∈ vm.known) : 0 < p := by
  rcases mem_known.mp hp with rfl | hp
  · exact hv.pos
  · obtain ⟨l, hs, -⟩ := hv.inv.shape
    exact (hs.valid (Heap.mem_objects.mp hp).1).1

/-- A byte of a chunk is the first byte of no other object. -/
theorem not_mem_of_chunk (hS : S ⊆ vm.known) (hp : p ∈ vm.heap.chunks) (hpc : p < c)
    (hc : c < p + vm.heap.mem.extent p) :
  c ∉ S
  := by
  intro hmem
  have hbounds := hv.bounds hp
  have hframe := hv.frame
  rw [HEAP_MIN_CHUNK_SIZE] at hbounds
  rcases mem_known.mp (hS hmem) with heq | hobj
  · omega
  · have hchunk := (Heap.mem_objects.mp hobj).1
    have := hv.bounds hchunk
    have := hv.disjoint hp hchunk (by omega)
    rw [HEAP_MIN_CHUNK_SIZE] at *
    omega

/-- There are fewer objects than bytes of the heap, so that the fuel of the loops is enough. -/
theorem card_known_lt : vm.known.card < vm.heap.size + 2 := by
  obtain ⟨l, hs, -⟩ := hv.inv.shape
  have hobjects : vm.heap.objects.toFinset.card ≤ vm.heap.chunks.length :=
    (List.toFinset_card_le _).trans (List.length_filter_le _ _)
  have := Finset.card_insert_le vm.global.nativeframe vm.heap.objects.toFinset
  have := hs.tiles.length_le
  rw [known]
  omega

end Placed

/-- A part of the objects that is closed is formed when it has the same fields, the roots and the
strings. -/
theorem Sound.part {vm' : State} (hv : vm.Sound) (hglobal : vm'.global = vm.global)
    (hsub : vm'.known ⊆ vm.known)
    (hclosed : vm.heap.mem.ClosedIn vm.global.nativeframe vm'.known)
    (hfields : Memory.SameFields vm'.known vm.heap.mem vm'.heap.mem)
    (hextent : ∀ p ∈ vm'.known, vm'.extent p = vm.extent p)
    (hroots : vm'.heap.roots vm'.global = vm.heap.roots vm.global)
    (hmem : ∀ p, some p ∈ vm.heap.roots vm.global → p ∈ vm'.known)
    (hstrings : ∃ l, IsChain vm'.heap.mem.next vm'.pstrcache l ∧
      ∀ p ∈ l, p ∈ vm'.heap.objects ∧ vm.heap.mem.type p = some .str) :
  vm'.Formed
  := by
  constructor
  · rw [hglobal]
    exact hv.typed.sameFields (fun _ => hv.known_pos) hsub hclosed hfields hextent
  · intro p hp
    rw [hroots] at hp
    have hok := hv.roots p hp
    cases p with
    | none => trivial
    | some p => exact ⟨hmem p hp, by rw [hfields.type (hmem p hp)]; exact hok.2⟩
  · obtain ⟨l, hl, hstr⟩ := hstrings
    refine ⟨l, hl, ?_⟩
    intro p hp
    obtain ⟨hobj, htype⟩ := hstr p hp
    use hobj
    rw [hfields.type (mem_known.mpr (.inr hobj)), htype]

/-- What an object refers to is an object. -/
theorem Formed.succ_known (hv : vm.Formed) (hp : p ∈ vm.known)
    (hq : q ∈ vm.heap.mem.succ vm.global.nativeframe p) :
  q ∈ vm.known
  := by
  obtain ⟨r, hr, hrq⟩ := List.mem_filterMap.mp hq
  have hok := hv.typed.refs p hp r hr
  match r, hrq with
  | .item (some _), rfl => exact hok.1
  | .seg _, rfl => exact hok.1

/-! ### The start -/

/-- The state when the heap was initialised and the globals were cleared. -/
def start (mem : Memory) (base size nativeframe : ℕ) : Option State :=
  (Heap.init mem base size).map fun h =>
    { heap := { h with
        mem := fun c => if nativeframe ≤ c ∧ c < nativeframe + 26 then 0 else h.mem c }
      global := ⟨none, none, none, none, none, none, none, none, nativeframe, none⟩
      pstrcache := none }

/-- The state is sound at the start. -/
theorem start_sound (mem : Memory) {base size nativeframe : ℕ} (hbase : 0 < base)
    (hmin : HEAP_MIN_CHUNK_SIZE ≤ size) (hmod : size % 4 = 0) (hbound : base + size < 2 ^ 16)
    (hpos : 0 < nativeframe)
    (hframe : nativeframe + 26 ≤ base ∨ base + size ≤ nativeframe) :
  ∃ vm, start mem base size nativeframe = some vm ∧ vm.Sound ∧ vm.heap.objects = []
  := by
  obtain ⟨h, hinit, hinv, hobjects, heq⟩ := Heap.init_inv hbase hmin hmod hbound
  obtain ⟨l, hs, hperm⟩ := hinv.shape
  have hbase' : h.base = base := by rw [heq]
  have hsize' : h.size = size := by rw [heq]
  set m : Memory := fun c => if nativeframe ≤ c ∧ c < nativeframe + 26 then 0 else h.mem c with hm
  set h' : Heap := { h with mem := m }
  have hbytes (p : ℕ) (hp : p ∈ h.chunks) (c : ℕ) (hpc : p ≤ c) (hc : c < p + 6) :
      m c = h.mem c := by
    have := hs.tiles.bounds hp
    have hlarge := hs.large p hp
    rw [HEAP_MIN_CHUNK_SIZE] at hlarge
    apply if_neg
    omega
  have hdesc (p : ℕ) (hp : p ∈ h.chunks) : m.desc p = h.mem.desc p :=
    Memory.word_congr (hbytes p hp p le_rfl (by omega)) (hbytes p hp (p + 1) (by omega) (by omega))
  have hs' : h'.Shape h.chunks l :=
    hs.congr rfl (fun p hp => Memory.extent_congr (hdesc p hp)) fun p hp => hbytes p (hs.sub hp)
  have hdead (p : ℕ) (hp : p ∈ h.chunks) : h'.isFree p = true := by
    have hmem : p ∉ h.objects := by rw [hobjects]; simp
    rw [Heap.mem_objects, not_and, Bool.not_eq_false] at hmem
    rw [Heap.isFree, hdesc p hp]
    exact hmem hp
  have hinv' : h'.Inv := by
    apply hs'.inv
    · intro p hp _
      exact hperm.mem_iff.mpr (Heap.mem_freeChunks.mpr ⟨hp, by
        rw [Heap.isFree, ← hdesc p hp]
        exact hdead p hp⟩)
    · intro p hp hlive
      cases (hdead p hp).symm.trans hlive
  have hobjects' : h'.objects = [] := by
    rw [List.eq_nil_iff_forall_not_mem]
    intro p hp
    rw [Heap.mem_objects, hs'.chunks_eq] at hp
    cases (hdead p hp.1).symm.trans hp.2
  have hzero : m.desc nativeframe = 0 := by
    simp [Memory.desc, Memory.word, hm]
  have htype : m.type nativeframe = some .non := by
    rw [Memory.type, hzero]
    rfl
  have hknown (p : ℕ) (hp : p ∈ (State.mk h' ⟨none, none, none, none, none, none, none, none,
      nativeframe, none⟩ none).known) : p = nativeframe := by
    rw [mem_known, hobjects'] at hp
    simpa using hp
  refine ⟨_, congrArg (Option.map _) hinit, ⟨⟨hinv', hpos, ?_, ?_⟩, ⟨?_, ?_, ?_⟩⟩, hobjects'⟩
  · dsimp only
    rw [hbase', hsize']
    exact hframe
  · have hgcval : h.gcval = false := by rw [heq]
    dsimp only
    rw [hgcval]
    exact (congrArg Desc.gcval hzero).trans (by decide)
  · constructor
    · intro p hp q hq
      rw [hknown p hp, hknown q hq]
      exact .inl le_rfl
    · intro p hp
      obtain rfl := hknown p hp
      have hlayout : m.layout p = 2 := by rw [Memory.layout, htype]
      dsimp only
      rw [extent, if_pos rfl, hlayout]
      decide
    · intro p hp
      rw [hknown p hp, htype]
      decide
    · intro p hp r hr
      rw [hknown p hp, Memory.refs, htype] at hr
      cases hr
    · intro p hp hfrm
      rw [hknown p hp, htype] at hfrm
      cases hfrm
    · intro p hp hnfm
      exact hknown p hp
  · have hindex : h.tempRootIndex = 0 := by rw [heq]
    intro p hp
    have hcases : p = none ∨ p = some nativeframe := by
      simp [Heap.roots, hindex] at hp
      tauto
    rcases hcases with rfl | rfl
    · trivial
    · refine ⟨mem_known.mpr (.inl rfl), ?_⟩
      dsimp only
      rw [htype]
      decide
  · exact ⟨[], rfl, by simp⟩

/-! ### A sound state with objects -/

/-- A heap with a tuple that is a root, the integer that is its item, another integer and a free
chunk. -/
def sample : State where
  heap :=
    { mem := fun c => (List.replicate 32 0 ++ [0x08, 0x20, 0x01, 0x00, 0x28, 0x00, 0x00, 0x00,
        0x08, 0x08, 0x00, 0x00, 0x00, 0x00, 0x00, 0x00,
        0x08, 0x08, 0x00, 0x00, 0x00, 0x00, 0x00, 0x00, 0x2A]).getD c 0
      base := 32
      size := 64
      pfreelist := some 56
      avail := 40
      gcval := false
      autoGc := true
      tempRoots := fun _ => some 32
      tempRootIndex := 1 }
  global := ⟨none, none, none, none, none, none, none, none, 4, none⟩
  pstrcache := none

/-- The three objects and the free chunk behind them tile the heap. -/
theorem sample_shape : sample.heap.Shape [32, 40, 48, 56] [56] where
  base_pos := by decide
  bound := by decide
  tiles := ⟨rfl, by decide, rfl, by decide, rfl, by decide, rfl, by decide, rfl⟩
  large := by decide
  freeList := ⟨⟨by decide, ⟨rfl, rfl⟩, _, ⟨rfl, rfl⟩⟩, by decide, by decide⟩
  free := by decide

/-- The state with the three objects is sound. -/
theorem sample_sound : sample.Sound where
  inv := sample_shape.inv (by decide) (by decide)
  pos := by decide
  frame := by decide
  mark := by decide
  typed := ⟨by decide, by decide, by decide, by decide, by decide, by decide⟩
  roots := by decide
  strings := ⟨[], rfl, by simp⟩

end State

end Etaos.Vm
