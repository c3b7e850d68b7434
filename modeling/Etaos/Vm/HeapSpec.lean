import Etaos.Vm.FreeList
import Etaos.Library.Tiling

/-!
# The chunks tile the heap

The chunks of the heap follow one another without gaps, and the free ones are on the list.  An
allocation takes the chunk that fits best and splits it when enough remains; what the objects of
the other chunks hold is not written.
-/

namespace Etaos.Vm

open Chain Insertion Tiling

/-- The number of bytes of the chunk at an address. -/
def Memory.extent (m : Memory) (p : ℕ) : ℕ :=
  if (m.desc p).free then (m.desc p).chunkSize else (m.desc p).objSize

namespace Memory

variable {m m' : Memory} {p q : ℕ} {od : Desc}

theorem extent_congr (h : m'.desc p = m.desc p) : m'.extent p = m.extent p := by
  rw [extent, extent, h]

theorem extent_of_free (h : (m.desc p).free = true) : m.extent p = (m.desc p).chunkSize :=
  if_pos h

theorem extent_of_live (h : (m.desc p).free = false) : m.extent p = (m.desc p).objSize := by
  rw [extent, h, if_neg Bool.false_ne_true]

theorem extent_mod : m.extent p % 4 = 0 := by
  rw [extent]
  split
  · apply Desc.chunkSize_mod
  · apply Desc.objSize_mod

@[simp]
theorem desc_setDesc_self (m : Memory) (p : ℕ) (od : Desc) : (m.setDesc p od).desc p = od :=
  word_setWord_self m p od

theorem desc_setDesc (h : Apart p q) : (m.setDesc p od).desc q = m.desc q := by
  simp only [Apart, HEAP_MIN_CHUNK_SIZE] at h
  apply word_setWord_of_disjoint
  omega

theorem setDesc_apply {c : ℕ} (h : c < p ∨ p + 2 ≤ c) : m.setDesc p od c = m c := by
  apply setWord_apply_of_ne <;> omega

end Memory

namespace Heap

variable {h h' : Heap} {cs l a b : List ℕ} {x p q r n size : ℕ}

/-- Only the list, its size, the links of the chunks of `l` and the chunk at `r` change. -/
structure MadeFree (h h' : Heap) (l : List ℕ) (r n : ℕ) : Prop where
  eq : h' = { h with mem := h'.mem, pfreelist := h'.pfreelist, avail := h'.avail }
  frame : ∀ c, (∀ y ∈ l, c < y + 2 ∨ y + 6 ≤ c) → (c < r ∨ r + 6 ≤ c) → h'.mem c = h.mem c
  free : h'.isFree r = true
  size : h'.chunkSize r = n

/-- A chunk is made and put on the list. -/
theorem FreeList.makeFree (hf : h.FreeList l) (hs : Spaced (r :: l)) (hr : r ∉ l)
    (hvalid : ∀ y ∈ r :: l, 0 < y ∧ y < 2 ^ 16) (hlength : l.length ≤ h.size)
    (hmod : n % 4 = 0) (hn : n < 2 ^ 16) (havail : n + h.avail < 2 ^ 32) :
  ∃ h', h.makeFree r n = some h' ∧
    h'.FreeList (insertBehind (fun y => h.chunkSize y < n) r l) ∧ MadeFree h h' l r n
  := by
  set h₁ := (h.modifyDesc r fun od => od.setFree true).modifyDesc r fun od => od.setChunkSize n
    with hh₁
  have hframe (c : ℕ) (hc : c < r ∨ r + 2 ≤ c) : h₁.mem c = h.mem c := by
    rw [hh₁, modifyDesc, modifyDesc]
    dsimp only
    rw [Memory.setDesc_apply hc, Memory.setDesc_apply hc]
  have hdesc : h₁.mem.desc r = ((h.mem.desc r).setFree true).setChunkSize n := by
    rw [hh₁, modifyDesc, modifyDesc]
    dsimp only
    rw [Memory.desc_setDesc_self, Memory.desc_setDesc_self]
  have hapart (y : ℕ) (hy : y ∈ l) : Apart r y := by
    apply (hs r List.mem_cons_self y (List.mem_cons_of_mem r hy)).resolve_left
    exact fun heq => hr (heq ▸ hy)
  have hf₁ : h₁.FreeList l := by
    refine hf.congr ?_ rfl rfl
    intro y hy c hyc hcy
    have := hapart y hy
    simp only [Apart, HEAP_MIN_CHUNK_SIZE] at this
    apply hframe
    omega
  have hsize : h₁.chunkSize r = n := by
    rw [chunkSize, hdesc, Desc.chunkSize_setChunkSize]
    omega
  have hsize' (y : ℕ) (hy : y ∈ l) : h₁.chunkSize y = h.chunkSize y := by
    have := hapart y hy
    simp only [Apart, HEAP_MIN_CHUNK_SIZE] at this
    apply congrArg Desc.chunkSize
    apply Memory.word_congr <;> apply hframe <;> omega
  obtain ⟨h', heq, hlist, hrelinked⟩ := hf₁.link hs hr hvalid hlength
    (by rw [hsize]; exact havail)
  have hkeep : insertBehind (fun y => h₁.chunkSize y < h₁.chunkSize r) r l
      = insertBehind (fun y => h.chunkSize y < n) r l := by
    apply insertBehind_congr
    intro y hy
    rw [hsize, hsize' y hy]
  have hdesc' : h'.mem.desc r = h₁.mem.desc r := hrelinked.desc fun y hy => hs y hy r (by simp)
  refine ⟨h', heq, hkeep ▸ hlist, ?_, ?_, ?_, ?_⟩
  · rw [hrelinked.eq]
    rfl
  · intro c hc hcr
    rw [hrelinked.frame c (by simp only [List.mem_cons]; grind), hframe c (by omega)]
  · rw [isFree, hdesc', hdesc, Desc.free_setChunkSize, Desc.free_setFree]
  · rw [chunkSize, hdesc']
    exact hsize

/-- A chunk that is apart from the new one keeps its descriptor. -/
theorem MadeFree.desc (hm : MadeFree h h' l r n) (hl : ∀ y ∈ l, y = q ∨ Apart y q)
    (hr : Apart r q) :
  h'.mem.desc q = h.mem.desc q
  := by
  simp only [Apart, HEAP_MIN_CHUNK_SIZE] at hl hr
  apply Memory.word_congr <;>
  · apply hm.frame
    · intro y hy
      have := hl y hy
      omega
    · omega

/-- The chunks tile the heap, and the list has free chunks only. -/
structure Shape (h : Heap) (cs l : List ℕ) : Prop where
  base_pos : 0 < h.base
  bound : h.base + h.size < 2 ^ 16
  tiles : Tiles h.mem.extent h.base cs (h.base + h.size)
  large : ∀ p ∈ cs, HEAP_MIN_CHUNK_SIZE ≤ h.mem.extent p
  freeList : h.FreeList l
  free : ∀ p ∈ l, p ∈ cs ∧ h.isFree p = true

namespace Shape

theorem sub (hs : h.Shape cs l) : l ⊆ cs :=
  fun p hp => (hs.free p hp).1

theorem apart (hs : h.Shape cs l) (hp : p ∈ cs) (hq : q ∈ cs) :
  p = q ∨ Apart p q
  := by
  by_cases hne : p = q
  · exact .inl hne
  · right
    have := hs.large p hp
    have := hs.large q hq
    have := hs.tiles.disjoint hp hq hne
    simp only [Apart, HEAP_MIN_CHUNK_SIZE] at *
    omega

theorem spaced (hs : h.Shape cs l) : Spaced cs :=
  fun _ hp _ hq => hs.apart hp hq

theorem valid (hs : h.Shape cs l) (hp : p ∈ cs) : 0 < p ∧ p < 2 ^ 16 := by
  have := hs.tiles.bounds hp
  have := hs.base_pos
  have := hs.bound
  omega

theorem length_le (hs : h.Shape cs l) : l.length ≤ h.size := by
  have hsub := (List.subperm_of_subset hs.freeList.list.nodup hs.sub).length_le
  have := hs.tiles.length_le
  omega

theorem chunkSize_eq (hs : h.Shape cs l) (hp : p ∈ l) : h.chunkSize p = h.mem.extent p :=
  (Memory.extent_of_free (hs.free p hp).2).symm

theorem avail_le (hs : h.Shape cs l) : h.avail ≤ h.size := by
  have hsum := hs.tiles.sum_le hs.freeList.list.nodup hs.sub
  have hmap : l.map h.chunkSize = l.map h.mem.extent :=
    List.map_congr_left fun p hp => hs.chunkSize_eq hp
  rw [hs.freeList.avail, hmap]
  omega

/-- The chunks are the same when only links of them change. -/
theorem desc_relinked (hs : h.Shape cs l) (hh' : Relinked a h h') (ha : a ⊆ cs)
    (hp : p ∈ cs) :
  h'.mem.desc p = h.mem.desc p
  := hh'.desc fun _ hy => hs.apart (ha hy) hp

theorem relinked (hs : h.Shape cs l) (hh' : Relinked a h h') (ha : a ⊆ cs)
    (hfree : h'.FreeList b) (hb : ∀ p ∈ b, p ∈ cs ∧ h.isFree p = true) :
  h'.Shape cs b
  := by
  have hdesc (p : ℕ) (hp : p ∈ cs) := hs.desc_relinked hh' ha hp
  have hext (p : ℕ) (hp : p ∈ cs) := Memory.extent_congr (hdesc p hp)
  have hbase : h'.base = h.base := by rw [hh'.eq]
  have hsize : h'.size = h.size := by rw [hh'.eq]
  constructor
  · rw [hbase]
    exact hs.base_pos
  · rw [hbase, hsize]
    exact hs.bound
  · rw [hbase, hsize]
    exact hs.tiles.congr hext
  · intro p hp
    rw [hext p hp]
    exact hs.large p hp
  · exact hfree
  · intro p hp
    use (hb p hp).1
    rw [isFree, hdesc p (hb p hp).1]
    exact (hb p hp).2

/-- A chunk is taken off the list. -/
theorem unlink (hs : h.Shape cs (a ++ x :: b)) :
  (h.unlinkFromFreelist x).Shape cs (a ++ b) ∧
    Relinked (a ++ b) h (h.unlinkFromFreelist x)
  := by
  have havail := hs.avail_le
  have hbound := hs.bound
  have hsub : a ++ b ⊆ a ++ x :: b := by grind
  obtain ⟨hfree, hrelinked⟩ := hs.freeList.unlink (hs.spaced.mono hs.sub) (by omega)
  refine ⟨hs.relinked hrelinked (fun p hp => hs.sub (hsub hp)) hfree ?_, hrelinked⟩
  intro p hp
  exact hs.free p (hsub hp)

/-- A free chunk is put on the list. -/
theorem link (hs : h.Shape cs l) (hx : x ∈ cs) (hfree : h.isFree x = true) (hxl : x ∉ l) :
  ∃ h', h.linkToFreelist x = some h' ∧
    h'.Shape cs (insertBehind (fun y => h.chunkSize y < h.chunkSize x) x l) ∧
      Relinked (x :: l) h h'
  := by
  have hsub : x :: l ⊆ cs := List.cons_subset.mpr ⟨hx, hs.sub⟩
  have havail := hs.avail_le
  have hbound := hs.bound
  have hsize : h.chunkSize x < 2 ^ 16 := Desc.chunkSize_lt _
  obtain ⟨h', heq, hlist, hrelinked⟩ := hs.freeList.link (hs.spaced.mono hsub) hxl
    (fun y hy => hs.valid (hsub hy)) hs.length_le (by omega)
  refine ⟨h', heq, hs.relinked hrelinked hsub hlist ?_, hrelinked⟩
  intro p hp
  rcases mem_insertBehind.mp hp with rfl | hp
  · exact ⟨hx, hfree⟩
  · exact hs.free p hp

/-- The descriptor of a chunk that is not on the list is changed, but not its size. -/
theorem modifyDesc (hs : h.Shape cs l) (hx : x ∈ cs) (hxl : x ∉ l) {f : Desc → Desc}
    (hext : (h.modifyDesc x f).mem.extent x = h.mem.extent x) :
  (h.modifyDesc x f).Shape cs l
  := by
  have hdesc (p : ℕ) (hp : p ∈ cs) (hne : x ≠ p) :
      (h.modifyDesc x f).mem.desc p = h.mem.desc p :=
    Memory.desc_setDesc ((hs.apart hx hp).resolve_left hne)
  have hext' (p : ℕ) (hp : p ∈ cs) : (h.modifyDesc x f).mem.extent p = h.mem.extent p := by
    by_cases hne : x = p
    · rw [← hne, hext]
    · apply Memory.extent_congr (hdesc p hp hne)
  constructor
  · exact hs.base_pos
  · exact hs.bound
  · exact hs.tiles.congr hext'
  · intro p hp
    rw [hext' p hp]
    exact hs.large p hp
  · refine hs.freeList.congr ?_ rfl rfl
    intro y hy c hyc hcy
    have hne : x ≠ y := fun heq => hxl (heq ▸ hy)
    have happart := (hs.apart hx (hs.sub hy)).resolve_left hne
    simp only [Apart, HEAP_MIN_CHUNK_SIZE] at happart
    apply Memory.setDesc_apply
    omega
  · intro p hp
    use hs.sub hp
    rw [isFree, hdesc p (hs.sub hp) fun heq => hxl (heq ▸ hp)]
    exact (hs.free p hp).2

end Shape

/-! ### Allocation -/

/-- Only the list, its size and the bytes of the chunks of `l` change. -/
structure WritesIn (l : List ℕ) (h h' : Heap) : Prop where
  eq : h' = { h with mem := h'.mem, pfreelist := h'.pfreelist, avail := h'.avail }
  frame : ∀ c, (∀ y ∈ l, c < y ∨ y + h.mem.extent y ≤ c) → h'.mem c = h.mem c

/-- The chunk `x` between the chunks of `a` and of `b` was taken for `size` bytes, and the chunks
of `r` are cut off from it. -/
structure Taken (h h' : Heap) (a b : List ℕ) (x size : ℕ) (r l l' : List ℕ) : Prop where
  shape : h'.Shape (a ++ x :: (r ++ b)) l'
  perm : l'.Perm (r ++ l)
  free : ∀ q ∈ r, h'.isFree q = true
  desc : ∀ q ∈ a ++ b, h'.mem.desc q = h.mem.desc q
  live : h'.isFree x = false
  size : h'.mem.extent x = size ∨ h'.mem.extent x = size + 4
  writes : WritesIn (x :: l) h h'

namespace Shape

/-- A chunk that fits well is taken as it is. -/
theorem carve_exact (hs : h.Shape (a ++ x :: b) l) (hxl : x ∉ l) (hfree : h.isFree x = true)
    (hmod : size % 4 = 0) (hmax : size ≤ 2040) (hle : size ≤ h.chunkSize x)
    (hfit : ¬ HEAP_MIN_CHUNK_SIZE ≤ h.chunkSize x - size) :
  ∃ h', h.carve x size = some h' ∧ Taken h h' a b x size [] l l
  := by
  have hx : x ∈ a ++ x :: b := by simp
  have hlt : h.chunkSize x < 2 ^ 11 := by
    simp only [HEAP_MIN_CHUNK_SIZE] at hfit
    omega
  have hobj : h.objSize x = h.chunkSize x := by
    have heq := Desc.chunkSize_eq (h.mem.desc x)
    simp only [objSize, chunkSize] at *
    omega
  set h' := h.modifyDesc x fun od => (od.setType 0).setFree false with hh'
  have hdesc : h'.mem.desc x = ((h.mem.desc x).setType 0).setFree false :=
    Memory.desc_setDesc_self _ _ _
  have hlive : h'.isFree x = false := by rw [isFree, hdesc, Desc.free_setFree]
  have hextent : h'.mem.extent x = h.chunkSize x := by
    rw [Memory.extent_of_live hlive, hdesc, Desc.objSize_setFree, Desc.objSize_setType]
    exact hobj
  have hlarge := hs.large x hx
  refine ⟨h', if_neg hfit, ?_, List.Perm.refl _, by simp, ?_, hlive, ?_, rfl, ?_⟩
  · apply hs.modifyDesc hx hxl
    rw [← hh', hextent]
    exact (Memory.extent_of_free hfree).symm
  · intro q hq
    apply Memory.desc_setDesc
    apply (hs.apart hx (by grind)).resolve_left
    rintro rfl
    exact (List.nodup_cons.mp (List.nodup_middle.mp hs.tiles.nodup)).1 hq
  · have hchunk : h.chunkSize x % 4 = 0 := Desc.chunkSize_mod _
    simp only [HEAP_MIN_CHUNK_SIZE] at hfit
    rw [hextent]
    omega
  · intro c hc
    have := hc x List.mem_cons_self
    simp only [HEAP_MIN_CHUNK_SIZE] at hlarge
    apply Memory.setDesc_apply
    omega

/-- A chunk that begins inside another one that is not on the list. -/
theorem apart_inside (hs : h.Shape cs l) (hx : x ∈ cs) (hxl : x ∉ l) (hle : x ≤ r)
    (hr : r + HEAP_MIN_CHUNK_SIZE ≤ x + h.mem.extent x) (hq : q ∈ l) :
  Apart r q
  := by
  have hne : x ≠ q := fun heq => hxl (heq ▸ hq)
  have hlarge := hs.large q (hs.sub hq)
  have hdisjoint := hs.tiles.disjoint hx (hs.sub hq) hne
  simp only [Apart, HEAP_MIN_CHUNK_SIZE] at *
  omega

/-- What remains of a chunk that is not on the list is made free. -/
theorem makeFree_inside (hs : h.Shape cs l) (hx : x ∈ cs) (hxl : x ∉ l) (hle : x ≤ r)
    (hr : r + n ≤ x + h.mem.extent x) (hmin : HEAP_MIN_CHUNK_SIZE ≤ n) (hmod : n % 4 = 0) :
  ∃ h', h.makeFree r n = some h' ∧
    h'.FreeList (insertBehind (fun y => h.chunkSize y < n) r l) ∧ MadeFree h h' l r n
  := by
  have hbounds := hs.tiles.bounds hx
  have hbase := hs.base_pos
  have hbound := hs.bound
  have havail := hs.avail_le
  have hapart (q : ℕ) (hq : q ∈ l) : Apart r q := by
    apply hs.apart_inside hx hxl hle _ hq
    omega
  have hvalid : ∀ y ∈ r :: l, 0 < y ∧ y < 2 ^ 16 := by
    intro y hy
    rcases List.mem_cons.mp hy with rfl | hy
    · simp only [HEAP_MIN_CHUNK_SIZE] at hmin
      omega
    · exact hs.valid (hs.sub hy)
  have hspaced : Spaced (r :: l) := Spaced.cons (hs.spaced.mono hs.sub) hapart
  exact hs.freeList.makeFree hspaced (not_mem_of_apart hapart) hvalid hs.length_le hmod
    (by omega) (by omega)

end Shape

/-- The chunk `x` is cut to `size` bytes, and the rest of it is a free chunk. -/
structure Cut (h h' : Heap) (cs l : List ℕ) (x size : ℕ) : Prop where
  live : h'.isFree x = false
  extent : h'.mem.extent x = size
  rest : h'.isFree (x + size) = true
  restExtent : h'.mem.extent (x + size) = h.mem.extent x - size
  desc : ∀ q ∈ cs, q ≠ x → h'.mem.desc q = h.mem.desc q
  writes : WritesIn (x :: l) h h'

/-- The chunk and the rest of it tile the heap with the other chunks. -/
theorem Cut.shape (hc : Cut h h' (a ++ x :: b) l x size) (hs : h.Shape (a ++ x :: b) l)
    (hxl : x ∉ l) (hmin : HEAP_MIN_CHUNK_SIZE ≤ size)
    (hfit : HEAP_MIN_CHUNK_SIZE ≤ h.mem.extent x - size) (hlist : h'.FreeList l')
    (hperm : l'.Perm ((x + size) :: l)) :
  h'.Shape (a ++ x :: (x + size) :: b) l'
  := by
  have hxab : x ∉ a ++ b := (List.nodup_cons.mp (List.nodup_middle.mp hs.tiles.nodup)).1
  have hdesc (q : ℕ) (hq : q ∈ a ++ b) : h'.mem.desc q = h.mem.desc q := by
    apply hc.desc q (by grind)
    rintro rfl
    exact hxab hq
  have hextent (q : ℕ) (hq : q ∈ a ++ b) : h'.mem.extent q = h.mem.extent q :=
    Memory.extent_congr (hdesc q hq)
  have hbase' : h'.base = h.base := by rw [hc.writes.eq]
  have hsize' : h'.size = h.size := by rw [hc.writes.eq]
  refine ⟨?_, ?_, ?_, ?_, hlist, ?_⟩
  · rw [hbase']
    exact hs.base_pos
  · rw [hbase', hsize']
    exact hs.bound
  · rw [hbase', hsize']
    simp only [HEAP_MIN_CHUNK_SIZE] at hmin hfit
    exact hs.tiles.split (by omega) (by omega) hc.extent hc.restExtent hextent
  · intro q hq
    have hcases : q = x ∨ q = x + size ∨ q ∈ a ++ b := by grind
    rcases hcases with rfl | rfl | hq
    · rwa [hc.extent]
    · rwa [hc.restExtent]
    · rw [hextent q hq]
      apply hs.large q (by grind)
  · intro p hp
    rcases List.mem_cons.mp (hperm.mem_iff.mp hp) with rfl | hp
    · exact ⟨by simp, hc.rest⟩
    · have hne : p ≠ x := fun heq => hxl (heq ▸ hp)
      have hpab : p ∈ a ++ b := by
        have := hs.sub hp
        grind
      use by grind
      rw [isFree, hdesc p hpab]
      exact (hs.free p hp).2

namespace Shape

/-- A chunk is cut to the size when enough remains. -/
theorem cut (hs : h.Shape cs l) (hx : x ∈ cs) (hxl : x ∉ l) (hfree : h.isFree x = true)
    (hmin : HEAP_MIN_CHUNK_SIZE ≤ size) (hmod : size % 4 = 0) (hmax : size ≤ 2040)
    (hfit : HEAP_MIN_CHUNK_SIZE ≤ h.chunkSize x - size) :
  ∃ h' l', h.carve x size = some h' ∧ h'.FreeList l' ∧ l'.Perm ((x + size) :: l) ∧
    Cut h h' cs l x size
  := by
  have hextent : h.mem.extent x = h.chunkSize x := Memory.extent_of_free hfree
  have hchunkmod : h.chunkSize x % 4 = 0 := Desc.chunkSize_mod _
  obtain ⟨h₁, heq, hlist, hmade⟩ := hs.makeFree_inside (n := h.chunkSize x - size) hx hxl
    (Nat.le_add_right x size) (by simp only [HEAP_MIN_CHUNK_SIZE] at hfit; omega) hfit (by omega)
  set h' := h₁.modifyDesc x fun od => ((od.setObjSize 0).setFree false).setObjSize size with hh'
  have hxapart : Apart x (x + size) := .inl (by omega)
  have hxdesc : h₁.mem.desc x = h.mem.desc x := by
    apply hmade.desc _ (Or.symm hxapart)
    exact fun y hy => hs.apart (hs.sub hy) hx
  have hdesc : h'.mem.desc x = (((h.mem.desc x).setObjSize 0).setFree false).setObjSize size := by
    rw [← hxdesc]
    exact Memory.desc_setDesc_self _ _ _
  have hlive : h'.isFree x = false := by
    rw [isFree, hdesc, Desc.free_setObjSize, Desc.free_setFree]
  have hrdesc : h'.mem.desc (x + size) = h₁.mem.desc (x + size) := Memory.desc_setDesc hxapart
  have hrfree : h'.isFree (x + size) = true := by
    rw [isFree, hrdesc]
    exact hmade.free
  have hlist' : h'.FreeList
      (insertBehind (fun y => h.chunkSize y < h.chunkSize x - size) (x + size) l) := by
    refine hlist.congr ?_ rfl rfl
    intro y hy c hyc hcy
    have hyx : Apart x y := by
      rcases mem_insertBehind.mp hy with rfl | hy
      · exact hxapart
      · exact (hs.apart hx (hs.sub hy)).resolve_left fun heq => hxl (heq ▸ hy)
    simp only [Apart, HEAP_MIN_CHUNK_SIZE] at hyx
    apply Memory.setDesc_apply
    omega
  refine ⟨h', _, ?_, hlist', perm_insertBehind, hlive, ?_, hrfree, ?_, ?_, ?_, ?_⟩
  · rw [carve, if_pos hfit, heq]
    rfl
  · rw [Memory.extent_of_live hlive, hdesc, Desc.objSize_setObjSize]
    omega
  · rw [Memory.extent_of_free hrfree, hrdesc, hextent]
    exact hmade.size
  · intro q hq hne
    have hdisjoint := hs.tiles.disjoint hx hq hne.symm
    have hlarge := hs.large q hq
    have hset : h'.mem.desc q = h₁.mem.desc q :=
      Memory.desc_setDesc ((hs.apart hx hq).resolve_left hne.symm)
    rw [hset]
    apply hmade.desc fun y hy => hs.apart (hs.sub hy) hq
    rw [hextent] at hdisjoint
    simp only [Apart, HEAP_MIN_CHUNK_SIZE] at *
    omega
  · rw [hh', Heap.modifyDesc, hmade.eq]
  · intro c hc
    rw [List.forall_mem_cons, hextent] at hc
    simp only [HEAP_MIN_CHUNK_SIZE] at hmin hfit
    have hset : h'.mem c = h₁.mem c := by
      apply Memory.setDesc_apply
      omega
    rw [hset]
    apply hmade.frame
    · intro y hy
      have := hs.large y (hs.sub hy)
      have := hc.2 y hy
      simp only [HEAP_MIN_CHUNK_SIZE] at *
      omega
    · omega

theorem carve_split (hs : h.Shape (a ++ x :: b) l) (hxl : x ∉ l) (hfree : h.isFree x = true)
    (hmin : HEAP_MIN_CHUNK_SIZE ≤ size) (hmod : size % 4 = 0) (hmax : size ≤ 2040)
    (hfit : HEAP_MIN_CHUNK_SIZE ≤ h.chunkSize x - size) :
  ∃ h' l', h.carve x size = some h' ∧ Taken h h' a b x size [x + size] l l'
  := by
  have hxab : x ∉ a ++ b := (List.nodup_cons.mp (List.nodup_middle.mp hs.tiles.nodup)).1
  obtain ⟨h', l', heq, hlist, hperm, hcut⟩ := hs.cut (by simp) hxl hfree hmin hmod hmax hfit
  rw [chunkSize, ← Memory.extent_of_free hfree] at hfit
  refine ⟨h', l', heq, hcut.shape hs hxl hmin hfit hlist hperm, hperm, ?_, ?_, hcut.live,
    .inl hcut.extent, hcut.writes⟩
  · intro q hq
    rw [List.mem_singleton.mp hq]
    exact hcut.rest
  · intro q hq
    apply hcut.desc q (by grind)
    rintro rfl
    exact hxab hq

/-- A chunk that is not on the list is taken for a request that fits. -/
theorem carve (hs : h.Shape (a ++ x :: b) l) (hxl : x ∉ l) (hfree : h.isFree x = true)
    (hmin : HEAP_MIN_CHUNK_SIZE ≤ size) (hmod : size % 4 = 0) (hmax : size ≤ 2040)
    (hle : size ≤ h.chunkSize x) :
  ∃ h' r l', h.carve x size = some h' ∧ (∀ q ∈ r, q = x + size) ∧ Taken h h' a b x size r l l'
  := by
  by_cases hfit : HEAP_MIN_CHUNK_SIZE ≤ h.chunkSize x - size
  · obtain ⟨h', l', heq, htaken⟩ := hs.carve_split hxl hfree hmin hmod hmax hfit
    exact ⟨h', _, l', heq, by simp, htaken⟩
  · obtain ⟨h', heq, htaken⟩ := hs.carve_exact hxl hfree hmod hmax hle hfit
    exact ⟨h', [], l, heq, by simp, htaken⟩

end Shape

theorem WritesIn.trans {h'' : Heap} {l' : List ℕ} (hh' : WritesIn l h h')
    (hh'' : WritesIn l' h' h'') (hl : ∀ y ∈ l', y ∈ l ∧ h'.mem.extent y = h.mem.extent y) :
  WritesIn l h h''
  := by
  constructor
  · rw [hh''.eq, hh'.eq]
  · intro c hc
    rw [hh''.frame c, hh'.frame c hc]
    intro y hy
    rw [(hl y hy).2]
    exact hc y (hl y hy).1

theorem WritesIn.mono {l' : List ℕ} (hh' : WritesIn l h h') (hl : l ⊆ l') : WritesIn l' h h' := by
  use hh'.eq
  intro c hc
  apply hh'.frame c fun y hy => hc y (hl hy)

/-- The links of a chunk lie in it. -/
theorem Relinked.writesIn (hh' : Relinked l h h')
    (hlarge : ∀ y ∈ l, HEAP_MIN_CHUNK_SIZE ≤ h.mem.extent y) :
  WritesIn l h h'
  := by
  use hh'.eq
  intro c hc
  apply hh'.frame
  intro y hy
  have := hlarge y hy
  have := hc y hy
  simp only [HEAP_MIN_CHUNK_SIZE] at *
  omega

/-- The chunks of the heap. -/
def chunks (h : Heap) : List ℕ :=
  blocks h.mem.extent h.size h.base (h.base + h.size)

/-- The chunks of the heap that hold objects. -/
def objects (h : Heap) : List ℕ :=
  h.chunks.filter fun p => !h.isFree p

/-- The chunks of the heap that are free. -/
def freeChunks (h : Heap) : List ℕ :=
  h.chunks.filter h.isFree

/-- The chunks tile the heap, the free ones are on the list, and the objects have the current
mark. -/
structure Inv (h : Heap) : Prop where
  shape : ∃ l, h.Shape h.chunks l ∧ l.Perm h.freeChunks
  marked : ∀ p ∈ h.objects, h.mark p = h.gcval

theorem Shape.chunks_eq (hs : h.Shape cs l) : h.chunks = cs :=
  hs.tiles.blocks_eq (by omega)

theorem mem_objects : p ∈ h.objects ↔ p ∈ h.chunks ∧ h.isFree p = false := by
  simp [objects]

theorem mem_freeChunks : p ∈ h.freeChunks ↔ p ∈ h.chunks ∧ h.isFree p = true := by
  simp [freeChunks]

theorem Inv.nodup_objects (hi : h.Inv) : h.objects.Nodup := by
  obtain ⟨l, hs, -⟩ := hi.shape
  exact hs.tiles.nodup.filter _

/-- The invariant, when the list is known. -/
theorem Shape.inv (hs : h.Shape cs l) (hfree : ∀ p ∈ cs, h.isFree p = true → p ∈ l)
    (hmark : ∀ p ∈ cs, h.isFree p = false → h.mark p = h.gcval) :
  h.Inv
  := by
  have heq := hs.chunks_eq
  constructor
  · use l
    rw [heq]
    use hs
    rw [List.perm_ext_iff_of_nodup hs.freeList.list.nodup]
    · intro p
      rw [mem_freeChunks, heq]
      exact ⟨hs.free p, fun hp => hfree p hp.1 hp.2⟩
    · rw [freeChunks, heq]
      exact hs.tiles.nodup.filter _
  · intro p hp
    rw [mem_objects, heq] at hp
    exact hmark p hp.1 hp.2

/-- A chunk is allocated for `size` bytes: the chunk that fits best, which was free. -/
structure Allocated (h h' : Heap) (x size : ℕ) : Prop where
  free : x ∈ h.freeChunks ∧ size ≤ h.chunkSize x
  best : ∀ p ∈ h.freeChunks, size ≤ h.chunkSize p → h.chunkSize x ≤ h.chunkSize p
  objects : h'.objects.Perm (x :: h.objects)
  extent : h'.mem.extent x = size ∨ h'.mem.extent x = size + 4
  writes : WritesIn h.freeChunks h h'
  avail : h'.avail + h'.mem.extent x = h.avail

/-- The free chunks and the objects have all the bytes of the heap. -/
theorem Inv.avail_add (hi : h.Inv) : h.avail + (h.objects.map h.mem.extent).sum = h.size := by
  obtain ⟨l, hs, hperm⟩ := hi.shape
  have hsum := hs.tiles.sum
  have hsplit := (List.filter_append_perm h.isFree h.chunks).map h.mem.extent
  have hmap : l.map h.chunkSize = l.map h.mem.extent :=
    List.map_congr_left fun p hp => hs.chunkSize_eq hp
  have hfree := (hperm.map h.mem.extent).sum_eq
  have htotal := hsplit.sum_eq
  rw [List.map_append, List.sum_append] at htotal
  rw [hs.freeList.avail, hmap, hfree]
  simp only [objects, freeChunks] at *
  omega

/-- One more object takes its bytes from what is available. -/
theorem Inv.avail_of_objects (hi : h.Inv) (hi' : h'.Inv) (hsize : h'.size = h.size)
    (hobjects : h'.objects.Perm (x :: h.objects))
    (hextent : ∀ p ∈ h.objects, h'.mem.extent p = h.mem.extent p) :
  h'.avail + h'.mem.extent x = h.avail
  := by
  have hsum := (hobjects.map h'.mem.extent).sum_eq
  have hmap : h.objects.map h'.mem.extent = h.objects.map h.mem.extent :=
    List.map_congr_left hextent
  have := hi.avail_add
  have := hi'.avail_add
  rw [List.map_cons, List.sum_cons, hmap] at hsum
  omega

/-- What is left of the list and of the chunks when a chunk was taken from the list. -/
theorem Taken.inv {r l' : List ℕ} (ht : Taken h h' a b x size r l l')
    (hlisted : ∀ p ∈ a ++ b, h.isFree p = true → p ∈ l)
    (hmark : ∀ p ∈ a ++ b, h.isFree p = false → h.mark p = h.gcval) (hmarkx : h'.mark x = h.gcval) :
  h'.Inv
  := by
  have hgcval : h'.gcval = h.gcval := by rw [ht.writes.eq]
  apply ht.shape.inv
  · intro p hp hfree
    rw [ht.perm.mem_iff, List.mem_append]
    have hcases : p = x ∨ p ∈ r ∨ p ∈ a ++ b := by grind
    rcases hcases with rfl | hp | hp
    · cases hfree.symm.trans ht.live
    · exact .inl hp
    · right
      apply hlisted p hp
      rwa [isFree, ← ht.desc p hp]
  · intro p hp hlive
    have hcases : p = x ∨ p ∈ r ∨ p ∈ a ++ b := by grind
    rw [hgcval]
    rcases hcases with rfl | hp | hp
    · exact hmarkx
    · cases (ht.free p hp).symm.trans hlive
    · rw [mark, ht.desc p hp]
      apply hmark p hp
      rwa [isFree, ← ht.desc p hp]

/-- The chunk that was taken gets a mark. -/
theorem Taken.setGcval {r l' : List ℕ} (ht : Taken h h' a b x size r l l')
    (hlarge : HEAP_MIN_CHUNK_SIZE ≤ h.mem.extent x) (g : Bool) :
  Taken h (h'.modifyDesc x fun od => od.setGcval g) a b x size r l l'
  := by
  have hx : x ∈ a ++ x :: (r ++ b) := by simp
  have hxl : x ∉ l' := by
    intro hmem
    cases (ht.shape.free x hmem).2.symm.trans ht.live
  have hdescx : (h'.modifyDesc x fun od => od.setGcval g).mem.desc x
      = (h'.mem.desc x).setGcval g := Memory.desc_setDesc_self _ _ _
  have hlive : (h'.modifyDesc x fun od => od.setGcval g).isFree x = false := by
    rw [isFree, hdescx, Desc.free_setGcval]
    exact ht.live
  have hext : (h'.modifyDesc x fun od => od.setGcval g).mem.extent x = h'.mem.extent x := by
    rw [Memory.extent_of_live hlive, Memory.extent_of_live ht.live, hdescx,
      Desc.objSize_setGcval]
  have hother (q : ℕ) (hq : q ∈ r ++ (a ++ b)) :
      (h'.modifyDesc x fun od => od.setGcval g).mem.desc q = h'.mem.desc q := by
    apply Memory.desc_setDesc
    apply (ht.shape.apart hx (by grind)).resolve_left
    rintro rfl
    apply (List.nodup_cons.mp (List.nodup_middle.mp ht.shape.tiles.nodup)).1
    grind
  constructor
  · exact ht.shape.modifyDesc hx hxl hext
  · exact ht.perm
  · intro q hq
    rw [isFree, hother q (List.mem_append_left _ hq)]
    exact ht.free q hq
  · intro q hq
    rw [hother q (List.mem_append_right _ hq)]
    exact ht.desc q hq
  · exact hlive
  · rw [hext]
    exact ht.size
  · constructor
    · rw [Heap.modifyDesc, ht.writes.eq]
    · intro c hc
      rw [← ht.writes.frame c hc]
      have := hc x List.mem_cons_self
      simp only [HEAP_MIN_CHUNK_SIZE] at hlarge
      apply Memory.setDesc_apply
      omega

/-- The chunk that was taken is one more object. -/
theorem Taken.objects {r l' : List ℕ} (ht : Taken h h' a b x size r l l')
    (hs : h.Shape (a ++ x :: b) l) (hfree : h.isFree x = true) :
  h'.objects.Perm (x :: h.objects)
  := by
  have hkeep (c : List ℕ) (hc : c ⊆ a ++ b) :
      c.filter (fun p => !h'.isFree p) = c.filter fun p => !h.isFree p := by
    apply List.filter_congr
    intro p hp
    rw [isFree, isFree, ht.desc p (hc hp)]
  have hr : r.filter (fun p => !h'.isFree p) = [] := by
    rw [List.filter_eq_nil_iff]
    intro q hq
    simp [ht.free q hq]
  rw [Heap.objects, Heap.objects, ht.shape.chunks_eq, hs.chunks_eq, List.filter_append,
    List.filter_cons, ht.live, List.filter_append, hr, hkeep a (by simp), hkeep b (by simp),
    List.filter_append, List.filter_cons, hfree]
  exact List.perm_middle

/-- A request for a chunk fails when no free chunk is large enough, and is served by the one that
fits best else. -/
theorem Inv.getChunkImpl (hi : h.Inv) (hmin : HEAP_MIN_CHUNK_SIZE ≤ size) (hmod : size % 4 = 0)
    (hmax : size ≤ 2040) :
  (h.getChunkImpl size = some (h, .error .exMem) ∧ ∀ p ∈ h.freeChunks, h.chunkSize p < size) ∨
    ∃ h' x, h.getChunkImpl size = some (h', .ok x) ∧ h'.Inv ∧ Allocated h h' x size
  := by
  obtain ⟨l, hs, hperm⟩ := hi.shape
  have hfind := findFit_eq size hs.freeList.list.next (Nat.lt_succ_of_le hs.length_le)
  cases hx : l.find? fun y => size ≤ h.chunkSize y with
  | none =>
      left
      rw [hx] at hfind
      constructor
      · simp [Heap.getChunkImpl, hfind]
      · intro p hp
        simpa using List.find?_eq_none.mp hx p (hperm.mem_iff.mpr hp)
  | some x =>
      right
      rw [hx] at hfind
      have hxl : x ∈ l := List.mem_of_find?_eq_some hx
      have hle : size ≤ h.chunkSize x := by simpa using List.find?_some hx
      have hbest := hs.freeList.sorted.le_of_find? hx
      obtain ⟨a', b', rfl⟩ := List.append_of_mem hxl
      obtain ⟨a, b, hab⟩ := List.append_of_mem (hs.sub hxl)
      have hxfree : h.isFree x = true := (hs.free x hxl).2
      have hnotin : x ∉ a' ++ b' :=
        (List.nodup_cons.mp (List.nodup_middle.mp hs.freeList.list.nodup)).1
      have hsub : a' ++ b' ⊆ a' ++ x :: b' := by grind
      obtain ⟨hs₁, hrelinked⟩ := hs.unlink
      have hdesc (p : ℕ) (hp : p ∈ h.chunks) := hs.desc_relinked hrelinked (hs₁.sub) hp
      rw [hab] at hs₁ hdesc
      have hxchunk := hdesc x (by simp)
      obtain ⟨h₂, r, l', heq, -, htaken⟩ := hs₁.carve hnotin (by rw [isFree, hxchunk]; exact hxfree)
        hmin hmod hmax (by rw [chunkSize, hxchunk]; exact hle)
      have hextent (p : ℕ) (hp : p ∈ a ++ x :: b) := Memory.extent_congr (hdesc p hp)
      have hlarge : HEAP_MIN_CHUNK_SIZE ≤ (h.unlinkFromFreelist x).mem.extent x :=
        hs₁.large x (by simp)
      have ht := htaken.setGcval hlarge h₂.gcval
      have hxab : x ∉ a ++ b := by
        have hnodup := hs₁.tiles.nodup
        exact (List.nodup_cons.mp (List.nodup_middle.mp hnodup)).1
      have hgcval₁ : (h.unlinkFromFreelist x).gcval = h.gcval := by rw [hrelinked.eq]
      have hgcval₂ : h₂.gcval = h.gcval := by rw [htaken.writes.eq, hgcval₁]
      have hwrites : WritesIn h.freeChunks h
          (h₂.modifyDesc x fun od => od.setGcval h₂.gcval) := by
        have hunlink := hrelinked.writesIn fun y hy => hs.large y (hs.sub (hsub hy))
        apply WritesIn.mono _ hperm.subset
        apply (hunlink.mono hsub).trans ht.writes
        intro y hy
        have hyl : y ∈ a' ++ x :: b' := by grind
        exact ⟨hyl, hextent y (hab ▸ hs.sub hyl)⟩
      have hinv : (h₂.modifyDesc x fun od => od.setGcval h₂.gcval).Inv := by
        apply ht.inv
        · intro p hp hfree
          have hpc : p ∈ a ++ x :: b := by grind
          rw [isFree, hdesc p hpc] at hfree
          have hpl := hperm.mem_iff.mpr (mem_freeChunks.mpr ⟨hab ▸ hpc, hfree⟩)
          grind
        · intro p hp hlive
          have hpc : p ∈ a ++ x :: b := by grind
          rw [isFree, hdesc p hpc] at hlive
          rw [mark, hdesc p hpc, hgcval₁]
          exact hi.marked p (mem_objects.mpr ⟨hab ▸ hpc, hlive⟩)
        · rw [mark, Heap.modifyDesc]
          dsimp only
          rw [Memory.desc_setDesc_self, Desc.gcval_setGcval, hgcval₂, hgcval₁]
      have hobjects₁ : (h.unlinkFromFreelist x).objects = h.objects := by
        rw [objects, objects, hs₁.chunks_eq, hab]
        apply List.filter_congr
        intro p hp
        rw [isFree, isFree, hdesc p hp]
      have hobjects := hobjects₁ ▸ ht.objects hs₁ (by rw [isFree, hxchunk]; exact hxfree)
      refine ⟨_, x, ?_, hinv, ?_⟩
      · simp [Heap.getChunkImpl, hfind, heq]
      · refine ⟨⟨mem_freeChunks.mpr ⟨hs.sub hxl, hxfree⟩, hle⟩, ?_, hobjects, ht.size, hwrites, ?_⟩
        · intro p hp hfit
          apply hbest p (hperm.mem_iff.mpr hp) (by simpa using hfit)
        · have hsize : (h₂.modifyDesc x fun od => od.setGcval h₂.gcval).size = h.size := by
            rw [hwrites.eq]
          apply hi.avail_of_objects hinv hsize hobjects
          intro p hp
          rw [mem_objects, hab] at hp
          have hpx : p ≠ x := by
            rintro rfl
            cases hxfree.symm.trans hp.2
          have hpab : p ∈ a ++ b := by
            have := hp.1
            grind
          rw [Memory.extent_congr (ht.desc p hpab), hextent p hp.1]

/-! ### Release -/

/-- The object at `p` is released. -/
structure Released (h h' : Heap) (p : ℕ) : Prop where
  objects : h.objects.Perm (p :: h'.objects)
  writes : WritesIn (p :: h.freeChunks) h h'
  avail : h.avail + h.mem.extent p = h'.avail

/-- An object is released to the list. -/
theorem Inv.freeChunk (hi : h.Inv) (hp : p ∈ h.objects) :
  ∃ h', h.freeChunk p = some h' ∧ h'.Inv ∧ Released h h' p
  := by
  obtain ⟨l, hs, hperm⟩ := hi.shape
  obtain ⟨hpc, hlive⟩ := mem_objects.mp hp
  have hpl : p ∉ l := by
    intro hmem
    cases (hs.free p hmem).2.symm.trans hlive
  set h₁ := h.modifyDesc p fun od => (od.setFree true).setType 0 with hh₁
  have hdescp : h₁.mem.desc p = ((h.mem.desc p).setFree true).setType 0 :=
    Memory.desc_setDesc_self _ _ _
  have hfree₁ : h₁.isFree p = true := by
    rw [isFree, hdescp, Desc.free_setType, Desc.free_setFree]
  have hextent₁ : h₁.mem.extent p = h.mem.extent p := by
    rw [Memory.extent_of_free hfree₁, Memory.extent_of_live hlive, hdescp, Desc.chunkSize_setType,
      Desc.objSize_setFree]
    omega
  have hs₁ : h₁.Shape h.chunks l := hs.modifyDesc hpc hpl hextent₁
  have hother (q : ℕ) (hq : q ∈ h.chunks) (hne : q ≠ p) : h₁.mem.desc q = h.mem.desc q :=
    Memory.desc_setDesc ((hs.apart hpc hq).resolve_left hne.symm)
  obtain ⟨h', heq, hs', hrelinked⟩ := hs₁.link hpc hfree₁ hpl
  have hsub : p :: l ⊆ h.chunks := List.cons_subset.mpr ⟨hpc, hs.sub⟩
  have hdesc (q : ℕ) (hq : q ∈ h.chunks) := hs₁.desc_relinked hrelinked hsub hq
  have hinv : h'.Inv := by
    apply hs'.inv
    · intro q hq hfree
      rw [mem_insertBehind]
      by_cases hne : q = p
      · exact .inl hne
      · right
        rw [isFree, hdesc q hq, hother q hq hne] at hfree
        exact hperm.mem_iff.mpr (mem_freeChunks.mpr ⟨hq, hfree⟩)
    · intro q hq hlive'
      rw [isFree, hdesc q hq] at hlive'
      have hne : q ≠ p := by
        rintro rfl
        cases hfree₁.symm.trans hlive'
      rw [hother q hq hne] at hlive'
      rw [mark, hdesc q hq, hother q hq hne, hrelinked.eq]
      exact hi.marked q (mem_objects.mpr ⟨hq, hlive'⟩)
  have hfree' : h'.isFree p = true := by
    rw [isFree, hdesc p hpc]
    exact hfree₁
  have hobjects : h.objects.Perm (p :: h'.objects) := by
    have hmem (q : ℕ) : q ∈ h.objects ↔ q = p ∨ q ∈ h'.objects := by
      rw [mem_objects, mem_objects, hs'.chunks_eq]
      by_cases hne : q = p
      · simp [hne, hpc, hlive]
      · simp only [hne, false_or]
        apply and_congr_right
        intro hq
        rw [isFree, isFree, hdesc q hq, hother q hq hne]
    have hnodup : (p :: h'.objects).Nodup := by
      rw [List.nodup_cons, mem_objects, hfree']
      exact ⟨by simp, hinv.nodup_objects⟩
    rw [List.perm_ext_iff_of_nodup hi.nodup_objects hnodup]
    intro q
    rw [hmem, List.mem_cons]
  have hextent (q : ℕ) (hq : q ∈ h.chunks) : h'.mem.extent q = h.mem.extent q := by
    rw [Memory.extent_congr (hdesc q hq)]
    by_cases hne : q = p
    · rw [hne, hextent₁]
    · exact Memory.extent_congr (hother q hq hne)
  refine ⟨h', heq, hinv, hobjects, ?_, ?_⟩
  · have hl : p :: l ⊆ p :: h.freeChunks := List.cons_subset_cons p hperm.subset
    apply WritesIn.mono _ hl
    have hset : WritesIn (p :: l) h h₁ := by
      use rfl
      intro c hc
      have := hc p List.mem_cons_self
      have hlarge := hs.large p hpc
      simp only [HEAP_MIN_CHUNK_SIZE] at hlarge
      apply Memory.setDesc_apply
      omega
    apply hset.trans (hrelinked.writesIn fun y hy => hs₁.large y (hsub hy))
    intro y hy
    use hy
    rw [← Memory.extent_congr (hdesc y (hsub hy)), hextent y (hsub hy)]
  · have hsize : h.size = h'.size := by rw [hrelinked.eq]; rfl
    rw [← hinv.avail_of_objects hi hsize hobjects]
    intro q hq
    exact (hextent q (hs'.chunks_eq ▸ (mem_objects.mp hq).1)).symm

/-! ### Initialisation -/

/-- The free chunks that were made from the base on. -/
structure Laid (h : Heap) (cs l : List ℕ) (p : ℕ) : Prop where
  freeList : h.FreeList l
  perm : l.Perm cs
  tiles : Tiles h.mem.extent h.base cs p
  large : ∀ q ∈ cs, HEAP_MIN_CHUNK_SIZE ≤ h.mem.extent q
  free : ∀ q ∈ cs, h.isFree q = true

/-- A chunk is made behind the others. -/
theorem Laid.makeFree (hl : h.Laid cs l p) (hbase : 0 < h.base) (hbound : h.base + h.size < 2 ^ 16)
    (hmin : HEAP_MIN_CHUNK_SIZE ≤ n) (hmod : n % 4 = 0) (hp : p + n ≤ h.base + h.size) :
  ∃ h' l', h.makeFree p n = some h' ∧ h'.Laid (cs ++ [p]) l' (p + n) ∧
    h' = { h with mem := h'.mem, pfreelist := h'.pfreelist, avail := h'.avail }
  := by
  have hq (q : ℕ) (hq : q ∈ cs) := hl.tiles.bounds hq
  have hbefore (q : ℕ) (hq : q ∈ l) : q + HEAP_MIN_CHUNK_SIZE ≤ p := by
    have hqc := hl.perm.mem_iff.mp hq
    have := hl.tiles.bounds hqc
    have := hl.large q hqc
    omega
  have hapart (q : ℕ) (hq : q ∈ l) : Apart p q := .inr (hbefore q hq)
  have hspaced : Spaced l := by
    intro x hx y hy
    by_cases hxy : x = y
    · exact .inl hxy
    · have hxc := hl.perm.mem_iff.mp hx
      have hyc := hl.perm.mem_iff.mp hy
      have := hl.tiles.disjoint hxc hyc hxy
      have := hl.large x hxc
      have := hl.large y hyc
      right
      simp only [Apart]
      omega
  have hmap : l.map h.chunkSize = l.map h.mem.extent := by
    apply List.map_congr_left
    intro q hq
    exact (Memory.extent_of_free (hl.free q (hl.perm.mem_iff.mp hq))).symm
  have hsum := hl.tiles.sum
  have havail := hl.freeList.avail
  rw [hmap, (hl.perm.map h.mem.extent).sum_eq] at havail
  have hlength := hl.tiles.length_le
  rw [← hl.perm.length_eq] at hlength
  obtain ⟨h', heq, hlist, hmade⟩ := hl.freeList.makeFree (n := n) (Spaced.cons hspaced hapart)
    (not_mem_of_apart hapart)
    (by
      intro y hy
      rcases List.mem_cons.mp hy with rfl | hy
      · have := hl.tiles.le
        simp only [HEAP_MIN_CHUNK_SIZE] at hmin
        omega
      · have := hbefore y hy
        have := hl.tiles.bounds (hl.perm.mem_iff.mp hy)
        omega)
    (by omega) hmod (by omega) (by omega)
  have hdesc (q : ℕ) (hq : q ∈ cs) : h'.mem.desc q = h.mem.desc q := by
    have hql := hl.perm.mem_iff.mpr hq
    exact hmade.desc (fun y hy => hspaced y hy q hql) (hapart q hql)
  have hextentp : h'.mem.extent p = n := by
    rw [Memory.extent_of_free hmade.free]
    exact hmade.size
  have hbase' : h'.base = h.base := by rw [hmade.eq]
  refine ⟨h', _, heq, ⟨hlist, ?_, ?_, ?_, ?_⟩, hmade.eq⟩
  · apply (perm_insertBehind.trans (hl.perm.cons p)).trans
    exact (List.perm_append_singleton p cs).symm
  · rw [hbase', tiles_append]
    use p, hl.tiles.congr fun q hq => Memory.extent_congr (hdesc q hq)
    simp only [HEAP_MIN_CHUNK_SIZE] at hmin
    rw [tiles_cons, tiles_nil, hextentp]
    exact ⟨rfl, by omega, rfl⟩
  · intro q hq
    rcases List.mem_append.mp hq with hq | hq
    · rw [Memory.extent_congr (hdesc q hq)]
      exact hl.large q hq
    · obtain rfl := List.mem_singleton.mp hq
      rwa [hextentp]
  · intro q hq
    rcases List.mem_append.mp hq with hq | hq
    · rw [isFree, hdesc q hq]
      exact hl.free q hq
    · obtain rfl := List.mem_singleton.mp hq
      exact hmade.free

/-- The chunks of the heap after its initialisation. -/
theorem Laid.inv (hl : h.Laid cs l (h.base + h.size)) (hbase : 0 < h.base)
    (hbound : h.base + h.size < 2 ^ 16) :
  h.Inv ∧ h.objects = []
  := by
  have hs : h.Shape cs l :=
    ⟨hbase, hbound, hl.tiles, hl.large, hl.freeList, fun p hp =>
      ⟨hl.perm.mem_iff.mp hp, hl.free p (hl.perm.mem_iff.mp hp)⟩⟩
  constructor
  · apply hs.inv
    · intro p hp _
      exact hl.perm.mem_iff.mpr hp
    · intro p hp hlive
      cases (hl.free p hp).symm.trans hlive
  · rw [objects, hs.chunks_eq, List.filter_eq_nil_iff]
    intro p hp
    simp [hl.free p hp]

/-- The heap before its first chunk is made. -/
theorem laid_nil (hlist : h.pfreelist = none) (havail : h.avail = 0) : h.Laid [] [] h.base := by
  refine ⟨⟨?_, SortedBy.nil, havail⟩, List.Perm.refl _, rfl, by simp, by simp⟩
  rw [hlist]
  exact DoubleChain.isList_nil

/-- The heap is initialised as free chunks. -/
theorem init_inv {mem : Memory} {base size : ℕ} (hbase : 0 < base)
    (hmin : HEAP_MIN_CHUNK_SIZE ≤ size) (hmod : size % 4 = 0) (hbound : base + size < 2 ^ 16) :
  ∃ h, init mem base size = some h ∧ h.Inv ∧ h.objects = [] ∧
    h = { mem := h.mem, base, size, pfreelist := h.pfreelist, avail := h.avail, gcval := false,
          autoGc := true, tempRoots := fun _ => none, tempRootIndex := 0 }
  := by
  have hadj : base + (2 - 1 &&& 2 ^ 16 - 1 - (2 - 1)) = base := by simp
  set h₀ : Heap :=
    { mem, base, size, pfreelist := none, avail := 0, gcval := false, autoGc := true,
      tempRoots := fun _ => none, tempRootIndex := 0 } with hh₀
  have hlaid : h₀.Laid [] [] h₀.base := laid_nil rfl rfl
  simp only [init, hadj, Nat.sub_self, Nat.sub_zero, ← hh₀]
  have hmin' : 8 ≤ size := hmin
  by_cases htail : size % HEAP_MAX_FREE_CHUNK_SIZE < HEAP_MIN_CHUNK_SIZE
  · have htail' : size % 65532 < 8 := htail
    obtain ⟨h₁, l₁, heq₁, hlaid₁, hh₁⟩ := hlaid.makeFree (n := 8) hbase hbound le_rfl (by omega)
      (show base + 8 ≤ base + size by omega)
    have hbase₁ : h₁.base = base := by rw [hh₁]
    have hsize₁ : h₁.size = size := by rw [hh₁]
    obtain ⟨h₂, l₂, heq₂, hlaid₂, hh₂⟩ := hlaid₁.makeFree (n := size - 8) (by rwa [hbase₁])
      (by rwa [hbase₁, hsize₁]) (show 8 ≤ size - 8 by omega) (by omega)
      (show base + 8 + (size - 8) ≤ h₁.base + h₁.size by omega)
    have hbase₂ : h₂.base = base := by rw [hh₂, hbase₁]
    have hsize₂ : h₂.size = size := by rw [hh₂, hsize₁]
    have hend : base + 8 + (size - 8) = h₂.base + h₂.size := by omega
    obtain ⟨hinv, hobjects⟩ := (hend ▸ hlaid₂ : h₂.Laid _ _ (h₂.base + h₂.size)).inv
      (by rwa [hbase₂]) (by rwa [hbase₂, hsize₂])
    refine ⟨h₂, ?_, hinv, hobjects, by rw [hh₂, hh₁]⟩
    have hfirst : h₀.makeFree base HEAP_MIN_CHUNK_SIZE = some h₁ := heq₁
    have hrest : (h₁.size + 2 ^ 32 - HEAP_MIN_CHUNK_SIZE) % 2 ^ 32 = size - 8 := by
      simp only [HEAP_MIN_CHUNK_SIZE]
      omega
    have hlarge : 8 ≤ size - 8 := by omega
    have hmax : (size - 8) / HEAP_MAX_FREE_CHUNK_SIZE = 0 :=
      Nat.div_eq_of_lt (show size - 8 < 65532 by omega)
    rw [if_pos htail, hfirst]
    simp only [Option.map_some, Option.bind_eq_bind, Option.bind_some, hrest]
    rw [hmax, initMax, Option.bind_some]
    dsimp only
    rw [if_pos (show HEAP_MIN_CHUNK_SIZE ≤ size - 8 from hlarge),
      show (size - 8) / 4 * 4 = size - 8 by omega, hbase₁]
    exact heq₂
  · obtain ⟨h₁, l₁, heq₁, hlaid₁, hh₁⟩ := hlaid.makeFree (n := size) hbase hbound hmin (by omega)
      le_rfl
    have hbase₁ : h₁.base = base := by rw [hh₁]
    have hsize₁ : h₁.size = size := by rw [hh₁]
    have hend : base + size = h₁.base + h₁.size := by omega
    obtain ⟨hinv, hobjects⟩ := (hend ▸ hlaid₁ : h₁.Laid _ _ (h₁.base + h₁.size)).inv
      (by rwa [hbase₁]) (by rwa [hbase₁, hsize₁])
    refine ⟨h₁, ?_, hinv, hobjects, by rw [hh₁]⟩
    have htail' : ¬ size % 65532 < 8 := htail
    have hmax : size / HEAP_MAX_FREE_CHUNK_SIZE = 0 :=
      Nat.div_eq_of_lt (show size < 65532 by omega)
    rw [if_neg htail]
    simp only [Option.bind_eq_bind, Option.bind_some]
    rw [hmax, initMax, Option.bind_some]
    dsimp only
    rw [if_pos hmin, show size / 4 * 4 = size by omega]
    exact heq₁

end Heap

end Etaos.Vm
