import Etaos.Library.Blocks
import Etaos.Mm.Heap

/-!
# The free list as a list of blocks

The free list in memory represents a list of blocks.  The release of a node inserts its block
into that list, and an allocation takes a part of one block, or all of it, off the list.
-/

namespace Etaos.Mm

variable {arch : Arch}

/-- A block that can hold a header, and that ends before the address space does. -/
structure Arch.Fits (arch : Arch) (x : ℕ × ℕ) : Prop where
  pos : 0 < x.1
  size : arch.sizeofNode ≤ x.2
  space : x.1 + x.2 < arch.space

theorem Arch.sizeofNode_pos (arch : Arch) : 0 < arch.sizeofNode :=
  Nat.add_pos_right _ arch.sizeofPtr_pos

theorem Arch.heapOverhead_le (arch : Arch) : arch.heapOverhead ≤ arch.sizeofNode :=
  Nat.sub_le _ _

theorem Arch.toPtr_eq {a : ℕ} (h : 0 < a) : Arch.toPtr a = some a := by
  rw [Arch.toPtr, if_neg (by omega)]

theorem Arch.Fits.size_pos {x : ℕ × ℕ} (h : arch.Fits x) : 0 < x.2 :=
  arch.sizeofNode_pos.trans_le h.size

theorem Arch.Fits.sizeofNode_lt {x : ℕ × ℕ} (h : arch.Fits x) : arch.sizeofNode < arch.space := by
  have := h.pos
  have := h.size
  have := h.space
  omega

/-- The blocks of a separated list begin at different addresses. -/
theorem starts_nodup {l : List (ℕ × ℕ)} (h : Blocks.Separated l) : (l.map Prod.fst).Nodup := by
  rw [List.Nodup, List.pairwise_map]
  apply h.imp
  intro x y hxy
  omega

namespace Heap

variable {h h' : Heap} {a b l : List (ℕ × ℕ)} {p : Option ℕ}

/-- The free list of the heap is the list of blocks `l`. -/
structure FreeList (h : Heap) (l : List (ℕ × ℕ)) : Prop where
  chain : Chain.IsChain h.next h.root (l.map Prod.fst)
  size : ∀ x ∈ l, h.size x.1 = x.2

/-- The free list is `a ++ b`, and the pointer `p` leads to the blocks of `b`. -/
structure At (h : Heap) (a b : List (ℕ × ℕ)) (p : Option ℕ) : Prop where
  segment : Chain.Segment h.next h.root (a.map Prod.fst) p
  chain : Chain.IsChain h.next p (b.map Prod.fst)
  size : ∀ x ∈ a ++ b, h.size x.1 = x.2

@[simp]
theorem store_size (npp v : Option ℕ) : (h.store npp v).size = h.size := rfl

@[simp]
theorem store_next (npp v : Option ℕ) :
  (h.store npp v).next = (Chain.splice h.next h.root npp v).2
  := rfl

@[simp]
theorem store_root (npp v : Option ℕ) :
  (h.store npp v).root = (Chain.splice h.next h.root npp v).1
  := rfl

theorem FreeList.start (hl : h.FreeList l) : h.At [] l h.root where
  segment := rfl
  chain := hl.chain
  size := hl.size

/-- The walk goes on to the next block. -/
theorem At.next {x : ℕ × ℕ} (hat : h.At a (x :: b) p) :
  p = some x.1 ∧ h.At (a ++ [x]) b (h.next x.1)
  := by
  obtain ⟨hsegment, ⟨hp, hchain⟩, hsize⟩ := hat
  subst hp
  refine ⟨rfl, ?_, hchain, ?_⟩
  · rw [List.map_append, List.map_singleton, Chain.segment_append]
    exact ⟨some x.1, hsegment, rfl, rfl⟩
  · simpa using hsize

/-- The blocks of a free list begin at different addresses, on both sides of a place. -/
theorem starts_disjoint {x : ℕ × ℕ} (hl : Blocks.Separated (a ++ x :: b)) :
  (a.map Prod.fst).Nodup ∧ (∀ q ∈ a.map Prod.fst, q ∉ b.map Prod.fst) ∧
    x.1 ∉ a.map Prod.fst ∧ x.1 ∉ b.map Prod.fst
  := by
  have hnodup := starts_nodup hl
  rw [List.map_append, List.map_cons, List.nodup_append', List.nodup_cons,
    List.disjoint_cons_right] at hnodup
  obtain ⟨ha, ⟨hxb, -⟩, hxa, hdisjoint⟩ := hnodup
  exact ⟨ha, hdisjoint, hxa, hxb⟩

/-- The size of one block is written, and the others keep theirs. -/
theorem update_sizes {size : ℕ → ℕ} {q n : ℕ} (hother : ∀ x ∈ a ++ b, x.1 ≠ q)
    (hsize : ∀ x ∈ a ++ b, size x.1 = x.2) :
  ∀ x ∈ a ++ (q, n) :: b, Function.update size q n x.1 = x.2
  := by
  intro x hx
  rw [List.mem_append, List.mem_cons, or_left_comm, ← List.mem_append] at hx
  rcases hx with rfl | hx
  · simp
  · rw [Function.update_of_ne (hother x hx), hsize x hx]

/-- Only the size at a start in the list is written. -/
theorem update_frame {size : ℕ → ℕ} {x : ℕ × ℕ} (hx : x ∈ l) (n : ℕ) :
  ∀ q, q ∉ l.map Prod.fst → Function.update size x.1 n q = size q
  := by
  intro q hq
  apply Function.update_of_ne
  rintro rfl
  apply hq (List.mem_map_of_mem hx)

/-! ### Release -/

/-- The block `x` in front of the node released is merged with it, and with the next block
when that is adjacent. -/
theorem At.mergeLeft {x : ℕ × ℕ} {fnode : ℕ} (hat : h.At a (x :: b) p)
    (hl : Blocks.Separated (a ++ x :: b)) (hfits : ∀ y ∈ x :: b, arch.Fits y)
    (hadjacent : x.1 + x.2 = fnode) (hspace : fnode + h.size fnode < arch.space) :
  ∃ h', h.mergeLeft arch x.1 fnode = some h' ∧
    h'.FreeList (a ++ Blocks.mergeNext (x.1, x.2 + h.size fnode) b) ∧
    ∀ q, q ∉ (a ++ x :: b).map Prod.fst → h'.size q = h.size q
  := by
  obtain ⟨ha, hdisjoint, hxa, hxb⟩ := starts_disjoint hl
  obtain ⟨rfl, -⟩ := hat.next
  have hx := hfits x List.mem_cons_self
  have hxsize : h.size x.1 = x.2 := hat.size x (by simp)
  have hgrown : (h.size x.1 + h.size fnode) % arch.space = x.2 + h.size fnode := by
    rw [hxsize, Nat.mod_eq_of_lt]
    omega
  have hend : (x.1 + (x.2 + h.size fnode)) % arch.space = x.1 + (x.2 + h.size fnode) := by
    rw [Nat.mod_eq_of_lt]
    omega
  have hother (y : ℕ × ℕ) (hy : y ∈ a ++ b) : y.1 ≠ x.1 := by
    intro heq
    rcases List.mem_append.mp hy with hy | hy
    · exact hxa (heq ▸ List.mem_map_of_mem hy)
    · exact hxb (heq ▸ List.mem_map_of_mem hy)
  have hsize (y : ℕ × ℕ) (hy : y ∈ a ++ b) : h.size y.1 = y.2 := by
    apply hat.size y
    rw [List.mem_append, List.mem_cons, or_left_comm, ← List.mem_append]
    exact .inr hy
  have hmem : x ∈ a ++ x :: b := by simp
  have hchain := hat.chain.2
  rw [Heap.mergeLeft]
  simp only [hgrown, Function.update_self, hend]
  cases b with
  | nil =>
      have hnext : h.next x.1 = none := hchain
      rw [hnext, if_neg (by have := hx.pos; simp; omega)]
      refine ⟨_, rfl, ⟨?_, update_sizes hother hsize⟩, update_frame hmem _⟩
      rw [Blocks.mergeNext, List.map_append, Chain.IsChain, Chain.segment_append]
      exact ⟨_, hat.segment, rfl, hnext⟩
  | cons y b =>
      obtain ⟨hnext, hchain⟩ := hchain
      have hyspace := (hfits y (by simp)).space
      have hyx : y.1 ≠ x.1 := hother y (by simp)
      rw [hnext, Option.getD_some, Blocks.mergeNext]
      split
      · have hboth : (x.2 + h.size fnode + y.2) % arch.space = x.2 + h.size fnode + y.2 := by
          rw [Nat.mod_eq_of_lt]
          omega
        have hsub (z : ℕ × ℕ) (hz : z ∈ a ++ b) : z ∈ a ++ y :: b := by
          rw [List.mem_append, List.mem_cons, or_left_comm, ← List.mem_append]
          exact .inr hz
        simp only [Option.map_some, Function.update_of_ne hyx, hsize y (by simp), hboth,
          Function.update_idem]
        refine ⟨_, rfl, ⟨?_, ?_⟩, update_frame hmem _⟩
        · rw [List.map_append, List.map_cons]
          rw [List.map_cons, List.mem_cons, not_or] at hxb
          apply Chain.isChain_relink hxa hxb.2 hat.segment hchain
        · apply update_sizes
          · intro z hz
            apply hother z (hsub z hz)
          · intro z hz
            apply hsize z (hsub z hz)
      · refine ⟨_, rfl, ⟨?_, update_sizes hother hsize⟩, update_frame hmem _⟩
        rw [List.map_append, List.map_cons, Chain.IsChain, Chain.segment_append]
        exact ⟨_, hat.segment, rfl, hnext, hchain⟩

/-- The node released goes before the block `x`, and is merged with it when that is
adjacent. -/
theorem At.linkBefore {x : ℕ × ℕ} {fnode : ℕ} (hat : h.At a (x :: b) p)
    (hl : Blocks.Separated (a ++ x :: b)) (hfits : arch.Fits x) (hpos : 0 < fnode)
    (hout : ∀ y ∈ a ++ x :: b, y.1 ≠ fnode) (hspace : fnode + h.size fnode < arch.space) :
  (h.linkBefore arch (a.map Prod.fst).getLast? x.1 fnode).FreeList
      (a ++ Blocks.mergeNext (fnode, h.size fnode) (x :: b)) ∧
    ∀ q, q ≠ fnode →
      (h.linkBefore arch (a.map Prod.fst).getLast? x.1 fnode).size q = h.size q
  := by
  obtain ⟨ha, hdisjoint, hxa, hxb⟩ := starts_disjoint hl
  obtain ⟨rfl, -⟩ := hat.next
  have houta : fnode ∉ a.map Prod.fst := by
    rintro hmem
    obtain ⟨y, hy, hyf⟩ := List.mem_map.mp hmem
    apply hout y (by simp [hy]) hyf
  have houtx : x.1 ≠ fnode := hout x (by simp)
  have houtb : fnode ∉ b.map Prod.fst := by
    rintro hmem
    obtain ⟨y, hy, hyf⟩ := List.mem_map.mp hmem
    apply hout y (by simp [hy]) hyf
  have hend : (fnode + h.size fnode) % arch.space = fnode + h.size fnode :=
    Nat.mod_eq_of_lt hspace
  have hxsize : h.size x.1 = x.2 := hat.size x (by simp)
  have hplace : (a.map Prod.fst).getLast? ≠ some x.1 := by
    intro hlast
    apply hxa (List.mem_of_getLast? hlast)
  have hsize (y : ℕ × ℕ) (hy : y ∈ a ++ b) : h.size y.1 = y.2 := by
    apply hat.size y
    rw [List.mem_append, List.mem_cons, or_left_comm, ← List.mem_append]
    exact .inr hy
  have hother (y : ℕ × ℕ) (hy : y ∈ a ++ b) : y.1 ≠ fnode := by
    apply hout y
    rw [List.mem_append, List.mem_cons, or_left_comm, ← List.mem_append]
    exact .inr hy
  rw [Heap.linkBefore, Arch.toPtr_eq hpos, Arch.toPtr_eq hfits.pos]
  simp only [store_size, hend, Blocks.mergeNext]
  split
  · have hxspace := hfits.space
    have hboth : (h.size fnode + h.size x.1) % arch.space = h.size fnode + x.2 := by
      rw [hxsize, Nat.mod_eq_of_lt]
      omega
    refine ⟨⟨?_, ?_⟩, ?_⟩
    · simp only [store_next, store_root, Chain.splice_apply_of_ne hplace]
      rw [List.map_append, List.map_cons]
      apply Chain.isChain_link ha hdisjoint houta houtb hat.segment hat.chain.2
    · rw [hboth]
      apply update_sizes hother hsize
    · intro q hq
      apply Function.update_of_ne hq
  · refine ⟨⟨?_, ?_⟩, fun q _ => rfl⟩
    · simp only [store_next, store_root]
      rw [List.map_append, List.map_cons, List.map_cons]
      apply Chain.isChain_link ha _ houta _ hat.segment hat.chain
      · intro q hq
        rw [List.map_cons, List.mem_cons, not_or]
        exact ⟨fun heq => hxa (heq ▸ hq), hdisjoint q hq⟩
      · rw [List.map_cons, List.mem_cons, not_or]
        exact ⟨houtx.symm, houtb⟩
    · intro y hy
      rw [List.mem_append, List.mem_cons, or_left_comm, ← List.mem_append] at hy
      rcases hy with rfl | hy
      · rfl
      · apply hat.size y hy

/-- The node released goes behind the last block. -/
theorem At.linkLast {fnode : ℕ} (hat : h.At l [] none) (hl : Blocks.Separated l)
    (hpos : 0 < fnode) (hout : ∀ y ∈ l, y.1 ≠ fnode) :
  ({ h with next := Function.update h.next fnode none }.store (l.map Prod.fst).getLast?
    (Arch.toPtr fnode)).FreeList (l ++ [(fnode, h.size fnode)])
  := by
  have houtl : fnode ∉ l.map Prod.fst := by
    rintro hmem
    obtain ⟨y, hy, hyf⟩ := List.mem_map.mp hmem
    apply hout y hy hyf
  have hplace : (l.map Prod.fst).getLast? ≠ some fnode := by
    intro hlast
    apply houtl (List.mem_of_getLast? hlast)
  constructor
  · rw [Arch.toPtr_eq hpos]
    simp only [store_next, store_root, Chain.splice_update hplace]
    rw [List.map_append]
    apply Chain.isChain_link (starts_nodup hl) (by simp) houtl (by simp) hat.segment hat.chain
  · intro y hy
    rw [List.mem_append, List.mem_singleton] at hy
    rcases hy with hy | rfl
    · apply hat.size y (by simpa using hy)
    · rfl

/-- The walk of `raw_mm_heap_free` inserts the block of the node released behind the blocks
`a`, which end before it. -/
theorem At.freeNode {fnode : ℕ} (hpos : 0 < fnode) (hspace : fnode + h.size fnode < arch.space)
    (hfpos : 0 < h.size fnode) :
    ∀ {b a : List (ℕ × ℕ)} {p : Option ℕ} (n : ℕ), h.At a b p → b.length ≤ n →
      Blocks.Separated (a ++ b) → (∀ x ∈ a ++ b, arch.Fits x) →
      (∀ x ∈ a ++ b, Blocks.Disjoint x (fnode, h.size fnode)) → (∀ x ∈ a, x.1 + x.2 < fnode) →
      ∃ h', h.freeNode arch fnode n (a.map Prod.fst).getLast? p = some (h', -EOK) ∧
        h'.FreeList (a ++ Blocks.insert (fnode, h.size fnode) b) ∧
        ∀ q, q ∉ (a ++ b).map Prod.fst → q ≠ fnode → h'.size q = h.size q
  | [], a, p, n, hat, _, hl, hfits, hdisjoint, _ => by
      have hp : p = none := hat.chain
      subst hp
      rw [List.append_nil] at hl hdisjoint hfits
      have hout (x : ℕ × ℕ) (hx : x ∈ a) : x.1 ≠ fnode := by
        have := hdisjoint x hx
        have := (hfits x hx).size_pos
        simp only [Blocks.Disjoint] at *
        omega
      refine ⟨_, by rw [Heap.freeNode], hat.linkLast hl hpos hout, fun q _ _ => rfl⟩
  | x :: b, a, p, 0, _, hn, _, _, _, _ => by simp at hn
  | x :: b, a, p, n + 1, hat, hn, hl, hfits, hdisjoint, ha => by
      obtain ⟨rfl, hat'⟩ := hat.next
      have hxfits := hfits x (by simp)
      have hxspace := hxfits.space
      have hxpos := hxfits.size_pos
      have hxdisjoint := hdisjoint x (by simp)
      have hxsize : h.size x.1 = x.2 := hat.size x (by simp)
      have hxend : (x.1 + x.2) % arch.space = x.1 + x.2 := Nat.mod_eq_of_lt hxspace
      simp only [Blocks.Disjoint] at hxdisjoint
      rw [Heap.freeNode, hxsize, hxend, Blocks.insert]
      split
      · rename_i hadjacent
        obtain ⟨h', hmerge, hlist, hframe⟩ := hat.mergeLeft hl
          (fun y hy => hfits y (List.mem_append_right a hy)) hadjacent hspace
        refine ⟨h', by rw [hmerge]; rfl, hlist, fun q hq _ => hframe q hq⟩
      · split
        · rename_i hlt
          have hout (y : ℕ × ℕ) (hy : y ∈ a ++ x :: b) : y.1 ≠ fnode := by
            have := hdisjoint y hy
            have := (hfits y hy).size_pos
            simp only [Blocks.Disjoint] at *
            omega
          obtain ⟨hlist, hframe⟩ := hat.linkBefore hl hxfits hpos hout hspace
          exact ⟨_, rfl, hlist, fun q _ hq => hframe q hq⟩
        · rw [if_neg (by omega)]
          have hassoc : a ++ x :: b = (a ++ [x]) ++ b := by simp
          have hlast : some x.1 = ((a ++ [x]).map Prod.fst).getLast? := by simp
          rw [hassoc] at hl hfits hdisjoint
          have ha' (y : ℕ × ℕ) (hy : y ∈ a ++ [x]) : y.1 + y.2 < fnode := by
            rw [List.mem_append, List.mem_singleton] at hy
            rcases hy with hy | rfl
            · apply ha y hy
            · omega
          obtain ⟨h', hfree, hlist, hframe⟩ := At.freeNode hpos hspace hfpos n hat'
            (by simpa using hn) hl hfits hdisjoint ha'
          rw [← hlast] at hfree
          refine ⟨h', hfree, by simpa using hlist, ?_⟩
          rw [hassoc]
          exact hframe

/-- A separated list of blocks that fit has no more blocks than there are addresses. -/
theorem length_le_space (hl : Blocks.Separated l) (hfits : ∀ x ∈ l, arch.Fits x) :
  l.length ≤ arch.space
  := by
  have hsub : l.map Prod.fst ⊆ List.range arch.space := by
    intro q hq
    obtain ⟨x, hx, rfl⟩ := List.mem_map.mp hq
    have := (hfits x hx).space
    rw [List.mem_range]
    omega
  have hle := ((starts_nodup hl).subperm hsub).length_le
  rwa [List.length_map, List.length_range] at hle

/-- The release of a node whose block is disjoint from the free list inserts that block. -/
theorem FreeList.freeNode {fnode : ℕ} (hlist : h.FreeList l) (hl : Blocks.Separated l)
    (hfits : ∀ x ∈ l, arch.Fits x) (hfnode : arch.Fits (fnode, h.size fnode))
    (hdisjoint : ∀ x ∈ l, Blocks.Disjoint x (fnode, h.size fnode)) :
  ∃ h', h.freeNode arch fnode arch.space none h.root = some (h', -EOK) ∧
    h'.FreeList (Blocks.insert (fnode, h.size fnode) l) ∧
    ∀ q, q ∉ l.map Prod.fst → q ≠ fnode → h'.size q = h.size q
  := by
  have hfree := hlist.start.freeNode hfnode.pos hfnode.space hfnode.size_pos arch.space
    (length_le_space hl hfits) (by simpa using hl) (by simpa using hfits)
    (by simpa using hdisjoint) (by simp)
  simpa using hfree

/-- The walk of `raw_mm_heap_free` with a node that lies in a block of the list stops at that
block, and has written nothing. -/
theorem At.freeNode_inside {x : ℕ × ℕ} {fnode : ℕ} (hmem : Blocks.Mem fnode x) :
    ∀ {b a : List (ℕ × ℕ)} {p : Option ℕ} (n : ℕ), h.At a b p → b.length ≤ n →
      Blocks.Separated b → (∀ y ∈ b, arch.Fits y) → x ∈ b →
      h.freeNode arch fnode n (a.map Prod.fst).getLast? p = some (h, -EINVAL)
  | y :: b, a, p, 0, _, hn, _, _, _ => by simp at hn
  | y :: b, a, p, n + 1, hat, hn, hl, hfits, hx => by
      obtain ⟨rfl, hat'⟩ := hat.next
      obtain ⟨hbehind, hl'⟩ := List.pairwise_cons.mp hl
      rw [List.forall_mem_cons] at hfits
      obtain ⟨hfit, hfits'⟩ := hfits
      have hsize : h.size y.1 = y.2 := hat.size y (by simp)
      have hend : (y.1 + y.2) % arch.space = y.1 + y.2 := Nat.mod_eq_of_lt hfit.space
      have hle := hmem.1
      have hlt := hmem.2
      rw [Heap.freeNode, hsize, hend]
      rcases List.mem_cons.mp hx with rfl | hx
      · rw [if_neg (by omega), if_neg (by omega), if_pos hlt]
      · -- the block `y` ends before the one that the node lies in, and is not adjacent to it
        have hbefore := hbehind x hx
        rw [if_neg (by omega), if_neg (by omega), if_neg (by omega)]
        have hrest := At.freeNode_inside hmem n hat' (by simpa using hn) hl' hfits' hx
        rw [← hrest]
        simp

/-- The release of a pointer whose header lies in a free node fails and leaves the heap as it
is, whatever that header holds. -/
theorem free_inside (hlist : h.FreeList l) (hl : Blocks.Separated l)
    (hfits : ∀ x ∈ l, arch.Fits x) {x : ℕ × ℕ} (hx : x ∈ l) {block : ℕ}
    (hmem : Blocks.Mem (mmRegionToNode arch block) x) :
  h.rawMmHeapFree arch (Arch.toPtr block) = some (h, -EINVAL)
  := by
  rw [Arch.toPtr]
  split
  · rfl
  · apply At.freeNode_inside hmem arch.space hlist.start (length_le_space hl hfits) hl hfits hx

/-- Three free nodes of an AVR. -/
def threeNodes : Heap where
  size a := if a = 256 then 20 else if a = 300 then 12 else 30
  next a := if a = 256 then some 300 else if a = 300 then some 400 else none
  root := some 256

/-- The pointer to a block that has been merged into the last of three free nodes is released once
more. -/
theorem free_inside_merged :
  threeNodes.rawMmHeapFree Arch.avr (Arch.toPtr 412) = some (threeNodes, -EINVAL)
  := by
  apply free_inside (l := [(256, 20), (300, 12), (400, 30)]) (x := (400, 30))
  · exact ⟨⟨rfl, rfl, rfl, rfl⟩, by simp [threeNodes]⟩
  · simp [Blocks.Separated]
  · intro x hx
    simp only [List.mem_cons, List.not_mem_nil, or_false] at hx
    rcases hx with rfl | rfl | rfl <;> constructor <;> decide
  · simp
  · decide

/-! ### Allocation -/

/-- A node of the list that is large enough, with the pointer to it. -/
def Place (l : List (ℕ × ℕ)) (need : ℕ) (f : ℕ × Option ℕ) : Prop :=
  ∃ a x b, l = a ++ x :: b ∧ f = (x.1, (a.map Prod.fst).getLast?) ∧ need ≤ x.2

/-- The walk finds nothing, or a node that is large enough. -/
theorem At.findFit (compare : Heap → Option ℕ → ℕ → MmState) (need : ℕ) :
    ∀ {b a : List (ℕ × ℕ)} {p : Option ℕ} {fit : Option (ℕ × Option ℕ)} (n : ℕ),
      h.At a b p → b.length ≤ n → (∀ f ∈ fit, Place (a ++ b) need f) →
      ∃ r, h.findFit compare need n (a.map Prod.fst).getLast? p fit = some r ∧
        ∀ f ∈ r, Place (a ++ b) need f
  | [], a, p, fit, n, hat, _, hfit => by
      have hp : p = none := hat.chain
      subst hp
      exact ⟨fit, by rw [Heap.findFit], hfit⟩
  | x :: b, a, p, fit, 0, _, hn, _ => by simp at hn
  | x :: b, a, p, fit, n + 1, hat, hn, hfit => by
      obtain ⟨rfl, hat'⟩ := hat.next
      have hassoc : a ++ x :: b = (a ++ [x]) ++ b := by simp
      have hlast : some x.1 = ((a ++ [x]).map Prod.fst).getLast? := by simp
      have hrest {fit : Option (ℕ × Option ℕ)} (hfit : ∀ f ∈ fit, Place (a ++ x :: b) need f) :
          ∃ r, h.findFit compare need n (some x.1) (h.next x.1) fit = some r ∧
            ∀ f ∈ r, Place (a ++ x :: b) need f := by
        rw [hlast]
        rw [hassoc] at hfit ⊢
        apply At.findFit compare need n hat' (by simpa using hn) hfit
      rw [Heap.findFit]
      split
      · rename_i hlarge
        rw [hat.size x (by simp)] at hlarge
        have hx : ∀ f ∈ some (x.1, (a.map Prod.fst).getLast?), Place (a ++ x :: b) need f := by
          rintro f hf
          obtain rfl := Option.some.inj hf
          exact ⟨a, x, b, rfl, rfl, hlarge⟩
        split
        · apply hrest hfit
        · exact ⟨_, rfl, hx⟩
        · split
          · exact ⟨_, rfl, hx⟩
          · apply hrest hx
      · apply hrest hfit

/-- What an allocation takes off the list `l`: the block of the node `fit`, with the size
`n`, and the list is `l'` afterwards. -/
structure Taken (arch : Arch) (h h' : Heap) (l l' : List (ℕ × ℕ)) (need fit : ℕ) : Prop where
  freeList : h'.FreeList l'
  separated : Blocks.Separated l'
  fits : ∀ x ∈ l', arch.Fits x
  fits_taken : arch.Fits (fit, h'.size fit)
  need_le : need ≤ h'.size fit
  cover : ∀ c, Blocks.cover l' c + Blocks.cover [(fit, h'.size fit)] c = Blocks.cover l c
  /-- Sizes outside of the list are kept. -/
  frame : ∀ q, Blocks.cover l q = 0 → h'.size q = h.size q

/-- A byte outside of the list is not in a block of the list. -/
theorem ne_of_cover_eq_zero {x : ℕ × ℕ} {q k : ℕ} (hx : x ∈ l) (hk : k < x.2)
    (hq : Blocks.cover l q = 0) :
  q ≠ x.1 + k
  := by
  rintro rfl
  have hpos := Blocks.cover_pos (b := x.1 + k) hx (by simp only [Blocks.Mem]; omega)
  omega

/-- The blocks on both sides of a block in a separated list do not begin in it. -/
theorem start_ne {x y : ℕ × ℕ} {k : ℕ} (hl : Blocks.Separated (a ++ x :: b)) (hk : k < x.2)
    (hy : y ∈ a ++ b) :
  y.1 ≠ x.1 + k
  := by
  simp only [Blocks.Separated, List.pairwise_append, List.pairwise_cons, List.mem_cons,
    forall_eq_or_imp] at hl
  obtain ⟨-, ⟨hxb, -⟩, hax⟩ := hl
  rcases List.mem_append.mp hy with hy | hy
  · have := (hax y hy).1
    omega
  · have := hxb y hy
    omega

/-- The node found is cut in two. -/
theorem At.takePart {x : ℕ × ℕ} {need : ℕ} (hat : h.At a (x :: b) p)
    (hl : Blocks.Separated (a ++ x :: b)) (hfits : ∀ y ∈ a ++ x :: b, arch.Fits y)
    (hneed : arch.sizeofNode ≤ need) (hrest : x.2 - need ≥ arch.heapMin) :
  Taken arch h (h.takeFit arch need x.1 (a.map Prod.fst).getLast?) (a ++ x :: b)
    (a ++ (x.1 + need, x.2 - need) :: b) need x.1
  := by
  obtain ⟨ha, hdisjoint, hxa, hxb⟩ := starts_disjoint hl
  have hx := hfits x (by simp)
  have hxspace := hx.space
  have hxsize : h.size x.1 = x.2 := hat.size x (by simp)
  have hnode := arch.sizeofNode_pos
  rw [Arch.heapMin] at hrest
  have hmod : (x.1 + need) % arch.space = x.1 + need := by
    rw [Nat.mod_eq_of_lt]
    omega
  have hstart (y : ℕ × ℕ) (hy : y ∈ a ++ b) : y.1 ≠ x.1 + need :=
    start_ne hl (by omega) hy
  have hstart' (y : ℕ × ℕ) (hy : y ∈ a ++ b) : y.1 ≠ x.1 := by
    apply start_ne hl (k := 0) (by omega) hy
  have hsize (y : ℕ × ℕ) (hy : y ∈ a ++ b) : h.size y.1 = y.2 := by
    apply hat.size y
    rw [List.mem_append, List.mem_cons, or_left_comm, ← List.mem_append]
    exact .inr hy
  have hnota : x.1 + need ∉ a.map Prod.fst := by
    intro hmem
    obtain ⟨y, hy, hyx⟩ := List.mem_map.mp hmem
    apply hstart y (List.mem_append_left b hy) hyx
  have hnotb : x.1 + need ∉ b.map Prod.fst := by
    intro hmem
    obtain ⟨y, hy, hyx⟩ := List.mem_map.mp hmem
    apply hstart y (List.mem_append_right a hy) hyx
  have hplace : (a.map Prod.fst).getLast? ≠ some (x.1 + need) := by
    intro hlast
    apply hnota (List.mem_of_getLast? hlast)
  rw [Heap.takeFit, hxsize, Arch.heapMin, if_pos hrest]
  simp only [hmod, Arch.toPtr_eq (a := x.1 + need) (by omega)]
  have htaken : Function.update (Function.update h.size (x.1 + need) (x.2 - need)) x.1 need x.1
      = need := Function.update_self ..
  constructor
  · constructor
    · simp only [store_next, store_root, Chain.splice_update hplace]
      rw [List.map_append, List.map_cons]
      apply Chain.isChain_link ha hdisjoint hnota hnotb hat.segment hat.chain.2
    · intro y hy
      simp only [store_size]
      rw [Function.update_of_ne]
      · apply update_sizes hstart hsize y hy
      · rw [List.mem_append, List.mem_cons, or_left_comm, ← List.mem_append] at hy
        rcases hy with rfl | hy
        · dsimp only
          omega
        · apply hstart' y hy
  · simp only [Blocks.Separated, List.pairwise_append, List.pairwise_cons, List.mem_cons,
      forall_eq_or_imp] at hl ⊢
    obtain ⟨hla, ⟨hlb, hlbb⟩, hlab⟩ := hl
    refine ⟨hla, ⟨?_, hlbb⟩, ?_⟩
    · intro y hy
      have := hlb y hy
      omega
    · intro y hy
      have := (hlab y hy).1
      exact ⟨by omega, (hlab y hy).2⟩
  · intro y hy
    rw [List.mem_append, List.mem_cons, or_left_comm, ← List.mem_append] at hy
    rcases hy with rfl | hy
    · exact ⟨by dsimp only; omega, hrest, by dsimp only; omega⟩
    · apply hfits y
      rw [List.mem_append, List.mem_cons, or_left_comm, ← List.mem_append]
      exact .inr hy
  · simp only [store_size, htaken]
    exact ⟨hx.pos, hneed, by dsimp only; omega⟩
  · simp only [store_size, htaken, le_refl]
  · intro c
    have hsplit := Blocks.cover_split x.1 need (x.2 - need) c
    rw [show need + (x.2 - need) = x.2 by omega, Prod.mk.eta] at hsplit
    simp only [store_size, htaken]
    rw [Blocks.cover_append, Blocks.cover_cons, Blocks.cover_append,
      Blocks.cover_cons x b, ← Blocks.cover_singleton, ← Blocks.cover_singleton, hsplit]
    omega
  · intro q hq
    have hxq : q ≠ x.1 := ne_of_cover_eq_zero (k := 0) (by simp) (by omega) hq
    have hnq : q ≠ x.1 + need := ne_of_cover_eq_zero (by simp) (by omega) hq
    simp only [store_size, Function.update_of_ne hxq, Function.update_of_ne hnq]

/-- The node found is taken whole. -/
theorem At.takeWhole {x : ℕ × ℕ} {need : ℕ} (hat : h.At a (x :: b) p)
    (hl : Blocks.Separated (a ++ x :: b)) (hfits : ∀ y ∈ a ++ x :: b, arch.Fits y)
    (hle : need ≤ x.2) (hrest : ¬ x.2 - need ≥ arch.heapMin) :
  Taken arch h (h.takeFit arch need x.1 (a.map Prod.fst).getLast?) (a ++ x :: b) (a ++ b)
    need x.1
  := by
  obtain ⟨ha, hdisjoint, -, -⟩ := starts_disjoint hl
  have hxsize : h.size x.1 = x.2 := hat.size x (by simp)
  have hsub : (a ++ b).Sublist (a ++ x :: b) :=
    (List.sublist_cons_self x b).append_left a
  rw [Heap.takeFit, hxsize, if_neg hrest]
  constructor
  · constructor
    · rw [List.map_append]
      apply Chain.isChain_splice ha hdisjoint hat.segment hat.chain.2
    · intro y hy
      apply hat.size y (hsub.subset hy)
  · apply hl.sublist hsub
  · intro y hy
    apply hfits y (hsub.subset hy)
  · rw [store_size, hxsize]
    apply hfits x (by simp)
  · rw [store_size, hxsize]
    apply hle
  · intro c
    rw [store_size, hxsize, Blocks.cover_append, Blocks.cover_append, Blocks.cover_cons x b,
      Blocks.cover_singleton, Prod.mk.eta]
    omega
  · intro q _
    rw [store_size]

/-- The free list at the place of one of its blocks. -/
theorem FreeList.at {x : ℕ × ℕ} (hlist : h.FreeList (a ++ x :: b)) :
  h.At a (x :: b) (some x.1)
  := by
  obtain ⟨hchain, hsize⟩ := hlist
  rw [List.map_append, Chain.IsChain, Chain.segment_append] at hchain
  obtain ⟨p, hsegment, hp, hrest⟩ := hchain
  exact ⟨hp ▸ hsegment, ⟨rfl, hrest⟩, hsize⟩

/-- The size of the node for an allocation that does not overflow. -/
theorem needFor_eq {size : ℕ} (hsize : size + arch.heapOverhead + (mmAlignment - 1) < arch.space)
    (hnode : arch.sizeofNode < arch.space) :
  needFor arch size = max (size + arch.heapOverhead) arch.sizeofNode
  := by
  have hmod : (size + arch.heapOverhead) % arch.space = size + arch.heapOverhead := by
    rw [Nat.mod_eq_of_lt]
    omega
  rw [needFor, hmod]
  simp only [mmTopAlign, mmBottomAlign, mmAlignment, Nat.sub_self, Nat.add_zero, Nat.div_one,
    Nat.mul_one]
  split
  · rw [Nat.mod_eq_of_lt hnode, max_eq_right (by omega)]
  · rw [hmod, max_eq_left (by omega)]

/-- The size of the node for an allocation is enough for a header, whatever overflows. -/
theorem le_needFor (size : ℕ) (hnode : arch.sizeofNode < arch.space) :
  arch.sizeofNode ≤ needFor arch size
  := by
  have hmod : (size + arch.heapOverhead) % arch.space < arch.space := Nat.mod_lt _ (by omega)
  rw [needFor]
  simp only [mmTopAlign, mmBottomAlign, mmAlignment, Nat.sub_self, Nat.add_zero, Nat.div_one,
    Nat.mul_one]
  rw [Nat.mod_eq_of_lt]
  · split
    · apply le_rfl
    · omega
  · split
    · apply hnode
    · apply hmod

/-- A node of the free list that is large enough is taken. -/
theorem FreeList.take {x : ℕ × ℕ} {need : ℕ} (hlist : h.FreeList (a ++ x :: b))
    (hl : Blocks.Separated (a ++ x :: b)) (hfits : ∀ y ∈ a ++ x :: b, arch.Fits y)
    (hnode : arch.sizeofNode ≤ need) (hneed : need ≤ x.2) :
  ∃ l', Taken arch h (h.takeFit arch need x.1 (a.map Prod.fst).getLast?) (a ++ x :: b) l' need x.1
  := by
  by_cases hrest : x.2 - need ≥ arch.heapMin
  · exact ⟨_, hlist.at.takePart hl hfits hnode hrest⟩
  · exact ⟨_, hlist.at.takeWhole hl hfits hneed hrest⟩

/-- The node that is taken does not grow. -/
theorem takeFit_size_le {need fit : ℕ} {fpp : Option ℕ} (hneed : need ≤ h.size fit) :
  (h.takeFit arch need fit fpp).size fit ≤ h.size fit
  := by
  rw [takeFit]
  split
  · simp only [store_size, Function.update_self]
    apply hneed
  · rw [store_size]

/-- The pointer behind the size of a node of the free list. -/
theorem toPtr_area {x : ℕ × ℕ} (hx : arch.Fits x) :
  Arch.toPtr ((x.1 + arch.heapOverhead) % arch.space) = some (x.1 + arch.heapOverhead)
  := by
  obtain ⟨hpos, hsize, hspace⟩ := hx
  have := arch.heapOverhead_le
  rw [Nat.mod_eq_of_lt (by omega), Arch.toPtr_eq (by omega)]

/-- An allocation that does not overflow returns no pointer and leaves the heap as it is, or
takes a block off the free list and returns the pointer behind the size. -/
theorem FreeList.alloc (hlist : h.FreeList l) (hl : Blocks.Separated l)
    (hfits : ∀ x ∈ l, arch.Fits x) {size : ℕ}
    (hsize : size + arch.heapOverhead + (mmAlignment - 1) < arch.space)
    (compare : Heap → Option ℕ → ℕ → MmState) :
  h.rawMmHeapAlloc arch size compare = some (h, none) ∨
    ∃ h' fit l', h.rawMmHeapAlloc arch size compare = some (h', some (fit + arch.heapOverhead)) ∧
      Taken arch h h' l l' (max (size + arch.heapOverhead) arch.sizeofNode) fit
  := by
  have hnone : ∀ f ∈ (none : Option (ℕ × Option ℕ)), Place ([] ++ l) (needFor arch size) f := by
    simp
  obtain ⟨r, hfind, hplace⟩ := hlist.start.findFit compare (needFor arch size) arch.space
    (length_le_space hl hfits) hnone
  rw [List.map_nil, List.getLast?_nil] at hfind
  rw [rawMmHeapAlloc]
  simp only [hfind, Option.map_some]
  cases r with
  | none => exact .inl rfl
  | some f =>
      right
      obtain ⟨a, x, b, hab, rfl, hle⟩ := hplace f rfl
      rw [List.nil_append] at hab
      subst hab
      have hx := hfits x (by simp)
      have hnode := hx.sizeofNode_lt
      obtain ⟨l', htaken⟩ := hlist.take hl hfits (le_needFor size hnode) hle
      simp only [toPtr_area hx]
      have hneed := needFor_eq hsize hnode
      rw [hneed] at htaken ⊢
      exact ⟨_, x.1, l', rfl, htaken⟩

end Heap

end Etaos.Mm
