import Etaos.Library.Chain
import Etaos.Library.Run
import Etaos.Sched.Queue

/-!
# The heap

The free list allocator of `heap.c`.  Every block of memory, free or handed out, begins with
a node header that holds its size; the header of a free block also holds the pointer to the
next free block.  A pointer to a node is `none` when it is `NULL`, and otherwise the address of
the node.  Addresses and sizes wrap around at the end of the address space.

A walk along the free list goes through a pointer `npp` to the pointer to the next node,
which is modelled by the node that it points into, or by `none` when it points to the root.
-/

namespace Etaos.Mm

/-- The sizes of an architecture and a build. -/
structure Arch where
  /-- The number of addresses. -/
  space : ℕ
  /-- The size of `size_t`. -/
  sizeofSize : ℕ
  /-- The size of a pointer. -/
  sizeofPtr : ℕ
  /-- The option `CONFIG_MM_TRACE_OWNER`. -/
  traceOwner : Bool
  sizeofSize_pos : 0 < sizeofSize
  sizeofPtr_pos : 0 < sizeofPtr

namespace Arch

/-- The size of a node header. -/
def sizeofNode (arch : Arch) : ℕ :=
  arch.sizeofSize + (if arch.traceOwner then arch.sizeofPtr else 0) + arch.sizeofPtr

/-- The constant `HEAP_OVERHEAD`, the place of `next` in the header. -/
def heapOverhead (arch : Arch) : ℕ :=
  arch.sizeofNode - arch.sizeofPtr

/-- The constant `HEAP_MIN`, without `CONFIG_MM_GUARD`. -/
def heapMin (arch : Arch) : ℕ :=
  arch.sizeofNode

/-- The AVR, whose addresses, sizes and pointers have 16 bits. -/
def avr : Arch where
  space := 2 ^ 16
  sizeofSize := 2
  sizeofPtr := 2
  traceOwner := false
  sizeofSize_pos := by decide
  sizeofPtr_pos := by decide

/-- The conversion of an integer to a pointer. -/
def toPtr (a : ℕ) : Option ℕ :=
  if a = 0 then none else some a

end Arch

/-- The constant `MM_ALIGNMENT`. -/
def mmAlignment : ℕ := 1

/-- The macro `MM_BOTTOM_ALIGN`. -/
def mmBottomAlign (s : ℕ) : ℕ :=
  s / mmAlignment * mmAlignment

/-- The macro `MM_TOP_ALIGN`. -/
def mmTopAlign (arch : Arch) (s : ℕ) : ℕ :=
  mmBottomAlign ((s + (mmAlignment - 1)) % arch.space)

/-- The allocation policies. -/
inductive Allocator where
  | bestFit
  | firstFit
  | worstFit
  deriving DecidableEq

/-- The answers of a comparator. -/
inductive MmState where
  | reject
  | accept
  | prefer
  deriving DecidableEq

/-- The free list: the headers in memory, and the root. -/
structure Heap where
  /-- The field `size` of the header at an address. -/
  size : ℕ → ℕ
  /-- The field `next` of the header at an address. -/
  next : ℕ → Option ℕ
  root : Option ℕ

namespace Heap

/-- The assignment `*npp = v`. -/
def store (h : Heap) (npp v : Option ℕ) : Heap :=
  let (root, next) := Chain.splice h.next h.root npp v
  { h with root, next }

/-- The function `mm_best_fit_compare`. -/
def mmBestFitCompare (h : Heap) (prev : Option ℕ) (current : ℕ) : MmState :=
  match prev with
  | none => .prefer
  | some prev => if h.size prev > h.size current then .prefer else .reject

/-- The function `mm_first_fit_compare`. -/
def mmFirstFitCompare (_h : Heap) (_prev : Option ℕ) (_current : ℕ) : MmState :=
  .accept

/-- The function `mm_worst_fit_compare`. -/
def mmWorstFitCompare (h : Heap) (prev : Option ℕ) (current : ℕ) : MmState :=
  match prev with
  | none => .prefer
  | some prev => if h.size current > h.size prev then .prefer else .reject

/-- The comparator of a policy. -/
def compare : Allocator → Heap → Option ℕ → ℕ → MmState
  | .bestFit => mmBestFitCompare
  | .firstFit => mmFirstFitCompare
  | .worstFit => mmWorstFitCompare

/-! ### Allocation -/

/-- The walk of `raw_mm_heap_alloc` for a node of the size `need`: the node that fits, with
the pointer to it. -/
def findFit (h : Heap) (compare : Heap → Option ℕ → ℕ → MmState) (need : ℕ) :
    ℕ → Option ℕ → Option ℕ → Option (ℕ × Option ℕ) → Option (Option (ℕ × Option ℕ))
  | _, _, none, fit => some fit
  | 0, _, some _, _ => none
  | n + 1, npp, some node, fit =>
      if h.size node ≥ need then
        match compare h (fit.map Prod.fst) node with
        | .reject => findFit h compare need n (some node) (h.next node) fit
        | .accept => some (some (node, npp))
        | .prefer =>
            if h.size node = need then
              some (some (node, npp))
            else
              findFit h compare need n (some node) (h.next node) (some (node, npp))
      else
        findFit h compare need n (some node) (h.next node) fit

/-- The size of the node for an allocation. -/
def needFor (arch : Arch) (size : ℕ) : ℕ :=
  let need := (size + arch.heapOverhead) % arch.space
  mmTopAlign arch (if need < arch.sizeofNode then arch.sizeofNode else need)

/-- The node that fits is cut in two when the rest can hold a header, and leaves the free
list. -/
def takeFit (arch : Arch) (h : Heap) (need fit : ℕ) (fpp : Option ℕ) : Heap :=
  if h.size fit - need ≥ arch.heapMin then
    let node := (fit + need) % arch.space
    let h := { h with size := Function.update h.size node (h.size fit - need) }
    let h := { h with next := Function.update h.next node (h.next fit) }
    let h := { h with size := Function.update h.size fit need }
    h.store fpp (Arch.toPtr node)
  else
    h.store fpp (h.next fit)

/-- The function `raw_mm_heap_alloc`, with the pointer it returns; it is `none` when it walks
around a cycle. -/
def rawMmHeapAlloc (arch : Arch) (h : Heap) (size : ℕ)
    (compare : Heap → Option ℕ → ℕ → MmState) : Option (Heap × Option ℕ) :=
  let need := needFor arch size
  (findFit h compare need arch.space none h.root none).map fun fit =>
    match fit with
    | none => (h, none)
    | some (fit, fpp) =>
        (takeFit arch h need fit fpp, Arch.toPtr ((fit + arch.heapOverhead) % arch.space))

/-! ### Release -/

/-- The node `node` in front of the node released grows by it, and by the next node when
that follows directly. -/
def mergeLeft (arch : Arch) (h : Heap) (node fnode : ℕ) : Option Heap :=
  let size := Function.update h.size node ((h.size node + h.size fnode) % arch.space)
  let h := { h with size }
  if (node + h.size node) % arch.space = (h.next node).getD 0 then
    (h.next node).map fun next =>
      let size := Function.update h.size node ((h.size node + h.size next) % arch.space)
      let h := { h with size }
      { h with next := Function.update h.next node (h.next next) }
  else
    some h

/-- The node released goes before `node`, and is merged with it when that follows
directly. -/
def linkBefore (arch : Arch) (h : Heap) (npp : Option ℕ) (node fnode : ℕ) : Heap :=
  let h := h.store npp (Arch.toPtr fnode)
  if (fnode + h.size fnode) % arch.space = node then
    let size := Function.update h.size fnode ((h.size fnode + h.size node) % arch.space)
    let h := { h with size }
    { h with next := Function.update h.next fnode (h.next node) }
  else
    { h with next := Function.update h.next fnode (Arch.toPtr node) }

/-- The walk of `raw_mm_heap_free` with the node `fnode`, with its error code. -/
def freeNode (arch : Arch) (h : Heap) (fnode : ℕ) :
    ℕ → Option ℕ → Option ℕ → Option (Heap × Int)
  | _, npp, none =>
      let h := { h with next := Function.update h.next fnode none }
      some (h.store npp (Arch.toPtr fnode), -EOK)
  | 0, _, some _ => none
  | n + 1, npp, some node =>
      if (node + h.size node) % arch.space = fnode then
        (h.mergeLeft arch node fnode).map fun h => (h, -EOK)
      else if node > fnode then
        some (h.linkBefore arch npp node fnode, -EOK)
      else if (node + h.size node) % arch.space > fnode then
        some (h, -EINVAL)
      else
        freeNode arch h fnode n (some node) (h.next node)

/-- The function `mm_region_to_node`. -/
def mmRegionToNode (arch : Arch) (ptr : ℕ) : ℕ :=
  (ptr + arch.space - arch.heapOverhead) % arch.space

/-- The function `raw_mm_heap_free`, with its error code. -/
def rawMmHeapFree (arch : Arch) (h : Heap) (block : Option ℕ) : Option (Heap × Int) :=
  match block with
  | none => some (h, -EINVAL)
  | some block => h.freeNode arch (mmRegionToNode arch block) arch.space none h.root

/-- The function `raw_mm_heap_add_block`. -/
def rawMmHeapAddBlock (arch : Arch) (h : Heap) (addr size : ℕ) : Option Heap :=
  let node := mmTopAlign arch addr
  let h := { h with size := Function.update h.size node (mmBottomAlign (size - (node - addr))) }
  let area := (node + arch.heapOverhead) % arch.space
  (h.rawMmHeapFree arch (Arch.toPtr area)).map Prod.fst

end Heap

/-! ### Runs -/

/-- The heap with what has been added to it and handed out. -/
structure HeapSystem where
  heap : Heap
  /-- The regions that were added. -/
  added : List (ℕ × ℕ)
  /-- The pointers that an allocation returned and that were not yet freed. -/
  live : List ℕ

/-- What happens to the heap. -/
inductive HeapOp where
  | addBlock (addr size : ℕ)
  | alloc (policy : Allocator) (size : ℕ)
  | free (ptr : ℕ)
  /-- The owner of the block at `ptr` writes to it behind the size, which changes what a
  header at the address `a` would hold. -/
  | write (ptr a size : ℕ) (next : Option ℕ)

namespace HeapSystem

/-- The bytes of a region that are added to the heap. -/
def aligned (arch : Arch) (addr size : ℕ) : ℕ × ℕ :=
  (mmTopAlign arch addr, mmBottomAlign (size - (mmTopAlign arch addr - addr)))

/-- The block of a pointer that was handed out. -/
def blockOf (arch : Arch) (s : HeapSystem) (ptr : ℕ) : ℕ × ℕ :=
  (Heap.mmRegionToNode arch ptr, s.heap.size (Heap.mmRegionToNode arch ptr))

/-- A step of the heap. -/
def step (arch : Arch) (s : HeapSystem) : HeapOp → Option HeapSystem
  | .addBlock addr size =>
      (s.heap.rawMmHeapAddBlock arch addr size).map fun heap =>
        { s with heap, added := aligned arch addr size :: s.added }
  | .alloc policy size =>
      (s.heap.rawMmHeapAlloc arch size (Heap.compare policy)).map fun (heap, ptr) =>
        { s with heap, live := ptr.toList ++ s.live }
  | .free ptr =>
      (s.heap.rawMmHeapFree arch (some ptr)).map fun (heap, _) =>
        { s with heap, live := s.live.erase ptr }
  | .write ptr a size next =>
      let node := Heap.mmRegionToNode arch ptr
      some { s with heap := { s.heap with
        size := Function.update s.heap.size a (if a = node then s.heap.size a else size)
        next := Function.update s.heap.next a next } }

/-- The heap without memory, whatever the memory holds. -/
def empty (size : ℕ → ℕ) (next : ℕ → Option ℕ) : HeapSystem where
  heap := { size, next, root := none }
  added := []
  live := []

end HeapSystem

end Etaos.Mm
