import Etaos.Vm.Obj

/-!
# The heap of the virtual machine

The heap is an interval of the memory that is cut into chunks.  A chunk begins with a descriptor;
behind the descriptor of a chunk that is free are the links of the list of the free chunks, which
is sorted by their sizes.  The chunk that fits best is taken from the list, and what is more than
was asked for goes back as a chunk of its own.

A walk along the list of the free chunks takes fuel, and there is no result when it runs out.
-/

set_option linter.style.nameCheck false

namespace Etaos.Vm

/-- The values of `PmReturn_t`. -/
inductive PmReturn
  | ok
  | no
  | exIndx
  | exKey
  | exMem
  | exSys
  | exType
  | exVal
  deriving DecidableEq, Repr

/-- The constant `HEAP_MAX_LIVE_CHUNK_SIZE`. -/
def HEAP_MAX_LIVE_CHUNK_SIZE : ℕ := 2044

/-- The constant `HEAP_MAX_FREE_CHUNK_SIZE`. -/
def HEAP_MAX_FREE_CHUNK_SIZE : ℕ := 65532

/-- The constant `HEAP_MIN_CHUNK_SIZE`: the six bytes of `PmHeapDesc_t`, rounded up. -/
def HEAP_MIN_CHUNK_SIZE : ℕ := 8

/-- The constant `HEAP_NUM_TEMP_ROOTS`. -/
def HEAP_NUM_TEMP_ROOTS : ℕ := 24

namespace Memory

variable (m : Memory) (p : ℕ)

/-- The descriptor of a chunk. -/
def desc : Desc := m.word p

/-- The memory with the descriptor of a chunk set. -/
def setDesc (od : Desc) : Memory := m.setWord p od

/-- The field `prev` of a chunk that is free. -/
def prev : Option ℕ := m.ptr (p + 2)

/-- An assignment to the field `prev`. -/
def setPrev (q : Option ℕ) : Memory := m.setPtr (p + 2) q

/-- The field `next` of a chunk that is free. -/
def next : Option ℕ := m.ptr (p + 4)

/-- An assignment to the field `next`. -/
def setNext (q : Option ℕ) : Memory := m.setPtr (p + 4) q

end Memory

/-- The struct `PmHeap_t`, and the memory. -/
structure Heap where
  mem : Memory
  base : ℕ
  size : ℕ
  pfreelist : Option ℕ
  avail : ℕ
  gcval : Bool
  autoGc : Bool
  tempRoots : ℕ → Option ℕ
  tempRootIndex : ℕ

namespace Heap

/-- The macro `CHUNK_GET_SIZE`, of the chunk at an address. -/
def chunkSize (h : Heap) (p : ℕ) : ℕ := (h.mem.desc p).chunkSize

/-- The macro `PM_OBJ_GET_SIZE`, of the object at an address. -/
def objSize (h : Heap) (p : ℕ) : ℕ := (h.mem.desc p).objSize

/-- The macro `OBJ_GET_FREE`, of the chunk at an address. -/
def isFree (h : Heap) (p : ℕ) : Bool := (h.mem.desc p).free

/-- The macro `OBJ_GET_GCVAL`, of the object at an address. -/
def mark (h : Heap) (p : ℕ) : Bool := (h.mem.desc p).gcval

/-- A macro that sets a part of the descriptor at an address. -/
def modifyDesc (p : ℕ) (f : Desc → Desc) (h : Heap) : Heap :=
  { h with mem := h.mem.setDesc p (f (h.mem.desc p)) }

/-! ### The list of the free chunks -/

/-- The function `heap_unlinkFromFreelist`. -/
def unlinkFromFreelist (pchunk : ℕ) (h : Heap) : Heap :=
  let h := { h with avail := (h.avail + 2 ^ 32 - h.chunkSize pchunk) % 2 ^ 32 }
  let h :=
    match h.mem.next pchunk with
    | some q => { h with mem := h.mem.setPrev q (h.mem.prev pchunk) }
    | none => h
  match h.mem.prev pchunk with
  | some q => { h with mem := h.mem.setNext q (h.mem.next pchunk) }
  | none => { h with pfreelist := h.mem.next pchunk }

/-- The walk of `heap_linkToFreelist` to the first chunk that is not smaller, or to the last
one. -/
def scan (h : Heap) (size : ℕ) : ℕ → ℕ → Option ℕ
  | 0, _ => none
  | fuel + 1, pscan =>
      if h.chunkSize pscan < size then
        match h.mem.next pscan with
        | some q => scan h size fuel q
        | none => some pscan
      else some pscan

/-- The chunk `pchunk` is linked in at `pscan`: behind it when it is smaller, else before it. -/
def linkAt (pchunk pscan : ℕ) (h : Heap) : Heap :=
  if h.chunkSize pscan < h.chunkSize pchunk then
    let mem := h.mem.setNext pchunk (h.mem.next pscan)
    let mem := mem.setNext pscan (some pchunk)
    { h with mem := mem.setPrev pchunk (some pscan) }
  else
    let mem := h.mem.setNext pchunk (some pscan)
    let mem := mem.setPrev pchunk (mem.prev pscan)
    match mem.prev pscan with
    | none => { h with pfreelist := some pchunk, mem := mem.setPrev pscan (some pchunk) }
    | some q => { h with mem := (mem.setNext q (some pchunk)).setPrev pscan (some pchunk) }

/-- The function `heap_linkToFreelist`. -/
def linkToFreelist (pchunk : ℕ) (h : Heap) : Option Heap :=
  let h := { h with avail := (h.avail + h.chunkSize pchunk) % 2 ^ 32 }
  match h.pfreelist with
  | none =>
      some { h with
        pfreelist := some pchunk
        mem := (h.mem.setNext pchunk none).setPrev pchunk none }
  | some first =>
      (h.scan (h.chunkSize pchunk) h.size first).map fun pscan => h.linkAt pchunk pscan

/-! ### Initialisation -/

/-- A chunk of the given size is made at an address and linked to the list. -/
def makeFree (pchunk size : ℕ) (h : Heap) : Option Heap :=
  ((h.modifyDesc pchunk fun od => od.setFree true).modifyDesc pchunk fun od =>
    od.setChunkSize size).linkToFreelist pchunk

/-- The loop of `heap_init` over the chunks of the maximal size: the heap, the address and the
number of bytes behind them. -/
def initMax : ℕ → ℕ → ℕ → Heap → Option (Heap × ℕ × ℕ)
  | 0, pchunk, hs, h => some (h, pchunk, hs)
  | n + 1, pchunk, hs, h =>
      (h.makeFree pchunk HEAP_MAX_FREE_CHUNK_SIZE).bind
        (initMax n (pchunk + HEAP_MAX_FREE_CHUNK_SIZE) (hs - HEAP_MAX_FREE_CHUNK_SIZE))

/-- The function `heap_init`, on a memory.  The base is not rounded up: `1 & ~1` is zero. -/
def init (mem : Memory) (base size : ℕ) : Option Heap := do
  let adjbase := base + (2 - 1 &&& 2 ^ 16 - 1 - (2 - 1))
  let h : Heap :=
    { mem, base := adjbase, size := size - (adjbase - base), pfreelist := none, avail := 0,
      gcval := false, autoGc := true, tempRoots := fun _ => none, tempRootIndex := 0 }
  let (h, pchunk, hs) ←
    if h.size % HEAP_MAX_FREE_CHUNK_SIZE < HEAP_MIN_CHUNK_SIZE then
      (h.makeFree h.base HEAP_MIN_CHUNK_SIZE).map fun h =>
        (h, h.base + HEAP_MIN_CHUNK_SIZE, (h.size + 2 ^ 32 - HEAP_MIN_CHUNK_SIZE) % 2 ^ 32)
    else some (h, h.base, h.size)
  let (h, pchunk, hs) ← initMax (hs / HEAP_MAX_FREE_CHUNK_SIZE) pchunk hs h
  if HEAP_MIN_CHUNK_SIZE ≤ hs then h.makeFree pchunk (hs / 4 * 4) else some h

/-! ### Allocation and release -/

/-- The walk of `heap_getChunkImpl` to the first chunk that is not smaller. -/
def findFit (h : Heap) (size : ℕ) : ℕ → Option ℕ → Option (Option ℕ)
  | 0, _ => none
  | _ + 1, none => some none
  | fuel + 1, some pchunk =>
      if h.chunkSize pchunk < size then findFit h size fuel (h.mem.next pchunk)
      else some (some pchunk)

/-- A chunk that was unlinked is cut to the size asked for when what remains is large enough
for a chunk. -/
def carve (pchunk size : ℕ) (h : Heap) : Option Heap :=
  if HEAP_MIN_CHUNK_SIZE ≤ h.chunkSize pchunk - size then
    (h.makeFree (pchunk + size) (h.chunkSize pchunk - size)).map fun h =>
      h.modifyDesc pchunk fun od => ((od.setObjSize 0).setFree false).setObjSize size
  else
    some (h.modifyDesc pchunk fun od => (od.setType 0).setFree false)

/-- The function `heap_getChunkImpl`. -/
def getChunkImpl (size : ℕ) (h : Heap) : Option (Heap × Except PmReturn ℕ) := do
  match ← h.findFit size (h.size + 1) h.pfreelist with
  | none => some (h, .error .exMem)
  | some pchunk =>
      let h ← (h.unlinkFromFreelist pchunk).carve pchunk size
      some (h.modifyDesc pchunk fun od => od.setGcval h.gcval, .ok pchunk)

/-- The size of the chunk for a request: at least the minimum, and a multiple of four. -/
def adjustedSize (requestedsize : ℕ) : ℕ :=
  (max requestedsize HEAP_MIN_CHUNK_SIZE + 3) / 4 * 4

/-- The function `heap_freeChunk`. -/
def freeChunk (p : ℕ) (h : Heap) : Option Heap :=
  (h.modifyDesc p fun od => (od.setFree true).setType 0).linkToFreelist p

/-! ### Temporary roots -/

/-- The function `heap_gcSetAuto`. -/
def gcSetAuto (autoGc : Bool) (h : Heap) : Heap :=
  { h with autoGc }

/-- The function `heap_gcPushTempRoot`.  The index is not written when the stack is full. -/
def gcPushTempRoot (pobj : Option ℕ) (objid : ℕ) (h : Heap) : Heap × ℕ :=
  if h.tempRootIndex < HEAP_NUM_TEMP_ROOTS then
    ({ h with
        tempRoots := Function.update h.tempRoots h.tempRootIndex pobj
        tempRootIndex := h.tempRootIndex + 1 }, h.tempRootIndex)
  else (h, objid)

/-- The function `heap_gcPopTempRoot`. -/
def gcPopTempRoot (objid : ℕ) (h : Heap) : Heap :=
  { h with tempRootIndex := objid }

end Heap

end Etaos.Vm
