import Etaos.Vm.Mark

/-!
# The sweep phase of the collector

The strings without the current mark are unlinked from the cache of the strings.  Then a walk
over the heap skips the objects with the mark, and makes one free chunk of those between them
that are free or have no mark.  The collector runs when an allocation fails.

The loops take fuel, and there is no result when it runs out.
-/

set_option linter.style.nameCheck false

namespace Etaos.Vm

namespace Memory

/-! ### The cache of the strings

The field `next` of a string is at the same place as the link of a free chunk. -/

section

variable (m : Memory) (gcval : Bool)

/-- The loop of `heap_purgeStringCache` over the strings at the head of the cache. -/
def skipStrings : ℕ → Option ℕ → Option (Option ℕ)
  | 0, _ => none
  | _ + 1, none => some none
  | fuel + 1, some pstr =>
      if (m.desc pstr).gcval ≠ gcval then skipStrings fuel (m.next pstr) else some (some pstr)

end

/-- The loop of `heap_purgeStringCache` over the strings without the mark behind `pstr`. -/
def unlinkStrings (gcval : Bool) (pstr : ℕ) : ℕ → Memory → Option Memory
  | 0, _ => none
  | fuel + 1, m =>
      match m.next pstr with
      | none => some m
      | some q =>
          if (m.desc q).gcval ≠ gcval then unlinkStrings gcval pstr fuel (m.setNext pstr (m.next q))
          else some m

/-- The loop of `heap_purgeStringCache` over the strings with the mark. -/
def purgeStrings (gcval : Bool) : ℕ → ℕ → Memory → Option Memory
  | 0, _, _ => none
  | fuel + 1, pstr, m =>
      match m.next pstr with
      | none => some m
      | some _ => do
          let m ← m.unlinkStrings gcval pstr (fuel + 1)
          purgeStrings gcval fuel ((m.next pstr).getD pstr) m

/-- The function `heap_purgeStringCache`: the cache and the memory. -/
def purgeStringCache (gcval : Bool) (fuel : ℕ) (pstrcache : Option ℕ) (m : Memory) :
    Option (Option ℕ × Memory) := do
  match ← m.skipStrings gcval fuel pstrcache with
  | none => some (none, m)
  | some pstr => (m.purgeStrings gcval fuel pstr).map fun m => (some pstr, m)

end Memory

namespace Heap

/-! ### The sweep -/

/-- The address behind the heap. -/
def limit (h : Heap) : ℕ := h.base + h.size

/-- The loop of `heap_gcSweep` that skips the objects with the mark. -/
def skipMarked (h : Heap) : ℕ → ℕ → Option ℕ
  | 0, _ => none
  | fuel + 1, pobj =>
      if h.isFree pobj = false ∧ h.mark pobj = h.gcval ∧ pobj < h.limit then
        skipMarked h fuel (pobj + h.objSize pobj)
      else some pobj

/-- The loop of `heap_gcSweep` that coalesces: the heap, the address behind the chunks and the
total of their sizes. -/
def coalesce : ℕ → ℕ → ℕ → Heap → Option (Heap × ℕ × ℕ)
  | 0, _, _, _ => none
  | fuel + 1, pchunk, total, h =>
      if h.isFree pchunk = true ∨ h.mark pchunk ≠ h.gcval then
        let size := if h.isFree pchunk then h.chunkSize pchunk else h.objSize pchunk
        if HEAP_MAX_FREE_CHUNK_SIZE < (total + size) % 2 ^ 16 then some (h, pchunk, total)
        else
          let h :=
            if h.isFree pchunk then h.unlinkFromFreelist pchunk
            else h.modifyDesc pchunk fun od => (od.setType 0).setFree true
          let total := (total + h.chunkSize pchunk) % 2 ^ 16
          let pchunk := pchunk + h.chunkSize pchunk
          if h.limit ≤ pchunk then some (h, pchunk, total)
          else coalesce fuel pchunk total h
      else some (h, pchunk, total)

/-- The walk of `heap_gcSweep` over the heap from an address on. -/
def sweepFrom : ℕ → ℕ → Heap → Option Heap
  | 0, _, _ => none
  | fuel + 1, pobj, h =>
      if pobj < h.limit then do
        let pobj ← h.skipMarked fuel pobj
        if h.limit ≤ pobj then some h
        else
          let (h, pchunk, total) ← h.coalesce fuel pobj 0
          let h ← h.makeFree pobj total
          sweepFrom fuel pchunk h
      else some h

/-- The function `heap_gcSweep`: the heap and the cache of the strings. -/
def gcSweep (pstrcache : Option ℕ) (h : Heap) : Option (Heap × Option ℕ) := do
  let (pstrcache, mem) ← h.mem.purgeStringCache h.gcval (h.size + 2) pstrcache
  let h ← sweepFrom (h.size + 2) h.base { h with mem }
  some (h, pstrcache)

end Heap

/-- The heap, the globals and the cache of the strings. -/
structure State where
  heap : Heap
  global : Global
  pstrcache : Option ℕ

namespace State

/-- The function `heap_gcRun`. -/
def gcRun (vm : State) : Option (State × PmReturn) := do
  let (heap, retval) ← vm.heap.gcMarkRoots vm.global (vm.heap.size + 2)
  if retval = .ok then
    let (heap, pstrcache) ← heap.gcSweep vm.pstrcache
    some ({ vm with heap, pstrcache }, .ok)
  else some ({ vm with heap }, retval)

/-- The function `heap_getChunk`.  The field `nf_active` of the native frame is behind its three
pointers. -/
def getChunk (requestedsize : ℕ) (vm : State) : Option (State × Except PmReturn ℕ) := do
  if HEAP_MAX_LIVE_CHUNK_SIZE < requestedsize then some (vm, .error .exMem)
  else
    let size := Heap.adjustedSize requestedsize
    match ← vm.heap.getChunkImpl size with
    | (heap, .error .exMem) =>
        let vm := { vm with heap }
        if vm.heap.autoGc ∧ vm.heap.mem (vm.global.nativeframe + 8) = 0 then
          let (vm, retval) ← vm.gcRun
          if retval = .ok then
            (vm.heap.getChunkImpl size).map fun (heap, r) => ({ vm with heap }, r)
          else some (vm, .error retval)
        else some (vm, .error .exMem)
    | (heap, r) => some ({ vm with heap }, r)

end State

end Etaos.Vm
