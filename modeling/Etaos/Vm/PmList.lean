import Etaos.Vm.SeglistSpec

/-!
# List objects

A list object has its length and a seglist with its items, which is made when the first item comes
in.  An index that is negative counts from the end of the list.
-/

set_option linter.style.nameCheck false

namespace Etaos.Vm

open Chain

variable {α : Type}

/-- The answers to the requests for a seglist and for a segment. -/
structure Chunks where
  seglist : Bool
  segment : Option ℕ
  deriving DecidableEq, Repr

/-- The struct `PmList_s`. -/
structure PmList where
  length : ℕ
  val : Option Seglist
  deriving DecidableEq, Repr

/-- A list object with the memory of its segments, and what a function returns. -/
abbrev Listed (α : Type) := Option (Segments α × PmList × PmReturn)

namespace PmList

variable (segs : Segments α) (plist : PmList)

/-- The list object that `list_new` makes. -/
def new : PmList :=
  { length := 0, val := none }

/-- The adjustment of an index that is negative, and the check of its bounds. -/
def adjust (index : ℤ) : Option ℕ :=
  let index := if index < 0 then index + plist.length else index
  if index < 0 ∨ plist.length ≤ index then none else some index.toNat

/-- The function `list_getItem`. -/
def getItem (index : ℤ) : Option (Except PmReturn (Option α)) :=
  match plist.adjust index with
  | none => some (.error .exIndx)
  | some index => plist.val.bind fun sl => (sl.getItem segs index).map .ok

/-- The function `list_setItem`. -/
def setItem (index : ℤ) (pobj : α) : Listed α :=
  match plist.adjust index with
  | none => some (segs, plist, .exIndx)
  | some index => plist.val.bind fun sl => (sl.setItem segs pobj index).map fun segs =>
      (segs, plist, .ok)

/-- An object comes into the seglist, which is made if the list is empty.  The pointer to it is
null when there is no memory for it. -/
def insertBy (made : Bool) (put : Seglist → Option (Segments α × Seglist × PmReturn)) :
    Listed α :=
  if plist.length = 0 ∧ made = false then some (segs, { plist with val := none }, .exMem)
  else
    let val := if plist.length = 0 then some Seglist.new else plist.val
    val.bind fun sl => (put sl).map fun (segs, sl, retval) =>
      if retval = .ok then
        (segs, { length := plist.length + 1, val := some sl }, .ok)
      else (segs, { plist with val := some sl }, retval)

/-- An object is inserted into the seglist at an index. -/
def insertAt (chunks : Chunks) (index : ℕ) (pobj : α) : Listed α :=
  plist.insertBy segs chunks.seglist fun sl => sl.insertItem segs chunks.segment pobj index

/-- The function `list_append`. -/
def append (chunks : Chunks) (pobj : α) : Listed α :=
  plist.insertBy segs chunks.seglist fun sl => sl.appendItem segs chunks.segment pobj

/-- The function `list_insert`. -/
def insert (chunks : Chunks) (index : ℤ) (pobj : α) : Listed α :=
  let index := if index < 0 then index + plist.length else index
  let index := if index < 0 then 0 else index
  let index := if (plist.length : ℤ) < index then (plist.length : ℤ) else index
  plist.insertAt segs chunks index.toNat pobj

/-- An item is removed from the seglist, which is unlinked when the list gets empty. -/
def removeAt (index : ℕ) : Listed α :=
  plist.val.bind fun sl => (sl.removeItem segs index).map fun (segs, sl, _) =>
    let length := plist.length - 1
    (segs, { length, val := if length = 0 then none else some sl }, .ok)

/-- The function `list_delItem`. -/
def delItem (index : ℤ) : Listed α :=
  match plist.adjust index with
  | none => some (segs, plist, .exIndx)
  | some index => plist.removeAt segs index

/-- The loop of `list_index` with `n` items left. -/
def indexFrom (same : α → α → Bool) (pitem : α) (sl : Seglist) :
    ℕ → ℕ → Option (Except PmReturn ℕ)
  | 0, _ => some (.error .exVal)
  | n + 1, index => do
      let pobj ← ← sl.getItem segs index
      if same pobj pitem then some (.ok index) else indexFrom same pitem sl n (index + 1)

/-- The function `list_index`. -/
def index (same : α → α → Bool) (pitem : α) : Option (Except PmReturn ℕ) :=
  if plist.length = 0 then some (.error .exVal)
  else plist.val.bind fun sl => indexFrom segs same pitem sl sl.slLength 0

/-- The function `list_remove`. -/
def remove (same : α → α → Bool) (item : α) : Listed α :=
  (plist.index segs same item).bind fun r =>
    match r with
    | .error e => some (segs, plist, e)
    | .ok index => plist.removeAt segs index

/-- The function `list_clear`.  The segments are left to the collector. -/
def clear : PmList :=
  { length := 0, val := none }

/-- The item at an index is appended to a new list. -/
def copyItem (segs : Segments α) (src plist : PmList) (index : ℤ) (chunks : Chunks) : Listed α :=
  (src.getItem segs index).bind fun r =>
    match r with
    | .error e => some (segs, plist, e)
    | .ok pitem => pitem.bind fun pitem => plist.append segs chunks pitem

/-- The loops of `list_replicate`: the items at some indices are copied. -/
def copyItems (src : PmList) : List ℤ → List Chunks → Segments α → PmList → Listed α
  | [], _, segs, plist => some (segs, plist, .ok)
  | _ :: _, [], _, _ => none
  | j :: js, c :: chunks, segs, plist =>
      (copyItem segs src plist j c).bind fun (segs, plist, retval) =>
        if retval = .ok then copyItems src js chunks segs plist else some (segs, plist, retval)

/-- The function `list_replicate`, with the answer to the request for the new list. -/
def replicate (made : Bool) (n : ℤ) (chunks : List Chunks) : Listed α :=
  if made then
    let indices := (List.replicate n.toNat ((List.range plist.length).map Int.ofNat)).flatten
    copyItems plist indices chunks segs new
  else some (segs, new, .exMem)

/-- The function `list_copy`. -/
def copy (made : Bool) (chunks : List Chunks) : Listed α :=
  plist.replicate segs made 1 chunks

/-- A bound of a slice: it counts from the end when it is negative, and is cut to the list. -/
def bound (i : ℤ) : ℤ :=
  if i < 0 then (if i + plist.length < 0 then 0 else i + plist.length)
  else if (plist.length : ℤ) < i then plist.length
  else i

/-- The loop of `list_slice`.  Its index is an `int16_t`. -/
def sliceFrom (src : PmList) (stop stride : ℤ) : List Chunks → ℤ → Segments α → PmList → Listed α
  | chunks, i, segs, plist =>
      if i < stop then
        match chunks with
        | [] => none
        | c :: chunks =>
            (copyItem segs src plist i c).bind fun (segs, plist, retval) =>
              if retval = .ok then
                sliceFrom src stop stride chunks ((i + stride).bmod (2 ^ 16)) segs plist
              else some (segs, plist, retval)
      else some (segs, plist, .ok)

/-- The function `list_slice`, with the answer to the request for the new list.  No end is the end
of the list. -/
def slice (made : Bool) (start : ℤ) (stop : Option ℤ) (stride : ℤ) (chunks : List Chunks) :
    Listed α :=
  if made then
    let stop := match stop with
      | none => (plist.length : ℤ)
      | some stop => plist.bound stop
    sliceFrom plist stop stride chunks ((plist.bound start).bmod (2 ^ 16)) segs new
  else some (segs, new, .exMem)

end PmList

end Etaos.Vm
