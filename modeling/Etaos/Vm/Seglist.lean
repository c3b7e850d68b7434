import Etaos.Library.Unrolled
import Etaos.Vm.Mark

/-!
# Segmented lists

The items of a list or of the keys or the values of a dict are kept in segments of eight slots.
The segments are chained, and a slot that is not used is null.

A function that requests memory takes the answer as an argument: the address that `heap_getChunk`
gives, or none when it returns `PM_RET_EX_MEM`.  A function that compares objects takes the answers
of `obj_compare`, which are true for `C_SAME`.  There is no result when a null pointer is followed,
or when the fuel of a loop runs out.

The field `sl_length` and the indices are an `int16_t`.  They do not wrap around: the heap has less
than 2 ^ 16 bytes and a segment takes 20 of them, so that there are at most 26208 slots.
-/

set_option linter.style.nameCheck false

namespace Etaos.Vm

variable {α : Type}

/-- The struct `Segment_s`. -/
structure Segment (α : Type) where
  sVal : ℕ → Option α
  next : Option ℕ

/-- The segments at their addresses. -/
abbrev Segments (α : Type) := ℕ → Segment α

/-- The struct `Seglist_s`. -/
structure Seglist where
  slLength : ℕ
  slRootseg : Option ℕ
  slLastseg : Option ℕ
  deriving DecidableEq, Repr

namespace Segments

/-- An assignment to a slot of a segment. -/
def setVal (segs : Segments α) (pseg k : ℕ) (v : Option α) : Segments α :=
  Function.update segs pseg
    { segs pseg with sVal := Function.update (segs pseg).sVal k v }

/-- An assignment to the link of a segment. -/
def setNext (segs : Segments α) (pseg : ℕ) (q : Option ℕ) : Segments α :=
  Function.update segs pseg { segs pseg with next := q }

/-- The links of the segments. -/
def link (segs : Segments α) (pseg : ℕ) : Option ℕ := (segs pseg).next

/-- The slots of the segments. -/
def val (segs : Segments α) (pseg : ℕ) : ℕ → Option α := (segs pseg).sVal

/-- The loops that walk out to a segment. -/
def walk (segs : Segments α) (n : ℕ) (pseg : Option ℕ) : Option ℕ :=
  Unrolled.walk segs.link n pseg

/-- The loop of `seglist_insertItem`: an object is put into a slot, and those behind it move up. -/
def ripple : ℕ → ℕ → ℕ → Option α → Segments α → Option (Segments α)
  | _, _, _, none, segs => some segs
  | 0, _, _, some _, _ => none
  | fuel + 1, pseg, indx, some pobj1, segs =>
      let pobj2 := segs.val pseg indx
      let segs := segs.setVal pseg indx (some pobj1)
      let indx := indx + 1
      if SEGLIST_OBJS_PER_SEG ≤ indx ∧ pobj2 ≠ none then
        (segs.link pseg).bind fun pseg => ripple fuel pseg 0 pobj2 segs
      else ripple fuel pseg indx pobj2 segs

/-- The loop of `seglist_removeItem` with `n` rounds left: the slots behind `i` move down.  The
result has the segment that the loop ends in. -/
def shift : ℕ → ℕ → ℕ → Segments α → Option (Segments α × ℕ)
  | 0, _, pseg, segs => some (segs, pseg)
  | n + 1, i, pseg, segs =>
      let k := i % SEGLIST_OBJS_PER_SEG
      if k + 1 = SEGLIST_OBJS_PER_SEG then
        (segs.link pseg).bind fun q => shift n (i + 1) q (segs.setVal pseg k (segs.val q 0))
      else shift n (i + 1) pseg (segs.setVal pseg k (segs.val pseg (k + 1)))

/-- The loops of `seglist_findEqual`: the index of the object, if there is one. -/
def find (segs : Segments α) (same : α → α → Bool) (pobj : α) (slLength : ℕ) :
    ℕ → Option ℕ → ℕ → ℕ → Option (Option ℕ)
  | 0, _, _, _ => none
  | _ + 1, none, _, _ => some none
  | fuel + 1, some pseg, segindex, index =>
      if segindex < SEGLIST_OBJS_PER_SEG then
        if slLength ≤ index then some none
        else (segs.val pseg segindex).bind fun sVal =>
          if same pobj sVal then some (some index)
          else find segs same pobj slLength fuel (some pseg) (segindex + 1) (index + 1)
      else find segs same pobj slLength fuel (segs.link pseg) 0 index

/-- The loop of `seglist_clear`: the segments that are freed. -/
def clear (segs : Segments α) : ℕ → Option ℕ → Option (List ℕ)
  | 0, _ => none
  | _ + 1, none => some []
  | fuel + 1, some pseg => (segs.clear fuel (segs.link pseg)).map (pseg :: ·)

end Segments

namespace Seglist

variable (segs : Segments α)

/-- The seglist that `seglist_new` makes. -/
def new : Seglist :=
  { slLength := 0, slRootseg := none, slLastseg := none }

/-- The function `seglist_clear`: the seglist and the segments that are freed. -/
def clear (sl : Seglist) : Option (Seglist × List ℕ) :=
  (segs.clear (sl.slLength + 1) sl.slRootseg).map fun freed => (new, freed)

/-- The function `seglist_findEqual`: the index of an object that is equal, from an index on.  The
number of the segment to start with is an `int8_t`. -/
def findEqual (same : α → α → Bool) (sl : Seglist) (pobj : α) (index : ℕ) : Option (Option ℕ) :=
  let i := (BitVec.ofNat 8 (index / SEGLIST_OBJS_PER_SEG)).toInt.toNat
  segs.find same pobj sl.slLength (2 * sl.slLength + 3) (segs.walk i sl.slRootseg)
    (index % SEGLIST_OBJS_PER_SEG) index

/-- The function `seglist_getItem`. -/
def getItem (sl : Seglist) (index : ℕ) : Option (Option α) :=
  (segs.walk (index / SEGLIST_OBJS_PER_SEG) sl.slRootseg).map fun pseg =>
    segs.val pseg (index % SEGLIST_OBJS_PER_SEG)

/-- The function `seglist_setItem`. -/
def setItem (sl : Seglist) (pobj : α) (index : ℕ) : Option (Segments α) :=
  (segs.walk (index / SEGLIST_OBJS_PER_SEG) sl.slRootseg).map fun pseg =>
    segs.setVal pseg (index % SEGLIST_OBJS_PER_SEG) (some pobj)

/-- A segment is added when all slots are used. -/
def grow (chunk : Option ℕ) (sl : Seglist) :
    Option (Except PmReturn (Segments α × Seglist)) :=
  if sl.slLength % SEGLIST_OBJS_PER_SEG = 0 then
    match chunk with
    | none => some (.error .exMem)
    | some pseg =>
        let segs : Segments α := Function.update segs pseg { sVal := fun _ => none, next := none }
        match sl.slRootseg with
        | none => some (.ok (segs, { sl with slRootseg := some pseg, slLastseg := some pseg }))
        | some _ => sl.slLastseg.map fun q =>
            .ok (segs.setNext q (some pseg), { sl with slLastseg := some pseg })
  else some (.ok (segs, sl))

/-- The function `seglist_insertItem`. -/
def insertItem (chunk : Option ℕ) (sl : Seglist) (pobj : α) (index : ℕ) :
    Option (Segments α × Seglist × PmReturn) := do
  match ← sl.grow segs chunk with
  | .error e => some (segs, sl, e)
  | .ok (segs, sl) =>
      let pseg ← segs.walk (index / SEGLIST_OBJS_PER_SEG) sl.slRootseg
      let segs ← segs.ripple (sl.slLength + 1) pseg (index % SEGLIST_OBJS_PER_SEG) (some pobj)
      some (segs, { sl with slLength := sl.slLength + 1 }, .ok)

/-- The function `seglist_appendItem`. -/
def appendItem (chunk : Option ℕ) (sl : Seglist) (pobj : α) :
    Option (Segments α × Seglist × PmReturn) :=
  insertItem segs chunk sl pobj sl.slLength

/-- The function `seglist_removeItem`: the segments, the seglist and the segments that are freed.
A last segment that is not the only one is left to the collector. -/
def removeItem (sl : Seglist) (index : ℕ) : Option (Segments α × Seglist × List ℕ) := do
  let pseg ← segs.walk (index / SEGLIST_OBJS_PER_SEG) sl.slRootseg
  let (segs, pseg) ← segs.shift (sl.slLength - 1 - index) index pseg
  let sl := { sl with slLength := sl.slLength - 1 }
  if sl.slLength % SEGLIST_OBJS_PER_SEG = 0 then
    let pseg ← segs.walk ((sl.slLength - 1) / SEGLIST_OBJS_PER_SEG) sl.slRootseg
    if segs.link pseg = none then
      some (segs, { sl with slLastseg := none, slRootseg := none }, [pseg])
    else some (segs.setNext pseg none, { sl with slLastseg := some pseg }, [])
  else some (segs.setVal pseg (sl.slLength % SEGLIST_OBJS_PER_SEG) none, sl, [])

end Seglist

end Etaos.Vm
