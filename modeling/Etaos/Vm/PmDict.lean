import Etaos.Vm.SeglistSpec

/-!
# Dict objects

A dict object has a seglist with its keys and one with its values, and the value of a key has the
index of the key.  A new key comes in at index 0.  The seglists are made when the first key comes
in.
-/

set_option linter.style.nameCheck false

namespace Etaos.Vm

variable {α : Type}

/-- The constant `OBJ_TYPE_HASHABLE_MAX`. -/
def OBJ_TYPE_HASHABLE_MAX : ℕ := 0x11

/-- What the functions of dict objects know about objects: the global booleans and integers, the
types, the answers of `obj_compare`, and whether a string begins with an underscore. -/
structure Objects (α : Type) where
  pmTrue : α
  pmFalse : α
  pmOne : α
  pmZero : α
  type : α → ℕ
  compare : α → α → Bool
  underscored : α → Bool

/-- The integers are no booleans, and may be keys. -/
structure Objects.Regular (objs : Objects α) : Prop where
  one : objs.pmOne ≠ objs.pmTrue ∧ objs.pmOne ≠ objs.pmFalse
  zero : objs.pmZero ≠ objs.pmTrue ∧ objs.pmZero ≠ objs.pmFalse
  typeOne : objs.type objs.pmOne ≤ OBJ_TYPE_HASHABLE_MAX
  typeZero : objs.type objs.pmZero ≤ OBJ_TYPE_HASHABLE_MAX

/-- The answers to the requests for the two seglists and for a segment of each. -/
structure DictChunks where
  keys : Bool
  vals : Bool
  keySegment : Option ℕ
  valSegment : Option ℕ
  deriving DecidableEq, Repr

/-- The struct `PmDict_s`. -/
structure PmDict where
  length : ℕ
  dKeys : Option Seglist
  dVals : Option Seglist
  deriving DecidableEq, Repr

/-- A dict object with the memory of its segments, and what a function returns. -/
abbrev Dicted (α : Type) := Segments α × PmDict × PmReturn

namespace PmDict

variable (objs : Objects α) (segs : Segments α) (pdict : PmDict)

/-- The dict object that `dict_new` makes. -/
def new : PmDict :=
  { length := 0, dKeys := none, dVals := none }

/-- The segments that are freed when a seglist is cleared, if there is one. -/
def clearSeglist : Option Seglist → Option (List ℕ)
  | none => some []
  | some sl => (sl.clear segs).map Prod.snd

/-- The function `dict_clear`: the dict object and the segments that are freed. -/
def clear : Option (PmDict × List ℕ) := do
  let keys ← clearSeglist segs pdict.dKeys
  let vals ← clearSeglist segs pdict.dVals
  some (new, keys ++ vals)

/-- A key and a value come in.  The length grows when there is no memory for the value, too. -/
def insert (chunks : DictChunks) (pkey pval : α) : Option (Dicted α) := do
  let keys ← pdict.dKeys
  let (segs, keys, retval) ← keys.insertItem segs chunks.keySegment pkey 0
  let pdict := { pdict with dKeys := some keys }
  if retval = .ok then
    let vals ← pdict.dVals
    let (segs, vals, retval) ← vals.insertItem segs chunks.valSegment pval 0
    some (segs, { pdict with length := pdict.length + 1, dVals := some vals }, retval)
  else some (segs, pdict, retval)

/-- The function `dict_delItem`.  A key that is a boolean is not changed. -/
def delItem (pkey : α) : Option (Dicted α) := do
  let keys ← pdict.dKeys
  match ← keys.findEqual segs objs.compare pkey 0 with
  | none => some (segs, pdict, .exKey)
  | some indx =>
      let (segs, keys, _) ← keys.removeItem segs indx
      let vals ← pdict.dVals
      let (segs, vals, _) ← vals.removeItem segs indx
      some (segs, { length := pdict.length - 1, dKeys := some keys, dVals := some vals }, .ok)

variable [DecidableEq α]

/-- A key that is a boolean is changed to an integer. -/
def toKey (pkey : α) : α :=
  if pkey = objs.pmTrue then objs.pmOne
  else if pkey = objs.pmFalse then objs.pmZero
  else pkey

/-- The function `dict_setItem`. -/
def setItem (chunks : DictChunks) (pkey pval : α) : Option (Dicted α) :=
  if OBJ_TYPE_HASHABLE_MAX < objs.type pkey then some (segs, pdict, .exType)
  else
    let pkey := toKey objs pkey
    if pdict.length = 0 then
      if chunks.keys then
        if chunks.vals then
          let pdict := { pdict with dKeys := some Seglist.new, dVals := some Seglist.new }
          pdict.insert segs chunks pkey pval
        else some (segs, { pdict with dKeys := some Seglist.new, dVals := none }, .exMem)
      else some (segs, { pdict with dKeys := none }, .exMem)
    else do
      let keys ← pdict.dKeys
      match ← keys.findEqual segs objs.compare pkey 0 with
      | some indx =>
          let vals ← pdict.dVals
          (vals.setItem segs pval indx).map fun segs => (segs, pdict, .ok)
      | none => pdict.insert segs chunks pkey pval

/-- The function `dict_getItem`. -/
def getItem (pkey : α) : Option (Except PmReturn (Option α)) :=
  if pdict.length = 0 then some (.error .exKey)
  else do
    let keys ← pdict.dKeys
    match ← keys.findEqual segs objs.compare (toKey objs pkey) 0 with
    | none => some (.error .exKey)
    | some indx =>
        let vals ← pdict.dVals
        (vals.getItem segs indx).map .ok

/-- The loop of `dict_update` with `n` items left.  A key is left out when it is a string that
begins with an underscore, if that is asked for. -/
def updateFrom (src : PmDict) (omitUnderscored : Bool) :
    ℕ → ℕ → List DictChunks → Segments α → PmDict → Option (Dicted α)
  | 0, _, _, segs, pdict => some (segs, pdict, .ok)
  | n + 1, i, chunks, segs, pdict => do
      let pkey ← ← (← src.dKeys).getItem segs i
      let pval ← ← (← src.dVals).getItem segs i
      if omitUnderscored ∧ objs.underscored pkey then
        updateFrom src omitUnderscored n (i + 1) chunks segs pdict
      else
        let (segs, pdict, retval) ← setItem objs segs pdict (← chunks.head?) pkey pval
        if retval = .ok then updateFrom src omitUnderscored n (i + 1) chunks.tail segs pdict
        else some (segs, pdict, retval)

/-- The function `dict_update`. -/
def update (src : PmDict) (omitUnderscored : Bool) (chunks : List DictChunks) : Option (Dicted α) :=
  updateFrom objs src omitUnderscored src.length 0 chunks segs pdict

/-- The loop of `dict_compare` with `n` items left. -/
def compareFrom (pd1 pd2 : PmDict) : ℕ → ℕ → Option Bool
  | 0, _ => some true
  | n + 1, i => do
      let pkey1 ← ← (← pd1.dKeys).getItem segs i
      let pval1 ← ← (← pd1.dVals).getItem segs i
      match ← getItem objs segs pd2 pkey1 with
      | .error _ => some false
      | .ok pval2 =>
          if objs.compare pval1 (← pval2) then compareFrom pd1 pd2 n (i + 1) else some false

/-- The function `dict_compare`, which is true for `C_SAME`. -/
def compare (pd1 pd2 : PmDict) : Option Bool :=
  if pd1.length ≠ pd2.length then some false
  else compareFrom objs segs pd1 pd2 pd1.length 0

end PmDict

end Etaos.Vm
