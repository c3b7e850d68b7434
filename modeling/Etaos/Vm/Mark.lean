import Etaos.Vm.Heap

/-!
# The mark phase of the collector

An object that is marked gets the current mark in its descriptor, and then the objects that it
refers to are marked.  The type of an object tells where its references are.  The references are
read from the memory as the marking goes on, and the recursion takes fuel.
-/

set_option linter.style.nameCheck false

namespace Etaos.Vm

/-- The constant `MEMSPACE_RAM`. -/
def MEMSPACE_RAM : BitVec 8 := 0

/-- The constant `CO_GENERATOR`. -/
def CO_GENERATOR : BitVec 8 := 0x20

/-- The constant `SEGLIST_OBJS_PER_SEG`. -/
def SEGLIST_OBJS_PER_SEG : ℕ := 8

namespace Memory

variable (m : Memory) (p : ℕ)

/-- The macro `OBJ_GET_TYPE`. -/
def type : Option PmType := PmType.ofCode (m.desc p).type

/-- The macro `OBJ_SET_GCVAL`. -/
def setMark (gcval : Bool) : Memory := m.setDesc p ((m.desc p).setGcval gcval)

/-- A word as an address. -/
def addr : ℕ := (m.word p).toNat

/-- A word as a number with a sign, or zero when it is negative. -/
def count : ℕ := (m.word p).toInt.toNat

end Memory

/-- The memory and the result of a part of the marking. -/
abbrev Marked := Option (Memory × PmReturn)

/-- The macro `PM_RETURN_IF_ERROR`, and what follows it. -/
def Marked.andThen (r : Marked) (f : Memory → Marked) : Marked :=
  r.bind fun (m, retval) => if retval = .ok then f m else some (m, retval)

section

variable (mark : Option ℕ → Memory → Marked)

/-- The references at some addresses are marked in order. -/
def markFields : List ℕ → Memory → Marked
  | [], m => some (m, .ok)
  | a :: l, m => (mark (m.ptr a) m).andThen (markFields l)

/-- The locals and the stack of the frame `pobj` are marked from an address on, up to `fo_sp`. -/
def markLocals (pobj : ℕ) : ℕ → ℕ → Memory → Marked
  | 0, _, _ => none
  | fuel + 1, ppobj2, m =>
      if ppobj2 < m.addr (pobj + 15) then
        (mark (m.ptr ppobj2) m).andThen (markLocals pobj fuel (ppobj2 + 2))
      else some (m, .ok)

/-- The items of a seglist are marked from the index `i` on, of which `n` are left, and the
segments `pobj` that hold them. -/
def markSegments (gcval : Bool) : ℕ → ℕ → ℕ → Memory → Marked
  | 0, _, _, m => some (m, .ok)
  | n + 1, i, pobj, m =>
      (mark (m.ptr (pobj + 2 + 2 * (i % SEGLIST_OBJS_PER_SEG))) m).andThen fun m =>
        if i % SEGLIST_OBJS_PER_SEG = 0 then
          markSegments gcval n (i + 1) pobj (m.setMark pobj gcval)
        else if i % SEGLIST_OBJS_PER_SEG = SEGLIST_OBJS_PER_SEG - 1 then
          match m.ptr (pobj + 18) with
          | none => some (m, .ok)
          | some q => markSegments gcval n (i + 1) q m
        else markSegments gcval n (i + 1) pobj m

/-- The arguments of the native frame are marked from the index `i` on, up to their number. -/
def markArgs (nativeframe : ℕ) : ℕ → ℕ → Memory → Marked
  | 0, _, _ => none
  | fuel + 1, i, m =>
      if i < (m (nativeframe + 9)).toNat then
        (mark (m.ptr (nativeframe + 10 + 2 * i)) m).andThen (markArgs nativeframe fuel (i + 1))
      else some (m, .ok)

end

/-- The function `heap_gcMarkObj`.  The native frame is at the address `nativeframe`. -/
def gcMarkObj (nativeframe : ℕ) (gcval : Bool) : ℕ → Option ℕ → Memory → Marked
  | _, none, m => some (m, .ok)
  | 0, some _, _ => none
  | fuel + 1, some pobj, m =>
      let mark := gcMarkObj nativeframe gcval fuel
      if (m.desc pobj).gcval = gcval then some (m, .ok)
      else
        match m.type pobj with
        | some .non | some .int | some .flt | some .str | some .nob | some .bool | some .cio
        | some .bys => some (m.setMark pobj gcval, .ok)
        | some .tup =>
            let vals := (List.range (m.count (pobj + 2))).reverse.map fun i => pobj + 4 + 2 * i
            markFields mark vals (m.setMark pobj gcval)
        | some .lst => markFields mark [pobj + 4] (m.setMark pobj gcval)
        | some .dic => markFields mark [pobj + 4, pobj + 6] (m.setMark pobj gcval)
        | some .cob =>
            (markFields mark [pobj + 4, pobj + 6] (m.setMark pobj gcval)).andThen fun m =>
              (if m (pobj + 19) = MEMSPACE_RAM then markFields mark [pobj + 2] m
                else some (m, .ok)).andThen (markFields mark [pobj + 16])
        | some .mod | some .fxn =>
            markFields mark [pobj + 2, pobj + 4, pobj + 6, pobj + 8, pobj + 10]
              (m.setMark pobj gcval)
        | some .cli => markFields mark [pobj + 2, pobj + 4] (m.setMark pobj gcval)
        | some .mth => markFields mark [pobj + 2, pobj + 4, pobj + 6] (m.setMark pobj gcval)
        | some .clo => markFields mark [pobj + 2, pobj + 4] (m.setMark pobj gcval)
        | some .frm =>
            let m := m.setMark pobj gcval
            let flags := m (m.addr (m.addr (pobj + 4) + 2) + 21)
            (if flags &&& CO_GENERATOR = 0 then markFields mark [pobj + 2] m
              else some (m, .ok)).andThen fun m =>
                (markFields mark [pobj + 4, pobj + 9, pobj + 11, pobj + 13] m).andThen
                  (markLocals mark pobj (2 ^ 16) (pobj + 18))
        | some .blk => markFields mark [pobj + 7] (m.setMark pobj gcval)
        | some .sgl =>
            let m := m.setMark pobj gcval
            markSegments mark gcval (m.count (pobj + 2)) 0 (m.addr (pobj + 4)) m
        | some .sqi => markFields mark [pobj + 2] (m.setMark pobj gcval)
        | some .thr => markFields mark [pobj + 2] (m.setMark pobj gcval)
        | some .nfm =>
            let m := m.setMark pobj gcval
            if m (nativeframe + 8) = 0 then some (m, .ok)
            else
              (markFields mark [nativeframe + 2, nativeframe + 4, nativeframe + 6] m).andThen
                (markArgs mark nativeframe (2 ^ 8 + 1) 0)
        | some .bya => markFields mark [pobj + 4] (m.setMark pobj gcval)
        | some .cim | some .nim | some .seg | none => some (m, .exSys)

/-- The objects in `gVmGlobal` that the collector starts from, and the native frame. -/
structure Global where
  pnone : Option ℕ
  pfalse : Option ℕ
  ptrue : Option ℕ
  pzero : Option ℕ
  pone : Option ℕ
  pnegone : Option ℕ
  pcodeStr : Option ℕ
  builtins : Option ℕ
  nativeframe : ℕ
  threadList : Option ℕ

/-- The roots in the order in which they are marked. -/
def Heap.roots (g : Global) (h : Heap) : List (Option ℕ) :=
  [g.pnone, g.pfalse, g.ptrue, g.pzero, g.pone, g.pnegone, g.pcodeStr, g.builtins,
    some g.nativeframe, g.threadList] ++ (List.range h.tempRootIndex).map h.tempRoots

/-- Some objects are marked in order. -/
def markList (mark : Option ℕ → Memory → Marked) : List (Option ℕ) → Memory → Marked
  | [], m => some (m, .ok)
  | p :: l, m => (mark p m).andThen (markList mark l)

/-- The function `heap_gcMarkRoots`. -/
def Heap.gcMarkRoots (g : Global) (fuel : ℕ) (h : Heap) : Option (Heap × PmReturn) :=
  let h := { h with gcval := !h.gcval }
  (markList (gcMarkObj g.nativeframe h.gcval fuel) (h.roots g) h.mem).map fun (mem, retval) =>
    ({ h with mem }, retval)

end Etaos.Vm
