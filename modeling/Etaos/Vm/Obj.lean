import Etaos.Library.BitField
import Mathlib.Logic.Function.Basic
import Mathlib.Tactic.Common

/-!
# Object descriptors

The memory of the Python virtual machine, and the descriptor that every chunk of its heap begins
with.

Words are little endian, and pointers are words, on the AVR: the null pointer is the word zero.
The fields of a structure follow one another without gaps.
-/

set_option linter.style.nameCheck false

namespace Etaos.Vm

/-! ### Memory -/

/-- The bytes of the memory. -/
abbrev Memory := ℕ → BitVec 8

namespace Memory

/-- The word at an address. -/
def word (m : Memory) (a : ℕ) : BitVec 16 :=
  m (a + 1) ++ m a

/-- The memory with the word at an address set. -/
def setWord (m : Memory) (a : ℕ) (w : BitVec 16) : Memory :=
  Function.update (Function.update m a (w.extractLsb' 0 8)) (a + 1) (w.extractLsb' 8 8)

/-- The pointer at an address. -/
def ptr (m : Memory) (a : ℕ) : Option ℕ :=
  if m.word a = 0 then none else some (m.word a).toNat

/-- The memory with the pointer at an address set. -/
def setPtr (m : Memory) (a : ℕ) (p : Option ℕ) : Memory :=
  m.setWord a (BitVec.ofNat 16 (p.getD 0))

variable {m m' : Memory} {a b : ℕ} {w : BitVec 16} {p : Option ℕ}

/-- A word that is written is read back. -/
@[simp]
theorem word_setWord_self (m : Memory) (a : ℕ) (w : BitVec 16) : (m.setWord a w).word a = w := by
  rw [word, setWord, Function.update_self, Function.update_of_ne (by omega), Function.update_self]
  ext i hi
  simp only [BitVec.getElem_append, BitVec.getElem_extractLsb']
  split <;> grind

/-- A write of a word leaves the other bytes as they are. -/
theorem setWord_apply_of_ne (h : b ≠ a) (h' : b ≠ a + 1) : m.setWord a w b = m b := by
  rw [setWord, Function.update_of_ne h', Function.update_of_ne h]

/-- A word that is elsewhere stays. -/
theorem word_setWord_of_disjoint (h : b + 2 ≤ a ∨ a + 2 ≤ b) :
  (m.setWord a w).word b = m.word b
  := by
  rw [word, word, setWord_apply_of_ne (by omega) (by omega),
    setWord_apply_of_ne (by omega) (by omega)]

/-- A word is determined by its two bytes. -/
theorem word_congr (h : m' a = m a) (h' : m' (a + 1) = m (a + 1)) : m'.word a = m.word a := by
  rw [word, word, h, h']

theorem ptr_congr (h : m'.word a = m.word a) : m'.ptr a = m.ptr a := by
  rw [ptr, ptr, h]

/-- A pointer is read back when it fits a word and is not the null pointer. -/
theorem ptr_setPtr_self (hp : ∀ q ∈ p, 0 < q ∧ q < 2 ^ 16) : (m.setPtr a p).ptr a = p := by
  rw [ptr, setPtr, word_setWord_self]
  cases p with
  | none => rfl
  | some q =>
      obtain ⟨hpos, hlt⟩ := hp q rfl
      have hq : (BitVec.ofNat 16 q).toNat = q := by
        rw [BitVec.toNat_ofNat, Nat.mod_eq_of_lt hlt]
      have hne : BitVec.ofNat 16 q ≠ 0 := by
        intro heq
        rw [heq] at hq
        exact absurd hq hpos.ne
      rw [Option.getD_some, if_neg hne, hq]

theorem ptr_setWord_of_disjoint (h : b + 2 ≤ a ∨ a + 2 ≤ b) : (m.setWord a w).ptr b = m.ptr b :=
  ptr_congr (word_setWord_of_disjoint h)

theorem ptr_setPtr_of_disjoint (h : b + 2 ≤ a ∨ a + 2 ≤ b) : (m.setPtr a p).ptr b = m.ptr b :=
  ptr_setWord_of_disjoint h

/-- An address is not zero. -/
theorem pos_of_ptr {q : ℕ} (h : m.ptr a = some q) : 0 < q := by
  rw [ptr] at h
  split at h
  · cases h
  · rename_i hne
    obtain rfl := Option.some.inj h
    apply Nat.pos_of_ne_zero
    intro hzero
    apply hne
    apply BitVec.eq_of_toNat_eq
    rw [hzero]
    rfl

end Memory

/-! ### Descriptors -/

/-- The types of `PmType_t`. -/
inductive PmType
  | non
  | int
  | flt
  | str
  | tup
  | cob
  | mod
  | clo
  | fxn
  | cli
  | cim
  | nim
  | nob
  | thr
  | bool
  | cio
  | mth
  | lst
  | dic
  | bya
  | bys
  | frm
  | blk
  | seg
  | sgl
  | sqi
  | nfm
  deriving DecidableEq, Repr

/-- The value of a type. -/
def PmType.code : PmType → ℕ
  | .non => 0x00
  | .int => 0x01
  | .flt => 0x02
  | .str => 0x03
  | .tup => 0x04
  | .cob => 0x05
  | .mod => 0x06
  | .clo => 0x07
  | .fxn => 0x08
  | .cli => 0x09
  | .cim => 0x0A
  | .nim => 0x0B
  | .nob => 0x0C
  | .thr => 0x0D
  | .bool => 0x0F
  | .cio => 0x10
  | .mth => 0x11
  | .lst => 0x12
  | .dic => 0x13
  | .bya => 0x14
  | .bys => 0x18
  | .frm => 0x19
  | .blk => 0x1A
  | .seg => 0x1B
  | .sgl => 0x1C
  | .sqi => 0x1D
  | .nfm => 0x1E

/-- The type with a value, if there is one. -/
def PmType.ofCode : ℕ → Option PmType
  | 0x00 => some .non
  | 0x01 => some .int
  | 0x02 => some .flt
  | 0x03 => some .str
  | 0x04 => some .tup
  | 0x05 => some .cob
  | 0x06 => some .mod
  | 0x07 => some .clo
  | 0x08 => some .fxn
  | 0x09 => some .cli
  | 0x0A => some .cim
  | 0x0B => some .nim
  | 0x0C => some .nob
  | 0x0D => some .thr
  | 0x0F => some .bool
  | 0x10 => some .cio
  | 0x11 => some .mth
  | 0x12 => some .lst
  | 0x13 => some .dic
  | 0x14 => some .bya
  | 0x18 => some .bys
  | 0x19 => some .frm
  | 0x1A => some .blk
  | 0x1B => some .seg
  | 0x1C => some .sgl
  | 0x1D => some .sqi
  | 0x1E => some .nfm
  | _ => none

theorem PmType.ofCode_code (t : PmType) : PmType.ofCode t.code = some t := by
  cases t <;> rfl

/-- The mark bit. -/
def OD_MARK_MASK : BitVec 16 := 1#16 <<< 0

/-- The free bit. -/
def OD_FREE_MASK : BitVec 16 := 1#16 <<< 1

/-- The size of an object. -/
def OD_SIZE_MASK : BitVec 16 := 0x07FC#16

/-- The type of an object. -/
def OD_TYPE_MASK : BitVec 16 := 0xF800#16

/-- The size of a chunk that is free. -/
def HD_SIZE_MASK : BitVec 16 := OD_TYPE_MASK ||| OD_SIZE_MASK

/-- The constant `OD_TYPE_SHIFT`. -/
def OD_TYPE_SHIFT : ℕ := 11

/-- The descriptor at the head of a chunk. -/
abbrev Desc := BitVec 16

namespace Desc

/-- The macro `OBJ_GET_FREE`. -/
def free (od : Desc) : Bool :=
  od &&& OD_FREE_MASK ≠ 0

/-- The macro `OBJ_SET_FREE`. -/
def setFree (od : Desc) (free : Bool) : Desc :=
  if free then od ||| OD_FREE_MASK else od &&& ~~~OD_FREE_MASK

/-- The macro `OBJ_GET_GCVAL`. -/
def gcval (od : Desc) : Bool :=
  od &&& OD_MARK_MASK ≠ 0

/-- The macro `OBJ_SET_GCVAL`. -/
def setGcval (od : Desc) (gcval : Bool) : Desc :=
  if gcval then od ||| OD_MARK_MASK else od &&& ~~~OD_MARK_MASK

/-- The macro `PM_OBJ_GET_SIZE`. -/
def objSize (od : Desc) : ℕ :=
  (od &&& OD_SIZE_MASK).toNat

/-- The macro `OBJ_SET_SIZE`. -/
def setObjSize (od : Desc) (size : ℕ) : Desc :=
  od &&& ~~~OD_SIZE_MASK ||| BitVec.ofNat 16 size &&& OD_SIZE_MASK

/-- The macro `CHUNK_GET_SIZE`. -/
def chunkSize (od : Desc) : ℕ :=
  (od &&& HD_SIZE_MASK).toNat

/-- The macro `CHUNK_SET_SIZE`. -/
def setChunkSize (od : Desc) (size : ℕ) : Desc :=
  od &&& ~~~HD_SIZE_MASK ||| BitVec.ofNat 16 size &&& HD_SIZE_MASK

/-- The macro `OBJ_GET_TYPE`. -/
def type (od : Desc) : ℕ :=
  (od >>> OD_TYPE_SHIFT).toNat

/-- The macro `OBJ_SET_TYPE`. -/
def setType (od : Desc) (type : ℕ) : Desc :=
  od &&& ~~~OD_TYPE_MASK ||| BitVec.ofNat 16 type <<< OD_TYPE_SHIFT &&& OD_TYPE_MASK

open BitField

variable (od : Desc) (b : Bool) (n : ℕ)

/-- The free bit is a field of one bit. -/
theorem setFree_eq_put :
  od.setFree b = put od OD_FREE_MASK (if b then BitVec.allOnes 16 else 0)
  := by
  cases b
  · exact put_zero.symm
  · exact put_allOnes.symm

/-- The mark is a field of one bit. -/
theorem setGcval_eq_put :
  od.setGcval b = put od OD_MARK_MASK (if b then BitVec.allOnes 16 else 0)
  := by
  cases b
  · exact put_zero.symm
  · exact put_allOnes.symm

/-- The bits of a descriptor are separate fields: each setter is seen by its own getter only. -/
@[simp]
theorem free_setFree : (od.setFree b).free = b := by
  rw [free, setFree_eq_put, put_and_self]
  cases b <;> decide

@[simp]
theorem free_setGcval : (od.setGcval b).free = od.free := by
  rw [free, setGcval_eq_put, put_and_of_disjoint (by decide), free]

@[simp]
theorem free_setObjSize : (od.setObjSize n).free = od.free := by
  rw [free, setObjSize, ← put, put_and_of_disjoint (by decide), free]

@[simp]
theorem free_setChunkSize : (od.setChunkSize n).free = od.free := by
  rw [free, setChunkSize, ← put, put_and_of_disjoint (by decide), free]

@[simp]
theorem free_setType : (od.setType n).free = od.free := by
  rw [free, setType, ← put, put_and_of_disjoint (by decide), free]

@[simp]
theorem gcval_setGcval : (od.setGcval b).gcval = b := by
  rw [gcval, setGcval_eq_put, put_and_self]
  cases b <;> decide

@[simp]
theorem gcval_setFree : (od.setFree b).gcval = od.gcval := by
  rw [gcval, setFree_eq_put, put_and_of_disjoint (by decide), gcval]

@[simp]
theorem gcval_setType : (od.setType n).gcval = od.gcval := by
  rw [gcval, setType, ← put, put_and_of_disjoint (by decide), gcval]

/-- The nine bits of the size of an object. -/
theorem toNat_and_OD_SIZE_MASK :
  (BitVec.ofNat 16 n &&& OD_SIZE_MASK).toNat = n / 4 % 2 ^ 9 * 4
  := by
  have h := toNat_and_field (w := 16) (k := 9) (s := 2) (n := n)
  have hmask : OD_SIZE_MASK = BitVec.ofNat 16 ((2 ^ 9 - 1) <<< 2) := by decide
  rw [hmask, h]
  omega

/-- The fourteen bits of the size of a chunk. -/
theorem toNat_and_HD_SIZE_MASK :
  (BitVec.ofNat 16 n &&& HD_SIZE_MASK).toNat = n / 4 % 2 ^ 14 * 4
  := by
  have h := toNat_and_field (w := 16) (k := 14) (s := 2) (n := n)
  have hmask : HD_SIZE_MASK = BitVec.ofNat 16 ((2 ^ 14 - 1) <<< 2) := by decide
  rw [hmask, h]
  omega

/-- The size of an object is kept in units of four bytes. -/
@[simp]
theorem objSize_setObjSize : (od.setObjSize n).objSize = n / 4 % 2 ^ 9 * 4 := by
  rw [objSize, setObjSize, ← put, put_and_self, toNat_and_OD_SIZE_MASK]

@[simp]
theorem objSize_setFree : (od.setFree b).objSize = od.objSize := by
  rw [objSize, setFree_eq_put, put_and_of_disjoint (by decide), objSize]

@[simp]
theorem objSize_setGcval : (od.setGcval b).objSize = od.objSize := by
  rw [objSize, setGcval_eq_put, put_and_of_disjoint (by decide), objSize]

@[simp]
theorem objSize_setType : (od.setType n).objSize = od.objSize := by
  rw [objSize, setType, ← put, put_and_of_disjoint (by decide), objSize]

/-- The size of a free chunk is kept in units of four bytes, and in more bits. -/
@[simp]
theorem chunkSize_setChunkSize : (od.setChunkSize n).chunkSize = n / 4 % 2 ^ 14 * 4 := by
  rw [chunkSize, setChunkSize, ← put, put_and_self, toNat_and_HD_SIZE_MASK]

@[simp]
theorem chunkSize_setFree : (od.setFree b).chunkSize = od.chunkSize := by
  rw [chunkSize, setFree_eq_put, put_and_of_disjoint (by decide), chunkSize]

@[simp]
theorem chunkSize_setGcval : (od.setGcval b).chunkSize = od.chunkSize := by
  rw [chunkSize, setGcval_eq_put, put_and_of_disjoint (by decide), chunkSize]

/-- The size of a chunk has the type in its high bits. -/
theorem chunkSize_eq : od.chunkSize = od.type * 2 ^ 11 + od.objSize := by
  have hod : od = BitVec.ofNat 16 od.toNat := by simp
  have htype : od.type = od.toNat / 2 ^ 11 := by
    rw [type, OD_TYPE_SHIFT, BitVec.toNat_ushiftRight, Nat.shiftRight_eq_div_pow]
  rw [chunkSize, objSize, htype, hod, toNat_and_HD_SIZE_MASK, toNat_and_OD_SIZE_MASK, ← hod]
  have := od.isLt
  omega

@[simp]
theorem type_setGcval : (od.setGcval b).type = od.type := by
  have h := chunkSize_setGcval od b
  rw [chunkSize_eq, chunkSize_eq, objSize_setGcval] at h
  omega

/-- Sizes are multiples of four. -/
theorem objSize_mod : od.objSize % 4 = 0 := by
  have hod : od = BitVec.ofNat 16 od.toNat := by simp
  rw [objSize, hod, toNat_and_OD_SIZE_MASK]
  omega

theorem chunkSize_mod : od.chunkSize % 4 = 0 := by
  have := od.objSize_mod
  rw [chunkSize_eq]
  omega

theorem chunkSize_lt : od.chunkSize < 2 ^ 16 :=
  (od &&& HD_SIZE_MASK).isLt

/-- A type is a number of five bits. -/
@[simp]
theorem type_setType : (od.setType n).type = n % 2 ^ 5 := by
  have hshift : BitVec.ofNat 16 n <<< OD_TYPE_SHIFT = BitVec.ofNat 16 (n * 2 ^ 11) := by
    apply BitVec.eq_of_toNat_eq
    rw [BitVec.toNat_shiftLeft, BitVec.toNat_ofNat, BitVec.toNat_ofNat, OD_TYPE_SHIFT,
      Nat.shiftLeft_eq]
    omega
  have hmask : OD_TYPE_MASK = BitVec.ofNat 16 ((2 ^ 5 - 1) <<< 11) := by decide
  have hfield : (od.setType n &&& OD_TYPE_MASK).toNat = n % 2 ^ 5 * 2 ^ 11 := by
    rw [setType, ← put, put_and_self, hshift, hmask, toNat_and_field]
    omega
  have htype (x : Desc) : (x &&& OD_TYPE_MASK).toNat = x.type * 2 ^ 11 := by
    have hx : x = BitVec.ofNat 16 x.toNat := by simp
    have := x.isLt
    rw [type, OD_TYPE_SHIFT, BitVec.toNat_ushiftRight, Nat.shiftRight_eq_div_pow, hmask]
    conv_lhs => rw [hx, toNat_and_field]
    omega
  rw [htype] at hfield
  omega

/-- The type of an object is in bits of the size of a free chunk. -/
theorem chunkSize_setType : (od.setType n).chunkSize = n % 2 ^ 5 * 2 ^ 11 + od.objSize := by
  rw [chunkSize_eq, type_setType, objSize_setType]

end Desc

end Etaos.Vm
