import Mathlib.Data.List.Basic
import Etaos.Library.Run
import Etaos.Sched.Queue

/-!
# Files in memory

One file of the file system `ramfs.c`.  A function has no result when it reads or writes
outside of a buffer, or waits for a lock that is never released.
-/

set_option linter.style.nameCheck false

namespace Etaos.Fs

/-- The number of values of `size_t`, which has 16 bits or more. -/
structure SizeT where
  size : ℕ
  le_size : 2 ^ 16 ≤ size

/-- The AVR, where `size_t` has 16 bits. -/
def SizeT.avr : SizeT where
  size := 2 ^ 16
  le_size := le_rfl

/-- The conversion of a `size_t` to the type `int`, which has the same width. -/
def SizeT.toInt (w : SizeT) (n : ℕ) : ℤ :=
  (n : ℤ).bmod w.size

/-- A number in the lower half of the range is not changed. -/
theorem SizeT.toInt_eq (w : SizeT) {n : ℕ} (h : n < 2 ^ 15) : w.toInt n = n := by
  have := w.le_size
  apply Int.bmod_eq_of_le <;> omega

/-- A block of memory: the bytes that were asked for, and the size of its heap node. -/
structure Buffer where
  bytes : List UInt8
  node : ℕ

/-- The structure `struct ramfs_file`, with the fields of its file that belong to it. -/
structure RamfsFile where
  buff : Buffer
  length : ℕ
  index : ℕ
  rdIdx : ℕ
  wrIdx : ℕ
  flags : ℕ
  lock : Bool

/-- The constant `STREAM_APPEND_FLAG`. -/
def STREAM_APPEND_FLAG : ℕ := 6

/-- The constant `RAMFS_BUFFER_SIZE`. -/
def RAMFS_BUFFER_SIZE : ℕ := 64

/-- The ways to seek, `lseek_t`. -/
inductive Whence where
  | SEEK_SET
  | SEEK_CUR
  | SEEK_END
  deriving DecidableEq

/-- The function `krealloc`, where `node` is the size of the heap node of the new memory.  It
copies as many bytes as the old node has, or as the new memory holds. -/
def krealloc (old : Buffer) (newsize node : ℕ) : Option Buffer :=
  let oldsize := old.node
  if oldsize = newsize then
    some old
  else
    let oldsize := if oldsize > newsize then newsize else oldsize
    if oldsize ≤ old.bytes.length then
      some { bytes := old.bytes.take oldsize ++ List.replicate (newsize - oldsize) 0, node }
    else
      none

namespace RamfsFile

/-- The file that `ramfs_create` makes, where `node` is the size of the heap node of its
buffer. -/
def ramfsCreate (node : ℕ) : RamfsFile where
  buff := { bytes := List.replicate RAMFS_BUFFER_SIZE 0, node }
  length := RAMFS_BUFFER_SIZE
  index := 0
  rdIdx := 0
  wrIdx := 0
  flags := 0
  lock := false

/-- The function `ramfs_open`. -/
def ramfsOpen (file : RamfsFile) : Option RamfsFile :=
  if file.lock then
    none
  else
    let file := { file with lock := true }
    if file.flags.testBit STREAM_APPEND_FLAG then
      some { file with wrIdx := file.index }
    else
      some { file with index := 0 }

/-- The function `ramfs_close`. -/
def ramfsClose (file : RamfsFile) : RamfsFile :=
  { file with rdIdx := 0, wrIdx := 0, lock := false }

/-- The part of `vfs_open` that concerns the file. -/
def vfsOpen (file : RamfsFile) (mode : ℕ) : Option RamfsFile :=
  { file with flags := mode }.ramfsOpen

/-- The part of `vfs_close` that concerns the file. -/
def vfsClose (file : RamfsFile) : RamfsFile :=
  { file.ramfsClose with flags := 0 }

/-- The function `ramfs_expand`, where `node` is the size of the heap node of new memory. -/
def ramfsExpand (w : SizeT) (file : RamfsFile) (required node : ℕ) : Option RamfsFile :=
  if (file.wrIdx + required) % w.size ≥ file.length then do
    let expand := (file.length + 1 + file.wrIdx + required + w.size - file.length) % w.size
    let buff ← krealloc file.buff expand node
    some { file with buff }
  else
    some file

/-- The loop of `ramfs_write`. -/
def writeLoop : List UInt8 → RamfsFile → Option RamfsFile
  | [], file => some file
  | c :: cbuff, file =>
      if file.wrIdx < file.length then
        if file.wrIdx < file.buff.bytes.length then
          writeLoop cbuff { file with
            buff := { file.buff with bytes := file.buff.bytes.set file.wrIdx c }
            wrIdx := file.wrIdx + 1 }
        else
          none
      else
        some file

/-- The function `ramfs_write`. -/
def ramfsWrite (w : SizeT) (file : RamfsFile) (cbuff : List UInt8) (node : ℕ) :
    Option (RamfsFile × ℤ) := do
  let file ← file.ramfsExpand w cbuff.length node
  let file ← writeLoop cbuff file
  some ({ file with index := (file.index + cbuff.length) % w.size }, w.toInt cbuff.length)

/-- The function `ramfs_setindex`. -/
def ramfsSetindex (w : SizeT) (file : RamfsFile) (index max : ℕ) : RamfsFile × ℕ :=
  if index > max ∧ max ≠ 0 then
    (file, (w.size - 4) % w.size)
  else if index ≠ file.index then
    ({ file with index, rdIdx := 0, wrIdx := 0 }, index)
  else
    (file, index)

/-- The function `ramfs_lseek`. -/
def ramfsLseek (w : SizeT) (file : RamfsFile) (offset : ℕ) : Whence → RamfsFile × ℕ
  | .SEEK_END => file.ramfsSetindex w ((offset + file.length) % w.size) 0
  | .SEEK_CUR =>
      if offset = 0 then
        (file, file.index)
      else
        file.ramfsSetindex w ((file.index + offset) % w.size) 0
  | .SEEK_SET => file.ramfsSetindex w offset 0

/-- The loop of `ramfs_read`, with the bytes it reads. -/
def readLoop : ℕ → RamfsFile → Option (RamfsFile × List UInt8)
  | 0, file => some (file, [])
  | n + 1, file =>
      if file.rdIdx < file.length then do
        let c ← file.buff.bytes[file.rdIdx]?
        let (file, cbuff) ← readLoop n { file with rdIdx := file.rdIdx + 1 }
        some (file, c :: cbuff)
      else
        some (file, [])

/-- The function `ramfs_read`, with the bytes it reads and its result. -/
def ramfsRead (w : SizeT) (file : RamfsFile) (size : ℕ) :
    Option (RamfsFile × List UInt8 × ℤ) := do
  let (file, cbuff) ← file.readLoop size
  some (file, cbuff, w.toInt size)

/-- The function `ramfs_getc`. -/
def ramfsGetc (file : RamfsFile) : Option (RamfsFile × UInt8) := do
  let c ← file.buff.bytes[file.rdIdx]?
  some ({ file with rdIdx := file.rdIdx + 1 }, c)

/-- The function `ramfs_putc`. -/
def ramfsPutc (w : SizeT) (file : RamfsFile) (c : UInt8) (node : ℕ) :
    Option (RamfsFile × UInt8) := do
  let file ← file.ramfsExpand w 1 node
  if file.wrIdx < file.buff.bytes.length then
    some ({ file with
      buff := { file.buff with bytes := file.buff.bytes.set file.wrIdx c }
      wrIdx := file.wrIdx + 1
      index := (file.index + 1) % w.size }, c)
  else
    none

end RamfsFile

end Etaos.Fs
