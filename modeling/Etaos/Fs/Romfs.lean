import Etaos.Fs.OpenClose
import Etaos.Fs.Ramfs

/-!
# Files in program memory

The tool `crurom`, which turns a file into the initializer of an array in program memory, and
the file system `romfs.c`, which reads that array.  The tool reads a file in chunks of 512 bytes,
and writes the number 4 for a newline at the end of a chunk; the file system leaves out the last
byte of the array.
-/

namespace Etaos.Fs

/-! ### The tool -/

/-- A literal of the initializer. -/
inductive Literal where
  | character (c : UInt8)
  | number (n : ℕ)
  deriving DecidableEq

/-- The byte of a literal in the array. -/
def Literal.value : Literal → UInt8
  | .character c => c
  | .number n => UInt8.ofNat n

/-- The size of the buffer of `dofile`. -/
def chunkSize : ℕ := 512

/-- The newline character. -/
def newline : UInt8 := 10

/-- The literal for a byte of a chunk, where `last` says whether it is the last one. -/
def literalOf (b : UInt8) (last : Bool) : Literal :=
  if b < 32 ∨ b > 127 ∨ b = 39 ∨ b = 92 then
    if b = newline ∧ last then .number 4 else .number b.toNat
  else
    .character b

/-- The literals for the bytes of a chunk. -/
def emitChunk : List UInt8 → List Literal
  | [] => []
  | [b] => [literalOf b true]
  | b :: c :: bs => literalOf b false :: emitChunk (c :: bs)

/-- The loop of `dofile` over the rest of the file, with the literals it writes and the total
it counts.  It reads no more chunks than `n`. -/
def dofileLoop : ℕ → List UInt8 → ℕ → List Literal × ℕ
  | 0, _, total => ([], total)
  | n + 1, rest, total =>
      let buf := rest.take chunkSize
      if buf.length = 0 then
        ([], total)
      else
        let (literals, total) := dofileLoop n (rest.drop chunkSize) (total + buf.length)
        (emitChunk buf ++ literals, total)

/-- The function `dofile`: the literals of the array, and the length of the entry. -/
def dofile (file : List UInt8) : List Literal × ℕ :=
  dofileLoop (file.length + 1) file 0

/-! ### The file system -/

/-- The error `EEXIST`. -/
def EEXIST : ℤ := 7

/-- The result at the end of a file, `EOF`. -/
def EOF : ℤ := 8

/-- The structure `struct romfs`, without its name and the pointer to the next one. -/
structure Romfs where
  length : ℕ
  data : ℕ

/-- The fields of `struct file` for a file of the file system. -/
structure RomfsFile where
  length : ℕ
  entry : Romfs
  data : Option (List UInt8)
  index : ℕ
  uses : ℕ

variable {w : SizeT} {flash : ℕ → UInt8}

/-- The entry that `dofile` writes, with the array at the address `data`. -/
def romfsEntry (w : SizeT) (file : List UInt8) (data : ℕ) : Romfs :=
  { length := (dofile file).2 % w.size, data }

/-- The function `atmega_flash_read`, which reads words and a remaining byte. -/
def atmegaFlashRead (w : SizeT) (flash : ℕ → UInt8) (addr len : ℕ) : List UInt8 :=
  let blocks := len / 2
  let remainder := len % 2
  (List.range blocks).flatMap (fun i => [flash ((addr + i * 2) % w.size),
    flash ((addr + i * 2 + 1) % w.size)]) ++
  (List.range remainder).map fun i => flash ((addr + (blocks * 2 + i)) % w.size)

namespace RomfsFile

/-- The function `romfs_setup_file`, for a file of zeros. -/
def romfsSetupFile (w : SizeT) (entry : Romfs) : RomfsFile where
  length := (entry.length + w.size - 1) % w.size
  entry := entry
  data := none
  index := 0
  uses := 0

/-- The function `romfs_open`, where `fd` is the descriptor of the flash device.  Its
allocation, which it does not check, succeeds. -/
def romfsOpen (w : SizeT) (flash : ℕ → UInt8) (fd : ℤ) (file : RomfsFile) : RomfsFile × ℤ :=
  match file.data with
  | some _ => (file, -EEXIST)
  | none =>
      if fd < 0 then
        (file, -EBADF)
      else
        let buff := atmegaFlashRead w flash file.entry.data file.length
        ({ file with data := some buff, uses := file.uses + 1 }, -EOK)

/-- The function `romfs_read`, with the bytes it stores. -/
def romfsRead (w : SizeT) (file : RomfsFile) (len : ℕ) : RomfsFile × List UInt8 × ℤ :=
  if file.index ≥ file.length then
    (file, [], -EOF)
  else
    let readable := if len > file.length - file.index then file.length - file.index else len
    let buff := ((file.data.getD []).drop file.index).take readable
    ({ file with index := file.index + readable }, buff, w.toInt readable)

/-- The function `romfs_getc`, whose result is a signed character. -/
def romfsGetc (file : RomfsFile) : RomfsFile × ℤ :=
  if file.index ≥ file.length then
    (file, -EOF)
  else
    let c := ((file.data.getD []).getD file.index 0).toInt8.toInt
    ({ file with index := file.index + 1 }, c)

/-- A request to an open file. -/
inductive Request where
  | read (len : ℕ)
  | getc
  deriving DecidableEq

/-- The number of bytes that a request asks for. -/
def Request.amount : Request → ℕ
  | .read len => len
  | .getc => 1

/-- The number of bytes that a list of requests asks for. -/
def asked (rs : List Request) : ℕ :=
  (rs.map Request.amount).sum

/-- The bytes that a request delivers: those that a read stores, and a character, the low byte of
the result, when the index advances. -/
def request (w : SizeT) (file : RomfsFile) : Request → RomfsFile × List UInt8
  | .read len =>
      let (file, buff, _) := file.romfsRead w len
      (file, buff)
  | .getc =>
      let (file', c) := file.romfsGetc
      (file', if file'.index = file.index then [] else [UInt8.ofInt c])

/-- The bytes that a list of requests delivers. -/
def drain (w : SizeT) (file : RomfsFile) : List Request → List UInt8
  | [] => []
  | r :: rs =>
      let (file, bytes) := file.request w r
      bytes ++ file.drain w rs

/-- The file after a list of requests. -/
def after (w : SizeT) (file : RomfsFile) : List Request → RomfsFile
  | [] => file
  | r :: rs => (file.request w r).1.after w rs

/-- The result of a request. -/
def result (w : SizeT) (file : RomfsFile) : Request → ℤ
  | .read len => (file.romfsRead w len).2.2
  | .getc => file.romfsGetc.2

/-- What a caller takes of a request whose result is not `-EOF`: as many bytes of its buffer as
the result says, none when it is negative, and the low byte of a character. -/
def taken (w : SizeT) (file : RomfsFile) : Request → List UInt8
  | .read len => (file.romfsRead w len).2.1.take (file.result w (.read len)).toNat
  | .getc => [UInt8.ofInt (file.result w .getc)]

/-- The bytes that a caller takes who makes the requests until one has the result `-EOF`. -/
def readAll (w : SizeT) (file : RomfsFile) : List Request → List UInt8
  | [] => []
  | r :: rs =>
      if file.result w r = -EOF then
        []
      else
        file.taken w r ++ (file.request w r).1.readAll w rs

/-- The file has the length of `bytes`, a caller who makes the requests until one has the result
`-EOF` takes these bytes, and a further request has the result `-EOF`. -/
def Delivers (w : SizeT) (file : RomfsFile) (rs : List Request) (bytes : List UInt8) : Prop :=
  file.length = bytes.length ∧ file.readAll w rs = bytes ∧
    ∀ r, (file.after w rs).result w r = -EOF

/-- The result of a request at the place `start` of the content tells what it delivers: a
character is not the byte 248, which is the signed character `-EOF`, and the number of bytes of a
read is an `int`. -/
def Request.Plain (w : SizeT) (content : List UInt8) (start : ℕ) : Request → Prop
  | .getc => content[start]? ≠ some 248
  | .read len => 2 * min len (content.length - start) < w.size

/-- The results of requests from the place `start` on tell what they deliver. -/
def Plain (w : SizeT) (content : List UInt8) : ℕ → List Request → Prop
  | _, [] => True
  | start, r :: rs => r.Plain w content start ∧ Plain w content (start + r.amount) rs

end RomfsFile

/-- What is to be read of a file: its bytes without one newline at their end. -/
def contents (file : List UInt8) : List UInt8 :=
  if file.getLast? = some newline then file.dropLast else file

/-- The array of a file is in program memory at the address `data`. -/
structure Placed (w : SizeT) (flash : ℕ → UInt8) (data : ℕ) (file : List UInt8) : Prop where
  space : data + (dofile file).1.length ≤ w.size
  flash : ∀ (i : ℕ) (l : Literal), (dofile file).1[i]? = some l → flash (data + i) = l.value

/-! ### The array -/

/-- The byte in the array for a byte of the file, where `last` says whether it is the last one of
its chunk. -/
def stored (b : UInt8) (last : Bool) : UInt8 :=
  if b = newline ∧ last then 4 else b

/-- The compiler reads from a literal the byte that is to be stored. -/
theorem value_literalOf (b : UInt8) (last : Bool) : (literalOf b last).value = stored b last := by
  rw [literalOf, stored]
  split
  · split
    · rfl
    · rw [Literal.value, UInt8.ofNat_toNat]
  · rename_i hplain
    rw [if_neg]
    · rfl
    · rintro ⟨rfl, -⟩
      exact hplain (.inl (by decide))

/-- The literals of a chunk, one for each of its bytes. -/
theorem getElem?_emitChunk :
    ∀ (bs : List UInt8) (i : ℕ),
      (emitChunk bs)[i]? = bs[i]?.map fun b => literalOf b (i + 1 = bs.length)
  | [], i => rfl
  | [b], i => by
      cases i with
      | zero => rfl
      | succ i => rfl
  | b :: c :: bs, i => by
      cases i with
      | zero => rfl
      | succ i =>
          rw [emitChunk, List.getElem?_cons_succ, List.getElem?_cons_succ,
            getElem?_emitChunk (c :: bs) i]
          simp only [List.length_cons, Nat.add_right_cancel_iff]

theorem length_emitChunk :
    ∀ bs : List UInt8, (emitChunk bs).length = bs.length
  | [] => rfl
  | [_] => rfl
  | b :: c :: bs => by
      rw [emitChunk, List.length_cons, length_emitChunk (c :: bs), List.length_cons,
        List.length_cons, List.length_cons]

/-- A byte is the last one of its chunk. -/
def lastOfChunk (file : List UInt8) (i : ℕ) : Bool :=
  i % chunkSize = chunkSize - 1 ∨ i + 1 = file.length

/-- The loop counts the bytes of the rest of the file, and writes a literal for each of them. -/
theorem dofileLoop_spec :
    ∀ (n : ℕ) (rest : List UInt8) (total : ℕ), rest.length < n →
      (dofileLoop n rest total).2 = total + rest.length ∧
        ∀ i, (dofileLoop n rest total).1[i]?
          = rest[i]?.map fun b => literalOf b (lastOfChunk rest i)
  | 0, _, _, hn => by omega
  | n + 1, rest, total, hn => by
      have hsize : chunkSize = 512 := rfl
      have hlength : (rest.take chunkSize).length = min chunkSize rest.length := List.length_take
      rw [dofileLoop]
      dsimp only
      split
      · rename_i hempty
        have hrest : rest = [] := List.eq_nil_of_length_eq_zero (by omega)
        subst hrest
        exact ⟨rfl, fun i => rfl⟩
      · rename_i hpos
        have hdrop : (rest.drop chunkSize).length = rest.length - chunkSize := List.length_drop
        obtain ⟨htotal, hget⟩ := dofileLoop_spec n (rest.drop chunkSize)
          (total + (rest.take chunkSize).length) (by omega)
        refine ⟨by rw [htotal]; omega, ?_⟩
        intro i
        rw [List.getElem?_append]
        have hemit : (emitChunk (rest.take chunkSize)).length = min chunkSize rest.length := by
          rw [length_emitChunk, hlength]
        rw [hemit]
        split
        · rename_i hi
          have hlast : (i + 1 = (rest.take chunkSize).length) ↔
              (i % chunkSize = chunkSize - 1 ∨ i + 1 = rest.length) := by
            rw [hlength, hsize]
            omega
          rw [getElem?_emitChunk, List.getElem?_take_of_lt (by omega)]
          simp only [lastOfChunk, hlast]
        · rename_i hi
          rw [hget, List.getElem?_drop]
          by_cases hlong : chunkSize ≤ rest.length
          · have hindex : chunkSize + (i - min chunkSize rest.length) = i := by omega
            have hlast : ((i - min chunkSize rest.length) % chunkSize = chunkSize - 1 ∨
                i - min chunkSize rest.length + 1 = (rest.drop chunkSize).length) ↔
                (i % chunkSize = chunkSize - 1 ∨ i + 1 = rest.length) := by
              rw [hdrop, min_eq_left hlong, hsize]
              omega
            simp only [hindex, lastOfChunk, hlast]
          · rw [List.getElem?_eq_none (by omega), List.getElem?_eq_none (by omega)]
            rfl

/-- The total counts the bytes that are read. -/
theorem dofile_total (file : List UInt8) : (dofile file).2 = file.length := by
  have hspec := (dofileLoop_spec (file.length + 1) file 0 (by omega)).1
  rwa [Nat.zero_add] at hspec

theorem getElem?_dofile (file : List UInt8) (i : ℕ) :
  (dofile file).1[i]? = file[i]?.map fun b => literalOf b (lastOfChunk file i)
  :=
  (dofileLoop_spec (file.length + 1) file 0 (by omega)).2 i

/-- The tool writes a literal for each byte. -/
theorem dofile_length (file : List UInt8) : (dofile file).1.length = file.length := by
  apply le_antisymm
  · by_contra hlt
    have hget := getElem?_dofile file file.length
    rw [List.getElem?_eq_none le_rfl, Option.map_none, List.getElem?_eq_none_iff] at hget
    omega
  · by_contra hlt
    have hget := getElem?_dofile file (dofile file).1.length
    rw [List.getElem?_eq_none le_rfl, eq_comm, Option.map_eq_none_iff,
      List.getElem?_eq_none_iff] at hget
    omega

/-- A placed array has a byte for each byte of the file. -/
theorem Placed.byte {data i : ℕ} {file : List UInt8} (h : Placed w flash data file)
    (hi : i < file.length) :
  flash (data + i) = stored file[i] (lastOfChunk file i)
  := by
  rw [← value_literalOf]
  apply h.flash
  rw [getElem?_dofile, List.getElem?_eq_getElem hi, Option.map_some]

/-! ### Reading -/

/-- A read of the flash delivers consecutive bytes. -/
theorem atmegaFlashRead_eq (w : SizeT) (flash : ℕ → UInt8) (addr len : ℕ) :
  atmegaFlashRead w flash addr len
    = (List.range len).map fun i => flash ((addr + i) % w.size)
  := by
  have hwords : ∀ blocks : ℕ, (List.range blocks).flatMap (fun i =>
      [flash ((addr + i * 2) % w.size), flash ((addr + i * 2 + 1) % w.size)])
        = (List.range (blocks * 2)).map fun i => flash ((addr + i) % w.size) := by
    intro blocks
    induction blocks with
    | zero => rfl
    | succ n ih =>
        rw [List.range_succ, List.flatMap_append, ih, Nat.succ_mul, List.range_succ,
          List.range_succ]
        simp [Nat.add_assoc]
  rw [atmegaFlashRead, hwords]
  have hsplit : len = len / 2 * 2 + len % 2 := (Nat.div_add_mod' len 2).symm
  conv_rhs => rw [hsplit, List.range_add, List.map_append, List.map_map]
  rfl

namespace RomfsFile

variable {file : RomfsFile} {buff bytes : List UInt8} {start : ℕ} {rs : List Request}

/-- A character that is read is the low byte of the result. -/
theorem ofInt_toInt8 (b : UInt8) : UInt8.ofInt b.toInt8.toInt = b := by
  have hint : b.toInt8.toInt = (b.toNat : ℤ).bmod (2 ^ 8) := by
    rw [← Int8.toInt_toBitVec, UInt8.toBitVec_toInt8, BitVec.toInt_eq_toNat_bmod,
      UInt8.toNat_toBitVec]
  have hlt := b.toNat_lt
  have hmod : ((b.toNat : ℤ).bmod (2 ^ 8)) % 2 ^ 8 = b.toNat := by
    have hbmod := Int.bmod_emod (x := (b.toNat : ℤ)) (m := 2 ^ 8)
    omega
  rw [UInt8.ofInt, hint, hmod, Int.toNat_natCast, UInt8.ofNat_toNat]

/-- The byte 248 is the signed character `-EOF`. -/
theorem toInt_eq_neg_eof (b : UInt8) : b.toInt8.toInt = -EOF ↔ b = 248 := by
  constructor
  · intro hb
    rw [← ofInt_toInt8 b, hb]
    rfl
  · rintro rfl
    rfl

@[simp]
theorem asked_nil : asked [] = 0 := rfl

@[simp]
theorem asked_cons (r : Request) (rs : List Request) : asked (r :: rs) = r.amount + asked rs := by
  rw [asked, List.map_cons, List.sum_cons, asked]

/-- The file is open with the bytes `buff`, and requests have asked for `start` of them. -/
structure At (file : RomfsFile) (buff : List UInt8) (start : ℕ) : Prop where
  data : file.data = some buff
  length : buff.length = file.length
  index : file.index = min file.length start

/-- A request delivers as many bytes as it asks for, or all that are left. -/
theorem At.request (h : file.At buff start) (r : Request) :
  (file.request w r).1.At buff (start + r.amount) ∧
    (file.request w r).2 = (buff.drop start).take r.amount
  := by
  obtain ⟨hdata, hlength, hindex⟩ := h
  by_cases hend : file.index ≥ file.length
  · have hnone : buff.drop start = [] := List.drop_of_length_le (by omega)
    cases r with
    | read len =>
        rw [RomfsFile.request, romfsRead, if_pos hend, hnone]
        exact ⟨⟨hdata, hlength, by dsimp only; omega⟩, List.take_nil.symm⟩
    | getc =>
        rw [RomfsFile.request, romfsGetc, if_pos hend, hnone]
        exact ⟨⟨hdata, hlength, by dsimp only; omega⟩, if_pos rfl⟩
  · obtain rfl : file.index = start := by omega
    cases r with
    | read len =>
        rw [RomfsFile.request, romfsRead, if_neg hend, hdata]
        refine ⟨⟨rfl, hlength, ?_⟩, ?_⟩
        · simp only [Request.amount]
          split <;> omega
        · simp only [Request.amount, Option.getD_some]
          split
          · rw [List.take_of_length_le, List.take_of_length_le] <;> rw [List.length_drop] <;> omega
          · rfl
    | getc =>
        have hlt : file.index < buff.length := by omega
        rw [RomfsFile.request, romfsGetc, if_neg hend, hdata]
        refine ⟨⟨rfl, hlength, ?_⟩, ?_⟩
        · simp only [Request.amount]
          omega
        · simp only [Request.amount, Option.getD_some]
          rw [if_neg (by omega), List.getD_eq_getElem?_getD, List.getElem?_eq_getElem hlt,
            Option.getD_some, ofInt_toInt8, List.take_one, List.head?_drop,
            List.getElem?_eq_getElem hlt]
          rfl

/-- What is delivered is what is left of the buffer, as far as it is asked for. -/
theorem At.drain (h : file.At buff start) :
  file.drain w rs = (buff.drop start).take (asked rs)
  := by
  induction rs generalizing file start with
  | nil => rw [RomfsFile.drain, asked_nil, List.take_zero]
  | cons r rs ih =>
      obtain ⟨hfile, hbytes⟩ := h.request (w := w) r
      rw [RomfsFile.drain, asked_cons, List.take_add, List.drop_drop]
      dsimp only
      rw [ih hfile, hbytes]

/-- Some requests leave the file open at the place behind them. -/
theorem At.after (h : file.At buff start) (rs : List Request) :
  (file.after w rs).At buff (start + asked rs)
  := by
  induction rs generalizing file start with
  | nil => exact h
  | cons r rs ih =>
      rw [RomfsFile.after, asked_cons, ← Nat.add_assoc]
      exact ih (h.request r).1

/-! ### The results -/

/-- At the end the result is `-EOF`. -/
theorem At.result_end (h : file.At buff start) (hle : buff.length ≤ start) (r : Request) :
  file.result w r = -EOF
  := by
  have hend : file.index ≥ file.length := by
    have hlength := h.length
    have hindex := h.index
    omega
  cases r with
  | read len => rw [result, romfsRead, if_pos hend]
  | getc => rw [result, romfsGetc, if_pos hend]

/-- The results of requests at the end tell that they deliver nothing. -/
theorem Request.plain_of_le (w : SizeT) (hle : buff.length ≤ start) (r : Request) :
  r.Plain w buff start
  := by
  have hsize := w.le_size
  cases r with
  | read len =>
      rw [Plain]
      omega
  | getc => simp [Plain, List.getElem?_eq_none hle]

/-- The count of a read, a `size_t`, is negative as an `int` when it is in the upper half of the
range. -/
theorem toInt_of_le {n : ℕ} (hn : n < w.size) (hle : w.size ≤ 2 * n) :
  w.toInt n = n - w.size
  := by
  have hmod : (n : ℤ) % w.size = n := Int.emod_eq_of_lt (by omega) (by omega)
  rw [SizeT.toInt, Int.bmod_def, hmod, if_neg (by omega)]

/-- A number in the lower half is not changed when it is converted to an `int`. -/
theorem toInt_of_lt {n : ℕ} (hlt : 2 * n < w.size) : w.toInt n = n := by
  have hmod : (n : ℤ) % w.size = n := Int.emod_eq_of_lt (by omega) (by omega)
  rw [SizeT.toInt, Int.bmod_def, hmod, if_pos (by omega)]

/-- A read before the end, with the bytes it stores and its result. -/
theorem At.read (h : file.At buff start) (hlt : start < buff.length) (len : ℕ) :
  (file.romfsRead w len).2.1 = (buff.drop start).take len ∧
    file.result w (.read len) = w.toInt (min len (buff.length - start))
  := by
  have hstored := (h.request (w := w) (.read len)).2
  have hlength := h.length
  have hindex := h.index
  refine ⟨hstored, ?_⟩
  rw [result, romfsRead, if_neg (by omega)]
  dsimp only
  congr 1
  split <;> omega

/-- A character is returned as a signed byte. -/
theorem At.getc (h : file.At buff start) (hlt : start < buff.length) :
  file.result w .getc = buff[start].toInt8.toInt
  := by
  have hlength := h.length
  have hindex : file.index = start := by
    rw [h.index]
    omega
  rw [result, romfsGetc, if_neg (by omega), h.data, hindex]
  simp only [Option.getD_some, List.getD_eq_getElem?_getD, List.getElem?_eq_getElem hlt]

/-- A caller takes bytes that are delivered. -/
theorem At.taken_prefix (h : file.At buff start) (hlt : start < buff.length) (r : Request) :
  file.taken w r <+: (file.request w r).2
  := by
  cases r with
  | read len => exact List.take_prefix ..
  | getc =>
      rw [(h.request .getc).2, taken, h.getc hlt, ofInt_toInt8, Request.amount, List.take_one,
        List.head?_drop, List.getElem?_eq_getElem hlt]
      exact List.prefix_rfl

/-- Before the end the result of a request tells what it delivers when it is not `-EOF`, and the
caller takes all that is delivered. -/
theorem At.plain_iff (h : file.At buff start) (hlt : start < buff.length)
    (hsize : buff.length < w.size) (r : Request) :
  r.Plain w buff start ↔
    file.result w r ≠ -EOF ∧ file.taken w r = (file.request w r).2
  := by
  cases r with
  | getc =>
      have htaken : file.taken w .getc = (file.request w .getc).2 := by
        apply (h.taken_prefix hlt .getc).eq_of_length
        rw [(h.request .getc).2, List.length_take, List.length_drop, Request.amount]
        change 1 = _
        omega
      rw [Request.Plain, h.getc hlt, List.getElem?_eq_getElem hlt, ne_eq, ne_eq, toInt_eq_neg_eof,
        Option.some_inj]
      exact ⟨fun hne => ⟨hne, htaken⟩, And.left⟩
  | read len =>
      obtain ⟨hstored, hresult⟩ := h.read (w := w) hlt len
      have hlength : (file.romfsRead w len).2.1.length = min len (buff.length - start) := by
        rw [hstored, List.length_take, List.length_drop]
      have hrequest : (file.request w (.read len)).2 = (file.romfsRead w len).2.1 := rfl
      rw [Request.Plain, taken, hresult, hrequest]
      constructor
      · intro hshort
        rw [toInt_of_lt hshort, Int.toNat_natCast]
        constructor
        · rw [EOF]
          omega
        · apply List.take_of_length_le hlength.le
      · rintro ⟨-, htaken⟩
        by_contra hlong
        -- the result is negative, and the caller takes nothing
        rw [toInt_of_le (by omega) (by omega), Int.toNat_of_nonpos (by omega), List.take_zero]
          at htaken
        rw [← htaken, List.length_nil] at hlength
        have := w.le_size
        omega

/-- A request before the end whose result is `-EOF` delivers bytes. -/
theorem At.request_ne_nil (h : file.At buff start) (hlt : start < buff.length)
    {r : Request} (hresult : file.result w r = -EOF) :
  (file.request w r).2 ≠ []
  := by
  rw [(h.request r).2, ne_eq, List.take_eq_nil_iff, List.drop_eq_nil_iff]
  rintro (hzero | hle)
  · cases r with
    | getc => cases hzero
    | read len =>
        obtain rfl : len = 0 := hzero
        rw [(h.read hlt 0).2, Nat.zero_min, SizeT.toInt_eq w (by decide)] at hresult
        cases hresult
  · omega

/-! ### Reading to the end -/

/-- When the results tell what is delivered, the caller takes what is left of the buffer, as far
as it is asked for. -/
theorem At.readAll_eq (h : file.At buff start) (hsize : buff.length < w.size)
    (hplain : Plain w buff start rs) :
  file.readAll w rs = (buff.drop start).take (asked rs)
  := by
  induction rs generalizing file start with
  | nil => rw [readAll, asked_nil, List.take_zero]
  | cons r rs ih =>
      obtain ⟨hr, hrs⟩ := hplain
      rw [readAll]
      by_cases hle : buff.length ≤ start
      · rw [if_pos (h.result_end hle r), List.drop_of_length_le hle, List.take_nil]
      · obtain ⟨hne, htaken⟩ := (h.plain_iff (by omega) hsize r).mp hr
        obtain ⟨hfile, hbytes⟩ := h.request (w := w) r
        rw [if_neg hne, htaken, hbytes, ih hfile hrs, asked_cons, List.take_add, List.drop_drop]

/-- The caller takes no more bytes than are delivered. -/
theorem At.length_readAll_le (h : file.At buff start) :
  (file.readAll w rs).length ≤ ((buff.drop start).take (asked rs)).length
  := by
  induction rs generalizing file start with
  | nil => rw [readAll, List.length_nil]; exact Nat.zero_le _
  | cons r rs ih =>
      obtain ⟨hfile, hbytes⟩ := h.request (w := w) r
      have hrest := ih hfile
      rw [readAll]
      split
      · exact Nat.zero_le _
      · rename_i hne
        have hlt : start < buff.length := by
          by_contra hle
          exact hne (h.result_end (by omega) r)
        have htaken := (h.taken_prefix (w := w) hlt r).length_le
        rw [hbytes] at htaken
        rw [asked_cons, List.take_add, List.drop_drop, List.length_append, List.length_append]
        omega

/-- When the caller takes as many bytes as are delivered, the results tell what is delivered. -/
theorem At.plain_of_length (h : file.At buff start) (hsize : buff.length < w.size)
    (hlength : ((buff.drop start).take (asked rs)).length ≤ (file.readAll w rs).length) :
  Plain w buff start rs
  := by
  induction rs generalizing file start with
  | nil => trivial
  | cons r rs ih =>
      obtain ⟨hfile, hbytes⟩ := h.request (w := w) r
      by_cases hle : buff.length ≤ start
      · have hle' : buff.length ≤ start + r.amount := by omega
        refine ⟨r.plain_of_le w hle, ih hfile ?_⟩
        rw [List.drop_of_length_le hle', List.take_nil]
        exact Nat.zero_le _
      · have hlt : start < buff.length := by omega
        have hrest : ((file.request w r).1.readAll w rs).length
            ≤ ((buff.drop (start + r.amount)).take (asked rs)).length := hfile.length_readAll_le
        rw [asked_cons, List.take_add, List.drop_drop, List.length_append, ← hbytes, readAll]
          at hlength
        split at hlength
        · rename_i hend
          exfalso
          apply h.request_ne_nil hlt hend
          apply List.eq_nil_of_length_eq_zero
          rw [List.length_nil] at hlength
          omega
        · rename_i hne
          have hprefix := h.taken_prefix (w := w) hlt r
          have htaken := hprefix.length_le
          rw [List.length_append] at hlength
          refine ⟨(h.plain_iff hlt hsize r).mpr ⟨hne, hprefix.eq_of_length (by omega)⟩,
            ih hfile (by omega)⟩

/-- A file with a buffer of its length delivers the bytes exactly when they are those of the
buffer, and the results tell what is delivered. -/
theorem At.delivers_iff (h : file.At buff 0) (hsize : buff.length < w.size)
    (hend : bytes.length ≤ asked rs) :
  file.Delivers w rs bytes ↔ buff = bytes ∧ Plain w bytes 0 rs
  := by
  constructor
  · rintro ⟨hlength, hread, -⟩
    have hall : buff.take (asked rs) = buff := List.take_of_length_le (by rw [h.length]; omega)
    have hplain : Plain w buff 0 rs := by
      apply h.plain_of_length hsize
      rw [List.drop_zero, hall, hread, h.length, hlength]
    have heq := h.readAll_eq hsize hplain
    rw [List.drop_zero, hall, hread] at heq
    subst heq
    exact ⟨rfl, hplain⟩
  · rintro ⟨rfl, hplain⟩
    refine ⟨h.length.symm, ?_, ?_⟩
    · rw [h.readAll_eq hsize hplain, List.drop_zero, List.take_of_length_le hend]
    · apply (h.after rs).result_end
      rwa [Nat.zero_add]

end RomfsFile

/-! ### The round trip -/

/-- No newline is the last byte of a chunk, but for the last byte of the file. -/
def Unsplit (file : List UInt8) : Prop :=
  ∀ i, i + 1 < file.length → i % chunkSize = chunkSize - 1 → file[i]? ≠ some newline

/-- The file in the file system for the array of a file, when it is opened. -/
def opened (w : SizeT) (flash : ℕ → UInt8) (file : List UInt8) (data : ℕ) (fd : ℤ) :
    RomfsFile × ℤ :=
  (RomfsFile.romfsSetupFile w (romfsEntry w file data)).romfsOpen w flash fd

/-- The length of the file in the file system. -/
theorem length_opened {file : List UInt8} {data : ℕ} (hplaced : Placed w flash data file)
    (hfile : file ≠ []) :
  (RomfsFile.romfsSetupFile w (romfsEntry w file data)).length = file.length - 1
  := by
  have hpos := List.length_pos_of_ne_nil hfile
  have hspace := hplaced.space
  rw [dofile_length] at hspace
  rw [RomfsFile.romfsSetupFile, romfsEntry]
  dsimp only
  rw [dofile_total]
  by_cases hlt : file.length < w.size
  · rw [Nat.mod_eq_of_lt hlt, show file.length + w.size - 1 = file.length - 1 + w.size by omega,
      Nat.add_mod_right, Nat.mod_eq_of_lt (by omega)]
  · rw [show file.length = w.size by omega, Nat.mod_self, Nat.zero_add,
      Nat.mod_eq_of_lt (by omega)]

/-- The buffer of a file that is opened: the bytes of its array, but for the last one. -/
theorem buffer_opened {file : List UInt8} {data : ℕ} (hplaced : Placed w flash data file)
    (i : ℕ) (hi : i + 1 < file.length) :
  (atmegaFlashRead w flash data (file.length - 1))[i]?
    = some (stored (file.getD i 0) (lastOfChunk file i))
  := by
  have hspace := hplaced.space
  rw [dofile_length] at hspace
  have hlt : i < file.length := by omega
  rw [atmegaFlashRead_eq, List.getElem?_map, List.getElem?_range (by omega), Option.map_some,
    Nat.mod_eq_of_lt (by omega), hplaced.byte hlt, List.getD_eq_getElem?_getD,
    List.getElem?_eq_getElem hlt, Option.getD_some]

/-- A file that was set up is opened, and its buffer is filled from program memory. -/
theorem romfsOpen_setup {entry : Romfs} {fd : ℤ} (hfd : 0 ≤ fd) :
  (RomfsFile.romfsSetupFile w entry).romfsOpen w flash fd
    = ({ RomfsFile.romfsSetupFile w entry with
        data := some (atmegaFlashRead w flash entry.data
          (RomfsFile.romfsSetupFile w entry).length)
        uses := 1 }, -EOK)
  := by
  rw [RomfsFile.romfsOpen]
  simp only [RomfsFile.romfsSetupFile, if_neg (show ¬ fd < 0 by omega)]

/-- A file that is opened has the bytes of program memory in its buffer, as many as its length
says. -/
theorem at_romfsOpen {entry : Romfs} {fd : ℤ} (hfd : 0 ≤ fd) :
  ((RomfsFile.romfsSetupFile w entry).romfsOpen w flash fd).1.At
    (atmegaFlashRead w flash entry.data (RomfsFile.romfsSetupFile w entry).length) 0
  := by
  rw [romfsOpen_setup hfd]
  refine ⟨rfl, ?_, (Nat.min_zero _).symm⟩
  rw [atmegaFlashRead_eq, List.length_map, List.length_range]

/-- The bytes of the array are those of the file but for the newlines that are the last byte of a
chunk. -/
theorem stored_eq_iff (b : UInt8) (last : Bool) : stored b last = b ↔ ¬ (b = newline ∧ last) := by
  rw [stored]
  split
  · rename_i h
    obtain ⟨rfl, hlast⟩ := h
    simp [hlast, newline]
  · rename_i h
    simp [h]

/-- The buffer has the bytes of the file, but for the last one, when no newline is lost. -/
theorem buffer_eq_dropLast_iff {file : List UInt8} {data : ℕ}
    (hplaced : Placed w flash data file) :
  atmegaFlashRead w flash data (file.length - 1) = file.dropLast ↔ Unsplit file
  := by
  have hget (i : ℕ) (hi : i + 1 < file.length) :
      (atmegaFlashRead w flash data (file.length - 1))[i]? = file.dropLast[i]? ↔
        ¬ (file[i]? = some newline ∧ lastOfChunk file i) := by
    have hlt : i < file.length := by omega
    rw [buffer_opened hplaced i hi, List.getElem?_dropLast, if_pos (by omega),
      List.getElem?_eq_getElem hlt, List.getD_eq_getElem?_getD, List.getElem?_eq_getElem hlt,
      Option.getD_some, Option.some_inj, Option.some_inj, stored_eq_iff]
  constructor
  · intro heq i hi hchunk hnewline
    apply (hget i hi).mp (by rw [heq])
    exact ⟨hnewline, decide_eq_true (.inl hchunk)⟩
  · intro hunsplit
    apply List.ext_getElem?
    intro i
    by_cases hi : i + 1 < file.length
    · rw [hget i hi]
      rintro ⟨hnewline, hlast⟩
      rcases of_decide_eq_true hlast with hchunk | hend
      · exact hunsplit i hi hchunk hnewline
      · omega
    · rw [List.getElem?_eq_none, List.getElem?_eq_none]
      · rw [List.length_dropLast]
        omega
      · rw [atmegaFlashRead_eq, List.length_map, List.length_range]
        omega

/-- A file that is converted, placed in program memory and opened delivers its contents to a
caller who reads to the end exactly when its last byte is a newline, no other newline is the last
byte of a chunk, and the results tell the caller what is delivered. -/
theorem delivers_iff_unsplit {file : List UInt8} {data : ℕ} {fd : ℤ}
    (hplaced : Placed w flash data file) (hfd : 0 ≤ fd) {rs : List RomfsFile.Request}
    (hend : (contents file).length ≤ RomfsFile.asked rs) :
  ((opened w flash file data fd).2 = -EOK ∧
      (opened w flash file data fd).1.Delivers w rs (contents file)) ↔
    file.getLast? = some newline ∧ Unsplit file ∧ RomfsFile.Plain w (contents file) 0 rs
  := by
  by_cases hfile : file = []
  · -- the length of an empty file wraps around
    subst hfile
    have hlength : (RomfsFile.romfsSetupFile w (romfsEntry w [] data)).length = w.size - 1 := by
      have := w.le_size
      change (0 % w.size + w.size - 1) % w.size = w.size - 1
      rw [Nat.zero_mod, Nat.zero_add, Nat.mod_eq_of_lt (by omega)]
    constructor
    · rintro ⟨-, hsame, -⟩
      have hle := w.le_size
      rw [opened, romfsOpen_setup hfd] at hsame
      change (RomfsFile.romfsSetupFile w (romfsEntry w [] data)).length = 0 at hsame
      omega
    · rintro ⟨hlast, -⟩
      cases hlast
  · have hpos := List.length_pos_of_ne_nil hfile
    have hspace := hplaced.space
    rw [dofile_length] at hspace
    have hlength := length_opened hplaced hfile
    have hbuff : (atmegaFlashRead w flash data (file.length - 1)).length = file.length - 1 := by
      rw [atmegaFlashRead_eq, List.length_map, List.length_range]
    have hat : (opened w flash file data fd).1.At
        (atmegaFlashRead w flash data (file.length - 1)) 0 := by
      rw [← hlength]
      exact at_romfsOpen hfd
    have hopened : (opened w flash file data fd).2 = -EOK := by
      rw [opened, romfsOpen_setup hfd]
    rw [hat.delivers_iff (by omega) hend, contents]
    constructor
    · rintro ⟨-, hsame, hplain⟩
      split at hsame
      · rename_i hlast
        rw [if_pos hlast] at hplain ⊢
        exact ⟨hlast, (buffer_eq_dropLast_iff hplaced).mp hsame, hplain⟩
      · rw [hsame] at hbuff
        omega
    · rintro ⟨hlast, hunsplit, hplain⟩
      rw [if_pos hlast] at hplain ⊢
      exact ⟨hopened, (buffer_eq_dropLast_iff hplaced).mpr hunsplit, hplain⟩

/-- The array of a file is placed at an address of program memory. -/
theorem placed_flash {file : List UInt8} {data : ℕ} (hspace : data + file.length ≤ w.size) :
  Placed w (fun a => ((dofile file).1.map Literal.value).getD (a - data) 0) data file
  := by
  constructor
  · rwa [dofile_length]
  · intro i l hl
    simp [hl]

/-- The file `a` with a newline, read by a character and a read of five bytes. -/
theorem delivers_iff_unsplit_short :
  ((opened SizeT.avr (fun a => ((dofile [97, 10]).1.map Literal.value).getD (a - 100) 0) [97, 10]
        100 3).2 = -EOK ∧
      (opened SizeT.avr (fun a => ((dofile [97, 10]).1.map Literal.value).getD (a - 100) 0) [97, 10]
        100 3).1.Delivers SizeT.avr [.getc, .read 5] (contents [97, 10])) ↔
    [97, 10].getLast? = some newline ∧ Unsplit [97, 10] ∧
      RomfsFile.Plain SizeT.avr (contents [97, 10]) 0 [.getc, .read 5]
  := by
  apply delivers_iff_unsplit
  · apply placed_flash
    decide
  · decide
  · decide

/-- The file `a` without a newline, which loses its only byte. -/
theorem not_delivers_unterminated :
  Placed SizeT.avr (fun a => ((dofile [97]).1.map Literal.value).getD (a - 100) 0) 100 [97] ∧
    ¬ ((opened SizeT.avr (fun a => ((dofile [97]).1.map Literal.value).getD (a - 100) 0) [97]
        100 3).2 = -EOK ∧
      (opened SizeT.avr (fun a => ((dofile [97]).1.map Literal.value).getD (a - 100) 0) [97]
        100 3).1.Delivers SizeT.avr [.read 5] (contents [97]))
  := by
  have hplaced : Placed SizeT.avr (fun a => ((dofile [97]).1.map Literal.value).getD (a - 100) 0)
      100 [97] := by
    apply placed_flash
    decide
  refine ⟨hplaced, ?_⟩
  rintro ⟨-, hlength, -⟩
  have hshort := length_opened hplaced (by simp)
  rw [opened, romfsOpen_setup (by decide)] at hlength
  dsimp only at hlength
  rw [hshort] at hlength
  revert hlength
  decide

end Etaos.Fs
