import Etaos.Fs.Ramfs

/-!
# Files as sequences of bytes

What a file in memory is for: a sequence of bytes with an offset, at which the next byte is
stored or read.  A run of calls on a file in memory does what the same run does on such a
sequence, as long as the index that a call uses is the offset, what is stored stays within the
buffer that the file was made with, and what is read has been stored before.
-/

namespace Etaos.Fs

/-- A sequence of bytes with an offset. -/
structure ByteFile where
  data : List UInt8
  off : ℕ

/-- The result of a call. -/
inductive Out where
  | unit
  | count (n : ℤ)
  | bytes (cbuff : List UInt8) (n : ℤ)
  | byte (c : UInt8)
  | eof
  deriving DecidableEq

/-- A call on a file. -/
inductive RamfsOp where
  | open (mode : ℕ)
  | close
  | write (cbuff : List UInt8)
  | putc (c : UInt8)
  | read (size : ℕ)
  | getc
  | lseek (offset : ℕ) (whence : Whence)
  deriving DecidableEq

theorem SizeT.size_pos (w : SizeT) : 0 < w.size := by
  have := w.le_size
  omega

namespace ByteFile

/-- The bytes `l` with the bytes `cbuff` stored at `off`, behind zeros where there were none. -/
def store (l cbuff : List UInt8) (off : ℕ) : List UInt8 :=
  if cbuff = [] then
    l
  else
    l.take off ++ List.replicate (off - l.length) 0 ++ cbuff ++ l.drop (off + cbuff.length)

/-- A call on a sequence of bytes.  An open that does not append goes back to the start. -/
def call (w : SizeT) (s : ByteFile) : RamfsOp → ByteFile × Out
  | .open mode =>
      (if mode.testBit STREAM_APPEND_FLAG then s else { s with off := 0 }, .unit)
  | .close => (s, .unit)
  | .write cbuff =>
      ({ data := store s.data cbuff s.off, off := s.off + cbuff.length }, .count cbuff.length)
  | .putc c => ({ data := store s.data [c] s.off, off := s.off + 1 }, .byte c)
  | .read size =>
      let cbuff := (s.data.drop s.off).take size
      ({ s with off := s.off + cbuff.length }, .bytes cbuff cbuff.length)
  | .getc =>
      match s.data[s.off]? with
      | some c => ({ s with off := s.off + 1 }, .byte c)
      | none => (s, .eof)
  | .lseek offset whence =>
      let off := match whence with
        | .SEEK_SET => offset % w.size
        | .SEEK_CUR => (s.off + offset) % w.size
        | .SEEK_END => (offset + s.data.length) % w.size
      ({ s with off }, .count off)

end ByteFile

namespace RamfsFile

/-- A call on a file in memory.  New memory has the size of heap node that `node` gives. -/
def call (w : SizeT) (node : ℕ → ℕ) (file : RamfsFile) : RamfsOp → Option (RamfsFile × Out)
  | .open mode => (file.vfsOpen mode).map (·, .unit)
  | .close => some (file.vfsClose, .unit)
  | .write cbuff => (file.ramfsWrite w cbuff (node file.wrIdx)).map fun (file, n) => (file, .count n)
  | .putc c => (file.ramfsPutc w c (node file.wrIdx)).map fun (file, c) => (file, .byte c)
  | .read size => (file.ramfsRead w size).map fun (file, cbuff, n) => (file, .bytes cbuff n)
  | .getc => file.ramfsGetc.map fun (file, c) => (file, .byte c)
  | .lseek offset whence =>
      let (file, n) := file.ramfsLseek w (offset % w.size) whence
      some (file, .count n)

end RamfsFile

/-- A file in memory beside the sequence of bytes it stands for, with the results of the
calls. -/
structure RamfsSystem where
  file : RamfsFile
  spec : ByteFile
  outs : List Out
  specOuts : List Out

namespace RamfsSystem

variable {w : SizeT} {node : ℕ → ℕ} {s : RamfsSystem}

/-- A step of both. -/
def step (w : SizeT) (node : ℕ → ℕ) (s : RamfsSystem) (op : RamfsOp) : Option RamfsSystem :=
  (s.file.call w node op).map fun (file, out) =>
    let (spec, specOut) := s.spec.call w op
    { file, spec, outs := s.outs ++ [out], specOuts := s.specOuts ++ [specOut] }

/-- The file after its creation: nothing has been stored in it. -/
def init (n : ℕ) : RamfsSystem where
  file := RamfsFile.ramfsCreate n
  spec := { data := [], off := 0 }
  outs := []
  specOuts := []

/-- The bytes `l` in a buffer of a new file. -/
def pad (l : List UInt8) : List UInt8 :=
  l ++ List.replicate (RAMFS_BUFFER_SIZE - l.length) 0

/-- The buffer of the file has the bytes of the sequence, and all calls had the same results. -/
structure Refines (s : RamfsSystem) : Prop where
  data : s.file.buff.bytes = pad s.spec.data
  outs : s.outs = s.specOuts

/-- The condition on a call.  A file is opened when it is closed, and used when it is open.  The
index that the call uses is the offset, what is stored ends before the last byte of the buffer
that the file was made with, and what is read has been stored.  A seek from the end of the file
starts at the end of the buffer, which what is stored does not reach. -/
def Ok (s : RamfsSystem) : RamfsOp → Prop
  | .open _ => s.file.lock = false
  | .close => s.file.lock = true
  | .write cbuff =>
      s.file.lock = true ∧ (cbuff = [] ∨ s.file.wrIdx = s.spec.off) ∧
        s.file.wrIdx + cbuff.length < s.file.length
  | .putc _ =>
      s.file.lock = true ∧ s.file.wrIdx = s.spec.off ∧ s.file.wrIdx + 1 < s.file.length
  | .read size =>
      s.file.lock = true ∧ (size = 0 ∨
        s.file.rdIdx = s.spec.off ∧ s.file.rdIdx + size ≤ s.spec.data.length)
  | .getc => s.file.lock = true ∧ s.file.rdIdx = s.spec.off ∧ s.file.rdIdx < s.spec.data.length
  | .lseek _ whence =>
      s.file.lock = true ∧ (whence = .SEEK_CUR → s.file.index = s.spec.off) ∧ whence ≠ .SEEK_END

instance (s : RamfsSystem) : (op : RamfsOp) → Decidable (Ok s op)
  | .open _ => inferInstanceAs (Decidable (_ = _))
  | .close => inferInstanceAs (Decidable (_ = _))
  | .write _ => inferInstanceAs (Decidable (_ ∧ _ ∧ _))
  | .putc _ => inferInstanceAs (Decidable (_ ∧ _ ∧ _))
  | .read _ => inferInstanceAs (Decidable (_ ∧ _))
  | .getc => inferInstanceAs (Decidable (_ ∧ _ ∧ _))
  | .lseek _ _ => inferInstanceAs (Decidable (_ ∧ (_ → _) ∧ _))

/-! ### Bytes -/

@[simp]
theorem store_nil (l : List UInt8) (off : ℕ) : ByteFile.store l [] off = l := rfl

/-- Bytes that are stored in the sequence replace others. -/
theorem store_eq {l cbuff : List UInt8} {off : ℕ} (h : off ≤ l.length) :
  ByteFile.store l cbuff off = l.take off ++ cbuff ++ l.drop (off + cbuff.length)
  := by
  rw [ByteFile.store, Nat.sub_eq_zero_of_le h]
  split
  · rename_i hnil
    subst hnil
    simp
  · simp

/-- The first byte is stored, and then the others behind it. -/
theorem store_cons {l : List UInt8} {c : UInt8} {cbuff : List UInt8} {off : ℕ}
    (h : off < l.length) :
  ByteFile.store l (c :: cbuff) off = ByteFile.store (l.set off c) cbuff (off + 1)
  := by
  obtain ⟨a, d, b, rfl, rfl⟩ : ∃ a d b, l = a ++ d :: b ∧ a.length = off :=
    ⟨l.take off, l[off], l.drop (off + 1), by simp, by simp [h.le]⟩
  have hdrop : (a ++ c :: b).drop (a.length + 1 + cbuff.length) = b.drop cbuff.length := by
    rw [Nat.add_assoc, List.drop_length_add_append, Nat.add_comm, List.drop_succ_cons]
  have hdrop' : (a ++ d :: b).drop (a.length + (cbuff.length + 1)) = b.drop cbuff.length := by
    rw [List.drop_length_add_append, List.drop_succ_cons]
  have htake : (a ++ c :: b).take (a.length + 1) = a ++ [c] := by
    rw [List.take_length_add_append]
    rfl
  have hset : (a ++ d :: b).set a.length c = a ++ c :: b := by
    rw [List.set_append_right _ _ le_rfl, Nat.sub_self, List.set_cons_zero]
  rw [store_eq h.le, hset, store_eq (by simp), List.length_cons, hdrop, hdrop', htake,
    List.take_left]
  simp

/-- What is stored within a buffer leaves the sequence within it. -/
theorem length_store_le {l cbuff : List UInt8} {off n : ℕ} (hl : l.length ≤ n)
    (hoff : off + cbuff.length ≤ n) :
  (ByteFile.store l cbuff off).length ≤ n
  := by
  rw [ByteFile.store]
  split
  · exact hl
  · simp only [List.length_append, List.length_take, List.length_replicate, List.length_drop]
    omega

/-- The buffer of a new file has its size whatever is stored in it. -/
theorem length_pad {l : List UInt8} (h : l.length ≤ RAMFS_BUFFER_SIZE) :
  (pad l).length = RAMFS_BUFFER_SIZE
  := by
  rw [pad, List.length_append, List.length_replicate]
  omega

/-- Storing bytes in the buffer stores them in the sequence: behind what was stored there are
zeros. -/
theorem store_pad {l cbuff : List UInt8} {off : ℕ} (hl : l.length ≤ RAMFS_BUFFER_SIZE)
    (hoff : off + cbuff.length ≤ RAMFS_BUFFER_SIZE) :
  ByteFile.store (pad l) cbuff off = pad (ByteFile.store l cbuff off)
  := by
  have hle : off ≤ (pad l).length := by
    rw [length_pad hl]
    omega
  rw [store_eq hle, ByteFile.store]
  split
  · rename_i hnil
    subst hnil
    simp
  · have hgap : min (off - l.length) (RAMFS_BUFFER_SIZE - l.length) = off - l.length := by omega
    have hrest : RAMFS_BUFFER_SIZE - (l.take off ++ List.replicate (off - l.length) 0 ++ cbuff ++
        l.drop (off + cbuff.length)).length
          = RAMFS_BUFFER_SIZE - l.length - (off + cbuff.length - l.length) := by
      simp only [List.length_append, List.length_take, List.length_replicate, List.length_drop]
      omega
    rw [pad, pad, List.take_append, List.drop_append, List.take_replicate, List.drop_replicate,
      hgap, hrest]
    simp

/-- What has been stored is read from the buffer. -/
theorem take_drop_pad {l : List UInt8} {off n : ℕ} (h : off + n ≤ l.length) :
  ((pad l).drop off).take n = (l.drop off).take n
  := by
  rw [pad, List.drop_append_of_le_length (by omega), List.take_append_of_le_length]
  rw [List.length_drop]
  omega

/-! ### The functions of a file -/

variable {file : RamfsFile}

/-- Nothing is allocated for what ends before the last byte. -/
theorem ramfsExpand_eq {required n : ℕ} (hlength : file.length ≤ w.size)
    (h : file.wrIdx + required < file.length) :
  file.ramfsExpand w required n = some file
  := by
  rw [RamfsFile.ramfsExpand, Nat.mod_eq_of_lt (by omega), if_neg (by omega)]

/-- The loop of a write that ends within the buffer. -/
theorem writeLoop_eq :
    ∀ (cbuff : List UInt8) (file : RamfsFile), file.wrIdx + cbuff.length ≤ file.length →
      file.length ≤ file.buff.bytes.length →
      RamfsFile.writeLoop cbuff file = some { file with
        buff := { file.buff with bytes := ByteFile.store file.buff.bytes cbuff file.wrIdx }
        wrIdx := file.wrIdx + cbuff.length }
  | [], file, _, _ => by
      rw [RamfsFile.writeLoop]
      rfl
  | c :: cbuff, file, h, hlength => by
      rw [List.length_cons] at h
      rw [RamfsFile.writeLoop, if_pos (by omega), if_pos (by omega), writeLoop_eq cbuff]
      · rw [store_cons (by omega), List.length_cons, Nat.add_assoc, Nat.add_comm 1]
      · dsimp only
        omega
      · simpa using hlength

/-- The loop of a read that ends within the buffer. -/
theorem readLoop_eq :
    ∀ (n : ℕ) (file : RamfsFile), file.rdIdx + n ≤ file.length →
      file.length ≤ file.buff.bytes.length →
      file.readLoop n = some ({ file with rdIdx := file.rdIdx + n },
        (file.buff.bytes.drop file.rdIdx).take n)
  | 0, file, _, _ => by simp [RamfsFile.readLoop]
  | n + 1, file, h, hlength => by
      have hlt : file.rdIdx < file.buff.bytes.length := by omega
      rw [RamfsFile.readLoop, if_pos (by omega), List.getElem?_eq_getElem hlt]
      have hrest := readLoop_eq n { file with rdIdx := file.rdIdx + 1 }
        (by dsimp only; omega) hlength
      rw [Option.bind_eq_bind, Option.bind_some, hrest, List.drop_eq_getElem_cons hlt,
        List.take_succ_cons, Nat.add_comm n, ← Nat.add_assoc]
      rfl

/-! ### Runs -/

/-- A file has the bytes of its sequence, in the buffer that it was made with. -/
structure Inv (w : SizeT) (s : RamfsSystem) : Prop extends s.Refines where
  length : s.file.length = RAMFS_BUFFER_SIZE
  size : s.spec.data.length ≤ RAMFS_BUFFER_SIZE
  index_lt : s.file.index < w.size

/-- The invariant holds of a new file. -/
theorem inv_init (w : SizeT) (n : ℕ) : (init n).Inv w where
  data := rfl
  outs := rfl
  length := rfl
  size := Nat.zero_le _
  index_lt := by
    have := w.le_size
    simp only [init, RamfsFile.ramfsCreate]
    omega

/-- A step is a call on both. -/
theorem step_eq {op : RamfsOp} {file : RamfsFile} {out : Out}
    (hcall : s.file.call w node op = some (file, out)) :
  s.step w node op = some
    { file, spec := (s.spec.call w op).1, outs := s.outs ++ [out]
      specOuts := s.specOuts ++ [(s.spec.call w op).2] }
  := by
  rw [step, hcall]
  rfl

/-- A call that has the result of the sequence, and leaves its bytes in the file. -/
theorem Inv.call (h : s.Inv w) {op : RamfsOp} {file : RamfsFile}
    (hcall : s.file.call w node op = some (file, (s.spec.call w op).2))
    (hdata : file.buff.bytes = pad (s.spec.call w op).1.data)
    (hlength : file.length = s.file.length)
    (hsize : (s.spec.call w op).1.data.length ≤ RAMFS_BUFFER_SIZE)
    (hindex : file.index < w.size) :
  ∃ t, s.step w node op = some t ∧ t.Inv w
  := by
  refine ⟨_, step_eq hcall, ⟨hdata, ?_⟩, hlength.trans h.length, hsize, hindex⟩
  rw [h.outs]

theorem Inv.length_le (h : s.Inv w) : s.file.length ≤ w.size := by
  have := w.le_size
  rw [h.length, RAMFS_BUFFER_SIZE]
  omega

theorem Inv.length_bytes (h : s.Inv w) : s.file.length = s.file.buff.bytes.length := by
  rw [h.data, length_pad h.size, h.length]

/-- The buffer is short, so that a count of its bytes is an `int`. -/
theorem Inv.lt_of_lt_length (h : s.Inv w) {i n : ℕ} (hlt : i + n < s.file.length) : n < 2 ^ 15 := by
  rw [h.length, RAMFS_BUFFER_SIZE] at hlt
  omega

/-- A write stores its bytes at the offset. -/
theorem Inv.write (h : s.Inv w) {cbuff : List UInt8} (hok : s.Ok (.write cbuff)) :
  ∃ t, s.step w node (.write cbuff) = some t ∧ t.Inv w
  := by
  obtain ⟨-, hidx, hlt⟩ := hok
  have hloop := writeLoop_eq cbuff s.file hlt.le h.length_bytes.le
  obtain ⟨file, hwrite, hdata, hlength, hindex⟩ : ∃ file,
      s.file.ramfsWrite w cbuff (node s.file.wrIdx) = some (file, (cbuff.length : ℤ)) ∧
      file.buff.bytes = ByteFile.store s.file.buff.bytes cbuff s.file.wrIdx ∧
      file.length = s.file.length ∧ file.index < w.size := by
    rw [RamfsFile.ramfsWrite, ramfsExpand_eq h.length_le hlt, Option.bind_eq_bind,
      Option.bind_some, hloop, Option.bind_some, w.toInt_eq (h.lt_of_lt_length hlt)]
    exact ⟨_, rfl, rfl, rfl, Nat.mod_lt _ w.size_pos⟩
  rw [h.length] at hlt
  have hstore : ByteFile.store s.file.buff.bytes cbuff s.file.wrIdx
      = pad (ByteFile.store s.spec.data cbuff s.spec.off) := by
    rcases hidx with rfl | hidx
    · rw [store_nil, store_nil, h.data]
    · rw [hidx] at hlt
      rw [hidx, h.data, store_pad h.size hlt.le]
  have hsize : (ByteFile.store s.spec.data cbuff s.spec.off).length ≤ RAMFS_BUFFER_SIZE := by
    rcases hidx with rfl | hidx
    · apply h.size
    · rw [hidx] at hlt
      apply length_store_le h.size hlt.le
  have hcall : s.file.call w node (.write cbuff) = some (file, .count cbuff.length) := by
    rw [RamfsFile.call, hwrite]
    rfl
  exact h.call hcall (hdata.trans hstore) hlength hsize hindex

/-- A character is stored at the offset. -/
theorem Inv.putc (h : s.Inv w) {c : UInt8} (hok : s.Ok (.putc c)) :
  ∃ t, s.step w node (.putc c) = some t ∧ t.Inv w
  := by
  obtain ⟨-, hidx, hlt⟩ := hok
  have hbytes := h.length_bytes
  have hle : s.spec.off + [c].length ≤ RAMFS_BUFFER_SIZE := by
    rw [← hidx, ← h.length]
    exact hlt.le
  have hset : s.file.buff.bytes.set s.file.wrIdx c
      = pad (ByteFile.store s.spec.data [c] s.spec.off) := by
    rw [← store_pad h.size hle, ← hidx, ← h.data, store_cons (by omega), store_nil]
  obtain ⟨file, hputc, hdata, hlength, hindex⟩ : ∃ file,
      s.file.ramfsPutc w c (node s.file.wrIdx) = some (file, c) ∧
      file.buff.bytes = s.file.buff.bytes.set s.file.wrIdx c ∧
      file.length = s.file.length ∧ file.index < w.size := by
    rw [RamfsFile.ramfsPutc, ramfsExpand_eq h.length_le hlt, Option.bind_eq_bind,
      Option.bind_some, if_pos (by omega)]
    exact ⟨_, rfl, rfl, rfl, Nat.mod_lt _ w.size_pos⟩
  have hsize := length_store_le h.size hle
  have hcall : s.file.call w node (.putc c) = some (file, .byte c) := by
    rw [RamfsFile.call, hputc]
    rfl
  exact h.call hcall (hdata.trans hset) hlength hsize hindex

/-- A read returns the bytes from the offset on. -/
theorem Inv.read (h : s.Inv w) {size : ℕ} (hok : s.Ok (.read size)) :
  ∃ t, s.step w node (.read size) = some t ∧ t.Inv w
  := by
  obtain ⟨-, hidx⟩ := hok
  obtain ⟨file, hread, hfile⟩ : ∃ file, s.file.ramfsRead w size
      = some (file, (s.spec.data.drop s.spec.off).take size, (size : ℤ)) ∧
        file.buff = s.file.buff ∧ file.length = s.file.length ∧ file.index = s.file.index := by
    rcases hidx with rfl | ⟨hidx, hle⟩
    · refine ⟨s.file, ?_, rfl, rfl, rfl⟩
      rw [RamfsFile.ramfsRead, w.toInt_eq (by decide)]
      rfl
    · have hbuff : s.file.rdIdx + size ≤ s.file.length := by
        have := h.size
        rw [h.length]
        omega
      refine ⟨{ s.file with rdIdx := s.file.rdIdx + size }, ?_, rfl, rfl, rfl⟩
      rw [RamfsFile.ramfsRead, readLoop_eq size s.file hbuff h.length_bytes.le, h.data,
        take_drop_pad hle, hidx, w.toInt_eq]
      · rfl
      · have := h.size
        rw [RAMFS_BUFFER_SIZE] at this
        omega
  have hcount : ((s.spec.data.drop s.spec.off).take size).length = size := by
    rw [List.length_take, List.length_drop]
    omega
  obtain ⟨hbuff, hlength, hindex⟩ := hfile
  have hcall : s.file.call w node (.read size)
      = some (file, (s.spec.call w (.read size)).2) := by
    rw [RamfsFile.call, hread, ByteFile.call]
    simp only [Option.map_some, hcount]
  refine h.call hcall ?_ hlength h.size ?_
  · rw [hbuff]
    exact h.data
  · rw [hindex]
    exact h.index_lt

/-- A character is read at the offset. -/
theorem Inv.getc (h : s.Inv w) (hok : s.Ok .getc) :
  ∃ t, s.step w node .getc = some t ∧ t.Inv w
  := by
  obtain ⟨-, hidx, hlt⟩ := hok
  obtain ⟨c, hc⟩ : ∃ c, s.spec.data[s.file.rdIdx]? = some c :=
    ⟨_, List.getElem?_eq_getElem hlt⟩
  have hbyte : s.file.buff.bytes[s.file.rdIdx]? = some c := by
    rw [h.data, pad, List.getElem?_append_left hlt, hc]
  have hspec : s.spec.call w .getc = ({ s.spec with off := s.spec.off + 1 }, .byte c) := by
    rw [ByteFile.call, ← hidx, hc]
  have hcall : s.file.call w node .getc = some
      ({ s.file with rdIdx := s.file.rdIdx + 1 }, (s.spec.call w .getc).2) := by
    rw [RamfsFile.call, RamfsFile.ramfsGetc, hbyte, hspec]
    rfl
  refine h.call hcall ?_ rfl ?_ h.index_lt
  · rw [hspec]
    exact h.data
  · rw [hspec]
    exact h.size

/-- The index is set to a position, and nothing else but the other indices changes. -/
theorem ramfsSetindex_spec (file : RamfsFile) {index : ℕ} :
  ∃ file', file.ramfsSetindex w index 0 = (file', index) ∧ file'.buff = file.buff ∧
    file'.length = file.length ∧ file'.index = index
  := by
  rw [RamfsFile.ramfsSetindex, if_neg (by simp)]
  split
  · exact ⟨_, rfl, rfl, rfl, rfl⟩
  · rename_i heq
    exact ⟨file, rfl, rfl, rfl, (not_not.mp heq).symm⟩

/-- A seek goes to the position that was asked for. -/
theorem Inv.lseek (h : s.Inv w) {offset : ℕ} {whence : Whence}
    (hok : s.Ok (.lseek offset whence)) :
  ∃ t, s.step w node (.lseek offset whence) = some t ∧ t.Inv w
  := by
  obtain ⟨-, hidx, hend⟩ := hok
  obtain ⟨file, hseek, hbuff, hlength, hindex⟩ : ∃ file,
      s.file.ramfsLseek w (offset % w.size) whence
        = (file, (s.spec.call w (.lseek offset whence)).1.off) ∧
      file.buff = s.file.buff ∧ file.length = s.file.length ∧ file.index < w.size := by
    have hset (index : ℕ) (hlt : index < w.size) : ∃ file,
        s.file.ramfsSetindex w index 0 = (file, index) ∧
        file.buff = s.file.buff ∧ file.length = s.file.length ∧ file.index < w.size := by
      obtain ⟨file, hseek, hbuff, hlength, hindex⟩ := ramfsSetindex_spec (w := w) s.file
      exact ⟨file, hseek, hbuff, hlength, by rwa [hindex]⟩
    cases whence with
    | SEEK_SET => exact hset _ (Nat.mod_lt _ w.size_pos)
    | SEEK_END => exact absurd rfl hend
    | SEEK_CUR =>
        have hcur : (s.file.index + offset % w.size) % w.size
            = (s.spec.off + offset) % w.size := by
          rw [hidx rfl, Nat.add_mod_mod]
        rw [RamfsFile.ramfsLseek]
        split
        · rename_i hzero
          refine ⟨s.file, ?_, rfl, rfl, h.index_lt⟩
          rw [hzero, Nat.add_zero, Nat.mod_eq_of_lt h.index_lt] at hcur
          rw [hcur]
          rfl
        · rw [hcur]
          exact hset _ (Nat.mod_lt _ w.size_pos)
  have hcall : s.file.call w node (.lseek offset whence)
      = some (file, (s.spec.call w (.lseek offset whence)).2) := by
    rw [RamfsFile.call, hseek]
    rfl
  refine h.call hcall ?_ hlength h.size hindex
  rw [hbuff]
  exact h.data

/-- A call that meets the condition has the result of the sequence. -/
theorem Inv.step (h : s.Inv w) {op : RamfsOp} (hok : s.Ok op) :
  ∃ t, s.step w node op = some t ∧ t.Inv w
  := by
  cases op with
  | «open» mode =>
      have hclosed : s.file.lock = false := hok
      obtain ⟨file, hopen, hbuff, hlength, hindex⟩ : ∃ file, s.file.vfsOpen mode = some file ∧
          file.buff = s.file.buff ∧ file.length = s.file.length ∧ file.index < w.size := by
        rw [RamfsFile.vfsOpen, RamfsFile.ramfsOpen]
        simp only [hclosed, Bool.false_eq_true, if_false]
        split
        · exact ⟨_, rfl, rfl, rfl, h.index_lt⟩
        · exact ⟨_, rfl, rfl, rfl, w.size_pos⟩
      have hcall : s.file.call w node (.open mode) = some (file, .unit) := by
        rw [RamfsFile.call, hopen]
        rfl
      have hdata : (s.spec.call w (.open mode)).1.data = s.spec.data := by
        rw [ByteFile.call]
        split <;> rfl
      refine h.call hcall ?_ hlength ?_ hindex
      · rw [hbuff, hdata]
        exact h.data
      · rw [hdata]
        exact h.size
  | close =>
      have hcall : s.file.call w node .close = some (_, (s.spec.call w .close).2) := rfl
      exact h.call hcall h.data rfl h.size h.index_lt
  | write cbuff => apply h.write hok
  | putc c => apply h.putc hok
  | read size => apply h.read hok
  | getc => apply h.getc hok
  | lseek offset whence => apply h.lseek hok

end RamfsSystem

end Etaos.Fs
