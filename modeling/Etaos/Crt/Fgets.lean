import Etaos.Fs.Romfs
import Etaos.Library.Pieces
import Etaos.Sched.Queue

/-!
# Reading strings

The function `fgets`, over the function `get` of a file that returns the characters of a finite
input and then the number `-EOF`.

At the end of the file `fgets` returns `NULL`, also when it has read characters before.  The
characters of a last line that do not fill the buffer are lost.
-/

set_option linter.style.nameCheck false

namespace Etaos.Crt

open Fs Pieces

/-- The constant `STREAM_READ_FLAG`. -/
def STREAM_READ_FLAG : ℕ := 0

/-- A character as the functions `get` return it, with or without a sign, that is not `-EOF`. -/
structure InChar where
  code : ℤ
  low : -128 ≤ code
  high : code < 256
  ne_eof : code ≠ -EOF

/-- A file to read from. -/
structure Stream where
  flags : ℕ
  /-- Whether the field `get` is set. -/
  get : Bool
  /-- The characters that `get` returns before the end of the file. -/
  input : List InChar

/-- The function `fgetc`. -/
def Stream.fgetc (stream : Stream) : ℤ × Stream :=
  if stream.flags.testBit STREAM_READ_FLAG && stream.get then
    match stream.input with
    | [] => (-EOF, stream)
    | c :: input => (c.code, { stream with input })
  else
    (-EINVAL, stream)

/-- What a call of `fgets` leaves: the pointer it returns, the memory, and the file. -/
structure Fgets where
  ret : Option ℕ
  mem : ℕ → UInt8
  stream : Stream

/-- The loop of `fgets` in at most `num` turns, and the end of the function. -/
def fgetsLoop (buf : ℕ) : ℕ → ℕ → (ℕ → UInt8) → Stream → Fgets
  | 0, buffer, mem, stream => { ret := some buf, mem := Function.update mem buffer 0, stream }
  | num + 1, buffer, mem, stream =>
      let (c, stream) := stream.fgetc
      let c := if c = 13 then 10 else c
      if c = -EOF then
        { ret := none, mem := Function.update mem buffer 0, stream }
      else
        let mem := Function.update mem buffer (UInt8.ofInt c)
        if c = 10 then
          { ret := some buf, mem := Function.update mem (buffer + 1) 0, stream }
        else
          fgetsLoop buf num (buffer + 1) mem stream

/-- The function `fgets`. -/
def fgets (buf : Option ℕ) (num : ℤ) (mem : ℕ → UInt8) (stream : Stream) : Fgets :=
  match buf with
  | none => { ret := none, mem, stream }
  | some buf => fgetsLoop buf (num - 1).toNat buf mem stream

/-- The calls of `fgets` until it returns `NULL`, but for the last one, when there are less than
`k` of them. -/
def readAll (buf : ℕ) (num : ℤ) : ℕ → (ℕ → UInt8) → Stream → Option (List Fgets)
  | 0, _, _ => none
  | k + 1, mem, stream =>
      let call := fgets (some buf) num mem stream
      match call.ret with
      | none => some []
      | some _ => (readAll buf num k call.mem call.stream).map (call :: ·)

/-! ### What the calls promise -/

/-- The characters in the memory from an address on. -/
def charsAt (mem : ℕ → UInt8) (s n : ℕ) : List UInt8 :=
  (List.range n).map fun i => mem (s + i)

/-- The string at an address, in a buffer of `num` bytes. -/
def stringAt (mem : ℕ → UInt8) (s num : ℕ) : List UInt8 :=
  (charsAt mem s num).takeWhile (· ≠ 0)

/-- The byte that a character is stored as: a carriage return is read as a newline. -/
def InChar.byte (c : InChar) : UInt8 :=
  if c.code = 13 then 10 else UInt8.ofInt c.code

/-- The characters of the input. -/
def Stream.text (stream : Stream) : List UInt8 :=
  stream.input.map InChar.byte

/-- A call has left a string within its buffer, which ends at the first newline, or at the end of
the input, or when `num - 1` characters were read. -/
structure Fgets.Ends (call : Fgets) (buf num : ℕ) : Prop where
  terminated : ∃ i < num, call.mem (buf + i) = 0
  inner : ∀ c ∈ (stringAt call.mem buf num).dropLast, c ≠ newline
  last : (stringAt call.mem buf num).getLast? = some newline ∨ call.stream.input = [] ∨
    (stringAt call.mem buf num).length = num - 1

/-- The strings that the calls return, one behind the other, are the input. -/
def Lossless (buf num : ℕ) (mem : ℕ → UInt8) (stream : Stream) : Prop :=
  ∃ k calls, readAll buf num k mem stream = some calls ∧
    (calls.flatMap fun call => stringAt call.mem buf num) = stream.text ∧
    ∀ call ∈ calls, call.Ends buf num

/-- The characters behind the last newline. -/
def lastLine (text : List UInt8) : List UInt8 :=
  lastPart (· = newline) text

/-- A file can be read. -/
structure Stream.Readable (stream : Stream) : Prop where
  flag : stream.flags.testBit STREAM_READ_FLAG = true
  get : stream.get = true

/-! ### A call -/

variable {stream : Stream} {mem : ℕ → UInt8} {buf num : ℕ}

@[simp]
theorem charsAt_zero (mem : ℕ → UInt8) (s : ℕ) : charsAt mem s 0 = [] := rfl

theorem charsAt_add (mem : ℕ → UInt8) (s m n : ℕ) :
  charsAt mem s (m + n) = charsAt mem s m ++ charsAt mem (s + m) n
  := by
  simp only [charsAt, List.range_add, List.map_append, List.map_map]
  congr 1
  apply List.map_congr_left
  intro i _
  rw [Function.comp_apply, Nat.add_assoc]

theorem charsAt_succ (mem : ℕ → UInt8) (s n : ℕ) :
  charsAt mem s (n + 1) = mem s :: charsAt mem (s + 1) n
  := by
  rw [Nat.add_comm, charsAt_add]
  rfl

/-- A string ends at the first `NUL`. -/
theorem stringAt_eq (num : ℕ) {a : List UInt8} (ha : charsAt mem buf a.length = a)
    (hnul : mem (buf + a.length) = 0) (hlength : a.length < num) :
  stringAt mem buf num = a.takeWhile (· ≠ 0)
  := by
  obtain ⟨n, rfl⟩ := Nat.exists_eq_add_of_lt hlength
  rw [stringAt, Nat.add_assoc, charsAt_add, ha, charsAt_succ, hnul, List.takeWhile_append]
  split
  · rename_i hall
    rw [List.takeWhile_cons_of_neg (by simp), List.append_nil]
    exact ((List.takeWhile_prefix _).eq_of_length hall).symm
  · rfl

/-- The character that `fgets` goes on with. -/
def InChar.read (c : InChar) : ℤ :=
  if c.code = 13 then 10 else c.code

namespace InChar

variable (c : InChar)

theorem read_ne_eof : c.read ≠ -EOF := by
  rw [read]
  split
  · decide
  · exact c.ne_eof

theorem ofInt_read : UInt8.ofInt c.read = c.byte := by
  rw [read, byte]
  split <;> rfl

theorem read_eq_iff : c.read = 10 ↔ c.byte = newline := by
  have hlow := c.low
  have hhigh := c.high
  have hrange : -128 ≤ c.read ∧ c.read < 256 := by
    rw [read]
    split <;> omega
  have hnewline : newline.toNat = 10 := rfl
  rw [← ofInt_read, ← UInt8.toNat_inj, UInt8.ofInt, UInt8.toNat_ofNat', hnewline]
  omega

end InChar

/-- The file after a character is read. -/
theorem Stream.Readable.fgetc_cons (h : stream.Readable) {c : InChar} {input : List InChar}
    (hinput : stream.input = c :: input) :
  stream.fgetc = (c.code, { stream with input })
  := by
  simp [Stream.fgetc, h.flag, h.get, hinput]

theorem Stream.Readable.fgetc_nil (h : stream.Readable) (hinput : stream.input = []) :
  stream.fgetc = (-EOF, stream)
  := by
  simp [Stream.fgetc, h.flag, h.get, hinput]

/-- A call has read the characters `a`, stored them from an address on with a `NUL` behind, and
left the characters `b`. -/
structure Fgets.Reads (call : Fgets) (buf buffer : ℕ) (mem : ℕ → UInt8) (a b : List UInt8) :
    Prop where
  ret : call.ret = some buf
  readable : call.stream.Readable
  text : call.stream.text = b
  chars : charsAt call.mem buffer a.length = a
  nul : call.mem (buffer + a.length) = 0
  frame : ∀ i < buffer, call.mem i = mem i

/-- The first character is stored in front of those that are read behind it. -/
theorem Fgets.Reads.cons {call : Fgets} {buffer : ℕ} {c : UInt8} {a b : List UInt8}
    (h : call.Reads buf (buffer + 1) (Function.update mem buffer c) a b) :
  call.Reads buf buffer mem (c :: a) b
  := by
  have hc : call.mem buffer = c := by
    rw [h.frame buffer (Nat.lt_succ_self buffer), Function.update_self]
  constructor
  case ret => exact h.ret
  case readable => exact h.readable
  case text => exact h.text
  case chars => rw [List.length_cons, charsAt_succ, hc, h.chars]
  case nul =>
    rw [List.length_cons, Nat.add_comm a.length, ← Nat.add_assoc]
    exact h.nul
  case frame =>
    intro i hi
    rw [h.frame i (Nat.lt_succ_of_lt hi), Function.update_of_ne hi.ne]

/-- The loop reads a piece of the text, or comes to the end of the file. -/
theorem fgetsLoop_eq (buf : ℕ) :
    ∀ (n buffer : ℕ) (mem : ℕ → UInt8) {stream : Stream}, stream.Readable →
      match cut (· = newline) n stream.text with
      | none => (fgetsLoop buf n buffer mem stream).ret = none
      | some (a, b) => (fgetsLoop buf n buffer mem stream).Reads buf buffer mem a b
  | 0, buffer, mem, stream, h => by
      rw [cut]
      constructor
      case ret => rfl
      case readable => exact h
      case text => rfl
      case chars => rfl
      case nul => exact Function.update_self ..
      case frame =>
        intro i hi
        exact Function.update_of_ne hi.ne ..
  | n + 1, buffer, mem, stream, h => by
      rw [fgetsLoop]
      cases hinput : stream.input with
      | nil =>
          rw [h.fgetc_nil hinput]
          simp [Stream.text, hinput, cut, EOF]
      | cons c input =>
          have htext : stream.text = c.byte :: Stream.text { stream with input } := by
            rw [Stream.text, hinput]
            rfl
          have hread : ({ stream with input } : Stream).Readable := ⟨h.flag, h.get⟩
          rw [h.fgetc_cons hinput, htext, cut]
          dsimp only
          rw [← InChar.read, if_neg c.read_ne_eof, c.ofInt_read]
          by_cases hnewline : c.byte = newline
          · rw [if_pos (decide_eq_true hnewline), if_pos (c.read_eq_iff.mpr hnewline)]
            apply Fgets.Reads.cons
            constructor
            case ret => rfl
            case readable => exact hread
            case text => rfl
            case chars => rfl
            case nul => exact Function.update_self ..
            case frame =>
              intro i hi
              exact Function.update_of_ne hi.ne ..
          · rw [if_neg (by simpa using hnewline), if_neg (mt c.read_eq_iff.mp hnewline)]
            have ih := fgetsLoop_eq buf n (buffer + 1) (Function.update mem buffer c.byte) hread
            cases hcut : cut (· = newline) n (Stream.text { stream with input }) with
            | none =>
                rw [hcut] at ih
                exact ih
            | some ab =>
                rw [hcut] at ih
                exact ih.cons

/-- A call leaves a terminated string within its buffer, whatever it has read. -/
theorem fgetsLoop_terminated (buf : ℕ) :
    ∀ (n buffer : ℕ) (mem : ℕ → UInt8) (stream : Stream),
      ∃ i ≤ n, (fgetsLoop buf n buffer mem stream).mem (buffer + i) = 0
  | 0, buffer, mem, stream => ⟨0, le_rfl, Function.update_self ..⟩
  | n + 1, buffer, mem, stream => by
      rw [fgetsLoop]
      obtain ⟨c, stream⟩ := stream.fgetc
      dsimp only
      generalize (if c = 13 then 10 else c) = c
      split
      · exact ⟨0, Nat.zero_le _, Function.update_self ..⟩
      · split
        · exact ⟨1, Nat.succ_le_succ (Nat.zero_le n), Function.update_self ..⟩
        · obtain ⟨i, hi, hnul⟩ := fgetsLoop_terminated buf n (buffer + 1)
            (Function.update mem buffer (UInt8.ofInt c)) stream
          refine ⟨i + 1, Nat.succ_le_succ hi, ?_⟩
          rw [Nat.add_comm i, ← Nat.add_assoc]
          exact hnul

/-! ### All calls -/

theorem readAll_terminated (hnum : 1 ≤ num) :
    ∀ {k : ℕ} {mem : ℕ → UInt8} {stream : Stream} {calls : List Fgets},
      readAll buf num k mem stream = some calls →
      ∀ call ∈ calls, ∃ i < num, call.mem (buf + i) = 0
  | k + 1, mem, stream, calls, h, call, hcall => by
      rw [readAll] at h
      split at h
      · obtain rfl := Option.some.inj h
        cases hcall
      · obtain ⟨rest, hrest, rfl⟩ := Option.map_eq_some_iff.mp h
        rcases List.mem_cons.mp hcall with rfl | hcall
        · obtain ⟨i, hi, hnul⟩ := fgetsLoop_terminated buf ((num : ℤ) - 1).toNat buf mem stream
          exact ⟨i, by omega, hnul⟩
        · exact readAll_terminated hnum hrest call hcall

/-- The strings that the calls return are the pieces of the text, up to their first `NUL`. -/
theorem readAll_eq (buf : ℕ) (hnum : 1 ≤ num) :
    ∀ (k : ℕ) (mem : ℕ → UInt8) {stream : Stream}, stream.Readable →
      (readAll buf num k mem stream).map (List.map fun call => stringAt call.mem buf num)
        = (pieces (· = newline) (num - 1) k stream.text).map
            (List.map fun a => a.takeWhile (· ≠ 0))
  | 0, mem, stream, h => rfl
  | k + 1, mem, stream, h => by
      have hturns : ((num : ℤ) - 1).toNat = num - 1 := by omega
      have hcall := fgetsLoop_eq buf (num - 1) buf mem h
      rw [readAll, pieces, fgets, hturns]
      cases hcut : cut (· = newline) (num - 1) stream.text with
      | none =>
          rw [hcut] at hcall
          rw [hcall]
          rfl
      | some ab =>
          obtain ⟨a, b⟩ := ab
          rw [hcut] at hcall
          have hlength := (cut_eq_some hcut).2.length_le
          have hstring := stringAt_eq num hcall.chars hcall.nul (by omega)
          have ih := readAll_eq buf hnum k (fgetsLoop buf (num - 1) buf mem stream).mem hcall.readable
          rw [hcall.text] at ih
          have hcons := congrArg (Option.map (a.takeWhile (· ≠ 0) :: ·)) ih
          rw [Option.map_map, Option.map_map] at hcons
          rw [hcall.ret]
          dsimp only
          rw [Option.map_map, Option.map_map]
          simpa only [Function.comp_def, List.map_cons, hstring] using hcons

/-- The fronts of pieces that make up a list are the pieces. -/
theorem eq_of_fronts {l : List UInt8} {ps : List (List UInt8)} (hpre : ps.flatten <+: l)
    (hfronts : (ps.flatMap fun a => a.takeWhile (· ≠ 0)) = l) :
  ps.flatten = l ∧ 0 ∉ l
  := by
  have hsub : (ps.flatMap fun a => a.takeWhile (· ≠ 0)).Sublist ps.flatten := by
    clear hpre hfronts
    induction ps with
    | nil => exact List.Sublist.refl _
    | cons a ps ih => exact (List.takeWhile_sublist _).append ih
  constructor
  · apply hpre.sublist.eq_of_length_le
    rw [← hfronts]
    exact hsub.length_le
  · rw [← hfronts, List.mem_flatMap]
    rintro ⟨a, -, hzero⟩
    simpa using List.mem_takeWhile_imp hzero

/-- A piece without a `NUL` that is returned ends as it should. -/
theorem ends_of_piece {call : Fgets} {a : List UInt8} (hpiece : IsPiece (· = newline) (num - 1) a)
    (hstring : stringAt call.mem buf num = a) (hnul : ∃ i < num, call.mem (buf + i) = 0) :
  call.Ends buf num
  := by
  constructor
  case terminated => exact hnul
  case inner =>
    rw [hstring]
    simpa using hpiece.inner
  case last =>
    rw [hstring]
    rcases hpiece.last with ⟨x, hx, hnewline⟩ | hlength
    · obtain rfl : x = newline := by simpa using hnewline
      exact .inl hx
    · exact .inr (.inr hlength)

/-- The calls of `fgets` lose nothing exactly when the input has no `NUL` and the characters behind
its last newline fill the buffer a number of times. -/
theorem lossless_iff (buf num : ℕ) (mem : ℕ → UInt8) (stream : Stream) (hnum : 2 ≤ num)
    (hread : stream.Readable) :
  Lossless buf num mem stream ↔
    0 ∉ stream.text ∧ (lastLine stream.text).length % (num - 1) = 0
  := by
  have hstrings (k : ℕ) := readAll_eq buf (show 1 ≤ num by omega) k mem hread
  constructor
  · rintro ⟨k, calls, hcalls, htext, -⟩
    have hpieces := hstrings k
    rw [hcalls, Option.map_some] at hpieces
    obtain ⟨ps, hps, hfronts⟩ := Option.map_eq_some_iff.mp hpieces.symm
    obtain ⟨-, hpre, hiff⟩ := pieces_spec hps
    rw [List.flatMap_def, ← hfronts, ← List.flatMap_def] at htext
    obtain ⟨hflatten, hzero⟩ := eq_of_fronts hpre htext
    exact ⟨hzero, hiff.mp hflatten⟩
  · rintro ⟨hzero, hlast⟩
    obtain ⟨ps, hps⟩ := exists_pieces (p := (· = newline)) (n := num - 1) (by omega)
      (Nat.lt_succ_self stream.text.length)
    obtain ⟨hpieces, -, hiff⟩ := pieces_spec hps
    have hflatten := hiff.mpr hlast
    have hfront {a : List UInt8} (ha : a ∈ ps) : a.takeWhile (· ≠ 0) = a := by
      rw [List.takeWhile_eq_self_iff]
      intro x hx
      rw [decide_eq_true_eq]
      rintro rfl
      apply hzero
      rw [← hflatten]
      exact List.mem_flatten_of_mem ha hx
    have hmap : ps.map (fun a => a.takeWhile (· ≠ 0)) = ps := by
      rw [List.map_congr_left fun a ha => hfront ha, List.map_id']
    have hcalls := hstrings (stream.text.length + 1)
    rw [hps, Option.map_some, hmap] at hcalls
    obtain ⟨calls, hcalls, heq⟩ := Option.map_eq_some_iff.mp hcalls
    refine ⟨_, calls, hcalls, ?_, fun call hcall => ?_⟩
    · rw [List.flatMap_def, heq, hflatten]
    · have hmem : stringAt call.mem buf num ∈ ps := by
        rw [← heq]
        exact List.mem_map_of_mem hcall
      exact ends_of_piece (hpieces _ hmem) rfl
        (readAll_terminated (by omega) hcalls call hcall)

theorem cast_low (code : ℕ) : (-128 : ℤ) ≤ code := by
  omega

theorem cast_high {code : ℕ} (h : code < 128) : (code : ℤ) < 256 := by
  omega

theorem cast_ne_eof (code : ℕ) : (code : ℤ) ≠ -EOF := by
  rw [EOF]
  omega

/-- A character without a sign. -/
def inCharOf (code : ℕ) (h : code < 128) : InChar where
  code := code
  low := cast_low code
  high := cast_high h
  ne_eof := cast_ne_eof code

/-- Characters without a sign. -/
def inputOf (codes : List (Fin 128)) : List InChar :=
  codes.map fun c => inCharOf c.val c.isLt

/-- A file that is open for reading. -/
def openFile (codes : List (Fin 128)) : Stream where
  flags := 1
  get := true
  input := inputOf codes

theorem openFile_readable (codes : List (Fin 128)) : (openFile codes).Readable where
  flag := Nat.testBit_zero 1
  get := rfl

/-- The text `ab`, a carriage return and `cd` are read through a buffer of three bytes. -/
theorem lossless_iff_three :
  Lossless 0 3 (fun _ => 255) (openFile [97, 98, 13, 99, 100])
  := by
  apply (lossless_iff 0 3 _ _ (by decide) (openFile_readable _)).mpr
  decide

/-- The last line `ab` is lost when the buffer has four bytes: the first call returns `NULL`. -/
theorem not_lossless_lastLine :
  (fgets (some 0) 4 (fun _ => 255) (openFile [97, 98])).ret = none ∧
    ¬ Lossless 0 4 (fun _ => 255) (openFile [97, 98])
  := by
  refine ⟨rfl, ?_⟩
  rintro ⟨k, calls, hcalls, htext, -⟩
  cases k with
  | zero => cases hcalls
  | succ k =>
      obtain rfl : calls = [] := (Option.some.inj hcalls).symm
      cases htext

end Etaos.Crt
