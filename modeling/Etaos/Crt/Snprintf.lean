import Etaos.Crt.Vfprintf
import Etaos.Library.Run
import Mathlib.Logic.Function.Basic

/-!
# Printing into an array

The function `snprintf`, which makes the calls of `vfprintf` on a `struct file` of its own.  The
file is not initialised, apart from its buffer.  A function has no result when it calls a function
of the file.

A string that is too long for the buffer is cut by `fputs`.  For a character behind the end of the
buffer, `fputc` calls the function `put` of the file.
-/

set_option linter.style.nameCheck false

namespace Etaos.Crt

/-! ### Streams -/

/-- The constant `__SWR`. -/
def __SWR : ℕ := 0x0002

/-- The constant `__SRWB`. -/
def __SRWB : ℕ := 0x0004

/-- The constant `STREAM_WRITE_FLAG`. -/
def STREAM_WRITE_FLAG : ℕ := 1

/-- The constant `STREAM_RW_BUFFER_FLAG`. -/
def STREAM_RW_BUFFER_FLAG : ℕ := 2

/-- The fields of a `struct file` that are used, and the memory. -/
structure File where
  flags : ℕ
  /-- The address of the buffer. -/
  buff : ℕ
  length : ℕ
  index : ℕ
  mem : ℕ → Char

namespace File

/-- The byte is written at the index in the buffer, and the index moves. -/
def store (c : Char) (f : File) : File :=
  { f with mem := Function.update f.mem (f.buff + f.index) c, index := f.index + 1 }

/-- The function `fputc`.  The function `put` of the file is not initialised. -/
def fputc (c : Char) (f : File) : Option File :=
  if ¬ f.flags.testBit STREAM_WRITE_FLAG then
    some f
  else if f.flags.testBit STREAM_RW_BUFFER_FLAG then
    if f.index < f.length then some (f.store c) else none
  else
    none

/-- The function `write_to_buffer`. -/
def writeToBuffer : List Char → File → File
  | [], f => f
  | c :: s, f => if f.index < f.length then writeToBuffer s (f.store c) else f

/-- The function `fputs`.  The descriptor of the file is not initialised. -/
def fputs (s : List Char) (f : File) : Option File :=
  if ¬ f.flags.testBit STREAM_WRITE_FLAG then
    some f
  else if f.flags.testBit STREAM_RW_BUFFER_FLAG then
    some (f.writeToBuffer s)
  else
    none

/-- The effect of a call on the file. -/
def call (f : File) : Call → Option File
  | .vaArg _ _ => some f
  | .fputc c => f.fputc c
  | .fputs s => f.fputs s
  | .outside => none

end File

/-- The function `raw_vfs_init_buffered_file`. -/
def rawVfsInitBufferedFile (f : File) (n buf : ℕ) : File :=
  if buf = 0 then
    f
  else
    { f with
      flags := f.flags ||| (__SWR ||| __SRWB)
      buff := buf
      length := n
      index := 0 }

/-- The function `snprintf`, with the bytes of its uninitialised file: the memory, and the value
that is returned. -/
def snprintf (args : Arguments) (flt : ℕ → Flt) (s length : ℕ) (format : List Char) (ap : ℕ)
    (f : File) : Option ((ℕ → Char) × ℕ) := do
  let f := rawVfsInitBufferedFile f (length - 1) s
  let calls ← vfprintfCalls args flt format ap
  let f ← Run.exec File.call f calls
  some (Function.update f.mem (s + f.index) NUL, f.length)

/-! ### The text -/

/-- The text that calls write to a stream. -/
def textOf (calls : List Call) : List Char :=
  (replay calls { text := [], inside := true }).text

/-- The bytes at an address. -/
def bytesAt (mem : ℕ → Char) (s n : ℕ) : List Char :=
  (List.range n).map fun i => mem (s + i)

/-- `vfprintf` produces a text, and `snprintf` returns without a call of a function of the file; it
writes to its array only, and leaves a terminated prefix of the text there, which is the text when
the array is long enough. -/
def Truncates (args : Arguments) (flt : ℕ → Flt) (s length : ℕ) (format : List Char) (ap : ℕ)
    (f : File) : Prop :=
  ∃ calls mem rv, vfprintfCalls args flt format ap = some calls ∧
    snprintf args flt s length format ap f = some (mem, rv) ∧
    (∀ a, ¬ (s ≤ a ∧ a < s + length) → mem a = f.mem a) ∧
    ∃ n < length, mem (s + n) = NUL ∧ bytesAt mem s n <+: textOf calls ∧
      ((textOf calls).length ≤ length - 1 → bytesAt mem s n = textOf calls)

namespace Call

/-- The text of a call. -/
def text : Call → List Char
  | .vaArg _ _ => []
  | .fputc c => [c]
  | .fputs s => s
  | .outside => []

/-- A call that finds its place when the buffer has room for `n` bytes: a character of its own
needs a byte, and a string is cut. -/
def Fits (n : ℕ) : Call → Prop
  | .vaArg _ _ => True
  | .fputc _ => 0 < n
  | .fputs _ => True
  | .outside => False

end Call

/-- Every call finds its place behind the text of the calls before it. -/
def Fits (n : ℕ) (calls : List Call) : Prop :=
  ∀ before call after, calls = before ++ call :: after → call.Fits (n - (textOf before).length)

theorem replay_text (calls : List Call) (o : Output) :
  (replay calls o).text = o.text ++ calls.flatMap Call.text
  := by
  induction calls generalizing o with
  | nil => simp [replay]
  | cons call calls ih =>
      have hcall : (o.call call).text = o.text ++ call.text := by
        cases call <;> simp [Output.call, Output.fputc, Output.fputs, Call.text]
      change (replay calls (o.call call)).text = _
      rw [ih, hcall, List.append_assoc, List.flatMap_cons]

@[simp]
theorem textOf_nil : textOf [] = [] := rfl

@[simp]
theorem textOf_cons (call : Call) (calls : List Call) :
  textOf (call :: calls) = call.text ++ textOf calls
  := by
  simp only [textOf, replay_text, List.nil_append, List.flatMap_cons]

theorem fits_nil (n : ℕ) : Fits n [] := by
  intro before call after h
  simp at h

theorem fits_cons {n : ℕ} {call : Call} {calls : List Call} :
  Fits n (call :: calls) ↔ call.Fits n ∧ Fits (n - call.text.length) calls
  := by
  constructor
  · intro h
    use h [] call calls rfl
    rintro before call' after rfl
    have hfits := h (call :: before) call' after rfl
    rwa [textOf_cons, List.length_append, ← Nat.sub_sub] at hfits
  · rintro ⟨hcall, hcalls⟩ before call' after heq
    cases before with
    | nil =>
        obtain ⟨rfl, -⟩ := List.cons.inj heq
        exact hcall
    | cons first before =>
        obtain ⟨rfl, rfl⟩ := List.cons.inj heq
        rw [textOf_cons, List.length_append, ← Nat.sub_sub]
        exact hcalls before call' after rfl

/-! ### The buffer -/

/-- The buffer of `n` bytes at the address `s` has what fits of a text, and the rest of the memory
is unchanged. -/
structure Holds (s n : ℕ) (mem : ℕ → Char) (text : List Char) (f : File) : Prop where
  write : f.flags.testBit STREAM_WRITE_FLAG
  buffer : f.flags.testBit STREAM_RW_BUFFER_FLAG
  buff : f.buff = s
  length : f.length = n
  bytes : bytesAt f.mem s f.index = text.take n
  frame : ∀ a, ¬ (s ≤ a ∧ a < s + n) → f.mem a = mem a

@[simp]
theorem length_bytesAt (mem : ℕ → Char) (s n : ℕ) : (bytesAt mem s n).length = n := by
  rw [bytesAt, List.length_map, List.length_range]

/-- A byte behind those at an address does not change them. -/
theorem bytesAt_update (mem : ℕ → Char) (s n : ℕ) (c : Char) :
  bytesAt (Function.update mem (s + n) c) s n = bytesAt mem s n
  := by
  apply List.map_congr_left
  intro i hi
  rw [List.mem_range] at hi
  apply Function.update_of_ne
  omega

theorem bytesAt_succ (mem : ℕ → Char) (s n : ℕ) :
  bytesAt mem s (n + 1) = bytesAt mem s n ++ [mem (s + n)]
  := by
  rw [bytesAt, List.range_succ, List.map_append]
  rfl

/-- The file that `snprintf` initialises has the empty text. -/
theorem holds_init {s : ℕ} (hs : s ≠ 0) (n : ℕ) (f : File) :
  Holds s n f.mem [] (rawVfsInitBufferedFile f n s)
  := by
  rw [rawVfsInitBufferedFile, if_neg hs]
  constructor
  · exact (Nat.testBit_or ..).trans (Bool.or_eq_true_iff.mpr (.inr rfl))
  · exact (Nat.testBit_or ..).trans (Bool.or_eq_true_iff.mpr (.inr rfl))
  · rfl
  · rfl
  · rw [List.take_nil]
    rfl
  · exact fun _ _ => rfl

namespace Holds

variable {s n : ℕ} {mem : ℕ → Char} {text : List Char} {f : File}

theorem index (h : Holds s n mem text f) : f.index = min n text.length := by
  have hlength := congrArg List.length h.bytes
  rwa [length_bytesAt, List.length_take] at hlength

/-- One byte more is stored when there is room. -/
theorem store (h : Holds s n mem text f) (hlt : text.length < n) (c : Char) :
  Holds s n mem (text ++ [c]) (f.store c)
  := by
  have hindex := h.index
  refine ⟨h.write, h.buffer, h.buff, h.length, ?_, fun a ha => ?_⟩
  · change bytesAt (Function.update f.mem (f.buff + f.index) c) s (f.index + 1) = _
    rw [h.buff, bytesAt_succ, bytesAt_update, Function.update_self, h.bytes,
      List.take_of_length_le (by omega), List.take_of_length_le (by simp; omega)]
  · change Function.update f.mem (f.buff + f.index) c a = _
    rw [h.buff, Function.update_of_ne (by omega), h.frame a ha]

/-- A full buffer takes nothing more. -/
theorem full (h : Holds s n mem text f) (hle : n ≤ text.length) (l : List Char) :
  Holds s n mem (text ++ l) f
  := by
  refine ⟨h.write, h.buffer, h.buff, h.length, ?_, h.frame⟩
  rw [h.bytes, List.take_append_of_le_length hle]

theorem writeToBuffer (h : Holds s n mem text f) (l : List Char) :
  Holds s n mem (text ++ l) (f.writeToBuffer l)
  := by
  induction l generalizing text f with
  | nil => rwa [List.append_nil]
  | cons c l ih =>
      have hindex := h.index
      rw [File.writeToBuffer, h.length]
      by_cases hlt : text.length < n
      · rw [if_pos (by omega), List.append_cons]
        apply ih (h.store hlt c)
      · rw [if_neg (by omega)]
        apply h.full (Nat.le_of_not_lt hlt)

/-- A call that fits appends its text. -/
theorem call_of_fits (h : Holds s n mem text f) {call : Call}
    (hfits : call.Fits (n - text.length)) :
  ∃ g, f.call call = some g ∧ Holds s n mem (text ++ call.text) g
  := by
  cases call with
  | vaArg ap size => exact ⟨f, rfl, by rwa [Call.text, List.append_nil]⟩
  | fputc c =>
      change 0 < n - text.length at hfits
      have hindex := h.index
      refine ⟨f.store c, ?_, h.store (by omega) c⟩
      rw [File.call, File.fputc, if_neg (not_not.mpr h.write), if_pos h.buffer, h.length,
        if_pos (by omega)]
  | fputs l =>
      refine ⟨f.writeToBuffer l, ?_, h.writeToBuffer l⟩
      rw [File.call, File.fputs, if_neg (not_not.mpr h.write), if_pos h.buffer]
  | outside => exact hfits.elim

/-- A call that does not fit calls the function `put` of the file, or writes outside of the array
of digits. -/
theorem call_of_not_fits (h : Holds s n mem text f) {call : Call}
    (hfits : ¬ call.Fits (n - text.length)) :
  f.call call = none
  := by
  cases call with
  | fputc c =>
      change ¬ 0 < n - text.length at hfits
      have hindex := h.index
      rw [File.call, File.fputc, if_neg (not_not.mpr h.write), if_pos h.buffer, h.length,
        if_neg (by omega)]
  | outside => rfl
  | vaArg ap size => exact absurd trivial hfits
  | fputs l => exact absurd trivial hfits

/-- Calls that fit append their text. -/
theorem exec_of_fits (calls : List Call) :
    ∀ {text : List Char} {f : File}, Holds s n mem text f → Fits (n - text.length) calls →
      ∃ g, Run.exec File.call f calls = some g ∧ Holds s n mem (text ++ textOf calls) g
  := by
  induction calls with
  | nil =>
      intro text f h _
      exact ⟨f, rfl, by rwa [textOf_nil, List.append_nil]⟩
  | cons call calls ih =>
      intro text f h hfits
      obtain ⟨hcall, hcalls⟩ := fits_cons.mp hfits
      obtain ⟨g, hg, hholds⟩ := h.call_of_fits hcall
      rw [Nat.sub_sub, ← List.length_append] at hcalls
      rw [Run.exec, hg, Option.bind_some, textOf_cons, ← List.append_assoc]
      apply ih hholds hcalls

/-- Calls that are made to their end fit. -/
theorem fits_of_exec (calls : List Call) :
    ∀ {text : List Char} {f g : File}, Holds s n mem text f →
      Run.exec File.call f calls = some g → Fits (n - text.length) calls
  := by
  induction calls with
  | nil => exact fun _ _ => fits_nil _
  | cons call calls ih =>
      intro text f g h hexec
      by_cases hcall : call.Fits (n - text.length)
      · obtain ⟨f', hf', hholds⟩ := h.call_of_fits hcall
        rw [Run.exec, hf', Option.bind_some] at hexec
        have hcalls := ih hholds hexec
        rw [List.length_append, ← Nat.sub_sub] at hcalls
        exact fits_cons.mpr ⟨hcall, hcalls⟩
      · rw [Run.exec, h.call_of_not_fits hcall] at hexec
        cases hexec

end Holds

/-- The function `snprintf` cuts the text of `vfprintf` exactly when the format does not end inside
of a conversion, no digit is written outside of its array, and no character is written by itself
behind the end of the buffer. -/
theorem truncates_iff (args : Arguments) (flt : ℕ → Flt) {s length : ℕ} (hs : s ≠ 0)
    (hlength : 0 < length) {format : List Char} (hnul : NUL ∉ format) (ap : ℕ) (f : File) :
  Truncates args flt s length format ap f ↔
    Complete format ∧ ∀ calls ∈ vfprintfCalls args flt format ap, Fits (length - 1) calls
  := by
  have hinit := holds_init hs (length - 1) f
  rw [← vfprintfCalls_isSome args flt hnul ap]
  constructor
  · rintro ⟨calls, mem, rv, hcalls, hsnprintf, -⟩
    rw [snprintf, hcalls] at hsnprintf
    obtain ⟨_, hsome, hbind⟩ := Option.bind_eq_some_iff.mp hsnprintf
    obtain rfl := Option.some.inj hsome
    obtain ⟨g, hg, -⟩ := Option.bind_eq_some_iff.mp hbind
    rw [hcalls]
    refine ⟨rfl, fun calls' heq => ?_⟩
    obtain rfl := Option.some.inj heq
    exact hinit.fits_of_exec calls hg
  · rintro ⟨hsome, hfits⟩
    obtain ⟨calls, hcalls⟩ := Option.isSome_iff_exists.mp hsome
    obtain ⟨g, hg, hholds⟩ := hinit.exec_of_fits calls (hfits calls hcalls)
    rw [List.nil_append] at hholds
    have hindex := hholds.index
    refine ⟨calls, Function.update g.mem (s + g.index) NUL, g.length, hcalls, ?_, fun a ha => ?_,
      g.index, by omega, Function.update_self .., ?_, fun hle => ?_⟩
    · rw [snprintf, hcalls]
      change (Run.exec _ _ _).bind _ = _
      rw [hg]
      rfl
    · rw [Function.update_of_ne (by omega), hholds.frame a (by omega)]
    · rw [bytesAt_update, hholds.bytes]
      apply List.take_prefix
    · rw [bytesAt_update, hholds.bytes, List.take_of_length_le hle]

/-- A file without flags, and a memory of zeros. -/
def blankFile : File where
  flags := 0
  buff := 0
  length := 0
  index := 0
  mem := fun _ => NUL

/-- The theorem applied to the conversion of an `int` for an array of 3 bytes. -/
theorem truncates_iff_int :
  Truncates zeros zeroFlt 1 3 ['%', 'd'] 0 blankFile ↔
    Complete ['%', 'd'] ∧ ∀ calls ∈ vfprintfCalls zeros zeroFlt ['%', 'd'] 0, Fits 2 calls
  := truncates_iff zeros zeroFlt (by decide) (by decide) (by decide) 0 blankFile

/-- The second character of a text calls the function `put` when the array has 2 bytes. -/
theorem not_truncates :
  vfprintfCalls zeros zeroFlt ['a', 'b'] 0 = some [.fputc 'a', .fputc 'b'] ∧
    snprintf zeros zeroFlt 1 2 ['a', 'b'] 0 blankFile = none ∧
    ¬ Truncates zeros zeroFlt 1 2 ['a', 'b'] 0 blankFile
  := by
  have hnone : snprintf zeros zeroFlt 1 2 ['a', 'b'] 0 blankFile = none := by rfl
  refine ⟨by rfl, hnone, ?_⟩
  rintro ⟨calls, mem, rv, -, hsnprintf, -⟩
  rw [hnone] at hsnprintf
  cases hsnprintf

end Etaos.Crt
