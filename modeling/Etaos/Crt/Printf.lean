import Mathlib.Algebra.Group.Int.Defs
import Mathlib.Algebra.Group.Nat.Defs
import Mathlib.Data.List.Basic
import Mathlib.Tactic.Use

/-!
# Formatted output

The conversions of integers by `vfprintf.c`, with the integer widths of the AVR: an `int` and a
pointer have 16 bits, a `long` 32, and a `long long` 64.  The stream takes every byte that is
written to it.

An argument is read from the stack as an unsigned integer and widened with zeros, whatever the
conversion, so that the sign of an `int` or a `long` is lost; the sign of a `long long` is printed
in front of the digits of the unsigned value.
-/

set_option linter.style.nameCheck false

namespace Etaos.Crt

/-! ### Numbers -/

/-- The constant `BUFF`. -/
def BUFF : ℕ := 16

/-- The array `buff`, with the `NUL` at its end. -/
structure DigitBuffer where
  /-- The bytes from `cp` on, up to the `NUL`. -/
  text : List Char
  /-- No byte was written outside of the array. -/
  inside : Bool

namespace DigitBuffer

/-- The buffer after `*cp = 0`. -/
def init : DigitBuffer where
  text := []
  inside := true

/-- The offset of `cp` in the array. -/
def cp (b : DigitBuffer) : Int :=
  BUFF - 1 - b.text.length

/-- The assignment `*--cp = c`. -/
def store (b : DigitBuffer) (c : Char) : DigitBuffer where
  text := c :: b.text
  inside := b.inside && 0 ≤ b.cp - 1

end DigitBuffer

/-- The byte `NUL`. -/
def NUL : Char :=
  Char.ofNat 0

/-- The string `digx`. -/
def digx (caps : Bool) : List Char :=
  if caps then "0123456789ABCDEF".toList else "0123456789abcdef".toList

/-- The loop of `convert_to_num` for the base 16. -/
def hexLoop (caps : Bool) (num : ℕ) (b : DigitBuffer) : DigitBuffer :=
  let b := b.store ((digx caps).getD (num &&& 0x0F) NUL)
  if num >>> 4 = 0 then b else hexLoop caps (num >>> 4) b
termination_by num
decreasing_by
  simp only [Nat.shiftRight_eq_div_pow] at *
  omega

/-- The loop of `convert_to_num` for the base 10. -/
def decimalLoop (num : ℕ) (b : DigitBuffer) : DigitBuffer :=
  let b := b.store (Char.ofNat (num % 10 + '0'.toNat))
  if num / 10 = 0 then b else decimalLoop (num / 10) b
termination_by num

/-- The text that was written, and whether all writes to the arrays were inside of them. -/
structure Output where
  text : List Char
  inside : Bool
  deriving DecidableEq

namespace Output

/-- The function `fputc`. -/
def fputc (c : Char) (o : Output) : Output :=
  { o with text := o.text ++ [c] }

/-- The function `fputs`. -/
def fputs (s : List Char) (o : Output) : Output :=
  { o with text := o.text ++ s }

end Output

/-- The digits of `convert_to_num` in its array. -/
def convertDigits (num base : ℕ) (caps : Bool) : DigitBuffer :=
  if base = 16 then
    hexLoop caps num .init
  else if base = 10 then
    if num < 10 then
      DigitBuffer.init.store (Char.ofNat (num + '0'.toNat))
    else
      decimalLoop num .init
  else
    .init

/-- The function `convert_to_num`, for a `uint64_t` as `num`. -/
def convertToNum (num base : ℕ) (sign caps : Bool) (o : Output) : Output :=
  if num = 0 then
    o.fputc '0'
  else
    let o := if 2 ^ 63 ≤ num ∧ sign then o.fputc '-' else o
    let b := convertDigits num base caps
    let o := o.fputs b.text
    { o with inside := o.inside && b.inside }

/-! ### Formats -/

/-- What the arguments are read from. -/
structure Arguments where
  /-- The bytes of the stack. -/
  stack : ℕ → UInt8
  /-- The strings at addresses. -/
  string : ℕ → List Char
  /-- What `print_flt` prints for the bytes of a `double`. -/
  printFlt : ℕ → List Char

/-- The value of `va_arg(ap, type)`, for an unsigned type of the given number of bytes. -/
def Arguments.vaArg (args : Arguments) (ap : ℕ) : ℕ → ℕ
  | 0 => 0
  | n + 1 => (args.stack ap).toNat + 256 * args.vaArg (ap + 1) n

/-- The state of `vfprintf`: the pointers `fmt` and `ap`, and the output. -/
structure Printf where
  fmt : ℕ
  ap : ℕ
  out : Output

/-- The byte of a C string at an offset. -/
def charAt (format : List Char) (i : ℕ) : Option Char :=
  (format ++ [NUL])[i]?

/-- The function `vfprintf_long_int`.  Its argument list is its own. -/
def vfprintfLongInt (args : Arguments) (format : List Char) (fmtI : ℕ) (s : Printf) :
    Option Printf := do
  let c ← charAt format (s.fmt + fmtI)
  if c = 'l' then
    let s := { s with fmt := s.fmt + 1 }
    let c ← charAt format (s.fmt + fmtI)
    if c = 'i' ∨ c = 'd' then
      some { s with out := convertToNum (args.vaArg s.ap 8) 10 true false s.out }
    else
      some { s with out := convertToNum (args.vaArg s.ap 8) 10 false false s.out }
  else if c = 'i' ∨ c = 'd' then
    some { s with out := convertToNum (args.vaArg s.ap 4) 10 true false s.out }
  else if c = 'u' then
    some { s with out := convertToNum (args.vaArg s.ap 4) 10 false false s.out }
  else
    some s

/-- The conversion of `vfprintf` at the byte `fmt[i]`. -/
def convert (args : Arguments) (format : List Char) (i : ℕ) (s : Printf) : Option Printf := do
  let c ← charAt format (s.fmt + i)
  if c = 'l' then
    vfprintfLongInt args format i { s with fmt := s.fmt + 1 }
  else if c = 'd' ∨ c = 'i' then
    some { s with
      ap := s.ap + 2
      out := convertToNum (args.vaArg s.ap 2) 10 true false s.out }
  else if c = 'u' then
    some { s with
      ap := s.ap + 2
      out := convertToNum (args.vaArg s.ap 2) 10 false false s.out }
  else if c = 'x' then
    some { s with
      ap := s.ap + 2
      out := convertToNum (args.vaArg s.ap 2) 16 false false s.out }
  else if c = 'f' then
    some { s with ap := s.ap + 4, out := s.out.fputs (args.printFlt (args.vaArg s.ap 4)) }
  else if c = 'p' ∨ c = 'X' then
    some { s with
      ap := s.ap + 2
      out := convertToNum (args.vaArg s.ap 2) 16 false true s.out }
  else if c = 'c' then
    some { s with ap := s.ap + 2, out := s.out.fputc (Char.ofNat (args.vaArg s.ap 2 % 256)) }
  else if c = 's' then
    some { s with ap := s.ap + 2, out := s.out.fputs (args.string (args.vaArg s.ap 2)) }
  else if c = '%' then
    some { s with out := s.out.fputc '%' }
  else
    some s

/-- The loop of `vfprintf`, in at most `n` turns. -/
def vfprintfLoop (args : Arguments) (format : List Char) : ℕ → ℕ → Printf → Option Printf
  | 0, _, _ => none
  | n + 1, i, s => do
      let c ← charAt format (s.fmt + i)
      if c = NUL then
        some s
      else if c ≠ '%' then
        vfprintfLoop args format n (i + 1) { s with out := s.out.fputc c }
      else
        let s ← convert args format i { s with fmt := s.fmt + 1 }
        vfprintfLoop args format n (i + 1) s

/-- The function `vfprintf`: what it writes to the stream. -/
def vfprintf (args : Arguments) (format : List Char) (ap : ℕ) : Option Output :=
  (vfprintfLoop args format (format.length + 1) 0
    { fmt := 0, ap, out := { text := [], inside := true } }).map Printf.out

/-! ### Numerals -/

namespace DigitBuffer

/-- The buffer after the bytes of `l` were stored, from the last one to the first one. -/
def write (b : DigitBuffer) (l : List Char) : DigitBuffer where
  text := l ++ b.text
  inside := b.inside && l.length + b.text.length < BUFF

theorem store_eq_write (b : DigitBuffer) (c : Char) : b.store c = b.write [c] := by
  rw [store, write, List.singleton_append, mk.injEq]
  use rfl
  congr 1
  rw [decide_eq_decide, cp, BUFF, List.length_singleton]
  omega

theorem write_write (b : DigitBuffer) (l l' : List Char) :
  (b.write l).write l' = b.write (l' ++ l)
  := by
  rw [write, write, write, mk.injEq]
  constructor
  · rw [List.append_assoc]
  · rw [Bool.and_assoc, ← Bool.decide_and]
    congr 1
    rw [decide_eq_decide, List.length_append, List.length_append]
    omega

theorem write_init (l : List Char) :
  init.write l = { text := l, inside := l.length < BUFF }
  := by
  rw [write, init, List.append_nil]
  rfl

end DigitBuffer

/-- The hexadecimal numeral of a number, in upper case or in lower case. -/
def hexNumeral (caps : Bool) (num : ℕ) : List Char :=
  if caps then (Nat.toDigits 16 num).map Char.toUpper else Nat.toDigits 16 num

theorem digx_getD (caps : Bool) (num : ℕ) :
  [(digx caps).getD (num &&& 0x0F) NUL] = hexNumeral caps (num % 16)
  := by
  have hdigit : ∀ d < 16, [(digx caps).getD d NUL] = hexNumeral caps d := by
    cases caps <;> decide
  rw [show num &&& 0x0F = num % 16 from Nat.and_two_pow_sub_one_eq_mod num 4]
  apply hdigit
  apply Nat.mod_lt
  decide

theorem hexNumeral_of_lt {num : ℕ} (caps : Bool) (h : num >>> 4 = 0) :
  hexNumeral caps num = hexNumeral caps (num % 16)
  := by
  rw [Nat.shiftRight_eq_div_pow] at h
  rw [Nat.mod_eq_of_lt]
  omega

theorem hexNumeral_of_le {num : ℕ} (caps : Bool) (h : num >>> 4 ≠ 0) :
  hexNumeral caps num = hexNumeral caps (num >>> 4) ++ hexNumeral caps (num % 16)
  := by
  rw [Nat.shiftRight_eq_div_pow] at h ⊢
  have hle : 16 ≤ num := by omega
  have hlt : num % 16 < 16 := Nat.mod_lt _ (by decide)
  rw [hexNumeral, hexNumeral, hexNumeral, Nat.toDigits_of_base_le (by decide) hle,
    Nat.toDigits_of_lt_base hlt]
  cases caps with
  | false => rfl
  | true => simp

/-- The loop stores the hexadecimal numeral. -/
theorem hexLoop_eq (caps : Bool) (num : ℕ) (b : DigitBuffer) :
  hexLoop caps num b = b.write (hexNumeral caps num)
  := by
  induction num, b using hexLoop.induct caps with
  | case1 num b h =>
      rw [hexLoop, if_pos h, DigitBuffer.store_eq_write, digx_getD, hexNumeral_of_lt caps h]
  | case2 num b b' h ih =>
      rw [hexLoop, if_neg h, ih, hexNumeral_of_le caps h, ← digx_getD,
        ← DigitBuffer.write_write, ← DigitBuffer.store_eq_write]

theorem ofNat_digit {d : ℕ} (hd : d < 10) : Char.ofNat (d + '0'.toNat) = d.digitChar := by
  have hall : ∀ d < 10, Char.ofNat (d + '0'.toNat) = d.digitChar := by decide
  apply hall d hd

/-- The loop stores the decimal numeral. -/
theorem decimalLoop_eq (num : ℕ) (b : DigitBuffer) :
  decimalLoop num b = b.write (Nat.toDigits 10 num)
  := by
  induction num, b using decimalLoop.induct with
  | case1 num b h =>
      have hlt : num < 10 := by omega
      rw [decimalLoop, if_pos h, DigitBuffer.store_eq_write, Nat.mod_eq_of_lt hlt,
        ofNat_digit hlt, Nat.toDigits_of_lt_base hlt]
  | case2 num b b' h ih =>
      have hle : 10 ≤ num := by omega
      rw [decimalLoop, if_neg h, ih, Nat.toDigits_of_base_le (by decide) hle,
        ← ofNat_digit (Nat.mod_lt _ (by decide)), ← DigitBuffer.write_write,
        ← DigitBuffer.store_eq_write]

/-- The numeral of a number for a base that `convert_to_num` knows. -/
def numeral (base : ℕ) (caps : Bool) (num : ℕ) : List Char :=
  if base = 16 then hexNumeral caps num else Nat.toDigits 10 num

theorem convertDigits_eq {base : ℕ} (hbase : base = 16 ∨ base = 10) (num : ℕ) (caps : Bool) :
  convertDigits num base caps =
    { text := numeral base caps num, inside := (numeral base caps num).length < BUFF }
  := by
  rw [← DigitBuffer.write_init]
  rcases hbase with rfl | rfl
  · apply hexLoop_eq
  · have hne : ¬ 10 = 16 := by decide
    rw [convertDigits, if_neg hne, if_pos rfl, numeral, if_neg hne]
    by_cases hlt : num < 10
    · rw [if_pos hlt, DigitBuffer.store_eq_write, ofNat_digit hlt, Nat.toDigits_of_lt_base hlt]
    · rw [if_neg hlt, decimalLoop_eq]

/-- The conversion prints the numeral of the unsigned value, and a sign before it when the sign
bit of 64 is set. -/
theorem convertToNum_eq {base : ℕ} (hbase : base = 16 ∨ base = 10) (num : ℕ) (sign caps : Bool)
    (o : Output) :
  convertToNum num base sign caps o =
    { text := o.text ++ ((if 2 ^ 63 ≤ num ∧ sign then ['-'] else []) ++ numeral base caps num)
      inside := o.inside && (numeral base caps num).length < BUFF }
  := by
  rw [convertToNum]
  split
  · rename_i hzero
    rcases hbase with rfl | rfl
    · cases caps <;> simp [hzero, Output.fputc, numeral, hexNumeral, BUFF]
    · simp [hzero, Output.fputc, numeral, BUFF]
  · rw [convertDigits_eq hbase]
    split <;> simp [Output.fputc, Output.fputs]

/-! ### Conversions of integers -/

/-- The conversions of integers. -/
inductive IntConversion where
  | d
  | i
  | u
  | ld
  | li
  | lu
  | lld
  | lli
  | llu
  | x
  | X
  deriving DecidableEq

namespace IntConversion

/-- The text behind the percent sign. -/
def text : IntConversion → List Char
  | .d => ['d']
  | .i => ['i']
  | .u => ['u']
  | .ld => ['l', 'd']
  | .li => ['l', 'i']
  | .lu => ['l', 'u']
  | .lld => ['l', 'l', 'd']
  | .lli => ['l', 'l', 'i']
  | .llu => ['l', 'l', 'u']
  | .x => ['x']
  | .X => ['X']

/-- The number of bytes of the type of the argument. -/
def size : IntConversion → ℕ
  | .ld | .li | .lu => 4
  | .lld | .lli | .llu => 8
  | _ => 2

/-- The type of the argument is signed. -/
def signed : IntConversion → Bool
  | .d | .i | .ld | .li | .lld | .lli => true
  | _ => false

/-- The base of the numeral. -/
def base : IntConversion → ℕ
  | .x | .X => 16
  | _ => 10

/-- The numeral is in upper case. -/
def caps : IntConversion → Bool
  | .X => true
  | _ => false

/-- The number of bytes by which `vfprintf` advances its argument list. -/
def advance : IntConversion → ℕ
  | .ld | .li | .lu | .lld | .lli | .llu => 0
  | _ => 2

/-- The value of the argument. -/
def value (c : IntConversion) (args : Arguments) (ap : ℕ) : Int :=
  let num := args.vaArg ap c.size
  if c.signed ∧ 2 ^ (8 * c.size - 1) ≤ num then num - 2 ^ (8 * c.size) else num

/-- The text of a value: a minus sign when it is negative, and the numeral. -/
def print (c : IntConversion) (v : Int) : List Char :=
  (if v < 0 then ['-'] else []) ++ numeral c.base c.caps v.natAbs

/-- The values that are printed. -/
def Printable (c : IntConversion) (v : Int) : Prop :=
  match c with
  | .d | .i | .ld | .li => 0 ≤ v
  | .lld | .lli => 0 ≤ v ∧ v < 10 ^ 15
  | .llu => v < 10 ^ 15
  | _ => True

theorem base_eq (c : IntConversion) : c.base = 16 ∨ c.base = 10 := by
  cases c <;> simp [base]

end IntConversion

/-- A part of a format without conversions. -/
structure Literal where
  text : List Char
  plain : ∀ c ∈ text, c ≠ NUL ∧ c ≠ '%'

/-! ### The walk over a format -/

section Walk

variable {args : Arguments} {s : Printf}

theorem charAt_append (l l' : List Char) (i : ℕ) :
  charAt (l ++ l') (l.length + i) = charAt l' i
  := by
  rw [charAt, charAt, List.append_assoc, List.getElem?_append_right (Nat.le_add_right _ _),
    Nat.add_sub_cancel_left]

theorem charAt_cons_zero (c : Char) (l : List Char) : charAt (c :: l) 0 = some c := rfl

theorem charAt_cons_one (c c' : Char) (l : List Char) : charAt (c :: c' :: l) 1 = some c' := rfl

theorem charAt_cons_two (c c' c'' : Char) (l : List Char) :
  charAt (c :: c' :: c'' :: l) 2 = some c''
  := rfl

/-- A literal is printed as it is. -/
theorem vfprintfLoop_literal (before : List Char) {l : List Char}
    (hl : ∀ c ∈ l, c ≠ NUL ∧ c ≠ '%') (after : List Char) (n : ℕ) {i : ℕ}
    (hi : s.fmt + i = before.length) :
  vfprintfLoop args (before ++ l ++ after) (n + l.length) i s
    = vfprintfLoop args (before ++ l ++ after) n (i + l.length)
        { s with out := { s.out with text := s.out.text ++ l } }
  := by
  induction l generalizing before i s with
  | nil => simp
  | cons c l ih =>
      obtain ⟨hnul, hpercent⟩ := hl c List.mem_cons_self
      have hchar : charAt (before ++ c :: l ++ after) (s.fmt + i) = some c := by
        rw [hi, List.append_assoc, ← Nat.add_zero before.length, charAt_append]
        rfl
      have hrest := ih (s := { s with out := s.out.fputc c }) (before ++ [c]) (i := i + 1)
        (fun c' hc' => hl c' (List.mem_cons_of_mem c hc')) (by simp; omega)
      have hformat : before ++ [c] ++ l ++ after = before ++ c :: l ++ after := by simp
      rw [hformat] at hrest
      rw [List.length_cons, ← Nat.add_assoc, vfprintfLoop, hchar]
      simp only [Option.bind_eq_bind, Option.bind_some, if_neg hnul, if_pos hpercent]
      rw [hrest, Nat.add_right_comm, Nat.add_assoc]
      simp only [Output.fputc, List.append_assoc, List.singleton_append]

/-- A conversion prints its argument. -/
theorem convert_eq (c : IntConversion) {before after : List Char} {i : ℕ}
    (hi : s.fmt + i = before.length) :
  convert args (before ++ c.text ++ after) i s = some {
    fmt := s.fmt + (c.text.length - 1)
    ap := s.ap + c.advance
    out := convertToNum (args.vaArg s.ap c.size) c.base c.signed c.caps s.out }
  := by
  have hchar (k : ℕ) : charAt (before ++ c.text ++ after) (s.fmt + k + i)
      = charAt (c.text ++ after) k := by
    rw [Nat.add_right_comm, hi, List.append_assoc, charAt_append]
  have hfirst := hchar 0
  have hsecond := hchar 1
  have hthird := hchar 2
  rw [Nat.add_zero] at hfirst
  generalize before ++ c.text ++ after = format at hfirst hsecond hthird ⊢
  cases c <;>
    simp only [IntConversion.text, List.cons_append, List.nil_append, charAt_cons_zero,
      charAt_cons_one, charAt_cons_two] at hfirst hsecond hthird <;>
    simp [convert, vfprintfLongInt, hfirst, hsecond, hthird, IntConversion.text,
      IntConversion.advance, IntConversion.size, IntConversion.base, IntConversion.signed,
      IntConversion.caps]

/-- The end of the format is met. -/
theorem vfprintfLoop_end {before : List Char} {n i : ℕ} (hi : s.fmt + i = before.length) :
  vfprintfLoop args before (n + 1) i s = some s
  := by
  have hchar : charAt before (s.fmt + i) = some NUL := by
    rw [hi, charAt, List.getElem?_append_right (Nat.le_refl _), Nat.sub_self]
    rfl
  rw [vfprintfLoop, hchar]
  rfl

/-- A turn of the loop at a conversion. -/
theorem vfprintfLoop_conversion (c : IntConversion) {before after : List Char} {n i : ℕ}
    (hi : s.fmt + i = before.length) :
  vfprintfLoop args (before ++ '%' :: c.text ++ after) (n + 1) i s
    = vfprintfLoop args (before ++ '%' :: c.text ++ after) n (i + 1) {
        fmt := s.fmt + c.text.length
        ap := s.ap + c.advance
        out := convertToNum (args.vaArg s.ap c.size) c.base c.signed c.caps s.out }
  := by
  have hchar : charAt (before ++ '%' :: c.text ++ after) (s.fmt + i) = some '%' := by
    rw [hi, List.append_assoc, ← Nat.add_zero before.length, charAt_append]
    rfl
  have hformat : before ++ '%' :: c.text ++ after = before ++ ['%'] ++ c.text ++ after := by simp
  have hconvert : convert args (before ++ ['%'] ++ c.text ++ after) i { s with fmt := s.fmt + 1 }
      = some _ := convert_eq c (by simp; omega)
  rw [← hformat] at hconvert
  have hlength : 1 + (c.text.length - 1) = c.text.length := by cases c <;> rfl
  have hpercent : ¬ '%' = NUL := by decide
  rw [vfprintfLoop, hchar]
  simp only [Option.bind_eq_bind, Option.bind_some, if_neg hpercent, ne_eq, not_true_eq_false,
    if_false, hconvert]
  rw [Nat.add_assoc, hlength]

end Walk

/-- The output for a format with one conversion. -/
theorem vfprintf_eq (args : Arguments) (before after : Literal) (c : IntConversion) (ap : ℕ) :
  vfprintf args (before.text ++ '%' :: c.text ++ after.text) ap = some {
    text := before.text ++
      ((if 2 ^ 63 ≤ args.vaArg ap c.size ∧ c.signed then ['-'] else []) ++
        numeral c.base c.caps (args.vaArg ap c.size)) ++ after.text
    inside := (numeral c.base c.caps (args.vaArg ap c.size)).length < BUFF }
  := by
  have hfuel : (before.text ++ '%' :: c.text ++ after.text).length + 1
      = c.text.length + 1 + after.text.length + 1 + before.text.length := by
    simp only [List.length_append, List.length_cons]
    omega
  have hbefore : vfprintfLoop args ([] ++ before.text ++ ('%' :: c.text ++ after.text)) _ 0
      { fmt := 0, ap, out := { text := [], inside := true } } = _ :=
    vfprintfLoop_literal [] before.plain ('%' :: c.text ++ after.text)
      (c.text.length + 1 + after.text.length + 1) rfl
  rw [List.nil_append, Nat.zero_add, ← List.append_assoc] at hbefore
  rw [vfprintf, hfuel, hbefore, vfprintfLoop_conversion c (Nat.zero_add _),
    ← List.append_nil (before.text ++ '%' :: c.text ++ after.text),
    vfprintfLoop_literal _ after.plain, List.append_nil, vfprintfLoop_end]
  · rw [convertToNum_eq c.base_eq]
    simp
  · simp only [List.length_append, List.length_cons]
    omega
  · simp only [List.length_append, List.length_cons]
    omega

/-! ### The numerals of the values -/

theorem Arguments.vaArg_lt (args : Arguments) (ap n : ℕ) : args.vaArg ap n < 2 ^ (8 * n) := by
  induction n generalizing ap with
  | zero => simp [vaArg]
  | succ n ih =>
      have hbyte := (args.stack ap).toNat_lt
      have hrest := ih (ap + 1)
      rw [vaArg, Nat.mul_succ, Nat.pow_add]
      omega

/-- A numeral has no sign. -/
theorem numeral_ne (num num' : ℕ) (caps : Bool) :
  numeral 10 caps num ≠ '-' :: numeral 10 caps num'
  := by
  intro heq
  have hmem : '-' ∈ Nat.toDigits 10 num := by
    rw [show Nat.toDigits 10 num = numeral 10 caps num from rfl, heq]
    apply List.mem_cons_self
  have hdigit := Nat.isDigit_of_mem_toDigits (by decide) (by decide) hmem
  simp at hdigit

theorem length_numeral_lt_iff (num : ℕ) (caps : Bool) :
  (numeral 10 caps num).length < BUFF ↔ num < 10 ^ 15
  := by
  rw [BUFF, Nat.lt_succ_iff]
  apply Nat.length_toDigits_le_iff <;> decide

theorem length_hexNumeral_lt (num : ℕ) (caps : Bool) (hnum : num < 2 ^ 16) :
  (numeral 16 caps num).length < BUFF
  := by
  have hlength : (Nat.toDigits 16 num).length ≤ 4 :=
    (Nat.length_toDigits_le_iff (by decide) (by decide)).mpr hnum
  rw [BUFF, numeral, if_pos rfl, hexNumeral]
  cases caps with
  | false => exact Nat.lt_of_le_of_lt hlength (by decide)
  | true =>
      rw [if_pos rfl, List.length_map]
      exact Nat.lt_of_le_of_lt hlength (by decide)

/-- A format with one conversion prints the numeral of the value of its argument, and no byte is
written outside of the array for the digits. -/
def Prints (args : Arguments) (before after : Literal) (c : IntConversion) (ap : ℕ) : Prop :=
  vfprintf args (before.text ++ '%' :: c.text ++ after.text) ap = some {
    text := before.text ++ c.print (c.value args ap) ++ after.text
    inside := true }

section Prints

variable {args : Arguments} {before after : Literal} {c : IntConversion} {ap : ℕ}

theorem prints_iff_numeral :
  Prints args before after c ap ↔
    (if 2 ^ 63 ≤ args.vaArg ap c.size ∧ c.signed then ['-'] else []) ++
        numeral c.base c.caps (args.vaArg ap c.size) = c.print (c.value args ap) ∧
      (numeral c.base c.caps (args.vaArg ap c.size)).length < BUFF
  := by
  rw [Prints, vfprintf_eq, Option.some_inj, Output.mk.injEq, List.append_left_inj,
    List.append_right_inj, decide_eq_true_eq]

theorem IntConversion.base_of_signed (hc : c.signed = true) : c.base = 10 := by
  cases c <;> first | rfl | cases hc

/-- An unsigned value is printed when its digits fit. -/
theorem prints_unsigned_iff (hc : c.signed = false) :
  Prints args before after c ap ↔
    (numeral c.base c.caps (args.vaArg ap c.size)).length < BUFF
  := by
  have hvalue : c.value args ap = args.vaArg ap c.size := by simp [IntConversion.value, hc]
  rw [prints_iff_numeral, hvalue, IntConversion.print]
  simp [hc]

/-- A signed value of 16 or 32 bits is printed when it is not negative. -/
theorem prints_narrow_iff (hc : c.signed = true) (hsize : c.size = 2 ∨ c.size = 4) :
  Prints args before after c ap ↔ 0 ≤ c.value args ap
  := by
  have hlt := args.vaArg_lt ap c.size
  have hnarrow : args.vaArg ap c.size < 2 ^ 32 := by
    rcases hsize with hsize | hsize <;> rw [hsize] at hlt ⊢ <;> omega
  have hfits : (numeral 10 c.caps (args.vaArg ap c.size)).length < BUFF := by
    rw [length_numeral_lt_iff]
    omega
  have hsign : ¬ (2 ^ 63 ≤ args.vaArg ap c.size ∧ c.signed = true) := by omega
  rw [prints_iff_numeral, IntConversion.base_of_signed hc, and_iff_left hfits, if_neg hsign,
    List.nil_append, IntConversion.print, IntConversion.base_of_signed hc]
  by_cases hneg : c.value args ap < 0
  · rw [if_pos hneg]
    apply iff_of_false
    · apply numeral_ne
    · omega
  · rw [if_neg hneg, List.nil_append]
    apply iff_of_true
    · congr 1
      have hvalue : c.value args ap = args.vaArg ap c.size := by
        rw [IntConversion.value] at hneg ⊢
        split at hneg
        · rename_i hbig
          have hpow : (args.vaArg ap c.size : Int) < 2 ^ (8 * c.size) := by exact_mod_cast hlt
          omega
        · rename_i hsmall
          rw [if_neg hsmall]
      rw [hvalue, Int.natAbs_natCast]
    · omega

/-- A signed value of 64 bits is printed when it is not negative and its digits fit. -/
theorem prints_wide_iff (hc : c.signed = true) (hsize : c.size = 8) :
  Prints args before after c ap ↔ 0 ≤ c.value args ap ∧ c.value args ap < 10 ^ 15
  := by
  have hlt := args.vaArg_lt ap c.size
  rw [prints_iff_numeral, IntConversion.base_of_signed hc, length_numeral_lt_iff,
    IntConversion.print, IntConversion.base_of_signed hc, IntConversion.value, hc, hsize]
  rw [hsize] at hlt
  by_cases hbig : 2 ^ 63 ≤ args.vaArg ap 8
  · simp only [hbig, true_and, if_true]
    constructor
    · intro h
      omega
    · intro h
      omega
  · have hpos : ¬ (args.vaArg ap 8 : Int) < 0 := by omega
    simp only [hbig, and_false, false_and, if_false, hpos, List.nil_append, Int.natAbs_natCast,
      true_and]
    omega

/-- The numeral of an argument is printed exactly when the argument is not negative and its digits
fit into the array. -/
theorem prints_iff_printable (args : Arguments) (before after : Literal) (c : IntConversion)
    (ap : ℕ) :
  Prints args before after c ap ↔ c.Printable (c.value args ap)
  := by
  have hlt := args.vaArg_lt ap c.size
  cases c with
  | d | i => apply prints_narrow_iff rfl (.inl rfl)
  | ld | li => apply prints_narrow_iff rfl (.inr rfl)
  | lld | lli => apply prints_wide_iff rfl rfl
  | u | lu =>
      rw [prints_unsigned_iff rfl]
      apply iff_of_true _ trivial
      apply (length_numeral_lt_iff _ _).mpr
      apply Nat.lt_trans hlt
      decide
  | llu =>
      rw [prints_unsigned_iff rfl]
      apply (length_numeral_lt_iff _ _).trans
      simp only [IntConversion.Printable, IntConversion.value, IntConversion.signed,
        Bool.false_eq_true, false_and, if_false]
      omega
  | x | X =>
      rw [prints_unsigned_iff rfl]
      apply iff_of_true _ trivial
      apply length_hexNumeral_lt _ _ hlt

end Prints

/-- The arguments whose bytes are all ones: the value is -1 for every signed type. -/
def ones : Arguments where
  stack _ := 255
  string _ := []
  printFlt _ := []

/-- The literal without text. -/
def Literal.empty : Literal where
  text := []
  plain := by simp

/-- The format `%d` prints `65535` for -1, and the format `%lld` writes 20 digits into an array
with room for 15. -/
theorem not_prints_neg_one :
  IntConversion.d.value ones 0 = -1 ∧
    vfprintf ones ['%', 'd'] 0 = some { text := ['6', '5', '5', '3', '5'], inside := true } ∧
    ¬ Prints ones .empty .empty .d 0 ∧
    IntConversion.lld.value ones 0 = -1 ∧
    (vfprintf ones ['%', 'l', 'l', 'd'] 0).map Output.inside = some false ∧
    ¬ Prints ones .empty .empty .lld 0
  := by
  have hd := vfprintf_eq ones .empty .empty .d 0
  have hlld := vfprintf_eq ones .empty .empty .lld 0
  refine ⟨by decide, hd.trans (by decide), ?_, by decide, ?_, ?_⟩
  · rw [Prints, hd]
    decide
  · exact (congrArg _ hlld).trans (by decide)
  · rw [Prints, hlld]
    decide

end Etaos.Crt
