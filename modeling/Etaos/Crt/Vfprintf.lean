import Etaos.Crt.Printf

/-!
# The walk of `vfprintf` over a format

What `vfprintf` does, call by call: the arguments that it reads, and the calls of `fputc` and
`fputs`.  `vfprintf_eq_replay` says that these calls give the output of `vfprintf`.

The walk does not look for the end of the format inside of a conversion, and goes on behind it.
The argument list of `vfprintf_long_int` is its own, so that the arguments behind the one of an
l-conversion are read from its place.
-/

namespace Etaos.Crt

/-! ### Calls -/

/-- What `vfprintf` does. -/
inductive Call where
  /-- An argument of a number of bytes is read. -/
  | vaArg (ap size : ℕ)
  | fputc (c : Char)
  | fputs (s : List Char)
  /-- A digit is written outside of the array `buff`. -/
  | outside
  deriving DecidableEq

/-- What `print_flt` computes from a `double`. -/
structure Flt where
  negative : Bool
  intPart : ℕ
  printables : List ℕ

/-- The calls of `convert_to_num`. -/
def convertToNumCalls (num base : ℕ) (sign caps : Bool) : List Call :=
  if num = 0 then
    [.fputc '0']
  else
    let b := convertDigits num base caps
    (if 2 ^ 63 ≤ num ∧ sign then [.fputc '-'] else []) ++
      (if b.inside then [] else [.outside]) ++ [.fputs b.text]

/-- The calls of `print_flt`. -/
def printFltCalls (x : Flt) : List Call :=
  (if x.negative then [.fputc '-'] else []) ++ convertToNumCalls x.intPart 10 false false ++
    .fputc '.' :: x.printables.flatMap (convertToNumCalls · 10 false false)

/-- The state of `vfprintf`: the pointers `fmt` and `ap`, and the calls that were made. -/
structure Scan where
  fmt : ℕ
  ap : ℕ
  calls : List Call

namespace Scan

/-- Calls are made. -/
def log (s : Scan) (calls : List Call) : Scan :=
  { s with calls := s.calls ++ calls }

/-- An argument is read, and the argument list is advanced. -/
def next (s : Scan) (size : ℕ) (calls : List Call) : Scan :=
  { s with ap := s.ap + size, calls := s.calls ++ .vaArg s.ap size :: calls }

end Scan

section Walk

variable (args : Arguments) (flt : ℕ → Flt)

/-- The calls of `vfprintf_long_int`.  Its argument list is its own. -/
def vfprintfLongIntCalls (format : List Char) (fmtI : ℕ) (s : Scan) : Option Scan := do
  let c ← charAt format (s.fmt + fmtI)
  if c = 'l' then
    let s := { s with fmt := s.fmt + 1 }
    let c ← charAt format (s.fmt + fmtI)
    let sign : Bool := c = 'i' ∨ c = 'd'
    some (s.log (.vaArg s.ap 8 :: convertToNumCalls (args.vaArg s.ap 8) 10 sign false))
  else if c = 'i' ∨ c = 'd' then
    some (s.log (.vaArg s.ap 4 :: convertToNumCalls (args.vaArg s.ap 4) 10 true false))
  else if c = 'u' then
    some (s.log (.vaArg s.ap 4 :: convertToNumCalls (args.vaArg s.ap 4) 10 false false))
  else
    some s

/-- The calls for the conversion at the byte `fmt[i]`. -/
def convertCalls (format : List Char) (i : ℕ) (s : Scan) : Option Scan := do
  let c ← charAt format (s.fmt + i)
  if c = 'l' then
    vfprintfLongIntCalls args format i { s with fmt := s.fmt + 1 }
  else if c = 'd' ∨ c = 'i' then
    some (s.next 2 (convertToNumCalls (args.vaArg s.ap 2) 10 true false))
  else if c = 'u' then
    some (s.next 2 (convertToNumCalls (args.vaArg s.ap 2) 10 false false))
  else if c = 'x' then
    some (s.next 2 (convertToNumCalls (args.vaArg s.ap 2) 16 false false))
  else if c = 'f' then
    some (s.next 4 (printFltCalls (flt (args.vaArg s.ap 4))))
  else if c = 'p' ∨ c = 'X' then
    some (s.next 2 (convertToNumCalls (args.vaArg s.ap 2) 16 false true))
  else if c = 'c' then
    some (s.next 2 [.fputc (Char.ofNat (args.vaArg s.ap 2 % 256))])
  else if c = 's' then
    some (s.next 2 [.fputs (args.string (args.vaArg s.ap 2))])
  else if c = '%' then
    some (s.log [.fputc '%'])
  else
    some s

/-- The loop of `vfprintf`, in at most `n` turns. -/
def vfprintfCallsLoop (format : List Char) : ℕ → ℕ → Scan → Option Scan
  | 0, _, _ => none
  | n + 1, i, s => do
      let c ← charAt format (s.fmt + i)
      if c = NUL then
        some s
      else if c ≠ '%' then
        vfprintfCallsLoop format n (i + 1) (s.log [.fputc c])
      else
        let s ← convertCalls args flt format i { s with fmt := s.fmt + 1 }
        vfprintfCallsLoop format n (i + 1) s

/-- The calls of `vfprintf`. -/
def vfprintfCalls (format : List Char) (ap : ℕ) : Option (List Call) :=
  (vfprintfCallsLoop args flt format (format.length + 1) 0
    { fmt := 0, ap, calls := [] }).map Scan.calls

end Walk

/-! ### The output of the calls -/

/-- The effect of a call on the output. -/
def Output.call (o : Output) : Call → Output
  | .vaArg _ _ => o
  | .fputc c => o.fputc c
  | .fputs s => o.fputs s
  | .outside => { o with inside := false }

/-- The output of calls. -/
def replay (calls : List Call) (o : Output) : Output :=
  calls.foldl Output.call o

theorem replay_append (calls calls' : List Call) (o : Output) :
  replay (calls ++ calls') o = replay calls' (replay calls o)
  := List.foldl_append

/-- The output of `convert_to_num` is the output of its calls. -/
theorem convertToNum_eq_replay (num base : ℕ) (sign caps : Bool) (o : Output) :
  convertToNum num base sign caps o = replay (convertToNumCalls num base sign caps) o
  := by
  rw [convertToNum, convertToNumCalls]
  by_cases hnum : num = 0
  · rw [if_pos hnum, if_pos hnum]
    rfl
  · rw [if_neg hnum, if_neg hnum]
    dsimp only
    rw [replay_append, replay_append]
    cases hinside : (convertDigits num base caps).inside <;> split <;>
      simp [replay, Output.call, Output.fputs, Output.fputc]

/-- The output so far, with the pointers. -/
def Scan.toPrintf (s : Scan) : Printf where
  fmt := s.fmt
  ap := s.ap
  out := replay s.calls { text := [], inside := true }

namespace Scan

@[simp]
theorem toPrintf_fmt (s : Scan) : s.toPrintf.fmt = s.fmt := rfl

@[simp]
theorem toPrintf_ap (s : Scan) : s.toPrintf.ap = s.ap := rfl

@[simp]
theorem toPrintf_log (s : Scan) (calls : List Call) :
  (s.log calls).toPrintf = { s.toPrintf with out := replay calls s.toPrintf.out }
  := by
  simp only [toPrintf, log, replay_append]

@[simp]
theorem toPrintf_next (s : Scan) (size : ℕ) (calls : List Call) :
  (s.next size calls).toPrintf
    = { s.toPrintf with ap := s.ap + size, out := replay calls s.toPrintf.out }
  := by
  simp only [toPrintf, next, replay_append]
  rfl

end Scan

section Replay

variable {args : Arguments} {flt : ℕ → Flt}

/-- The calls of `print_flt` print the text that the arguments have for a `double`. -/
def PrintsFlt (args : Arguments) (flt : ℕ → Flt) : Prop :=
  ∀ x o, o.fputs (args.printFlt x) = replay (printFltCalls (flt x)) o

theorem vfprintfLongInt_eq_replay (format : List Char) (i : ℕ) (s : Scan) :
  vfprintfLongInt args format i s.toPrintf
    = (vfprintfLongIntCalls args format i s).map Scan.toPrintf
  := by
  rw [vfprintfLongInt, vfprintfLongIntCalls, Scan.toPrintf_fmt]
  cases charAt format (s.fmt + i) with
  | none => rfl
  | some c =>
      simp only [Option.bind_eq_bind, Option.bind_some]
      by_cases hl : c = 'l'
      · rw [if_pos hl, if_pos hl]
        cases charAt format (s.fmt + 1 + i) with
        | none => rfl
        | some c =>
            simp only [Option.bind_some, convertToNum_eq_replay]
            split <;> simp_all [Scan.log, Scan.toPrintf, replay, Output.call]
      · rw [if_neg hl, if_neg hl]
        simp only [convertToNum_eq_replay]
        split_ifs <;> simp only [Option.map_some, Scan.toPrintf_log] <;> rfl

theorem convert_eq_replay (hflt : PrintsFlt args flt) (format : List Char) (i : ℕ) (s : Scan) :
  convert args format i s.toPrintf = (convertCalls args flt format i s).map Scan.toPrintf
  := by
  rw [convert, convertCalls, Scan.toPrintf_fmt]
  cases charAt format (s.fmt + i) with
  | none => rfl
  | some c =>
      simp only [Option.bind_eq_bind, Option.bind_some, convertToNum_eq_replay, hflt _ _,
        Scan.toPrintf_ap]
      by_cases hl : c = 'l'
      · rw [if_pos hl, if_pos hl]
        exact vfprintfLongInt_eq_replay format i { s with fmt := s.fmt + 1 }
      · rw [if_neg hl, if_neg hl]
        simp only [apply_ite (Option.map Scan.toPrintf), Option.map_some, Scan.toPrintf_next,
          Scan.toPrintf_log]
        rfl

/-- The output of `vfprintf` is the output of its calls. -/
theorem vfprintf_eq_replay (hflt : PrintsFlt args flt) (format : List Char) (ap : ℕ) :
  vfprintf args format ap
    = (vfprintfCalls args flt format ap).map (replay · { text := [], inside := true })
  := by
  have hloop (n : ℕ) : ∀ (i : ℕ) (s : Scan), vfprintfLoop args format n i s.toPrintf
      = (vfprintfCallsLoop args flt format n i s).map Scan.toPrintf := by
    induction n with
    | zero => exact fun _ _ => rfl
    | succ n ih =>
        intro i s
        rw [vfprintfLoop, vfprintfCallsLoop, Scan.toPrintf_fmt]
        cases charAt format (s.fmt + i) with
        | none => rfl
        | some c =>
            simp only [Option.bind_eq_bind, Option.bind_some]
            by_cases hnul : c = NUL
            · rw [if_pos hnul, if_pos hnul, Option.map_some]
            · rw [if_neg hnul, if_neg hnul]
              by_cases hc : c ≠ '%'
              · rw [if_pos hc, if_pos hc, ← ih, Scan.toPrintf_log]
                rfl
              · have hconvert : convert args format i { s.toPrintf with fmt := s.fmt + 1 } = _ :=
                  convert_eq_replay hflt format i { s with fmt := s.fmt + 1 }
                rw [if_neg hc, if_neg hc, hconvert]
                cases convertCalls args flt format i { s with fmt := s.fmt + 1 } with
                | none => rfl
                | some s => exact ih (i + 1) s
  have hrun := hloop (format.length + 1) 0 { fmt := 0, ap, calls := [] }
  rw [vfprintf, vfprintfCalls, Option.map_map]
  exact (congrArg (Option.map Printf.out) hrun).trans (Option.map_map ..)

end Replay

/-! ### Formats -/

/-- Where the walk is in a format: in its text, behind a percent sign, or behind the letters of an
l-conversion. -/
inductive Place where
  | text
  | percent
  | l
  | ll
  deriving DecidableEq

/-- The place behind a character. -/
def Place.next : Place → Char → Place
  | .text, c => if c = '%' then .percent else .text
  | .percent, c => if c = 'l' then .l else .text
  | .l, c => if c = 'l' then .ll else .text
  | .ll, _ => .text

/-- The format does not end inside of a conversion. -/
def Complete (format : List Char) : Prop :=
  format.foldl Place.next .text = .text

instance (format : List Char) : Decidable (Complete format) :=
  inferInstanceAs (Decidable (format.foldl Place.next .text = .text))

/-- The conversions that `vfprintf` knows. -/
inductive Conversion where
  | int (c : IntConversion)
  | double
  | pointer
  | char
  | string
  | percent
  deriving DecidableEq

namespace Conversion

/-- The text behind the percent sign. -/
def text : Conversion → List Char
  | .int c => c.text
  | .double => ['f']
  | .pointer => ['p']
  | .char => ['c']
  | .string => ['s']
  | .percent => ['%']

/-- The number of bytes of the argument. -/
def size : Conversion → ℕ
  | .int c => c.size
  | .double => 4
  | .pointer | .char | .string => 2
  | .percent => 0

/-- The number of bytes by which `vfprintf` advances its argument list. -/
def advance : Conversion → ℕ
  | .int c => c.advance
  | c => c.size

/-- The calls for an argument. -/
def calls (args : Arguments) (flt : ℕ → Flt) (ap : ℕ) : Conversion → List Call
  | .int c =>
      .vaArg ap c.size :: convertToNumCalls (args.vaArg ap c.size) c.base c.signed c.caps
  | .double => .vaArg ap 4 :: printFltCalls (flt (args.vaArg ap 4))
  | .pointer => .vaArg ap 2 :: convertToNumCalls (args.vaArg ap 2) 16 false true
  | .char => [.vaArg ap 2, .fputc (Char.ofNat (args.vaArg ap 2 % 256))]
  | .string => [.vaArg ap 2, .fputs (args.string (args.vaArg ap 2))]
  | .percent => [.fputc '%']

end Conversion

/-- A part of a well-formed format. -/
inductive Piece where
  | literal (l : Literal)
  | conversion (c : Conversion)

namespace Piece

/-- The text of a part. -/
def text : Piece → List Char
  | .literal l => l.text
  | .conversion c => '%' :: c.text

/-- The conversion of a part, when it takes an argument. -/
def taker : Piece → Option Conversion
  | .literal _ => none
  | .conversion .percent => none
  | .conversion c => some c

end Piece

/-- The well-formed format of a list of parts. -/
def formatOf (pieces : List Piece) : List Char :=
  pieces.flatMap Piece.text

/-- The conversions that take an argument, in their order. -/
def takers (pieces : List Piece) : List Conversion :=
  pieces.filterMap Piece.taker

/-- The places and the sizes of arguments, where `step` leads from one to the next. -/
def places (step : Conversion → ℕ) : ℕ → List Conversion → List (ℕ × ℕ)
  | _, [] => []
  | ap, c :: cs => (ap, c.size) :: places step (ap + step c) cs

/-- The places and the sizes of the arguments that are read. -/
def readArgs (calls : List Call) : List (ℕ × ℕ) :=
  calls.filterMap fun
    | .vaArg ap size => some (ap, size)
    | _ => none

/-- `vfprintf` returns without reading behind the format, and the conversions of a well-formed
format read the variable arguments, one after the other. -/
def Follows (args : Arguments) (flt : ℕ → Flt) (format : List Char) (ap : ℕ) : Prop :=
  ∃ calls, vfprintfCalls args flt format ap = some calls ∧
    ∀ pieces, format = formatOf pieces →
      readArgs calls = places Conversion.size ap (takers pieces)

/-- No conversion that takes an argument is behind an l-conversion. -/
def LongLast (pieces : List Piece) : Prop :=
  ∀ c ∈ (takers pieces).dropLast, c.advance = c.size

/-! ### The end of the format -/

section Ends

variable {args : Arguments} {flt : ℕ → Flt} {format : List Char} {i : ℕ} {s : Scan}

/-- A conversion of one character does not move the pointer. -/
theorem convertCalls_of_ne {c : Char} (hchar : charAt format (s.fmt + i) = some c) (hc : c ≠ 'l') :
  ∃ t, convertCalls args flt format i s = some t ∧ t.fmt = s.fmt
  := by
  rw [convertCalls, hchar, Option.bind_eq_bind, Option.bind_some, if_neg hc]
  split_ifs <;> exact ⟨_, rfl, rfl⟩

/-- A conversion with one letter `l` moves the pointer by one character. -/
theorem convertCalls_of_l {c : Char} (hl : charAt format (s.fmt + i) = some 'l')
    (hchar : charAt format (s.fmt + 1 + i) = some c) (hc : c ≠ 'l') :
  ∃ t, convertCalls args flt format i s = some t ∧ t.fmt = s.fmt + 1
  := by
  rw [convertCalls, hl, Option.bind_eq_bind, Option.bind_some, if_pos rfl, vfprintfLongIntCalls,
    hchar, Option.bind_eq_bind, Option.bind_some, if_neg hc]
  split_ifs <;> exact ⟨_, rfl, rfl⟩

/-- A conversion with two letters `l` moves the pointer by two characters. -/
theorem convertCalls_of_ll {c : Char} (hl : charAt format (s.fmt + i) = some 'l')
    (hll : charAt format (s.fmt + 1 + i) = some 'l')
    (hchar : charAt format (s.fmt + 2 + i) = some c) :
  ∃ t, convertCalls args flt format i s = some t ∧ t.fmt = s.fmt + 2
  := by
  rw [convertCalls, hl, Option.bind_eq_bind, Option.bind_some, if_pos rfl, vfprintfLongIntCalls,
    hll, Option.bind_eq_bind, Option.bind_some, if_pos rfl]
  dsimp only
  rw [hchar, Option.bind_some]
  exact ⟨_, rfl, rfl⟩

/-- A conversion takes characters of the format, up to those that a complete rest is behind, or
all of them and the `NUL`, when the format ends inside of it. -/
theorem convertCalls_walk (rest : List Char)
    (hchars : ∀ j, charAt format (s.fmt + j + i) = charAt rest j) :
  ∃ t, convertCalls args flt format i s = some t ∧
    ((∃ taken rest', rest = taken ++ rest' ∧ t.fmt + 1 = s.fmt + taken.length ∧
        (Complete ('%' :: rest) ↔ Complete rest')) ∨
      t.fmt = s.fmt + rest.length ∧ ¬ Complete ('%' :: rest))
  := by
  match rest with
  | [] =>
      obtain ⟨t, hconvert, ht⟩ := convertCalls_of_ne (hchars 0) (by decide)
      exact ⟨t, hconvert, .inr ⟨ht, by decide⟩⟩
  | c :: rest =>
      by_cases hc : c = 'l'
      · subst hc
        match rest with
        | [] =>
            obtain ⟨t, hconvert, ht⟩ := convertCalls_of_l (hchars 0) (hchars 1) (by decide)
            exact ⟨t, hconvert, .inr ⟨ht, by decide⟩⟩
        | d :: rest =>
            by_cases hd : d = 'l'
            · subst hd
              match rest with
              | [] =>
                  obtain ⟨t, hconvert, ht⟩ :=
                    convertCalls_of_ll (hchars 0) (hchars 1) (hchars 2)
                  exact ⟨t, hconvert, .inr ⟨ht, by decide⟩⟩
              | e :: rest =>
                  obtain ⟨t, hconvert, ht⟩ :=
                    convertCalls_of_ll (hchars 0) (hchars 1) (hchars 2)
                  exact ⟨t, hconvert, .inl ⟨['l', 'l', e], rest, rfl, by rw [ht]; rfl, Iff.rfl⟩⟩
            · obtain ⟨t, hconvert, ht⟩ := convertCalls_of_l (hchars 0) (hchars 1) hd
              refine ⟨t, hconvert, .inl ⟨['l', d], rest, rfl, by rw [ht]; rfl, ?_⟩⟩
              simp [Complete, Place.next, hd]
      · obtain ⟨t, hconvert, ht⟩ := convertCalls_of_ne (hchars 0) hc
        refine ⟨t, hconvert, .inl ⟨[c], rest, rfl, by rw [ht]; rfl, ?_⟩⟩
        simp [Complete, Place.next, hc]

/-- Behind the end of the format nothing is read. -/
theorem vfprintfCallsLoop_behind (n : ℕ) (h : format.length < s.fmt + i) :
  vfprintfCallsLoop args flt format n i s = none
  := by
  have hnone : charAt format (s.fmt + i) = none := by
    rw [charAt, List.getElem?_eq_none]
    rw [List.length_append, List.length_singleton]
    omega
  cases n with
  | zero => rfl
  | succ n => rw [vfprintfCallsLoop, hnone, Option.bind_eq_bind, Option.bind_none]

/-- The character at an offset behind a part of a format. -/
theorem charAt_behind (before rest : List Char) (j : ℕ) {k : ℕ} (hk : k = before.length + j) :
  charAt (before ++ rest) k = charAt rest j
  := by
  rw [hk, charAt_append]

/-- The loop ends when the rest of the format does not end inside of a conversion. -/
theorem vfprintfCallsLoop_isSome :
    ∀ (n : ℕ) (before rest : List Char) (i : ℕ) (s : Scan), NUL ∉ rest → rest.length < n →
      s.fmt + i = before.length →
      ((vfprintfCallsLoop args flt (before ++ rest) n i s).isSome ↔ Complete rest)
  | 0, _, _, _, _, _, hn, _ => by omega
  | n + 1, before, [], i, s, _, _, hi => by
      have hchar : charAt (before ++ []) (s.fmt + i) = some NUL := charAt_behind before [] 0 hi
      rw [vfprintfCallsLoop, hchar]
      simp [Complete]
  | n + 1, before, c :: rest, i, s, hnul, hn, hi => by
      rw [List.mem_cons, not_or] at hnul
      rw [List.length_cons] at hn
      have hchar : charAt (before ++ c :: rest) (s.fmt + i) = some c := charAt_behind before _ 0 hi
      rw [vfprintfCallsLoop, hchar, Option.bind_eq_bind, Option.bind_some,
        if_neg (Ne.symm hnul.1)]
      by_cases hc : c ≠ '%'
      · have hsplit : before ++ c :: rest = (before ++ [c]) ++ rest := by simp
        have hcomplete : Complete (c :: rest) ↔ Complete rest := by
          simp [Complete, Place.next, hc]
        rw [if_pos hc, hsplit, hcomplete]
        apply vfprintfCallsLoop_isSome n _ _ _ _ hnul.2 (by omega)
        simp [Scan.log]
        omega
      · rw [not_not] at hc
        subst hc
        have hchars (j : ℕ) :
            charAt (before ++ '%' :: rest) (s.fmt + 1 + j + i) = charAt rest j := by
          rw [charAt_behind before _ (j + 1) (by omega)]
          rfl
        obtain ⟨t, hconvert, hwalk⟩ := convertCalls_walk (s := { s with fmt := s.fmt + 1 }) rest
          hchars
        dsimp only at hwalk
        rw [if_neg (not_not.mpr rfl), hconvert, Option.bind_eq_bind, Option.bind_some]
        rcases hwalk with ⟨taken, rest', rfl, ht, hcomplete⟩ | ⟨ht, hcomplete⟩
        · have hsplit : before ++ '%' :: (taken ++ rest') = (before ++ '%' :: taken) ++ rest' := by
            simp
          rw [List.mem_append, not_or] at hnul
          rw [List.length_append] at hn
          rw [hcomplete, hsplit]
          apply vfprintfCallsLoop_isSome n _ _ _ _ hnul.2.2 (by omega)
          simp only [List.length_append, List.length_cons]
          omega
        · rw [vfprintfCallsLoop_behind]
          · simp [hcomplete]
          · simp only [List.length_append, List.length_cons]
            omega

end Ends

/-! ### The arguments -/

section Arguments

variable {args : Arguments} {flt : ℕ → Flt} {s : Scan}

theorem readArgs_append (calls calls' : List Call) :
  readArgs (calls ++ calls') = readArgs calls ++ readArgs calls'
  := List.filterMap_append ..

theorem readArgs_convertToNumCalls (num base : ℕ) (sign caps : Bool) :
  readArgs (convertToNumCalls num base sign caps) = []
  := by
  rw [convertToNumCalls]
  dsimp only
  split_ifs <;> rfl

theorem readArgs_printFltCalls (x : Flt) : readArgs (printFltCalls x) = [] := by
  have hdigits (l : List ℕ) :
      readArgs (l.flatMap (convertToNumCalls · 10 false false)) = [] := by
    induction l with
    | nil => rfl
    | cons d l ih => rw [List.flatMap_cons, readArgs_append, readArgs_convertToNumCalls, ih]; rfl
  rw [printFltCalls, readArgs_append, readArgs_append, readArgs_convertToNumCalls]
  change _ ++ [] ++ readArgs (x.printables.flatMap _) = []
  rw [hdigits]
  cases x.negative <;> rfl

/-- The calls of `vfprintf` for the parts of a well-formed format. -/
def pieceCalls (args : Arguments) (flt : ℕ → Flt) : ℕ → List Piece → List Call
  | _, [] => []
  | ap, .literal l :: pieces => l.text.map .fputc ++ pieceCalls args flt ap pieces
  | ap, .conversion c :: pieces =>
      c.calls args flt ap ++ pieceCalls args flt (ap + c.advance) pieces

/-- The arguments that are read for the parts of a well-formed format. -/
theorem readArgs_pieceCalls (pieces : List Piece) :
    ∀ ap, readArgs (pieceCalls args flt ap pieces)
      = places Conversion.advance ap (takers pieces)
  := by
  induction pieces with
  | nil => exact fun _ => rfl
  | cons piece pieces ih =>
      intro ap
      cases piece with
      | literal l =>
          have hnone : readArgs (l.text.map .fputc) = [] := by
            simp [readArgs, List.filterMap_map]
          rw [pieceCalls, readArgs_append, hnone, ih]
          rfl
      | conversion c =>
          rw [pieceCalls, readArgs_append, ih]
          cases c with
          | int c =>
              change readArgs ([.vaArg ap c.size] ++ convertToNumCalls _ _ _ _) ++ _ = _
              rw [readArgs_append, readArgs_convertToNumCalls]
              rfl
          | double =>
              change readArgs ([.vaArg ap 4] ++ printFltCalls _) ++ _ = _
              rw [readArgs_append, readArgs_printFltCalls]
              rfl
          | pointer =>
              change readArgs ([.vaArg ap 2] ++ convertToNumCalls _ _ _ _) ++ _ = _
              rw [readArgs_append, readArgs_convertToNumCalls]
              rfl
          | char => rfl
          | string => rfl
          | percent => rfl

/-- The places of the arguments that are read are those of the variable arguments when no more than
the last one is read by an l-conversion. -/
theorem places_eq_iff (cs : List Conversion) :
    ∀ ap, places Conversion.advance ap cs = places Conversion.size ap cs ↔
      ∀ c ∈ cs.dropLast, c.advance = c.size
  := by
  induction cs with
  | nil => simp [places]
  | cons c cs ih =>
      intro ap
      cases cs with
      | nil => simp [places]
      | cons d cs =>
          have hcons (step : Conversion → ℕ) (c : Conversion) (ap : ℕ) (cs : List Conversion) :
              places step ap (c :: cs) = (ap, c.size) :: places step (ap + step c) cs := rfl
          rw [hcons Conversion.advance c, hcons Conversion.size c, List.dropLast_cons_cons,
            List.forall_mem_cons, List.cons_eq_cons, ← ih (ap + c.size)]
          constructor
          · rintro ⟨-, heq⟩
            have hadvance : c.advance = c.size := by
              have hfirst := (Prod.mk.inj (List.cons.inj heq).1).1
              omega
            rw [hadvance] at heq
            exact ⟨hadvance, heq⟩
          · rintro ⟨hadvance, heq⟩
            rw [hadvance]
            exact ⟨rfl, heq⟩

/-- A conversion makes its calls. -/
theorem convertCalls_eq (c : Conversion) {before after : List Char} {i : ℕ}
    (hi : s.fmt + i = before.length) :
  convertCalls args flt (before ++ c.text ++ after) i s = some {
    fmt := s.fmt + (c.text.length - 1)
    ap := s.ap + c.advance
    calls := s.calls ++ c.calls args flt s.ap }
  := by
  have hchar (k : ℕ) : charAt (before ++ c.text ++ after) (s.fmt + k + i)
      = charAt (c.text ++ after) k := by
    rw [List.append_assoc, charAt_behind before _ k (by omega)]
  have hfirst := hchar 0
  have hsecond := hchar 1
  have hthird := hchar 2
  rw [Nat.add_zero] at hfirst
  generalize before ++ c.text ++ after = format at hfirst hsecond hthird ⊢
  cases c with
  | int c =>
      cases c with
      | d | i | u | x | X =>
          rw [convertCalls, hfirst]
          rfl
      | ld | li | lu =>
          rw [convertCalls, hfirst]
          change vfprintfLongIntCalls args format i { s with fmt := s.fmt + 1 } = _
          rw [vfprintfLongIntCalls, hsecond]
          rfl
      | lld | lli | llu =>
          rw [convertCalls, hfirst]
          change vfprintfLongIntCalls args format i { s with fmt := s.fmt + 1 } = _
          rw [vfprintfLongIntCalls, hsecond]
          change (charAt format (s.fmt + 2 + i)).bind _ = _
          rw [hthird]
          rfl
  | _ =>
      rw [convertCalls, hfirst]
      rfl

/-- The calls for a literal. -/
theorem vfprintfCallsLoop_literal (before : List Char) {l : List Char}
    (hl : ∀ c ∈ l, c ≠ NUL ∧ c ≠ '%') (after : List Char) (n : ℕ) {i : ℕ}
    (hi : s.fmt + i = before.length) :
  vfprintfCallsLoop args flt (before ++ l ++ after) (n + l.length) i s
    = vfprintfCallsLoop args flt (before ++ l ++ after) n (i + l.length) (s.log (l.map .fputc))
  := by
  induction l generalizing before i s with
  | nil => simp [Scan.log]
  | cons c l ih =>
      obtain ⟨hnul, hpercent⟩ := hl c List.mem_cons_self
      have hchar : charAt (before ++ c :: l ++ after) (s.fmt + i) = some c := by
        rw [List.append_assoc, charAt_behind before _ 0 hi]
        rfl
      have hrest := ih (s := s.log [.fputc c]) (before ++ [c]) (i := i + 1)
        (fun c' hc' => hl c' (List.mem_cons_of_mem c hc')) (by simp [Scan.log]; omega)
      have hformat : before ++ [c] ++ l ++ after = before ++ c :: l ++ after := by simp
      rw [hformat] at hrest
      rw [List.length_cons, ← Nat.add_assoc, vfprintfCallsLoop, hchar, Option.bind_eq_bind,
        Option.bind_some, if_neg hnul, if_pos hpercent, hrest, Nat.add_right_comm, Nat.add_assoc]
      simp [Scan.log]

/-- The loop makes the calls for the parts of a well-formed format. -/
theorem vfprintfCallsLoop_pieces (pieces : List Piece) :
    ∀ (before : List Char) (n i : ℕ) (s : Scan), (formatOf pieces).length < n →
      s.fmt + i = before.length →
      (vfprintfCallsLoop args flt (before ++ formatOf pieces) n i s).map Scan.calls
        = some (s.calls ++ pieceCalls args flt s.ap pieces)
  := by
  induction pieces with
  | nil =>
      intro before n i s hn hi
      obtain ⟨n, rfl⟩ : ∃ k, n = k + 1 := ⟨n - 1, by omega⟩
      have hchar : charAt (before ++ []) (s.fmt + i) = some NUL := charAt_behind before [] 0 hi
      change (vfprintfCallsLoop args flt (before ++ []) (n + 1) i s).map Scan.calls = _
      rw [vfprintfCallsLoop, hchar]
      simp [pieceCalls]
  | cons piece pieces ih =>
      intro before n i s hn hi
      have hformat : formatOf (piece :: pieces) = piece.text ++ formatOf pieces := rfl
      rw [hformat, List.length_append] at hn
      rw [hformat, ← List.append_assoc]
      cases piece with
      | literal l =>
          change l.text.length + _ < n at hn
          obtain ⟨n, rfl⟩ : ∃ k, n = k + l.text.length := ⟨n - l.text.length, by omega⟩
          have hrest := ih (before ++ l.text) n (i + l.text.length) (s.log (l.text.map .fputc))
            (by omega) (by rw [List.length_append]; simp only [Scan.log]; omega)
          rw [Piece.text, vfprintfCallsLoop_literal before l.plain (formatOf pieces) n hi, hrest,
            pieceCalls, ← List.append_assoc]
          rfl
      | conversion c =>
          change c.text.length + 1 + _ < n at hn
          obtain ⟨n, rfl⟩ : ∃ k, n = k + 1 := ⟨n - 1, by omega⟩
          have hpos : 0 < c.text.length := by
            cases c with
            | int c => cases c <;> decide
            | _ => decide
          have hchar : charAt (before ++ '%' :: c.text ++ formatOf pieces) (s.fmt + i)
              = some '%' := by
            rw [List.append_assoc, charAt_behind before _ 0 hi]
            rfl
          have hsplit : before ++ '%' :: c.text ++ formatOf pieces
              = before ++ ['%'] ++ c.text ++ formatOf pieces := by simp
          have hconvert : convertCalls args flt (before ++ ['%'] ++ c.text ++ formatOf pieces) i
              { s with fmt := s.fmt + 1 } = some _ :=
            convertCalls_eq c (by rw [List.length_append, List.length_singleton]; dsimp only; omega)
          rw [← hsplit] at hconvert
          have hrest := ih (before ++ '%' :: c.text) n (i + 1) {
              fmt := s.fmt + 1 + (c.text.length - 1)
              ap := s.ap + c.advance
              calls := s.calls ++ c.calls args flt s.ap }
            (by omega) (by rw [List.length_append, List.length_cons]; dsimp only; omega)
          rw [Piece.text, vfprintfCallsLoop, hchar, Option.bind_eq_bind, Option.bind_some,
            if_neg (by decide), if_neg (not_not.mpr rfl), hconvert, Option.bind_eq_bind,
            Option.bind_some, hrest, pieceCalls, ← List.append_assoc]

end Arguments

/-- The function `vfprintf` returns when the format does not end inside of a conversion. -/
theorem vfprintfCalls_isSome (args : Arguments) (flt : ℕ → Flt) {format : List Char}
    (hnul : NUL ∉ format) (ap : ℕ) :
  (vfprintfCalls args flt format ap).isSome ↔ Complete format
  := by
  rw [vfprintfCalls, Option.isSome_map]
  exact vfprintfCallsLoop_isSome (format.length + 1) [] format 0 _ hnul (Nat.lt_succ_self _) rfl

/-- The walk of `vfprintf` stays in the format and follows the arguments exactly when the format
does not end inside of a conversion, and no conversion that takes an argument is behind an
l-conversion. -/
theorem follows_iff (args : Arguments) (flt : ℕ → Flt) {format : List Char} (hnul : NUL ∉ format)
    (ap : ℕ) :
  Follows args flt format ap ↔
    Complete format ∧ ∀ pieces, format = formatOf pieces → LongLast pieces
  := by
  have hsome : (vfprintfCalls args flt format ap).isSome ↔ Complete format :=
    vfprintfCalls_isSome args flt hnul ap
  have hpieces (pieces : List Piece) (hformat : format = formatOf pieces) :
      vfprintfCalls args flt format ap = some (pieceCalls args flt ap pieces) := by
    subst hformat
    exact vfprintfCallsLoop_pieces pieces [] _ 0 { fmt := 0, ap, calls := [] }
      (Nat.lt_succ_self _) rfl
  have hread (pieces : List Piece) :
      readArgs (pieceCalls args flt ap pieces) = places Conversion.size ap (takers pieces) ↔
        LongLast pieces := by
    rw [readArgs_pieceCalls, places_eq_iff, LongLast]
  constructor
  · rintro ⟨calls, hcalls, hfollows⟩
    refine ⟨hsome.mp (by rw [hcalls]; rfl), fun pieces hformat => ?_⟩
    obtain rfl := Option.some.inj (hcalls.symm.trans (hpieces pieces hformat))
    exact (hread pieces).mp (hfollows pieces hformat)
  · rintro ⟨hcomplete, hlong⟩
    obtain ⟨calls, hcalls⟩ := Option.isSome_iff_exists.mp (hsome.mpr hcomplete)
    refine ⟨calls, hcalls, fun pieces hformat => ?_⟩
    obtain rfl := Option.some.inj (hcalls.symm.trans (hpieces pieces hformat))
    exact (hread pieces).mpr (hlong pieces hformat)

/-- Arguments that are zeros. -/
def zeros : Arguments where
  stack := fun _ => 0
  string := fun _ => []
  printFlt := fun _ => []

/-- The text `0` for every `double`. -/
def zeroFlt (_ : ℕ) : Flt where
  negative := false
  intPart := 0
  printables := []

/-- The theorem applied to a format with an `int` and a `long`. -/
theorem follows_iff_long :
  Follows zeros zeroFlt "%d %ld".toList 0 ↔
    Complete "%d %ld".toList ∧
      ∀ pieces, "%d %ld".toList = formatOf pieces → LongLast pieces
  := follows_iff zeros zeroFlt (by decide) 0

/-- A percent sign at the end makes `vfprintf` read behind the format, and an `int` behind a `long`
is read from the place of the `long`. -/
theorem not_follows :
  vfprintfCalls zeros zeroFlt ['%'] 0 = none ∧ ¬ Follows zeros zeroFlt ['%'] 0 ∧
    vfprintfCalls zeros zeroFlt ['%', 'l', 'd', '%', 'd'] 0
      = some [.vaArg 0 4, .fputc '0', .vaArg 0 2, .fputc '0'] ∧
    ¬ Follows zeros zeroFlt ['%', 'l', 'd', '%', 'd'] 0
  := by
  have hnone : vfprintfCalls zeros zeroFlt ['%'] 0 = none := by rfl
  have hcalls : vfprintfCalls zeros zeroFlt ['%', 'l', 'd', '%', 'd'] 0
      = some [.vaArg 0 4, .fputc '0', .vaArg 0 2, .fputc '0'] := by rfl
  refine ⟨hnone, ?_, hcalls, ?_⟩
  · rintro ⟨calls, hsome, -⟩
    rw [hnone] at hsome
    cases hsome
  · rintro ⟨calls, hsome, hfollows⟩
    obtain rfl := Option.some.inj (hcalls.symm.trans hsome)
    have hread := hfollows [.conversion (.int .ld), .conversion (.int .d)] rfl
    revert hread
    decide

end Etaos.Crt
