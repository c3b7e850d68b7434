import Etaos.Fs.Romfs

/-!
# The results of reading a file in program memory

A caller of `romfs_read` and `romfs_getc` takes the result `-EOF` for the end of the file, and
any other result for what was delivered.  The results are numbers of the type `int`, and a
character is signed: the byte 248 is the number -8, which is `-EOF`, and 40000 bytes that are
read are a negative number.  The length of a file whose entry has the length 0 wraps around.
-/

set_option linter.unusedSectionVars false

namespace Etaos.Fs

variable {w : SizeT} {flash : ℕ → UInt8}

namespace RomfsFile

/-- The requests deliver the content from its start, the index stays within the length, and a
request has the result `-EOF` exactly when the ones before it have delivered the whole content.
Any other result tells what the request delivers, so that a caller who goes on until `-EOF`, and
whose requests ask for enough, takes exactly the content. -/
structure Faithful (w : SizeT) (file : RomfsFile) (content : List UInt8) (rs : List Request) :
    Prop where
  isPrefix : file.drain w rs <+: content
  index_le : (file.after w rs).index ≤ (file.after w rs).length
  eof : ∀ rs₁ r rs₂, rs = rs₁ ++ r :: rs₂ →
    ((file.after w rs₁).result w r = -EOF ↔ file.drain w rs₁ = content)
  tells : ∀ rs₁ r rs₂, rs = rs₁ ++ r :: rs₂ → (file.after w rs₁).result w r ≠ -EOF →
    (file.after w rs₁).taken w r = ((file.after w rs₁).request w r).2
  readAll : content.length ≤ asked rs → file.readAll w rs = content

end RomfsFile

open RomfsFile

/-- The content of the file of an entry: the bytes of its array, but for the last one. -/
def romContent (w : SizeT) (flash : ℕ → UInt8) (entry : Romfs) : List UInt8 :=
  (List.range (entry.length - 1)).map fun i => flash ((entry.data + i) % w.size)

/-- The condition on the requests to the file of an entry: the length of the entry is not 0, and
the result of each request tells what it delivers. -/
def Tells (w : SizeT) (entry : Romfs) (content : List UInt8) (rs : List Request) : Prop :=
  (entry.length ≠ 0 ∨ rs = []) ∧ Plain w content 0 rs

/-! ### The requests -/

namespace RomfsFile

variable {file : RomfsFile} {buff content : List UInt8} {start : ℕ} {rs : List Request}

/-- The results tell what is delivered when the result of each request does. -/
theorem plain_iff_forall :
  Plain w content start rs ↔
    ∀ rs₁ r rs₂, rs = rs₁ ++ r :: rs₂ → r.Plain w content (start + asked rs₁)
  := by
  induction rs generalizing start with
  | nil => simp [Plain]
  | cons r rs ih =>
      rw [Plain, ih]
      constructor
      · rintro ⟨hr, hrs⟩ rs₁ r' rs₂ heq
        cases rs₁ with
        | nil =>
            obtain ⟨rfl, -⟩ := List.cons.inj heq
            exact hr
        | cons r₁ rs₁ =>
            obtain ⟨rfl, hrest⟩ := List.cons.inj heq
            rw [asked_cons, ← Nat.add_assoc]
            exact hrs rs₁ r' rs₂ hrest
      · intro h
        refine ⟨h [] r rs rfl, fun rs₁ r' rs₂ heq => ?_⟩
        rw [Nat.add_assoc, ← asked_cons]
        exact h (r :: rs₁) r' rs₂ (by rw [heq, List.cons_append])

/-- The requests deliver the whole content when they ask for all of it. -/
theorem At.drain_eq_iff (h : file.At content 0) :
  file.drain w rs = content ↔ content.length ≤ asked rs
  := by
  rw [h.drain, List.drop_zero, List.take_eq_self_iff]

/-- A request behind others has the result `-EOF` at the end only, and the caller takes all of it,
exactly when its result tells what it delivers. -/
theorem At.plain_after_iff (h : file.At content 0) (hsize : content.length < w.size)
    (rs : List Request) (r : Request) :
  r.Plain w content (asked rs) ↔
    ((file.after w rs).result w r = -EOF ↔ file.drain w rs = content) ∧
      ((file.after w rs).result w r ≠ -EOF →
        (file.after w rs).taken w r = ((file.after w rs).request w r).2)
  := by
  have hafter : (file.after w rs).At content (asked rs) := by
    rw [← Nat.zero_add (asked rs)]
    exact h.after rs
  rw [h.drain_eq_iff]
  by_cases hle : content.length ≤ asked rs
  · have hend := hafter.result_end hle r (w := w)
    simp [hend, hle, r.plain_of_le w hle]
  · rw [hafter.plain_iff (by omega) hsize, iff_false_right hle]
    constructor
    · rintro ⟨hne, htaken⟩
      exact ⟨hne, fun _ => htaken⟩
    · rintro ⟨hne, htaken⟩
      exact ⟨hne, htaken hne⟩

/-- The requests to a file are faithful when the result of each tells what it delivers. -/
theorem At.faithful_iff (h : file.At content 0) (hsize : content.length < w.size) :
  file.Faithful w content rs ↔ Plain w content 0 rs
  := by
  constructor
  · intro hfaithful
    rw [plain_iff_forall]
    intro rs₁ r rs₂ hrs
    rw [Nat.zero_add, h.plain_after_iff hsize]
    exact ⟨hfaithful.eof rs₁ r rs₂ hrs, hfaithful.tells rs₁ r rs₂ hrs⟩
  · intro hplain
    have hall (rs₁ r rs₂) (hrs : rs = rs₁ ++ r :: rs₂) := by
      have hr := plain_iff_forall.mp hplain rs₁ r rs₂ hrs
      rw [Nat.zero_add] at hr
      exact (h.plain_after_iff hsize rs₁ r).mp hr
    constructor
    · rw [h.drain, List.drop_zero]
      exact List.take_prefix ..
    · rw [(h.after rs).index]
      exact min_le_left ..
    · intro rs₁ r rs₂ hrs
      exact (hall rs₁ r rs₂ hrs).1
    · intro rs₁ r rs₂ hrs
      exact (hall rs₁ r rs₂ hrs).2
    · intro hle
      rw [h.readAll_eq hsize hplain, List.drop_zero, List.take_of_length_le hle]

/-- A file with bytes is never faithful to the empty content. -/
theorem At.faithful_nil_iff (h : file.At buff 0) (hpos : 0 < buff.length) :
  file.Faithful w [] rs ↔ rs = []
  := by
  constructor
  · intro hfaithful
    cases rs with
    | nil => rfl
    | cons r rs =>
        exfalso
        -- the first request should have the result `-EOF`, but delivers bytes then
        have hresult := (hfaithful.eof [] r rs rfl).mpr rfl
        apply h.request_ne_nil hpos hresult
        have hprefix := List.prefix_nil.mp hfaithful.isPrefix
        exact (List.append_eq_nil_iff.mp hprefix).1
  · rintro rfl
    refine ⟨List.prefix_rfl, ?_, ?_, ?_, fun _ => rfl⟩
    · rw [RomfsFile.after, h.index]
      exact min_le_left ..
    · intro rs₁ r rs₂ hrs
      simp at hrs
    · intro rs₁ r rs₂ hrs
      simp at hrs

end RomfsFile

/-! ### Reading -/

/-- The content of an entry is read from a file that is opened. -/
theorem length_setup (w : SizeT) {entry : Romfs} (hentry : entry.length < w.size)
    (hpos : entry.length ≠ 0) :
  (romfsSetupFile w entry).length = entry.length - 1
  := by
  have hsplit : entry.length + w.size - 1 = entry.length - 1 + w.size := by omega
  rw [romfsSetupFile]
  dsimp only
  rw [hsplit, Nat.add_mod_right, Nat.mod_eq_of_lt (by omega)]

/-- The requests to a file that is opened deliver its content, and tell the end and what they
deliver, exactly when the length of its entry is not 0, no character is the byte 248, and the
number of bytes of each read is an `int`. -/
theorem faithful_iff_tells {entry : Romfs} {fd : ℤ} (hentry : entry.length < w.size)
    (hfd : 0 ≤ fd) (rs : List Request) :
  (((romfsSetupFile w entry).romfsOpen w flash fd).2 = -EOK ∧
      ((romfsSetupFile w entry).romfsOpen w flash fd).1.Faithful w (romContent w flash entry)
        rs) ↔
    Tells w entry (romContent w flash entry) rs
  := by
  have hopened : ((romfsSetupFile w entry).romfsOpen w flash fd).2 = -EOK := by
    rw [romfsOpen_setup hfd]
  have hat : ((romfsSetupFile w entry).romfsOpen w flash fd).1.At
      (atmegaFlashRead w flash entry.data (romfsSetupFile w entry).length) 0 := at_romfsOpen hfd
  rw [atmegaFlashRead_eq] at hat
  simp only [hopened, true_and]
  rw [Tells]
  by_cases hzero : entry.length = 0
  · have hnil : romContent w flash entry = [] := by
      rw [romContent, hzero]
      rfl
    have hlength : (romfsSetupFile w entry).length = w.size - 1 := by
      rw [romfsSetupFile, hzero, Nat.zero_add]
      exact Nat.mod_eq_of_lt (by omega)
    have hsize := w.le_size
    rw [hnil, hat.faithful_nil_iff]
    · simp only [hzero, ne_eq, not_true_eq_false, false_or]
      constructor
      · rintro rfl
        exact ⟨rfl, trivial⟩
      · exact And.left
    · rw [List.length_map, List.length_range]
      omega
  · have hlength := length_setup w hentry hzero
    have hcontent : (romContent w flash entry).length = entry.length - 1 := by
      rw [romContent, List.length_map, List.length_range]
    rw [hlength, ← romContent] at hat
    simp only [hzero, ne_eq, not_false_eq_true, true_or, true_and]
    apply hat.faithful_iff
    omega

/-- The theorem applied to a character and two reads of a file with two bytes. -/
theorem faithful_iff_tells_two :
  (((romfsSetupFile SizeT.avr ⟨3, 0⟩).romfsOpen SizeT.avr (fun _ => 7) 3).2 = -EOK ∧
      ((romfsSetupFile SizeT.avr ⟨3, 0⟩).romfsOpen SizeT.avr (fun _ => 7) 3).1.Faithful SizeT.avr
        (romContent SizeT.avr (fun _ => 7) ⟨3, 0⟩) [.getc, .read 5, .read 5]) ↔
    Tells SizeT.avr ⟨3, 0⟩ (romContent SizeT.avr (fun _ => 7) ⟨3, 0⟩) [.getc, .read 5, .read 5]
  := faithful_iff_tells (by decide) (by decide) _

/-- The character of a file with the byte 248 is taken for the end of the file. -/
theorem not_faithful_char :
  ((romfsSetupFile SizeT.avr ⟨2, 0⟩).romfsOpen SizeT.avr (fun _ => 248) 3).1.result SizeT.avr .getc
      = -EOF ∧
    ¬ ((romfsSetupFile SizeT.avr ⟨2, 0⟩).romfsOpen SizeT.avr (fun _ => 248) 3).1.Faithful
      SizeT.avr (romContent SizeT.avr (fun _ => 248) ⟨2, 0⟩) [.getc]
  := by
  have hresult : ((romfsSetupFile SizeT.avr ⟨2, 0⟩).romfsOpen SizeT.avr (fun _ => 248) 3).1.result
      SizeT.avr .getc = -EOF := by decide
  refine ⟨hresult, fun h => ?_⟩
  have hall := (h.eof [] .getc [] rfl).mp hresult
  revert hall
  decide

end Etaos.Fs
