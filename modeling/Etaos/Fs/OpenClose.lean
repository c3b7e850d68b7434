import Etaos.Library.Run
import Etaos.Sched.Queue

/-!
# Opening and closing files

The file descriptor table `__iob`, with `vfs_open` and `vfs_close` of `open_close.c`.  A file
descriptor is kept twice, as the place of the file in the table and in the field `fd` of the
file.  What the path lookup and the file system answer to an open is an input.
-/

set_option linter.style.nameCheck false
set_option linter.unusedSectionVars false

namespace Etaos.Fs

/-- The constant `MAX_OPEN`. -/
def MAX_OPEN : ℕ := 24

/-- The error code `EBADF`. -/
def EBADF : ℤ := 6

/-- The file descriptor table, and the fields of the files that belong to it. -/
structure Iob (F : Type) where
  __iob : ℕ → Option F
  fd : F → ℤ
  flags : F → ℕ

/-- What is found under the path of an open. -/
inductive Lookup (F : Type) where
  /-- The file at the path.  Its function `open`, if it has one, answers with an error code. -/
  | file (file : F) (open' : Option ℕ)
  /-- No file, and no file system that opens files. -/
  | missing
  /-- No file, and what the file system creates at the path. -/
  | create (file : Option F)

/-- The file that an open adds to the table. -/
def Lookup.added {F : Type} : Lookup F → Option F
  | .file f open' => if open'.getD 0 = 0 then some f else none
  | .missing => none
  | .create f => f

namespace Iob

variable {F : Type}

/-- The loop of `iob_add` over `n` places from `rc` on. -/
def iobAddLoop (s : Iob F) [DecidableEq F] (stream : F) : ℕ → ℕ → Iob F × ℤ
  | 0, _ => (s, -1)
  | n + 1, rc =>
      if s.__iob rc = none then
        ({ s with
          __iob := Function.update s.__iob rc (some stream)
          fd := Function.update s.fd stream rc }, rc)
      else
        iobAddLoop s stream n (rc + 1)

variable [DecidableEq F]

/-- The function `iob_add`. -/
def iobAdd (s : Iob F) (stream : F) : Iob F × ℤ :=
  s.iobAddLoop stream (MAX_OPEN - 3) 3

/-- The function `iob_remove`. -/
def iobRemove (s : Iob F) (fd : ℕ) : Iob F × ℤ :=
  match s.__iob fd with
  | some file =>
      ({ s with
        __iob := Function.update s.__iob fd none
        fd := Function.update s.fd file 0 }, -EOK)
  | none => (s, -EINVAL)

/-- The file is added to the table, and its descriptor is the result. -/
def addFile (s : Iob F) (file : F) : Iob F × ℤ :=
  let s := (s.iobAdd file).1
  (s, s.fd file)

/-- The function `vfs_open`. -/
def vfsOpen (s : Iob F) (path : Lookup F) (mode : ℕ) : Iob F × ℤ :=
  match path with
  | .file file open' =>
      let s := { s with flags := Function.update s.flags file mode }
      let err : ℤ :=
        match open' with
        | some e => -e
        | none => -EOK
      if err = 0 then s.addFile file else (s, err)
  | .missing => (s, -EBADF)
  | .create none => (s, -EBADF)
  | .create (some file) =>
      let s := { s with flags := Function.update s.flags file mode }
      s.addFile file

/-- The function `vfs_close`. -/
def vfsClose (s : Iob F) (fd : ℕ) : Iob F × ℤ :=
  match s.__iob fd with
  | some file =>
      let s := (s.iobRemove fd).1
      ({ s with flags := Function.update s.flags file 0 }, -EOK)
  | none => (s, -EOK)

end Iob

/-- A call of `vfs_open` or `vfs_close`. -/
inductive FileOp (F : Type) where
  | open (path : Lookup F) (mode : ℕ)
  | close (fd : ℕ)

namespace Iob

variable {F : Type} [DecidableEq F]

/-- A call, with its result. -/
def call (s : Iob F) : FileOp F → Iob F × ℤ
  | .open path mode => s.vfsOpen path mode
  | .close fd => s.vfsClose fd

/-- A step of the table.  There is no descriptor past the end of the table. -/
def step (s : Iob F) : FileOp F → Option (Iob F)
  | .open path mode => some (s.vfsOpen path mode).1
  | .close fd => if fd < MAX_OPEN then some (s.vfsClose fd).1 else none

/-- The table with the standard streams, before any file is open. -/
def boot (std : ℕ → Option F) (flags : F → ℕ) : Iob F where
  __iob := fun i => if i < 3 then std i else none
  fd := fun _ => 0
  flags := flags

/-! ### The descriptors -/

/-- Every open descriptor is the one that its file holds. -/
structure Inv (s : Iob F) : Prop where
  fd_eq : ∀ i f, 3 ≤ i → i < MAX_OPEN → s.__iob i = some f → s.fd f = i
  fd_nonneg : ∀ f, 0 ≤ s.fd f

/-- A call does what is expected of it.  An open that succeeds returns the index of a place
that was empty and that refers to its file now, one that fails leaves the table as it is, and
a close empties its place.  All other places are kept, and so is the invariant. -/
def Serves (s : Iob F) (op : FileOp F) : Prop :=
  (s.call op).1.Inv ∧
    match op with
    | .open path _ =>
        ((s.call op).2 < 0 ∧ (s.call op).1.__iob = s.__iob) ∨
          ∃ i f, 3 ≤ i ∧ i < MAX_OPEN ∧ (s.call op).2 = (i : ℕ) ∧ path.added = some f ∧
            s.__iob i = none ∧ (s.call op).1.__iob = Function.update s.__iob i (some f)
    | .close fd => (s.call op).1.__iob = Function.update s.__iob fd none

/-- A file that is added to the table has no descriptor yet, and there is an empty place.  A
standard stream that is closed has no descriptor. -/
def Ok (s : Iob F) : FileOp F → Prop
  | .open path _ => ∀ f ∈ path.added,
      (∀ i < MAX_OPEN, 3 ≤ i → s.__iob i ≠ some f) ∧ ∃ i < MAX_OPEN, 3 ≤ i ∧ s.__iob i = none
  | .close fd => fd < 3 → ∀ f ∈ s.__iob fd, ∀ i < MAX_OPEN, 3 ≤ i → s.__iob i ≠ some f

instance (s : Iob F) : (op : FileOp F) → Decidable (Ok s op)
  | .open _ _ => inferInstanceAs (Decidable (∀ f ∈ _, _ ∧ _))
  | .close _ => inferInstanceAs (Decidable (_ → ∀ f ∈ _, _))

variable {s : Iob F}

theorem inv_mk_iff {iob : ℕ → Option F} {fd : F → ℤ} {flags : F → ℕ} :
  Inv ⟨iob, fd, flags⟩
    ↔ (∀ i f, 3 ≤ i → i < MAX_OPEN → iob i = some f → fd f = i) ∧ ∀ f, 0 ≤ fd f
  := ⟨fun h => ⟨h.fd_eq, h.fd_nonneg⟩, fun h => ⟨h.1, h.2⟩⟩

theorem inv_boot (std : ℕ → Option F) (flags : F → ℕ) : (boot std flags).Inv where
  fd_eq := by
    intro i f hi _ hf
    rw [boot] at hf
    dsimp only at hf
    rw [if_neg (by omega)] at hf
    cases hf
  fd_nonneg := fun _ => le_rfl

/-- The loop of `iob_add` finds the table full, or a place for the file. -/
theorem iobAddLoop_spec (s : Iob F) (stream : F) :
    ∀ (n rc : ℕ),
      (s.iobAddLoop stream n rc = (s, -1) ∧ ∀ i, rc ≤ i → i < rc + n → s.__iob i ≠ none) ∨
        ∃ i, rc ≤ i ∧ i < rc + n ∧ s.__iob i = none ∧
          s.iobAddLoop stream n rc = ({ s with
            __iob := Function.update s.__iob i (some stream)
            fd := Function.update s.fd stream i }, (i : ℤ))
  | 0, rc => by
      left
      use rfl
      intro i hle hlt
      omega
  | n + 1, rc => by
      rw [iobAddLoop]
      split
      · rename_i hfree
        right
        exact ⟨rc, le_rfl, by omega, hfree, rfl⟩
      · rename_i hused
        rcases iobAddLoop_spec s stream n (rc + 1) with ⟨hloop, hfull⟩ | ⟨i, hle, hlt, hfree, hloop⟩
        · left
          use hloop
          intro i hle hlt
          rcases Nat.eq_or_lt_of_le hle with rfl | hle
          · exact hused
          · apply hfull i hle (by omega)
        · right
          exact ⟨i, by omega, by omega, hfree, hloop⟩

/-- An open that adds a file answers with the descriptor that the file has then. -/
theorem call_open_added {path : Lookup F} {f : F} (mode : ℕ) (hf : path.added = some f) :
  s.call (.open path mode) = { s with flags := Function.update s.flags f mode }.addFile f
  := by
  cases path with
  | file file open' =>
      rw [Lookup.added] at hf
      split at hf
      · rename_i hzero
        obtain rfl := Option.some.inj hf
        cases open' with
        | none => rfl
        | some e =>
            obtain rfl : e = 0 := hzero
            rfl
      · cases hf
  | missing => cases hf
  | create file =>
      obtain rfl : file = some f := hf
      rfl

/-- An open that adds no file fails, and leaves the table and the descriptors as they are. -/
theorem call_open_failed {path : Lookup F} (mode : ℕ) (hf : path.added = none) :
  (s.call (.open path mode)).2 < 0 ∧ (s.call (.open path mode)).1.__iob = s.__iob ∧
    (s.call (.open path mode)).1.fd = s.fd
  := by
  cases path with
  | file file open' =>
      rw [Lookup.added] at hf
      split at hf
      · cases hf
      · rename_i hne
        cases open' with
        | none => exact absurd rfl hne
        | some e =>
            have he : e ≠ 0 := hne
            have hneg : (-(e : ℤ)) ≠ 0 := by omega
            simp only [call, vfsOpen, if_neg hneg, and_self, and_true]
            omega
  | missing => exact ⟨show -EBADF < 0 by decide, rfl, rfl⟩
  | create file =>
      obtain rfl : file = none := hf
      exact ⟨show -EBADF < 0 by decide, rfl, rfl⟩

/-- The condition on an open is exact. -/
theorem Inv.serves_open_iff (h : s.Inv) (path : Lookup F) (mode : ℕ) :
  s.Serves (.open path mode) ↔ s.Ok (.open path mode)
  := by
  simp only [Serves, Ok]
  cases hf : path.added with
  | none =>
      obtain ⟨hneg, htable, hfd⟩ := call_open_failed (s := s) mode hf
      simp only [Option.mem_def, reduceCtorEq, false_implies, implies_true, iff_true]
      refine ⟨⟨?_, ?_⟩, .inl ⟨hneg, htable⟩⟩
      · rw [htable, hfd]
        apply h.fd_eq
      · rw [hfd]
        apply h.fd_nonneg
  | some f =>
      simp only [Option.mem_def, Option.some_inj, forall_eq']
      rw [call_open_added mode hf, addFile, iobAdd]
      rcases iobAddLoop_spec { s with flags := Function.update s.flags f mode } f
        (MAX_OPEN - 3) 3 with ⟨hloop, hfull⟩ | ⟨i, hle, hlt, hfree, hloop⟩
      · -- no place is left, and the answer is a descriptor all the same
        rw [hloop]
        constructor
        · rintro ⟨-, ⟨hneg, -⟩ | ⟨i, g, hle, hlt, -, -, hfree, -⟩⟩
          · exact absurd (h.fd_nonneg f) (not_le.mpr hneg)
          · exact absurd hfree (hfull i hle hlt)
        · rintro ⟨-, i, hlt, hle, hfree⟩
          exact absurd hfree (hfull i hle hlt)
      · rw [hloop]
        change s.__iob i = none at hfree
        simp only [Function.update_self]
        constructor
        · rintro ⟨hinv, -⟩
          refine ⟨?_, i, hlt, hle, hfree⟩
          intro j hjlt hj hjf
          have hji : j ≠ i := by
            rintro rfl
            rw [hfree] at hjf
            cases hjf
          have hfd := (inv_mk_iff.mp hinv).1 j f hj hjlt (by rw [Function.update_of_ne hji, hjf])
          rw [Function.update_self] at hfd
          omega
        · rintro ⟨hnew, -⟩
          refine ⟨inv_mk_iff.mpr ⟨?_, ?_⟩, .inr ⟨i, f, hle, hlt, rfl, rfl, hfree, rfl⟩⟩
          · intro j g hj hjlt hg
            by_cases hji : j = i
            · subst hji
              rw [Function.update_self, Option.some_inj] at hg
              rw [← hg, Function.update_self]
            · rw [Function.update_of_ne hji] at hg
              have hgf : g ≠ f := by
                rintro rfl
                exact hnew j hjlt hj hg
              rw [Function.update_of_ne hgf]
              apply h.fd_eq j g hj hjlt hg
          · intro g
            by_cases hgf : g = f
            · subst hgf
              rw [Function.update_self]
              omega
            · rw [Function.update_of_ne hgf]
              apply h.fd_nonneg

/-- The condition on a close is exact. -/
theorem Inv.serves_close_iff (h : s.Inv) {fd : ℕ} (hfd : fd < MAX_OPEN) :
  s.Serves (.close fd) ↔ s.Ok (.close fd)
  := by
  simp only [Serves, Ok, call, vfsClose, iobRemove]
  cases hf : s.__iob fd with
  | none =>
      simp only [Option.mem_def, reduceCtorEq, false_implies, implies_true, iff_true]
      refine ⟨h, ?_⟩
      rw [← hf, Function.update_eq_self]
  | some f =>
      simp only [Option.mem_def, Option.some_inj, forall_eq', and_true]
      constructor
      · intro hinv hstd i hilt hi hif
        have hne : i ≠ fd := by omega
        have hfd := (inv_mk_iff.mp hinv).1 i f hi hilt (by rw [Function.update_of_ne hne, hif])
        rw [Function.update_self] at hfd
        omega
      · intro hstd
        rw [inv_mk_iff]
        constructor
        · intro i g hi hilt hg
          have hne : i ≠ fd := by
            rintro rfl
            rw [Function.update_self] at hg
            cases hg
          rw [Function.update_of_ne hne] at hg
          have hgf : g ≠ f := by
            rintro rfl
            by_cases hlow : fd < 3
            · exact hstd hlow i hilt hi hg
            · have hfdeq := h.fd_eq fd g (by omega) hfd hf
              rw [h.fd_eq i g hi hilt hg] at hfdeq
              omega
          rw [Function.update_of_ne hgf]
          apply h.fd_eq i g hi hilt hg
        · intro g
          by_cases hgf : g = f
          · subst hgf
            rw [Function.update_self]
          · rw [Function.update_of_ne hgf]
            apply h.fd_nonneg

/-- A step of the table is a call. -/
theorem step_eq_some {op : FileOp F} {t : Iob F} (hstep : s.step op = some t) :
  t = (s.call op).1 ∧ ∀ fd, op = .close fd → fd < MAX_OPEN
  := by
  cases op with
  | «open» path mode => exact ⟨(Option.some.inj hstep).symm, fun _ h => nomatch h⟩
  | close fd =>
      rw [step] at hstep
      split at hstep
      · rename_i hfd
        refine ⟨(Option.some.inj hstep).symm, ?_⟩
        rintro _ ⟨rfl⟩
        exact hfd
      · cases hstep

/-- The condition on a call is exact. -/
theorem Inv.serves_iff (h : s.Inv) {op : FileOp F} {t : Iob F} (hstep : s.step op = some t) :
  s.Serves op ↔ s.Ok op
  := by
  cases op with
  | «open» path mode => apply h.serves_open_iff
  | close fd => apply h.serves_close_iff ((step_eq_some hstep).2 fd rfl)

/-- In every state that a run of calls meeting the condition reaches, every open descriptor is
the one that its file holds, and the next call does what is expected of it exactly when it
meets the condition, too. -/
theorem serves_of_guarded {std : ℕ → Option F} {flags : F → ℕ} {s : Iob F}
    (hrun : Run.Guarded step Ok (boot std flags) s) :
  s.Inv ∧ ∀ op t, s.step op = some t → (s.Serves op ↔ s.Ok op)
  := by
  have hinv : s.Inv := by
    apply hrun.invariant Inv (inv_boot std flags)
    intro u op v hu hok hstep
    rw [(step_eq_some hstep).1]
    exact ((hu.serves_iff hstep).mpr hok).1
  exact ⟨hinv, fun op t hstep => hinv.serves_iff hstep⟩

/-- Two files are opened, one of them is closed and opened again, and an open fails. -/
theorem serves_of_guarded_reopen :
  ∃ s : Iob ℕ, Run.exec step (boot (fun i => some i) (fun _ => 0))
      [.open (.file 10 (some 0)) 1, .open (.create (some 11)) 3, .close 3,
        .open (.file 10 none) 2, .open (.file 12 (some 7)) 1] = some s ∧
    s.Inv ∧ ∀ op t, s.step op = some t → (s.Serves op ↔ s.Ok op)
  := by
  refine ⟨_, rfl, ?_⟩
  apply serves_of_guarded
  apply Run.guarded_of_exec (s := boot (fun i => some i) (fun _ => 0))
    [.open (.file 10 (some 0)) 1, .open (.create (some 11)) 3, .close 3,
      .open (.file 10 none) 2, .open (.file 12 (some 7)) 1] rfl
  decide

/-- A file that is opened twice holds the second descriptor only. -/
theorem not_inv_open_twice :
  ∃ s : Iob ℕ, Run.exec step (boot (fun i => some i) (fun _ => 0))
      [.open (.file 10 (some 0)) 1, .open (.file 10 (some 0)) 1] = some s ∧
    s.__iob 3 = some 10 ∧ s.fd 10 = 4 ∧ ¬ s.Inv
  := by
  refine ⟨_, rfl, rfl, rfl, ?_⟩
  intro h
  have hfd := h.fd_eq 3 10 (by decide) (by decide) rfl
  revert hfd
  decide

end Iob

end Etaos.Fs
