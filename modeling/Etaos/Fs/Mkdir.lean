import Etaos.Fs.Tree
import Etaos.Sched.Queue

/-!
# Making directories and removing files

The calls that change the tree of directories while the system runs: `mkdir`, `mount`, the
creation of files by `vfs_open` and `vfs_add_file`, and `unlink`.

`mkdir` does not look whether the parent has a child of that name already, and puts the new
directory before it.  As long as no call does this, or looks up a directory on a way with a
mismatch, `mkdir` leaves everything that the lookups find where it is, and `unlink` takes out
the one file only.
-/

set_option linter.unusedSectionVars false

namespace Etaos.Fs

open Lib

namespace Dirents

/-! ### Removing a file -/

/-- The value of the field that `fpp` points to: `file_head` of the directory, or `next` of a
file. -/
def load (m : Dirents) (dir : ℕ) : Option ℕ → Option ℕ
  | none => m.fileHead dir
  | some file => m.next file

/-- The memory after a write to the field that `fpp` points to. -/
def store (m : Dirents) (dir : ℕ) (fpp value : Option ℕ) : Dirents :=
  match fpp with
  | none => { m with fileHead := Function.update m.fileHead dir value }
  | some file => { m with next := Function.update m.next file value }

/-- The loop of `dirent_remove_file`. -/
def removeFileLoop (m : Dirents) (dir file : ℕ) : ℕ → Option ℕ → Option (Dirents × Option ℕ)
  | 0, _ => none
  | n + 1, fpp =>
      match m.load dir fpp with
      | none => some (m, none)
      | some carriage =>
          if carriage = file then
            some (m.store dir fpp (m.next carriage), some file)
          else
            removeFileLoop m dir file n (some carriage)

/-- The function `dirent_remove_file`, with the number of fields it visits at most. -/
def direntRemoveFile (m : Dirents) (n : ℕ) (dir file : Option ℕ) :
    Option (Dirents × Option ℕ) :=
  match dir, file with
  | some dir, some file => m.removeFileLoop dir file n none
  | _, _ => some (m, none)

end Dirents

/-! ### The calls -/

/-- The directories and files, and the files whose memory is allocated. -/
structure Vfs where
  dirents : Dirents
  files : List ℕ

/-- The calls that change the tree of directories, with the memory that `kzalloc` returns. -/
inductive VfsOp where
  | mkdir (path : Str) (dir : ℕ)
  | mount (fs : Option ℕ) (path : Option Str)
  | vfsOpen (path : Str) (file : ℕ)
  | vfsAddFile (path : Str) (name : Str) (file : ℕ)
  | unlink (path : Str)

namespace Vfs

open Dirents

/-- The memory with the directory `vfs_root` and no files. -/
def boot : Vfs where
  dirents := Dirents.boot fun _ => []
  files := []

/-- The lookup of a directory from `vfs_root`. -/
def findDir (s : Vfs) (path : Option Str) : Option (Option ℕ) :=
  s.dirents.direntFind (some vfsRoot) path

/-- The function `vfs_find_file`. -/
def findFile (s : Vfs) (path : Str) : Option (Option ℕ) :=
  s.dirents.vfsFindFile s.files.length path

/-- A file with a name is allocated. -/
def alloc (s : Vfs) (name : Str) (file : ℕ) : Vfs where
  dirents := { s.dirents with
    fileName := Function.update s.dirents.fileName file name
    next := Function.update s.dirents.next file none }
  files := file :: s.files

/-- The function `mkdir`. -/
def mkdir (s : Vfs) (path : Str) (dir : ℕ) : Option (Vfs × ℤ) :=
  match basename path, basepath path with
  | some dirname, some base => do
      let parent ← s.findDir (some base)
      match parent with
      | none => some (s, -EINVAL)
      | some parent =>
          let (dirents, _) ←
            (s.dirents.direntCreate dirname dir).direntAddChild (some parent) (some dir)
          some ({ s with dirents }, -EOK)
  | _, _ => some (s, -EINVAL)

/-- The function `mount`. -/
def mount (s : Vfs) (fs : Option ℕ) (path : Option Str) : Option (Vfs × ℤ) :=
  match fs, path with
  | some fs, some path => do
      let dir ← s.findDir (some path)
      match dir with
      | none => some (s, -EINVAL)
      | some dir =>
          let dirents := { s.dirents with fs := Function.update s.dirents.fs dir (some fs) }
          some ({ s with dirents }, -EOK)
  | _, _ => some (s, -EINVAL)

/-- The function `vfs_add_file`. -/
def vfsAddFile (s : Vfs) (path : Option Str) (file : ℕ) : Option (Vfs × ℤ) := do
  let dir ← s.findDir path
  match dir with
  | none => some (s, -EINVAL)
  | some dir => some ({ s with dirents := (s.dirents.direntAddFile dir file).1 }, -EOK)

/-- The function `ramfs_create`, with the file that it allocates. -/
def ramfsCreate (s : Vfs) (path : Str) (file : ℕ) : Option Vfs :=
  ((s.alloc ((basename path).getD []) file).vfsAddFile (basepath path) file).map Prod.fst

/-- The function `vfs_path_to_fs`. -/
def vfsPathToFs (s : Vfs) (path : Option Str) : Option (Option ℕ) := do
  let dir ← s.findDir path
  some (dir.bind s.dirents.fs)

/-- The tree after `vfs_open`.  A file is created when there is none at the path, and the file
system of its directory is one of those that create files. -/
def vfsOpen (creates : ℕ → Bool) (s : Vfs) (path : Str) (file : ℕ) : Option Vfs := do
  let found ← s.findFile path
  match found with
  | some _ => some s
  | none => do
      let fs ← s.vfsPathToFs (basepath path)
      if fs.any creates then s.ramfsCreate path file else some s

/-- The function `unlink`. -/
def unlink (s : Vfs) (path : Str) : Option (Vfs × ℤ) :=
  match basepath path, basename path with
  | some filepath, some filename => do
      let dir ← s.findDir (some filepath)
      let file ← s.dirents.direntFindFile s.files.length dir filename
      match file with
      | none => some (s, -EINVAL)
      | some _ =>
          let (dirents, removed) ← s.dirents.direntRemoveFile (s.files.length + 1) dir file
          some ({ s with dirents }, if removed = file then -EOK else -EINVAL)
  | _, _ => some (s, -EINVAL)

/-- The memory that a call allocates is not allocated yet. -/
def Fresh (s : Vfs) : VfsOp → Prop
  | .mkdir _ dir => dir ∉ s.dirents.live
  | .vfsOpen _ file => file ∉ s.files
  | .vfsAddFile _ _ file => file ∉ s.files
  | .mount _ _ => True
  | .unlink _ => True

instance (s : Vfs) (op : VfsOp) : Decidable (s.Fresh op) := by
  cases op <;> rw [Fresh] <;> infer_instance

/-- The tree after a call. -/
def call (creates : ℕ → Bool) (s : Vfs) : VfsOp → Option Vfs
  | .mkdir path dir => (s.mkdir path dir).map Prod.fst
  | .mount fs path => (s.mount fs path).map Prod.fst
  | .vfsOpen path file => s.vfsOpen creates path file
  | .vfsAddFile path name file =>
      ((s.alloc name file).vfsAddFile (some path) file).map Prod.fst
  | .unlink path => (s.unlink path).map Prod.fst

/-- A step of the system: a call with memory that is not allocated yet. -/
def step (creates : ℕ → Bool) (s : Vfs) (op : VfsOp) : Option Vfs :=
  if s.Fresh op then s.call creates op else none

/-! ### The frame -/

/-- The lookup of a directory meets no mismatch on its way. -/
def Passes (s : Vfs) (path : Str) : Prop :=
  s.dirents.name vfsRoot = path ∨ s.dirents.Clear vfsRoot (sections path)

/-- The directory that a path resolves to. -/
def Resolves (m : Dirents) (path : Str) (d : ℕ) : Prop :=
  m.name vfsRoot = path ∧ d = vfsRoot ∨
    m.name vfsRoot ≠ path ∧ sections path ≠ [] ∧ m.Leads vfsRoot (sections path) d

/-- The path of a call whose directory is looked up. -/
def lookupPath : VfsOp → Option Str
  | .mkdir path _ => basepath path
  | .mount fs path => fs.bind fun _ => path
  | .vfsOpen path _ => basepath path
  | .vfsAddFile path _ _ => some path
  | .unlink path => basepath path

/-- The condition on a call: its lookup meets no mismatch, and `mkdir` is called with a name that
no child of the parent has. -/
def Ok (s : Vfs) (op : VfsOp) : Prop :=
  (∀ path ∈ lookupPath op, s.Passes path) ∧
    match op with
    | .mkdir path _ =>
        ∀ base ∈ basepath path, ∀ parent, Resolves s.dirents base parent →
          ∀ c, s.dirents.Child parent c → some (s.dirents.name c) ≠ basename path
    | _ => True

/-- Every directory and every file that the lookups find is still found at its path. -/
def Keeps (s t : Vfs) : Prop :=
  (∀ path d, s.findDir path = some (some d) → t.findDir path = some (some d)) ∧
    ∀ path f, s.findFile path = some (some f) → t.findFile path = some (some f)

/-- The file at the path is taken off its list, and nothing else; when there is none, the call
fails and changes nothing. -/
def Removes (s : Vfs) (path : Str) (t : Vfs) (err : ℤ) : Prop :=
  (s.findFile path = some none ∧ err = -EINVAL ∧ t = s) ∨
    ∃ file, s.findFile path = some (some file) ∧ err = -EOK ∧
      (∀ d ∈ s.dirents.live, ∀ f,
        t.dirents.Registered d f ↔ s.dirents.Registered d f ∧ f ≠ file) ∧
      (∀ path, t.findDir path = s.findDir path) ∧
      ∀ path, s.findFile path ≠ some (some file) → t.findFile path = s.findFile path

/-- The directories form a forest, and a file that is on a list is allocated, and on no other
place of a list. -/
structure Inv (s : Vfs) (kids files : ℕ → List ℕ) : Prop where
  tree : s.dirents.Tree kids
  chains : s.dirents.Files files
  nodup : ∀ d ∈ s.dirents.live, (files d).Nodup
  allocated : ∀ d ∈ s.dirents.live, ∀ f ∈ files d, f ∈ s.files
  disjoint : ∀ d ∈ s.dirents.live, ∀ d' ∈ s.dirents.live, ∀ f ∈ files d, f ∈ files d' → d = d'

variable {s : Vfs} {kids files : ℕ → List ℕ}

theorem inv_boot : boot.Inv (fun _ => []) (fun _ => []) where
  tree := tree_boot _
  chains _ _ := rfl
  nodup _ _ := List.nodup_nil
  allocated _ _ _ hf := absurd hf List.not_mem_nil
  disjoint _ _ _ _ _ hf := absurd hf List.not_mem_nil

/-! ### Lookups -/

/-- A way that leads somewhere meets no mismatch. -/
theorem clear_of_leads {m : Dirents} (h : m.Tree kids) :
    ∀ (sections : List Str) {d e : ℕ}, m.Leads d sections e → m.Clear d sections
  | [], _, _, _ => trivial
  | sect :: sections, d, e, ⟨c, hc, hname, hlead⟩ => by
      refine ⟨fun c' hc' hname' => ?_, fun _ => ⟨c, hc, hname⟩⟩
      rw [h.names d c' c hc' hc (hname'.trans hname.symm)]
      exact clear_of_leads h sections hlead

theorem Inv.findDir_resolves (h : s.Inv kids files) {path : Str} (hpass : s.Passes path) :
  ∃ r, s.findDir (some path) = some r ∧ ∀ d, r = some d ↔ Resolves s.dirents path d
  := by
  rw [findDir, direntFind, fsSplitPath_eq]
  by_cases hname : s.dirents.name vfsRoot = path
  · rw [if_pos hname]
    refine ⟨_, rfl, fun d => ?_⟩
    rw [Option.some_inj]
    constructor
    · rintro rfl
      exact .inl ⟨hname, rfl⟩
    · rintro (⟨-, rfl⟩ | ⟨hne, -⟩)
      · rfl
      · exact absurd hname hne
  · rw [if_neg hname]
    simp only [Resolves, hname, false_and, not_false_eq_true, true_and, false_or,
      Option.bind_eq_bind, Option.bind_some, ne_eq]
    have hclear := hpass.resolve_left hname
    cases hsections : sections path with
    | nil => exact ⟨none, rfl, by simp⟩
    | cons sect rest =>
        rw [hsections] at hclear
        obtain ⟨x, found, hfind, hleads⟩ := h.tree.findSections_clear _ h.tree.root_live hclear
        have hfound : s.dirents.findSections (sect :: rest) vfsRoot false
            = s.dirents.findSections (sect :: rest) vfsRoot true := rfl
        rw [hfound, hfind]
        refine ⟨if found then some x else none, rfl, fun d => ?_⟩
        rw [← hleads d]
        cases found <;> simp

/-- The lookup of a directory finds the one that the path resolves to. -/
theorem Inv.findDir_iff (h : s.Inv kids files) {path : Str} {d : ℕ} :
  s.findDir (some path) = some (some d) ↔ Resolves s.dirents path d
  := by
  constructor
  · intro hfind
    by_cases hpass : s.Passes path
    · obtain ⟨r, hr, hiff⟩ := h.findDir_resolves hpass
      rw [hr] at hfind
      exact (hiff d).mp (Option.some.inj hfind)
    · rw [Passes, not_or] at hpass
      obtain ⟨hname, hclear⟩ := hpass
      rw [findDir, direntFind, if_neg hname, fsSplitPath_eq] at hfind
      cases hsections : sections path with
      | nil =>
          rw [hsections] at hclear
          exact absurd trivial hclear
      | cons sect rest =>
          rw [hsections] at hfind hclear
          have hlost : s.dirents.findSections (sect :: rest) vfsRoot false = none :=
            h.tree.findSections_not_clear _ h.tree.root_live hclear
          simp [hlost] at hfind
  · intro hres
    have hpass : s.Passes path := by
      rcases hres with ⟨hname, -⟩ | ⟨-, -, hlead⟩
      · exact .inl hname
      · exact .inr (clear_of_leads h.tree _ hlead)
    obtain ⟨r, hr, hiff⟩ := h.findDir_resolves hpass
    rw [hr, (hiff d).mpr hres]

theorem Inv.live_of_findDir (h : s.Inv kids files) {path : Str} {d : ℕ}
    (hfind : s.findDir (some path) = some (some d)) :
  d ∈ s.dirents.live
  := by
  rcases h.findDir_iff.mp hfind with ⟨-, rfl⟩ | ⟨-, -, hlead⟩
  · exact h.tree.root_live
  · exact h.tree.live_of_leads _ h.tree.root_live hlead

/-- The lists of files are not longer than the list of all files. -/
theorem Inv.length_files_le (h : s.Inv kids files) {d : ℕ} (hd : d ∈ s.dirents.live) :
  (files d).length ≤ s.files.length
  := by
  apply List.Subperm.length_le
  apply (h.nodup d hd).subperm
  exact fun f hf => h.allocated d hd f hf

/-- The lookup of a file in the directory that is found. -/
theorem Inv.findFile_of_findDir (h : s.Inv kids files) {path base name : Str} {d : ℕ}
    (hbase : basepath path = some base) (hname : basename path = some name)
    (hfind : s.findDir (some base) = some (some d)) :
  s.findFile path = some ((files d).find? (s.dirents.fileName · = name))
  := by
  have hd := h.live_of_findDir hfind
  rw [findDir] at hfind
  rw [findFile, vfsFindFile, hbase, hname]
  simp only [Option.bind_eq_bind, hfind, Option.bind_some, direntFindFile]
  exact findFileLoop_eq name _ (h.chains d hd) (h.length_files_le hd)

/-- A file that is found is the first one with its name in its directory. -/
theorem Inv.findFile_iff (h : s.Inv kids files) {path : Str} {f : ℕ} :
  s.findFile path = some (some f) ↔
    ∃ base ∈ basepath path, ∃ name ∈ basename path, ∃ d,
      s.findDir (some base) = some (some d) ∧
        (files d).find? (s.dirents.fileName · = name) = some f
  := by
  constructor
  · intro hfile
    cases hbase : basepath path with
    | none => simp [findFile, vfsFindFile, hbase] at hfile
    | some base =>
        cases hname : basename path with
        | none => simp [findFile, vfsFindFile, hbase, hname] at hfile
        | some name =>
            cases hfind : s.findDir (some base) with
            | none =>
                rw [findDir] at hfind
                simp [findFile, vfsFindFile, hbase, hname, hfind] at hfile
            | some r =>
                cases r with
                | none =>
                    rw [findDir] at hfind
                    simp [findFile, vfsFindFile, hbase, hname, hfind, direntFindFile] at hfile
                | some d =>
                    rw [h.findFile_of_findDir hbase hname hfind] at hfile
                    exact ⟨base, rfl, name, rfl, d, hfind, Option.some.inj hfile⟩
  · rintro ⟨base, hbase, name, hname, d, hfind, hfirst⟩
    rw [h.findFile_of_findDir hbase hname hfind, hfirst]

/-! ### `mkdir` -/

theorem leads_mono {m m' : Dirents}
    (hchild : ∀ d c, m.Child d c → m'.Child d c ∧ m'.name c = m.name c) :
    ∀ (sections : List Str) {d e : ℕ}, m.Leads d sections e → m'.Leads d sections e
  | [], _, _, hlead => hlead
  | _ :: sections, d, _, ⟨c, hc, hname, hlead⟩ =>
      ⟨c, (hchild d c hc).1, (hchild d c hc).2.trans hname, leads_mono hchild sections hlead⟩

/-- What is found in a tree is found in a larger one with the same lists of files. -/
theorem Inv.keeps {t : Vfs} {kids' files' : ℕ → List ℕ} (h : s.Inv kids files)
    (ht : t.Inv kids' files')
    (hchild : ∀ d c, s.dirents.Child d c →
      t.dirents.Child d c ∧ t.dirents.name c = s.dirents.name c)
    (hfiles : ∀ d ∈ s.dirents.live, files' d = files d)
    (hname : t.dirents.fileName = s.dirents.fileName) :
  s.Keeps t
  := by
  have hdir (path : Str) (d : ℕ) (hd : s.findDir (some path) = some (some d)) :
      t.findDir (some path) = some (some d) := by
    rw [h.findDir_iff, Resolves, h.tree.root_name] at hd
    rw [ht.findDir_iff, Resolves, ht.tree.root_name]
    exact hd.imp_right fun hd => ⟨hd.1, hd.2.1, leads_mono hchild _ hd.2.2⟩
  constructor
  · intro path d hd
    cases path with
    | none => simp [findDir, direntFind] at hd
    | some path => exact hdir path d hd
  · intro path f hf
    obtain ⟨base, hbase, name, hbasename, d, hd, hfirst⟩ := h.findFile_iff.mp hf
    rw [ht.findFile_iff]
    refine ⟨base, hbase, name, hbasename, d, hdir base d hd, ?_⟩
    rw [hfiles d (h.live_of_findDir hd), hname]
    exact hfirst

/-- A new directory becomes the first child of its parent. -/
theorem Inv.addDir (h : s.Inv kids files) {dirname : Str} {parent dir : ℕ}
    (hfresh : dir ∉ s.dirents.live) (hparent : parent ∈ s.dirents.live)
    (hnew : ∀ c, s.dirents.Child parent c → s.dirents.name c ≠ dirname) :
  ∃ m', (s.dirents.direntCreate dirname dir).direntAddChild (some parent) (some dir)
      = some (m', some dir) ∧
    (∀ d c, s.dirents.Child d c → m'.Child d c ∧ m'.name c = s.dirents.name c) ∧
    m'.fileName = s.dirents.fileName ∧
    Inv { s with dirents := m' } (Function.update kids parent (dir :: kids parent))
      (Function.update files dir [])
  := by
  have hne {d : ℕ} (hd : d ∈ s.dirents.live) : d ≠ dir := fun heq => hfresh (heq ▸ hd)
  let m := s.dirents.direntCreate dirname dir
  have hchild : m.Child = s.dirents.Child := child_direntCreate dirname hfresh
  have hname {d : ℕ} (hd : d ∈ s.dirents.live) : m.name d = s.dirents.name d :=
    Function.update_of_ne (hne hd) ..
  have hhead {d : ℕ} (hd : d ∈ s.dirents.live) : m.fileHead d = s.dirents.fileHead d :=
    Function.update_of_ne (hne hd) ..
  have hok : m.BuildOk (.addChild (some parent) (some dir)) := by
    refine ⟨List.mem_cons_of_mem _ hparent, List.mem_cons_self, Function.update_self .., ?_, ?_⟩
    · -- a directory without children is above no other one
      intro hway
      rcases hway.cases_head with heq | ⟨c, hc, -⟩
      · exact hfresh (heq ▸ hparent)
      · rw [hchild] at hc
        exact hfresh (h.tree.parent_live dir c hc)
    · intro c hc
      rw [hchild] at hc
      have hself : m.name dir = dirname := Function.update_self ..
      rw [hname hc.1, hself]
      exact hnew c hc
  obtain ⟨m', hadd, htree, hchild', hlive, hname', hhead', hnext, hfile⟩ :=
    (h.tree.create dirname hfresh).addChild hok
  have hcases {P : ℕ → Prop} (hself : P dir) (hrest : ∀ d ∈ s.dirents.live, P d) :
      ∀ d ∈ m'.live, P d := by
    have hcons : m'.live = dir :: s.dirents.live := hlive
    rw [hcons, List.forall_mem_cons]
    exact ⟨hself, hrest⟩
  refine ⟨m', hadd, ?_, hfile, ?_⟩
  · intro d c hc
    refine ⟨(hchild' d c).mpr (.inl (hchild ▸ hc)), ?_⟩
    rw [hname', hname hc.1]
  · constructor
    · exact htree
    · apply hcases
      · rw [Function.update_self, hhead']
        exact Function.update_self ..
      · intro d hd
        rw [Function.update_of_ne (hne hd), hhead', hnext, hhead hd]
        exact h.chains d hd
    · apply hcases
      · rw [Function.update_self]
        exact List.nodup_nil
      · intro d hd
        rw [Function.update_of_ne (hne hd)]
        exact h.nodup d hd
    · apply hcases
      · simp
      · intro d hd
        rw [Function.update_of_ne (hne hd)]
        exact h.allocated d hd
    · apply hcases
      · simp
      · intro d hd
        apply hcases
        · simp
        · intro d' hd'
          rw [Function.update_of_ne (hne hd), Function.update_of_ne (hne hd')]
          exact h.disjoint d hd d' hd'

/-- The function `mkdir` adds a directory to the one that it finds. -/
theorem Inv.mkdir (h : s.Inv kids files) {path base dirname : Str} {parent dir : ℕ}
    (hfresh : dir ∉ s.dirents.live) (hbase : basepath path = some base)
    (hname : basename path = some dirname) (hfind : s.findDir (some base) = some (some parent))
    (hnew : ∀ c, s.dirents.Child parent c → s.dirents.name c ≠ dirname) :
  ∃ t, s.mkdir path dir = some (t, -EOK) ∧ s.Keeps t ∧ ∃ kids files, t.Inv kids files
  := by
  obtain ⟨m', hadd, hchild, hfile, hinv⟩ := h.addDir hfresh (h.live_of_findDir hfind) hnew
  refine ⟨{ s with dirents := m' }, ?_, h.keeps hinv hchild ?_ hfile, _, _, hinv⟩
  · rw [Vfs.mkdir, hname, hbase]
    simp only [Option.bind_eq_bind, hfind, Option.bind_some]
    rw [hadd]
    rfl
  · intro d hd
    have hne : d ≠ dir := fun heq => hfresh (heq ▸ hd)
    exact Function.update_of_ne hne ..

/-! ### Files -/

/-- A change of the lists of files does not change the lookup of directories. -/
theorem findSections_congr {m m' : Dirents} (hname : m'.name = m.name)
    (hlists : m'.lists = m.lists) (hlive : m'.live = m.live) (sections : List Str) :
    ∀ search found, m'.findSections sections search found = m.findSections sections search found
  := by
  have hchild (sect : Str) (n : ℕ) (carriage : Node) (search : ℕ) :
      m'.findChild sect n carriage search = m.findChild sect n carriage search := by
    induction n generalizing carriage search with
    | zero => rfl
    | succ n ih =>
        rw [findChild, findChild, hname, hlists]
        simp only [ih]
  induction sections with
  | nil => exact fun _ _ => rfl
  | cons sect sections ih =>
      intro search found
      rw [findSections, findSections, hlists, hlive]
      simp only [hchild, ih]

theorem findDir_congr {t : Vfs} (hname : t.dirents.name = s.dirents.name)
    (hlists : t.dirents.lists = s.dirents.lists) (hlive : t.dirents.live = s.dirents.live)
    (path : Option Str) :
  t.findDir path = s.findDir path
  := by
  cases path with
  | none => rfl
  | some path =>
      rw [findDir, findDir, direntFind, direntFind, hname]
      simp only [findSections_congr hname hlists hlive]

variable {m : Dirents} {d : ℕ}

theorem store_next (p v : Option ℕ) :
  (m.store d p v).next = (Chain.splice m.next (m.fileHead d) p v).2
  := by
  cases p <;> rfl

theorem store_fileHead_self (p v : Option ℕ) :
  (m.store d p v).fileHead d = (Chain.splice m.next (m.fileHead d) p v).1
  := by
  cases p with
  | none => exact Function.update_self ..
  | some f => rfl

theorem store_fileHead_of_ne {d' : ℕ} (p v : Option ℕ) (h : d' ≠ d) :
  (m.store d p v).fileHead d' = m.fileHead d'
  := by
  cases p with
  | none => exact Function.update_of_ne h ..
  | some f => rfl

/-- The field that is reached behind the files of a segment. -/
theorem load_getLast? {q : Option ℕ} :
    ∀ (a : List ℕ), Chain.Segment m.next (m.fileHead d) a q → m.load d a.getLast? = q
  := by
  intro a ha
  rcases List.eq_nil_or_concat a with rfl | ⟨a, f, rfl⟩
  · exact ha
  · rw [List.concat_eq_append] at ha ⊢
    rw [List.getLast?_append_of_ne_nil a (List.cons_ne_nil f []), List.getLast?_singleton]
    exact (Chain.segment_middle.mp ha).2

/-- The loop of `dirent_remove_file` stops at the field that points to the file. -/
theorem removeFileLoop_eq {file : ℕ} :
    ∀ (b a : List ℕ) (n : ℕ), Chain.Segment m.next (m.fileHead d) (a ++ b) (some file) →
      file ∉ b → b.length < n →
      m.removeFileLoop d file n a.getLast?
        = some (m.store d (a ++ b).getLast? (m.next file), some file)
  | _, _, 0, _, _, hn => by omega
  | [], a, n + 1, hseg, _, _ => by
      rw [List.append_nil] at hseg ⊢
      rw [removeFileLoop, load_getLast? a hseg]
      exact if_pos rfl
  | f :: b, a, n + 1, hseg, hfile, hn => by
      rw [List.mem_cons, not_or] at hfile
      have hload : m.load d a.getLast? = some f := by
        obtain ⟨r, ha, hr, -⟩ := Chain.segment_append.mp hseg
        rw [load_getLast? a ha, hr]
      have hlast : some f = (a ++ [f]).getLast? := by simp
      have hassoc : a ++ f :: b = (a ++ [f]) ++ b := by simp
      rw [hassoc] at hseg ⊢
      rw [removeFileLoop, hload]
      dsimp only
      rw [if_neg (Ne.symm hfile.1), hlast]
      exact removeFileLoop_eq b (a ++ [f]) n hseg hfile.2 (by simpa using hn)

/-- The first element that meets a test stays the first one when another element is erased. -/
theorem find?_erase {p : ℕ → Bool} {f : ℕ} :
    ∀ {l : List ℕ}, l.find? p ≠ some f → (l.erase f).find? p = l.find? p
  | [], _ => rfl
  | g :: l, h => by
      rw [List.find?_cons] at h
      rw [List.erase_cons]
      by_cases hg : g = f
      · subst hg
        cases hp : p g with
        | false => simp [hp]
        | true => simp [hp] at h
      · rw [if_neg (by simpa using hg), List.find?_cons, List.find?_cons]
        cases hp : p g with
        | false =>
            rw [hp] at h
            exact find?_erase h
        | true => rfl

/-- A write to the lists of files leaves the directories as they are. -/
theorem tree_store (h : m.Tree kids) (p v : Option ℕ) : (m.store d p v).Tree kids := by
  cases p <;>
    exact ⟨h.root_live, h.root_name, h.list, h.mem_kids, h.parent_live, h.names, h.acyclic⟩

/-- When the field that points to a file is given the value behind it, the file is off its list,
and the other lists are as they were. -/
theorem Inv.files_store (h : s.Inv kids files) {file : ℕ} {a b : List ℕ}
    (hd : d ∈ s.dirents.live) (hsplit : files d = a ++ file :: b) :
  (s.dirents.store d a.getLast? (s.dirents.next file)).Files (Function.update files d (a ++ b))
  := by
  have hlive : (s.dirents.store d a.getLast? (s.dirents.next file)).live = s.dirents.live := by
    cases a.getLast? <;> rfl
  have hchain := h.chains d hd
  have hnodup := h.nodup d hd
  rw [hsplit] at hchain hnodup
  obtain ⟨hseg, hrest⟩ := Chain.segment_middle.mp hchain
  intro d' hd'
  rw [hlive] at hd'
  rw [store_next]
  by_cases hdd : d' = d
  · subst hdd
    rw [Function.update_self, store_fileHead_self]
    have hab : (a ++ b).Nodup := hnodup.sublist (by simp)
    rw [List.nodup_append] at hab
    apply Chain.isChain_splice hab.1 _ hseg hrest
    intro f hf hf'
    exact hab.2.2 f hf f hf' rfl
  · rw [Function.update_of_ne hdd, store_fileHead_of_ne _ _ hdd]
    apply (Chain.segment_splice_of_disjoint _).mpr (h.chains d' hd')
    intro f hf hf'
    apply hdd
    apply h.disjoint d' hd' d hd f hf'
    rw [hsplit]
    exact List.mem_append_left _ hf

/-- A file is taken off its list. -/
theorem Inv.removeFile (h : s.Inv kids files) {file : ℕ} (hd : d ∈ s.dirents.live)
    (hfile : file ∈ files d) :
  ∃ m', s.dirents.direntRemoveFile (s.files.length + 1) (some d) (some file)
      = some (m', some file) ∧
    Inv { s with dirents := m' } kids (Function.update files d ((files d).erase file)) ∧
    m'.name = s.dirents.name ∧ m'.lists = s.dirents.lists ∧ m'.live = s.dirents.live ∧
      m'.fileName = s.dirents.fileName
  := by
  obtain ⟨a, b, ha, hsplit, herase⟩ := List.exists_erase_eq hfile
  have hlength := h.length_files_le hd
  have hchain := h.chains d hd
  rw [hsplit] at hlength hchain
  have hloop := removeFileLoop_eq a [] (s.files.length + 1) (Chain.segment_middle.mp hchain).1 ha
    (by rw [List.length_append] at hlength; omega)
  rw [List.nil_append] at hloop
  have hkept : (s.dirents.store d a.getLast? (s.dirents.next file)).name = s.dirents.name ∧
      (s.dirents.store d a.getLast? (s.dirents.next file)).lists = s.dirents.lists ∧
      (s.dirents.store d a.getLast? (s.dirents.next file)).live = s.dirents.live ∧
      (s.dirents.store d a.getLast? (s.dirents.next file)).fileName = s.dirents.fileName := by
    cases a.getLast? <;> exact ⟨rfl, rfl, rfl, rfl⟩
  have hsub (d' : ℕ) :
      (Function.update files d ((files d).erase file) d').Sublist (files d') := by
    by_cases hdd : d' = d
    · subst hdd
      rw [Function.update_self]
      exact List.erase_sublist
    · rw [Function.update_of_ne hdd]
  refine ⟨_, hloop, ?_, hkept⟩
  constructor
  · exact tree_store h.tree _ _
  · rw [herase]
    exact h.files_store hd hsplit
  · intro d' hd'
    exact (h.nodup d' (hkept.2.2.1 ▸ hd')).sublist (hsub d')
  · intro d' hd' f hf
    exact h.allocated d' (hkept.2.2.1 ▸ hd') f ((hsub d').subset hf)
  · intro d' hd' d'' hd'' f hf hf'
    exact h.disjoint d' (hkept.2.2.1 ▸ hd') d'' (hkept.2.2.1 ▸ hd'') f ((hsub d').subset hf)
      ((hsub d'').subset hf')

/-- A file is added to a directory that it finds. -/
theorem Inv.addFile (h : s.Inv kids files) {file : ℕ} (name : Str) (hfresh : file ∉ s.files)
    {path : Option Str} {t : Vfs} {err : ℤ}
    (hadd : (s.alloc name file).vfsAddFile path file = some (t, err)) :
  ∃ files, t.Inv kids files
  := by
  have hnot (d : ℕ) (hd : d ∈ s.dirents.live) : file ∉ files d := fun hf =>
    hfresh (h.allocated d hd file hf)
  have halloc : (s.alloc name file).Inv kids files := by
    constructor
    · exact ⟨h.tree.root_live, h.tree.root_name, h.tree.list, h.tree.mem_kids,
        h.tree.parent_live, h.tree.names, h.tree.acyclic⟩
    · intro d hd
      exact (Chain.segment_update (hnot d hd)).mpr (h.chains d hd)
    · exact h.nodup
    · intro d hd f hf
      exact List.mem_cons_of_mem _ (h.allocated d hd f hf)
    · exact h.disjoint
  rw [vfsAddFile] at hadd
  obtain ⟨r, hr, hadd⟩ := Option.bind_eq_some_iff.mp hadd
  cases r with
  | none =>
      obtain ⟨rfl, -⟩ := Prod.mk.inj (Option.some.inj hadd)
      exact ⟨files, halloc⟩
  | some d =>
      obtain ⟨rfl, -⟩ := Prod.mk.inj (Option.some.inj hadd)
      cases path with
      | none => simp [findDir, direntFind] at hr
      | some path =>
          have hd := halloc.live_of_findDir hr
          have hmem {d' f : ℕ} (hf : f ∈ Function.update files d (file :: files d) d') :
              f = file ∧ d' = d ∨ f ∈ files d' := by
            by_cases hdd : d' = d
            · subst hdd
              rw [Function.update_self, List.mem_cons] at hf
              exact hf.imp_left fun hf => ⟨hf, rfl⟩
            · rw [Function.update_of_ne hdd] at hf
              exact .inr hf
          refine ⟨Function.update files d (file :: files d), ?_⟩
          constructor
          · exact ⟨h.tree.root_live, h.tree.root_name, h.tree.list, h.tree.mem_kids,
              h.tree.parent_live, h.tree.names, h.tree.acyclic⟩
          · apply halloc.chains.addFile
            refine ⟨hd, fun d' hd' hreg => hnot d' hd' ?_⟩
            exact (halloc.chains.registered_iff hd').mp hreg
          · intro d' hd'
            by_cases hdd : d' = d
            · subst hdd
              rw [Function.update_self]
              exact List.nodup_cons.mpr ⟨hnot d' hd', h.nodup d' hd'⟩
            · rw [Function.update_of_ne hdd]
              exact h.nodup d' hd'
          · intro d' hd' f hf
            rcases hmem hf with ⟨rfl, -⟩ | hf
            · exact List.mem_cons_self
            · exact halloc.allocated d' hd' f hf
          · intro d' hd' d'' hd'' f hf hf'
            rcases hmem hf with ⟨rfl, rfl⟩ | hold
            · rcases hmem hf' with ⟨-, rfl⟩ | hold'
              · rfl
              · exact absurd hold' (hnot d'' hd'')
            · rcases hmem hf' with ⟨rfl, -⟩ | hold'
              · exact absurd hold (hnot d' hd')
              · exact h.disjoint d' hd' d'' hd'' f hold hold'

/-! ### Runs -/

/-- A call of `mkdir` keeps the lookups. -/
theorem Inv.mkdir_of_ok (h : s.Inv kids files) {path : Str} {dir : ℕ}
    (hfresh : s.Fresh (.mkdir path dir)) (hok : s.Ok (.mkdir path dir)) :
  ∃ t err, s.mkdir path dir = some (t, err) ∧ s.Keeps t ∧ ∃ kids files, t.Inv kids files
  := by
  have hself : s.Keeps s := ⟨fun _ _ hd => hd, fun _ _ hf => hf⟩
  cases hname : basename path with
  | none => exact ⟨s, -EINVAL, by rw [Vfs.mkdir, hname], hself, kids, files, h⟩
  | some dirname =>
      cases hbase : basepath path with
      | none => exact ⟨s, -EINVAL, by rw [Vfs.mkdir, hname, hbase], hself, kids, files, h⟩
      | some base =>
          obtain ⟨r, hr, -⟩ := h.findDir_resolves (hok.1 base hbase)
          cases r with
          | none =>
              refine ⟨s, -EINVAL, ?_, hself, kids, files, h⟩
              rw [Vfs.mkdir, hname, hbase]
              simp only [Option.bind_eq_bind, hr, Option.bind_some]
          | some parent =>
              obtain ⟨t, hmkdir, hkeeps, hinv⟩ := h.mkdir hfresh hbase hname hr fun c hc heq =>
                hok.2 base hbase parent (h.findDir_iff.mp hr) c hc (by rw [heq, hname])
              exact ⟨t, -EOK, hmkdir, hkeeps, hinv⟩

/-- A file is looked up when its directory is. -/
theorem Inv.findFile_of_passes (h : s.Inv kids files) {path : Str}
    (hpass : ∀ base ∈ basepath path, s.Passes base) :
  ∃ r, s.findFile path = some r
  := by
  cases hbase : basepath path with
  | none => exact ⟨none, by rw [findFile, vfsFindFile, hbase]⟩
  | some base =>
      cases hname : basename path with
      | none => exact ⟨none, by rw [findFile, vfsFindFile, hbase, hname]⟩
      | some name =>
          obtain ⟨r, hr, -⟩ := h.findDir_resolves (hpass base hbase)
          cases r with
          | some d => exact ⟨_, h.findFile_of_findDir hbase hname hr⟩
          | none =>
              rw [findDir] at hr
              refine ⟨none, ?_⟩
              rw [findFile, vfsFindFile, hbase, hname]
              simp only [Option.bind_eq_bind, hr, Option.bind_some, direntFindFile]

/-- The function `unlink` fails when no file is found. -/
theorem unlink_of_findFile_none {path : Str} (hnone : s.findFile path = some none) :
  s.unlink path = some (s, -EINVAL)
  := by
  rw [findFile, vfsFindFile] at hnone
  rw [unlink]
  cases hbase : basepath path with
  | none => rfl
  | some base =>
      cases hname : basename path with
      | none => rfl
      | some name =>
          rw [hbase, hname] at hnone
          obtain ⟨dir, hdir, hfile⟩ := Option.bind_eq_some_iff.mp hnone
          rw [← findDir] at hdir
          simp only [Option.bind_eq_bind, hdir, Option.bind_some, hfile]

/-- Where the same directories are found, and the same file in the directory of a path, the same
file is found at the path. -/
theorem Inv.findFile_congr {t : Vfs} {files' : ℕ → List ℕ} (h : s.Inv kids files)
    (ht : t.Inv kids files') (hdirs : ∀ path, t.findDir path = s.findDir path) {path : Str}
    (hfiles : ∀ name ∈ basename path, ∀ d,
      s.findFile path = some ((files d).find? (s.dirents.fileName · = name)) →
      (files' d).find? (t.dirents.fileName · = name)
        = (files d).find? (s.dirents.fileName · = name)) :
  t.findFile path = s.findFile path
  := by
  cases hbase : basepath path with
  | none => rw [findFile, findFile, vfsFindFile, vfsFindFile, hbase]
  | some base =>
      cases hname : basename path with
      | none => rw [findFile, findFile, vfsFindFile, vfsFindFile, hbase, hname]
      | some name =>
          have hdir := hdirs (some base)
          cases hfind : s.findDir (some base) with
          | none =>
              rw [hfind] at hdir
              rw [findDir] at hfind hdir
              simp [findFile, vfsFindFile, hbase, hname, hfind, hdir]
          | some r =>
              rw [hfind] at hdir
              cases r with
              | none =>
                  rw [findDir] at hfind hdir
                  simp [findFile, vfsFindFile, hbase, hname, hfind, hdir, direntFindFile]
              | some d =>
                  have hold := h.findFile_of_findDir hbase hname hfind
                  rw [ht.findFile_of_findDir hbase hname hdir, hold, hfiles name hname d hold]

/-- The function `unlink` takes the file that is found off its list. -/
theorem Inv.unlink_of_findFile (h : s.Inv kids files) {path : Str} {file : ℕ}
    (hfile : s.findFile path = some (some file)) :
  ∃ t, s.unlink path = some (t, -EOK) ∧ s.Removes path t (-EOK) ∧ ∃ files, t.Inv kids files
  := by
  obtain ⟨base, hbase, name, hname, d, hfind, hfirst⟩ := h.findFile_iff.mp hfile
  have hd := h.live_of_findDir hfind
  have hfound : s.dirents.direntFindFile s.files.length (some d) name = some (some file) := by
    rw [← hfirst]
    exact findFileLoop_eq name _ (h.chains d hd) (h.length_files_le hd)
  obtain ⟨m', hremove, hinv, hnames, hlists, hlive, hfileName⟩ :=
    h.removeFile hd (List.mem_of_find?_eq_some hfirst)
  have hdirs : ∀ path, findDir { s with dirents := m' } path = s.findDir path :=
    findDir_congr hnames hlists hlive
  refine ⟨{ s with dirents := m' }, ?_, .inr ⟨file, hfile, rfl, ?_, hdirs, ?_⟩, _, hinv⟩
  · rw [Vfs.unlink, Option.mem_def.mp hbase, Option.mem_def.mp hname]
    simp only [Option.bind_eq_bind, hfind, Option.bind_some, hfound, hremove, if_true]
  · intro d' hd' f
    rw [h.chains.registered_iff hd', hinv.chains.registered_iff (hlive ▸ hd')]
    by_cases hdd : d' = d
    · subst hdd
      rw [Function.update_self, (h.nodup d' hd').mem_erase_iff, and_comm]
    · rw [Function.update_of_ne hdd]
      refine ⟨fun hf => ⟨hf, ?_⟩, And.left⟩
      rintro rfl
      exact hdd (h.disjoint d' hd' d hd f hf (List.mem_of_find?_eq_some hfirst))
  · intro path' hother
    apply h.findFile_congr hinv hdirs
    intro name' hname' d' hfile'
    rw [hfileName]
    by_cases hdd : d' = d
    · subst hdd
      rw [Function.update_self]
      apply find?_erase
      rintro heq
      rw [hfile', heq] at hother
      exact hother rfl
    · rw [Function.update_of_ne hdd]

/-- A call of `unlink` removes the file at the path only. -/
theorem Inv.unlink_of_ok (h : s.Inv kids files) {path : Str} (hok : s.Ok (.unlink path)) :
  ∃ t err, s.unlink path = some (t, err) ∧ s.Removes path t err ∧
    ∃ kids files, t.Inv kids files
  := by
  obtain ⟨r, hr⟩ := h.findFile_of_passes hok.1
  cases r with
  | none => exact ⟨s, -EINVAL, unlink_of_findFile_none hr, .inl ⟨hr, rfl, rfl⟩, kids, files, h⟩
  | some file =>
      obtain ⟨t, hunlink, hremoves, files, hinv⟩ := h.unlink_of_findFile hr
      exact ⟨t, -EOK, hunlink, hremoves, kids, files, hinv⟩

/-- The function `mount` leaves the lists as they are. -/
theorem Inv.mount (h : s.Inv kids files) {fs : Option ℕ} {path : Option Str} {t : Vfs} {err : ℤ}
    (hmount : s.mount fs path = some (t, err)) :
  t.Inv kids files
  := by
  cases fs with
  | none =>
      obtain ⟨rfl, -⟩ := Prod.mk.inj (Option.some.inj hmount)
      exact h
  | some fs =>
      cases path with
      | none =>
          obtain ⟨rfl, -⟩ := Prod.mk.inj (Option.some.inj hmount)
          exact h
      | some path =>
          obtain ⟨r, -, hmount⟩ := Option.bind_eq_some_iff.mp hmount
          cases r with
          | none =>
              obtain ⟨rfl, -⟩ := Prod.mk.inj (Option.some.inj hmount)
              exact h
          | some d =>
              obtain ⟨rfl, -⟩ := Prod.mk.inj (Option.some.inj hmount)
              refine ⟨?_, h.chains, h.nodup, h.allocated, h.disjoint⟩
              exact ⟨h.tree.root_live, h.tree.root_name, h.tree.list, h.tree.mem_kids,
                h.tree.parent_live, h.tree.names, h.tree.acyclic⟩

/-- The function `vfs_open` adds a file, or leaves the lists as they are. -/
theorem Inv.vfsOpen (h : s.Inv kids files) {creates : ℕ → Bool} {path : Str} {file : ℕ}
    (hfresh : file ∉ s.files) {t : Vfs} (hopen : s.vfsOpen creates path file = some t) :
  ∃ files, t.Inv kids files
  := by
  obtain ⟨r, -, hopen⟩ := Option.bind_eq_some_iff.mp hopen
  cases r with
  | some f =>
      obtain rfl := Option.some.inj hopen
      exact ⟨files, h⟩
  | none =>
      obtain ⟨fs, -, hopen⟩ := Option.bind_eq_some_iff.mp hopen
      split at hopen
      · obtain ⟨⟨t', err⟩, hadd, rfl⟩ := Option.map_eq_some_iff.mp hopen
        exact h.addFile _ hfresh hadd
      · obtain rfl := Option.some.inj hopen
        exact ⟨files, h⟩

/-- Every call that meets the condition keeps the invariant. -/
theorem Inv.step {creates : ℕ → Bool} (h : s.Inv kids files) {op : VfsOp} {t : Vfs}
    (hok : s.Ok op) (hstep : s.step creates op = some t) :
  ∃ kids files, t.Inv kids files
  := by
  rw [Vfs.step] at hstep
  split at hstep
  · rename_i hfresh
    cases op with
    | mkdir path dir =>
        obtain ⟨t', err, hmkdir, -, hinv⟩ := h.mkdir_of_ok hfresh hok
        rw [call, hmkdir] at hstep
        obtain rfl := Option.some.inj hstep
        exact hinv
    | unlink path =>
        obtain ⟨t', err, hunlink, -, hinv⟩ := h.unlink_of_ok hok
        rw [call, hunlink] at hstep
        obtain rfl := Option.some.inj hstep
        exact hinv
    | vfsAddFile path name file =>
        obtain ⟨⟨t', err⟩, hadd, rfl⟩ := Option.map_eq_some_iff.mp hstep
        exact ⟨kids, h.addFile name hfresh hadd⟩
    | vfsOpen path file => exact ⟨kids, h.vfsOpen hfresh hstep⟩
    | mount fs path =>
        obtain ⟨⟨t', err⟩, hmount, rfl⟩ := Option.map_eq_some_iff.mp hstep
        exact ⟨kids, files, h.mount hmount⟩
  · cases hstep

/-- As long as no call is made that looks up a directory on a way with a mismatch, or makes a
directory with the name of another one in its parent, `mkdir` keeps all that is found, and `unlink`
removes the file at its path only. -/
theorem frame_of_ok {creates : ℕ → Bool} (hrun : Run.Guarded (step creates) Ok boot s) :
  (∀ path dir, s.Fresh (.mkdir path dir) → s.Ok (.mkdir path dir) →
    ∃ t err, s.mkdir path dir = some (t, err) ∧ s.Keeps t) ∧
  ∀ path, s.Ok (.unlink path) →
    ∃ t err, s.unlink path = some (t, err) ∧ s.Removes path t err
  := by
  obtain ⟨kids, files, h⟩ := hrun.invariant (fun s => ∃ kids files, s.Inv kids files)
    ⟨_, _, inv_boot⟩ fun s op t hs hok hstep => by
      obtain ⟨kids, files, h⟩ := hs
      exact h.step hok hstep
  constructor
  · intro path dir hfresh hok
    obtain ⟨t, err, hmkdir, hkeeps, -⟩ := h.mkdir_of_ok hfresh hok
    exact ⟨t, err, hmkdir, hkeeps⟩
  · intro path hok
    obtain ⟨t, err, hunlink, hremoves, -⟩ := h.unlink_of_ok hok
    exact ⟨t, err, hunlink, hremoves⟩

/-- A directory `/a` with the file `/a/f`, and a directory `/b`. -/
def calls : List VfsOp :=
  [.mkdir ['/', 'a'] 1, .mount (some 7) (some ['/', 'a']), .vfsOpen ['/', 'a', '/', 'f'] 9,
    .mkdir ['/', 'b'] 2]

/-- The theorem applied to the two directories and the file. -/
theorem frame_of_ok_calls :
  ∃ s, Run.exec (step fun _ => true) boot calls = some s ∧
    s.findFile ['/', 'a', '/', 'f'] = some (some 9) ∧
    (∀ path dir, s.Fresh (.mkdir path dir) → s.Ok (.mkdir path dir) →
      ∃ t err, s.mkdir path dir = some (t, err) ∧ s.Keeps t) ∧
    ∀ path, s.Ok (.unlink path) →
      ∃ t err, s.unlink path = some (t, err) ∧ s.Removes path t err
  := by
  have hfile : ∀ s ∈ Run.exec (step fun _ => true) boot calls,
      s.findFile ['/', 'a', '/', 'f'] = some (some 9) := by
    rintro _ ⟨⟩
    decide
  have hpass : ∀ s : Vfs, s.dirents.Child 0 1 → s.dirents.name 1 = ['a'] →
      s.Passes ['/', 'a'] := by
    intro s hchild hname
    right
    exact ⟨fun _ _ _ => trivial, fun _ => ⟨1, hchild, hname⟩⟩
  have hrun : (Run.exec (step fun _ => true) boot calls).isSome := by decide
  obtain ⟨s, hs⟩ := Option.isSome_iff_exists.mp hrun
  refine ⟨s, hs, hfile s hs, frame_of_ok (Run.guarded_of_exec calls hs ?_)⟩
  refine ⟨⟨?_, ?_⟩, ?_⟩
  · rintro _ ⟨⟩
    exact .inl rfl
  · rintro _ ⟨⟩ parent - c ⟨hc, hparent⟩
    cases hparent
  rintro _ ⟨⟩
  refine ⟨⟨?_, trivial⟩, ?_⟩
  · rintro _ ⟨⟩
    exact hpass _ ⟨by decide, rfl⟩ rfl
  rintro _ ⟨⟩
  refine ⟨⟨?_, trivial⟩, ?_⟩
  · rintro _ ⟨⟩
    exact hpass _ ⟨by decide, rfl⟩ rfl
  rintro _ ⟨⟩
  refine ⟨⟨?_, ?_⟩, fun _ _ => trivial⟩
  · rintro _ ⟨⟩
    exact .inl rfl
  · rintro _ ⟨⟩ parent - c ⟨hc, -⟩
    have hc' : c ∈ [1, 0] := hc
    fin_cases hc' <;> decide

/-- A second call of `mkdir` for `/a` hides the directory that the first one has made. -/
theorem not_keeps_twice :
  ∃ s, Run.exec (step fun _ => true) boot [.mkdir ['/', 'a'] 1] = some s ∧
    ∃ t, s.mkdir ['/', 'a'] 2 = some (t, -EOK) ∧
      s.findDir (some ['/', 'a']) = some (some 1) ∧
      t.findDir (some ['/', 'a']) = some (some 2) ∧ ¬ s.Keeps t
  := by
  have hfirst : ∀ s ∈ Run.exec (step fun _ => true) boot [.mkdir ['/', 'a'] 1],
      s.findDir (some ['/', 'a']) = some (some 1) := by
    rintro _ ⟨⟩
    decide
  have hsecond : ∀ s ∈ Run.exec (step fun _ => true) boot
      [.mkdir ['/', 'a'] 1, .mkdir ['/', 'a'] 2],
        s.findDir (some ['/', 'a']) = some (some 2) := by
    rintro _ ⟨⟩
    decide
  refine ⟨_, rfl, _, rfl, hfirst _ rfl, hsecond _ rfl, ?_⟩
  intro hkeeps
  have hkept := hkeeps.1 _ _ (hfirst _ rfl)
  rw [hsecond _ rfl] at hkept
  cases hkept

end Vfs

end Etaos.Fs
