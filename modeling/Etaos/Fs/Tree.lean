import Mathlib.Tactic.FinCases
import Etaos.Fs.Lookup

/-!
# Trees that are built

The directories and files that are built with `dirent_create`, `dirent_add_child` and
`dirent_add_file` form a forest, in which the lookups of directories and of files are exact if
and only if they go well.
-/

set_option linter.unusedSectionVars false

namespace Etaos.Fs

open Lib

namespace Dirents

variable {m : Dirents} {kids : ℕ → List ℕ}

/-- The condition on a call that builds a tree.  A directory that becomes a child is not one
yet, is not above its parent, and has a name that no sibling has.  A file that is added is on
no list yet. -/
def BuildOk (m : Dirents) : DirOp → Prop
  | .create _ _ => True
  | .addChild (some parent) (some child) =>
      parent ∈ m.live ∧ child ∈ m.live ∧ m.parent child = none ∧
        ¬ Relation.ReflTransGen m.Child child parent ∧
        ∀ c, m.Child parent c → m.name c ≠ m.name child
  | .addChild _ _ => True
  | .addFile (some dir) (some file) => dir ∈ m.live ∧ ∀ d ∈ m.live, ¬ m.Registered d file
  | .addFile _ _ => True

/-- The lists of files end. -/
def Files (m : Dirents) (files : ℕ → List ℕ) : Prop :=
  ∀ d ∈ m.live, Chain.IsChain m.next (m.fileHead d) (files d)

/-! ### Directories -/

theorem tree_boot (fileName : ℕ → Str) : (boot fileName).Tree fun _ => [] := by
  have hnone (d c : ℕ) : ¬ (boot fileName).Child d c := by
    rintro ⟨-, hparent⟩
    cases hparent
  constructor
  · exact List.mem_singleton_self _
  · rfl
  · intro d hd
    obtain rfl : d = vfsRoot := List.mem_singleton.mp hd
    apply ListHeads.isList_listHeadInit
  · intro d c
    simp [hnone]
  · intro d c hc
    exact absurd hc (hnone d c)
  · intro d c c' hc
    exact absurd hc (hnone d c)
  · intro d hd
    obtain ⟨c, hc, -⟩ := Relation.TransGen.head'_iff.mp hd
    exact hnone d c hc

/-- A new directory has no parent and no children. -/
theorem child_direntCreate {dir : ℕ} (name : Str) (hdir : dir ∉ m.live) :
  (m.direntCreate name dir).Child = m.Child
  := by
  funext d c
  apply propext
  simp only [Child, direntCreate, List.mem_cons]
  by_cases hc : c = dir
  · subst hc
    simp [hdir]
  · rw [Function.update_of_ne hc]
    simp [hc]

/-- A directory that is created has an empty list. -/
theorem Listed.create (h : m.Listed kids) {dir : ℕ} (name : Str) (hdir : dir ∉ m.live) :
  (m.direntCreate name dir).Listed kids
  := by
  have hchild := child_direntCreate name hdir
  have hne {d : ℕ} (hd : d ∈ m.live) : d ≠ dir := fun heq => hdir (heq ▸ hd)
  constructor
  · intro d hd
    rcases List.mem_cons.mp hd with rfl | hd
    · have hkids : kids d = [] := by
        rw [h.kids_eq_nil]
        intro c hc
        exact hdir (h.parent_live d c hc)
      rw [hkids]
      apply ListHeads.isList_listHeadInit
    · have hout {x : Node} (hx : x ∈ Node.children d :: (kids d).map .entry) :
          x ≠ .entry dir ∧ x ≠ .children dir := by
        rcases List.mem_cons.mp hx with rfl | hx
        · simp [hne hd]
        · obtain ⟨c, hc, rfl⟩ := List.mem_map.mp hx
          simp [hne ((h.mem_kids d c).mp hc).1]
      have hentry := (h.list d hd).congr (ListHeads.sameOff_listHeadInit m.lists (.entry dir))
        fun x hx => by simpa using (hout hx).1
      exact hentry.congr (ListHeads.sameOff_listHeadInit _ (Node.children dir))
        fun x hx => by simpa using (hout hx).2
  · rw [hchild]
    exact h.mem_kids
  · intro d c hc
    rw [hchild] at hc
    exact List.mem_cons_of_mem _ (h.parent_live d c hc)

/-- A directory is created. -/
theorem Tree.create (h : m.Tree kids) {dir : ℕ} (name : Str) (hdir : dir ∉ m.live) :
  (m.direntCreate name dir).Tree kids
  := by
  have hchild := child_direntCreate name hdir
  have hlisted := h.listed.create name hdir
  have hname {c : ℕ} (hc : c ∈ m.live) : (m.direntCreate name dir).name c = m.name c := by
    have hne : c ≠ dir := fun heq => hdir (heq ▸ hc)
    exact Function.update_of_ne hne ..
  constructor
  · exact List.mem_cons_of_mem _ h.root_live
  · rw [hname h.root_live, h.root_name]
  · exact hlisted.list
  · exact hlisted.mem_kids
  · exact hlisted.parent_live
  · intro d c c' hc hc' heq
    rw [hchild] at hc hc'
    rw [hname hc.1, hname hc'.1] at heq
    exact h.names d c c' hc hc' heq
  · rw [hchild]
    exact h.acyclic

/-- A way in a relation with one more pair uses that pair, or not. -/
theorem transGen_add {r r' : ℕ → ℕ → Prop} {p c : ℕ}
    (hadd : ∀ x y, r' x y → r x y ∨ x = p ∧ y = c) {x y : ℕ} (hxy : Relation.TransGen r' x y) :
  Relation.TransGen r x y ∨ Relation.ReflTransGen r x p ∧ Relation.ReflTransGen r c y
  := by
  induction hxy with
  | single hxy =>
      rcases hadd _ _ hxy with hr | ⟨rfl, rfl⟩
      · exact .inl (.single hr)
      · exact .inr ⟨.refl, .refl⟩
  | tail _ hyz ih =>
      rcases hadd _ _ hyz with hr | ⟨rfl, rfl⟩
      · rcases ih with ih | ⟨hp, hc⟩
        · exact .inl (ih.tail hr)
        · exact .inr ⟨hp, hc.tail hr⟩
      · rcases ih with ih | ⟨hp, -⟩
        · exact .inr ⟨ih.to_reflTransGen, .refl⟩
        · exact .inr ⟨hp, .refl⟩

/-- A directory becomes the first on the list of another one. -/
theorem Listed.addChild (h : m.Listed kids) {p c : ℕ} (hp : p ∈ m.live) (hc : c ∈ m.live)
    (hparent : m.parent c = none) :
  ∃ m', m.direntAddChild (some p) (some c) = some (m', some c) ∧
    m'.Listed (Function.update kids p (c :: kids p)) ∧
    (∀ d e, m'.Child d e ↔ m.Child d e ∨ d = p ∧ e = c) ∧
    m'.live = m.live ∧ m'.name = m.name ∧ m'.fileHead = m.fileHead ∧ m'.next = m.next ∧
    m'.fileName = m.fileName
  := by
  have hkids (d : ℕ) : c ∉ kids d := by
    intro hmem
    have hchild := (h.mem_kids d c).mp hmem
    rw [Child, hparent] at hchild
    cases hchild.2
  have hout : Node.entry c ∉ Node.children p :: ([] ++ (kids p).map .entry) := by
    simp [hkids p]
  obtain ⟨lists, hadd, hlist, hsame⟩ := ListHeads.IsList.listAdd (a := []) (h.list p hp) hout
  rw [Ring.last_nil] at hadd
  let m' : Dirents := { m with
    parent := Function.update m.parent c (some p)
    fs := Function.update m.fs c (m.fs p)
    lists }
  have hchild (d e : ℕ) : m'.Child d e ↔ m.Child d e ∨ d = p ∧ e = c := by
    simp only [Child, m']
    by_cases he : e = c
    · subst he
      rw [Function.update_self, hparent]
      simp [hc, eq_comm]
    · rw [Function.update_of_ne he]
      simp [he]
  refine ⟨m', ?_, ?_, hchild, rfl, rfl, rfl, rfl, rfl⟩
  · rw [direntAddChild, hadd]
    rfl
  · constructor
    · intro d hd
      by_cases hdp : d = p
      · subst hdp
        rw [Function.update_self]
        exact hlist
      · rw [Function.update_of_ne hdp]
        apply (h.list d hd).congr hsame
        intro x hx
        rcases List.mem_cons.mp hx with rfl | hx
        · simp [hdp]
        · obtain ⟨e, he, rfl⟩ := List.mem_map.mp hx
          have hec : e ≠ c := fun heq => hkids d (heq ▸ he)
          have hep : e ∉ kids p := fun hmem => hdp (h.disjoint he hmem)
          simp [hec, hep]
    · intro d e
      rw [hchild]
      by_cases hdp : d = p
      · subst hdp
        rw [Function.update_self, List.mem_cons, h.mem_kids]
        tauto
      · rw [Function.update_of_ne hdp, h.mem_kids]
        tauto
    · intro d e hde
      rcases (hchild d e).mp hde with hde | ⟨rfl, rfl⟩
      · exact h.parent_live d e hde
      · exact hp

/-- A directory becomes the first child of another one. -/
theorem Tree.addChild (h : m.Tree kids) {p c : ℕ}
    (hok : m.BuildOk (.addChild (some p) (some c))) :
  ∃ m', m.direntAddChild (some p) (some c) = some (m', some c) ∧
    m'.Tree (Function.update kids p (c :: kids p)) ∧
    (∀ d e, m'.Child d e ↔ m.Child d e ∨ d = p ∧ e = c) ∧
    m'.live = m.live ∧ m'.name = m.name ∧ m'.fileHead = m.fileHead ∧ m'.next = m.next ∧
    m'.fileName = m.fileName
  := by
  obtain ⟨hp, hc, hparent, hcycle, hnames⟩ := hok
  obtain ⟨m', hadd, hlisted, hchild, hlive, hname, hrest⟩ := h.listed.addChild hp hc hparent
  refine ⟨m', hadd, ?_, hchild, hlive, hname, hrest⟩
  constructor
  · rw [hlive]
    exact h.root_live
  · rw [hname]
    exact h.root_name
  · exact hlisted.list
  · exact hlisted.mem_kids
  · exact hlisted.parent_live
  · intro d e e' he he' heq
    rw [hname] at heq
    rcases (hchild d e).mp he with hold | ⟨rfl, rfl⟩
    · rcases (hchild d e').mp he' with hold' | ⟨rfl, rfl⟩
      · exact h.names d e e' hold hold' heq
      · exact absurd heq (hnames e hold)
    · rcases (hchild d e').mp he' with hold' | ⟨-, rfl⟩
      · exact absurd heq.symm (hnames e' hold')
      · rfl
  · intro d hd
    rcases transGen_add (fun x y hxy => (hchild x y).mp hxy) hd with hd | ⟨hdp, hcd⟩
    · exact h.acyclic d hd
    · exact hcycle (hcd.trans hdp)

/-! ### Files -/

theorem Files.registered_iff {files : ℕ → List ℕ} (h : m.Files files) {d f : ℕ}
    (hd : d ∈ m.live) :
  m.Registered d f ↔ f ∈ files d
  := by
  constructor
  · rintro ⟨l, hl, hf⟩
    rwa [(h d hd).unique hl]
  · intro hf
    exact ⟨files d, h d hd, hf⟩

/-- A file is added to a directory. -/
theorem Files.addFile {files : ℕ → List ℕ} (h : m.Files files) {d f : ℕ}
    (hok : m.BuildOk (.addFile (some d) (some f))) :
  (m.direntAddFile (some d) (some f)).1.Files (Function.update files d (f :: files d))
  := by
  obtain ⟨hd, hnew⟩ := hok
  intro e he
  have hout : f ∉ files e := by
    intro hmem
    exact hnew e he ((h.registered_iff he).mpr hmem)
  by_cases hed : e = d
  · subst hed
    simp only [direntAddFile, Function.update_self]
    refine ⟨rfl, ?_⟩
    rw [Function.update_self]
    exact (Chain.segment_update hout).mpr (h e he)
  · simp only [direntAddFile, Function.update_of_ne hed]
    exact (Chain.segment_update hout).mpr (h e he)

/-! ### Runs -/

/-- Every call that meets the condition keeps the forest. -/
theorem step_tree {files : ℕ → List ℕ} (h : m.Tree kids) (hfiles : m.Files files) {op : DirOp}
    {t : Dirents} (hok : m.BuildOk op) (hstep : m.step op = some t) :
  (∃ kids, t.Tree kids) ∧ ∃ files, t.Files files
  := by
  cases op with
  | create name dir =>
      rw [step] at hstep
      split at hstep
      · cases hstep
      · rename_i hdir
        obtain rfl := Option.some.inj hstep
        refine ⟨⟨kids, h.create name hdir⟩, Function.update files dir [], ?_⟩
        intro d hd
        rcases List.mem_cons.mp hd with rfl | hd
        · simp only [direntCreate, Function.update_self]
          rfl
        · have hne : d ≠ dir := fun heq => hdir (heq ▸ hd)
          simp only [direntCreate, Function.update_of_ne hne]
          exact hfiles d hd
  | addChild parent child =>
      rw [step] at hstep
      match parent, child with
      | some p, some c =>
          obtain ⟨m', hadd, htree, -, hlive, -, hhead, hnext, -⟩ := h.addChild hok
          rw [hadd] at hstep
          obtain rfl := Option.some.inj hstep
          refine ⟨⟨_, htree⟩, files, ?_⟩
          rw [Files, hlive, hhead, hnext]
          exact hfiles
      | none, _ =>
          obtain rfl := Option.some.inj hstep
          exact ⟨⟨kids, h⟩, files, hfiles⟩
      | some _, none =>
          obtain rfl := Option.some.inj hstep
          exact ⟨⟨kids, h⟩, files, hfiles⟩
  | addFile dir file =>
      obtain rfl := Option.some.inj hstep
      match dir, file with
      | some d, some f =>
          refine ⟨⟨kids, ?_⟩, _, hfiles.addFile hok⟩
          exact ⟨h.root_live, h.root_name, h.list, h.mem_kids, h.parent_live, h.names, h.acyclic⟩
      | none, _ => exact ⟨⟨kids, h⟩, files, hfiles⟩
      | some _, none => exact ⟨⟨kids, h⟩, files, hfiles⟩

/-! ### The lookup of files -/

/-- The loop over a list of files returns the first one with the name. -/
theorem findFileLoop_eq (filename : Str) :
    ∀ {l : List ℕ} {p : Option ℕ} (n : ℕ), Chain.IsChain m.next p l → l.length ≤ n →
      m.findFileLoop filename n p = some (l.find? (m.fileName · = filename))
  | [], p, n, hl, _ => by
      obtain rfl : p = none := hl
      rw [findFileLoop]
      rfl
  | f :: l, p, 0, _, hn => by simp at hn
  | f :: l, p, n + 1, hl, hn => by
      obtain ⟨rfl, hl⟩ := hl
      rw [findFileLoop, List.find?_cons]
      by_cases hname : m.fileName f = filename
      · simp [hname]
      · rw [if_neg hname, findFileLoop_eq filename n hl (by simpa using hn)]
        simp [hname]

/-- The result of the lookup of a file is a file that is registered in the directory that the
base path leads to, under the base name, and `NULL` when there is none. -/
def ExactFile (m : Dirents) (path : Str) : Prop :=
  ∃ N, ∀ n ≥ N, ∃ r, m.vfsFindFile n path = some r ∧
    ∀ filepath ∈ basepath path, ∀ filename ∈ basename path,
      (∀ f, r = some f → m.fileName f = filename ∧
        ∃ d, m.Leads vfsRoot (sections filepath) d ∧ m.Registered d f) ∧
      (r = none → ∀ d f, m.Leads vfsRoot (sections filepath) d → m.Registered d f →
        m.fileName f ≠ filename)

/-- The lookup of a file goes well: the lookup of its directory does, or the base path has no
sections and the root has no such file. -/
def FileOk (m : Dirents) (path : Str) : Prop :=
  ∀ filepath ∈ basepath path, ∀ filename ∈ basename path,
    m.FindOk vfsRoot filepath ∨
      sections filepath = [] ∧ ∀ f, m.Registered vfsRoot f → m.fileName f ≠ filename

theorem Tree.live_of_leads (h : m.Tree kids) :
    ∀ (sections : List Str) {d e : ℕ}, d ∈ m.live → m.Leads d sections e → e ∈ m.live
  | [], d, e, hd, hlead => by
      obtain rfl : d = e := hlead
      exact hd
  | _ :: sections, _, _, _, ⟨_, hc, _, hlead⟩ => Tree.live_of_leads h sections hc.1 hlead

/-- The lookup of a file in a directory. -/
theorem Files.direntFindFile {files : ℕ → List ℕ} (h : m.Files files) {d : ℕ}
    (hd : d ∈ m.live) (filename : Str) {n : ℕ} (hn : (files d).length ≤ n) :
  ∃ r, m.direntFindFile n (some d) filename = some r ∧
    (∀ f, r = some f → m.fileName f = filename ∧ m.Registered d f) ∧
    (r = none → ∀ f, m.Registered d f → m.fileName f ≠ filename)
  := by
  refine ⟨_, findFileLoop_eq filename n (h d hd) hn, ?_, ?_⟩
  · intro f hf
    rw [h.registered_iff hd]
    exact ⟨by simpa using List.find?_some hf, List.mem_of_find?_eq_some hf⟩
  · intro hnone f hf
    rw [h.registered_iff hd] at hf
    simpa using List.find?_eq_none.mp hnone f hf

/-- The lookup of a file is exact if and only if it goes well. -/
theorem Tree.exactFile_iff (h : m.Tree kids) {files : ℕ → List ℕ} (hfiles : m.Files files)
    (path : Str) :
  m.ExactFile path ↔ m.FileOk path
  := by
  by_cases hpath : path = []
  · have hbase : basepath path = none := if_pos hpath
    simp only [ExactFile, FileOk, hbase, Option.mem_def, reduceCtorEq, false_implies,
      implies_true, and_true, iff_true]
    refine ⟨0, fun n _ => ⟨none, ?_⟩⟩
    rw [vfsFindFile, hbase]
  · obtain ⟨filepath, hbase⟩ : ∃ filepath, basepath path = some filepath := ⟨_, if_neg hpath⟩
    obtain ⟨filename, hname⟩ : ∃ filename, basename path = some filename := ⟨_, if_neg hpath⟩
    simp only [ExactFile, FileOk, vfsFindFile, hbase, hname, Option.mem_def, Option.some_inj,
      forall_eq', Option.bind_eq_bind]
    by_cases hok : m.FindOk vfsRoot filepath
    · simp only [hok, true_or, iff_true]
      obtain ⟨rd, hfind, hexact⟩ := (h.exactDir_iff h.root_live filepath).mpr hok
      rw [hfind]
      cases rd with
      | none =>
          refine ⟨0, fun n _ => ⟨none, rfl, by simp, fun _ d f hd => ?_⟩⟩
          cases (hexact d).mpr hd
      | some d =>
          have hlead := (hexact d).mp rfl
          have hd := h.live_of_leads _ h.root_live hlead
          refine ⟨(files d).length, fun n hn => ?_⟩
          obtain ⟨r, hr, hsome, hnone⟩ := hfiles.direntFindFile hd filename hn
          refine ⟨r, hr, fun f hf => ?_, fun hrn d' f hd' => ?_⟩
          · exact ⟨(hsome f hf).1, d, hlead, (hsome f hf).2⟩
          · obtain rfl := Option.some.inj ((hexact d').mpr hd')
            exact hnone hrn f
    · rw [FindOk, h.root_name] at hok
      have hne : m.name vfsRoot ≠ filepath := by
        rw [h.root_name]
        rintro rfl
        exact hok rfl
      rw [h.root_name] at hne
      rw [if_neg hne] at hok
      rw [FindOk, direntFind, h.root_name, if_neg hne, if_neg hne, fsSplitPath_eq]
      simp only [Option.bind_eq_bind, Option.bind_some]
      by_cases hnil : sections filepath = []
      · rw [hnil]
        simp only [ne_eq, not_true_eq_false, false_and, false_or, true_and]
        constructor
        · rintro ⟨N, hN⟩
          obtain ⟨r, hr, -, hnone⟩ := hN N le_rfl
          obtain rfl : none = r := Option.some.inj hr
          exact fun f hf => hnone rfl vfsRoot f rfl hf
        · intro hnone
          refine ⟨0, fun n _ => ⟨none, rfl, by simp, ?_⟩⟩
          rintro - d f rfl hf
          exact hnone f hf
      · have hclear : ¬ m.Clear vfsRoot (sections filepath) := fun hclear => hok ⟨hnil, hclear⟩
        have hlost : m.findSections (sections filepath) vfsRoot false = none := by
          cases hs : sections filepath with
          | nil => exact absurd hs hnil
          | cons sect rest =>
              rw [hs] at hclear
              exact h.findSections_not_clear _ h.root_live hclear
        simp only [hlost, hnil, hclear, Option.bind_none, reduceCtorEq, false_and, exists_false,
          imp_false, and_false, or_false, iff_false, not_exists, not_forall]
        exact fun N => ⟨N, not_not.mpr le_rfl⟩

/-- In every forest that is built, the lookups of directories and of files are exact if and
only if they go well. -/
theorem lookup_iff {fileName : ℕ → Str} {m : Dirents}
    (hrun : Run.Guarded step BuildOk (boot fileName) m) :
  (∀ root ∈ m.live, ∀ path, m.ExactDir root path ↔ m.FindOk root path) ∧
    ∀ path, m.ExactFile path ↔ m.FileOk path
  := by
  obtain ⟨⟨kids, h⟩, files, hfiles⟩ :=
    hrun.invariant (fun m => (∃ kids, m.Tree kids) ∧ ∃ files, m.Files files)
      ⟨⟨_, tree_boot fileName⟩, fun _ => [], fun _ _ => rfl⟩
      fun u op v hu hok hstep => by
        obtain ⟨⟨kids, h⟩, files, hfiles⟩ := hu
        exact step_tree h hfiles hok hstep
  exact ⟨fun root hroot path => h.exactDir_iff hroot path, h.exactFile_iff hfiles⟩

/-- No other directory is above one without a parent. -/
theorem not_above {c p : ℕ} (hne : c ≠ p) (hp : m.parent p = none) :
  ¬ Relation.ReflTransGen m.Child c p
  := by
  intro hcp
  rcases hcp.cases_tail with heq | ⟨d, -, -, hparent⟩
  · exact hne heq.symm
  · rw [hp] at hparent
    cases hparent

/-- The root gets the directories `a` and `b`, and `a` gets a file. -/
theorem lookup_iff_two :
  ∃ m, Run.exec step (boot fun _ => ['f'])
      [.create ['a'] 1, .addChild (some 0) (some 1), .create ['b'] 2,
        .addChild (some 0) (some 2), .addFile (some 1) (some 9)] = some m ∧
    (∀ root ∈ m.live, ∀ path, m.ExactDir root path ↔ m.FindOk root path) ∧
    ∀ path, m.ExactFile path ↔ m.FileOk path
  := by
  refine ⟨_, rfl, lookup_iff (Run.guarded_of_exec (s := boot fun _ => ['f'])
    [.create ['a'] 1, .addChild (some 0) (some 1), .create ['b'] 2,
      .addChild (some 0) (some 2), .addFile (some 1) (some 9)] rfl ?_)⟩
  refine ⟨trivial, ?_⟩
  rintro _ ⟨⟩
  refine ⟨⟨by decide, by decide, rfl, not_above (by decide) rfl, ?_⟩, ?_⟩
  · rintro c ⟨hc, hparent⟩
    have hc' : c ∈ [1, 0] := hc
    fin_cases hc' <;> cases hparent
  rintro _ ⟨⟩
  refine ⟨trivial, ?_⟩
  rintro _ ⟨⟩
  refine ⟨⟨by decide, by decide, rfl, not_above (by decide) rfl, ?_⟩, ?_⟩
  · rintro c ⟨hc, hparent⟩
    have hc' : c ∈ [2, 1, 0] := hc
    fin_cases hc'
    · cases hparent
    · decide
    · cases hparent
  rintro _ ⟨⟩
  refine ⟨⟨by decide, ?_⟩, fun _ _ => trivial⟩
  rintro d hd ⟨l, hl, hmem⟩
  have hd' : d ∈ [2, 1, 0] := hd
  have hnil : l = [] := by
    fin_cases hd' <;> exact Chain.IsChain.nil_iff.mp hl
  rw [hnil] at hmem
  cases hmem

/-- The root has the directory `a` only, and the lookup of `/b` runs past its children. -/
theorem not_exactDir_mismatch :
  ∃ m, Run.exec step (boot fun _ => ['f']) [.create ['a'] 1, .addChild (some 0) (some 1)]
      = some m ∧
    m.direntFind (some 0) (some ['/', 'b']) = none ∧ ¬ m.ExactDir 0 ['/', 'b']
  := by
  have hfind : ∀ m ∈ Run.exec step (boot fun _ => ['f'])
      [.create ['a'] 1, .addChild (some 0) (some 1)],
        m.direntFind (some 0) (some ['/', 'b']) = none := by
    rintro _ ⟨⟩
    decide
  refine ⟨_, rfl, hfind _ rfl, ?_⟩
  rintro ⟨r, hr, -⟩
  rw [hfind _ rfl] at hr
  cases hr

end Dirents

end Etaos.Fs
