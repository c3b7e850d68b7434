import Mathlib.Data.List.Perm.Subperm
import Mathlib.Logic.Relation
import Etaos.Fs.Path

/-!
# The lookup of paths

In a tree of directories, `dirent_find` returns what a path leads to exactly when every
section on the way names a child of the directory reached, or that directory has no children
at all: the inner loop of `dirent_find` compares with the children of the directory it has read
last, and runs past the end of the list when no child matches.
-/

set_option linter.unusedSectionVars false

namespace Etaos.Fs

open Lib

namespace Dirents

/-- The directory `c` is a child of the directory `d`. -/
def Child (m : Dirents) (d c : ℕ) : Prop :=
  c ∈ m.live ∧ m.parent c = some d

/-- Following the sections one by one from the directory `d` leads to the directory `e`. -/
def Leads (m : Dirents) : ℕ → List Str → ℕ → Prop
  | d, [], e => d = e
  | d, sect :: sections, e => ∃ c, m.Child d c ∧ m.name c = sect ∧ m.Leads c sections e

/-- Every section on the way names a child of the directory reached, or that directory has no
children. -/
def Clear (m : Dirents) : ℕ → List Str → Prop
  | _, [] => True
  | d, sect :: sections =>
      (∀ c, m.Child d c → m.name c = sect → m.Clear c sections) ∧
        ((∃ c, m.Child d c) → ∃ c, m.Child d c ∧ m.name c = sect)

/-- The file is on the list of the directory. -/
def Registered (m : Dirents) (d f : ℕ) : Prop :=
  ∃ l, Chain.IsChain m.next (m.fileHead d) l ∧ f ∈ l

/-- The result of the lookup of a directory is the one that the path leads to. -/
def ExactDir (m : Dirents) (root : ℕ) (path : Str) : Prop :=
  ∃ r, m.direntFind (some root) (some path) = some r ∧
    ∀ d, r = some d ↔ m.Leads root (sections path) d

/-- The lookup of a directory goes well: the path is the name of the root and has no sections,
or it is not, and it has sections on a way without a mismatch. -/
def FindOk (m : Dirents) (root : ℕ) (path : Str) : Prop :=
  if m.name root = path then
    sections path = []
  else
    sections path ≠ [] ∧ m.Clear root (sections path)

/-- The directories form a forest: `kids` are the children of a directory in the order of its
list, siblings have different names, and no directory is below itself. -/
structure Tree (m : Dirents) (kids : ℕ → List ℕ) : Prop where
  root_live : vfsRoot ∈ m.live
  root_name : m.name vfsRoot = ['/']
  list : ∀ d ∈ m.live, m.lists.IsList (.children d) ((kids d).map .entry)
  mem_kids : ∀ d c, c ∈ kids d ↔ m.Child d c
  parent_live : ∀ d c, m.Child d c → d ∈ m.live
  names : ∀ d c c', m.Child d c → m.Child d c' → m.name c = m.name c' → c = c'
  acyclic : ∀ d, ¬ Relation.TransGen m.Child d d

/-- The children of a directory are on its list: `kids` are those of a directory in the order of
the list. -/
structure Listed (m : Dirents) (kids : ℕ → List ℕ) : Prop where
  list : ∀ d ∈ m.live, m.lists.IsList (.children d) ((kids d).map .entry)
  mem_kids : ∀ d c, c ∈ kids d ↔ m.Child d c
  parent_live : ∀ d c, m.Child d c → d ∈ m.live

variable {m : Dirents} {kids : ℕ → List ℕ}

theorem Tree.listed (h : m.Tree kids) : m.Listed kids where
  list := h.list
  mem_kids := h.mem_kids
  parent_live := h.parent_live

theorem Listed.nodup (h : m.Listed kids) {d : ℕ} (hd : d ∈ m.live) : (kids d).Nodup :=
  List.Nodup.of_map _ (List.nodup_cons.mp (h.list d hd).nodup).2

/-- A list of children is not longer than the list of all directories. -/
theorem Listed.length_kids_le (h : m.Listed kids) {d : ℕ} (hd : d ∈ m.live) :
  (kids d).length ≤ m.live.length
  := by
  apply List.Subperm.length_le
  apply (h.nodup hd).subperm
  intro c hc
  exact ((h.mem_kids d c).mp hc).1

theorem Listed.kids_eq_nil (h : m.Listed kids) {d : ℕ} : kids d = [] ↔ ∀ c, ¬ m.Child d c := by
  rw [List.eq_nil_iff_forall_not_mem]
  simp only [h.mem_kids]

/-- No directory is on two lists. -/
theorem Listed.disjoint (h : m.Listed kids) {d d' c : ℕ} (hc : c ∈ kids d) (hc' : c ∈ kids d') :
  d = d'
  := by
  have hparent := ((h.mem_kids d c).mp hc).2
  rw [((h.mem_kids d' c).mp hc').2] at hparent
  exact (Option.some.inj hparent).symm

theorem Tree.child_ne (h : m.Tree kids) {d c : ℕ} (hc : m.Child d c) : c ≠ d := by
  rintro rfl
  apply h.acyclic c (.single hc)

/-! ### The inner loop -/

/-- The inner loop over the rest of a list of children returns the first one with the name,
and runs past the end of the list when there is none. -/
theorem Tree.findChild (h : m.Tree kids) {d : ℕ} (hd : d ∈ m.live) (sect : Str) :
    ∀ (b a : List ℕ) (c search n : ℕ), kids d = a ++ c :: b → b.length < n →
      m.findChild sect n (.entry c) search
        = ((c :: b).find? (m.name · = sect)).map fun c => (c, true)
  | _, _, _, _, 0, _, hn => by omega
  | b, a, c, search, n + 1, hkids, hn => by
      have hchild : m.Child d c := by
        rw [← h.mem_kids, hkids]
        simp
      rw [Dirents.findChild, if_neg (by simp), listEntry, Option.bind_eq_bind, Option.bind_some,
        List.find?_cons]
      by_cases hname : m.name c = sect
      · simp [hname]
      · have hnext : m.lists.next (.entry c)
            = some (Ring.first (.children d) (b.map .entry)) := by
          have hlist := h.list d hd
          rw [hkids, List.map_append, List.map_cons] at hlist
          exact hlist.next_node
        rw [if_neg hname, hnext, Option.bind_eq_bind, Option.bind_some]
        simp only [hname, decide_false]
        cases b with
        | nil =>
            -- the list head is taken for the entry of a directory
            have hne : (Node.children d) ≠ .children c := by
              intro heq
              apply h.child_ne hchild
              injection heq with heq
              exact heq.symm
            cases n with
            | zero => rfl
            | succ n =>
                rw [List.map_nil, Ring.first_nil, Dirents.findChild, if_neg hne]
                rfl
        | cons c' b =>
            rw [List.map_cons, Ring.first_cons]
            apply Tree.findChild h hd sect b (a ++ [c]) c' c n (by simpa using hkids)
            simpa using hn

/-- The inner loop from the start of a list of children. -/
theorem Tree.findChild_start (h : m.Tree kids) {d : ℕ} (hd : d ∈ m.live) (sect : Str) :
  (do
    let carriage ← m.lists.next (.children d)
    m.findChild sect (m.live.length + 1) carriage d)
    = if kids d = [] then some (d, false)
      else ((kids d).find? (m.name · = sect)).map fun c => (c, true)
  := by
  have hnext : m.lists.next (.children d)
      = some (Ring.first (.children d) ((kids d).map .entry)) := (h.list d hd).next_head
  have hlength := h.listed.length_kids_le hd
  rw [hnext, Option.bind_eq_bind, Option.bind_some]
  cases hkids : kids d with
  | nil => rw [List.map_nil, Ring.first_nil, Dirents.findChild, if_pos rfl, if_pos rfl]
  | cons c b =>
      rw [hkids, List.length_cons] at hlength
      rw [List.map_cons, Ring.first_cons, if_neg (List.cons_ne_nil c b)]
      apply h.findChild hd sect b [] c d _ hkids (by omega)

/-! ### The outer loop -/

/-- The child with a name is the one that the inner loop finds. -/
theorem Tree.find?_eq_some (h : m.Tree kids) {d c : ℕ} {sect : Str} :
  (kids d).find? (m.name · = sect) = some c ↔ m.Child d c ∧ m.name c = sect
  := by
  constructor
  · intro hfind
    have hname : m.name c = sect := by simpa using List.find?_some hfind
    exact ⟨(h.mem_kids d c).mp (List.mem_of_find?_eq_some hfind), hname⟩
  · rintro ⟨hchild, hname⟩
    have hsome : ((kids d).find? (m.name · = sect)).isSome := by
      rw [List.find?_isSome]
      exact ⟨c, (h.mem_kids d c).mpr hchild, by simpa using hname⟩
    obtain ⟨c', hc'⟩ := Option.isSome_iff_exists.mp hsome
    have hname' : m.name c' = sect := by simpa using List.find?_some hc'
    have hchild' := (h.mem_kids d c').mp (List.mem_of_find?_eq_some hc')
    rw [hc', h.names d c' c hchild' hchild (hname'.trans hname.symm)]

/-- In a directory without children no section is found. -/
theorem Tree.findSections_empty (h : m.Tree kids) {d : ℕ} (hd : d ∈ m.live)
    (hkids : kids d = []) :
    ∀ (sections : List Str), m.findSections sections d false = some (d, false)
  | [] => rfl
  | sect :: sections => by
      have hstart := h.findChild_start hd sect
      rw [if_pos hkids] at hstart
      rw [findSections, ← bind_assoc, hstart]
      exact Tree.findSections_empty h hd hkids sections

/-- The outer loop goes on from the child with the name of the section. -/
theorem Tree.findSections_cons (h : m.Tree kids) {d : ℕ} (hd : d ∈ m.live) (sect : Str)
    (sections : List Str) (found : Bool) :
  m.findSections (sect :: sections) d found
    = if kids d = [] then some (d, false)
      else ((kids d).find? (m.name · = sect)).bind fun c => m.findSections sections c true
  := by
  have hstart := h.findChild_start hd sect
  rw [findSections, ← bind_assoc, hstart]
  split
  · rename_i hkids
    exact h.findSections_empty hd hkids sections
  · cases (kids d).find? (m.name · = sect) <;> rfl

/-- On a way without a mismatch the outer loop finds the directory that the sections lead
to. -/
theorem Tree.findSections_clear (h : m.Tree kids) :
    ∀ (sections : List Str) {d : ℕ}, d ∈ m.live → m.Clear d sections →
      ∃ x found, m.findSections sections d true = some (x, found) ∧
        ∀ e, found = true ∧ x = e ↔ m.Leads d sections e
  | [], d, _, _ => ⟨d, true, rfl, fun e => by simp [Leads]⟩
  | sect :: sections, d, hd, hclear => by
      obtain ⟨hnext, hsome⟩ := hclear
      rw [h.findSections_cons hd]
      split
      · rename_i hkids
        refine ⟨d, false, rfl, fun e => ?_⟩
        have hnone := h.listed.kids_eq_nil.mp hkids
        simp only [Bool.false_eq_true, false_and, Leads, false_iff, not_exists]
        rintro c ⟨hc, -⟩
        exact hnone c hc
      · rename_i hkids
        rw [h.listed.kids_eq_nil, not_forall_not] at hkids
        obtain ⟨c, hc, hname⟩ := hsome hkids
        rw [h.find?_eq_some.mpr ⟨hc, hname⟩, Option.bind_some]
        obtain ⟨x, found, hfind, hleads⟩ := Tree.findSections_clear h sections hc.1
          (hnext c hc hname)
        refine ⟨x, found, hfind, fun e => (hleads e).trans ?_⟩
        constructor
        · intro hlead
          exact ⟨c, hc, hname, hlead⟩
        · rintro ⟨c', hc', hname', hlead⟩
          rwa [h.names d c c' hc hc' (hname.trans hname'.symm)]

/-- A mismatch makes the outer loop run past the end of a list. -/
theorem Tree.findSections_not_clear (h : m.Tree kids) :
    ∀ (sections : List Str) {d : ℕ}, d ∈ m.live → ¬ m.Clear d sections →
      m.findSections sections d true = none
  | [], _, _, hclear => absurd trivial hclear
  | sect :: sections, d, hd, hclear => by
      rw [h.findSections_cons hd]
      split
      · rename_i hkids
        have hnone := h.listed.kids_eq_nil.mp hkids
        exact absurd ⟨fun c hc => absurd hc (hnone c), fun ⟨c, hc⟩ => absurd hc (hnone c)⟩ hclear
      · cases hfind : (kids d).find? (m.name · = sect) with
        | none => rfl
        | some c =>
            obtain ⟨hc, hname⟩ := h.find?_eq_some.mp hfind
            rw [Option.bind_some]
            apply Tree.findSections_not_clear h sections hc.1
            intro hnext
            apply hclear
            refine ⟨fun c' hc' hname' => ?_, fun _ => ⟨c, hc, hname⟩⟩
            rwa [h.names d c' c hc' hc (hname'.trans hname.symm)]

/-- A non-empty way leads below a directory. -/
theorem transGen_of_leads :
    ∀ (sections : List Str) {d e : ℕ}, sections ≠ [] → m.Leads d sections e →
      Relation.TransGen m.Child d e
  | [], _, _, hne, _ => absurd rfl hne
  | [sect], d, e, _, ⟨c, hc, _, hce⟩ => by
      obtain rfl : c = e := hce
      exact .single hc
  | sect :: sect' :: sections, d, e, _, ⟨c, hc, _, hlead⟩ =>
      .head hc (transGen_of_leads (sect' :: sections) (List.cons_ne_nil _ _) hlead)

/-- The lookup of a directory is exact if and only if it goes well. -/
theorem Tree.exactDir_iff (h : m.Tree kids) {root : ℕ} (hroot : root ∈ m.live) (path : Str) :
  m.ExactDir root path ↔ m.FindOk root path
  := by
  rw [ExactDir, FindOk, direntFind, fsSplitPath_eq]
  by_cases hname : m.name root = path
  · rw [if_pos hname, if_pos hname]
    constructor
    · rintro ⟨r, hr, hexact⟩
      by_contra hne
      have hlead := (hexact root).mp (Option.some.inj hr).symm
      apply h.acyclic root (transGen_of_leads _ hne hlead)
    · intro hnil
      refine ⟨some root, rfl, fun d => ?_⟩
      rw [hnil, Option.some_inj]
      rfl
  · rw [if_neg hname, if_neg hname]
    cases hsections : sections path with
    | nil =>
        simp only [ne_eq, not_true_eq_false, false_and, iff_false]
        rintro ⟨r, hr, hexact⟩
        obtain rfl : none = r := Option.some.inj hr
        cases (hexact root).mpr rfl
    | cons sect rest =>
        have hfound : m.findSections (sect :: rest) root false
            = m.findSections (sect :: rest) root true := rfl
        simp only [Option.bind_eq_bind, Option.bind_some, hfound, ne_eq, reduceCtorEq,
          not_false_eq_true, true_and]
        constructor
        · rintro ⟨r, hr, -⟩
          by_contra hclear
          rw [h.findSections_not_clear _ hroot hclear] at hr
          cases hr
        · intro hclear
          obtain ⟨x, found, hfind, hleads⟩ := h.findSections_clear _ hroot hclear
          rw [hfind]
          refine ⟨if found then some x else none, rfl, fun d => ?_⟩
          rw [← hleads d]
          cases found <;> simp

end Dirents

end Etaos.Fs
