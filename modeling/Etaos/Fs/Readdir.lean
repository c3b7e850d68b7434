import Etaos.Fs.Tree
import Etaos.Library.Cursor

/-!
# Reading directories

The functions `readdir_r` and `readdir`.  There is no stream: the position in a directory is the
entry that was returned last, which `readdir_r` looks for in the list of the children, and which
`readdir` keeps in a static variable.

Fed with its own results, `readdir_r` returns the children of a directory in the order of the list,
and then `NULL`.  The calls of `readdir` do so for every directory as long as no directory is read
while the static variable holds a child of another one.
-/

set_option linter.unusedSectionVars false

namespace Etaos.Fs

open Lib Cursor

namespace Dirents

/-- The loop of `readdir_r` from the carriage on. -/
def readdirLoop (m : Dirents) (dir : ℕ) (entry : Option ℕ) :
    ℕ → Node → Bool → Option (Option ℕ)
  | 0, _, _ => none
  | n + 1, carriage, found =>
      if carriage = .children dir then
        some none
      else do
        let tmp ← listEntry carriage
        if found ∨ entry = none then
          some (some tmp)
        else
          let carriage ← m.lists.next carriage
          readdirLoop m dir entry n carriage (some tmp = entry)

/-- The function `readdir_r`. -/
def readdirR (m : Dirents) (dir : ℕ) (entry : Option ℕ) : Option (Option ℕ) := do
  let carriage ← m.lists.next (.children dir)
  m.readdirLoop dir entry (m.live.length + 1) carriage false

/-- The function `readdir`, with the static variable `entry` and the calls that were made. -/
def readdir (m : Dirents) (s : Calls ℕ ℕ) (dirp : ℕ) : Option (Calls ℕ ℕ) := do
  let result ← m.readdirR dirp s.entry
  some { entry := result, log := s.log ++ [(dirp, result)] }

/-- The results of `readdir_r` when it is called with `NULL` first, and then with what it has
returned last. -/
def feed (m : Dirents) (dir : ℕ) : ℕ → Option (Option ℕ)
  | 0 => m.readdirR dir none
  | n + 1 => do
      let entry ← m.feed dir n
      m.readdirR dir entry

/-- The condition on a call of `readdir`: the static variable is `NULL`, or an entry of the
directory that is read. -/
def Undisturbed (m : Dirents) (s : Calls ℕ ℕ) (dirp : ℕ) : Prop :=
  dirp ∈ m.live ∧ ∀ entry, s.entry = some entry → m.Child dirp entry

/-- The condition on a call that builds the lists: a directory that is added to one is not on one
yet. -/
def Attached (m : Dirents) : DirOp → Prop
  | .addChild (some parent) (some child) =>
      parent ∈ m.live ∧ child ∈ m.live ∧ m.parent child = none
  | _ => True

variable {m : Dirents} {kids : ℕ → List ℕ}

/-! ### One call -/

/-- Behind the entry, the loop returns the next one. -/
theorem readdirLoop_found (m : Dirents) (d : ℕ) (entry : Option ℕ) (b : List ℕ) {n : ℕ}
    {found : Bool} (hfound : found = true ∨ entry = none) (hn : 0 < n) :
  m.readdirLoop d entry n (Ring.first (.children d) (b.map .entry)) found = some b.head?
  := by
  obtain ⟨n, rfl⟩ : ∃ k, n = k + 1 := ⟨n - 1, by omega⟩
  cases b with
  | nil => rw [List.map_nil, Ring.first_nil, readdirLoop, if_pos rfl, List.head?_nil]
  | cons c b =>
      rw [List.map_cons, Ring.first_cons, readdirLoop, if_neg (by simp), listEntry,
        Option.bind_eq_bind, Option.bind_some, if_pos hfound, List.head?_cons]

/-- The loop goes on until it has met the entry. -/
theorem Listed.readdirLoop_search (h : m.Listed kids) {d : ℕ} (hd : d ∈ m.live) (entry : ℕ) :
    ∀ (b a : List ℕ) (n : ℕ), kids d = a ++ b → b.length < n →
      m.readdirLoop d (some entry) n (Ring.first (.children d) (b.map .entry)) false
        = some (follow b (some entry))
  | _, _, 0, _, hn => by omega
  | [], a, n + 1, _, _ => by
      rw [List.map_nil, Ring.first_nil, readdirLoop, if_pos rfl]
      rfl
  | c :: b, a, n + 1, hkids, hn => by
      have hnext : m.lists.next (.entry c) = some (Ring.first (.children d) (b.map .entry)) := by
        have hlist := h.list d hd
        rw [hkids, List.map_append, List.map_cons] at hlist
        exact hlist.next_node
      have hrest : kids d = (a ++ [c]) ++ b := by simpa using hkids
      have hlength : b.length < n := by simpa using hn
      rw [List.map_cons, Ring.first_cons, readdirLoop, if_neg (by simp), listEntry,
        Option.bind_eq_bind, Option.bind_some, if_neg (by simp), hnext, Option.bind_eq_bind,
        Option.bind_some, follow]
      by_cases hc : c = entry
      · rw [List.dropWhile_cons_of_neg (by simp [hc]), List.tail_cons]
        apply readdirLoop_found m d _ b (.inl (by simp [hc]))
        omega
      · rw [List.dropWhile_cons_of_pos (by simpa using hc)]
        simp only [Option.some.injEq, hc, decide_false]
        exact Listed.readdirLoop_search h hd entry b (a ++ [c]) n hrest hlength

/-- `readdir_r` returns the child behind the entry. -/
theorem Listed.readdirR_eq (h : m.Listed kids) {d : ℕ} (hd : d ∈ m.live) (entry : Option ℕ) :
  m.readdirR d entry = some (follow (kids d) entry)
  := by
  have hlength := h.length_kids_le hd
  have hnext : m.lists.next (.children d)
      = some (Ring.first (.children d) ((kids d).map .entry)) := (h.list d hd).next_head
  rw [readdirR, hnext, Option.bind_eq_bind, Option.bind_some]
  cases entry with
  | none => exact readdirLoop_found m d none (kids d) (.inr rfl) (Nat.succ_pos _)
  | some entry => exact h.readdirLoop_search hd entry (kids d) [] _ rfl (by omega)

/-- `readdir` makes a call for the list of the directory. -/
theorem Listed.readdir_eq (h : m.Listed kids) {d : ℕ} (hd : d ∈ m.live) (s : Calls ℕ ℕ) :
  m.readdir s d = some (s.call kids d)
  := by
  rw [readdir, h.readdirR_eq hd]
  rfl

/-! ### All calls -/

/-- Fed with its own results, `readdir_r` enumerates the children. -/
theorem Listed.feed_eq (h : m.Listed kids) {d : ℕ} (hd : d ∈ m.live) (n : ℕ) :
  m.feed d n = some (kids d)[index (kids d) n]?
  := by
  have hstep (n : ℕ) : follow (kids d) (before (kids d) (index (kids d) n))
      = (kids d)[index (kids d) n]? := follow_before (h.nodup hd) (index_le _ _)
  induction n with
  | zero =>
      rw [feed, h.readdirR_eq hd, ← hstep, index, Nat.zero_mod, before]
  | succ n ih =>
      rw [feed, ih, Option.bind_eq_bind, Option.bind_some, h.readdirR_eq hd, ← hstep (n + 1),
        before_index_succ]

/-- As long as the condition is met, the calls of `readdir` enumerate all directories. -/
theorem Listed.enumerates (h : m.Listed kids) {s : Calls ℕ ℕ}
    (hrun : Run.Guarded m.readdir m.Undisturbed .init s) :
  Calls.Enumerates kids s.log
  := by
  have hnodup (d : ℕ) : (kids d).Nodup := by
    by_cases hd : d ∈ m.live
    · apply h.nodup hd
    · have hempty : kids d = [] := by
        rw [h.kids_eq_nil]
        intro c hc
        exact hd (h.parent_live d c hc)
      rw [hempty]
      apply List.nodup_nil
  have hinv : Calls.Inv kids s := by
    apply hrun.invariant (Calls.Inv kids) (Calls.Inv.init kids)
    intro s d s' hs hok hstep
    rw [h.readdir_eq hok.1] at hstep
    obtain rfl := Option.some.inj hstep
    apply hs.call hnodup
    · intro d d' c hc hc'
      exact h.disjoint hc hc'
    · intro c hc
      exact (h.mem_kids d c).mpr (hok.2 c hc)
  exact hinv.enumerates

/-- The lists of directories that are built. -/
theorem exists_listed {fileName : ℕ → Str}
    (hbuilt : Run.Guarded Dirents.step Attached (boot fileName) m) :
  ∃ kids, m.Listed kids
  := by
  apply hbuilt.invariant (fun m => ∃ kids, m.Listed kids) ⟨_, (tree_boot fileName).listed⟩
  rintro m op m' ⟨kids, h⟩ hok hstep
  cases op with
  | create name dir =>
      rw [step] at hstep
      split at hstep
      · cases hstep
      · rename_i hdir
        obtain rfl := Option.some.inj hstep
        exact ⟨kids, h.create name hdir⟩
  | addChild parent child =>
      rw [step] at hstep
      cases parent with
      | none =>
          obtain rfl := Option.some.inj hstep
          exact ⟨kids, h⟩
      | some p =>
          cases child with
          | none =>
              obtain rfl := Option.some.inj hstep
              exact ⟨kids, h⟩
          | some c =>
              obtain ⟨hp, hc, hparent⟩ := hok
              obtain ⟨m'', hadd, hlisted, -⟩ := h.addChild hp hc hparent
              rw [hadd] at hstep
              obtain rfl := Option.some.inj hstep
              exact ⟨_, hlisted⟩
  | addFile dir file =>
      obtain rfl := Option.some.inj hstep
      cases dir <;> cases file <;> exact ⟨kids, h.list, h.mem_kids, h.parent_live⟩

/-- `readdir_r` enumerates every directory, and the calls of `readdir` enumerate all of them as long
as none is read while the static variable holds an entry of another one. -/
theorem enumerates_of_undisturbed {fileName : ℕ → Str}
    (hbuilt : Run.Guarded Dirents.step Attached (boot fileName) m) :
  ∃ kids, m.Listed kids ∧
    (∀ d ∈ m.live, ∀ n ≤ (kids d).length, m.feed d n = some (kids d)[n]?) ∧
    ∀ s, Run.Guarded m.readdir m.Undisturbed .init s → Calls.Enumerates kids s.log
  := by
  obtain ⟨kids, h⟩ := exists_listed hbuilt
  refine ⟨kids, h, ?_, fun s hrun => h.enumerates hrun⟩
  intro d hd n hn
  rw [h.feed_eq hd, index, Nat.mod_eq_of_lt (Nat.lt_succ_of_le hn)]

/-- The calls that build the directory `1` in the root and the directory `2` in `1`. -/
def nested : List DirOp :=
  [.create ['a'] 1, .addChild (some 0) (some 1), .create ['b'] 2, .addChild (some 1) (some 2)]

/-- The theorem applied to the two directories. -/
theorem enumerates_of_undisturbed_nested :
  ∃ m, Run.exec Dirents.step (boot fun _ => []) nested = some m ∧
    ∃ kids, m.Listed kids ∧
      (∀ d ∈ m.live, ∀ n ≤ (kids d).length, m.feed d n = some (kids d)[n]?) ∧
      ∀ s, Run.Guarded m.readdir m.Undisturbed .init s → Calls.Enumerates kids s.log
  := by
  refine ⟨_, rfl, @enumerates_of_undisturbed _ (fun _ => [])
    (Run.guarded_of_exec nested rfl ?_)⟩
  refine ⟨trivial, ?_⟩
  rintro _ ⟨⟩
  refine ⟨⟨by decide, by decide, rfl⟩, ?_⟩
  rintro _ ⟨⟩
  refine ⟨trivial, ?_⟩
  rintro _ ⟨⟩
  exact ⟨⟨by decide, by decide, rfl⟩, fun _ _ => trivial⟩

/-- After a call for the root, a call for the directory `1` does not return its child. -/
theorem not_enumerates_nested :
  ∃ m, Run.exec Dirents.step (boot fun _ => []) nested = some m ∧
    ∃ s, Run.exec m.readdir .init [0, 1] = some s ∧ s.log = [(0, some 1), (1, none)] ∧
      m.Child 1 2 ∧ ∀ kids, m.Listed kids → ¬ Calls.Enumerates kids s.log
  := by
  have hchild : ∀ m ∈ Run.exec Dirents.step (boot fun _ => []) nested, m.Child 1 2 := by
    rintro _ ⟨⟩
    exact ⟨by decide, rfl⟩
  refine ⟨_, rfl, _, rfl, rfl, hchild _ rfl, ?_⟩
  intro kids h hall
  have hfirst : none = (kids 1)[index (kids 1) 0]? := hall 1 1 none rfl
  have hmem := (h.mem_kids 1 2).mpr (hchild _ rfl)
  have hnil : kids 1 = [] := by
    rw [index, Nat.zero_mod, eq_comm, List.getElem?_eq_none_iff] at hfirst
    apply List.eq_nil_of_length_eq_zero
    omega
  rw [hnil] at hmem
  cases hmem

end Dirents

end Etaos.Fs
