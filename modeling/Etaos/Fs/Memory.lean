import Etaos.Fs.Mkdir

/-!
# Lookups when allocations fail

The functions `fs_split_path`, `dirent_find` and `vfs_add_file` when there may be no memory for
what a lookup allocates: a copy of the path, the array of its tokens and the tokens.  The
allocations are numbered from 0 on in the order in which they are made, and `mem` says which of
them succeed.  A function has no result when it reads through `NULL`.
-/

namespace Etaos.Fs

/-- The function `fs_split_path`, with the array that it returns.  A token that there is no memory
for is stored as `NULL`. -/
def fsSplitPathMem (mem : ℕ → Bool) (path0 : Str) : Option (Option (List (Option Str))) :=
  -- `path_split` reads from the copy of the path
  if mem 0 then do
    let tokens ← fsSplitPath path0
    if mem 1 then
      some (some (tokens.mapIdx fun idx token => if mem (2 + idx) then some token else none))
    else
      some none
  else
    none

/-- What is still allocated after `fs_free_path_split`, which stops at the first `NULL`. -/
def fsFreePathSplit (split : List (Option Str)) : List Str :=
  (split.dropWhile Option.isSome).reduceOption

/-- The function `dirent_find`, with the strings that it leaves allocated. -/
def direntFindMem (mem : ℕ → Bool) (m : Dirents) (root : Option ℕ) (path : Option Str) :
    Option (Option ℕ × List Str) :=
  match root, path with
  | some root, some path =>
      if m.name root = path then
        some (some root, [])
      else do
        let sections ← fsSplitPathMem mem path
        let sections ← sections
        let (search, found) ←
          m.findSections (sections.takeWhile Option.isSome).reduceOption root false
        some (if found then some search else none, fsFreePathSplit sections)
  | _, _ => some (none, [])

/-- The function `vfs_add_file`, with the strings that it leaves allocated. -/
def vfsAddFileMem (mem : ℕ → Bool) (s : Vfs) (path : Option Str) (file : ℕ) :
    Option (Vfs × ℤ × List Str) := do
  let (dir, kept) ← direntFindMem mem s.dirents (some Dirents.vfsRoot) path
  match dir with
  | none => some (s, -EINVAL, kept)
  | some dir =>
      some ({ s with dirents := (s.dirents.direntAddFile (some dir) (some file)).1 }, -EOK, kept)

variable {mem : ℕ → Bool} {path : Str}

/-- With memory for the copy of the path, the array and the tokens, the array is the one of the
sections. -/
theorem fsSplitPathMem_eq (hmem : ∀ i < 2 + (sections path).length, mem i) :
  fsSplitPathMem mem path = some (some ((sections path).map some))
  := by
  have htokens :
      ((sections path).mapIdx fun idx token => if mem (2 + idx) then some token else none)
        = (sections path).map some := by
    apply List.ext_getElem
    · simp
    · intro i hi hi'
      rw [List.length_mapIdx] at hi
      rw [List.getElem_mapIdx, List.getElem_map, if_pos (hmem _ (by omega))]
  rw [fsSplitPathMem, if_pos (hmem 0 (by omega)), fsSplitPath_eq, Option.bind_eq_bind,
    Option.bind_some, if_pos (hmem 1 (by omega)), htokens]

/-- With that memory, a lookup finds what it finds when no allocation can fail, and keeps
nothing. -/
theorem direntFindMem_eq (m : Dirents) (root : ℕ)
    (hmem : ∀ i < 2 + (sections path).length, mem i) :
  direntFindMem mem m (some root) (some path)
    = (m.direntFind (some root) (some path)).map fun dir => (dir, [])
  := by
  have hsome : ((sections path).map some).takeWhile Option.isSome = (sections path).map some := by
    rw [List.takeWhile_eq_self_iff]
    simp
  have hkept : fsFreePathSplit ((sections path).map some) = [] := by
    have hdrop : ((sections path).map some).dropWhile Option.isSome = [] := by
      rw [List.dropWhile_eq_nil_iff]
      simp
    rw [fsFreePathSplit, hdrop]
    rfl
  rw [direntFindMem, Dirents.direntFind]
  split
  · rfl
  · rw [fsSplitPathMem_eq hmem, fsSplitPath_eq]
    have hreduce : ((sections path).map some).reduceOption = sections path :=
      List.filterMap_map.trans List.filterMap_some
    simp only [Option.bind_eq_bind, Option.bind_some, hsome, hkept, hreduce]
    cases m.findSections (sections path) root false <;> rfl

theorem vfsAddFileMem_eq (vfs : Vfs) (file : ℕ) (hmem : ∀ i < 2 + (sections path).length, mem i) :
  vfsAddFileMem mem vfs (some path) file
    = (vfs.vfsAddFile (some path) file).map fun (t, err) => (t, err, [])
  := by
  rw [vfsAddFileMem, Vfs.vfsAddFile, direntFindMem_eq _ _ hmem, Vfs.findDir]
  cases vfs.dirents.direntFind (some Dirents.vfsRoot) (some path) with
  | none => rfl
  | some dir => cases dir <;> rfl

section

variable {vfs : Vfs} (file : ℕ) (hroot : vfs.dirents.name Dirents.vfsRoot ≠ path)
include hroot

/-- A lookup reads through `NULL` when there is no memory for the copy of the path or for the
array. -/
theorem vfsAddFileMem_eq_none (hmem : ¬ (mem 0 ∧ mem 1)) :
  vfsAddFileMem mem vfs (some path) file = none
  := by
  rw [vfsAddFileMem, direntFindMem, if_neg hroot, fsSplitPathMem]
  by_cases hpath : mem 0
  · have harray : ¬ mem 1 := fun h => hmem ⟨hpath, h⟩
    simp [hpath, harray, fsSplitPath_eq]
  · simp [hpath]

/-- A file is not added when there is no memory for the only token of the path. -/
theorem vfsAddFileMem_of_token {token : Str} (hsections : sections path = [token]) (hpath : mem 0)
    (harray : mem 1) (htoken : ¬ mem 2) :
  vfsAddFileMem mem vfs (some path) file = some (vfs, -EINVAL, [])
  := by
  rw [vfsAddFileMem, direntFindMem, if_neg hroot, fsSplitPathMem, fsSplitPath_eq, hsections]
  simp only [hpath, harray, htoken, if_true, Option.bind_eq_bind, Option.bind_some,
    List.mapIdx_cons, List.mapIdx_nil, Nat.add_zero, Bool.false_eq_true, if_false]
  rfl

end

end Etaos.Fs
