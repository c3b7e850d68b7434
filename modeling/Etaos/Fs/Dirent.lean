import Etaos.Lib.List
import Etaos.Library.Run

/-!
# Directories

The tree of directories of `dirent.c`, and the lookup of paths with `fs_split_path`,
`basepath` and `basename`.  A string is the list of its characters, without the terminating
zero.  A function has no result when it reads or writes outside of an object, or does not
return.
-/

namespace Etaos.Fs

open Lib

/-- A string. -/
abbrev Str := List Char

/-! ### Paths -/

/-- The function `strtok_r`, from the string it is called with, or from the context it has
kept.  It returns the token, and keeps the string behind its delimiter. -/
def strtokR (s : Str) (delim : Str) : Option (Str × Option Str) :=
  match s.dropWhile (delim.contains ·) with
  | [] => none
  | c :: s =>
      let tok := (c :: s).takeWhile (! delim.contains ·)
      match (c :: s).dropWhile (! delim.contains ·) with
      | [] => some (tok, none)
      | _ :: last => some (tok, some last)

/-- The loop of `path_split` over the tokens. -/
def tokens (delim : Str) : ℕ → Option Str → List Str
  | _, none => []
  | 0, some _ => []
  | n + 1, some s =>
      match strtokR s delim with
      | none => []
      | some (token, last) => token :: tokens delim n last

/-- The number of pointers that `path_split` makes room for. -/
def sectionCount (path : Str) (delim : Char) : ℕ :=
  path.count delim + (if path.getLast? = some delim then 0 else 1) + 1

/-- The function `path_split`, which stores the tokens and a terminating pointer. -/
def pathSplit (path : Str) (delim : Char) : Option (List Str) :=
  let result := tokens [delim] (path.length + 1) (some path)
  if result.length < sectionCount path delim then some result else none

/-- The function `fs_split_path`. -/
def fsSplitPath (path0 : Str) : Option (List Str) :=
  pathSplit path0 '/'

/-- The loop of `basepath` from `idx` down. -/
def basepathLoop (path : Str) : ℕ → Str
  | 0 => ['/']
  | idx + 1 => if path[idx + 1]? = some '/' then path.take (idx + 1) else basepathLoop path idx

/-- The function `basepath`. -/
def basepath (path : Str) : Option Str :=
  if path = [] then none else some (basepathLoop path (path.length - 1))

/-- The loop of `basename` from `idx` down. -/
def basenameLoop (path : Str) : ℕ → Str
  | 0 => if path[0]? = some '/' then path.drop 1 else path
  | idx + 1 => if path[idx + 1]? = some '/' then path.drop (idx + 2) else basenameLoop path idx

/-- The function `basename`. -/
def basename (path : Str) : Option Str :=
  if path = [] then none else some (basenameLoop path (path.length - 1))

/-! ### The tree -/

/-- The list heads of the directory at an address. -/
inductive Node where
  | entry (dir : ℕ)
  | children (dir : ℕ)
  deriving DecidableEq

/-- The memory of the directories and of the files in them. -/
structure Dirents where
  name : ℕ → Str
  parent : ℕ → Option ℕ
  lists : ListHeads Node
  fileHead : ℕ → Option ℕ
  fs : ℕ → Option ℕ
  /-- The name of a file. -/
  fileName : ℕ → Str
  /-- The field `next` of a file. -/
  next : ℕ → Option ℕ
  /-- The directories whose memory is allocated. -/
  live : List ℕ

namespace Dirents

/-- The directory `vfs_root`. -/
def vfsRoot : ℕ := 0

/-- The memory with the directory `vfs_root` only. -/
def boot (fileName : ℕ → Str) : Dirents where
  name := fun _ => ['/']
  parent := fun _ => none
  lists := ({ next := fun _ => none, prev := fun _ => none } : ListHeads Node)
    |>.listHeadInit (.entry vfsRoot) |>.listHeadInit (.children vfsRoot)
  fileHead := fun _ => none
  fs := fun _ => none
  fileName := fileName
  next := fun _ => none
  live := [vfsRoot]

/-- The function `dirent_create`, with the memory that `kzalloc` returns. -/
def direntCreate (m : Dirents) (name : Str) (dir : ℕ) : Dirents :=
  { m with
    name := Function.update m.name dir name
    parent := Function.update m.parent dir none
    lists := (m.lists.listHeadInit (.entry dir)).listHeadInit (.children dir)
    fileHead := Function.update m.fileHead dir none
    fs := Function.update m.fs dir none
    live := dir :: m.live }

/-- The function `dirent_add_child`. -/
def direntAddChild (m : Dirents) (parent child : Option ℕ) :
    Option (Dirents × Option ℕ) :=
  match parent, child with
  | some parent, some child => do
      let lists ← m.lists.listAdd (.entry child) (.children parent)
      some ({ m with
        parent := Function.update m.parent child (some parent)
        fs := Function.update m.fs child (m.fs parent)
        lists }, some child)
  | _, _ => some (m, none)

/-- The function `dirent_add_file`. -/
def direntAddFile (m : Dirents) (dir file : Option ℕ) : Dirents × Option ℕ :=
  match dir, file with
  | some dir, some file =>
      ({ m with
        next := Function.update m.next file (m.fileHead dir)
        fileHead := Function.update m.fileHead dir (some file) }, some file)
  | _, _ => (m, none)

/-- The macro `list_entry` for the field `entry` of a directory.  The list head `children` of
a directory is not such a field. -/
def listEntry : Node → Option ℕ
  | .entry dir => some dir
  | .children _ => none

/-- The inner loop of `dirent_find`, which compares with the children of the directory it has
read last. -/
def findChild (m : Dirents) (sect : Str) : ℕ → Node → ℕ → Option (ℕ × Bool)
  | 0, _, _ => none
  | n + 1, carriage, search =>
      if carriage = .children search then
        some (search, false)
      else do
        let search ← listEntry carriage
        if m.name search = sect then
          some (search, true)
        else
          let carriage ← m.lists.next carriage
          findChild m sect n carriage search

/-- The outer loop of `dirent_find`. -/
def findSections (m : Dirents) : List Str → ℕ → Bool → Option (ℕ × Bool)
  | [], search, found => some (search, found)
  | sect :: sections, search, _ => do
      let carriage ← m.lists.next (.children search)
      let (search, found) ← m.findChild sect (m.live.length + 1) carriage search
      findSections m sections search found

/-- The function `dirent_find`. -/
def direntFind (m : Dirents) (root : Option ℕ) (path : Option Str) : Option (Option ℕ) :=
  match root, path with
  | some root, some path =>
      if m.name root = path then
        some (some root)
      else do
        let sections ← fsSplitPath path
        let (search, found) ← m.findSections sections root false
        some (if found then some search else none)
  | _, _ => some none

/-- The loop of `dirent_find_file`. -/
def findFileLoop (m : Dirents) (filename : Str) : ℕ → Option ℕ → Option (Option ℕ)
  | _, none => some none
  | 0, some _ => none
  | n + 1, some carriage =>
      if m.fileName carriage = filename then
        some (some carriage)
      else
        findFileLoop m filename n (m.next carriage)

/-- The function `dirent_find_file`, with the number of nodes it visits at most. -/
def direntFindFile (m : Dirents) (n : ℕ) (dir : Option ℕ) (filename : Str) :
    Option (Option ℕ) :=
  match dir with
  | some dir => m.findFileLoop filename n (m.fileHead dir)
  | none => some none

/-- The function `vfs_find_file`. -/
def vfsFindFile (m : Dirents) (n : ℕ) (path : Str) : Option (Option ℕ) :=
  match basepath path, basename path with
  | some filepath, some filename => do
      let dir ← m.direntFind (some vfsRoot) (some filepath)
      m.direntFindFile n dir filename
  | _, _ => some none

end Dirents

/-! ### Building a tree -/

/-- The calls that build a tree. -/
inductive DirOp where
  | create (name : Str) (dir : ℕ)
  | addChild (parent child : Option ℕ)
  | addFile (dir file : Option ℕ)

namespace Dirents

/-- A step of building a tree.  Memory that is allocated is not allocated again. -/
def step (m : Dirents) : DirOp → Option Dirents
  | .create name dir => if dir ∈ m.live then none else some (m.direntCreate name dir)
  | .addChild parent child => (m.direntAddChild parent child).map Prod.fst
  | .addFile dir file => some (m.direntAddFile dir file).1

end Dirents

end Etaos.Fs
