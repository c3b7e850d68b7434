import Etaos.Fs.Basename
import Etaos.Fs.Memory

/-!
# The device core

The list of devices of `core.c`, and the creation of devices when allocations fail.

The allocations of a call are numbered from 0 on in the order in which the call makes them, and
`mem` says which of them succeed.  A function has no result when it reads through `NULL`.
-/

set_option linter.style.nameCheck false

namespace Etaos.Drivers

open Lib Fs

/-! ### Devices -/

/-- The constant `NEVER`. -/
def NEVER : ℤ := -1

/-- The constant `_FDEV_SETUP_RW`. -/
def FDEV_SETUP_RW : ℕ := 3

/-- The path of the directory that has the files of the devices. -/
def devPath : Str := ['/', 'd', 'e', 'v']

/-- The path of the file of a device. -/
def filePath (name : Str) : Str := devPath ++ '/' :: name

/-- A device.  The mutex of a device is left out: `dev_set_fops` takes it when nobody else knows
the device. -/
structure Device where
  name : Option Str
  devData : Option ℕ
  /-- The field `last_rw_op` of the sync lock. -/
  lastRwOp : ℤ
  /-- Whether the field `release` points to `dev_release`. -/
  release : Bool
  /-- The fields of the file of the device. -/
  index : ℕ
  length : ℕ
  uses : ℕ
  flags : ℕ
  /-- The table that the operations of the file have been copied from. -/
  ops : Option ℕ

namespace Device

/-- A device in the memory that `kzalloc` returns. -/
def zero : Device where
  name := none
  devData := none
  lastRwOp := 0
  release := false
  index := 0
  length := 0
  uses := 0
  flags := 0
  ops := none

/-- The fields that `device_initialize` sets to what they are in a new device. -/
def setup (dev : Device) : Device :=
  { dev with release := true, lastRwOp := NEVER, index := 0, length := 0, uses := 0 }

/-- The function `_dev_set_fops`. -/
def _devSetFops (dev : Device) (fops : Option ℕ) : Device × ℤ :=
  let dev := { dev with flags := FDEV_SETUP_RW }
  match fops with
  | none => (dev, -EINVAL)
  | some fops => ({ dev with ops := some fops }, -EOK)

theorem _devSetFops_name (dev : Device) (fops : Option ℕ) :
  (dev._devSetFops fops).1.name = dev.name
  := by
  cases fops <;> rfl

end Device

/-- The list head `dev_root`, and the field `devs` of a device. -/
inductive DevNode where
  | root
  | devs (dev : ℕ)
  deriving DecidableEq

/-- Memory that is allocated. -/
inductive Block where
  | device (dev : ℕ)
  | token (s : Str)
  deriving DecidableEq

/-- The device core, with the virtual file system.  The file of a device has the address of the
device. -/
structure DevCore where
  vfs : Vfs
  lists : ListHeads DevNode
  device : ℕ → Device
  /-- The memory of the next device. -/
  nextDev : ℕ
  allocated : List Block

/-- A call of `device_create`: its arguments, and the allocations that succeed. -/
structure CreateCall where
  name : Option Str
  data : Option ℕ
  fops : Option ℕ
  mem : ℕ → Bool

/-- The comparison with `strcmp` of two names, whether they are the same. -/
def sameName : Option Str → Option Str → Option Bool
  | some s1, some s2 => some (s1 = s2)
  | _, _ => none

namespace DevCore

/-- The function `dev_core_init`, with the memory `dir` for the directory and the file system
`devfs`. -/
def devCoreInit (vfs : Vfs) (dir devfs : ℕ) : Option DevCore := do
  let lists := ({ next := fun _ => none, prev := fun _ => none } : ListHeads DevNode)
  let (vfs, _) ← vfs.mkdir devPath dir
  let (vfs, _) ← vfs.mount (some devfs) (some devPath)
  some
    { vfs
      lists := lists.listHeadInit .root
      device := fun _ => .zero
      nextDev := 0
      allocated := [] }

/-- The core when the system starts: the file system has its root only. -/
def boot : Option DevCore :=
  devCoreInit Vfs.boot 1 2

/-- The core with one device changed. -/
def modify (s : DevCore) (dev : ℕ) (f : Device → Device) : DevCore :=
  { s with device := Function.update s.device dev (f (s.device dev)) }

/-- The loop over the list of devices that looks for a name, from the list head `carriage` on and
in at most `n` turns. -/
def findName (s : DevCore) (name : Option Str) : ℕ → DevNode → Option (Option ℕ)
  | 0, _ => none
  | _ + 1, .root => some none
  | n + 1, .devs dev => do
      let same ← sameName name (s.device dev).name
      if same then
        some (some dev)
      else
        let carriage ← s.lists.next (.devs dev)
        findName s name n carriage

/-- The function `dev_get_by_name`. -/
def devGetByName (s : DevCore) (name : Option Str) : Option (Option ℕ) := do
  let carriage ← s.lists.next .root
  s.findName name (s.nextDev + 1) carriage

/-- The function `dev_name_is_unique`. -/
def devNameIsUnique (s : DevCore) (dev : ℕ) : Option ℤ :=
  if s.lists.listEmpty .root then
    some (-EOK)
  else do
    let carriage ← s.lists.next .root
    let found ← s.findName (s.device dev).name (s.nextDev + 1) carriage
    some (if found.isSome then -EINVAL else -EOK)

/-- The function `dev_set_fops`. -/
def devSetFops (s : DevCore) (dev : Option ℕ) (fops : Option ℕ) : DevCore × ℤ :=
  match dev with
  | none => (s, -EINVAL)
  | some dev => (s.modify dev fun d => (d._devSetFops fops).1, -EOK)

/-- The file of a device is set up and added to the directory of the devices. -/
def addFile (mem : ℕ → Bool) (s : DevCore) (dev : ℕ) (name : Str) : Option DevCore := do
  let (vfs, _, kept) ← vfsAddFileMem mem (s.vfs.alloc name dev) (some devPath) dev
  some { s with vfs, allocated := kept.map .token ++ s.allocated }

/-- The end of `device_initialize`, for a device with a name of its own. -/
def register (mem : ℕ → Bool) (s : DevCore) (dev : ℕ) (name : Str) (fops : Option ℕ) :
    Option DevCore := do
  let s := s.modify dev Device.setup
  let s ← s.addFile mem dev name
  let (s, _) := s.devSetFops (some dev) fops
  let lists ← s.lists.listAdd (.devs dev) .root
  some { s with lists }

/-- The function `device_initialize`. -/
def deviceInitialize (mem : ℕ → Bool) (s : DevCore) (dev : Option ℕ) (fops : Option ℕ) :
    Option (DevCore × ℤ) :=
  match dev with
  | none => some (s, -EINVAL)
  | some dev =>
      match (s.device dev).name with
      | none => some (s, -EINVAL)
      | some name => do
          let err ← s.devNameIsUnique dev
          if err ≠ 0 then
            some (s, err)
          else
            let s ← s.register mem dev name fops
            some (s, -EOK)

/-- The memory of a new device is allocated and its name set. -/
def kzallocDevice (s : DevCore) (name : Option Str) : DevCore :=
  { s with
    device := Function.update s.device s.nextDev { Device.zero with name }
    nextDev := s.nextDev + 1
    allocated := .device s.nextDev :: s.allocated }

/-- The function `dev_allocate`, which does not look at what `device_initialize` returns. -/
def devAllocate (mem : ℕ → Bool) (s : DevCore) (name : Option Str) (fops : Option ℕ) :
    Option (DevCore × Option ℕ) :=
  if mem 0 then do
    let dev := s.nextDev
    let s := s.kzallocDevice name
    let (s, _) ← s.deviceInitialize (fun i => mem (i + 1)) (some dev) fops
    some (s, some dev)
  else
    some (s, none)

/-- The function `device_create`. -/
def deviceCreate (s : DevCore) (call : CreateCall) : Option (DevCore × Option ℕ) := do
  let (s, dev) ← s.devAllocate call.mem call.name call.fops
  match dev with
  | none => some (s, none)
  | some dev => some (s.modify dev fun d => { d with devData := call.data }, some dev)

/-- A step of the system. -/
def next (s : DevCore) (call : CreateCall) : Option DevCore :=
  (s.deviceCreate call).map Prod.fst

/-! ### The list of devices -/

/-- The devices on the list are `L`, the newest one first. -/
def Listed (s : DevCore) (L : List ℕ) : Prop :=
  s.lists.IsList .root (L.map .devs)

/-- The names of devices. -/
def names (s : DevCore) (L : List ℕ) : List (Option Str) :=
  L.map fun dev => (s.device dev).name

/-- A name that a new device can have. -/
def Free (s : DevCore) (L : List ℕ) (name : Option Str) : Prop :=
  name ≠ none ∧ name ∉ s.names L

/-- The devices on the list are allocated and have names of their own, and the directory of the
devices is found. -/
structure Inv (s : DevCore) (L : List ℕ) : Prop where
  listed : s.Listed L
  below : ∀ dev ∈ L, dev < s.nextDev
  named : none ∉ s.names L
  nodup : (s.names L).Nodup
  root : s.vfs.dirents.name Dirents.vfsRoot ≠ devPath
  dir : ∃ dir, s.vfs.findDir (some devPath) = some (some dir)

variable {s : DevCore} {L : List ℕ}

theorem names_congr {t : DevCore} (h : ∀ dev ∈ L, (t.device dev).name = (s.device dev).name) :
  t.names L = s.names L
  := List.map_congr_left h

theorem Inv.list_nodup (h : s.Inv L) : L.Nodup :=
  List.Nodup.of_map _ (List.nodup_cons.mp h.listed.nodup).2

theorem Inv.length_le (h : s.Inv L) : L.length ≤ s.nextDev := by
  have hsub : L ⊆ List.range s.nextDev := by
    intro dev hdev
    rw [List.mem_range]
    apply h.below dev hdev
  have hle := (h.list_nodup.subperm hsub).length_le
  rwa [List.length_range] at hle

/-- The loop finds the first device with the name. -/
theorem Inv.findName_eq (h : s.Inv L) (name : Str) {a b : List ℕ} (hL : L = a ++ b) {n : ℕ}
    (hn : b.length < n) :
  s.findName (some name) n (Ring.first .root (b.map .devs))
    = some (b.find? fun dev => (s.device dev).name = some name)
  := by
  induction b generalizing a n with
  | nil =>
      obtain ⟨n, rfl⟩ := Nat.exists_eq_succ_of_ne_zero (Nat.ne_zero_of_lt hn)
      rfl
  | cons dev b ih =>
      obtain ⟨n, rfl⟩ := Nat.exists_eq_succ_of_ne_zero (Nat.ne_zero_of_lt hn)
      have hmem : dev ∈ L := by
        rw [hL]
        simp
      obtain ⟨name', hname'⟩ : ∃ name', (s.device dev).name = some name' := by
        apply Option.ne_none_iff_exists'.mp
        intro hnone
        apply h.named (List.mem_map.mpr ⟨dev, hmem, hnone⟩)
      have hnext : s.lists.next (.devs dev) = some (Ring.first .root (b.map .devs)) := by
        have hlisted := h.listed
        rw [hL, Listed, List.map_append, List.map_cons] at hlisted
        apply hlisted.next_node
      rw [List.map_cons, Ring.first_cons, findName, hname', List.find?_cons, hname']
      by_cases heq : name = name'
      · subst heq
        simp [sameName]
      · have heq' : ¬ name' = name := fun hn => heq hn.symm
        simp only [sameName, heq, heq', decide_false, Option.bind_eq_bind, Option.bind_some,
          Bool.false_eq_true, if_false, hnext, Option.some_inj]
        apply ih (a := a ++ [dev])
        · rw [hL, List.append_assoc, List.singleton_append]
        · rw [List.length_cons] at hn
          omega

/-- `dev_get_by_name` finds the first device with the name. -/
theorem Inv.devGetByName_eq (h : s.Inv L) (name : Str) :
  s.devGetByName (some name) = some (L.find? fun dev => (s.device dev).name = some name)
  := by
  have hlength := h.length_le
  have hnext : s.lists.next .root = some (Ring.first .root (L.map .devs)) := h.listed.next_head
  rw [devGetByName, hnext, Option.bind_eq_bind, Option.bind_some]
  apply h.findName_eq name (a := []) rfl (by omega)

/-- What `dev_get_by_name` finds is on the list. -/
theorem Inv.mem_of_devGetByName (h : s.Inv L) {name : Option Str} {dev : ℕ}
    (hdev : s.devGetByName name = some (some dev)) :
  dev ∈ L
  := by
  cases name with
  | none =>
      have hnext : s.lists.next .root = some (Ring.first .root (L.map .devs)) :=
        h.listed.next_head
      rw [devGetByName, hnext, Option.bind_eq_bind, Option.bind_some] at hdev
      cases L with
      | nil => cases hdev
      | cons first L =>
          rw [List.map_cons, Ring.first_cons, findName] at hdev
          cases hdev
  | some name =>
      rw [h.devGetByName_eq name] at hdev
      apply List.mem_of_find?_eq_some (Option.some.inj hdev)

/-- `dev_name_is_unique` tells whether a device on the list has the name. -/
theorem Inv.devNameIsUnique_eq (h : s.Inv L) {dev : ℕ} {name : Str}
    (hname : (s.device dev).name = some name) :
  s.devNameIsUnique dev = some (if some name ∈ s.names L then -EINVAL else -EOK)
  := by
  have hfind : (L.find? fun dev => (s.device dev).name = some name).isSome
      ↔ some name ∈ s.names L := by
    rw [List.find?_isSome, names, List.mem_map]
    simp
  have hget := h.devGetByName_eq name
  rw [devGetByName, Option.bind_eq_bind] at hget
  rw [devNameIsUnique, hname]
  split
  · rename_i hempty
    have hL : L = [] := by
      have := h.listed.listEmpty_iff.mp hempty
      simpa using this
    subst hL
    rfl
  · obtain ⟨carriage, hcarriage, hfound⟩ := Option.bind_eq_some_iff.mp hget
    simp only [hcarriage, Option.bind_eq_bind, Option.bind_some, hfound, hfind]

/-! ### Paths of files -/

variable {mem : ℕ → Bool}

theorem sections_devPath : sections devPath = [['d', 'e', 'v']] :=
  Option.some.inj ((fsSplitPath_eq devPath).symm.trans (by decide))

/-- The path of a file splits into the directory of the devices and the name. -/
theorem basepath_filePath {name : Str} (hslash : '/' ∉ name) :
  basepath (filePath name) = some devPath ∧ basename (filePath name) = some name
  := by
  have hne : filePath name ≠ [] := by simp [filePath, devPath]
  have hlength : (filePath name).length = name.length + 5 := by
    simp [filePath, devPath]
  have hlast : IsLastSlash (filePath name) 4 := by
    refine ⟨rfl, fun j hj hslash' => hslash ?_⟩
    obtain ⟨i, rfl⟩ := Nat.exists_eq_add_of_lt hj
    apply List.mem_of_getElem? (i := i)
    rw [← hslash', filePath, List.getElem?_append_right (by simp [devPath]; omega)]
    have hi : 4 + i + 1 - devPath.length = i + 1 := by
      simp [devPath]
      omega
    rw [hi, List.getElem?_cons_succ]
  constructor
  · rw [basepath, if_neg hne, basepathLoop_of_last hlast (by omega) (by omega)]
    rfl
  · rw [basename, if_neg hne, basenameLoop_of_last hlast (by omega)]
    rfl

/-- The file that has been added last is found by its name. -/
theorem findFile_filePath {vfs : Vfs} {name : Str} {dir file : ℕ} (hslash : '/' ∉ name)
    (hdir : vfs.findDir (some devPath) = some (some dir))
    (hhead : vfs.dirents.fileHead dir = some file) (hname : vfs.dirents.fileName file = name)
    (hfiles : vfs.files ≠ []) :
  vfs.findFile (filePath name) = some (some file)
  := by
  obtain ⟨hbase, hbasename⟩ := basepath_filePath hslash
  obtain ⟨n, hn⟩ := Nat.exists_eq_succ_of_ne_zero
    (mt List.length_eq_zero_iff.mp hfiles)
  rw [Vfs.findDir] at hdir
  rw [Vfs.findFile, Dirents.vfsFindFile, hbase, hbasename]
  simp only [Option.bind_eq_bind, hdir, Option.bind_some, Dirents.direntFindFile, hhead, hn]
  rw [Dirents.findFileLoop, if_pos hname]

/-! ### The functions and the list -/

/-- The list of devices, their names, the memory and the lookups do not differ. -/
structure Frame (s t : DevCore) : Prop where
  lists : t.lists = s.lists
  nextDev : t.nextDev = s.nextDev
  name : ∀ dev, (t.device dev).name = (s.device dev).name
  allocated : t.allocated = s.allocated
  root : t.vfs.dirents.name = s.vfs.dirents.name
  dir : t.vfs.findDir (some devPath) = s.vfs.findDir (some devPath)

theorem Frame.trans {t u : DevCore} (h : s.Frame t) (h' : t.Frame u) : s.Frame u where
  lists := h'.lists.trans h.lists
  nextDev := h'.nextDev.trans h.nextDev
  name dev := (h'.name dev).trans (h.name dev)
  allocated := h'.allocated.trans h.allocated
  root := h'.root.trans h.root
  dir := h'.dir.trans h.dir

theorem Frame.names {t : DevCore} (h : s.Frame t) (L : List ℕ) : t.names L = s.names L :=
  names_congr fun dev _ => h.name dev

theorem Frame.free_iff {t : DevCore} (h : s.Frame t) (dev : ℕ) :
  t.Free L (t.device dev).name ↔ s.Free L (s.device dev).name
  := by
  rw [Free, Free, h.names L, h.name dev]

/-- The fields of a device other than its name are written. -/
theorem frame_modify (s : DevCore) (dev : ℕ) {f : Device → Device}
    (hf : ∀ d : Device, (f d).name = d.name) :
  s.Frame (s.modify dev f)
  := by
  have hname (dev' : ℕ) : ((s.modify dev f).device dev').name = (s.device dev').name := by
    by_cases hdev : dev' = dev
    · subst hdev
      exact (congrArg Device.name (Function.update_self ..)).trans (hf _)
    · exact congrArg Device.name (Function.update_of_ne hdev ..)
  exact ⟨rfl, rfl, hname, rfl, rfl, rfl⟩

theorem Inv.frame (h : s.Inv L) {t : DevCore} (hframe : s.Frame t) : t.Inv L := by
  have hnames := hframe.names L
  constructor
  · rw [Listed, hframe.lists]
    apply h.listed
  · rw [hframe.nextDev]
    apply h.below
  · rw [hnames]
    apply h.named
  · rw [hnames]
    apply h.nodup
  · rw [hframe.root]
    apply h.root
  · rw [hframe.dir]
    apply h.dir

theorem Inv.nextDev_notMem (h : s.Inv L) : s.nextDev ∉ L := fun hmem =>
  Nat.lt_irrefl _ (h.below _ hmem)

theorem Inv.names_kzallocDevice (h : s.Inv L) (name : Option Str) :
  (s.kzallocDevice name).names L = s.names L
  := by
  apply names_congr
  intro dev hdev
  have hne : dev ≠ s.nextDev := Nat.ne_of_lt (h.below dev hdev)
  exact congrArg Device.name (Function.update_of_ne hne ..)

/-- The memory of a new device is not on the list. -/
theorem Inv.kzallocDevice (h : s.Inv L) (name : Option Str) : (s.kzallocDevice name).Inv L where
  listed := h.listed
  below dev hdev := Nat.lt_succ_of_lt (h.below dev hdev)
  named := by
    rw [h.names_kzallocDevice name]
    apply h.named
  nodup := by
    rw [h.names_kzallocDevice name]
    apply h.nodup
  root := h.root
  dir := h.dir

/-- With memory for the lookup, the file of a device changes the file system only.  With memory for
the token, it is found at its path. -/
theorem Inv.addFile (h : s.Inv L) (dev : ℕ) (name : Str) (hpath : mem 0) (harray : mem 1) :
  ∃ t, s.addFile mem dev name = some t ∧ s.Frame t ∧
    (mem 2 → '/' ∉ name → t.vfs.findFile (filePath name) = some (some dev))
  := by
  have hroot : (s.vfs.alloc name dev).dirents.name Dirents.vfsRoot ≠ devPath := h.root
  have hfind : (s.vfs.alloc name dev).findDir (some devPath) = s.vfs.findDir (some devPath) := by
    apply Vfs.findDir_congr <;> rfl
  by_cases htoken : mem 2
  · have hmem : ∀ i < 2 + (sections devPath).length, mem i := by
      rw [sections_devPath]
      intro i hi
      obtain rfl | rfl | rfl : i = 0 ∨ i = 1 ∨ i = 2 := by
        rw [List.length_singleton] at hi
        omega
      · apply hpath
      · apply harray
      · apply htoken
    obtain ⟨dir, hdir⟩ := h.dir
    have hkept {vfs : Vfs} (hadd : vfs = { s.vfs.alloc name dev with
        dirents := ((s.vfs.alloc name dev).dirents.direntAddFile (some dir) (some dev)).1 }) :
        vfs.findDir (some devPath) = s.vfs.findDir (some devPath) := by
      subst hadd
      apply Vfs.findDir_congr <;> rfl
    rw [DevCore.addFile, vfsAddFileMem_eq _ _ hmem, Vfs.vfsAddFile, hfind, hdir]
    refine ⟨_, rfl, ⟨rfl, rfl, fun _ => rfl, rfl, rfl, hkept rfl⟩, fun _ hslash => ?_⟩
    apply findFile_filePath hslash ((hkept rfl).trans hdir)
    · exact Function.update_self ..
    · exact Function.update_self ..
    · exact List.cons_ne_nil dev s.vfs.files
  · rw [DevCore.addFile, vfsAddFileMem_of_token dev hroot sections_devPath hpath harray htoken]
    exact ⟨_, rfl, ⟨rfl, rfl, fun _ => rfl, rfl, rfl, hfind⟩, fun h => absurd h htoken⟩

theorem Inv.addFile_eq_none (h : s.Inv L) (dev : ℕ) (name : Str) (hmem : ¬ (mem 0 ∧ mem 1)) :
  s.addFile mem dev name = none
  := by
  have hroot : (s.vfs.alloc name dev).dirents.name Dirents.vfsRoot ≠ devPath := h.root
  rw [DevCore.addFile, vfsAddFileMem_eq_none dev hroot hmem]
  rfl

/-- A device whose name is free is added in front of the list. -/
theorem Inv.listAdd (h : s.Inv L) {dev : ℕ} (hdev : dev ∉ L) (hlt : dev < s.nextDev)
    (hfree : s.Free L (s.device dev).name) :
  ∃ lists, s.lists.listAdd (.devs dev) .root = some lists ∧ Inv { s with lists } (dev :: L)
  := by
  have hlisted : s.lists.IsList .root ([] ++ L.map DevNode.devs) := h.listed
  have hnode : DevNode.devs dev ∉ DevNode.root :: ([] ++ L.map .devs) := by
    simpa using hdev
  obtain ⟨lists, hadd, hlisted', -⟩ := hlisted.listAdd hnode
  refine ⟨lists, hadd, hlisted', ?_, ?_, ?_, h.root, h.dir⟩
  · intro dev' hdev'
    rw [List.mem_cons] at hdev'
    obtain rfl | hdev' := hdev'
    · apply hlt
    · apply h.below dev' hdev'
  · rw [names, List.map_cons, List.mem_cons, not_or]
    exact ⟨Ne.symm hfree.1, h.named⟩
  · rw [names, List.map_cons, List.nodup_cons]
    exact ⟨hfree.2, h.nodup⟩

/-! ### The initialisation -/

section

variable (h : s.Inv L) (mem : ℕ → Bool) {dev : ℕ} (name : Str) (fops : Option ℕ)
include h

theorem Inv.register_eq_none (hmem : ¬ (mem 0 ∧ mem 1)) :
  s.register mem dev name fops = none
  := by
  have hsetup := h.frame (s.frame_modify dev (f := Device.setup) fun _ => rfl)
  rw [DevCore.register]
  dsimp only
  rw [hsetup.addFile_eq_none dev name hmem]
  rfl

/-- A device whose name is free is put on the list, with its name. -/
theorem Inv.register (hdev : dev ∉ L) (hlt : dev < s.nextDev)
    (hfree : s.Free L (s.device dev).name) (hpath : mem 0) (harray : mem 1) :
  ∃ t, s.register mem dev name fops = some t ∧ t.Inv (dev :: L) ∧
    (t.device dev).name = (s.device dev).name ∧ t.allocated = s.allocated ∧
    (mem 2 → '/' ∉ name → t.vfs.findFile (filePath name) = some (some dev))
  := by
  have hsetup := s.frame_modify dev (f := Device.setup) fun _ => rfl
  obtain ⟨u, hadd, hfile, hfound⟩ := (h.frame hsetup).addFile dev name hpath harray
  have hfops := u.frame_modify dev (f := fun d => (d._devSetFops fops).1) fun d =>
    d._devSetFops_name fops
  have hframe := (hsetup.trans hfile).trans hfops
  obtain ⟨lists, hlists, hinv⟩ :=
    (h.frame hframe).listAdd hdev (hframe.nextDev ▸ hlt) ((hframe.free_iff dev).mpr hfree)
  refine ⟨_, ?_, hinv, hframe.name dev, hframe.allocated, hfound⟩
  rw [DevCore.register]
  dsimp only
  rw [hadd, Option.bind_eq_bind, Option.bind_some]
  dsimp only [devSetFops]
  rw [hlists]
  rfl

/-- A device without a name of its own is not put on the list. -/
theorem Inv.deviceInitialize_of_not_free (hfree : ¬ s.Free L (s.device dev).name) :
  s.deviceInitialize mem (some dev) fops = some (s, -EINVAL)
  := by
  rw [deviceInitialize]
  cases hname : (s.device dev).name with
  | none => rfl
  | some name =>
      have hmem : some name ∈ s.names L := by
        by_contra hnew
        apply hfree
        rw [hname]
        exact ⟨Option.some_ne_none name, hnew⟩
      dsimp only
      rw [h.devNameIsUnique_eq hname, if_pos hmem]
      rfl

/-- A device with a name of its own is registered. -/
theorem Inv.deviceInitialize_of_free (hfree : s.Free L (s.device dev).name) :
  ∃ name, (s.device dev).name = some name ∧
    s.deviceInitialize mem (some dev) fops
      = (s.register mem dev name fops).map fun t => (t, -EOK)
  := by
  obtain ⟨name, hname⟩ := Option.ne_none_iff_exists'.mp hfree.1
  have hnew : some name ∉ s.names L := hname ▸ hfree.2
  use name, hname
  rw [deviceInitialize, hname]
  dsimp only
  rw [h.devNameIsUnique_eq hname, if_neg hnew, Option.bind_eq_bind, Option.bind_some]
  cases s.register mem dev name fops <;> rfl

end

/-! ### The creation -/

theorem kzallocDevice_name (s : DevCore) (name : Option Str) :
  ((s.kzallocDevice name).device s.nextDev).name = name
  := by
  have hself : (s.kzallocDevice name).device s.nextDev = { Device.zero with name } :=
    Function.update_self ..
  rw [hself]

/-- When there is no memory for the device, nothing happens. -/
theorem deviceCreate_of_not_mem (s : DevCore) {call : CreateCall} (hmem : ¬ call.mem 0) :
  s.deviceCreate call = some (s, none)
  := by
  rw [deviceCreate, devAllocate, if_neg hmem]
  rfl

section

variable (h : s.Inv L) {call : CreateCall}
include h

theorem Inv.kzallocDevice_free_iff (name : Option Str) :
  (s.kzallocDevice name).Free L ((s.kzallocDevice name).device s.nextDev).name
    ↔ s.Free L name
  := by
  rw [Free, Free, h.names_kzallocDevice name, s.kzallocDevice_name name]

/-- A device without a name of its own is created and keeps its memory, but is not put on the
list. -/
theorem Inv.deviceCreate_of_not_free (hmem : call.mem 0) (hfree : ¬ s.Free L call.name) :
  ∃ t, s.deviceCreate call = some (t, some s.nextDev) ∧ t.Inv L ∧
    t.allocated = .device s.nextDev :: s.allocated
  := by
  have hnew := h.kzallocDevice call.name
  have hinit := hnew.deviceInitialize_of_not_free (fun i => call.mem (i + 1)) call.fops
    (mt (h.kzallocDevice_free_iff call.name).mp hfree)
  have hdata := (s.kzallocDevice call.name).frame_modify s.nextDev
    (f := fun d => { d with devData := call.data }) fun _ => rfl
  refine ⟨_, ?_, hnew.frame hdata, hdata.allocated⟩
  rw [deviceCreate, devAllocate, if_pos hmem]
  dsimp only
  rw [hinit]
  rfl

/-- The lookup of the directory reads through `NULL` when it has no memory. -/
theorem Inv.deviceCreate_eq_none (hmem : call.mem 0) (hfree : s.Free L call.name)
    (hlookup : ¬ (call.mem 1 ∧ call.mem 2)) :
  s.deviceCreate call = none
  := by
  have hnew := h.kzallocDevice call.name
  obtain ⟨name, -, hinit⟩ := hnew.deviceInitialize_of_free (fun i => call.mem (i + 1)) call.fops
    ((h.kzallocDevice_free_iff call.name).mpr hfree)
  rw [deviceCreate, devAllocate, if_pos hmem]
  dsimp only
  rw [hinit, hnew.register_eq_none _ name call.fops hlookup]
  rfl

/-- A device with a name of its own is put on the list, and its file is found. -/
theorem Inv.deviceCreate_of_free (hmem : call.mem 0) (hfree : s.Free L call.name)
    (hpath : call.mem 1) (harray : call.mem 2) :
  ∃ t, s.deviceCreate call = some (t, some s.nextDev) ∧ t.Inv (s.nextDev :: L) ∧
    (t.device s.nextDev).name = call.name ∧ t.allocated = .device s.nextDev :: s.allocated ∧
    ∀ name, call.name = some name → call.mem 3 → '/' ∉ name →
      t.vfs.findFile (filePath name) = some (some s.nextDev)
  := by
  have hnew := h.kzallocDevice call.name
  have hfree' := (h.kzallocDevice_free_iff call.name).mpr hfree
  obtain ⟨name, hname, hinit⟩ :=
    hnew.deviceInitialize_of_free (fun i => call.mem (i + 1)) call.fops hfree'
  obtain ⟨t, hregister, hinv, hname', hallocated, hfound⟩ :=
    hnew.register (fun i => call.mem (i + 1)) name call.fops h.nextDev_notMem
      (Nat.lt_succ_self _) hfree' hpath harray
  have hdata := t.frame_modify s.nextDev
    (f := fun d => { d with devData := call.data }) fun _ => rfl
  rw [s.kzallocDevice_name] at hname hname'
  refine ⟨_, ?_, hinv.frame hdata, (hdata.name _).trans hname',
    hdata.allocated.trans hallocated, ?_⟩
  · rw [deviceCreate, devAllocate, if_pos hmem]
    dsimp only
    rw [hinit, hregister]
    rfl
  · intro name' hcall
    obtain rfl := Option.some.inj (hname.symm.trans hcall)
    apply hfound

omit call

/-- What a call can do: there is no memory for the device; the device is not put on the list; the
lookup of the directory has no memory; or the device is put on the list. -/
theorem Inv.deviceCreate_cases (call : CreateCall) :
  (¬ call.mem 0 ∧ s.deviceCreate call = some (s, none)) ∨
    (call.mem 0 ∧ ¬ s.Free L call.name ∧
      ∃ t, s.deviceCreate call = some (t, some s.nextDev) ∧ t.Inv L) ∨
    (call.mem 0 ∧ ¬ (call.mem 1 ∧ call.mem 2) ∧ s.deviceCreate call = none) ∨
    (s.Free L call.name ∧ (call.mem 1 ∧ call.mem 2) ∧
      ∃ t, s.deviceCreate call = some (t, some s.nextDev) ∧ t.Inv (s.nextDev :: L) ∧
        (t.device s.nextDev).name = call.name)
  := by
  by_cases hmem : call.mem 0
  · apply Or.inr
    by_cases hfree : s.Free L call.name
    · apply Or.inr
      by_cases hlookup : call.mem 1 ∧ call.mem 2
      · obtain ⟨t, hcreate, hinv, hname, -⟩ :=
          h.deviceCreate_of_free hmem hfree hlookup.1 hlookup.2
        apply Or.inr ⟨hfree, hlookup, t, hcreate, hinv, hname⟩
      · apply Or.inl ⟨hmem, hlookup, h.deviceCreate_eq_none hmem hfree hlookup⟩
    · obtain ⟨t, hcreate, hinv, -⟩ := h.deviceCreate_of_not_free hmem hfree
      apply Or.inl ⟨hmem, hfree, t, hcreate, hinv⟩
  · apply Or.inl ⟨hmem, deviceCreate_of_not_mem s hmem⟩

end

/-! ### Runs of creations -/

/-- The call meets the condition: there is no memory for the device, or the name is one that the
new device can have and there is memory for the lookup of the directory. -/
def Ok (s : DevCore) (call : CreateCall) : Prop :=
  ¬ call.mem 0 ∨ (∀ L, s.Listed L → s.Free L call.name) ∧ call.mem 1 ∧ call.mem 2

/-- The call returns, with names on the list that are pairwise distinct: either with the new
device, which is on the list and found by its name, or with `NULL`, the list as it was and no
memory kept. -/
def Lawful (s : DevCore) (call : CreateCall) : Prop :=
  ∃ t dev L L', s.deviceCreate call = some (t, dev) ∧ s.Listed L ∧ t.Listed L' ∧
    (t.names L').Nodup ∧
    match dev with
    | some dev => L' = dev :: L ∧ dev ∉ L ∧ t.devGetByName call.name = some (some dev)
    | none => L' = L ∧ t.allocated = s.allocated

theorem Listed.unique {L L' : List ℕ} (h : s.Listed L) (h' : s.Listed L') : L = L' := by
  apply List.map_injective_iff.mpr _ (Ring.IsRing.unique h h')
  intro dev dev' heq
  cases heq
  rfl

theorem Inv.ok_iff (h : s.Inv L) (call : CreateCall) :
  s.Ok call ↔ ¬ call.mem 0 ∨ s.Free L call.name ∧ call.mem 1 ∧ call.mem 2
  := by
  have hfree : (∀ L, s.Listed L → s.Free L call.name) ↔ s.Free L call.name := by
    constructor
    · intro hall
      apply hall L h.listed
    · intro hfree L' hL'
      rwa [← h.listed.unique hL']
  rw [Ok, hfree]

/-- A call keeps the law when it meets the condition, and only then. -/
theorem Inv.lawful_iff_ok (h : s.Inv L) (call : CreateCall) : s.Lawful call ↔ s.Ok call := by
  rw [h.ok_iff call]
  obtain ⟨hmem, hcreate⟩ | ⟨hmem, hfree, u, hcreate, hinv⟩ | ⟨hmem, hlookup, hcreate⟩ |
    ⟨hfree, hlookup, u, hcreate, hinv, hname⟩ := h.deviceCreate_cases call
  · apply iff_of_true _ (Or.inl hmem)
    exact ⟨s, none, L, L, hcreate, h.listed, h.listed, h.nodup, rfl, rfl⟩
  · apply iff_of_false
    · -- the device that is returned is not found
      rintro ⟨t, dev, L', L'', hcreate', -, -, -, hlaw⟩
      obtain ⟨rfl, rfl⟩ := Prod.mk.inj (Option.some.inj (hcreate.symm.trans hcreate'))
      apply h.nextDev_notMem (hinv.mem_of_devGetByName hlaw.2.2)
    · rintro (hnot | ⟨hname, -⟩)
      · apply hnot hmem
      · apply hfree hname
  · apply iff_of_false
    · rintro ⟨t, dev, L', L'', hcreate', -⟩
      rw [hcreate] at hcreate'
      cases hcreate'
    · rintro (hnot | ⟨-, hboth⟩)
      · apply hnot hmem
      · apply hlookup hboth
  · apply iff_of_true _ (Or.inr ⟨hfree, hlookup⟩)
    refine ⟨u, some s.nextDev, L, _, hcreate, h.listed, hinv.listed, hinv.nodup, rfl,
      h.nextDev_notMem, ?_⟩
    obtain ⟨name, hsome⟩ := Option.ne_none_iff_exists'.mp hfree.1
    rw [hsome, hinv.devGetByName_eq name, List.find?_cons, hname, hsome, decide_eq_true rfl]

/-- Every call that returns keeps the invariant. -/
theorem Inv.next (h : s.Inv L) {call : CreateCall} {t : DevCore} (hnext : s.next call = some t) :
  ∃ L', t.Inv L'
  := by
  obtain ⟨⟨t, dev⟩, ht, rfl⟩ := Option.map_eq_some_iff.mp hnext
  obtain ⟨-, hcreate⟩ | ⟨-, -, u, hcreate, hinv⟩ | ⟨-, -, hcreate⟩ | ⟨-, -, u, hcreate, hinv, -⟩ :=
    h.deviceCreate_cases call
  · obtain ⟨rfl, -⟩ := Prod.mk.inj (Option.some.inj (hcreate.symm.trans ht))
    exact ⟨L, h⟩
  · obtain ⟨rfl, -⟩ := Prod.mk.inj (Option.some.inj (hcreate.symm.trans ht))
    exact ⟨L, hinv⟩
  · rw [hcreate] at ht
    cases ht
  · obtain ⟨rfl, -⟩ := Prod.mk.inj (Option.some.inj (hcreate.symm.trans ht))
    exact ⟨_, hinv⟩

/-- At the start the list is empty. -/
theorem boot_inv : ∃ s, boot = some s ∧ s.Inv [] := by
  have hlists : boot.map lists
      = some (({ next := fun _ => none, prev := fun _ => none } : ListHeads DevNode).listHeadInit
          .root) := rfl
  have hroot : boot.map (fun s => s.vfs.dirents.name Dirents.vfsRoot) = some ['/'] := rfl
  have hdir : boot.map (fun s => s.vfs.findDir (some devPath)) = some (some (some 1)) := by decide
  obtain ⟨s, hs, hlists⟩ := Option.map_eq_some_iff.mp hlists
  rw [hs, Option.map_some, Option.some_inj] at hroot hdir
  refine ⟨s, hs, ?_, by simp, by simp [names], by simp [names], ?_, 1, hdir⟩
  · rw [Listed, hlists]
    apply ListHeads.isList_listHeadInit
  · rw [hroot]
    decide

/-- In every state that calls lead to, the names on the list are pairwise distinct. -/
theorem exists_inv_of_reachable {s t : DevCore} (hboot : boot = some s)
    (hrun : Run.Reachable next s t) :
  ∃ L, t.Inv L
  := by
  obtain ⟨s', hs', hinv⟩ := boot_inv
  obtain rfl := Option.some.inj (hboot.symm.trans hs')
  apply hrun.invariant (fun t => ∃ L, t.Inv L) ⟨[], hinv⟩
  rintro u call v ⟨L, h⟩ - hnext
  apply h.next hnext

/-- From the start on, the calls of a run keep the law when all of them meet the condition, and
only then. -/
theorem lawful_run_iff {s : DevCore} (hboot : boot = some s) (calls : List CreateCall) :
  Run.Meets next Lawful s calls ↔ Run.Meets next Ok s calls
  := by
  obtain ⟨s', hs', hinv⟩ := boot_inv
  obtain rfl := Option.some.inj (hboot.symm.trans hs')
  apply Run.meets_congr_of_invariant (fun t : DevCore => ∃ L, t.Inv L) _ _ ⟨[], hinv⟩
  · rintro t call ⟨L, h⟩
    apply h.lawful_iff_ok call
  · rintro t call u ⟨L, h⟩ hnext
    apply h.next hnext

/-- The creation of a device with the name `uart`, when all allocations succeed. -/
def uart : CreateCall where
  name := some ['u', 'a', 'r', 't']
  data := none
  fops := none
  mem := fun _ => true

/-- The device is created once, and a second time when there is no memory for it. -/
theorem lawful_run_iff_uart :
  ∃ s, boot = some s ∧ Run.Meets next Lawful s [uart, { uart with mem := fun _ => false }]
  := by
  obtain ⟨s, hboot, hinv⟩ := boot_inv
  use s, hboot
  apply (lawful_run_iff hboot _).mpr
  constructor
  · apply (hinv.ok_iff uart).mpr (Or.inr ⟨⟨Option.some_ne_none _, List.not_mem_nil⟩, rfl, rfl⟩)
  · intro t _
    exact ⟨Or.inl Bool.false_ne_true, fun _ _ => trivial⟩

/-- A device that is created twice is returned twice, and is on the list once. -/
theorem not_lawful_twice :
  ∃ s, boot = some s ∧ ¬ Run.Meets next Lawful s [uart, uart]
  := by
  obtain ⟨s, hboot, hinv⟩ := boot_inv
  use s, hboot
  have hfree : s.Free [] uart.name := ⟨Option.some_ne_none _, List.not_mem_nil⟩
  have hmem (i : ℕ) : uart.mem i := rfl
  obtain ⟨t, hcreate, hinv', hname, -⟩ :=
    hinv.deviceCreate_of_free (hmem 0) hfree (hmem 1) (hmem 2)
  have hnext : s.next uart = some t := congrArg (Option.map Prod.fst) hcreate
  rintro ⟨-, hrest⟩
  obtain ⟨hlawful, -⟩ := hrest t hnext
  obtain hnot | ⟨hfree', -⟩ := (hinv'.ok_iff uart).mp ((hinv'.lawful_iff_ok uart).mp hlawful)
  · apply hnot rfl
  · apply hfree'.2
    rw [names, List.map_singleton, hname]
    apply List.mem_singleton_self

end DevCore

end Etaos.Drivers
