import Etaos.Mm.Policy

/-!
# Reallocation

The function `krealloc` of the C library, over the heap.  The bytes that the owner of a block
may use lie behind the size of its node; they are modelled apart from the headers, and every
access of the library to them is logged with its address.  A block keeps its content and gets
its capacity, unless there is memory for a size that the old block cannot hold: `krealloc`
takes the size of the node for the size of the block, and the node has its header on top.
-/

namespace Etaos.Mm

variable {arch : Arch}

/-- An access to a byte of memory. -/
inductive Access where
  | read (addr : ℕ)
  | write (addr : ℕ)
  deriving DecidableEq

/-- The address of an access. -/
def Access.addr : Access → ℕ
  | .read addr => addr
  | .write addr => addr

/-- The memory of the C library. -/
structure Memory where
  sys : HeapSystem
  data : ℕ → UInt8
  /-- The accesses to the data, the latest first. -/
  log : List Access

namespace Memory

/-! ### The C library -/

/-- The assignment `*dst = c`. -/
def setByte (arch : Arch) (m : Memory) (dst : ℕ) (c : UInt8) : Memory :=
  { m with
    data := Function.update m.data (dst % arch.space) c
    log := .write (dst % arch.space) :: m.log }

/-- The assignment `*dst = *src`. -/
def copyByte (arch : Arch) (m : Memory) (dst src : ℕ) : Memory :=
  { m with
    data := Function.update m.data (dst % arch.space) (m.data (src % arch.space))
    log := .write (dst % arch.space) :: .read (src % arch.space) :: m.log }

/-- The loop of `memset`, for the first `n` bytes. -/
def memset (arch : Arch) (m : Memory) (dst : ℕ) (c : UInt8) : ℕ → Memory
  | 0 => m
  | n + 1 => (memset arch m dst c n).setByte arch (dst + n) c

/-- The copy of the first `n` bytes from the front; words are copied as their bytes. -/
def copyForward (arch : Arch) (m : Memory) (dst src : ℕ) : ℕ → Memory
  | 0 => m
  | n + 1 => (copyForward arch m dst src n).copyByte arch (dst + n) (src + n)

/-- The copy of the first `n` bytes from the back. -/
def copyBackward (arch : Arch) (dst src : ℕ) : ℕ → Memory → Memory
  | 0, m => m
  | n + 1, m => copyBackward arch dst src n (m.copyByte arch (dst + n) (src + n))

/-- The function `memcpy`. -/
def memcpy (arch : Arch) (m : Memory) (dst src length : ℕ) : Memory :=
  if length = 0 ∨ dst = src then
    m
  else if dst < src then
    m.copyForward arch dst src length
  else
    m.copyBackward arch dst src length

/-- The function `kzalloc`, with the pointer it returns. -/
def kzalloc (arch : Arch) (policy : Allocator) (m : Memory) (size : ℕ) :
    Option (Memory × Option ℕ) :=
  (m.sys.heap.rawMmHeapAlloc arch size (Heap.compare policy)).map fun (heap, ptr) =>
    match ptr with
    | none => ({ m with sys := { m.sys with heap } }, none)
    | some data =>
        let m := { m with sys := { m.sys with heap, live := data :: m.sys.live } }
        (m.memset arch data 0 size, some data)

/-- The function `mm_node_size`. -/
def mmNodeSize (arch : Arch) (m : Memory) (ptr : ℕ) : ℕ :=
  m.sys.heap.size (Heap.mmRegionToNode arch ptr)

/-- The function `kfree`. -/
def kfree (arch : Arch) (m : Memory) (ptr : ℕ) : Option Memory :=
  (m.sys.step arch (.free ptr)).map fun sys => { m with sys }

/-- The function `krealloc`, with the pointer it returns; it is `none` when the walk of an
allocation or of a release goes around a cycle. -/
def krealloc (arch : Arch) (policy : Allocator) (m : Memory) (old newsize : ℕ) :
    Option (Memory × Option ℕ) :=
  (m.kzalloc arch policy newsize).bind fun (m, new) =>
    match new with
    | none => some (m, none)
    | some new =>
        let oldsize := m.mmNodeSize arch old
        if oldsize = newsize then
          (m.kfree arch new).map fun m => (m, some old)
        else
          let oldsize := if oldsize > newsize then newsize else oldsize
          let m := m.memcpy arch new old oldsize
          (m.kfree arch old).map fun m => (m, some new)

/-! ### Copies -/

variable {m : Memory}

@[simp]
theorem memset_sys (dst : ℕ) (c : UInt8) (n : ℕ) : (m.memset arch dst c n).sys = m.sys := by
  induction n with
  | zero => rfl
  | succ n ih => exact ih

theorem copyForward_sys (dst src n : ℕ) : (m.copyForward arch dst src n).sys = m.sys := by
  induction n with
  | zero => rfl
  | succ n ih => exact ih

theorem copyBackward_sys (dst src : ℕ) :
    ∀ (n : ℕ) (m : Memory), (m.copyBackward arch dst src n).sys = m.sys
  | 0, _ => rfl
  | n + 1, m => copyBackward_sys dst src n (m.copyByte arch (dst + n) (src + n))

@[simp]
theorem memcpy_sys (dst src n : ℕ) : (m.memcpy arch dst src n).sys = m.sys := by
  rw [memcpy]
  split
  · rfl
  · split
    · apply copyForward_sys
    · apply copyBackward_sys

/-- A byte is copied when it lies in the destination. -/
def copied (data : ℕ → UInt8) (dst src n a : ℕ) : UInt8 :=
  if Blocks.Mem a (dst, n) then data (src + (a - dst)) else data a

/-- The accesses of a copy of `n` bytes. -/
def Copies (arch : Arch) (dst src n : ℕ) (x : Access) : Prop :=
  ∃ i < n, x = .write ((dst + i) % arch.space) ∨ x = .read ((src + i) % arch.space)

/-- A fill writes to its bytes only. -/
theorem memset_log (dst : ℕ) (c : UInt8) (n : ℕ) :
  ∃ log, (m.memset arch dst c n).log = log ++ m.log ∧
    ∀ x ∈ log, ∃ i < n, x = .write ((dst + i) % arch.space)
  := by
  induction n with
  | zero => exact ⟨[], rfl, by simp⟩
  | succ n ih =>
      obtain ⟨log, hlog, hall⟩ := ih
      use .write ((dst + n) % arch.space) :: log
      rw [memset, setByte, hlog, List.forall_mem_cons]
      use rfl, ⟨n, n.lt_succ_self, rfl⟩
      intro x hx
      obtain ⟨i, hi, hxi⟩ := hall x hx
      exact ⟨i, by omega, hxi⟩

theorem memset_data {dst n a : ℕ} (c : UInt8) (hspace : dst + n ≤ arch.space)
    (ha : ¬ Blocks.Mem a (dst, n)) :
  (m.memset arch dst c n).data a = m.data a
  := by
  induction n with
  | zero => rfl
  | succ n ih =>
      simp only [Blocks.Mem] at ha ih
      have hne : a ≠ (dst + n) % arch.space := by
        rw [Nat.mod_eq_of_lt (by omega)]
        omega
      rw [memset, setByte]
      dsimp only
      rw [Function.update_of_ne hne, ih (by omega) (by omega)]

theorem copyForward_log (dst src n : ℕ) :
  ∃ log, (m.copyForward arch dst src n).log = log ++ m.log ∧
    ∀ x, x ∈ log ↔ Copies arch dst src n x
  := by
  induction n with
  | zero => exact ⟨[], rfl, by simp [Copies]⟩
  | succ n ih =>
      obtain ⟨log, hlog, hall⟩ := ih
      use .write ((dst + n) % arch.space) :: .read ((src + n) % arch.space) :: log
      rw [copyForward, copyByte, hlog]
      use rfl
      intro x
      rw [List.mem_cons, List.mem_cons, hall, Copies, Copies, Nat.exists_lt_succ_right,
        ← or_assoc, or_comm]

theorem copyBackward_log (dst src : ℕ) :
    ∀ (n : ℕ) (m : Memory), ∃ log, (m.copyBackward arch dst src n).log = log ++ m.log ∧
      ∀ x, x ∈ log ↔ Copies arch dst src n x
  | 0, _ => ⟨[], rfl, by simp [Copies]⟩
  | n + 1, m => by
      obtain ⟨log, hlog, hall⟩ :=
        copyBackward_log dst src n (m.copyByte arch (dst + n) (src + n))
      use log ++ [.write ((dst + n) % arch.space), .read ((src + n) % arch.space)]
      constructor
      · rw [copyBackward, hlog, List.append_assoc]
        rfl
      · intro x
        rw [List.mem_append, hall, Copies, Copies, Nat.exists_lt_succ_right, List.mem_pair]

/-- A copy reads its source and writes its destination, all of them. -/
theorem memcpy_log {dst src : ℕ} (hne : dst ≠ src) (n : ℕ) :
  ∃ log, (m.memcpy arch dst src n).log = log ++ m.log ∧ ∀ x, x ∈ log ↔ Copies arch dst src n x
  := by
  rw [memcpy]
  split
  · rename_i hzero
    obtain rfl := hzero.resolve_right hne
    exact ⟨[], rfl, by simp [Copies]⟩
  · split
    · apply copyForward_log
    · apply copyBackward_log

theorem copyForward_data {dst src n : ℕ} (hdst : dst + n ≤ arch.space)
    (hsrc : src + n ≤ arch.space) (hdisjoint : Blocks.Disjoint (dst, n) (src, n)) :
  (m.copyForward arch dst src n).data = copied m.data dst src n
  := by
  simp only [Blocks.Disjoint] at hdisjoint
  induction n with
  | zero =>
      funext a
      rw [copied, if_neg (by simp only [Blocks.Mem]; omega), copyForward]
  | succ n ih =>
      funext a
      have hdstn : (dst + n) % arch.space = dst + n := Nat.mod_eq_of_lt (by omega)
      have hsrcn : (src + n) % arch.space = src + n := Nat.mod_eq_of_lt (by omega)
      have hsource : copied m.data dst src n (src + n) = m.data (src + n) := by
        rw [copied, if_neg]
        simp only [Blocks.Mem]
        omega
      rw [copyForward, copyByte]
      dsimp only
      rw [hdstn, hsrcn, ih (by omega) (by omega) (by omega), hsource, Function.update_apply]
      simp only [copied, Blocks.Mem]
      grind

theorem copyBackward_data {dst src : ℕ} :
    ∀ {n : ℕ} {m : Memory}, dst + n ≤ arch.space → src + n ≤ arch.space →
      Blocks.Disjoint (dst, n) (src, n) →
      (m.copyBackward arch dst src n).data = copied m.data dst src n
  | 0, m, _, _, _ => by
      funext a
      rw [copied, if_neg (by simp only [Blocks.Mem]; omega), copyBackward]
  | n + 1, m, hdst, hsrc, hdisjoint => by
      funext a
      simp only [Blocks.Disjoint] at hdisjoint
      have hdstn : (dst + n) % arch.space = dst + n := Nat.mod_eq_of_lt (by omega)
      have hsrcn : (src + n) % arch.space = src + n := Nat.mod_eq_of_lt (by omega)
      have hrest : Blocks.Disjoint (dst, n) (src, n) := by
        simp only [Blocks.Disjoint]
        omega
      rw [copyBackward, copyBackward_data (by omega) (by omega) hrest, copyByte]
      simp only [hdstn, hsrcn, copied, Blocks.Mem, Function.update_apply]
      grind

/-- A copy between disjoint regions copies every byte. -/
theorem memcpy_data {dst src n : ℕ} (hdst : dst + n ≤ arch.space) (hsrc : src + n ≤ arch.space)
    (hdisjoint : Blocks.Disjoint (dst, n) (src, n)) :
  (m.memcpy arch dst src n).data = copied m.data dst src n
  := by
  rw [memcpy]
  split
  · rename_i hnone
    funext a
    rw [copied]
    split
    · rename_i ha
      simp only [Blocks.Mem, Blocks.Disjoint] at ha hdisjoint
      omega
    · rfl
  · split
    · apply copyForward_data hdst hsrc hdisjoint
    · apply copyBackward_data hdst hsrc hdisjoint

/-- The bytes of a disjoint region are copied to a cleared one, and nothing else is accessed. -/
theorem memcpy_memset {dst src n : ℕ} (hne : dst ≠ src) (hdst : dst + n ≤ arch.space)
    (hsrc : src + n ≤ arch.space) (hdisjoint : Blocks.Disjoint (dst, n) (src, n)) (c : UInt8) :
  (∀ i < n, ((m.memset arch dst c n).memcpy arch dst src n).data (dst + i) = m.data (src + i)) ∧
    ∃ log, ((m.memset arch dst c n).memcpy arch dst src n).log = log ++ m.log ∧
      ∀ x ∈ log, Blocks.Mem x.addr (src, n) ∨ Blocks.Mem x.addr (dst, n)
  := by
  constructor
  · intro i hi
    have hin : Blocks.Mem (dst + i) (dst, n) := by
      simp only [Blocks.Mem]
      omega
    rw [memcpy_data hdst hsrc hdisjoint, copied, if_pos hin, Nat.add_sub_cancel_left]
    apply memset_data c hdst
    simp only [Blocks.Mem, Blocks.Disjoint] at hdisjoint ⊢
    omega
  · obtain ⟨log, hlog, hall⟩ := @memset_log arch m dst c n
    obtain ⟨log', hlog', hall'⟩ := @memcpy_log arch (m.memset arch dst c n) _ _ hne n
    have haddr {a i : ℕ} (ha : a + n ≤ arch.space) (hi : i < n) :
        Blocks.Mem ((a + i) % arch.space) (a, n) := by
      rw [Nat.mod_eq_of_lt (by omega)]
      simp only [Blocks.Mem]
      omega
    use log' ++ log
    constructor
    · rw [hlog', hlog, List.append_assoc]
    · intro x hx
      rcases List.mem_append.mp hx with hx | hx
      · rw [hall'] at hx
        obtain ⟨i, hi, rfl | rfl⟩ := hx
        · right
          apply haddr hdst hi
        · left
          apply haddr hsrc hi
      · obtain ⟨i, hi, rfl⟩ := hall x hx
        right
        apply haddr hdst hi

end Memory

/-! ### Allocation -/

theorem Arch.heapOverhead_pos (arch : Arch) : 0 < arch.heapOverhead := by
  have := arch.sizeofSize_pos
  rw [Arch.heapOverhead, Arch.sizeofNode]
  omega

/-- The bytes behind the size of a block that was handed out. -/
def HeapSystem.area (arch : Arch) (s : HeapSystem) (ptr : ℕ) : ℕ × ℕ :=
  (ptr, (s.blockOf arch ptr).2 - arch.heapOverhead)

namespace HeapSystem

variable {s s' : HeapSystem} {l : List (ℕ × ℕ)} {old n p : ℕ}

/-- A block that was handed out begins a header before its pointer. -/
theorem Partition.place (h : s.Partition arch l) (hold : old ∈ s.live)
    (hspace : old < arch.space) :
  (s.blockOf arch old).1 + arch.heapOverhead = old
  := by
  obtain ⟨-, hsize, hend⟩ := h.fits_live old hold
  have := arch.heapOverhead_le
  rw [blockOf, Heap.mmRegionToNode] at *
  dsimp only at *
  by_cases hle : arch.heapOverhead ≤ old
  · rw [show old + arch.space - arch.heapOverhead = old - arch.heapOverhead + arch.space by omega,
      Nat.add_mod_right, Nat.mod_eq_of_lt (by omega)]
    omega
  · rw [Nat.mod_eq_of_lt (by omega)] at hend hsize
    omega

/-- A pointer is handed out once. -/
theorem Partition.not_mem_erase (h : s.Partition arch l) (hold : old ∈ s.live) :
  old ∉ s.live.erase old
  := by
  intro hmem
  have hdisjoint := h.disjoint_live hold hmem
  have hpos := (h.fits_live old hold).size_pos
  simp only [Blocks.Disjoint] at hdisjoint
  omega

/-- An allocation handed out the pointer `p`. -/
structure Allocated (arch : Arch) (s s' : HeapSystem) (n p : ℕ) : Prop where
  partition : ∃ l, s'.Partition arch l
  live : s'.live = p :: s.live
  fresh : p ∉ s.live
  added : s'.added = s.added
  place : (s'.blockOf arch p).1 + arch.heapOverhead = p
  need_le : Heap.needFor arch n ≤ (s'.blockOf arch p).2
  kept : ∀ q ∈ s.live, s'.blockOf arch q = s.blockOf arch q

theorem Allocated.mem (h : Allocated arch s s' n p) : p ∈ s'.live := by
  simp [h.live]

theorem Allocated.mem_of_mem (h : Allocated arch s s' n p) (hold : old ∈ s.live) :
  old ∈ s'.live
  := by
  simp [h.live, hold]

/-- The pointer is a new one. -/
theorem Allocated.ne (h : Allocated arch s s' n p) (hold : old ∈ s.live) : p ≠ old := by
  rintro rfl
  exact h.fresh hold

/-- The block of a pointer that was handed out before. -/
theorem Allocated.disjoint (h : Allocated arch s s' n p) (hold : old ∈ s.live) :
  Blocks.Disjoint (s'.blockOf arch p) (s.blockOf arch old)
  := by
  obtain ⟨l, hpartition⟩ := h.partition
  rw [← h.kept old hold]
  apply hpartition.disjoint_live h.mem
  rw [h.live, List.erase_cons_head]
  exact hold

end HeapSystem

namespace Memory

variable {m m' : Memory} {policy : Allocator} {l : List (ℕ × ℕ)} {old n p : ℕ}

/-- An allocation leaves the memory as it is when no node is large enough, and otherwise hands
out a block and clears it. -/
theorem kzalloc_cases (h : m.sys.Partition arch l) (policy : Allocator) (n : ℕ) :
  (∀ x ∈ l, x.2 < Heap.needFor arch n) ∧ m.kzalloc arch policy n = some (m, none) ∨
    (¬ ∀ x ∈ l, x.2 < Heap.needFor arch n) ∧ ∃ sys p,
      HeapSystem.Allocated arch m.sys sys n p ∧
        m.kzalloc arch policy n = some ({ m with sys }.memset arch p 0 n, some p)
  := by
  rcases h.freeList.alloc_choose h.separated h.fits policy n with
    ⟨hchoose, hrun⟩ | ⟨x, heap, l', hchoose, hx, hrun, htaken, -⟩
  · left
    use choose_eq_none.mp hchoose
    rw [kzalloc, hrun]
    rfl
  · right
    constructor
    · rw [← choose_eq_none, hchoose]
      simp
    · obtain ⟨hkept, hpartition⟩ := h.taken htaken
      have hregion := HeapSystem.mmRegionToNode_add htaken.fits_taken
      dsimp only at hregion
      use { m.sys with heap, live := (x.1 + arch.heapOverhead) :: m.sys.live }
      use x.1 + arch.heapOverhead
      constructor
      · constructor
        · use l'
        · rfl
        · intro hmem
          have hzero := h.cover_eq_zero hmem
          have hpos := Blocks.cover_pos (b := x.1) hx ⟨le_rfl, by
            have := (h.fits x hx).size_pos
            omega⟩
          rw [hregion] at hzero
          omega
        · rfl
        · simp only [HeapSystem.blockOf, hregion]
        · simp only [HeapSystem.blockOf, hregion]
          apply htaken.need_le
        · exact hkept
      · rw [kzalloc, hrun]
        rfl

/-! ### The content and the capacity -/

/-- The block of `p` has the content of the block of `old` and a capacity of `n` bytes; only
these blocks are accessed, and the block of `old` is released when it is not returned. -/
structure Reallocated (arch : Arch) (m m' : Memory) (old n p : ℕ) : Prop where
  live : p ∈ m'.sys.live
  capacity : n ≤ (m'.sys.area arch p).2
  content : ∀ i < min (m.sys.area arch old).2 n, m'.data (p + i) = m.data (old + i)
  accesses : ∃ log, m'.log = log ++ m.log ∧ ∀ x ∈ log,
    Blocks.Mem x.addr (m.sys.area arch old) ∨ Blocks.Mem x.addr (m'.sys.area arch p)
  freed : old ∈ m'.sys.live ↔ p = old
  others : ∀ q ∈ m.sys.live, q ≠ old →
    q ∈ m'.sys.live ∧ m'.sys.blockOf arch q = m.sys.blockOf arch q

/-- A reallocation goes through and keeps the memory partitioned.  It returns no pointer and
changes nothing, as it does when no free block has `n` bytes behind its size, or it returns a
block with the content and the capacity. -/
def Keeps (arch : Arch) (m : Memory) (l : List (ℕ × ℕ)) (old n : ℕ)
    (r : Option (Memory × Option ℕ)) : Prop :=
  ∃ m' ptr, r = some (m', ptr) ∧ (∃ l', m'.sys.Partition arch l') ∧
    m'.sys.added = m.sys.added ∧
    ((∀ x ∈ l, x.2 < n + arch.heapOverhead) → ptr = none) ∧
    match ptr with
    | none => m' = m
    | some p => Reallocated arch m m' old n p

/-- A reallocation without a free node that is large enough returns no pointer. -/
theorem krealloc_of_none (h : m.sys.Partition arch l) (old : ℕ)
    (hnone : ∀ x ∈ l, x.2 < Heap.needFor arch n) :
  m.krealloc arch policy old n = some (m, none)
  := by
  rcases kzalloc_cases h policy n with ⟨-, hrun⟩ | ⟨hsome, -⟩
  · rw [krealloc, hrun]
    rfl
  · contradiction

/-- A release of a block that was handed out, with what it leaves. -/
theorem kfree_eq (h : m.sys.Partition arch l) (hold : old ∈ m.sys.live) :
  ∃ sys, m.kfree arch old = some { m with sys } ∧ (∃ l', sys.Partition arch l') ∧
    sys.live = m.sys.live.erase old ∧ sys.added = m.sys.added ∧
    ∀ q ∈ m.sys.live.erase old, sys.blockOf arch q = m.sys.blockOf arch q
  := by
  obtain ⟨heap, l', hstep, hkept, hpartition⟩ := h.release hold
  use { m.sys with heap, live := m.sys.live.erase old }
  rw [kfree, hstep]
  exact ⟨rfl, ⟨l', hpartition⟩, rfl, rfl, hkept⟩

/-- A reallocation with a new block, by the size of the node of the old one. -/
theorem krealloc_of_some {sys : HeapSystem} (halloc : HeapSystem.Allocated arch m.sys sys n p)
    (hrun : m.kzalloc arch policy n = some ({ m with sys }.memset arch p 0 n, some p))
    (hold : old ∈ m.sys.live) :
  m.krealloc arch policy old n =
    if (m.sys.blockOf arch old).2 = n then
      (({ m with sys }.memset arch p 0 n).kfree arch p).map fun m => (m, some old)
    else
      ((({ m with sys }.memset arch p 0 n).memcpy arch p old
        (min (m.sys.blockOf arch old).2 n)).kfree arch old).map fun m => (m, some p)
  := by
  have hsize : ({ m with sys }.memset arch p 0 n).mmNodeSize arch old
      = (m.sys.blockOf arch old).2 := by
    rw [mmNodeSize, memset_sys, ← halloc.kept old hold]
    rfl
  have hmin (size : ℕ) : (if size > n then n else size) = min size n := by
    rw [Nat.min_def]
    grind
  rw [krealloc, hrun, Option.bind_some]
  simp only [hsize, hmin]

/-- A size that the old block can hold is no size of a node that is too small, so that the
content is copied to the new block. -/
theorem keeps_of_le {sys : HeapSystem} (h : m.sys.Partition arch l)
    (hold : old ∈ m.sys.live) (hspace : old < arch.space)
    (halloc : HeapSystem.Allocated arch m.sys sys n p)
    (hrun : m.kzalloc arch policy n = some ({ m with sys }.memset arch p 0 n, some p))
    (hlarge : ∃ x ∈ l, Heap.needFor arch n ≤ x.2) (hle : n ≤ (m.sys.area arch old).2) :
  Keeps arch m l old n (m.krealloc arch policy old n)
  := by
  obtain ⟨l₁, hpartition⟩ := halloc.partition
  have hoverhead := Arch.heapOverhead_pos arch
  have hplace := h.place hold hspace
  have hfits := h.fits_live old hold
  have hp := halloc.mem
  have hold' := halloc.mem_of_mem hold
  have hne := halloc.ne hold
  have hfitsp := hpartition.fits_live p hp
  have hdisjoint := halloc.disjoint hold
  have hsize := hfits.size
  have hend := hfits.space
  have hendp := hfitsp.space
  have hplacep := halloc.place
  have := arch.heapOverhead_le
  have hneed : Heap.needFor arch n = max (n + arch.heapOverhead) arch.sizeofNode := by
    apply Heap.needFor_eq
    · simp only [HeapSystem.area, mmAlignment] at hle ⊢
      omega
    · omega
  have hroom := halloc.need_le
  rw [hneed] at hroom hlarge
  simp only [HeapSystem.area, Blocks.Disjoint] at hle hdisjoint
  rw [krealloc_of_some halloc hrun hold, if_neg (by omega), min_eq_right (by omega)]
  set m₂ := ({ m with sys }.memset arch p 0 n).memcpy arch p old n with hm₂
  have hsys : m₂.sys = sys := by rw [hm₂, memcpy_sys, memset_sys]
  obtain ⟨sys', hfree, hpartition', hlive', hadded', hkept'⟩ :=
    kfree_eq (m := m₂) (hsys ▸ hpartition) (hsys ▸ hold')
  have hregion : Blocks.Disjoint (p, n) (old, n) := by
    simp only [Blocks.Disjoint]
    omega
  have hpspace : p + n ≤ arch.space := by omega
  have holdspace : old + n ≤ arch.space := by omega
  obtain ⟨hcontent, log, hlog, hall⟩ :=
    memcpy_memset (m := { m with sys }) hne hpspace holdspace hregion 0
  have hlive : sys'.live = p :: m.sys.live.erase old := by
    rw [hlive', hsys, halloc.live, List.erase_cons_tail (by simpa using hne)]
  rw [← hlive', hlive, hsys] at hkept'
  have hblock := hkept' p List.mem_cons_self
  refine ⟨{ m₂ with sys := sys' }, some p, by rw [hfree, Option.map_some], hpartition', ?_, ?_, ?_⟩
  · rw [← halloc.added, ← hsys]
    exact hadded'
  · intro hall
    obtain ⟨x, hx, hlargex⟩ := hlarge
    have := hall x hx
    omega
  · constructor
    · simp [hlive]
    · simp only [HeapSystem.area, hblock]
      omega
    · intro i hi
      apply hcontent
      omega
    · use log, hlog
      intro x hx
      have := hall x hx
      simp only [HeapSystem.area, Blocks.Mem, hblock] at this ⊢
      omega
    · simp [hlive, hne, hne.symm, h.not_mem_erase hold]
    · intro q hq hqold
      have hmem : q ∈ p :: m.sys.live.erase old :=
        List.mem_cons_of_mem p ((List.mem_erase_of_ne hqold).mpr hq)
      rw [← halloc.kept q hq, ← hkept' q hmem]
      use hlive ▸ hmem

/-- A size that the old block cannot hold, in a new block: the old block is returned when the
size is the one of its node, and otherwise the copy reads the byte behind the old block. -/
theorem not_keeps_of_lt {sys : HeapSystem} (h : m.sys.Partition arch l)
    (hold : old ∈ m.sys.live) (hspace : old < arch.space)
    (halloc : HeapSystem.Allocated arch m.sys sys n p)
    (hrun : m.kzalloc arch policy n = some ({ m with sys }.memset arch p 0 n, some p))
    (hlt : (m.sys.area arch old).2 < n) :
  ¬ Keeps arch m l old n (m.krealloc arch policy old n)
  := by
  obtain ⟨l₁, hpartition⟩ := halloc.partition
  have hoverhead := Arch.heapOverhead_pos arch
  have hplace := h.place hold hspace
  have hfits := h.fits_live old hold
  have hp := halloc.mem
  have hold' := halloc.mem_of_mem hold
  have hne := (halloc.ne hold).symm
  rintro ⟨m', ptr, hreturn, -, -, -, hresult⟩
  rw [krealloc_of_some halloc hrun hold] at hreturn
  split at hreturn
  · -- the old block is returned, and has the size it had
    have hsys : ({ m with sys }.memset arch p 0 n).sys = sys := memset_sys ..
    obtain ⟨sys', hfree, -, hlive', -, hkept'⟩ :=
      kfree_eq (m := { m with sys }.memset arch p 0 n) (hsys ▸ hpartition) (hsys ▸ hp)
    rw [hfree, Option.map_some, Option.some.injEq, Prod.mk.injEq] at hreturn
    obtain ⟨rfl, rfl⟩ := hreturn
    have hmem : old ∈ sys.live.erase p := (List.mem_erase_of_ne hne).mpr hold'
    rw [hsys] at hkept'
    have hcapacity := hresult.capacity
    simp only [HeapSystem.area, hkept' old hmem, halloc.kept old hold] at hcapacity hlt
    omega
  · -- the copy goes on behind the old block
    set size := min (m.sys.blockOf arch old).2 n with hmin
    set m₂ := ({ m with sys }.memset arch p 0 n).memcpy arch p old size with hm₂
    have hsys : m₂.sys = sys := by rw [hm₂, memcpy_sys, memset_sys]
    obtain ⟨sys', hfree, -, hlive', -, hkept'⟩ :=
      kfree_eq (m := m₂) (hsys ▸ hpartition) (hsys ▸ hold')
    rw [hfree, Option.map_some, Option.some.injEq, Prod.mk.injEq] at hreturn
    obtain ⟨rfl, rfl⟩ := hreturn
    obtain ⟨log, hlog, -⟩ := @memset_log arch { m with sys } p 0 n
    obtain ⟨log', hlog', hall⟩ :=
      @memcpy_log arch ({ m with sys }.memset arch p 0 n) _ _ hne.symm size
    obtain ⟨accesses, haccesses, hwithin⟩ := hresult.accesses
    have heq : accesses = log' ++ log := by
      have happend : accesses ++ m.log = (log' ++ log) ++ m.log := by
        rw [← haccesses, List.append_assoc, ← hlog, ← hlog']
      exact List.append_cancel_right happend
    have hend := hfits.space
    have hsize := hfits.size
    have hle := Arch.heapOverhead_le arch
    simp only [HeapSystem.area] at hlt
    have hread : .read (old + (m.sys.area arch old).2) ∈ accesses := by
      rw [heq, List.mem_append, hall]
      left
      simp only [HeapSystem.area]
      use (m.sys.blockOf arch old).2 - arch.heapOverhead, by omega
      right
      rw [Nat.mod_eq_of_lt (by omega)]
    have hmem : p ∈ sys.live.erase old := (List.mem_erase_of_ne hne.symm).mpr hp
    rw [hsys] at hkept'
    have hdisjoint := halloc.disjoint hold
    have hplacep := halloc.place
    have := hwithin _ hread
    simp only [Access.addr, HeapSystem.area, Blocks.Mem, hkept' p hmem, Blocks.Disjoint]
      at this hdisjoint
    omega

/-- A reallocation keeps the content and gets the capacity if and only if the old block can
hold the size, or no free node is large enough for it. -/
theorem keeps_iff {policy : Allocator} (h : m.sys.Partition arch l) (hold : old ∈ m.sys.live)
    (hspace : old < arch.space) :
  Keeps arch m l old n (m.krealloc arch policy old n) ↔
    n ≤ (m.sys.area arch old).2 ∨ ∀ x ∈ l, x.2 < Heap.needFor arch n
  := by
  rcases kzalloc_cases h policy n with ⟨hnone, -⟩ | ⟨hsome, sys, p, halloc, hrun⟩
  · have hkeeps : Keeps arch m l old n (some (m, none)) :=
      ⟨m, none, rfl, ⟨l, h⟩, rfl, fun _ => rfl, rfl⟩
    rw [krealloc_of_none h old hnone]
    exact iff_of_true hkeeps (.inr hnone)
  · have hlarge : ∃ x ∈ l, Heap.needFor arch n ≤ x.2 := by
      simpa using hsome
    rw [or_iff_left hsome]
    constructor
    · intro hkeeps
      by_contra hlt
      apply not_keeps_of_lt h hold hspace halloc hrun (by omega) hkeeps
    · intro hle
      apply keeps_of_le h hold hspace halloc hrun hlarge hle

/-- The memory of an AVR with a block of ten bytes handed out and a free one of fifty. -/
def sample : Memory where
  sys :=
    { heap :=
        { size := fun a => if a = 256 then 10 else 50
          next := fun _ => none
          root := some 300 }
      added := [(256, 10), (300, 50)]
      live := [258] }
  data := fun _ => 7
  log := []

theorem sample_partition : sample.sys.Partition Arch.avr [(300, 50)] where
  freeList := ⟨⟨rfl, rfl⟩, by simp [sample]⟩
  separated := by simp [Blocks.Separated]
  fits := by
    rintro x hx
    obtain rfl := List.mem_singleton.mp hx
    constructor <;> decide
  fits_live := by
    rintro p hp
    obtain rfl := List.mem_singleton.mp hp
    constructor <;> decide
  cover := by
    intro b
    have hlive : sample.sys.liveBlocks Arch.avr = [(256, 10)] := rfl
    rw [hlive, ← Blocks.cover_append]
    apply Blocks.cover_perm (List.Perm.swap ..)
  once := by
    apply Blocks.cover_cons_le_one
    · intro b
      rw [Blocks.cover_singleton]
      split <;> omega
    · simp [Blocks.Disjoint]

/-- A block with eight bytes for its owner is cut to five bytes. -/
theorem keeps_iff_sample :
  Keeps Arch.avr sample [(300, 50)] 258 5 (sample.krealloc Arch.avr .firstFit 258 5)
  := by
  apply (keeps_iff sample_partition (by decide) (by decide)).mpr
  left
  decide

/-- The block is to get ten bytes, as many as its node has, and is returned as it is. -/
theorem not_keeps_sample :
  ¬ Keeps Arch.avr sample [(300, 50)] 258 10 (sample.krealloc Arch.avr .firstFit 258 10)
  := by
  rcases kzalloc_cases sample_partition .firstFit 10 with ⟨hnone, -⟩ | ⟨-, sys, p, halloc, hrun⟩
  · have := hnone (300, 50) (by simp)
    contradiction
  · apply not_keeps_of_lt sample_partition (by decide) (by decide) halloc hrun
    decide

end Memory

end Etaos.Mm
