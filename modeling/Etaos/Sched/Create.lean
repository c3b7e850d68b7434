import Etaos.Sched.RoundRobin
import Etaos.Sched.System
import Etaos.Sched.Wake

/-!
# The creation of threads

The functions `thread_create`, `thread_init` and `thread_alloc` of `thread.c`, with the stack
frame of the AVR port and the release of the stack by the kill queue.  The answers of `kzalloc`
are arguments of the calls, and what a call allocates is recorded.

None of the functions looks at the answer of `kzalloc` for the stack, and none undoes what came
before: a thread without a stack is queued like any other.  `thread_alloc` reads its variable
`alloc` without having set it when the caller gives the stack.  `thread_init` sets the flag
`THREAD_SYSTEM_STACK` when the thread is on the run queue and preemption is enabled again, so that
another thread, and the new one itself, may run and be killed before the flag is set.
-/

set_option linter.unusedSectionVars false

namespace Etaos

/-- The field `stack` of a thread. -/
structure StackInfo where
  base : Option ℕ
  sp : ℤ
  size : ℕ
  deriving DecidableEq

/-- The thread attributes. -/
structure ThreadAttr where
  stackSize : ℕ
  stack : Option ℕ
  prio : ℕ

/-- The memory that is allocated for a thread. -/
inductive ThreadMem (T : Type) where
  | record (tp : T)
  | stack (base : ℕ)
  deriving DecidableEq

/-- The choices of a build that the creation of threads depends on. -/
structure CreateConfig (Q : Type) where
  sched : Config Q
  /-- The size of a stack frame. -/
  sizeofFrame : ℕ
  /-- The option `CONFIG_STACK_SIZE`. -/
  stackSize : ℕ

/-- The scheduler with the stacks of the threads and the memory that is allocated for them. -/
structure Creator (T Q : Type) where
  k : Kernel T Q
  stack : T → StackInfo
  /-- The flag `THREAD_SYSTEM_STACK`. -/
  systemStack : T → Bool
  allocated : List (ThreadMem T)
  /-- The call of `preempt_enable` gives way to another thread. -/
  resched : Bool

/-- The constant `SCHED_DEFAULT_PRIO`. -/
def schedDefaultPrio : ℕ := 120

namespace Creator

variable {T Q : Type} [DecidableEq T] [DecidableEq Q]

/-! ### The functions -/

/-- The function `kzalloc` for the record of a thread, with its answer. -/
def kzallocRecord (c : Creator T Q) (tp : T) : Creator T Q :=
  { c with allocated := .record tp :: c.allocated }

/-- The function `kzalloc` for a stack, with its answer. -/
def kzallocStack (c : Creator T Q) : Option ℕ → Creator T Q
  | none => c
  | some base => { c with allocated := .stack base :: c.allocated }

/-- The flag `THREAD_SYSTEM_STACK` is set. -/
def setSystemStack (c : Creator T Q) (tp : T) : Creator T Q :=
  { c with systemStack := Function.update c.systemStack tp true }

/-- The function `sched_create_stack_frame`. -/
def schedCreateStackFrame (cfg : CreateConfig Q) (c : Creator T Q) (tp : T) (stack : Option ℕ)
    (stackSize : ℕ) : Creator T Q :=
  match stack with
  | none => c
  | some base =>
      if stackSize = 0 then
        c
      else
        let sp : ℤ := base + (stackSize - 1)
        let sp := sp - cfg.sizeofFrame
        let sp := sp - 1
        { c with stack := Function.update c.stack tp { base := some base, sp, size := stackSize } }

/-- The function `raw_thread_init`. -/
def rawThreadInit (cfg : CreateConfig Q) (c : Creator T Q) (tp : T) (stackSize : ℕ)
    (stack : Option ℕ) (prio : ℕ) : Creator T Q :=
  let c := { c with
    k := c.k.rawThreadInit tp prio
    stack := Function.update c.stack tp { base := none, sp := 0, size := 0 }
    systemStack := Function.update c.systemStack tp false }
  c.schedCreateStackFrame cfg tp stack stackSize

/-- The function `preempt_disable`. -/
def preemptDisable (cfg : CreateConfig Q) (c : Creator T Q) : Creator T Q :=
  if cfg.sched.preempt then
    { c with k := c.k.modify c.k.current fun th => { th with preemptCnt := th.preemptCnt + 1 } }
  else
    c

/-- The function `preempt_enable`, up to the call of `preempt_schedule`. -/
def preemptEnable (cfg : CreateConfig Q) (c : Creator T Q) : Creator T Q :=
  if cfg.sched.preempt then
    let k := c.k.modify c.k.current fun th => { th with preemptCnt := th.preemptCnt - 1 }
    let cur := k.thr k.current
    { c with k, resched := cur.preemptCnt = 0 && (cur.preemptNeedResched || cur.needResched) }
  else
    c

variable [Fintype T]

/-- The function `thread_initialise`, with its error code. -/
def threadInitialise (cfg : CreateConfig Q) (c : Creator T Q) (tp : Option T) (stackSize : ℕ)
    (stack : Option ℕ) (prio : ℕ) : Option (Creator T Q × Int) :=
  match tp with
  | none => some (c, -EINVAL)
  | some tp =>
      let c := c.rawThreadInit cfg tp stackSize stack prio
      let c := c.preemptDisable cfg
      (c.k.rqAddThread cfg.sched tp).map fun k => ({ c with k }.preemptEnable cfg, -EOK)

/-- The function `thread_init` up to the return of `thread_initialise`, with the error code of the
latter and the variable `alloc`. -/
def threadInitQueued (cfg : CreateConfig Q) (c : Creator T Q) (tp : Option T)
    (attr : Option ThreadAttr) (mem : Option ℕ) : Option ((Creator T Q × Int) × Bool) :=
  let (prio, stack, stackSize) := match attr with
    | some attr => (attr.prio, attr.stack, attr.stackSize)
    | none => (0, none, 0)
  let prio := if prio = 0 then schedDefaultPrio else prio
  let stackSize := if stackSize = 0 then cfg.stackSize else stackSize
  let (c, stack, alloc) := match stack with
    | none => (c.kzallocStack mem, mem, true)
    | some base => (c, some base, false)
  (c.threadInitialise cfg tp stackSize stack prio).map fun r => (r, alloc)

/-- The function `thread_init`, with its error code; it is `none` when it sets the flag of a
`NULL` thread. -/
def threadInit (cfg : CreateConfig Q) (c : Creator T Q) (tp : Option T)
    (attr : Option ThreadAttr) (mem : Option ℕ) : Option (Creator T Q × Int) :=
  (c.threadInitQueued cfg tp attr mem).bind fun ((c, rv), alloc) =>
    if alloc then tp.map fun tp => (c.setSystemStack tp, rv) else some (c, rv)

/-- The function `thread_create`, with the thread it returns. -/
def threadCreate (cfg : CreateConfig Q) (c : Creator T Q) (attr : Option ThreadAttr)
    (record : Option T) (mem : Option ℕ) : Option (Creator T Q × Option T) :=
  match record with
  | none => some (c, none)
  | some tp =>
      ((c.kzallocRecord tp).threadInit cfg (some tp) attr mem).map fun (c, _) => (c, some tp)

/-- The function `thread_alloc`, with the thread it returns, where `alloc` is the value of its
uninitialised variable. -/
def threadAlloc (cfg : CreateConfig Q) (c : Creator T Q) (attr : Option ThreadAttr)
    (record : Option T) (mem : Option ℕ) (alloc : Bool) : Creator T Q × Option T :=
  let (prio, stack, stackSize) := match attr with
    | some attr => (attr.prio, attr.stack, attr.stackSize)
    | none => (0, none, 0)
  match record with
  | none => (c, none)
  | some tp =>
      let c := c.kzallocRecord tp
      let prio := if prio = 0 then schedDefaultPrio else prio
      let stackSize := if stackSize = 0 then cfg.stackSize else stackSize
      let (c, stack, alloc) := match stack with
        | none => (c.kzallocStack mem, mem, true)
        | some base => (c, some base, alloc)
      let c := c.rawThreadInit cfg tp stackSize stack prio
      (if alloc then c.setSystemStack tp else c, some tp)

/-- What the loop of `rq_destroy_kill_q` does for a thread: its stack is released when the
system allocated it. -/
def destroy (c : Creator T Q) (tp : T) : Creator T Q :=
  if c.systemStack tp then
    match (c.stack tp).base with
    | none => c
    | some base => { c with allocated := c.allocated.erase (.stack base) }
  else
    c

/-! ### What the calls promise -/

/-- The stack that the caller gives. -/
def callerStack (attr : Option ThreadAttr) : Option ℕ :=
  attr.bind ThreadAttr.stack

/-- The size of the stack. -/
def stackSizeOf (cfg : CreateConfig Q) (attr : Option ThreadAttr) : ℕ :=
  if attr.elim 0 ThreadAttr.stackSize = 0 then cfg.stackSize else attr.elim 0 ThreadAttr.stackSize

/-- Preemption is enabled, so that other threads may run: at once when `preempt_enable` calls
`preempt_schedule`, and after any interrupt. -/
def Preemptible (cfg : CreateConfig Q) (c : Creator T Q) : Prop :=
  cfg.sched.preempt = true ∧ (c.k.thr c.k.current).preemptCnt = 0

/-- A thread has a stack, which its first frame and its stack pointer lie in. -/
def ValidStack (cfg : CreateConfig Q) (info : StackInfo) : Prop :=
  ∃ base, info.base = some base ∧ base ≤ info.sp ∧
    info.sp + 1 + cfg.sizeofFrame ≤ base + info.size

/-- A call has set up a thread: it has a stack, it is queued once or as before, and its stack is
the system's if and only if the call has allocated it. -/
structure Yields (cfg : CreateConfig Q) (c c' : Creator T Q) (L : Root Q → List T) (queued : Bool)
    (tp : T) : Prop where
  stack : ValidStack cfg (c'.stack tp)
  queue : if queued then
      ∃ L', AddedTo L tp L' ∧ Listed c'.k L' ∧ (L' .runQueue).count tp = 1
    else
      Listed c'.k L
  systemStack : ∃ new, c'.allocated = new ++ c.allocated ∧
    (c'.systemStack tp = true ↔ ∃ base, (c'.stack tp).base = some base ∧ .stack base ∈ new)

/-- The calls, with the answers of `kzalloc` for the record and the stack. -/
inductive Call (T : Type) where
  | create (record : Option T) (mem : Option ℕ)
  | init (tp : Option T) (mem : Option ℕ)
  | alloc (record : Option T) (mem : Option ℕ) (value : Bool)

namespace Call

/-- The record that a call sets up. -/
def record : Call T → Option T
  | create record _ => record
  | init tp _ => tp
  | alloc record _ _ => record

/-- Whether a call queues the thread. -/
def queued : Call T → Bool
  | create _ _ => true
  | init _ _ => true
  | alloc _ _ _ => false

/-- The state after a call, with the thread unless it reports a failure. -/
def run (cfg : CreateConfig Q) (c : Creator T Q) (attr : Option ThreadAttr) :
    Call T → Option (Creator T Q × Option T)
  | create record mem => c.threadCreate cfg attr record mem
  | init tp mem =>
      (c.threadInit cfg tp attr mem).map fun (c, rv) => (c, if rv < 0 then none else tp)
  | alloc record mem value => some (c.threadAlloc cfg attr record mem value)

/-- The caller gives a stack or there is memory for one, and it holds a frame. -/
def HasStack (cfg : CreateConfig Q) (attr : Option ThreadAttr) (mem : Option ℕ) : Prop :=
  (callerStack attr = none → mem ≠ none) ∧ cfg.sizeofFrame + 2 ≤ stackSizeOf cfg attr

/-- The caller gives a stack, or no other thread may run before the flag is set. -/
def Unseen (cfg : CreateConfig Q) (c : Creator T Q) (attr : Option ThreadAttr) : Prop :=
  callerStack attr = none → ¬ c.Preemptible cfg

/-- The condition on a call. -/
def Sound (cfg : CreateConfig Q) (c : Creator T Q) (attr : Option ThreadAttr) : Call T → Prop
  | create record mem => record = none ∨ HasStack cfg attr mem ∧ Unseen cfg c attr
  | init none _ => callerStack attr ≠ none
  | init (some _) mem => HasStack cfg attr mem ∧ Unseen cfg c attr
  | alloc record mem value =>
      record = none ∨ HasStack cfg attr mem ∧ (callerStack attr ≠ none → value = false)

end Call

/-! ### The parts of a call -/

variable {cfg : CreateConfig Q} {c c' : Creator T Q} {L : Root Q → List T}
  {attr : Option ThreadAttr} {tp : T} {mem : Option ℕ}

/-- The function `preempt_disable` changes the record of the current thread. -/
theorem preemptDisable_eq (cfg : CreateConfig Q) (c : Creator T Q) :
  c.preemptDisable cfg =
    { c with
      k := c.k.modify c.k.current fun th =>
        { th with preemptCnt := th.preemptCnt + if cfg.sched.preempt then 1 else 0 } }
  := by
  rw [preemptDisable]
  split
  · rfl
  · simp [Kernel.modify]

/-- The function `preempt_enable` leaves the lists alone, and undoes `preempt_disable`. -/
theorem preemptEnable_eq (cfg : CreateConfig Q) (c : Creator T Q) :
  ∃ k resched, c.preemptEnable cfg = { c with k, resched } ∧ k.links = c.k.links ∧
    k.num = c.k.num ∧ (k.thr k.current).preemptCnt
      = (c.k.thr c.k.current).preemptCnt - if cfg.sched.preempt then 1 else 0
  := by
  rw [preemptEnable]
  split
  · refine ⟨_, _, rfl, rfl, rfl, ?_⟩
    simp
  · exact ⟨c.k, c.resched, rfl, rfl, rfl, (Int.sub_zero _).symm⟩

/-- The kill queue releases the stack of a thread that was set up when the call has allocated
it, and nothing that was allocated before. -/
theorem Yields.destroy {queued : Bool} {base : ℕ} (h : Yields cfg c c' L queued tp)
    (hbase : (c'.stack tp).base = some base) :
  ∃ new, c'.allocated = new ++ c.allocated ∧
    (c'.destroy tp).allocated = new.erase (.stack base) ++ c.allocated
  := by
  obtain ⟨new, hnew, hflag⟩ := h.systemStack
  use new, hnew
  simp only [hbase, Option.some.injEq, exists_eq_left'] at hflag
  rw [Creator.destroy]
  split
  · rename_i hsystem
    simp only [hbase]
    rw [hnew, List.erase_append_left _ (hflag.mp hsystem)]
  · rename_i hcaller
    rw [hnew, List.erase_of_not_mem]
    intro hmem
    apply hcaller (hflag.mpr hmem)

/-- The scheduler after boot, with the idle thread `false`, whose preemption count is given. -/
def sample (preemptCnt : Int) : Creator Bool Unit where
  k := (System.boot (fun _ => schedDefaultPrio) false).k.modify false fun th =>
    { th with preemptCnt }
  stack := fun _ => { base := none, sp := 0, size := 0 }
  systemStack := fun _ => false
  allocated := []
  resched := false

end Creator

end Etaos
