import Etaos.Sched.Queue

/-!
# The state of the scheduler

The run queue of one processor with its threads: the links of the run queue and of the
thread queues, the thread records, the list of threads that wait for events, and the timers
of the clock source.  The functions are those of `core.c` that change the run queue and the
thread queues, and the timer functions that the scheduler uses.

Every allocation succeeds.  A function is `none` when it follows a pointer that is not
there, or walks around a cycle.
-/

set_option linter.unusedSectionVars false

namespace Etaos

/-- The choices of a build and its set-up. -/
structure Config (Q : Type) where
  /-- The option `CONFIG_PREEMPT`. -/
  preempt : Bool
  /-- The option `CONFIG_DYN_PRIO`. -/
  dynPrio : Bool
  /-- The scheduling class of the run queue. -/
  rqClass : SchedClass
  /-- The scheduling classes of the thread queues. -/
  queueClass : Q → SchedClass
  /-- The frequency of the clock source. -/
  freq : Nat

/-- The roots of lists of threads: the run queue, and the thread queues `Q`. -/
inductive Root (Q : Type) where
  | runQueue
  | queue (qp : Q)
  deriving DecidableEq

/-- The field `timer` of a thread: `NULL`, the mark `SIGNALED`, or a timer. -/
inductive TimerPtr where
  | null
  | signaled
  | timer (id : Nat)
  deriving DecidableEq

/-- A thread record. -/
structure Thread where
  prio : Nat
  dprio : Nat
  /-- The flag `THREAD_RUNNING_FLAG`. -/
  running : Bool
  /-- The flag `THREAD_WAITING_FLAG`. -/
  waiting : Bool
  /-- The flag `THREAD_SLEEPING_FLAG`. -/
  sleeping : Bool
  /-- The flag `THREAD_NEED_RESCHED_FLAG`. -/
  needResched : Bool
  /-- The flag `PREEMPT_NEED_RESCHED_FLAG`. -/
  preemptNeedResched : Bool
  /-- The flag `THREAD_IDLE_FLAG`. -/
  idle : Bool
  onRq : Bool
  /-- Whether the field `rq` is set. -/
  rq : Bool
  timer : TimerPtr
  preemptCnt : Int
  deriving DecidableEq

/-- The timer handles of the scheduler with their arguments. -/
inductive Handle (T Q : Type) where
  | schedSleepTimeout (tp : T)
  | eventTmo (qp : Q)
  deriving DecidableEq

/-- A one-shot timer. -/
structure Timer (T Q : Type) where
  /-- The address of the timer. -/
  id : Nat
  expireAt : Nat
  handle : Handle T Q
  deriving DecidableEq

/-- The state of the scheduler of one processor. -/
structure Kernel (T Q : Type) where
  links : Links T (Root Q)
  /-- The field `num` of the run queue. -/
  num : Nat
  thr : T → Thread
  current : T
  /-- The list `wake_head`. -/
  wake : List T
  /-- The timers of the clock source. -/
  timers : List (Timer T Q)
  /-- The tick count of the clock source. -/
  tick : Nat
  /-- The address of the next timer. -/
  nextTimer : Nat
  /-- How often a thread was made runnable since it was queued to wait for an event. -/
  wakes : T → Nat
  /-- The number of calls of `event_notify_irq` on a thread queue. -/
  irqCalls : Q → Nat
  /-- The threads on a thread queue that `rq_signal_threads` has woken, in order. -/
  irqWoken : Q → List T
  /-- The numbers of these calls and threads when the queue was last without waiters and
  without a call to remember. -/
  irqStart : Q → Nat × Nat

namespace Kernel

variable {T Q : Type} [DecidableEq T] [DecidableEq Q]

/-- The kernel with the record of one thread changed. -/
def modify (k : Kernel T Q) (tp : T) (f : Thread → Thread) : Kernel T Q :=
  { k with thr := Function.update k.thr tp (f (k.thr tp)) }

section modify

variable (k : Kernel T Q) (tp : T) (f : Thread → Thread)

@[simp] theorem modify_links : (k.modify tp f).links = k.links := rfl
@[simp] theorem modify_num : (k.modify tp f).num = k.num := rfl
@[simp] theorem modify_current : (k.modify tp f).current = k.current := rfl
@[simp] theorem modify_wake : (k.modify tp f).wake = k.wake := rfl
@[simp] theorem modify_timers : (k.modify tp f).timers = k.timers := rfl
@[simp] theorem modify_tick : (k.modify tp f).tick = k.tick := rfl
@[simp] theorem modify_nextTimer : (k.modify tp f).nextTimer = k.nextTimer := rfl
@[simp] theorem modify_wakes : (k.modify tp f).wakes = k.wakes := rfl
@[simp] theorem modify_irqCalls : (k.modify tp f).irqCalls = k.irqCalls := rfl
@[simp] theorem modify_irqWoken : (k.modify tp f).irqWoken = k.irqWoken := rfl
@[simp] theorem modify_irqStart : (k.modify tp f).irqStart = k.irqStart := rfl

@[simp]
theorem modify_thr_self : (k.modify tp f).thr tp = f (k.thr tp) := by
  simp [modify]

@[simp]
theorem modify_thr_of_ne {u : T} (h : u ≠ tp) : (k.modify tp f).thr u = k.thr u := by
  simp [modify, h]

end modify

/-- The priority value of a thread, less its dynamic part. -/
def prio (k : Kernel T Q) (tp : T) : Nat :=
  (k.thr tp).prio - (k.thr tp).dprio

/-! ### Timers -/

/-- The insertion of `clocksource.c` into the list of timers. -/
def rawClocksourceInsertTimer (lh : Timer T Q) : List (Timer T Q) → List (Timer T Q)
  | [] => [lh]
  | [carriage] => [carriage, lh]
  | carriage :: x :: l =>
      if lh.expireAt ≤ carriage.expireAt then
        lh :: carriage :: x :: l
      else
        carriage :: rawClocksourceInsertTimer lh (x :: l)

/-- A new one-shot timer, at the address `nextTimer`. -/
def timerCreate (cfg : Config Q) (k : Kernel T Q) (ms : Nat) (handle : Handle T Q) :
    Kernel T Q :=
  let timer := { id := k.nextTimer, expireAt := cfg.freq / 1000 * ms + k.tick, handle }
  { k with
    timers := rawClocksourceInsertTimer timer k.timers
    nextTimer := k.nextTimer + 1 }

/-- The removal of a timer from the clock source. -/
def timerStop (k : Kernel T Q) (id : Nat) : Kernel T Q :=
  { k with timers := k.timers.eraseP (·.id = id) }

def timerIsExpired (k : Kernel T Q) (timer : Timer T Q) : Bool :=
  timer.expireAt ≤ k.tick

variable [Fintype T]

/-! ### Adding and removing threads -/

/-- The class function `add_thread`. -/
def addThread (cfg : Config Q) (k : Kernel T Q) (tp : T) : Option (Kernel T Q) :=
  (k.links.classInsert cfg.rqClass k.prio .runQueue tp).map fun links =>
    { k with num := k.num + 1, links }

/-- The class function `rm_thread`, with its error code. -/
def rmThread (k : Kernel T Q) (tp : T) : Option (Kernel T Q × Int) :=
  (k.links.rrSharedQueueRemove .runQueue tp).map fun (links, rc) =>
    if rc = 0 then
      ({ k with num := k.num - 1, links }, rc)
    else
      ({ k with links }, rc)

/-- The function `raw_rq_add_thread`. -/
def rawRqAddThread (cfg : Config Q) (k : Kernel T Q) (tp : T) : Option (Kernel T Q) :=
  (k.addThread cfg tp).map fun k =>
    k.modify tp fun th => { th with running := true, onRq := true, rq := true }

/-- The function `raw_rq_remove_thread_noresched`, with its error code. -/
def rawRqRemoveThreadNoresched (k : Kernel T Q) (tp : T) : Option (Kernel T Q × Int) :=
  if !(k.thr tp).onRq then
    some (k, -EINVAL)
  else if k.current = tp then
    some (k.modify tp fun th => { th with running := false, needResched := true }, 1)
  else
    ((k.modify tp fun th => { th with running := false }).rmThread tp).map fun (k, err) =>
      (k.modify tp fun th => { th with onRq := false }, err)

/-- The part of `rq_add_thread` under the lock. -/
def rqAddThreadLocked (cfg : Config Q) (k : Kernel T Q) (tp : T) : Option (Kernel T Q) :=
  (k.addThread cfg tp).map fun k => k.modify tp fun th => { th with running := true }

/-- The removal of a running thread at the start of `rq_add_thread` and
`queue_add_thread`. -/
def removeIfRunning (k : Kernel T Q) (tp : T) : Option (Kernel T Q) :=
  if (k.thr tp).onRq && (k.thr tp).running then
    (k.rawRqRemoveThreadNoresched tp).map Prod.fst
  else
    some k

/-- The function `rq_add_thread` for a thread that is not current. -/
def rqAddThread (cfg : Config Q) (k : Kernel T Q) (tp : T) : Option (Kernel T Q) := do
  let k ← k.removeIfRunning tp
  let k ← k.rqAddThreadLocked cfg tp
  some (k.modify tp fun th => { th with onRq := true, rq := true })

/-- The function `queue_add_thread`. -/
def queueAddThread (cfg : Config Q) (k : Kernel T Q) (qp : Q) (tp : T) :
    Option (Kernel T Q) := do
  let k ← k.removeIfRunning tp
  let links ← k.links.classInsert (cfg.queueClass qp) k.prio (.queue qp) tp
  some { k with links }

/-- The function `queue_remove_thread`. -/
def queueRemoveThread (k : Kernel T Q) (qp : Q) (tp : T) : Option (Kernel T Q) :=
  (k.links.rrSharedQueueRemove (.queue qp) tp).map fun (links, _) => { k with links }

/-- The function `rq_remove_wake_thread`. -/
def rqRemoveWakeThread (k : Kernel T Q) (tp : T) : Kernel T Q :=
  { k with wake := k.wake.erase tp }

/-- The head of a thread queue is set to `NULL` or marked `SIGNALED`, and what was
notified on it is no longer remembered. -/
def setQhead (k : Kernel T Q) (qp : Q) (v : Qhead T) : Kernel T Q :=
  { k with
    links := { k.links with head := Function.update k.links.head (.queue qp) v }
    irqStart := Function.update k.irqStart qp (k.irqCalls qp, (k.irqWoken qp).length) }

@[simp]
theorem setQhead_thr (k : Kernel T Q) (qp : Q) (v : Qhead T) :
  (k.setQhead qp v).thr = k.thr
  := rfl

@[simp]
theorem setQhead_current (k : Kernel T Q) (qp : Q) (v : Qhead T) :
  (k.setQhead qp v).current = k.current
  := rfl

/-- A thread queue without waiters is marked `SIGNALED`. -/
def signalIfEmpty (k : Kernel T Q) (qp : Q) : Kernel T Q :=
  if k.links.head (.queue qp) = .ptr none then
    k.setQhead qp .signaled
  else
    k

/-- The current thread is to give way to `tp` when its priority is not higher. -/
def reschedFor (k : Kernel T Q) (tp : T) : Kernel T Q :=
  if k.prio tp ≤ k.prio k.current then
    k.modify k.current fun th => { th with needResched := true }
  else
    k

/-- The class function `next_runnable`: the first thread on the run queue that has
`THREAD_RUNNING_FLAG` set. -/
def nextRunnable (k : Kernel T Q) : Option (Option T) :=
  match k.links.head .runQueue with
  | .signaled => none
  | .ptr runnable =>
      (Links.skip k.links.next (fun tp => !(k.thr tp).running) (Fintype.card T) none
        runnable).map Prod.snd

/-- The function `sched_get_next_runnable`. -/
def schedGetNextRunnable (k : Kernel T Q) : Option T :=
  k.nextRunnable.map fun next => next.getD k.current

end Kernel

end Etaos
