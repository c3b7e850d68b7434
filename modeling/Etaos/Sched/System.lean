import Etaos.Sched.Schedule
import Etaos.Library.Run

/-!
# The threads and their calls

The threads of one processor run the functions of `thread.c`, `event.c` and `core.c` in
stages.  A stage is a piece of code that an interrupt cannot divide, or that no other code
can tell from such a piece.  `Pc` is the stage that a thread has reached, and `SchedPoint`
where it is in the loop of `schedule`.

Between two stages the processor may be interrupted: by the clock, which enters the
scheduler when the time slice of the current thread is over and its preemption counter is
zero, and by device interrupts, which notify thread queues and trigger interrupt threads.

A call of `event_notify` has the stages below when it finds the flag `CPU_IRQ_EXEC_FLAG` clear.
Where a thread finds the flag set, all that the call does is to run `event_notify_irq`; this is
the step `irqNotify`, which is possible wherever the thread can make the call.
-/

set_option linter.unusedSectionVars false

namespace Etaos

/-- Where a thread is in the loop `do __schedule(cpu); while(need_resched());`. -/
inductive SchedPoint where
  /-- Not in the loop. -/
  | out
  /-- About to call `__schedule`. -/
  | enter
  /-- Behind the call of `__schedule`. -/
  | test
  deriving DecidableEq

/-- What follows a call of `rq_add_thread`. -/
inductive AddReturn where
  /-- Nothing. -/
  | direct
  /-- The call of `yield` in `signal`. -/
  | signal
  /-- The call of `preempt_enable` in `thread_start`. -/
  | start
  deriving DecidableEq

/-- The stages of the threads. -/
inductive Pc (T Q : Type) where
  /-- Outside of the functions of the kernel. -/
  | user
  /-- `yield` and `idle_thread_func`, about to call `schedule`. -/
  | schedule
  | sleepSchedule
  | waitResched
  | waitStop
  | waitSchedule
  | waitReturn
  /-- `signal`, behind `test_and_clear_bit`. -/
  | signalRun (tp : T)
  /-- `rq_add_thread`, at its start. -/
  | addTest (tp : T) (ret : AddReturn)
  /-- `rq_add_thread`, at the call of `rq_remove_thread`. -/
  | addRemove (tp : T) (ret : AddReturn)
  /-- `rq_remove_thread` of the current thread, about to call `schedule`. -/
  | addSchedule (tp : T) (ret : AddReturn)
  /-- `rq_add_thread`, at the lock. -/
  | addLink (tp : T) (ret : AddReturn)
  /-- `rq_add_thread`, behind the lock. -/
  | addMark (tp : T) (ret : AddReturn)
  | yieldTest
  | eventWaitDiscard (qp : Q) (ms : Nat)
  /-- `raw_event_wait`, at its start. -/
  | rawWaitTest (qp : Q) (ms : Nat)
  /-- `raw_event_wait`, behind the first lock. -/
  | rawWaitPrepare (qp : Q) (ms : Nat)
  /-- `raw_event_wait`, at the call of `queue_add_thread`. -/
  | rawWaitAdd (qp : Q)
  | rawWaitSchedule (qp : Q)
  | rawWaitReturn (qp : Q)
  /-- `event_notify`, behind its test of the flag. -/
  | notifySample (qp : Q)
  | notifyDecide (qp : Q) (tp : Sample)
  /-- `irq_handle_fn`, at the start of its loop. -/
  | irqLoop
  | irqWaitResched
  | irqWaitStop
  | irqWaitSchedule
  | irqWaitReturn
  /-- `irq_handle_fn`, in the handler. -/
  | irqHandler
  deriving DecidableEq

/-- The functions a thread calls. -/
inductive Op (T Q : Type) where
  | sleep (ms : Nat)
  | wait
  | signal (tp : T)
  | rqAddThread (tp : T)
  | threadStart (tp : T)
  | yield
  | eventWait (qp : Q) (ms : Nat)
  | rawEventWait (qp : Q) (ms : Nat)
  /-- A call of `event_notify` that finds the flag `CPU_IRQ_EXEC_FLAG` clear. -/
  | eventNotify (qp : Q)
  /-- One turn of the loop of `idle_thread_func`. -/
  | idleThreadFunc
  | irqHandleFn
  deriving DecidableEq

/-- What happens next. -/
inductive Label (T Q : Type) where
  /-- The current thread calls a function. -/
  | call (op : Op T Q)
  /-- The current thread runs a stage. -/
  | run
  /-- The current thread runs `__schedule`. -/
  | pass
  /-- The current thread runs `need_resched`. -/
  | test
  /-- The return from an interrupt; `slice` is whether it was the clock interrupt at the end
  of the time slice of the current thread. -/
  | interrupt (slice : Bool)
  /-- The clock advances. -/
  | tick (n : Nat)
  /-- A device interrupt that notifies a queue, or a call of `event_notify` by a thread that finds
  the flag `CPU_IRQ_EXEC_FLAG` set. -/
  | irqNotify (qp : Q)
  /-- A device interrupt with a threaded handler, run by the thread `tp`. -/
  | irqArrive (tp : T)
  deriving DecidableEq

/-- The kernel with the stages of its threads. -/
structure System (T Q : Type) where
  k : Kernel T Q
  pc : T → Pc T Q
  sched : T → SchedPoint
  /-- The value of the last `raw_event_wait` that a thread returned from. -/
  rv : T → Int
  /-- A notifier took the mark `SIGNALED` or `NULL` for a thread. -/
  fault : Bool
  /-- A thread was signalled in the `wait` it is in. -/
  signalled : T → Bool
  /-- The interrupt of a thread has arrived, and no call of its handler has started since. -/
  pending : T → Bool

namespace System

variable {T Q : Type} [DecidableEq T] [DecidableEq Q]

/-- The system with its kernel changed. -/
def setKernel (s : System T Q) (k : Kernel T Q) : System T Q :=
  { s with k }

/-- The current thread goes to a stage. -/
def goto (s : System T Q) (pc : Pc T Q) : System T Q :=
  { s with pc := Function.update s.pc s.k.current pc }

/-- The current thread goes to a place in the loop of `schedule`. -/
def setSched (s : System T Q) (p : SchedPoint) : System T Q :=
  { s with sched := Function.update s.sched s.k.current p }

/-- The current thread changes its record. -/
def own (s : System T Q) (f : Thread → Thread) : System T Q :=
  { s with k := s.k.modify s.k.current f }

/-- The function `preempt_disable`. -/
def preemptDisable (cfg : Config Q) (s : System T Q) : System T Q :=
  if cfg.preempt then
    s.own fun th => { th with preemptCnt := th.preemptCnt + 1 }
  else
    s

/-- The function `preempt_enable_no_resched`. -/
def preemptEnableNoResched (cfg : Config Q) (s : System T Q) : System T Q :=
  if cfg.preempt then
    s.own fun th => { th with preemptCnt := th.preemptCnt - 1 }
  else
    s

/-- The function `need_resched`. -/
def needResched (cfg : Config Q) (s : System T Q) : Bool :=
  (s.k.thr s.k.current).needResched ||
    (cfg.preempt && (s.k.thr s.k.current).preemptNeedResched)

/-- The function `preempt_should_resched`. -/
def preemptShouldResched (cfg : Config Q) (s : System T Q) : Bool :=
  cfg.preempt &&
    ((s.k.thr s.k.current).preemptNeedResched || (s.k.thr s.k.current).needResched)

/-- The function `preempt_enable`, which enters `schedule` when preemption is enabled again
and a reschedule is due. -/
def preemptEnable (cfg : Config Q) (s : System T Q) : System T Q :=
  let s := s.preemptEnableNoResched cfg
  if (s.k.thr s.k.current).preemptCnt = 0 && s.preemptShouldResched cfg then
    s.setSched .enter
  else
    s

/-- The function `preempt_disable` changes the preemption counter. -/
theorem preemptDisable_eq (cfg : Config Q) (s : System T Q) :
  ∃ n, s.preemptDisable cfg = s.own fun th => { th with preemptCnt := n }
  := by
  rw [preemptDisable]
  split
  · use (s.k.thr s.k.current).preemptCnt + 1
    rfl
  · use (s.k.thr s.k.current).preemptCnt
    simp [own, Kernel.modify]

/-- The function `preempt_enable_no_resched` changes the preemption counter. -/
theorem preemptEnableNoResched_eq (cfg : Config Q) (s : System T Q) :
  ∃ n, s.preemptEnableNoResched cfg = s.own fun th => { th with preemptCnt := n }
  := by
  rw [preemptEnableNoResched]
  split
  · use (s.k.thr s.k.current).preemptCnt - 1
    rfl
  · use (s.k.thr s.k.current).preemptCnt
    simp [own, Kernel.modify]

/-- The function `preempt_enable` changes the preemption counter, and may enter the
scheduler. -/
theorem preemptEnable_eq (cfg : Config Q) (s : System T Q) :
  ∃ n, s.preemptEnable cfg = s.own (fun th => { th with preemptCnt := n }) ∨
    s.preemptEnable cfg
      = (s.own fun th => { th with preemptCnt := n }).setSched .enter
  := by
  obtain ⟨n, hn⟩ := preemptEnableNoResched_eq cfg s
  use n
  rw [preemptEnable, hn]
  split
  · apply Or.inr rfl
  · apply Or.inl rfl

variable [Fintype T]

/-- The function `sched_yield`. -/
def schedYield (cfg : Config Q) (s : System T Q) : Option (System T Q) :=
  s.k.schedGetNextRunnable.map fun next =>
    if s.preemptShouldResched cfg || s.k.prio next ≤ s.k.prio s.k.current then
      s.own fun th => { th with needResched := true }
    else
      s

/-- The function `sched_setup_sleep_thread` of the current thread. -/
def schedSetupSleepThread (cfg : Config Q) (s : System T Q) (ms : Nat) : System T Q :=
  let timer := s.k.nextTimer
  let s := s.setKernel (s.k.timerCreate cfg ms (.schedSleepTimeout s.k.current))
  s.own fun th =>
    { th with
      sleeping := true, needResched := true, running := false, timer := .timer timer }

/-- The start of a function that the current thread calls. -/
def call (cfg : Config Q) (s : System T Q) : Op T Q → Option (System T Q)
  | .sleep ms =>
      if (s.k.thr s.k.current).rq then
        some ((s.schedSetupSleepThread cfg ms).goto .sleepSchedule)
      else
        none
  | .wait => some ((s.own fun th => { th with waiting := true }).goto .waitResched)
  | .signal tp =>
      if (s.k.thr tp).waiting then
        some ({ s with
          k := s.k.modify tp fun th => { th with waiting := false }
          signalled := Function.update s.signalled tp true }.goto (.signalRun tp))
      else
        some s
  | .rqAddThread tp => some (s.goto (.addTest tp .direct))
  | .threadStart tp => some ((s.preemptDisable cfg).goto (.addTest tp .start))
  | .yield => some (s.goto .yieldTest)
  | .eventWait qp ms => some (s.goto (.eventWaitDiscard qp ms))
  | .rawEventWait qp ms => some (s.goto (.rawWaitTest qp ms))
  | .eventNotify qp => some (s.goto (.notifySample qp))
  | .idleThreadFunc => some ((s.own fun th => { th with needResched := true }).goto .schedule)
  | .irqHandleFn => some (s.goto .irqLoop)

/-- The head of a thread queue, as `event_notify` reads it. -/
def sample (s : System T Q) (qp : Q) : Sample :=
  (s.k.links.head (.queue qp)).sample

/-- The stage of `event_notify` behind its read of the head. -/
def notify (cfg : Config Q) (s : System T Q) (qp : Q) : Sample → Option (System T Q)
  | .null => some (s.setKernel (s.k.setQhead qp .signaled))
  | .signaled => some s
  | .thread =>
      match s.k.links.head (.queue qp) with
      | .ptr (some tp) => (s.k.rawEventNotify cfg qp tp).map s.setKernel
      | _ => some { s with fault := true }

/-- The stage of `raw_event_wait` that tests the head of the queue. -/
def rawWaitTest (cfg : Config Q) (s : System T Q) (qp : Q) (ms : Nat) : System T Q :=
  let s := s.preemptDisable cfg
  if s.k.links.head (.queue qp) = .signaled then
    let s := s.setKernel (s.k.setQhead qp (.ptr none))
    let s := s.preemptEnable cfg
    { s with rv := Function.update s.rv s.k.current (-EOK) }.goto .user
  else
    s.goto (.rawWaitPrepare qp ms)

/-- The stage of `raw_event_wait` that creates the timer and puts the thread on the wake
list. -/
def rawWaitPrepare (cfg : Config Q) (s : System T Q) (qp : Q) (ms : Nat) : System T Q :=
  let tp := s.k.current
  let id := s.k.nextTimer
  let s :=
    if ms = 0 then
      s.own fun th => { th with timer := .null }
    else
      (s.setKernel (s.k.timerCreate cfg ms (.eventTmo qp))).own fun th =>
        { th with timer := .timer id }
  let s := s.own fun th => { th with rq := true }
  (s.setKernel { s.k with wake := tp :: s.k.wake }).goto (.rawWaitAdd qp)

/-- The stage of `raw_event_wait` that queues the thread. -/
def rawWaitAdd (cfg : Config Q) (s : System T Q) (qp : Q) : Option (System T Q) :=
  (s.k.queueAddThread cfg qp s.k.current).map fun k =>
    ((s.setKernel (k.resetWakes k.current)).preemptEnableNoResched cfg).goto
      (.rawWaitSchedule qp)

/-- The last stage of `raw_event_wait`. -/
def rawWaitReturn (s : System T Q) : System T Q :=
  if (s.k.thr s.k.current).timer = .signaled then
    let s := s.own fun th => { th with timer := .null }
    { s with rv := Function.update s.rv s.k.current (-EINVAL) }.goto .user
  else
    { s with rv := Function.update s.rv s.k.current (-EOK) }.goto .user

/-- The stage of `rq_add_thread` behind the lock, and what follows the call. -/
def addMark (cfg : Config Q) (s : System T Q) (tp : T) (ret : AddReturn) : System T Q :=
  let s := s.setKernel (s.k.modify tp fun th => { th with onRq := true, rq := true })
  match ret with
  | .direct => s.goto .user
  | .signal => s.goto .yieldTest
  | .start => (s.preemptEnable cfg).goto .user

/-- The next stage of the current thread. -/
def run (cfg : Config Q) (s : System T Q) : Option (System T Q) :=
  match s.pc s.k.current with
  | .user => none
  | .schedule => some ((s.setSched .enter).goto .user)
  | .sleepSchedule => some ((s.setSched .enter).goto .user)
  | .waitResched => some ((s.own fun th => { th with needResched := true }).goto .waitStop)
  | .waitStop => some ((s.own fun th => { th with running := false }).goto .waitSchedule)
  | .waitSchedule => some ((s.setSched .enter).goto .waitReturn)
  | .waitReturn =>
      some ({ s with signalled := Function.update s.signalled s.k.current false }.goto .user)
  | .signalRun tp =>
      some ((s.setKernel (s.k.modify tp fun th => { th with running := true })).goto
        (.addTest tp .signal))
  | .addTest tp ret =>
      if (s.k.thr tp).onRq && (s.k.thr tp).running then
        some (s.goto (.addRemove tp ret))
      else
        some (s.goto (.addLink tp ret))
  | .addRemove tp ret =>
      (s.k.rawRqRemoveThreadNoresched tp).map fun (k, err) =>
        (s.setKernel k).goto (if err > 0 then .addSchedule tp ret else .addLink tp ret)
  | .addSchedule tp ret => some ((s.setSched .enter).goto (.addLink tp ret))
  | .addLink tp ret =>
      (s.k.rqAddThreadLocked cfg tp).map fun k => (s.setKernel k).goto (.addMark tp ret)
  | .addMark tp ret => some (s.addMark cfg tp ret)
  | .yieldTest => (s.schedYield cfg).map fun s => s.goto .schedule
  | .eventWaitDiscard qp ms =>
      if s.k.links.head (.queue qp) = .signaled then
        some ((s.setKernel (s.k.setQhead qp (.ptr none))).goto (.rawWaitTest qp ms))
      else
        some (s.goto (.rawWaitTest qp ms))
  | .rawWaitTest qp ms => some (s.rawWaitTest cfg qp ms)
  | .rawWaitPrepare qp ms =>
      if (s.k.thr s.k.current).rq then
        some (s.rawWaitPrepare cfg qp ms)
      else
        none
  | .rawWaitAdd qp => s.rawWaitAdd cfg qp
  | .rawWaitSchedule qp => some ((s.setSched .enter).goto (.rawWaitReturn qp))
  | .rawWaitReturn _ => some s.rawWaitReturn
  | .notifySample qp => some (s.goto (.notifyDecide qp (s.sample qp)))
  | .notifyDecide qp tp =>
      ((s.preemptDisable cfg).notify cfg qp tp).map fun s => (s.preemptEnable cfg).goto .user
  | .irqLoop => some ((s.own fun th => { th with waiting := true }).goto .irqWaitResched)
  | .irqWaitResched =>
      some ((s.own fun th => { th with needResched := true }).goto .irqWaitStop)
  | .irqWaitStop => some ((s.own fun th => { th with running := false }).goto .irqWaitSchedule)
  | .irqWaitSchedule => some ((s.setSched .enter).goto .irqWaitReturn)
  | .irqWaitReturn =>
      some ({ s with pending := Function.update s.pending s.k.current false }.goto .irqHandler)
  | .irqHandler => some (s.goto .irqLoop)

/-- The function `event_notify_irq`. -/
def eventNotifyIrq (s : System T Q) (qp : Q) : System T Q :=
  let calls := s.k.irqCalls qp
  let k := { s.k with irqCalls := Function.update s.k.irqCalls qp (calls + 1) }
  match k.links.head (.queue qp) with
  | .ptr (some tp) =>
      let ec := Function.update k.links.ec tp (k.links.ec tp + 1)
      s.setKernel { k with links := { k.links with ec } }
  | .ptr none =>
      let head := Function.update k.links.head (.queue qp) .signaled
      s.setKernel { k with links := { k.links with head } }
  | .signaled =>
      let irqStart := Function.update k.irqStart qp (calls, (k.irqWoken qp).length)
      s.setKernel { k with irqStart }

/-- The function `irq_thread_signal` for the interrupt thread `tp`. -/
def irqThreadSignal (cfg : Config Q) (s : System T Q) (tp : T) : Option (System T Q) :=
  let s := { s with pending := Function.update s.pending tp true }
  if (s.k.thr tp).onRq then
    some s
  else
    let k := s.k.modify tp fun th => { th with running := true, waiting := false }
    (k.rawRqAddThread cfg tp).map fun k =>
      (s.setKernel k).own fun th => { th with preemptNeedResched := true }

/-- What happens at a label, unless the system has failed. -/
def next (cfg : Config Q) (s : System T Q) : Label T Q → Option (System T Q)
  | .call op =>
      if s.sched s.k.current = .out ∧ s.pc s.k.current = .user then
        s.call cfg op
      else
        none
  | .run =>
      if s.sched s.k.current = .out then
        s.run cfg
      else
        none
  | .pass =>
      if s.sched s.k.current = .enter then
        (s.k.schedulePass cfg).map (s.setSched .test).setKernel
      else
        none
  | .test =>
      if s.sched s.k.current = .test then
        some (s.setSched (if s.needResched cfg then .enter else .out))
      else
        none
  | .interrupt slice =>
      if cfg.preempt ∧ s.sched s.k.current ≠ .enter then
        let s := s.own fun th => { th with preemptNeedResched := th.preemptNeedResched || slice }
        some (if (s.k.thr s.k.current).preemptCnt = 0 then s.setSched .enter else s)
      else
        none
  | .tick n => some (s.setKernel { s.k with tick := s.k.tick + n })
  | .irqNotify qp => some (s.eventNotifyIrq qp)
  | .irqArrive tp => s.irqThreadSignal cfg tp

/-- A step of the system; after a failure there is none. -/
def step (cfg : Config Q) (s : System T Q) (l : Label T Q) : Option (System T Q) :=
  if s.fault then
    none
  else
    s.next cfg l

/-! ### The start of the system -/

/-- The lists of a system without waiters. -/
def startLists (ready : List T) : Root Q → List T
  | .runQueue => ready
  | .queue _ => []

/-- A start of the system: the idle thread is current, the threads `ready` are on the run
queue, and no thread waits or sleeps. -/
structure Start (s : System T Q) (ready : List T) : Prop where
  linked : Linked s.k.links (startLists ready)
  num : s.k.num = ready.length
  head : s.k.links.head .runQueue ≠ .signaled
  current : s.k.current ∉ ready
  ec : ∀ t, s.k.links.ec t = 0
  idle : ∀ t, (s.k.thr t).idle = true ↔ t = s.k.current
  running : ∀ t, (s.k.thr t).running = true
  waiting : ∀ t, (s.k.thr t).waiting = false
  sleeping : ∀ t, (s.k.thr t).sleeping = false
  onRq : ∀ t, (s.k.thr t).onRq = true ↔ t ∈ ready
  preemptCnt : ∀ t, (s.k.thr t).preemptCnt = if t = s.k.current then 1 else 0
  wake : s.k.wake = []
  timers : s.k.timers = []
  irqStart : ∀ qp, s.k.irqStart qp = (s.k.irqCalls qp, (s.k.irqWoken qp).length)
  pc : ∀ t, s.pc t = .user
  sched : ∀ t, s.sched t = .out
  fault : s.fault = false
  signalled : ∀ t, s.signalled t = false
  pending : ∀ t, s.pending t = false

/-- The record of a thread of the given priority that has not been started; the idle thread
has preemption disabled. -/
def threadRecord (prio : Nat) (idle : Bool) : Thread where
  prio := prio
  dprio := 0
  running := true
  waiting := false
  sleeping := false
  needResched := false
  preemptNeedResched := false
  idle := idle
  onRq := false
  rq := idle
  timer := .null
  preemptCnt := if idle then 1 else 0

/-- The system after boot: the idle thread is current, and no thread has been started. -/
def boot (prio : T → Nat) (idle : T) : System T Q where
  k :=
    { links :=
        { head := fun r => if r = .runQueue then .ptr none else .signaled
          next := fun _ => none
          queue := fun _ => none
          ec := fun _ => 0 }
      num := 0
      thr := fun t => threadRecord (prio t) (t = idle)
      current := idle
      wake := []
      timers := []
      tick := 0
      nextTimer := 0
      wakes := fun _ => 0
      irqCalls := fun _ => 0
      irqWoken := fun _ => []
      irqStart := fun _ => (0, 0) }
  pc := fun _ => .user
  sched := fun _ => .out
  rv := fun _ => 0
  fault := false
  signalled := fun _ => false
  pending := fun _ => false

theorem boot_start (prio : T → Nat) (idle : T) :
  Start (boot prio idle : System T Q) []
  := by
  constructor
  case linked =>
    constructor
    · intro r _
      cases r <;> rfl
    · intro r p hp
      cases r with
      | runQueue => simpa [boot, startLists, Chain.IsChain, eq_comm] using hp
      | queue qp => simp [boot] at hp
    · intro r
      cases r <;> simp [startLists]
    · intro r t ht
      cases r <;> simp [startLists] at ht
  all_goals simp [boot, threadRecord]

end System

end Etaos
