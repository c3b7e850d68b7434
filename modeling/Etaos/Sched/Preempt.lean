import Etaos.Library.Coroutine
import Etaos.Sched.Schedule

/-!
# Preemption counters

The functions of the scheduler, of the event queues, the mutexes and the condition variables as
programs of the threads that share the processor, in the builds with `CONFIG_PREEMPT`.  Each
statement is atomic, and a thread can be interrupted between any two of them when interrupts are
enabled; an interrupt and `preempt_enable` can give the processor to another thread there.

A spin lock of a single processor is free whenever it is taken with interrupts disabled.  The
locks are therefore modelled by what they do to the interrupts and to the preemption counter.  A
call of `panic` does not return.  Every allocation succeeds, and the functions of the heap are
part of the statement that calls them.

The field `preempt_cnt` of a thread and the field `count` of a mutex are an `int`, whose overflow is
undefined.  The model counts on, so that every run of the code is one of its runs for as long as no
thread nests its calls 2 ^ 15 deep, whatever the width of an `int` is.
-/

set_option linter.unusedSectionVars false

namespace Etaos

open Coroutine

/-- The choices of a build with preemption, and where the mutexes `M`, the condition variables
`C` and the threads have their queues. -/
structure PreemptConfig (T Q M C : Type) where
  sched : Config Q
  preempt : sched.preempt = true
  /-- The option `CONFIG_EXTENDED_THREAD`. -/
  extendedThread : Bool
  mutexQp : M → Q
  condLock : C → M
  condQp : C → Q
  joinq : T → Q

/-- The processor with its scheduler and its mutexes. -/
structure Cpu (T Q M : Type) where
  k : Kernel T Q
  /-- The flag `CPU_IRQ_EXEC_FLAG`. -/
  irqExec : Bool
  /-- Whether interrupts are enabled. -/
  irqs : Bool
  /-- The field `irq_state` of a thread. -/
  irqState : T → Bool
  /-- The field `cpu_state` of a thread. -/
  cpuState : T → Bool
  /-- Whether a thread has not run yet. -/
  fresh : T → Bool
  /-- The flag `THREAD_EXIT_FLAG`. -/
  exit : T → Bool
  /-- The flag `THREAD_REMOTE_KILL`. -/
  remoteKill : T → Bool
  /-- The list `kill_head`. -/
  killHead : List T
  /-- The field `count` of a mutex. -/
  count : M → Int
  /-- The field `owner` of a mutex. -/
  owner : M → Option T
  /-- The value of the last function that a thread returned from. -/
  rv : T → Int

/-- The events that `cpu_notify` is called for. -/
inductive CpuEvent where
  | irqEnter
  | irqExit
  | schedEnter
  | schedExit
  deriving DecidableEq

/-- The handlers of interrupts. -/
inductive IrqHandler (T Q : Type) where
  /-- A handler that calls no function of the scheduler. -/
  | device
  /-- The handler of the system tick; `slice` is whether the time slice of the current thread is
  over. -/
  | tick (slice : Bool)
  | eventNotify (qp : Q)
  | irqThreadSignal (tp : T)
  deriving DecidableEq

/-- The functions that the threads call. -/
inductive Fn (T Q M C : Type) where
  | preemptDisable
  | preemptEnable
  | preemptEnableNoResched
  | preemptSchedule
  | preemptScheduleIrq
  | cpuNotify (state : CpuEvent)
  | schedule
  /-- The function `__schedule`. -/
  | schedulePass
  | rqDestroyKillQ
  | schedRemoteKillIf
  | schedMarkRemoteKill (tp : T)
  | rawRqRemoveThread (tp : T)
  | rqRemoveThread (tp : T)
  | rqAddThread (tp : T)
  | queueAddThread (qp : Q) (tp : T)
  | queueRemoveThread (qp : Q) (tp : T)
  | rqRemoveWakeThread (tp : T)
  | threadAddToWakeQ (tp : T)
  | threadAddToKillQ (tp : T)
  | timerStop (id : Nat)
  | schedYield
  | yield
  | nice (prio : Nat)
  | sleep (ms : Nat)
  | wait
  | signal (tp : T)
  | threadStart (tp : T)
  | threadDestroy (tp : T)
  | join (tp : T)
  | kill
  | eventNotifyIrq (qp : Q)
  /-- The function `__raw_event_notify`. -/
  | rawEventNotify (qp : Q)
  | eventNotify (qp : Q)
  | rawEventWait (qp : Q) (ms : Nat)
  | eventWait (qp : Q) (ms : Nat)
  /-- The loop of `raw_event_notify_broadcast`, from the release of the lock on. -/
  | broadcastLoop (qp : Q) (flags : Bool)
  | rawEventNotifyBroadcast (qp : Q)
  | eventNotifyBroadcast (qp : Q)
  | mutexLock (mutex : M)
  | mutexUnlock (mutex : M)
  | conditionWait (cond : C)
  | conditionWaitFor (cond : C) (ms : Nat)
  | conditionSignal (cond : C)
  | conditionBcast (cond : C)
  | irqEnable
  | irqDisable
  /-- One turn of the loop of `idle_thread_func`. -/
  | idleThreadFunc
  /-- An interrupt; `resched` is whether its vector calls `preempt_schedule_irq`. -/
  | irq (handler : IrqHandler T Q) (resched : Bool)
  deriving DecidableEq

/-- What a function adds to the preemption counter. -/
def Fn.effect {T Q M C : Type} : Fn T Q M C → ℤ
  | preemptDisable => 1
  | preemptEnable => -1
  | preemptEnableNoResched => -1
  | cpuNotify .schedEnter => 1
  | cpuNotify .schedExit => -1
  | mutexLock _ => 1
  | mutexUnlock _ => -1
  | _ => 0

/-- The programs of the threads. -/
abbrev Code (T Q M C : Type) := Cmd (Cpu T Q M) (Fn T Q M C)

variable {T Q M C : Type} [DecidableEq T] [DecidableEq Q] [DecidableEq M]

/-- The preemption counter of a thread. -/
def Kernel.preemptCnt (k : Kernel T Q) (tp : T) : ℤ :=
  (k.thr tp).preemptCnt

namespace Cpu

/-- The preemption counter of a thread. -/
def preemptCnt (s : Cpu T Q M) : T → ℤ :=
  s.k.preemptCnt

/-- The processor with the record of one thread changed. -/
def modify (s : Cpu T Q M) (tp : T) (f : Thread → Thread) : Cpu T Q M :=
  { s with k := s.k.modify tp f }

/-- The current thread changes its record. -/
def own (s : Cpu T Q M) (f : Thread → Thread) : Cpu T Q M :=
  s.modify s.k.current f

/-- The function `__preempt_add`. -/
def preemptAdd (num : ℤ) (s : Cpu T Q M) : Cpu T Q M :=
  s.own fun th => { th with preemptCnt := th.preemptCnt + num }

/-- The head of a thread queue, as its values are told apart. -/
def sample (s : Cpu T Q M) (qp : Q) : Sample :=
  (s.k.links.head (.queue qp)).sample

/-- The function `preempt_should_resched`. -/
def preemptShouldResched (s : Cpu T Q M) : Bool :=
  (s.k.thr s.k.current).preemptNeedResched || (s.k.thr s.k.current).needResched

/-- The function `need_resched`. -/
def needResched (s : Cpu T Q M) : Bool :=
  (s.k.thr s.k.current).needResched || (s.k.thr s.k.current).preemptNeedResched

/-- The macro `preemptible`. -/
def preemptible (s : Cpu T Q M) : Bool :=
  s.preemptCnt s.k.current = 0 && s.irqs

/-- The head of a thread queue is written. -/
def setQhead (qp : Q) (v : Qhead T) (s : Cpu T Q M) : Cpu T Q M :=
  { s with k := s.k.setQhead qp v }

/-- A function of the current thread returns a value. -/
def setRv (v : Int) (s : Cpu T Q M) : Cpu T Q M :=
  { s with rv := Function.update s.rv s.k.current v }

/-- The function `irq_restore`. -/
def irqRestore (flags : Bool) (s : Cpu T Q M) : Cpu T Q M :=
  { s with irqs := s.irqs || flags }

/-- The thread at the head of a thread queue, as `__raw_event_notify` follows it. -/
def qhead (qp : Q) (s : Cpu T Q M) : Option (Cpu T Q M × T) :=
  match s.k.links.head (.queue qp) with
  | .ptr (some tp) => some (s, tp)
  | _ => none

/-- The test of `mutex_unlock`; the function `panic` does not return. -/
def checkOwner (mutex : M) (tp : T) (s : Cpu T Q M) : Option (Cpu T Q M) :=
  if s.owner mutex = some tp then
    some s
  else
    none

/-- The test and the reset of the flag `THREAD_WAITING_FLAG` by `signal`. -/
def testAndClearWaiting (tp : T) (s : Cpu T Q M) : Option (Cpu T Q M × Bool) :=
  some (s.modify tp fun th => { th with waiting := false }, (s.k.thr tp).waiting)

/-- The function `rq_add_kill_thread`. -/
def rqAddKillThread (new : T) (s : Cpu T Q M) : Cpu T Q M :=
  { s.modify new fun th => { th with rq := true } with killHead := new :: s.killHead }

/-- The flags of a thread that is to be killed. -/
def setExit (tp : T) (s : Cpu T Q M) : Cpu T Q M :=
  { s.modify tp fun th => { th with needResched := true, running := false } with
    exit := Function.update s.exit tp true }

/-- The function `event_notify_irq`. -/
def eventNotifyIrq (qp : Q) (s : Cpu T Q M) : Cpu T Q M :=
  match s.k.links.head (.queue qp) with
  | .signaled => s
  | .ptr none => s.setQhead qp .signaled
  | .ptr (some tp) =>
      let ec := Function.update s.k.links.ec tp (s.k.links.ec tp + 1)
      { s with k := { s.k with links := { s.k.links with ec } } }

/-- The timer that a thread waits with, where its field `rq` is to be set. -/
def startTimer (cfg : Config Q) (qp : Q) (tp : T) (ms : Nat) (s : Cpu T Q M) :
    Option (Cpu T Q M) :=
  if (s.k.thr tp).rq then
    if ms = 0 then
      some (s.modify tp fun th => { th with timer := .null })
    else
      let timer := s.k.nextTimer
      some ({ s with k := s.k.timerCreate cfg ms (.eventTmo qp) }.modify tp fun th =>
        { th with timer := .timer timer })
  else
    none

/-- The end of `raw_event_wait`. -/
def waitResult (s : Cpu T Q M) : Cpu T Q M :=
  if (s.k.thr s.k.current).timer = .signaled then
    (s.own fun th => { th with timer := .null }).setRv (-EINVAL)
  else
    s.setRv (-EOK)

/-- The function `sched_setup_sleep_thread` of the current thread. -/
def schedSetupSleepThread (cfg : Config Q) (ms : Nat) (s : Cpu T Q M) : Option (Cpu T Q M) :=
  if (s.k.thr s.k.current).rq then
    let timer := s.k.nextTimer
    some ({ s with k := s.k.timerCreate cfg ms (.schedSleepTimeout s.k.current) }.own fun th =>
      { th with sleeping := true, needResched := true, running := false, timer := .timer timer })
  else
    none

variable [Fintype T]

/-- The function `reschedule_decide`. -/
def rescheduleDecide (cfg : Config Q) (cur next : T) (s : Cpu T Q M) :
    Option (Cpu T Q M × Bool) :=
  let resched := s.k.rescheduleDecide cfg cur next
  some ({ s with k := s.k.clearResched cfg cur }, resched)

/-- The function `sched_get_next_runnable`. -/
def schedGetNextRunnable (s : Cpu T Q M) : Option (Cpu T Q M × T) :=
  s.k.schedGetNextRunnable.map fun next => (s, next)

/-- The function `raw_rq_remove_thread_noresched`, with its error code. -/
def rawRqRemoveThreadNoresched (tp : T) (s : Cpu T Q M) : Option (Cpu T Q M × Int) :=
  (s.k.rawRqRemoveThreadNoresched tp).map fun (k, err) => ({ s with k }, err)

/-- The part of `sched_yield` with preemption disabled. -/
def yieldTo (next : T) (s : Cpu T Q M) : Cpu T Q M :=
  if s.preemptShouldResched || s.k.prio next ≤ s.k.prio s.k.current then
    s.own fun th => { th with needResched := true }
  else
    s

/-- The part of `__schedule` that switches from `prev` to `next`; a thread that has not run
starts with the interrupts of its stack frame. -/
def switchContext (cfg : Config Q) (flags : Bool) (prev next : T) (s : Cpu T Q M) :
    Option (Cpu T Q M) :=
  (({ s.k with current := next }.schedulePrepare cfg prev next).bind fun k =>
    k.rqSwitchContext cfg prev next).map fun k =>
      { s with
        k
        irqState := Function.update s.irqState prev flags
        cpuState := Function.update s.cpuState prev s.irqExec
        irqs := if s.fresh next then s.irqState next else s.irqs
        fresh := Function.update s.fresh next false }

/-- The function `rq_update`. -/
def rqUpdate (s : Cpu T Q M) : Cpu T Q M :=
  { s with irqExec := s.cpuState s.k.current }.irqRestore (s.irqState s.k.current)

/-- The part of the loop of `rq_signal_threads` that takes an event of the thread `iterator`:
the thread queue to be signalled, and the thread at its head. -/
def takeEvent (iterator : T) (s : Cpu T Q M) : Option (Cpu T Q M × Option (Q × T)) :=
  if s.k.links.ec iterator = 0 then
    some (s, none)
  else
    match s.k.links.queue iterator with
    | none => none
    | some tpp =>
        let ec := Function.update s.k.links.ec iterator (s.k.links.ec iterator - 1)
        let s := { s with k := { s.k with links := { s.k.links with ec } } }
        match s.k.links.head tpp with
        | .signaled => some (s, none)
        | .ptr none => none
        | .ptr (some tp) =>
            match s.k.links.queue tp with
            | some (.queue qp) =>
                match s.k.links.head (.queue qp) with
                | .ptr (some tp) => some (s, some (qp, tp))
                | _ => none
            | _ => none

end Cpu

/-! ### The programs of the functions -/

namespace Program

/-- A function of the kernel as a statement. -/
def kernel (f : Kernel T Q → Option (Kernel T Q)) : Code T Q M C :=
  .attempt fun s => (f s.k).map fun k => { s with k }

/-- The current thread changes its record. -/
def own (f : Thread → Thread) : Code T Q M C :=
  .assign fun s => s.own f

/-- The function `irq_save_and_disable`, with the flags for the rest. -/
def irqSaveAndDisable (rest : Bool → Code T Q M C) : Code T Q M C :=
  .act (fun s => some ({ s with irqs := false }, s.irqs)) rest

/-- The function `irq_restore`. -/
def irqRestore (flags : Bool) : Code T Q M C :=
  .assign (Cpu.irqRestore flags)

/-- From `raw_spin_lock_irq` to `raw_spin_unlock_irq`. -/
def rawSpinLockIrq (p : Code T Q M C) : Code T Q M C :=
  irqSaveAndDisable fun flags => .seq p (irqRestore flags)

/-- From `raw_spin_lock_irqsave` to `raw_spin_unlock_irqrestore`. -/
def rawSpinLockIrqsave (p : Code T Q M C) : Code T Q M C :=
  .block [.call .preemptDisable, rawSpinLockIrq p, .call .preemptEnableNoResched]

/-- The function `cpu_notify`. -/
def cpuNotify : CpuEvent → Code T Q M C
  | .irqEnter => .assign fun s => { s with irqExec := true }
  | .irqExit => .assign fun s => { s with irqExec := false }
  | .schedEnter => .call .preemptDisable
  | .schedExit => .call .preemptEnableNoResched

def preemptEnable : Code T Q M C :=
  .block [.add (-1),
    .ite (fun s => s.preemptCnt s.k.current = 0 && s.preemptShouldResched)
      (.call .preemptSchedule) .skip]

/-- The loop of `schedule` and `preempt_schedule_irq`. -/
def schedule : Code T Q M C :=
  .block [.call .schedulePass, .while Cpu.needResched (.call .schedulePass)]

def preemptSchedule : Code T Q M C :=
  .ite Cpu.preemptible (.call .schedule) .skip

def preemptScheduleIrq : Code T Q M C :=
  .ite (fun s => s.preemptCnt s.k.current ≠ 0) .skip schedule

/-- The broadcast on the queue of the threads that join `tp`. -/
def notifyJoinq (cfg : PreemptConfig T Q M C) (tp : T) : Code T Q M C :=
  if cfg.extendedThread then .call (.rawEventNotifyBroadcast (cfg.joinq tp)) else .skip

def threadAddToKillQ (tp : T) : Code T Q M C :=
  rawSpinLockIrqsave (.assign (Cpu.rqAddKillThread tp))

/-- The function `rq_destroy_kill_q`, without the stacks. -/
def rqDestroyKillQ : Code T Q M C :=
  rawSpinLockIrq (.assign fun s => { s with killHead := [] })

def schedRemoteKillIf (cfg : PreemptConfig T Q M C) : Code T Q M C :=
  .read (fun s => s.k.current) fun tp =>
    .ite (fun s => s.remoteKill tp)
      (.block [.assign (Cpu.setExit tp), .assign (Cpu.rqAddKillThread tp), notifyJoinq cfg tp])
      .skip

def schedMarkRemoteKill (cfg : PreemptConfig T Q M C) (tp : T) : Code T Q M C :=
  .ite (fun s => s.k.current = tp)
    (.block [.assign (Cpu.setExit tp), notifyJoinq cfg tp, threadAddToKillQ tp])
    (.block [.assign fun s => { s with remoteKill := Function.update s.remoteKill tp true },
      .ite (fun s => !(s.k.thr tp).sleeping && !(s.k.thr tp).waiting)
        (own fun th => { th with needResched := true }) .skip])

def timerStop (id : Nat) : Code T Q M C :=
  rawSpinLockIrqsave (kernel fun k => some (k.timerStop id))

/-- The timer of a thread that is woken is stopped. -/
def stopTimer (tp : T) : Code T Q M C :=
  .read (fun s => (s.k.thr tp).timer) fun
    | .timer id => .call (.timerStop id)
    | _ => .skip

variable [Fintype T]

/-- The wake-up of `rq_signal_event_queue` of the head `tp` of the thread queue `qp`. -/
def rqSignalEventQueue (cfg : PreemptConfig T Q M C) (qp : Q) (tp : T) : Code T Q M C :=
  .block [kernel fun k => some (k.rqRemoveWakeThread tp),
    kernel fun k => k.queueRemoveThread qp tp,
    kernel fun k => some (k.signalIfEmpty qp),
    stopTimer tp,
    .ite (fun s => s.k.current ≠ tp)
      (.block [kernel fun k => k.rawRqAddThread cfg.sched tp,
        kernel fun k => some (k.reschedFor tp)])
      (kernel fun k => some (k.keepRunning tp))]

/-- The body of the loop of `rq_signal_threads`. -/
def signalThread (cfg : PreemptConfig T Q M C) (iterator : T) : Code T Q M C :=
  .act (Cpu.takeEvent iterator) fun
    | none => .skip
    | some (qp, tp) => rqSignalEventQueue cfg qp tp

def rqSignalThreads (cfg : PreemptConfig T Q M C) : Code T Q M C :=
  .read (fun s => s.k.wake) fun wake => .block (wake.map (signalThread cfg))

/-- The decision of `__schedule` and the switch from `prev` to `next`. -/
def reschedule (cfg : PreemptConfig T Q M C) (flags : Bool) (prev next : T) : Code T Q M C :=
  .block [kernel fun k => some (k.preemptCheck cfg.sched prev next),
    .act (Cpu.rescheduleDecide cfg.sched prev next) fun resched =>
      if resched then
        .block [.attempt (Cpu.switchContext cfg.sched flags prev next), .assign Cpu.rqUpdate]
      else
        irqRestore flags]

/-- The function `__schedule`. -/
def schedulePass (cfg : PreemptConfig T Q M C) : Code T Q M C :=
  .block [.call (.cpuNotify .schedEnter),
    irqSaveAndDisable fun flags =>
      .read (fun s => s.k.current) fun prev =>
        .block [rawSpinLockIrqsave (kernel fun k => k.timerProcess cfg.sched),
          rqSignalThreads cfg,
          .act Cpu.schedGetNextRunnable fun next =>
            reschedule cfg flags prev next],
    .call .rqDestroyKillQ,
    .call .schedRemoteKillIf,
    .call (.cpuNotify .schedExit)]

def rawRqRemoveThread (tp : T) : Code T Q M C :=
  .act (Cpu.rawRqRemoveThreadNoresched tp) fun err =>
    if 0 < err then .call .schedule else .skip

def rqRemoveThread (tp : T) : Code T Q M C :=
  .ite (fun s => s.k.current ≠ tp)
    (rawSpinLockIrqsave (.call (.rawRqRemoveThread tp)))
    (.call (.rawRqRemoveThread tp))

def rqAddThread (cfg : PreemptConfig T Q M C) (tp : T) : Code T Q M C :=
  .block [.ite (fun s => (s.k.thr tp).onRq && (s.k.thr tp).running)
      (.call (.rqRemoveThread tp)) .skip,
    rawSpinLockIrqsave (kernel fun k => k.rqAddThreadLocked cfg.sched tp),
    .assign fun s => s.modify tp fun th => { th with onRq := true, rq := true }]

def queueAddThread (cfg : PreemptConfig T Q M C) (qp : Q) (tp : T) : Code T Q M C :=
  rawSpinLockIrqsave (.block [
    .ite (fun s => (s.k.thr tp).onRq && (s.k.thr tp).running)
      (rawSpinLockIrqsave (kernel fun k => (k.rawRqRemoveThreadNoresched tp).map Prod.fst))
      .skip,
    kernel fun k => (k.links.classInsert (cfg.sched.queueClass qp) k.prio (.queue qp) tp).map
      fun links => { k with links }])

def queueRemoveThread (qp : Q) (tp : T) : Code T Q M C :=
  rawSpinLockIrqsave (kernel fun k => k.queueRemoveThread qp tp)

def rqRemoveWakeThread (tp : T) : Code T Q M C :=
  .block [.call .preemptDisable,
    rawSpinLockIrq (kernel fun k => some (k.rqRemoveWakeThread tp)),
    .call .preemptEnableNoResched]

def threadAddToWakeQ (tp : T) : Code T Q M C :=
  rawSpinLockIrqsave (.block [
    .assign fun s => s.modify tp fun th => { th with rq := true },
    kernel fun k => some { k with wake := tp :: k.wake }])

def schedYield : Code T Q M C :=
  .block [.call .preemptDisable,
    .act Cpu.schedGetNextRunnable fun next =>
      .assign (Cpu.yieldTo next),
    .call .preemptEnableNoResched]

def yield : Code T Q M C :=
  .block [.call .schedYield, .call .schedule]

def nice (prio : Nat) : Code T Q M C :=
  .read (fun s => (s.k.thr s.k.current).prio) fun old =>
    .block [own fun th => { th with prio := if prio = 255 then 254 else prio },
      .call .yield,
      .assign (Cpu.setRv old)]

def sleep (cfg : PreemptConfig T Q M C) (ms : Nat) : Code T Q M C :=
  .block [
    rawSpinLockIrqsave (rawSpinLockIrqsave (.attempt (Cpu.schedSetupSleepThread cfg.sched ms))),
    .call .schedule]

def wait : Code T Q M C :=
  .block [own fun th => { th with waiting := true },
    own fun th => { th with needResched := true },
    own fun th => { th with running := false },
    .call .schedule]

def signal (tp : T) : Code T Q M C :=
  .act (Cpu.testAndClearWaiting tp) fun waiting =>
    if waiting then
      .block [.assign fun s => s.modify tp fun th => { th with running := true },
        .call (.rqAddThread tp),
        .call .yield]
    else
      .skip

def threadStart (tp : T) : Code T Q M C :=
  .block [.call .preemptDisable, .call (.rqAddThread tp), .call .preemptEnable]

def threadDestroy (tp : T) : Code T Q M C :=
  .ite (fun s => s.exit tp)
    (.assign (Cpu.setRv 1))
    (.block [.call (.schedMarkRemoteKill tp), .assign (Cpu.setRv (-EOK))])

def join (cfg : PreemptConfig T Q M C) (tp : T) : Code T Q M C :=
  .ite (fun s => s.exit tp) (.assign (Cpu.setRv (-EOK))) (.call (.eventWait (cfg.joinq tp) 0))

def kill (cfg : PreemptConfig T Q M C) : Code T Q M C :=
  .read (fun s => s.k.current) fun tp =>
    .block [.assign (Cpu.setExit tp), notifyJoinq cfg tp, .call (.threadAddToKillQ tp),
      .call .schedule]

/-- The function `__raw_event_notify`. -/
def rawEventNotify (qp : Q) : Code T Q M C :=
  irqSaveAndDisable fun flags =>
    .act (Cpu.qhead qp) fun tp =>
      .block [.call (.rqRemoveWakeThread tp),
        .call (.queueRemoveThread qp tp),
        kernel fun k => some (k.signalIfEmpty qp),
        stopTimer tp,
        kernel fun k => some (k.clearTimer tp),
        .ite (fun s => s.k.current ≠ tp)
          (.block [.call (.rqAddThread tp), kernel fun k => some (k.reschedFor tp)])
          (kernel fun k => some (k.keepRunning tp)),
        irqRestore flags]

def eventNotify (qp : Q) : Code T Q M C :=
  .ite Cpu.irqExec
    (.call (.eventNotifyIrq qp))
    -- The head is read before preemption is disabled.
    (.read (fun s => s.sample qp) fun tp =>
      .block [.call .preemptDisable,
        match tp with
        | .null => rawSpinLockIrq (.assign (Cpu.setQhead qp .signaled))
        | .signaled => .skip
        | .thread => .call (.rawEventNotify qp),
        .call .preemptEnable])

def eventWait (qp : Q) (ms : Nat) : Code T Q M C :=
  .block [.call .preemptDisable,
    rawSpinLockIrq (.ite (fun s => s.sample qp = .signaled)
      (.assign (Cpu.setQhead qp (.ptr none))) .skip),
    .call .preemptEnableNoResched,
    .call (.rawEventWait qp ms)]

/-- The part of `raw_event_wait` that queues the current thread and gives up the processor. -/
def blockOn (cfg : PreemptConfig T Q M C) (qp : Q) (ms : Nat) : Code T Q M C :=
  .read (fun s => s.k.current) fun tp =>
    .block [
      if ms = 0 then
        .attempt (Cpu.startTimer cfg.sched qp tp ms)
      else
        rawSpinLockIrqsave (.attempt (Cpu.startTimer cfg.sched qp tp ms)),
      .call (.threadAddToWakeQ tp),
      .call (.queueAddThread qp tp),
      .call .preemptEnableNoResched,
      .call .schedule,
      .assign Cpu.waitResult]

def rawEventWait (cfg : PreemptConfig T Q M C) (qp : Q) (ms : Nat) : Code T Q M C :=
  .block [.call .preemptDisable,
    irqSaveAndDisable fun flags =>
      .ite (fun s => s.sample qp = .signaled)
        (.block [.assign (Cpu.setQhead qp (.ptr none)),
          irqRestore flags,
          .call .preemptEnable,
          .assign (Cpu.setRv (-EOK))])
        (.block [irqRestore flags, blockOn cfg qp ms])]

/-- One turn of the loop of `raw_event_notify_broadcast`, and the turns behind it. -/
def broadcastLoop (qp : Q) (flags : Bool) : Code T Q M C :=
  .block [irqRestore flags,
    .call (.eventNotify qp),
    irqSaveAndDisable fun flags =>
      .ite (fun s => s.sample qp = .thread)
        (.call (.broadcastLoop qp flags))
        (irqRestore flags)]

def rawEventNotifyBroadcast (qp : Q) : Code T Q M C :=
  .block [.call .preemptDisable,
    irqSaveAndDisable fun flags =>
      .read (fun s => s.sample qp) fun
        | .signaled => .block [.assign (Cpu.setQhead qp (.ptr none)), irqRestore flags]
        | .thread => .call (.broadcastLoop qp flags)
        | .null => irqRestore flags,
    .call .preemptEnableNoResched,
    .assign (Cpu.setRv (-EOK))]

def eventNotifyBroadcast (qp : Q) : Code T Q M C :=
  .block [.call (.rawEventNotifyBroadcast qp),
    .read (fun s => s.rv s.k.current) fun rv =>
      .block [.call .yield, .assign (Cpu.setRv rv)]]

def mutexLock (cfg : PreemptConfig T Q M C) (mutex : M) : Code T Q M C :=
  .read (fun s => s.k.current) fun tp =>
    .block [.call .preemptDisable,
      .ite (fun s => s.owner mutex ≠ some tp)
        (.while (fun s => s.count mutex ≠ 0) (.call (.rawEventWait (cfg.mutexQp mutex) 0)))
        .skip,
      .assign fun s => { s with count := Function.update s.count mutex (s.count mutex + 1) },
      .assign fun s => { s with owner := Function.update s.owner mutex (some tp) }]

def mutexUnlock (cfg : PreemptConfig T Q M C) (mutex : M) : Code T Q M C :=
  .read (fun s => s.k.current) fun tp =>
    .block [.attempt (Cpu.checkOwner mutex tp),
      .assign fun s => { s with count := Function.update s.count mutex (s.count mutex - 1) },
      .ite (fun s => s.count mutex = 0)
        (.block [.assign fun s => { s with owner := Function.update s.owner mutex none },
          .call (.eventNotify (cfg.mutexQp mutex))])
        .skip,
      .call .preemptEnable]

/-- The function `__condition_wait_for`. -/
def conditionWaitFor (cfg : PreemptConfig T Q M C) (cond : C) (ms : Nat) : Code T Q M C :=
  .block [.call .preemptDisable,
    .call (.mutexUnlock (cfg.condLock cond)),
    .call (.eventWait (cfg.condQp cond) ms),
    .read (fun s => s.rv s.k.current) fun rv =>
      .block [.call (.mutexLock (cfg.condLock cond)),
        .call .preemptEnable,
        .assign (Cpu.setRv rv)]]

/-- The function `irq_thread_signal`. -/
def irqThreadSignal (cfg : PreemptConfig T Q M C) (tp : T) : Code T Q M C :=
  .ite (fun s => (s.k.thr tp).onRq)
    .skip
    (.block [.assign fun s => s.modify tp fun th => { th with running := true, waiting := false },
      kernel fun k => k.rawRqAddThread cfg.sched tp,
      own fun th => { th with preemptNeedResched := true }])

def irqHandler (cfg : PreemptConfig T Q M C) : IrqHandler T Q → Code T Q M C
  | .device => .skip
  | .tick slice =>
      .block [kernel fun k => some { k with tick := k.tick + 1 },
        if slice then
          .block [own fun th => { th with preemptNeedResched := true }, .call .preemptScheduleIrq]
        else
          .skip]
  | .eventNotify qp => .call (.eventNotify qp)
  | .irqThreadSignal tp => irqThreadSignal cfg tp

/-- An interrupt: the processor disables interrupts, and enables them behind the vector. -/
def irq (cfg : PreemptConfig T Q M C) (handler : IrqHandler T Q) (resched : Bool) :
    Code T Q M C :=
  .block [.assign fun s => { s with irqs := false },
    .call (.cpuNotify .irqEnter),
    irqHandler cfg handler,
    .call (.cpuNotify .irqExit),
    if resched then .call .preemptScheduleIrq else .skip,
    .assign fun s => { s with irqs := true }]

end Program

/-- The body of a function. -/
def Fn.body [Fintype T] (cfg : PreemptConfig T Q M C) : Fn T Q M C → Code T Q M C
  | .preemptDisable => .add 1
  | .preemptEnable => Program.preemptEnable
  | .preemptEnableNoResched => .add (-1)
  | .preemptSchedule => Program.preemptSchedule
  | .preemptScheduleIrq => Program.preemptScheduleIrq
  | .cpuNotify state => Program.cpuNotify state
  | .schedule => Program.schedule
  | .schedulePass => Program.schedulePass cfg
  | .rqDestroyKillQ => Program.rqDestroyKillQ
  | .schedRemoteKillIf => Program.schedRemoteKillIf cfg
  | .schedMarkRemoteKill tp => Program.schedMarkRemoteKill cfg tp
  | .rawRqRemoveThread tp => Program.rawRqRemoveThread tp
  | .rqRemoveThread tp => Program.rqRemoveThread tp
  | .rqAddThread tp => Program.rqAddThread cfg tp
  | .queueAddThread qp tp => Program.queueAddThread cfg qp tp
  | .queueRemoveThread qp tp => Program.queueRemoveThread qp tp
  | .rqRemoveWakeThread tp => Program.rqRemoveWakeThread tp
  | .threadAddToWakeQ tp => Program.threadAddToWakeQ tp
  | .threadAddToKillQ tp => Program.threadAddToKillQ tp
  | .timerStop id => Program.timerStop id
  | .schedYield => Program.schedYield
  | .yield => Program.yield
  | .nice prio => Program.nice prio
  | .sleep ms => Program.sleep cfg ms
  | .wait => Program.wait
  | .signal tp => Program.signal tp
  | .threadStart tp => Program.threadStart tp
  | .threadDestroy tp => Program.threadDestroy tp
  | .join tp => Program.join cfg tp
  | .kill => Program.kill cfg
  | .eventNotifyIrq qp => .assign (Cpu.eventNotifyIrq qp)
  | .rawEventNotify qp => Program.rawEventNotify qp
  | .eventNotify qp => Program.eventNotify qp
  | .rawEventWait qp ms => Program.rawEventWait cfg qp ms
  | .eventWait qp ms => Program.eventWait qp ms
  | .broadcastLoop qp flags => Program.broadcastLoop qp flags
  | .rawEventNotifyBroadcast qp => Program.rawEventNotifyBroadcast qp
  | .eventNotifyBroadcast qp => Program.eventNotifyBroadcast qp
  | .mutexLock mutex => Program.mutexLock cfg mutex
  | .mutexUnlock mutex => Program.mutexUnlock cfg mutex
  | .conditionWait cond => .call (.conditionWaitFor cond 0)
  | .conditionWaitFor cond ms => Program.conditionWaitFor cfg cond ms
  | .conditionSignal cond => .call (.eventNotify (cfg.condQp cond))
  | .conditionBcast cond => .call (.eventNotifyBroadcast (cfg.condQp cond))
  | .irqEnable => .assign fun s => { s with irqs := true }
  | .irqDisable => .assign fun s => { s with irqs := false }
  | .idleThreadFunc =>
      .block [Program.own fun th => { th with needResched := true }, .call .schedule]
  | .irq handler resched => Program.irq cfg handler resched

/-- The processor as a machine: its threads, their preemption counters and the functions. -/
def machine [Fintype T] (cfg : PreemptConfig T Q M C) : Machine (Cpu T Q M) (Fn T Q M C) T where
  current s := s.k.current
  counter := Cpu.preemptCnt
  add := Cpu.preemptAdd
  counter_add n s t := by
    rw [Cpu.preemptAdd, Cpu.own, Cpu.modify, Cpu.preemptCnt, Kernel.preemptCnt]
    split
    · rename_i ht
      subst ht
      rw [Kernel.modify_thr_self]
      rfl
    · rename_i ht
      rw [Kernel.modify_thr_of_ne _ _ _ ht, add_zero]
      rfl
  body := Fn.body cfg
  interrupt s
    | .irq _ _ => s.irqs
    | _ => false

end Etaos
