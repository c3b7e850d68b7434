import Etaos.Sched.Kernel

/-!
# Events and the scheduler

The functions of `event.c` and `core.c` that wake threads which wait for an event or sleep,
and the function `__schedule`, which runs the expired timers, signals the threads that were
notified from an interrupt, and switches to the next thread.
-/

set_option linter.unusedSectionVars false

namespace Etaos

namespace Kernel

variable {T Q : Type} [DecidableEq T] [DecidableEq Q] [Fintype T]

/-- One more wake-up of a thread is counted. -/
def countWake (k : Kernel T Q) (tp : T) : Kernel T Q :=
  { k with wakes := Function.update k.wakes tp (k.wakes tp + 1) }

/-- The wake-ups of a thread are counted anew. -/
def resetWakes (k : Kernel T Q) (tp : T) : Kernel T Q :=
  { k with wakes := Function.update k.wakes tp 0 }

/-! ### Waking threads -/

/-- The timer of a thread that is woken is stopped. -/
def stopTimer (k : Kernel T Q) (tp : T) : Kernel T Q :=
  match (k.thr tp).timer with
  | .timer id => k.timerStop id
  | _ => k

/-- The timer of a thread is no longer referred to. -/
def clearTimer (k : Kernel T Q) (tp : T) : Kernel T Q :=
  match (k.thr tp).timer with
  | .timer _ => k.modify tp fun th => { th with timer := .null }
  | _ => k

/-- A woken thread that is still current keeps running. -/
def keepRunning (k : Kernel T Q) (tp : T) : Kernel T Q :=
  k.modify tp fun th => { th with running := true, onRq := true, rq := true }

/-- The function `__raw_event_notify` on a queue whose head is the thread `tp`. -/
def rawEventNotify (cfg : Config Q) (k : Kernel T Q) (qp : Q) (tp : T) :
    Option (Kernel T Q) := do
  let k ← (k.rqRemoveWakeThread tp).queueRemoveThread qp tp
  let k := (k.signalIfEmpty qp).countWake tp
  let k := (k.stopTimer tp).clearTimer tp
  if k.current ≠ tp then
    (k.rqAddThread cfg tp).map fun k => k.reschedFor tp
  else
    some (k.keepRunning tp)

/-- The part of `event_tmo` for the thread `walker` that the timer belongs to. -/
def timeoutWaiter (cfg : Config Q) (k : Kernel T Q) (qp : Q) (walker : T) :
    Option (Kernel T Q) := do
  let k ← (k.rqRemoveWakeThread walker).queueRemoveThread qp walker
  let k := (k.signalIfEmpty qp).countWake walker
  let k := k.modify walker fun th => { th with timer := .signaled }
  (k.rawRqAddThread cfg walker).map fun k => k.reschedFor walker

/-- The timer handle `event_tmo`, for the timer at the address `id`. -/
def eventTmo (cfg : Config Q) (k : Kernel T Q) (id : Nat) (qp : Q) : Option (Kernel T Q) :=
  match k.links.head (.queue qp) with
  | .signaled => some k
  | .ptr walker =>
      (Links.skip k.links.next (fun tp => (k.thr tp).timer ≠ .timer id) (Fintype.card T)
        none walker).bind fun (_, walker) =>
          match walker with
          | none => some (k.modify k.current fun th => { th with needResched := true })
          | some walker => k.timeoutWaiter cfg qp walker

/-- The timer handle `sched_sleep_timeout`. -/
def schedSleepTimeout (cfg : Config Q) (k : Kernel T Q) (tp : T) : Option (Kernel T Q) :=
  (k.modify tp fun th => { th with sleeping := false, running := true }).rawRqAddThread cfg tp

/-- The call of a timer handle. -/
def callHandle (cfg : Config Q) (k : Kernel T Q) (timer : Timer T Q) :
    Option (Kernel T Q) :=
  match timer.handle with
  | .schedSleepTimeout tp => k.schedSleepTimeout cfg tp
  | .eventTmo qp => k.eventTmo cfg timer.id qp

/-- The loop of `timer_process` over the list of timers. -/
def timerLoop (cfg : Config Q) : List (Timer T Q) → Kernel T Q → Option (Kernel T Q)
  | [], k => some k
  | timer :: l, k =>
      if k.timerIsExpired timer then
        (callHandle cfg { k with timers := l } timer).bind (timerLoop cfg l)
      else
        some k

/-- The function `timer_process`. -/
def timerProcess (cfg : Config Q) (k : Kernel T Q) : Option (Kernel T Q) :=
  timerLoop cfg k.timers k

/-- The timers that `timer_process` calls. -/
def expiredTimers (k : Kernel T Q) : List (Timer T Q) :=
  k.timers.takeWhile k.timerIsExpired

/-- The wake-up of `rq_signal_event_queue` of the head `tp` of the thread queue `qp`. -/
def signalHead (cfg : Config Q) (k : Kernel T Q) (qp : Q) (tp : T) : Option (Kernel T Q) := do
  let k ← (k.rqRemoveWakeThread tp).queueRemoveThread qp tp
  let k := { k with irqWoken := Function.update k.irqWoken qp (k.irqWoken qp ++ [tp]) }
  let k := (k.signalIfEmpty qp).countWake tp
  let k := k.stopTimer tp
  if k.current ≠ tp then
    (k.rawRqAddThread cfg tp).map fun k => k.reschedFor tp
  else
    some (k.keepRunning tp)

/-- The function `rq_signal_event_queue`. -/
def rqSignalEventQueue (cfg : Config Q) (k : Kernel T Q) (tp : T) : Option (Kernel T Q) :=
  match k.links.queue tp with
  | some (.queue qp) =>
      match k.links.head (.queue qp) with
      | .ptr (some tp) => k.signalHead cfg qp tp
      | _ => none
  | _ => none

/-- The body of the loop of `rq_signal_threads`. -/
def signalThread (cfg : Config Q) (k : Kernel T Q) (iterator : T) : Option (Kernel T Q) :=
  if k.links.ec iterator = 0 then
    some k
  else
    match k.links.queue iterator with
    | none => none
    | some tpp =>
        let ec := Function.update k.links.ec iterator (k.links.ec iterator - 1)
        let k := { k with links := { k.links with ec } }
        match k.links.head tpp with
        | .signaled => some k
        | .ptr none => none
        | .ptr (some tp) => k.rqSignalEventQueue cfg tp

/-- The function `rq_signal_threads`. -/
def rqSignalThreads (cfg : Config Q) (k : Kernel T Q) : Option (Kernel T Q) :=
  k.wake.foldlM (signalThread cfg) k

/-! ### Switching threads -/

/-- The function `should_resched_cputime` without `CONFIG_SCHED_FAIR`. -/
def shouldReschedCputime (_tp _nxt : T) : Bool :=
  true

/-- The function `preempt_check`. -/
def preemptCheck (cfg : Config Q) (k : Kernel T Q) (cur nxt : T) : Kernel T Q :=
  if cfg.preempt && (k.prio nxt ≤ k.prio cur || shouldReschedCputime cur nxt) then
    k.modify cur fun th => { th with preemptNeedResched := true }
  else
    k

/-- The flags that `reschedule_decide` clears. -/
def clearResched (cfg : Config Q) (k : Kernel T Q) (cur : T) : Kernel T Q :=
  if cfg.preempt then
    k.modify cur fun th => { th with needResched := false, preemptNeedResched := false }
  else
    k.modify cur fun th => { th with needResched := false }

/-- The value of `reschedule_decide`. -/
def rescheduleDecide (cfg : Config Q) (k : Kernel T Q) (cur next : T) : Bool :=
  let resched := (k.thr cur).needResched
  let preempt := (k.thr cur).preemptNeedResched
  if cfg.preempt then
    if cur = next then
      false
    else if (k.thr next).idle && (preempt && !resched) then
      false
    else
      preempt || resched
  else
    resched

/-- The class function `dyn_prio_update`, for the threads of the run queue. -/
def dynPrioUpdate (k : Kernel T Q) (num : Nat) : Nat → Option T → Option (Kernel T Q)
  | _, none => some k
  | 0, some _ => none
  | n + 1, some walker =>
      let k :=
        if (k.thr walker).idle then
          k
        else
          k.modify walker fun th => { th with dprio := min (th.dprio + num) th.prio }
      k.dynPrioUpdate num n (k.links.next walker)

/-- The function `dyn_prio_update`. -/
def updateDynPrio (cfg : Config Q) (k : Kernel T Q) : Option (Kernel T Q) :=
  if cfg.dynPrio then
    match k.links.head .runQueue with
    | .signaled => none
    | .ptr walker => k.dynPrioUpdate 1 (Fintype.card T) walker
  else
    some k

/-- The function `dyn_prio_reset`. -/
def dynPrioReset (cfg : Config Q) (k : Kernel T Q) (tp : T) : Kernel T Q :=
  if cfg.dynPrio then
    k.modify tp fun th => { th with dprio := 0 }
  else
    k

/-- The function `__schedule_prepare`, without the time slices. -/
def schedulePrepare (cfg : Config Q) (k : Kernel T Q) (prev next : T) :
    Option (Kernel T Q) :=
  (k.updateDynPrio cfg).map fun k => (k.dynPrioReset cfg prev).dynPrioReset cfg next

/-- The part of `rq_switch_context` that puts the previous thread back. -/
def putPrev (cfg : Config Q) (k : Kernel T Q) (prev : T) : Option (Kernel T Q) :=
  if (k.thr prev).running then
    (k.modify prev fun th => { th with rq := true, onRq := true }).addThread cfg prev
  else
    some (k.modify prev fun th => { th with rq := false, onRq := false })

/-- The function `rq_switch_context`. -/
def rqSwitchContext (cfg : Config Q) (k : Kernel T Q) (prev new : T) :
    Option (Kernel T Q) :=
  (k.putPrev cfg prev).bind fun k => (k.rmThread new).map Prod.fst

/-- The part of `__schedule` behind the updates: the decision, and the switch. -/
def reschedule (cfg : Config Q) (k : Kernel T Q) (prev next : T) : Option (Kernel T Q) :=
  let k := k.preemptCheck cfg prev next
  let resched := k.rescheduleDecide cfg prev next
  let k := k.clearResched cfg prev
  if resched then
    ({ k with current := next }.schedulePrepare cfg prev next).bind fun k =>
      k.rqSwitchContext cfg prev next
  else
    some k

/-- The function `__schedule`, up to the release of the kill queue. -/
def schedulePass (cfg : Config Q) (k : Kernel T Q) : Option (Kernel T Q) := do
  let prev := k.current
  let k ← k.timerProcess cfg
  let k ← k.rqSignalThreads cfg
  let next ← k.schedGetNextRunnable
  k.reschedule cfg prev next

end Kernel

end Etaos
