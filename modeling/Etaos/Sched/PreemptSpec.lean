import Etaos.Sched.Preempt
import Etaos.Sched.System

/-!
# The balance of the preemption counters

Every function leaves the preemption counter of its caller as it was, but for `mutex_lock` and
`preempt_disable`, which raise it by one, and `mutex_unlock` and `preempt_enable`, which lower it
by one.  The functions of the kernel that are single statements do not touch the counters; for
the others the precondition of the program is computed.
-/

set_option linter.unusedSectionVars false

namespace Etaos

open Coroutine

variable {T Q M C : Type} [DecidableEq T] [DecidableEq Q] [DecidableEq M]

/-! ### The functions of the kernel -/

namespace Kernel

variable {k k' : Kernel T Q} {cfg : Config Q}

/-- The record of a thread changes, but not its counter. -/
@[simp]
theorem preemptCnt_modify (k : Kernel T Q) (tp : T) {f : Thread → Thread}
    (hf : ∀ th, (f th).preemptCnt = th.preemptCnt) :
  (k.modify tp f).preemptCnt = k.preemptCnt
  := by
  ext u
  by_cases hu : u = tp
  · subst hu
    rw [preemptCnt, modify_thr_self, hf]
    rfl
  · rw [preemptCnt, modify_thr_of_ne _ _ _ hu]
    rfl

@[simp]
theorem preemptCnt_setQhead (k : Kernel T Q) (qp : Q) (v : Qhead T) :
  (k.setQhead qp v).preemptCnt = k.preemptCnt
  := rfl

/-- The counters are not in the table of the timers. -/
@[simp]
theorem preemptCnt_timerStop (k : Kernel T Q) (id : Nat) :
  (k.timerStop id).preemptCnt = k.preemptCnt
  := rfl

@[simp]
theorem preemptCnt_timerCreate (k : Kernel T Q) (ms : Nat) (handle : Handle T Q) :
  (k.timerCreate cfg ms handle).preemptCnt = k.preemptCnt
  := rfl

/-- A thread leaves the wake queue. -/
@[simp]
theorem preemptCnt_rqRemoveWakeThread (k : Kernel T Q) (tp : T) :
  (k.rqRemoveWakeThread tp).preemptCnt = k.preemptCnt
  := rfl

variable [Fintype T]

/-- The wake-ups of a thread are counted apart from its record. -/
@[simp]
theorem preemptCnt_countWake (k : Kernel T Q) (tp : T) :
  (k.countWake tp).preemptCnt = k.preemptCnt
  := rfl

/-- The mark on a queue that the last thread has left is not in the record of a thread. -/
@[simp]
theorem preemptCnt_signalIfEmpty (k : Kernel T Q) (qp : Q) :
  (k.signalIfEmpty qp).preemptCnt = k.preemptCnt
  := by
  rw [signalIfEmpty]
  split <;> rfl

@[simp]
theorem preemptCnt_clearTimer (k : Kernel T Q) (tp : T) :
  (k.clearTimer tp).preemptCnt = k.preemptCnt
  := by
  rw [clearTimer]
  split <;> simp

/-- The current thread is asked to give way to one that is woken. -/
@[simp]
theorem preemptCnt_reschedFor (k : Kernel T Q) (tp : T) :
  (k.reschedFor tp).preemptCnt = k.preemptCnt
  := by
  rw [reschedFor]
  split <;> simp

/-- A thread that is woken before it has given up the processor goes on. -/
@[simp]
theorem preemptCnt_keepRunning (k : Kernel T Q) (tp : T) :
  (k.keepRunning tp).preemptCnt = k.preemptCnt
  := by
  simp [keepRunning]

/-- The flags for the preemption are not the counter. -/
@[simp]
theorem preemptCnt_preemptCheck (k : Kernel T Q) (cur nxt : T) :
  (k.preemptCheck cfg cur nxt).preemptCnt = k.preemptCnt
  := by
  rw [preemptCheck]
  split <;> simp

@[simp]
theorem preemptCnt_clearResched (k : Kernel T Q) (cur : T) :
  (k.clearResched cfg cur).preemptCnt = k.preemptCnt
  := by
  rw [clearResched]
  split <;> simp

/-- The dynamic priority of a thread is reset. -/
@[simp]
theorem preemptCnt_dynPrioReset (k : Kernel T Q) (tp : T) :
  (k.dynPrioReset cfg tp).preemptCnt = k.preemptCnt
  := by
  rw [dynPrioReset]
  split <;> simp

/-- A function of the kernel that leaves the counters alone. -/
def KeepsCnt (f : Kernel T Q → Option (Kernel T Q)) : Prop :=
  ∀ k k', f k = some k' → k'.preemptCnt = k.preemptCnt

namespace KeepsCnt

/-- A function that always returns. -/
@[simp]
theorem some_iff {f : Kernel T Q → Kernel T Q} :
  KeepsCnt (fun k => some (f k)) ↔ ∀ k, (f k).preemptCnt = k.preemptCnt
  := by
  simp [KeepsCnt]

/-- Two functions one after the other. -/
theorem bind {f g : Kernel T Q → Option (Kernel T Q)} (hf : KeepsCnt f) (hg : KeepsCnt g) :
  KeepsCnt fun k => (f k).bind g
  := by
  intro k k' hk
  obtain ⟨k₁, hk₁, hk'⟩ := Option.bind_eq_some_iff.mp hk
  exact (hg _ _ hk').trans (hf _ _ hk₁)

/-- A function and a change that cannot fail behind it. -/
theorem map {f : Kernel T Q → Option (Kernel T Q)} {g : Kernel T Q → Kernel T Q}
    (hf : KeepsCnt f) (hg : ∀ k, (g k).preemptCnt = k.preemptCnt) :
  KeepsCnt fun k => (f k).map g
  := by
  intro k k' hk
  obtain ⟨k₁, hk₁, rfl⟩ := Option.map_eq_some_iff.mp hk
  exact (hg k₁).trans (hf _ _ hk₁)

/-- A function that only changes links. -/
@[simp]
theorem links (f : Kernel T Q → Option (Links T (Root Q))) :
  KeepsCnt fun k => (f k).map fun links => { k with links }
  := by
  intro k k' hk
  obtain ⟨links, -, rfl⟩ := Option.map_eq_some_iff.mp hk
  rfl

/-- The class of the run queue writes links only. -/
@[simp]
theorem addThread (tp : T) : KeepsCnt fun k : Kernel T Q => k.addThread cfg tp := by
  intro k k' hk
  obtain ⟨links, -, rfl⟩ := Option.map_eq_some_iff.mp hk
  rfl

/-- A thread leaves a thread queue. -/
@[simp]
theorem queueRemoveThread (qp : Q) (tp : T) :
  KeepsCnt fun k : Kernel T Q => k.queueRemoveThread qp tp
  := by
  intro k k' hk
  obtain ⟨⟨links, rc⟩, -, rfl⟩ := Option.map_eq_some_iff.mp hk
  rfl

/-- The thread that is added keeps its counter: it may have been switched out with preemption
disabled. -/
@[simp]
theorem rawRqAddThread (tp : T) : KeepsCnt fun k : Kernel T Q => k.rawRqAddThread cfg tp := by
  apply (addThread tp).map
  simp

@[simp]
theorem rqAddThreadLocked (tp : T) :
  KeepsCnt fun k : Kernel T Q => k.rqAddThreadLocked cfg tp
  := by
  apply (addThread tp).map
  simp

/-- The class function `rm_thread` with its error code. -/
theorem rmThread {tp : T} {rc : Int} (hk : k.rmThread tp = some (k', rc)) :
  k'.preemptCnt = k.preemptCnt
  := by
  obtain ⟨⟨links, rc'⟩, -, hk⟩ := Option.map_eq_some_iff.mp hk
  dsimp only at hk
  split at hk <;> obtain ⟨rfl, -⟩ := Prod.mk.inj hk <;> rfl

/-- The function `raw_rq_remove_thread_noresched` with its error code. -/
theorem rawRqRemoveThreadNoresched {tp : T} {err : Int}
    (hk : k.rawRqRemoveThreadNoresched tp = some (k', err)) :
  k'.preemptCnt = k.preemptCnt
  := by
  rw [Kernel.rawRqRemoveThreadNoresched] at hk
  split at hk
  · obtain ⟨rfl, -⟩ := Prod.mk.inj (Option.some.inj hk)
    rfl
  · split at hk
    · obtain ⟨rfl, -⟩ := Prod.mk.inj (Option.some.inj hk)
      simp
    · obtain ⟨⟨k₁, rc⟩, hk₁, hk⟩ := Option.map_eq_some_iff.mp hk
      obtain ⟨rfl, -⟩ := Prod.mk.inj hk
      simp [rmThread hk₁]

/-- A thread is removed from the run queue, and the error code is dropped. -/
@[simp]
theorem rawRqRemoveThreadNoresched_fst (tp : T) :
  KeepsCnt fun k : Kernel T Q => (k.rawRqRemoveThreadNoresched tp).map Prod.fst
  := by
  intro k k' hk
  obtain ⟨⟨k₁, err⟩, hk₁, rfl⟩ := Option.map_eq_some_iff.mp hk
  exact rawRqRemoveThreadNoresched hk₁

/-- The handle of a timer leaves the counters alone. -/
theorem callHandle (timer : Timer T Q) :
  KeepsCnt fun k : Kernel T Q => k.callHandle cfg timer
  := by
  intro k k' hk
  simp only [Kernel.callHandle] at hk
  split at hk
  · rename_i tp _
    rw [Kernel.schedSleepTimeout] at hk
    simpa using rawRqAddThread tp _ _ hk
  · rw [Kernel.eventTmo] at hk
    split at hk
    · obtain rfl := Option.some.inj hk
      rfl
    · obtain ⟨⟨_, walker⟩, -, hk⟩ := Option.bind_eq_some_iff.mp hk
      dsimp only at hk
      split at hk
      · obtain rfl := Option.some.inj hk
        simp
      · simp only [timeoutWaiter, Option.bind_eq_bind, Option.bind_eq_some_iff] at hk
        obtain ⟨k₁, hk₁, hk⟩ := hk
        obtain ⟨k₂, hk₂, rfl⟩ := Option.map_eq_some_iff.mp hk
        have hremove := queueRemoveThread _ _ _ _ hk₁
        have hadd := rawRqAddThread _ _ _ hk₂
        simp_all

/-- The function `timer_process`: every handle leaves the counters alone. -/
@[simp]
theorem timerProcess : KeepsCnt fun k : Kernel T Q => k.timerProcess cfg := by
  have hloop (l : List (Timer T Q)) : KeepsCnt (timerLoop cfg l) := by
    induction l with
    | nil => simp [KeepsCnt, timerLoop]
    | cons timer l ih =>
        intro k k' hk
        rw [timerLoop] at hk
        split at hk
        · obtain ⟨k₁, hk₁, hk⟩ := Option.bind_eq_some_iff.mp hk
          exact (ih _ _ hk).trans (callHandle timer { k with timers := l } _ hk₁)
        · obtain rfl := Option.some.inj hk
          rfl
  intro k
  apply hloop

/-- The function `dyn_prio_update`: by induction on the fuel of the walk. -/
theorem updateDynPrio : KeepsCnt fun k : Kernel T Q => k.updateDynPrio cfg := by
  have hwalk (num n : Nat) (k k' : Kernel T Q) (walker : Option T)
      (hk : k.dynPrioUpdate num n walker = some k') : k'.preemptCnt = k.preemptCnt := by
    induction n generalizing k walker with
    | zero =>
        cases walker with
        | none => simp_all [dynPrioUpdate]
        | some walker => simp [dynPrioUpdate] at hk
    | succ n ih =>
        cases walker with
        | none => simp_all [dynPrioUpdate]
        | some walker =>
            rw [dynPrioUpdate] at hk
            rw [ih _ _ hk]
            split <;> simp
  intro k k' hk
  simp only [Kernel.updateDynPrio] at hk
  split at hk
  · split at hk
    · cases hk
    · apply hwalk _ _ _ _ _ hk
  · obtain rfl := Option.some.inj hk
    rfl

/-- The functions `__schedule_prepare` and `rq_switch_context`. -/
theorem switch (prev next : T) :
  KeepsCnt fun k : Kernel T Q => (k.schedulePrepare cfg prev next).bind fun k =>
    k.rqSwitchContext cfg prev next
  := by
  apply bind
  · apply updateDynPrio.map
    simp
  · intro k k' hk
    obtain ⟨k₁, hk₁, hk⟩ := Option.bind_eq_some_iff.mp hk
    obtain ⟨⟨k₂, rc⟩, hk₂, rfl⟩ := Option.map_eq_some_iff.mp hk
    rw [rmThread hk₂]
    rw [putPrev] at hk₁
    split at hk₁
    · rw [addThread prev _ _ hk₁]
      simp
    · obtain rfl := Option.some.inj hk₁
      simp

end KeepsCnt

end Kernel

/-! ### The statements -/

namespace Cpu

@[simp]
theorem preemptCnt_modify (s : Cpu T Q M) (tp : T) {f : Thread → Thread}
    (hf : ∀ th, (f th).preemptCnt = th.preemptCnt) :
  (s.modify tp f).preemptCnt = s.preemptCnt
  := s.k.preemptCnt_modify tp hf

/-- A change of the other fields. -/
@[simp]
theorem preemptCnt_mk {k : Kernel T Q} {irqExec irqs : Bool} {irqState cpuState fresh : T → Bool}
    {exit remoteKill : T → Bool} {killHead : List T} {count : M → Int} {owner : M → Option T}
    {rv : T → Int} :
  (Cpu.mk k irqExec irqs irqState cpuState fresh exit remoteKill killHead count owner rv).preemptCnt
    = k.preemptCnt
  := rfl

/-- The counters of the processor are those of its scheduler. -/
@[simp]
theorem preemptCnt_k (s : Cpu T Q M) : s.k.preemptCnt = s.preemptCnt := rfl

@[simp]
theorem preemptCnt_setQhead (s : Cpu T Q M) (qp : Q) (v : Qhead T) :
  (s.setQhead qp v).preemptCnt = s.preemptCnt
  := rfl

@[simp]
theorem preemptCnt_setRv (s : Cpu T Q M) (v : Int) : (s.setRv v).preemptCnt = s.preemptCnt := rfl

/-- Whether interrupts are enabled is not part of the counter. -/
@[simp]
theorem preemptCnt_irqRestore (s : Cpu T Q M) (flags : Bool) :
  (s.irqRestore flags).preemptCnt = s.preemptCnt
  := rfl

@[simp]
theorem preemptCnt_rqAddKillThread (s : Cpu T Q M) (new : T) :
  (s.rqAddKillThread new).preemptCnt = s.preemptCnt
  := s.preemptCnt_modify new (f := fun th => { th with rq := true }) fun _ => rfl

/-- A thread that is to be killed keeps its counter. -/
@[simp]
theorem preemptCnt_setExit (s : Cpu T Q M) (tp : T) :
  (s.setExit tp).preemptCnt = s.preemptCnt
  := by
  apply s.preemptCnt_modify tp (f := fun th => { th with needResched := true, running := false })
  simp

/-- The function `event_notify_irq` takes no lock. -/
@[simp]
theorem preemptCnt_eventNotifyIrq (s : Cpu T Q M) (qp : Q) :
  (s.eventNotifyIrq qp).preemptCnt = s.preemptCnt
  := by
  rw [eventNotifyIrq]
  split <;> rfl

/-- The result of `raw_event_wait` is computed when its lock has been released. -/
@[simp]
theorem preemptCnt_waitResult (s : Cpu T Q M) : s.waitResult.preemptCnt = s.preemptCnt := by
  rw [waitResult]
  split <;> simp [own]

/-- The thread that is switched to takes over its interrupt state. -/
@[simp]
theorem preemptCnt_rqUpdate (s : Cpu T Q M) : s.rqUpdate.preemptCnt = s.preemptCnt := rfl

variable [Fintype T]

/-- The request of `sched_yield` is a flag. -/
@[simp]
theorem preemptCnt_yieldTo (s : Cpu T Q M) (next : T) :
  (s.yieldTo next).preemptCnt = s.preemptCnt
  := by
  rw [yieldTo]
  split <;> simp [own]

end Cpu

/-! ### The programs -/

variable [Fintype T] {cfg : PreemptConfig T Q M C} {bounded : Prop} {post : ℤ → Prop} {v : ℤ}

attribute [simp] Fn.effect

/-- The counters of the machine are the preemption counters. -/
@[simp]
theorem machine_counter : (machine cfg).counter = Cpu.preemptCnt := rfl

/-- The functions of the machine have the bodies of the model. -/
@[simp]
theorem machine_body (f : Fn T Q M C) : (machine cfg).body f = f.body cfg := rfl

namespace Cpu

/-- The head of a queue is read. -/
@[simp]
theorem keeps_qhead (qp : Q) : (machine cfg).Keeps (qhead qp) := by
  intro s s' tp hs
  rw [qhead] at hs
  split at hs
  · obtain ⟨rfl, -⟩ := Prod.mk.inj (Option.some.inj hs)
    rfl
  · cases hs

/-- The flag that `signal` tests is cleared. -/
@[simp]
theorem keeps_testAndClearWaiting (tp : T) : (machine cfg).Keeps (testAndClearWaiting tp) := by
  intro s s' waiting hs
  obtain ⟨rfl, -⟩ := Prod.mk.inj (Option.some.inj hs)
  simp

/-- The decision to reschedule clears flags. -/
@[simp]
theorem keeps_rescheduleDecide (cur next : T) :
  (machine cfg).Keeps (rescheduleDecide cfg.sched cur next)
  := by
  intro s s' resched hs
  obtain ⟨rfl, -⟩ := Prod.mk.inj (Option.some.inj hs)
  simp

/-- The next runnable thread is looked up. -/
@[simp]
theorem keeps_schedGetNextRunnable : (machine cfg).Keeps schedGetNextRunnable := by
  intro s s' next hs
  obtain ⟨_, -, hs⟩ := Option.map_eq_some_iff.mp hs
  obtain ⟨rfl, -⟩ := Prod.mk.inj hs
  rfl

@[simp]
theorem keeps_rawRqRemoveThreadNoresched (tp : T) :
  (machine cfg).Keeps (rawRqRemoveThreadNoresched tp)
  := by
  intro s s' err hs
  obtain ⟨⟨k, err'⟩, hk, hs⟩ := Option.map_eq_some_iff.mp hs
  obtain ⟨rfl, -⟩ := Prod.mk.inj hs
  exact Kernel.KeepsCnt.rawRqRemoveThreadNoresched hk

/-- An event of a thread on the wake queue is taken. -/
@[simp]
theorem keeps_takeEvent (iterator : T) : (machine cfg).Keeps (takeEvent iterator) := by
  intro s s' woken hs
  simp only [takeEvent] at hs
  split at hs
  · cases hs
    rfl
  · split at hs
    · cases hs
    · split at hs
      · cases hs
        rfl
      · cases hs
      · split at hs
        · split at hs
          · cases hs
            rfl
          · cases hs
        · cases hs

/-- The test of the owner of a mutex. -/
@[simp]
theorem steady_checkOwner (mutex : M) (tp : T) : (machine cfg).Steady (checkOwner mutex tp) := by
  intro s s' hs
  rw [checkOwner] at hs
  split at hs
  · obtain rfl := Option.some.inj hs
    rfl
  · cases hs

/-- A thread starts its timer. -/
@[simp]
theorem steady_startTimer (qp : Q) (tp : T) (ms : Nat) :
  (machine cfg).Steady (startTimer cfg.sched qp tp ms)
  := by
  intro s s' hs
  rw [startTimer] at hs
  split at hs
  · split at hs
    · obtain rfl := Option.some.inj hs
      simp
    · obtain rfl := Option.some.inj hs
      simp
  · cases hs

/-- A thread sets up its sleep. -/
@[simp]
theorem steady_schedSetupSleepThread (ms : Nat) :
  (machine cfg).Steady (schedSetupSleepThread cfg.sched ms)
  := by
  intro s s' hs
  rw [schedSetupSleepThread] at hs
  split at hs
  · obtain rfl := Option.some.inj hs
    simp [own]
  · cases hs

/-- A switch gives the processor to another thread, and leaves both counters as they are. -/
@[simp]
theorem steady_switchContext (flags : Bool) (prev next : T) :
  (machine cfg).Steady (switchContext cfg.sched flags prev next)
  := by
  intro s s' hs
  obtain ⟨k, hk, rfl⟩ := Option.map_eq_some_iff.mp hs
  exact Kernel.KeepsCnt.switch prev next { s.k with current := next } k hk

end Cpu

namespace Program

/-- The rule for a function of the kernel that keeps the counters. -/
@[simp]
theorem wp_kernel {f : Kernel T Q → Option (Kernel T Q)} (hf : Kernel.KeepsCnt f) :
  (kernel f).wp (machine cfg) Fn.effect bounded post v ↔ post v
  := by
  have hsteady : (machine cfg).Steady fun s => (f s.k).map fun k => { s with k } := by
    intro s s' hs
    obtain ⟨k, hk, rfl⟩ := Option.map_eq_some_iff.mp hs
    exact hf _ _ hk
  simp [kernel, hsteady]

/-- The rule for a change of the thread's own record. -/
@[simp]
theorem wp_own {f : Thread → Thread} (hf : ∀ th, (f th).preemptCnt = th.preemptCnt) :
  (own f).wp (machine cfg) Fn.effect bounded post v ↔ post v
  := by
  simp [own, Cpu.own, hf]

/-- The rule for interrupts that are disabled: the rest is right for any flags. -/
@[simp]
theorem wp_irqSaveAndDisable {rest : Bool → Code T Q M C} :
  (irqSaveAndDisable rest).wp (machine cfg) Fn.effect bounded post v
    ↔ ∀ flags, (rest flags).wp (machine cfg) Fn.effect bounded post v
  := by
  have hkeeps : (machine cfg).Keeps fun s => some ({ s with irqs := false }, s.irqs) := by
    intro s s' flags hs
    obtain ⟨rfl, -⟩ := Prod.mk.inj (Option.some.inj hs)
    rfl
  simp [irqSaveAndDisable, hkeeps]

@[simp]
theorem wp_irqRestore {flags : Bool} :
  (irqRestore flags).wp (machine cfg) Fn.effect bounded post v ↔ post v
  := by
  simp [irqRestore]

/-- The rule for a spin lock that is taken with preemption disabled. -/
@[simp]
theorem wp_rawSpinLockIrq {p : Code T Q M C} :
  (rawSpinLockIrq p).wp (machine cfg) Fn.effect bounded post v
    ↔ p.wp (machine cfg) Fn.effect bounded post v
  := by
  have hpost (flags : Bool) :
      (irqRestore flags).wp (machine cfg) Fn.effect bounded post = post := by
    ext u
    simp
  simp [rawSpinLockIrq, hpost]

/-- The rule for a spin lock: the counter is raised by one within it. -/
@[simp]
theorem wp_rawSpinLockIrqsave {p : Code T Q M C} :
  (rawSpinLockIrqsave p).wp (machine cfg) Fn.effect bounded post v
    ↔ Low bounded (v + 1) ∧ p.wp (machine cfg) Fn.effect bounded
      (fun u => Low bounded (u - 1) ∧ post (u - 1)) (v + 1)
  := by
  have hpost : (Cmd.block [.call .preemptEnableNoResched]).wp (machine cfg) Fn.effect bounded
      post = fun u => Low bounded (u - 1) ∧ post (u - 1) := by
    ext u
    simp [sub_eq_add_neg]
  rw [rawSpinLockIrqsave, Cmd.wp_block_cons, Cmd.wp_call, Cmd.wp_block_cons, wp_rawSpinLockIrq,
    hpost]
  exact Iff.rfl

/-- A program raises the counter of its thread by `n`. -/
def Raises (cfg : PreemptConfig T Q M C) (bounded : Prop) (n : ℤ) (p : Code T Q M C) : Prop :=
  ∀ v, Low bounded v → Low bounded (v + n) →
    p.wp (machine cfg) Fn.effect bounded (· = v + n) v

namespace Raises

variable {n : ℤ} {qp : Q} {tp : T}

/-- The rule for a program that is followed by others. -/
theorem wp {p : Code T Q M C} (hp : Raises cfg bounded n p) (h : Low bounded v)
    (h' : Low bounded (v + n)) (hpost : post (v + n)) :
  p.wp (machine cfg) Fn.effect bounded post v
  := by
  apply (hp v h h').mono
  rintro u rfl
  exact hpost

/-- The rule for a program that leaves the counter as it was. -/
theorem keep {p : Code T Q M C} (hp : Raises cfg bounded 0 p) (h : Low bounded v)
    (hpost : post v) :
  p.wp (machine cfg) Fn.effect bounded post v
  := by
  apply hp.wp h
  · simpa using h
  · simpa using hpost

/-- The events that enter and leave the scheduler raise and lower the counter. -/
theorem cpuNotify (state : CpuEvent) :
  Raises cfg bounded (Fn.cpuNotify (T := T) (Q := Q) (M := M) (C := C) state).effect
    (Program.cpuNotify state)
  := by
  intro v h h'
  cases state with
  | irqEnter => simp [Program.cpuNotify]
  | irqExit => simp [Program.cpuNotify]
  | schedEnter => simpa [Program.cpuNotify] using h'
  | schedExit => simpa [Program.cpuNotify] using h'

/-! #### The scheduler -/

/-- The counter is lowered before `preempt_schedule` looks at it. -/
theorem preemptEnable : Raises cfg bounded (-1) Program.preemptEnable := by
  intro v h h'
  simpa [Program.preemptEnable] using h'

/-- The loop keeps the counter in each turn. -/
theorem schedule : Raises cfg bounded 0 Program.schedule := by
  intro v h h'
  simpa [Program.schedule] using h

theorem preemptSchedule : Raises cfg bounded 0 Program.preemptSchedule := by
  intro v h h'
  simpa [Program.preemptSchedule] using h

/-- Nothing is done when the counter is not zero. -/
theorem preemptScheduleIrq : Raises cfg bounded 0 Program.preemptScheduleIrq := by
  intro v h h'
  simpa [Program.preemptScheduleIrq, Program.schedule] using h

theorem rqDestroyKillQ : Raises cfg bounded 0 Program.rqDestroyKillQ := by
  intro v h h'
  simp [Program.rqDestroyKillQ]

theorem threadAddToKillQ : Raises cfg bounded 0 (Program.threadAddToKillQ tp) := by
  intro v h h'
  simp [Program.threadAddToKillQ, h]

/-- Only builds with `CONFIG_EXTENDED_THREAD` have the queue of the threads that join. -/
theorem notifyJoinq : Raises cfg bounded 0 (Program.notifyJoinq cfg tp) := by
  intro v h h'
  rw [Program.notifyJoinq]
  split
  · simpa using h
  · simp

theorem schedRemoteKillIf : Raises cfg bounded 0 (Program.schedRemoteKillIf cfg) := by
  intro v h h'
  simpa [Program.schedRemoteKillIf] using fun tp => notifyJoinq v h h'

theorem schedMarkRemoteKill : Raises cfg bounded 0 (Program.schedMarkRemoteKill cfg tp) := by
  intro v h h'
  have hkill : (Cmd.block [Program.threadAddToKillQ tp]).wp (machine cfg) Fn.effect bounded
      (· = v) v := threadAddToKillQ.keep h rfl
  simpa [Program.schedMarkRemoteKill] using notifyJoinq.keep h hkill

theorem timerStop (id : Nat) : Raises cfg bounded 0 (Program.timerStop id) := by
  intro v h h'
  simp [Program.timerStop, h]

/-- Only a timer that is running is stopped. -/
theorem stopTimer : Raises cfg bounded 0 (Program.stopTimer tp) := by
  intro v h h'
  simp only [Program.stopTimer, Cmd.wp_read]
  rintro (_ | _ | id) <;> simp [h]

/-- A thread is woken from a thread queue on behalf of an interrupt. -/
theorem rqSignalEventQueue : Raises cfg bounded 0 (Program.rqSignalEventQueue cfg qp tp) := by
  intro v h h'
  simp only [Program.rqSignalEventQueue, add_zero, Cmd.wp_block_cons, Kernel.KeepsCnt.some_iff,
    Kernel.preemptCnt_rqRemoveWakeThread, implies_true, wp_kernel,
    Kernel.KeepsCnt.queueRemoveThread, Kernel.preemptCnt_signalIfEmpty]
  apply stopTimer.keep h
  simp

/-- A turn of the loop of `rq_signal_threads`. -/
theorem signalThread (iterator : T) :
  Raises cfg bounded 0 (Program.signalThread cfg iterator)
  := by
  intro v h h'
  use Cpu.keeps_takeEvent iterator
  rintro (_ | ⟨qp, tp⟩)
  · simp
  · exact rqSignalEventQueue v h h'

/-- The loop over the wake queue keeps the counter, whatever threads are on it. -/
theorem rqSignalThreads : Raises cfg bounded 0 (Program.rqSignalThreads cfg) := by
  intro v h h'
  rw [Program.rqSignalThreads, Cmd.wp_read]
  intro wake
  apply Cmd.wp_block_map
  · intro iterator
    exact (signalThread iterator).keep h rfl
  · simp

/-- The switch itself does not change the counter of the thread that is switched out. -/
theorem reschedule {flags : Bool} {prev next : T} :
  Raises cfg bounded 0 (Program.reschedule cfg flags prev next)
  := by
  intro v h h'
  simp [Program.reschedule]

/-- The function `__schedule`: the thread that is switched to lowers its own counter. -/
theorem schedulePass : Raises cfg bounded 0 (Program.schedulePass cfg) := by
  intro v h h'
  simp only [Program.schedulePass, add_zero, Cmd.wp_block_cons, Cmd.wp_call, Fn.effect, h,
    Low.succ, wp_irqSaveAndDisable, Cmd.wp_read, wp_rawSpinLockIrqsave,
    Kernel.KeepsCnt.timerProcess, wp_kernel, add_sub_cancel_right, true_and]
  intro flags prev
  apply rqSignalThreads.keep h.succ
  use Cpu.keeps_schedGetNextRunnable
  intro next
  apply reschedule.keep h.succ
  simp [h]

/-! #### The run queue and the thread queues -/

/-- A thread that removes itself is rescheduled. -/
theorem rawRqRemoveThread : Raises cfg bounded 0 (Program.rawRqRemoveThread tp) := by
  intro v h h'
  use Cpu.keeps_rawRqRemoveThreadNoresched tp
  intro err
  dsimp only
  split
  · simpa using h
  · simp

theorem rqRemoveThread : Raises cfg bounded 0 (Program.rqRemoveThread tp) := by
  intro v h h'
  simp [Program.rqRemoveThread, h]

/-- A thread that is running is removed before it is added again. -/
theorem rqAddThread : Raises cfg bounded 0 (Program.rqAddThread cfg tp) := by
  intro v h h'
  simp [Program.rqAddThread, h]

/-- The second lock is nested within the first one. -/
theorem queueAddThread : Raises cfg bounded 0 (Program.queueAddThread cfg qp tp) := by
  intro v h h'
  simp [Program.queueAddThread, h]

theorem queueRemoveThread : Raises cfg bounded 0 (Program.queueRemoveThread qp tp) := by
  intro v h h'
  simp [Program.queueRemoveThread, h]

/-- The function has its own pair of calls around the lock. -/
theorem rqRemoveWakeThread : Raises cfg bounded 0 (Program.rqRemoveWakeThread tp) := by
  intro v h h'
  simp [Program.rqRemoveWakeThread, h]

theorem threadAddToWakeQ : Raises cfg bounded 0 (Program.threadAddToWakeQ tp) := by
  intro v h h'
  have hkeeps (k : Kernel T Q) :
      ({ k with wake := tp :: k.wake } : Kernel T Q).preemptCnt = k.preemptCnt := rfl
  simp [Program.threadAddToWakeQ, h, hkeeps]

/-! #### The threads -/

theorem schedYield : Raises cfg bounded 0 Program.schedYield := by
  intro v h h'
  simp [Program.schedYield, h]

/-- The functions of the threads that give up the processor get back the counter with which they
have given it up. -/
theorem yield : Raises cfg bounded 0 Program.yield := by
  intro v h h'
  simp [Program.yield, h]

theorem nice (prio : Nat) : Raises cfg bounded 0 (Program.nice prio) := by
  intro v h h'
  simp [Program.nice, h]

/-- The two locks are released before the thread gives up the processor. -/
theorem sleep (ms : Nat) : Raises cfg bounded 0 (Program.sleep cfg ms) := by
  intro v h h'
  simp [Program.sleep, h]

theorem wait : Raises cfg bounded 0 Program.wait := by
  intro v h h'
  simp [Program.wait, h]

/-- Nothing is done for a thread that does not wait. -/
theorem signal : Raises cfg bounded 0 (Program.signal tp) := by
  intro v h h'
  use Cpu.keeps_testAndClearWaiting tp
  rintro (_ | _)
  · simp
  · simp [h]

/-- A thread is started with preemption disabled. -/
theorem threadStart : Raises cfg bounded 0 (Program.threadStart tp) := by
  intro v h h'
  simp [Program.threadStart, h]

theorem threadDestroy : Raises cfg bounded 0 (Program.threadDestroy tp) := by
  intro v h h'
  simp [Program.threadDestroy, h]

theorem join : Raises cfg bounded 0 (Program.join cfg tp) := by
  intro v h h'
  simp [Program.join, h]

/-- A thread that kills itself does not return from `schedule`, and so keeps what it has promised.
-/
theorem kill : Raises cfg bounded 0 (Program.kill cfg) := by
  intro v h h'
  simp only [Program.kill, add_zero, Cmd.wp_read, Cmd.wp_block_cons, Cmd.wp_assign,
    machine_counter, Cpu.preemptCnt_setExit, implies_true, true_and]
  intro tp
  apply notifyJoinq.keep h
  simp [h]

/-! #### The event queues -/

/-- The callers of `__raw_event_notify` have disabled preemption. -/
theorem rawEventNotify : Raises cfg bounded 0 (Program.rawEventNotify qp) := by
  intro v h h'
  rw [Program.rawEventNotify, wp_irqSaveAndDisable]
  intro flags
  use Cpu.keeps_qhead qp
  intro tp
  simp only [add_zero, Cmd.wp_block_cons, Cmd.wp_call, Fn.effect, h, Kernel.KeepsCnt.some_iff,
    Kernel.preemptCnt_signalIfEmpty, implies_true, wp_kernel, true_and]
  apply stopTimer.keep h
  simp [h]

/-- When `CPU_IRQ_EXEC_FLAG` is set the counter is not touched; else preemption is disabled for each
kind of head. -/
theorem eventNotify : Raises cfg bounded 0 (Program.eventNotify qp) := by
  intro v h h'
  simp only [Program.eventNotify, add_zero, Cmd.wp_ite, Cmd.wp_call, Fn.effect, h, and_self,
    Cmd.wp_read, Cmd.wp_block_cons, Low.succ, true_and]
  rintro (_ | _ | _) <;> simp [h]

/-- The lock that discards an earlier event is released before `raw_event_wait` takes its own. -/
theorem eventWait (ms : Nat) : Raises cfg bounded 0 (Program.eventWait qp ms) := by
  intro v h h'
  simp [Program.eventWait, h]

/-- The part that gives up the processor lowers the counter that `raw_event_wait` has raised. -/
theorem blockOn (ms : Nat) : Raises cfg bounded (-1) (Program.blockOn cfg qp ms) := by
  intro v h h'
  rw [Program.blockOn, Cmd.wp_read]
  intro tp
  split <;> simpa [h] using h'

/-- Both branches lower the counter that is raised first, one of them with `preempt_enable`. -/
theorem rawEventWait (ms : Nat) : Raises cfg bounded 0 (Program.rawEventWait cfg qp ms) := by
  intro v h h'
  simp only [Program.rawEventWait, add_zero, Cmd.wp_block_cons, Cmd.wp_call, Fn.effect, h,
    Low.succ, Cmd.wp_block_nil, wp_irqSaveAndDisable, Cmd.wp_ite, Cmd.wp_assign, machine_counter,
    Cpu.preemptCnt_setQhead, implies_true, wp_irqRestore, Int.reduceNeg, add_neg_cancel_right,
    Cpu.preemptCnt_setRv, and_self, true_and, forall_const]
  apply (blockOn ms).wp h.succ
  · simpa using h
  · simp

/-- A turn of the loop keeps the counter, and the turns behind it do by the effect of the call. -/
theorem broadcastLoop (flags : Bool) : Raises cfg bounded 0 (Program.broadcastLoop qp flags) := by
  intro v h h'
  simp [Program.broadcastLoop, h]

/-- The loop runs with preemption disabled, and each `event_notify` in it disables it once more. -/
theorem rawEventNotifyBroadcast :
  Raises cfg bounded 0 (Program.rawEventNotifyBroadcast qp)
  := by
  intro v h h'
  simp only [Program.rawEventNotifyBroadcast, add_zero, Cmd.wp_block_cons, Cmd.wp_call, Fn.effect,
    h, Low.succ, wp_irqSaveAndDisable, Cmd.wp_read, true_and]
  rintro flags (_ | _ | _) <;> simp [h]

theorem eventNotifyBroadcast : Raises cfg bounded 0 (Program.eventNotifyBroadcast qp) := by
  intro v h h'
  simp [Program.eventNotifyBroadcast, h]

/-! #### The mutexes and the condition variables -/

/-- The counter that `mutex_lock` has raised stays raised; the loop in between keeps it. -/
theorem mutexLock (mutex : M) : Raises cfg bounded 1 (Program.mutexLock cfg mutex) := by
  intro v h h'
  simp [Program.mutexLock, h]

/-- The notification of the first waiter keeps the counter, and the last statement lowers it. -/
theorem mutexUnlock (mutex : M) : Raises cfg bounded (-1) (Program.mutexUnlock cfg mutex) := by
  intro v h h'
  simp [Program.mutexUnlock, h, h']

/-- The pair of calls around the wait makes up for the mutex that is unlocked and locked. -/
theorem conditionWaitFor (cond : C) (ms : Nat) :
  Raises cfg bounded 0 (Program.conditionWaitFor cfg cond ms)
  := by
  intro v h h'
  simp [Program.conditionWaitFor, h]

/-! #### The interrupts -/

/-- A thread is put on the run queue by an interrupt. -/
theorem irqThreadSignal : Raises cfg bounded 0 (Program.irqThreadSignal cfg tp) := by
  intro v h h'
  simp [Program.irqThreadSignal]

/-- An interrupt finds the counter of the thread that it interrupts, and may give the processor away
when the time slice is over. -/
theorem irqHandler (handler : IrqHandler T Q) :
  Raises cfg bounded 0 (Program.irqHandler cfg handler)
  := by
  intro v h h'
  cases handler with
  | device => simp [Program.irqHandler]
  | tick slice =>
      have htick (k : Kernel T Q) :
          ({ k with tick := k.tick + 1 } : Kernel T Q).preemptCnt = k.preemptCnt := rfl
      cases slice with
      | false => simp [Program.irqHandler, htick]
      | true => simp [Program.irqHandler, htick, h]
  | eventNotify qp => simp [Program.irqHandler, h]
  | irqThreadSignal tp => exact irqThreadSignal v h h'

/-- The vector leaves the counter as it was, also when it calls `preempt_schedule_irq`. -/
theorem irq (handler : IrqHandler T Q) (resched : Bool) :
  Raises cfg bounded 0 (Program.irq cfg handler resched)
  := by
  intro v h h'
  simp only [Program.irq, add_zero, Cmd.wp_block_cons, Cmd.wp_assign, machine_counter,
    Cpu.preemptCnt_mk, Cpu.preemptCnt_k, implies_true, Cmd.wp_call, Fn.effect, h, true_and]
  apply (irqHandler handler).keep h
  cases resched with
  | false => simp [h]
  | true => simp [h]

end Raises

end Program

/-- The body of every function raises the counter by the effect of the function. -/
theorem Fn.body_raises (f : Fn T Q M C) :
  Program.Raises cfg bounded f.effect (f.body cfg)
  := by
  cases f with
  | preemptDisable =>
      intro v h h'
      exact ⟨h', rfl⟩
  | preemptEnable => exact Program.Raises.preemptEnable
  | preemptEnableNoResched =>
      intro v h h'
      exact ⟨h', rfl⟩
  | preemptSchedule => exact Program.Raises.preemptSchedule
  | preemptScheduleIrq => exact Program.Raises.preemptScheduleIrq
  | cpuNotify state => exact Program.Raises.cpuNotify state
  | schedule => exact Program.Raises.schedule
  | schedulePass => exact Program.Raises.schedulePass
  | rqDestroyKillQ => exact Program.Raises.rqDestroyKillQ
  | schedRemoteKillIf => exact Program.Raises.schedRemoteKillIf
  | schedMarkRemoteKill tp => exact Program.Raises.schedMarkRemoteKill
  | rawRqRemoveThread tp => exact Program.Raises.rawRqRemoveThread
  | rqRemoveThread tp => exact Program.Raises.rqRemoveThread
  | rqAddThread tp => exact Program.Raises.rqAddThread
  | queueAddThread qp tp => exact Program.Raises.queueAddThread
  | queueRemoveThread qp tp => exact Program.Raises.queueRemoveThread
  | rqRemoveWakeThread tp => exact Program.Raises.rqRemoveWakeThread
  | threadAddToWakeQ tp => exact Program.Raises.threadAddToWakeQ
  | threadAddToKillQ tp => exact Program.Raises.threadAddToKillQ
  | timerStop id => exact Program.Raises.timerStop id
  | schedYield => exact Program.Raises.schedYield
  | yield => exact Program.Raises.yield
  | nice prio => exact Program.Raises.nice prio
  | sleep ms => exact Program.Raises.sleep ms
  | wait => exact Program.Raises.wait
  | signal tp => exact Program.Raises.signal
  | threadStart tp => exact Program.Raises.threadStart
  | threadDestroy tp => exact Program.Raises.threadDestroy
  | join tp => exact Program.Raises.join
  | kill => exact Program.Raises.kill
  | eventNotifyIrq qp =>
      intro v h h'
      simp [Fn.body]
  | rawEventNotify qp => exact Program.Raises.rawEventNotify
  | eventNotify qp => exact Program.Raises.eventNotify
  | rawEventWait qp ms => exact Program.Raises.rawEventWait ms
  | eventWait qp ms => exact Program.Raises.eventWait ms
  | broadcastLoop qp flags => exact Program.Raises.broadcastLoop flags
  | rawEventNotifyBroadcast qp => exact Program.Raises.rawEventNotifyBroadcast
  | eventNotifyBroadcast qp => exact Program.Raises.eventNotifyBroadcast
  | mutexLock mutex => exact Program.Raises.mutexLock mutex
  | mutexUnlock mutex => exact Program.Raises.mutexUnlock mutex
  | conditionWait cond => exact fun v h h' => ⟨h', rfl⟩
  | conditionWaitFor cond ms => exact Program.Raises.conditionWaitFor cond ms
  | conditionSignal cond => exact fun v h h' => ⟨h', rfl⟩
  | conditionBcast cond => exact fun v h h' => ⟨h', rfl⟩
  | irqEnable =>
      intro v h h'
      simp [Fn.body]
  | irqDisable =>
      intro v h h'
      simp [Fn.body]
  | idleThreadFunc =>
      intro v h h'
      simp [Fn.body, h]
  | irq handler resched => exact Program.Raises.irq handler resched

/-- The functions have their effects, and an interrupt leaves the counter as it is. -/
theorem machine_balanced : Balanced (machine cfg) Fn.effect bounded := by
  constructor
  case body => exact fun f => f.body_raises
  case interrupt =>
    intro s f hf
    cases f with
    | irq handler resched => rfl
    | _ => cases hf

/-- In every run of the threads, whatever the others do and wherever the processor is given away,
a function that returns has added its effect to the preemption counter of its caller: one for
`mutex_lock`, minus one for `mutex_unlock`, and zero for the functions of the events, of the
condition variables and of the scheduler.  When no thread lowers its counter more often than it
has raised it, no counter is ever negative. -/
theorem preemptCnt_balanced (cfg : PreemptConfig T Q M C)
    {c₀ c : State (Cpu T Q M) (Fn T Q M C) T} {ls : List (Coroutine.Label (Fn T Q M C))}
    (hstart : Start (machine cfg) c₀)
    (hrun : Run.exec ((machine cfg).step Fn.effect) c₀ ls = some c) (tp : T) :
  (∀ f entry fs, c.frames tp = .ret f entry :: fs →
      c.shared.preemptCnt tp = entry + f.effect) ∧
    ((∀ t, 0 ≤ c₀.shared.preemptCnt t) →
      Run.Meets ((machine cfg).step Fn.effect) (Paired (machine cfg) Fn.effect True) c₀ ls →
      0 ≤ c.shared.preemptCnt tp)
  := by
  constructor
  · intro f entry fs hframes
    exact machine_balanced.ret hstart hrun hframes
  · intro hlow hls
    exact machine_balanced.nonneg hstart hlow hls hrun tp

/-- The processor after boot. -/
def Cpu.boot (prio : T → Nat) (idle : T) : Cpu T Q M where
  k := (System.boot (Q := Q) prio idle).k
  irqExec := false
  irqs := true
  irqState _ := true
  cpuState _ := false
  fresh t := t ≠ idle
  exit _ := false
  remoteKill _ := false
  killHead := []
  count _ := 0
  owner _ := none
  rv _ := 0

/-- After boot no counter is negative. -/
theorem Cpu.boot_nonneg (prio : T → Nat) (idle t : T) :
  0 ≤ (Cpu.boot prio idle : Cpu T Q M).preemptCnt t
  := by
  simp only [preemptCnt, Kernel.preemptCnt, boot, System.boot, System.threadRecord]
  split <;> simp

/-- A build with preemption, with one mutex and one condition variable. -/
def oneMutex : PreemptConfig (Fin 2) Bool Unit Unit where
  sched :=
    { preempt := true, dynPrio := false, rqClass := .rr, queueClass := fun _ => .rr, freq := 1000 }
  preempt := rfl
  extendedThread := false
  mutexQp _ := false
  condLock _ := ()
  condQp _ := true
  joinq _ := true

/-- The threads after boot. -/
def oneMutexBoot : State (Cpu (Fin 2) Bool Unit) (Fn (Fin 2) Bool Unit Unit) (Fin 2) :=
  .start (machine oneMutex) (Cpu.boot (fun _ => 100) 0)

/-- A call of a function and the steps behind it. -/
def callRun (f : Fn (Fin 2) Bool Unit Unit) (n : ℕ) :
    List (Coroutine.Label (Fn (Fin 2) Bool Unit Unit)) :=
  .call f :: List.replicate n .run

/-- The idle thread locks the mutex, starts a thread and gives way to it.  That one waits for the
mutex, and is at the return of `mutex_lock` when the idle thread has unlocked it and has given way
once more. -/
def contendedRun : List (Coroutine.Label (Fn (Fin 2) Bool Unit Unit)) :=
  callRun (.mutexLock ()) 17 ++ callRun (.threadStart 1) 43 ++ callRun .yield 59 ++
    callRun (.mutexLock ()) 203 ++ callRun (.mutexUnlock ()) 133 ++ callRun .yield 108

/-- The theorem applied to a lock that a thread had to wait for. -/
theorem preemptCnt_balanced_sample :
  ∃ c, Run.exec ((machine oneMutex).step Fn.effect) oneMutexBoot contendedRun = some c ∧
    (c.frames 1).head?.bind Frame.returns = some (.mutexLock (), 0) ∧
    c.shared.preemptCnt 1 = 0 + 1 ∧ 0 ≤ c.shared.preemptCnt 1
  := by
  obtain ⟨c, hrun, hc⟩ := Run.exists_of_any ((machine oneMutex).step Fn.effect) oneMutexBoot
    contendedRun (fun c => (c.frames 1).head?.bind Frame.returns = some (.mutexLock (), 0))
    (by decide +kernel)
  obtain ⟨hret, hnonneg⟩ := preemptCnt_balanced oneMutex (start_start _ _) hrun 1
  rw [decide_eq_true_eq] at hc
  refine ⟨c, hrun, hc, ?_, ?_⟩
  · obtain ⟨frame, hframe, hreturns⟩ := Option.bind_eq_some_iff.mp hc
    obtain ⟨fs, hframes⟩ := List.head?_eq_some_iff.mp hframe
    cases frame with
    | run p => cases hreturns
    | ret f entry =>
        obtain ⟨rfl, rfl⟩ := Prod.mk.inj (Option.some.inj hreturns)
        exact hret _ _ _ hframes
  · apply hnonneg (Cpu.boot_nonneg _ _)
    decide +kernel

end Etaos
