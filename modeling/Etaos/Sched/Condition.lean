import Etaos.Sched.Mutex

/-!
# Condition variables

The functions of `condition.c`, with those of `mutex.c` and `event.c` that they call, step by
step.  A step ends where the preemption counter of the current thread may be zero, where
`event_notify` has read the head of a queue, and where a thread gives up the processor; what
keeps other threads from running between the release of the lock and the queueing of the
caller is not built into the steps, but follows from the counter.

The parameter `preempt` is whether the kernel is built with `CONFIG_PREEMPT`; without it the
functions of `preempt.h` do nothing.

A call of `event_notify` first reads the flag `CPU_IRQ_EXEC_FLAG`.  Where it is set, the call
wakes nobody: it counts an event for the thread at the head of the queue, which the scheduler
takes off in its next pass.  `heeds` has the steps whose notifications wake the thread at the
head.

The counters `count` and `preempt_cnt` are `int`s of 16 bits, whose overflow is undefined.  The
model counts on; the runs that `heeds` allows do not come there.
-/

set_option linter.unusedSectionVars false

namespace Etaos

/-- Where a call of `mutex_lock` or `mutex_unlock` returns to. -/
inductive LockRet where
  /-- The code that uses the lock, also through `condition_lock` and `condition_unlock`. -/
  | caller
  /-- The function `condition_wait`. -/
  | wait
  deriving DecidableEq

/-- Where a thread is in the functions of a condition variable. -/
inductive CondPc where
  /-- In none of them. -/
  | user
  /-- In `mutex_lock`, with preemption disabled. -/
  | lockTest (ret : LockRet)
  /-- At the loop of `mutex_lock`. -/
  | lockLoop (ret : LockRet)
  /-- In `raw_event_wait`, on the queue of the lock. -/
  | lockBlocked (ret : LockRet)
  /-- Taken off the queue of the lock and made runnable. -/
  | lockWoken (ret : LockRet)
  /-- In `mutex_unlock` of a lock that became free. -/
  | unlockNotify (ret : LockRet)
  /-- In its call of `event_notify`, which has read the flag and the head of the queue. -/
  | unlockAct (ret : LockRet) (irqExec : Bool) (tp : Sample)
  /-- At the end of `mutex_unlock`. -/
  | unlockEnd (ret : LockRet)
  /-- In `condition_wait`, before it unlocks the lock. -/
  | condUnlock
  /-- In `event_wait`, before it discards an earlier event. -/
  | condDiscard
  /-- At the call of `raw_event_wait`. -/
  | condEnqueue
  /-- In `raw_event_wait`, on the queue of the condition variable. -/
  | condBlocked
  /-- Behind `event_wait`, made runnable. -/
  | condWoken
  /-- In `condition_wait`, with the lock again. -/
  | condEnd
  /-- In `condition_signal`, whose `event_notify` has read the flag and the head of the queue. -/
  | sigAct (irqExec : Bool) (tp : Sample)
  /-- In `raw_event_notify_broadcast`, with preemption disabled. -/
  | bcTest
  /-- At its call of `event_notify`. -/
  | bcNotify
  /-- In that call, which has read the flag and the head of the queue. -/
  | bcAct (irqExec : Bool) (tp : Sample)
  /-- At the condition of its loop. -/
  | bcLoop
  /-- At the call of `yield` of `event_notify_broadcast`. -/
  | bcYield
  deriving DecidableEq

namespace CondPc

/-- The thread is on a queue. -/
def Blocked : CondPc → Prop
  | .lockBlocked _ | .condBlocked => True
  | _ => False

/-- The thread can give up the processor by itself. -/
def Yields : CondPc → Prop
  | .user | .lockBlocked _ | .condBlocked | .bcYield => True
  | _ => False

/-- The thread is taken off a queue. -/
def wake : CondPc → CondPc
  | .lockBlocked ret => .lockWoken ret
  | .condBlocked => .condWoken
  | pc => pc

instance : DecidablePred Blocked := fun pc => by
  cases pc <;> unfold Blocked <;> infer_instance

instance : DecidablePred Yields := fun pc => by
  cases pc <;> unfold Yields <;> infer_instance

/-- Where `mutex_lock` returns to. -/
def afterLock : LockRet → CondPc
  | .caller => .user
  | .wait => .condEnd

/-- Where `mutex_unlock` returns to. -/
def afterUnlock : LockRet → CondPc
  | .caller => .user
  | .wait => .condDiscard

end CondPc

/-- A condition variable with the threads that use it. -/
structure ConditionSystem (T : Type) where
  lock : Mutex T
  qp : ThreadQueue T
  /-- The thread that runs. -/
  current : T
  pc : T → CondPc
  /-- The preemption counters of the threads. -/
  preemptCnt : T → Int
  /-- The completed calls of `mutex_lock` that are not yet matched by `mutex_unlock`. -/
  locks : T → Nat

/-- The steps of the threads. -/
inductive ConditionLabel (T : Type) where
  /-- The current thread calls `condition_lock`. -/
  | lock
  /-- It calls `condition_unlock`. -/
  | unlock
  /-- It calls `condition_wait`. -/
  | wait
  /-- It calls `condition_signal`; `irqExec` is whether it finds `CPU_IRQ_EXEC_FLAG` set. -/
  | signal (irqExec : Bool)
  /-- It calls `condition_bcast`. -/
  | bcast
  /-- It goes on in the function it is in, with the priorities at that time, and whether the
  flag `CPU_IRQ_EXEC_FLAG` is set. -/
  | run (prio : T → Nat) (irqExec : Bool)
  /-- The scheduler comes to a thread that has an event. -/
  | pass (tp : T)
  /-- The scheduler switches to another thread. -/
  | switch (tp : T)

namespace ConditionSystem

variable {T : Type} [DecidableEq T]

/-- The system at `condition_init`, while `tp` runs. -/
def init (tp : T) : ConditionSystem T where
  lock := .mutexInit
  qp := .threadQueueInit
  current := tp
  pc := fun _ => .user
  preemptCnt := fun _ => 0
  locks := fun _ => 0

/-- The current thread goes to a place. -/
def goto (s : ConditionSystem T) (pc : CondPc) : ConditionSystem T :=
  { s with pc := Function.update s.pc s.current pc }

/-- The preemption counter of the current thread changes by `num`. -/
def preemptAdd (preempt : Bool) (num : Int) (s : ConditionSystem T) : ConditionSystem T :=
  if preempt then
    { s with
      preemptCnt := Function.update s.preemptCnt s.current (s.preemptCnt s.current + num) }
  else
    s

/-- The function `preempt_disable`. -/
def preemptDisable (preempt : Bool) (s : ConditionSystem T) : ConditionSystem T :=
  s.preemptAdd preempt 1

/-- The functions `preempt_enable` and `preempt_enable_no_resched`, up to the call of the
scheduler. -/
def preemptEnable (preempt : Bool) (s : ConditionSystem T) : ConditionSystem T :=
  s.preemptAdd preempt (-1)

/-- The queue of the lock changes. -/
def setLockQueue (s : ConditionSystem T) (qp : ThreadQueue T) : ConditionSystem T :=
  { s with lock := { s.lock with qp } }

/-- The queue of the condition variable changes. -/
def setQueue (s : ConditionSystem T) (qp : ThreadQueue T) : ConditionSystem T :=
  { s with qp }

/-- A thread that is taken off a queue is made runnable. -/
def wake (s : ConditionSystem T) : Option T → ConditionSystem T
  | none => s
  | some tp => { s with pc := Function.update s.pc tp (s.pc tp).wake }

/-- The end of `mutex_lock`. -/
def acquire (s : ConditionSystem T) (ret : LockRet) : ConditionSystem T :=
  { s with
    lock := s.lock.acquire s.current
    locks := Function.update s.locks s.current (s.locks s.current + 1) }.goto
      (.afterLock ret)

/-- The begin of `mutex_unlock` of the owner. -/
def release (s : ConditionSystem T) (ret : LockRet) : ConditionSystem T :=
  let s :=
    { s with
      lock := { s.lock with count := s.lock.count - 1 }
      locks := Function.update s.locks s.current (s.locks s.current - 1) }
  if s.lock.count = 0 then
    { s with lock := { s.lock with owner := none } }.goto (.unlockNotify ret)
  else
    s.goto (.unlockEnd ret)

/-- The scheduler can run: the current thread gives up the processor, or it can be
preempted. -/
def Preemptible (preempt : Bool) (s : ConditionSystem T) : Prop :=
  (s.pc s.current).Yields ∨ preempt = true ∧ s.preemptCnt s.current = 0

instance (preempt : Bool) (s : ConditionSystem T) : Decidable (s.Preemptible preempt) :=
  inferInstanceAs (Decidable (_ ∨ _))

variable [Fintype T]

/-- The body of `event_notify` on the queue of the lock, behind its reads. -/
def notifyLock (s : ConditionSystem T) (irqExec : Bool) (tp : Sample) :
    Option (ConditionSystem T) :=
  (s.lock.qp.eventNotify irqExec tp).map fun (qp, woken) => (s.setLockQueue qp).wake woken

/-- The body of `event_notify` on the queue of the condition variable, behind its reads. -/
def notify (s : ConditionSystem T) (irqExec : Bool) (tp : Sample) : Option (ConditionSystem T) :=
  (s.qp.eventNotify irqExec tp).map fun (qp, woken) => (s.setQueue qp).wake woken

/-- The current thread goes on, with the priorities `prio`. -/
def run (preempt : Bool) (s : ConditionSystem T) (prio : T → Nat) (irqExec : Bool) :
    Option (ConditionSystem T) :=
  match s.pc s.current with
  | .user | .lockBlocked _ | .condBlocked => none
  | .lockTest ret =>
      some (if s.lock.owner = some s.current then s.acquire ret else s.goto (.lockLoop ret))
  | .lockLoop ret =>
      if s.lock.count = 0 then
        some (s.acquire ret)
      else
        (s.lock.qp.rawEventWait prio s.current).map fun (qp, waits) =>
          (s.setLockQueue qp).goto (if waits then .lockBlocked ret else .lockLoop ret)
  | .lockWoken ret => some (s.goto (.lockLoop ret))
  | .unlockNotify ret => some (s.goto (.unlockAct ret irqExec s.lock.qp.qhead.sample))
  | .unlockAct ret irqExec tp => (s.notifyLock irqExec tp).map fun s => s.goto (.unlockEnd ret)
  | .unlockEnd ret => some ((s.preemptEnable preempt).goto (.afterUnlock ret))
  | .condUnlock => some (s.release .wait)
  | .condDiscard =>
      some ((if s.qp.qhead = .signaled then s.setQueue (s.qp.setQhead (.ptr none))
        else s).goto .condEnqueue)
  | .condEnqueue =>
      (s.qp.rawEventWait prio s.current).map fun (qp, waits) =>
        (s.setQueue qp).goto (if waits then .condBlocked else .condWoken)
  | .condWoken => some ((s.preemptDisable preempt).goto (.lockTest .wait))
  | .condEnd => some ((s.preemptEnable preempt).goto .user)
  | .sigAct irqExec tp => (s.notify irqExec tp).map fun s => s.goto .user
  | .bcTest =>
      match s.qp.qhead with
      | .signaled =>
          some (((s.setQueue (s.qp.setQhead (.ptr none))).preemptEnable preempt).goto .bcYield)
      | .ptr none => some ((s.preemptEnable preempt).goto .bcYield)
      | .ptr (some _) => some (s.goto .bcNotify)
  | .bcNotify => some (s.goto (.bcAct irqExec s.qp.qhead.sample))
  | .bcAct irqExec tp => (s.notify irqExec tp).map fun s => s.goto .bcLoop
  | .bcLoop =>
      some (if s.qp.qhead.sample = .thread then s.goto .bcNotify
        else (s.preemptEnable preempt).goto .bcYield)
  | .bcYield => some (s.goto .user)

/-- What `rq_signal_threads` does when it comes to a thread. -/
def pass (s : ConditionSystem T) (tp : T) : Option (ConditionSystem T) :=
  match s.pc tp with
  | .lockBlocked _ =>
      if s.lock.qp.links.ec tp ≠ 0 then
        (s.lock.qp.signalThread tp).map fun (qp, woken) => (s.setLockQueue qp).wake woken
      else
        none
  | .condBlocked =>
      if s.qp.links.ec tp ≠ 0 then
        (s.qp.signalThread tp).map fun (qp, woken) => (s.setQueue qp).wake woken
      else
        none
  | _ => none

/-- A step of the threads.  The lock is held by a thread that unlocks it, signals or
broadcasts, and held exactly once by a thread that waits. -/
def step (preempt : Bool) (s : ConditionSystem T) :
    ConditionLabel T → Option (ConditionSystem T)
  | .lock =>
      if s.pc s.current = .user then
        some ((s.preemptDisable preempt).goto (.lockTest .caller))
      else
        none
  | .unlock =>
      if s.pc s.current = .user ∧ s.lock.owner = some s.current then
        some (s.release .caller)
      else
        none
  | .wait =>
      if s.pc s.current = .user ∧ s.lock.owner = some s.current ∧ s.locks s.current = 1 then
        some ((s.preemptDisable preempt).goto .condUnlock)
      else
        none
  | .signal irqExec =>
      if s.pc s.current = .user ∧ s.lock.owner = some s.current then
        some (s.goto (.sigAct irqExec s.qp.qhead.sample))
      else
        none
  | .bcast =>
      if s.pc s.current = .user ∧ s.lock.owner = some s.current then
        some ((s.preemptDisable preempt).goto .bcTest)
      else
        none
  | .run prio irqExec => s.run preempt prio irqExec
  | .pass tp => if s.Preemptible preempt then s.pass tp else none
  | .switch tp =>
      if s.Preemptible preempt ∧ ¬ (s.pc tp).Blocked then
        some { s with current := tp }
      else
        none

/-- The steps whose calls of `event_notify` wake the thread at the head of the queue, when there
is one, and whose locks can be counted. -/
def heeds (s : ConditionSystem T) : ConditionLabel T → Bool
  | .signal irqExec => s.qp.prompt irqExec
  | .run _ irqExec =>
      match s.pc s.current with
      | .lockTest _ => s.lock.owner = some s.current → s.locks s.current < 2 ^ 15 - 4
      | .unlockNotify _ => s.lock.qp.prompt irqExec
      | .bcNotify => s.qp.prompt irqExec
      | _ => true
  | _ => true

/-- The steps that `heeds` allows, alone. -/
def heedingStep (preempt : Bool) :
    ConditionSystem T → ConditionLabel T → Option (ConditionSystem T) :=
  Run.restrict (step preempt) fun s l => s.heeds l = true

/-! ### The invariant -/

end ConditionSystem

namespace CondPc

/-- The thread is in `condition_wait`. -/
def InWait : CondPc → Prop
  | .lockTest .wait | .lockLoop .wait | .lockBlocked .wait | .lockWoken .wait
  | .unlockNotify .wait | .unlockAct .wait _ _ | .unlockEnd .wait
  | .condUnlock | .condDiscard | .condEnqueue | .condBlocked | .condWoken | .condEnd => True
  | _ => False

/-- The thread is in `condition_wait`, has released the lock, and is not yet woken. -/
def Released : CondPc → Prop
  | .unlockNotify .wait | .unlockAct .wait _ _ | .unlockEnd .wait
  | .condDiscard | .condEnqueue | .condBlocked => True
  | _ => False

/-- Where a thread that does not run can be. -/
def Rests : CondPc → Prop
  | .user | .lockBlocked _ | .lockWoken _ | .condBlocked | .condWoken | .bcYield => True
  | _ => False

/-- How often the functions that a thread is in have disabled preemption, beside the calls of
`mutex_lock` that are not yet matched. -/
def disabled : CondPc → Nat
  | .user | .sigAct _ _ | .bcYield => 0
  | .lockTest .wait | .lockLoop .wait | .lockBlocked .wait | .lockWoken .wait
  | .unlockNotify .wait | .unlockAct .wait _ _ | .unlockEnd .wait => 2
  | _ => 1

theorem disabled_le (pc : CondPc) : pc.disabled ≤ 2 := by
  unfold disabled
  split <;> decide

theorem Yields.rests {pc : CondPc} (h : pc.Yields) : pc.Rests := by
  cases pc <;> trivial

/-- A thread that does not run and has released the lock is on the queue. -/
theorem Rests.eq_condBlocked {pc : CondPc} (h : pc.Rests) (hreleased : pc.Released) :
  pc = .condBlocked
  := by
  cases pc <;> trivial

theorem Rests.wake {pc : CondPc} (h : pc.Rests) : pc.wake.Rests := by
  cases pc <;> trivial

/-- Beside the places where a thread rests, only in `condition_signal` preemption is not
disabled by the functions that the thread is in. -/
theorem rests_of_disabled {pc : CondPc} (h : pc.disabled = 0) :
  pc.Rests ∨ ∃ irqExec tp, pc = .sigAct irqExec tp
  := by
  cases pc
  case sigAct irqExec tp =>
    right
    use irqExec, tp
  case user | bcYield =>
    left
    trivial
  case lockTest ret | lockLoop ret | lockBlocked ret | lockWoken ret | unlockNotify ret
      | unlockEnd ret => cases ret <;> cases h
  case unlockAct ret irqExec tp => cases ret <;> cases h
  all_goals cases h

theorem ne_lockBlocked {pc : CondPc} (h : ¬ pc.Blocked) (ret : LockRet) :
  pc ≠ .lockBlocked ret
  := by
  rintro rfl
  apply h trivial

theorem ne_condBlocked {pc : CondPc} (h : ¬ pc.Blocked) : pc ≠ .condBlocked := by
  rintro rfl
  apply h trivial

theorem not_blocked_wake (pc : CondPc) : ¬ pc.wake.Blocked := by
  cases pc <;> exact id

/-- A thread that is taken off a queue comes to no other place. -/
theorem eq_user_of_wake {pc : CondPc} (h : pc.wake = .user) : pc = .user := by
  cases pc <;> first | rfl | cases h

theorem disabled_wake (pc : CondPc) : pc.wake.disabled = pc.disabled := by
  rcases pc with _ | _ | _ | (_ | _) | _ | _ | _ | _ <;> rfl

end CondPc

namespace ConditionSystem

variable {T : Type} [DecidableEq T] [Fintype T]

section

variable (s : ConditionSystem T) (preempt : Bool) (num : Int)

@[simp] theorem lock_preemptAdd : (s.preemptAdd preempt num).lock = s.lock := by
  rw [preemptAdd]
  split <;> rfl

@[simp] theorem qp_preemptAdd : (s.preemptAdd preempt num).qp = s.qp := by
  rw [preemptAdd]
  split <;> rfl

@[simp] theorem current_preemptAdd : (s.preemptAdd preempt num).current = s.current := by
  rw [preemptAdd]
  split <;> rfl

@[simp] theorem pc_preemptAdd : (s.preemptAdd preempt num).pc = s.pc := by
  rw [preemptAdd]
  split <;> rfl

@[simp] theorem locks_preemptAdd : (s.preemptAdd preempt num).locks = s.locks := by
  rw [preemptAdd]
  split <;> rfl

theorem preemptCnt_preemptAdd (hpre : preempt = true) :
  (s.preemptAdd preempt num).preemptCnt s.current = s.preemptCnt s.current + num
  := by
  simp [preemptAdd, hpre]

theorem preemptCnt_preemptAdd_of_ne {t : T} (ht : t ≠ s.current) :
  (s.preemptAdd preempt num).preemptCnt t = s.preemptCnt t
  := by
  rw [preemptAdd]
  split <;> simp [ht]

theorem preemptAdd_zero : s.preemptAdd preempt 0 = s := by
  rw [preemptAdd]
  split <;> simp

end

/-- What holds of a thread because of the place it is at. -/
def Place (s : ConditionSystem T) (tp : T) : Prop :=
  match s.pc tp with
  | .user | .lockTest .caller | .unlockEnd .caller => True
  | .lockTest .wait | .lockLoop _ | .lockBlocked _ | .lockWoken _ | .unlockEnd .wait
  | .condDiscard | .condBlocked | .condWoken => s.lock.owner ≠ some tp
  | .unlockNotify _ => s.lock.owner = none
  | .unlockAct _ irqExec sample =>
      s.lock.owner = none ∧ s.lock.qp.qhead.sample = sample ∧ s.lock.qp.prompt irqExec = true
  | .condUnlock | .condEnd => s.lock.owner = some tp ∧ s.locks tp = 1
  | .condEnqueue => s.lock.owner ≠ some tp ∧ s.qp.qhead ≠ .signaled
  | .sigAct irqExec sample | .bcAct irqExec sample =>
      s.lock.owner = some tp ∧ s.qp.qhead.sample = sample ∧ s.qp.prompt irqExec = true
  | .bcTest | .bcNotify | .bcLoop | .bcYield => s.lock.owner = some tp

/-- The owner of the lock is the thread that has locked it, and has done so `count` times. -/
structure Locked (s : ConditionSystem T) : Prop where
  owner : ∀ t, 0 < s.locks t ↔ s.lock.owner = some t
  count : ∀ t, s.lock.owner = some t → s.lock.count = s.locks t
  free : s.lock.owner = none → s.lock.count = 0

/-- The lock is free when it is not locked. -/
theorem Locked.owner_eq_none {s : ConditionSystem T} (h : Locked s) (hcount : s.lock.count = 0) :
  s.lock.owner = none
  := by
  cases howner : s.lock.owner with
  | none => rfl
  | some t =>
      have hlocks := (h.owner t).mpr howner
      have := h.count t howner
      omega

/-- The threads that wait on the queue of the lock. -/
def Locks (s : ConditionSystem T) (t : T) : Prop :=
  ∃ ret, s.pc t = .lockBlocked ret

/-- The threads that wait on the queue of the condition variable. -/
def Waits (s : ConditionSystem T) (t : T) : Prop :=
  s.pc t = .condBlocked

/-- The invariant of a condition variable. -/
structure Inv (preempt : Bool) (s : ConditionSystem T) : Prop where
  locked : Locked s
  nested : ∀ t, s.locks t ≤ 2 ^ 15 - 4
  lockQueue : ∃ m, s.lock.qp.Calm m s.Locks
  condQueue : ∃ m, s.qp.Calm m s.Waits
  rests : ∀ t, t ≠ s.current → (s.pc t).Rests
  place : ∀ t, s.Place t
  counter : preempt = true → ∀ t, s.preemptCnt t = s.locks t + (s.pc t).disabled

/-- The other threads are where they were, or taken off a queue, and have not changed their
hold of the lock and their counters. -/
structure Frame (s s' : ConditionSystem T) : Prop where
  current : s'.current = s.current
  pc : ∀ t, t ≠ s.current → s'.pc t = s.pc t ∨ s'.pc t = (s.pc t).wake
  owner : ∀ t, t ≠ s.current → (s'.lock.owner = some t ↔ s.lock.owner = some t)
  locks : ∀ t, t ≠ s.current → s'.locks t = s.locks t
  preemptCnt : ∀ t, t ≠ s.current → s'.preemptCnt t = s.preemptCnt t

/-- The place of a thread that does not run depends on the owner of the lock alone. -/
theorem Place.of_rests {s s' : ConditionSystem T} {t : T} (h : s.Place t)
    (hrests : (s.pc t).Rests) (hpc : s'.pc t = s.pc t ∨ s'.pc t = (s.pc t).wake)
    (howner : s'.lock.owner = some t ↔ s.lock.owner = some t) :
  s'.Place t
  := by
  revert h hpc hrests
  rw [Place, Place]
  cases s.pc t <;> intro h hrests hpc <;> simp only [CondPc.wake, or_self] at hpc
  case user => simp [hpc]
  case lockBlocked => rcases hpc with hpc | hpc <;> simpa [hpc, howner] using h
  case condBlocked => rcases hpc with hpc | hpc <;> simpa [hpc, howner] using h
  case lockWoken | condWoken | bcYield => simpa [hpc, howner] using h
  all_goals exact hrests.elim

@[simp] theorem goto_pc_self (s : ConditionSystem T) (pc : CondPc) :
  (s.goto pc).pc s.current = pc
  := by
  simp [goto]

/-- The place of the current thread behind its step. -/
theorem goto_pc_current (s : ConditionSystem T) (pc : CondPc) :
  (s.goto pc).pc (s.goto pc).current = pc
  := goto_pc_self s pc

theorem goto_self {s : ConditionSystem T} {pc : CondPc} (h : s.pc s.current = pc) :
  s.goto pc = s
  := by
  simp [goto, ← h]

theorem goto_pc_of_ne (s : ConditionSystem T) (pc : CondPc) {t : T} (ht : t ≠ s.current) :
  (s.goto pc).pc t = s.pc t
  := by
  simp [goto, ht]

theorem locks_goto (s : ConditionSystem T) (pc : CondPc) (t : T) :
  (s.goto pc).Locks t ↔
    (t = s.current ∧ ∃ ret, pc = .lockBlocked ret) ∨ (t ≠ s.current ∧ s.Locks t)
  := by
  by_cases ht : t = s.current
  · simp [Locks, goto, ht]
  · simp [Locks, goto, ht]

theorem waits_goto (s : ConditionSystem T) (pc : CondPc) (t : T) :
  (s.goto pc).Waits t ↔
    (t = s.current ∧ pc = .condBlocked) ∨ (t ≠ s.current ∧ s.Waits t)
  := by
  by_cases ht : t = s.current
  · simp [Waits, goto, ht]
  · simp [Waits, goto, ht]

/-- A thread that is on no queue. -/
theorem not_locks {s : ConditionSystem T} {t : T} (h : ¬ (s.pc t).Blocked) : ¬ s.Locks t := by
  rintro ⟨ret, hpc⟩
  apply h
  rw [hpc]
  trivial

theorem not_waits {s : ConditionSystem T} {t : T} (h : ¬ (s.pc t).Blocked) : ¬ s.Waits t := by
  intro hpc
  apply h
  rw [show s.pc t = .condBlocked from hpc]
  trivial

/-- The current thread goes from a place where it is on no queue to another such place. -/
theorem locks_goto_of_not {s : ConditionSystem T} {pc : CondPc} (hfrom : ¬ s.Locks s.current)
    (hto : ∀ ret, pc ≠ .lockBlocked ret) (t : T) :
  (s.goto pc).Locks t ↔ s.Locks t
  := by
  rw [locks_goto]
  constructor
  · rintro (⟨-, ret, hpc⟩ | ⟨-, h⟩)
    · exact absurd hpc (hto ret)
    · apply h
  · intro h
    right
    constructor
    · rintro rfl
      apply hfrom h
    · apply h

theorem waits_goto_of_not {s : ConditionSystem T} {pc : CondPc} (hfrom : ¬ s.Waits s.current)
    (hto : pc ≠ .condBlocked) (t : T) :
  (s.goto pc).Waits t ↔ s.Waits t
  := by
  rw [waits_goto]
  constructor
  · rintro (⟨-, hpc⟩ | ⟨-, h⟩)
    · exact absurd hpc hto
    · apply h
  · intro h
    right
    constructor
    · rintro rfl
      apply hfrom h
    · apply h

/-- The thread `tp` is taken off the queue of the lock. -/
theorem locks_wake_of_locks {s : ConditionSystem T} {tp : T} (h : s.Locks tp) (t : T) :
  (s.wake (some tp)).Locks t ↔ t ≠ tp ∧ s.Locks t
  := by
  obtain ⟨ret, hpc⟩ := h
  by_cases ht : t = tp
  · simp [Locks, wake, ht, hpc, CondPc.wake]
  · simp [Locks, wake, ht]

theorem waits_wake_of_locks {s : ConditionSystem T} {tp : T} (h : s.Locks tp) (t : T) :
  (s.wake (some tp)).Waits t ↔ s.Waits t
  := by
  obtain ⟨ret, hpc⟩ := h
  by_cases ht : t = tp
  · simp [Waits, wake, ht, hpc, CondPc.wake]
  · simp [Waits, wake, ht]

/-- The thread `tp` is taken off the queue of the condition variable. -/
theorem waits_wake_of_waits {s : ConditionSystem T} {tp : T} (h : s.Waits tp) (t : T) :
  (s.wake (some tp)).Waits t ↔ t ≠ tp ∧ s.Waits t
  := by
  rw [Waits] at h
  by_cases ht : t = tp
  · simp [Waits, wake, ht, h, CondPc.wake]
  · simp [Waits, wake, ht]

theorem locks_wake_of_waits {s : ConditionSystem T} {tp : T} (h : s.Waits tp) (t : T) :
  (s.wake (some tp)).Locks t ↔ s.Locks t
  := by
  rw [Waits] at h
  by_cases ht : t = tp
  · simp [Locks, wake, ht, h, CondPc.wake]
  · simp [Locks, wake, ht]

theorem wake_pc_cases (s : ConditionSystem T) (woken : Option T) (t : T) :
  (s.wake woken).pc t = s.pc t ∨ (s.wake woken).pc t = (s.pc t).wake
  := by
  cases woken with
  | none => left; rfl
  | some tp =>
      by_cases ht : t = tp
      · simp [wake, ht]
      · simp [wake, ht]

/-- A thread that is on no queue is on none behind a wake-up. -/
theorem not_blocked_wake {s : ConditionSystem T} {t : T} (h : ¬ (s.pc t).Blocked)
    (woken : Option T) :
  ¬ ((s.wake woken).pc t).Blocked
  := by
  rcases wake_pc_cases s woken t with hpc | hpc
  · rwa [hpc]
  · rw [hpc]
    apply CondPc.not_blocked_wake

section

variable (s : ConditionSystem T) (woken : Option T)

@[simp] theorem lock_wake : (s.wake woken).lock = s.lock := by
  cases woken <;> rfl

@[simp] theorem qp_wake : (s.wake woken).qp = s.qp := by
  cases woken <;> rfl

@[simp] theorem current_wake : (s.wake woken).current = s.current := by
  cases woken <;> rfl

@[simp] theorem locks_wake : (s.wake woken).locks = s.locks := by
  cases woken <;> rfl

@[simp] theorem preemptCnt_wake : (s.wake woken).preemptCnt = s.preemptCnt := by
  cases woken <;> rfl

end

namespace Inv

variable {s s' : ConditionSystem T} {preempt : Bool}

theorem init (tp : T) : Inv preempt (init tp) := by
  constructor
  case locked =>
    constructor <;> simp [ConditionSystem.init, Mutex.mutexInit]
  case nested => simp [ConditionSystem.init]
  case lockQueue =>
    refine ⟨true, ⟨[], ThreadQueue.holds_threadQueueInit, ?_⟩, ?_⟩
    · simp [ConditionSystem.init, Locks]
    · simp [ConditionSystem.init, Locks]
  case condQueue =>
    refine ⟨true, ⟨[], ThreadQueue.holds_threadQueueInit, ?_⟩, ?_⟩
    · simp [ConditionSystem.init, Waits]
    · simp [ConditionSystem.init, Waits]
  case rests => simp [ConditionSystem.init, CondPc.Rests]
  case place => simp [ConditionSystem.init, Place]
  case counter => simp [ConditionSystem.init, CondPc.disabled]

/-- A step of the current thread keeps the invariant, when it does so for the lock, the
queues and the thread itself. -/
theorem frame (h : Inv preempt s) (hframe : Frame s s') (hlocked : Locked s')
    (hnested : s'.locks s.current ≤ 2 ^ 15 - 4)
    (hlock : ∃ m, s'.lock.qp.Calm m s'.Locks) (hcond : ∃ m, s'.qp.Calm m s'.Waits)
    (hplace : s'.Place s.current)
    (hcnt : preempt = true →
      s'.preemptCnt s.current = s'.locks s.current + (s'.pc s.current).disabled) :
  Inv preempt s'
  := by
  constructor
  case locked => apply hlocked
  case nested =>
    intro t
    by_cases ht : t = s.current
    · rw [ht]
      apply hnested
    · rw [hframe.locks t ht]
      apply h.nested t
  case lockQueue => apply hlock
  case condQueue => apply hcond
  case rests =>
    intro t ht
    rw [hframe.current] at ht
    rcases hframe.pc t ht with hpc | hpc
    · rw [hpc]
      apply h.rests t ht
    · rw [hpc]
      apply (h.rests t ht).wake
  case place =>
    intro t
    by_cases ht : t = s.current
    · rw [ht]
      apply hplace
    · apply (h.place t).of_rests (h.rests t ht) (hframe.pc t ht) (hframe.owner t ht)
  case counter =>
    intro hpre t
    by_cases ht : t = s.current
    · rw [ht]
      apply hcnt hpre
    · rw [hframe.preemptCnt t ht, hframe.locks t ht, h.counter hpre t]
      rcases hframe.pc t ht with hpc | hpc
      · rw [hpc]
      · rw [hpc, CondPc.disabled_wake]

/-- The current thread goes on without a change of the lock and the queues. -/
theorem add_goto (h : Inv preempt s) {num : Int} {pc : CondPc}
    (hfrom : ¬ (s.pc s.current).Blocked) (hto : ¬ pc.Blocked)
    (hplace : ((s.preemptAdd preempt num).goto pc).Place s.current)
    (hnum : (pc.disabled : Int) = (s.pc s.current).disabled + num) :
  Inv preempt ((s.preemptAdd preempt num).goto pc)
  := by
  have hcur : (s.preemptAdd preempt num).current = s.current := current_preemptAdd s preempt num
  have hself : ((s.preemptAdd preempt num).goto pc).pc s.current = pc := by
    simpa using goto_pc_self (s.preemptAdd preempt num) pc
  have hfrom' : ¬ ((s.preemptAdd preempt num).pc (s.preemptAdd preempt num).current).Blocked := by
    simpa using hfrom
  apply h.frame
  case hframe =>
    constructor
    case current => apply hcur
    case pc =>
      intro t ht
      left
      rw [goto_pc_of_ne _ _ (by rwa [hcur]), pc_preemptAdd]
    case owner => simp [goto]
    case locks => simp [goto]
    case preemptCnt =>
      intro t ht
      apply preemptCnt_preemptAdd_of_ne s preempt num ht
  case hlocked =>
    constructor
    case owner => simpa [goto] using h.locked.owner
    case count => simpa [goto] using h.locked.count
    case free => simpa [goto] using h.locked.free
  case hnested => simpa [goto] using h.nested s.current
  case hlock =>
    obtain ⟨m, hm⟩ := h.lockQueue
    use m
    have hqp : ((s.preemptAdd preempt num).goto pc).lock.qp = s.lock.qp := by simp [goto]
    rw [hqp]
    apply hm.congr
    intro t
    rw [locks_goto_of_not (not_locks hfrom') (CondPc.ne_lockBlocked hto), Locks, pc_preemptAdd,
      Locks]
  case hcond =>
    obtain ⟨m, hm⟩ := h.condQueue
    use m
    have hqp : ((s.preemptAdd preempt num).goto pc).qp = s.qp := by simp [goto]
    rw [hqp]
    apply hm.congr
    intro t
    rw [waits_goto_of_not (not_waits hfrom') (CondPc.ne_condBlocked hto), Waits, pc_preemptAdd,
      Waits]
  case hplace => apply hplace
  case hcnt =>
    intro hpre
    have hcnt := preemptCnt_preemptAdd s preempt num hpre
    have hold := h.counter hpre s.current
    have hlocks : ((s.preemptAdd preempt num).goto pc).locks s.current = s.locks s.current := by
      simp [goto]
    rw [hself, hlocks]
    change (s.preemptAdd preempt num).preemptCnt s.current = _
    omega

/-- The current thread goes on without any other change. -/
theorem move (h : Inv preempt s) {pc : CondPc} (hfrom : ¬ (s.pc s.current).Blocked)
    (hto : ¬ pc.Blocked) (hplace : (s.goto pc).Place s.current)
    (hdisabled : pc.disabled = (s.pc s.current).disabled) :
  Inv preempt (s.goto pc)
  := by
  have hadd : s.preemptAdd preempt 0 = s := preemptAdd_zero s preempt
  have hplace₀ : ((s.preemptAdd preempt 0).goto pc).Place s.current := by rwa [hadd]
  have hmove := h.add_goto hfrom hto hplace₀ (by simp [hdisabled])
  rwa [hadd] at hmove

/-- The current thread changes the queues, takes a thread off one of them and goes on. -/
theorem wake_goto (h : Inv preempt s) (lock : Mutex T) (qp : ThreadQueue T)
    (woken : Option T) (pc : CondPc) (howner : lock.owner = s.lock.owner)
    (hcount : lock.count = s.lock.count) (hdisabled : pc.disabled = (s.pc s.current).disabled)
    (hlock : ∃ m, lock.qp.Calm m (({ s with lock, qp }.wake woken).goto pc).Locks)
    (hcond : ∃ m, qp.Calm m (({ s with lock, qp }.wake woken).goto pc).Waits)
    (hplace : (({ s with lock, qp }.wake woken).goto pc).Place s.current) :
  Inv preempt (({ s with lock, qp }.wake woken).goto pc)
  := by
  apply h.frame
  case hframe =>
    constructor
    case current => simp [goto]
    case pc =>
      intro t ht
      rw [goto_pc_of_ne _ _ (by simpa using ht)]
      apply wake_pc_cases { s with lock, qp }
    case owner => simp [goto, howner]
    case locks => simp [goto]
    case preemptCnt => simp [goto]
  case hlocked =>
    constructor
    case owner => simpa [goto, howner] using h.locked.owner
    case count => simpa [goto, howner, hcount] using h.locked.count
    case free => simpa [goto, howner, hcount] using h.locked.free
  case hnested => simpa [goto] using h.nested s.current
  case hlock => simpa [goto] using hlock
  case hcond => simpa [goto] using hcond
  case hplace => apply hplace
  case hcnt =>
    intro hpre
    have hself : (({ s with lock, qp }.wake woken).goto pc).pc s.current = pc := by
      simp [goto]
    rw [hself, hdisabled]
    simpa [goto] using h.counter hpre s.current

/-- The current thread acts on a notification of the queue of the lock. -/
theorem notifyLock (h : Inv preempt s) {pc : CondPc} {irqExec : Bool} {tp : Sample}
    (htp : s.lock.qp.qhead.sample = tp ∧ s.lock.qp.prompt irqExec = true)
    (hs : s.notifyLock irqExec tp = some s')
    (hfrom : ¬ (s.pc s.current).Blocked) (hto : ¬ pc.Blocked)
    (hdisabled : pc.disabled = (s.pc s.current).disabled)
    (hplace : s'.current = s.current → s'.lock.owner = s.lock.owner →
      (s'.goto pc).Place s.current) :
  Inv preempt (s'.goto pc)
  := by
  obtain ⟨rfl, hprompt⟩ := htp
  obtain ⟨⟨lqp, woken⟩, hqp, rfl⟩ := Option.map_eq_some_iff.mp hs
  rw [ThreadQueue.eventNotify_eq hprompt, ThreadQueue.noticed_sample] at hqp
  obtain ⟨m, hm⟩ := h.lockQueue
  obtain ⟨mc, hmc⟩ := h.condQueue
  let s₁ := s.setLockQueue lqp
  have hblocked : ¬ (s₁.pc s₁.current).Blocked := hfrom
  have hfrom₁ : ¬ ((s₁.wake woken).pc (s₁.wake woken).current).Blocked := by
    rw [current_wake]
    apply not_blocked_wake hblocked
  apply h.wake_goto { s.lock with qp := lqp } s.qp woken pc rfl rfl hdisabled
  case hlock =>
    rcases hm.eventNotify hqp with ⟨rfl, hnot, hm'⟩ | ⟨t, rfl, ht, -, m', hm'⟩
    · use true
      apply hm'.congr
      intro u
      apply locks_goto_of_not (not_locks hfrom₁) (CondPc.ne_lockBlocked hto)
    · use m'
      apply hm'.congr
      intro u
      apply (locks_goto_of_not (not_locks hfrom₁) (CondPc.ne_lockBlocked hto) u).trans
      apply locks_wake_of_locks ht
  case hcond =>
    use mc
    apply hmc.congr
    intro u
    apply (waits_goto_of_not (not_waits hfrom₁) (CondPc.ne_condBlocked hto) u).trans
    rcases hm.eventNotify hqp with ⟨rfl, -, -⟩ | ⟨t, rfl, ht, -⟩
    · rfl
    · apply waits_wake_of_locks ht
  case hplace =>
    apply hplace <;> simp [setLockQueue]

/-- The current thread acts on a notification of the queue of the condition variable. -/
theorem notify (h : Inv preempt s) {pc : CondPc} {irqExec : Bool} {tp : Sample}
    (htp : s.qp.qhead.sample = tp ∧ s.qp.prompt irqExec = true)
    (hs : s.notify irqExec tp = some s')
    (hfrom : ¬ (s.pc s.current).Blocked) (hto : ¬ pc.Blocked)
    (hdisabled : pc.disabled = (s.pc s.current).disabled)
    (hplace : s'.current = s.current → s'.lock.owner = s.lock.owner →
      (s'.goto pc).Place s.current) :
  Inv preempt (s'.goto pc)
  := by
  obtain ⟨rfl, hprompt⟩ := htp
  obtain ⟨⟨qp, woken⟩, hqp, rfl⟩ := Option.map_eq_some_iff.mp hs
  rw [ThreadQueue.eventNotify_eq hprompt, ThreadQueue.noticed_sample] at hqp
  obtain ⟨m, hm⟩ := h.condQueue
  obtain ⟨ml, hml⟩ := h.lockQueue
  let s₁ := s.setQueue qp
  have hblocked : ¬ (s₁.pc s₁.current).Blocked := hfrom
  have hfrom₁ : ¬ ((s₁.wake woken).pc (s₁.wake woken).current).Blocked := by
    rw [current_wake]
    apply not_blocked_wake hblocked
  apply h.wake_goto s.lock qp woken pc rfl rfl hdisabled
  case hcond =>
    rcases hm.eventNotify hqp with ⟨rfl, hnot, hm'⟩ | ⟨t, rfl, ht, -, m', hm'⟩
    · use true
      apply hm'.congr
      intro u
      apply waits_goto_of_not (not_waits hfrom₁) (CondPc.ne_condBlocked hto)
    · use m'
      apply hm'.congr
      intro u
      apply (waits_goto_of_not (not_waits hfrom₁) (CondPc.ne_condBlocked hto) u).trans
      apply waits_wake_of_waits ht
  case hlock =>
    use ml
    apply hml.congr
    intro u
    apply (locks_goto_of_not (not_locks hfrom₁) (CondPc.ne_lockBlocked hto) u).trans
    rcases hm.eventNotify hqp with ⟨rfl, -, -⟩ | ⟨t, rfl, ht, -⟩
    · rfl
    · apply locks_wake_of_waits ht
  case hplace =>
    apply hplace <;> simp [setQueue]

/-- The lock is free or held by the current thread, and so no other thread owns it. -/
theorem owner_ne (howner : s.lock.owner = none ∨ s.lock.owner = some s.current) {t : T}
    (ht : t ≠ s.current) :
  s.lock.owner ≠ some t
  := by
  rcases howner with howner | howner
  · simp [howner]
  · simpa [howner] using ht.symm

/-- The current thread takes the lock, when it is free or its own. -/
theorem acquire (h : Inv preempt s) {ret : LockRet}
    (howner : s.lock.owner = none ∨ s.lock.owner = some s.current)
    (hret : ret = .wait → s.lock.owner ≠ some s.current)
    (hnested : s.lock.owner = some s.current → s.locks s.current < 2 ^ 15 - 4)
    (hfrom : ¬ (s.pc s.current).Blocked)
    (hdisabled : (CondPc.afterLock ret).disabled + 1 = (s.pc s.current).disabled) :
  Inv preempt (s.acquire ret)
  := by
  have hto : ¬ (CondPc.afterLock ret).Blocked := by cases ret <;> exact id
  have hfree : s.lock.owner ≠ some s.current → s.locks s.current = 0 := by
    intro hne
    have := (h.locked.owner s.current).not.mpr hne
    omega
  have hcount : s.lock.count = s.locks s.current := by
    rcases howner with hnone | hself
    · rw [h.locked.free hnone, hfree (by simp [hnone])]
      rfl
    · apply h.locked.count _ hself
  apply h.frame
  case hframe =>
    constructor
    case current => rfl
    case pc =>
      intro t ht
      left
      apply goto_pc_of_ne _ _ ht
    case owner =>
      intro t ht
      simp [ConditionSystem.acquire, goto, Mutex.acquire, owner_ne howner ht, ht.symm]
    case locks =>
      intro t ht
      simp [ConditionSystem.acquire, goto, ht]
    case preemptCnt => simp [ConditionSystem.acquire, goto]
  case hlocked =>
    constructor
    case owner =>
      intro t
      by_cases ht : t = s.current
      · simp [ConditionSystem.acquire, goto, Mutex.acquire, ht]
      · simp [ConditionSystem.acquire, goto, Mutex.acquire, ht, Ne.symm ht, h.locked.owner,
          owner_ne howner ht]
    case count =>
      intro t ht
      obtain rfl : s.current = t := Option.some.inj ht
      simp [ConditionSystem.acquire, goto, Mutex.acquire, hcount]
    case free =>
      intro hnone
      cases hnone
  case hnested =>
    have hlocks : (s.acquire ret).locks s.current = s.locks s.current + 1 := by
      simp [ConditionSystem.acquire, goto]
    rw [hlocks]
    by_cases hself : s.lock.owner = some s.current
    · have := hnested hself
      omega
    · rw [hfree hself]
      decide
  case hlock =>
    obtain ⟨m, hm⟩ := h.lockQueue
    use m
    apply hm.congr
    intro t
    apply locks_goto_of_not (not_locks hfrom) (CondPc.ne_lockBlocked hto)
  case hcond =>
    obtain ⟨m, hm⟩ := h.condQueue
    use m
    apply hm.congr
    intro t
    apply waits_goto_of_not (not_waits hfrom) (CondPc.ne_condBlocked hto)
  case hplace =>
    cases ret with
    | caller => simp [Place, ConditionSystem.acquire, goto, CondPc.afterLock]
    | wait =>
        simp [Place, ConditionSystem.acquire, goto, CondPc.afterLock, Mutex.acquire,
          hfree (hret rfl)]
  case hcnt =>
    intro hpre
    have hcnt := h.counter hpre s.current
    have hself : (s.acquire ret).pc s.current = .afterLock ret := goto_pc_self _ _
    have hlocks : (s.acquire ret).locks s.current = s.locks s.current + 1 := by
      simp [ConditionSystem.acquire, goto]
    rw [hself, hlocks]
    change s.preemptCnt s.current = _
    omega

/-- The current thread, which owns the lock, begins to unlock it. -/
theorem release (h : Inv preempt s) {ret : LockRet} (howner : s.lock.owner = some s.current)
    (hret : ret = .wait → s.locks s.current = 1) (hfrom : ¬ (s.pc s.current).Blocked)
    (hdisabled : (CondPc.unlockEnd ret).disabled = (s.pc s.current).disabled + 1) :
  Inv preempt (s.release ret)
  := by
  have hcount := h.locked.count _ howner
  have hpos := (h.locked.owner _).mpr howner
  have hother {t : T} (ht : t ≠ s.current) : s.lock.owner ≠ some t := owner_ne (.inr howner) ht
  have hcnt (hpre : preempt = true) :
      s.preemptCnt s.current = (s.locks s.current - 1 : ℕ) + (CondPc.unlockEnd ret).disabled := by
    have := h.counter hpre s.current
    omega
  obtain ⟨m, hm⟩ := h.lockQueue
  obtain ⟨mc, hmc⟩ := h.condQueue
  rw [ConditionSystem.release]
  dsimp only
  split
  · rename_i hzero
    have hlocks : s.locks s.current = 1 := by omega
    apply h.frame
    case hframe =>
      constructor
      case current => rfl
      case pc =>
        intro t ht
        left
        apply goto_pc_of_ne _ _ ht
      case owner =>
        intro t ht
        simp [goto, hother ht]
      case locks =>
        intro t ht
        simp [goto, ht]
      case preemptCnt => simp [goto]
    case hlocked =>
      constructor
      case owner =>
        intro t
        by_cases ht : t = s.current
        · simp [goto, ht, hlocks]
        · simp [goto, ht, h.locked.owner, hother ht]
      case count => simp [goto]
      case free => simpa [goto] using hzero
    case hnested => simp [goto, hlocks]
    case hlock =>
      use m
      apply hm.congr
      intro t
      apply locks_goto_of_not (not_locks hfrom)
      simp
    case hcond =>
      use mc
      apply hmc.congr
      intro t
      apply waits_goto_of_not (not_waits hfrom)
      simp
    case hplace => simp [Place, goto]
    case hcnt =>
      intro hpre
      have hsame : (CondPc.unlockNotify ret).disabled = (CondPc.unlockEnd ret).disabled := by
        cases ret <;> rfl
      simpa [goto, hsame] using hcnt hpre
  · rename_i hzero
    have hlocks : s.locks s.current ≠ 1 := by omega
    apply h.frame
    case hframe =>
      constructor
      case current => rfl
      case pc =>
        intro t ht
        left
        apply goto_pc_of_ne _ _ ht
      case owner => simp [goto]
      case locks =>
        intro t ht
        simp [goto, ht]
      case preemptCnt => simp [goto]
    case hlocked =>
      constructor
      case owner =>
        intro t
        by_cases ht : t = s.current
        · simp only [goto, ht, Function.update_self, howner, iff_true]
          omega
        · simp [goto, ht, h.locked.owner]
      case count =>
        intro t ht
        obtain rfl : s.current = t := Option.some.inj (howner.symm.trans ht)
        simp only [goto, Function.update_self]
        omega
      case free => simp [goto, howner]
    case hnested =>
      have := h.nested s.current
      simp only [goto, Function.update_self]
      omega
    case hlock =>
      use m
      apply hm.congr
      intro t
      apply locks_goto_of_not (not_locks hfrom)
      simp
    case hcond =>
      use mc
      apply hmc.congr
      intro t
      apply waits_goto_of_not (not_waits hfrom)
      simp
    case hplace =>
      cases ret with
      | caller => simp [Place, goto]
      | wait => exact absurd (hret rfl) hlocks
    case hcnt =>
      intro hpre
      simpa [goto] using hcnt hpre

/-- A turn of the loop of `mutex_lock` while the lock is held. -/
theorem lockLoop (h : Inv preempt s) {ret : LockRet} (hpc : s.pc s.current = .lockLoop ret)
    {prio : T → Nat} {qp : ThreadQueue T} {waits : Bool}
    (hqp : s.lock.qp.rawEventWait prio s.current = some (qp, waits)) :
  Inv preempt ((s.setLockQueue qp).goto (if waits then .lockBlocked ret else .lockLoop ret))
  := by
  have hfrom : ¬ (s.pc s.current).Blocked := by
    rw [hpc]
    exact id
  have hplace : s.lock.owner ≠ some s.current := by
    simpa [Place, hpc] using h.place s.current
  obtain ⟨m, hm⟩ := h.lockQueue
  obtain ⟨mc, hmc⟩ := h.condQueue
  obtain ⟨rfl, hm'⟩ := hm.rawEventWait (not_locks hfrom) hqp
  apply h.wake_goto { s.lock with qp } s.qp none _ rfl rfl
  case hdisabled => cases m <;> cases ret <;> rw [hpc] <;> rfl
  case hlock =>
    use false
    apply hm'.congr
    intro t
    apply (locks_goto _ _ t).trans
    change t = s.current ∧ _ ∨ t ≠ s.current ∧ s.Locks t ↔ _
    have hnot := not_locks hfrom
    cases m
    · by_cases ht : t = s.current <;> simp [ht]
    · by_cases ht : t = s.current <;> simp [ht, hnot]
  case hcond =>
    use mc
    apply hmc.congr
    intro t
    apply waits_goto_of_not (not_waits hfrom)
    cases m <;> simp
  case hplace => cases m <;> simpa [Place, goto, wake] using hplace

/-- The current thread queues itself on the condition variable. -/
theorem enqueue (h : Inv preempt s) (hpc : s.pc s.current = .condEnqueue)
    {prio : T → Nat} {qp : ThreadQueue T} {waits : Bool}
    (hqp : s.qp.rawEventWait prio s.current = some (qp, waits)) :
  Inv preempt ((s.setQueue qp).goto (if waits then .condBlocked else .condWoken))
  := by
  have hfrom : ¬ (s.pc s.current).Blocked := by
    rw [hpc]
    exact id
  obtain ⟨hplace, -⟩ : s.lock.owner ≠ some s.current ∧ s.qp.qhead ≠ .signaled := by
    simpa [Place, hpc] using h.place s.current
  obtain ⟨ml, hml⟩ := h.lockQueue
  obtain ⟨m, hm⟩ := h.condQueue
  obtain ⟨rfl, hm'⟩ := hm.rawEventWait (not_waits hfrom) hqp
  apply h.wake_goto s.lock qp none _ rfl rfl
  case hdisabled => cases m <;> rw [hpc] <;> rfl
  case hcond =>
    use false
    apply hm'.congr
    intro t
    apply (waits_goto _ _ t).trans
    change t = s.current ∧ _ ∨ t ≠ s.current ∧ s.Waits t ↔ _
    have hnot := not_waits hfrom
    cases m
    · by_cases ht : t = s.current <;> simp [ht]
    · by_cases ht : t = s.current <;> simp [ht, hnot]
  case hlock =>
    use ml
    apply hml.congr
    intro t
    apply locks_goto_of_not (not_locks hfrom)
    cases m <;> simp
  case hplace => cases m <;> simpa [Place, goto, wake] using hplace

/-- The current thread takes the mark off the queue of the condition variable. -/
theorem clear (h : Inv preempt s) {pc : CondPc} (hqp : s.qp.qhead = .signaled)
    (hfrom : ¬ (s.pc s.current).Blocked) (hto : ¬ pc.Blocked)
    (hdisabled : pc.disabled = (s.pc s.current).disabled)
    (hplace : ((s.setQueue (s.qp.setQhead (.ptr none))).goto pc).Place s.current) :
  Inv preempt ((s.setQueue (s.qp.setQhead (.ptr none))).goto pc)
  := by
  obtain ⟨ml, hml⟩ := h.lockQueue
  obtain ⟨m, ⟨l, hl, hmem⟩, -⟩ := h.condQueue
  obtain rfl := hl.mark.mp hqp
  have hnil := hl.nil_of_mark
  apply h.wake_goto s.lock (s.qp.setQhead (.ptr none)) none pc rfl rfl hdisabled
  case hlock =>
    use ml
    apply hml.congr
    intro t
    apply locks_goto_of_not (not_locks hfrom) (CondPc.ne_lockBlocked hto)
  case hcond =>
    have hwaits (t : T) :
        t ∈ ([] : List T) ↔ ((s.setQueue (s.qp.setQhead (.ptr none))).goto pc).Waits t := by
      rw [← hnil, hmem]
      apply (waits_goto_of_not (not_waits hfrom) (CondPc.ne_condBlocked hto) t).symm
    refine ⟨false, ⟨[], hl.clear, hwaits⟩, ?_⟩
    intro t ht
    cases (hwaits t).mpr ht
  case hplace => apply hplace

/-- Where the scheduler can run, the current thread is at a place where a thread can rest. -/
theorem rests_of_preemptible (h : Inv preempt s) (hs : s.Preemptible preempt) :
  (s.pc s.current).Rests
  := by
  rcases hs with hyields | ⟨hpre, hzero⟩
  · apply hyields.rests
  · have hcnt := h.counter hpre s.current
    have hdisabled : (s.pc s.current).disabled = 0 := by omega
    have hlocks : ¬ 0 < s.locks s.current := by omega
    rw [h.locked.owner] at hlocks
    rcases CondPc.rests_of_disabled hdisabled with hrests | ⟨irqExec, tp, hpc⟩
    · apply hrests
    · have hplace := h.place s.current
      simp only [Place, hpc] at hplace
      exact absurd hplace.1 hlocks

theorem switch (h : Inv preempt s) (hs : s.Preemptible preempt) (tp : T) :
  Inv preempt { s with current := tp }
  := by
  constructor
  case locked => exact ⟨h.locked.owner, h.locked.count, h.locked.free⟩
  case nested => apply h.nested
  case lockQueue => apply h.lockQueue
  case condQueue => apply h.condQueue
  case rests =>
    intro t _
    by_cases ht : t = s.current
    · rw [ht]
      apply h.rests_of_preemptible hs
    · apply h.rests t ht
  case place => apply h.place
  case counter => apply h.counter

/-- A thread that goes on is on no queue. -/
theorem not_blocked_of_run {prio : T → Nat} {irqExec : Bool}
    (hs : s.run preempt prio irqExec = some s') :
  ¬ (s.pc s.current).Blocked
  := by
  intro hblocked
  rw [ConditionSystem.run] at hs
  cases hpc : s.pc s.current with
  | lockBlocked ret | condBlocked =>
      rw [hpc] at hs
      cases hs
  | _ =>
      rw [hpc] at hblocked
      exact hblocked

/-- Going on keeps the invariant, when the thread at the head of the queue is heeded. -/
theorem run (h : Inv preempt s) {prio : T → Nat} {irqExec : Bool}
    (hl : s.heeds (.run prio irqExec) = true) (hs : s.run preempt prio irqExec = some s') :
  Inv preempt s'
  := by
  have hfrom := not_blocked_of_run hs
  have hplace := h.place s.current
  rw [Place] at hplace
  rw [heeds] at hl
  rw [ConditionSystem.run] at hs
  cases hpc : s.pc s.current with
  | user | lockBlocked ret | condBlocked =>
      rw [hpc] at hs
      cases hs
  | lockTest ret =>
      simp only [hpc] at hs hplace hl
      obtain rfl := Option.some.inj hs
      split
      · rename_i howner
        cases ret with
        | caller =>
            apply h.acquire (.inr howner) (by simp) (of_decide_eq_true hl) hfrom
            rw [hpc]
            rfl
        | wait => exact absurd howner hplace
      · rename_i howner
        apply h.move hfrom id
        · simpa [Place, goto] using howner
        · cases ret <;> rw [hpc] <;> rfl
  | lockLoop ret =>
      simp only [hpc] at hs hplace
      split at hs
      · rename_i hcount
        obtain rfl := Option.some.inj hs
        apply h.acquire (.inl (h.locked.owner_eq_none hcount)) (fun _ => hplace)
          (fun howner => absurd howner hplace) hfrom
        cases ret <;> rw [hpc] <;> rfl
      · obtain ⟨⟨qp, waits⟩, hqp, rfl⟩ := Option.map_eq_some_iff.mp hs
        apply h.lockLoop hpc hqp
  | lockWoken ret =>
      simp only [hpc] at hs hplace
      obtain rfl := Option.some.inj hs
      apply h.move hfrom id
      · simpa [Place, goto] using hplace
      · cases ret <;> rw [hpc] <;> rfl
  | unlockNotify ret =>
      simp only [hpc] at hs hplace hl
      obtain rfl := Option.some.inj hs
      apply h.move hfrom id
      · simpa [Place, goto, hl] using hplace
      · cases ret <;> rw [hpc] <;> rfl
  | unlockAct ret irqExec tp =>
      simp only [hpc] at hs hplace
      obtain ⟨s₁, hs₁, rfl⟩ := Option.map_eq_some_iff.mp hs
      apply h.notifyLock hplace.2 hs₁ hfrom id
      · cases ret <;> rw [hpc] <;> rfl
      · intro hcur howner
        cases ret <;> simp [Place, goto, howner, hplace.1, hcur]
  | unlockEnd ret =>
      simp only [hpc] at hs hplace
      obtain rfl := Option.some.inj hs
      apply h.add_goto hfrom
      · cases ret <;> exact id
      · cases ret with
        | caller => simp [Place, goto, CondPc.afterUnlock]
        | wait => simpa [Place, goto, CondPc.afterUnlock] using hplace
      · cases ret <;> rw [hpc] <;> rfl
  | condUnlock =>
      simp only [hpc] at hs hplace
      obtain rfl := Option.some.inj hs
      apply h.release hplace.1 (fun _ => hplace.2) hfrom
      rw [hpc]
      rfl
  | condDiscard =>
      simp only [hpc] at hs hplace
      obtain rfl := Option.some.inj hs
      split
      · rename_i hqp
        apply h.clear hqp hfrom id (by rw [hpc]; rfl)
        simpa [Place, goto, setQueue, ThreadQueue.qhead, ThreadQueue.setQhead] using hplace
      · rename_i hqp
        apply h.move hfrom id
        · simp [Place, goto, hplace, hqp]
        · rw [hpc]
          rfl
  | condEnqueue =>
      simp only [hpc] at hs
      obtain ⟨⟨qp, waits⟩, hqp, rfl⟩ := Option.map_eq_some_iff.mp hs
      apply h.enqueue hpc hqp
  | condWoken =>
      simp only [hpc] at hs hplace
      obtain rfl := Option.some.inj hs
      apply h.add_goto hfrom id
      · simpa [Place, goto] using hplace
      · rw [hpc]
        rfl
  | condEnd =>
      simp only [hpc] at hs hplace
      obtain rfl := Option.some.inj hs
      apply h.add_goto hfrom id
      · simp [Place, goto]
      · rw [hpc]
        rfl
  | sigAct irqExec tp =>
      simp only [hpc] at hs hplace
      obtain ⟨s₁, hs₁, rfl⟩ := Option.map_eq_some_iff.mp hs
      apply h.notify hplace.2 hs₁ hfrom id (by rw [hpc]; rfl)
      intro hcur _
      simp [Place, goto, hcur]
  | bcTest =>
      simp only [hpc] at hs hplace
      split at hs
      · rename_i hqp
        obtain rfl := Option.some.inj hs
        have hclear : Inv preempt (s.setQueue (s.qp.setQhead (.ptr none))) := by
          have hself : (s.setQueue (s.qp.setQhead (.ptr none))).goto .bcTest =
              s.setQueue (s.qp.setQhead (.ptr none)) := goto_self hpc
          rw [← hself]
          apply h.clear hqp hfrom id (by rw [hpc])
          rw [hself]
          simpa [Place, setQueue, hpc] using hplace
        apply hclear.add_goto hfrom id
        · simpa [Place, goto, setQueue] using hplace
        · change _ = ((s.pc s.current).disabled : Int) + _
          rw [hpc]
          rfl
      · obtain rfl := Option.some.inj hs
        apply h.add_goto hfrom id
        · simpa [Place, goto] using hplace
        · rw [hpc]
          rfl
      · obtain rfl := Option.some.inj hs
        apply h.move hfrom id
        · simpa [Place, goto] using hplace
        · rw [hpc]
          rfl
  | bcNotify =>
      simp only [hpc] at hs hplace hl
      obtain rfl := Option.some.inj hs
      apply h.move hfrom id
      · simpa [Place, goto, hl] using hplace
      · rw [hpc]
        rfl
  | bcAct irqExec tp =>
      simp only [hpc] at hs hplace
      obtain ⟨s₁, hs₁, rfl⟩ := Option.map_eq_some_iff.mp hs
      apply h.notify hplace.2 hs₁ hfrom id (by rw [hpc]; rfl)
      intro hcur howner
      simp [Place, goto, howner, hplace.1, hcur]
  | bcLoop =>
      simp only [hpc] at hs hplace
      obtain rfl := Option.some.inj hs
      split
      · apply h.move hfrom id
        · simpa [Place, goto] using hplace
        · rw [hpc]
          rfl
      · apply h.add_goto hfrom id
        · simpa [Place, goto] using hplace
        · rw [hpc]
          rfl
  | bcYield =>
      simp only [hpc] at hs hplace
      obtain rfl := Option.some.inj hs
      apply h.move hfrom id
      · simp [Place, goto]
      · rw [hpc]
        rfl

/-- A thread that waits has no event, so that the scheduler takes none off its queue. -/
theorem pass_eq_none (h : Inv preempt s) (tp : T) : s.pass tp = none := by
  obtain ⟨ml, hml⟩ := h.lockQueue
  obtain ⟨m, hm⟩ := h.condQueue
  rw [ConditionSystem.pass]
  split
  · rename_i ret hpc
    apply if_neg
    rw [not_not]
    apply hml.quiet tp ⟨ret, hpc⟩
  · rename_i hpc
    apply if_neg
    rw [not_not]
    apply hm.quiet tp hpc
  · rfl

/-- Every step that heeds the thread at the head of the queue keeps the invariant. -/
theorem step (h : Inv preempt s) {l : ConditionLabel T} (hl : s.heeds l = true)
    (hs : s.step preempt l = some s') :
  Inv preempt s'
  := by
  cases l with
  | lock =>
      simp only [ConditionSystem.step] at hs
      split at hs
      · rename_i hpc
        obtain rfl := Option.some.inj hs
        apply h.add_goto (by rw [hpc]; exact id) id
        · simp [Place, goto]
        · rw [hpc]
          rfl
      · cases hs
  | unlock =>
      simp only [ConditionSystem.step] at hs
      split at hs
      · rename_i hpc
        obtain rfl := Option.some.inj hs
        apply h.release hpc.2 (by simp) (by rw [hpc.1]; exact id)
        rw [hpc.1]
        rfl
      · cases hs
  | wait =>
      simp only [ConditionSystem.step] at hs
      split at hs
      · rename_i hpc
        obtain rfl := Option.some.inj hs
        apply h.add_goto (by rw [hpc.1]; exact id) id
        · simp [Place, goto, hpc]
        · rw [hpc.1]
          rfl
      · cases hs
  | signal irqExec =>
      simp only [ConditionSystem.step] at hs
      split at hs
      · rename_i hpc
        have hprompt : s.qp.prompt irqExec = true := hl
        obtain rfl := Option.some.inj hs
        apply h.move (by rw [hpc.1]; exact id) id
        · simp [Place, goto, hpc, hprompt]
        · rw [hpc.1]
          rfl
      · cases hs
  | bcast =>
      simp only [ConditionSystem.step] at hs
      split at hs
      · rename_i hpc
        obtain rfl := Option.some.inj hs
        apply h.add_goto (by rw [hpc.1]; exact id) id
        · simp [Place, goto, hpc]
        · rw [hpc.1]
          rfl
      · cases hs
  | run prio irqExec => apply h.run hl hs
  | pass tp => simp [ConditionSystem.step, h.pass_eq_none] at hs
  | switch tp =>
      simp only [ConditionSystem.step] at hs
      split at hs
      · rename_i hpre
        obtain rfl := Option.some.inj hs
        apply h.switch hpre.1
      · cases hs

end Inv

end ConditionSystem

end Etaos
