import Etaos.Sched.System
import Etaos.Sched.Wake

/-!
# The stages of a thread

Which stage of a thread follows which.  A step moves at most the current thread to another
stage, and it changes what the system remembers of signals and interrupts at a few stages
only.
-/

set_option linter.unusedSectionVars false

namespace Etaos

variable {T Q : Type} [DecidableEq T] [DecidableEq Q]

/-- The first stage of a function. -/
def Op.stage : Op T Q → Pc T Q
  | .sleep _ => .sleepSchedule
  | .wait => .waitResched
  | .signal tp => .signalRun tp
  | .rqAddThread tp => .addTest tp .direct
  | .threadStart tp => .addTest tp .start
  | .yield => .yieldTest
  | .eventWait qp ms => .eventWaitDiscard qp ms
  | .rawEventWait qp ms => .rawWaitTest qp ms
  | .eventNotify qp => .notifySample qp
  | .idleThreadFunc => .schedule
  | .irqHandleFn => .irqLoop

/-- The stages that may follow a stage in the code of a function. -/
def Pc.Follows : Pc T Q → Pc T Q → Prop
  | .user, _ => False
  | .schedule, pc => pc = .user
  | .sleepSchedule, pc => pc = .user
  | .waitResched, pc => pc = .waitStop
  | .waitStop, pc => pc = .waitSchedule
  | .waitSchedule, pc => pc = .waitReturn
  | .waitReturn, pc => pc = .user
  | .signalRun tp, pc => pc = .addTest tp .signal
  | .addTest tp ret, pc => pc = .addRemove tp ret ∨ pc = .addLink tp ret
  | .addRemove tp ret, pc => pc = .addSchedule tp ret ∨ pc = .addLink tp ret
  | .addSchedule tp ret, pc => pc = .addLink tp ret
  | .addLink tp ret, pc => pc = .addMark tp ret
  | .addMark _ ret, pc => pc = if ret = .signal then .yieldTest else .user
  | .yieldTest, pc => pc = .schedule
  | .eventWaitDiscard qp ms, pc => pc = .rawWaitTest qp ms
  | .rawWaitTest qp ms, pc => pc = .user ∨ pc = .rawWaitPrepare qp ms
  | .rawWaitPrepare qp _, pc => pc = .rawWaitAdd qp
  | .rawWaitAdd qp, pc => pc = .rawWaitSchedule qp
  | .rawWaitSchedule qp, pc => pc = .rawWaitReturn qp
  | .rawWaitReturn _, pc => pc = .user
  | .notifySample qp, pc => ∃ tp, pc = .notifyDecide qp tp
  | .notifyDecide _ _, pc => pc = .user
  | .irqLoop, pc => pc = .irqWaitResched
  | .irqWaitResched, pc => pc = .irqWaitStop
  | .irqWaitStop, pc => pc = .irqWaitSchedule
  | .irqWaitSchedule, pc => pc = .irqWaitReturn
  | .irqWaitReturn, pc => pc = .irqHandler
  | .irqHandler, pc => pc = .irqLoop

namespace System

/-- Whether the call of a function does more than to test a flag. -/
def acts (s : System T Q) : Op T Q → Bool
  | .signal tp => (s.k.thr tp).waiting
  | _ => true

/-- The stages `pc` behind a step. -/
def PcBy (s : System T Q) (l : Label T Q) (pc : T → Pc T Q) : Prop :=
  match l with
  | .call op => s.pc s.k.current = .user ∧
      pc = if s.acts op then Function.update s.pc s.k.current op.stage else s.pc
  | .run => ∃ next, (s.pc s.k.current).Follows next ∧
      pc = Function.update s.pc s.k.current next
  | _ => pc = s.pc

/-- What a step does to the threads that were signalled. -/
def signalledBy (s : System T Q) : Label T Q → T → Bool
  | .call (.signal tp) =>
      if (s.k.thr tp).waiting then
        Function.update s.signalled tp true
      else
        s.signalled
  | .run =>
      match s.pc s.k.current with
      | .waitReturn => Function.update s.signalled s.k.current false
      | _ => s.signalled
  | _ => s.signalled

/-- What a step does to the interrupts that wait for their handlers. -/
def pendingBy (s : System T Q) : Label T Q → T → Bool
  | .irqArrive tp => Function.update s.pending tp true
  | .run =>
      match s.pc s.k.current with
      | .irqWaitReturn => Function.update s.pending s.k.current false
      | _ => s.pending
  | _ => s.pending

/-- The flag `THREAD_WAITING_FLAG` of a thread. -/
def waiting (s : System T Q) (tp : T) : Bool := (s.k.thr tp).waiting

/-- What a step does to the flags `THREAD_WAITING_FLAG`. -/
def waitingBy (s : System T Q) : Label T Q → T → Bool
  | .call .wait => Function.update s.waiting s.k.current true
  | .call (.signal tp) => Function.update s.waiting tp false
  | .irqArrive tp =>
      if (s.k.thr tp).onRq then
        s.waiting
      else
        Function.update s.waiting tp false
  | .run =>
      match s.pc s.k.current with
      | .irqLoop => Function.update s.waiting s.k.current true
      | _ => s.waiting
  | _ => s.waiting

theorem signalledBy_run (s : System T Q) :
  s.signalledBy .run = if s.pc s.k.current = .waitReturn then
      Function.update s.signalled s.k.current false
    else
      s.signalled
  := by
  rw [signalledBy]
  split
  · rename_i hpc
    rw [if_pos hpc]
  · rename_i hpc
    rw [if_neg hpc]

theorem pendingBy_run (s : System T Q) :
  s.pendingBy .run = if s.pc s.k.current = .irqWaitReturn then
      Function.update s.pending s.k.current false
    else
      s.pending
  := by
  rw [pendingBy]
  split
  · rename_i hpc
    rw [if_pos hpc]
  · rename_i hpc
    rw [if_neg hpc]

theorem waitingBy_run (s : System T Q) :
  s.waitingBy .run = if s.pc s.k.current = .irqLoop then
      Function.update s.waiting s.k.current true
    else
      s.waiting
  := by
  rw [waitingBy]
  split
  · rename_i hpc
    rw [if_pos hpc]
  · rename_i hpc
    rw [if_neg hpc]

/-- The current thread stays, and the flags `THREAD_WAITING_FLAG` and
`THREAD_SLEEPING_FLAG` of every thread. -/
structure Steady (k k' : Kernel T Q) : Prop where
  current : k'.current = k.current
  waiting : ∀ u, (k'.thr u).waiting = (k.thr u).waiting
  sleeping : ∀ u, (k'.thr u).sleeping = (k.thr u).sleeping

namespace Steady

variable {k k₁ k' : Kernel T Q} {cfg : Config Q}

theorem of_thr (hcurrent : k'.current = k.current) (hthr : k'.thr = k.thr) : Steady k k' := by
  use hcurrent
  · intro u
    rw [hthr]
  · intro u
    rw [hthr]

theorem refl (k : Kernel T Q) : Steady k k := of_thr rfl rfl

theorem trans (h : Steady k k₁) (h' : Steady k₁ k') : Steady k k' := by
  use h'.current.trans h.current
  · intro u
    rw [h'.waiting, h.waiting]
  · intro u
    rw [h'.sleeping, h.sleeping]

/-- The record of a thread changes, but not in these flags. -/
theorem modify (h : Steady k k₁) (u : T) {f : Thread → Thread}
    (hf : ∀ th, (f th).waiting = th.waiting ∧ (f th).sleeping = th.sleeping) :
  Steady k (k₁.modify u f)
  := by
  use h.current
  · intro v
    by_cases hv : v = u
    · rw [hv, Kernel.modify_thr_self, (hf _).1, h.waiting]
    · rw [Kernel.modify_thr_of_ne _ _ _ hv, h.waiting]
  · intro v
    by_cases hv : v = u
    · rw [hv, Kernel.modify_thr_self, (hf _).2, h.sleeping]
    · rw [Kernel.modify_thr_of_ne _ _ _ hv, h.sleeping]

variable [Fintype T]

theorem addThread {tp : T} (hk : k.addThread cfg tp = some k') : Steady k k' := by
  obtain ⟨links, -, rfl⟩ := Option.map_eq_some_iff.mp hk
  exact of_thr rfl rfl

theorem rmThread {tp : T} {rc : Int} (hk : k.rmThread tp = some (k', rc)) : Steady k k' := by
  obtain ⟨⟨links, rc'⟩, -, hk⟩ := Option.map_eq_some_iff.mp hk
  dsimp only at hk
  split at hk
  · obtain ⟨rfl, -⟩ := Prod.mk.inj hk
    exact of_thr rfl rfl
  · obtain ⟨rfl, -⟩ := Prod.mk.inj hk
    exact of_thr rfl rfl

theorem rqAddThreadLocked {tp : T} (hk : k.rqAddThreadLocked cfg tp = some k') :
  Steady k k'
  := by
  obtain ⟨k₁, hk₁, rfl⟩ := Option.map_eq_some_iff.mp hk
  apply (addThread hk₁).modify
  simp

theorem rawRqAddThread {tp : T} (hk : k.rawRqAddThread cfg tp = some k') : Steady k k' := by
  obtain ⟨k₁, hk₁, rfl⟩ := Option.map_eq_some_iff.mp hk
  apply (addThread hk₁).modify
  simp

theorem rawRqRemoveThreadNoresched {tp : T} {err : Int}
    (hk : k.rawRqRemoveThreadNoresched tp = some (k', err)) :
  Steady k k'
  := by
  rw [Kernel.rawRqRemoveThreadNoresched] at hk
  split at hk
  · obtain ⟨rfl, -⟩ := Prod.mk.inj (Option.some.inj hk)
    apply refl
  · split at hk
    · obtain ⟨rfl, -⟩ := Prod.mk.inj (Option.some.inj hk)
      apply (refl k).modify
      simp
    · obtain ⟨⟨k₁, rc⟩, hk₁, hk⟩ := Option.map_eq_some_iff.mp hk
      obtain ⟨rfl, -⟩ := Prod.mk.inj hk
      have hstop : Steady k (k.modify tp fun th => { th with running := false }) := by
        apply (refl k).modify
        simp
      apply (hstop.trans (rmThread hk₁)).modify
      simp

theorem removeIfRunning {tp : T} (hk : k.removeIfRunning tp = some k') : Steady k k' := by
  rw [Kernel.removeIfRunning] at hk
  split at hk
  · obtain ⟨⟨k₁, err⟩, hk₁, rfl⟩ := Option.map_eq_some_iff.mp hk
    apply rawRqRemoveThreadNoresched hk₁
  · obtain rfl := Option.some.inj hk
    apply refl

theorem queueAddThread {qp : Q} {tp : T} (hk : k.queueAddThread cfg qp tp = some k') :
  Steady k k'
  := by
  simp only [Kernel.queueAddThread, Option.bind_eq_bind, Option.bind_eq_some_iff] at hk
  obtain ⟨k₁, hk₁, links, -, hk⟩ := hk
  obtain rfl := Option.some.inj hk
  apply (removeIfRunning hk₁).trans
  exact of_thr rfl rfl

theorem rqAddThread {tp : T} (hk : k.rqAddThread cfg tp = some k') : Steady k k' := by
  simp only [Kernel.rqAddThread, Option.bind_eq_bind, Option.bind_eq_some_iff] at hk
  obtain ⟨k₁, hk₁, k₂, hk₂, hk⟩ := hk
  obtain rfl := Option.some.inj hk
  apply ((removeIfRunning hk₁).trans (rqAddThreadLocked hk₂)).modify
  simp

theorem queueRemoveThread {qp : Q} {tp : T} (hk : k.queueRemoveThread qp tp = some k') :
  Steady k k'
  := by
  obtain ⟨⟨links, rc⟩, -, rfl⟩ := Option.map_eq_some_iff.mp hk
  exact of_thr rfl rfl

theorem signalIfEmpty (h : Steady k k₁) (qp : Q) : Steady k (k₁.signalIfEmpty qp) := by
  obtain ⟨links, irqStart, hsignal⟩ := k₁.signalIfEmpty_frame qp
  rw [hsignal]
  apply h.trans
  exact of_thr rfl rfl

theorem stopTimer (h : Steady k k₁) (tp : T) : Steady k (k₁.stopTimer tp) := by
  rw [Kernel.stopTimer]
  split
  · apply h.trans
    exact of_thr rfl rfl
  · apply h

theorem clearTimer (h : Steady k k₁) (tp : T) : Steady k (k₁.clearTimer tp) := by
  rw [Kernel.clearTimer]
  split
  · apply h.modify
    simp
  · apply h

theorem reschedFor (h : Steady k k₁) (tp : T) : Steady k (k₁.reschedFor tp) := by
  obtain ⟨b, hb⟩ := k₁.reschedFor_frame tp
  rw [hb]
  apply h.modify
  simp

/-- The wake-up of `event_notify`. -/
theorem rawEventNotify {qp : Q} {tp : T} (hk : k.rawEventNotify cfg qp tp = some k') :
  Steady k k'
  := by
  simp only [Kernel.rawEventNotify, Option.bind_eq_bind, Option.bind_eq_some_iff] at hk
  obtain ⟨k₁, hk₁, hk⟩ := hk
  have hwake : Steady k (k.rqRemoveWakeThread tp) := of_thr rfl rfl
  have hcount (k₁ : Kernel T Q) : Steady k₁ (k₁.countWake tp) := of_thr rfl rfl
  have hsignal := (hwake.trans (queueRemoveThread hk₁)).signalIfEmpty qp
  have htaken := ((hsignal.trans (hcount _)).stopTimer tp).clearTimer tp
  split at hk
  · obtain ⟨k₂, hk₂, rfl⟩ := Option.map_eq_some_iff.mp hk
    apply (htaken.trans (rqAddThread hk₂)).reschedFor
  · obtain rfl := Option.some.inj hk
    apply htaken.modify
    simp

end Steady

/-- A step at which `event_notify` takes a mark or `NULL` for a thread. -/
def Misread (s : System T Q) (l : Label T Q) : Prop :=
  l = .run ∧ ∃ qp, s.pc s.k.current = .notifyDecide qp .thread ∧ s.sample qp ≠ .thread

/-- What a step does to the stages of the threads, and to what is recorded of signals,
interrupts and failures. -/
structure Moved (s : System T Q) (l : Label T Q) (s' : System T Q) : Prop where
  pc : s.PcBy l s'.pc
  signalled : s'.signalled = s.signalledBy l
  pending : s'.pending = s.pendingBy l
  fault : s'.fault = true → s.fault = true ∨ s.Misread l
  waiting : l ≠ .pass → s'.waiting = s.waitingBy l
  sleeping : l ≠ .pass → ∀ u, (s'.k.thr u).sleeping = true →
    (s.k.thr u).sleeping = true ∨ (∃ ms, l = .call (.sleep ms)) ∧ u = s.k.current

omit [DecidableEq Q] in
theorem goto_k (s : System T Q) (pc : Pc T Q) : (s.goto pc).k = s.k := rfl

/-- Two systems that agree outside of the kernel, with the same current thread and flags
`THREAD_WAITING_FLAG`. -/
structure SameStages (s s' : System T Q) : Prop where
  steady : Steady s.k s'.k
  pc : s'.pc = s.pc
  signalled : s'.signalled = s.signalled
  pending : s'.pending = s.pending
  fault : s'.fault = s.fault

namespace SameStages

variable {s s₁ s' : System T Q}

theorem refl (s : System T Q) : SameStages s s := ⟨Steady.refl s.k, rfl, rfl, rfl, rfl⟩

theorem trans (h : SameStages s s₁) (h' : SameStages s₁ s') : SameStages s s' := by
  constructor
  case steady => apply h.steady.trans h'.steady
  case pc => exact h'.pc.trans h.pc
  case signalled => exact h'.signalled.trans h.signalled
  case pending => exact h'.pending.trans h.pending
  case fault => exact h'.fault.trans h.fault

theorem setKernel {k : Kernel T Q} (h : Steady s.k k) : SameStages s (s.setKernel k) :=
  ⟨h, rfl, rfl, rfl, rfl⟩

theorem own (s : System T Q) {f : Thread → Thread}
    (hf : ∀ th, (f th).waiting = th.waiting ∧ (f th).sleeping = th.sleeping) :
  SameStages s (s.own f)
  := setKernel ((Steady.refl s.k).modify _ hf)

theorem setSched (s : System T Q) (p : SchedPoint) : SameStages s (s.setSched p) :=
  ⟨Steady.refl s.k, rfl, rfl, rfl, rfl⟩

/-- The function `preempt_enable` moves no thread to another stage. -/
theorem preemptEnable (cfg : Config Q) (s : System T Q) :
  SameStages s (s.preemptEnable cfg)
  := by
  obtain ⟨n, hn | hn⟩ := preemptEnable_eq cfg s
  · rw [hn]
    apply own
    simp
  · rw [hn]
    apply trans (own s _) (setSched _ _)
    simp

theorem preemptDisable (cfg : Config Q) (s : System T Q) :
  SameStages s (s.preemptDisable cfg)
  := by
  obtain ⟨n, hn⟩ := preemptDisable_eq cfg s
  rw [hn]
  apply own
  simp

theorem waiting_eq (h : SameStages s s') : s'.waiting = s.waiting := by
  funext u
  apply h.steady.waiting

/-- A step that changes the stages only. -/
theorem moved {l : Label T Q} (h : SameStages s s₁) (hk : s'.k = s₁.k) (hpc : s.PcBy l s'.pc)
    (hsignalled : s'.signalled = s.signalledBy l) (hpending : s'.pending = s.pendingBy l)
    (hfault : s'.fault = true → s.fault = true ∨ s.Misread l)
    (hwaiting : s.waitingBy l = s.waiting) :
  Moved s l s'
  := by
  constructor
  case pc => apply hpc
  case signalled => apply hsignalled
  case pending => apply hpending
  case fault => apply hfault
  case waiting =>
    intro _
    rw [hwaiting, ← h.waiting_eq]
    funext u
    rw [waiting, waiting, hk]
  case sleeping =>
    intro _ u hsleeping
    left
    rw [← h.steady.sleeping, ← hk, hsleeping]

/-- A step at which no thread moves to another stage. -/
theorem stay {l : Label T Q} (h : SameStages s s') (hpc : s.PcBy l s.pc)
    (hsignalled : s.signalledBy l = s.signalled) (hpending : s.pendingBy l = s.pending)
    (hwaiting : s.waitingBy l = s.waiting) :
  Moved s l s'
  := by
  apply h.moved rfl
  · rw [h.pc]
    apply hpc
  · exact h.signalled.trans hsignalled.symm
  · exact h.pending.trans hpending.symm
  · intro hfault
    left
    rw [← h.fault, hfault]
  · apply hwaiting

/-- The current thread calls a function. -/
theorem call (h : SameStages s s') {op : Op T Q} (huser : s.pc s.k.current = .user)
    (hacts : s.acts op = true) (hsignalled : s.signalledBy (.call op) = s.signalled)
    (hwaiting : s.waitingBy (.call op) = s.waiting) :
  Moved s (.call op) (s'.goto op.stage)
  := by
  apply h.moved (goto_k s' _)
  · use huser
    rw [if_pos hacts, System.goto, h.steady.current, h.pc]
  · exact h.signalled.trans hsignalled.symm
  · apply h.pending
  · intro hfault
    exact .inl (h.fault.symm.trans hfault)
  · apply hwaiting

/-- The current thread goes on to another stage. -/
theorem run (h : SameStages s s') {pc : Pc T Q} (hfollows : (s.pc s.k.current).Follows pc)
    (hsignalled : s.signalledBy .run = s.signalled) (hpending : s.pendingBy .run = s.pending)
    (hwaiting : s.waitingBy .run = s.waiting) :
  Moved s .run (s'.goto pc)
  := by
  apply h.moved (goto_k s' _)
  · use pc, hfollows
    rw [System.goto, h.steady.current, h.pc]
  · exact h.signalled.trans hsignalled.symm
  · exact h.pending.trans hpending.symm
  · intro hfault
    exact .inl (h.fault.symm.trans hfault)
  · apply hwaiting

end SameStages

variable {s s' : System T Q} {cfg : Config Q}

variable [Fintype T]

/-! ### The stages -/

/-- The current thread sets its flag `THREAD_WAITING_FLAG`. -/
theorem setWaiting_moved {l : Label T Q} {pc : Pc T Q}
    (hpc : s.PcBy l (Function.update s.pc s.k.current pc))
    (hsignalled : s.signalledBy l = s.signalled) (hpending : s.pendingBy l = s.pending)
    (hwaiting : s.waitingBy l = Function.update s.waiting s.k.current true) :
  Moved s l ((s.own fun th => { th with waiting := true }).goto pc)
  := by
  constructor
  case pc => apply hpc
  case signalled => apply hsignalled.symm
  case pending => apply hpending.symm
  case fault => exact Or.inl
  case waiting =>
    intro _
    rw [hwaiting]
    funext u
    by_cases hu : u = s.k.current
    · simp [waiting, own, System.goto, hu]
    · simp [waiting, own, System.goto, hu]
  case sleeping =>
    intro _ u hsleeping
    left
    by_cases hu : u = s.k.current
    · simpa [own, System.goto, hu] using hsleeping
    · simpa [own, System.goto, hu] using hsleeping

/-- The call of a function moves the current thread to its first stage. -/
theorem call_moved {op : Op T Q} (huser : s.pc s.k.current = .user)
    (hs : s.call cfg op = some s') :
  Moved s (.call op) s'
  := by
  cases op with
  | sleep ms =>
      simp only [System.call] at hs
      split at hs
      · obtain rfl := Option.some.inj hs
        constructor
        case pc => exact ⟨huser, rfl⟩
        case signalled => rfl
        case pending => rfl
        case fault => exact Or.inl
        case waiting =>
          intro _
          funext u
          by_cases hu : u = s.k.current
          · simp [waiting, waitingBy, schedSetupSleepThread, own, setKernel, System.goto,
              Kernel.timerCreate, hu]
          · simp [waiting, waitingBy, schedSetupSleepThread, own, setKernel, System.goto,
              Kernel.timerCreate, hu]
        case sleeping =>
          intro _ u hsleeping
          by_cases hu : u = s.k.current
          · exact .inr ⟨⟨ms, rfl⟩, hu⟩
          · left
            simpa [schedSetupSleepThread, own, setKernel, System.goto, Kernel.timerCreate, hu]
              using hsleeping
      · cases hs
  | wait =>
      obtain rfl := Option.some.inj hs
      exact setWaiting_moved ⟨huser, rfl⟩ rfl rfl rfl
  | signal tp =>
      simp only [System.call] at hs
      split at hs
      · rename_i hwaiting
        obtain rfl := Option.some.inj hs
        constructor
        case pc =>
          have hacts : s.acts (.signal tp) = true := hwaiting
          use huser
          rw [if_pos hacts]
          rfl
        case signalled => simp [signalledBy, hwaiting, System.goto]
        case pending => rfl
        case fault => exact Or.inl
        case waiting =>
          intro _
          funext u
          by_cases hu : u = tp
          · simp [waiting, waitingBy, System.goto, hu]
          · simp [waiting, waitingBy, System.goto, hu]
        case sleeping =>
          intro _ u hsleeping
          left
          by_cases hu : u = tp
          · simpa [System.goto, hu] using hsleeping
          · simpa [System.goto, hu] using hsleeping
      · rename_i hwaiting
        obtain rfl := Option.some.inj hs
        apply (SameStages.refl s).stay
        · have hacts : ¬ s.acts (.signal tp) = true := hwaiting
          use huser
          rw [if_neg hacts]
        · simp [signalledBy, hwaiting]
        · rfl
        · have hclear : s.waiting tp = false := by simpa [waiting] using hwaiting
          rw [waitingBy, ← hclear, Function.update_eq_self]
  | threadStart tp =>
      obtain rfl := Option.some.inj hs
      exact (SameStages.preemptDisable cfg s).call huser rfl rfl rfl
  | idleThreadFunc =>
      obtain rfl := Option.some.inj hs
      have hown : SameStages s (s.own fun th => { th with needResched := true }) := by
        apply SameStages.own
        simp
      exact hown.call huser rfl rfl rfl
  | rqAddThread | yield | eventWait | rawEventWait | eventNotify | irqHandleFn =>
      obtain rfl := Option.some.inj hs
      exact (SameStages.refl s).call huser rfl rfl rfl

/-- The stages of `event_notify` behind its read of the head move no thread; they fail when
they take a mark or `NULL` for a thread. -/
theorem notify_cases {qp : Q} {v : Sample} (hs : s.notify cfg qp v = some s') :
  SameStages s s' ∨ v = .thread ∧ s.sample qp ≠ .thread ∧ s' = { s with fault := true }
  := by
  cases v with
  | null =>
      obtain rfl := Option.some.inj hs
      left
      exact .setKernel (Steady.of_thr rfl rfl)
  | signaled =>
      obtain rfl := Option.some.inj hs
      left
      apply SameStages.refl
  | thread =>
      rw [notify] at hs
      split at hs
      · obtain ⟨k, hk, rfl⟩ := Option.map_eq_some_iff.mp hs
        left
        exact .setKernel (Steady.rawEventNotify hk)
      · rename_i hhead
        obtain rfl := Option.some.inj hs
        refine .inr ⟨rfl, ?_, rfl⟩
        intro hsample
        cases hqp : s.k.links.head (.queue qp) with
        | signaled => simp [sample, hqp, Qhead.sample] at hsample
        | ptr p =>
            cases p with
            | none => simp [sample, hqp, Qhead.sample] at hsample
            | some tp => exact hhead tp hqp

/-- The stages of `raw_event_wait` before the thread is queued. -/
theorem rawWaitPrepare_sameStages (cfg : Config Q) (s : System T Q) (qp : Q) (ms : Nat) :
  ∃ s₁, SameStages s s₁ ∧ s.rawWaitPrepare cfg qp ms = s₁.goto (.rawWaitAdd qp)
  := by
  rw [rawWaitPrepare]
  dsimp only
  refine ⟨_, ?_, rfl⟩
  set s₁ := if ms = 0 then _ else _ with hs₁
  have h₁ : SameStages s s₁ := by
    rw [hs₁]
    split
    · apply SameStages.own
      simp
    · have htimer : SameStages s (s.setKernel (s.k.timerCreate cfg ms (.eventTmo qp))) :=
        .setKernel (Steady.of_thr rfl rfl)
      apply htimer.trans (SameStages.own _ _)
      simp
  have h₂ : SameStages s₁ (s₁.own fun th => { th with rq := true }) := by
    apply SameStages.own
    simp
  apply (h₁.trans h₂).trans
  exact .setKernel (Steady.of_thr rfl rfl)

/-- The next stage of the current thread. -/
theorem run_moved (hs : s.run cfg = some s') : Moved s .run s' := by
  have hown {f : Thread → Thread}
      (hf : ∀ th, (f th).waiting = th.waiting ∧ (f th).sleeping = th.sleeping) :
      SameStages s (s.own f) := SameStages.own s hf
  have hrefl : SameStages s s := SameStages.refl s
  rw [System.run] at hs
  cases hpc : s.pc s.k.current <;> rw [hpc] at hs
  case user => cases hs
  case waitReturn =>
    obtain rfl := Option.some.inj hs
    apply hrefl.moved
    · rfl
    · use .user
      rw [hpc]
      exact ⟨rfl, rfl⟩
    · simp [signalledBy, hpc, System.goto]
    · simp [pendingBy, hpc, System.goto]
    · exact Or.inl
    · simp [waitingBy, hpc]
  case irqWaitReturn =>
    obtain rfl := Option.some.inj hs
    apply hrefl.moved
    · rfl
    · use .irqHandler
      rw [hpc]
      exact ⟨rfl, rfl⟩
    · simp [signalledBy, hpc, System.goto]
    · simp [pendingBy, hpc, System.goto]
    · exact Or.inl
    · simp [waitingBy, hpc]
  case irqLoop =>
    obtain rfl := Option.some.inj hs
    apply setWaiting_moved
    · use .irqWaitResched
      rw [hpc]
      exact ⟨rfl, rfl⟩
    · simp [signalledBy, hpc]
    · simp [pendingBy, hpc]
    · simp [waitingBy, hpc]
  all_goals
    have hsignalled : s.signalledBy .run = s.signalled := by simp [signalledBy, hpc]
    have hpending : s.pendingBy .run = s.pending := by simp [pendingBy, hpc]
    have hwaiting : s.waitingBy .run = s.waiting := by simp [waitingBy, hpc]
    have hgoto {s₁ : System T Q} {pc : Pc T Q} (h : SameStages s s₁)
        (hfollows : (s.pc s.k.current).Follows pc) : Moved s .run (s₁.goto pc) :=
      h.run hfollows hsignalled hpending hwaiting
    rw [hpc] at hgoto
  case schedule | sleepSchedule | waitSchedule | addSchedule | rawWaitSchedule
      | irqWaitSchedule =>
    obtain rfl := Option.some.inj hs
    exact hgoto (.setSched s .enter) rfl
  case waitResched | waitStop | irqWaitResched | irqWaitStop =>
    obtain rfl := Option.some.inj hs
    exact hgoto (hown (by simp)) rfl
  case signalRun tp =>
    obtain rfl := Option.some.inj hs
    have hrunning : SameStages s
        (s.setKernel (s.k.modify tp fun th => { th with running := true })) := by
      apply SameStages.setKernel
      apply (Steady.refl s.k).modify
      simp
    exact hgoto hrunning rfl
  case addTest =>
    dsimp only at hs
    split at hs
    · obtain rfl := Option.some.inj hs
      exact hgoto hrefl (.inl rfl)
    · obtain rfl := Option.some.inj hs
      exact hgoto hrefl (.inr rfl)
  case addRemove =>
    obtain ⟨⟨k, err⟩, hk, rfl⟩ := Option.map_eq_some_iff.mp hs
    apply hgoto (.setKernel (Steady.rawRqRemoveThreadNoresched hk))
    split
    · exact .inl rfl
    · exact .inr rfl
  case addLink =>
    obtain ⟨k, hk, rfl⟩ := Option.map_eq_some_iff.mp hs
    exact hgoto (.setKernel (Steady.rqAddThreadLocked hk)) rfl
  case addMark tp ret =>
    obtain rfl := Option.some.inj hs
    have hmark : SameStages s
        (s.setKernel (s.k.modify tp fun th => { th with onRq := true, rq := true })) := by
      apply SameStages.setKernel
      apply (Steady.refl s.k).modify
      simp
    cases ret with
    | direct => exact hgoto hmark rfl
    | signal => exact hgoto hmark rfl
    | start => exact hgoto (hmark.trans (.preemptEnable cfg _)) rfl
  case yieldTest =>
    obtain ⟨s₁, hs₁, rfl⟩ := Option.map_eq_some_iff.mp hs
    obtain ⟨next, -, rfl⟩ := Option.map_eq_some_iff.mp hs₁
    split
    · exact hgoto (hown (by simp)) rfl
    · exact hgoto hrefl rfl
  case eventWaitDiscard =>
    dsimp only at hs
    split at hs
    · obtain rfl := Option.some.inj hs
      exact hgoto (.setKernel (Steady.of_thr rfl rfl)) rfl
    · obtain rfl := Option.some.inj hs
      exact hgoto hrefl rfl
  case rawWaitTest qp ms =>
    obtain rfl := Option.some.inj hs
    have hdisable := SameStages.preemptDisable cfg s
    rw [rawWaitTest]
    split
    · set s₁ := (s.preemptDisable cfg).setKernel
        ((s.preemptDisable cfg).k.setQhead qp (.ptr none)) with hs₁
      have hclear : SameStages (s.preemptDisable cfg) s₁ :=
        .setKernel (Steady.of_thr rfl rfl)
      have hsame := (hdisable.trans hclear).trans (.preemptEnable cfg s₁)
      have hrv : SameStages s { s₁.preemptEnable cfg with
          rv := Function.update (s₁.preemptEnable cfg).rv
            (s₁.preemptEnable cfg).k.current (-EOK) } :=
        ⟨hsame.steady, hsame.pc, hsame.signalled, hsame.pending, hsame.fault⟩
      exact hgoto hrv (.inl rfl)
    · exact hgoto hdisable (.inr rfl)
  case rawWaitPrepare qp ms =>
    dsimp only at hs
    split at hs
    · obtain rfl := Option.some.inj hs
      obtain ⟨s₁, hsame, hprepare⟩ := rawWaitPrepare_sameStages cfg s qp ms
      rw [hprepare]
      exact hgoto hsame rfl
    · cases hs
  case rawWaitAdd =>
    obtain ⟨k, hk, rfl⟩ := Option.map_eq_some_iff.mp hs
    obtain ⟨n, hn⟩ := preemptEnableNoResched_eq cfg (s.setKernel (k.resetWakes k.current))
    have hreset : Steady k (k.resetWakes k.current) := Steady.of_thr rfl rfl
    have hqueued : SameStages s (s.setKernel (k.resetWakes k.current)) :=
      .setKernel ((Steady.queueAddThread hk).trans hreset)
    rw [hn]
    exact hgoto (hqueued.trans (.own _ (by simp))) rfl
  case rawWaitReturn =>
    obtain rfl := Option.some.inj hs
    rw [rawWaitReturn]
    split
    · have hsame : SameStages s (s.own fun th => { th with timer := .null }) :=
        hown (by simp)
      have hrv (rv : T → Int) :
          SameStages s { s.own fun th => { th with timer := .null } with rv } :=
        ⟨hsame.steady, rfl, rfl, rfl, rfl⟩
      exact hgoto (hrv _) rfl
    · have hrv (rv : T → Int) : SameStages s { s with rv } :=
        ⟨Steady.refl s.k, rfl, rfl, rfl, rfl⟩
      exact hgoto (hrv _) rfl
  case notifySample =>
    obtain rfl := Option.some.inj hs
    exact hgoto hrefl ⟨_, rfl⟩
  case notifyDecide =>
    obtain ⟨s₁, hs₁, rfl⟩ := Option.map_eq_some_iff.mp hs
    rcases notify_cases hs₁ with hsame | ⟨rfl, hsample, rfl⟩
    · have hnotify := (SameStages.preemptDisable cfg s).trans hsame
      exact hgoto (hnotify.trans (.preemptEnable cfg s₁)) rfl
    · have hdisable := SameStages.preemptDisable cfg s
      have henable := SameStages.preemptEnable cfg { s.preemptDisable cfg with fault := true }
      have hsame : SameStages s { ({ s.preemptDisable cfg with fault := true }).preemptEnable cfg
          with fault := s.fault } :=
        ⟨hdisable.steady.trans henable.steady, henable.pc.trans hdisable.pc,
          henable.signalled.trans hdisable.signalled, henable.pending.trans hdisable.pending, rfl⟩
      apply hsame.moved
      · rfl
      · use .user
        rw [hpc]
        refine ⟨rfl, ?_⟩
        rw [System.goto, henable.steady.current, henable.pc]
        exact congrArg₂ (fun pc u => Function.update pc u _) hdisable.pc hdisable.steady.current
      · rw [hsignalled]
        exact henable.signalled.trans hdisable.signalled
      · rw [hpending]
        exact henable.pending.trans hdisable.pending
      · intro _
        refine .inr ⟨rfl, _, hpc, ?_⟩
        intro hthread
        apply hsample
        obtain ⟨n, hn⟩ := preemptDisable_eq cfg s
        rw [hn]
        exact hthread
      · apply hwaiting
  case irqHandler =>
    obtain rfl := Option.some.inj hs
    exact hgoto hrefl rfl

/-- A device interrupt that triggers an interrupt thread. -/
theorem irqThreadSignal_moved {tp : T} (hs : s.irqThreadSignal cfg tp = some s') :
  Moved s (.irqArrive tp) s'
  := by
  dsimp only [irqThreadSignal] at hs
  split at hs
  · rename_i honRq
    obtain rfl := Option.some.inj hs
    apply (SameStages.refl s).moved
    · rfl
    · rfl
    · rfl
    · rfl
    · exact Or.inl
    · rw [waitingBy, if_pos honRq]
  · rename_i honRq
    obtain ⟨k, hk, rfl⟩ := Option.map_eq_some_iff.mp hs
    have hresched := (Steady.rawRqAddThread hk).modify k.current
      (f := fun th => { th with preemptNeedResched := true }) (by simp)
    constructor
    case pc => rfl
    case signalled => rfl
    case pending => rfl
    case fault => exact Or.inl
    case waiting =>
      intro _
      rw [waitingBy, if_neg honRq]
      funext u
      refine (hresched.waiting u).trans ?_
      by_cases hu : u = tp
      · simp [hu]
      · simp [hu, waiting]
    case sleeping =>
      intro _ u hsleeping
      left
      have hbefore := (hresched.sleeping u).symm.trans hsleeping
      by_cases hu : u = tp
      · simpa [hu] using hbefore
      · simpa [hu] using hbefore

/-- What a step of the system does to the stages. -/
theorem step_moved {l : Label T Q} (hs : s.step cfg l = some s') : Moved s l s' := by
  rw [step] at hs
  split at hs
  · cases hs
  · cases l with
    | call op =>
        dsimp only [next] at hs
        split at hs
        · rename_i hready
          apply call_moved hready.2 hs
        · cases hs
    | run =>
        dsimp only [next] at hs
        split at hs
        · apply run_moved hs
        · cases hs
    | pass =>
        dsimp only [next] at hs
        split at hs
        · obtain ⟨k, -, rfl⟩ := Option.map_eq_some_iff.mp hs
          exact ⟨rfl, rfl, rfl, Or.inl, fun hpass => absurd rfl hpass,
            fun hpass => absurd rfl hpass⟩
        · cases hs
    | test =>
        dsimp only [next] at hs
        split at hs
        · obtain rfl := Option.some.inj hs
          exact (SameStages.setSched s _).stay rfl rfl rfl rfl
        · cases hs
    | interrupt slice =>
        dsimp only [next] at hs
        split at hs
        · obtain rfl := Option.some.inj hs
          have hown : SameStages s (s.own fun th =>
              { th with preemptNeedResched := th.preemptNeedResched || slice }) := by
            apply SameStages.own
            simp
          split
          · exact (hown.trans (.setSched _ _)).stay rfl rfl rfl rfl
          · exact hown.stay rfl rfl rfl rfl
        · cases hs
    | tick n =>
        obtain rfl := Option.some.inj hs
        have htick : SameStages s (s.setKernel { s.k with tick := s.k.tick + n }) :=
          .setKernel (Steady.of_thr rfl rfl)
        exact htick.stay rfl rfl rfl rfl
    | irqNotify qp =>
        obtain rfl := Option.some.inj hs
        have hnotify : SameStages s (s.eventNotifyIrq qp) := by
          dsimp only [eventNotifyIrq]
          split <;> exact .setKernel (Steady.of_thr rfl rfl)
        exact hnotify.stay rfl rfl rfl rfl
    | irqArrive tp => apply irqThreadSignal_moved hs

/-- A thread stays at its stage, or it is the current one and calls a function or goes on. -/
theorem Moved.pc_cases {l : Label T Q} (h : Moved s l s') (u : T) :
  s'.pc u = s.pc u ∨
    (u = s.k.current ∧ s.pc u = .user ∧
      ∃ op, l = .call op ∧ s.acts op = true ∧ s'.pc u = op.stage) ∨
    u = s.k.current ∧ l = .run ∧ (s.pc u).Follows (s'.pc u)
  := by
  have hpc := h.pc
  by_cases hu : u = s.k.current
  · subst hu
    cases l with
    | call op =>
        rw [hpc.2]
        split
        · rename_i hacts
          exact .inr (.inl ⟨rfl, hpc.1, op, rfl, hacts, Function.update_self _ _ _⟩)
        · apply Or.inl rfl
    | run =>
        obtain ⟨pc, hfollows, hpc⟩ := hpc
        rw [hpc, Function.update_self]
        exact .inr (.inr ⟨rfl, rfl, hfollows⟩)
    | pass | test | interrupt | tick | irqNotify | irqArrive =>
        left
        exact congrFun hpc s.k.current
  · left
    cases l with
    | call op =>
        rw [hpc.2]
        split
        · rw [Function.update_of_ne hu]
        · rfl
    | run =>
        obtain ⟨pc, -, hpc⟩ := hpc
        rw [hpc, Function.update_of_ne hu]
    | pass | test | interrupt | tick | irqNotify | irqArrive => exact congrFun hpc u

/-- A thread other than the current one stays at its stage. -/
theorem Moved.pc_of_ne {l : Label T Q} (h : Moved s l s') {u : T} (hu : u ≠ s.k.current) :
  s'.pc u = s.pc u
  := by
  rcases h.pc_cases u with hpc | ⟨hcurrent, -⟩ | ⟨hcurrent, -⟩
  · exact hpc
  · exact absurd hcurrent hu
  · exact absurd hcurrent hu

/-- The current thread runs a stage outside of the scheduler. -/
theorem step_run (hs : s.step cfg .run = some s') :
  s.sched s.k.current = .out ∧ s.run cfg = some s'
  := by
  rw [step] at hs
  split at hs
  · cases hs
  · dsimp only [next] at hs
    split at hs
    · rename_i hsched
      exact ⟨hsched, hs⟩
    · cases hs

/-- The current thread calls a function outside of the functions of the kernel. -/
theorem step_call {op : Op T Q} (hs : s.step cfg (.call op) = some s') :
  s.sched s.k.current = .out ∧ s.pc s.k.current = .user ∧ s.call cfg op = some s'
  := by
  rw [step] at hs
  split at hs
  · cases hs
  · dsimp only [next] at hs
    split at hs
    · rename_i hready
      exact ⟨hready.1, hready.2, hs⟩
    · cases hs

end System

end Etaos
