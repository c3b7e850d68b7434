import Etaos.Sched.Condition

/-!
# The promises of condition variables

A signal wakes the first thread on the queue of the condition variable, a broadcast wakes all of
them and returns, and `condition_wait` returns with the lock: in every state that the threads
reach by steps that heed the threads on the queues.  The last part shows what a thread that finds
the flag `CPU_IRQ_EXEC_FLAG` set does instead.
-/

set_option linter.unusedSectionVars false

namespace Etaos

namespace ConditionSystem

variable {T : Type} [DecidableEq T] [Fintype T]

/-! ### Signals and broadcasts -/

/-- The threads `l` are made runnable, and the other threads are where they were. -/
structure Woken (s s' : ConditionSystem T) (l : List T) : Prop where
  current : s'.current = s.current
  pc : ∀ t, t ≠ s.current → s'.pc t = if t ∈ l then .condWoken else s.pc t

namespace Woken

variable {s s' s'' : ConditionSystem T} {l l' : List T}

/-- What is woken by two steps one after the other. -/
theorem trans (h : Woken s s' l) (h' : Woken s' s'' l') : Woken s s'' (l ++ l') := by
  constructor
  case current => rw [h'.current, h.current]
  case pc =>
    intro t ht
    rw [h'.pc t (by rwa [h.current]), h.pc t ht]
    by_cases htl : t ∈ l <;> by_cases htl' : t ∈ l' <;> simp [htl, htl']

theorem add_goto (preempt : Bool) (num : Int) (s : ConditionSystem T) (pc : CondPc) :
  Woken s ((s.preemptAdd preempt num).goto pc) []
  := by
  constructor
  case current => simp [goto]
  case pc =>
    intro t ht
    rw [goto_pc_of_ne _ _ (by simpa using ht)]
    simp

theorem goto (s : ConditionSystem T) (pc : CondPc) : Woken s (s.goto pc) [] := by
  constructor
  case current => rfl
  case pc =>
    intro t ht
    rw [goto_pc_of_ne _ _ ht]
    simp

end Woken

section

variable {s : ConditionSystem T} {preempt : Bool} {prio : T → Nat} {irqExec : Bool}

/-- The call of `event_notify` in `condition_signal`. -/
theorem run_sigAct {irq : Bool} {tp : Sample} (hpc : s.pc s.current = .sigAct irq tp) :
  s.run preempt prio irqExec = (s.notify irq tp).map fun s => s.goto .user
  := by
  simp only [run, hpc]

/-- The steps of `raw_event_notify_broadcast`. -/
theorem run_bcNotify (hpc : s.pc s.current = .bcNotify) :
  s.run preempt prio irqExec = some (s.goto (.bcAct irqExec s.qp.qhead.sample))
  := by
  simp only [run, hpc]

/-- A turn of the broadcast notifies the queue. -/
theorem run_bcAct {irq : Bool} {tp : Sample} (hpc : s.pc s.current = .bcAct irq tp) :
  s.run preempt prio irqExec = (s.notify irq tp).map fun s => s.goto .bcLoop
  := by
  simp only [run, hpc]

/-- The broadcast goes on while there is a thread on the queue. -/
theorem run_bcLoop (hpc : s.pc s.current = .bcLoop) :
  s.run preempt prio irqExec = some (if s.qp.qhead.sample = .thread then s.goto .bcNotify
    else (s.preemptEnable preempt).goto .bcYield)
  := by
  simp only [run, hpc]

end

/-- A notification of the queue of the condition variable that heeds its head makes the first
thread on it runnable. -/
theorem notify_eq {s : ConditionSystem T} {m : Bool} {l : List T} (hl : s.qp.Holds m l)
    (hmem : ∀ t, t ∈ l ↔ s.Waits t) {irqExec : Bool} (hprompt : s.qp.prompt irqExec = true) :
  ∃ s', s.notify irqExec s.qp.qhead.sample = some s' ∧ Woken s s' l.head?.toList ∧
    s'.qp.Holds l.tail.isEmpty l.tail
  := by
  obtain ⟨qp, hqp, hl'⟩ := hl.eventNotify
  use (s.setQueue qp).wake l.head?
  refine ⟨?_, ?_, ?_⟩
  · rw [notify, ThreadQueue.eventNotify_eq hprompt, ThreadQueue.noticed_sample, hqp]
    rfl
  · constructor
    case current =>
      rw [current_wake]
      rfl
    case pc =>
      intro t _
      cases l with
      | nil => rfl
      | cons u l =>
          have hu : s.pc u = .condBlocked := (hmem u).mp List.mem_cons_self
          by_cases htu : t = u
          · simp [wake, setQueue, htu, hu, CondPc.wake]
          · simp [wake, setQueue, htu]
  · rw [qp_wake]
    apply hl'

namespace Inv

variable {s s' : ConditionSystem T} {preempt : Bool}

/-- The threads on the queue of the condition variable. -/
theorem exists_holds (h : Inv preempt s) :
  ∃ m l, s.qp.Holds m l ∧ ∀ t, t ∈ l ↔ s.Waits t
  := by
  obtain ⟨m, ⟨l, hl, hmem⟩, -⟩ := h.condQueue
  use m, l

/-- Where a thread cannot rest, it goes on, and no other step is possible. -/
theorem inevitable_of_run (h : Inv preempt s) (hrests : ¬ (s.pc s.current).Rests)
    {P : ConditionSystem T → Prop} (hclear : ∀ prio, s.heeds (.run prio false) = true)
    (hs : ∀ prio irqExec, s.heeds (.run prio irqExec) = true →
      s.run preempt prio irqExec = some s')
    (hP : Run.Inevitable (heedingStep preempt) P s') :
  Run.Inevitable (heedingStep preempt) P s
  := by
  have huser : s.pc s.current ≠ .user := by
    intro hpc
    apply hrests
    rw [hpc]
    trivial
  have hnot : ¬ s.Preemptible preempt := fun hpre => hrests (h.rests_of_preemptible hpre)
  apply Run.Inevitable.step
  · use .run (fun _ => 0) false, s'
    rw [heedingStep, Run.restrict_eq_some]
    use hclear _, hs _ _ (hclear _)
  · intro l t ht
    rw [heedingStep, Run.restrict_eq_some] at ht
    obtain ⟨hl, ht⟩ := ht
    cases l with
    | lock | unlock | wait | signal | bcast => simp [ConditionSystem.step, huser] at ht
    | run prio irqExec =>
        obtain rfl := Option.some.inj ((hs prio irqExec hl).symm.trans ht)
        apply hP
    | pass tp | switch tp => simp [ConditionSystem.step, hnot] at ht

/-- The queue of the condition variable holds the threads that wait on it. -/
theorem mem_iff (h : Inv preempt s) {m : Bool} {l : List T} (hl : s.qp.Holds m l) (t : T) :
  t ∈ l ↔ s.Waits t
  := by
  obtain ⟨m', l', hl', hmem⟩ := h.exists_holds
  have heq : l = l' := congrFun (hl.linked.unique hl'.linked) ()
  rw [heq, hmem]

/-- A signal that heeds the head of the queue wakes the first thread on it. -/
theorem signal (h : Inv preempt s) {m : Bool} {l : List T} (hl : s.qp.Holds m l)
    {irqExec : Bool} (hs : heedingStep preempt s (.signal irqExec) = some s') :
  Run.Inevitable (heedingStep preempt)
    (fun t => Woken s t l.head?.toList ∧ t.pc t.current = .user ∧ ∃ m', t.qp.Holds m' l.tail) s'
  := by
  rw [heedingStep, Run.restrict_eq_some] at hs
  obtain ⟨hprompt, hs⟩ := hs
  have h' := h.step hprompt hs
  simp only [ConditionSystem.step] at hs
  split at hs
  · obtain rfl := Option.some.inj hs
    let s₁ := s.goto (.sigAct irqExec s.qp.qhead.sample)
    have hpc : s₁.pc s₁.current = .sigAct irqExec s.qp.qhead.sample := goto_pc_current _ _
    have hl' : s₁.qp.Holds m l := hl
    obtain ⟨s₂, (hs₂ : s₁.notify irqExec s.qp.qhead.sample = some s₂), hwoken, hl₂⟩ :=
      notify_eq hl' (h'.mem_iff hl') hprompt
    have hrun (prio : T → Nat) (irq : Bool) : s₁.run preempt prio irq = some (s₂.goto .user) := by
      rw [run_sigAct hpc, hs₂]
      rfl
    have hclear (prio : T → Nat) : s₁.heeds (.run prio false) = true := by
      simp only [heeds, hpc]
    apply h'.inevitable_of_run (by rw [goto_pc_current]; exact id) hclear
      (fun prio irq _ => hrun prio irq)
    apply Run.Inevitable.here
    have hall := ((Woken.goto s _).trans hwoken).trans (Woken.goto s₂ .user)
    rw [List.nil_append, List.append_nil] at hall
    refine ⟨hall, goto_pc_current _ _, _, hl₂⟩
  · cases hs

/-- The loop of `raw_event_notify_broadcast` wakes all threads on the queue, when its
notifications heed them. -/
theorem broadcast :
    ∀ {l : List T} {tp : T} {s : ConditionSystem T} {m : Bool}, Inv preempt s →
      s.pc s.current = .bcNotify → s.qp.Holds m (tp :: l) →
      Run.Inevitable (heedingStep preempt)
        (fun t => Woken s t (tp :: l) ∧ t.pc t.current = .bcYield ∧ ∃ m', t.qp.Holds m' []) s
  | l, tp, s, m, h, hpc, hl => by
      have hclear (prio : T → Nat) : s.heeds (.run prio false) = true := by
        simp [heeds, hpc, ThreadQueue.prompt]
      let s₁ := s.goto (.bcAct false s.qp.qhead.sample)
      have hrun₁ (prio : T → Nat) : s.run preempt prio false = some s₁ := run_bcNotify hpc
      have h₁ := h.run (hclear fun _ => 0) (hrun₁ _)
      have hpc₁ : s₁.pc s₁.current = .bcAct false s.qp.qhead.sample := goto_pc_current _ _
      have hl₁ : s₁.qp.Holds m (tp :: l) := hl
      obtain ⟨s₂, (hs₂ : s₁.notify false s.qp.qhead.sample = some s₂), hwoken, hl₂⟩ :=
        notify_eq hl₁ (h₁.mem_iff hl₁) (ThreadQueue.prompt_false _)
      have hclear₁ (prio : T → Nat) (irq : Bool) : s₁.heeds (.run prio irq) = true := by
        simp only [heeds, hpc₁]
      have hrun₂ (prio : T → Nat) (irq : Bool) :
          s₁.run preempt prio irq = some (s₂.goto .bcLoop) := by
        rw [run_bcAct hpc₁, hs₂]
        rfl
      have h₂ := h₁.run (hclear₁ (fun _ => 0) false) (hrun₂ _ _)
      have hclear₂ (prio : T → Nat) (irq : Bool) :
          (s₂.goto .bcLoop).heeds (.run prio irq) = true := by
        simp only [heeds, goto_pc_current]
      have hall := ((Woken.goto s _).trans hwoken).trans (Woken.goto s₂ .bcLoop)
      rw [List.nil_append, List.append_nil] at hall
      have hl₃ : (s₂.goto .bcLoop).qp.Holds l.isEmpty l := hl₂
      apply h.inevitable_of_run (by rw [hpc]; exact id) hclear
      · intro prio irq hheeds
        -- The head is a thread, so that only a call with the flag clear heeds it.
        obtain rfl : irq = false := by
          simp only [heeds, hpc] at hheeds
          apply hl.prompt_cons.mp hheeds
        apply hrun₁ prio
      apply h₁.inevitable_of_run (by rw [hpc₁]; exact id) (fun prio => hclear₁ prio false)
        (fun prio irq _ => hrun₂ prio irq)
      cases l with
      | nil =>
          have hmark : (s₂.goto .bcLoop).qp.qhead.sample = .signaled :=
            hl₃.sample_eq_signaled.mpr rfl
          apply h₂.inevitable_of_run (by rw [goto_pc_current]; exact id)
            (fun prio => hclear₂ prio false)
          · intro prio irq _
            rw [run_bcLoop (goto_pc_current _ _), if_neg (by rw [hmark]; simp)]
          · apply Run.Inevitable.here
            have hend := hall.trans (Woken.add_goto preempt (-1) (s₂.goto .bcLoop) .bcYield)
            refine ⟨hend, goto_pc_current _ _, true, ?_⟩
            change ((s₂.goto .bcLoop).preemptAdd preempt (-1)).qp.Holds true []
            rw [qp_preemptAdd]
            apply hl₃
      | cons u l =>
          have hhead : (s₂.goto .bcLoop).qp.qhead.sample = .thread :=
            Qhead.sample_eq_thread.mpr ⟨u, hl₃.qhead_cons⟩
          have hrun₃ (prio : T → Nat) (irq : Bool) : (s₂.goto .bcLoop).run preempt prio irq =
              some ((s₂.goto .bcLoop).goto .bcNotify) := by
            rw [run_bcLoop (goto_pc_current _ _), if_pos hhead]
          have h₃ := h₂.run (hclear₂ (fun _ => 0) false) (hrun₃ _ _)
          apply h₂.inevitable_of_run (by rw [goto_pc_current]; exact id)
            (fun prio => hclear₂ prio false) (fun prio irq _ => hrun₃ prio irq)
          apply (broadcast h₃ (goto_pc_current _ _) hl₃).mono
          rintro t ⟨hwoken', hrest⟩
          exact ⟨(hall.trans (Woken.goto _ _)).trans hwoken', hrest⟩

/-- A broadcast wakes all threads on the queue and comes to its call of `yield`. -/
theorem bcast (h : Inv preempt s) {m : Bool} {l : List T} (hl : s.qp.Holds m l)
    (hs : heedingStep preempt s .bcast = some s') :
  Run.Inevitable (heedingStep preempt)
    (fun t => Woken s t l ∧ t.pc t.current = .bcYield ∧ ∃ m', t.qp.Holds m' []) s'
  := by
  rw [heedingStep, Run.restrict_eq_some] at hs
  obtain ⟨hheeds, hs⟩ := hs
  have h' := h.step hheeds hs
  simp only [ConditionSystem.step] at hs
  split at hs
  · obtain rfl := Option.some.inj hs
    rw [preemptDisable] at h' ⊢
    let s₁ := (s.preemptAdd preempt 1).goto .bcTest
    have hqp : s₁.qp = s.qp := qp_preemptAdd s preempt 1
    have hl₁ : s₁.qp.Holds m l := by rwa [hqp]
    have hpc : s₁.pc s₁.current = .bcTest := goto_pc_current _ _
    have hclear (prio : T → Nat) (irq : Bool) : s₁.heeds (.run prio irq) = true := by
      simp only [heeds, hpc]
    have hwoken : Woken s s₁ [] := Woken.add_goto preempt 1 s .bcTest
    cases l with
    | nil =>
        obtain ⟨s₂, m₂, hcur, hpc₂, hl₂, hrun⟩ : ∃ (s₂ : ConditionSystem T) (m₂ : Bool),
            s₂.current = s₁.current ∧ s₂.pc = s₁.pc ∧ s₂.qp.Holds m₂ [] ∧
            ∀ prio irq, s₁.run preempt prio irq =
              some ((s₂.preemptAdd preempt (-1)).goto .bcYield) := by
          cases hhead : s₁.qp.qhead with
          | signaled =>
              obtain rfl := hl₁.mark.mp hhead
              use s₁.setQueue (s₁.qp.setQhead (.ptr none)), false
              refine ⟨rfl, rfl, hl₁.clear, ?_⟩
              intro prio irq
              simp only [ConditionSystem.run, hpc, hhead]
              rfl
          | ptr p =>
              obtain rfl : none = p := hl₁.head?_eq hhead
              use s₁, m
              refine ⟨rfl, rfl, hl₁, ?_⟩
              intro prio irq
              simp only [ConditionSystem.run, hpc, hhead]
              rfl
        apply h'.inevitable_of_run (by rw [hpc]; exact id) (fun prio => hclear prio false)
          (fun prio irq _ => hrun prio irq)
        apply Run.Inevitable.here
        have hcleared : Woken s₁ s₂ [] := by
          constructor
          case current => apply hcur
          case pc => simp [hpc₂]
        refine ⟨(hwoken.trans hcleared).trans (Woken.add_goto preempt (-1) s₂ _),
          goto_pc_current _ _, m₂, ?_⟩
        change (s₂.preemptAdd preempt (-1)).qp.Holds m₂ []
        rwa [qp_preemptAdd]
    | cons t l =>
        have hrun (prio : T → Nat) (irq : Bool) :
            s₁.run preempt prio irq = some (s₁.goto .bcNotify) := by
          simp only [ConditionSystem.run, hpc, hl₁.qhead_cons]
        apply h'.inevitable_of_run (by rw [hpc]; exact id) (fun prio => hclear prio false)
          (fun prio irq _ => hrun prio irq)
        have h₁ := h'.run (hclear (fun _ => 0) false) (hrun _ _)
        apply (broadcast h₁ (goto_pc_current _ _) hl₁).mono
        rintro u ⟨hwoken', hrest⟩
        exact ⟨(hwoken.trans (Woken.goto _ _)).trans hwoken', hrest⟩
  · cases hs

end Inv

/-! ### The returns of `condition_wait` -/

section

variable {s s' : ConditionSystem T} {preempt : Bool} {prio : T → Nat} {irqExec : Bool} {tp : Sample}

theorem current_notifyLock (hs : s.notifyLock irqExec tp = some s') : s'.current = s.current := by
  obtain ⟨⟨qp, woken⟩, -, rfl⟩ := Option.map_eq_some_iff.mp hs
  apply current_wake

/-- A notification only wakes threads that wait. -/
theorem pc_notifyLock (hs : s.notifyLock irqExec tp = some s') (t : T) :
  s'.pc t = s.pc t ∨ s'.pc t = (s.pc t).wake
  := by
  obtain ⟨⟨qp, woken⟩, -, rfl⟩ := Option.map_eq_some_iff.mp hs
  apply wake_pc_cases (s.setLockQueue qp)

theorem current_notify (hs : s.notify irqExec tp = some s') : s'.current = s.current := by
  obtain ⟨⟨qp, woken⟩, -, rfl⟩ := Option.map_eq_some_iff.mp hs
  apply current_wake

theorem pc_notify (hs : s.notify irqExec tp = some s') (t : T) :
  s'.pc t = s.pc t ∨ s'.pc t = (s.pc t).wake
  := by
  obtain ⟨⟨qp, woken⟩, -, rfl⟩ := Option.map_eq_some_iff.mp hs
  apply wake_pc_cases (s.setQueue qp)

/-- A thread that the scheduler comes to takes threads off a queue at most. -/
theorem pc_pass {tp : T} (hs : s.pass tp = some s') (t : T) :
  s'.pc t = s.pc t ∨ s'.pc t = (s.pc t).wake
  := by
  rw [pass] at hs
  split at hs
  · split at hs
    · obtain ⟨⟨qp, woken⟩, -, rfl⟩ := Option.map_eq_some_iff.mp hs
      apply wake_pc_cases (s.setLockQueue qp)
    · cases hs
  · split at hs
    · obtain ⟨⟨qp, woken⟩, -, rfl⟩ := Option.map_eq_some_iff.mp hs
      apply wake_pc_cases (s.setQueue qp)
    · cases hs
  · cases hs

/-- The current thread goes on to a place, and the others are where they were, or taken off a
queue. -/
structure Goes (s s' : ConditionSystem T) (pc : CondPc) : Prop where
  self : s'.pc s.current = pc
  other : ∀ t, t ≠ s.current → s'.pc t = s.pc t ∨ s'.pc t = (s.pc t).wake

theorem goes_goto (hcur : s'.current = s.current)
    (hpc : ∀ t, s'.pc t = s.pc t ∨ s'.pc t = (s.pc t).wake) (pc : CondPc) :
  Goes s (s'.goto pc) pc
  := by
  constructor
  case self =>
    rw [← hcur]
    apply goto_pc_self
  case other =>
    intro t ht
    rw [goto_pc_of_ne s' pc (by rwa [hcur])]
    apply hpc

theorem goes_of_pc (hcur : s'.current = s.current) (hpc : s'.pc = s.pc) (pc : CondPc) :
  Goes s (s'.goto pc) pc
  := by
  apply goes_goto hcur
  simp [hpc]

/-- Going on leads out of `condition_wait` only from its end. -/
theorem goes_of_run (hs : s.run preempt prio irqExec = some s') :
  ∃ pc, Goes s s' pc ∧ ((s.pc s.current).InWait → s.pc s.current = .condEnd ∨ pc.InWait)
  := by
  rw [run] at hs
  cases hpc : s.pc s.current with
  | user | lockBlocked ret | condBlocked =>
      rw [hpc] at hs
      cases hs
  | lockTest ret =>
      simp only [hpc] at hs
      obtain rfl := Option.some.inj hs
      split
      · refine ⟨.afterLock ret, goes_of_pc (by rfl) (by rfl) _, ?_⟩
        cases ret <;> simp [CondPc.InWait, CondPc.afterLock]
      · refine ⟨.lockLoop ret, goes_of_pc (by rfl) (by rfl) _, ?_⟩
        cases ret <;> simp [CondPc.InWait]
  | lockLoop ret =>
      simp only [hpc] at hs
      split at hs
      · obtain rfl := Option.some.inj hs
        refine ⟨.afterLock ret, goes_of_pc (by rfl) (by rfl) _, ?_⟩
        cases ret <;> simp [CondPc.InWait, CondPc.afterLock]
      · obtain ⟨⟨qp, waits⟩, hqp, rfl⟩ := Option.map_eq_some_iff.mp hs
        refine ⟨if waits then .lockBlocked ret else .lockLoop ret, goes_of_pc (by rfl) (by rfl) _, ?_⟩
        cases ret <;> cases waits <;> simp [CondPc.InWait]
  | lockWoken ret =>
      simp only [hpc] at hs
      obtain rfl := Option.some.inj hs
      refine ⟨.lockLoop ret, goes_of_pc (by rfl) (by rfl) _, ?_⟩
      cases ret <;> simp [CondPc.InWait]
  | unlockNotify ret =>
      simp only [hpc] at hs
      obtain rfl := Option.some.inj hs
      refine ⟨.unlockAct ret irqExec s.lock.qp.qhead.sample, goes_of_pc (by rfl) (by rfl) _, ?_⟩
      cases ret <;> simp [CondPc.InWait]
  | unlockAct ret irqExec tp =>
      simp only [hpc] at hs
      obtain ⟨s₁, hs₁, rfl⟩ := Option.map_eq_some_iff.mp hs
      use .unlockEnd ret, goes_goto (current_notifyLock hs₁) (pc_notifyLock hs₁) _
      cases ret <;> simp [CondPc.InWait]
  | unlockEnd ret =>
      simp only [hpc] at hs
      obtain rfl := Option.some.inj hs
      refine ⟨.afterUnlock ret, goes_of_pc (current_preemptAdd s _ _) (pc_preemptAdd s _ _) _, ?_⟩
      cases ret <;> simp [CondPc.InWait, CondPc.afterUnlock]
  | condUnlock =>
      simp only [hpc] at hs
      obtain rfl := Option.some.inj hs
      rw [release]
      dsimp only
      split
      · refine ⟨.unlockNotify .wait, goes_of_pc (by rfl) (by rfl) _, ?_⟩
        simp [CondPc.InWait]
      · refine ⟨.unlockEnd .wait, goes_of_pc (by rfl) (by rfl) _, ?_⟩
        simp [CondPc.InWait]
  | condDiscard =>
      simp only [hpc] at hs
      obtain rfl := Option.some.inj hs
      use .condEnqueue
      constructor
      · split <;> exact goes_of_pc (by rfl) (by rfl) _
      · simp [CondPc.InWait]
  | condEnqueue =>
      simp only [hpc] at hs
      obtain ⟨⟨qp, waits⟩, hqp, rfl⟩ := Option.map_eq_some_iff.mp hs
      refine ⟨if waits then .condBlocked else .condWoken, goes_of_pc (by rfl) (by rfl) _, ?_⟩
      cases waits <;> simp [CondPc.InWait]
  | condWoken =>
      simp only [hpc] at hs
      obtain rfl := Option.some.inj hs
      refine ⟨.lockTest .wait, goes_of_pc (current_preemptAdd s _ _) (pc_preemptAdd s _ _) _, ?_⟩
      simp [CondPc.InWait]
  | condEnd =>
      simp only [hpc] at hs
      obtain rfl := Option.some.inj hs
      refine ⟨.user, goes_of_pc (current_preemptAdd s _ _) (pc_preemptAdd s _ _) _, ?_⟩
      simp
  | sigAct irqExec tp =>
      simp only [hpc] at hs
      obtain ⟨s₁, hs₁, rfl⟩ := Option.map_eq_some_iff.mp hs
      use .user, goes_goto (current_notify hs₁) (pc_notify hs₁) _
      simp [CondPc.InWait]
  | bcTest =>
      simp only [hpc] at hs
      split at hs
      · obtain rfl := Option.some.inj hs
        refine ⟨.bcYield, goes_of_pc (by apply current_preemptAdd) (by apply pc_preemptAdd) _, ?_⟩
        simp [CondPc.InWait]
      · obtain rfl := Option.some.inj hs
        refine ⟨.bcYield, goes_of_pc (current_preemptAdd s _ _) (pc_preemptAdd s _ _) _, ?_⟩
        simp [CondPc.InWait]
      · obtain rfl := Option.some.inj hs
        refine ⟨.bcNotify, goes_of_pc (by rfl) (by rfl) _, ?_⟩
        simp [CondPc.InWait]
  | bcNotify =>
      simp only [hpc] at hs
      obtain rfl := Option.some.inj hs
      refine ⟨.bcAct irqExec s.qp.qhead.sample, goes_of_pc (by rfl) (by rfl) _, ?_⟩
      simp [CondPc.InWait]
  | bcAct irqExec tp =>
      simp only [hpc] at hs
      obtain ⟨s₁, hs₁, rfl⟩ := Option.map_eq_some_iff.mp hs
      use .bcLoop, goes_goto (current_notify hs₁) (pc_notify hs₁) _
      simp [CondPc.InWait]
  | bcLoop =>
      simp only [hpc] at hs
      obtain rfl := Option.some.inj hs
      split
      · refine ⟨.bcNotify, goes_of_pc (by rfl) (by rfl) _, ?_⟩
        simp [CondPc.InWait]
      · refine ⟨.bcYield, goes_of_pc (current_preemptAdd s _ _) (pc_preemptAdd s _ _) _, ?_⟩
        simp [CondPc.InWait]
  | bcYield =>
      simp only [hpc] at hs
      obtain rfl := Option.some.inj hs
      refine ⟨.user, goes_of_pc (by rfl) (by rfl) _, ?_⟩
      simp [CondPc.InWait]

/-- A call from the program of a thread does not lead out of `condition_wait`. -/
theorem goes_of_user (hpc : s.pc s.current = .user) {pc : CondPc} (hgoes : Goes s s' pc) :
  ∃ pc, Goes s s' pc ∧
    ((s.pc s.current).InWait → pc.InWait ∨
      s.pc s.current = .condEnd ∧ s' = (s.preemptEnable preempt).goto .user)
  := by
  refine ⟨pc, hgoes, fun hwait => ?_⟩
  rw [hpc] at hwait
  cases hwait

/-- A step takes threads off a queue at most, or leads out of `condition_wait` only from its
end. -/
theorem goes_of_step {l : ConditionLabel T} (hs : s.step preempt l = some s') :
  (∀ t, s'.pc t = s.pc t ∨ s'.pc t = (s.pc t).wake) ∨
    ∃ pc, Goes s s' pc ∧
      ((s.pc s.current).InWait → pc.InWait ∨
        s.pc s.current = .condEnd ∧ s' = (s.preemptEnable preempt).goto .user)
  := by
  cases l with
  | run prio irqExec =>
      right
      obtain ⟨pc, hgoes, hpc⟩ := goes_of_run hs
      use pc, hgoes
      intro hwait
      rcases hpc hwait with hend | hpc
      · right
        simp only [step, run, hend] at hs
        exact ⟨hend, (Option.some.inj hs).symm⟩
      · left
        apply hpc
  | switch tp =>
      left
      simp only [step] at hs
      split at hs
      · obtain rfl := Option.some.inj hs
        intro t
        apply Or.inl rfl
      · cases hs
  | pass tp =>
      left
      simp only [step] at hs
      split at hs
      · apply pc_pass hs
      · cases hs
  | lock =>
      right
      simp only [step] at hs
      split at hs
      · rename_i hpc
        obtain rfl := Option.some.inj hs
        apply goes_of_user hpc
        apply goes_of_pc (by apply current_preemptAdd) (by apply pc_preemptAdd)
      · cases hs
  | unlock =>
      right
      simp only [step] at hs
      split at hs
      · rename_i hpc
        obtain rfl := Option.some.inj hs
        rw [release]
        dsimp only
        split
        · apply goes_of_user hpc.1 (goes_of_pc (by rfl) (by rfl) _)
        · apply goes_of_user hpc.1 (goes_of_pc (by rfl) (by rfl) _)
      · cases hs
  | wait =>
      right
      simp only [step] at hs
      split at hs
      · rename_i hpc
        obtain rfl := Option.some.inj hs
        apply goes_of_user hpc.1
        apply goes_of_pc (by apply current_preemptAdd) (by apply pc_preemptAdd)
      · cases hs
  | signal irqExec =>
      right
      simp only [step] at hs
      split at hs
      · rename_i hpc
        obtain rfl := Option.some.inj hs
        apply goes_of_user hpc.1 (goes_of_pc (by rfl) (by rfl) _)
      · cases hs
  | bcast =>
      right
      simp only [step] at hs
      split at hs
      · rename_i hpc
        obtain rfl := Option.some.inj hs
        apply goes_of_user hpc.1
        apply goes_of_pc (by apply current_preemptAdd) (by apply pc_preemptAdd)
      · cases hs

end

/-- What a condition variable promises when the threads take the steps `next`: at most one thread
holds its lock; a thread whose `condition_wait` returns holds it; a thread that has released it is
on the queue when another thread runs; a signal wakes the first thread on the queue; and a
broadcast wakes all of them and returns.  The counters are values of their types. -/
structure Safe (preempt : Bool)
    (next : ConditionSystem T → ConditionLabel T → Option (ConditionSystem T))
    (s : ConditionSystem T) : Prop where
  exclusive : ∀ t u, 0 < s.locks t → 0 < s.locks u → t = u
  owner : ∀ t, 0 < s.locks t ↔ s.lock.owner = some t
  fits : s.lock.count < 2 ^ 15 ∧ (preempt = true → ∀ t, s.preemptCnt t < 2 ^ 15)
  returns : ∀ l s' t, next s l = some s' → (s.pc t).InWait → s'.pc t = .user →
    s'.lock.owner = some t ∧ s'.locks t = 1
  waits : ∀ t, t ≠ s.current → (s.pc t).Released → s.Waits t
  signal : ∀ irqExec s', next s (.signal irqExec) = some s' →
    ∃ m l, s.qp.Holds m l ∧ (∀ t, t ∈ l ↔ s.Waits t) ∧
      Run.Inevitable next
        (fun t => Woken s t l.head?.toList ∧ t.pc t.current = .user ∧
          ∃ m', t.qp.Holds m' l.tail) s'
  bcast : ∀ s', next s .bcast = some s' →
    ∃ m l, s.qp.Holds m l ∧ (∀ t, t ∈ l ↔ s.Waits t) ∧
      Run.Inevitable next
        (fun t => Woken s t l ∧ t.pc t.current = .bcYield ∧ ∃ m', t.qp.Holds m' []) s'
  yield : s.pc s.current = .bcYield → ∀ prio irqExec,
    s.run preempt prio irqExec = some (s.goto .user)

namespace Inv

variable {s s' : ConditionSystem T} {preempt : Bool}

/-- A call of `condition_wait` returns with the lock, held once. -/
theorem returns (h : Inv preempt s) {l : ConditionLabel T} (hs : s.step preempt l = some s')
    {t : T} (hwait : (s.pc t).InWait) (huser : s'.pc t = .user) :
  s'.lock.owner = some t ∧ s'.locks t = 1
  := by
  -- A thread that is taken off a queue does not come out of `condition_wait`.
  have hnot (h : s'.pc t = s.pc t ∨ s'.pc t = (s.pc t).wake) : False := by
    have hpc : s.pc t = .user := by
      rcases h with h | h
      · rw [← h, huser]
      · apply CondPc.eq_user_of_wake
        rw [← h, huser]
    rw [hpc] at hwait
    exact hwait
  rcases goes_of_step hs with hpc | ⟨pc, hgoes, hpc⟩
  · exact (hnot (hpc t)).elim
  · by_cases ht : t = s.current
    · subst ht
      rcases hpc hwait with hpc | ⟨hend, rfl⟩
      · rw [← hgoes.self, huser] at hpc
        exact hpc.elim
      · have hplace := h.place s.current
        simp only [Place, hend] at hplace
        simpa [goto, preemptEnable] using hplace
    · exact (hnot (hgoes.other t ht)).elim

/-- The functions that a thread is in disable preemption at most twice. -/
theorem preemptCnt_lt (h : Inv preempt s) (hpre : preempt = true) (t : T) :
  s.preemptCnt t < 2 ^ 15
  := by
  have hcnt := h.counter hpre t
  have hlocks := h.nested t
  have hdisabled : (s.pc t).disabled ≤ 2 := CondPc.disabled_le _
  omega

/-- The mutex is not locked too often. -/
theorem count_lt (h : Inv preempt s) : s.lock.count < 2 ^ 15 := by
  cases howner : s.lock.owner with
  | none =>
      rw [h.locked.free howner]
      decide
  | some t =>
      have hcount := h.locked.count t howner
      have hlocks := h.nested t
      omega

/-- The invariant has what is promised. -/
theorem safe (h : Inv preempt s) : Safe preempt (heedingStep preempt) s := by
  constructor
  case exclusive =>
    intro t u ht hu
    rw [h.locked.owner] at ht hu
    rw [ht] at hu
    apply Option.some.inj hu
  case owner => apply h.locked.owner
  case fits => exact ⟨h.count_lt, h.preemptCnt_lt⟩
  case returns =>
    intro l s' t hs hwait huser
    rw [heedingStep, Run.restrict_eq_some] at hs
    apply h.returns hs.2 hwait huser
  case waits =>
    intro t ht hreleased
    apply (h.rests t ht).eq_condBlocked hreleased
  case signal =>
    intro irqExec s' hs
    obtain ⟨m, l, hl, hmem⟩ := h.exists_holds
    use m, l, hl, hmem
    apply h.signal hl hs
  case bcast =>
    intro s' hs
    obtain ⟨m, l, hl, hmem⟩ := h.exists_holds
    use m, l, hl, hmem
    apply h.bcast hl hs
  case yield =>
    intro hpc prio irqExec
    simp only [ConditionSystem.run, hpc]

end Inv

/-- Two threads wait, and a third one takes the lock to signal. -/
def waiting : List (ConditionLabel (Fin 3)) :=
  let run := .run (fun _ => 0) false
  let wait := [.lock, run, run, .wait, run, run, run, run, run, run]
  wait ++ .switch 1 :: wait ++ .switch 2 :: [.lock, run, run]

section

variable {s : ConditionSystem T} {preempt : Bool} {tp : T}

/-- A notification that finds the flag set leaves a thread at the head of the queue. -/
theorem notify_irq (hhead : s.qp.qhead = .ptr (some tp)) (sample : Sample) :
  ∃ qp, qp.qhead = .ptr (some tp) ∧ s.notify true sample = some (s.setQueue qp)
  := by
  refine ⟨s.qp.eventNotifyIrq, ?_, rfl⟩
  rw [ThreadQueue.eventNotifyIrq, hhead]
  exact hhead

/-- The owner of the lock does nothing but signal a thread, and finds the flag set. -/
structure Signals (s : ConditionSystem T) (tp : T) : Prop where
  head : s.qp.qhead = .ptr (some tp)
  owner : s.lock.owner = some s.current
  waits : s.Waits tp
  ne : tp ≠ s.current
  pc : s.pc s.current = .user ∨ ∃ sample, s.pc s.current = .sigAct true sample

/-- A thread can be signalled any number of times and stay on the queue. -/
theorem Signals.step (h : Signals s tp) :
  ∃ l t, s.step preempt l = some t ∧ Signals t tp
  := by
  rcases h.pc with hpc | ⟨sample, hpc⟩
  · use .signal true, s.goto (.sigAct true s.qp.qhead.sample)
    constructor
    · simp [ConditionSystem.step, hpc, h.owner]
    · constructor
      case head => apply h.head
      case owner => apply h.owner
      case waits => exact (goto_pc_of_ne _ _ h.ne).trans h.waits
      case ne => apply h.ne
      case pc =>
        right
        exact ⟨_, goto_pc_current _ _⟩
  · obtain ⟨qp, hqp, hnotify⟩ := notify_irq h.head sample
    use .run (fun _ => 0) false, (s.setQueue qp).goto .user
    constructor
    · rw [ConditionSystem.step, run_sigAct hpc, hnotify]
      rfl
    · constructor
      case head => apply hqp
      case owner => apply h.owner
      case waits => exact (goto_pc_of_ne (s.setQueue qp) _ h.ne).trans h.waits
      case ne => apply h.ne
      case pc =>
        left
        apply goto_pc_current

/-- The current thread is in the loop of a broadcast while a thread is on the queue. -/
structure Broadcasts (s : ConditionSystem T) (tp : T) : Prop where
  head : s.qp.qhead = .ptr (some tp)
  pc : s.pc s.current = .bcTest ∨ s.pc s.current = .bcNotify ∨
    (∃ sample, s.pc s.current = .bcAct true sample) ∨ s.pc s.current = .bcLoop

/-- The loop of a broadcast can go on for ever. -/
theorem Broadcasts.step (h : Broadcasts s tp) :
  ∃ l t, s.step preempt l = some t ∧ Broadcasts t tp
  := by
  rcases h.pc with hpc | hpc | ⟨sample, hpc⟩ | hpc
  · use .run (fun _ => 0) true, s.goto .bcNotify
    constructor
    · simp only [ConditionSystem.step, run, hpc, h.head]
    · exact ⟨h.head, .inr (.inl (goto_pc_current _ _))⟩
  · use .run (fun _ => 0) true, s.goto (.bcAct true s.qp.qhead.sample)
    constructor
    · rw [ConditionSystem.step, run_bcNotify hpc]
    · exact ⟨h.head, .inr (.inr (.inl ⟨_, goto_pc_current _ _⟩))⟩
  · obtain ⟨qp, hqp, hnotify⟩ := notify_irq h.head sample
    use .run (fun _ => 0) true, (s.setQueue qp).goto .bcLoop
    constructor
    · rw [ConditionSystem.step, run_bcAct hpc, hnotify]
      rfl
    · exact ⟨hqp, .inr (.inr (.inr (goto_pc_current _ _)))⟩
  · use .run (fun _ => 0) true, s.goto .bcNotify
    constructor
    · have hthread := Qhead.sample_eq_thread.mpr ⟨tp, h.head⟩
      rw [ConditionSystem.step, run_bcLoop hpc, if_pos hthread]
    · exact ⟨h.head, .inr (.inl (goto_pc_current _ _))⟩

end

end ConditionSystem

end Etaos
