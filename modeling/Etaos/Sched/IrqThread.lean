import Etaos.Sched.Fate
import Etaos.Sched.Stage

/-!
# Threaded interrupts

An interrupt with a threaded handler makes `irq_thread_signal` wake the thread that runs
`irq_handle_fn`, unless that thread is marked as being on the run queue.  When it is on its
way into `irq_thread_wait`, or in the handler, it is marked so, and the interrupt is lost.

The interrupts that find the thread in the call of `schedule` of `irq_thread_wait`, switched
out or woken already, are the ones that are followed by a call of the handler.
-/

set_option linter.unusedSectionVars false

namespace Etaos

variable {T Q : Type} [DecidableEq T] [DecidableEq Q]

/-- The stages of `irq_thread_wait` at which the thread has cleared `THREAD_RUNNING_FLAG`;
the handler is called next. -/
def Pc.irqWaiting : Pc T Q → Bool
  | .irqWaitSchedule => true
  | .irqWaitReturn => true
  | _ => false

/-- The thread `tp` is runnable, and calls its handler before it waits again. -/
structure System.Invokes (s : System T Q) (tp : T) : Prop where
  runnable : Runnable s.k tp
  waiting : (s.pc tp).irqWaiting = true

/-- An interrupt of the thread `tp` finds it waiting: switched out, or woken already. -/
def System.armed (s : System T Q) (tp : T) : Bool :=
  (s.pc tp).irqWaiting && (!(s.k.thr tp).onRq || (s.k.thr tp).running)

/-- The steps at which no interrupt of the thread `tp` is lost: it is waiting when its
interrupt arrives, and no other thread marks it as running in `signal`, or takes it off the
run queue before it has called its handler. -/
def heeding [Fintype T] (cfg : Config Q) (tp : T) (s : System T Q) (l : Label T Q) : Bool :=
  orderly cfg s l &&
    match l with
    | .run =>
        match s.pc s.k.current with
        | .signalRun u => u ≠ tp
        | .addRemove u _ => u ≠ tp || !s.pending tp
        | _ => true
    | .irqArrive u => u ≠ tp || s.armed tp
    | _ => true

/-- A stage at which the thread waits follows another one, or the one at which it stops
itself. -/
theorem Pc.Follows.irqWaiting {pc pc' : Pc T Q} (h : pc.Follows pc')
    (hpc' : pc'.irqWaiting = true) :
  pc = .irqWaitStop ∨ pc = .irqWaitSchedule
  := by
  cases pc
  case irqWaitStop => apply Or.inl rfl
  case irqWaitSchedule => apply Or.inr rfl
  case user => cases h
  case addTest | addRemove | rawWaitTest =>
    rcases h with rfl | rfl <;> cases hpc'
  case notifySample =>
    obtain ⟨v, rfl⟩ := h
    cases hpc'
  case addMark =>
    obtain rfl := h
    split at hpc' <;> cases hpc'
  all_goals
    obtain rfl := h
    cases hpc'

variable [Fintype T]

theorem orderly_of_heeding {cfg : Config Q} {tp : T} {s : System T Q} {l : Label T Q}
    (hl : heeding cfg tp s l = true) :
  orderly cfg s l = true
  := by
  simp only [heeding, Bool.and_eq_true] at hl
  apply hl.1

/-- What holds of the thread `tp`: while it waits, it is ready when it is running, and its
interrupt is pending only when it waits and is running. -/
structure IrqSound (i tp : T) (s : System T Q) (L : Root Q → List T) : Prop where
  wf : Wf i s.k L
  out : (s.pc tp).irqWaiting = true → ∀ qp, tp ∉ L (.queue qp)
  placed : (s.pc tp).irqWaiting = true → (s.k.thr tp).running = true → Ready tp s.k L
  pending : s.pending tp = true →
    (s.pc tp).irqWaiting = true ∧ (s.k.thr tp).running = true

namespace IrqSound

variable {i tp : T} {s s' : System T Q} {L : Root Q → List T} {cfg : Config Q}

/-- A thread that does not wait, with no interrupt pending. -/
theorem of_not_waiting (hwf : Wf i s.k L) (hpc : (s.pc tp).irqWaiting = false)
    (hpending : s.pending tp = false) :
  IrqSound i tp s L
  := by
  constructor
  case wf => apply hwf
  case out => simp [hpc]
  case placed => simp [hpc]
  case pending => simp [hpending]

/-- An interrupt is pending for a waiting thread only. -/
theorem not_pending (h : IrqSound i tp s L) (hpc : (s.pc tp).irqWaiting = false) :
  s.pending tp = false
  := by
  by_contra hpending
  have := (h.pending (by simpa using hpending)).1
  simp [hpc] at this

/-- A pending interrupt is followed by a call of the handler. -/
theorem invokes (h : IrqSound i tp s L) (hpending : s.pending tp = true) : s.Invokes tp := by
  obtain ⟨hwaiting, hrunning⟩ := h.pending hpending
  constructor
  · rw [runnable_iff h.wf.listed]
    apply h.placed hwaiting hrunning
  · apply hwaiting

/-- The function `irq_thread_signal` leaves a thread that is marked as being on the run queue
alone, and makes another one running. -/
theorem signal_cases (hs : s.irqThreadSignal cfg tp = some s') :
  ((s.k.thr tp).onRq = true ∧ s'.k = s.k) ∨
    ((s.k.thr tp).onRq = false ∧ (s'.k.thr tp).running = true)
  := by
  rw [System.irqThreadSignal] at hs
  dsimp only at hs
  split at hs
  · rename_i honRq
    obtain rfl := Option.some.inj hs
    exact .inl ⟨honRq, rfl⟩
  · rename_i honRq
    obtain ⟨k, hk, rfl⟩ := Option.map_eq_some_iff.mp hs
    obtain ⟨k₁, -, rfl⟩ := Option.map_eq_some_iff.mp hk
    right
    constructor
    · simpa using honRq
    · by_cases hcurrent : tp = k₁.current
      · simp [System.own, System.setKernel, ← hcurrent]
      · simp [System.own, System.setKernel, hcurrent]

/-- A step at which the thread is not seized keeps it placed, when it waited before. -/
theorem lists (h : IrqSound i tp s L) {a : Prop}
    {L' : Root Q → List T} (hfate : Fate a tp s.k L s'.k L') (hwaiting : (s.pc tp).irqWaiting = true) :
  (∀ qp, tp ∉ L' (.queue qp)) ∧ ((s'.k.thr tp).running = true → Ready tp s'.k L')
  := ⟨hfate.out (h.out hwaiting), hfate.raised (h.placed hwaiting)⟩

/-- The arrival of an interrupt moves no thread to another stage. -/
theorem arrive_frame {u : T} (hs : s.step cfg (.irqArrive u) = some s') :
  s'.pc tp = s.pc tp ∧ s.irqThreadSignal cfg u = some s'
  := by
  constructor
  · exact congrFun (System.step_moved hs).pc tp
  · rw [System.step] at hs
    split at hs
    · cases hs
    · apply hs

/-- The interrupt that has just arrived is followed by a call of the handler, exactly when it
found the thread waiting. -/
theorem arrive_iff (h : IrqSound i tp s L) (hs : s.step cfg (.irqArrive tp) = some s')
    {a : Prop} (hfated : Fated a tp s.k L s'.k) :
  s'.Invokes tp ↔ s.armed tp = true
  := by
  obtain ⟨L', hlisted, hfate⟩ := hfated
  obtain ⟨hpc, hsignal⟩ := arrive_frame hs
  have hcases := signal_cases hsignal
  simp only [System.armed, Bool.and_eq_true, Bool.or_eq_true, Bool.not_eq_true']
  constructor
  · rintro ⟨hrunnable, hwaiting⟩
    rw [hpc] at hwaiting
    use hwaiting
    rcases hcases with ⟨-, hk⟩ | ⟨honRq, -⟩
    · right
      rw [← hk]
      apply hrunnable.1
    · apply Or.inl honRq
  · rintro ⟨hwaiting, hplace⟩
    constructor
    · rw [runnable_iff hlisted]
      apply (h.lists hfate hwaiting).2
      rcases hcases with ⟨honRq, hk⟩ | ⟨-, hrunning⟩
      · rw [hk]
        apply hplace.resolve_left
        simp [honRq]
      · apply hrunning
    · rw [hpc]
      apply hwaiting

/-- The arrival of an interrupt. -/
theorem arrive (h : IrqSound i tp s L) (hwf : ∀ {L'}, Listed s'.k L' → Wf i s'.k L') {u : T}
    (harmed : u = tp → s.armed tp = true) (hs : s.step cfg (.irqArrive u) = some s')
    {a : Prop} (hfated : Fated a tp s.k L s'.k) :
  ∃ L', IrqSound i tp s' L'
  := by
  obtain ⟨L', hlisted, hfate⟩ := hfated
  have hmoved := System.step_moved hs
  obtain ⟨hpc, hsignal⟩ := arrive_frame hs
  use L'
  constructor
  case wf => apply hwf hlisted
  case out =>
    rw [hpc]
    intro hwaiting
    apply (h.lists hfate hwaiting).1
  case placed =>
    rw [hpc]
    intro hwaiting
    apply (h.lists hfate hwaiting).2
  case pending =>
    rw [hpc, hmoved.pending]
    intro hpending
    by_cases hu : u = tp
    · subst hu
      have hwaiting := harmed rfl
      simp only [System.armed, Bool.and_eq_true, Bool.or_eq_true, Bool.not_eq_true']
        at hwaiting
      use hwaiting.1
      rcases signal_cases hsignal with ⟨honRq, hk⟩ | ⟨-, hrunning⟩
      · rw [hk]
        apply hwaiting.2.resolve_left
        simp [honRq]
      · apply hrunning
    · have hpending' : s.pending tp = true := by
        simpa [System.pendingBy, Ne.symm hu] using hpending
      obtain ⟨hwaiting, hrunning⟩ := h.pending hpending'
      use hwaiting
      apply (hfate.ready (h.placed hwaiting hrunning)).1

/-- A thread that waits behind a step waited before it, or has stopped itself. -/
theorem waiting_of_moved {l : Label T Q} (hmoved : System.Moved s l s')
    (hwaiting : (s'.pc tp).irqWaiting = true) :
  (s.pc tp).irqWaiting = true ∨ l = .run ∧ tp = s.k.current ∧ s.pc tp = .irqWaitStop
  := by
  rcases hmoved.pc_cases tp with hpc | ⟨-, -, op, -, -, hpc⟩ | ⟨htp, hl, hfollows⟩
  · rw [hpc] at hwaiting
    apply Or.inl hwaiting
  · rw [hpc] at hwaiting
    cases op <;> cases hwaiting
  · rcases hfollows.irqWaiting hwaiting with hstop | hschedule
    · exact .inr ⟨hl, htp, hstop⟩
    · left
      rw [hschedule]
      rfl

/-- An interrupt that is pending behind a step other than its arrival was pending before, and
the thread still waits. -/
theorem pending_of_moved (h : IrqSound i tp s L) {l : Label T Q}
    (hmoved : System.Moved s l s') (hl : ∀ u, l ≠ .irqArrive u)
    (hpending : s'.pending tp = true) :
  s.pending tp = true ∧ (s'.pc tp).irqWaiting = true
  := by
  have hkept : s.pending tp = true ∧
      ¬ (l = .run ∧ tp = s.k.current ∧ s.pc tp = .irqWaitReturn) := by
    rw [hmoved.pending] at hpending
    cases l with
    | irqArrive u => exact absurd rfl (hl u)
    | run =>
        rw [System.pendingBy_run] at hpending
        split at hpending
        · rename_i hreturn
          have hne : tp ≠ s.k.current := by
            rintro rfl
            simp at hpending
          rw [Function.update_of_ne hne] at hpending
          exact ⟨hpending, fun hrun => hne hrun.2.1⟩
        · rename_i hreturn
          refine ⟨hpending, ?_⟩
          rintro ⟨-, rfl, hpc⟩
          exact hreturn hpc
    | call | pass | test | interrupt | tick | irqNotify =>
        refine ⟨hpending, ?_⟩
        rintro ⟨hrun, -⟩
        cases hrun
  use hkept.1
  obtain ⟨hwaiting, -⟩ := h.pending hkept.1
  rcases hmoved.pc_cases tp with hpc | ⟨-, huser, -⟩ | ⟨htp, rfl, hfollows⟩
  · rwa [hpc]
  · rw [huser] at hwaiting
    cases hwaiting
  · generalize s'.pc tp = pc at hfollows
    cases hstage : s.pc tp <;> rw [hstage] at hwaiting hfollows hkept <;> try cases hwaiting
    · obtain rfl := hfollows
      rfl
    · exact absurd ⟨rfl, htp, rfl⟩ hkept.2

/-- A step other than an arrival, at which the thread is not seized. -/
theorem spared (h : IrqSound i tp s L) (hwf : ∀ {L'}, Listed s'.k L' → Wf i s'.k L')
    {l : Label T Q} (hmoved : System.Moved s l s') (hl : ∀ u, l ≠ .irqArrive u)
    (hnot : ¬ Seized tp s L l) {a : Prop} (hfated : Fated a tp s.k L s'.k) :
  ∃ L', IrqSound i tp s' L'
  := by
  obtain ⟨L', hlisted, hfate⟩ := hfated
  have hbefore (hwaiting : (s'.pc tp).irqWaiting = true) : (s.pc tp).irqWaiting = true := by
    apply (waiting_of_moved hmoved hwaiting).resolve_right
    rintro ⟨rfl, htp, hpc⟩
    apply hnot
    rw [htp] at hpc
    rw [Seized, hpc]
    exact htp
  use L'
  constructor
  case wf => apply hwf hlisted
  case out =>
    intro hwaiting
    apply (h.lists hfate (hbefore hwaiting)).1
  case placed =>
    intro hwaiting
    apply (h.lists hfate (hbefore hwaiting)).2
  case pending =>
    intro hpending
    obtain ⟨hpending, hwaiting⟩ := h.pending_of_moved hmoved hl hpending
    use hwaiting
    obtain ⟨hwaiting₀, hrunning⟩ := h.pending hpending
    apply (hfate.ready (h.placed hwaiting₀ hrunning)).1

/-- A step other than an arrival, of a thread that does not wait. -/
theorem not_waiting (h : IrqSound i tp s L) (hsound : Sound i s') {l : Label T Q}
    (hmoved : System.Moved s l s') (hl : ∀ u, l ≠ .irqArrive u)
    (hpc : (s.pc tp).irqWaiting = false)
    (hstop : ¬ (l = .run ∧ tp = s.k.current ∧ s.pc tp = .irqWaitStop)) :
  ∃ L', IrqSound i tp s' L'
  := by
  obtain ⟨L', hwf⟩ := hsound.wf
  use L'
  apply of_not_waiting hwf
  · by_contra hwaiting
    rcases waiting_of_moved hmoved (by simpa using hwaiting) with hbefore | hstopped
    · simp [hpc] at hbefore
    · exact hstop hstopped
  · by_contra hpending
    have hbefore := (h.pending_of_moved hmoved hl (by simpa using hpending)).1
    simp [h.not_pending hpc] at hbefore

/-- The thread stops itself in `irq_thread_wait`. -/
theorem stop (h : IrqSound i tp s L) (hsound : Sound i s) (hsound' : Sound i s')
    (htp : tp = s.k.current) (hpc : s.pc s.k.current = .irqWaitStop)
    (hs : s.step cfg .run = some s') :
  ∃ L', IrqSound i tp s' L'
  := by
  obtain ⟨hsched, hrun⟩ := System.step_run hs
  have hrunning : (s.k.thr s.k.current).running = true :=
    hsound.running hsched (by rw [hpc]; rfl)
  have hpending : s.pending tp = false := by
    apply h.not_pending
    rw [htp, hpc]
    rfl
  rw [System.run, hpc] at hrun
  obtain rfl := Option.some.inj hrun
  use L
  constructor
  case wf => exact hsound'.wf_of_listed (h.wf.listed.congr rfl rfl)
  case out =>
    intro _ qp
    rw [htp]
    apply h.wf.current_out hrunning
  case placed =>
    intro _ hrunning'
    simp [htp, System.own, System.goto] at hrunning'
  case pending =>
    intro hpending'
    exact absurd (hpending.symm.trans hpending') (by simp)

/-- Another thread takes the waiting thread off the run queue, when no interrupt is
pending. -/
theorem removed (h : IrqSound i tp s L) (hsound' : Sound i s') (hne : tp ≠ s.k.current)
    (hwaiting : (s.pc tp).irqWaiting = true) (hpending : s.pending tp = false)
    {ret : AddReturn} (hpc : s.pc s.k.current = .addRemove tp ret)
    (hs : s.step cfg .run = some s') :
  ∃ L', IrqSound i tp s' L'
  := by
  obtain ⟨-, hrun⟩ := System.step_run hs
  rw [System.run, hpc] at hrun
  obtain ⟨⟨k, err⟩, hk, rfl⟩ := Option.map_eq_some_iff.mp hrun
  rw [Kernel.rawRqRemoveThreadNoresched] at hk
  split at hk
  · obtain ⟨rfl, -⟩ := Prod.mk.inj (Option.some.inj hk)
    use L
    have hpc' : (s.goto (if err > 0 then .addSchedule tp ret else .addLink tp ret)).pc tp
        = s.pc tp := Function.update_of_ne hne _ _
    constructor
    case wf => apply h.wf
    case out =>
      intro _
      apply h.out hwaiting
    case placed =>
      intro _
      apply h.placed hwaiting
    case pending =>
      intro hpending'
      exact absurd (hpending.symm.trans hpending') (by simp)
  · rw [if_neg (Ne.symm hne)] at hk
    obtain ⟨⟨k₁, rc⟩, hk₁, hk⟩ := Option.map_eq_some_iff.mp hk
    obtain ⟨rfl, -⟩ := Prod.mk.inj hk
    have h₁ : Listed (s.k.modify tp fun th => { th with running := false }) L :=
      h.wf.listed.congr rfl rfl
    obtain ⟨hlisted, num, links, rfl⟩ := h₁.rmThread hk₁
    use RemovedFrom .runQueue L tp
    constructor
    case wf => exact hsound'.wf_of_listed (hlisted.congr rfl rfl)
    case out =>
      intro _ qp hmem
      apply h.out hwaiting qp (RemovedFrom.mem hmem)
    case placed =>
      intro _ hrunning
      simp [System.setKernel, System.goto] at hrunning
    case pending =>
      intro hpending'
      exact absurd (hpending.symm.trans hpending') (by simp)

/-- A step at which the thread is seized. -/
theorem seized (h : IrqSound i tp s L) (hsound : Sound i s) (hsound' : Sound i s')
    {l : Label T Q} (hl : heeding cfg tp s l = true) (hseized : Seized tp s L l)
    (hs : s.step cfg l = some s') :
  ∃ L', IrqSound i tp s' L'
  := by
  have hmoved := System.step_moved hs
  have hnot {l : Label T Q} (hmoved : System.Moved s l s') (hl : ∀ u, l ≠ .irqArrive u)
      (hpc : (s.pc tp).irqWaiting = false) (hne : s.pc tp ≠ .irqWaitStop) :
      ∃ L', IrqSound i tp s' L' := by
    apply h.not_waiting hsound' hmoved hl hpc
    rintro ⟨-, -, hstop⟩
    exact hne hstop
  cases l with
  | call op =>
      obtain ⟨-, huser, -⟩ := System.step_call hs
      cases op with
      | sleep ms =>
          have htp : tp = s.k.current := hseized
          rw [← htp] at huser
          apply hnot hmoved (by simp)
          · rw [huser]
            rfl
          · rw [huser]
            simp
      | _ => cases hseized
  | run =>
      simp only [heeding, Bool.and_eq_true] at hl
      have hkept := hl.2
      rw [Seized] at hseized
      cases hpc : s.pc s.k.current <;> rw [hpc] at hseized hkept
      case waitStop | rawWaitAdd =>
        have htp : tp = s.k.current := hseized
        rw [← htp] at hpc
        apply hnot hmoved (by simp)
        · rw [hpc]
          rfl
        · rw [hpc]
          simp
      case irqWaitStop => apply h.stop hsound hsound' hseized hpc hs
      case signalRun u =>
        obtain rfl : u = tp := hseized
        simp at hkept
      case addRemove u ret =>
        obtain rfl : u = tp := hseized.1
        by_cases htp : u = s.k.current
        · rw [← htp] at hpc
          apply hnot hmoved (by simp)
          · rw [hpc]
            rfl
          · rw [hpc]
            simp
        · by_cases hwaiting : (s.pc u).irqWaiting = true
          · apply h.removed hsound' htp hwaiting (by simpa using hkept) hpc hs
          · apply h.not_waiting hsound' hmoved (by simp) (by simpa using hwaiting)
            rintro ⟨-, hcurrent, -⟩
            exact htp hcurrent
      case notifyDecide qp v =>
        cases v with
        | null =>
            have hwaiting : (s.pc tp).irqWaiting = false := by
              by_contra hwaiting
              exact h.out (by simpa using hwaiting) qp hseized
            apply h.not_waiting hsound' hmoved (by simp) hwaiting
            rintro ⟨-, rfl, hstop⟩
            rw [hpc] at hstop
            cases hstop
        | thread => cases hseized
        | signaled => cases hseized
      all_goals cases hseized
  | _ => cases hseized

/-- A step that heeds the interrupts of the thread keeps what holds of it. -/
theorem step (h : IrqSound i tp s L) (hsound : Sound i s) {l : Label T Q}
    (hl : heeding cfg tp s l = true) (hs : s.step cfg l = some s') :
  ∃ L', IrqSound i tp s' L'
  := by
  have horderly := orderly_of_heeding hl
  have hsound' : Sound i s' := hsound.step horderly hs
  have hwf {L' : Root Q → List T} (hlisted : Listed s'.k L') : Wf i s'.k L' :=
    hsound'.wf_of_listed hlisted
  by_cases hseized : Seized tp s L l
  · apply h.seized hsound hsound' hl hseized hs
  · have hfated := hsound.fate h.wf horderly hseized hs
    by_cases harrive : ∃ u, l = .irqArrive u
    · obtain ⟨u, rfl⟩ := harrive
      apply h.arrive hwf _ hs hfated
      rintro rfl
      simpa [heeding, horderly] using hl
    · apply h.spared hwf (System.step_moved hs) _ hseized hfated
      intro u hu
      exact harrive ⟨u, hu⟩

end IrqSound

/-- In a run in which every interrupt of a thread finds it waiting, an interrupt that has
arrived and whose handler has not been started since leaves the thread runnable and about to
call the handler.  So does an interrupt that arrives in a state reached, exactly when it finds
the thread waiting. -/
theorem invokes_of_heeding {cfg : Config Q} {s s' : System T Q} {ready : List T} {tp : T}
    (hstart : s.Start ready)
    (hrun : Run.Guarded (System.step cfg) (fun s l => heeding cfg tp s l = true) s s') :
  (s'.pending tp = true → s'.Invokes tp) ∧
    ∀ s'', orderly cfg s' (.irqArrive tp) = true → s'.step cfg (.irqArrive tp) = some s'' →
      (s''.Invokes tp ↔ s'.armed tp = true)
  := by
  have hinv : Sound s.k.current s' ∧ ∃ L, IrqSound s.k.current tp s' L := by
    apply hrun.invariant (fun s' => Sound s.k.current s' ∧ ∃ L, IrqSound s.k.current tp s' L)
    · have hsound := Sound.start hstart
      obtain ⟨L, hwf⟩ := hsound.wf
      refine ⟨hsound, L, IrqSound.of_not_waiting hwf ?_ (hstart.pending tp)⟩
      rw [hstart.pc]
      rfl
    · rintro u l v ⟨hsound, L, h⟩ hl hv
      exact ⟨hsound.step (orderly_of_heeding hl) hv, h.step hsound hl hv⟩
  obtain ⟨hsound, L, h⟩ := hinv
  constructor
  · apply h.invokes
  · intro s'' horderly hs
    apply h.arrive_iff hs
    apply hsound.fate h.wf horderly _ hs
    apply id

/-! ### Runs -/

section

/-- The thread `1` is started as an interrupt thread and waits; the idle thread `0` is
current. -/
def awaitIrq : List (Label (Fin 2) Unit) :=
  startThread ++ [.call .irqHandleFn, .run, .run, .run, .run, .pass, .test]

/-- The theorem applied to an interrupt that finds its thread waiting. -/
theorem invokes_of_heeding_awaitIrq :
  ∃ s, Run.exec (System.step fifoConfig) (System.boot (fun _ => 100) 0)
      (awaitIrq ++ [.irqArrive 1]) = some s ∧ s.pending 1 = true ∧ s.Invokes 1
  := by
  obtain ⟨s, hs, hpending⟩ := Run.exists_of_any (System.step fifoConfig)
    (System.boot (fun _ => 100) 0) (awaitIrq ++ [.irqArrive 1]) (fun s => s.pending 1)
    (by decide)
  refine ⟨s, hs, hpending, ?_⟩
  apply (invokes_of_heeding (System.boot_start _ _)
    (Run.guarded_of_exec (awaitIrq ++ [.irqArrive 1]) hs _)).1 hpending
  decide

/-- The interrupt comes once more while its handler runs: the thread waits again without
another call of the handler, and is not on the run queue. -/
theorem not_invokes_irqHandler :
  ∃ s, Run.exec (System.step fifoConfig) (System.boot (fun _ => 100) 0)
      (awaitIrq ++ [.irqArrive 1, .call .idleThreadFunc, .run, .pass, .test, .run,
        .irqArrive 1, .run, .run, .run, .run, .run, .pass]) = some s ∧
    s.pending 1 = true ∧ ¬ s.Invokes 1
  := by
  obtain ⟨s, hs, htest⟩ := Run.exists_of_any (System.step fifoConfig)
    (System.boot (fun _ => 100) 0)
    (awaitIrq ++ [.irqArrive 1, .call .idleThreadFunc, .run, .pass, .test, .run,
      .irqArrive 1, .run, .run, .run, .run, .run, .pass])
    (fun s => s.pending 1 && !(s.k.thr 1).running) (by decide +kernel)
  simp only [Bool.and_eq_true, Bool.not_eq_true'] at htest
  refine ⟨s, hs, htest.1, ?_⟩
  rintro ⟨⟨hrunning, -⟩, -⟩
  rw [htest.2] at hrunning
  cases hrunning

end

end Etaos
