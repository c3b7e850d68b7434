import Etaos.Sched.Integrity
import Etaos.Sched.System

/-!
# The run queue of a running system

The steps of the system that keep the run queue whole, and the theorem that every run of
such steps does.  The other steps are the ones at which the code loses track of the run
queue; runs that take one are given at the end.
-/

set_option linter.unusedSectionVars false

namespace Etaos

variable {T Q : Type} [DecidableEq T] [DecidableEq Q]

/-- The stages at which the current thread has stopped itself and is about to call
`schedule`. -/
def Pc.stopping : Pc T Q → Bool
  | .sleepSchedule => true
  | .waitSchedule => true
  | .addSchedule _ _ => true
  | .rawWaitSchedule _ => true
  | .irqWaitSchedule => true
  | _ => false

/-- The stages of the idle thread. -/
def Pc.ofIdle : Pc T Q → Bool
  | .user => true
  | .schedule => true
  | .addTest _ ret => ret = .start
  | .addRemove _ ret => ret = .start
  | .addSchedule _ ret => ret = .start
  | .addLink _ ret => ret = .start
  | .addMark _ ret => ret = .start
  | _ => false

/-- The functions that the idle thread calls. -/
def Op.ofIdle : Op T Q → Bool
  | .threadStart _ => true
  | .idleThreadFunc => true
  | _ => false

/-- A current thread that has stopped itself asks for a reschedule, or the next runnable
thread is not the idle one. -/
def Kernel.leaves [Fintype T] (cfg : Config Q) (k : Kernel T Q) : Bool :=
  (k.thr k.current).running || (k.thr k.current).needResched ||
    cfg.preempt && k.schedGetNextRunnable.any fun next => !(k.thr next).idle

/-- The thread `tp` can be put on the run queue: it is not current, on no list and not
asleep. -/
def Kernel.addable (k : Kernel T Q) (tp : T) : Bool :=
  tp ≠ k.current && k.links.queue tp = none && !(k.thr tp).sleeping

/-- The stages of the current thread that keep the run queue.  It removes no idle thread, and
puts a thread on the run queue that can be put there; it waits for an event only when it is
marked as being on the run queue.  In `event_notify` it does not take a mark for a thread. -/
def orderlyRun (s : System T Q) : Pc T Q → Bool
  | .addRemove tp _ => !(s.k.thr tp).idle
  | .addLink tp _ => s.k.addable tp
  | .rawWaitAdd _ => (s.k.thr s.k.current).onRq
  | .notifyDecide qp .thread => s.sample qp = .thread
  | _ => true

/-- The steps that keep the run queue.  When `__schedule` runs, no timer that has expired
belongs to the current thread, and a current thread that has stopped itself leaves.  An
interrupt puts a thread on the run queue only when it can be put there. -/
def orderly [Fintype T] (cfg : Config Q) (s : System T Q) : Label T Q → Bool
  | .call op => !(s.k.thr s.k.current).idle || op.ofIdle
  | .run => orderlyRun s (s.pc s.k.current)
  | .pass => s.k.leaves cfg &&
      s.k.expiredTimers.all fun timer => !s.k.owns s.k.current timer
  | .irqArrive tp => (s.k.thr tp).onRq || s.k.addable tp
  | _ => true

/-- The run queue is a finite list without repetitions, counted by `num`, and the current
thread is not on it. -/
def Whole (k : Kernel T Q) : Prop :=
  ∃ l p, k.links.head .runQueue = .ptr p ∧ Chain.IsChain k.links.next p l ∧ l.Nodup ∧
    k.current ∉ l ∧ k.num = l.length

variable [Fintype T]

/-- The test of `Kernel.leaves` makes a current thread that has stopped itself leave. -/
theorem Wf.leaves {i : T} {k : Kernel T Q} {L : Root Q → List T} {cfg : Config Q}
    (h : Wf i k L) (hleaves : k.leaves cfg = true) :
  Leaves cfg i k L
  := by
  intro hstopped
  have hi : i ∈ L .runQueue := by
    apply h.idle_on.resolve_left
    intro hi
    rw [← hi, h.idle_running] at hstopped
    cases hstopped
  simp only [Kernel.leaves, hstopped, Bool.false_or, Bool.or_eq_true, Bool.and_eq_true]
    at hleaves
  apply hleaves.imp_right
  rintro ⟨hpreempt, hnext⟩
  use hpreempt
  rw [Option.any_eq_true] at hnext
  obtain ⟨next, hnext, hidle⟩ := hnext
  cases hfind : (L .runQueue).find? fun t => (k.thr t).running with
  | none =>
      rw [List.find?_eq_none] at hfind
      exact absurd h.idle_running (hfind i hi)
  | some t =>
      have hfound := h.listed.schedGetNextRunnable hnext
      rw [hfind, Option.getD_some] at hfound
      refine ⟨t, ?_, rfl⟩
      rintro rfl
      rw [hfound, (h.idle t).mpr rfl] at hidle
      cases hidle

/-- The invariant of the system, where `i` is the idle thread. -/
structure Sound (i : T) (s : System T Q) : Prop where
  wf : ∃ L, Wf i s.k L
  stopping : (s.k.thr s.k.current).running = false →
    s.sched s.k.current = .enter ∨ (s.pc s.k.current).stopping
  idle : (s.pc i).ofIdle

namespace Sound

variable {i : T} {s s' : System T Q} {cfg : Config Q}

/-- A current thread out of the scheduler and not about to call it is running. -/
theorem running (h : Sound i s) (hsched : s.sched s.k.current = .out)
    (hpc : (s.pc s.k.current).stopping = false) :
  (s.k.thr s.k.current).running = true
  := by
  by_contra hstopped
  rcases h.stopping (by simpa using hstopped) with henter | hstopping
  · rw [hsched] at henter
    cases henter
  · rw [hpc] at hstopping
    cases hstopping

/-- The current thread changes the kernel and goes to another stage. -/
theorem goto (h : Sound i s) {k : Kernel T Q} {pc : Pc T Q} (hwf : ∃ L, Wf i k L)
    (hcurrent : k.current = s.k.current)
    (hstopping : (k.thr k.current).running = false → pc.stopping)
    (hidle : s.k.current = i → pc.ofIdle) :
  Sound i ((s.setKernel k).goto pc)
  := by
  constructor
  · apply hwf
  · intro hstopped
    right
    simpa [System.goto, System.setKernel] using hstopping hstopped
  · simp only [System.goto, System.setKernel, hcurrent]
    by_cases hi : i = s.k.current
    · rw [hi, Function.update_self]
      apply hidle hi.symm
    · rw [Function.update_of_ne hi]
      apply h.idle

/-- The current thread calls `schedule`. -/
theorem enter (h : Sound i s) {pc : Pc T Q} (hidle : s.k.current = i → pc.ofIdle) :
  Sound i ((s.setSched .enter).goto pc)
  := by
  constructor
  · apply h.wf
  · intro _
    left
    simp [System.goto, System.setSched]
  · simp only [System.goto, System.setSched]
    by_cases hi : i = s.k.current
    · rw [hi, Function.update_self]
      apply hidle hi.symm
    · rw [Function.update_of_ne hi]
      apply h.idle

/-- A change of the kernel that leaves the current thread and its flag alone. -/
theorem kernel (h : Sound i s) {k : Kernel T Q} (hwf : ∃ L, Wf i k L)
    (hcurrent : k.current = s.k.current)
    (hrunning : (k.thr k.current).running = false →
      (s.k.thr s.k.current).running = false) :
  Sound i (s.setKernel k)
  := by
  constructor
  · apply hwf
  · intro hstopped
    simp only [System.setKernel, hcurrent]
    apply h.stopping (hrunning hstopped)
  · apply h.idle

/-- The current thread changes its record, and keeps on running if it was. -/
theorem own (h : Sound i s) {f : Thread → Thread}
    (hf : ∀ th, (f th).idle = th.idle ∧ (f th).sleeping = th.sleeping ∧
      (f th).running = th.running) :
  Sound i (s.own f)
  := by
  obtain ⟨L, hwf⟩ := h.wf
  obtain ⟨hidle, hsleeping, hrunning⟩ := hf (s.k.thr s.k.current)
  apply h.kernel
  · refine ⟨L, hwf.modify hidle hsleeping ?_ ?_⟩
    · intro hi
      rw [hrunning, hi, hwf.idle_running]
    · intro _ hstopped
      rw [hrunning, hstopped]
  · rfl
  · intro hstopped
    simpa [hrunning] using hstopped

/-- The current thread goes to another stage. -/
theorem goto_only (h : Sound i s) {pc : Pc T Q}
    (hrunning : (s.k.thr s.k.current).running = true)
    (hidle : s.k.current = i → pc.ofIdle = true) :
  Sound i (s.goto pc)
  := by
  apply h.goto (k := s.k) h.wf rfl
  · intro hstopped
    rw [hrunning] at hstopped
    cases hstopped
  · apply hidle

theorem preemptDisable (h : Sound i s) : Sound i (s.preemptDisable cfg) := by
  rw [System.preemptDisable]
  split
  · apply h.own
    simp
  · apply h

theorem preemptEnableNoResched (h : Sound i s) : Sound i (s.preemptEnableNoResched cfg) := by
  rw [System.preemptEnableNoResched]
  split
  · apply h.own
    simp
  · apply h

/-- Entering the scheduler keeps the invariant. -/
theorem setEnter (h : Sound i s) : Sound i (s.setSched .enter) := by
  constructor
  · apply h.wf
  · intro _
    left
    simp [System.setSched]
  · apply h.idle

theorem preemptEnable (h : Sound i s) : Sound i (s.preemptEnable cfg) := by
  rw [System.preemptEnable]
  split
  · apply h.preemptEnableNoResched.setEnter
  · apply h.preemptEnableNoResched

/-- The idle thread is where the idle flag is. -/
theorem idle_flag (h : Sound i s) {tp : T} (htp : (s.k.thr tp).idle = false) : tp ≠ i := by
  rintro rfl
  obtain ⟨L, hwf⟩ := h.wf
  rw [(hwf.idle tp).mpr rfl] at htp
  cases htp

/-- The idle thread is not at a stage that is not one of its own. -/
theorem not_idle (h : Sound i s) (hpc : (s.pc s.k.current).ofIdle = false) :
  s.k.current ≠ i
  := by
  intro hi
  rw [hi, h.idle] at hpc
  cases hpc

end Sound

/-! ### The steps -/

namespace Sound

variable {i : T} {s s' : System T Q} {cfg : Config Q}

/-- What a system remembers of its calls and interrupts is no part of the invariant. -/
theorem congr (h : Sound i s) (hk : s'.k = s.k) (hpc : s'.pc = s.pc)
    (hsched : s'.sched = s.sched) :
  Sound i s'
  := by
  constructor
  · rw [hk]
    apply h.wf
  · rw [hk, hpc, hsched]
    apply h.stopping
  · rw [hpc]
    apply h.idle

/-- A change of the flags of a thread that do not stop or start it. -/
theorem modify (h : Sound i s) {tp : T} {f : Thread → Thread}
    (hf : ∀ th, (f th).idle = th.idle ∧ (f th).sleeping = th.sleeping ∧
      (f th).running = th.running) :
  Sound i (s.setKernel (s.k.modify tp f))
  := by
  obtain ⟨L, hwf⟩ := h.wf
  obtain ⟨hidle, hsleeping, hrunning⟩ := hf (s.k.thr tp)
  apply h.kernel
  · refine ⟨L, hwf.modify hidle hsleeping ?_ ?_⟩
    · intro hi
      rw [hrunning, hi, hwf.idle_running]
    · intro _ hstopped
      rw [hrunning, hstopped]
  · rfl
  · intro hstopped
    by_cases hcurrent : s.k.current = tp
    · rw [Kernel.modify_current, hcurrent, Kernel.modify_thr_self, hrunning] at hstopped
      rw [hcurrent, hstopped]
    · rwa [Kernel.modify_current, Kernel.modify_thr_of_ne _ _ _ hcurrent] at hstopped

/-- The current thread calls a function. -/
theorem call (h : Sound i s) (hsched : s.sched s.k.current = .out)
    (hpc : s.pc s.k.current = .user) {op : Op T Q}
    (hop : (s.k.thr s.k.current).idle = false ∨ op.ofIdle = true)
    (hs : s.call cfg op = some s') :
  Sound i s'
  := by
  have hrunning := h.running hsched (by rw [hpc]; rfl)
  have hidle (hop' : op.ofIdle = false) : s.k.current ≠ i := by
    rcases hop with hflag | hop
    · apply h.idle_flag hflag
    · rw [hop'] at hop
      cases hop
  cases op with
  | sleep ms =>
      simp only [System.call] at hs
      split at hs
      · obtain rfl := Option.some.inj hs
        obtain ⟨L, hwf⟩ := h.wf
        apply h.goto
        · refine ⟨L, hwf.sleep hrunning (hidle rfl) rfl ?_⟩
          simp
        · rfl
        · intro _; rfl
        · intro hi
          exact absurd hi (hidle rfl)
      · cases hs
  | wait =>
      obtain rfl := Option.some.inj hs
      apply goto_only
      · apply h.own
        simp
      · simpa [System.own] using hrunning
      · intro hi
        exact absurd hi (hidle rfl)
  | signal tp =>
      simp only [System.call] at hs
      split at hs
      · obtain rfl := Option.some.inj hs
        apply goto_only
        · have hmodify : Sound i (s.setKernel
              (s.k.modify tp fun th => { th with waiting := false })) := by
            apply h.modify
            simp
          exact hmodify.congr rfl rfl rfl
        · by_cases htp : s.k.current = tp
          · simpa [htp] using hrunning
          · simpa [htp] using hrunning
        · intro hi
          exact absurd hi (hidle rfl)
      · obtain rfl := Option.some.inj hs
        apply h
  | rqAddThread tp =>
      obtain rfl := Option.some.inj hs
      apply h.goto_only hrunning
      intro hi
      exact absurd hi (hidle rfl)
  | threadStart tp =>
      obtain rfl := Option.some.inj hs
      apply h.preemptDisable.goto_only
      · rw [System.preemptDisable]
        split
        · simpa [System.own] using hrunning
        · apply hrunning
      · intro _; rfl
  | yield =>
      obtain rfl := Option.some.inj hs
      apply h.goto_only hrunning
      intro hi
      exact absurd hi (hidle rfl)
  | eventWait qp ms =>
      obtain rfl := Option.some.inj hs
      apply h.goto_only hrunning
      intro hi
      exact absurd hi (hidle rfl)
  | rawEventWait qp ms =>
      obtain rfl := Option.some.inj hs
      apply h.goto_only hrunning
      intro hi
      exact absurd hi (hidle rfl)
  | eventNotify qp =>
      obtain rfl := Option.some.inj hs
      apply h.goto_only hrunning
      intro hi
      exact absurd hi (hidle rfl)
  | idleThreadFunc =>
      obtain rfl := Option.some.inj hs
      apply goto_only
      · apply h.own
        simp
      · simpa [System.own] using hrunning
      · intro _; rfl
  | irqHandleFn =>
      obtain rfl := Option.some.inj hs
      apply h.goto_only hrunning
      intro hi
      exact absurd hi (hidle rfl)

/-- The stages of `rq_add_thread`. -/
theorem addThread (h : Sound i s) (hrunning : (s.k.thr s.k.current).running = true)
    {tp : T} {ret : AddReturn} (hadd : s.k.addable tp = true)
    {k : Kernel T Q} (hk : s.k.rqAddThreadLocked cfg tp = some k)
    (hidle : s.k.current = i → ret = .start) :
  Sound i ((s.setKernel k).goto (.addMark tp ret))
  := by
  obtain ⟨L, hwf⟩ := h.wf
  simp only [Kernel.addable, Bool.and_eq_true, decide_eq_true_eq, Bool.not_eq_true',
    ne_eq] at hadd
  obtain ⟨⟨hcurrent, hqueue⟩, hsleeping⟩ := hadd
  have hout (r : Root Q) : tp ∉ L r := by
    intro hr
    rw [hwf.listed.linked.queue r tp hr] at hqueue
    cases hqueue
  obtain ⟨k₁, hk₁, rfl⟩ := Option.map_eq_some_iff.mp hk
  obtain ⟨L', links, hadded, hlisted, rfl⟩ := hwf.listed.addThread hout hk₁
  apply h.goto
  · refine ⟨L', (hwf.add hcurrent hsleeping hadded hlisted rfl rfl rfl).modify rfl rfl ?_ ?_⟩
    · intro _; rfl
    · intro hne; exact absurd hne hcurrent
  · rfl
  · intro hstopped
    rw [Kernel.modify_current, Kernel.modify_thr_of_ne _ _ _ (Ne.symm hcurrent)] at hstopped
    rw [hrunning] at hstopped
    cases hstopped
  · intro hi
    simpa [Pc.ofIdle] using hidle hi

/-- The removal at the start of `rq_add_thread`, of a thread that is not idle. -/
theorem addRemove (h : Sound i s) (hrunning : (s.k.thr s.k.current).running = true)
    {tp : T} {ret : AddReturn} (htp : (s.k.thr tp).idle = false) {k : Kernel T Q} {err : Int}
    (hk : s.k.rawRqRemoveThreadNoresched tp = some (k, err))
    (hidle : s.k.current = i → ret = .start) :
  Sound i ((s.setKernel k).goto (if err > 0 then .addSchedule tp ret else .addLink tp ret))
  := by
  obtain ⟨L, hwf⟩ := h.wf
  have hi : tp ≠ i := h.idle_flag htp
  have hpc (b : Prop) [Decidable b] (hcurrent : s.k.current = i) :
      Pc.ofIdle (if b then .addSchedule tp ret else .addLink tp ret : Pc T Q) = true := by
    split <;> simpa [Pc.ofIdle] using hidle hcurrent
  rw [Kernel.rawRqRemoveThreadNoresched] at hk
  split at hk
  · obtain ⟨rfl, rfl⟩ := Prod.mk.inj (Option.some.inj hk)
    apply h.goto_only hrunning (hpc _)
  · split at hk
    · rename_i hcurrent
      obtain ⟨rfl, rfl⟩ := Prod.mk.inj (Option.some.inj hk)
      apply h.goto
      · refine ⟨L, hwf.modify rfl rfl ?_ ?_⟩
        · intro hti; exact absurd hti hi
        · intro _ _; rfl
      · rfl
      · intro _; rfl
      · apply hpc
    · rename_i hcurrent
      obtain ⟨⟨k₁, rc⟩, hk₁, hk⟩ := Option.map_eq_some_iff.mp hk
      obtain ⟨rfl, rfl⟩ := Prod.mk.inj hk
      have hstopped : Wf i (s.k.modify tp fun th => { th with running := false }) L := by
        apply hwf.modify rfl rfl
        · intro hti; exact absurd hti hi
        · intro _ _; rfl
      obtain ⟨hlisted, num, links, rfl⟩ := hstopped.listed.rmThread hk₁
      apply h.goto
      · refine ⟨_, (hstopped.remove hi.symm hlisted rfl rfl rfl).modify rfl rfl ?_ ?_⟩
        · intro hti; exact absurd hti hi
        · intro _ hrun; exact hrun
      · rfl
      · intro hstop
        simp [hcurrent, hrunning] at hstop
      · apply hpc

/-- The stages of `event_notify` behind the read of the head. -/
theorem notify (h : Sound i s) (hrunning : (s.k.thr s.k.current).running = true) {qp : Q}
    {tp : Sample} (htp : tp = .thread → s.sample qp = .thread)
    (hs : s.notify cfg qp tp = some s') :
  Sound i s' ∧ s'.k.current = s.k.current ∧ (s'.k.thr s'.k.current).running = true
  := by
  obtain ⟨L, hwf⟩ := h.wf
  cases tp with
  | null =>
      obtain rfl := Option.some.inj hs
      refine ⟨?_, rfl, hrunning⟩
      exact h.kernel ⟨_, hwf.mark qp⟩ rfl id
  | signaled =>
      obtain rfl := Option.some.inj hs
      use h
  | thread =>
      rw [System.notify] at hs
      split at hs
      · rename_i t ht
        obtain ⟨k, hk, rfl⟩ := Option.map_eq_some_iff.mp hs
        have hmem : t ∈ L (.queue qp) := List.mem_of_mem_head? (hwf.listed.linked.head_eq ht)
        obtain ⟨L', hwoke⟩ := Woke.rawEventNotify hwf.listed hmem hk
        have hne : s.k.current ≠ t := by
          rintro rfl
          apply hwf.current_out hrunning _ hmem
        have hrunning' : (k.thr k.current).running = true := by
          rw [hwoke.current, hwoke.running_of_ne hne, hrunning]
        refine ⟨?_, hwoke.current, hrunning'⟩
        apply h.kernel ⟨L', hwf.woke hwoke⟩ hwoke.current
        intro hstopped
        rw [hrunning'] at hstopped
        cases hstopped
      · rename_i hhead
        obtain ⟨t, ht⟩ := Qhead.sample_eq_thread.mp (htp rfl)
        exact absurd ht (hhead t)

/-- The current thread stops itself. -/
theorem stop (h : Sound i s) (hi : s.k.current ≠ i) {pc : Pc T Q}
    (hpc : pc.stopping = true) :
  Sound i ((s.own fun th => { th with running := false }).goto pc)
  := by
  obtain ⟨L, hwf⟩ := h.wf
  apply h.goto
  · refine ⟨L, hwf.modify rfl rfl ?_ ?_⟩
    · intro hci; exact absurd hci hi
    · intro _ _; rfl
  · rfl
  · intro _; exact hpc
  · intro hci; exact absurd hci hi

/-- A running thread sets the running flag of a thread. -/
theorem setRunning (h : Sound i s) (hrunning : (s.k.thr s.k.current).running = true) {tp : T}
    {pc : Pc T Q} (hpc : s.k.current = i → pc.ofIdle = true) :
  Sound i ((s.setKernel (s.k.modify tp fun th => { th with running := true })).goto pc)
  := by
  obtain ⟨L, hwf⟩ := h.wf
  apply h.goto
  · refine ⟨L, hwf.modify rfl rfl ?_ ?_⟩
    · intro _; rfl
    · rintro rfl hstopped
      rw [hrunning] at hstopped
      cases hstopped
  · rfl
  · intro hstopped
    by_cases htp : s.k.current = tp
    · simp [htp] at hstopped
    · simp [htp, hrunning] at hstopped
  · apply hpc

/-- The function `preempt_enable` leaves the current thread running. -/
theorem preemptEnable_running (s : System T Q) :
  ((s.preemptEnable cfg).k.thr (s.preemptEnable cfg).k.current).running
    = (s.k.thr s.k.current).running
  := by
  obtain ⟨n, hn | hn⟩ := System.preemptEnable_eq cfg s
  · simp [hn, System.own]
  · simp [hn, System.own, System.setSched]

theorem preemptEnable_current (s : System T Q) :
  (s.preemptEnable cfg).k.current = s.k.current
  := by
  obtain ⟨n, hn | hn⟩ := System.preemptEnable_eq cfg s
  · rw [hn]
    rfl
  · rw [hn]
    rfl

/-- The end of `rq_add_thread`, and what follows it. -/
theorem addMark (h : Sound i s) (hrunning : (s.k.thr s.k.current).running = true) {tp : T}
    {ret : AddReturn} (hret : s.k.current = i → ret = .start) :
  Sound i (s.addMark cfg tp ret)
  := by
  have h' : Sound i
      (s.setKernel (s.k.modify tp fun th => { th with onRq := true, rq := true })) := by
    apply h.modify
    simp
  have hrunning' : ((s.k.modify tp fun th => { th with onRq := true, rq := true }).thr
      s.k.current).running = true := by
    by_cases htp : s.k.current = tp
    · simpa [htp] using hrunning
    · simpa [htp] using hrunning
  cases ret with
  | direct =>
      apply h'.goto_only hrunning'
      intro hi
      cases hret hi
  | signal =>
      apply h'.goto_only hrunning'
      intro hi
      cases hret hi
  | start =>
      apply h'.preemptEnable.goto_only
      · rw [preemptEnable_running]
        apply hrunning'
      · intro _; rfl

/-- The test of the head in `raw_event_wait`. -/
theorem rawWaitTest (h : Sound i s) (hrunning : (s.k.thr s.k.current).running = true)
    (hi : s.k.current ≠ i) (qp : Q) (ms : Nat) :
  Sound i (s.rawWaitTest cfg qp ms)
  := by
  obtain ⟨n, hn⟩ := System.preemptDisable_eq cfg s
  have h' : Sound i (s.preemptDisable cfg) := h.preemptDisable
  rw [System.rawWaitTest]
  rw [hn] at h' ⊢
  have hrunning' : ((s.own fun th => { th with preemptCnt := n }).k.thr
      s.k.current).running = true := by
    simpa [System.own] using hrunning
  dsimp only
  split
  · rename_i hqp
    obtain ⟨L, hwf⟩ := h'.wf
    have hclear := h'.kernel ⟨L, hwf.clear hqp⟩ rfl id
    apply goto_only
    · exact hclear.preemptEnable.congr rfl rfl rfl
    · dsimp only
      rw [preemptEnable_running]
      apply hrunning'
    · intro hci
      rw [preemptEnable_current] at hci
      exact absurd hci hi
  · apply h'.goto_only hrunning'
    intro hci; exact absurd hci hi

/-- The timer and the wake list of a thread that is about to wait. -/
theorem rawWaitPrepare (h : Sound i s) (hrunning : (s.k.thr s.k.current).running = true)
    (hi : s.k.current ≠ i) (qp : Q) (ms : Nat) :
  Sound i (s.rawWaitPrepare cfg qp ms)
  := by
  rw [System.rawWaitPrepare]
  dsimp only
  set s₁ := if ms = 0 then _ else _ with hs₁
  have h₁ : Sound i s₁ ∧ s₁.k.current = s.k.current ∧
      (s₁.k.thr s.k.current).running = true := by
    rw [hs₁]
    split
    · refine ⟨?_, rfl, ?_⟩
      · apply h.own
        simp
      · simpa [System.own] using hrunning
    · refine ⟨?_, rfl, ?_⟩
      · apply own
        · obtain ⟨L, hwf⟩ := h.wf
          apply h.kernel ⟨L, hwf.timerCreate ms qp⟩ rfl
          apply id
        · simp
      · simpa [System.own, System.setKernel, Kernel.timerCreate] using hrunning
  obtain ⟨h₁, hcurrent, hrunning₁⟩ := h₁
  have h₂ : Sound i (s₁.own fun th => { th with rq := true }) := by
    apply h₁.own
    simp
  obtain ⟨L, hwf⟩ := h₂.wf
  have hwf' : Wf i { (s₁.own fun th => { th with rq := true }).k with
      wake := s.k.current :: (s₁.own fun th => { th with rq := true }).k.wake } L := by
    exact hwf.congr (hwf.listed.congr rfl rfl) rfl (fun _ _ ht => ht) rfl rfl (List.Sublist.refl _)
  apply h₂.goto ⟨L, hwf'⟩ rfl
  · simp [System.own, hcurrent, hrunning₁]
  · intro hci
    exact absurd (hcurrent.symm.trans hci) hi

/-- The thread is queued. -/
theorem rawWaitAdd (h : Sound i s) (hrunning : (s.k.thr s.k.current).running = true)
    (hi : s.k.current ≠ i) (honRq : (s.k.thr s.k.current).onRq = true) {qp : Q}
    (hs : s.rawWaitAdd cfg qp = some s') :
  Sound i s'
  := by
  obtain ⟨k, hk, rfl⟩ := Option.map_eq_some_iff.mp hs
  obtain ⟨L, hwf⟩ := h.wf
  obtain ⟨a, b, links, -, hk', hwf'⟩ := hwf.queueAddThread hrunning hi honRq hk
  have hcurrent : k.current = s.k.current := by rw [hk']; rfl
  have hstopped : (k.thr k.current).running = false := by simp [hk']
  have hreset : Wf i (k.resetWakes k.current)
      (Function.update L (.queue qp) (a ++ s.k.current :: b)) := by
    exact hwf'.congr (hwf'.listed.congr rfl rfl) rfl (fun _ _ ht => ht) rfl rfl (List.Sublist.refl _)
  obtain ⟨n, hn⟩ :=
    System.preemptEnableNoResched_eq cfg (s.setKernel (k.resetWakes k.current))
  rw [hn]
  apply h.goto
  · refine ⟨_, hreset.modify rfl rfl ?_ ?_⟩
    · intro hci; exact absurd (hcurrent.symm.trans hci) hi
    · intro _ hstopped; exact hstopped
  · exact hcurrent
  · intro _; rfl
  · intro hci; exact absurd hci hi

/-- The return from `raw_event_wait`. -/
theorem rawWaitReturn (h : Sound i s) (hrunning : (s.k.thr s.k.current).running = true)
    (hi : s.k.current ≠ i) :
  Sound i s.rawWaitReturn
  := by
  rw [System.rawWaitReturn]
  split
  · apply goto_only
    · have h' : Sound i (s.own fun th => { th with timer := .null }) := by
        apply h.own
        simp
      exact h'.congr rfl rfl rfl
    · simpa [System.own] using hrunning
    · intro hci; exact absurd hci hi
  · apply goto_only
    · exact h.congr rfl rfl rfl
    · exact hrunning
    · intro hci; exact absurd hci hi

/-- The stages of `event_notify` behind the read of the head, with the end of the call. -/
theorem notifyDecide (h : Sound i s) (hrunning : (s.k.thr s.k.current).running = true)
    (hi : s.k.current ≠ i) {qp : Q} {tp : Sample}
    (htp : tp = .thread → s.sample qp = .thread)
    (hs : (s.preemptDisable cfg).notify cfg qp tp = some s') :
  Sound i ((s'.preemptEnable cfg).goto .user)
  := by
  obtain ⟨n, hn⟩ := System.preemptDisable_eq cfg s
  have h' : Sound i (s.preemptDisable cfg) := h.preemptDisable
  rw [hn] at h' hs
  have hrunning' : ((s.own fun th => { th with preemptCnt := n }).k.thr
      s.k.current).running = true := by
    simpa [System.own] using hrunning
  obtain ⟨h₁, hcurrent, hrunning₁⟩ := h'.notify hrunning' htp hs
  apply h₁.preemptEnable.goto_only
  · rw [preemptEnable_running, hrunning₁]
  · intro hci
    rw [preemptEnable_current, hcurrent] at hci
    exact absurd hci hi

/-- The current thread runs a stage. -/
theorem run (h : Sound i s) (hsched : s.sched s.k.current = .out)
    (horderly : orderlyRun s (s.pc s.k.current) = true) (hs : s.run cfg = some s') :
  Sound i s'
  := by
  have hidle := h.idle
  have hrunning (hpc : (s.pc s.k.current).stopping = false) := h.running hsched hpc
  have hnot (hpc : (s.pc s.k.current).ofIdle = false) := h.not_idle hpc
  rw [System.run] at hs
  cases hpc : s.pc s.k.current <;> rw [hpc] at hs hrunning hnot horderly
  case user => cases hs
  case schedule =>
    obtain rfl := Option.some.inj hs
    apply h.enter
    intro _; rfl
  case sleepSchedule =>
    obtain rfl := Option.some.inj hs
    apply h.enter
    intro hi; exact absurd hi (hnot rfl)
  case waitResched =>
    obtain rfl := Option.some.inj hs
    apply goto_only
    · apply h.own
      simp
    · simpa [System.own] using hrunning rfl
    · intro hi; exact absurd hi (hnot rfl)
  case waitStop =>
    obtain rfl := Option.some.inj hs
    apply h.stop (hnot rfl) rfl
  case waitSchedule =>
    obtain rfl := Option.some.inj hs
    apply h.enter
    intro hi; exact absurd hi (hnot rfl)
  case waitReturn =>
    obtain rfl := Option.some.inj hs
    apply goto_only
    · exact h.congr rfl rfl rfl
    · exact hrunning rfl
    · intro hi; exact absurd hi (hnot rfl)
  case signalRun tp =>
    obtain rfl := Option.some.inj hs
    apply h.setRunning (hrunning rfl)
    intro hi; exact absurd hi (hnot rfl)
  case addTest tp ret =>
    have hret (hi : s.k.current = i) : ret = .start := by
      rw [← hi, hpc] at hidle
      simpa [Pc.ofIdle] using hidle
    dsimp only at hs
    split at hs
    · obtain rfl := Option.some.inj hs
      apply h.goto_only (hrunning rfl)
      intro hi
      simpa [Pc.ofIdle] using hret hi
    · obtain rfl := Option.some.inj hs
      apply h.goto_only (hrunning rfl)
      intro hi
      simpa [Pc.ofIdle] using hret hi
  case addRemove tp ret =>
    have hret (hi : s.k.current = i) : ret = .start := by
      rw [← hi, hpc] at hidle
      simpa [Pc.ofIdle] using hidle
    obtain ⟨⟨k, err⟩, hk, rfl⟩ := Option.map_eq_some_iff.mp hs
    apply h.addRemove (hrunning rfl) (by simpa [orderlyRun] using horderly) hk hret
  case addSchedule tp ret =>
    have hret (hi : s.k.current = i) : ret = .start := by
      rw [← hi, hpc] at hidle
      simpa [Pc.ofIdle] using hidle
    obtain rfl := Option.some.inj hs
    apply h.enter
    intro hi
    simpa [Pc.ofIdle] using hret hi
  case addLink tp ret =>
    have hret (hi : s.k.current = i) : ret = .start := by
      rw [← hi, hpc] at hidle
      simpa [Pc.ofIdle] using hidle
    obtain ⟨k, hk, rfl⟩ := Option.map_eq_some_iff.mp hs
    apply h.addThread (hrunning rfl) horderly hk hret
  case addMark tp ret =>
    obtain rfl := Option.some.inj hs
    apply h.addMark (hrunning rfl)
    intro hi
    rw [← hi, hpc] at hidle
    simpa [Pc.ofIdle] using hidle
  case yieldTest =>
    obtain ⟨s₁, hs₁, rfl⟩ := Option.map_eq_some_iff.mp hs
    obtain ⟨next, -, rfl⟩ := Option.map_eq_some_iff.mp hs₁
    split
    · apply goto_only
      · apply h.own
        simp
      · simpa [System.own] using hrunning rfl
      · intro hi; exact absurd hi (hnot rfl)
    · apply h.goto_only (hrunning rfl)
      intro hi; exact absurd hi (hnot rfl)
  case eventWaitDiscard qp ms =>
    dsimp only at hs
    split at hs
    · rename_i hqp
      obtain rfl := Option.some.inj hs
      obtain ⟨L, hwf⟩ := h.wf
      apply h.goto ⟨L, hwf.clear hqp⟩ rfl
      · intro hstopped
        exact absurd (hrunning rfl) (by simpa using hstopped)
      · intro hi; exact absurd hi (hnot rfl)
    · obtain rfl := Option.some.inj hs
      apply h.goto_only (hrunning rfl)
      intro hi; exact absurd hi (hnot rfl)
  case rawWaitTest qp ms =>
    obtain rfl := Option.some.inj hs
    apply h.rawWaitTest (hrunning rfl) (hnot rfl)
  case rawWaitPrepare qp ms =>
    dsimp only at hs
    split at hs
    · obtain rfl := Option.some.inj hs
      apply h.rawWaitPrepare (hrunning rfl) (hnot rfl)
    · cases hs
  case rawWaitAdd qp =>
    apply h.rawWaitAdd (hrunning rfl) (hnot rfl) horderly hs
  case rawWaitSchedule qp =>
    obtain rfl := Option.some.inj hs
    apply h.enter
    intro hi; exact absurd hi (hnot rfl)
  case rawWaitReturn qp =>
    obtain rfl := Option.some.inj hs
    apply h.rawWaitReturn (hrunning rfl) (hnot rfl)
  case notifySample qp =>
    obtain rfl := Option.some.inj hs
    apply h.goto_only (hrunning rfl)
    intro hi; exact absurd hi (hnot rfl)
  case notifyDecide qp tp =>
    obtain ⟨s₁, hs₁, rfl⟩ := Option.map_eq_some_iff.mp hs
    apply h.notifyDecide (hrunning rfl) (hnot rfl) _ hs₁
    rintro rfl
    simpa [orderlyRun] using horderly
  case irqLoop =>
    obtain rfl := Option.some.inj hs
    apply goto_only
    · apply h.own
      simp
    · simpa [System.own] using hrunning rfl
    · intro hi; exact absurd hi (hnot rfl)
  case irqWaitResched =>
    obtain rfl := Option.some.inj hs
    apply goto_only
    · apply h.own
      simp
    · simpa [System.own] using hrunning rfl
    · intro hi; exact absurd hi (hnot rfl)
  case irqWaitStop =>
    obtain rfl := Option.some.inj hs
    apply h.stop (hnot rfl) rfl
  case irqWaitSchedule =>
    obtain rfl := Option.some.inj hs
    apply h.enter
    intro hi; exact absurd hi (hnot rfl)
  case irqWaitReturn =>
    obtain rfl := Option.some.inj hs
    apply goto_only
    · exact h.congr rfl rfl rfl
    · exact hrunning rfl
    · intro hi; exact absurd hi (hnot rfl)
  case irqHandler =>
    obtain rfl := Option.some.inj hs
    apply h.goto_only (hrunning rfl)
    intro hi; exact absurd hi (hnot rfl)

/-- The current thread runs `__schedule`. -/
theorem pass (h : Sound i s) (hleaves : s.k.leaves cfg = true)
    (howns : ∀ timer ∈ s.k.expiredTimers, s.k.owns s.k.current timer = false)
    {k : Kernel T Q} (hk : s.k.schedulePass cfg = some k) :
  Sound i ((s.setSched .test).setKernel k)
  := by
  obtain ⟨L, hwf⟩ := h.wf
  obtain ⟨k₁, L₁, L', hevents, hdecided⟩ := hwf.schedulePass (hwf.leaves hleaves) howns hk
  obtain ⟨hwf', hrunning⟩ := (hwf.events hevents).decided hdecided
  constructor
  · use L'
    apply hwf'
  · intro hstopped
    simp [System.setKernel, hrunning] at hstopped
  · apply h.idle

/-- The current thread moves on in the loop of `schedule`. -/
theorem setSched (h : Sound i s) (hsched : s.sched s.k.current ≠ .enter) (p : SchedPoint) :
  Sound i (s.setSched p)
  := by
  constructor
  · apply h.wf
  · intro hstopped
    right
    apply (h.stopping hstopped).resolve_left hsched
  · apply h.idle

/-- A clock interrupt. -/
theorem interrupt (h : Sound i s) (slice : Bool) :
  Sound i (s.own fun th =>
    { th with preemptNeedResched := th.preemptNeedResched || slice })
  := by
  apply h.own
  simp

/-- A device interrupt that notifies a queue. -/
theorem eventNotifyIrq (h : Sound i s) (qp : Q) : Sound i (s.eventNotifyIrq qp) := by
  obtain ⟨L, hwf⟩ := h.wf
  rw [System.eventNotifyIrq]
  dsimp only
  split
  · refine h.kernel ⟨L, hwf.congr ?_ rfl (fun _ _ ht => ht) rfl rfl ?_⟩ rfl id
    · exact (hwf.listed.setEc _).congr rfl rfl
    · apply List.Sublist.refl
  · rename_i hqp
    have hL : L (.queue qp) = [] := by
      have hchain := hwf.listed.linked.chain _ _ hqp
      rwa [Chain.IsChain.nil_iff] at hchain
    refine h.kernel ⟨L, hwf.congr ?_ rfl (fun _ _ ht => ht) rfl rfl ?_⟩ rfl id
    · exact (hwf.listed.setQhead hL (.inl rfl)).congr rfl rfl
    · apply List.Sublist.refl
  · refine h.kernel ⟨L, hwf.congr ?_ rfl (fun _ _ ht => ht) rfl rfl ?_⟩ rfl id
    · exact hwf.listed.congr rfl rfl
    · apply List.Sublist.refl

/-- A device interrupt that triggers an interrupt thread. -/
theorem irqThreadSignal (h : Sound i s) {tp : T}
    (htp : (s.k.thr tp).onRq = true ∨ s.k.addable tp = true)
    (hs : s.irqThreadSignal cfg tp = some s') :
  Sound i s'
  := by
  rw [System.irqThreadSignal] at hs
  dsimp only at hs
  split at hs
  · obtain rfl := Option.some.inj hs
    exact h.congr rfl rfl rfl
  · rename_i honRq
    obtain ⟨L, hwf⟩ := h.wf
    have hadd := htp.resolve_left honRq
    simp only [Kernel.addable, Bool.and_eq_true, decide_eq_true_eq, Bool.not_eq_true',
      ne_eq] at hadd
    obtain ⟨⟨hcurrent, hqueue⟩, hsleeping⟩ := hadd
    have hout (r : Root Q) : tp ∉ L r := by
      intro hr
      rw [hwf.listed.linked.queue r tp hr] at hqueue
      cases hqueue
    obtain ⟨k, hk, rfl⟩ := Option.map_eq_some_iff.mp hs
    have hwf₁ : Wf i (s.k.modify tp fun th => { th with running := true, waiting := false })
        L := by
      apply hwf.modify rfl rfl
      · intro _; rfl
      · intro htc; exact absurd htc hcurrent
    have hsleeping₁ : ((s.k.modify tp fun th =>
        { th with running := true, waiting := false }).thr tp).sleeping = false := by
      simpa using hsleeping
    obtain ⟨L', -, hwf₂⟩ := hwf₁.rawRqAddThread hcurrent hsleeping₁ hout hk
    obtain ⟨-, links, -, -, rfl⟩ := hwf₁.listed.rawRqAddThread hout hk
    apply own
    · refine (h.kernel ⟨L', hwf₂⟩ rfl ?_).congr rfl rfl rfl
      simp [Ne.symm hcurrent]
    · simp

/-- An orderly step keeps the invariant. -/
theorem step (h : Sound i s) {l : Label T Q} (hl : orderly cfg s l = true)
    (hs : s.step cfg l = some s') :
  Sound i s'
  := by
  rw [System.step] at hs
  split at hs
  · cases hs
  · cases l with
    | call op =>
        dsimp only [System.next] at hs
        split at hs
        · rename_i hready
          apply h.call hready.1 hready.2 _ hs
          simpa [orderly] using hl
        · cases hs
    | run =>
        dsimp only [System.next] at hs
        split at hs
        · rename_i hsched
          apply h.run hsched hl hs
        · cases hs
    | pass =>
        dsimp only [System.next] at hs
        split at hs
        · obtain ⟨k, hk, rfl⟩ := Option.map_eq_some_iff.mp hs
          simp only [orderly, Bool.and_eq_true] at hl
          apply h.pass hl.1 _ hk
          simpa using hl.2
        · cases hs
    | test =>
        dsimp only [System.next] at hs
        split at hs
        · rename_i hsched
          obtain rfl := Option.some.inj hs
          apply h.setSched
          simp [hsched]
        · cases hs
    | interrupt slice =>
        dsimp only [System.next] at hs
        split at hs
        · obtain rfl := Option.some.inj hs
          have h' := h.interrupt slice
          split
          · apply h'.setEnter
          · apply h'
        · cases hs
    | tick n =>
        obtain rfl := Option.some.inj hs
        obtain ⟨L, hwf⟩ := h.wf
        refine h.kernel ⟨L, hwf.congr ?_ rfl (fun _ _ ht => ht) rfl rfl ?_⟩ rfl id
        · exact hwf.listed.congr rfl rfl
        · apply List.Sublist.refl
    | irqNotify qp =>
        obtain rfl := Option.some.inj hs
        apply h.eventNotifyIrq
    | irqArrive tp =>
        apply h.irqThreadSignal _ hs
        simpa [orderly] using hl

/-- The invariant holds at the start, where the idle thread is current. -/
theorem start {ready : List T} (hs : s.Start ready) : Sound s.k.current s := by
  constructor
  · use System.startLists ready
    constructor
    case listed => exact ⟨hs.linked, hs.num, hs.head⟩
    case current => apply hs.current
    case idle => apply hs.idle
    case idle_running => apply hs.running
    case idle_on => apply Or.inl rfl
    case off =>
      rintro (⟨r, hr⟩ | hsleeping)
      · cases r with
        | runQueue => exact absurd hr hs.current
        | queue qp => cases hr
      · simp [hs.sleeping] at hsleeping
    case asleep => simp [hs.sleeping]
    case timers => simp [hs.timers]
    case timers_nodup => simp [hs.timers]
  · simp [hs.running]
  · rw [hs.pc]
    rfl

end Sound

/-- The invariant gives a whole run queue. -/
theorem Sound.whole {i : T} {s : System T Q} (h : Sound i s) : Whole s.k := by
  obtain ⟨L, hwf⟩ := h.wf
  cases hp : s.k.links.head .runQueue with
  | signaled => exact absurd hp hwf.listed.head
  | ptr p =>
      exact ⟨L .runQueue, p, hp, hwf.listed.linked.chain _ _ hp, hwf.listed.linked.nodup _,
        hwf.current, hwf.listed.num⟩

/-- In a run of orderly steps, the run queue is whole in every state reached. -/
theorem whole_of_orderly {cfg : Config Q} {s s' : System T Q} {ready : List T}
    (hstart : s.Start ready)
    (hrun : Run.Guarded (System.step cfg) (fun s l => orderly cfg s l = true) s s') :
  Whole s'.k
  := by
  apply Sound.whole
  apply hrun.invariant (Sound s.k.current) (Sound.start hstart)
  intro u l v hu hl hv
  apply hu.step hl hv

/-! ### Runs -/

section

/-- The FIFO class without preemption, and a clock of one tick a millisecond. -/
def fifoConfig : Config Unit where
  preempt := false
  dynPrio := false
  rqClass := .fifo
  queueClass := fun _ => .fifo
  freq := 1000

/-- The idle thread `0` starts the thread `1` and lets it run. -/
def startThread : List (Label (Fin 2) Unit) :=
  [.call (.threadStart 1), .run, .run, .run, .call .idleThreadFunc, .run, .pass]

/-- The class `rr` with preemption. -/
def preemptConfig : Config Unit :=
  { fifoConfig with preempt := true, rqClass := .rr }

/-- The idle thread `0` has the last priority. -/
def idleLast (t : Fin 3) : Nat :=
  if t = 0 then 200 else 100

/-- The idle thread `0` starts the threads `1` and `2` and lets the thread `1` run. -/
def startTwo : List (Label (Fin 3) Unit) :=
  [.call (.threadStart 1), .run, .run, .run, .call (.threadStart 2), .run, .run, .run,
    .call .idleThreadFunc, .run, .pass]

/-- The thread `1` sleeps until the clock wakes it. -/
def sleepFor (ms : Nat) : List (Label (Fin 2) Unit) :=
  startThread ++ [.call (.sleep ms), .run, .pass, .tick ms, .test, .call .idleThreadFunc,
    .run, .pass]

/-- The theorem applied to a thread that sleeps for five milliseconds. -/
theorem whole_of_orderly_sleepFor_five :
  ∃ s, Run.exec (System.step fifoConfig) (System.boot (fun _ => 100) 0) (sleepFor 5) = some s ∧
    s.k.current = 1 ∧ Whole s.k
  := by
  obtain ⟨s, hs, hcurrent⟩ := Run.exists_of_any (System.step fifoConfig)
    (System.boot (fun _ => 100) 0) (sleepFor 5) (fun s => s.k.current = 1) (by decide)
  refine ⟨s, hs, of_decide_eq_true hcurrent, ?_⟩
  apply whole_of_orderly (System.boot_start _ _) (Run.guarded_of_exec (sleepFor 5) hs _)
  decide

/-- A thread on a whole run queue does not follow itself. -/
theorem Whole.next_ne {k : Kernel T Q} (h : Whole k) {t : T}
    (hhead : k.links.head .runQueue = .ptr (some t)) :
  k.links.next t ≠ some t
  := by
  obtain ⟨l, p, hp, hchain, hnodup, -, -⟩ := h
  obtain rfl := Qhead.ptr.inj (hp.symm.trans hhead)
  intro hnext
  cases l with
  | nil => cases hchain
  | cons a l =>
      obtain ⟨ha, hchain⟩ := hchain
      obtain rfl := Option.some.inj ha
      rw [hnext] at hchain
      cases l with
      | nil => cases hchain
      | cons b l =>
          obtain rfl := Option.some.inj hchain.1
          simp at hnodup

/-- When the timeout of `sleep(0)` fires, the thread is still current: it is put on the run
queue by the timeout and once more by the switch, and follows itself there. -/
theorem not_whole_sleep_zero :
  ∃ s, Run.exec (System.step fifoConfig) (System.boot (fun _ => 100) 0)
      (startThread ++ [.call (.sleep 0), .run, .pass]) = some s ∧
    ¬ Whole s.k
  := by
  obtain ⟨s, hs, htest⟩ := Run.exists_of_any (System.step fifoConfig)
    (System.boot (fun _ => 100) 0) (startThread ++ [.call (.sleep 0), .run, .pass])
    (fun s => s.k.links.head .runQueue = .ptr (some 1) ∧ s.k.links.next 1 = some 1)
    (by decide)
  obtain ⟨hhead, hnext⟩ := of_decide_eq_true htest
  refine ⟨s, hs, ?_⟩
  intro hwhole
  apply hwhole.next_ne hhead hnext

end

end Etaos
