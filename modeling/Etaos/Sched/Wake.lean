import Etaos.Sched.KernelSpec

/-!
# Wake-ups

The notification of a thread queue, the timeout of a waiter and `rq_signal_threads` each
take one thread off a thread queue and make it runnable.  `Woke` says what such a wake-up
does to the kernel; it is proved once for each of the three, and everything that a wake-up
preserves is proved from it.
-/

set_option linter.unusedSectionVars false

namespace Etaos

variable {T Q : Type} [DecidableEq T] [DecidableEq Q] [Fintype T]

/-- The wake-up of the thread `tp`, which waits on the thread queue `qp`. -/
structure Woke (qp : Q) (tp : T) (k : Kernel T Q) (L : Root Q → List T) (k' : Kernel T Q)
    (L' : Root Q → List T) : Prop where
  mem : tp ∈ L (.queue qp)
  listed : Listed k' L'
  current_list : tp = k.current → L' = RemovedFrom (.queue qp) L tp
  list : tp ≠ k.current → AddedTo (RemovedFrom (.queue qp) L tp) tp L'
  current : k'.current = k.current
  tick : k'.tick = k.tick
  wake : k'.wake = k.wake.erase tp
  timers : k'.timers.Sublist k.timers
  wakes : k'.wakes = Function.update k.wakes tp (k.wakes tp + 1)
  irqCalls : k'.irqCalls = k.irqCalls
  irqWoken : k'.irqWoken = k.irqWoken
  irqStart : ∀ q, k'.irqStart q = if q = qp ∧ L' (.queue q) = [] then
    (k.irqCalls q, (k.irqWoken q).length) else k.irqStart q
  mark : L' (.queue qp) = [] → k'.links.head (.queue qp) = .signaled
  head_of_ne : ∀ q, q ≠ qp → k'.links.head (.queue q) = k.links.head (.queue q)
  recount : Recount k.links L k'.links L'
  thread : ∀ u, u ≠ tp →
    ∃ b, k'.thr u = { k.thr u with needResched := (k.thr u).needResched || b }
  woken : ∃ timer, k'.thr tp =
    { k.thr tp with timer, running := true, onRq := true, rq := true }

/-- The kernel between the removal of a waiter from its queue and its return to the run
queue. -/
structure Taken (qp : Q) (tp : T) (k : Kernel T Q) (L : Root Q → List T)
    (k' : Kernel T Q) : Prop where
  mem : tp ∈ L (.queue qp)
  out : ∀ r, tp ∉ RemovedFrom (.queue qp) L tp r
  listed : Listed k' (RemovedFrom (.queue qp) L tp)
  current : k'.current = k.current
  tick : k'.tick = k.tick
  wake : k'.wake = k.wake.erase tp
  timers : k'.timers.Sublist k.timers
  wakes : k'.wakes = Function.update k.wakes tp (k.wakes tp + 1)
  irqCalls : k'.irqCalls = k.irqCalls
  irqWoken : k'.irqWoken = k.irqWoken
  irqStart : ∀ q, k'.irqStart q
    = if q = qp ∧ RemovedFrom (.queue qp) L tp (.queue q) = [] then
      (k.irqCalls q, (k.irqWoken q).length) else k.irqStart q
  mark : RemovedFrom (.queue qp) L tp (.queue qp) = [] →
    k'.links.head (.queue qp) = .signaled
  head_of_ne : ∀ q, q ≠ qp → k'.links.head (.queue q) = k.links.head (.queue q)
  recount : Recount k.links L k'.links (RemovedFrom (.queue qp) L tp)
  thread : ∀ u, u ≠ tp → k'.thr u = k.thr u
  taken : ∃ timer, k'.thr tp = { k.thr tp with timer }

/-- Marking a thread queue changes its head, and what it remembers. -/
theorem Kernel.signalIfEmpty_frame (k : Kernel T Q) (qp : Q) :
  ∃ links irqStart, k.signalIfEmpty qp = { k with links, irqStart }
  := by
  rw [signalIfEmpty]
  split
  · refine ⟨_, _, rfl⟩
  · refine ⟨_, _, rfl⟩

/-- The call of `reschedFor` changes one flag of the current thread. -/
theorem Kernel.reschedFor_frame (k : Kernel T Q) (tp : T) :
  ∃ b, k.reschedFor tp
    = k.modify k.current fun th => { th with needResched := th.needResched || b }
  := by
  rw [reschedFor]
  split
  · use true
    simp
  · use false
    simp [modify]

@[simp]
theorem Kernel.signalIfEmpty_timers (k : Kernel T Q) (qp : Q) :
  (k.signalIfEmpty qp).timers = k.timers
  := by
  rw [signalIfEmpty]
  split <;> rfl

@[simp]
theorem Kernel.reschedFor_timers (k : Kernel T Q) (tp : T) :
  (k.reschedFor tp).timers = k.timers
  := by
  rw [reschedFor]
  split <;> rfl

/-- A timeout does not touch the timers of the clock source. -/
theorem Kernel.eventTmo_timers {k k' : Kernel T Q} {cfg : Config Q} {id : Nat} {qp : Q}
    (hk : k.eventTmo cfg id qp = some k') :
  k'.timers = k.timers
  := by
  rw [eventTmo] at hk
  split at hk
  · obtain rfl := Option.some.inj hk
    rfl
  · obtain ⟨⟨place, walker⟩, -, hk⟩ := Option.bind_eq_some_iff.mp hk
    cases walker with
    | none =>
        obtain rfl := Option.some.inj hk
        rfl
    | some walker =>
        simp only [timeoutWaiter, Option.bind_eq_bind, Option.bind_eq_some_iff] at hk
        obtain ⟨k₁, hk₁, hk⟩ := hk
        obtain ⟨_, _, rfl⟩ := Option.map_eq_some_iff.mp hk₁
        obtain ⟨k₂, hk₂, rfl⟩ := Option.map_eq_some_iff.mp hk
        obtain ⟨k₃, hk₃, rfl⟩ := Option.map_eq_some_iff.mp hk₂
        obtain ⟨_, _, rfl⟩ := Option.map_eq_some_iff.mp hk₃
        rw [reschedFor_timers, modify_timers]
        apply signalIfEmpty_timers

/-- The function `raw_rq_add_thread`, for a thread that is on no list. -/
theorem Listed.rawRqAddThread {k k' : Kernel T Q} {L : Root Q → List T} (h : Listed k L)
    {cfg : Config Q} {tp : T} (htp : ∀ r, tp ∉ L r)
    (hk : k.rawRqAddThread cfg tp = some k') :
  ∃ L' links, AddedTo L tp L' ∧ Listed k' L' ∧
    k' = { k with num := k.num + 1, links }.modify tp fun th =>
      { th with running := true, onRq := true, rq := true }
  := by
  obtain ⟨k₁, hk₁, rfl⟩ := Option.map_eq_some_iff.mp hk
  obtain ⟨L', links, hadd, hlisted, rfl⟩ := h.addThread htp hk₁
  refine ⟨L', links, hadd, hlisted.congr rfl rfl, rfl⟩

/-- The removal of a running thread that is on no list. -/
theorem Listed.removeIfRunning {k k' : Kernel T Q} {L : Root Q → List T} (h : Listed k L)
    {tp : T} (htp : tp ∉ L .runQueue) (hcurrent : k.current ≠ tp)
    (hk : k.removeIfRunning tp = some k') :
  Listed k' L ∧ ∃ num links running onRq,
    k' = { k with num, links }.modify tp fun th => { th with running, onRq }
  := by
  rw [Kernel.removeIfRunning] at hk
  split at hk
  · rename_i hflags
    simp only [Bool.and_eq_true] at hflags
    obtain ⟨⟨k₁, rc⟩, hk₁, rfl⟩ := Option.map_eq_some_iff.mp hk
    simp only [Kernel.rawRqRemoveThreadNoresched, hflags.1, Bool.not_true,
      Bool.false_eq_true, if_false, if_neg hcurrent] at hk₁
    obtain ⟨⟨k₂, rc'⟩, hk₂, hk₁⟩ := Option.map_eq_some_iff.mp hk₁
    obtain ⟨rfl, -⟩ := Prod.mk.inj hk₁
    have h' : Listed (k.modify tp fun th => { th with running := false }) L :=
      h.congr rfl rfl
    obtain ⟨hlisted, num, links, rfl⟩ := h'.rmThread hk₂
    rw [RemovedFrom.eq_self htp] at hlisted
    refine ⟨hlisted.congr rfl rfl, num, links, false, false, ?_⟩
    simp [Kernel.modify]
  · obtain rfl := Option.some.inj hk
    refine ⟨h, k.num, k.links, (k.thr tp).running, (k.thr tp).onRq, ?_⟩
    simp [Kernel.modify]

/-- The function `rq_add_thread`, for a thread that is on no list. -/
theorem Listed.rqAddThread {k k' : Kernel T Q} {L : Root Q → List T} (h : Listed k L)
    {cfg : Config Q} {tp : T} (htp : ∀ r, tp ∉ L r) (hcurrent : k.current ≠ tp)
    (hk : k.rqAddThread cfg tp = some k') :
  ∃ L' links num, AddedTo L tp L' ∧ Listed k' L' ∧
    k' = { k with num, links }.modify tp fun th =>
      { th with running := true, onRq := true, rq := true }
  := by
  simp only [Kernel.rqAddThread, Option.bind_eq_bind, Option.bind_eq_some_iff] at hk
  obtain ⟨k₁, hk₁, k₂, hk₂, hk⟩ := hk
  obtain rfl := Option.some.inj hk
  obtain ⟨hlisted, num, links, running, onRq, rfl⟩ := h.removeIfRunning (htp _) hcurrent hk₁
  obtain ⟨k₃, hk₃, rfl⟩ := Option.map_eq_some_iff.mp hk₂
  obtain ⟨L', links', hadd, hlisted', rfl⟩ := hlisted.addThread htp hk₃
  refine ⟨L', links', num + 1, hadd, hlisted'.congr rfl rfl, ?_⟩
  simp [Kernel.modify]

/-- The function `raw_rq_add_thread` leaves the heads of the thread queues alone. -/
theorem Listed.rawRqAddThread_frame {k k' : Kernel T Q} {L L' : Root Q → List T}
    (h : Listed k L) {cfg : Config Q} {tp : T} (htp : ∀ r, tp ∉ L r)
    (hk : k.rawRqAddThread cfg tp = some k') (h' : Listed k' L') :
  (∀ qp, k'.links.head (.queue qp) = k.links.head (.queue qp)) ∧ Recount k.links L k'.links L'
  := by
  obtain ⟨k₁, hk₁, rfl⟩ := Option.map_eq_some_iff.mp hk
  have h₁ : Listed k₁ L' := ⟨h'.linked, h'.num, h'.head⟩
  exact h.addThread_frame htp hk₁ h₁

/-- The removal at the start of `rq_add_thread` leaves the heads of the thread queues
alone. -/
theorem Listed.removeIfRunning_frame {k k' : Kernel T Q} {L : Root Q → List T}
    (h : Listed k L) {tp : T} (htp : tp ∉ L .runQueue) (hcurrent : k.current ≠ tp)
    (hk : k.removeIfRunning tp = some k') :
  (∀ qp, k'.links.head (.queue qp) = k.links.head (.queue qp)) ∧ Recount k.links L k'.links L
  := by
  rw [Kernel.removeIfRunning] at hk
  split at hk
  · rename_i hflags
    simp only [Bool.and_eq_true] at hflags
    obtain ⟨⟨k₁, rc⟩, hk₁, rfl⟩ := Option.map_eq_some_iff.mp hk
    simp only [Kernel.rawRqRemoveThreadNoresched, hflags.1, Bool.not_true,
      Bool.false_eq_true, if_false, if_neg hcurrent] at hk₁
    obtain ⟨⟨k₂, rc'⟩, hk₂, hk₁⟩ := Option.map_eq_some_iff.mp hk₁
    obtain ⟨rfl, -⟩ := Prod.mk.inj hk₁
    have h' : Listed (k.modify tp fun th => { th with running := false }) L :=
      h.congr rfl rfl
    have hframe := h'.rmThread_frame hk₂
    rw [RemovedFrom.eq_self htp] at hframe
    exact hframe
  · obtain rfl := Option.some.inj hk
    exact ⟨fun _ => rfl, .of_ec rfl⟩

/-- The function `rq_add_thread` leaves the heads of the thread queues alone. -/
theorem Listed.rqAddThread_frame {k k' : Kernel T Q} {L L' : Root Q → List T}
    (h : Listed k L) {cfg : Config Q} {tp : T} (htp : ∀ r, tp ∉ L r) (hcurrent : k.current ≠ tp)
    (hk : k.rqAddThread cfg tp = some k') (h' : Listed k' L')
    (hqueue : ∀ qp, L' (.queue qp) = L (.queue qp)) :
  (∀ qp, k'.links.head (.queue qp) = k.links.head (.queue qp)) ∧ Recount k.links L k'.links L'
  := by
  simp only [Kernel.rqAddThread, Option.bind_eq_bind, Option.bind_eq_some_iff] at hk
  obtain ⟨k₁, hk₁, k₂, hk₂, hk⟩ := hk
  obtain rfl := Option.some.inj hk
  obtain ⟨hlisted₁, -⟩ := h.removeIfRunning (htp _) hcurrent hk₁
  obtain ⟨hhead₁, hrec₁⟩ := h.removeIfRunning_frame (htp _) hcurrent hk₁
  obtain ⟨k₃, hk₃, rfl⟩ := Option.map_eq_some_iff.mp hk₂
  have h₃ : Listed k₃ L' := ⟨h'.linked, h'.num, h'.head⟩
  obtain ⟨hhead₃, hrec₃⟩ := hlisted₁.addThread_frame htp hk₃ h₃
  constructor
  · intro qp
    exact (hhead₃ qp).trans (hhead₁ qp)
  · refine hrec₁.trans hrec₃ ?_
    intro qp hnil
    rw [hqueue, hnil]

/-! ### Taking a waiter off its queue -/

namespace Taken

variable {k k' : Kernel T Q} {L : Root Q → List T} {qp : Q} {tp : T}

/-- The steps that the three wake-ups have in common. -/
theorem intro (h : Listed k L) (htp : tp ∈ L (.queue qp))
    (hk : (k.rqRemoveWakeThread tp).queueRemoveThread qp tp = some k') :
  Taken qp tp k L ((k'.signalIfEmpty qp).countWake tp)
  := by
  have h₀ : Listed (k.rqRemoveWakeThread tp) L := h.congr rfl rfl
  obtain ⟨⟨links, rc⟩, hlinks, rfl⟩ := Option.map_eq_some_iff.mp hk
  obtain ⟨h₁, -⟩ := h₀.queueRemoveThread hk
  have hrec : Recount k.links L links (RemovedFrom (.queue qp) L tp) :=
    h.remove_recount hlinks
  obtain ⟨hself, hother⟩ := Links.rrSharedQueueRemove_head hlinks
  -- The queue held a thread, so that its head is no mark behind the removal.
  have hnot : links.head (.queue qp) ≠ .signaled := by
    apply hself
    intro hmark
    have hnil := h.linked.signaled _ hmark
    rw [hnil] at htp
    cases htp
  dsimp only at h₁ ⊢
  rw [Kernel.signalIfEmpty]
  split
  · rename_i hnull
    have hnil : RemovedFrom (.queue qp) L tp (.queue qp) = [] := by
      simpa using h₁.linked.head_eq hnull
    constructor
    case listed => exact (h₁.setQhead hnil (.inl rfl)).congr rfl rfl
    case mem => apply htp
    case out => apply h.not_mem_removedFrom htp
    case timers => apply List.Sublist.refl
    case taken => exact ⟨(k.thr tp).timer, rfl⟩
    case thread => intro u _; rfl
    case irqStart =>
      intro q
      by_cases hq : q = qp
      · subst hq
        simp [Kernel.countWake, Kernel.setQhead, Kernel.rqRemoveWakeThread, hnil]
      · simp [Kernel.countWake, Kernel.setQhead, Kernel.rqRemoveWakeThread, hq]
    case mark => intro _; simp [Kernel.countWake, Kernel.setQhead]
    case head_of_ne =>
      intro q hq
      refine Eq.trans ?_ (hother (.queue q) (by simpa using hq))
      simp [Kernel.countWake, Kernel.setQhead, hq]
    case recount => exact hrec.trans (.of_ec rfl) fun _ hnil => hnil
    all_goals rfl
  · rename_i hnull
    have hcons : RemovedFrom (.queue qp) L tp (.queue qp) ≠ [] := by
      intro hnil
      cases hhead : links.head (.queue qp) with
      | signaled => exact hnot hhead
      | ptr p =>
          have hp := h₁.linked.head_eq hhead
          rw [hnil] at hp
          apply hnull
          rw [← hp] at hhead
          exact hhead
    constructor
    case listed => exact h₁.congr rfl rfl
    case mem => apply htp
    case out => apply h.not_mem_removedFrom htp
    case timers => apply List.Sublist.refl
    case taken => exact ⟨(k.thr tp).timer, rfl⟩
    case thread => intro u _; rfl
    case irqStart =>
      intro q
      rw [if_neg]
      · rfl
      · rintro ⟨rfl, hnil⟩
        exact hcons hnil
    case mark => intro hnil; exact absurd hnil hcons
    case head_of_ne =>
      intro q hq
      exact hother (.queue q) (by simpa using hq)
    case recount => exact hrec
    all_goals rfl

theorem stopTimer (h : Taken qp tp k L k') : Taken qp tp k L (k'.stopTimer tp) := by
  rw [Kernel.stopTimer]
  split
  · exact { h with
      recount := h.recount.trans (.of_ec rfl) fun _ hnil => hnil
      listed := h.listed.congr rfl rfl
      timers := List.Sublist.trans List.eraseP_sublist h.timers }
  · apply h

/-- The timer field of the waiter is written. -/
theorem setTimer (h : Taken qp tp k L k') (timer : TimerPtr) :
  Taken qp tp k L (k'.modify tp fun th => { th with timer })
  := by
  obtain ⟨timer', htaken⟩ := h.taken
  exact { h with
    recount := h.recount.trans (.of_ec rfl) fun _ hnil => hnil
    listed := h.listed.congr rfl rfl
    thread := fun u hu => by rw [Kernel.modify_thr_of_ne _ _ _ hu, h.thread u hu]
    taken := ⟨timer, by rw [Kernel.modify_thr_self, htaken]⟩ }

theorem clearTimer (h : Taken qp tp k L k') : Taken qp tp k L (k'.clearTimer tp) := by
  rw [Kernel.clearTimer]
  split
  · apply h.setTimer
  · apply h

/-- A waiter that is not current goes back to the run queue. -/
theorem woke (h : Taken qp tp k L k') (hcurrent : k'.current ≠ tp) {num : Nat}
    {links : Links T (Root Q)} {L' : Root Q → List T}
    (hadd : AddedTo (RemovedFrom (.queue qp) L tp) tp L')
    (hlisted : Listed ({ k' with num, links }.modify tp fun th =>
      { th with running := true, onRq := true, rq := true }) L')
    (hframe : (∀ q, links.head (.queue q) = k'.links.head (.queue q)) ∧
      Recount k'.links (RemovedFrom (.queue qp) L tp) links L') :
  Woke qp tp k L (({ k' with num, links }.modify tp fun th =>
    { th with running := true, onRq := true, rq := true }).reschedFor tp) L'
  := by
  obtain ⟨timer, htaken⟩ := h.taken
  obtain ⟨b, hb⟩ := Kernel.reschedFor_frame
    ({ k' with num, links }.modify tp fun th =>
      { th with running := true, onRq := true, rq := true }) tp
  rw [hb]
  have hne : tp ≠ k'.current := hcurrent.symm
  constructor
  case mem => apply h.mem
  case listed => exact hlisted.congr rfl rfl
  case current_list =>
    intro htp
    exact absurd (htp.trans h.current.symm) hne
  case list => intro _; apply hadd
  case current => apply h.current
  case tick => apply h.tick
  case wake => apply h.wake
  case timers => apply h.timers
  case wakes => apply h.wakes
  case irqCalls => apply h.irqCalls
  case irqWoken => apply h.irqWoken
  case irqStart =>
    intro q
    rw [hadd.2]
    apply h.irqStart
  case mark =>
    rw [hadd.2]
    intro hnil
    exact (hframe.1 qp).trans (h.mark hnil)
  case head_of_ne =>
    intro q hq
    exact (hframe.1 q).trans (h.head_of_ne q hq)
  case recount =>
    have hrec := h.recount.trans hframe.2 (by
      intro q hnil
      rw [hadd.2, hnil])
    exact hrec.trans (.of_ec rfl) fun _ hnil => hnil
  case woken => use timer; simp [hne, htaken]
  case thread =>
    intro u hu
    by_cases huc : u = k'.current
    · use b
      subst huc
      simp [hu, h.thread _ hu]
    · use false
      simp [hu, huc, h.thread _ hu]

/-- A waiter that is still current keeps running. -/
theorem keepRunning (h : Taken qp tp k L k') (hcurrent : k'.current = tp) :
  Woke qp tp k L (k'.keepRunning tp) (RemovedFrom (.queue qp) L tp)
  := by
  obtain ⟨timer, htaken⟩ := h.taken
  constructor
  case mem => apply h.mem
  case listed => exact h.listed.congr rfl rfl
  case current_list => intro _; rfl
  case list =>
    intro htp
    exact absurd (hcurrent.symm.trans h.current) htp
  case current => apply h.current
  case tick => apply h.tick
  case wake => apply h.wake
  case timers => apply h.timers
  case wakes => apply h.wakes
  case irqCalls => apply h.irqCalls
  case irqWoken => apply h.irqWoken
  case irqStart => apply h.irqStart
  case mark => apply h.mark
  case head_of_ne => apply h.head_of_ne
  case recount => exact h.recount.trans (.of_ec rfl) fun _ hnil => hnil
  case woken => use timer; simp [Kernel.keepRunning, htaken]
  case thread =>
    intro u hu
    use false
    simp [Kernel.keepRunning, hu, h.thread u hu]

end Taken

/-- One turn of the loop of `rq_signal_threads`, for the thread `iterator` on the list of
threads that wait for events. -/
inductive SignalTurn (iterator : T) (k : Kernel T Q) (L : Root Q → List T) :
    Kernel T Q → (Root Q → List T) → Prop
  /-- The thread counts no event. -/
  | skip (hec : k.links.ec iterator = 0) : SignalTurn iterator k L k L
  /-- The queue of the thread is marked. -/
  | marked (r : Root Q) (hec : k.links.ec iterator ≠ 0)
      (hqueue : k.links.queue iterator = some r) (hmark : k.links.head r = .signaled) :
      SignalTurn iterator k L { k with links := { k.links with
        ec := Function.update k.links.ec iterator (k.links.ec iterator - 1) } } L
  /-- The head of the queue of the thread is woken. -/
  | woke (qp : Q) (tp : T) (k' : Kernel T Q) (L' : Root Q → List T)
      (hec : k.links.ec iterator ≠ 0) (hqueue : k.links.queue iterator = some (.queue qp))
      (hhead : (L (.queue qp)).head? = some tp)
      (hwoke : Woke qp tp { k with
        links := { k.links with
          ec := Function.update k.links.ec iterator (k.links.ec iterator - 1) }
        irqWoken := Function.update k.irqWoken qp (k.irqWoken qp ++ [tp]) } L k' L') :
      SignalTurn iterator k L k' L'

/-! ### The three wake-ups -/

namespace Woke

variable {k k' : Kernel T Q} {L : Root Q → List T} {cfg : Config Q} {qp : Q} {tp : T}

/-- The function `__raw_event_notify` wakes the thread it is called for. -/
theorem rawEventNotify (h : Listed k L) (htp : tp ∈ L (.queue qp))
    (hk : k.rawEventNotify cfg qp tp = some k') :
  ∃ L', Woke qp tp k L k' L'
  := by
  simp only [Kernel.rawEventNotify, Option.bind_eq_bind, Option.bind_eq_some_iff] at hk
  obtain ⟨k₁, hk₁, hk⟩ := hk
  have htaken := ((Taken.intro h htp hk₁).stopTimer).clearTimer
  split at hk
  · rename_i hcurrent
    obtain ⟨k₂, hk₂, rfl⟩ := Option.map_eq_some_iff.mp hk
    obtain ⟨L', links, num, hadd, hlisted, rfl⟩ :=
      htaken.listed.rqAddThread htaken.out hcurrent hk₂
    use L'
    apply htaken.woke hcurrent hadd hlisted
    apply htaken.listed.rqAddThread_frame htaken.out hcurrent hk₂ hlisted hadd.2
  · rename_i hcurrent
    obtain rfl := Option.some.inj hk
    refine ⟨_, htaken.keepRunning (not_not.mp hcurrent)⟩

/-- The wake-up of `rq_signal_event_queue`, which is added to the threads woken so. -/
theorem signalHead (h : Listed k L) (htp : tp ∈ L (.queue qp))
    (hk : k.signalHead cfg qp tp = some k') :
  ∃ L', Woke qp tp
    { k with irqWoken := Function.update k.irqWoken qp (k.irqWoken qp ++ [tp]) } L k' L'
  := by
  simp only [Kernel.signalHead, Option.bind_eq_bind, Option.bind_eq_some_iff] at hk
  obtain ⟨k₁, hk₁, hk⟩ := hk
  obtain ⟨⟨links, rc⟩, hlinks, rfl⟩ := Option.map_eq_some_iff.mp hk₁
  set irqWoken := Function.update k.irqWoken qp (k.irqWoken qp ++ [tp]) with hirqWoken
  have h₀ : Listed { k with irqWoken } L := h.congr rfl rfl
  have hk₂ : ({ k with irqWoken }.rqRemoveWakeThread tp).queueRemoveThread qp tp
      = some { k.rqRemoveWakeThread tp with links, irqWoken } := by
    rw [Kernel.queueRemoveThread]
    apply Option.map_eq_some_iff.mpr
    exact ⟨(links, rc), hlinks, rfl⟩
  have htaken := (Taken.intro h₀ htp hk₂).stopTimer
  dsimp only at hk
  split at hk
  · rename_i hcurrent
    obtain ⟨k₂, hk₂, rfl⟩ := Option.map_eq_some_iff.mp hk
    obtain ⟨L', links', hadd, hlisted, rfl⟩ := htaken.listed.rawRqAddThread htaken.out hk₂
    use L'
    apply htaken.woke hcurrent hadd hlisted
    apply htaken.listed.rawRqAddThread_frame htaken.out hk₂ hlisted
  · rename_i hcurrent
    obtain rfl := Option.some.inj hk
    refine ⟨_, htaken.keepRunning (not_not.mp hcurrent)⟩

/-- A timeout wakes the thread the timer belongs to, when that is not current. -/
theorem timeoutWaiter (h : Listed k L) (htp : tp ∈ L (.queue qp)) (hcurrent : k.current ≠ tp)
    (hk : k.timeoutWaiter cfg qp tp = some k') :
  ∃ L', Woke qp tp k L k' L'
  := by
  simp only [Kernel.timeoutWaiter, Option.bind_eq_bind, Option.bind_eq_some_iff] at hk
  obtain ⟨k₁, hk₁, hk⟩ := hk
  have htaken := (Taken.intro h htp hk₁).setTimer .signaled
  obtain ⟨k₂, hk₂, rfl⟩ := Option.map_eq_some_iff.mp hk
  obtain ⟨L', links, hadd, hlisted, rfl⟩ := htaken.listed.rawRqAddThread htaken.out hk₂
  use L'
  have hcurrent' : _ ≠ tp := htaken.current ▸ hcurrent
  apply htaken.woke hcurrent' hadd hlisted
  apply htaken.listed.rawRqAddThread_frame htaken.out hk₂ hlisted

/-- An event timeout wakes the thread that its timer belongs to, or no thread. -/
theorem eventTmo (h : Listed k L) {id : Nat}
    (hcurrent : (k.thr k.current).timer ≠ .timer id)
    (hk : k.eventTmo cfg id qp = some k') :
  (∃ b, k' = k.modify k.current fun th => { th with needResched := th.needResched || b }) ∨
    ∃ tp L', k.current ≠ tp ∧ Woke qp tp k L k' L'
  := by
  rw [Kernel.eventTmo] at hk
  cases hq : k.links.head (.queue qp) with
  | signaled =>
      left
      simp only [hq] at hk
      obtain rfl := Option.some.inj hk
      use false
      simp [Kernel.modify]
  | ptr p =>
      simp only [hq] at hk
      rw [h.linked.skip_eq hq] at hk
      simp only [Option.bind_some] at hk
      cases hdrop : (L (.queue qp)).dropWhile fun tp =>
          decide ((k.thr tp).timer ≠ .timer id) with
      | nil =>
          left
          simp only [hdrop, List.head?_nil] at hk
          obtain rfl := Option.some.inj hk
          use true
          simp
      | cons tp l =>
          right
          simp only [hdrop, List.head?_cons] at hk
          obtain ⟨hmem, htimer⟩ := of_dropWhile_eq_cons hdrop
          have htp : k.current ≠ tp := by
            rintro rfl
            simp [hcurrent] at htimer
          obtain ⟨L', hwoke⟩ := timeoutWaiter h hmem htp hk
          use tp, L'

/-- One turn of the loop of `rq_signal_threads` wakes the head of a thread queue, or no
thread. -/
theorem signalThread (h : Listed k L) {iterator : T}
    (hk : k.signalThread cfg iterator = some k') :
  ∃ L', SignalTurn iterator k L k' L'
  := by
  rw [Kernel.signalThread] at hk
  split at hk
  · rename_i hec
    obtain rfl := Option.some.inj hk
    exact ⟨L, .skip hec⟩
  · rename_i hec
    split at hk
    · cases hk
    · rename_i tpp hqueue
      have h' := h.setEc (Function.update k.links.ec iterator (k.links.ec iterator - 1))
      dsimp only at hk
      split at hk
      · rename_i hmark
        obtain rfl := Option.some.inj hk
        exact ⟨L, .marked tpp hec hqueue hmark⟩
      · cases hk
      · rename_i tp htp
        have hmem : tp ∈ L tpp := List.mem_of_mem_head? (h.linked.head_eq htp)
        have htpp : k.links.queue tp = some tpp := h.linked.queue tpp tp hmem
        rw [Kernel.rqSignalEventQueue] at hk
        split at hk
        · rename_i qp hqp
          obtain rfl := Option.some.inj (htpp.symm.trans hqp)
          split at hk
          · rename_i tp' htp'
            obtain rfl := Option.some.inj (Qhead.ptr.inj (htp.symm.trans htp'))
            obtain ⟨L', hwoke⟩ := signalHead h' hmem hk
            exact ⟨L', .woke qp tp k' L' hec hqueue (h.linked.head_eq htp) hwoke⟩
          · cases hk
        · cases hk

/-! ### What a wake-up leaves alone -/

variable {L' : Root Q → List T}

theorem sleeping (h : Woke qp tp k L k' L') (u : T) :
  (k'.thr u).sleeping = (k.thr u).sleeping
  := by
  by_cases hu : u = tp
  · obtain ⟨timer, hthr⟩ := h.woken
    rw [hu, hthr]
  · obtain ⟨b, hthr⟩ := h.thread u hu
    rw [hthr]

theorem running_of_ne (h : Woke qp tp k L k' L') {u : T} (hu : u ≠ tp) :
  (k'.thr u).running = (k.thr u).running
  := by
  obtain ⟨b, hthr⟩ := h.thread u hu
  rw [hthr]

theorem timer_of_ne (h : Woke qp tp k L k' L') {u : T} (hu : u ≠ tp) :
  (k'.thr u).timer = (k.thr u).timer
  := by
  obtain ⟨b, hthr⟩ := h.thread u hu
  rw [hthr]

theorem idle (h : Woke qp tp k L k' L') (u : T) : (k'.thr u).idle = (k.thr u).idle := by
  by_cases hu : u = tp
  · obtain ⟨timer, hthr⟩ := h.woken
    rw [hu, hthr]
  · obtain ⟨b, hthr⟩ := h.thread u hu
    rw [hthr]

/-- Another thread stays on the lists it is on. -/
theorem mem_iff_of_ne (h : Woke qp tp k L k' L') {u : T} (hu : u ≠ tp) {r : Root Q} :
  u ∈ L' r ↔ u ∈ L r
  := by
  have hremoved : u ∈ RemovedFrom (.queue qp) L tp r ↔ u ∈ L r := by
    constructor
    · apply RemovedFrom.mem
    · intro hr
      apply RemovedFrom.mem_of_ne hr hu
  by_cases hcurrent : tp = k.current
  · rw [h.current_list hcurrent, hremoved]
  · rw [(h.list hcurrent).mem_iff, hremoved]
    simp [hu]

/-- The thread woken is on no thread queue. -/
theorem not_queued (h : Woke qp tp k L k' L') (hk : Listed k L) (q : Q) :
  tp ∉ L' (.queue q)
  := by
  have hremoved := hk.not_mem_removedFrom h.mem (.queue q)
  by_cases hcurrent : tp = k.current
  · rwa [h.current_list hcurrent]
  · rw [(h.list hcurrent).mem_iff]
    simp [hremoved]

end Woke

end Etaos
