import Etaos.Library.Run
import Etaos.Sched.Event
import Etaos.Sched.Switch

/-!
# The run queue

The invariant of the run queue, and the steps of the kernel that keep it.  The current
thread is on no list unless it is about to leave the processor; a thread that sleeps is on
no list, and has one timer; the idle thread can always run.
-/

set_option linter.unusedSectionVars false

namespace Etaos

variable {T Q : Type} [DecidableEq T] [DecidableEq Q] [Fintype T]

/-- The invariant of the scheduler, where `i` is the idle thread. -/
structure Wf (i : T) (k : Kernel T Q) (L : Root Q → List T) : Prop where
  listed : Listed k L
  current : k.current ∉ L .runQueue
  idle : ∀ t, (k.thr t).idle = true ↔ t = i
  idle_running : (k.thr i).running = true
  idle_on : i = k.current ∨ i ∈ L .runQueue
  off : (∃ r, k.current ∈ L r) ∨ (k.thr k.current).sleeping = true →
    (k.thr k.current).running = false
  asleep : ∀ t, (k.thr t).sleeping = true → ∀ r, t ∉ L r
  timers : ∀ t ∈ k.timers.filterMap Timer.sleeper, (k.thr t).sleeping = true
  timers_nodup : (k.timers.filterMap Timer.sleeper).Nodup

/-- The insertion into the list of timers adds the timer. -/
theorem Kernel.rawClocksourceInsertTimer_perm (lh : Timer T Q) :
    ∀ l : List (Timer T Q), (rawClocksourceInsertTimer lh l).Perm (lh :: l)
  | [] => List.Perm.refl _
  | [carriage] => List.Perm.swap lh carriage []
  | carriage :: x :: l => by
      rw [rawClocksourceInsertTimer]
      split
      · apply List.Perm.refl
      · have ih := rawClocksourceInsertTimer_perm lh (x :: l)
        apply (ih.cons carriage).trans
        apply List.Perm.swap

namespace Wf

variable {i : T} {k k' : Kernel T Q} {L : Root Q → List T} {cfg : Config Q}

/-- A running current thread is on no list. -/
theorem current_out (h : Wf i k L) (hrunning : (k.thr k.current).running = true)
    (r : Root Q) :
  k.current ∉ L r
  := by
  intro hr
  have := h.off (.inl ⟨r, hr⟩)
  simp [hrunning] at this

theorem current_awake (h : Wf i k L) (hrunning : (k.thr k.current).running = true) :
  (k.thr k.current).sleeping = false
  := by
  by_contra hsleeping
  have := h.off (.inr (by simpa using hsleeping))
  simp [hrunning] at this

/-- The idle thread waits on no thread queue. -/
theorem idle_not_queued (h : Wf i k L) (qp : Q) : i ∉ L (.queue qp) := by
  intro hi
  rcases h.idle_on with hcurrent | hrunQueue
  · have hrunning := h.idle_running
    rw [hcurrent] at hi hrunning
    apply h.current_out hrunning _ hi
  · cases h.listed.linked.root_unique hi hrunQueue

theorem idle_awake (h : Wf i k L) : (k.thr i).sleeping = false := by
  rcases h.idle_on with hcurrent | hrunQueue
  · have hrunning := h.idle_running
    rw [hcurrent] at hrunning ⊢
    apply h.current_awake hrunning
  · by_contra hsleeping
    apply h.asleep i (by simpa using hsleeping) _ hrunQueue

/-- A change of one thread record. -/
theorem modify (h : Wf i k L) {tp : T} {f : Thread → Thread}
    (hidle : (f (k.thr tp)).idle = (k.thr tp).idle)
    (hsleeping : (f (k.thr tp)).sleeping = (k.thr tp).sleeping)
    (hi : tp = i → (f (k.thr tp)).running = true)
    (hoff : tp = k.current → (k.thr tp).running = false → (f (k.thr tp)).running = false) :
  Wf i (k.modify tp f) L
  := by
  have hsleep (t : T) : ((k.modify tp f).thr t).sleeping = (k.thr t).sleeping := by
    by_cases ht : t = tp
    · rw [ht, Kernel.modify_thr_self, hsleeping]
    · rw [Kernel.modify_thr_of_ne _ _ _ ht]
  constructor
  case listed => exact h.listed.congr rfl rfl
  case current => apply h.current
  case idle =>
    intro t
    rw [← h.idle]
    by_cases ht : t = tp
    · rw [ht, Kernel.modify_thr_self, hidle]
    · rw [Kernel.modify_thr_of_ne _ _ _ ht]
  case idle_running =>
    by_cases ht : i = tp
    · rw [ht, Kernel.modify_thr_self, hi ht.symm]
    · rw [Kernel.modify_thr_of_ne _ _ _ ht, h.idle_running]
  case idle_on => apply h.idle_on
  case off =>
    simp only [Kernel.modify_current, hsleep]
    intro hoff'
    have hrunning := h.off hoff'
    by_cases ht : k.current = tp
    · rw [ht, Kernel.modify_thr_self]
      apply hoff ht.symm
      rw [← ht, hrunning]
    · rw [Kernel.modify_thr_of_ne _ _ _ ht, hrunning]
  case asleep =>
    intro t ht
    rw [hsleep] at ht
    apply h.asleep t ht
  case timers =>
    intro t ht
    rw [hsleep]
    apply h.timers t ht
  case timers_nodup => apply h.timers_nodup

/-- A wake-up keeps the invariant. -/
theorem woke (h : Wf i k L) {qp : Q} {tp : T} {L' : Root Q → List T}
    (hw : Woke qp tp k L k' L') :
  Wf i k' L'
  := by
  have hi : i ≠ tp := by
    rintro rfl
    apply h.idle_not_queued qp hw.mem
  have hawake : (k.thr tp).sleeping = false := by
    by_contra hsleeping
    apply h.asleep tp (by simpa using hsleeping) _ hw.mem
  constructor
  case listed => apply hw.listed
  case current =>
    rw [hw.current]
    by_cases hcurrent : k.current = tp
    · rw [hw.current_list hcurrent.symm]
      intro hmem
      apply h.current (RemovedFrom.mem hmem)
    · rw [hw.mem_iff_of_ne hcurrent]
      apply h.current
  case idle => simp only [hw.idle, h.idle, implies_true]
  case idle_running => rw [hw.running_of_ne hi, h.idle_running]
  case idle_on =>
    rw [hw.current, hw.mem_iff_of_ne hi]
    apply h.idle_on
  case off =>
    rw [hw.current, hw.sleeping]
    by_cases hcurrent : k.current = tp
    · rw [hcurrent, hawake, hw.current_list hcurrent.symm]
      rintro (⟨r, hr⟩ | hfalse)
      · exact absurd hr (h.listed.not_mem_removedFrom hw.mem r)
      · cases hfalse
    · simp only [hw.mem_iff_of_ne hcurrent, hw.running_of_ne hcurrent]
      apply h.off
  case asleep =>
    intro t ht r
    rw [hw.sleeping] at ht
    have hne : t ≠ tp := by
      rintro rfl
      simp [hawake] at ht
    rw [hw.mem_iff_of_ne hne]
    apply h.asleep t ht
  case timers =>
    intro t ht
    rw [hw.sleeping]
    apply h.timers t ((hw.timers.filterMap _).subset ht)
  case timers_nodup => apply h.timers_nodup.sublist (hw.timers.filterMap _)

/-- A change of the event counters and the marks on queues. -/
theorem congr (h : Wf i k L) {L' : Root Q → List T} (hlisted : Listed k' L')
    (hrunQueue : L' .runQueue = L .runQueue)
    (hqueue : ∀ qp, ∀ t ∈ L' (.queue qp), t ∈ L (.queue qp))
    (hthr : k'.thr = k.thr) (hcurrent : k'.current = k.current)
    (htimers : k'.timers.Sublist k.timers) :
  Wf i k' L'
  := by
  have hmem {r : Root Q} {t : T} (ht : t ∈ L' r) : t ∈ L r := by
    cases r with
    | runQueue => rwa [← hrunQueue]
    | queue qp => apply hqueue qp t ht
  constructor
  case listed => apply hlisted
  case current =>
    rw [hcurrent, hrunQueue]
    apply h.current
  case idle => simp only [hthr, h.idle, implies_true]
  case idle_running => rw [hthr, h.idle_running]
  case idle_on =>
    rw [hcurrent, hrunQueue]
    apply h.idle_on
  case off =>
    rw [hthr, hcurrent]
    rintro (⟨r, hr⟩ | hsleeping)
    · apply h.off (.inl ⟨r, hmem hr⟩)
    · apply h.off (.inr hsleeping)
  case asleep =>
    intro t ht r hr
    rw [hthr] at ht
    apply h.asleep t ht r (hmem hr)
  case timers =>
    intro t ht
    rw [hthr]
    apply h.timers t ((htimers.filterMap _).subset ht)
  case timers_nodup => apply h.timers_nodup.sublist (htimers.filterMap _)

/-- The event counters are no part of the invariant. -/
theorem setEc (h : Wf i k L) (ec : T → UInt8) :
  Wf i { k with links := { k.links with ec } } L
  := by
  apply h.congr (h.listed.setEc ec) rfl (fun _ _ ht => ht) rfl rfl
  apply List.Sublist.refl

/-- A thread that is not current, sleeps not and is on no list goes on the run queue. -/
theorem add (h : Wf i k L) {tp : T} (hcurrent : tp ≠ k.current)
    (hsleeping : (k.thr tp).sleeping = false) {L' : Root Q → List T}
    (hadd : AddedTo L tp L') (hlisted : Listed k' L') (hthr : k'.thr = k.thr)
    (hk : k'.current = k.current) (htimers : k'.timers = k.timers) :
  Wf i k' L'
  := by
  have hcur (r : Root Q) : k.current ∈ L' r ↔ k.current ∈ L r := by
    rw [hadd.mem_iff]
    simp [hcurrent.symm]
  constructor
  case listed => apply hlisted
  case current =>
    rw [hk, hcur]
    apply h.current
  case idle => simp only [hthr, h.idle, implies_true]
  case idle_running => rw [hthr, h.idle_running]
  case idle_on =>
    rw [hk, hadd.mem_iff]
    rcases h.idle_on with hi | hi
    · apply Or.inl hi
    · apply Or.inr (Or.inl hi)
  case off =>
    rw [hthr, hk]
    simp only [hcur]
    apply h.off
  case asleep =>
    intro t ht r
    rw [hthr] at ht
    rw [hadd.mem_iff]
    rintro (hr | ⟨-, rfl⟩)
    · apply h.asleep t ht r hr
    · simp [hsleeping] at ht
  case timers =>
    rw [hthr, htimers]
    apply h.timers
  case timers_nodup =>
    rw [htimers]
    apply h.timers_nodup

/-- A thread that is not idle is taken off the run queue. -/
theorem remove (h : Wf i k L) {tp : T} (hi : i ≠ tp)
    (hlisted : Listed k' (RemovedFrom .runQueue L tp)) (hthr : k'.thr = k.thr)
    (hcurrent : k'.current = k.current) (htimers : k'.timers = k.timers) :
  Wf i k' (RemovedFrom .runQueue L tp)
  := by
  constructor
  case listed => apply hlisted
  case current =>
    rw [hcurrent]
    intro hmem
    apply h.current (RemovedFrom.mem hmem)
  case idle => simp only [hthr, h.idle, implies_true]
  case idle_running => rw [hthr, h.idle_running]
  case idle_on =>
    rw [hcurrent]
    rcases h.idle_on with hcurrent' | hmem
    · apply Or.inl hcurrent'
    · apply Or.inr (RemovedFrom.mem_of_ne hmem hi)
  case off =>
    rw [hthr, hcurrent]
    rintro (⟨r, hr⟩ | hsleeping)
    · apply h.off (.inl ⟨r, RemovedFrom.mem hr⟩)
    · apply h.off (.inr hsleeping)
  case asleep =>
    intro t ht r hr
    rw [hthr] at ht
    apply h.asleep t ht r (RemovedFrom.mem hr)
  case timers =>
    rw [hthr, htimers]
    apply h.timers
  case timers_nodup =>
    rw [htimers]
    apply h.timers_nodup

/-- A queue is marked; the threads on it are forgotten. -/
theorem mark (h : Wf i k L) (qp : Q) :
  Wf i (k.setQhead qp .signaled) (Function.update L (.queue qp) [])
  := by
  have hrunQueue : Function.update L (.queue qp) [] .runQueue = L .runQueue :=
    Function.update_of_ne (by simp) _ _
  apply h.congr (h.listed.mark qp) hrunQueue _ rfl rfl (List.Sublist.refl _)
  · intro q t ht
    by_cases hq : q = qp
    · simp [hq] at ht
    · rwa [Function.update_of_ne (by simpa using hq)] at ht

/-- The mark of a queue is cleared. -/
theorem clear (h : Wf i k L) {qp : Q} (hqp : k.links.head (.queue qp) = .signaled) :
  Wf i (k.setQhead qp (.ptr none)) L
  := by
  have hL := h.listed.linked.signaled _ hqp
  apply h.congr (h.listed.setQhead hL (.inr rfl)) rfl (fun _ _ ht => ht) rfl rfl (List.Sublist.refl _)

/-- A running thread that is not current goes back to the run queue, off which it is. -/
theorem rawRqAddThread (h : Wf i k L) {tp : T} (hcurrent : tp ≠ k.current)
    (hsleeping : (k.thr tp).sleeping = false) (hout : ∀ r, tp ∉ L r)
    (hk : k.rawRqAddThread cfg tp = some k') :
  ∃ L', AddedTo L tp L' ∧ Wf i k' L'
  := by
  obtain ⟨L', links, hadd, hlisted, rfl⟩ := h.listed.rawRqAddThread hout hk
  have hlisted' : Listed { k with num := k.num + 1, links } L' := hlisted.congr rfl rfl
  refine ⟨L', hadd, (h.add hcurrent hsleeping hadd hlisted' rfl rfl rfl).modify rfl rfl ?_ ?_⟩
  · intro _; rfl
  · intro hne; exact absurd hne hcurrent

/-! ### Timers -/

/-- The timers of the clock source change, but not those of sleeping threads. -/
theorem setTimers (h : Wf i k L) {timers : List (Timer T Q)} {nextTimer : Nat}
    (htimers : (timers.filterMap Timer.sleeper).Perm (k.timers.filterMap Timer.sleeper)) :
  Wf i { k with timers, nextTimer } L
  := by
  constructor
  case listed => exact h.listed.congr rfl rfl
  case current => apply h.current
  case idle => apply h.idle
  case idle_running => apply h.idle_running
  case idle_on => apply h.idle_on
  case off => apply h.off
  case asleep => apply h.asleep
  case timers =>
    intro t ht
    apply h.timers t (htimers.mem_iff.mp ht)
  case timers_nodup => apply htimers.nodup_iff.mpr h.timers_nodup

/-- The timer of an event is no timer of a sleeping thread. -/
theorem timerCreate (h : Wf i k L) (ms : Nat) (qp : Q) :
  Wf i (k.timerCreate cfg ms (.eventTmo qp)) L
  := by
  apply h.setTimers
  have hperm := Kernel.rawClocksourceInsertTimer_perm
    { id := k.nextTimer, expireAt := cfg.freq / 1000 * ms + k.tick, handle := .eventTmo qp }
    k.timers
  apply (hperm.filterMap Timer.sleeper).trans
  rw [List.filterMap_cons_none rfl]

/-- The current thread goes to sleep. -/
theorem sleep (h : Wf i k L) (hrunning : (k.thr k.current).running = true)
    (hi : k.current ≠ i) {timer : Timer T Q} (htimer : timer.sleeper = some k.current)
    {nextTimer : Nat} {f : Thread → Thread}
    (hf : ∀ th, (f th).idle = th.idle ∧ (f th).sleeping = true ∧ (f th).running = false) :
  Wf i ({ k with
    timers := Kernel.rawClocksourceInsertTimer timer k.timers
    nextTimer }.modify k.current f) L
  := by
  obtain ⟨hidle, hsleeping, hstopped⟩ := hf (k.thr k.current)
  have hperm := (Kernel.rawClocksourceInsertTimer_perm timer k.timers).filterMap Timer.sleeper
  rw [List.filterMap_cons_some htimer] at hperm
  have hawake := h.current_awake hrunning
  constructor
  case listed => exact h.listed.congr rfl rfl
  case current => apply h.current
  case idle =>
    intro t
    rw [← h.idle]
    by_cases ht : t = k.current
    · rw [ht, Kernel.modify_thr_self, hidle]
    · rw [Kernel.modify_thr_of_ne _ _ _ ht]
  case idle_running =>
    rw [Kernel.modify_thr_of_ne _ _ _ hi.symm]
    apply h.idle_running
  case idle_on => apply h.idle_on
  case off => simp [hstopped]
  case asleep =>
    intro t ht
    by_cases htc : t = k.current
    · rw [htc]
      apply h.current_out hrunning
    · rw [Kernel.modify_thr_of_ne _ _ _ htc] at ht
      apply h.asleep t ht
  case timers =>
    intro t ht
    by_cases htc : t = k.current
    · rw [htc, Kernel.modify_thr_self, hsleeping]
    · rw [Kernel.modify_thr_of_ne _ _ _ htc]
      have hmem := hperm.mem_iff.mp ht
      rw [List.mem_cons] at hmem
      apply h.timers t (hmem.resolve_left htc)
  case timers_nodup =>
    apply hperm.nodup_iff.mpr
    rw [List.nodup_cons]
    refine ⟨?_, h.timers_nodup⟩
    intro hmem
    rw [h.timers _ hmem] at hawake
    cases hawake

/-- The current thread is queued to wait for an event. -/
theorem queueAddThread (h : Wf i k L) {qp : Q}
    (hrunning : (k.thr k.current).running = true) (hi : k.current ≠ i)
    (honRq : (k.thr k.current).onRq = true)
    (hk : k.queueAddThread cfg qp k.current = some k') :
  ∃ a b links, L (.queue qp) = a ++ b ∧
    k' = { k with links }.modify k.current (fun th =>
      { th with running := false, needResched := true }) ∧
    Wf i k' (Function.update L (.queue qp) (a ++ k.current :: b))
  := by
  simp only [Kernel.queueAddThread, Option.bind_eq_bind, Option.bind_eq_some_iff] at hk
  obtain ⟨k₁, hk₁, links, hlinks, hk⟩ := hk
  obtain rfl := Option.some.inj hk
  obtain rfl : k.modify k.current (fun th =>
      { th with running := false, needResched := true }) = k₁ := by
    simpa [Kernel.removeIfRunning, Kernel.rawRqRemoveThreadNoresched, hrunning, honRq]
      using hk₁
  have hstopped : Wf i (k.modify k.current fun th =>
      { th with running := false, needResched := true }) L := by
    apply h.modify rfl rfl
    · intro hci
      exact absurd hci hi
    · intro _ _; rfl
  have hout := h.current_out hrunning
  obtain ⟨a, b, hab, hlinked, hhead⟩ := hstopped.listed.classInsert _ _ hout hlinks
  have hrunQueue : Function.update L (.queue qp) (a ++ k.current :: b) .runQueue
      = L .runQueue := Function.update_of_ne (by simp) _ _
  have hmem {r : Root Q} {t : T} (ht : t ≠ k.current) :
      t ∈ Function.update L (.queue qp) (a ++ k.current :: b) r ↔ t ∈ L r := by
    by_cases hr : r = .queue qp
    · rw [hr, Function.update_self, hab]
      simp [ht]
    · rw [Function.update_of_ne hr]
  refine ⟨a, b, links, hab, rfl, ?_⟩
  constructor
  case listed =>
    refine ⟨hlinked, ?_, hhead⟩
    rw [hrunQueue]
    apply h.listed.num
  case current =>
    rw [hrunQueue]
    apply h.current
  case idle => apply hstopped.idle
  case idle_running => apply hstopped.idle_running
  case idle_on =>
    rw [hrunQueue]
    apply h.idle_on
  case off => simp
  case asleep =>
    intro t ht r
    have htc : t ≠ k.current := by
      rintro rfl
      simp [h.current_awake hrunning] at ht
    rw [hmem htc]
    apply hstopped.asleep t ht
  case timers => apply hstopped.timers
  case timers_nodup => apply hstopped.timers_nodup

/-- A thread that sleeps is awake again, and on the run queue. -/
theorem awoke (h : Wf i k L) {tp : T} {L' : Root Q → List T} (ha : Awoke tp k L k' L') :
  Wf i k' L'
  := by
  obtain ⟨num, links, rfl⟩ := ha.eq
  have hne : i ≠ tp := by
    rintro rfl
    have hsleeping := ha.sleeping
    rw [h.idle_awake] at hsleeping
    cases hsleeping
  have hcur (r : Root Q) : k.current ∈ L' r ↔ k.current ∈ L r := by
    rw [ha.list.mem_iff]
    simp [ha.current.symm]
  constructor
  case listed => apply ha.listed
  case current =>
    simp only [Kernel.modify_current, hcur]
    apply h.current
  case idle =>
    intro t
    rw [← h.idle]
    by_cases ht : t = tp
    · simp [ht]
    · simp [ht]
  case idle_running => simpa [hne] using h.idle_running
  case idle_on =>
    rw [ha.list.mem_iff]
    rcases h.idle_on with hi | hi
    · apply Or.inl hi
    · apply Or.inr (Or.inl hi)
  case off =>
    simp only [Kernel.modify_current, hcur]
    rw [Kernel.modify_thr_of_ne _ _ _ ha.current.symm]
    apply h.off
  case asleep =>
    intro t ht r
    have htp : t ≠ tp := by
      rintro rfl
      simp at ht
    rw [Kernel.modify_thr_of_ne _ _ _ htp] at ht
    rw [ha.list.mem_iff]
    rintro (hr | ⟨-, rfl⟩)
    · apply h.asleep t ht r hr
    · exact htp rfl
  case timers =>
    intro t ht
    have htp : t ≠ tp := by
      rintro rfl
      apply ha.timers ht
    rw [Kernel.modify_thr_of_ne _ _ _ htp]
    apply h.timers t ht
  case timers_nodup => apply h.timers_nodup

/-- A flag of the current thread that asks for a reschedule is set. -/
theorem setNeedResched (h : Wf i k L) (b : Bool) :
  Wf i (k.modify k.current fun th => { th with needResched := th.needResched || b }) L
  := by
  apply h.modify rfl rfl
  · rintro hi
    rw [hi]
    apply h.idle_running
  · intro _ hstopped
    apply hstopped

/-- A change that the timers or the notifications from interrupts make. -/
theorem event (h : Wf i k L) {L' : Root Q → List T} (he : Event k L k' L') : Wf i k' L' := by
  cases he with
  | timer timer l htimers =>
      have hsub : l.Sublist k.timers := htimers ▸ List.sublist_cons_self timer l
      exact h.congr (h.listed.congr rfl rfl) rfl (fun _ _ ht => ht) rfl rfl hsub
  | resched b => apply h.setNeedResched
  | timeout qp tp _ _ _ hwoke => apply h.woke hwoke
  | awoke tp _ _ hawoke => apply h.awoke hawoke
  | signal iterator _ _ hturn =>
      cases hturn with
      | skip => apply h
      | marked => apply h.setEc
      | woke qp tp _ _ _ _ _ hwoke =>
          refine woke ?_ hwoke
          have hec := h.setEc
            (Function.update k.links.ec iterator (k.links.ec iterator - 1))
          exact hec.congr (hec.listed.congr rfl rfl) rfl (fun _ _ ht => ht) rfl rfl
            (List.Sublist.refl _)

theorem events (h : Wf i k L) {L' : Root Q → List T} (he : Events k L k' L') :
  Wf i k' L'
  := by
  apply he.invariant (Wf i) _ h
  intro k L k' L' h he
  apply h.event he

/-- The call of the handle of a timer that does not belong to the current thread. -/
theorem callHandle (h : Wf i k L) {l : List (Timer T Q)} {timer : Timer T Q}
    (htimers : k.timers = timer :: l) (howns : k.owns k.current timer = false)
    (hk : { k with timers := l }.callHandle cfg timer = some k') :
  ∃ L', Event { k with timers := l } L k' L' ∧ k'.tick = k.tick ∧ k'.timers = l ∧
    (k'.thr k.current).timer = (k.thr k.current).timer
  := by
  have h' : Wf i { k with timers := l } L := h.event (.timer timer l htimers)
  rw [Kernel.callHandle] at hk
  split at hk
  · rename_i tp htimer
    have hcurrent : tp ≠ k.current := by simpa [Kernel.owns, htimer] using howns
    have hsleeper : timer.sleeper = some tp := by simp [Timer.sleeper, htimer]
    have hall := h.timers
    have hnodup := h.timers_nodup
    rw [htimers, List.filterMap_cons_some hsleeper] at hall hnodup
    have hasleep := hall tp List.mem_cons_self
    obtain ⟨L', hawoke⟩ := Awoke.intro h'.listed hasleep (List.nodup_cons.mp hnodup).1 hcurrent
      (h.asleep tp hasleep) hk
    obtain ⟨num, links, rfl⟩ := hawoke.eq
    refine ⟨L', .awoke tp _ L' hawoke, rfl, rfl, ?_⟩
    simp [hcurrent.symm]
  · rename_i qp htimer
    have hcurrent : (k.thr k.current).timer ≠ .timer timer.id := by
      simpa [Kernel.owns, htimer] using howns
    have hframe := Kernel.eventTmo_timers hk
    rcases Woke.eventTmo h'.listed hcurrent hk with ⟨b, rfl⟩ | ⟨tp, L', hne, hwoke⟩
    · refine ⟨L, .resched b, rfl, hframe, ?_⟩
      simp
    · refine ⟨L', .timeout qp tp _ L' hne.symm hwoke, hwoke.tick, hframe, ?_⟩
      apply hwoke.timer_of_ne hne

/-- The loop of `timer_process`, when no expired timer belongs to the current thread. -/
theorem timerLoop :
    ∀ {l : List (Timer T Q)} {k : Kernel T Q} {L : Root Q → List T}, Wf i k L →
      k.timers = l → (∀ timer ∈ l.takeWhile k.timerIsExpired, k.owns k.current timer = false) →
      Kernel.timerLoop cfg l k = some k' → ∃ L', Events k L k' L'
  | [], k, L, h, _, _, hk => by
      obtain rfl := Option.some.inj hk
      exact ⟨L, .refl⟩
  | timer :: l, k, L, h, htimers, howns, hk => by
      rw [Kernel.timerLoop] at hk
      split at hk
      · rename_i hexpired
        rw [List.takeWhile_cons_of_pos hexpired] at howns
        obtain ⟨k₁, hk₁, hk⟩ := Option.bind_eq_some_iff.mp hk
        have hevent : Event k L { k with timers := l } L := .timer timer l htimers
        obtain ⟨L₁, hevent₁, htick, hl, htimer⟩ :=
          h.callHandle htimers (howns timer List.mem_cons_self) hk₁
        have hcurrent : k₁.current = k.current := hevent₁.current
        have hexpired₁ : k₁.timerIsExpired = k.timerIsExpired := by
          funext t
          simp [Kernel.timerIsExpired, htick]
        have howns₁ : ∀ t ∈ l.takeWhile k₁.timerIsExpired,
            k₁.owns k₁.current t = false := by
          intro t ht
          rw [hexpired₁] at ht
          have := howns t (List.mem_cons_of_mem _ ht)
          simpa only [Kernel.owns, hcurrent, htimer] using this
        obtain ⟨L', hevents⟩ := timerLoop ((h.event hevent).event hevent₁) hl howns₁ hk
        exact ⟨L', ((Events.single hevent).step hevent₁).trans hevents⟩
      · obtain rfl := Option.some.inj hk
        exact ⟨L, .refl⟩

/-- The function `rq_signal_threads`. -/
theorem rqSignalThreads (h : Wf i k L) (hk : k.rqSignalThreads cfg = some k') :
  ∃ L', Events k L k' L'
  := by
  apply Run.foldlM_invariant (fun k₁ => ∃ L', Events k L k₁ L') ?_ ⟨L, .refl⟩ hk
  rintro k₁ iterator k₂ ⟨L₁, hevents⟩ hk₂
  obtain ⟨L₂, hturn⟩ := Woke.signalThread (h.events hevents).listed hk₂
  exact ⟨L₂, hevents.step (.signal iterator k₂ L₂ hturn)⟩

/-! ### The scheduler -/

/-- A switch to a running thread keeps the invariant. -/
theorem switched (h : Wf i k L) {next : T} {L' : Root Q → List T}
    (hnext : next ∈ L .runQueue ∨ next = k.current)
    (hrunning : (k.thr next).running = true) (hs : Switched k.current next k L k' L') :
  Wf i k' L'
  := by
  have hawake : (k.thr next).sleeping = false := by
    rcases hnext with hmem | rfl
    · by_contra hsleeping
      apply h.asleep next (by simpa using hsleeping) _ hmem
    · apply h.current_awake hrunning
  have hout (r : Root Q) : next ∉ L' r := by
    cases r with
    | runQueue => simp [hs.runQueue]
    | queue qp =>
        rw [hs.queue]
        rcases hnext with hmem | rfl
        · apply h.listed.linked.disjoint (by simp) hmem
        · apply h.current_out hrunning
  constructor
  case listed => apply hs.listed
  case current =>
    rw [hs.current]
    apply hout
  case idle => simp only [hs.idle, h.idle, implies_true]
  case idle_running => rw [hs.running, h.idle_running]
  case idle_on =>
    rw [hs.current, hs.runQueue]
    by_cases hi : i = next
    · apply Or.inl hi
    · right
      use hi
      rcases h.idle_on with hcurrent | hmem
      · right
        use hcurrent
        rw [← hcurrent, h.idle_running]
      · apply Or.inl hmem
  case off =>
    rw [hs.current, hs.sleeping, hawake]
    rintro (⟨r, hr⟩ | hfalse)
    · exact absurd hr (hout r)
    · cases hfalse
  case asleep =>
    intro t ht r
    rw [hs.sleeping] at ht
    cases r with
    | runQueue =>
        rw [hs.runQueue]
        rintro ⟨-, hmem | ⟨rfl, hprev⟩⟩
        · apply h.asleep t ht _ hmem
        · rw [h.current_awake hprev] at ht
          cases ht
    | queue qp =>
        rw [hs.queue]
        apply h.asleep t ht
  case timers =>
    intro t ht
    rw [hs.timers] at ht
    rw [hs.sleeping, h.timers t ht]
  case timers_nodup =>
    rw [hs.timers]
    apply h.timers_nodup

end Wf

/-! ### The decision of a pass -/

/-- A current thread that has stopped itself leaves the processor in the next pass: it asks
for a reschedule, or the next thread is not the idle thread `i`. -/
def Leaves (cfg : Config Q) (i : T) (k : Kernel T Q) (L : Root Q → List T) : Prop :=
  (k.thr k.current).running = false → (k.thr k.current).needResched = true ∨
    cfg.preempt = true ∧ ∃ next, next ≠ i ∧
      ((L .runQueue).find? fun t => (k.thr t).running) = some next

/-- What a pass does behind the events. -/
inductive Decided (k : Kernel T Q) (L : Root Q → List T) :
    Kernel T Q → (Root Q → List T) → Prop
  /-- It switches to a thread that is running. -/
  | switch (next : T) (k' : Kernel T Q) (L' : Root Q → List T)
      (hnext : next ∈ L .runQueue ∨ next = k.current) (hrunning : (k.thr next).running = true)
      (hs : Switched k.current next k L k' L') : Decided k L k' L'
  /-- It stays with the current thread. -/
  | stay (needResched preemptNeedResched : Bool)
      (hrunning : (k.thr k.current).running = true) : Decided k L
      (k.modify k.current fun th => { th with needResched, preemptNeedResched }) L

/-- A thread that joins the run queue before another one does not make the idle thread the
next one. -/
theorem AddedTo.find?_ne {L L' : Root Q → List T} {tp i : T} (h : AddedTo L tp L')
    (htp : tp ≠ i) {p p' : T → Bool} (hp : ∀ t ∈ L .runQueue, p' t = p t)
    (hnext : ∃ next, next ≠ i ∧ (L .runQueue).find? p = some next) (hp' : p' tp = true) :
  ∃ next, next ≠ i ∧ (L' .runQueue).find? p' = some next
  := by
  obtain ⟨⟨a, b, hL, hL'⟩, -⟩ := h
  obtain ⟨next, hne, hfind⟩ := hnext
  have hsame {l : List T} (hl : ∀ t ∈ l, t ∈ L .runQueue) : l.find? p' = l.find? p := by
    induction l with
    | nil => rfl
    | cons t l ih =>
        rw [List.find?_cons, List.find?_cons, hp t (hl t List.mem_cons_self), ih]
        intro u hu
        apply hl u (List.mem_cons_of_mem _ hu)
  have ha : a.find? p' = a.find? p := hsame fun t ht => by simp [hL, ht]
  rw [hL, List.find?_append] at hfind
  rw [hL', List.find?_append, ha, List.find?_cons_of_pos hp']
  cases hfa : a.find? p with
  | none => exact ⟨tp, htp, rfl⟩
  | some t =>
      rw [hfa] at hfind
      exact ⟨next, hne, hfind⟩

namespace Leaves

variable {i : T} {k k' : Kernel T Q} {L L' : Root Q → List T} {cfg : Config Q}

/-- A wake-up keeps the current thread leaving. -/
theorem woke (h : Leaves cfg i k L) (hwf : Wf i k L) {qp : Q} {tp : T}
    (hw : Woke qp tp k L k' L') :
  Leaves cfg i k' L'
  := by
  have hi : tp ≠ i := by
    rintro rfl
    apply hwf.idle_not_queued qp hw.mem
  have hout : tp ∉ L .runQueue := hwf.listed.linked.disjoint (by simp) hw.mem
  rw [Leaves, hw.current]
  by_cases hcurrent : k.current = tp
  · obtain ⟨timer, hthr⟩ := hw.woken
    simp [hcurrent, hthr]
  · obtain ⟨b, hthr⟩ := hw.thread _ hcurrent
    intro hstopped
    rw [hw.running_of_ne hcurrent] at hstopped
    apply (h hstopped).imp
    · intro hneed
      simp [hthr, hneed]
    · rintro ⟨hpreempt, hnext⟩
      use hpreempt
      have hadd := hw.list (Ne.symm hcurrent)
      apply hadd.find?_ne hi (p := fun t => (k.thr t).running)
      · intro t ht
        rw [RemovedFrom.of_ne (by simp)] at ht
        apply hw.running_of_ne
        rintro rfl
        apply hout ht
      · rwa [RemovedFrom.of_ne (by simp)]
      · obtain ⟨timer, hthr'⟩ := hw.woken
        rw [hthr']

/-- An event keeps the current thread leaving. -/
theorem event (h : Leaves cfg i k L) (hwf : Wf i k L) (he : Event k L k' L') :
  Leaves cfg i k' L'
  := by
  cases he with
  | timer timer l htimers => apply h
  | resched b =>
      have hsame : (fun t => ((k.modify k.current fun th =>
          { th with needResched := th.needResched || b }).thr t).running)
          = fun t => (k.thr t).running := by
        funext t
        by_cases ht : t = k.current <;> simp [ht]
      intro hstopped
      rw [Kernel.modify_current, Kernel.modify_thr_self] at hstopped
      rw [hsame]
      apply (h hstopped).imp_left
      intro hneed
      simp [hneed]
  | timeout qp tp _ _ _ hwoke => apply h.woke hwf hwoke
  | awoke tp _ _ hawoke =>
      have hi : tp ≠ i := by
        rintro rfl
        have hsleeping := hawoke.sleeping
        rw [hwf.idle_awake] at hsleeping
        cases hsleeping
      obtain ⟨num, links, rfl⟩ := hawoke.eq
      intro hstopped
      rw [Kernel.modify_current] at hstopped ⊢
      rw [Kernel.modify_thr_of_ne _ _ _ hawoke.current.symm] at hstopped ⊢
      apply (h hstopped).imp_right
      rintro ⟨hpreempt, hnext⟩
      use hpreempt
      apply hawoke.list.find?_ne hi (p := fun t => (k.thr t).running) _ hnext
      · simp
      · intro t ht
        have hne : t ≠ tp := by
          rintro rfl
          apply hwf.asleep _ hawoke.sleeping _ ht
        simp [hne]
  | signal iterator _ _ hturn =>
      cases hturn with
      | skip => apply h
      | marked => apply h
      | woke qp tp _ _ _ _ _ hwoke =>
          refine woke ?_ ?_ hwoke
          · apply h
          · have hec := hwf.setEc
              (Function.update k.links.ec iterator (k.links.ec iterator - 1))
            exact hec.congr (hec.listed.congr rfl rfl) rfl (fun _ _ ht => ht) rfl rfl
              (List.Sublist.refl _)

end Leaves

namespace Wf

variable {i : T} {k k' : Kernel T Q} {L : Root Q → List T} {cfg : Config Q}

/-- What the decision of a pass does keeps the invariant, and leaves a running thread
current. -/
theorem decided (h : Wf i k L) {L' : Root Q → List T} (hd : Decided k L k' L') :
  Wf i k' L' ∧ (k'.thr k'.current).running = true
  := by
  cases hd with
  | switch next _ _ hnext hrunning hs =>
      use h.switched hnext hrunning hs
      rw [hs.current, hs.running, hrunning]
  | stay needResched preemptNeedResched hrunning =>
      constructor
      · apply h.modify rfl rfl
        · intro _
          apply hrunning
        · intro _ hstopped
          apply hstopped
      · simpa using hrunning

/-- The decision of a pass in which a current thread that has stopped itself leaves. -/
theorem reschedule (h : Wf i k L) (hleaves : Leaves cfg i k L) {next : T}
    (hnext : k.schedGetNextRunnable = some next)
    (hk : k.reschedule cfg k.current next = some k') :
  ∃ L', Decided k L k' L'
  := by
  have hfound := h.listed.schedGetNextRunnable_cases hnext
  have hleft (hstopped : (k.thr k.current).running = false) :
      k.current ≠ next ∧ (k.thr next).running = true := by
    rcases hfound with ⟨hmem, hrunning⟩ | ⟨-, hall⟩
    · refine ⟨?_, hrunning⟩
      rintro rfl
      simp [hstopped] at hrunning
    · exfalso
      rcases h.idle_on with hi | hi
      · rw [← hi, h.idle_running] at hstopped
        cases hstopped
      · have := hall i hi
        rw [h.idle_running] at this
        cases this
  rw [Kernel.reschedule] at hk
  obtain ⟨needResched, preemptNeedResched, hclear⟩ :=
    Kernel.clearResched_frame cfg k k.current next
  rw [hclear] at hk
  split at hk
  · obtain ⟨k₁, hk₁, hk⟩ := Option.bind_eq_some_iff.mp hk
    have hrunning : (k.thr next).running = true := by
      by_cases hprev : (k.thr k.current).running = true
      · rcases hfound with ⟨-, hrunning⟩ | ⟨rfl, -⟩
        · apply hrunning
        · apply hprev
      · apply (hleft (by simpa using hprev)).2
    obtain ⟨L', hs⟩ := Switched.intro h.listed h.current_out hk₁ hk
    have hmem : next ∈ L .runQueue ∨ next = k.current := by
      rcases hfound with ⟨hmem, -⟩ | ⟨hcurrent, -⟩
      · apply Or.inl hmem
      · apply Or.inr hcurrent
    exact ⟨L', .switch next k' L' hmem hrunning hs⟩
  · rename_i hdecide
    obtain rfl := Option.some.inj hk
    have hrunning : (k.thr k.current).running = true := by
      by_contra hstopped
      simp only [Bool.not_eq_true] at hstopped
      apply hdecide
      have hne := (hleft hstopped).1
      rcases hleaves hstopped with hneed | ⟨hpreempt, n, hni, hfind⟩
      · apply Kernel.rescheduleDecide_of_needResched hne
        rw [Kernel.preemptCheck_needResched, hneed]
      · have hn := h.listed.schedGetNextRunnable hnext
        rw [hfind, Option.getD_some] at hn
        subst hn
        apply Kernel.rescheduleDecide_of_preempt hpreempt hne
        rw [← Bool.not_eq_true, h.idle]
        exact hni
    exact ⟨L, .stay needResched preemptNeedResched hrunning⟩

/-- The function `__schedule`, when no timer that has expired belongs to the current thread
and a current thread that has stopped itself leaves. -/
theorem schedulePass (h : Wf i k L) (hleaves : Leaves cfg i k L)
    (howns : ∀ timer ∈ k.expiredTimers, k.owns k.current timer = false)
    (hk : k.schedulePass cfg = some k') :
  ∃ k₁ L₁ L', Events k L k₁ L₁ ∧ Decided k₁ L₁ k' L'
  := by
  simp only [Kernel.schedulePass, Option.bind_eq_bind, Option.bind_eq_some_iff] at hk
  obtain ⟨k₁, hk₁, k₂, hk₂, next, hnext, hk⟩ := hk
  obtain ⟨L₁, hevents₁⟩ := h.timerLoop rfl howns hk₁
  obtain ⟨L₂, hevents₂⟩ := (h.events hevents₁).rqSignalThreads hk₂
  have hevents := hevents₁.trans hevents₂
  have hboth : (k₂.current = k.current ∧ Wf i k₂ L₂) ∧ Leaves cfg i k₂ L₂ := by
    apply hevents.invariant (fun k₁ L₁ => (k₁.current = k.current ∧ Wf i k₁ L₁) ∧
      Leaves cfg i k₁ L₁) _ ⟨⟨rfl, h⟩, hleaves⟩
    rintro k L k' L' ⟨⟨hcurrent, hwf⟩, hl⟩ he
    exact ⟨⟨he.current.trans hcurrent, hwf.event he⟩, hl.event hwf he⟩
  obtain ⟨⟨hcurrent, hwf⟩, hleaves₂⟩ := hboth
  rw [← hcurrent] at hk
  obtain ⟨L', hdecided⟩ := hwf.reschedule hleaves₂ hnext hk
  exact ⟨k₂, L₂, L', hevents, hdecided⟩

end Wf

end Etaos
