import Etaos.Sched.RunQueue

/-!
# What a step does to a thread

A thread is ready when it is running and is current or on the run queue.  A step spares a
thread when it leaves it on the thread queue that it is on, and ready if it is, and it rouses
a thread when it takes it off a thread queue and makes it ready.  Every orderly step does the
one or the other to a thread, unless it is one of the few at which the thread stops itself or
another one takes hold of it.
-/

set_option linter.unusedSectionVars false

namespace Etaos

variable {T Q : Type} [DecidableEq T] [DecidableEq Q] [Fintype T]

/-- The thread `tp` is running, and it is current or on the run queue. -/
def Ready (tp : T) (k : Kernel T Q) (L : Root Q → List T) : Prop :=
  (k.thr tp).running = true ∧ (tp = k.current ∨ tp ∈ L .runQueue)

/-- The thread `tp` is running, and it is current or found on the run queue. -/
def Runnable (k : Kernel T Q) (tp : T) : Prop :=
  (k.thr tp).running = true ∧ (tp = k.current ∨
    ∃ p l, k.links.head .runQueue = .ptr p ∧ Chain.IsChain k.links.next p l ∧ tp ∈ l)

/-- A thread is runnable when it is ready on the lists that the links represent. -/
theorem runnable_iff {tp : T} {k : Kernel T Q} {L : Root Q → List T} (h : Listed k L) :
  Runnable k tp ↔ Ready tp k L
  := by
  rw [Runnable, Ready]
  apply and_congr_right
  intro _
  apply or_congr_right
  cases hp : k.links.head .runQueue with
  | signaled => exact absurd hp h.head
  | ptr p =>
      have hchain := h.linked.chain _ _ hp
      constructor
      · rintro ⟨p', l, hp', hl, hmem⟩
        obtain rfl := Qhead.ptr.inj hp'
        rwa [hchain.unique hl]
      · intro hmem
        exact ⟨p, L .runQueue, rfl, hchain, hmem⟩

/-- The thread `tp` stays where it is, and ready if it is.  It becomes ready only when `a`
holds, which says that the thread is put on the run queue. -/
structure Spared (a : Prop) (tp : T) (k : Kernel T Q) (L : Root Q → List T)
    (k' : Kernel T Q) (L' : Root Q → List T) : Prop where
  queued : ∀ qp, tp ∈ L' (.queue qp) ↔ tp ∈ L (.queue qp)
  wakes : k'.wakes tp = k.wakes tp
  ready : Ready tp k L → Ready tp k' L'
  raised : (k'.thr tp).running = true → (k.thr tp).running = true ∨ Ready tp k' L'
  fresh : Ready tp k' L' → a ∨ Ready tp k L
  marked : (tp ∈ L .runQueue → (k.thr tp).running = true) →
    tp ∈ L' .runQueue → (k'.thr tp).running = true

/-- The thread `tp` is taken off a thread queue and made ready. -/
structure Roused (tp : T) (k : Kernel T Q) (L : Root Q → List T) (k' : Kernel T Q)
    (L' : Root Q → List T) : Prop where
  queued : ∃ qp, tp ∈ L (.queue qp)
  out : ∀ qp, tp ∉ L' (.queue qp)
  wakes : k'.wakes tp = k.wakes tp + 1
  ready : Ready tp k' L'

/-- What happens to the thread `tp`, where `a` says that it is put on the run queue. -/
def Fate (a : Prop) (tp : T) (k : Kernel T Q) (L : Root Q → List T) (k' : Kernel T Q)
    (L' : Root Q → List T) : Prop :=
  Spared a tp k L k' L' ∨ Roused tp k L k' L'

variable {a : Prop} {tp : T} {k k₁ k' : Kernel T Q} {L L₁ L' : Root Q → List T}

namespace Spared

theorem refl : Spared a tp k L k L := by
  constructor
  case queued => intro _; rfl
  case wakes => rfl
  case ready => apply id
  case raised => apply Or.inl
  case fresh => apply Or.inr
  case marked => apply id

theorem trans (h : Spared a tp k L k₁ L₁) (h' : Spared a tp k₁ L₁ k' L') :
  Spared a tp k L k' L'
  := by
  constructor
  case queued =>
    intro qp
    rw [h'.queued, h.queued]
  case wakes => rw [h'.wakes, h.wakes]
  case ready =>
    intro hready
    apply h'.ready (h.ready hready)
  case raised =>
    intro hrunning
    rcases h'.raised hrunning with hrunning₁ | hready
    · apply (h.raised hrunning₁).imp_right h'.ready
    · apply Or.inr hready
  case fresh =>
    intro hready
    rcases h'.fresh hready with ha | hready₁
    · apply Or.inl ha
    · apply h.fresh hready₁
  case marked =>
    intro hmarked
    apply h'.marked (h.marked hmarked)

/-- The thread stays on its lists, and its flag `THREAD_RUNNING_FLAG` stays. -/
theorem of_mem (hcurrent : k'.current = k.current) (hwakes : k'.wakes tp = k.wakes tp)
    (hrunning : (k'.thr tp).running = (k.thr tp).running)
    (hmem : ∀ r, tp ∈ L' r ↔ tp ∈ L r) :
  Spared a tp k L k' L'
  := by
  constructor
  case queued =>
    intro qp
    apply hmem
  case wakes => apply hwakes
  case ready =>
    rintro ⟨hready, hplace⟩
    use hrunning.trans hready
    rwa [hcurrent, hmem]
  case raised =>
    intro hrunning'
    left
    rw [← hrunning, hrunning']
  case fresh =>
    rintro ⟨hready, hplace⟩
    right
    use hrunning.symm.trans hready
    rwa [hcurrent, hmem] at hplace
  case marked =>
    intro hmarked
    rw [hmem, hrunning]
    apply hmarked

/-- The lists stay, and the flag `THREAD_RUNNING_FLAG` of the thread. -/
theorem of_lists (hcurrent : k'.current = k.current) (hwakes : k'.wakes tp = k.wakes tp)
    (hrunning : (k'.thr tp).running = (k.thr tp).running) :
  Spared a tp k L k' L
  := of_mem hcurrent hwakes hrunning fun _ => Iff.rfl

/-- A thread that is not ready, since it is neither current nor on a list, stays off the
lists. -/
theorem of_off (hcurrent : tp ≠ k.current) (hout : ∀ r, tp ∉ L r) (hout' : ∀ r, tp ∉ L' r)
    (hwakes : k'.wakes tp = k.wakes tp) (hstopped : (k'.thr tp).running = false) :
  Spared a tp k L k' L'
  := by
  constructor
  case queued =>
    intro qp
    simp only [hout, hout']
  case wakes => apply hwakes
  case ready =>
    rintro ⟨-, hplace | hplace⟩
    · exact absurd hplace hcurrent
    · exact absurd hplace (hout _)
  case raised =>
    intro hrunning
    rw [hstopped] at hrunning
    cases hrunning
  case fresh =>
    rintro ⟨hrunning, -⟩
    rw [hstopped] at hrunning
    cases hrunning
  case marked =>
    intro _ hmem
    exact absurd hmem (hout' _)

/-- The record of a thread changes, but not in `THREAD_RUNNING_FLAG` if it is `tp`. -/
theorem modify {u : T} {f : Thread → Thread}
    (hf : u = tp → (f (k.thr tp)).running = (k.thr tp).running) :
  Spared a tp k L (k.modify u f) L
  := by
  apply of_lists
  · rfl
  · rfl
  · by_cases hu : u = tp
    · subst hu
      rw [Kernel.modify_thr_self, hf rfl]
    · rw [Kernel.modify_thr_of_ne _ _ _ (Ne.symm hu)]

/-- A thread is added to the run queue. -/
theorem added {u : T} (ha : u = tp → a) (hadd : AddedTo L u L') (hcurrent : k'.current = k.current)
    (hwakes : k'.wakes tp = k.wakes tp)
    (hrunning : u ≠ tp → (k'.thr tp).running = (k.thr tp).running)
    (hset : u = tp → (k'.thr tp).running = true) :
  Spared a tp k L k' L'
  := by
  have hmem (hu : u = tp) : tp ∈ L' .runQueue := by
    rw [hadd.mem_runQueue]
    apply Or.inl hu.symm
  constructor
  case queued =>
    intro qp
    rw [hadd.2]
  case wakes => apply hwakes
  case ready =>
    rintro ⟨hready, hplace⟩
    by_cases hu : u = tp
    · exact ⟨hset hu, .inr (hmem hu)⟩
    · use (hrunning hu).trans hready
      rw [hcurrent, hadd.mem_runQueue]
      apply hplace.imp_right
      apply Or.inr
  case raised =>
    intro hrunning'
    by_cases hu : u = tp
    · exact .inr ⟨hset hu, .inr (hmem hu)⟩
    · left
      rw [← hrunning hu, hrunning']
  case fresh =>
    rintro ⟨hready, hplace⟩
    by_cases hu : u = tp
    · apply Or.inl (ha hu)
    · right
      use (hrunning hu).symm.trans hready
      rw [hcurrent, hadd.mem_runQueue] at hplace
      apply hplace.imp_right
      intro hmem'
      apply hmem'.resolve_left (Ne.symm hu)
  case marked =>
    intro hmarked hmem'
    by_cases hu : u = tp
    · apply hset hu
    · rw [hadd.mem_runQueue] at hmem'
      rw [hrunning hu]
      apply hmarked (hmem'.resolve_left (Ne.symm hu))

end Spared

namespace Fate

theorem refl : Fate a tp k L k L := Or.inl Spared.refl

theorem trans (h : Fate a tp k L k₁ L₁) (h' : Fate a tp k₁ L₁ k' L') : Fate a tp k L k' L' := by
  rcases h with h | h
  · rcases h' with h' | h'
    · apply Or.inl (h.trans h')
    · right
      obtain ⟨qp, hqp⟩ := h'.queued
      constructor
      case queued => exact ⟨qp, (h.queued qp).mp hqp⟩
      case out => apply h'.out
      case wakes => rw [h'.wakes, h.wakes]
      case ready => apply h'.ready
  · rcases h' with h' | h'
    · right
      constructor
      case queued => apply h.queued
      case out =>
        intro qp
        rw [h'.queued]
        apply h.out
      case wakes => rw [h'.wakes, h.wakes]
      case ready => apply h'.ready h.ready
    · obtain ⟨qp, hqp⟩ := h'.queued
      exact absurd hqp (h.out qp)

/-- A ready thread stays ready. -/
theorem ready (h : Fate a tp k L k' L') (hready : Ready tp k L) : Ready tp k' L' := by
  rcases h with h | h
  · apply h.ready hready
  · apply h.ready

/-- A thread that is on no thread queue comes on none. -/
theorem out (h : Fate a tp k L k' L') (hout : ∀ qp, tp ∉ L (.queue qp)) (qp : Q) :
  tp ∉ L' (.queue qp)
  := by
  rcases h with h | h
  · rw [h.queued]
    apply hout
  · apply h.out

/-- A thread that is ready whenever it is running stays so. -/
theorem raised (h : Fate a tp k L k' L')
    (hready : (k.thr tp).running = true → Ready tp k L)
    (hrunning : (k'.thr tp).running = true) :
  Ready tp k' L'
  := by
  rcases h with h | h
  · rcases h.raised hrunning with hrunning | hready'
    · apply h.ready (hready hrunning)
    · apply hready'
  · apply h.ready

/-- A thread that was on no thread queue and is ready was ready before, or it is put on the
run queue. -/
theorem fresh (h : Fate a tp k L k' L') (hout : ∀ qp, tp ∉ L (.queue qp))
    (hready : Ready tp k' L') :
  a ∨ Ready tp k L
  := by
  rcases h with h | h
  · apply h.fresh hready
  · obtain ⟨qp, hqp⟩ := h.queued
    exact absurd hqp (hout qp)

/-- When the threads on the run queue are running, they stay so. -/
theorem marked (h : Fate a tp k L k' L')
    (hmarked : tp ∈ L .runQueue → (k.thr tp).running = true)
    (hmem : tp ∈ L' .runQueue) :
  (k'.thr tp).running = true
  := by
  rcases h with h | h
  · apply h.marked hmarked hmem
  · apply h.ready.1

end Fate

/-- What happens to the thread `tp` on the way to the kernel `k'`, whose lists are
represented. -/
def Fated (a : Prop) (tp : T) (k : Kernel T Q) (L : Root Q → List T) (k' : Kernel T Q) : Prop :=
  ∃ L', Listed k' L' ∧ Fate a tp k L k' L'

namespace Fated

theorem refl (h : Listed k L) : Fated a tp k L k := ⟨L, h, Fate.refl⟩

/-- The kernel changes, but not in its lists or in `THREAD_RUNNING_FLAG` of `tp`. -/
theorem congr (h : Fated a tp k L k₁) (hlinks : k'.links = k₁.links) (hnum : k'.num = k₁.num)
    (hcurrent : k'.current = k₁.current) (hwakes : k'.wakes tp = k₁.wakes tp)
    (hrunning : (k'.thr tp).running = (k₁.thr tp).running) :
  Fated a tp k L k'
  := by
  obtain ⟨L₁, hlisted, hfate⟩ := h
  refine ⟨L₁, hlisted.congr hlinks hnum, hfate.trans ?_⟩
  apply Or.inl (Spared.of_lists hcurrent hwakes hrunning)

/-- The record of a thread changes, but not in `THREAD_RUNNING_FLAG`. -/
theorem modify (h : Fated a tp k L k₁) (u : T) {f : Thread → Thread}
    (hf : ∀ th, (f th).running = th.running) :
  Fated a tp k L (k₁.modify u f)
  := by
  apply h.congr
  · rfl
  · rfl
  · rfl
  · rfl
  · by_cases hu : u = tp
    · subst hu
      rw [Kernel.modify_thr_self, hf]
    · rw [Kernel.modify_thr_of_ne _ _ _ (Ne.symm hu)]

end Fated

/-! ### The changes of a pass -/

/-- A wake-up rouses the thread that it wakes, and spares the others. -/
theorem Woke.fate {qp : Q} {u : T} (hw : Woke qp u k L k' L') (hk : Listed k L) :
  Fate a tp k L k' L'
  := by
  by_cases hu : tp = u
  · subst hu
    right
    constructor
    case queued => exact ⟨qp, hw.mem⟩
    case out => apply hw.not_queued hk
    case wakes => simp [hw.wakes]
    case ready =>
      obtain ⟨timer, hthr⟩ := hw.woken
      constructor
      · rw [hthr]
      · rw [hw.current]
        by_cases hcurrent : tp = k.current
        · apply Or.inl hcurrent
        · right
          rw [(hw.list hcurrent).mem_runQueue]
          apply Or.inl rfl
  · left
    apply Spared.of_mem hw.current _ (hw.running_of_ne hu) fun q => hw.mem_iff_of_ne hu
    simp [hw.wakes, hu]

/-- The end of a sleep spares every thread, and puts the sleeper on the run queue. -/
theorem Awoke.fate {u : T} (hawoke : Awoke u k L k' L')
    (ha : (k.thr tp).sleeping = true → a) :
  Fate a tp k L k' L'
  := by
  left
  have hsleeping := hawoke.sleeping
  obtain ⟨num, links, rfl⟩ := hawoke.eq
  apply Spared.added _ hawoke.list
  · rfl
  · rfl
  · intro hu
    simp [Ne.symm hu]
  · rintro rfl
    simp
  · rintro rfl
    apply ha hsleeping

/-- One change of the timers and the notifications from interrupts. -/
theorem Event.fate (he : Event k L k' L') (hk : Listed k L)
    (ha : (k.thr tp).sleeping = true → a) :
  Fate a tp k L k' L'
  := by
  cases he with
  | timer => exact .inl (.of_lists rfl rfl rfl)
  | resched b =>
      apply Or.inl (Spared.modify _)
      intro _; rfl
  | timeout qp u _ _ _ hwoke => apply hwoke.fate hk
  | awoke u _ _ hawoke => apply hawoke.fate ha
  | signal iterator _ _ hturn =>
      cases hturn with
      | skip => apply Fate.refl
      | marked => exact .inl (.of_lists rfl rfl rfl)
      | woke qp u _ _ _ _ _ hwoke =>
          apply Fate.trans _ (hwoke.fate ((hk.setEc _).congr rfl rfl))
          exact .inl (.of_lists rfl rfl rfl)

/-- An event puts no thread to sleep. -/
theorem Event.sleeping (he : Event k L k' L') (hsleeping : (k'.thr tp).sleeping = true) :
  (k.thr tp).sleeping = true
  := by
  cases he with
  | timer => apply hsleeping
  | resched b =>
      by_cases htp : tp = k.current
      · simpa [htp] using hsleeping
      · simpa [htp] using hsleeping
  | timeout qp u _ _ _ hwoke => rwa [← hwoke.sleeping]
  | awoke u _ _ hawoke =>
      obtain ⟨num, links, rfl⟩ := hawoke.eq
      by_cases htp : tp = u
      · simp [htp] at hsleeping
      · simpa [htp] using hsleeping
  | signal iterator _ _ hturn =>
      cases hturn with
      | skip => apply hsleeping
      | marked => apply hsleeping
      | woke qp u _ _ _ _ _ hwoke => exact (hwoke.sleeping tp).symm.trans hsleeping

theorem Events.fate (he : Events k L k' L') (hk : Listed k L)
    (ha : (k.thr tp).sleeping = true → a) :
  Fate a tp k L k' L'
  := by
  have hboth : Listed k' L' ∧ ((k'.thr tp).sleeping = true → a) ∧ Fate a tp k L k' L' := by
    apply he.invariant (fun k₁ L₁ => Listed k₁ L₁ ∧ ((k₁.thr tp).sleeping = true → a) ∧
      Fate a tp k L k₁ L₁) _ ⟨hk, ha, Fate.refl⟩
    rintro k₁ L₁ k₂ L₂ ⟨hlisted, hasleep, hfate⟩ hevent
    refine ⟨hevent.listed hlisted, ?_, hfate.trans (hevent.fate hlisted hasleep)⟩
    intro hsleeping
    apply hasleep (hevent.sleeping hsleeping)
  apply hboth.2.2

/-- The decision of a pass spares every thread. -/
theorem Decided.fate (hd : Decided k L k' L') : Fate a tp k L k' L' := by
  left
  cases hd with
  | stay needResched preemptNeedResched _ =>
      apply Spared.modify
      intro _; rfl
  | switch next _ _ hnext hrunning hs =>
      constructor
      case queued =>
        intro qp
        rw [hs.queue]
      case wakes => rw [hs.wakes]
      case ready =>
        rintro ⟨hready, hplace⟩
        use (hs.running tp).trans hready
        rw [hs.current, hs.runQueue]
        by_cases htp : tp = next
        · apply Or.inl htp
        · right
          use htp
          rcases hplace with rfl | hmem
          · right
            use rfl
          · apply Or.inl hmem
      case raised =>
        intro hrunning'
        left
        rw [← hs.running, hrunning']
      case fresh =>
        rintro ⟨hready, hplace⟩
        right
        rw [hs.running] at hready
        use hready
        rw [hs.current, hs.runQueue] at hplace
        rcases hplace with rfl | ⟨-, hmem | ⟨hprev, -⟩⟩
        · apply hnext.symm
        · apply Or.inr hmem
        · apply Or.inl hprev
      case marked =>
        intro hmarked hmem
        rw [hs.running]
        rw [hs.runQueue] at hmem
        rcases hmem with ⟨-, hmem | ⟨rfl, hprev⟩⟩
        · apply hmarked hmem
        · apply hprev

/-! ### The steps of the system -/

/-- The steps at which the thread `tp` stops itself, or another thread takes hold of it: it
has its flag `THREAD_RUNNING_FLAG` set in `signal`, it is taken off the run queue in
`rq_add_thread`, or the thread queue it is on is marked in `event_notify`. -/
def Seized (tp : T) (s : System T Q) (L : Root Q → List T) : Label T Q → Prop
  | .call (.sleep _) => tp = s.k.current
  | .run =>
      match s.pc s.k.current with
      | .waitStop => tp = s.k.current
      | .irqWaitStop => tp = s.k.current
      | .rawWaitAdd _ => tp = s.k.current
      | .signalRun u => u = tp
      | .addRemove u _ => u = tp ∧ (u = s.k.current ∨ s.k.links.queue u ≠ none)
      | .notifyDecide qp .null => tp ∈ L (.queue qp)
      | _ => False
  | _ => False

/-- The steps at which the thread `tp` may be put on the run queue. -/
def Adopted (tp : T) (s : System T Q) : Label T Q → Prop
  | .run => ∃ ret, s.pc s.k.current = .addLink tp ret
  | .pass => (s.k.thr tp).sleeping = true
  | .irqArrive u => u = tp
  | _ => False

namespace Fated

variable {s s' : System T Q} {cfg : Config Q}

theorem own (h : Fated a tp k L s.k) {f : Thread → Thread}
    (hf : ∀ th, (f th).running = th.running) :
  Fated a tp k L (s.own f).k
  := h.modify _ hf

theorem goto (h : Fated a tp k L s.k) (pc : Pc T Q) : Fated a tp k L (s.goto pc).k := h

/-- The function `preempt_disable` spares every thread. -/
theorem preemptDisable (h : Fated a tp k L s.k) : Fated a tp k L (s.preemptDisable cfg).k := by
  obtain ⟨n, hn⟩ := System.preemptDisable_eq cfg s
  rw [hn]
  apply h.own
  intro _; rfl

theorem preemptEnableNoResched (h : Fated a tp k L s.k) :
  Fated a tp k L (s.preemptEnableNoResched cfg).k
  := by
  obtain ⟨n, hn⟩ := System.preemptEnableNoResched_eq cfg s
  rw [hn]
  apply h.own
  intro _; rfl

theorem preemptEnable (h : Fated a tp k L s.k) : Fated a tp k L (s.preemptEnable cfg).k := by
  have hmodify (n : Int) :
      Fated a tp k L (s.own fun th => { th with preemptCnt := n }).k := by
    apply h.own
    intro _; rfl
  obtain ⟨n, hn | hn⟩ := System.preemptEnable_eq cfg s
  · rw [hn]
    apply hmodify
  · rw [hn]
    apply hmodify

/-- A thread queue without waiters gets another head. -/
theorem setQhead (h : Listed k L) {qp : Q} {v : Qhead T} (hL : L (.queue qp) = [])
    (hv : v = .signaled ∨ v = .ptr none) :
  Fated a tp k L (k.setQhead qp v)
  := by
  refine ⟨L, h.setQhead hL hv, .inl (Spared.of_lists ?_ ?_ ?_)⟩
  · rfl
  · rfl
  · rfl

/-- The mark of a thread queue is cleared. -/
theorem clear (h : Listed k L) {qp : Q} (hqp : k.links.head (.queue qp) = .signaled) :
  Fated a tp k L (k.setQhead qp (.ptr none))
  := by
  apply setQhead h _ (.inr rfl)
  apply h.linked.signaled _ hqp

/-- A thread queue is marked, on which the thread `tp` is not. -/
theorem mark (h : Listed k L) {qp : Q} (hqp : tp ∉ L (.queue qp)) :
  Fated a tp k L (k.setQhead qp .signaled)
  := by
  refine ⟨_, h.mark qp, .inl ?_⟩
  have hrunQueue : Function.update L (.queue qp) [] .runQueue = L .runQueue :=
    Function.update_of_ne (by simp) _ _
  constructor
  case queued =>
    intro q
    by_cases hq : q = qp
    · subst hq
      simp [hqp]
    · rw [Function.update_of_ne (by simpa using hq)]
  case wakes => rfl
  case ready =>
    rintro ⟨hready, hplace⟩
    use hready
    rw [hrunQueue]
    apply hplace
  case raised => apply Or.inl
  case fresh =>
    rintro ⟨hready, hplace⟩
    right
    use hready
    rwa [hrunQueue] at hplace
  case marked =>
    intro hmarked
    rw [hrunQueue]
    apply hmarked

/-- The current thread stops itself, and is queued to wait for an event. -/
theorem queueAddThread {i : T} (hwf : Wf i k L) {qp : Q}
    (hrunning : (k.thr k.current).running = true) (hi : k.current ≠ i)
    (honRq : (k.thr k.current).onRq = true) (htp : tp ≠ k.current)
    (hk : k.queueAddThread cfg qp k.current = some k') :
  Fated a tp k L k' ∧ k'.current = k.current
  := by
  obtain ⟨a, b, links, hab, rfl, hwf'⟩ := hwf.queueAddThread hrunning hi honRq hk
  refine ⟨⟨_, hwf'.listed, .inl ?_⟩, rfl⟩
  have hmem (r : Root Q) :
      tp ∈ Function.update L (.queue qp) (a ++ k.current :: b) r ↔ tp ∈ L r := by
    by_cases hr : r = .queue qp
    · rw [hr, Function.update_self, hab]
      simp [htp]
    · rw [Function.update_of_ne hr]
  apply Spared.of_mem
  · rfl
  · rfl
  · simp [htp]
  · apply hmem

/-- A thread that is on no list is put on the run queue. -/
theorem rqAddThreadLocked (h : Listed k L) {u : T} (ha : u = tp → a) (hout : ∀ r, u ∉ L r)
    (hk : k.rqAddThreadLocked cfg u = some k') :
  Fated a tp k L k'
  := by
  obtain ⟨k₁, hk₁, rfl⟩ := Option.map_eq_some_iff.mp hk
  obtain ⟨L', links, hadd, hlisted, rfl⟩ := h.addThread hout hk₁
  refine ⟨L', hlisted.congr rfl rfl, .inl ?_⟩
  apply Spared.added ha hadd
  · rfl
  · rfl
  · intro hu
    simp [Ne.symm hu]
  · rintro rfl
    simp

/-- The removal of `rq_add_thread` spares a thread that is not current and on no list. -/
theorem rawRqRemoveThreadNoresched (h : Listed k L) {u : T} {err : Int}
    (hu : u = tp → u ≠ k.current ∧ k.links.queue u = none)
    (hk : k.rawRqRemoveThreadNoresched u = some (k', err)) :
  Fated a tp k L k'
  := by
  rw [Kernel.rawRqRemoveThreadNoresched] at hk
  split at hk
  · obtain ⟨rfl, -⟩ := Prod.mk.inj (Option.some.inj hk)
    apply Fated.refl h
  · split at hk
    · rename_i hcurrent
      obtain ⟨rfl, -⟩ := Prod.mk.inj (Option.some.inj hk)
      have hne : tp ≠ u := by
        rintro rfl
        exact (hu rfl).1 hcurrent.symm
      refine ⟨L, h.congr rfl rfl, .inl (Spared.of_lists ?_ ?_ ?_)⟩
      · rfl
      · rfl
      · rw [Kernel.modify_thr_of_ne _ _ _ hne]
    · obtain ⟨⟨k₁, rc⟩, hk₁, hk⟩ := Option.map_eq_some_iff.mp hk
      obtain ⟨rfl, -⟩ := Prod.mk.inj hk
      have h₁ : Listed (k.modify u fun th => { th with running := false }) L :=
        h.congr rfl rfl
      obtain ⟨hlisted, num, links, rfl⟩ := h₁.rmThread hk₁
      refine ⟨_, hlisted.congr rfl rfl, .inl ?_⟩
      by_cases hne : u = tp
      · subst hne
        obtain ⟨hcurrent, hqueue⟩ := hu rfl
        have hout := h.linked.notMem hqueue
        apply Spared.of_off hcurrent hout
        · intro r hr
          exact hout r (RemovedFrom.mem hr)
        · rfl
        · simp
      · apply Spared.of_mem
        · rfl
        · rfl
        · simp [Ne.symm hne]
        · intro r
          constructor
          · apply RemovedFrom.mem
          · intro hr
            apply RemovedFrom.mem_of_ne hr (Ne.symm hne)

variable {i : T}

/-- The stages of `event_notify` behind its read of the head. -/
theorem notify (h : Listed s.k L) {qp : Q} {v : Sample}
    (hthread : v = .thread → s.sample qp = .thread) (hnull : v = .null → tp ∉ L (.queue qp))
    (hs : s.notify cfg qp v = some s') :
  Fated a tp s.k L s'.k
  := by
  cases v with
  | null =>
      obtain rfl := Option.some.inj hs
      apply Fated.mark h (hnull rfl)
  | signaled =>
      obtain rfl := Option.some.inj hs
      apply Fated.refl h
  | thread =>
      rw [System.notify] at hs
      split at hs
      · rename_i t ht
        obtain ⟨k, hk, rfl⟩ := Option.map_eq_some_iff.mp hs
        have hmem : t ∈ L (.queue qp) := List.mem_of_mem_head? (h.linked.head_eq ht)
        obtain ⟨L', hwoke⟩ := Woke.rawEventNotify h hmem hk
        exact ⟨L', hwoke.listed, hwoke.fate h⟩
      · rename_i hhead
        obtain ⟨t, ht⟩ := Qhead.sample_eq_thread.mp (hthread rfl)
        exact absurd ht (hhead t)

/-- The stages of `event_notify` with preemption disabled. -/
theorem notifyDecide (h : Listed s.k L) {qp : Q} {v : Sample}
    (hthread : v = .thread → s.sample qp = .thread) (hnull : v = .null → tp ∉ L (.queue qp))
    (hs : (s.preemptDisable cfg).notify cfg qp v = some s') :
  Fated a tp s.k L s'.k
  := by
  obtain ⟨n, hn⟩ := System.preemptDisable_eq cfg s
  rw [hn] at hs
  have h' : Listed (s.own fun th => { th with preemptCnt := n }).k L := h.congr rfl rfl
  obtain ⟨L', hlisted, hfate⟩ := notify h' hthread hnull hs
  have hspared : Spared a tp s.k L
      (s.k.modify s.k.current fun th => { th with preemptCnt := n }) L :=
    Spared.modify fun _ => rfl
  exact ⟨L', hlisted, Fate.trans (.inl hspared) hfate⟩

/-- The test of the head in `raw_event_wait`. -/
theorem rawWaitTest (h : Listed s.k L) (qp : Q) (ms : Nat) :
  Fated a tp s.k L (s.rawWaitTest cfg qp ms).k
  := by
  obtain ⟨n, hn⟩ := System.preemptDisable_eq cfg s
  rw [System.rawWaitTest, hn]
  dsimp only
  have hown : Fated a tp s.k L (s.own fun th => { th with preemptCnt := n }).k := by
    apply (Fated.refl h).own
    intro _; rfl
  split
  · rename_i hqp
    obtain ⟨L₁, hlisted, hfate⟩ := hown
    obtain ⟨L₂, hlisted₂, hfate₂⟩ := Fated.clear hlisted hqp
    exact Fated.preemptEnable (s := (s.own fun th => { th with preemptCnt := n }).setKernel _)
      ⟨L₂, hlisted₂, hfate.trans hfate₂⟩
  · apply hown

/-- The timer and the wake list of a thread that is about to wait. -/
theorem rawWaitPrepare (h : Listed s.k L) (qp : Q) (ms : Nat) :
  Fated a tp s.k L (s.rawWaitPrepare cfg qp ms).k
  := by
  rw [System.rawWaitPrepare]
  dsimp only
  set s₁ := if ms = 0 then _ else _ with hs₁
  have h₁ : Fated a tp s.k L s₁.k := by
    rw [hs₁]
    split
    · apply (Fated.refl h).own
      intro _; rfl
    · apply Fated.own
      · exact (Fated.refl h).congr rfl rfl rfl rfl rfl
      · intro _; rfl
  have h₂ : Fated a tp s.k L (s₁.own fun th => { th with rq := true }).k := by
    apply h₁.own
    intro _; rfl
  exact h₂.congr rfl rfl rfl rfl rfl

/-- The thread is queued, while it is not `tp`. -/
theorem rawWaitAdd (hwf : Wf i s.k L)
    (hrunning : (s.k.thr s.k.current).running = true) (hi : s.k.current ≠ i)
    (honRq : (s.k.thr s.k.current).onRq = true) (htp : tp ≠ s.k.current) {qp : Q}
    (hs : s.rawWaitAdd cfg qp = some s') :
  Fated a tp s.k L s'.k
  := by
  obtain ⟨k, hk, rfl⟩ := Option.map_eq_some_iff.mp hs
  obtain ⟨hfated, hcurrent⟩ := Fated.queueAddThread hwf hrunning hi honRq htp hk
  apply Fated.preemptEnableNoResched (s := s.setKernel (k.resetWakes k.current))
  have htp' : tp ≠ k.current := by rwa [hcurrent]
  apply hfated.congr
  · rfl
  · rfl
  · rfl
  · exact Function.update_of_ne htp' _ _
  · rfl

/-- The return from `raw_event_wait`. -/
theorem rawWaitReturn (h : Listed s.k L) : Fated a tp s.k L s.rawWaitReturn.k := by
  rw [System.rawWaitReturn]
  split
  · have hown : Fated a tp s.k L (s.own fun th => { th with timer := .null }).k := by
      apply (Fated.refl h).own
      intro _; rfl
    apply hown
  · apply Fated.refl h

/-- The end of `rq_add_thread`. -/
theorem addMark (h : Listed s.k L) (u : T) (ret : AddReturn) :
  Fated a tp s.k L (s.addMark cfg u ret).k
  := by
  have hmodify : Fated a tp s.k L
      (s.k.modify u fun th => { th with onRq := true, rq := true }) := by
    apply (Fated.refl h).modify
    intro _; rfl
  cases ret with
  | direct => apply hmodify
  | signal => apply hmodify
  | start =>
      exact Fated.preemptEnable (s := s.setKernel
        (s.k.modify u fun th => { th with onRq := true, rq := true })) hmodify

/-- The call of a function that does not stop the thread. -/
theorem call (h : Listed s.k L) {op : Op T Q} (hnot : ¬ Seized tp s L (.call op))
    (hs : s.call cfg op = some s') :
  Fated a tp s.k L s'.k
  := by
  have hrefl : Fated a tp s.k L s.k := Fated.refl h
  cases op with
  | sleep ms =>
      have htp : tp ≠ s.k.current := hnot
      simp only [System.call] at hs
      split at hs
      · obtain rfl := Option.some.inj hs
        apply hrefl.congr
        · rfl
        · rfl
        · rfl
        · rfl
        · simp [System.schedSetupSleepThread, System.own, System.setKernel, System.goto,
            Kernel.timerCreate, htp]
      · cases hs
  | wait =>
      obtain rfl := Option.some.inj hs
      apply Fated.goto
      apply hrefl.own
      intro _; rfl
  | signal u =>
      simp only [System.call] at hs
      split at hs
      · obtain rfl := Option.some.inj hs
        have hmodify :
            Fated a tp s.k L (s.k.modify u fun th => { th with waiting := false }) := by
          apply hrefl.modify
          intro _; rfl
        exact hmodify
      · obtain rfl := Option.some.inj hs
        apply hrefl
  | rqAddThread u =>
      obtain rfl := Option.some.inj hs
      apply hrefl
  | threadStart u =>
      obtain rfl := Option.some.inj hs
      apply hrefl.preemptDisable
  | yield =>
      obtain rfl := Option.some.inj hs
      apply hrefl
  | eventWait qp ms =>
      obtain rfl := Option.some.inj hs
      apply hrefl
  | rawEventWait qp ms =>
      obtain rfl := Option.some.inj hs
      apply hrefl
  | eventNotify qp =>
      obtain rfl := Option.some.inj hs
      apply hrefl
  | idleThreadFunc =>
      obtain rfl := Option.some.inj hs
      apply Fated.goto
      apply hrefl.own
      intro _; rfl
  | irqHandleFn =>
      obtain rfl := Option.some.inj hs
      apply hrefl

/-- The next stage of the current thread, at which `tp` is not seized. -/
theorem run (h : Sound i s) (hwf : Wf i s.k L) (hsched : s.sched s.k.current = .out)
    (horderly : orderlyRun s (s.pc s.k.current) = true) (hnot : ¬ Seized tp s L .run)
    (ha : Adopted tp s .run → a) (hs : s.run cfg = some s') :
  Fated a tp s.k L s'.k
  := by
  have hrefl : Fated a tp s.k L s.k := Fated.refl hwf.listed
  have hrunning (hpc : (s.pc s.k.current).stopping = false) := h.running hsched hpc
  rw [System.run] at hs
  rw [Seized] at hnot
  cases hpc : s.pc s.k.current <;> rw [hpc] at hs horderly hnot hrunning
  case user => cases hs
  case waitResched | irqLoop | irqWaitResched =>
    obtain rfl := Option.some.inj hs
    apply Fated.goto
    apply hrefl.own
    intro _; rfl
  case waitStop | irqWaitStop =>
    obtain rfl := Option.some.inj hs
    have htp : tp ≠ s.k.current := hnot
    apply hrefl.congr
    · rfl
    · rfl
    · rfl
    · rfl
    · simp [System.own, System.goto, htp]
  case signalRun u =>
    obtain rfl := Option.some.inj hs
    have hu : u ≠ tp := hnot
    apply hrefl.congr
    · rfl
    · rfl
    · rfl
    · rfl
    · simp [System.setKernel, System.goto, Ne.symm hu]
  case addTest u ret =>
    dsimp only at hs
    split at hs
    · obtain rfl := Option.some.inj hs
      apply hrefl
    · obtain rfl := Option.some.inj hs
      apply hrefl
  case addRemove u ret =>
    obtain ⟨⟨k, err⟩, hk, rfl⟩ := Option.map_eq_some_iff.mp hs
    apply Fated.rawRqRemoveThreadNoresched hwf.listed _ hk
    intro hu
    have hoff := not_and.mp hnot hu
    rw [not_or, not_not] at hoff
    exact hoff
  case addLink u ret =>
    obtain ⟨k, hk, rfl⟩ := Option.map_eq_some_iff.mp hs
    simp only [orderlyRun, Kernel.addable, Bool.and_eq_true, decide_eq_true_eq] at horderly
    apply Fated.rqAddThreadLocked hwf.listed _ (hwf.listed.linked.notMem horderly.1.2) hk
    rintro rfl
    exact ha ⟨ret, hpc⟩
  case addMark u ret =>
    obtain rfl := Option.some.inj hs
    apply Fated.addMark hwf.listed
  case yieldTest =>
    obtain ⟨s₁, hs₁, rfl⟩ := Option.map_eq_some_iff.mp hs
    obtain ⟨next, -, rfl⟩ := Option.map_eq_some_iff.mp hs₁
    split
    · apply Fated.goto
      apply hrefl.own
      intro _; rfl
    · apply hrefl
  case eventWaitDiscard qp ms =>
    dsimp only at hs
    split at hs
    · rename_i hqp
      obtain rfl := Option.some.inj hs
      apply Fated.clear hwf.listed hqp
    · obtain rfl := Option.some.inj hs
      apply hrefl
  case rawWaitTest qp ms =>
    obtain rfl := Option.some.inj hs
    apply Fated.rawWaitTest hwf.listed
  case rawWaitPrepare qp ms =>
    dsimp only at hs
    split at hs
    · obtain rfl := Option.some.inj hs
      apply Fated.rawWaitPrepare hwf.listed
    · cases hs
  case rawWaitAdd qp =>
    have hi : s.k.current ≠ i := h.not_idle (by rw [hpc]; rfl)
    apply Fated.rawWaitAdd hwf (hrunning rfl) hi horderly hnot hs
  case rawWaitReturn qp =>
    obtain rfl := Option.some.inj hs
    apply Fated.rawWaitReturn hwf.listed
  case notifyDecide qp v =>
    obtain ⟨s₁, hs₁, rfl⟩ := Option.map_eq_some_iff.mp hs
    apply Fated.goto
    apply Fated.preemptEnable
    apply Fated.notifyDecide hwf.listed _ _ hs₁
    · rintro rfl
      simpa [orderlyRun] using horderly
    · rintro rfl
      exact hnot
  all_goals
    obtain rfl := Option.some.inj hs
    apply hrefl

/-- The current thread runs `__schedule`. -/
theorem pass (hwf : Wf i s.k L) (hleaves : s.k.leaves cfg = true)
    (howns : ∀ timer ∈ s.k.expiredTimers, s.k.owns s.k.current timer = false)
    (ha : Adopted tp s .pass → a) (hk : s.k.schedulePass cfg = some k') :
  Fated a tp s.k L k'
  := by
  obtain ⟨k₁, L₁, L', hevents, hdecided⟩ := hwf.schedulePass (hwf.leaves hleaves) howns hk
  obtain ⟨hwf', -⟩ := (hwf.events hevents).decided hdecided
  exact ⟨L', hwf'.listed, (hevents.fate hwf.listed ha).trans hdecided.fate⟩

/-- A device interrupt that notifies a queue. -/
theorem eventNotifyIrq (h : Listed s.k L) (qp : Q) : Fated a tp s.k L (s.eventNotifyIrq qp).k := by
  have hspared {links : Links T (Root Q)} {irqCalls : Q → Nat} {irqStart : Q → Nat × Nat}
      (hlisted : Listed { s.k with links } L) :
      Fated a tp s.k L { s.k with links, irqCalls, irqStart } :=
    ⟨L, hlisted.congr rfl rfl, .inl (.of_lists rfl rfl rfl)⟩
  rw [System.eventNotifyIrq]
  dsimp only
  split
  · apply hspared (h.setEc _)
  · rename_i hqp
    apply hspared
    have hL : L (.queue qp) = [] := by
      have hchain := h.linked.chain _ _ hqp
      rwa [Chain.IsChain.nil_iff] at hchain
    exact (h.setQhead hL (.inl rfl)).congr rfl rfl
  · apply hspared h

/-- A device interrupt that triggers an interrupt thread. -/
theorem irqThreadSignal (h : Listed s.k L) {u : T} (ha : u = tp → a)
    (hu : (s.k.thr u).onRq = true ∨ s.k.addable u = true)
    (hs : s.irqThreadSignal cfg u = some s') :
  Fated a tp s.k L s'.k
  := by
  rw [System.irqThreadSignal] at hs
  dsimp only at hs
  split at hs
  · obtain rfl := Option.some.inj hs
    apply Fated.refl h
  · rename_i honRq
    have hadd := hu.resolve_left honRq
    simp only [Kernel.addable, Bool.and_eq_true, decide_eq_true_eq] at hadd
    have hout := h.linked.notMem hadd.1.2
    obtain ⟨k, hk, rfl⟩ := Option.map_eq_some_iff.mp hs
    have h₁ : Listed (s.k.modify u fun th => { th with running := true, waiting := false }) L :=
      h.congr rfl rfl
    obtain ⟨L', links, hadded, hlisted, rfl⟩ := h₁.rawRqAddThread hout hk
    apply Fated.own
    · refine ⟨L', hlisted, .inl (Spared.added ha hadded ?_ ?_ ?_ ?_)⟩
      · rfl
      · rfl
      · intro hne
        simp [System.setKernel, Ne.symm hne]
      · rintro rfl
        simp [System.setKernel]
    · intro _; rfl

end Fated

/-- The lists that the links represent are those of the invariant. -/
theorem Sound.wf_of_listed {i : T} {s : System T Q} (h : Sound i s) (hL : Listed s.k L) :
  Wf i s.k L
  := by
  obtain ⟨L', hwf⟩ := h.wf
  rwa [hL.linked.unique hwf.listed.linked]

/-- An orderly step at which the thread `tp` is not seized spares the thread or rouses it. -/
theorem Sound.fate {i : T} {s s' : System T Q} {cfg : Config Q} (h : Sound i s)
    (hwf : Wf i s.k L) {l : Label T Q} (hl : orderly cfg s l = true) (hnot : ¬ Seized tp s L l)
    (hs : s.step cfg l = some s') :
  Fated (Adopted tp s l) tp s.k L s'.k
  := by
  have hrefl : Fated (Adopted tp s l) tp s.k L s.k := Fated.refl hwf.listed
  rw [System.step] at hs
  split at hs
  · cases hs
  · cases l with
    | call op =>
        dsimp only [System.next] at hs
        split at hs
        · apply Fated.call hwf.listed hnot hs
        · cases hs
    | run =>
        dsimp only [System.next] at hs
        split at hs
        · rename_i hsched
          apply Fated.run h hwf hsched hl hnot id hs
        · cases hs
    | pass =>
        dsimp only [System.next] at hs
        split at hs
        · obtain ⟨k, hk, rfl⟩ := Option.map_eq_some_iff.mp hs
          simp only [orderly, Bool.and_eq_true] at hl
          apply Fated.pass hwf hl.1 _ id hk
          simpa using hl.2
        · cases hs
    | test =>
        dsimp only [System.next] at hs
        split at hs
        · obtain rfl := Option.some.inj hs
          apply hrefl
        · cases hs
    | interrupt slice =>
        dsimp only [System.next] at hs
        split at hs
        · obtain rfl := Option.some.inj hs
          have hown : Fated (Adopted tp s (.interrupt slice)) tp s.k L (s.own fun th =>
              { th with preemptNeedResched := th.preemptNeedResched || slice }).k := by
            apply hrefl.own
            intro _; rfl
          split <;> apply hown
        · cases hs
    | tick n =>
        obtain rfl := Option.some.inj hs
        exact hrefl.congr rfl rfl rfl rfl rfl
    | irqNotify qp =>
        obtain rfl := Option.some.inj hs
        apply Fated.eventNotifyIrq hwf.listed
    | irqArrive u =>
        apply Fated.irqThreadSignal hwf.listed id _ hs
        simpa [orderly] using hl

end Etaos
