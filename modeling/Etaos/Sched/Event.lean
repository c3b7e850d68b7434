import Etaos.Sched.Wake

/-!
# The events of a pass

Before `__schedule` chooses the next thread, it runs the expired timers and signals the
threads that were notified from interrupts.  `Event` lists what these do to the kernel, one
change at a time, and `Events` their sequences.  What every event preserves, a pass
preserves up to the choice of the next thread.
-/

set_option linter.unusedSectionVars false

namespace Etaos

variable {T Q : Type} [DecidableEq T] [DecidableEq Q] [Fintype T]

/-- The thread that the handle of a timer puts on the run queue when it is not on a thread
queue. -/
def Timer.sleeper (timer : Timer T Q) : Option T :=
  match timer.handle with
  | .schedSleepTimeout tp => some tp
  | .eventTmo _ => none

/-- Whether a timer belongs to the thread `tp`. -/
def Kernel.owns (k : Kernel T Q) (tp : T) (timer : Timer T Q) : Bool :=
  match timer.handle with
  | .schedSleepTimeout t => t = tp
  | .eventTmo _ => (k.thr tp).timer = .timer timer.id

/-- The wake-up of the thread `tp`, which sleeps and is not current. -/
structure Awoke (tp : T) (k : Kernel T Q) (L : Root Q → List T) (k' : Kernel T Q)
    (L' : Root Q → List T) : Prop where
  sleeping : (k.thr tp).sleeping = true
  timers : tp ∉ k.timers.filterMap Timer.sleeper
  current : tp ≠ k.current
  list : AddedTo L tp L'
  listed : Listed k' L'
  eq : ∃ num links, k' = { k with num, links }.modify tp fun th =>
    { th with sleeping := false, running := true, onRq := true, rq := true }
  head : ∀ qp, k'.links.head (.queue qp) = k.links.head (.queue qp)
  recount : Recount k.links L k'.links L'

/-- A change that the timers and the notifications from interrupts make to the kernel. -/
inductive Event (k : Kernel T Q) (L : Root Q → List T) :
    Kernel T Q → (Root Q → List T) → Prop
  /-- A timer that has expired is taken off the clock source. -/
  | timer (timer : Timer T Q) (l : List (Timer T Q)) (htimers : k.timers = timer :: l) :
      Event k L { k with timers := l } L
  /-- The current thread is asked to give way. -/
  | resched (b : Bool) : Event k L
      (k.modify k.current fun th => { th with needResched := th.needResched || b }) L
  /-- A waiter that is not current is woken by its timeout. -/
  | timeout (qp : Q) (tp : T) (k' : Kernel T Q) (L' : Root Q → List T) (hne : tp ≠ k.current)
      (hwoke : Woke qp tp k L k' L') : Event k L k' L'
  /-- A sleeper that is not current is woken by its timeout. -/
  | awoke (tp : T) (k' : Kernel T Q) (L' : Root Q → List T) (hawoke : Awoke tp k L k' L') :
      Event k L k' L'
  /-- One turn of the loop of `rq_signal_threads`. -/
  | signal (iterator : T) (k' : Kernel T Q) (L' : Root Q → List T)
      (hturn : SignalTurn iterator k L k' L') : Event k L k' L'

/-- A sequence of such changes. -/
inductive Events (k : Kernel T Q) (L : Root Q → List T) :
    Kernel T Q → (Root Q → List T) → Prop
  | refl : Events k L k L
  | step {k₁ k₂ : Kernel T Q} {L₁ L₂ : Root Q → List T} :
      Events k L k₁ L₁ → Event k₁ L₁ k₂ L₂ → Events k L k₂ L₂

namespace Events

variable {k k₁ k₂ : Kernel T Q} {L L₁ L₂ : Root Q → List T}

/-- What every event preserves, a sequence of events preserves. -/
theorem invariant (I : Kernel T Q → (Root Q → List T) → Prop)
    (hstep : ∀ k L k' L', I k L → Event k L k' L' → I k' L')
    (h : Events k L k₁ L₁) (hI : I k L) :
  I k₁ L₁
  := by
  induction h with
  | refl => apply hI
  | step _ hevent ih => apply hstep _ _ _ _ ih hevent

theorem trans (h₁ : Events k L k₁ L₁) (h₂ : Events k₁ L₁ k₂ L₂) : Events k L k₂ L₂ := by
  induction h₂ with
  | refl => apply h₁
  | step _ hevent ih => apply ih.step hevent

theorem single (h : Event k L k₁ L₁) : Events k L k₁ L₁ :=
  Events.refl.step h

end Events

namespace Event

variable {k k' : Kernel T Q} {L L' : Root Q → List T}

/-- The current thread stays. -/
theorem current (h : Event k L k' L') : k'.current = k.current := by
  cases h with
  | timer => rfl
  | resched => rfl
  | timeout _ _ _ _ _ hwoke => apply hwoke.current
  | awoke _ _ _ hawoke =>
      obtain ⟨num, links, rfl⟩ := hawoke.eq
      rfl
  | signal _ _ _ hturn =>
      cases hturn with
      | skip => rfl
      | marked => rfl
      | woke _ _ _ _ _ _ _ hwoke => apply hwoke.current

/-- The lists stay represented. -/
theorem listed (h : Event k L k' L') (hk : Listed k L) : Listed k' L' := by
  cases h with
  | timer => exact hk.congr rfl rfl
  | resched => exact hk.congr rfl rfl
  | timeout _ _ _ _ _ hwoke => apply hwoke.listed
  | awoke _ _ _ hawoke => apply hawoke.listed
  | signal _ _ _ hturn =>
      cases hturn with
      | skip => apply hk
      | marked => apply hk.setEc
      | woke _ _ _ _ _ _ _ hwoke => apply hwoke.listed

end Event

/-- The timeout of a thread that sleeps and is not current. -/
theorem Awoke.intro {k k' : Kernel T Q} {L : Root Q → List T} {cfg : Config Q} {tp : T}
    (h : Listed k L) (hsleeping : (k.thr tp).sleeping = true)
    (htimers : tp ∉ k.timers.filterMap Timer.sleeper) (hcurrent : tp ≠ k.current)
    (hout : ∀ r, tp ∉ L r) (hk : k.schedSleepTimeout cfg tp = some k') :
  ∃ L', Awoke tp k L k' L'
  := by
  rw [Kernel.schedSleepTimeout] at hk
  have h₁ : Listed (k.modify tp fun th => { th with sleeping := false, running := true }) L :=
    h.congr rfl rfl
  obtain ⟨L', links, hadd, hlisted, hk'⟩ := h₁.rawRqAddThread hout hk
  obtain ⟨hhead, hrecount⟩ := h₁.rawRqAddThread_frame hout hk hlisted
  use L'
  constructor
  case sleeping => apply hsleeping
  case timers => apply htimers
  case current => apply hcurrent
  case list => apply hadd
  case listed => apply hlisted
  case eq =>
    refine ⟨k.num + 1, links, ?_⟩
    rw [hk']
    simp [Kernel.modify]
  case head => apply hhead
  case recount => apply hrecount

end Etaos
