import Etaos.Sched.Fate
import Etaos.Sched.Stage

/-!
# The handshake of `wait` and `signal`

The function `wait` sets `THREAD_WAITING_FLAG`, clears `THREAD_RUNNING_FLAG` and calls
`schedule`, with preemption enabled.  The function `signal` clears the one flag, sets the
other, and puts the thread on the run queue.

A signal is lost when it comes between the two stages of `wait`: the thread has been
preempted there and is on the run queue, `rq_add_thread` takes it off and puts it back, and
then the thread clears the flag that the signal has set.
-/

set_option linter.unusedSectionVars false

namespace Etaos

variable {T Q : Type} [DecidableEq T] [DecidableEq Q]

/-- The stages of `wait`. -/
def Pc.inWait : Pc T Q → Bool
  | .waitResched => true
  | .waitStop => true
  | .waitSchedule => true
  | .waitReturn => true
  | _ => false

/-- The stages of `wait` at which the thread has cleared `THREAD_RUNNING_FLAG`. -/
def Pc.waitStopped : Pc T Q → Bool
  | .waitSchedule => true
  | .waitReturn => true
  | _ => false

/-- The stages of `signal` for the thread `tp`, up to the insertion into the run queue. -/
def Pc.signals (tp : T) : Pc T Q → Bool
  | .signalRun u => u = tp
  | .addTest u ret => u = tp && ret = .signal
  | .addRemove u ret => u = tp && ret = .signal
  | .addSchedule u ret => u = tp && ret = .signal
  | .addLink u ret => u = tp && ret = .signal
  | _ => false

/-- The thread `tp` returns from the `wait` it is in: it is runnable and does not stop itself
again, or a runnable thread that signals it has yet to put it on the run queue. -/
structure System.Returns (s : System T Q) (tp : T) : Prop where
  inWait : (s.pc tp).inWait = true
  answered : (s.pc tp).waitStopped = true ∧ Runnable s.k tp ∨
    ∃ u, (s.pc u).signals tp = true ∧ Runnable s.k u

/-- The steps at which no signal for the thread `tp` is lost: in `rq_add_thread` the thread is
never found on the run queue, as it is when it was preempted in `wait`.

The thread is no interrupt thread, no other function puts it on the run queue while it is in
`wait`, and a thread that signals it is not taken off the run queue. -/
def handshaking [Fintype T] (cfg : Config Q) (tp : T) (s : System T Q) (l : Label T Q) : Bool :=
  orderly cfg s l &&
    match l with
    | .run =>
        match s.pc s.k.current with
        | .addRemove u _ =>
            (u ≠ tp && !(s.pc u).signals tp) || s.k.links.queue u = none
        | .addLink u ret => u ≠ tp || ret = .signal || !(s.pc tp).inWait
        | .irqLoop => s.k.current ≠ tp
        | _ => true
    | .irqArrive u => u ≠ tp
    | _ => true

namespace Pc

/-- A thread that signals goes on doing so up to the insertion. -/
theorem Follows.signals {pc pc' : Pc T Q} (h : pc.Follows pc') {tp : T}
    (hpc' : pc'.signals tp = true) :
  pc.signals tp = true
  := by
  cases pc
  case signalRun =>
    obtain rfl := h
    simpa [Pc.signals] using hpc'
  case addTest =>
    rcases h with rfl | rfl <;> simpa [Pc.signals] using hpc'
  case addRemove =>
    rcases h with rfl | rfl <;> simpa [Pc.signals] using hpc'
  case addSchedule =>
    obtain rfl := h
    simpa [Pc.signals] using hpc'
  case user => cases h
  case rawWaitTest =>
    rcases h with rfl | rfl <;> cases hpc'
  case notifySample =>
    obtain ⟨v, rfl⟩ := h
    cases hpc'
  case addMark =>
    obtain rfl := h
    split at hpc' <;> cases hpc'
  all_goals
    obtain rfl := h
    cases hpc'

/-- A thread that signals stops doing so at the insertion only. -/
theorem Follows.signals_of_ne {pc pc' : Pc T Q} (h : pc.Follows pc') {tp : T}
    (hpc : pc.signals tp = true) (hne : pc ≠ .addLink tp .signal) :
  pc'.signals tp = true
  := by
  cases pc
  case signalRun =>
    obtain rfl := h
    simpa [Pc.signals] using hpc
  case addTest =>
    rcases h with rfl | rfl <;> simpa [Pc.signals] using hpc
  case addRemove =>
    rcases h with rfl | rfl <;> simpa [Pc.signals] using hpc
  case addSchedule =>
    obtain rfl := h
    simpa [Pc.signals] using hpc
  case addLink u ret =>
    simp only [Pc.signals, Bool.and_eq_true, decide_eq_true_eq] at hpc
    obtain ⟨rfl, rfl⟩ := hpc
    exact absurd rfl hne
  all_goals cases hpc

/-- A stage of `wait` follows another one. -/
theorem Follows.inWait {pc pc' : Pc T Q} (h : pc.Follows pc') (hpc' : pc'.inWait = true) :
  pc.inWait = true ∧ (pc'.waitStopped = true ↔ pc.waitStopped = true ∨ pc = .waitStop)
  := by
  cases pc
  case user => cases h
  case addTest | addRemove | rawWaitTest =>
    rcases h with rfl | rfl <;> cases hpc'
  case notifySample =>
    obtain ⟨v, rfl⟩ := h
    cases hpc'
  case addMark =>
    obtain rfl := h
    split at hpc' <;> cases hpc'
  case waitResched | waitStop | waitSchedule =>
    obtain rfl := h
    simp [Pc.inWait, Pc.waitStopped]
  all_goals
    obtain rfl := h
    cases hpc'

/-- A thread leaves `wait` from its last stage. -/
theorem Follows.waitReturn {pc pc' : Pc T Q} (h : pc.Follows pc') (hpc : pc.inWait = true)
    (hpc' : pc'.inWait = false) :
  pc = .waitReturn
  := by
  cases pc
  case waitReturn => rfl
  case waitResched | waitStop | waitSchedule =>
    obtain rfl := h
    cases hpc'
  all_goals cases hpc

end Pc

variable [Fintype T]

/-! ### The flags of a thread -/

/-- No thread has its flag `THREAD_WAITING_FLAG` changed, and none falls asleep. -/
structure Kept (k k' : Kernel T Q) : Prop where
  waiting : ∀ u, (k'.thr u).waiting = (k.thr u).waiting
  sleeping : ∀ u, (k'.thr u).sleeping = true → (k.thr u).sleeping = true

section

variable {k k₁ k' : Kernel T Q} {L L' : Root Q → List T}

theorem Kept.refl (k : Kernel T Q) : Kept k k := ⟨fun _ => rfl, fun _ => id⟩

theorem Kept.trans (h : Kept k k₁) (h' : Kept k₁ k') : Kept k k' := by
  constructor
  case waiting =>
    intro u
    rw [h'.waiting, h.waiting]
  case sleeping =>
    intro u hsleeping
    apply h.sleeping u (h'.sleeping u hsleeping)

theorem Woke.kept {qp : Q} {tp : T} (h : Woke qp tp k L k' L') : Kept k k' := by
  constructor
  case waiting =>
    intro u
    by_cases hu : u = tp
    · obtain ⟨timer, hthr⟩ := h.woken
      rw [hu, hthr]
    · obtain ⟨b, hthr⟩ := h.thread u hu
      rw [hthr]
  case sleeping =>
    intro u hsleeping
    rw [← h.sleeping, hsleeping]

theorem Event.kept (h : Event k L k' L') : Kept k k' := by
  constructor
  case waiting =>
    intro u
    cases h with
    | timer => rfl
    | resched b =>
        by_cases hu : u = k.current
        · simp [hu]
        · simp [hu]
    | timeout qp tp _ _ _ hwoke => apply hwoke.kept.waiting
    | awoke tp _ _ hawoke =>
        obtain ⟨num, links, rfl⟩ := hawoke.eq
        by_cases hu : u = tp
        · simp [hu]
        · simp [hu]
    | signal iterator _ _ hturn =>
        cases hturn with
        | skip => rfl
        | marked => rfl
        | woke qp tp _ _ _ _ _ hwoke => exact hwoke.kept.waiting u
  case sleeping =>
    intro u
    apply h.sleeping

theorem Events.kept (h : Events k L k' L') : Kept k k' := by
  apply h.invariant fun k₁ _ => Kept k k₁
  · intro k₁ L₁ k₂ L₂ hkept hevent
    apply hkept.trans hevent.kept
  · apply Kept.refl

theorem Decided.kept (h : Decided k L k' L') : Kept k k' := by
  cases h with
  | stay needResched preemptNeedResched _ =>
      constructor
      case waiting =>
        intro u
        by_cases hu : u = k.current
        · simp [hu]
        · simp [hu]
      case sleeping =>
        intro u hsleeping
        by_cases hu : u = k.current
        · simpa [hu] using hsleeping
        · simpa [hu] using hsleeping
  | switch next _ _ _ _ hs =>
      have hthr (u : T) : (k'.thr u).waiting = (k.thr u).waiting ∧
          (k'.thr u).sleeping = (k.thr u).sleeping := by
        by_cases hu : u = k.current
        · obtain ⟨dprio, needResched, preemptNeedResched, rq, hprev⟩ := hs.prev_thread
          rw [hu, hprev]
          exact ⟨rfl, rfl⟩
        · obtain ⟨dprio, hthread⟩ := hs.thread u hu
          rw [hthread]
          exact ⟨rfl, rfl⟩
      constructor
      case waiting =>
        intro u
        apply (hthr u).1
      case sleeping =>
        intro u hsleeping
        rw [← (hthr u).2, hsleeping]

end

namespace System

variable {i tp : T} {s s' : System T Q} {cfg : Config Q} {L : Root Q → List T}

/-- The function `__schedule` changes no flag `THREAD_WAITING_FLAG` and puts no thread to
sleep. -/
theorem pass_kept (hwf : Wf i s.k L) (hl : orderly cfg s .pass = true)
    (hs : s.step cfg .pass = some s') :
  Kept s.k s'.k
  := by
  rw [step] at hs
  split at hs
  · cases hs
  · dsimp only [next] at hs
    split at hs
    · obtain ⟨k, hk, rfl⟩ := Option.map_eq_some_iff.mp hs
      simp only [orderly, Bool.and_eq_true] at hl
      obtain ⟨k₁, L₁, L', hevents, hdecided⟩ :=
        hwf.schedulePass (hwf.leaves hl.1) (by simpa using hl.2) hk
      apply hevents.kept.trans hdecided.kept
    · cases hs

/-- The flags `THREAD_WAITING_FLAG` behind an orderly step. -/
theorem step_waiting (hwf : Wf i s.k L) {l : Label T Q} (hl : orderly cfg s l = true)
    (hs : s.step cfg l = some s') :
  s'.waiting = s.waitingBy l
  := by
  by_cases hpass : l = .pass
  · subst hpass
    funext u
    exact (pass_kept hwf hl hs).waiting u
  · exact (step_moved hs).waiting hpass

/-- A thread other than the current one does not fall asleep at an orderly step. -/
theorem step_awake (hwf : Wf i s.k L) {l : Label T Q} (hl : orderly cfg s l = true)
    (hs : s.step cfg l = some s') (hawake : (s.k.thr tp).sleeping = false)
    (hne : ¬ ((∃ ms, l = .call (.sleep ms)) ∧ tp = s.k.current)) :
  (s'.k.thr tp).sleeping = false
  := by
  by_contra hsleeping
  have hbefore : (s.k.thr tp).sleeping = true := by
    by_cases hpass : l = .pass
    · subst hpass
      exact (pass_kept hwf hl hs).sleeping tp (by simpa using hsleeping)
    · apply ((step_moved hs).sleeping hpass tp (by simpa using hsleeping)).resolve_right hne
  rw [hawake] at hbefore
  cases hbefore

namespace Moved

variable {l : Label T Q}

/-- A thread that signals has done so before, or calls `signal`. -/
theorem signals_cases (h : Moved s l s') {u : T} (hu : (s'.pc u).signals tp = true) :
  (s.pc u).signals tp = true ∨
    u = s.k.current ∧ s.pc u = .user ∧ l = .call (.signal tp) ∧ s.waiting tp = true
  := by
  rcases h.pc_cases u with hpc | ⟨hcurrent, huser, op, hl, hacts, hpc⟩ | ⟨-, -, hfollows⟩
  · left
    rwa [← hpc]
  · right
    rw [hpc] at hu
    cases op with
    | signal v =>
        obtain rfl : v = tp := by simpa [Op.stage, Pc.signals] using hu
        exact ⟨hcurrent, huser, hl, hacts⟩
    | rqAddThread | threadStart => simp [Op.stage, Pc.signals] at hu
    | _ => cases hu
  · left
    apply hfollows.signals hu

/-- A thread goes on signalling up to the insertion. -/
theorem signals_of (h : Moved s l s') {u : T} (hu : (s.pc u).signals tp = true)
    (hne : ¬ (l = .run ∧ u = s.k.current ∧ s.pc u = .addLink tp .signal)) :
  (s'.pc u).signals tp = true
  := by
  rcases h.pc_cases u with hpc | ⟨-, huser, -⟩ | ⟨hcurrent, hl, hfollows⟩
  · rwa [hpc]
  · rw [huser] at hu
    cases hu
  · apply hfollows.signals_of_ne hu
    intro hpc
    exact hne ⟨hl, hcurrent, hpc⟩

/-- A thread in `wait` was there before, or calls it. -/
theorem inWait_cases (h : Moved s l s') (hwait : (s'.pc tp).inWait = true) :
  (s.pc tp).inWait = true ∨
    tp = s.k.current ∧ s.pc tp = .user ∧ l = .call .wait ∧ s'.pc tp = .waitResched
  := by
  rcases h.pc_cases tp with hpc | ⟨hcurrent, huser, op, hl, -, hpc⟩ | ⟨-, -, hfollows⟩
  · left
    rwa [← hpc]
  · right
    rw [hpc] at hwait
    cases op with
    | wait => exact ⟨hcurrent, huser, hl, hpc⟩
    | _ => cases hwait
  · left
    apply (hfollows.inWait hwait).1

/-- A thread leaves `wait` from its last stage. -/
theorem waitReturn (h : Moved s l s') (hwait : (s.pc tp).inWait = true)
    (hwait' : (s'.pc tp).inWait = false) :
  tp = s.k.current ∧ l = .run ∧ s.pc tp = .waitReturn
  := by
  rcases h.pc_cases tp with hpc | ⟨-, huser, -⟩ | ⟨hcurrent, hl, hfollows⟩
  · rw [hpc, hwait] at hwait'
    cases hwait'
  · rw [huser] at hwait
    cases hwait
  · exact ⟨hcurrent, hl, hfollows.waitReturn hwait hwait'⟩

/-- A thread in `wait` has stopped itself before, or does so. -/
theorem waitStopped_iff (h : Moved s l s') (hwait : (s.pc tp).inWait = true)
    (hwait' : (s'.pc tp).inWait = true) :
  (s'.pc tp).waitStopped = true ↔
    (s.pc tp).waitStopped = true ∨ l = .run ∧ tp = s.k.current ∧ s.pc tp = .waitStop
  := by
  rcases h.pc_cases tp with hpc | ⟨-, huser, -⟩ | ⟨hcurrent, hl, hfollows⟩
  · rw [hpc]
    constructor
    · apply Or.inl
    · rintro (hstopped | ⟨rfl, hcurrent, hstop⟩)
      · apply hstopped
      · obtain ⟨pc, hfollows, hpc'⟩ := h.pc
        rw [hpc', hcurrent, Function.update_self, ← hcurrent, hstop] at hpc
        rw [← hcurrent, hstop] at hfollows
        cases hfollows.symm.trans hpc
  · rw [huser] at hwait
    cases hwait
  · rw [(hfollows.inWait hwait').2]
    apply or_congr_right
    constructor
    · intro hstop
      exact ⟨hl, hcurrent, hstop⟩
    · rintro ⟨-, -, hstop⟩
      exact hstop

/-- A thread was signalled before, or is signalled. -/
theorem signalled_cases (h : Moved s l s') (hsignalled : s'.signalled tp = true) :
  s.signalled tp = true ∨ l = .call (.signal tp) ∧ s.waiting tp = true
  := by
  rw [h.signalled] at hsignalled
  cases l with
  | call op =>
      cases op with
      | signal u =>
          rw [signalledBy] at hsignalled
          split at hsignalled
          · rename_i hwaiting
            by_cases hu : tp = u
            · subst hu
              exact .inr ⟨rfl, hwaiting⟩
            · rw [Function.update_of_ne hu] at hsignalled
              apply Or.inl hsignalled
          · apply Or.inl hsignalled
      | _ => apply Or.inl hsignalled
  | run =>
      rw [signalledBy_run] at hsignalled
      left
      split at hsignalled
      · by_cases hu : tp = s.k.current
        · simp [hu] at hsignalled
        · rwa [Function.update_of_ne hu] at hsignalled
      · apply hsignalled
  | pass | test | interrupt | tick | irqNotify | irqArrive => apply Or.inl hsignalled

/-- A thread that was signalled stays so up to its return from `wait`. -/
theorem signalled_of (h : Moved s l s') (hsignalled : s.signalled tp = true)
    (hne : ¬ (l = .run ∧ tp = s.k.current ∧ s.pc tp = .waitReturn)) :
  s'.signalled tp = true
  := by
  rw [h.signalled]
  cases l with
  | call op =>
      cases op with
      | signal u =>
          rw [signalledBy]
          split
          · by_cases hu : tp = u
            · rw [hu, Function.update_self]
            · rw [Function.update_of_ne hu, hsignalled]
          · apply hsignalled
      | _ => apply hsignalled
  | run =>
      rw [signalledBy_run]
      split
      · rename_i hpc
        have hu : tp ≠ s.k.current := by
          rintro rfl
          exact hne ⟨rfl, rfl, hpc⟩
        rw [Function.update_of_ne hu, hsignalled]
      · apply hsignalled
  | pass | test | interrupt | tick | irqNotify | irqArrive => apply hsignalled

end Moved

end System

/-- The steps of a handshake keep the run queue. -/
theorem orderly_of_handshaking {cfg : Config Q} {tp : T} {s : System T Q} {l : Label T Q}
    (hl : handshaking cfg tp s l = true) :
  orderly cfg s l = true
  := by
  simp only [handshaking, Bool.and_eq_true] at hl
  apply hl.1

/-- What holds of the thread `tp` and of the threads that signal it. -/
structure Handshake (i tp : T) (s : System T Q) (L : Root Q → List T) : Prop where
  wf : Wf i s.k L
  inWait : s.signalled tp = true → (s.pc tp).inWait = true
  waiting : s.waiting tp = true → (s.pc tp).inWait = true ∧ s.signalled tp = false
  waits : (s.pc tp).inWait = true → s.waiting tp = true ∨ s.signalled tp = true
  awake : (s.pc tp).inWait = true → (s.k.thr tp).sleeping = false
  out : (s.pc tp).inWait = true → ∀ qp, tp ∉ L (.queue qp)
  marked : (s.pc tp).inWait = true → tp ∈ L .runQueue → (s.k.thr tp).running = true
  ready : (s.pc tp).inWait = true → (s.pc tp).waitStopped = false → Ready tp s.k L
  placed : (s.pc tp).inWait = true → (s.pc tp).waitStopped = true → Ready tp s.k L →
    s.signalled tp = true ∧ ∀ u, (s.pc u).signals tp = false
  signaller : ∀ u, (s.pc u).signals tp = true → s.signalled tp = true ∧ Ready u s.k L
  unique : ∀ u v, (s.pc u).signals tp = true → (s.pc v).signals tp = true → u = v
  answered : s.signalled tp = true →
    (s.pc tp).waitStopped = true ∧ Ready tp s.k L ∨ ∃ u, (s.pc u).signals tp = true

namespace Handshake

variable {i tp : T} {s s' : System T Q} {cfg : Config Q} {L L' : Root Q → List T}
variable {l : Label T Q}

/-- What holds of a thread that is not in `wait` and was not signalled. -/
theorem of_not_inWait (hwf : Wf i s.k L) (hpc : (s.pc tp).inWait = false)
    (hsignalled : s.signalled tp = false) (hwaiting : s.waiting tp = false)
    (hsignals : ∀ u, (s.pc u).signals tp = false) :
  Handshake i tp s L
  := by
  have hnot {p : Prop} (hwait : (s.pc tp).inWait = true) : p := by
    rw [hpc] at hwait
    cases hwait
  constructor
  case wf => apply hwf
  case inWait => simp [hsignalled]
  case waiting => simp [hwaiting]
  case waits => apply hnot
  case awake => apply hnot
  case out => apply hnot
  case marked => apply hnot
  case ready => apply hnot
  case placed => apply hnot
  case signaller => simp [hsignals]
  case unique => simp [hsignals]
  case answered => simp [hsignalled]

/-- A thread that is not in `wait` was not signalled. -/
theorem not_inWait (h : Handshake i tp s L) (hpc : (s.pc tp).inWait = false) :
  s.signalled tp = false ∧ s.waiting tp = false ∧ ∀ u, (s.pc u).signals tp = false
  := by
  have hsignalled : s.signalled tp = false := by
    by_contra hsignalled
    rw [h.inWait (by simpa using hsignalled)] at hpc
    cases hpc
  refine ⟨hsignalled, ?_, ?_⟩
  · by_contra hwaiting
    rw [(h.waiting (by simpa using hwaiting)).1] at hpc
    cases hpc
  · intro u
    by_contra hu
    rw [(h.signaller u (by simpa using hu)).1] at hsignalled
    cases hsignalled

/-- A thread that signals is not the one it signals. -/
theorem signaller_ne (h : Handshake i tp s L) {u : T} (hu : (s.pc u).signals tp = true) :
  u ≠ tp
  := by
  rintro rfl
  have hwait := h.inWait (h.signaller u hu).1
  cases hpc : s.pc u <;> rw [hpc] at hu hwait <;> first | cases hu | cases hwait

/-- A thread whose flag `THREAD_WAITING_FLAG` is set was not signalled by any thread. -/
theorem not_signals (h : Handshake i tp s L) (hwaiting : s.waiting tp = true) (u : T) :
  (s.pc u).signals tp = false
  := by
  by_contra hu
  have hsignalled := (h.signaller u (by simpa using hu)).1
  rw [(h.waiting hwaiting).2] at hsignalled
  cases hsignalled

/-- The flag `THREAD_WAITING_FLAG` is set by a call of `wait`. -/
theorem waiting_cases (h : Handshake i tp s L) (hl : handshaking cfg tp s l = true)
    (hs : s.step cfg l = some s') (hwaiting : s'.waiting tp = true) :
  s.waiting tp = true ∨ l = .call .wait ∧ tp = s.k.current
  := by
  rw [System.step_waiting h.wf (orderly_of_handshaking hl) hs] at hwaiting
  cases l with
  | call op =>
      cases op with
      | wait =>
          by_cases hcurrent : tp = s.k.current
          · exact .inr ⟨rfl, hcurrent⟩
          · rw [System.waitingBy, Function.update_of_ne hcurrent] at hwaiting
            apply Or.inl hwaiting
      | signal u =>
          left
          by_cases hu : tp = u
          · simp [System.waitingBy, hu] at hwaiting
          · rwa [System.waitingBy, Function.update_of_ne hu] at hwaiting
      | _ => apply Or.inl hwaiting
  | irqArrive u =>
      left
      rw [System.waitingBy] at hwaiting
      split at hwaiting
      · apply hwaiting
      · by_cases hu : tp = u
        · simp [hu] at hwaiting
        · rwa [Function.update_of_ne hu] at hwaiting
  | run =>
      left
      rw [System.waitingBy_run] at hwaiting
      split at hwaiting
      · rename_i hpc
        simp only [handshaking, hpc, Bool.and_eq_true, decide_eq_true_eq] at hl
        rwa [Function.update_of_ne (Ne.symm hl.2)] at hwaiting
      · apply hwaiting
  | pass | test | interrupt | tick | irqNotify => apply Or.inl hwaiting

/-- The flag `THREAD_WAITING_FLAG` is cleared by a call of `signal`. -/
theorem waiting_of (h : Handshake i tp s L) (hl : handshaking cfg tp s l = true)
    (hs : s.step cfg l = some s') (hwaiting : s.waiting tp = true)
    (hne : l ≠ .call (.signal tp)) :
  s'.waiting tp = true
  := by
  rw [System.step_waiting h.wf (orderly_of_handshaking hl) hs]
  cases l with
  | call op =>
      cases op with
      | wait =>
          rw [System.waitingBy]
          by_cases hcurrent : tp = s.k.current
          · rw [hcurrent, Function.update_self]
          · rwa [Function.update_of_ne hcurrent]
      | signal u =>
          have hu : tp ≠ u := by
            rintro rfl
            exact hne rfl
          rwa [System.waitingBy, Function.update_of_ne hu]
      | _ => apply hwaiting
  | irqArrive u =>
      simp only [handshaking, Bool.and_eq_true, decide_eq_true_eq] at hl
      rw [System.waitingBy]
      split
      · apply hwaiting
      · rwa [Function.update_of_ne (Ne.symm hl.2)]
  | run =>
      rw [System.waitingBy_run]
      split
      · by_cases hcurrent : tp = s.k.current
        · rw [hcurrent, Function.update_self]
        · rwa [Function.update_of_ne hcurrent]
      · apply hwaiting
  | pass | test | interrupt | tick | irqNotify => apply hwaiting

/-- What happens to a thread, on the lists of the state reached. -/
theorem fate (h : Handshake i tp s L) (hsound : Sound i s) (hl : handshaking cfg tp s l = true)
    (hs : s.step cfg l = some s') (hlisted : Listed s'.k L') {u : T} (hnot : ¬ Seized u s L l) :
  Fate (Adopted u s l) u s.k L s'.k L'
  := by
  obtain ⟨L₁, hlisted₁, hfate⟩ := hsound.fate h.wf (orderly_of_handshaking hl) hnot hs
  rwa [hlisted.linked.unique hlisted₁.linked]

/-- A thread that is ready is on no thread queue. -/
theorem ready_out (hwf : Wf i s.k L) {u : T} (hready : Ready u s.k L) (qp : Q) :
  u ∉ L (.queue qp)
  := by
  obtain ⟨hrunning, rfl | hmem⟩ := hready
  · apply hwf.current_out hrunning
  · intro hqueue
    cases hwf.listed.linked.root_unique hmem hqueue

/-- A thread that signals stays ready. -/
theorem ready_of_signals (h : Handshake i tp s L) (hsound : Sound i s)
    (hl : handshaking cfg tp s l = true) (hs : s.step cfg l = some s')
    (hlisted : Listed s'.k L') {u : T} (hu : (s.pc u).signals tp = true) :
  Ready u s'.k L'
  := by
  have hready := (h.signaller u hu).2
  have hne := h.signaller_ne hu
  by_cases hseized : Seized u s L l
  · cases l with
    | call op =>
        cases op with
        | sleep ms =>
            have hcurrent : u = s.k.current := hseized
            rw [hcurrent, (System.step_call hs).2.1] at hu
            cases hu
        | _ => cases hseized
    | run =>
        have hrun := (System.step_run hs).2
        simp only [handshaking, Bool.and_eq_true] at hl
        rw [Seized] at hseized
        rw [System.run] at hrun
        cases hpc : s.pc s.k.current <;> rw [hpc] at hseized hl hrun
        case waitStop | irqWaitStop | rawWaitAdd =>
          have hcurrent : u = s.k.current := hseized
          rw [hcurrent, hpc] at hu
          cases hu
        case signalRun v =>
          obtain rfl : v = u := hseized
          obtain rfl := Option.some.inj hrun
          have hsame : Listed (s.k.modify v fun th => { th with running := true }) L :=
            h.wf.listed.congr rfl rfl
          rw [hlisted.linked.unique hsame.linked]
          refine ⟨?_, hready.2⟩
          simp [System.setKernel, System.goto]
        case addRemove v ret =>
          obtain ⟨rfl, hplace⟩ := hseized
          have hqueue : s.k.links.queue v = none := by simpa [hu] using hl.2
          have hcurrent := hplace.resolve_right (not_not.mpr hqueue)
          rw [hcurrent, hpc] at hu
          simp only [Pc.signals, Bool.and_eq_true, decide_eq_true_eq] at hu
          exact absurd hu.1 hne
        case notifyDecide qp v =>
          cases v with
          | null => exact absurd hseized (ready_out h.wf hready qp)
          | thread => cases hseized
          | signaled => cases hseized
        all_goals cases hseized
    | _ => cases hseized
  · apply (h.fate hsound hl hs hlisted hseized).ready hready

/-- A step at which the thread stays in `wait`, and no thread starts or ends to signal it. -/
theorem keep (h : Handshake i tp s L) (hsound : Sound i s)
    (hl : handshaking cfg tp s l = true) (hs : s.step cfg l = some s') (hwf' : Wf i s'.k L')
    (hwait : (s.pc tp).inWait = true) (hwait' : (s'.pc tp).inWait = true)
    (hcall : ¬ (l = .call (.signal tp) ∧ s.waiting tp = true))
    (hlink : ¬ (l = .run ∧ s.pc s.k.current = .addLink tp .signal))
    (hout : ∀ qp, tp ∉ L' (.queue qp))
    (hmarked : tp ∈ L' .runQueue → (s'.k.thr tp).running = true)
    (hready : (s'.pc tp).waitStopped = false → Ready tp s'.k L')
    (hplaced : (s.pc tp).waitStopped = true → Ready tp s.k L → Ready tp s'.k L')
    (hfresh : (s'.pc tp).waitStopped = true → Ready tp s'.k L' →
      (s.pc tp).waitStopped = true ∧ Ready tp s.k L) :
  Handshake i tp s' L'
  := by
  have hmoved := System.step_moved hs
  have hsignals (u : T) : (s'.pc u).signals tp = true ↔ (s.pc u).signals tp = true := by
    constructor
    · intro hu
      apply (hmoved.signals_cases hu).resolve_right
      rintro ⟨-, -, hsignal⟩
      exact hcall hsignal
    · intro hu
      apply hmoved.signals_of hu
      rintro ⟨rfl, rfl, hpc⟩
      exact hlink ⟨rfl, hpc⟩
  have hreturn : ¬ (l = .run ∧ tp = s.k.current ∧ s.pc tp = .waitReturn) := by
    rintro ⟨rfl, rfl, hpc⟩
    obtain ⟨pc, hfollows, hpc'⟩ := hmoved.pc
    rw [hpc] at hfollows
    rw [hpc', Function.update_self, hfollows] at hwait'
    cases hwait'
  have hsignalled : s'.signalled tp = true ↔ s.signalled tp = true := by
    constructor
    · intro hsignalled
      apply (hmoved.signalled_cases hsignalled).resolve_right hcall
    · intro hsignalled
      apply hmoved.signalled_of hsignalled hreturn
  have hstopped := hmoved.waitStopped_iff hwait hwait'
  constructor
  case wf => apply hwf'
  case inWait =>
    intro _
    apply hwait'
  case waiting =>
    intro hwaiting
    use hwait'
    rcases h.waiting_cases hl hs hwaiting with hwaiting | ⟨rfl, rfl⟩
    · by_contra hsignalled'
      have := hsignalled.mp (by simpa using hsignalled')
      rw [(h.waiting hwaiting).2] at this
      cases this
    · rw [(System.step_call hs).2.1] at hwait
      cases hwait
  case waits =>
    intro _
    rcases h.waits hwait with hwaiting | hsignalled'
    · left
      apply h.waiting_of hl hs hwaiting
      rintro rfl
      exact hcall ⟨rfl, hwaiting⟩
    · apply Or.inr (hsignalled.mpr hsignalled')
  case awake =>
    intro _
    apply System.step_awake h.wf (orderly_of_handshaking hl) hs (h.awake hwait)
    rintro ⟨⟨ms, rfl⟩, rfl⟩
    rw [(System.step_call hs).2.1] at hwait
    cases hwait
  case out =>
    intro _
    apply hout
  case marked =>
    intro _
    apply hmarked
  case ready =>
    intro _
    apply hready
  case placed =>
    intro _ hstopped' hready'
    obtain ⟨hstopped₀, hready₀⟩ := hfresh hstopped' hready'
    obtain ⟨hsignalled₀, hnone⟩ := h.placed hwait hstopped₀ hready₀
    use hsignalled.mpr hsignalled₀
    intro u
    by_contra hu
    have := (hsignals u).mp (by simpa using hu)
    rw [hnone] at this
    cases this
  case signaller =>
    intro u hu
    have hu₀ := (hsignals u).mp hu
    use hsignalled.mpr (h.signaller u hu₀).1
    apply h.ready_of_signals hsound hl hs hwf'.listed hu₀
  case unique =>
    intro u v hu hv
    apply h.unique u v ((hsignals u).mp hu) ((hsignals v).mp hv)
  case answered =>
    intro hsignalled'
    rcases h.answered (hsignalled.mp hsignalled') with ⟨hstopped₀, hready₀⟩ | ⟨u, hu⟩
    · left
      use hstopped.mpr (.inl hstopped₀)
      apply hplaced hstopped₀ hready₀
    · exact .inr ⟨u, (hsignals u).mpr hu⟩

/-- A thread other than `tp` calls `signal` for it, and finds its flag set. -/
theorem signal (h : Handshake i tp s L) (hsound : Sound i s)
    (hl : handshaking cfg tp s (.call (.signal tp)) = true)
    (hs : s.step cfg (.call (.signal tp)) = some s') (hwaiting : s.waiting tp = true)
    (hwf' : Wf i s'.k L') :
  Handshake i tp s' L'
  := by
  have hmoved := System.step_moved hs
  obtain ⟨hsched, huser, -⟩ := System.step_call hs
  have hwait := (h.waiting hwaiting).1
  have hne : tp ≠ s.k.current := by
    rintro rfl
    rw [huser] at hwait
    cases hwait
  have hpc := hmoved.pc_of_ne hne
  have hfate (u : T) : Fate (Adopted u s (.call (.signal tp))) u s.k L s'.k L' :=
    h.fate hsound hl hs hwf'.listed id
  have hsignals (u : T) : (s'.pc u).signals tp = true → u = s.k.current := by
    intro hu
    rcases hmoved.signals_cases hu with hu | ⟨hcurrent, -⟩
    · rw [h.not_signals hwaiting u] at hu
      cases hu
    · apply hcurrent
  have hcurrent : (s'.pc s.k.current).signals tp = true := by
    have hacts : s.acts (.signal tp) = true := hwaiting
    rw [hmoved.pc.2, if_pos hacts, Function.update_self]
    simp [Op.stage, Pc.signals]
  have hsignalled : s'.signalled tp = true := by
    have hwaiting' : (s.k.thr tp).waiting = true := hwaiting
    rw [hmoved.signalled, System.signalledBy, if_pos hwaiting', Function.update_self]
  have hready : Ready s.k.current s'.k L' := by
    apply (hfate s.k.current).ready
    refine ⟨hsound.running hsched ?_, .inl rfl⟩
    rw [huser]
    rfl
  constructor
  case wf => apply hwf'
  case inWait =>
    intro _
    rwa [hpc]
  case waiting =>
    intro hwaiting'
    have hclear : s'.waiting tp = false := by
      rw [System.step_waiting h.wf (orderly_of_handshaking hl) hs, System.waitingBy,
        Function.update_self]
    rw [hclear] at hwaiting'
    cases hwaiting'
  case waits =>
    intro _
    apply Or.inr hsignalled
  case awake =>
    intro _
    apply System.step_awake h.wf (orderly_of_handshaking hl) hs (h.awake hwait)
    rintro ⟨⟨ms, hsleep⟩, -⟩
    cases hsleep
  case out =>
    intro _
    apply (hfate tp).out (h.out hwait)
  case marked =>
    intro _
    apply (hfate tp).marked (h.marked hwait)
  case ready =>
    rw [hpc]
    intro _ hstopped
    apply (hfate tp).ready (h.ready hwait hstopped)
  case placed =>
    rw [hpc]
    intro _ hstopped hready'
    have hready₀ := ((hfate tp).fresh (h.out hwait) hready').resolve_left id
    have hsignalled₀ := (h.placed hwait hstopped hready₀).1
    rw [(h.waiting hwaiting).2] at hsignalled₀
    cases hsignalled₀
  case signaller =>
    intro u hu
    rw [hsignals u hu]
    exact ⟨hsignalled, hready⟩
  case unique =>
    intro u v hu hv
    rw [hsignals u hu, hsignals v hv]
  case answered =>
    intro _
    exact .inr ⟨_, hcurrent⟩

/-- The thread that signals inserts the thread into the run queue. -/
theorem link (h : Handshake i tp s L) (hl : handshaking cfg tp s .run = true) (hs : s.step cfg .run = some s')
    (hpc : s.pc s.k.current = .addLink tp .signal) (hwf' : Wf i s'.k L') :
  Handshake i tp s' L'
  := by
  have hmoved := System.step_moved hs
  have hu : (s.pc s.k.current).signals tp = true := by
    rw [hpc]
    simp [Pc.signals]
  have hsignalled₀ := (h.signaller _ hu).1
  have hwait := h.inWait hsignalled₀
  have hne : tp ≠ s.k.current := (h.signaller_ne hu).symm
  have hpc' := hmoved.pc_of_ne hne
  have hwaiting₀ : s.waiting tp = false := by
    by_contra hwaiting
    rw [(h.waiting (by simpa using hwaiting)).2] at hsignalled₀
    cases hsignalled₀
  -- A thread on the run queue cannot be added, and it is there unless it has stopped itself.
  have hout₀ (r : Root Q) : tp ∉ L r := by
    have hadd := orderly_of_handshaking hl
    simp only [orderly, hpc, orderlyRun, Kernel.addable, Bool.and_eq_true,
      decide_eq_true_eq] at hadd
    apply h.wf.listed.linked.notMem hadd.1.2
  have hstopped : (s.pc tp).waitStopped = true := by
    by_contra hstopped
    obtain ⟨-, hcurrent | hmem⟩ := h.ready hwait (by simpa using hstopped)
    · exact hne hcurrent
    · exact hout₀ _ hmem
  have hready' : Ready tp s'.k L' := by
    have hrun := (System.step_run hs).2
    rw [System.run, hpc] at hrun
    obtain ⟨k, hk, rfl⟩ := Option.map_eq_some_iff.mp hrun
    obtain ⟨k₁, hk₁, rfl⟩ := Option.map_eq_some_iff.mp hk
    obtain ⟨L₁, links, hadd, hlisted, rfl⟩ := h.wf.listed.addThread hout₀ hk₁
    rw [hwf'.listed.linked.unique (hlisted.congr rfl rfl : Listed _ L₁).linked]
    constructor
    · simp [System.setKernel, System.goto]
    · right
      rw [hadd.mem_runQueue]
      apply Or.inl rfl
  have hsignalled : s'.signalled tp = true := by
    apply hmoved.signalled_of hsignalled₀
    rintro ⟨-, hcurrent, -⟩
    exact hne hcurrent
  have hnone (u : T) : (s'.pc u).signals tp = false := by
    by_contra hu'
    rcases hmoved.signals_cases (by simpa using hu') with hu₀ | ⟨-, -, hcall, -⟩
    · obtain rfl := h.unique u _ hu₀ hu
      obtain ⟨pc, hfollows, hpc'⟩ := hmoved.pc
      rw [hpc] at hfollows
      rw [hpc', Function.update_self, hfollows] at hu'
      exact hu' rfl
    · cases hcall
  constructor
  case wf => apply hwf'
  case inWait =>
    intro _
    rwa [hpc']
  case waiting =>
    intro hwaiting
    rcases h.waiting_cases hl hs hwaiting with hwaiting | ⟨hcall, -⟩
    · rw [hwaiting₀] at hwaiting
      cases hwaiting
    · cases hcall
  case waits =>
    intro _
    apply Or.inr hsignalled
  case awake =>
    intro _
    apply System.step_awake h.wf (orderly_of_handshaking hl) hs (h.awake hwait)
    rintro ⟨⟨ms, hsleep⟩, -⟩
    cases hsleep
  case out =>
    intro _
    apply ready_out hwf' hready'
  case marked =>
    intro _ _
    apply hready'.1
  case ready =>
    intro _ _
    apply hready'
  case placed =>
    intro _ _ _
    exact ⟨hsignalled, hnone⟩
  case signaller => simp [hnone]
  case unique => simp [hnone]
  case answered =>
    intro _
    left
    rw [hpc']
    exact ⟨hstopped, hready'⟩

/-- The thread calls `wait`. -/
theorem enter (h : Handshake i tp s L) (hsound : Sound i s)
    (hl : handshaking cfg tp s (.call .wait) = true) (hs : s.step cfg (.call .wait) = some s')
    (htp : tp = s.k.current) (hwf' : Wf i s'.k L') :
  Handshake i tp s' L'
  := by
  have hmoved := System.step_moved hs
  obtain ⟨hsched, huser, -⟩ := System.step_call hs
  have hbefore : (s.pc tp).inWait = false := by
    rw [htp, huser]
    rfl
  obtain ⟨hsignalled₀, -, hsignals₀⟩ := h.not_inWait hbefore
  have hrunning : (s.k.thr s.k.current).running = true := by
    apply hsound.running hsched
    rw [huser]
    rfl
  have hpc : s'.pc tp = .waitResched := by
    have hacts : s.acts .wait = true := rfl
    rw [hmoved.pc.2, if_pos hacts, htp, Function.update_self]
    rfl
  have hready : Ready tp s'.k L' := by
    apply (h.fate hsound hl hs hwf'.listed id).ready
    rw [htp]
    exact ⟨hrunning, .inl rfl⟩
  have hsignalled : s'.signalled tp = false := by
    rw [hmoved.signalled]
    apply hsignalled₀
  have hsignals (u : T) : (s'.pc u).signals tp = false := by
    by_contra hu
    rcases hmoved.signals_cases (by simpa using hu) with hu | ⟨-, -, hcall, -⟩
    · rw [hsignals₀] at hu
      cases hu
    · cases hcall
  constructor
  case wf => apply hwf'
  case inWait => simp [hsignalled]
  case waiting =>
    intro _
    rw [hpc]
    exact ⟨rfl, hsignalled⟩
  case waits =>
    intro _
    left
    rw [System.step_waiting h.wf (orderly_of_handshaking hl) hs, System.waitingBy, htp,
      Function.update_self]
  case awake =>
    intro _
    apply System.step_awake h.wf (orderly_of_handshaking hl) hs
    · rw [htp]
      apply h.wf.current_awake hrunning
    · rintro ⟨⟨ms, hsleep⟩, -⟩
      cases hsleep
  case out =>
    intro _
    apply ready_out hwf' hready
  case marked =>
    intro _ _
    apply hready.1
  case ready =>
    intro _ _
    apply hready
  case placed =>
    rw [hpc]
    intro _ hstopped
    cases hstopped
  case signaller => simp [hsignals]
  case unique => simp [hsignals]
  case answered => simp [hsignalled]

/-- The thread returns from `wait`. -/
theorem leave (h : Handshake i tp s L) (hsound : Sound i s)
    (hl : handshaking cfg tp s .run = true) (hs : s.step cfg .run = some s')
    (htp : tp = s.k.current) (hpc : s.pc tp = .waitReturn) (hwf' : Wf i s'.k L') :
  Handshake i tp s' L'
  := by
  have hmoved := System.step_moved hs
  have hwait : (s.pc tp).inWait = true := by
    rw [hpc]
    rfl
  have hready : Ready tp s.k L := by
    rw [htp] at hpc ⊢
    refine ⟨hsound.running (System.step_run hs).1 ?_, .inl rfl⟩
    rw [hpc]
    rfl
  obtain ⟨hsignalled₀, hsignals₀⟩ := h.placed hwait (by rw [hpc]; rfl) hready
  apply of_not_inWait hwf'
  · obtain ⟨pc, hfollows, hpc'⟩ := hmoved.pc
    rw [← htp, hpc] at hfollows
    rw [hpc', htp, Function.update_self, hfollows]
    rfl
  · rw [htp] at hpc
    rw [hmoved.signalled, System.signalledBy_run, if_pos hpc, htp, Function.update_self]
  · by_contra hwaiting
    rcases h.waiting_cases hl hs (by simpa using hwaiting) with hwaiting | ⟨hcall, -⟩
    · rw [(h.waiting hwaiting).2] at hsignalled₀
      cases hsignalled₀
    · cases hcall
  · intro u
    by_contra hu
    rcases hmoved.signals_cases (by simpa using hu) with hu | ⟨-, -, hcall, -⟩
    · rw [hsignals₀] at hu
      cases hu
    · cases hcall

/-- A step at which the thread is not in `wait`, before or after it. -/
theorem outside (h : Handshake i tp s L) (hl : handshaking cfg tp s l = true)
    (hs : s.step cfg l = some s') (hwf' : Wf i s'.k L') (hpc : (s.pc tp).inWait = false)
    (hpc' : (s'.pc tp).inWait = false) :
  Handshake i tp s' L'
  := by
  have hmoved := System.step_moved hs
  obtain ⟨hsignalled₀, hwaiting₀, hsignals₀⟩ := h.not_inWait hpc
  apply of_not_inWait hwf' hpc'
  · by_contra hsignalled
    rcases hmoved.signalled_cases (by simpa using hsignalled) with hsignalled | ⟨-, hwaiting⟩
    · rw [hsignalled₀] at hsignalled
      cases hsignalled
    · rw [hwaiting₀] at hwaiting
      cases hwaiting
  · by_contra hwaiting
    rcases h.waiting_cases hl hs (by simpa using hwaiting) with hwaiting | ⟨rfl, rfl⟩
    · rw [hwaiting₀] at hwaiting
      cases hwaiting
    · have hacts : s.acts .wait = true := rfl
      rw [hmoved.pc.2, if_pos hacts, Function.update_self] at hpc'
      cases hpc'
  · intro u
    by_contra hu
    rcases hmoved.signals_cases (by simpa using hu) with hu | ⟨-, -, -, hwaiting⟩
    · rw [hsignals₀] at hu
      cases hu
    · rw [hwaiting₀] at hwaiting
      cases hwaiting

/-- The thread stops itself in `wait`. -/
theorem stop (h : Handshake i tp s L) (hsound : Sound i s)
    (hl : handshaking cfg tp s .run = true) (hs : s.step cfg .run = some s')
    (htp : tp = s.k.current) (hpc : s.pc s.k.current = .waitStop) (hwf' : Wf i s'.k L') :
  Handshake i tp s' L'
  := by
  have hpc₀ : s.pc tp = .waitStop := by rw [htp, hpc]
  have hrun := (System.step_run hs).2
  rw [System.run, hpc] at hrun
  obtain rfl := Option.some.inj hrun
  have hsame : Listed (s.k.modify s.k.current fun th => { th with running := false }) L :=
    h.wf.listed.congr rfl rfl
  obtain rfl := hwf'.listed.linked.unique hsame.linked
  have hwait : (s.pc tp).inWait = true := by
    rw [hpc₀]
    rfl
  apply h.keep hsound hl hs hwf' hwait
  · rw [htp]
    simp [System.own, System.goto, Pc.inWait]
  · rintro ⟨hcall, -⟩
    cases hcall
  · rintro ⟨-, hlink⟩
    rw [hpc] at hlink
    cases hlink
  · apply h.out hwait
  · intro hmem
    rw [htp] at hmem
    exact absurd hmem h.wf.current
  · intro hstopped
    simp [htp, System.own, System.goto, Pc.waitStopped] at hstopped
  · intro hstopped
    rw [hpc₀] at hstopped
    cases hstopped
  · rintro - ⟨hrunning, -⟩
    simp [htp, System.own, System.goto] at hrunning

/-- The thread that signals sets the flag `THREAD_RUNNING_FLAG` of the thread. -/
theorem mark (h : Handshake i tp s L) (hsound : Sound i s)
    (hl : handshaking cfg tp s .run = true) (hs : s.step cfg .run = some s')
    (hpc : s.pc s.k.current = .signalRun tp) (hwf' : Wf i s'.k L') :
  Handshake i tp s' L'
  := by
  have hu : (s.pc s.k.current).signals tp = true := by
    rw [hpc]
    simp [Pc.signals]
  have hwait := h.inWait (h.signaller _ hu).1
  have hne : tp ≠ s.k.current := (h.signaller_ne hu).symm
  have hpc' := (System.step_moved hs).pc_of_ne hne
  have hrun := (System.step_run hs).2
  rw [System.run, hpc] at hrun
  obtain rfl := Option.some.inj hrun
  have hsame : Listed (s.k.modify tp fun th => { th with running := true }) L :=
    h.wf.listed.congr rfl rfl
  obtain rfl := hwf'.listed.linked.unique hsame.linked
  have hrunning : ((s.k.modify tp fun th => { th with running := true }).thr tp).running = true :=
    by simp
  apply h.keep hsound hl hs hwf' hwait
  · rwa [hpc']
  · rintro ⟨hcall, -⟩
    cases hcall
  · rintro ⟨-, hlink⟩
    rw [hpc] at hlink
    cases hlink
  · apply h.out hwait
  · intro _
    apply hrunning
  · rw [hpc']
    intro hstopped
    exact ⟨hrunning, (h.ready hwait hstopped).2⟩
  · intro _ hready
    exact ⟨hrunning, hready.2⟩
  · rw [hpc']
    rintro hstopped ⟨-, hcurrent | hmem⟩
    · exact absurd hcurrent hne
    · exact ⟨hstopped, h.marked hwait hmem, .inr hmem⟩

/-- A step at which the thread stays in `wait` and is not seized. -/
theorem spared (h : Handshake i tp s L) (hsound : Sound i s)
    (hl : handshaking cfg tp s l = true) (hs : s.step cfg l = some s') (hwf' : Wf i s'.k L')
    (hwait : (s.pc tp).inWait = true) (hwait' : (s'.pc tp).inWait = true)
    (hcall : ¬ (l = .call (.signal tp) ∧ s.waiting tp = true))
    (hlink : ¬ (l = .run ∧ s.pc s.k.current = .addLink tp .signal))
    (hnot : ¬ Seized tp s L l) :
  Handshake i tp s' L'
  := by
  have hfate := h.fate hsound hl hs hwf'.listed hnot
  have hstopped := (System.step_moved hs).waitStopped_iff hwait hwait'
  have hadopted : ¬ Adopted tp s l := by
    cases l with
    | run =>
        rintro ⟨ret, hpc⟩
        simp only [handshaking, hpc, Bool.and_eq_true] at hl
        have hret : ret = .signal := by simpa [hwait] using hl.2
        rw [hret] at hpc
        exact hlink ⟨rfl, hpc⟩
    | pass =>
        intro hsleeping
        rw [Adopted, h.awake hwait] at hsleeping
        cases hsleeping
    | irqArrive u =>
        simp only [handshaking, Bool.and_eq_true, decide_eq_true_eq] at hl
        exact hl.2
    | call | test | interrupt | tick | irqNotify => exact id
  have hstop : ¬ (l = .run ∧ tp = s.k.current ∧ s.pc tp = .waitStop) := by
    rintro ⟨rfl, htp, hpc⟩
    rw [htp] at hpc
    apply hnot
    rw [Seized, hpc]
    exact htp
  have hsame : (s'.pc tp).waitStopped = true ↔ (s.pc tp).waitStopped = true := by
    rw [hstopped]
    exact or_iff_left hstop
  apply h.keep hsound hl hs hwf' hwait hwait' hcall hlink
  · apply hfate.out (h.out hwait)
  · apply hfate.marked (h.marked hwait)
  · intro hclear
    apply hfate.ready
    apply h.ready hwait
    rw [Bool.eq_false_iff] at hclear ⊢
    exact fun hstopped₀ => hclear (hsame.mpr hstopped₀)
  · intro _
    apply hfate.ready
  · intro hstopped' hready'
    use hsame.mp hstopped'
    apply (hfate.fresh (h.out hwait) hready').resolve_left hadopted

/-- A thread in `wait` is seized by its own stop, or by a thread that signals it. -/
theorem seized_cases (h : Handshake i tp s L) (hl : handshaking cfg tp s l = true)
    (hs : s.step cfg l = some s') (hwait : (s.pc tp).inWait = true) (hseized : Seized tp s L l) :
  l = .run ∧ (tp = s.k.current ∧ s.pc s.k.current = .waitStop ∨
    s.pc s.k.current = .signalRun tp)
  := by
  cases l with
  | call op =>
      cases op with
      | sleep ms =>
          have htp : tp = s.k.current := hseized
          rw [htp, (System.step_call hs).2.1] at hwait
          cases hwait
      | _ => cases hseized
  | run =>
      use rfl
      simp only [handshaking, Bool.and_eq_true] at hl
      rw [Seized] at hseized
      cases hpc : s.pc s.k.current <;> rw [hpc] at hseized hl
      case waitStop => exact .inl ⟨hseized, rfl⟩
      case irqWaitStop | rawWaitAdd =>
        have htp : tp = s.k.current := hseized
        rw [htp, hpc] at hwait
        cases hwait
      case signalRun u =>
        obtain rfl : u = tp := hseized
        exact .inr rfl
      case addRemove u ret =>
        obtain ⟨rfl, hplace⟩ := hseized
        have hqueue : s.k.links.queue u = none := by simpa using hl.2
        rw [hplace.resolve_right (not_not.mpr hqueue), hpc] at hwait
        cases hwait
      case notifyDecide qp v =>
        cases v with
        | null => exact absurd hseized (h.out hwait qp)
        | thread => cases hseized
        | signaled => cases hseized
      all_goals cases hseized
  | _ => cases hseized

/-- A step of a handshake keeps what holds of the thread. -/
theorem step (h : Handshake i tp s L) (hsound : Sound i s)
    (hl : handshaking cfg tp s l = true) (hs : s.step cfg l = some s') :
  ∃ L', Handshake i tp s' L'
  := by
  obtain ⟨L', hwf'⟩ := (hsound.step (orderly_of_handshaking hl) hs).wf
  use L'
  have hmoved := System.step_moved hs
  by_cases hwait : (s.pc tp).inWait = true
  · by_cases hwait' : (s'.pc tp).inWait = true
    · by_cases hcall : l = .call (.signal tp) ∧ s.waiting tp = true
      · obtain ⟨rfl, hwaiting⟩ := hcall
        apply h.signal hsound hl hs hwaiting hwf'
      · by_cases hlink : l = .run ∧ s.pc s.k.current = .addLink tp .signal
        · obtain ⟨rfl, hpc⟩ := hlink
          apply h.link hl hs hpc hwf'
        · by_cases hseized : Seized tp s L l
          · obtain ⟨rfl, ⟨htp, hpc⟩ | hpc⟩ := h.seized_cases hl hs hwait hseized
            · apply h.stop hsound hl hs htp hpc hwf'
            · apply h.mark hsound hl hs hpc hwf'
          · apply h.spared hsound hl hs hwf' hwait hwait' hcall hlink hseized
    · obtain ⟨htp, rfl, hpc⟩ := hmoved.waitReturn hwait (by simpa using hwait')
      apply h.leave hsound hl hs htp hpc hwf'
  · by_cases hwait' : (s'.pc tp).inWait = true
    · obtain ⟨htp, -, rfl, -⟩ := (hmoved.inWait_cases hwait').resolve_left hwait
      apply h.enter hsound hl hs htp hwf'
    · apply h.outside hl hs hwf' (by simpa using hwait) (by simpa using hwait')

/-- A thread that was signalled returns from `wait`. -/
theorem returns (h : Handshake i tp s L) (hsignalled : s.signalled tp = true) :
  s.Returns tp
  := by
  use h.inWait hsignalled
  rcases h.answered hsignalled with ⟨hstopped, hready⟩ | ⟨u, hu⟩
  · left
    use hstopped
    rw [runnable_iff h.wf.listed]
    apply hready
  · right
    use u, hu
    rw [runnable_iff h.wf.listed]
    apply (h.signaller u hu).2

end Handshake

/-- In a run in which no signal for a thread finds it on the run queue, a thread that was
signalled in `wait` returns from it.  So does a thread that is in `wait` with its flag
`THREAD_WAITING_FLAG` clear, which no later signal would wake. -/
theorem returns_of_handshaking {cfg : Config Q} {s s' : System T Q} {ready : List T} {tp : T}
    (hstart : s.Start ready)
    (hrun : Run.Guarded (System.step cfg) (fun s l => handshaking cfg tp s l = true) s s') :
  (s'.signalled tp = true → s'.Returns tp) ∧
    ((s'.pc tp).inWait = true → (s'.k.thr tp).waiting = false → s'.Returns tp)
  := by
  have hinv : Sound s.k.current s' ∧ ∃ L, Handshake s.k.current tp s' L := by
    apply hrun.invariant (fun s' => Sound s.k.current s' ∧ ∃ L, Handshake s.k.current tp s' L)
    · have hsound := Sound.start hstart
      obtain ⟨L, hwf⟩ := hsound.wf
      refine ⟨hsound, L, Handshake.of_not_inWait hwf ?_ (hstart.signalled tp)
        (hstart.waiting tp) ?_⟩
      · rw [hstart.pc]
        rfl
      · intro u
        rw [hstart.pc]
        rfl
    · rintro u l v ⟨hsound, L, h⟩ hl hv
      exact ⟨hsound.step (orderly_of_handshaking hl) hv, h.step hsound hl hv⟩
  obtain ⟨-, L, h⟩ := hinv
  constructor
  · apply h.returns
  · intro hwait hwaiting
    apply h.returns
    apply (h.waits hwait).resolve_left
    rw [System.waiting, hwaiting]
    simp

/-! ### Runs -/

section

/-- The threads `1` and `2` are started, and the thread `1` calls `wait`. -/
def startWait : List (Label (Fin 3) Unit) :=
  startTwo ++ [.call .wait]

/-- The theorem applied to a thread that is signalled after it has left the processor. -/
theorem returns_of_handshaking_startWait :
  ∃ s, Run.exec (System.step preemptConfig) (System.boot idleLast 0)
      (startWait ++ [.run, .run, .run, .pass, .call (.signal 1), .run]) = some s ∧
    s.signalled 1 = true ∧ s.Returns 1
  := by
  obtain ⟨s, hs, hsignalled⟩ := Run.exists_of_any (System.step preemptConfig)
    (System.boot idleLast 0)
    (startWait ++ [.run, .run, .run, .pass, .call (.signal 1), .run])
    (fun s => s.signalled 1) (by decide +kernel)
  refine ⟨s, hs, hsignalled, ?_⟩
  have hrun : Run.Guarded (System.step preemptConfig)
      (fun s l => handshaking preemptConfig 1 s l = true) (System.boot idleLast 0) s := by
    apply Run.guarded_of_exec _ hs
    decide +kernel
  apply (returns_of_handshaking (System.boot_start _ _) hrun).1 hsignalled

/-- The thread is preempted in `wait` before it clears `THREAD_RUNNING_FLAG`, and signalled
then: it leaves the processor with `THREAD_WAITING_FLAG` clear, and no thread is about to put
it on the run queue. -/
theorem not_returns_preempted_wait :
  ∃ s, Run.exec (System.step preemptConfig) (System.boot idleLast 0)
      (startWait ++ [.interrupt true, .pass, .call (.signal 1), .run, .run, .run, .run, .run,
        .run, .run, .pass, .test, .run, .run, .run, .pass]) = some s ∧
    s.signalled 1 = true ∧ (s.k.thr 1).waiting = false ∧ s.k.current ≠ 1 ∧ ¬ s.Returns 1
  := by
  obtain ⟨s, hs, htest⟩ := Run.exists_of_any (System.step preemptConfig)
    (System.boot idleLast 0)
    (startWait ++ [.interrupt true, .pass, .call (.signal 1), .run, .run, .run, .run, .run,
      .run, .run, .pass, .test, .run, .run, .run, .pass])
    (fun s => s.signalled 1 && (!(s.k.thr 1).waiting && (s.k.current ≠ 1 &&
      (!(s.k.thr 1).running && decide (∀ u, (s.pc u).signals 1 = false))))) (by decide +kernel)
  simp only [Bool.and_eq_true, Bool.not_eq_true', decide_eq_true_eq] at htest
  obtain ⟨hsignalled, hwaiting, hcurrent, hstopped, hnone⟩ := htest
  refine ⟨s, hs, hsignalled, hwaiting, hcurrent, ?_⟩
  rintro ⟨-, ⟨-, hrunning, -⟩ | ⟨u, hu, -⟩⟩
  · rw [hstopped] at hrunning
    cases hrunning
  · rw [hnone] at hu
    cases hu

end

end Etaos
