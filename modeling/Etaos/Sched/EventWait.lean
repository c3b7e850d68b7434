import Etaos.Sched.Fate
import Etaos.Sched.Stage

/-!
# The waiters of an event

A thread in `raw_event_wait` is put on the thread queue, and stays there until one
notification or its timeout takes it off and makes it runnable.

The function `event_notify` reads the head of the queue before it disables preemption, and
acts on what it has read.  When a thread is queued in between, the head is overwritten by the
mark `SIGNALED` and the waiters are lost; when the last waiter leaves in between, the mark is
taken for a thread.
-/

set_option linter.unusedSectionVars false

namespace Etaos

variable {T Q : Type} [DecidableEq T] [DecidableEq Q]

/-- The stages of `event_wait` and `raw_event_wait` before the thread is queued. -/
def Pc.entering : Pc T Q → Bool
  | .eventWaitDiscard _ _ => true
  | .rawWaitTest _ _ => true
  | .rawWaitPrepare _ _ => true
  | .rawWaitAdd _ => true
  | _ => false

/-- The stages of `raw_event_wait` at which the thread has been put on the queue `qp`. -/
def Pc.awaits (qp : Q) : Pc T Q → Bool
  | .rawWaitSchedule q => q = qp
  | .rawWaitReturn q => q = qp
  | _ => false

/-- The stages of `raw_event_wait`. -/
def Pc.rawWaiting : Pc T Q → Bool
  | .rawWaitSchedule _ => true
  | .rawWaitReturn _ => true
  | pc => pc.entering

/-- The thread `tp` is linked on the thread queue `qp`. -/
def Kernel.Queued (k : Kernel T Q) (qp : Q) (tp : T) : Prop :=
  ∃ p l, k.links.head (.queue qp) = .ptr p ∧ Chain.IsChain k.links.next p l ∧ tp ∈ l

variable [Fintype T]

/-- A thread in `raw_event_wait` is not lost.  Before it is queued it is runnable; then it is
linked on the queue, or it has been made runnable exactly once and is on no queue. -/
structure System.Held (s : System T Q) (tp : T) : Prop where
  entering : (s.pc tp).entering = true → Runnable s.k tp
  awaits : ∀ qp, (s.pc tp).awaits qp = true →
    s.k.Queued qp tp ∧ s.k.wakes tp = 0 ∨
      Runnable s.k tp ∧ s.k.wakes tp = 1 ∧ ∀ q, ¬ s.k.Queued q tp

/-- The steps at which no waiter is lost: `event_notify` does not act on a `NULL` that it has
read before a waiter was queued, and no other function takes a thread in `raw_event_wait` off
a list. -/
def attentive (cfg : Config Q) (s : System T Q) (l : Label T Q) : Bool :=
  orderly cfg s l &&
    match l with
    | .run =>
        match s.pc s.k.current with
        | .addRemove u _ => !(s.pc u).rawWaiting || s.k.links.queue u = none
        | .notifyDecide qp .null => s.sample qp ≠ .thread
        | _ => true
    | _ => true

theorem orderly_of_attentive {cfg : Config Q} {s : System T Q} {l : Label T Q}
    (hl : attentive cfg s l = true) :
  orderly cfg s l = true
  := by
  simp only [attentive, Bool.and_eq_true] at hl
  apply hl.1

/-- A thread is queued when it is on the list that the links represent. -/
theorem queued_iff {k : Kernel T Q} {L : Root Q → List T} (h : Listed k L) {qp : Q} {tp : T} :
  k.Queued qp tp ↔ tp ∈ L (.queue qp)
  := by
  constructor
  · rintro ⟨p, l, hp, hl, hmem⟩
    rwa [← hl.unique (h.linked.chain _ _ hp)]
  · intro hmem
    cases hp : k.links.head (.queue qp) with
    | signaled => simp [h.linked.signaled _ hp] at hmem
    | ptr p => exact ⟨p, _, hp, h.linked.chain _ _ hp, hmem⟩

namespace Pc

/-- A thread enters `raw_event_wait` from outside of the functions of the kernel. -/
theorem Follows.entering {pc pc' : Pc T Q} (h : pc.Follows pc') (hpc' : pc'.entering = true) :
  pc.entering = true
  := by
  cases pc
  case eventWaitDiscard | rawWaitTest | rawWaitPrepare | rawWaitAdd => rfl
  case user => cases h
  case addTest | addRemove =>
    rcases h with rfl | rfl <;> cases hpc'
  case notifySample =>
    obtain ⟨v, rfl⟩ := h
    cases hpc'
  case addMark =>
    obtain rfl := h
    split at hpc' <;> cases hpc'
  all_goals
    obtain rfl := h
    cases hpc'

/-- A thread awaits an event behind its insertion into the queue. -/
theorem Follows.awaits {pc pc' : Pc T Q} (h : pc.Follows pc') {qp : Q}
    (hpc' : pc'.awaits qp = true) :
  pc.awaits qp = true ∨ pc = .rawWaitAdd qp
  := by
  cases pc
  case rawWaitAdd q =>
    obtain rfl := h
    obtain rfl : q = qp := by simpa [Pc.awaits] using hpc'
    apply Or.inr rfl
  case rawWaitSchedule q =>
    obtain rfl := h
    apply Or.inl hpc'
  case user => cases h
  case addTest | addRemove | rawWaitTest =>
    rcases h with rfl | rfl <;> cases hpc'
  case notifySample =>
    obtain ⟨v, rfl⟩ := h
    cases hpc'
  case addMark =>
    obtain rfl := h
    split at hpc' <;> cases hpc'
  all_goals
    obtain rfl := h
    cases hpc'

theorem rawWaiting_of_entering {pc : Pc T Q} (h : pc.entering = true) :
  pc.rawWaiting = true
  := by
  cases pc <;> first | exact h | cases h

theorem rawWaiting_of_awaits {pc : Pc T Q} {qp : Q} (h : pc.awaits qp = true) :
  pc.rawWaiting = true
  := by
  cases pc <;> first | rfl | cases h

end Pc

namespace System.Moved

variable {s s' : System T Q} {l : Label T Q} {tp : T}

/-- A thread about to be queued was so before, or calls a function. -/
theorem entering_cases (h : Moved s l s') (hpc : (s'.pc tp).entering = true) :
  (s.pc tp).entering = true ∨ tp = s.k.current ∧ s.pc tp = .user ∧ ∃ op, l = .call op ∧
    op.stage.entering = true
  := by
  rcases h.pc_cases tp with hsame | ⟨hcurrent, huser, op, hl, -, hstage⟩ | ⟨-, -, hfollows⟩
  · left
    rwa [← hsame]
  · right
    rw [hstage] at hpc
    exact ⟨hcurrent, huser, op, hl, hpc⟩
  · left
    apply hfollows.entering hpc

/-- A thread that awaits an event did so before, or is queued. -/
theorem awaits_cases (h : Moved s l s') {qp : Q} (hpc : (s'.pc tp).awaits qp = true) :
  (s.pc tp).awaits qp = true ∨ l = .run ∧ tp = s.k.current ∧ s.pc tp = .rawWaitAdd qp
  := by
  rcases h.pc_cases tp with hsame | ⟨-, -, op, -, -, hstage⟩ | ⟨hcurrent, hl, hfollows⟩
  · left
    rwa [← hsame]
  · rw [hstage] at hpc
    cases op <;> cases hpc
  · apply (hfollows.awaits hpc).imp_right
    intro hadd
    exact ⟨hl, hcurrent, hadd⟩

end System.Moved

/-- What holds of a thread in `raw_event_wait`, on the lists that the links represent. -/
structure Waiter (tp : T) (s : System T Q) (L : Root Q → List T) : Prop where
  entering : (s.pc tp).entering = true → Ready tp s.k L
  awaits : ∀ qp, (s.pc tp).awaits qp = true →
    tp ∈ L (.queue qp) ∧ s.k.wakes tp = 0 ∨
      Ready tp s.k L ∧ s.k.wakes tp = 1 ∧ ∀ q, tp ∉ L (.queue q)

namespace Waiter

variable {i tp : T} {s s' : System T Q} {cfg : Config Q} {L L' : Root Q → List T}
variable {l : Label T Q}

/-- A thread outside of `raw_event_wait`. -/
theorem of_not_rawWaiting (hpc : (s.pc tp).rawWaiting = false) : Waiter tp s L := by
  constructor
  case entering =>
    intro hentering
    rw [Pc.rawWaiting_of_entering hentering] at hpc
    cases hpc
  case awaits =>
    intro qp hawaits
    rw [Pc.rawWaiting_of_awaits hawaits] at hpc
    cases hpc

/-- A thread that waits is not lost. -/
theorem held (h : Waiter tp s L) (hlisted : Listed s.k L) : s.Held tp := by
  constructor
  case entering =>
    rw [runnable_iff hlisted]
    apply h.entering
  case awaits =>
    simp only [runnable_iff hlisted, queued_iff hlisted]
    apply h.awaits

/-- The thread is not taken hold of, and is woken at most. -/
theorem fate (h : Waiter tp s L) (hsound : Sound i s) (hmoved : System.Moved s l s')
    (hs : s.step cfg l = some s') {a : Prop} (hfate : Fate a tp s.k L s'.k L')
    (hadd : ¬ (l = .run ∧ tp = s.k.current ∧ ∃ qp, s.pc tp = .rawWaitAdd qp)) :
  Waiter tp s' L'
  := by
  constructor
  case entering =>
    intro hpc'
    apply hfate.ready
    rcases hmoved.entering_cases hpc' with hpc | ⟨rfl, huser, op, rfl, -⟩
    · apply h.entering hpc
    · refine ⟨hsound.running (System.step_call hs).1 ?_, .inl rfl⟩
      rw [huser]
      rfl
  case awaits =>
    intro qp hpc'
    have hpc : (s.pc tp).awaits qp = true := by
      apply (hmoved.awaits_cases hpc').resolve_right
      rintro ⟨hl, hcurrent, hstage⟩
      exact hadd ⟨hl, hcurrent, qp, hstage⟩
    rcases hfate with hspared | hroused
    · rw [hspared.wakes]
      apply (h.awaits qp hpc).imp
      · rintro ⟨hqueued, hwakes⟩
        exact ⟨(hspared.queued qp).mpr hqueued, hwakes⟩
      · rintro ⟨hready, hwakes, hout⟩
        refine ⟨hspared.ready hready, hwakes, ?_⟩
        intro q hq
        exact hout q ((hspared.queued q).mp hq)
    · right
      refine ⟨hroused.ready, ?_, hroused.out⟩
      rcases h.awaits qp hpc with ⟨-, hwakes⟩ | ⟨-, -, hout⟩
      · rw [hroused.wakes, hwakes]
      · obtain ⟨q, hq⟩ := hroused.queued
        exact absurd hq (hout q)

/-- The current thread is put on the thread queue. -/
theorem add (hsound : Sound i s) (hwf : Wf i s.k L) (hl : attentive cfg s .run = true)
    (hs : s.step cfg .run = some s') {qp : Q} (hpc : s.pc s.k.current = .rawWaitAdd qp)
    (hlisted : Listed s'.k L') :
  Waiter s.k.current s' L'
  := by
  obtain ⟨hsched, hrun⟩ := System.step_run hs
  have hrunning : (s.k.thr s.k.current).running = true := by
    apply hsound.running hsched
    rw [hpc]
    rfl
  have hi : s.k.current ≠ i := by
    apply hsound.not_idle
    rw [hpc]
    rfl
  have honRq : (s.k.thr s.k.current).onRq = true := by
    have horderly := orderly_of_attentive hl
    rwa [orderly, hpc] at horderly
  rw [System.run, hpc] at hrun
  obtain ⟨k, hk, rfl⟩ := Option.map_eq_some_iff.mp hrun
  obtain ⟨a, b, links, -, hk', hwf'⟩ := hwf.queueAddThread hrunning hi honRq hk
  have hcurrent : k.current = s.k.current := by rw [hk']; rfl
  obtain ⟨n, hn⟩ :=
    System.preemptEnableNoResched_eq cfg (s.setKernel (k.resetWakes k.current))
  rw [hn] at hlisted ⊢
  obtain rfl := hlisted.linked.unique hwf'.listed.linked
  have hstage : ((((s.setKernel (k.resetWakes k.current)).own fun th =>
      { th with preemptCnt := n }).goto (.rawWaitSchedule qp)).pc s.k.current)
        = .rawWaitSchedule qp := by
    rw [← hcurrent]
    exact Function.update_self _ _ _
  constructor
  case entering =>
    rw [hstage]
    intro hentering
    cases hentering
  case awaits =>
    rw [hstage]
    intro q hq
    obtain rfl : qp = q := by simpa [Pc.awaits] using hq
    left
    constructor
    · simp
    · rw [← hcurrent]
      exact Function.update_self _ _ _

/-- What takes hold of a thread in `raw_event_wait`: its own insertion into the queue, and a
thread that marks it as running. -/
theorem seized_cases (hwf : Wf i s.k L) (hl : attentive cfg s l = true)
    (hs : s.step cfg l = some s') (hpc : (s.pc tp).rawWaiting = true)
    (hseized : Seized tp s L l) :
  l = .run ∧ (tp = s.k.current ∧ (∃ qp, s.pc s.k.current = .rawWaitAdd qp) ∨
    s.pc s.k.current = .signalRun tp)
  := by
  cases l with
  | call op =>
      cases op with
      | sleep ms =>
          have htp : tp = s.k.current := hseized
          rw [htp, (System.step_call hs).2.1] at hpc
          cases hpc
      | _ => cases hseized
  | run =>
      use rfl
      simp only [attentive, Bool.and_eq_true] at hl
      rw [Seized] at hseized
      cases hstage : s.pc s.k.current <;> rw [hstage] at hseized hl
      case waitStop | irqWaitStop =>
        have htp : tp = s.k.current := hseized
        rw [htp, hstage] at hpc
        cases hpc
      case rawWaitAdd qp => exact .inl ⟨hseized, qp, rfl⟩
      case signalRun u =>
        obtain rfl : u = tp := hseized
        exact .inr rfl
      case addRemove u ret =>
        obtain ⟨rfl, hplace⟩ := hseized
        have hqueue : s.k.links.queue u = none := by simpa [hpc] using hl.2
        rw [hplace.resolve_right (not_not.mpr hqueue), hstage] at hpc
        cases hpc
      case notifyDecide qp v =>
        cases v with
        | null =>
            have hmem : tp ∈ L (.queue qp) := hseized
            have hhead : s.sample qp ≠ .thread := by simpa using hl.2
            exfalso
            apply hhead
            rw [System.sample, Qhead.sample_eq_thread]
            cases hqp : s.k.links.head (.queue qp) with
            | signaled => simp [hwf.listed.linked.signaled _ hqp] at hmem
            | ptr p =>
                cases p with
                | none =>
                    have hchain := hwf.listed.linked.chain _ _ hqp
                    rw [Chain.IsChain.nil_iff] at hchain
                    simp [hchain] at hmem
                | some t => exact ⟨t, rfl⟩
        | thread => cases hseized
        | signaled => cases hseized
      all_goals cases hseized
  | _ => cases hseized

/-- A thread marks a waiter as running. -/
theorem signalRun (h : Waiter tp s L) (hlisted : Listed s.k L) (hs : s.step cfg .run = some s')
    (hpc : s.pc s.k.current = .signalRun tp) (hrawWaiting : (s.pc tp).rawWaiting = true)
    (hlisted' : Listed s'.k L') :
  Waiter tp s' L'
  := by
  have hne : tp ≠ s.k.current := by
    rintro rfl
    rw [hpc] at hrawWaiting
    cases hrawWaiting
  have hsame := (System.step_moved hs).pc_of_ne hne
  have hrun := (System.step_run hs).2
  rw [System.run, hpc] at hrun
  obtain rfl := Option.some.inj hrun
  have hmarked : Listed (s.k.modify tp fun th => { th with running := true }) L :=
    hlisted.congr rfl rfl
  obtain rfl := hlisted'.linked.unique hmarked.linked
  have hready {k : Kernel T Q} (hready : Ready tp k L') :
      Ready tp (k.modify tp fun th => { th with running := true }) L' :=
    ⟨by simp, hready.2⟩
  constructor
  case entering =>
    rw [hsame]
    intro hentering
    apply hready (h.entering hentering)
  case awaits =>
    rw [hsame]
    intro qp hawaits
    apply (h.awaits qp hawaits).imp_right
    rintro ⟨hready₀, hwakes, hout⟩
    exact ⟨hready hready₀, hwakes, hout⟩

/-- A thread outside of `raw_event_wait` stays there when it does not call the function. -/
theorem outside (hmoved : System.Moved s l s') (hpc : (s.pc tp).rawWaiting = false)
    (hcall : ¬ ∃ op, l = .call op ∧ op.stage.entering = true) :
  Waiter tp s' L'
  := by
  have hnot {p : Prop} (hrawWaiting : (s.pc tp).rawWaiting = true) : p := by
    rw [hpc] at hrawWaiting
    cases hrawWaiting
  constructor
  case entering =>
    intro hentering
    rcases hmoved.entering_cases hentering with hentering | ⟨-, -, hop⟩
    · apply hnot (Pc.rawWaiting_of_entering hentering)
    · exact absurd hop hcall
  case awaits =>
    intro qp hawaits
    rcases hmoved.awaits_cases hawaits with hawaits | ⟨-, -, hadd⟩
    · apply hnot (Pc.rawWaiting_of_awaits hawaits)
    · apply hnot
      rw [hadd]
      rfl

/-- An attentive step keeps what holds of a waiter. -/
theorem step (h : Waiter tp s L) (hsound : Sound i s) (hwf : Wf i s.k L)
    (hl : attentive cfg s l = true) (hs : s.step cfg l = some s') (hlisted : Listed s'.k L') :
  Waiter tp s' L'
  := by
  have hmoved := System.step_moved hs
  by_cases hseized : Seized tp s L l
  · by_cases hrawWaiting : (s.pc tp).rawWaiting = true
    · obtain ⟨rfl, ⟨rfl, qp, hpc⟩ | hpc⟩ := seized_cases hwf hl hs hrawWaiting hseized
      · apply add hsound hwf hl hs hpc hlisted
      · apply h.signalRun hwf.listed hs hpc hrawWaiting hlisted
    · apply outside hmoved (by simpa using hrawWaiting)
      rintro ⟨op, rfl, hop⟩
      cases op with
      | sleep => cases hop
      | _ => cases hseized
  · obtain ⟨L₁, hlisted₁, hfate⟩ := hsound.fate hwf (orderly_of_attentive hl) hseized hs
    obtain rfl := hlisted.linked.unique hlisted₁.linked
    apply h.fate hsound hmoved hs hfate
    rintro ⟨rfl, rfl, qp, hpc⟩
    apply hseized
    rw [Seized, hpc]

end Waiter

/-! ### The notifier -/

section

variable {i : T} {s s' : System T Q} {cfg : Config Q} {L : Root Q → List T}

/-- The lists and the numbers of wake-ups of the threads that are not on the queue `qp`. -/
def Apart (qp : Q) (k : Kernel T Q) (L : Root Q → List T) (k' : Kernel T Q) : Prop :=
  ∃ L', Listed k' L' ∧ ∀ u, u ∉ L (.queue qp) →
    k'.wakes u = k.wakes u ∧ ∀ q, u ∈ L' (.queue q) ↔ u ∈ L (.queue q)

theorem Apart.refl {k : Kernel T Q} (h : Listed k L) (qp : Q) : Apart qp k L k :=
  ⟨L, h, fun _ _ => ⟨rfl, fun _ => Iff.rfl⟩⟩

theorem Apart.congr {qp : Q} {k k₁ k' : Kernel T Q} (h : Apart qp k L k₁)
    (hlinks : k'.links = k₁.links) (hnum : k'.num = k₁.num) (hwakes : k'.wakes = k₁.wakes) :
  Apart qp k L k'
  := by
  obtain ⟨L', hlisted, hapart⟩ := h
  refine ⟨L', hlisted.congr hlinks hnum, ?_⟩
  rw [hwakes]
  apply hapart

/-- The stage of `event_notify` behind the read of the head leaves the threads alone that are
not on the queue. -/
theorem notify_apart (h : Listed s.k L) {qp : Q} {v : Sample}
    (hnull : v = .null → s.sample qp ≠ .thread) (hs : s.notify cfg qp v = some s') :
  Apart qp s.k L s'.k
  := by
  cases v with
  | null =>
      obtain rfl := Option.some.inj hs
      refine ⟨L, h.setQhead ?_ (.inl rfl), fun _ _ => ⟨rfl, fun _ => Iff.rfl⟩⟩
      by_contra hne
      obtain ⟨t, ht⟩ := List.exists_mem_of_ne_nil _ hne
      apply hnull rfl
      rw [System.sample, Qhead.sample_eq_thread]
      obtain ⟨p, l, hp, hl, hmem⟩ := (queued_iff h).mpr ht
      cases p with
      | none =>
          rw [Chain.IsChain.nil_iff] at hl
          simp [hl] at hmem
      | some t => exact ⟨t, hp⟩
  | signaled =>
      obtain rfl := Option.some.inj hs
      apply Apart.refl h
  | thread =>
      rw [System.notify] at hs
      split at hs
      · rename_i t ht
        obtain ⟨k, hk, rfl⟩ := Option.map_eq_some_iff.mp hs
        have hmem : t ∈ L (.queue qp) := List.mem_of_mem_head? (h.linked.head_eq ht)
        obtain ⟨L', hwoke⟩ := Woke.rawEventNotify h hmem hk
        refine ⟨L', hwoke.listed, ?_⟩
        intro u hu
        have hne : u ≠ t := by
          rintro rfl
          exact hu hmem
        constructor
        · exact (congrFun hwoke.wakes u).trans (Function.update_of_ne hne _ _)
        · intro q
          apply hwoke.mem_iff_of_ne hne
      · obtain rfl := Option.some.inj hs
        apply Apart.refl h

/-- A notifier dequeues and wakes no thread that is not on its queue. -/
theorem notifyDecide_apart (hwf : Wf i s.k L) (hl : attentive cfg s .run = true) {qp : Q}
    {v : Sample} (hpc : s.pc s.k.current = .notifyDecide qp v)
    (hs : s.step cfg .run = some s') :
  Apart qp s.k L s'.k
  := by
  have hnull : v = .null → s.sample qp ≠ .thread := by
    rintro rfl
    simp only [attentive, hpc, Bool.and_eq_true, decide_eq_true_eq] at hl
    apply hl.2
  have hrun := (System.step_run hs).2
  rw [System.run, hpc] at hrun
  obtain ⟨s₁, hs₁, rfl⟩ := Option.map_eq_some_iff.mp hrun
  obtain ⟨n, hn⟩ := System.preemptDisable_eq cfg s
  rw [hn] at hs₁
  have hlisted : Listed (s.own fun th => { th with preemptCnt := n }).k L :=
    hwf.listed.congr rfl rfl
  have hapart : Apart qp s.k L s₁.k := notify_apart hlisted hnull hs₁
  obtain ⟨m, hm | hm⟩ := System.preemptEnable_eq cfg s₁
  · rw [hm]
    exact hapart.congr rfl rfl rfl
  · rw [hm]
    exact hapart.congr rfl rfl rfl

end

/-- In a run of attentive steps no waiter is lost, and no notifier takes a mark or `NULL` for
a thread.  A notifier that acts in a state reached neither wakes nor dequeues a thread that is
not on its queue. -/
theorem held_of_attentive {cfg : Config Q} {s s' : System T Q} {ready : List T}
    (hstart : s.Start ready)
    (hrun : Run.Guarded (System.step cfg) (fun s l => attentive cfg s l = true) s s') :
  (∀ tp, s'.Held tp) ∧ s'.fault = false ∧
    ∀ qp v s'', s'.pc s'.k.current = .notifyDecide qp v → attentive cfg s' .run = true →
      s'.step cfg .run = some s'' → ∀ u, ¬ s'.k.Queued qp u →
        s''.k.wakes u = s'.k.wakes u ∧ ∀ q, s''.k.Queued q u ↔ s'.k.Queued q u
  := by
  have hinv : Sound s.k.current s' ∧ s'.fault = false ∧
      ∃ L, Wf s.k.current s'.k L ∧ ∀ tp, Waiter tp s' L := by
    apply hrun.invariant fun s' => Sound s.k.current s' ∧ s'.fault = false ∧
      ∃ L, Wf s.k.current s'.k L ∧ ∀ tp, Waiter tp s' L
    · have hsound := Sound.start hstart
      obtain ⟨L, hwf⟩ := hsound.wf
      refine ⟨hsound, hstart.fault, L, hwf, ?_⟩
      intro tp
      apply Waiter.of_not_rawWaiting
      rw [hstart.pc]
      rfl
    · rintro u l v ⟨hsound, hfault, L, hwf, hwaiter⟩ hl hv
      have hsound' := hsound.step (orderly_of_attentive hl) hv
      obtain ⟨L', hwf'⟩ := hsound'.wf
      refine ⟨hsound', ?_, L', hwf', ?_⟩
      · by_contra hfault'
        rcases (System.step_moved hv).fault (by simpa using hfault') with hfault₁ | hmisread
        · rw [hfault] at hfault₁
          cases hfault₁
        · obtain ⟨rfl, qp, hpc, hsample⟩ := hmisread
          have horderly := orderly_of_attentive hl
          simp only [orderly, hpc, orderlyRun, decide_eq_true_eq] at horderly
          exact hsample horderly
      · intro tp
        apply (hwaiter tp).step hsound hwf hl hv hwf'.listed
  obtain ⟨-, hfault, L, hwf, hwaiter⟩ := hinv
  refine ⟨?_, hfault, ?_⟩
  · intro tp
    apply (hwaiter tp).held hwf.listed
  · intro qp v s'' hpc hl hs u hu
    rw [queued_iff hwf.listed] at hu
    obtain ⟨L', hlisted, hapart⟩ := notifyDecide_apart hwf hl hpc hs
    obtain ⟨hwakes, hmem⟩ := hapart u hu
    use hwakes
    intro q
    rw [queued_iff hlisted, queued_iff hwf.listed, hmem]

/-! ### Runs -/

section

/-- The threads `1` and `2` are started, and the thread `1` calls `event_wait`. -/
def startEventWait : List (Label (Fin 3) Unit) :=
  startTwo ++ [.call (.eventWait () 0), .run]

/-- The theorem applied to a thread that is notified after it has left the processor. -/
theorem held_of_attentive_startEventWait :
  ∃ s, Run.exec (System.step preemptConfig) (System.boot idleLast 0)
      (startEventWait ++ [.run, .run, .run, .run, .pass, .call (.eventNotify ()), .run, .run])
        = some s ∧ (s.pc 1).awaits () = true ∧ s.Held 1
  := by
  obtain ⟨s, hs, hawaits⟩ := Run.exists_of_any (System.step preemptConfig)
    (System.boot idleLast 0)
    (startEventWait ++ [.run, .run, .run, .run, .pass, .call (.eventNotify ()), .run, .run])
    (fun s => (s.pc 1).awaits ()) (by decide +kernel)
  refine ⟨s, hs, hawaits, ?_⟩
  have hrun : Run.Guarded (System.step preemptConfig)
      (fun s l => attentive preemptConfig s l = true) (System.boot idleLast 0) s := by
    apply Run.guarded_of_exec _ hs
    decide +kernel
  apply (held_of_attentive (System.boot_start _ _) hrun).1

/-- The thread `2` reads an empty queue in `event_notify` and is preempted, and the thread `1`
is queued.  Then the thread `2` overwrites the head of the queue, and the waiter is lost. -/
theorem not_held_preempted_notify :
  ∃ s, Run.exec (System.step preemptConfig) (System.boot idleLast 0)
      (startEventWait ++ [.interrupt true, .pass, .call (.eventNotify ()), .run,
        .interrupt true, .pass, .test, .run, .run, .run, .run, .pass, .test, .run]) = some s ∧
    ¬ s.Held 1
  := by
  obtain ⟨s, hs, htest⟩ := Run.exists_of_any (System.step preemptConfig)
    (System.boot idleLast 0)
    (startEventWait ++ [.interrupt true, .pass, .call (.eventNotify ()), .run,
      .interrupt true, .pass, .test, .run, .run, .run, .run, .pass, .test, .run])
    (fun s => (s.pc 1).awaits () && (s.k.wakes 1 = 0 &&
      s.k.links.head (.queue ()) = .signaled)) (by decide +kernel)
  simp only [Bool.and_eq_true, decide_eq_true_eq] at htest
  obtain ⟨hawaits, hwakes, hhead⟩ := htest
  refine ⟨s, hs, ?_⟩
  intro hheld
  rcases hheld.awaits () hawaits with ⟨⟨p, l, hp, -⟩, -⟩ | ⟨-, hwoken, -⟩
  · rw [hhead] at hp
    cases hp
  · rw [hwakes] at hwoken
    cases hwoken

end

end Etaos
