import Etaos.Library.Run
import Etaos.Sched.ThreadQueue

/-!
# Waiting for an interrupt

A thread that calls `mutex_wait_tmo` and an interrupt handler that calls
`mutex_unlock_from_irq`, step by step.  The thread is the only one that waits on the mutex.
Interrupts can come between any two steps of the thread; while it is in `schedule`, a pass of
the scheduler first looks at the timers and then at the events that interrupts have left.

`Awaits n w` says that `w` has lost none of the `n` notifications there were, for `n` at most
one.
-/

set_option linter.unusedSectionVars false

namespace Etaos

/-- A thread that is put on an empty queue counts the event that the queue was marked
with. -/
theorem Linked.queueInsert_ec {T R : Type} [DecidableEq T] [DecidableEq R] [Fintype T]
    {k k' : Links T R} {L : R → List T} (h : Linked k L) {keep : T → Bool} {r : R} {tp : T}
    (hr : L r = []) (hk' : k.queueInsert keep r tp = some k') :
  k'.ec tp = if k.head r = .signaled then 1 else 0
  := by
  rw [Links.queueInsert] at hk'
  cases hhead : k.head r with
  | signaled =>
      simp only [hhead] at hk'
      obtain rfl := Option.some.inj hk'
      simp [Links.link, Links.store]
  | ptr p =>
      have hp : p = none := by
        simpa [hr] using (h.head_eq hhead).symm
      subst hp
      simp only [hhead, Links.skip, Option.map_some] at hk'
      obtain rfl := Option.some.inj hk'
      simp [Links.link, Links.store]

namespace ThreadQueue

variable {T : Type} [DecidableEq T] [Fintype T]

/-- What `event_tmo` does to the queue, when it finds the thread with the timer. -/
def eventTmo (q : ThreadQueue T) (walker : T) : Option (ThreadQueue T) :=
  (q.rawQueueRemoveThread walker).map signalIfEmpty

namespace Holds

variable {q q' : ThreadQueue T} {m : Bool} {l : List T} {tp : T}

/-- The only thread of a queue is taken off it. -/
theorem eventTmo (h : Holds q m [tp]) :
  ∃ q', q.eventTmo tp = some q' ∧ Holds q' true []
  := by
  obtain ⟨q', hq', hholds⟩ := h.rawEventNotify
  use q'
  refine ⟨?_, hholds⟩
  rw [ThreadQueue.rawEventNotify, h.qhead_cons] at hq'
  obtain ⟨q₁, hq₁, hq'⟩ := Option.map_eq_some_iff.mp hq'
  rw [ThreadQueue.eventTmo, hq₁, Option.map_some, (Prod.mk.inj hq').1]

/-- A thread that is queued alone counts the event that the queue was marked with. -/
theorem add_nil (h : Holds q m []) (prio : T → Nat) (tp : T) :
  ∃ q', q.rawQueueAddThread prio tp = some q' ∧ Holds q' false [tp] ∧
    q'.links.ec tp = if m then 1 else 0
  := by
  obtain ⟨q', a, b, hq', hab, hholds⟩ := h.add prio (List.not_mem_nil : tp ∉ [])
  obtain ⟨rfl, rfl⟩ := List.append_eq_nil_iff.mp hab.symm
  refine ⟨q', hq', hholds, ?_⟩
  obtain ⟨c, hc⟩ := Option.ne_none_iff_exists'.mp h.schedClass
  simp only [rawQueueAddThread, hc] at hq'
  obtain ⟨links, hlinks, rfl⟩ := Option.map_eq_some_iff.mp hq'
  have hmark : q.links.head () = .signaled ↔ m = true := h.mark
  simp only [← hmark]
  cases c with
  | fifo => apply h.linked.queueInsert_ec rfl hlinks
  | rr => apply h.linked.queueInsert_ec rfl hlinks

end Holds

end ThreadQueue

/-- The error code of a resource that is not available for now. -/
def EAGAIN : Int := 5

/-- Where a thread is in `mutex_wait_tmo`. -/
inductive WaitPc where
  /-- In `event_wait`, before it discards an earlier event. -/
  | eventWait
  /-- In `raw_event_wait`, before it looks for an event. -/
  | rawEventWait
  /-- In `raw_event_wait`, before it is queued. -/
  | queueAdd
  /-- In `schedule`, on the queue. -/
  | schedule
  /-- Behind `mutex_wait_tmo`, with the code that it returned. -/
  | returned (rv : Int)
  deriving DecidableEq

/-- A thread that waits for an interrupt. -/
structure WaitTmo where
  qp : ThreadQueue Unit
  pc : WaitPc

namespace WaitTmo

/-- A step of the thread, up to `schedule`. -/
def run (w : WaitTmo) : Option WaitTmo :=
  match w.pc with
  | .eventWait =>
      some
        { qp := if w.qp.qhead = .signaled then w.qp.setQhead (.ptr none) else w.qp
          pc := .rawEventWait }
  | .rawEventWait =>
      if w.qp.qhead = .signaled then
        some { qp := w.qp.setQhead (.ptr none), pc := .returned (-EOK) }
      else
        some { w with pc := .queueAdd }
  | .queueAdd =>
      -- There is no other thread on the queue, whose priority would be compared.
      (w.qp.rawQueueAddThread (fun _ => 0) ()).map fun qp => { qp, pc := .schedule }
  | .schedule | .returned _ => none

/-- The function `mutex_unlock_irq`. -/
def mutexUnlockIrq (w : WaitTmo) : WaitTmo :=
  { w with qp := w.qp.eventNotifyIrq }

/-- A pass of the scheduler that takes the thread off the queue; `expired` is whether its
timer is due. -/
def pass (w : WaitTmo) (expired : Bool) : Option WaitTmo :=
  if w.pc = .schedule then
    if expired then
      (w.qp.eventTmo ()).map fun qp => { qp, pc := .returned (-EINVAL) }
    else if w.qp.links.ec () ≠ 0 then
      (w.qp.signalThread ()).map fun (qp, _) => { qp, pc := .returned (-EOK) }
    else
      none
  else
    none

/-- The steps that the thread has left until `mutex_wait_tmo` returns. -/
def stepsLeft (w : WaitTmo) : Nat :=
  match w.pc with
  | .eventWait => 4
  | .rawEventWait => 3
  | .queueAdd => 2
  | .schedule => 1
  | .returned _ => 0

/-- Of the notifications, which are one if `n` and none otherwise, none is lost: it is marked
on the queue, counted by the thread that waits, or the thread has returned for it. -/
def Awaits (n : Bool) (w : WaitTmo) : Prop :=
  match w.pc with
  | .eventWait => n = false ∧ ∃ m, w.qp.Holds m []
  | .rawEventWait | .queueAdd => w.qp.Holds n []
  | .schedule => w.qp.Holds false [()] ∧ w.qp.links.ec () = if n then 1 else 0
  | .returned rv => rv = -EOK ∧ n = true

/-- The thread misses the notification: it will discard it, or waits without it, or has
returned because its time was up. -/
def Misses (w : WaitTmo) : Prop :=
  match w.pc with
  | .eventWait => w.qp.Holds true []
  | .rawEventWait | .queueAdd => w.qp.Holds false []
  | .schedule => w.qp.Holds false [()] ∧ w.qp.links.ec () = 0
  | .returned rv => rv = -EINVAL

section

variable {w w' : WaitTmo} {n : Bool}

theorem stepsLeft_run (h : w.run = some w') : w'.stepsLeft < w.stepsLeft := by
  rw [run] at h
  split at h <;> rename_i hpc
  · obtain rfl := Option.some.inj h
    simp [stepsLeft, hpc]
  · split at h <;> obtain rfl := Option.some.inj h <;> simp [stepsLeft, hpc]
  · obtain ⟨qp, -, rfl⟩ := Option.map_eq_some_iff.mp h
    simp [stepsLeft, hpc]
  · cases h
  · cases h

/-- A pass of the scheduler that takes the thread off the queue makes it return. -/
theorem pc_of_pass {expired : Bool} (h : w.pass expired = some w') :
  w.pc = .schedule ∧ ∃ rv, w'.pc = .returned rv
  := by
  rw [pass] at h
  split at h
  · rename_i hpc
    use hpc
    split at h
    · obtain ⟨qp, -, rfl⟩ := Option.map_eq_some_iff.mp h
      exact ⟨_, rfl⟩
    · split at h
      · obtain ⟨qp, -, rfl⟩ := Option.map_eq_some_iff.mp h
        exact ⟨_, rfl⟩
      · cases h
  · cases h

theorem stepsLeft_pass {expired : Bool} (h : w.pass expired = some w') :
  w'.stepsLeft < w.stepsLeft
  := by
  obtain ⟨hpc, rv, hpc'⟩ := pc_of_pass h
  simp [stepsLeft, hpc, hpc']

@[simp] theorem stepsLeft_mutexUnlockIrq : w.mutexUnlockIrq.stepsLeft = w.stepsLeft :=
  rfl

@[simp] theorem pc_mutexUnlockIrq : w.mutexUnlockIrq.pc = w.pc :=
  rfl

/-- The step that discards an earlier event. -/
theorem holds_discard {q : ThreadQueue Unit} {m : Bool} (h : q.Holds m []) :
  (if q.qhead = .signaled then q.setQhead (.ptr none) else q).Holds false []
  := by
  split
  · rename_i hmark
    obtain rfl := h.mark.mp hmark
    apply h.clear
  · rename_i hmark
    rw [h.mark, Bool.not_eq_true] at hmark
    subst hmark
    apply h

namespace Awaits

/-- A step of the thread loses no notification. -/
theorem run (h : Awaits n w) (hw : w.run = some w') : Awaits n w' := by
  rw [WaitTmo.run] at hw
  rw [Awaits] at h
  split at hw <;> rename_i hpc <;> simp only [hpc] at h
  · obtain rfl := Option.some.inj hw
    obtain ⟨rfl, m, hm⟩ := h
    apply holds_discard hm
  · split at hw <;> rename_i hmark <;> obtain rfl := Option.some.inj hw
    · exact ⟨rfl, h.mark.mp hmark⟩
    · apply h
  · obtain ⟨q', hq', hholds, hec⟩ := h.add_nil (fun _ => 0) ()
    rw [hq'] at hw
    obtain rfl := Option.some.inj hw
    exact ⟨hholds, hec⟩
  · cases hw
  · cases hw

/-- The thread can run until it is on the queue. -/
theorem exists_run (h : Awaits n w) (hpc : 1 < w.stepsLeft) : ∃ w', w.run = some w' := by
  rw [Awaits] at h
  cases hw : w.pc <;> simp only [hw] at h <;> simp only [stepsLeft, hw] at hpc
  · simp [WaitTmo.run, hw]
  · by_cases hmark : w.qp.qhead = .signaled <;> simp [WaitTmo.run, hw, hmark]
  · obtain ⟨q', hq', -, -⟩ := h.add_nil (fun _ => 0) ()
    simp [WaitTmo.run, hw, hq']
  · omega
  · omega

/-- A notification is not lost behind `event_wait`. -/
theorem mutexUnlockIrq (h : Awaits false w) (hpc : w.pc ≠ .eventWait) :
  Awaits true w.mutexUnlockIrq
  := by
  rw [Awaits] at h ⊢
  rw [pc_mutexUnlockIrq]
  have hnull : w.qp.Holds false [] → w.qp.eventNotifyIrq.Holds true [] := by
    intro hw
    have hhead := Qhead.sample_eq_null.mp (hw.sample_eq_null.mpr ⟨rfl, rfl⟩)
    rw [ThreadQueue.eventNotifyIrq, hhead]
    apply hw.signal
  cases hw : w.pc <;> simp only [hw] at h
  · exact absurd hw hpc
  · apply hnull h
  · apply hnull h
  · obtain ⟨hholds, hec⟩ := h
    dsimp only [WaitTmo.mutexUnlockIrq]
    rw [ThreadQueue.eventNotifyIrq, hholds.qhead_cons]
    use hholds.set_ec _
    simp [hec]
  · simp at h

/-- A notification that comes before `event_wait` is missed. -/
theorem misses (h : Awaits false w) (hpc : w.pc = .eventWait) :
  Misses w.mutexUnlockIrq
  := by
  rw [Awaits, hpc] at h
  obtain ⟨-, m, hm⟩ := h
  rw [Misses, pc_mutexUnlockIrq, hpc]
  dsimp only [WaitTmo.mutexUnlockIrq]
  cases m with
  | true =>
      rw [ThreadQueue.eventNotifyIrq, hm.mark.mpr rfl]
      apply hm
  | false =>
      have hhead := Qhead.sample_eq_null.mp (hm.sample_eq_null.mpr ⟨rfl, rfl⟩)
      rw [ThreadQueue.eventNotifyIrq, hhead]
      apply hm.signal

/-- A pass of the scheduler before the time is up wakes the thread for its notification. -/
theorem pass (h : Awaits n w) (hw : w.pass false = some w') : Awaits n w' := by
  rw [WaitTmo.pass] at hw
  split at hw
  · rename_i hpc
    rw [Awaits, hpc] at h
    obtain ⟨hholds, hec⟩ := h
    obtain ⟨q', hq', hholds'⟩ := hholds.signalThread ()
    rw [if_neg (by simp)] at hw
    split at hw
    · rename_i hne
      rw [hq'] at hw
      obtain rfl := Option.some.inj hw
      refine ⟨rfl, ?_⟩
      cases n with
      | true => rfl
      | false => simp [hec] at hne
    · cases hw
  · cases hw

theorem exists_pass (h : Awaits true w) (hpc : w.pc = .schedule) :
  ∃ w', w.pass false = some w'
  := by
  rw [Awaits, hpc] at h
  obtain ⟨hholds, hec⟩ := h
  obtain ⟨q', hq', -⟩ := hholds.signalThread ()
  simp [WaitTmo.pass, hpc, hec, hq']

end Awaits

/-- A pass of the scheduler when the time is up makes `mutex_wait_tmo` fail. -/
theorem misses_of_expired (h : w.pass true = some w') : Misses w' := by
  rw [pass] at h
  split at h
  · rw [if_pos rfl] at h
    obtain ⟨q, -, rfl⟩ := Option.map_eq_some_iff.mp h
    rfl
  · cases h

namespace Misses

/-- A missed notification does not come back. -/
theorem run (h : Misses w) (hw : w.run = some w') : Misses w' := by
  rw [WaitTmo.run] at hw
  rw [Misses] at h
  split at hw <;> rename_i hpc <;> simp only [hpc] at h
  · obtain rfl := Option.some.inj hw
    apply holds_discard h
  · split at hw <;> rename_i hmark <;> obtain rfl := Option.some.inj hw
    · exact absurd (h.mark.mp hmark) (by simp)
    · apply h
  · obtain ⟨q', hq', hholds, hec⟩ := h.add_nil (fun _ => 0) ()
    rw [hq'] at hw
    obtain rfl := Option.some.inj hw
    exact ⟨hholds, hec⟩
  · cases hw
  · cases hw

theorem pass {expired : Bool} (h : Misses w) (hw : w.pass expired = some w') :
  Misses w'
  := by
  cases expired with
  | true => apply misses_of_expired hw
  | false =>
      rw [WaitTmo.pass] at hw
      split at hw
      · rename_i hpc
        rw [Misses, hpc] at h
        simp [h.2] at hw
      · cases hw

/-- The wait has failed when it has returned. -/
theorem eq_of_returned (h : Misses w) {rv : Int} (hpc : w.pc = .returned rv) :
  rv = -EINVAL
  := by
  rw [Misses, hpc] at h
  apply h

end Misses

/-- It is settled how the wait ends: there is a notification for the thread, or it has
returned. -/
def Settled (w : WaitTmo) : Prop :=
  match w.pc with
  | .eventWait => False
  | .rawEventWait | .queueAdd => w.qp.qhead = .signaled
  | .schedule => w.qp.links.ec () ≠ 0
  | .returned _ => True

instance (w : WaitTmo) : Decidable w.Settled := by
  unfold Settled
  split <;> infer_instance

/-- The thread is on the queue while it is in `schedule`, and nothing else is. -/
def Queued (w : WaitTmo) : Prop :=
  match w.pc with
  | .eventWait | .rawEventWait | .queueAdd => ∃ m, w.qp.Holds m []
  | .schedule => w.qp.Holds false [()]
  | .returned rv => (rv = -EOK ∨ rv = -EINVAL) ∧ ∃ m, w.qp.Holds m []

namespace Queued

/-- A notification changes the mark of the queue or the counter of the thread. -/
theorem mutexUnlockIrq (h : Queued w) : Queued w.mutexUnlockIrq := by
  have hnil : (∃ m, w.qp.Holds m []) → ∃ m, w.qp.eventNotifyIrq.Holds m [] := by
    rintro ⟨m, hm⟩
    rw [ThreadQueue.eventNotifyIrq]
    split
    · exact ⟨true, hm.signal⟩
    · rename_i tp hhead
      cases hm.head?_eq hhead
    · exact ⟨m, hm⟩
  rw [Queued] at h ⊢
  rw [pc_mutexUnlockIrq]
  cases hw : w.pc <;> simp only [hw] at h
  · apply hnil h
  · apply hnil h
  · apply hnil h
  · dsimp only [WaitTmo.mutexUnlockIrq]
    rw [ThreadQueue.eventNotifyIrq, h.qhead_cons]
    apply h.set_ec
  · exact ⟨h.1, hnil h.2⟩

/-- A step of the thread settles nothing. -/
theorem run (h : Queued w) (hw : w.run = some w') :
  Queued w' ∧ (w'.Settled → w.Settled) ∧ ∀ rv, w'.pc = .returned rv → rv = -EOK
  := by
  rw [WaitTmo.run] at hw
  rw [Queued] at h
  split at hw <;> rename_i hpc <;> simp only [hpc] at h
  · obtain rfl := Option.some.inj hw
    obtain ⟨m, hm⟩ := h
    have hfalse := holds_discard hm
    refine ⟨⟨false, hfalse⟩, ?_, fun rv hrv => nomatch hrv⟩
    intro hsettled
    cases hfalse.mark.mp hsettled
  · obtain ⟨m, hm⟩ := h
    split at hw <;> rename_i hmark <;> obtain rfl := Option.some.inj hw
    · refine ⟨⟨.inl rfl, false, ?_⟩, ?_, ?_⟩
      · obtain rfl := hm.mark.mp hmark
        apply hm.clear
      · intro _
        simp only [Settled, hpc, hmark]
      · rintro rv ⟨⟩
        rfl
    · refine ⟨⟨m, hm⟩, ?_, fun rv hrv => nomatch hrv⟩
      intro hsettled
      exact absurd hsettled hmark
  · obtain ⟨m, hm⟩ := h
    obtain ⟨q', hq', hholds, hec⟩ := hm.add_nil (fun _ => 0) ()
    rw [hq'] at hw
    obtain rfl := Option.some.inj hw
    refine ⟨hholds, ?_, fun rv hrv => nomatch hrv⟩
    intro hsettled
    simp only [Settled, hec] at hsettled
    simp only [Settled, hpc]
    rw [hm.mark]
    by_contra hne
    simp [hne] at hsettled
  · cases hw
  · cases hw

/-- A pass of the scheduler takes the thread off the queue when it is notified or its time is
up. -/
theorem pass (h : Queued w) {expired : Bool} (hw : w.pass expired = some w') :
  Queued w' ∧ if expired then w'.pc = .returned (-EINVAL)
    else w'.pc = .returned (-EOK) ∧ w.Settled
  := by
  rw [WaitTmo.pass] at hw
  split at hw
  · rename_i hpc
    rw [Queued, hpc] at h
    cases expired with
    | true =>
        rw [if_pos rfl] at hw
        obtain ⟨q', hq', hholds⟩ := h.eventTmo
        rw [hq'] at hw
        obtain rfl := Option.some.inj hw
        exact ⟨⟨.inr rfl, true, hholds⟩, rfl⟩
    | false =>
        rw [if_neg (by simp)] at hw
        split at hw
        · rename_i hec
          obtain ⟨q', hq', hholds⟩ := h.signalThread ()
          rw [hq'] at hw
          obtain rfl := Option.some.inj hw
          refine ⟨⟨.inl rfl, true, hholds⟩, rfl, ?_⟩
          simp only [Settled, hpc]
          apply hec
        · cases hw
  · cases hw

end Queued

end

end WaitTmo

end Etaos
