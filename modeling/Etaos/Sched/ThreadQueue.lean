import Etaos.Sched.QueueSpec

/-!
# One thread queue

The functions of `event.c` on a thread queue, as the mutexes, the semaphores and the
message queues use it: a thread that waits is put on the queue, and a notification takes
the head off it.  Each part below runs with preemption disabled; only `event_notify` reads
the flags of the processor and the head of the queue before it disables preemption.

With `CONFIG_PREEMPT` a thread can find the flag `CPU_IRQ_EXEC_FLAG` set: one that runs for the
first time out of an interrupt keeps the flag of the interrupt.  Its calls of `event_notify` do
what an interrupt does, and count an event for the thread at the head, which the scheduler
takes off the queue in its next pass.

`Holds q m l` says that the queue `q` holds the threads `l`, and whether it is marked
`SIGNALED`.
-/

set_option linter.unusedSectionVars false

namespace Etaos

/-- A thread queue, with the links of the threads on it. -/
structure ThreadQueue (T : Type) where
  links : Links T Unit
  schedClass : Option SchedClass

namespace ThreadQueue

variable {T : Type} [DecidableEq T]

/-- The field `qhead`. -/
def qhead (q : ThreadQueue T) : Qhead T :=
  q.links.head ()

/-- The assignment of `NULL` or `SIGNALED` to the field `qhead`. -/
def setQhead (q : ThreadQueue T) (v : Qhead T) : ThreadQueue T :=
  { q with links := { q.links with head := Function.update q.links.head () v } }

/-- The function `thread_queue_init`. -/
def threadQueueInit : ThreadQueue T where
  links :=
    { head := fun _ => .signaled
      next := fun _ => none
      queue := fun _ => none
      ec := fun _ => 0 }
  schedClass := some .fifo

/-- A queue without waiters is marked `SIGNALED`. -/
def signalIfEmpty (q : ThreadQueue T) : ThreadQueue T :=
  if q.qhead = .ptr none then
    q.setQhead .signaled
  else
    q

theorem signalIfEmpty_ec (q : ThreadQueue T) : q.signalIfEmpty.links.ec = q.links.ec := by
  rw [signalIfEmpty]
  split <;> rfl

/-- The function `event_notify_irq`. -/
def eventNotifyIrq (q : ThreadQueue T) : ThreadQueue T :=
  match q.qhead with
  | .ptr none => q.setQhead .signaled
  | .ptr (some tp) =>
      { q with
        links := { q.links with ec := Function.update q.links.ec tp (q.links.ec tp + 1) } }
  | .signaled => q

variable [Fintype T]

/-- The insertion of `raw_queue_add_thread`, which does nothing on a queue without a
scheduling class. -/
def rawQueueAddThread (prio : T → Nat) (q : ThreadQueue T) (tp : T) :
    Option (ThreadQueue T) :=
  match q.schedClass with
  | none => some q
  | some c => (q.links.classInsert c prio () tp).map fun links => { q with links }

/-- The removal of `raw_queue_remove_thread`. -/
def rawQueueRemoveThread (q : ThreadQueue T) (tp : T) : Option (ThreadQueue T) :=
  match q.schedClass with
  | none => some q
  | some _ => (q.links.rrSharedQueueRemove () tp).map fun (links, _) => { q with links }

/-- The function `raw_event_wait` up to its call of `schedule`; the thread waits when the
queue is not marked. -/
def rawEventWait (prio : T → Nat) (q : ThreadQueue T) (tp : T) :
    Option (ThreadQueue T × Bool) :=
  if q.qhead = .signaled then
    some (q.setQhead (.ptr none), false)
  else
    (q.rawQueueAddThread prio tp).map fun q => (q, true)

/-- The function `__raw_event_notify`, with the thread that it wakes. -/
def rawEventNotify (q : ThreadQueue T) : Option (ThreadQueue T × Option T) :=
  match q.qhead with
  | .ptr (some tp) => (q.rawQueueRemoveThread tp).map fun q => (q.signalIfEmpty, some tp)
  | _ => none

/-- The function `event_notify` behind its reads of the flag `CPU_IRQ_EXEC_FLAG` and of the
head, with the thread that it wakes. -/
def eventNotify (q : ThreadQueue T) (irqExec : Bool) (tp : Sample) :
    Option (ThreadQueue T × Option T) :=
  if irqExec then
    some (q.eventNotifyIrq, none)
  else
    match tp with
    | .null => some (q.setQhead .signaled, none)
    | .signaled => some (q, none)
    | .thread => q.rawEventNotify

/-- What `rq_signal_threads` and `rq_signal_event_queue` do to the queue of a thread that has
an event, with the thread that they wake. -/
def signalThread (q : ThreadQueue T) (iterator : T) : Option (ThreadQueue T × Option T) :=
  let q := { q with
    links := { q.links with
      ec := Function.update q.links.ec iterator (q.links.ec iterator - 1) } }
  match q.qhead with
  | .ptr (some tp) => (q.rawQueueRemoveThread tp).map fun q => (q.signalIfEmpty, some tp)
  | _ => some (q, none)

/-- A call of `event_notify` wakes the thread at the head, if there is one: the flag
`CPU_IRQ_EXEC_FLAG` is clear, or the head is no thread. -/
def prompt (q : ThreadQueue T) (irqExec : Bool) : Bool :=
  !irqExec || q.qhead.sample ≠ .thread

@[simp] theorem prompt_false (q : ThreadQueue T) : q.prompt false = true := rfl

/-- What a call that wakes the thread at the head goes by: with the flag set it is the head that
the queue has. -/
def noticed (q : ThreadQueue T) (irqExec : Bool) (tp : Sample) : Sample :=
  if irqExec then
    q.qhead.sample
  else
    tp

theorem noticed_sample (q : ThreadQueue T) (irqExec : Bool) :
  q.noticed irqExec q.qhead.sample = q.qhead.sample
  := by
  rw [noticed, ite_self]

theorem eventNotify_irq (q : ThreadQueue T) (tp : Sample) :
  q.eventNotify true tp = some (q.eventNotifyIrq, none)
  := rfl

/-- A call that wakes the thread at the head does not depend on the flag. -/
theorem eventNotify_eq {q : ThreadQueue T} {irqExec : Bool} (h : q.prompt irqExec = true)
    (tp : Sample) :
  q.eventNotify irqExec tp = q.eventNotify false (q.noticed irqExec tp)
  := by
  cases irqExec with
  | false => rfl
  | true =>
      have hnot : q.qhead.sample ≠ .thread := by simpa [prompt] using h
      rw [eventNotify_irq, noticed, if_pos rfl, eventNotifyIrq]
      cases hq : q.qhead with
      | signaled => rfl
      | ptr p =>
          cases p with
          | none => rfl
          | some t => exact absurd (Qhead.sample_eq_thread.mpr ⟨t, hq⟩) hnot

/-! ### The threads on a queue -/

/-- The queue holds the threads `l`, and `m` is whether it is marked. -/
structure Holds (q : ThreadQueue T) (m : Bool) (l : List T) : Prop where
  linked : Linked q.links fun _ => l
  mark : q.qhead = .signaled ↔ m = true
  schedClass : q.schedClass ≠ none

theorem holds_threadQueueInit : Holds (threadQueueInit : ThreadQueue T) true [] := by
  constructor
  · constructor <;> simp [threadQueueInit]
  · simp [threadQueueInit, qhead]
  · simp [threadQueueInit]

namespace Holds

variable {q q' : ThreadQueue T} {m : Bool} {l : List T} {tp : T}

/-- A marked queue holds no thread. -/
theorem nil_of_mark (h : Holds q true l) : l = [] := by
  apply h.linked.signaled ()
  apply h.mark.mpr rfl

theorem sample_eq_signaled (h : Holds q m l) : q.qhead.sample = .signaled ↔ m = true := by
  rw [Qhead.sample_eq_signaled, h.mark]

/-- A head that is a pointer leads to the first thread. -/
theorem head?_eq (h : Holds q m l) {p : Option T} (hp : q.qhead = .ptr p) : l.head? = p :=
  h.linked.head_eq hp

theorem qhead_cons (h : Holds q m (tp :: l)) : q.qhead = .ptr (some tp) :=
  h.linked.head_of_cons rfl

/-- The head is `NULL` when the queue is neither marked nor holds a thread. -/
theorem sample_eq_null (h : Holds q m l) : q.qhead.sample = .null ↔ m = false ∧ l = [] := by
  rw [Qhead.sample_eq_null]
  constructor
  · intro hq
    constructor
    · simpa [hq] using h.mark
    · simpa using h.head?_eq hq
  · rintro ⟨rfl, rfl⟩
    cases hq : q.qhead with
    | signaled => simpa using h.mark.mp hq
    | ptr p =>
        rw [← h.head?_eq hq]
        rfl

/-- Where a thread waits, only a call that finds the flag clear wakes it. -/
theorem prompt_cons (h : Holds q m (tp :: l)) {irqExec : Bool} :
  q.prompt irqExec = true ↔ irqExec = false
  := by
  have hthread := Qhead.sample_eq_thread.mpr ⟨tp, h.qhead_cons⟩
  simp [prompt, hthread]

/-- The mark is set, when there is no thread that it would forget. -/
theorem signal (h : Holds q m []) : Holds (q.setQhead .signaled) true [] := by
  constructor
  · apply h.linked.set_head rfl (.inl rfl)
  · simp [qhead, setQhead]
  · apply h.schedClass

/-- The mark is cleared. -/
theorem clear (h : Holds q true l) : Holds (q.setQhead (.ptr none)) false [] := by
  obtain rfl := h.nil_of_mark
  constructor
  · apply h.linked.set_head rfl (.inr rfl)
  · simp [qhead, setQhead]
  · apply h.schedClass

/-- The event counters are no part of the list. -/
theorem set_ec (h : Holds q m l) (ec : T → UInt8) :
  Holds { q with links := { q.links with ec } } m l
  := by
  constructor
  · apply h.linked.set_ec
  · apply h.mark
  · apply h.schedClass

theorem update_const (l l' : List T) :
  Function.update (fun _ : Unit => l) () l' = fun _ => l'
  := by
  funext r
  apply Function.update_self

/-- A thread is queued. -/
theorem add (h : Holds q m l) (prio : T → Nat) (htp : tp ∉ l) :
  ∃ q' a b, q.rawQueueAddThread prio tp = some q' ∧ l = a ++ b ∧
    Holds q' false (a ++ tp :: b)
  := by
  obtain ⟨c, hc⟩ := Option.ne_none_iff_exists'.mp h.schedClass
  obtain ⟨links, a, b, hlinks, hab, hlinked, ⟨hhead, -⟩, -⟩ :=
    h.linked.classInsert c prio () fun _ => htp
  rw [update_const] at hlinked
  refine ⟨{ q with links }, a, b, ?_, hab, hlinked, ?_, h.schedClass⟩
  · simp [rawQueueAddThread, hc, hlinks]
  · simpa [qhead] using hhead

/-- The wake-up of the first thread marks the queue when it was the last one. -/
theorem rawEventNotify (h : Holds q m (tp :: l)) :
  ∃ q', q.rawEventNotify = some (q', some tp) ∧ Holds q' l.isEmpty l
  := by
  obtain ⟨c, hc⟩ := Option.ne_none_iff_exists'.mp h.schedClass
  obtain ⟨links, hlinks, hlinked⟩ := h.linked.remove () tp
  have hhead := (Links.rrSharedQueueRemove_head hlinks).1
  have hq : q.links.head () = .ptr (some tp) := h.qhead_cons
  simp only [update_const, List.erase_cons_head] at hlinked
  have hnot : links.head () ≠ .signaled := by
    apply hhead
    simp [hq]
  have h' : Holds { q with links } false l :=
    ⟨hlinked, by simpa [qhead] using hnot, h.schedClass⟩
  refine ⟨signalIfEmpty { q with links }, ?_, ?_⟩
  · simp [ThreadQueue.rawEventNotify, rawQueueRemoveThread, hc, hlinks, h.qhead_cons]
  · cases l with
    | nil =>
        have hnull := (Qhead.sample_eq_null.mp (h'.sample_eq_null.mpr ⟨rfl, rfl⟩))
        rw [signalIfEmpty, if_pos hnull]
        apply h'.signal
    | cons t l =>
        rw [signalIfEmpty, if_neg]
        · apply h'
        · simp [h'.qhead_cons]

/-- A thread that has an event wakes the first thread of its queue. -/
theorem signalThread (h : Holds q m (tp :: l)) (iterator : T) :
  ∃ q', q.signalThread iterator = some (q', some tp) ∧ Holds q' l.isEmpty l
  := by
  obtain ⟨q', hq', hl⟩ :=
    (h.set_ec (Function.update q.links.ec iterator (q.links.ec iterator - 1))).rawEventNotify
  refine ⟨q', ?_, hl⟩
  have hhead := h.qhead_cons
  rw [qhead] at hhead
  simp only [ThreadQueue.rawEventNotify, qhead, hhead] at hq'
  simp only [ThreadQueue.signalThread, qhead, hhead]
  apply hq'

/-- A notification that acts on the head the queue has wakes the first thread, and leaves the
queue marked when no thread is left. -/
theorem eventNotify (h : Holds q m l) :
  ∃ q', q.eventNotify false q.qhead.sample = some (q', l.head?) ∧ Holds q' l.tail.isEmpty l.tail
  := by
  cases l with
  | nil =>
      cases m with
      | true =>
          use q
          rw [h.sample_eq_signaled.mpr rfl]
          exact ⟨rfl, h⟩
      | false =>
          use q.setQhead .signaled
          rw [h.sample_eq_null.mpr ⟨rfl, rfl⟩]
          exact ⟨rfl, h.signal⟩
  | cons t l =>
      rw [Qhead.sample_eq_thread.mpr ⟨t, h.qhead_cons⟩]
      apply h.rawEventNotify

end Holds

/-! ### The threads that wait -/

/-- The threads on the queue are those for which `waits` holds, and `m` is whether it is
marked. -/
def Queues (q : ThreadQueue T) (m : Bool) (waits : T → Prop) : Prop :=
  ∃ l, Holds q m l ∧ ∀ t, t ∈ l ↔ waits t

namespace Queues

variable {q q' : ThreadQueue T} {m : Bool} {waits waits' : T → Prop} {tp : T}

theorem congr (h : Queues q m waits) (hwaits : ∀ t, waits' t ↔ waits t) :
  Queues q m waits'
  := by
  obtain ⟨l, hl, hmem⟩ := h
  use l, hl
  intro t
  rw [hmem, hwaits]

/-- The thread `tp`, which neither waited nor waits now, is the only one to go to another place. -/
theorem congr_pc {P : Type*} {pc pc' : T → P} {blocked : P}
    (h : Queues q m fun t => pc t = blocked) (hother : ∀ t, t ≠ tp → pc' t = pc t)
    (hpc : pc tp ≠ blocked) (hpc' : pc' tp ≠ blocked) :
  Queues q m fun t => pc' t = blocked
  := by
  apply h.congr
  intro t
  by_cases ht : t = tp
  · simp only [ht, hpc, hpc']
  · rw [hother t ht]

/-- On a marked queue no thread waits. -/
theorem not_waits (h : Queues q true waits) (t : T) : ¬ waits t := by
  obtain ⟨l, hl, hmem⟩ := h
  rw [← hmem, hl.nil_of_mark]
  apply List.not_mem_nil

theorem sample_eq_signaled (h : Queues q m waits) :
  q.qhead.sample = .signaled ↔ m = true
  := by
  obtain ⟨l, hl, -⟩ := h
  apply hl.sample_eq_signaled

/-- A queue whose head is no thread is marked. -/
theorem signal (h : Queues q m waits) (hq : q.qhead.sample ≠ .thread) :
  Queues (q.setQhead .signaled) true waits
  := by
  obtain ⟨l, hl, hmem⟩ := h
  cases l with
  | nil => use [], hl.signal
  | cons t l => exact absurd (Qhead.sample_eq_thread.mpr ⟨t, hl.qhead_cons⟩) hq

/-- A wait for an event takes the mark off the queue, or queues the thread. -/
theorem rawEventWait (h : Queues q m waits) {prio : T → Nat} (htp : ¬ waits tp) {b : Bool}
    (hq : q.rawEventWait prio tp = some (q', b)) :
  b = !m ∧ Queues q' false fun u => (m = false ∧ u = tp) ∨ waits u
  := by
  obtain ⟨l, hl, hmem⟩ := h
  rw [ThreadQueue.rawEventWait] at hq
  split at hq
  · rename_i hmark
    obtain rfl := hl.mark.mp hmark
    obtain ⟨rfl, rfl⟩ := Prod.mk.inj (Option.some.inj hq)
    use rfl, [], hl.clear
    intro t
    dsimp only
    rw [← hmem, hl.nil_of_mark]
    simp
  · rename_i hmark
    obtain rfl : m = false := by
      rwa [hl.mark, Bool.not_eq_true] at hmark
    obtain ⟨q₁, hq₁, hq⟩ := Option.map_eq_some_iff.mp hq
    obtain ⟨rfl, rfl⟩ := Prod.mk.inj hq
    rw [← hmem] at htp
    obtain ⟨q₂, a, b, hq₂, rfl, hl'⟩ := hl.add prio htp
    obtain rfl := Option.some.inj (hq₁.symm.trans hq₂)
    use rfl, a ++ tp :: b, hl'
    intro t
    dsimp only
    rw [← hmem]
    simp only [List.mem_append, List.mem_cons, true_and]
    tauto

/-- A thread that waits is taken off the queue, and no other one. -/
theorem of_cons {t : T} {l : List T} (h : Holds q m (t :: l)) (hmem : ∀ u, u ∈ t :: l ↔ waits u)
    {m' : Bool} (h' : Holds q' m' l) :
  m = false ∧ waits t ∧ Queues q' m' fun u => u ≠ t ∧ waits u
  := by
  have htl := (List.nodup_cons.mp (h.linked.nodup ())).1
  refine ⟨?_, (hmem t).mp List.mem_cons_self, l, h', ?_⟩
  · cases m with
    | false => rfl
    | true => cases h.nil_of_mark
  · intro u
    dsimp only
    rw [← hmem, List.mem_cons]
    constructor
    · intro hu
      have hne : u ≠ t := by
        rintro rfl
        apply htl hu
      use hne, .inr hu
    · rintro ⟨hne, hu⟩
      apply hu.resolve_left hne

/-- A notification that acts on the head the queue has wakes a thread that waits, or marks
the queue when there is none. -/
theorem eventNotify (h : Queues q m waits) {woken : Option T}
    (hq : q.eventNotify false q.qhead.sample = some (q', woken)) :
  (woken = none ∧ (∀ t, ¬ waits t) ∧ Queues q' true waits) ∨
    ∃ t, woken = some t ∧ waits t ∧ m = false ∧
      ∃ m', Queues q' m' fun u => u ≠ t ∧ waits u
  := by
  obtain ⟨l, hl, hmem⟩ := h
  obtain ⟨q₁, hq₁, hl'⟩ := hl.eventNotify
  obtain ⟨rfl, rfl⟩ := Prod.mk.inj (Option.some.inj (hq.symm.trans hq₁))
  cases l with
  | nil =>
      left
      have hnot : ∀ t, ¬ waits t := by
        intro t ht
        rw [← hmem] at ht
        cases ht
      use rfl, hnot, [], hl'
  | cons t l =>
      right
      obtain ⟨hm, ht, hq'⟩ := of_cons hl hmem hl'
      exact ⟨t, rfl, ht, hm, l.isEmpty, hq'⟩

/-- A notification from an interrupt takes no thread off the queue. -/
theorem eventNotifyIrq (h : Queues q m waits) : ∃ m', Queues q.eventNotifyIrq m' waits := by
  obtain ⟨l, hl, hmem⟩ := h
  rw [ThreadQueue.eventNotifyIrq]
  cases hq : q.qhead with
  | signaled => exact ⟨m, l, hl, hmem⟩
  | ptr p =>
      cases p with
      | none =>
          obtain ⟨-, rfl⟩ := hl.sample_eq_null.mp (Qhead.sample_eq_null.mpr hq)
          obtain rfl : m = false := (hl.sample_eq_null.mp (Qhead.sample_eq_null.mpr hq)).1
          exact ⟨true, [], hl.signal, hmem⟩
      | some t => exact ⟨m, l, hl.set_ec _, hmem⟩

/-- The scheduler wakes a thread that waits, when a thread that waits has an event. -/
theorem signalThread (h : Queues q m waits) {iterator : T} (hit : waits iterator)
    {woken : Option T} (hq : q.signalThread iterator = some (q', woken)) :
  ∃ t, woken = some t ∧ waits t ∧ ∃ m', Queues q' m' fun u => u ≠ t ∧ waits u
  := by
  obtain ⟨l, hl, hmem⟩ := h
  cases l with
  | nil =>
      rw [← hmem] at hit
      cases hit
  | cons t l =>
      obtain ⟨q₁, hq₁, hl'⟩ := hl.signalThread iterator
      obtain ⟨rfl, rfl⟩ := Prod.mk.inj (Option.some.inj (hq.symm.trans hq₁))
      obtain ⟨-, ht, hq'⟩ := of_cons hl hmem hl'
      exact ⟨t, rfl, ht, l.isEmpty, hq'⟩

end Queues

/-! ### Queues without events -/

/-- The threads on the queue are those for which `waits` holds, none of them has an event, and
`m` is whether the queue is marked. -/
structure Calm (q : ThreadQueue T) (m : Bool) (waits : T → Prop) : Prop where
  queues : Queues q m waits
  quiet : ∀ t, waits t → q.links.ec t = 0

namespace Calm

variable {q q' : ThreadQueue T} {m : Bool} {waits waits' : T → Prop} {tp : T}

theorem congr (h : Calm q m waits) (hwaits : ∀ t, waits' t ↔ waits t) : Calm q m waits' := by
  use h.queues.congr hwaits
  intro t ht
  apply h.quiet t ((hwaits t).mp ht)

theorem congr_pc {P : Type*} {pc pc' : T → P} {blocked : P}
    (h : Calm q m fun t => pc t = blocked) (hother : ∀ t, t ≠ tp → pc' t = pc t)
    (hpc : pc tp ≠ blocked) (hpc' : pc' tp ≠ blocked) :
  Calm q m fun t => pc' t = blocked
  := by
  apply h.congr
  intro t
  by_cases ht : t = tp
  · simp only [ht, hpc, hpc']
  · rw [hother t ht]

theorem not_waits (h : Calm q true waits) (t : T) : ¬ waits t :=
  h.queues.not_waits t

theorem sample_eq_signaled (h : Calm q m waits) : q.qhead.sample = .signaled ↔ m = true :=
  h.queues.sample_eq_signaled

theorem signal (h : Calm q m waits) (hq : q.qhead.sample ≠ .thread) :
  Calm (q.setQhead .signaled) true waits
  := ⟨h.queues.signal hq, h.quiet⟩

/-- A thread that is queued has no event, as the queue was not marked. -/
theorem rawEventWait (h : Calm q m waits) {prio : T → Nat} (htp : ¬ waits tp) {b : Bool}
    (hq : q.rawEventWait prio tp = some (q', b)) :
  b = !m ∧ Calm q' false fun u => (m = false ∧ u = tp) ∨ waits u
  := by
  obtain ⟨hb, hqueues⟩ := h.queues.rawEventWait htp hq
  refine ⟨hb, hqueues, ?_⟩
  intro t ht
  obtain ⟨l, hl, hmem⟩ := h.queues
  rw [ThreadQueue.rawEventWait] at hq
  split at hq
  · rename_i hmark
    obtain ⟨rfl, -⟩ := Prod.mk.inj (Option.some.inj hq)
    obtain rfl := hl.mark.mp hmark
    apply h.quiet t
    simpa using ht
  · rename_i hmark
    obtain ⟨q₁, hq₁, hq⟩ := Option.map_eq_some_iff.mp hq
    obtain ⟨rfl, -⟩ := Prod.mk.inj hq
    obtain ⟨c, hc⟩ := Option.ne_none_iff_exists'.mp hl.schedClass
    rw [rawQueueAddThread, hc] at hq₁
    obtain ⟨links, hlinks, rfl⟩ := Option.map_eq_some_iff.mp hq₁
    have hquiet : ∀ u ∈ l, q.links.ec u = 0 := fun u hu => h.quiet u ((hmem u).mp hu)
    have htl : tp ∉ l := by rwa [hmem]
    have htt : t = tp ∨ t ∈ l := by
      rw [hmem]
      exact ht.imp_left And.right
    cases c with
    | fifo => apply hl.linked.queueInsert_ec_eq_zero hmark htl hquiet hlinks htt
    | rr => apply hl.linked.queueInsert_ec_eq_zero hmark htl hquiet hlinks htt

/-- A thread that is taken off the queue leaves the counters as they are. -/
theorem rawEventNotify_ec (h : Calm q m waits) {woken : Option T}
    (hq : q.rawEventNotify = some (q', woken)) :
  q'.links.ec = q.links.ec
  := by
  obtain ⟨l, hl, hmem⟩ := h.queues
  rw [ThreadQueue.rawEventNotify] at hq
  split at hq
  · rename_i t hhead
    obtain ⟨q₁, hq₁, hq⟩ := Option.map_eq_some_iff.mp hq
    obtain ⟨rfl, -⟩ := Prod.mk.inj hq
    obtain ⟨c, hc⟩ := Option.ne_none_iff_exists'.mp hl.schedClass
    rw [rawQueueRemoveThread, hc] at hq₁
    obtain ⟨⟨links, rc⟩, hlinks, rfl⟩ := Option.map_eq_some_iff.mp hq₁
    have ht : t ∈ l := List.mem_of_mem_head? (hl.head?_eq hhead)
    rw [signalIfEmpty_ec]
    apply Links.rrSharedQueueRemove_ec hlinks (h.quiet t ((hmem t).mp ht))
  · cases hq

/-- A notification that acts on the head the queue has wakes a thread that waits, or marks
the queue when there is none. -/
theorem eventNotify (h : Calm q m waits) {woken : Option T}
    (hq : q.eventNotify false q.qhead.sample = some (q', woken)) :
  (woken = none ∧ (∀ t, ¬ waits t) ∧ Calm q' true waits) ∨
    ∃ t, woken = some t ∧ waits t ∧ m = false ∧
      ∃ m', Calm q' m' fun u => u ≠ t ∧ waits u
  := by
  have hec : q'.links.ec = q.links.ec := by
    cases hsample : q.qhead.sample <;> rw [hsample] at hq
    case null | signaled =>
      obtain ⟨rfl, -⟩ := Prod.mk.inj (Option.some.inj hq)
      rfl
    case thread => apply h.rawEventNotify_ec hq
  rcases h.queues.eventNotify hq with ⟨rfl, hnot, hq'⟩ | ⟨t, rfl, ht, rfl, m', hq'⟩
  · left
    refine ⟨rfl, hnot, hq', ?_⟩
    intro t ht
    exact absurd ht (hnot t)
  · right
    refine ⟨t, rfl, ht, rfl, m', hq', ?_⟩
    rintro u ⟨-, hu⟩
    rw [hec, h.quiet u hu]

end Calm

end ThreadQueue

end Etaos
