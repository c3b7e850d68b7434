import Etaos.Library.Run
import Etaos.Library.Tally
import Etaos.Sched.ThreadQueue

/-!
# Message queues

The functions of `ipm.c`.  A message queue has `num` slots, which are used once between two
resets: a post takes the slot at `wr_idx`, and a receiver the one at `rd_idx`.  A step is a
part of a call that runs with preemption disabled, or an access outside of the lock; any
thread may run between two steps.  A call of `event_notify` first reads the flag
`CPU_IRQ_EXEC_FLAG`; where it is set, the body of `event_notify_irq` is one step.
-/

set_option linter.unusedSectionVars false

namespace Etaos

/-- A message: the address of its data, and the length. -/
structure Ipm where
  data : Nat
  len : Nat
  deriving DecidableEq

/-- A message queue.  Its indices are of the type `uint8_t`. -/
structure IpmQueue (T : Type) where
  qp : ThreadQueue T
  num : Nat
  wrIdx : Nat
  rdIdx : Nat
  msgs : Nat → Ipm

/-- Where a thread is in the functions of `ipm.c`. -/
inductive IpmPc where
  | user
  /-- `ipm_post_msg`, behind the test of `ipm_queue_is_full`. -/
  | postReserve (msg : Ipm)
  /-- `ipm_post_msg`, at the write of the data of its slot. -/
  | postData (idx : Nat) (msg : Ipm)
  /-- `ipm_post_msg`, at the write of the length of its slot. -/
  | postLen (idx : Nat) (msg : Ipm)
  | notifySample
  /-- `event_notify`, behind its reads of the flag and of the head. -/
  | notifyDecide (irqExec : Bool) (tp : Sample)
  /-- `ipm_get_msg`, at the call of `raw_event_wait`. -/
  | getWait
  /-- In `raw_event_wait`, stopped. -/
  | blocked
  /-- `ipm_get_msg`, behind `raw_event_wait`. -/
  | getRetest
  deriving DecidableEq

namespace IpmPc

/-- The slot that a poster has taken and not yet written. -/
def writes : IpmPc → Option Nat
  | .postData idx _ => some idx
  | .postLen idx _ => some idx
  | _ => none

/-- The places of a receiver that has found the queue empty. -/
def waits : IpmPc → Bool
  | .getWait => true
  | .blocked => true
  | _ => false

/-- The places of a thread that is going to notify the queue, or to look for a message. -/
def pending : IpmPc → Bool
  | .postData _ _ => true
  | .postLen _ _ => true
  | .notifySample => true
  | .notifyDecide irqExec tp => irqExec || tp ≠ .signaled
  | .getRetest => true
  | _ => false

end IpmPc

/-- A message queue with the threads that use it. -/
structure IpmSystem (T : Type) where
  iq : IpmQueue T
  pc : T → IpmPc
  /-- The messages of the posts that were accepted, in the order of their slots. -/
  accepted : List Ipm
  /-- The messages that successful calls of `ipm_get_msg` have read, in order. -/
  delivered : List Ipm
  /-- A slot behind the last one was read or written. -/
  overrun : Bool

/-- The steps of the threads. -/
inductive IpmLabel (T : Type) where
  | ipmPostMsg (tp : T) (msg : Ipm)
  | ipmGetMsg (tp : T)
  /-- The next part of a call, with the priorities at that time, and whether the flag
  `CPU_IRQ_EXEC_FLAG` is set. -/
  | run (tp : T) (prio : T → Nat) (irqExec : Bool)
  /-- The scheduler comes to a thread that has an event. -/
  | pass (tp : T)

namespace IpmQueue

variable {T : Type} [DecidableEq T]

/-- The function `ipm_queue_is_full`. -/
def ipmQueueIsFull (iq : IpmQueue T) : Bool :=
  iq.num ≤ iq.wrIdx

/-- The function `ipm_queue_init`. -/
def ipmQueueInit (len : Nat) : IpmQueue T where
  qp := ThreadQueue.threadQueueInit.setQhead (.ptr none)
  num := len % 2 ^ 8
  wrIdx := 0
  rdIdx := 0
  msgs := fun _ => { data := 0, len := 0 }

/-- The function `ipm_reset_queue`. -/
def ipmResetQueue (iq : IpmQueue T) : IpmQueue T × Bool :=
  if iq.qp.qhead.sample = .thread then
    (iq, false)
  else
    ({ iq with qp := iq.qp.setQhead (.ptr none), wrIdx := 0, rdIdx := 0 }, true)

/-- A queue without messages and waiters, as `ipm_queue_init` and `ipm_reset_queue` leave
it. -/
structure Empty (iq : IpmQueue T) : Prop where
  qhead : iq.qp.qhead = .ptr none
  schedClass : iq.qp.schedClass ≠ none
  wrIdx : iq.wrIdx = 0
  rdIdx : iq.rdIdx = 0
  num : iq.num < 2 ^ 8

theorem empty_ipmQueueInit (len : Nat) : Empty (ipmQueueInit len : IpmQueue T) := by
  constructor
  · simp [ipmQueueInit, ThreadQueue.qhead, ThreadQueue.setQhead]
  · simp [ipmQueueInit, ThreadQueue.threadQueueInit, ThreadQueue.setQhead]
  · rfl
  · rfl
  · apply Nat.mod_lt
    decide

/-- A reset that succeeds leaves an empty queue. -/
theorem empty_ipmResetQueue {iq : IpmQueue T} (hclass : iq.qp.schedClass ≠ none)
    (hnum : iq.num < 2 ^ 8) (h : iq.ipmResetQueue.2 = true) :
  Empty iq.ipmResetQueue.1
  := by
  rw [ipmResetQueue] at h ⊢
  split
  · rename_i hthread
    simp [hthread] at h
  · constructor
    · simp [ThreadQueue.qhead, ThreadQueue.setQhead]
    · apply hclass
    · rfl
    · rfl
    · apply hnum

end IpmQueue

namespace IpmSystem

variable {T : Type} [DecidableEq T]

/-- The system at a message queue that no thread uses yet. -/
def init (iq : IpmQueue T) : IpmSystem T where
  iq := iq
  pc := fun _ => .user
  accepted := []
  delivered := []
  overrun := false

/-- A thread goes to a place. -/
def goto (s : IpmSystem T) (tp : T) (pc : IpmPc) : IpmSystem T :=
  { s with pc := Function.update s.pc tp pc }

/-- A thread that is taken off the queue is made runnable. -/
def wake (s : IpmSystem T) : Option T → IpmSystem T
  | none => s
  | some tp => s.goto tp .getRetest

/-- An access to a slot. -/
def access (s : IpmSystem T) (idx : Nat) : IpmSystem T :=
  { s with overrun := s.overrun || s.iq.num ≤ idx }

/-- A write to a slot. -/
def write (s : IpmSystem T) (idx : Nat) (f : Ipm → Ipm) : IpmSystem T :=
  let msgs := Function.update s.iq.msgs idx (f (s.iq.msgs idx))
  { s.access idx with iq := { s.iq with msgs } }

/-- The part of `ipm_post_msg` under the lock. -/
def reserve (s : IpmSystem T) (tp : T) (msg : Ipm) : IpmSystem T :=
  let idx := s.iq.wrIdx
  { s with
    iq := { s.iq with wrIdx := (idx + 1) % 2 ^ 8 }
    accepted := s.accepted ++ [msg] }.goto tp (.postData idx msg)

/-- The part of `ipm_get_msg` that reads a message. -/
def take (s : IpmSystem T) (tp : T) : IpmSystem T :=
  let idx := s.iq.rdIdx
  let rdIdx := (idx + 1) % 2 ^ 8
  { s.access idx with
    iq := { s.iq with rdIdx }
    delivered := s.delivered ++ [s.iq.msgs idx] }.goto tp
      (if rdIdx ≠ s.iq.wrIdx then .notifySample else .user)

variable [Fintype T]

/-- The call of `raw_event_wait`. -/
def getWait (s : IpmSystem T) (tp : T) (prio : T → Nat) : Option (IpmSystem T) :=
  (s.iq.qp.rawEventWait prio tp).map fun (qp, waits) =>
    { s with iq := { s.iq with qp } }.goto tp (if waits then .blocked else .getRetest)

/-- The part of `event_notify` behind its reads of the flag and of the head. -/
def notify (s : IpmSystem T) (tp : T) (irqExec : Bool) (sample : Sample) :
    Option (IpmSystem T) :=
  (s.iq.qp.eventNotify irqExec sample).map fun (qp, woken) =>
    ({ s with iq := { s.iq with qp } }.goto tp .user).wake woken

/-- The next part of the call of a thread. -/
def run (s : IpmSystem T) (tp : T) (prio : T → Nat) (irqExec : Bool) : Option (IpmSystem T) :=
  match s.pc tp with
  | .user => none
  | .postReserve msg => some (s.reserve tp msg)
  | .postData idx msg =>
      some ((s.write idx fun slot => { slot with data := msg.data }).goto tp (.postLen idx msg))
  | .postLen idx msg =>
      some ((s.write idx fun slot => { slot with len := msg.len }).goto tp .notifySample)
  | .notifySample => some (s.goto tp (.notifyDecide irqExec s.iq.qp.qhead.sample))
  | .notifyDecide irqExec sample => s.notify tp irqExec sample
  | .getWait => s.getWait tp prio
  | .blocked => none
  | .getRetest => some (if s.iq.wrIdx = s.iq.rdIdx then s.goto tp .user else s.take tp)

/-- What `rq_signal_threads` does when it comes to a thread. -/
def pass (s : IpmSystem T) (tp : T) : Option (IpmSystem T) :=
  if s.pc tp = .blocked ∧ s.iq.qp.links.ec tp ≠ 0 then
    (s.iq.qp.signalThread tp).map fun (qp, woken) =>
      { s with iq := { s.iq with qp } }.wake woken
  else
    none

/-- A step of the threads. -/
def step (s : IpmSystem T) : IpmLabel T → Option (IpmSystem T)
  | .ipmPostMsg tp msg =>
      if s.pc tp = .user then
        some (if s.iq.ipmQueueIsFull then s else s.goto tp (.postReserve msg))
      else
        none
  | .ipmGetMsg tp =>
      if s.pc tp = .user then
        some (if s.iq.wrIdx ≤ s.iq.rdIdx then s.goto tp .getWait else s.take tp)
      else
        none
  | .run tp prio irqExec => s.run tp prio irqExec
  | .pass tp => s.pass tp

/-- What a message queue promises: no slot behind the last one is used, the messages read are
the first ones accepted, and no receiver stays blocked while a message is left, unless a
wake-up is on its way. -/
structure Channel (s : IpmSystem T) : Prop where
  bounds : s.overrun = false
  fifo : s.delivered <+: s.accepted
  kept : ∀ t, s.pc t = .blocked → s.delivered.length < s.accepted.length →
    ∃ u, (s.pc u).pending

/-! ### The steps that keep the messages -/

/-- The slot at `rd_idx` is not one that a poster is still about to write. -/
def written (s : IpmSystem T) : Bool :=
  ∀ t, (s.pc t).writes ≠ some s.iq.rdIdx

/-- A call of `event_notify` that takes no thread for `NULL`, and nothing else for a
thread. -/
def notifyFits (s : IpmSystem T) : Sample → Bool
  | .thread => s.iq.qp.qhead.sample = .thread
  | .null => s.iq.qp.qhead.sample ≠ .thread
  | .signaled => true

/-- The steps that keep the messages: a poster takes a slot only while there is one, a
receiver reads a slot that is written, and a notification wakes the thread at the head, when
there is one, and acts on the head that it finds. -/
def keeping (s : IpmSystem T) : IpmLabel T → Bool
  | .ipmPostMsg _ _ => true
  | .ipmGetMsg _ => s.iq.rdIdx < s.iq.wrIdx → s.written = true
  | .run tp _ _ =>
      match s.pc tp with
      | .postReserve _ => s.iq.wrIdx < s.iq.num
      | .getRetest => s.iq.wrIdx ≠ s.iq.rdIdx → s.written = true
      | .notifyDecide irqExec sample =>
          s.iq.qp.prompt irqExec && s.notifyFits (s.iq.qp.noticed irqExec sample)
      | _ => true
  | .pass _ => true

/-- The invariant of a message queue. -/
structure Inv (s : IpmSystem T) : Prop where
  queues : ∃ m, s.iq.qp.Calm m fun t => s.pc t = .blocked
  num : s.iq.num < 2 ^ 8
  rd_le : s.iq.rdIdx ≤ s.iq.wrIdx
  wr_le : s.iq.wrIdx ≤ s.iq.num
  accepted : s.accepted.length = s.iq.wrIdx
  delivered : s.delivered.length = s.iq.rdIdx
  fifo : s.delivered <+: s.accepted
  slots : ∀ i msg, s.accepted[i]? = some msg →
    s.iq.msgs i = msg ∨ ∃ t, (s.pc t).writes = some i
  data : ∀ t i msg, s.pc t = .postData i msg → s.accepted[i]? = some msg
  len : ∀ t i msg, s.pc t = .postLen i msg →
    s.accepted[i]? = some msg ∧ (s.iq.msgs i).data = msg.data
  bounds : s.overrun = false
  kept : s.iq.rdIdx < s.iq.wrIdx → (∃ t, (s.pc t).waits) →
    s.iq.qp.qhead = .signaled ∨ ∃ u, (s.pc u).pending

namespace Inv

variable {s s' : IpmSystem T} {tp : T}

theorem init {iq : IpmQueue T} (hiq : iq.Empty) : Inv (init iq) := by
  constructor
  case queues =>
    refine ⟨false, ⟨[], ?_, ?_⟩, ?_⟩
    · constructor
      · constructor
        · intro r hr
          rfl
        · intro r p hp
          obtain rfl := Qhead.ptr.inj (hiq.qhead.symm.trans hp)
          rfl
        · intro r
          apply List.nodup_nil
        · intro r t ht
          cases ht
      · simp [IpmSystem.init, hiq.qhead]
      · apply hiq.schedClass
    · simp [IpmSystem.init]
    · simp [IpmSystem.init]
  case num => apply hiq.num
  all_goals simp [IpmSystem.init, hiq.wrIdx, hiq.rdIdx]

/-- The invariant gives the promises. -/
theorem channel (h : Inv s) : Channel s := by
  constructor
  case bounds => apply h.bounds
  case fifo => apply h.fifo
  case kept =>
    intro t ht hleft
    rw [h.delivered, h.accepted] at hleft
    apply (h.kept hleft ⟨t, by simp [ht, IpmPc.waits]⟩).resolve_left
    obtain ⟨m, hm⟩ := h.queues
    intro hmark
    obtain rfl := hm.sample_eq_signaled.mp (Qhead.sample_eq_signaled.mpr hmark)
    apply hm.not_waits t ht

/-- A poster takes a slot while there is one. -/
theorem reserve (h : Inv s) {msg : Ipm} (hpc : s.pc tp = .postReserve msg)
    (hroom : s.iq.wrIdx < s.iq.num) :
  Inv (s.reserve tp msg)
  := by
  have hnum := h.num
  have hwr : (s.iq.wrIdx + 1) % 2 ^ 8 = s.iq.wrIdx + 1 := Nat.mod_eq_of_lt (by omega)
  have hplace {t : T} (ht : t ≠ tp) : (s.reserve tp msg).pc t = s.pc t := by
    simp [IpmSystem.reserve, IpmSystem.goto, ht]
  have hself : (s.reserve tp msg).pc tp = .postData s.iq.wrIdx msg := by
    simp [IpmSystem.reserve, IpmSystem.goto]
  have hold {i : Nat} {m : Ipm} (hi : s.accepted[i]? = some m) :
      (s.accepted ++ [msg])[i]? = some m := by
    rw [List.getElem?_append_left (List.getElem?_eq_some_iff.mp hi).1, hi]
  have hnew : (s.accepted ++ [msg])[s.iq.wrIdx]? = some msg := by
    rw [← h.accepted, List.getElem?_concat_length]
  constructor
  case queues =>
    obtain ⟨m, hm⟩ := h.queues
    use m
    apply hm.congr_pc fun _ => hplace
    · simp [hpc]
    · simp [hself]
  case num => apply hnum
  case rd_le =>
    have := h.rd_le
    simp only [IpmSystem.reserve, IpmSystem.goto, hwr]
    omega
  case wr_le =>
    simp only [IpmSystem.reserve, IpmSystem.goto, hwr]
    omega
  case accepted =>
    simp only [IpmSystem.reserve, IpmSystem.goto, hwr, List.length_append,
      List.length_singleton, h.accepted]
  case delivered => apply h.delivered
  case fifo => apply h.fifo.trans (List.prefix_append _ _)
  case slots =>
    intro i m hi
    by_cases hiw : i = s.iq.wrIdx
    · right
      use tp
      rw [hself, hiw]
      rfl
    · have hi' : s.accepted[i]? = some m := by
        have hlt := (List.getElem?_eq_some_iff.mp hi).1
        simp only [IpmSystem.reserve, IpmSystem.goto, List.length_append, List.length_singleton,
          h.accepted] at hlt
        rw [← hi]
        apply (List.getElem?_append_left _).symm
        rw [h.accepted]
        omega
      rcases h.slots i m hi' with hmsg | ⟨t, ht⟩
      · apply Or.inl hmsg
      · right
        use t
        have hne : t ≠ tp := by
          rintro rfl
          simp [hpc, IpmPc.writes] at ht
        rw [hplace hne, ht]
  case data =>
    intro t i m ht
    by_cases htp : t = tp
    · rw [htp, hself] at ht
      obtain ⟨rfl, rfl⟩ := IpmPc.postData.inj ht
      apply hnew
    · rw [hplace htp] at ht
      apply hold (h.data t i m ht)
  case len =>
    intro t i m ht
    have htp : t ≠ tp := by
      rintro rfl
      simp [hself] at ht
    rw [hplace htp] at ht
    exact ⟨hold (h.len t i m ht).1, (h.len t i m ht).2⟩
  case bounds => apply h.bounds
  case kept =>
    intro _ _
    right
    use tp
    rw [hself]
    rfl

/-- A poster writes to the slot it has taken, and keeps the data of its message there. -/
theorem write (h : Inv s) {idx : Nat} {msg : Ipm} {f : Ipm → Ipm} {x : IpmPc}
    (hpc : (s.pc tp).writes = some idx) (hidx : s.accepted[idx]? = some msg)
    (hf : (f (s.iq.msgs idx)).data = msg.data)
    (hx : x = .postLen idx msg ∨ x = .notifySample ∧ f (s.iq.msgs idx) = msg) :
  Inv ((s.write idx f).goto tp x)
  := by
  have hblocked : s.pc tp ≠ .blocked := by
    intro hb
    simp [hb, IpmPc.writes] at hpc
  have hlt := (List.getElem?_eq_some_iff.mp hidx).1
  rw [h.accepted] at hlt
  have hwr := h.wr_le
  have hplace {t : T} (ht : t ≠ tp) : ((s.write idx f).goto tp x).pc t = s.pc t := by
    simp [IpmSystem.write, IpmSystem.access, IpmSystem.goto, ht]
  have hself : ((s.write idx f).goto tp x).pc tp = x := by
    simp [IpmSystem.goto]
  have hmsgs {i : Nat} (hi : i ≠ idx) :
      ((s.write idx f).goto tp x).iq.msgs i = s.iq.msgs i := by
    simp [IpmSystem.write, IpmSystem.goto, hi]
  have hmsg : ((s.write idx f).goto tp x).iq.msgs idx = f (s.iq.msgs idx) := by
    simp [IpmSystem.write, IpmSystem.goto]
  constructor
  case queues =>
    obtain ⟨m, hm⟩ := h.queues
    use m
    apply hm.congr_pc (fun _ => hplace) hblocked
    rcases hx with rfl | ⟨rfl, -⟩ <;> simp [hself]
  case num => apply h.num
  case rd_le => apply h.rd_le
  case wr_le => apply h.wr_le
  case accepted => apply h.accepted
  case delivered => apply h.delivered
  case fifo => apply h.fifo
  case slots =>
    intro i m hi
    by_cases hii : i = idx
    · obtain rfl : msg = m := by
        rw [hii] at hi
        apply Option.some.inj (hidx.symm.trans hi)
      rcases hx with rfl | ⟨rfl, hmsg'⟩
      · right
        use tp
        rw [hself, hii]
        rfl
      · left
        rw [hii, hmsg, hmsg']
    · rw [hmsgs hii]
      rcases h.slots i m hi with hmsg' | ⟨t, ht⟩
      · apply Or.inl hmsg'
      · right
        use t
        have hne : t ≠ tp := by
          rintro rfl
          rw [hpc] at ht
          apply hii (Option.some.inj ht).symm
        rw [hplace hne, ht]
  case data =>
    intro t i m ht
    have hne : t ≠ tp := by
      rintro rfl
      rw [hself] at ht
      rcases hx with rfl | ⟨rfl, -⟩ <;> cases ht
    rw [hplace hne] at ht
    apply h.data t i m ht
  case len =>
    intro t i m ht
    by_cases htp : t = tp
    · rw [htp, hself] at ht
      rcases hx with rfl | ⟨rfl, -⟩
      · obtain ⟨rfl, rfl⟩ := IpmPc.postLen.inj ht
        use hidx
        rw [hmsg, hf]
      · cases ht
    · rw [hplace htp] at ht
      obtain ⟨hi, hdata⟩ := h.len t i m ht
      use hi
      by_cases hii : i = idx
      · rw [hii] at hi ⊢
        rw [hmsg, hf, Option.some.inj (hidx.symm.trans hi)]
      · rw [hmsgs hii, hdata]
  case bounds =>
    have hover := h.bounds
    simp only [IpmSystem.write, IpmSystem.access, IpmSystem.goto, hover, Bool.false_or,
      decide_eq_false_iff_not]
    omega
  case kept =>
    intro _ _
    right
    use tp
    rw [hself]
    rcases hx with rfl | ⟨rfl, -⟩ <;> rfl

/-- The messages read are the first ones accepted, also with the next one. -/
theorem prefix_concat {l l' : List Ipm} {msg : Ipm} (h : l <+: l')
    (hmsg : l'[l.length]? = some msg) :
  l ++ [msg] <+: l'
  := by
  obtain ⟨r, rfl⟩ := h
  rw [List.getElem?_append_right (Nat.le_refl _), Nat.sub_self] at hmsg
  cases r with
  | nil => cases hmsg
  | cons a r =>
      obtain rfl := Option.some.inj hmsg
      use r
      simp

/-- A receiver reads a slot that is written. -/
theorem take (h : Inv s) (hpc : s.pc tp = .user ∨ s.pc tp = .getRetest)
    (hleft : s.iq.rdIdx < s.iq.wrIdx) (hwritten : s.written = true) :
  Inv (s.take tp)
  := by
  have hblocked : s.pc tp ≠ .blocked := by
    rcases hpc with hpc | hpc <;> simp [hpc]
  have hnone : (s.pc tp).writes = none := by
    rcases hpc with hpc | hpc <;> simp [hpc, IpmPc.writes]
  have hnum := h.num
  have hwr := h.wr_le
  have hrd : (s.iq.rdIdx + 1) % 2 ^ 8 = s.iq.rdIdx + 1 := Nat.mod_eq_of_lt (by omega)
  set x : IpmPc := if s.iq.rdIdx + 1 ≠ s.iq.wrIdx then .notifySample else .user with hx
  have hxnone : x.writes = none ∧ x ≠ .blocked := by
    rw [hx]
    split <;> simp [IpmPc.writes]
  have hplace {t : T} (ht : t ≠ tp) : (s.take tp).pc t = s.pc t := by
    simp [IpmSystem.take, IpmSystem.access, IpmSystem.goto, ht]
  have hself : (s.take tp).pc tp = x := by
    simp only [IpmSystem.take, IpmSystem.goto, hrd, Function.update_self, hx]
  have hsame (t : T) : ((s.take tp).pc t).writes = (s.pc t).writes := by
    by_cases ht : t = tp
    · rw [ht, hself, hnone, hxnone.1]
    · rw [hplace ht]
  have hne {t : T} {y : IpmPc} (hy : y.writes ≠ none) (ht : (s.take tp).pc t = y) :
      s.pc t = y := by
    rw [← hplace _, ht]
    rintro rfl
    apply hy
    rw [← ht, hsame, hnone]
  have hmsg : s.accepted[s.iq.rdIdx]? = some (s.iq.msgs s.iq.rdIdx) := by
    have hlt : s.iq.rdIdx < s.accepted.length := by rwa [h.accepted]
    have hi := List.getElem?_eq_getElem hlt
    rcases h.slots _ _ hi with hm | ⟨t, ht⟩
    · rw [hi, hm]
    · exact absurd ht (of_decide_eq_true hwritten t)
  constructor
  case queues =>
    obtain ⟨m, hm⟩ := h.queues
    use m
    apply hm.congr_pc (fun _ => hplace) hblocked
    rw [hself]
    apply hxnone.2
  case num => apply hnum
  case rd_le =>
    simp only [IpmSystem.take, IpmSystem.access, IpmSystem.goto, hrd]
    omega
  case wr_le => apply hwr
  case accepted => apply h.accepted
  case delivered =>
    simp only [IpmSystem.take, IpmSystem.goto, hrd, List.length_append, List.length_singleton,
      h.delivered]
  case fifo =>
    apply prefix_concat h.fifo
    rw [h.delivered]
    apply hmsg
  case slots =>
    intro i m hi
    simp only [hsame]
    apply h.slots i m hi
  case data =>
    intro t i m ht
    apply h.data t i m (hne (by simp [IpmPc.writes]) ht)
  case len =>
    intro t i m ht
    apply h.len t i m (hne (by simp [IpmPc.writes]) ht)
  case bounds =>
    have hover := h.bounds
    simp only [IpmSystem.take, IpmSystem.access, IpmSystem.goto, hover, Bool.false_or,
      decide_eq_false_iff_not]
    omega
  case kept =>
    intro hleft' _
    simp only [IpmSystem.take, IpmSystem.access, IpmSystem.goto, hrd] at hleft'
    right
    use tp
    rw [hself, hx, if_pos (by omega)]
    rfl

/-- A change of the queue, and of the place of a thread that has taken no slot. -/
theorem queue (h : Inv s) {qp : ThreadQueue T} {x : IpmPc}
    (hqp : ∃ m, qp.Calm m fun t => Function.update s.pc tp x t = .blocked)
    (hwrites : (s.pc tp).writes = none) (hx : x.writes = none)
    (hkept : s.iq.rdIdx < s.iq.wrIdx → (∃ t, (Function.update s.pc tp x t).waits) →
      qp.qhead = .signaled ∨ ∃ u, (Function.update s.pc tp x u).pending) :
  Inv ({ s with iq := { s.iq with qp } }.goto tp x)
  := by
  have hsame (t : T) : (Function.update s.pc tp x t).writes = (s.pc t).writes := by
    by_cases ht : t = tp
    · simp [ht, hwrites, hx]
    · simp [ht]
  have hplace {t : T} {y : IpmPc} (hy : y.writes ≠ none)
      (ht : Function.update s.pc tp x t = y) : s.pc t = y := by
    have hne : t ≠ tp := by
      rintro rfl
      apply hy
      rw [← ht, hsame, hwrites]
    simpa [hne] using ht
  constructor
  case queues => apply hqp
  case slots =>
    intro i msg hi
    simp only [IpmSystem.goto, hsame]
    apply h.slots i msg hi
  case data =>
    intro t i msg ht
    apply h.data t i msg (hplace (by simp [IpmPc.writes]) ht)
  case len =>
    intro t i msg ht
    apply h.len t i msg (hplace (by simp [IpmPc.writes]) ht)
  case kept => apply hkept
  case num => apply h.num
  case rd_le => apply h.rd_le
  case wr_le => apply h.wr_le
  case accepted => apply h.accepted
  case delivered => apply h.delivered
  case fifo => apply h.fifo
  case bounds => apply h.bounds

/-- A thread goes to a place where it has taken no slot. -/
theorem goto (h : Inv s) {x : IpmPc} (hpc : s.pc tp ≠ .blocked) (hx : x ≠ .blocked)
    (hwrites : (s.pc tp).writes = none) (hx' : x.writes = none)
    (hkept : s.iq.rdIdx < s.iq.wrIdx → (∃ t, (Function.update s.pc tp x t).waits) →
      s.iq.qp.qhead = .signaled ∨ ∃ u, (Function.update s.pc tp x u).pending) :
  Inv (s.goto tp x)
  := by
  obtain ⟨m, hm⟩ := h.queues
  refine h.queue ⟨m, hm.congr_pc (fun t ht => Function.update_of_ne ht ..) hpc ?_⟩ hwrites hx' hkept
  rwa [Function.update_self]

/-- A thread that neither starts to wait nor was expected to do anything leaves the wake-ups
of the others as they are. -/
theorem kept_update (h : Inv s) {x : IpmPc} (hwaits : x.waits = true → (s.pc tp).waits = true)
    (hpending : (s.pc tp).pending = true → x.pending = true)
    (hleft : s.iq.rdIdx < s.iq.wrIdx)
    (hex : ∃ t, (Function.update s.pc tp x t).waits = true) :
  s.iq.qp.qhead = .signaled ∨ ∃ u, (Function.update s.pc tp x u).pending = true
  := by
  apply (h.kept hleft (exists_of_update hex hwaits)).imp_right
  intro hu
  apply exists_update tp hu hpending

/-- The call of `raw_event_wait`. -/
theorem getWait (h : Inv s) (hpc : s.pc tp = .getWait) {prio : T → Nat}
    (hs : s.getWait tp prio = some s') :
  Inv s'
  := by
  obtain ⟨⟨qp, waits⟩, hqp, rfl⟩ := Option.map_eq_some_iff.mp hs
  obtain ⟨m, hm⟩ := h.queues
  obtain ⟨rfl, hm'⟩ := hm.rawEventWait (by simp [hpc]) hqp
  have hqueues : qp.Calm false fun t => Function.update s.pc tp
      (if !m then IpmPc.blocked else IpmPc.getRetest) t = .blocked := by
    apply hm'.congr
    intro t
    by_cases ht : t = tp <;> cases m <;> simp [ht, hpc]
  refine h.queue ⟨false, hqueues⟩ (by simp [hpc, IpmPc.writes]) ?_ ?_
  · cases m <;> rfl
  · intro hleft hex
    right
    cases m with
    | true =>
        use tp
        rw [Function.update_self]
        rfl
    | false =>
        apply (h.kept_update _ _ hleft hex).resolve_left
        · intro hmark
          cases hm.sample_eq_signaled.mp (Qhead.sample_eq_signaled.mpr hmark)
        · simp [hpc, IpmPc.waits]
        · simp [hpc, IpmPc.pending]

/-- A call of `event_notify` that wakes the thread at the head and acts on the head that it
finds. -/
theorem notify (h : Inv s) {irqExec : Bool} {sample : Sample}
    (hpc : s.pc tp = .notifyDecide irqExec sample) (hprompt : s.iq.qp.prompt irqExec = true)
    (hfits : s.notifyFits (s.iq.qp.noticed irqExec sample) = true)
    (hs : s.notify tp irqExec sample = some s') :
  Inv s'
  := by
  have hnone : (s.pc tp).writes = none := by simp [hpc, IpmPc.writes]
  have hmoved (t : T) :
      Function.update s.pc tp IpmPc.user t = .blocked ↔ s.pc t = .blocked := by
    by_cases ht : t = tp <;> simp [ht, hpc]
  -- The queue is marked behind the notification.
  have hmarked {qp : ThreadQueue T} (hqp : qp.Calm true fun t => s.pc t = .blocked) :
      Inv ({ s with iq := { s.iq with qp } }.goto tp .user) := by
    refine h.queue ⟨true, hqp.congr hmoved⟩ hnone rfl ?_
    intro _ _
    left
    apply Qhead.sample_eq_signaled.mp (hqp.sample_eq_signaled.mpr rfl)
  obtain ⟨⟨qp, woken⟩, hqp, rfl⟩ := Option.map_eq_some_iff.mp hs
  rw [ThreadQueue.eventNotify_eq hprompt] at hqp
  obtain ⟨m, hm⟩ := h.queues
  cases hsample : s.iq.qp.noticed irqExec sample <;> rw [hsample] at hfits hqp
  case null =>
    obtain ⟨rfl, rfl⟩ := Prod.mk.inj (Option.some.inj hqp)
    apply hmarked
    apply hm.signal
    simpa [notifyFits] using hfits
  case signaled =>
    obtain ⟨rfl, rfl⟩ := Prod.mk.inj (Option.some.inj hqp)
    refine h.queue ⟨m, hm.congr hmoved⟩ hnone rfl ?_
    intro hleft hex
    have hmark : irqExec = true → m = true := by
      rintro rfl
      rw [ThreadQueue.noticed, if_pos rfl] at hsample
      apply hm.sample_eq_signaled.mp hsample
    cases m with
    | true =>
        left
        apply Qhead.sample_eq_signaled.mp (hm.sample_eq_signaled.mpr rfl)
    | false =>
        obtain rfl : irqExec = false := by
          by_contra hirq
          cases hmark (by simpa using hirq)
        obtain rfl : sample = .signaled := hsample
        apply h.kept_update _ _ hleft hex
        · simp [IpmPc.waits]
        · simp [hpc, IpmPc.pending]
  case thread =>
    simp only [notifyFits, decide_eq_true_eq] at hfits
    rw [← hfits] at hqp
    rcases hm.eventNotify hqp with ⟨rfl, -, hm'⟩ | ⟨t, rfl, ht, -, m', hm'⟩
    · apply hmarked hm'
    · have hne : t ≠ tp := by
        rintro rfl
        rw [hpc] at ht
        cases ht
      -- The thread woken is made runnable first, and the caller returns then.
      have hwoken : Inv ({ s with iq := { s.iq with qp } }.goto t .getRetest) := by
        refine h.queue ⟨m', hm'.congr ?_⟩ (by simp [ht, IpmPc.writes]) rfl ?_
        · intro u
          by_cases hu : u = t <;> simp [hu]
        · intro _ _
          right
          use t
          rw [Function.update_self]
          rfl
      have hreturn : Inv (({ s with iq := { s.iq with qp } }.goto t .getRetest).goto tp
          .user) := by
        apply hwoken.goto
        · simp [IpmSystem.goto, hne.symm, hpc]
        · simp
        · simpa [IpmSystem.goto, hne.symm] using hnone
        · rfl
        · intro _ _
          right
          use t
          rw [Function.update_of_ne hne]
          simp [IpmSystem.goto, IpmPc.pending]
      simp only [IpmSystem.goto] at hreturn
      rw [Function.update_comm hne] at hreturn
      apply hreturn

/-- A thread that waits has no event, so that the scheduler takes none off the queue. -/
theorem pass_eq_none (h : Inv s) (tp : T) : s.pass tp = none := by
  obtain ⟨m, hm⟩ := h.queues
  apply if_neg
  rintro ⟨hpc, hec⟩
  apply hec (hm.quiet tp hpc)

/-- A step that keeps the messages keeps the invariant. -/
theorem step (h : Inv s) {l : IpmLabel T} (hl : s.keeping l = true) (hs : s.step l = some s') :
  Inv s'
  := by
  cases l with
  | ipmPostMsg tp msg =>
      simp only [IpmSystem.step] at hs
      split at hs
      · rename_i hpc
        obtain rfl := Option.some.inj hs
        split
        · apply h
        · apply h.goto
          · simp [hpc]
          · simp
          · simp [hpc, IpmPc.writes]
          · rfl
          · apply h.kept_update
            · simp [IpmPc.waits]
            · simp [hpc, IpmPc.pending]
      · cases hs
  | ipmGetMsg tp =>
      simp only [IpmSystem.step] at hs
      split at hs
      · rename_i hpc
        obtain rfl := Option.some.inj hs
        split
        · rename_i hempty
          apply h.goto
          · simp [hpc]
          · simp
          · simp [hpc, IpmPc.writes]
          · rfl
          · intro hleft
            omega
        · rename_i hleft
          have hleft : s.iq.rdIdx < s.iq.wrIdx := by omega
          apply h.take (.inl hpc) hleft
          apply of_decide_eq_true hl hleft
      · cases hs
  | pass tp =>
      rw [IpmSystem.step, h.pass_eq_none] at hs
      cases hs
  | run tp prio irqExec =>
      simp only [IpmSystem.step, IpmSystem.run] at hs
      simp only [keeping] at hl
      cases hpc : s.pc tp <;> rw [hpc] at hs hl
      case user => cases hs
      case postReserve msg =>
        obtain rfl := Option.some.inj hs
        apply h.reserve hpc (of_decide_eq_true hl)
      case postData idx msg =>
        obtain rfl := Option.some.inj hs
        have hidx := h.data tp idx msg hpc
        apply h.write (by simp [hpc, IpmPc.writes]) hidx rfl (.inl rfl)
      case postLen idx msg =>
        obtain rfl := Option.some.inj hs
        obtain ⟨hidx, hdata⟩ := h.len tp idx msg hpc
        apply h.write (by simp [hpc, IpmPc.writes]) hidx hdata
        right
        use rfl
        rw [hdata]
      case notifySample =>
        obtain rfl := Option.some.inj hs
        apply h.goto
        · simp [hpc]
        · simp
        · simp [hpc, IpmPc.writes]
        · rfl
        · intro hleft hex
          -- A notifier that has read `SIGNALED` leaves the wake-up to the mark.
          by_cases hmark : s.iq.qp.qhead.sample = .signaled
          · apply Or.inl (Qhead.sample_eq_signaled.mp hmark)
          · apply h.kept_update _ _ hleft hex
            · simp [IpmPc.waits]
            · simp [IpmPc.pending, hmark]
      case notifyDecide irqExec sample =>
        obtain ⟨hprompt, hfits⟩ := (Bool.and_eq_true _ _).mp hl
        apply h.notify hpc hprompt hfits hs
      case getWait => apply h.getWait hpc hs
      case blocked => cases hs
      case getRetest =>
        obtain rfl := Option.some.inj hs
        split
        · rename_i hempty
          apply h.goto
          · simp [hpc]
          · simp
          · simp [hpc, IpmPc.writes]
          · rfl
          · intro hleft
            omega
        · rename_i hne
          have hrd := h.rd_le
          apply h.take (.inr hpc) (by omega)
          apply of_decide_eq_true hl hne

end Inv

/-- In a run of steps that keep the messages, a message queue keeps its promises in every
state reached. -/
theorem channel_of_keeping {iq : IpmQueue T} {s : IpmSystem T} (hiq : iq.Empty)
    (hrun : Run.Guarded step (fun s l => s.keeping l = true) (init iq) s) :
  Channel s
  := by
  apply Inv.channel
  apply hrun.invariant Inv (Inv.init hiq)
  intro u l w hu hl hw
  apply hu.step hl hw

/-! ### Runs -/

/-- The part of a run in which priorities do not matter. -/
def part {n : Nat} (tp : Fin n) : IpmLabel (Fin n) :=
  .run tp (fun _ => 0) false

/-- A message. -/
def hello : Ipm where
  data := 7
  len := 3

/-- The thread `0` waits for a message, and the thread `1` posts it. -/
def handOver : List (IpmLabel (Fin 2)) :=
  [.ipmGetMsg 0, part 0, .ipmPostMsg 1 hello, part 1, part 1, part 1, part 1, part 1, part 0]

/-- The theorem applied to a message that a receiver waits for. -/
theorem channel_of_keeping_handOver :
  ∃ s, Run.exec step (init (.ipmQueueInit 1)) handOver = some s ∧ s.delivered = [hello] ∧
    Channel s
  := by
  obtain ⟨s, hs, htest⟩ := Run.exists_of_any step (init (.ipmQueueInit 1)) handOver
    (fun s => s.delivered = [hello]) (by decide)
  use s, hs, of_decide_eq_true htest
  apply channel_of_keeping (IpmQueue.empty_ipmQueueInit 1) (Run.guarded_of_exec handOver hs _)
  decide

/-- Two posters find the last slot free, and the second one takes the slot behind it. -/
def overrunSlot : List (IpmLabel (Fin 2)) :=
  [.ipmPostMsg 0 hello, .ipmPostMsg 1 hello, part 0, part 1, part 1]

/-- A receiver reads a slot that is taken and not yet written. -/
def readUnwritten : List (IpmLabel (Fin 2)) :=
  [.ipmPostMsg 0 hello, part 0, .ipmGetMsg 1]

/-- A receiver is queued between the two halves of `event_notify`, which forgets it. -/
def loseReceiver : List (IpmLabel (Fin 2)) :=
  [.ipmGetMsg 0, .ipmPostMsg 1 hello, part 1, part 1, part 1, part 1, part 0, part 1]

/-- A slot behind the last one is written; a message is not the one that was posted; and a
receiver stays blocked while a message is left. -/
theorem not_channel :
  (∃ s, Run.exec step (init (.ipmQueueInit 1)) overrunSlot = some s ∧ ¬ Channel s) ∧
    (∃ s, Run.exec step (init (.ipmQueueInit 1)) readUnwritten = some s ∧ ¬ Channel s) ∧
    (∃ s, Run.exec step (init (.ipmQueueInit 1)) loseReceiver = some s ∧ ¬ Channel s)
  := by
  refine ⟨?_, ?_, ?_⟩
  · obtain ⟨s, hs, htest⟩ := Run.exists_of_any step (init (.ipmQueueInit 1)) overrunSlot
      (fun s => s.overrun) (by decide)
    use s, hs
    intro h
    rw [h.bounds] at htest
    cases htest
  · obtain ⟨s, hs, htest⟩ := Run.exists_of_any step (init (.ipmQueueInit 1)) readUnwritten
      (fun s => ¬ s.delivered <+: s.accepted) (by decide)
    use s, hs
    intro h
    apply of_decide_eq_true htest h.fifo
  · obtain ⟨s, hs, htest⟩ := Run.exists_of_any step (init (.ipmQueueInit 1)) loseReceiver
      (fun s => s.pc 0 = .blocked ∧ s.delivered.length < s.accepted.length ∧
        ∀ u, (s.pc u).pending = false) (by decide)
    obtain ⟨hpc, hleft, hnone⟩ := of_decide_eq_true htest
    use s, hs
    intro h
    obtain ⟨u, hu⟩ := h.kept 0 hpc hleft
    rw [hnone u] at hu
    cases hu

end IpmSystem

end Etaos
