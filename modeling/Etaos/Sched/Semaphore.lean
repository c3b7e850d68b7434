import Etaos.Library.Run
import Etaos.Library.Tally
import Etaos.Sched.ThreadQueue

/-!
# Semaphores

The functions of `semaphore.c`.  The accesses of a call to `value` are one step, and so is
each part of `raw_event_wait` and `event_notify` that runs with preemption disabled; any
thread may run between two steps.

A unit that no thread has taken is remembered by `value`, by a call of `event_notify` that
has not ended, or by the mark of the queue.  The last wake-up on a queue leaves the mark
too, where it stands for no unit; `unit` tells the two apart.
-/

set_option linter.unusedSectionVars false

namespace Etaos

/-- The conversion to the type `short`. -/
def toShort (x : Int) : Int :=
  x.bmod (2 ^ 16)

theorem toShort_eq {x : Int} (h : -2 ^ 15 ≤ x) (h' : x < 2 ^ 15) : toShort x = x := by
  apply Int.bmod_eq_of_le <;> omega

/-- A semaphore. -/
structure Semaphore (T : Type) where
  qp : ThreadQueue T
  /-- The field `value`, of the type `short`. -/
  value : Int

/-- Where a thread is in the functions of `semaphore.c`. -/
inductive SemPc where
  | user
  /-- `sem_wait`, at the call of `raw_event_wait`. -/
  | rawWait
  /-- In `raw_event_wait`, stopped. -/
  | blocked
  /-- Taken off the queue and made runnable. -/
  | woken
  /-- `sem_signal`, at the call of `event_notify`. -/
  | notifySample
  /-- `event_notify`, behind its reads of the flag and of the head. -/
  | notifyDecide (irqExec : Bool) (tp : Sample)
  deriving DecidableEq

namespace SemPc

/-- The places of a thread that has lowered `value` and has no unit. -/
def waits : SemPc → Bool
  | .rawWait => true
  | .blocked => true
  | _ => false

/-- The places of a thread that has raised `value` and is about to notify the queue. -/
def notifies : SemPc → Bool
  | .notifySample => true
  | .notifyDecide _ _ => true
  | _ => false

end SemPc

/-- A semaphore with the threads that use it. -/
structure SemSystem (T : Type) where
  sem : Semaphore T
  pc : T → SemPc
  /-- The calls of `sem_wait` that returned, and those of `sem_try_wait` that succeeded. -/
  completed : Nat
  /-- The completed calls, and those of the threads that were taken off the queue. -/
  granted : Nat
  /-- The calls of `sem_signal`. -/
  signals : Nat
  /-- The queue is marked, and the mark stands for a unit. -/
  unit : Bool

/-- The steps of the threads. -/
inductive SemLabel (T : Type) where
  | semWait (tp : T)
  | semTryWait (tp : T)
  | semSignal (tp : T)
  /-- The next part of a call, with the priorities at that time, and whether the flag
  `CPU_IRQ_EXEC_FLAG` is set. -/
  | run (tp : T) (prio : T → Nat) (irqExec : Bool)
  /-- The scheduler comes to a thread that has an event. -/
  | pass (tp : T)

namespace Semaphore

variable {T : Type} [DecidableEq T]

/-- The function `sem_init`, on memory that holds the queue `mem`. -/
def semInit (mem : ThreadQueue T) (value : Int) : Semaphore T where
  qp := mem.setQhead (.ptr none)
  value := toShort value

end Semaphore

namespace SemSystem

variable {T : Type} [DecidableEq T]

/-- The system behind `sem_init`. -/
def init (mem : ThreadQueue T) (v : Int) : SemSystem T where
  sem := .semInit mem v
  pc := fun _ => .user
  completed := 0
  granted := 0
  signals := 0
  unit := false

/-- A thread goes to a place. -/
def goto (s : SemSystem T) (tp : T) (pc : SemPc) : SemSystem T :=
  { s with pc := Function.update s.pc tp pc }

/-- A call returns with a unit that the thread takes itself. -/
def take (s : SemSystem T) (tp : T) : SemSystem T :=
  { s.goto tp .user with completed := s.completed + 1, granted := s.granted + 1 }

/-- A thread that is taken off the queue is made runnable. -/
def wake (s : SemSystem T) : Option T → SemSystem T
  | none => s
  | some tp => { s.goto tp .woken with granted := s.granted + 1 }

/-- The accesses of `sem_wait` to `value`. -/
def semWait (s : SemSystem T) (tp : T) : SemSystem T :=
  let value := toShort (s.sem.value - 1)
  let s := { s with sem := { s.sem with value } }
  if value < 0 then
    s.goto tp .rawWait
  else
    s.take tp

/-- The accesses of `sem_signal` to `value`. -/
def semSignal (s : SemSystem T) (tp : T) : SemSystem T :=
  let value := toShort (s.sem.value + 1)
  let s := { s with sem := { s.sem with value }, signals := s.signals + 1 }
  if value ≤ 0 then
    s.goto tp .notifySample
  else
    s

variable [Fintype T]

/-- The call of `raw_event_wait`. -/
def rawWait (s : SemSystem T) (tp : T) (prio : T → Nat) : Option (SemSystem T) :=
  (s.sem.qp.rawEventWait prio tp).map fun (qp, waits) =>
    let s := { s with sem := { s.sem with qp } }
    if waits then
      s.goto tp .blocked
    else
      { s.take tp with unit := false }

/-- The part of `event_notify` behind its reads of the flag and of the head. -/
def notify (s : SemSystem T) (tp : T) (irqExec : Bool) (sample : Sample) :
    Option (SemSystem T) :=
  (s.sem.qp.eventNotify irqExec sample).map fun (qp, woken) =>
    let s := { s with sem := { s.sem with qp } }
    { (s.goto tp .user).wake woken with unit := woken = none ∧ qp.qhead = .signaled }

/-- The next part of the call of a thread. -/
def run (s : SemSystem T) (tp : T) (prio : T → Nat) (irqExec : Bool) : Option (SemSystem T) :=
  match s.pc tp with
  | .user => none
  | .rawWait => s.rawWait tp prio
  | .blocked => none
  | .woken => some { s.goto tp .user with completed := s.completed + 1 }
  | .notifySample => some (s.goto tp (.notifyDecide irqExec s.sem.qp.qhead.sample))
  | .notifyDecide irqExec sample => s.notify tp irqExec sample

/-- What `rq_signal_threads` does when it comes to a thread. -/
def pass (s : SemSystem T) (tp : T) : Option (SemSystem T) :=
  if s.pc tp = .blocked ∧ s.sem.qp.links.ec tp ≠ 0 then
    (s.sem.qp.signalThread tp).map fun (qp, woken) =>
      { s with sem := { s.sem with qp } }.wake woken
  else
    none

/-- A step of the threads. -/
def step (s : SemSystem T) : SemLabel T → Option (SemSystem T)
  | .semWait tp => if s.pc tp = .user then some (s.semWait tp) else none
  | .semTryWait tp =>
      if s.pc tp = .user then
        some (if s.sem.value ≤ 0 then s else s.semWait tp)
      else
        none
  | .semSignal tp => if s.pc tp = .user then some (s.semSignal tp) else none
  | .run tp prio irqExec => s.run tp prio irqExec
  | .pass tp => s.pass tp

/-- What a semaphore initialised with `v` promises: no unit is granted twice, and no thread
stays blocked while a unit is left, unless a notification is on its way. -/
structure Conserved (v : Int) (s : SemSystem T) : Prop where
  bounded : s.completed ≤ v + s.signals
  kept : ∀ t, s.pc t = .blocked → s.granted < v + s.signals → ∃ u, (s.pc u).notifies

/-! ### The steps that conserve the units -/

/-- A call of `event_notify` acts on the head that it finds: on a thread, or on a queue that
does not yet remember a unit. -/
def notifyFits (s : SemSystem T) : Sample → Bool
  | .thread => s.sem.qp.qhead.sample = .thread
  | .null => s.sem.qp.qhead.sample ≠ .thread ∧ s.unit = false
  | .signaled => s.sem.qp.qhead = .signaled ∧ s.unit = false

/-- The steps that conserve the units: `value` does not overflow, a wait takes the mark only
where it stands for a unit, and a notification wakes the thread at the head, when there is one,
and acts on the head that it finds. -/
def conserving (s : SemSystem T) : SemLabel T → Bool
  | .semWait _ => -2 ^ 15 < s.sem.value
  | .semTryWait _ => true
  | .semSignal _ => s.sem.value < 2 ^ 15 - 1
  | .run tp _ _ =>
      match s.pc tp with
      | .rawWait => s.sem.qp.qhead = .signaled → s.unit = true
      | .notifyDecide irqExec sample =>
          s.sem.qp.prompt irqExec && s.notifyFits (s.sem.qp.noticed irqExec sample)
      | _ => true
  | .pass _ => true

/-- The invariant of a semaphore.  The threads that wait are those that `value` counts, and
those that a unit on its way is for. -/
structure Inv (v : Int) (s : SemSystem T) : Prop where
  queues : ∃ m, (s.sem.qp.Calm m fun t => s.pc t = .blocked) ∧ (s.unit = true → m = true)
  low : -2 ^ 15 ≤ s.sem.value
  high : s.sem.value < 2 ^ 15
  value : s.sem.value + s.granted + tally (indicator SemPc.waits) s.pc = v + s.signals
  waits : tally (indicator SemPc.waits) s.pc
    = max 0 (-s.sem.value) + tally (indicator SemPc.notifies) s.pc + s.unit.toNat
  completed : s.completed + tally (indicator (· = SemPc.woken)) s.pc = s.granted

namespace Inv

variable {v : Int} {s s' : SemSystem T} {tp : T}

theorem init {mem : ThreadQueue T} (hmem : mem.schedClass ≠ none) (h : 0 ≤ v)
    (h' : v < 2 ^ 15) :
  Inv v (init mem v)
  := by
  have hv : toShort v = v := toShort_eq (by omega) h'
  have hzero (p : SemPc → Bool) (hp : p .user = false) :
      tally (indicator p) (fun _ : T => SemPc.user) = 0 := by
    apply tally_eq_zero
    simp [indicator, hp]
  constructor
  case queues =>
    refine ⟨false, ⟨⟨[], ?_, ?_⟩, ?_⟩, ?_⟩
    · constructor
      · constructor <;> simp [SemSystem.init, Semaphore.semInit, ThreadQueue.setQhead,
          Chain.IsChain, eq_comm]
      · simp [SemSystem.init, Semaphore.semInit, ThreadQueue.setQhead, ThreadQueue.qhead]
      · apply hmem
    · simp [SemSystem.init]
    · simp [SemSystem.init]
    · simp [SemSystem.init]
  all_goals simp only [SemSystem.init, Semaphore.semInit, hv, hzero SemPc.waits rfl,
    hzero SemPc.notifies rfl, hzero (· = SemPc.woken) rfl, Bool.toNat_false]
  all_goals omega

/-- The invariant gives the promises. -/
theorem conserved (h : Inv v s) : Conserved v s := by
  have hvalue := h.value
  have hwaits := h.waits
  have hcompleted := h.completed
  have hwoken := tally_nonneg (indicator_nonneg (· = SemPc.woken)) s.pc
  have hnotifies := tally_nonneg (indicator_nonneg SemPc.notifies) s.pc
  constructor
  case bounded => omega
  case kept =>
    intro t ht hleft
    have hone := le_tally (indicator_nonneg SemPc.waits) s.pc t
    rw [ht, indicator, SemPc.waits, if_pos rfl] at hone
    obtain ⟨m, hm, hunit⟩ := h.queues
    -- A thread is on the queue, so that the queue is not marked.
    have hnot : s.unit = false := by
      by_contra hmark
      obtain rfl := hunit (by simpa using hmark)
      apply hm.not_waits t ht
    rw [hnot, Bool.toNat_false] at hwaits
    have hpos : tally (indicator SemPc.notifies) s.pc ≠ 0 := by omega
    obtain ⟨u, hu⟩ := exists_of_tally_ne_zero hpos
    use u
    by_contra hfalse
    apply hu
    rw [indicator, if_neg hfalse]

/-- The tallies when one thread goes to another place. -/
theorem tally_goto (p : SemPc → Bool) (pc : T → SemPc) (tp : T) (x : SemPc) :
  tally (indicator p) (Function.update pc tp x)
    = tally (indicator p) pc - (p (pc tp)).toNat + (p x).toNat
  := by
  rw [tally_update, indicator, indicator]
  cases p (pc tp) <;> cases p x <;> rfl

/-- A change of `value` and of the place of one thread that keeps it off the queue. -/
theorem of_goto (h : Inv v s) (tp : T) (hpc : s.pc tp ≠ .blocked) (hpc' : s'.pc tp ≠ .blocked)
    (hother : ∀ t, t ≠ tp → s'.pc t = s.pc t) (hqp : s'.sem.qp = s.sem.qp)
    (hunit : s'.unit = s.unit) :
  ∃ m, (s'.sem.qp.Calm m fun t => s'.pc t = .blocked) ∧ (s'.unit = true → m = true)
  := by
  obtain ⟨m, hm, hmark⟩ := h.queues
  rw [hqp, hunit]
  use m, hm.congr_pc hother hpc hpc'

/-- The accesses of `sem_wait` to `value`. -/
theorem semWait (h : Inv v s) (hpc : s.pc tp = .user) (hlow : -2 ^ 15 < s.sem.value) :
  Inv v (s.semWait tp)
  := by
  have hhigh := h.high
  have hvalue := h.value
  have hwaits := h.waits
  have hcompleted := h.completed
  have hshort : toShort (s.sem.value - 1) = s.sem.value - 1 := toShort_eq (by omega) (by omega)
  rw [SemSystem.semWait, hshort]
  dsimp only
  split
  · constructor
    case queues =>
      apply h.of_goto tp <;> simp +contextual [goto, hpc]
    all_goals simp only [goto, tally_goto, hpc, SemPc.waits, SemPc.notifies, reduceCtorEq,
      decide_false, Bool.toNat_false, Bool.toNat_true]
    all_goals omega
  · constructor
    case queues =>
      apply h.of_goto tp <;> simp +contextual [take, goto, hpc]
    all_goals simp only [take, goto, tally_goto, hpc, SemPc.waits, SemPc.notifies,
      reduceCtorEq, decide_false, Bool.toNat_false, Nat.cast_add]
    all_goals omega

/-- The accesses of `sem_signal` to `value`. -/
theorem semSignal (h : Inv v s) (hpc : s.pc tp = .user) (hhigh : s.sem.value < 2 ^ 15 - 1) :
  Inv v (s.semSignal tp)
  := by
  have hlow := h.low
  have hvalue := h.value
  have hwaits := h.waits
  have hcompleted := h.completed
  have hshort : toShort (s.sem.value + 1) = s.sem.value + 1 := toShort_eq (by omega) (by omega)
  rw [SemSystem.semSignal, hshort]
  dsimp only
  split
  · constructor
    case queues =>
      apply h.of_goto tp <;> simp +contextual [goto, hpc]
    all_goals simp only [goto, tally_goto, hpc, SemPc.waits, SemPc.notifies, reduceCtorEq,
      decide_false, Bool.toNat_false, Bool.toNat_true, Nat.cast_add]
    all_goals omega
  · constructor
    case queues => apply h.queues
    all_goals simp only [Nat.cast_add]
    all_goals omega

/-- The call of `raw_event_wait`, which takes a mark only where it stands for a unit. -/
theorem rawWait (h : Inv v s) (hpc : s.pc tp = .rawWait)
    (hunit : s.sem.qp.qhead = .signaled → s.unit = true) {prio : T → Nat}
    (hs : s.rawWait tp prio = some s') :
  Inv v s'
  := by
  have hlow := h.low
  have hhigh := h.high
  have hvalue := h.value
  have hwaits := h.waits
  have hcompleted := h.completed
  obtain ⟨⟨qp, waits⟩, hqp, rfl⟩ := Option.map_eq_some_iff.mp hs
  obtain ⟨m, hm, hmark⟩ := h.queues
  obtain ⟨rfl, hm'⟩ := hm.rawEventWait (by simp [hpc]) hqp
  have hsignaled : m = true → s.unit = true := by
    rintro rfl
    apply hunit (Qhead.sample_eq_signaled.mp (hm.sample_eq_signaled.mpr rfl))
  cases m with
  | true =>
      rw [hsignaled rfl, Bool.toNat_true] at hwaits
      constructor
      case queues =>
        refine ⟨false, hm'.congr ?_, ?_⟩
        · intro t
          by_cases ht : t = tp <;> simp [take, goto, ht, hpc]
        · simp
      all_goals simp only [Bool.not_true, Bool.false_eq_true, if_false, take, goto,
        tally_goto, hpc, SemPc.waits, SemPc.notifies, reduceCtorEq, decide_false,
        Bool.toNat_false, Bool.toNat_true, Nat.cast_add]
      all_goals omega
  | false =>
      have hclear : s.unit = false := by
        by_contra htrue
        cases hmark (by simpa using htrue)
      rw [hclear, Bool.toNat_false] at hwaits
      constructor
      case queues =>
        refine ⟨false, hm'.congr ?_, ?_⟩
        · intro t
          by_cases ht : t = tp <;> simp [goto, ht]
        · simp [goto, hclear]
      all_goals simp only [Bool.not_false, if_true, goto, tally_goto, hpc, hclear,
        SemPc.waits, SemPc.notifies, reduceCtorEq, decide_false, Bool.toNat_false,
        Bool.toNat_true]
      all_goals omega

/-- A call of `event_notify` that wakes the thread at the head and acts on the head that it
finds. -/
theorem notify (h : Inv v s) {irqExec : Bool} {sample : Sample}
    (hpc : s.pc tp = .notifyDecide irqExec sample) (hprompt : s.sem.qp.prompt irqExec = true)
    (hfits : s.notifyFits (s.sem.qp.noticed irqExec sample) = true)
    (hs : s.notify tp irqExec sample = some s') :
  Inv v s'
  := by
  have hlow := h.low
  have hhigh := h.high
  have hvalue := h.value
  have hwaits := h.waits
  have hcompleted := h.completed
  obtain ⟨⟨qp, woken⟩, hqp, rfl⟩ := Option.map_eq_some_iff.mp hs
  rw [ThreadQueue.eventNotify_eq hprompt] at hqp
  obtain ⟨m, hm, hmark⟩ := h.queues
  -- The notification marks the queue, or wakes a thread.
  have hnotify : s.unit = false ∧ ((woken = none ∧
      qp.Calm true fun t => s.pc t = .blocked) ∨
      ∃ t, woken = some t ∧ s.pc t = .blocked ∧
        ∃ m', qp.Calm m' fun u => u ≠ t ∧ s.pc u = .blocked) := by
    cases hsample : s.sem.qp.noticed irqExec sample <;> rw [hsample] at hfits hqp
    case null =>
      simp only [notifyFits, Bool.decide_and, Bool.and_eq_true, decide_eq_true_eq] at hfits
      obtain ⟨rfl, rfl⟩ := Prod.mk.inj (Option.some.inj hqp)
      exact ⟨hfits.2, .inl ⟨rfl, hm.signal hfits.1⟩⟩
    case signaled =>
      simp only [notifyFits, Bool.decide_and, Bool.and_eq_true, decide_eq_true_eq] at hfits
      obtain ⟨rfl, rfl⟩ := Prod.mk.inj (Option.some.inj hqp)
      obtain rfl := hm.sample_eq_signaled.mp (Qhead.sample_eq_signaled.mpr hfits.1)
      exact ⟨hfits.2, .inl ⟨rfl, hm⟩⟩
    case thread =>
      simp only [notifyFits, decide_eq_true_eq] at hfits
      rw [← hfits] at hqp
      constructor
      · by_contra hunit
        obtain rfl := hmark (by simpa using hunit)
        rw [hm.sample_eq_signaled.mpr rfl] at hfits
        cases hfits
      · rcases hm.eventNotify hqp with ⟨rfl, -, hm'⟩ | ⟨t, rfl, ht, -, m', hm'⟩
        · exact .inl ⟨rfl, hm'⟩
        · exact .inr ⟨t, rfl, ht, m', hm'⟩
  obtain ⟨hunit, hnotify⟩ := hnotify
  rw [hunit, Bool.toNat_false] at hwaits
  rcases hnotify with ⟨rfl, hm'⟩ | ⟨t, rfl, ht, m', hm'⟩
  · have hhead : qp.qhead = .signaled :=
      Qhead.sample_eq_signaled.mp (hm'.sample_eq_signaled.mpr rfl)
    constructor
    case queues =>
      refine ⟨true, hm'.congr ?_, fun _ => rfl⟩
      intro t
      by_cases ht : t = tp <;> simp [wake, goto, ht, hpc]
    all_goals simp only [wake, goto, tally_goto, hpc, hhead, SemPc.waits, SemPc.notifies,
      reduceCtorEq, decide_false, decide_true, and_self, Bool.toNat_false, Bool.toNat_true]
    all_goals omega
  · have hne : t ≠ tp := by
      rintro rfl
      rw [hpc] at ht
      cases ht
    constructor
    case queues =>
      refine ⟨m', hm'.congr ?_, by simp⟩
      intro u
      by_cases hu : u = t
      · simp [wake, goto, hu]
      · by_cases hutp : u = tp <;> simp [wake, goto, hu, hutp, hpc, hne.symm]
    all_goals simp only [wake, goto, tally_goto, Function.update_of_ne hne, hpc, ht,
      SemPc.waits, SemPc.notifies, reduceCtorEq, decide_false, decide_true, false_and,
      Bool.toNat_false, Bool.toNat_true, Nat.cast_add]
    all_goals omega

/-- The return of a thread that was taken off the queue. -/
theorem woken (h : Inv v s) (hpc : s.pc tp = .woken) :
  Inv v { s.goto tp .user with completed := s.completed + 1 }
  := by
  have hlow := h.low
  have hhigh := h.high
  have hvalue := h.value
  have hwaits := h.waits
  have hcompleted := h.completed
  constructor
  case queues =>
    apply h.of_goto tp <;> simp +contextual [goto, hpc]
  all_goals simp only [goto, tally_goto, hpc, SemPc.waits, SemPc.notifies, reduceCtorEq,
    decide_false, decide_true, Bool.toNat_false, Bool.toNat_true, Nat.cast_add]
  all_goals omega

/-- The reads of the flag and of the head in `event_notify`. -/
theorem sample (h : Inv v s) (hpc : s.pc tp = .notifySample) (irqExec : Bool)
    (sample : Sample) :
  Inv v (s.goto tp (.notifyDecide irqExec sample))
  := by
  have hlow := h.low
  have hhigh := h.high
  have hvalue := h.value
  have hwaits := h.waits
  have hcompleted := h.completed
  constructor
  case queues =>
    apply h.of_goto tp <;> simp +contextual [goto, hpc]
  all_goals simp only [goto, tally_goto, hpc, SemPc.waits, SemPc.notifies, reduceCtorEq,
    decide_false, Bool.toNat_false, Bool.toNat_true]
  all_goals omega

/-- A thread that waits has no event, so that the scheduler takes none off the queue. -/
theorem pass_eq_none (h : Inv v s) (tp : T) : s.pass tp = none := by
  obtain ⟨m, hm, -⟩ := h.queues
  apply if_neg
  rintro ⟨hpc, hec⟩
  apply hec (hm.quiet tp hpc)

/-- A conserving step keeps the invariant. -/
theorem step (h : Inv v s) {l : SemLabel T} (hl : s.conserving l = true)
    (hs : s.step l = some s') :
  Inv v s'
  := by
  cases l with
  | semWait tp =>
      simp only [SemSystem.step] at hs
      split at hs
      · rename_i hpc
        obtain rfl := Option.some.inj hs
        apply h.semWait hpc
        simpa [conserving] using hl
      · cases hs
  | semTryWait tp =>
      simp only [SemSystem.step] at hs
      split at hs
      · rename_i hpc
        obtain rfl := Option.some.inj hs
        split
        · apply h
        · rename_i hvalue
          apply h.semWait hpc
          omega
      · cases hs
  | semSignal tp =>
      simp only [SemSystem.step] at hs
      split at hs
      · rename_i hpc
        obtain rfl := Option.some.inj hs
        apply h.semSignal hpc
        simpa [conserving] using hl
      · cases hs
  | pass tp =>
      rw [SemSystem.step, h.pass_eq_none] at hs
      cases hs
  | run tp prio irqExec =>
      simp only [SemSystem.step, SemSystem.run] at hs
      simp only [conserving] at hl
      cases hpc : s.pc tp <;> rw [hpc] at hs hl
      case user => cases hs
      case rawWait =>
        apply h.rawWait hpc (of_decide_eq_true hl) hs
      case blocked => cases hs
      case woken =>
        obtain rfl := Option.some.inj hs
        apply h.woken hpc
      case notifySample =>
        obtain rfl := Option.some.inj hs
        apply h.sample hpc
      case notifyDecide irqExec sample =>
        obtain ⟨hprompt, hfits⟩ := (Bool.and_eq_true _ _).mp hl
        apply h.notify hpc hprompt hfits hs

end Inv

/-- In a run of conserving steps, a semaphore on memory that names a scheduling class keeps
its promises in every state reached. -/
theorem conserved_of_conserving {mem : ThreadQueue T} {v : Int} {s : SemSystem T}
    (hmem : mem.schedClass ≠ none) (hv : 0 ≤ v) (hv' : v < 2 ^ 15)
    (hrun : Run.Guarded step (fun s l => s.conserving l = true) (init mem v) s) :
  Conserved v s
  := by
  apply Inv.conserved
  apply hrun.invariant (Inv v) (Inv.init hmem hv hv')
  intro u l w hu hl hw
  apply hu.step hl hw

/-! ### Runs -/

/-- The part of a run in which priorities do not matter. -/
def part {n : Nat} (tp : Fin n) : SemLabel (Fin n) :=
  .run tp (fun _ => 0) false

/-- The thread `0` waits, and the thread `1` signals the semaphore. -/
def handOver : List (SemLabel (Fin 2)) :=
  [.semWait 0, part 0, .semSignal 1, part 1, part 1, part 0]

/-- The theorem applied to a thread that waits for a unit and gets it. -/
theorem conserved_of_conserving_handOver :
  ∃ s, Run.exec step (init .threadQueueInit 0) handOver = some s ∧ s.completed = 1 ∧
    Conserved 0 s
  := by
  obtain ⟨s, hs, htest⟩ := Run.exists_of_any step (init .threadQueueInit 0) handOver
    (fun s => s.completed = 1) (by decide)
  use s, hs, of_decide_eq_true htest
  have hrun := Run.guarded_of_exec handOver hs
    (show Run.Meets step (fun s l => s.conserving l = true) _ _ by decide)
  apply conserved_of_conserving _ _ _ hrun
  · decide
  · decide
  · decide

/-- Behind the wake-up of the last waiter the mark is left on the queue, and the next call of
`sem_wait` returns although there is no unit. -/
def grantTwice : List (SemLabel (Fin 2)) :=
  handOver ++ [.semWait 0, part 0]

/-- Two units are signalled before the two threads that wait for them are on the queue: the
queue remembers one of them. -/
def loseUnit : List (SemLabel (Fin 4)) :=
  [.semWait 0, .semWait 1, .semSignal 2, part 2, part 2, .semSignal 3, part 3, part 3, part 0,
    part 1]

/-- The part of a run in which a thread finds the flag set. -/
def partIrq {n : Nat} (tp : Fin n) : SemLabel (Fin n) :=
  .run tp (fun _ => 0) true

/-- Two units are signalled by a thread that finds the flag set, and both are counted as events of
the one thread on the queue.  The scheduler wakes it for one of them and leaves the mark, which
the next signal takes for its own. -/
def loseEvent : List (SemLabel (Fin 6)) :=
  [.semWait 0, part 0, .semWait 1, .semWait 2, .semSignal 3, partIrq 3, partIrq 3, .semSignal 3,
    partIrq 3, partIrq 3, .pass 0, .semSignal 4, part 4, part 4, part 1, part 2]

/-- A thread that waits on a queue without a scheduling class is not put on it. -/
def loseThread : List (SemLabel (Fin 2)) :=
  [.semWait 0, part 0, .semSignal 1, part 1, part 1]

/-- A thread that stays blocked while a unit is left and nobody notifies the queue. -/
theorem not_conserved_of_blocked {v : Int} {s : SemSystem T} {t : T} (ht : s.pc t = .blocked)
    (hleft : s.granted < v + s.signals) (hnone : ∀ u, (s.pc u).notifies = false) :
  ¬ Conserved v s
  := by
  intro h
  obtain ⟨u, hu⟩ := h.kept t ht hleft
  rw [hnone u] at hu
  cases hu

/-- A thread that stays blocked in the last state of a run. -/
theorem not_conserved_of_run {n : Nat} {mem : ThreadQueue (Fin n)} {v : Int}
    {ls : List (SemLabel (Fin n))} {t : Fin n}
    (h : (Run.exec step (init mem v) ls).any fun s => s.pc t = .blocked ∧
      s.granted < v + s.signals ∧ ∀ u, (s.pc u).notifies = false) :
  ∃ s, Run.exec step (init mem v) ls = some s ∧ ¬ Conserved v s
  := by
  obtain ⟨s, hs, htest⟩ := Run.exists_of_any step (init mem v) ls _ h
  obtain ⟨hpc, hleft, hnone⟩ := of_decide_eq_true htest
  use s, hs
  apply not_conserved_of_blocked hpc hleft hnone

/-- A unit is granted twice; a unit is lost, with the flag clear and with the flag set; and a
semaphore on zeroed memory loses the thread that waits. -/
theorem not_conserved :
  (∃ s, Run.exec step (init .threadQueueInit 0) grantTwice = some s ∧ ¬ Conserved 0 s) ∧
    (∃ s, Run.exec step (init .threadQueueInit 0) loseUnit = some s ∧ ¬ Conserved 0 s) ∧
    (∃ s, Run.exec step (init .threadQueueInit 0) loseEvent = some s ∧ ¬ Conserved 0 s) ∧
    (∃ s, Run.exec step (init { ThreadQueue.threadQueueInit with schedClass := none } 0)
      loseThread = some s ∧ ¬ Conserved 0 s)
  := by
  refine ⟨?_, ?_, ?_, ?_⟩
  · obtain ⟨s, hs, htest⟩ := Run.exists_of_any step (init .threadQueueInit 0) grantTwice
      (fun s => s.completed = 2 ∧ s.signals = 1) (by decide)
    obtain ⟨hcompleted, hsignals⟩ := of_decide_eq_true htest
    use s, hs
    intro h
    have hbounded := h.bounded
    rw [hcompleted, hsignals] at hbounded
    norm_num at hbounded
  · apply not_conserved_of_run (t := 1)
    decide
  · apply not_conserved_of_run (t := 2)
    decide +kernel
  · apply not_conserved_of_run (t := 0)
    decide

end SemSystem

end Etaos
