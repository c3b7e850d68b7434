import Etaos.Library.Run
import Etaos.Sched.ThreadQueue
import Mathlib.Algebra.Group.Int.Defs

/-!
# Mutexes

The functions of `mutex.c`.  Both `mutex_lock` and `mutex_unlock` run with preemption
disabled, so that another thread runs only while the caller waits on the queue of the
mutex; the model also lets it run between two turns of the loop of `mutex_lock`.  A thread
that holds the mutex may block at any time, which is a run in which it takes no step.

A call of `mutex_unlock` that finds the flag `CPU_IRQ_EXEC_FLAG` set wakes nobody: it counts an
event for the first thread on the queue, which the next pass of the scheduler takes off it.

The field `count` is an `int` of 16 bits, whose overflow is undefined.  The model counts on; the
runs that `heeds` allows do not come there.
-/

set_option linter.unusedSectionVars false

namespace Etaos

/-- A mutex. -/
structure Mutex (T : Type) where
  qp : ThreadQueue T
  count : Int
  owner : Option T

/-- Where a thread is in `mutex_lock`. -/
inductive LockPc where
  /-- Not in `mutex_lock`. -/
  | user
  /-- At the loop, without having waited. -/
  | enter
  /-- In `raw_event_wait`, on the queue of the mutex. -/
  | queued
  /-- Taken off the queue and made runnable, and back at the loop. -/
  | woken
  deriving DecidableEq

/-- A mutex with the threads that use it. -/
structure MutexSystem (T : Type) where
  mutex : Mutex T
  pc : T → LockPc
  /-- The completed calls of `mutex_lock` that are not yet matched by `mutex_unlock`. -/
  locks : T → Nat

/-- The steps of the threads. -/
inductive MutexLabel (T : Type) where
  /-- The call of `mutex_lock`. -/
  | lock (tp : T)
  /-- One turn of its loop, with the priorities at that time. -/
  | loop (tp : T) (prio : T → Nat)
  /-- The call of `mutex_unlock`; `irqExec` is whether it finds `CPU_IRQ_EXEC_FLAG` set. -/
  | unlock (tp : T) (irqExec : Bool)
  /-- The scheduler comes to a thread that has an event. -/
  | pass (tp : T)

namespace Mutex

variable {T : Type} [DecidableEq T]

/-- The function `mutex_init`. -/
def mutexInit : Mutex T where
  qp := .threadQueueInit
  count := 0
  owner := none

/-- The end of `mutex_lock`. -/
def acquire (m : Mutex T) (tp : T) : Mutex T :=
  { m with count := m.count + 1, owner := some tp }

variable [Fintype T]

/-- The function `mutex_unlock` of the owner. -/
def mutexUnlock (m : Mutex T) (irqExec : Bool) : Option (Mutex T × Option T) :=
  let m := { m with count := m.count - 1 }
  if m.count = 0 then
    let m := { m with owner := none }
    (m.qp.eventNotify irqExec m.qp.qhead.sample).map fun (qp, woken) => ({ m with qp }, woken)
  else
    some (m, none)

end Mutex

namespace MutexSystem

variable {T : Type} [DecidableEq T]

/-- The system at the initialisation of the mutex. -/
def init : MutexSystem T where
  mutex := .mutexInit
  pc := fun _ => .user
  locks := fun _ => 0

/-- A thread goes to a place. -/
def goto (s : MutexSystem T) (tp : T) (pc : LockPc) : MutexSystem T :=
  { s with pc := Function.update s.pc tp pc }

/-- A call of `mutex_lock` returns with the mutex. -/
def acquire (s : MutexSystem T) (tp : T) : MutexSystem T :=
  { mutex := s.mutex.acquire tp
    pc := Function.update s.pc tp .user
    locks := Function.update s.locks tp (s.locks tp + 1) }

/-- A thread that is taken off the queue is made runnable. -/
def wake (s : MutexSystem T) : Option T → MutexSystem T
  | none => s
  | some tp => s.goto tp .woken

variable [Fintype T]

/-- One turn of the loop of `mutex_lock`. -/
def loop (s : MutexSystem T) (tp : T) (prio : T → Nat) : Option (MutexSystem T) :=
  if s.mutex.count = 0 then
    some (s.acquire tp)
  else
    (s.mutex.qp.rawEventWait prio tp).map fun (qp, waits) =>
      { s with mutex := { s.mutex with qp } }.goto tp (if waits then .queued else s.pc tp)

/-- A step of the threads; `mutex_unlock` is called by the owner. -/
def step (s : MutexSystem T) : MutexLabel T → Option (MutexSystem T)
  | .lock tp =>
      if s.pc tp = .user then
        some (if s.mutex.owner = some tp then s.acquire tp else s.goto tp .enter)
      else
        none
  | .loop tp prio =>
      if s.pc tp = .enter ∨ s.pc tp = .woken then
        s.loop tp prio
      else
        none
  | .unlock tp irqExec =>
      if s.pc tp = .user ∧ s.mutex.owner = some tp then
        (s.mutex.mutexUnlock irqExec).map fun (mutex, woken) =>
          { s with mutex, locks := Function.update s.locks tp (s.locks tp - 1) }.wake woken
      else
        none
  | .pass tp =>
      if s.pc tp = .queued ∧ s.mutex.qp.links.ec tp ≠ 0 then
        (s.mutex.qp.signalThread tp).map fun (qp, woken) =>
          { s with mutex := { s.mutex with qp } }.wake woken
      else
        none

/-- The steps after which no thread is left behind: `count` does not overflow, and the call of
`mutex_unlock` that frees the mutex wakes the first thread on its queue. -/
def heeds (s : MutexSystem T) : MutexLabel T → Bool
  | .lock tp => s.mutex.owner = some tp → s.mutex.count < 2 ^ 15 - 1
  | .loop _ _ => true
  | .unlock _ irqExec => s.mutex.count = 1 → s.mutex.qp.prompt irqExec = true
  | .pass _ => true

/-- The invariant of a mutex. -/
structure Inv (s : MutexSystem T) : Prop where
  queues : ∃ m, s.mutex.qp.Calm m fun t => s.pc t = .queued
  owner : ∀ t, 0 < s.locks t ↔ s.mutex.owner = some t
  count : ∀ t, s.mutex.owner = some t → s.mutex.count = s.locks t
  fits : s.mutex.count < 2 ^ 15
  free : s.mutex.owner = none → s.mutex.count = 0
  user : ∀ t, s.mutex.owner = some t → s.pc t = .user
  handed : s.mutex.count = 0 → (∃ t, s.pc t = .queued) → ∃ u, s.pc u = .woken

/-- What the mutex promises: at most one thread holds it, which is the owner and has locked
it `count` times, a value of its type; and when it is free, a thread on its queue is not left
behind. -/
structure Safe (s : MutexSystem T) : Prop where
  exclusive : ∀ t u, 0 < s.locks t → 0 < s.locks u → t = u
  owner : ∀ t, 0 < s.locks t ↔ s.mutex.owner = some t
  count : ∀ t, s.mutex.owner = some t → s.mutex.count = s.locks t
  fits : s.mutex.count < 2 ^ 15
  queue : ∃ m, s.mutex.qp.Queues m fun t => s.pc t = .queued
  progress : s.mutex.count = 0 → ∀ t, s.pc t = .queued → ∃ u, u ≠ t ∧ s.pc u = .woken

namespace Inv

variable {s s' : MutexSystem T} {tp : T}

theorem init : Inv (init : MutexSystem T) := by
  constructor
  case queues =>
    refine ⟨true, ⟨[], ThreadQueue.holds_threadQueueInit, ?_⟩, ?_⟩
    · simp [MutexSystem.init]
    · simp [MutexSystem.init]
  all_goals simp [MutexSystem.init, Mutex.mutexInit]

/-- The mutex is free exactly when it is not locked. -/
theorem count_eq_zero (h : Inv s) : s.mutex.count = 0 ↔ s.mutex.owner = none := by
  constructor
  · intro hcount
    cases howner : s.mutex.owner with
    | none => rfl
    | some t =>
        have hlocks := (h.owner t).mpr howner
        have := h.count t howner
        omega
  · apply h.free

/-- A thread takes the mutex, when it is free or its own and can be counted once more. -/
theorem acquire (h : Inv s) (htp : s.mutex.owner = none ∨ s.mutex.owner = some tp)
    (hfits : s.mutex.owner = some tp → s.mutex.count < 2 ^ 15 - 1) (hpc : s.pc tp ≠ .queued) :
  Inv (s.acquire tp)
  := by
  have hcount : s.mutex.count = s.locks tp := by
    rcases htp with hnone | hself
    · have hlocks : ¬ 0 < s.locks tp := by
        rw [h.owner, hnone]
        simp
      rw [h.free hnone]
      omega
    · apply h.count tp hself
  have hother {t : T} (ht : t ≠ tp) : s.mutex.owner ≠ some t := by
    rcases htp with hnone | hself
    · simp [hnone]
    · simpa [hself] using ht.symm
  constructor
  case queues =>
    obtain ⟨m, hm⟩ := h.queues
    use m
    apply hm.congr_pc (fun t ht => Function.update_of_ne ht ..) (by simp [hpc])
    simp [MutexSystem.acquire]
  case owner =>
    intro t
    by_cases ht : t = tp
    · simp [MutexSystem.acquire, Mutex.acquire, ht]
    · simp [MutexSystem.acquire, Mutex.acquire, ht, Ne.symm ht, h.owner, hother ht]
  case count =>
    intro t ht
    obtain rfl : tp = t := Option.some.inj ht
    simp [MutexSystem.acquire, Mutex.acquire, hcount]
  case fits =>
    have hlt : s.mutex.count < 2 ^ 15 - 1 := by
      rcases htp with hnone | hself
      · rw [h.free hnone]
        decide
      · apply hfits hself
    simp only [MutexSystem.acquire, Mutex.acquire]
    omega
  case free =>
    intro hnone
    cases hnone
  case user =>
    intro t ht
    obtain rfl : tp = t := Option.some.inj ht
    simp [MutexSystem.acquire]
  case handed =>
    intro hzero
    simp [MutexSystem.acquire, Mutex.acquire, hcount] at hzero
    omega

/-- A thread that does not hold the mutex goes to the loop. -/
theorem enter (h : Inv s) (hpc : s.pc tp = .user) (htp : s.mutex.owner ≠ some tp) :
  Inv (s.goto tp .enter)
  := by
  have hqueued (t : T) : (s.goto tp .enter).pc t = .queued ↔ s.pc t = .queued := by
    by_cases ht : t = tp
    · simp [goto, ht, hpc]
    · simp [goto, ht]
  constructor
  case queues =>
    obtain ⟨m, hm⟩ := h.queues
    use m
    apply hm.congr hqueued
  case owner => apply h.owner
  case count => apply h.count
  case fits => apply h.fits
  case free => apply h.free
  case user =>
    intro t ht
    have hne : t ≠ tp := by
      rintro rfl
      apply htp ht
    simpa [goto, hne] using h.user t ht
  case handed =>
    intro hzero hex
    simp only [hqueued] at hex
    obtain ⟨u, hu⟩ := h.handed hzero hex
    use u
    have hne : u ≠ tp := by
      rintro rfl
      simp [hpc] at hu
    simpa [goto, hne] using hu

/-- A turn of the loop of `mutex_lock`. -/
theorem loop (h : Inv s) (hpc : s.pc tp = .enter ∨ s.pc tp = .woken) {prio : T → Nat}
    (hs : s.loop tp prio = some s') :
  Inv s'
  := by
  have hnot : s.pc tp ≠ .queued := by
    rcases hpc with hpc | hpc <;> simp [hpc]
  have huser : s.pc tp ≠ .user := by
    rcases hpc with hpc | hpc <;> simp [hpc]
  rw [MutexSystem.loop] at hs
  split at hs
  · rename_i hzero
    obtain rfl := Option.some.inj hs
    have hnone := h.count_eq_zero.mp hzero
    apply h.acquire (.inl hnone) (by simp [hnone]) hnot
  · rename_i hcount
    obtain ⟨⟨qp, waits⟩, hqp, rfl⟩ := Option.map_eq_some_iff.mp hs
    obtain ⟨m, hm⟩ := h.queues
    obtain ⟨rfl, hm'⟩ := hm.rawEventWait hnot hqp
    constructor
    case queues =>
      use false
      apply hm'.congr
      intro t
      by_cases ht : t = tp
      · cases m <;> simp [goto, ht, hnot]
      · simp [goto, ht]
    case owner => apply h.owner
    case count => apply h.count
    case fits => apply h.fits
    case free => apply h.free
    case user =>
      intro t ht
      have hne : t ≠ tp := by
        rintro rfl
        apply huser (h.user t ht)
      simpa [goto, hne] using h.user t ht
    case handed =>
      intro hzero
      exact absurd hzero hcount

/-- The owner unlocks the mutex, and wakes the first thread on its queue when it frees it. -/
theorem unlock (h : Inv s) (howner : s.mutex.owner = some tp) {irqExec : Bool}
    (hprompt : s.mutex.count = 1 → s.mutex.qp.prompt irqExec = true)
    {mutex : Mutex T} {woken : Option T}
    (hs : s.mutex.mutexUnlock irqExec = some (mutex, woken)) :
  Inv ({ s with mutex, locks := Function.update s.locks tp (s.locks tp - 1) }.wake woken)
  := by
  have hcount := h.count tp howner
  have hlocks := (h.owner tp).mpr howner
  have hfits := h.fits
  have hother {t : T} (ht : t ≠ tp) : s.locks t = 0 := by
    by_contra hne
    have := (h.owner t).mp (Nat.pos_of_ne_zero hne)
    rw [howner] at this
    exact ht (Option.some.inj this).symm
  rw [Mutex.mutexUnlock] at hs
  dsimp only at hs
  split at hs
  · rename_i hzero
    obtain ⟨⟨qp, woken'⟩, hqp, hs⟩ := Option.map_eq_some_iff.mp hs
    obtain ⟨rfl, rfl⟩ := Prod.mk.inj hs
    have hone : s.mutex.count = 1 := by omega
    rw [ThreadQueue.eventNotify_eq (hprompt hone), ThreadQueue.noticed_sample] at hqp
    obtain ⟨m, hm⟩ := h.queues
    have hnone (t : T) : Function.update s.locks tp (s.locks tp - 1) t = 0 := by
      by_cases ht : t = tp
      · rw [ht, Function.update_self]
        omega
      · rw [Function.update_of_ne ht, hother ht]
    rcases hm.eventNotify hqp with ⟨rfl, hnot, hm'⟩ | ⟨t, rfl, ht, -, m', hm'⟩
    · constructor
      case queues => exact ⟨true, hm'⟩
      case owner => simp [MutexSystem.wake, hnone]
      case count => simp [MutexSystem.wake]
      case fits => simp [MutexSystem.wake, hzero]
      case free => simpa [MutexSystem.wake] using hzero
      case user => simp [MutexSystem.wake]
      case handed =>
        rintro - ⟨u, hu⟩
        exact absurd hu (hnot u)
    · constructor
      case queues =>
        use m'
        apply hm'.congr
        intro u
        by_cases hu : u = t
        · simp [MutexSystem.wake, goto, hu]
        · simp [MutexSystem.wake, goto, hu]
      case owner => simp [MutexSystem.wake, goto, hnone]
      case count => simp [MutexSystem.wake, goto]
      case fits => simp [MutexSystem.wake, goto, hzero]
      case free => simpa [MutexSystem.wake, goto] using hzero
      case user => simp [MutexSystem.wake, goto]
      case handed =>
        intro _ _
        use t
        simp [MutexSystem.wake, goto]
  · rename_i hzero
    obtain ⟨rfl, rfl⟩ := Prod.mk.inj (Option.some.inj hs)
    have hself : Function.update s.locks tp (s.locks tp - 1) tp = s.locks tp - 1 :=
      Function.update_self _ _ _
    constructor
    case queues => apply h.queues
    case owner =>
      intro t
      by_cases ht : t = tp
      · simp only [MutexSystem.wake, ht, hself, howner, iff_true]
        omega
      · simp [MutexSystem.wake, ht, hother ht, howner, Ne.symm ht]
    case count =>
      intro t ht
      obtain rfl : tp = t := Option.some.inj (howner.symm.trans ht)
      simp only [MutexSystem.wake, hself]
      omega
    case fits =>
      simp only [MutexSystem.wake]
      omega
    case free => simp [MutexSystem.wake, howner]
    case user => apply h.user
    case handed =>
      intro hz
      exact absurd hz hzero

/-- A thread that waits has no event, so that the scheduler takes none off the queue. -/
theorem pass_eq_none (h : Inv s) (tp : T) : s.step (.pass tp) = none := by
  obtain ⟨m, hm⟩ := h.queues
  apply if_neg
  rintro ⟨hpc, hec⟩
  apply hec (hm.quiet tp hpc)

/-- Every step that heeds the threads on the queue keeps the invariant. -/
theorem step (h : Inv s) {l : MutexLabel T} (hl : s.heeds l = true) (hs : s.step l = some s') :
  Inv s'
  := by
  cases l with
  | lock tp =>
      simp only [MutexSystem.step] at hs
      split at hs
      · rename_i hpc
        obtain rfl := Option.some.inj hs
        split
        · rename_i howner
          apply h.acquire (.inr howner) (of_decide_eq_true hl)
          simp [hpc]
        · rename_i howner
          apply h.enter hpc howner
      · cases hs
  | loop tp prio =>
      simp only [MutexSystem.step] at hs
      split at hs
      · rename_i hpc
        apply h.loop hpc hs
      · cases hs
  | unlock tp irqExec =>
      simp only [MutexSystem.step] at hs
      split at hs
      · rename_i hpc
        obtain ⟨⟨mutex, woken⟩, hmutex, rfl⟩ := Option.map_eq_some_iff.mp hs
        apply h.unlock hpc.2 (of_decide_eq_true hl) hmutex
      · cases hs
  | pass tp =>
      rw [h.pass_eq_none] at hs
      cases hs

theorem safe (h : Inv s) : Safe s := by
  constructor
  case exclusive =>
    intro t u ht hu
    rw [h.owner] at ht hu
    rw [ht] at hu
    apply Option.some.inj hu
  case owner => apply h.owner
  case count => apply h.count
  case fits => apply h.fits
  case queue =>
    obtain ⟨m, hm⟩ := h.queues
    exact ⟨m, hm.queues⟩
  case progress =>
    intro hzero t ht
    obtain ⟨u, hu⟩ := h.handed hzero ⟨t, ht⟩
    use u
    constructor
    · rintro rfl
      rw [ht] at hu
      cases hu
    · apply hu

end Inv

/-- In every state that the threads reach by steps that heed the threads on the queue, the mutex
keeps its promises. -/
theorem safe_of_heeds {s : MutexSystem T}
    (hrun : Run.Guarded step (fun s l => s.heeds l = true) init s) :
  Safe s
  := by
  apply Inv.safe
  apply hrun.invariant Inv Inv.init
  intro u l v hu hl hv
  apply hu.step hl hv

/-- A thread locks the mutex twice, and another one waits for it; `irqExec` is whether the first
one finds `CPU_IRQ_EXEC_FLAG` set when it has unlocked the mutex as often. -/
def contended (irqExec : Bool) : List (MutexLabel (Fin 2)) :=
  [.lock 0, .loop 0 fun _ => 0, .lock 0, .lock 1, .loop 1 fun _ => 0, .loop 1 fun _ => 0,
    .unlock 0 false, .unlock 0 irqExec]

/-- The theorem applied to a thread that waits for a mutex locked twice. -/
theorem safe_of_heeds_contended :
  ∃ s : MutexSystem (Fin 2), Run.exec step init (contended false) = some s ∧
    s.mutex.count = 0 ∧ s.pc 1 = .woken ∧ Safe s
  := by
  obtain ⟨s, hs, htest⟩ := Run.exists_of_any step (init : MutexSystem (Fin 2)) (contended false)
    (fun s => s.mutex.count = 0 ∧ s.pc 1 = .woken) (by decide)
  obtain ⟨hcount, hpc⟩ := of_decide_eq_true htest
  use s, hs, hcount, hpc
  apply safe_of_heeds (Run.guarded_of_exec (contended false) hs _)
  decide

/-- A thread that finds the flag set frees the mutex, and the one that waits stays on its
queue. -/
theorem not_safe_contended :
  ∃ s : MutexSystem (Fin 2), Run.exec step init (contended true) = some s ∧
    s.mutex.count = 0 ∧ s.pc 1 = .queued ∧ ¬ Safe s
  := by
  obtain ⟨s, hs, htest⟩ := Run.exists_of_any step (init : MutexSystem (Fin 2)) (contended true)
    (fun s => s.mutex.count = 0 ∧ s.pc 1 = .queued ∧ ∀ u, s.pc u ≠ .woken) (by decide)
  obtain ⟨hcount, hpc, hnone⟩ := of_decide_eq_true htest
  use s, hs, hcount, hpc
  intro h
  obtain ⟨u, -, hu⟩ := h.progress hcount 1 hpc
  apply hnone u hu

end MutexSystem

end Etaos
