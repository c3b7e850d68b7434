import Etaos.Crt.Time
import Etaos.Library.Insertion
import Etaos.Library.Run
import Etaos.Sched.Kernel
import Etaos.Sched.QueueSpec

/-!
# The earliest deadline first class

The scheduling class of `edf.c`.  A thread that is inserted into a queue gets a deadline, the
tick count of the clock source plus a ratio of its priority, and goes ahead of the first thread
that does not expire before it.

In every run of insertions and removals the queues are sorted by deadline, so that the next
runnable thread is one with the smallest deadline, and from the tick ten before the deadline of a
thread on no thread is inserted ahead of it.
-/

set_option linter.unusedSectionVars false

namespace Etaos

open Crt Insertion Run

/-- The fields of a thread that the class uses. -/
structure EdfThread where
  /-- The value of `prio(tp)`. -/
  prio : UInt8
  /-- The field `se.deadline`, a `time_t`. -/
  deadline : Int
  /-- The flag `THREAD_RUNNING_FLAG`. -/
  running : Bool
  /-- The flag `THREAD_IDLE_FLAG`. -/
  idle : Bool
  deriving DecidableEq

/-- The run queue of the class, with the thread queues `Q`, the threads and the tick count of
the clock source. -/
structure EdfRq (T Q : Type) where
  links : Links T (Root Q)
  /-- The field `num` of the run queue. -/
  num : Nat
  thr : T → EdfThread
  tick : Nat

namespace EdfRq

/-! ### The class functions -/

/-- The function `edf_calc_ratio`. -/
def edfCalcRatio (prio : UInt8) : Nat :=
  13 * prio.toNat / 24 + 10

/-- The function `edf_sort_before`. -/
def edfSortBefore (node this : Int) : Bool :=
  this ≤ node

variable {T Q : Type} [DecidableEq T] [DecidableEq Q] [Fintype T]

/-- The function `deadline`. -/
def deadline (rq : EdfRq T Q) (tp : T) : Int :=
  (rq.thr tp).deadline

/-- The offset of the idle thread. -/
def idleOffset (rq : EdfRq T Q) (tp : T) : Nat :=
  if (rq.thr tp).idle then 15778463000000 else 0

/-- The deadline of a thread that is inserted.  The sum is one of unsigned 64 bit integers, and
is stored as a `time_t`. -/
def newDeadline (rq : EdfRq T Q) (tp : T) : Int :=
  let deadline := toInt64 (toUInt64 (rq.tick + edfCalcRatio (rq.thr tp).prio))
  if (rq.thr tp).idle then
    toInt64 (deadline + 15778463000000)
  else
    deadline

/-- The function `raw_edf_insert`, on the queue with root `r`. -/
def rawEdfInsert (rq : EdfRq T Q) (r : Root Q) (tp : T) : Option (EdfRq T Q × Int) :=
  let rq := { rq with
    thr := Function.update rq.thr tp { rq.thr tp with deadline := rq.newDeadline tp } }
  (rq.links.queueInsert
    (fun thread => !edfSortBefore (rq.deadline thread) (rq.deadline tp)) r tp).map
    fun links => ({ rq with links }, -EOK)

/-- The function `edf_thread_queue_add`. -/
def edfThreadQueueAdd (rq : EdfRq T Q) (qp : Q) (tp : T) : Option (EdfRq T Q) :=
  (rq.rawEdfInsert (.queue qp) tp).map Prod.fst

/-- The function `edf_thread_queue_remove`. -/
def edfThreadQueueRemove (rq : EdfRq T Q) (qp : Q) (tp : T) : Option (EdfRq T Q) :=
  (rq.links.rrSharedQueueRemove (.queue qp) tp).map fun (links, _) => { rq with links }

/-- The function `edf_add_thread`. -/
def edfAddThread (rq : EdfRq T Q) (tp : T) : Option (EdfRq T Q) :=
  (rq.rawEdfInsert .runQueue tp).map fun (rq, rc) =>
    if rc = -EOK then { rq with num := rq.num + 1 } else rq

/-- The function `edf_rm_thread`. -/
def edfRmThread (rq : EdfRq T Q) (tp : T) : Option (EdfRq T Q × Int) :=
  (rq.links.rrSharedQueueRemove .runQueue tp).map fun (links, rc) =>
    if rc = -EOK then ({ rq with links, num := rq.num - 1 }, rc) else ({ rq with links }, rc)

/-- The function `edf_next_runnable`. -/
def edfNextRunnable (rq : EdfRq T Q) : Option (Option T) :=
  match rq.links.head .runQueue with
  | .signaled => none
  | .ptr runnable =>
      (Links.skip rq.links.next (fun tp => !(rq.thr tp).running) (Fintype.card T) none
        runnable).map Prod.snd

/-! ### Runs -/

/-- The operations of the class, the passing of time, and what other code changes in a thread:
its running flag and its priority. -/
inductive Op (T Q : Type) where
  | addThread (tp : T)
  | rmThread (tp : T)
  | nextRunnable
  | threadQueueAdd (qp : Q) (tp : T)
  | threadQueueRemove (qp : Q) (tp : T)
  | tick (n : Nat)
  | setRunning (tp : T) (running : Bool)
  | setPrio (tp : T) (prio : UInt8)

/-- The run queue with the record of a thread changed. -/
def modify (rq : EdfRq T Q) (tp : T) (f : EdfThread → EdfThread) : EdfRq T Q :=
  { rq with thr := Function.update rq.thr tp (f (rq.thr tp)) }

/-- The state after an operation. -/
def step (rq : EdfRq T Q) : Op T Q → Option (EdfRq T Q)
  | .addThread tp => rq.edfAddThread tp
  | .rmThread tp => (rq.edfRmThread tp).map Prod.fst
  | .nextRunnable => rq.edfNextRunnable.map fun _ => rq
  | .threadQueueAdd qp tp => rq.edfThreadQueueAdd qp tp
  | .threadQueueRemove qp tp => rq.edfThreadQueueRemove qp tp
  | .tick n => some { rq with tick := rq.tick + n }
  | .setRunning tp running => some (rq.modify tp fun th => { th with running })
  | .setPrio tp prio => some (rq.modify tp fun th => { th with prio })

/-- A thread can be inserted when it is on no queue, and the 64 bit integers hold its
deadline. -/
def Fresh (rq : EdfRq T Q) (tp : T) : Prop :=
  rq.links.queue tp = none ∧
    rq.tick + edfCalcRatio (rq.thr tp).prio + rq.idleOffset tp < 2 ^ 63

instance (rq : EdfRq T Q) (tp : T) : Decidable (rq.Fresh tp) :=
  inferInstanceAs (Decidable (_ ∧ _))

/-- The condition on an operation. -/
def Ok (rq : EdfRq T Q) : Op T Q → Prop
  | .addThread tp => rq.Fresh tp
  | .threadQueueAdd _ tp => rq.Fresh tp
  | _ => True

instance (rq : EdfRq T Q) : (op : Op T Q) → Decidable (Ok rq op)
  | .addThread tp => inferInstanceAs (Decidable (rq.Fresh tp))
  | .threadQueueAdd _ tp => inferInstanceAs (Decidable (rq.Fresh tp))
  | .rmThread _ => inferInstanceAs (Decidable True)
  | .nextRunnable => inferInstanceAs (Decidable True)
  | .threadQueueRemove _ _ => inferInstanceAs (Decidable True)
  | .tick _ => inferInstanceAs (Decidable True)
  | .setRunning _ _ => inferInstanceAs (Decidable True)
  | .setPrio _ _ => inferInstanceAs (Decidable True)

/-- The operation does not remove the thread from the run queue. -/
def Op.Keeps (x : T) : Op T Q → Prop
  | .rmThread tp => tp ≠ x
  | _ => True

/-- The state when the scheduler starts: the run queue is empty, and no thread is on a queue. -/
structure Initial (rq : EdfRq T Q) : Prop where
  runQueue : rq.links.head .runQueue = .ptr none
  queues : ∀ qp, rq.links.head (.queue qp) = .ptr none ∨ rq.links.head (.queue qp) = .signaled
  queue : ∀ tp, rq.links.queue tp = none
  num : rq.num = 0

/-- The threads on the run queue, in order. -/
def Threads (rq : EdfRq T Q) (l : List T) : Prop :=
  ∃ p, rq.links.head .runQueue = .ptr p ∧ Chain.IsChain rq.links.next p l

/-- What a call of `edf_next_runnable` returns: a runnable thread of the run queue that has the
smallest deadline of those, or `NULL` when there is none. -/
def Earliest (rq : EdfRq T Q) (l : List T) : Option T → Prop
  | none => ∀ t ∈ l, (rq.thr t).running = false
  | some n => n ∈ l ∧ (rq.thr n).running = true ∧
      ∀ t ∈ l, (rq.thr t).running = true → rq.deadline n ≤ rq.deadline t

/-! ### The invariant -/

variable {rq : EdfRq T Q} {L : Root Q → List T}

/-- The queues are the lists `L`, and these are sorted by deadline. -/
structure Inv (rq : EdfRq T Q) (L : Root Q → List T) : Prop where
  linked : Linked rq.links L
  head : rq.links.head .runQueue ≠ .signaled
  num : rq.num = (L .runQueue).length
  off : ∀ tp, (∀ r, tp ∉ L r) → rq.links.queue tp = none
  sorted : ∀ r, SortedBy rq.deadline (L r)

theorem Initial.inv (h : rq.Initial) : rq.Inv fun _ => [] := by
  have hlinked : Linked rq.links fun _ : Root Q => ([] : List T) := by
    constructor
    · intro _ _
      rfl
    · intro r p hp
      cases r with
      | runQueue =>
          rw [h.runQueue] at hp
          obtain rfl := Qhead.ptr.inj hp
          rfl
      | queue qp =>
          rcases h.queues qp with hq | hq
          · rw [hq] at hp
            obtain rfl := Qhead.ptr.inj hp
            rfl
          · rw [hq] at hp
            cases hp
    · intro _
      apply List.nodup_nil
    · intro _ t ht
      cases ht
  refine ⟨hlinked, ?_, h.num, fun tp _ => h.queue tp, fun _ => .nil⟩
  rw [h.runQueue]
  simp

/-- The run queue is the list of the invariant. -/
theorem Inv.threads (h : rq.Inv L) : rq.Threads (L .runQueue) := by
  cases hr : rq.links.head .runQueue with
  | signaled => exact absurd hr h.head
  | ptr p => exact ⟨p, hr, h.linked.chain _ p hr⟩

/-- `edf_next_runnable` finds the earliest of the runnable threads. -/
theorem Inv.edfNextRunnable (h : rq.Inv L) :
  ∃ next, rq.edfNextRunnable = some next ∧ rq.Earliest (L .runQueue) next
  := by
  cases hr : rq.links.head .runQueue with
  | signaled => exact absurd hr h.head
  | ptr p =>
      use (L .runQueue).find? fun t => (rq.thr t).running
      constructor
      · rw [EdfRq.edfNextRunnable]
        simp only [hr]
        rw [h.linked.skip_eq hr, List.find?_eq_head?_dropWhile_not]
        rfl
      · cases hfind : (L .runQueue).find? fun t => (rq.thr t).running with
        | none =>
            intro t ht
            simpa using List.find?_eq_none.mp hfind t ht
        | some n =>
            refine ⟨List.mem_of_find?_eq_some hfind,
              List.find?_some (p := fun t => (rq.thr t).running) hfind, ?_⟩
            intro t ht hrunning
            apply (h.sorted .runQueue).le_of_find? hfind t ht hrunning

/-! ### The operations -/

/-- While the integers hold the deadline it is the plain sum. -/
theorem newDeadline_eq {tp : T}
    (h : rq.tick + edfCalcRatio (rq.thr tp).prio + rq.idleOffset tp < 2 ^ 63) :
  rq.newDeadline tp = (rq.tick + edfCalcRatio (rq.thr tp).prio + rq.idleOffset tp : Nat)
  := by
  have hsum : toInt64 (toUInt64 ((rq.tick : Int) + edfCalcRatio (rq.thr tp).prio))
      = ((rq.tick + edfCalcRatio (rq.thr tp).prio : Nat) : Int) := by
    rw [toUInt64_eq (by omega) (by omega), toInt64_eq (by omega) (by omega)]
    simp
  rw [newDeadline, hsum]
  rw [idleOffset] at h ⊢
  split
  · rename_i hidle
    rw [if_pos hidle] at h
    rw [toInt64_eq (by omega) (by omega)]
    simp
  · simp

/-- A deadline lies at least ten ticks ahead. -/
theorem tick_lt_newDeadline {tp : T} (h : rq.Fresh tp) :
  (rq.tick : Int) + 10 ≤ rq.newDeadline tp
  := by
  rw [newDeadline_eq h.2, edfCalcRatio]
  omega

/-- What an insertion does to the queue with root `r`: the thread goes behind those that expire
before it, and gets its deadline. -/
structure Inserted (rq : EdfRq T Q) (L : Root Q → List T) (r : Root Q) (tp : T)
    (rq' : EdfRq T Q) (L' : Root Q → List T) : Prop where
  lists : L' = Function.update L r
    (insertBehind (fun x => decide (rq.deadline x < rq.newDeadline tp)) tp (L r))
  deadline : rq'.deadline = Function.update rq.deadline tp (rq.newDeadline tp)
  tick : rq'.tick = rq.tick

/-- The queues stay sorted when a thread that is on none of them is inserted. -/
theorem Inserted.sorted {r : Root Q} {tp : T} {rq' : EdfRq T Q} {L' : Root Q → List T}
    (h : rq.Inserted L r tp rq' L') (hsorted : ∀ r, SortedBy rq.deadline (L r))
    (htp : ∀ r, tp ∉ L r) (r' : Root Q) :
  SortedBy rq'.deadline (L' r')
  := by
  have hold {r : Root Q} (x : T) (hx : x ∈ L r) : rq'.deadline x = rq.deadline x := by
    rw [h.deadline]
    apply Function.update_of_ne
    rintro rfl
    apply htp r hx
  have hnew : rq'.deadline tp = rq.newDeadline tp := by
    rw [h.deadline]
    apply Function.update_self
  rw [h.lists]
  by_cases hr : r' = r
  · subst hr
    rw [Function.update_self]
    apply SortedBy.insertBehind ((hsorted r').congr hold)
    · intro x hx hkeep
      rw [hold x hx, hnew]
      apply (of_decide_eq_true hkeep).le
    · intro x hx hkeep
      rw [hold x hx, hnew]
      apply le_of_not_gt (of_decide_eq_false hkeep)
  · rw [Function.update_of_ne hr]
    apply (hsorted r').congr hold

/-- The insertion of a thread that is on no queue. -/
theorem Inv.rawEdfInsert (h : rq.Inv L) (r : Root Q) {tp : T} (htp : ∀ r, tp ∉ L r) :
  ∃ rq' L', rq.rawEdfInsert r tp = some (rq', -EOK) ∧ rq.Inserted L r tp rq' L' ∧
    Linked rq'.links L' ∧ rq'.links.head .runQueue ≠ .signaled ∧ rq'.num = rq.num ∧
    rq'.links.queue = Function.update rq.links.queue tp (some r)
  := by
  set rq₁ : EdfRq T Q := { rq with
    thr := Function.update rq.thr tp { rq.thr tp with deadline := rq.newDeadline tp } } with hrq₁
  have hdeadline : rq₁.deadline = Function.update rq.deadline tp (rq.newDeadline tp) := by
    funext x
    by_cases hx : x = tp
    · subst hx
      simp [hrq₁, EdfRq.deadline]
    · simp [hrq₁, hx, EdfRq.deadline]
  have hkeep (x : T) (hx : x ∈ L r) : (!edfSortBefore (rq₁.deadline x) (rq₁.deadline tp))
      = decide (rq.deadline x < rq.newDeadline tp) := by
    have hne : x ≠ tp := by
      rintro rfl
      apply htp r hx
    rw [hdeadline, Function.update_self, Function.update_of_ne hne, edfSortBefore,
      ← decide_not]
    apply decide_eq_decide.mpr not_le
  obtain ⟨links, hlinks, hlinked⟩ := h.linked.insert
    (fun x => !edfSortBefore (rq₁.deadline x) (rq₁.deadline tp)) r htp
  have hhead := Links.queueInsert_head hlinks
  refine ⟨{ rq₁ with links }, _, ?_, ⟨rfl, hdeadline, rfl⟩, ?_, ?_, rfl, ?_⟩
  · rw [EdfRq.rawEdfInsert]
    dsimp only
    rw [← hrq₁]
    have hlinks' : rq₁.links = rq.links := rfl
    rw [hlinks', hlinks]
    rfl
  · rw [← insertBehind_congr hkeep]
    apply hlinked
  · dsimp only
    by_cases hr : r = .runQueue
    · subst hr
      apply hhead.1
    · rw [hhead.2 _ (Ne.symm hr)]
      apply h.head
  · apply Links.queueInsert_queue hlinks

/-- The invariant after an insertion into the queue with root `r`. -/
theorem Inv.insert (h : rq.Inv L) (r : Root Q) {tp : T} (hfresh : rq.Fresh tp) :
  ∃ rq' L', rq.rawEdfInsert r tp = some (rq', -EOK) ∧ rq.Inserted L r tp rq' L' ∧
    rq'.num = rq.num ∧ ∀ num, num = (L' .runQueue).length → Inv { rq' with num } L'
  := by
  have htp := h.linked.notMem hfresh.1
  obtain ⟨rq', L', hrq', hins, hlinked, hhead, hnum, hqueue⟩ := h.rawEdfInsert r htp
  refine ⟨rq', L', hrq', hins, hnum, ?_⟩
  intro num hnum
  refine ⟨hlinked, hhead, hnum, ?_, hins.sorted h.sorted htp⟩
  intro x hx
  rw [hins.lists] at hx
  have hne : x ≠ tp := by
    rintro rfl
    have hxr := hx r
    rw [Function.update_self, mem_insertBehind] at hxr
    apply hxr (.inl rfl)
  dsimp only
  rw [hqueue, Function.update_of_ne hne]
  apply h.off x
  intro r' hmem
  have hxr := hx r'
  by_cases hr : r' = r
  · subst hr
    rw [Function.update_self, mem_insertBehind] at hxr
    apply hxr (.inr hmem)
  · rw [Function.update_of_ne hr] at hxr
    apply hxr hmem

/-- The invariant after a removal from the queue with root `r`. -/
theorem Inv.remove (h : rq.Inv L) (r : Root Q) (tp : T) :
  ∃ links, rq.links.rrSharedQueueRemove r tp
      = some (links, if tp ∈ L r then -EOK else -EINVAL) ∧
    ∀ num, num = (Function.update L r ((L r).erase tp) .runQueue).length →
      Inv { rq with links, num } (Function.update L r ((L r).erase tp))
  := by
  obtain ⟨links, hlinks, hlinked⟩ := h.linked.remove r tp
  refine ⟨links, hlinks, ?_⟩
  intro num hnum
  refine ⟨hlinked, ?_, hnum, ?_, ?_⟩
  · have hhead := Links.rrSharedQueueRemove_head hlinks
    by_cases hr : r = .runQueue
    · subst hr
      apply hhead.1 h.head
    · dsimp only
      rw [hhead.2 _ (Ne.symm hr)]
      apply h.head
  · intro x hx
    have hkept {r' : Root Q} (hxtp : x ≠ tp) : x ∉ L r' := by
      intro hmem
      apply hx r'
      by_cases hr : r' = r
      · subst hr
        rw [Function.update_self]
        apply (List.mem_erase_of_ne hxtp).mpr hmem
      · rwa [Function.update_of_ne hr]
    dsimp only
    rcases Links.rrSharedQueueRemove_queue hlinks with ⟨hrc, rfl⟩ | ⟨-, hqueue⟩
    · by_cases hxtp : x = tp
      · subst hxtp
        apply h.off x
        have hnot : x ∉ L r := by
          intro hmem
          rw [if_pos hmem] at hrc
          revert hrc
          decide
        intro r'
        have hxr := hx r'
        by_cases hr : r' = r
        · rwa [hr]
        · rwa [Function.update_of_ne hr] at hxr
      · apply h.off x
        intro r'
        apply hkept hxtp
    · rw [hqueue]
      by_cases hxtp : x = tp
      · rw [hxtp, Function.update_self]
      · rw [Function.update_of_ne hxtp]
        apply h.off x
        intro r'
        apply hkept hxtp
  · intro r'
    by_cases hr : r' = r
    · subst hr
      rw [Function.update_self]
      apply (h.sorted r').sublist List.erase_sublist
    · rw [Function.update_of_ne hr]
      apply h.sorted r'

/-- What an operation does, apart from the passing of time: a thread that was on no queue is
inserted, or the queues lose a thread at most. -/
def Change (rq : EdfRq T Q) (L : Root Q → List T) (op : Op T Q) (rq' : EdfRq T Q)
    (L' : Root Q → List T) : Prop :=
  (∃ r tp, (∀ r, tp ∉ L r) ∧ rq.Inserted L r tp rq' L') ∨
    (rq'.deadline = rq.deadline ∧ rq.tick ≤ rq'.tick ∧
      (L' .runQueue = L .runQueue ∨
        ∃ tp, op = .rmThread tp ∧ L' .runQueue = (L .runQueue).erase tp))

/-- Every operation that meets its condition succeeds and keeps the invariant. -/
theorem Inv.step (h : rq.Inv L) {op : Op T Q} (hok : rq.Ok op) :
  ∃ rq' L', rq.step op = some rq' ∧ rq'.Inv L' ∧ rq.Change L op rq' L'
  := by
  have hmodify (tp : T) (f : EdfThread → EdfThread) (hf : ∀ th, (f th).deadline = th.deadline) :
      (rq.modify tp f).Inv L ∧ rq.Change L op (rq.modify tp f) L := by
    have hdeadline : (rq.modify tp f).deadline = rq.deadline := by
      funext x
      by_cases hx : x = tp
      · subst hx
        simp [modify, deadline, hf]
      · simp [modify, deadline, hx]
    constructor
    · refine ⟨h.linked, h.head, h.num, h.off, ?_⟩
      rw [hdeadline]
      apply h.sorted
    · right
      exact ⟨hdeadline, le_refl _, .inl rfl⟩
  cases op with
  | addThread tp =>
      obtain ⟨rq', L', hrq', hins, hnum, hinv⟩ := h.insert .runQueue hok
      refine ⟨{ rq' with num := rq'.num + 1 }, L', ?_, hinv _ ?_, .inl ⟨.runQueue, tp, ?_, ?_⟩⟩
      · rw [EdfRq.step, edfAddThread, hrq']
        rfl
      · rw [hins.lists, Function.update_self, length_insertBehind, hnum, h.num]
      · apply h.linked.notMem hok.1
      · exact ⟨hins.lists, hins.deadline, hins.tick⟩
  | threadQueueAdd qp tp =>
      obtain ⟨rq', L', hrq', hins, hnum, hinv⟩ := h.insert (.queue qp) hok
      refine ⟨rq', L', ?_, hinv rq'.num ?_, .inl ⟨_, tp, ?_, hins⟩⟩
      · rw [EdfRq.step, edfThreadQueueAdd, hrq']
        rfl
      · rw [hins.lists, Function.update_of_ne (by simp), hnum, h.num]
      · apply h.linked.notMem hok.1
  | rmThread tp =>
      obtain ⟨links, hlinks, hinv⟩ := h.remove .runQueue tp
      by_cases htp : tp ∈ L .runQueue
      · rw [if_pos htp] at hlinks
        refine ⟨{ rq with links, num := rq.num - 1 }, _, ?_, hinv _ ?_, .inr ⟨rfl, le_refl _, ?_⟩⟩
        · rw [EdfRq.step, edfRmThread, hlinks]
          rfl
        · rw [Function.update_self, List.length_erase_of_mem htp, h.num]
        · exact .inr ⟨tp, rfl, Function.update_self _ _ _⟩
      · rw [if_neg htp] at hlinks
        refine ⟨{ rq with links }, _, ?_, hinv rq.num ?_, .inr ⟨rfl, le_refl _, ?_⟩⟩
        · rw [EdfRq.step, edfRmThread, hlinks]
          rfl
        · rw [Function.update_self, List.erase_of_not_mem htp, h.num]
        · exact .inr ⟨tp, rfl, Function.update_self _ _ _⟩
  | threadQueueRemove qp tp =>
      obtain ⟨links, hlinks, hinv⟩ := h.remove (.queue qp) tp
      refine ⟨{ rq with links }, _, ?_, hinv rq.num ?_, .inr ⟨rfl, le_refl _, .inl ?_⟩⟩
      · rw [EdfRq.step, edfThreadQueueRemove, hlinks]
        rfl
      · rw [Function.update_of_ne (by simp), h.num]
      · apply Function.update_of_ne (by simp)
  | nextRunnable =>
      obtain ⟨next, hnext, -⟩ := h.edfNextRunnable
      refine ⟨rq, L, ?_, h, .inr ⟨rfl, le_refl _, .inl rfl⟩⟩
      rw [EdfRq.step, hnext]
      rfl
  | tick n =>
      exact ⟨_, L, rfl, ⟨h.linked, h.head, h.num, h.off, h.sorted⟩,
        .inr ⟨rfl, Nat.le_add_right _ _, .inl rfl⟩⟩
  | setRunning tp running => exact ⟨_, L, rfl, hmodify tp _ fun _ => rfl⟩
  | setPrio tp prio => exact ⟨_, L, rfl, hmodify tp _ fun _ => rfl⟩

namespace Change

variable {op : Op T Q} {rq' : EdfRq T Q} {L' : Root Q → List T}

/-- The run queue keeps the threads that are not removed, in order. -/
theorem sublist (h : rq.Change L op rq' L') {l : List T} (hl : l.Sublist (L .runQueue))
    (hkeeps : ∀ x ∈ l, op.Keeps x) :
  l.Sublist (L' .runQueue)
  := by
  rcases h with ⟨r, tp, -, hins⟩ | ⟨-, -, hsame | ⟨tp, rfl, herase⟩⟩
  · rw [hins.lists]
    by_cases hr : Root.runQueue = r
    · subst hr
      rw [Function.update_self]
      apply hl.trans sublist_insertBehind
    · rwa [Function.update_of_ne hr]
  · rwa [hsame]
  · rw [herase]
    apply sublist_erase hl
    intro htp
    apply hkeeps tp htp rfl

/-- The deadline of a thread stays while it is on a queue. -/
theorem deadline_eq (h : rq.Change L op rq' L') {x : T} {r : Root Q} (hx : x ∈ L r) :
  rq'.deadline x = rq.deadline x
  := by
  rcases h with ⟨r', tp, htp, hins⟩ | ⟨hsame, -, -⟩
  · rw [hins.deadline]
    apply Function.update_of_ne
    rintro rfl
    apply htp r hx
  · rw [hsame]

theorem tick_le (h : rq.Change L op rq' L') : rq.tick ≤ rq'.tick := by
  rcases h with ⟨r, tp, -, hins⟩ | ⟨-, htick, -⟩
  · rw [hins.tick]
  · apply htick

end Change

/-! ### The order of the run queue -/

/-- An operation that meets its condition and removes none of the threads `l`. -/
def Staying (l : List T) (rq : EdfRq T Q) (op : Op T Q) : Prop :=
  rq.Ok op ∧ ∀ x ∈ l, op.Keeps x

theorem Inv.of_run {rq' : EdfRq T Q} (h : rq.Inv L) (hrun : Guarded EdfRq.step Ok rq rq') :
  ∃ L', rq'.Inv L'
  := by
  apply hrun.invariant (fun s => ∃ L', s.Inv L') ⟨L, h⟩
  rintro s op s' ⟨L', hs⟩ hok hstep
  obtain ⟨s'', L'', hstep', hinv, -⟩ := hs.step hok
  obtain rfl := Option.some.inj (hstep.symm.trans hstep')
  use L''

/-- Threads that stay on the run queue keep their order and their deadlines. -/
theorem Inv.staying {rq' : EdfRq T Q} (h : rq.Inv L) {l : List T}
    (hl : l.Sublist (L .runQueue)) (hrun : Guarded EdfRq.step (Staying l) rq rq') :
  ∃ L', rq'.Inv L' ∧ l.Sublist (L' .runQueue) ∧ (∀ x ∈ l, rq'.deadline x = rq.deadline x) ∧
    rq.tick ≤ rq'.tick
  := by
  apply hrun.invariant
    (fun s => ∃ L', s.Inv L' ∧ l.Sublist (L' .runQueue) ∧
      (∀ x ∈ l, s.deadline x = rq.deadline x) ∧ rq.tick ≤ s.tick)
    ⟨L, h, hl, fun _ _ => rfl, le_refl _⟩
  rintro s op s' ⟨L', hs, hsub, hdeadline, htick⟩ ⟨hok, hkeeps⟩ hstep
  obtain ⟨s'', L'', hstep', hinv, hchange⟩ := hs.step hok
  obtain rfl := Option.some.inj (hstep.symm.trans hstep')
  refine ⟨L'', hinv, hchange.sublist hsub hkeeps, ?_, htick.trans hchange.tick_le⟩
  intro x hx
  rw [hchange.deadline_eq (hsub.subset hx), hdeadline x hx]

/-- A thread that is inserted less than ten ticks before the deadline of a thread on the run
queue goes behind it. -/
theorem Inv.behind (h : rq.Inv L) {x tp : T} (hx : x ∈ L .runQueue)
    (htick : rq.deadline x - 10 < rq.tick) (htp : rq.Fresh tp) :
  ∃ rq' l, rq.edfAddThread tp = some rq' ∧ rq'.Threads l ∧ [x, tp].Sublist l
  := by
  obtain ⟨rq', L', hrq', hins, -, hinv⟩ := h.insert .runQueue htp
  have hinv' : Inv { rq' with num := (L' .runQueue).length } L' := hinv _ rfl
  refine ⟨{ rq' with num := rq'.num + 1 }, L' .runQueue, ?_, hinv'.threads, ?_⟩
  · rw [edfAddThread, hrq']
    rfl
  · have hlt : rq.deadline x < rq.newDeadline tp := by
      have hnew := tick_lt_newDeadline htp
      omega
    rw [hins.lists, Function.update_self]
    apply before_insertBehind
    apply (h.sorted .runQueue).mem_takeWhile hx
    intro y _ hy
    apply decide_eq_true (hy.trans_lt hlt)

/-- The run queue is the list `l`, which is sorted by deadline.  The next runnable thread is the
earliest of the runnable ones, threads that stay on the run queue keep their order, and from the
tick ten before the deadline of a thread on no thread is inserted ahead of it. -/
structure Ordered (rq : EdfRq T Q) (l : List T) : Prop where
  threads : rq.Threads l
  sorted : SortedBy rq.deadline l
  earliest : ∃ next, rq.edfNextRunnable = some next ∧ rq.Earliest l next
  order : ∀ l' rq', l'.Sublist l → Guarded EdfRq.step (Staying l') rq rq' →
    ∃ m, rq'.Threads m ∧ l'.Sublist m
  behind : ∀ x ∈ l, rq.deadline x - 10 < rq.tick →
    ∀ rq' tp, Guarded EdfRq.step (Staying [x]) rq rq' → rq'.Fresh tp →
      ∃ rq'' m, rq'.edfAddThread tp = some rq'' ∧ rq''.Threads m ∧ [x, tp].Sublist m

/-- The run queue is ordered in every state that a run reaches. -/
theorem ordered_of_run {rq₀ : EdfRq T Q} (hinit : rq₀.Initial)
    (hrun : Guarded EdfRq.step Ok rq₀ rq) :
  ∃ l, rq.Ordered l
  := by
  obtain ⟨L, h⟩ := hinit.inv.of_run hrun
  refine ⟨L .runQueue, h.threads, h.sorted _, h.edfNextRunnable, ?_, ?_⟩
  · intro l' rq' hl' hrun'
    obtain ⟨L', h', hsub, -⟩ := h.staying hl' hrun'
    exact ⟨L' .runQueue, h'.threads, hsub⟩
  · intro x hx htick rq' tp hrun' htp
    obtain ⟨L', h', hsub, hdeadline, hticks⟩ :=
      h.staying (List.singleton_sublist.mpr hx) hrun'
    apply h'.behind (hsub.subset List.mem_cons_self) _ htp
    rw [hdeadline x List.mem_cons_self]
    omega

/-- Three threads, the first of them idle, before the scheduler starts. -/
def start : EdfRq (Fin 3) Unit where
  links :=
    { head := fun _ => .ptr none, next := fun _ => none, queue := fun _ => none, ec := fun _ => 0 }
  num := 0
  thr t := { prio := if t = 1 then 120 else 0, deadline := 0, running := true, idle := t = 0 }
  tick := 0

/-- The thread `1`, which was inserted at tick zero, is behind the thread `2`, which was inserted
before the tick that is ten before its deadline, and before the idle thread. -/
theorem ordered_of_run_three :
  ∃ rq, exec EdfRq.step start [.addThread 0, .addThread 1, .tick 65, .addThread 2, .tick 1]
      = some rq ∧
    rq.deadline 1 = 75 ∧ rq.deadline 2 = 75 ∧ rq.tick = 66 ∧
    rq.edfNextRunnable = some (some 2) ∧ ∃ l, rq.Ordered l
  := by
  refine ⟨_, rfl, by decide, by decide, by decide, by decide, ?_⟩
  have hstart : start.Initial := ⟨rfl, fun _ => .inl rfl, fun _ => rfl, rfl⟩
  apply ordered_of_run hstart
  apply guarded_of_exec [.addThread 0, .addThread 1, .tick 65, .addThread 2, .tick 1] rfl
  decide

end EdfRq

end Etaos
