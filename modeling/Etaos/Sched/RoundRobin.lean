import Etaos.Library.Insertion
import Etaos.Library.Run
import Etaos.Sched.Switch

/-!
# The order of the round robin run queue

The run queue under the class of `rr.c` with dynamic priorities.  A thread goes behind the
threads with at most its priority value, and a switch of threads lowers the values of the
threads that stay on the run queue by one, but not below zero.

The reset of the priority of the next thread comes before the previous thread is put back, so
that the next thread, which is still the first on the run queue, can stop the walk of the
insertion.  In every run without such a switch, and without a thread behind the idle one, the
threads are sorted by their priority values.
-/

set_option linter.unusedSectionVars false

namespace Etaos

open Insertion

variable {T Q : Type} [DecidableEq T] [DecidableEq Q] [Fintype T]

namespace Kernel

/-- The threads on the run queue, in order. -/
def runQueue (k : Kernel T Q) : List T :=
  match k.links.head .runQueue with
  | .signaled => []
  | .ptr p => Links.toList k.links.next (Fintype.card T) p

/-- The function `raw_thread_init`. -/
def rawThreadInit (k : Kernel T Q) (tp : T) (prio : Nat) : Kernel T Q :=
  { k with links := k.links.clear tp }.modify tp fun _ =>
    { prio
      dprio := 0
      running := true
      waiting := false
      sleeping := false
      needResched := false
      preemptNeedResched := false
      idle := false
      onRq := false
      rq := false
      timer := .null
      preemptCnt := 0 }

/-- The function `nice`, up to the call of `yield`. -/
def nice (k : Kernel T Q) (prio : Nat) : Kernel T Q :=
  k.modify k.current fun th => { th with prio := if prio = 255 then 254 else prio }

/-- Whether `__schedule` switches to the thread `next`. -/
def switches (cfg : Config Q) (k : Kernel T Q) (next : T) : Bool :=
  (k.preemptCheck cfg k.current next).rescheduleDecide cfg k.current next

/-- The priority value that a switch leaves to a thread on the run queue. -/
def aged (k : Kernel T Q) (tp : T) : Nat :=
  if (k.thr tp).idle then k.prio tp else k.prio tp - 1

end Kernel

/-- The run queue, with the order in which its threads were inserted. -/
structure RrSystem (T Q : Type) where
  k : Kernel T Q
  /-- The number of the last insertion of a thread. -/
  stamp : T → Nat
  /-- The number of insertions. -/
  clock : Nat

namespace RrSystem

/-- What happens to the run queue.  A pass is the part of `__schedule` behind the expired timers
and the signalled threads, which insert threads. -/
inductive Op (T : Type) where
  | rawThreadInit (tp : T) (prio : Nat)
  | addThread (tp : T)
  | removeThread (tp : T)
  | nice (prio : Nat)
  /-- The flags of the current thread change. -/
  | setFlags (running needResched preemptNeedResched : Bool)
  | pass
  deriving DecidableEq

/-- A thread was inserted. -/
def inserted (s : RrSystem T Q) (tp : T) (k : Kernel T Q) : RrSystem T Q where
  k
  stamp := Function.update s.stamp tp s.clock
  clock := s.clock + 1

/-- The state after a switch, which inserts the previous thread when it is running. -/
def switched (s : RrSystem T Q) (k : Kernel T Q) : RrSystem T Q :=
  if (s.k.thr s.k.current).running then s.inserted s.k.current k else { s with k }

/-- The state after a pass that chooses the thread `next`. -/
def pass (cfg : Config Q) (s : RrSystem T Q) (next : T) : Option (RrSystem T Q) :=
  (s.k.reschedule cfg s.k.current next).map fun k =>
    if s.k.switches cfg next then s.switched k else { s with k }

/-- The state after an operation. -/
def step (cfg : Config Q) (s : RrSystem T Q) : Op T → Option (RrSystem T Q)
  | .rawThreadInit tp prio => some { s with k := s.k.rawThreadInit tp prio }
  | .addThread tp => (s.k.rawRqAddThread cfg tp).map (s.inserted tp)
  | .removeThread tp => (s.k.rawRqRemoveThreadNoresched tp).map fun (k, _) => { s with k }
  | .nice prio => some { s with k := s.k.nice prio }
  | .setFlags running needResched preemptNeedResched =>
      some { s with k := s.k.modify s.k.current fun th =>
        { th with running, needResched, preemptNeedResched } }
  | .pass => s.k.schedGetNextRunnable.bind (s.pass cfg)

/-- The walk of the insertion of the previous thread stops at `next`, though there is a thread
on the run queue that it should pass over. -/
def Misplaces (k : Kernel T Q) (next : T) : Prop :=
  (k.thr k.current).running ∧ 0 < (k.thr k.current).prio ∧
    (k.thr k.current).prio < (k.thr next).prio ∧
    ∃ t ∈ k.runQueue, t ≠ next ∧ k.aged t ≤ (k.thr k.current).prio

/-- There is a thread behind the idle one on the run queue without `next`. -/
def BehindIdle (k : Kernel T Q) (next : T) : Prop :=
  ¬ (k.runQueue.erase next).Pairwise fun t _ => (k.thr t).idle = false

instance (k : Kernel T Q) (next : T) : Decidable (Misplaces k next) :=
  inferInstanceAs (Decidable (_ ∧ _ ∧ _ ∧ ∃ t ∈ _, _ ∧ _))

instance (k : Kernel T Q) (next : T) : Decidable (BehindIdle k next) :=
  inferInstanceAs (Decidable (¬ _))

/-- The condition on an operation.  A thread that is inserted or set up is on no queue and not
current, and a switch neither misplaces the previous thread nor lowers the value of a thread
behind the idle one. -/
def Ok (cfg : Config Q) (s : RrSystem T Q) : Op T → Prop
  | .rawThreadInit tp _ => s.k.links.queue tp = none ∧ tp ≠ s.k.current
  | .addThread tp => s.k.links.queue tp = none ∧ tp ≠ s.k.current
  | .pass => ∀ next ∈ s.k.schedGetNextRunnable, s.k.switches cfg next →
      ¬ Misplaces s.k next ∧ ¬ BehindIdle s.k next
  | _ => True

instance (cfg : Config Q) (s : RrSystem T Q) : (op : Op T) → Decidable (Ok cfg s op)
  | .rawThreadInit _ _ => inferInstanceAs (Decidable (_ ∧ _))
  | .addThread _ => inferInstanceAs (Decidable (_ ∧ _))
  | .pass => inferInstanceAs (Decidable (∀ next ∈ s.k.schedGetNextRunnable, _))
  | .removeThread _ => inferInstanceAs (Decidable True)
  | .nice _ => inferInstanceAs (Decidable True)
  | .setFlags _ _ _ => inferInstanceAs (Decidable True)

/-- The thread `x` may come before the thread `y`: its priority value is smaller, or both have
the same one, and when that is not zero `x` was inserted first. -/
def Ahead (s : RrSystem T Q) (x y : T) : Prop :=
  s.k.prio x ≤ s.k.prio y ∧
    (s.k.prio x = s.k.prio y → 0 < s.k.prio x → s.stamp x < s.stamp y)

instance (s : RrSystem T Q) (x y : T) : Decidable (s.Ahead x y) :=
  inferInstanceAs (Decidable (_ ∧ (_ → _ → _)))

/-- A run queue without threads. -/
structure Start (s : RrSystem T Q) : Prop where
  listed : ∃ L, Listed s.k L ∧ L .runQueue = [] ∧ ∀ r, s.k.current ∉ L r

/-- The round robin class, on a build without preemption. -/
def rrConfig : Config Unit where
  preempt := false
  dynPrio := true
  rqClass := .rr
  queueClass _ := .rr
  freq := 1000

/-- Threads with the given priorities, which ask for a reschedule when they are current. -/
def boot {n : Nat} (prio : Fin (n + 1) → Nat) (idle : Fin (n + 1) → Bool) :
    RrSystem (Fin (n + 1)) Unit where
  k :=
    { links :=
        { head := fun _ => .ptr none, next := fun _ => none, queue := fun _ => none,
          ec := fun _ => 0 }
      num := 0
      thr := fun t =>
        { prio := prio t, dprio := 0, running := true, waiting := false, sleeping := false,
          needResched := true, preemptNeedResched := false, idle := idle t, onRq := false,
          rq := false, timer := .null, preemptCnt := 0 }
      current := 0
      wake := []
      timers := []
      tick := 0
      nextTimer := 0
      wakes := fun _ => 0
      irqCalls := fun _ => 0
      irqWoken := fun _ => []
      irqStart := fun _ => (0, 0) }
  stamp _ := 0
  clock := 0

end RrSystem

/-! ### The kernel functions -/

namespace Listed

variable {k : Kernel T Q} {L : Root Q → List T} {cfg : Config Q}

/-- The threads on the run queue are found from its head. -/
theorem runQueue_eq (h : Listed k L) : k.runQueue = L .runQueue := by
  rw [Kernel.runQueue]
  cases hr : k.links.head .runQueue with
  | signaled => exact absurd hr h.head
  | ptr p =>
      apply Links.toList_eq (h.linked.chain _ p hr)
      apply (h.linked.nodup _).length_le_card

/-- There is a next runnable thread. -/
theorem exists_schedGetNextRunnable (h : Listed k L) :
  k.nextRunnable = some ((L .runQueue).find? fun t => (k.thr t).running)
  := by
  rw [Kernel.nextRunnable]
  cases hr : k.links.head .runQueue with
  | signaled => exact absurd hr h.head
  | ptr p =>
      dsimp only
      rw [h.linked.skip_eq hr, List.find?_eq_head?_dropWhile_not]
      rfl

/-- The round robin class puts a thread behind those with at most its priority value. -/
theorem rrAddThread (h : Listed k L) (hclass : cfg.rqClass = .rr) {tp : T}
    (htp : ∀ r, tp ∉ L r) :
  ∃ k', k.addThread cfg tp = some k' ∧
    Listed k' (Function.update L .runQueue
      (insertBehind (fun t => decide (k.prio t ≤ k.prio tp)) tp (L .runQueue))) ∧
    ∃ num links, k' = { k with num, links }
  := by
  obtain ⟨links, hlinks, hlinked⟩ :=
    h.linked.insert (fun t => decide (k.prio t ≤ k.prio tp)) .runQueue htp
  refine ⟨{ k with num := k.num + 1, links }, ?_, ⟨hlinked, ?_, ?_⟩, _, _, rfl⟩
  · rw [Kernel.addThread, hclass, Links.classInsert, Links.rrSharedQueueInsert, hlinks]
    rfl
  · rw [Function.update_self, length_insertBehind, h.num]
  · apply (Links.queueInsert_head hlinks).1

/-- A removal from the run queue succeeds or fails, and goes through. -/
theorem exists_rmThread (h : Listed k L) (tp : T) :
  ∃ k' rc, k.rmThread tp = some (k', rc) ∧ Listed k' (RemovedFrom .runQueue L tp) ∧
    ∃ num links, k' = { k with num, links }
  := by
  obtain ⟨links, hlinks, -⟩ := h.linked.remove .runQueue tp
  have hrm : ∃ p, k.rmThread tp = some p := by
    rw [Kernel.rmThread, hlinks]
    exact ⟨_, rfl⟩
  obtain ⟨⟨k', rc⟩, hk'⟩ := hrm
  exact ⟨k', rc, hk', h.rmThread hk'⟩

end Listed

namespace Kernel

variable {k : Kernel T Q} {cfg : Config Q}

/-- The dynamic priorities after `dyn_prio_update` on the threads of the list `l`. -/
def updatedDprio (k : Kernel T Q) (l : List T) (t : T) : Nat :=
  if t ∈ l ∧ (k.thr t).idle = false then
    min ((k.thr t).dprio + 1) (k.thr t).prio
  else
    (k.thr t).dprio

/-- The walk of `dyn_prio_update` over a list. -/
theorem dynPrioUpdate_eq :
    ∀ {l : List T} {n : Nat} {p : Option T} {k : Kernel T Q},
      Chain.IsChain k.links.next p l → l.Nodup → l.length ≤ n →
      k.dynPrioUpdate 1 n p
        = some { k with thr := fun t => { k.thr t with dprio := k.updatedDprio l t } }
  | [], n, p, k, hchain, _, _ => by
      obtain rfl : p = none := hchain
      cases n <;> simp [dynPrioUpdate, updatedDprio]
  | t :: l, n + 1, p, k, hchain, hnodup, hlen => by
      obtain ⟨rfl, hchain⟩ := hchain
      rw [List.nodup_cons] at hnodup
      have hrest (k₁ : Kernel T Q) (hlinks : k₁.links = k.links) :
          k₁.dynPrioUpdate 1 n (k₁.links.next t) = some { k₁ with
            thr := fun u => { k₁.thr u with dprio := k₁.updatedDprio l u } } := by
        apply dynPrioUpdate_eq _ hnodup.2 (Nat.le_of_succ_le_succ hlen)
        rw [hlinks]
        apply hchain
      rw [dynPrioUpdate]
      dsimp only
      split
      · rename_i hidle
        rw [hrest k rfl]
        congr 2
        funext u
        by_cases hu : u = t
        · simp [hu, updatedDprio, hidle]
        · simp [hu, updatedDprio]
      · rename_i hidle
        rw [Bool.not_eq_true] at hidle
        refine (hrest (k.modify t fun th =>
          { th with dprio := min (th.dprio + 1) th.prio }) rfl).trans ?_
        congr 2
        funext u
        by_cases hu : u = t
        · subst hu
          simp [updatedDprio, hidle, hnodup.1]
        · simp [hu, updatedDprio]

/-- The priority value of a thread after the update. -/
theorem sub_updatedDprio (k : Kernel T Q) (l : List T) (t : T) :
  (k.thr t).prio - k.updatedDprio l t = if t ∈ l then k.aged t else k.prio t
  := by
  rw [updatedDprio, aged, prio]
  by_cases ht : t ∈ l
  · by_cases hidle : (k.thr t).idle = true
    · simp [ht, hidle]
    · rw [Bool.not_eq_true] at hidle
      simp only [ht, hidle, and_self, if_true, Bool.false_eq_true, if_false]
      omega
  · simp [ht]

end Kernel

namespace Listed

variable {k : Kernel T Q} {L : Root Q → List T} {cfg : Config Q}

/-- The function `__schedule_prepare` lowers the priority values of the threads on the run queue,
and then sets those of the previous and the next thread anew. -/
theorem exists_schedulePrepare (h : Listed k L) (hdyn : cfg.dynPrio = true) (prev next : T) :
  ∃ dprio : T → Nat, k.schedulePrepare cfg prev next
      = some { k with thr := fun t => { k.thr t with dprio := dprio t } } ∧
    dprio prev = 0 ∧ dprio next = 0 ∧
    ∀ t ∈ L .runQueue, t ≠ prev → t ≠ next → (k.thr t).prio - dprio t = k.aged t
  := by
  use Function.update (Function.update (k.updatedDprio (L .runQueue)) prev 0) next 0
  refine ⟨?_, ?_, Function.update_self _ _ _, ?_⟩
  · rw [Kernel.schedulePrepare, Kernel.updateDynPrio, if_pos hdyn]
    cases hr : k.links.head .runQueue with
    | signaled => exact absurd hr h.head
    | ptr p =>
        dsimp only
        have hlen := (h.linked.nodup .runQueue).length_le_card
        rw [Kernel.dynPrioUpdate_eq (h.linked.chain _ p hr) (h.linked.nodup _) hlen,
          Option.map_some, Kernel.dynPrioReset, Kernel.dynPrioReset, if_pos hdyn, if_pos hdyn]
        simp only [Kernel.modify]
        congr 2
        funext t
        by_cases hnext : t = next
        · subst hnext
          by_cases hprev : t = prev
          · subst hprev
            simp
          · simp [hprev]
        · by_cases hprev : t = prev
          · subst hprev
            simp [hnext]
          · simp [hnext, hprev]
  · by_cases hne : prev = next
    · rw [hne, Function.update_self]
    · rw [Function.update_of_ne hne, Function.update_self]
  · intro t ht hprev hnext
    rw [Function.update_of_ne hnext, Function.update_of_ne hprev, Kernel.sub_updatedDprio,
      if_pos ht]

/-- The previous thread, when it is running, is put back behind the threads with at most its
priority value. -/
theorem rrPutPrev (h : Listed k L) (hclass : cfg.rqClass = .rr) {prev : T}
    (hout : ∀ r, prev ∉ L r) :
  ∃ k' L', k.putPrev cfg prev = some k' ∧ Listed k' L' ∧ k'.current = k.current ∧
    (∀ qp, L' (.queue qp) = L (.queue qp)) ∧
    (L' .runQueue = if (k.thr prev).running then
        insertBehind (fun t => decide (k.prio t ≤ k.prio prev)) prev (L .runQueue)
      else
        L .runQueue) ∧
    k'.prio = k.prio ∧ ∀ t, (k'.thr t).running = (k.thr t).running
  := by
  have hmark (b : Bool) : (k.modify prev fun th => { th with rq := b, onRq := b }).prio = k.prio ∧
      ∀ t, ((k.modify prev fun th => { th with rq := b, onRq := b }).thr t).running
        = (k.thr t).running := by
    constructor
    · funext t
      by_cases ht : t = prev
      · rw [ht]
        simp [Kernel.prio]
      · simp [Kernel.prio, ht]
    · intro t
      by_cases ht : t = prev
      · rw [ht]
        simp
      · simp [ht]
  rw [Kernel.putPrev]
  by_cases hrunning : (k.thr prev).running = true
  · rw [if_pos hrunning, if_pos hrunning]
    obtain ⟨hprio, hrun⟩ := hmark true
    have hlisted : Listed (k.modify prev fun th => { th with rq := true, onRq := true }) L :=
      h.congr rfl rfl
    obtain ⟨k', hk', hlisted', num, links, rfl⟩ := hlisted.rrAddThread hclass hout
    refine ⟨_, _, hk', hlisted', rfl, ?_, ?_, hprio, hrun⟩
    · intro qp
      apply Function.update_of_ne (by simp)
    · rw [Function.update_self, hprio]
  · rw [if_neg hrunning, if_neg hrunning]
    obtain ⟨hprio, hrun⟩ := hmark false
    exact ⟨_, L, rfl, h.congr rfl rfl, rfl, fun _ => rfl, rfl, hprio, hrun⟩

/-- A switch from the current thread to `next`: the threads that stay on the run queue age, and
the previous thread, when it is running, goes behind those with at most its priority value, where
`next` still is one of them. -/
structure Rescheduled (k : Kernel T Q) (L : Root Q → List T) (next : T) (k' : Kernel T Q)
    (L' : Root Q → List T) : Prop where
  listed : Listed k' L'
  current : k'.current = next
  queue : ∀ qp, L' (.queue qp) = L (.queue qp)
  runQueue : L' .runQueue = (if (k.thr k.current).running then
      insertBehind (fun t => decide (k'.prio t ≤ k'.prio k.current)) k.current (L .runQueue)
    else
      L .runQueue).erase next
  prev_prio : k'.prio k.current = (k.thr k.current).prio
  next_prio : k'.prio next = (k.thr next).prio
  prio : ∀ t ∈ L .runQueue, t ≠ k.current → t ≠ next → k'.prio t = k.aged t
  running : ∀ t, (k'.thr t).running = (k.thr t).running

theorem exists_reschedule (h : Listed k L) (hclass : cfg.rqClass = .rr)
    (hdyn : cfg.dynPrio = true) (hout : ∀ r, k.current ∉ L r) {next : T}
    (hswitch : k.switches cfg next = true) :
  ∃ k' L', k.reschedule cfg k.current next = some k' ∧ Rescheduled k L next k' L'
  := by
  obtain ⟨needResched, preemptNeedResched, hclear⟩ :=
    Kernel.clearResched_frame cfg k k.current next
  set k₁ : Kernel T Q := { k.modify k.current fun th =>
    { th with needResched, preemptNeedResched } with current := next } with hk₁
  have hlisted₁ : Listed k₁ L := h.congr rfl rfl
  obtain ⟨dprio, hprepare, hprev, hnext, hage⟩ :=
    hlisted₁.exists_schedulePrepare hdyn k.current next
  set k₂ : Kernel T Q := { k₁ with thr := fun t => { k₁.thr t with dprio := dprio t } } with hk₂
  have hlisted₂ : Listed k₂ L := hlisted₁.congr rfl rfl
  have hthr₁ (t : T) : (k₁.thr t).prio = (k.thr t).prio ∧ (k₁.thr t).running = (k.thr t).running ∧
      (k₁.thr t).idle = (k.thr t).idle ∧ (k₁.thr t).dprio = (k.thr t).dprio := by
    by_cases ht : t = k.current
    · rw [ht]
      simp [hk₁]
    · simp [hk₁, ht]
  have hprio₂ (t : T) : k₂.prio t = (k.thr t).prio - dprio t := by
    rw [Kernel.prio, ← (hthr₁ t).1]
  have haged (t : T) : k₁.aged t = k.aged t := by
    rw [Kernel.aged, Kernel.aged, Kernel.prio, Kernel.prio, (hthr₁ t).1, (hthr₁ t).2.2.1,
      (hthr₁ t).2.2.2]
  have hrunning₂ (t : T) : (k₂.thr t).running = (k.thr t).running := (hthr₁ t).2.1
  obtain ⟨k₃, L₃, hk₃, hlisted₃, hcurrent₃, hqueue₃, hrunQueue₃, hprio₃, hrunning₃⟩ :=
    hlisted₂.rrPutPrev hclass hout
  obtain ⟨k', rc, hk', hlisted', num, links, rfl⟩ := hlisted₃.exists_rmThread next
  refine ⟨_, _, ?_, hlisted', hcurrent₃, ?_, ?_, ?_, ?_, ?_, ?_⟩
  · rw [Kernel.switches] at hswitch
    rw [Kernel.reschedule, hclear, if_pos hswitch, ← hk₁, hprepare, Option.bind_some,
      Kernel.rqSwitchContext, hk₃, Option.bind_some, hk']
    rfl
  · intro qp
    rw [RemovedFrom.of_ne (by simp), hqueue₃]
  · have hrunQueue : L₃ .runQueue = if (k.thr k.current).running then
        insertBehind (fun t => decide (k₃.prio t ≤ k₃.prio k.current)) k.current (L .runQueue)
      else
        L .runQueue := by
      rw [hrunQueue₃, hrunning₂, hprio₃]
    rw [RemovedFrom.self, hrunQueue]
    rfl
  · change k₃.prio k.current = _
    rw [hprio₃, hprio₂, hprev, Nat.sub_zero]
  · change k₃.prio next = _
    rw [hprio₃, hprio₂, hnext, Nat.sub_zero]
  · intro t ht hprev hnext
    change k₃.prio t = _
    rw [hprio₃, hprio₂, ← (hthr₁ t).1, hage t ht hprev hnext, haged]
  · intro t
    exact (hrunning₃ t).trans (hrunning₂ t)

end Listed

namespace RrSystem

variable {s s' : RrSystem T Q} {L : Root Q → List T} {cfg : Config Q} {l : List T} {tp : T}

/-! ### The order -/

/-- A thread that was inserted last goes in order behind those with at most its priority value. -/
theorem pairwise_insertBehind (h : l.Pairwise s.Ahead) (hstamp : ∀ t ∈ l, s.stamp t < s.stamp tp) :
  (insertBehind (fun t => decide (s.k.prio t ≤ s.k.prio tp)) tp l).Pairwise s.Ahead
  := by
  have hsorted : SortedBy s.k.prio l := h.imp fun hxy => hxy.1
  apply pairwise_middle
  · rwa [List.takeWhile_append_dropWhile]
  · intro x hx
    have hkeep := List.mem_takeWhile_imp hx
    exact ⟨of_decide_eq_true hkeep, fun _ _ => hstamp x ((List.takeWhile_prefix _).subset hx)⟩
  · intro y hy
    have hlt : s.k.prio tp + 1 ≤ s.k.prio y := by
      apply hsorted.le_of_mem_dropWhile _ y hy
      intro x _ hx
      have := of_decide_eq_false hx
      omega
    exact ⟨by omega, fun heq => by omega⟩

/-- Threads that age stay in order, when none of them is behind the idle thread. -/
theorem pairwise_aged (h : l.Pairwise s.Ahead)
    (hidle : l.Pairwise fun t _ => (s.k.thr t).idle = false)
    (hprio : ∀ t ∈ l, s'.k.prio t = s.k.aged t) (hstamp : ∀ t ∈ l, s'.stamp t = s.stamp t) :
  l.Pairwise s'.Ahead
  := by
  apply (List.pairwise_and_iff.mpr ⟨h, hidle⟩).imp_of_mem
  rintro x y hx hy ⟨⟨hle, htie⟩, hx'⟩
  have hage : s'.k.prio x = s.k.prio x - 1 := by
    rw [hprio x hx, Kernel.aged, hx', if_neg (by simp)]
  have hagey : s.k.prio y - 1 ≤ s'.k.prio y ∧ s'.k.prio y ≤ s.k.prio y := by
    rw [hprio y hy, Kernel.aged]
    split
    · omega
    · omega
  refine ⟨by omega, ?_⟩
  intro heq hpos
  rw [hstamp x hx, hstamp y hy]
  apply htie
  · omega
  · omega

/-- The run queue is the list `L .runQueue`, its threads are running, and they are in order. -/
structure Inv (s : RrSystem T Q) (L : Root Q → List T) : Prop where
  listed : Listed s.k L
  current : ∀ r, s.k.current ∉ L r
  running : ∀ t ∈ L .runQueue, (s.k.thr t).running = true
  stamp : ∀ t ∈ L .runQueue, s.stamp t < s.clock
  ordered : (L .runQueue).Pairwise s.Ahead

theorem Start.inv (h : s.Start) : ∃ L, s.Inv L := by
  obtain ⟨L, hlisted, hnil, hcurrent⟩ := h.listed
  refine ⟨L, hlisted, hcurrent, ?_, ?_, ?_⟩
  · simp [hnil]
  · simp [hnil]
  · simp [hnil]

namespace Inv

/-- What changes neither the lists nor the priorities of the threads on the run queue. -/
theorem congr (h : s.Inv L) (hlisted : Listed s'.k L) (hcurrent : s'.k.current = s.k.current)
    (hstamp : s'.stamp = s.stamp) (hclock : s'.clock = s.clock)
    (hthr : ∀ t ∈ L .runQueue, s'.k.thr t = s.k.thr t) :
  s'.Inv L
  := by
  refine ⟨hlisted, ?_, ?_, ?_, ?_⟩
  · rw [hcurrent]
    apply h.current
  · intro t ht
    rw [hthr t ht]
    apply h.running t ht
  · rw [hstamp, hclock]
    apply h.stamp
  · apply h.ordered.imp_of_mem
    intro x y hx hy hxy
    rwa [Ahead, Kernel.prio, Kernel.prio, hthr x hx, hthr y hy, hstamp]

/-- The record of a thread that is not on the run queue changes. -/
theorem modify (h : s.Inv L) (htp : tp ∉ L .runQueue) (f : Thread → Thread) :
  Inv { s with k := s.k.modify tp f } L
  := by
  have hlisted : Listed ({ s with k := s.k.modify tp f } : RrSystem T Q).k L :=
    h.listed.congr rfl rfl
  apply h.congr hlisted rfl rfl rfl
  intro t ht
  apply Kernel.modify_thr_of_ne
  rintro rfl
  apply htp ht

/-- A thread that is on no queue and not current is inserted. -/
theorem addThread (h : s.Inv L) (hclass : cfg.rqClass = .rr) (htp : ∀ r, tp ∉ L r)
    (hne : tp ≠ s.k.current) :
  ∃ s' L', s.step cfg (.addThread tp) = some s' ∧ s'.Inv L'
  := by
  obtain ⟨k, hk, hlisted, num, links, rfl⟩ := h.listed.rrAddThread hclass htp
  set k' := (Kernel.modify { s.k with num, links } tp fun th =>
    { th with running := true, onRq := true, rq := true }) with hk'
  have hprio : (s.inserted tp k').k.prio = s.k.prio := by
    funext t
    change k'.prio t = s.k.prio t
    by_cases ht : t = tp
    · rw [ht]
      simp [hk', Kernel.prio]
    · simp [hk', Kernel.prio, ht]
  have hstamp (t : T) (ht : t ∈ L .runQueue) : (s.inserted tp k').stamp t = s.stamp t := by
    apply Function.update_of_ne
    rintro rfl
    apply htp .runQueue ht
  have hlast : (s.inserted tp k').stamp tp = s.clock := Function.update_self _ _ _
  refine ⟨s.inserted tp k', _, ?_, hlisted.congr rfl rfl, ?_, ?_, ?_, ?_⟩
  · rw [RrSystem.step, Kernel.rawRqAddThread, hk]
    rfl
  · intro r
    change s.k.current ∉ _
    by_cases hr : r = .runQueue
    · rw [hr, Function.update_self, mem_insertBehind, not_or]
      exact ⟨hne.symm, h.current _⟩
    · rw [Function.update_of_ne hr]
      apply h.current
  · intro t ht
    rw [Function.update_self, mem_insertBehind] at ht
    change (k'.thr t).running = true
    by_cases htt : t = tp
    · rw [htt, hk']
      simp
    · rw [hk', Kernel.modify_thr_of_ne _ _ _ htt]
      apply h.running t (ht.resolve_left htt)
  · intro t ht
    rw [Function.update_self, mem_insertBehind] at ht
    change _ < s.clock + 1
    rcases ht with rfl | ht
    · rw [hlast]
      omega
    · rw [hstamp t ht]
      have := h.stamp t ht
      omega
  · rw [Function.update_self, ← hprio]
    apply pairwise_insertBehind
    · apply h.ordered.imp_of_mem
      intro x y hx hy hxy
      rw [Ahead, hstamp x hx, hstamp y hy, hprio]
      apply hxy
    · intro t ht
      rw [hstamp t ht, hlast]
      apply h.stamp t ht

/-- A thread is removed, or the current one is asked to stop. -/
theorem removeThread (h : s.Inv L) (tp : T) :
  ∃ s' L', s.step cfg (.removeThread tp) = some s' ∧ s'.Inv L'
  := by
  rw [RrSystem.step, Kernel.rawRqRemoveThreadNoresched]
  split
  · exact ⟨_, L, rfl, h⟩
  · split
    · rename_i hcurrent
      refine ⟨_, L, rfl, h.modify ?_ _⟩
      rw [← hcurrent]
      apply h.current
    · rename_i hne
      have hlisted : Listed (s.k.modify tp fun th => { th with running := false }) L :=
        h.listed.congr rfl rfl
      obtain ⟨k', rc, hk', hlisted', num, links, rfl⟩ := hlisted.exists_rmThread tp
      rw [hk']
      have hsub : ((L .runQueue).erase tp).Sublist (L .runQueue) := List.erase_sublist
      have hother (t : T) (ht : t ∈ (L .runQueue).erase tp) : t ≠ tp := by
        rintro rfl
        exact (h.listed.linked.nodup _).not_mem_erase ht
      refine ⟨_, RemovedFrom .runQueue L tp, rfl, hlisted'.congr rfl rfl, ?_, ?_, ?_, ?_⟩
      · intro r hmem
        apply h.current r (RemovedFrom.mem hmem)
      · intro t ht
        rw [RemovedFrom.self] at ht
        have htt := hother t ht
        simp only [Kernel.modify_thr_of_ne _ _ _ htt]
        apply h.running t (hsub.subset ht)
      · intro t ht
        rw [RemovedFrom.self] at ht
        apply h.stamp t (hsub.subset ht)
      · rw [RemovedFrom.self]
        apply (h.ordered.sublist hsub).imp_of_mem
        intro x y hx hy hxy
        simp only [Ahead, Kernel.prio, Kernel.modify_thr_of_ne _ _ _ (hother x hx),
          Kernel.modify_thr_of_ne _ _ _ (hother y hy)]
        apply hxy

/-- The next thread is the first one on the run queue, or the current one when there is none. -/
theorem schedGetNextRunnable (h : s.Inv L) :
  s.k.schedGetNextRunnable = some ((L .runQueue).head?.getD s.k.current)
  := by
  rw [Kernel.schedGetNextRunnable, h.listed.exists_schedGetNextRunnable]
  have hrunning := h.running
  cases hl : L .runQueue with
  | nil => rfl
  | cons t l =>
      rw [hl] at hrunning
      have ht : (s.k.thr t).running = true := hrunning t List.mem_cons_self
      simp [ht]

theorem switched_k (s : RrSystem T Q) (k : Kernel T Q) : (s.switched k).k = k := by
  rw [switched]
  split <;> rfl

/-- When the first thread on the run queue is next, the others stay and age, and the previous
thread goes in order among them. -/
theorem switched_cons (h : s.Inv L) {next : T} {l : List T} (hl : L .runQueue = next :: l)
    {k' : Kernel T Q} {L' : Root Q → List T} (hres : Listed.Rescheduled s.k L next k' L')
    (hplaced : ¬ Misplaces s.k next) (hbehind : ¬ BehindIdle s.k next) :
  (L' .runQueue).Pairwise (s.switched k').Ahead ∧
    ∀ t ∈ L' .runQueue, t ∈ l ∨ t = s.k.current ∧ (s.k.thr s.k.current).running = true
  := by
  have hnodup := h.listed.linked.nodup .runQueue
  have hprev := h.current .runQueue
  have hordered := h.ordered
  have hstamp := h.stamp
  have hprio := hres.prio
  rw [hl] at hnodup hprev hordered hstamp hprio
  rw [List.nodup_cons] at hnodup
  rw [List.mem_cons, not_or] at hprev
  have herase : s.k.runQueue.erase next = l := by
    rw [h.listed.runQueue_eq, hl, List.erase_cons_head]
  have hidle : l.Pairwise fun t _ => (s.k.thr t).idle = false := by
    rw [BehindIdle, not_not, herase] at hbehind
    apply hbehind
  have hage (t : T) (ht : t ∈ l) : (s.switched k').k.prio t = s.k.aged t := by
    rw [switched_k]
    apply hprio t (List.mem_cons_of_mem _ ht)
    · rintro rfl
      exact hprev.2 ht
    · rintro rfl
      exact hnodup.1 ht
  have hrunQueue := hres.runQueue
  rw [hl] at hrunQueue
  by_cases hrunning : (s.k.thr s.k.current).running = true
  · rw [if_pos hrunning] at hrunQueue
    have hswitched : s.switched k' = s.inserted s.k.current k' := if_pos hrunning
    have hsame (t : T) (ht : t ∈ l) : (s.switched k').stamp t = s.stamp t := by
      rw [hswitched]
      apply Function.update_of_ne
      rintro rfl
      exact hprev.2 ht
    have hlast : (s.switched k').stamp s.k.current = s.clock := by
      rw [hswitched]
      apply Function.update_self
    have hstays : l.Pairwise (s.switched k').Ahead :=
      pairwise_aged (List.pairwise_cons.mp hordered).2 hidle hage hsame
    by_cases hkeep : k'.prio next ≤ k'.prio s.k.current
    · -- The walk passes over `next`.
      have hlist : L' .runQueue
          = insertBehind (fun t => decide (k'.prio t ≤ k'.prio s.k.current)) s.k.current l := by
        rw [hrunQueue, Insertion.insertBehind, List.takeWhile_cons_of_pos (by simpa using hkeep),
          List.dropWhile_cons_of_pos (by simpa using hkeep), List.cons_append,
          List.erase_cons_head]
        rfl
      rw [hlist]
      constructor
      · have hnew (t : T) (ht : t ∈ l) :
            (s.switched k').stamp t < (s.switched k').stamp s.k.current := by
          rw [hsame t ht, hlast]
          apply hstamp t (List.mem_cons_of_mem _ ht)
        have hinsert := pairwise_insertBehind hstays hnew
        rwa [switched_k] at hinsert
      · intro t ht
        rcases mem_insertBehind.mp ht with rfl | ht
        · exact .inr ⟨rfl, hrunning⟩
        · exact .inl ht
    · -- The walk stops at `next`, and there is nothing else to pass over.
      have hlist : L' .runQueue = s.k.current :: l := by
        rw [hrunQueue, Insertion.insertBehind, List.takeWhile_cons_of_neg (by simpa using hkeep),
          List.dropWhile_cons_of_neg (by simpa using hkeep), List.nil_append,
          List.erase_cons_tail (by simpa using hprev.1), List.erase_cons_head]
      rw [hlist]
      constructor
      · rw [List.pairwise_cons]
        refine ⟨?_, hstays⟩
        intro t ht
        have hne : t ≠ next := by
          rintro rfl
          exact hnodup.1 ht
        have hpast : 0 < (s.k.thr s.k.current).prio →
            (s.k.thr s.k.current).prio < s.k.aged t := by
          intro hpos
          by_contra hle
          apply hplaced
          refine ⟨hrunning, hpos, ?_, t, ?_, hne, by omega⟩
          · rw [hres.next_prio, hres.prev_prio] at hkeep
            omega
          · rw [h.listed.runQueue_eq, hl]
            apply List.mem_cons_of_mem _ ht
        rw [Ahead, hage t ht, switched_k, hres.prev_prio]
        constructor
        · omega
        · intro heq hpos
          have := hpast hpos
          omega
      · intro t ht
        rcases List.mem_cons.mp ht with rfl | ht
        · exact .inr ⟨rfl, hrunning⟩
        · exact .inl ht
  · have hswitched : s.switched k' = { s with k := k' } := if_neg hrunning
    rw [if_neg hrunning, List.erase_cons_head] at hrunQueue
    rw [hrunQueue]
    refine ⟨?_, fun t ht => .inl ht⟩
    apply pairwise_aged (List.pairwise_cons.mp hordered).2 hidle hage
    intro t _
    rw [hswitched]

/-- A switch keeps the invariant. -/
theorem switch (h : s.Inv L) {k' : Kernel T Q} {L' : Root Q → List T}
    (hres : Listed.Rescheduled s.k L ((L .runQueue).head?.getD s.k.current) k' L')
    (hplaced : ¬ Misplaces s.k ((L .runQueue).head?.getD s.k.current))
    (hbehind : ¬ BehindIdle s.k ((L .runQueue).head?.getD s.k.current)) :
  (s.switched k').Inv L'
  := by
  cases hl : L .runQueue with
  | nil =>
      rw [hl] at hres
      have hnil : L' .runQueue = [] := by
        rw [hres.runQueue, hl]
        split <;> simp [Insertion.insertBehind]
      refine ⟨?_, ?_, by simp [hnil], by simp [hnil], by simp [hnil]⟩
      · rw [switched_k]
        apply hres.listed
      · intro r
        rw [switched_k, hres.current]
        cases r with
        | runQueue => simp [hnil]
        | queue qp =>
            rw [hres.queue]
            apply h.current
  | cons next l =>
      rw [hl] at hres hplaced hbehind
      obtain ⟨hordered, hmem⟩ := h.switched_cons hl hres hplaced hbehind
      have hnodup := h.listed.linked.nodup .runQueue
      have hcurrent := h.current .runQueue
      rw [hl] at hnodup hcurrent
      have hl' {t : T} (ht : t ∈ l) : t ∈ L .runQueue := by
        rw [hl]
        apply List.mem_cons_of_mem _ ht
      refine ⟨?_, ?_, ?_, ?_, hordered⟩
      · rw [switched_k]
        apply hres.listed
      · intro r hr
        rw [switched_k, hres.current] at hr
        cases r with
        | runQueue =>
            rcases hmem _ hr with hin | ⟨heq, -⟩
            · exact (List.nodup_cons.mp hnodup).1 hin
            · apply hcurrent
              rw [← heq]
              apply List.mem_cons_self
        | queue qp =>
            rw [hres.queue] at hr
            have hin : next ∈ L .runQueue := by
              rw [hl]
              apply List.mem_cons_self
            have hroot := h.listed.linked.root_unique hr hin
            cases hroot
      · intro t ht
        rw [switched_k, hres.running]
        rcases hmem t ht with hin | ⟨rfl, hrunning⟩
        · apply h.running t (hl' hin)
        · apply hrunning
      · intro t ht
        rw [switched]
        rcases hmem t ht with hin | ⟨rfl, hrunning⟩
        · have hlt := h.stamp t (hl' hin)
          have hne : t ≠ s.k.current := by
            rintro rfl
            exact h.current _ (hl' hin)
          split
          · rw [inserted]
            dsimp only
            rw [Function.update_of_ne hne]
            omega
          · apply hlt
        · rw [if_pos hrunning, inserted]
          dsimp only
          rw [Function.update_self]
          omega

/-- A pass of the scheduler. -/
theorem pass (h : s.Inv L) (hclass : cfg.rqClass = .rr) (hdyn : cfg.dynPrio = true)
    (hok : s.Ok cfg .pass) :
  ∃ s' L', s.step cfg .pass = some s' ∧ s'.Inv L'
  := by
  have hnext := h.schedGetNextRunnable
  set next := (L .runQueue).head?.getD s.k.current with hdef
  rw [RrSystem.step, hnext, Option.bind_some, RrSystem.pass]
  by_cases hswitch : s.k.switches cfg next = true
  · obtain ⟨hplaced, hbehind⟩ := hok next hnext hswitch
    obtain ⟨k', L', hk', hres⟩ := h.listed.exists_reschedule hclass hdyn h.current hswitch
    refine ⟨s.switched k', L', ?_, h.switch hres hplaced hbehind⟩
    rw [hk', Option.map_some, hswitch]
    rfl
  · rw [Bool.not_eq_true] at hswitch
    have hstay : ∃ needResched preemptNeedResched, s.k.reschedule cfg s.k.current next
        = some (s.k.modify s.k.current fun th => { th with needResched, preemptNeedResched }) := by
      obtain ⟨needResched, preemptNeedResched, hclear⟩ :=
        Kernel.clearResched_frame cfg s.k s.k.current next
      use needResched, preemptNeedResched
      rw [Kernel.switches] at hswitch
      rw [Kernel.reschedule, hclear, hswitch, if_neg (by simp)]
    obtain ⟨needResched, preemptNeedResched, hk⟩ := hstay
    rw [hk, Option.map_some, hswitch]
    exact ⟨_, L, rfl, h.modify (h.current _) _⟩

/-- Every operation that meets its condition goes through and keeps the invariant. -/
theorem step (h : s.Inv L) (hclass : cfg.rqClass = .rr) (hdyn : cfg.dynPrio = true) {op : Op T}
    (hok : s.Ok cfg op) :
  ∃ s' L', s.step cfg op = some s' ∧ s'.Inv L'
  := by
  cases op with
  | rawThreadInit tp prio =>
      have htp := h.listed.linked.notMem hok.1
      have hlisted : Listed { s.k with links := s.k.links.clear tp } L :=
        ⟨h.listed.linked.clear htp, h.listed.num, h.listed.head⟩
      have hclear : Inv { s with k := { s.k with links := s.k.links.clear tp } } L :=
        h.congr hlisted rfl rfl rfl fun _ _ => rfl
      exact ⟨_, L, rfl, hclear.modify (htp .runQueue) _⟩
  | addThread tp => apply h.addThread hclass (h.listed.linked.notMem hok.1) hok.2
  | removeThread tp => apply h.removeThread tp
  | nice prio => exact ⟨_, L, rfl, h.modify (h.current _) _⟩
  | setFlags running needResched preemptNeedResched =>
      exact ⟨_, L, rfl, h.modify (h.current _) _⟩
  | pass => apply h.pass hclass hdyn hok

end Inv

/-! ### The run queue of every run -/

/-- The threads on the run queue, in order. -/
def Threads (s : RrSystem T Q) (l : List T) : Prop :=
  ∃ p, s.k.links.head .runQueue = .ptr p ∧ Chain.IsChain s.k.links.next p l

/-- What a call of `rr_next_runnable` returns: a runnable thread of the run queue that has the
smallest priority value of those, or `NULL` when there is none. -/
def Least (s : RrSystem T Q) (l : List T) : Option T → Prop
  | none => ∀ t ∈ l, (s.k.thr t).running = false
  | some n => n ∈ l ∧ (s.k.thr n).running = true ∧
      ∀ t ∈ l, (s.k.thr t).running = true → s.k.prio n ≤ s.k.prio t

theorem Inv.least (h : s.Inv L) :
  ∃ next, s.k.nextRunnable = some next ∧ s.Least (L .runQueue) next
  := by
  refine ⟨_, h.listed.exists_schedGetNextRunnable, ?_⟩
  have hsorted : SortedBy s.k.prio (L .runQueue) := h.ordered.imp fun hxy => hxy.1
  cases hfind : (L .runQueue).find? fun t => (s.k.thr t).running with
  | none =>
      intro t ht
      simpa using List.find?_eq_none.mp hfind t ht
  | some n =>
      refine ⟨List.mem_of_find?_eq_some hfind,
        List.find?_some (p := fun t => (s.k.thr t).running) hfind, ?_⟩
      intro t ht hrunning
      apply hsorted.le_of_find? hfind t ht hrunning

/-- In every run without a switch that misplaces the previous thread or lowers the value of a
thread behind the idle one, the threads on the run queue are in order, and the next runnable
thread has the smallest priority value. -/
theorem sorted_of_run (hclass : cfg.rqClass = .rr) (hdyn : cfg.dynPrio = true) (hstart : s.Start)
    (hrun : Run.Guarded (RrSystem.step cfg) (Ok cfg) s s') :
  ∃ l, s'.Threads l ∧ l.Pairwise s'.Ahead ∧
    ∃ next, s'.k.nextRunnable = some next ∧ s'.Least l next
  := by
  obtain ⟨L, h⟩ := hrun.invariant (fun s => ∃ L, s.Inv L) hstart.inv fun s op s' hs hok hstep => by
    obtain ⟨L, h⟩ := hs
    obtain ⟨s'', L'', hstep', h'⟩ := h.step hclass hdyn hok
    obtain rfl := Option.some.inj (hstep.symm.trans hstep')
    use L''
  refine ⟨L .runQueue, ?_, h.ordered, h.least⟩
  cases hr : s'.k.links.head .runQueue with
  | signaled => exact absurd hr h.listed.head
  | ptr p => exact ⟨p, hr, h.listed.linked.chain _ p hr⟩

theorem boot_start {n : Nat} (prio : Fin (n + 1) → Nat) (idle : Fin (n + 1) → Bool) :
  (boot prio idle).Start
  := by
  refine ⟨fun _ => [], ⟨linked_nil fun _ => rfl, rfl, ?_⟩, rfl, fun _ => List.not_mem_nil⟩
  simp [boot]

/-- Two threads of the priority 10 take turns, and a third one of the priority 12 ages. -/
theorem sorted_of_run_three :
  ∃ s, Run.exec (RrSystem.step rrConfig)
      (boot (fun t : Fin 3 => if t = 2 then 12 else 10) fun _ => false)
      [.addThread 1, .addThread 2, .pass, .pass] = some s ∧
    s.k.prio 2 = 10 ∧ ∃ l, s.Threads l ∧ l.Pairwise s.Ahead ∧
      ∃ next, s.k.nextRunnable = some next ∧ s.Least l next
  := by
  obtain ⟨s, hs, hprio⟩ := Run.exists_of_any (RrSystem.step rrConfig)
    (boot (fun t : Fin 3 => if t = 2 then 12 else 10) fun _ => false)
    [.addThread 1, .addThread 2, .pass, .pass] (fun s => s.k.prio 2 = 10) (by decide)
  refine ⟨s, hs, of_decide_eq_true hprio, ?_⟩
  have hclass : rrConfig.rqClass = .rr := rfl
  apply sorted_of_run hclass rfl (boot_start _ _) (Run.guarded_of_exec _ hs _)
  decide

/-- The run queue is not sorted when the reset of the next thread makes the previous one go before
a thread of a smaller value, nor when a thread behind the idle one ages, and two values that have
become zero need not be in the order of insertion. -/
theorem not_ordered :
  (∃ s, Run.exec (RrSystem.step rrConfig)
      (boot (fun t : Fin 3 => if t = 2 then 3 else 2) fun _ => false)
      [.addThread 1, .addThread 2, .pass, .pass] = some s ∧
    s.Threads [1, 0] ∧ s.k.prio 1 = 2 ∧ s.k.prio 0 = 1 ∧ (s.k.thr 0).running = true ∧
    s.k.nextRunnable = some (some 1)) ∧
  (∃ s, Run.exec (RrSystem.step rrConfig)
      (boot (fun t : Fin 4 => if t = 1 ∨ t = 2 then 255 else 5) fun t => t = 1)
      [.addThread 1, .addThread 2, .addThread 3, .pass] = some s ∧
    s.Threads [0, 1, 2] ∧ s.k.prio 1 = 255 ∧ s.k.prio 2 = 254) ∧
  ∃ s, Run.exec (RrSystem.step rrConfig)
      (boot (fun t : Fin 4 => if t = 0 then 5 else if t = 3 then 1 else 0) fun _ => false)
      [.addThread 3, .addThread 2, .addThread 1, .pass] = some s ∧
    s.Threads [1, 3, 0] ∧ s.k.prio 1 = 0 ∧ s.k.prio 3 = 0 ∧ s.stamp 3 < s.stamp 1
  := by
  refine ⟨⟨_, rfl, ⟨_, rfl, ?_⟩, ?_⟩, ⟨_, rfl, ⟨_, rfl, ?_⟩, ?_⟩, ⟨_, rfl, ⟨_, rfl, ?_⟩, ?_⟩⟩
  · exact ⟨rfl, rfl, rfl⟩
  · decide
  · exact ⟨rfl, rfl, rfl, rfl⟩
  · decide
  · exact ⟨rfl, rfl, rfl, rfl⟩
  · decide

end RrSystem

end Etaos
