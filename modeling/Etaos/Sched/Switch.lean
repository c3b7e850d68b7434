import Etaos.Sched.KernelSpec

/-!
# Switching threads

The decision of `__schedule` to switch to another thread, and what the switch does to the
kernel.
-/

set_option linter.unusedSectionVars false

namespace Etaos

variable {T Q : Type} [DecidableEq T] [DecidableEq Q] [Fintype T]

/-- The switch from `prev` to `next`. -/
structure Switched (prev next : T) (k : Kernel T Q) (L : Root Q → List T)
    (k' : Kernel T Q) (L' : Root Q → List T) : Prop where
  listed : Listed k' L'
  current : k'.current = next
  queue : ∀ qp, L' (.queue qp) = L (.queue qp)
  runQueue : ∀ u, u ∈ L' .runQueue ↔
    u ≠ next ∧ (u ∈ L .runQueue ∨ u = prev ∧ (k.thr prev).running = true)
  wake : k'.wake = k.wake
  timers : k'.timers = k.timers
  tick : k'.tick = k.tick
  wakes : k'.wakes = k.wakes
  irqCalls : k'.irqCalls = k.irqCalls
  irqWoken : k'.irqWoken = k.irqWoken
  irqStart : k'.irqStart = k.irqStart
  prev_thread : ∃ dprio needResched preemptNeedResched rq, k'.thr prev =
    { k.thr prev with
      dprio, needResched, preemptNeedResched, rq, onRq := (k.thr prev).running }
  thread : ∀ u, u ≠ prev → ∃ dprio, k'.thr u = { k.thr u with dprio }

namespace Kernel

variable {k k' : Kernel T Q} {cfg : Config Q}

/-- The flags that `preempt_check` and `reschedule_decide` write. -/
theorem clearResched_frame (cfg : Config Q) (k : Kernel T Q) (prev next : T) :
  ∃ needResched preemptNeedResched, (k.preemptCheck cfg prev next).clearResched cfg prev
    = k.modify prev fun th => { th with needResched, preemptNeedResched }
  := by
  rw [clearResched, preemptCheck]
  split
  · use false, false
    split <;> simp [modify]
  · rename_i hpreempt
    use false, (k.thr prev).preemptNeedResched
    simp [hpreempt, modify]

/-- A thread that asks for a reschedule gives way to another one. -/
theorem rescheduleDecide_of_needResched {prev next : T} (hne : prev ≠ next)
    (hneed : (k.thr prev).needResched = true) :
  k.rescheduleDecide cfg prev next = true
  := by
  simp [rescheduleDecide, hne, hneed]

@[simp]
theorem preemptCheck_needResched (prev next : T) :
  ((k.preemptCheck cfg prev next).thr prev).needResched = (k.thr prev).needResched
  := by
  rw [preemptCheck]
  split <;> simp

/-- With preemption a thread gives way to another one that is not idle. -/
theorem rescheduleDecide_of_preempt {prev next : T} (hpreempt : cfg.preempt = true)
    (hne : prev ≠ next) (hidle : (k.thr next).idle = false) :
  (k.preemptCheck cfg prev next).rescheduleDecide cfg prev next = true
  := by
  simp [rescheduleDecide, preemptCheck, shouldReschedCputime, hpreempt, hne, hne.symm, hidle]

/-- The walk of `dyn_prio_update` changes dynamic priorities only. -/
theorem dynPrioUpdate_frame (num : Nat) :
    ∀ {n : Nat} {p : Option T} {k k' : Kernel T Q}, k.dynPrioUpdate num n p = some k' →
      ∃ dprio : T → Nat, k' = { k with thr := fun u => { k.thr u with dprio := dprio u } }
  | n, none, k, k', hk => by
      have hk : some k = some k' := by
        cases n <;> exact hk
      obtain rfl := Option.some.inj hk
      use fun u => (k.thr u).dprio
  | n + 1, some walker, k, k', hk => by
      rw [dynPrioUpdate] at hk
      obtain ⟨dprio, rfl⟩ := dynPrioUpdate_frame num hk
      split
      · use dprio
      · use dprio
        congr 1
        funext u
        by_cases hu : u = walker
        · rw [hu, modify_thr_self]
        · rw [modify_thr_of_ne _ _ _ hu]

/-- The function `__schedule_prepare` changes dynamic priorities only. -/
theorem schedulePrepare_frame {prev next : T}
    (hk : k.schedulePrepare cfg prev next = some k') :
  ∃ dprio : T → Nat, k' = { k with thr := fun u => { k.thr u with dprio := dprio u } }
  := by
  obtain ⟨k₁, hk₁, rfl⟩ := Option.map_eq_some_iff.mp hk
  have hupdate : ∃ dprio : T → Nat,
      k₁ = { k with thr := fun u => { k.thr u with dprio := dprio u } } := by
    rw [updateDynPrio] at hk₁
    split at hk₁
    · split at hk₁
      · cases hk₁
      · apply dynPrioUpdate_frame 1 hk₁
    · obtain rfl := Option.some.inj hk₁
      use fun u => (k.thr u).dprio
  have hreset {k₁ : Kernel T Q} (tp : T) (hupdate : ∃ dprio : T → Nat,
      k₁ = { k with thr := fun u => { k.thr u with dprio := dprio u } }) :
      ∃ dprio : T → Nat, k₁.dynPrioReset cfg tp
        = { k with thr := fun u => { k.thr u with dprio := dprio u } } := by
    obtain ⟨dprio, rfl⟩ := hupdate
    rw [dynPrioReset]
    split
    · use Function.update dprio tp 0
      simp only [modify]
      congr 1
      funext u
      by_cases hu : u = tp
      · simp [hu]
      · simp [hu]
    · use dprio
  apply hreset next (hreset prev hupdate)

end Kernel

/-- Putting the previous thread back on the run queue, when it is running. -/
theorem Listed.putPrev {k k' : Kernel T Q} {L : Root Q → List T} {cfg : Config Q} {prev : T}
    (h : Listed k L) (hout : (k.thr prev).running = true → ∀ r, prev ∉ L r)
    (hk : k.putPrev cfg prev = some k') :
  ∃ L', Listed k' L' ∧ (∀ qp, L' (.queue qp) = L (.queue qp)) ∧
    (∀ u, u ∈ L' .runQueue ↔ u ∈ L .runQueue ∨ u = prev ∧ (k.thr prev).running = true) ∧
    ∃ num links rq, k' = { k with num, links }.modify prev fun th =>
      { th with rq, onRq := (k.thr prev).running }
  := by
  rw [Kernel.putPrev] at hk
  split at hk
  · rename_i hrunning
    have h' : Listed (k.modify prev fun th => { th with rq := true, onRq := true }) L :=
      h.congr rfl rfl
    obtain ⟨L', links, hadd, hlisted, rfl⟩ := h'.addThread (hout hrunning) hk
    refine ⟨L', hlisted, hadd.2, ?_, k.num + 1, links, true, ?_⟩
    · intro u
      rw [hadd.mem_runQueue]
      simp [hrunning, or_comm]
    · rw [hrunning]
      rfl
  · rename_i hrunning
    obtain rfl := Option.some.inj hk
    refine ⟨L, h.congr rfl rfl, fun _ => rfl, ?_, k.num, k.links, false, ?_⟩
    · simp [hrunning]
    · simp only [Bool.not_eq_true] at hrunning
      rw [hrunning]

/-- The function `rq_switch_context`, called by `__schedule` after `next` became current. -/
theorem Switched.intro {k k₁ k' : Kernel T Q} {L : Root Q → List T} {cfg : Config Q}
    {prev next : T} (h : Listed k L)
    (hout : (k.thr prev).running = true → ∀ r, prev ∉ L r)
    {needResched preemptNeedResched : Bool}
    (hk₁ : { k.modify prev fun th => { th with needResched, preemptNeedResched } with
      current := next }.schedulePrepare cfg prev next = some k₁)
    (hk : k₁.rqSwitchContext cfg prev next = some k') :
  ∃ L', Switched prev next k L k' L'
  := by
  obtain ⟨dprio, rfl⟩ := Kernel.schedulePrepare_frame hk₁
  obtain ⟨k₂, hk₂, hk⟩ := Option.bind_eq_some_iff.mp hk
  obtain ⟨⟨k₃, rc⟩, hk₃, rfl⟩ := Option.map_eq_some_iff.mp hk
  have h₁ : Listed { (k.modify prev fun th => { th with needResched, preemptNeedResched })
      with
      current := next
      thr := fun u =>
        { (k.modify prev fun th => { th with needResched, preemptNeedResched }).thr u with
          dprio := dprio u } } L := h.congr rfl rfl
  obtain ⟨L₂, h₂, hqueue, hrunQueue, num, links, rq, rfl⟩ :=
    h₁.putPrev (by simpa using hout) hk₂
  obtain ⟨h₃, num', links', rfl⟩ := h₂.rmThread hk₃
  use RemovedFrom .runQueue L₂ next
  constructor
  case listed => apply h₃
  case queue =>
    intro qp
    rw [RemovedFrom.of_ne (by simp), hqueue]
  case runQueue =>
    intro u
    rw [RemovedFrom.self, (h₂.linked.nodup _).mem_erase_iff, hrunQueue]
    simp
  case prev_thread =>
    refine ⟨dprio prev, needResched, preemptNeedResched, rq, ?_⟩
    simp
  case thread =>
    intro u hu
    use dprio u
    simp [hu]
  all_goals rfl

namespace Switched

variable {k k' : Kernel T Q} {L L' : Root Q → List T} {prev next : T}

/-- A field of a thread that a switch does not write. -/
theorem field {α : Type} (h : Switched prev next k L k' L') (f : Thread → α)
    (hf : ∀ th dprio needResched preemptNeedResched rq onRq,
      f { th with dprio, needResched, preemptNeedResched, rq, onRq } = f th) (u : T) :
  f (k'.thr u) = f (k.thr u)
  := by
  by_cases hu : u = prev
  · obtain ⟨_, _, _, _, hthr⟩ := h.prev_thread
    rw [hu, hthr, hf]
  · obtain ⟨dprio, hthr⟩ := h.thread u hu
    rw [hthr]
    apply hf (k.thr u) dprio (k.thr u).needResched (k.thr u).preemptNeedResched (k.thr u).rq
      (k.thr u).onRq

theorem running (h : Switched prev next k L k' L') (u : T) :
  (k'.thr u).running = (k.thr u).running
  := h.field Thread.running (fun _ _ _ _ _ _ => rfl) u

theorem sleeping (h : Switched prev next k L k' L') (u : T) :
  (k'.thr u).sleeping = (k.thr u).sleeping
  := h.field Thread.sleeping (fun _ _ _ _ _ _ => rfl) u

theorem idle (h : Switched prev next k L k' L') (u : T) :
  (k'.thr u).idle = (k.thr u).idle
  := h.field Thread.idle (fun _ _ _ _ _ _ => rfl) u

end Switched

end Etaos
