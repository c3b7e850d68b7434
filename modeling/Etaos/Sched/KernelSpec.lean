import Etaos.Sched.QueueSpec
import Etaos.Sched.Schedule

/-!
# The kernel functions on represented lists

What the functions that add and remove threads do to the lists that the kernel represents,
when the thread added is on no list.
-/

set_option linter.unusedSectionVars false

namespace Etaos

variable {T Q : Type} [DecidableEq T] [DecidableEq Q] [Fintype T]

/-- The links of the kernel represent the lists `L`, `num` counts the run queue, and the
run queue is not marked. -/
structure Listed (k : Kernel T Q) (L : Root Q → List T) : Prop where
  linked : Linked k.links L
  num : k.num = (L .runQueue).length
  head : k.links.head .runQueue ≠ .signaled

/-- Only the first threads of the thread queues count events. -/
structure Counted (k : Links T (Root Q)) (L : Root Q → List T) : Prop where
  head : EcAtHead k L
  runQueue : headEc k L .runQueue = 0

/-- The thread queues that are not emptied count the events that they counted before. -/
def Recount (k : Links T (Root Q)) (L : Root Q → List T) (k' : Links T (Root Q))
    (L' : Root Q → List T) : Prop :=
  Counted k L → Counted k' L' ∧ ∀ qp, L' (.queue qp) ≠ [] →
    headEc k' L' (.queue qp) = headEc k L (.queue qp)

/-- Lists with a thread added to the run queue. -/
def AddedTo (L : Root Q → List T) (tp : T) (L' : Root Q → List T) : Prop :=
  (∃ a b, L .runQueue = a ++ b ∧ L' .runQueue = a ++ tp :: b) ∧
    ∀ qp, L' (.queue qp) = L (.queue qp)

/-- Lists with a thread removed from one of them. -/
def RemovedFrom (r : Root Q) (L : Root Q → List T) (tp : T) : Root Q → List T :=
  Function.update L r ((L r).erase tp)

namespace AddedTo

variable {L L' : Root Q → List T} {tp : T}

theorem mem_runQueue (h : AddedTo L tp L') {t : T} :
  t ∈ L' .runQueue ↔ t = tp ∨ t ∈ L .runQueue
  := by
  obtain ⟨⟨a, b, hL, hL'⟩, _⟩ := h
  rw [hL, hL']
  simp only [List.mem_append, List.mem_cons]
  tauto

theorem mem_iff (h : AddedTo L tp L') {r : Root Q} {t : T} :
  t ∈ L' r ↔ t ∈ L r ∨ r = .runQueue ∧ t = tp
  := by
  cases r with
  | runQueue =>
      rw [h.mem_runQueue]
      simp only [true_and]
      tauto
  | queue qp => simp [h.2 qp]

end AddedTo

namespace RemovedFrom

variable {L : Root Q → List T} {tp : T} {r : Root Q}

theorem self : RemovedFrom r L tp r = (L r).erase tp := by
  simp [RemovedFrom]

theorem of_ne {r' : Root Q} (h : r' ≠ r) : RemovedFrom r L tp r' = L r' := by
  simp [RemovedFrom, h]

theorem mem {r' : Root Q} {t : T} (h : t ∈ RemovedFrom r L tp r') : t ∈ L r' := by
  by_cases hr : r' = r
  · subst hr
    rw [self] at h
    apply List.mem_of_mem_erase h
  · rwa [of_ne hr] at h

theorem eq_self (h : tp ∉ L r) : RemovedFrom r L tp = L := by
  rw [RemovedFrom, List.erase_of_not_mem h, Function.update_eq_self]

theorem mem_of_ne {r' : Root Q} {t : T} (h : t ∈ L r') (ht : t ≠ tp) :
  t ∈ RemovedFrom r L tp r'
  := by
  by_cases hr : r' = r
  · subst hr
    rw [self]
    apply (List.mem_erase_of_ne ht).mpr h
  · rwa [of_ne hr]

end RemovedFrom

namespace Recount

variable {k k₁ k₂ : Links T (Root Q)} {L L₁ L₂ : Root Q → List T}

/-- What does not change the counters and the lists. -/
theorem of_ec (hec : k₁.ec = k.ec) : Recount k L k₁ L := by
  intro h
  have hsame (r : Root Q) : headEc k₁ L r = headEc k L r := by
    simp only [headEc, hec]
  refine ⟨⟨?_, ?_⟩, ?_⟩
  · intro t ht
    rw [hec] at ht
    apply h.head t ht
  · rw [hsame, h.runQueue]
  · intro qp _
    apply hsame

theorem trans (h₁ : Recount k L k₁ L₁) (h₂ : Recount k₁ L₁ k₂ L₂)
    (hqueue : ∀ qp, L₁ (.queue qp) = [] → L₂ (.queue qp) = []) :
  Recount k L k₂ L₂
  := by
  intro h
  obtain ⟨hc₁, he₁⟩ := h₁ h
  obtain ⟨hc₂, he₂⟩ := h₂ hc₁
  use hc₂
  intro qp hne
  rw [he₂ qp hne, he₁]
  intro hnil
  apply hne (hqueue qp hnil)

end Recount

namespace Listed

variable {k k' : Kernel T Q} {L : Root Q → List T}

/-- The thread removed is on no list any more. -/
theorem not_mem_removedFrom (h : Listed k L) {tp : T} {r : Root Q} (htp : tp ∈ L r)
    (r' : Root Q) :
  tp ∉ RemovedFrom r L tp r'
  := by
  intro hmem
  by_cases hr : r' = r
  · subst hr
    rw [RemovedFrom.self] at hmem
    apply (h.linked.nodup _).not_mem_erase hmem
  · apply hr
    apply h.linked.root_unique (RemovedFrom.mem hmem) htp

/-- The insertion of a scheduling class is an insertion behind some threads. -/
theorem classInsert (h : Listed k L) (c : SchedClass) (r : Root Q) {tp : T}
    (htp : ∀ r', tp ∉ L r') {links : Links T (Root Q)}
    (hk : k.links.classInsert c k.prio r tp = some links) :
  ∃ a b, L r = a ++ b ∧ Linked links (Function.update L r (a ++ tp :: b)) ∧
    links.head .runQueue ≠ .signaled
  := by
  obtain ⟨links', a, b, hk', hab, hlinked, ⟨hself, hother⟩, -⟩ :=
    h.linked.classInsert c k.prio r htp
  obtain rfl := Option.some.inj (hk.symm.trans hk')
  refine ⟨a, b, hab, hlinked, ?_⟩
  cases r with
  | runQueue => apply hself
  | queue qp =>
      rw [hother _ (by simp)]
      apply h.head

/-- The class function `add_thread`, for a thread that is on no list. -/
theorem addThread (h : Listed k L) {cfg : Config Q} {tp : T} (htp : ∀ r, tp ∉ L r)
    (hk : k.addThread cfg tp = some k') :
  ∃ L' links, AddedTo L tp L' ∧ Listed k' L' ∧ k' = { k with num := k.num + 1, links }
  := by
  obtain ⟨links, hlinks, rfl⟩ := Option.map_eq_some_iff.mp hk
  obtain ⟨a, b, hab, hlinked, hhead⟩ := h.classInsert _ _ htp hlinks
  refine ⟨_, _, ⟨⟨a, b, hab, ?_⟩, ?_⟩, ⟨hlinked, ?_, hhead⟩, rfl⟩
  · apply Function.update_self
  · intro qp
    apply Function.update_of_ne (by simp)
  · simp [h.num, hab, Nat.add_assoc]

/-- The class function `rm_thread`. -/
theorem rmThread (h : Listed k L) {tp : T} {rc : Int} (hk : k.rmThread tp = some (k', rc)) :
  Listed k' (RemovedFrom .runQueue L tp) ∧ ∃ num links, k' = { k with num, links }
  := by
  obtain ⟨⟨links, rc'⟩, hlinks, hk⟩ := Option.map_eq_some_iff.mp hk
  obtain ⟨links', hlinks', hlinked⟩ := h.linked.remove .runQueue tp
  obtain ⟨rfl, rfl⟩ := Prod.mk.inj (Option.some.inj (hlinks.symm.trans hlinks'))
  have hhead := (Links.rrSharedQueueRemove_head hlinks).1 h.head
  by_cases htp : tp ∈ L .runQueue
  · simp [htp, EOK] at hk
    obtain ⟨rfl, rfl⟩ := hk
    refine ⟨⟨hlinked, ?_, hhead⟩, _, _, rfl⟩
    simp [h.num, RemovedFrom.self, List.length_erase_of_mem htp]
  · simp [htp, EINVAL] at hk
    obtain ⟨rfl, rfl⟩ := hk
    refine ⟨⟨hlinked, ?_, hhead⟩, _, _, rfl⟩
    simp [h.num, RemovedFrom.self, List.erase_of_not_mem htp]

/-- The function `queue_remove_thread`. -/
theorem queueRemoveThread (h : Listed k L) {qp : Q} {tp : T}
    (hk : k.queueRemoveThread qp tp = some k') :
  Listed k' (RemovedFrom (.queue qp) L tp) ∧ ∃ links, k' = { k with links }
  := by
  obtain ⟨⟨links, rc⟩, hlinks, rfl⟩ := Option.map_eq_some_iff.mp hk
  obtain ⟨links', hlinks', hlinked⟩ := h.linked.remove (.queue qp) tp
  obtain ⟨rfl, rfl⟩ := Prod.mk.inj (Option.some.inj (hlinks.symm.trans hlinks'))
  have hhead := (Links.rrSharedQueueRemove_head hlinks).2 .runQueue (by simp)
  refine ⟨⟨hlinked, ?_, hhead ▸ h.head⟩, _, rfl⟩
  rw [RemovedFrom.of_ne (by simp), h.num]

/-- A thread queue without waiters gets another head. -/
theorem setQhead (h : Listed k L) {qp : Q} {v : Qhead T} (hL : L (.queue qp) = [])
    (hv : v = .signaled ∨ v = .ptr none) :
  Listed (k.setQhead qp v) L
  := by
  refine ⟨h.linked.set_head hL hv, h.num, ?_⟩
  simpa [Kernel.setQhead] using h.head

/-- A queue is marked; the threads on it are forgotten. -/
theorem mark (h : Listed k L) (qp : Q) :
  Listed (k.setQhead qp .signaled) (Function.update L (.queue qp) [])
  := by
  refine ⟨h.linked.forget _, ?_, ?_⟩
  · rw [Function.update_of_ne (by simp)]
    apply h.num
  · simpa [Kernel.setQhead] using h.head

/-- A thread queue without waiters is marked. -/
theorem signalIfEmpty (h : Listed k L) (qp : Q) :
  Listed (k.signalIfEmpty qp) L
  := by
  rw [Kernel.signalIfEmpty]
  split
  · rename_i hq
    apply h.setQhead _ (.inl rfl)
    have hchain := h.linked.chain _ _ hq
    rwa [Chain.IsChain.nil_iff] at hchain
  · apply h

/-- The event counters are no part of the lists. -/
theorem setEc (h : Listed k L) (ec : T → UInt8) :
  Listed { k with links := { k.links with ec } } L
  := ⟨h.linked.set_ec ec, h.num, h.head⟩

/-- A change of the thread records changes no list. -/
theorem congr (h : Listed k L) (hlinks : k'.links = k.links) (hnum : k'.num = k.num) :
  Listed k' L
  := by
  exact ⟨hlinks ▸ h.linked, hnum ▸ h.num, hlinks ▸ h.head⟩

/-- The first thread on the run queue that is running is next. -/
theorem schedGetNextRunnable (h : Listed k L) {next : T}
    (hk : k.schedGetNextRunnable = some next) :
  next = ((L .runQueue).find? fun t => (k.thr t).running).getD k.current
  := by
  obtain ⟨found, hfound, rfl⟩ := Option.map_eq_some_iff.mp hk
  rw [Kernel.nextRunnable] at hfound
  cases hr : k.links.head .runQueue with
  | signaled => simp [hr] at hfound
  | ptr p =>
      simp only [hr] at hfound
      obtain ⟨⟨place, found'⟩, hskip, rfl⟩ := Option.map_eq_some_iff.mp hfound
      rw [h.linked.skip_eq hr] at hskip
      obtain ⟨-, rfl⟩ := Prod.mk.inj (Option.some.inj hskip)
      rw [List.find?_eq_head?_dropWhile_not]

/-- The next thread is one on the run queue that is running, or the current one when there is
none. -/
theorem schedGetNextRunnable_cases (h : Listed k L) {next : T}
    (hk : k.schedGetNextRunnable = some next) :
  (next ∈ L .runQueue ∧ (k.thr next).running = true) ∨
    (next = k.current ∧ ∀ t ∈ L .runQueue, (k.thr t).running = false)
  := by
  rw [h.schedGetNextRunnable hk]
  cases hfind : (L .runQueue).find? fun t => (k.thr t).running with
  | none =>
      right
      rw [List.find?_eq_none] at hfind
      use rfl
      intro t ht
      simpa using hfind t ht
  | some t =>
      left
      use List.mem_of_find?_eq_some hfind
      apply List.find?_some hfind

/-! ### The counters -/

/-- The class function `add_thread` leaves the heads of the thread queues alone, and hands
the counter of the run queue on. -/
theorem addThread_frame (h : Listed k L) {cfg : Config Q} {tp : T} (htp : ∀ r, tp ∉ L r)
    (hk : k.addThread cfg tp = some k') {L' : Root Q → List T} (h' : Listed k' L') :
  (∀ qp, k'.links.head (.queue qp) = k.links.head (.queue qp)) ∧ Recount k.links L k'.links L'
  := by
  obtain ⟨links, hlinks, rfl⟩ := Option.map_eq_some_iff.mp hk
  obtain ⟨links', a, b, hlinks', hab, hlinked, ⟨-, hother⟩, hrecount⟩ :=
    h.linked.classInsert cfg.rqClass k.prio .runQueue htp
  obtain rfl := Option.some.inj (hlinks.symm.trans hlinks')
  obtain rfl := h'.linked.unique hlinked
  constructor
  · intro qp
    apply hother _ (by simp)
  · intro hcounted
    have hrec := hrecount hcounted.head
    rw [if_neg h.head, hcounted.runQueue] at hrec
    refine ⟨⟨hrec.ecAtHead hcounted.head, hrec.headEc_self (by simp)⟩, ?_⟩
    intro qp _
    apply hrec.headEc_of_ne h.linked _ (by simp)
    intro t ht r' hr' htr'
    rw [List.mem_append, List.mem_cons, or_left_comm, ← List.mem_append, ← hab] at ht
    rcases ht with rfl | ht
    · apply htp r' htr'
    · apply hr' (h.linked.root_unique htr' ht)

/-- The removal of a thread from a list hands the counter of the list on. -/
theorem remove_recount (h : Listed k L) {r : Root Q} {tp : T} {rc : Int}
    {links : Links T (Root Q)} (hk : k.links.rrSharedQueueRemove r tp = some (links, rc)) :
  Recount k.links L links (RemovedFrom r L tp)
  := by
  intro hcounted
  have hrec := Recounted.remove hcounted.head h.linked hk
  have hsub : ∀ t ∈ (L r).erase tp, ∀ r', r' ≠ r → t ∉ L r' := by
    intro t ht r' hr' htr'
    apply hr' (h.linked.root_unique htr' (List.mem_of_mem_erase ht))
  have hcount (r' : Root Q) (hne : RemovedFrom r L tp r' ≠ []) :
      headEc links (RemovedFrom r L tp) r' = headEc k.links L r' := by
    by_cases hr : r' = r
    · subst hr
      rw [RemovedFrom.self] at hne
      apply hrec.headEc_self hne
    · apply hrec.headEc_of_ne h.linked hsub hr
  refine ⟨⟨hrec.ecAtHead hcounted.head, ?_⟩, fun qp hne => hcount _ hne⟩
  by_cases hnil : RemovedFrom r L tp .runQueue = []
  · simp [headEc, hnil]
  · rw [hcount _ hnil, hcounted.runQueue]

/-- The class function `rm_thread` leaves the heads of the thread queues alone, and hands the
counter of the run queue on. -/
theorem rmThread_frame (h : Listed k L) {tp : T} {rc : Int}
    (hk : k.rmThread tp = some (k', rc)) :
  (∀ qp, k'.links.head (.queue qp) = k.links.head (.queue qp)) ∧
    Recount k.links L k'.links (RemovedFrom .runQueue L tp)
  := by
  obtain ⟨⟨links, rc'⟩, hlinks, hk⟩ := Option.map_eq_some_iff.mp hk
  have hk' : k'.links = links := by
    dsimp only at hk
    split at hk <;> obtain ⟨rfl, -⟩ := Prod.mk.inj hk <;> rfl
  constructor
  · intro qp
    rw [hk']
    apply (Links.rrSharedQueueRemove_head hlinks).2 _ (by simp)
  · rw [hk']
    apply h.remove_recount hlinks

end Listed

end Etaos
