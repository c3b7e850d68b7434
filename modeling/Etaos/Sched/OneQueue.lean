import Etaos.Library.Insertion
import Etaos.Sched.QueueSpec

/-!
# The threads and events of one queue

What the insertions of `rr-shared.c` and `fifo.c` and the removal do to the queue that they are
called for, whatever else the links hold.  Whenever the head of the queue changes, the event counter
moves along with it.
-/

set_option linter.unusedSectionVars false

namespace Etaos

open Chain Insertion

/-- The priority value that a scheduling class orders its queues by. -/
def SchedClass.key {T : Type} (c : SchedClass) (prio : T → ℕ) : T → ℕ :=
  match c with
  | .fifo => fun _ => 0
  | .rr => prio

namespace Links

variable {T R : Type} [DecidableEq T] [DecidableEq R]

/-- The queue with the root `r` is `SIGNALED` or has the threads of `l`, of which only the first one
counts events. -/
structure IsQueue (k : Links T R) (r : R) (l : List T) : Prop where
  signaled : k.head r = .signaled → l = []
  chain : ∀ p, k.head r = .ptr p → Chain.IsChain k.next p l
  nodup : l.Nodup
  ec : ∀ t ∈ l.tail, k.ec t = 0

/-- The pending events of a queue: one when it is `SIGNALED`, or what its first thread counts. -/
def pending (k : Links T R) (r : R) : ℕ :=
  match k.head r with
  | .signaled => 1
  | .ptr none => 0
  | .ptr (some t) => (k.ec t).toNat

/-- What the first of the threads counts. -/
def headEvents (ec : T → UInt8) (l : List T) : UInt8 :=
  (l.head?.map ec).getD 0

variable {k : Links T R} {r : R} {l a b : List T} {t : T}

theorem IsQueue.pending_eq (h : k.IsQueue r l) {p : Option T} (hp : k.head r = .ptr p) :
  k.pending r = (headEvents k.ec l).toNat
  := by
  rw [pending, hp, headEvents, (h.chain p hp).head?_eq]
  cases p <;> rfl

/-- A thread that is linked in takes over the events of the first thread when it becomes the first
one itself. -/
theorem link_events (hnodup : (a ++ b).Nodup) (hec : ∀ x ∈ (a ++ b).tail, k.ec x = 0)
    (ht : t ∉ a ++ b) (hzero : k.ec t = 0) :
  (∀ x ∈ (a ++ t :: b).tail, (k.link r a.getLast? b.head? t).ec x = 0) ∧
    headEvents (k.link r a.getLast? b.head? t).ec (a ++ t :: b) = headEvents k.ec (a ++ b)
  := by
  have hplace : a.getLast? ≠ some t := by
    intro hlast
    apply ht (List.mem_append_left _ (List.mem_of_getLast? hlast))
  have hcases := link_ec (k := k) (r := r) (t := b.head?) hplace
  cases a with
  | cons m a =>
      -- The first thread stays, so that the one after the place counts nothing.
      have hsame : (k.link r (m :: a).getLast? b.head? t).ec = k.ec := by
        rcases hcases with ⟨hsame, -⟩ | ⟨n, hn, hne, -⟩
        · exact hsame
        · exact absurd (hec n (List.mem_append_right a (List.mem_of_mem_head? hn))) hne
      rw [hsame]
      refine ⟨?_, rfl⟩
      intro x hx
      rcases List.mem_append.mp hx with hx | hx
      · apply hec x (List.mem_append_left _ hx)
      · rcases List.mem_cons.mp hx with rfl | hx
        · exact hzero
        · apply hec x (List.mem_append_right _ hx)
  | nil =>
      cases b with
      | nil =>
          obtain ⟨hsame, -⟩ := hcases.resolve_right (by simp)
          rw [hsame]
          simp [headEvents, hzero]
      | cons n b =>
          have htn : t ≠ n := by
            rintro rfl
            apply ht List.mem_cons_self
          rcases hcases with ⟨hsame, hn⟩ | ⟨n', hn', -, hmoved⟩
          · rw [hsame]
            have hn₀ := hn n rfl
            refine ⟨?_, hzero.trans hn₀.symm⟩
            intro x hx
            rcases List.mem_cons.mp hx with rfl | hx
            · exact hn₀
            · apply hec x hx
          · obtain rfl := Option.some.inj hn'
            rw [hmoved, hzero, UInt8.zero_add]
            constructor
            · intro x hx
              rcases List.mem_cons.mp hx with rfl | hxb
              · apply Function.update_self
              · have hxt : x ≠ t := by
                  rintro rfl
                  apply ht (List.mem_cons_of_mem _ hxb)
                have hxn : x ≠ n := by
                  rintro rfl
                  apply (List.nodup_cons.mp hnodup).1 hxb
                rw [Function.update_of_ne hxn, Function.update_of_ne hxt]
                apply hec x hxb
            · simp [headEvents, htn]

/-- The thread after one that is unlinked takes over its events. -/
theorem unlink_events (hnodup : (a ++ t :: b).Nodup)
    (hec : ∀ x ∈ (a ++ t :: b).tail, k.ec x = 0) (hnext : k.next t = b.head?) :
  (∀ x ∈ (a ++ b).tail, (k.unlink r a.getLast? t).ec x = 0) ∧
    (a ++ b ≠ [] →
      headEvents (k.unlink r a.getLast? t).ec (a ++ b) = headEvents k.ec (a ++ t :: b))
  := by
  rw [List.nodup_middle, List.nodup_cons] at hnodup
  obtain ⟨ht, hnodup⟩ := hnodup
  have hplace : a.getLast? ≠ some t := by
    intro hlast
    apply ht (List.mem_append_left _ (List.mem_of_getLast? hlast))
  have hcases := unlink_ec (k := k) (r := r) hplace
  rw [hnext] at hcases
  cases a with
  | cons m a =>
      -- The first thread stays, so that the one that goes counts nothing.
      have hzero : k.ec t = 0 := hec t (List.mem_append_right a List.mem_cons_self)
      rw [if_pos hzero] at hcases
      rw [hcases]
      refine ⟨?_, fun _ => rfl⟩
      intro x hx
      apply hec x
      rcases List.mem_append.mp hx with hx | hx
      · apply List.mem_append_left _ hx
      · apply List.mem_append_right _ (List.mem_cons_of_mem t hx)
  | nil =>
      cases b with
      | nil => simp
      | cons n b =>
          have hn : k.ec n = 0 := hec n List.mem_cons_self
          have hnt : n ≠ t := by
            rintro rfl
            apply ht List.mem_cons_self
          have hmoved : (k.unlink r none t).ec
              = Function.update (Function.update k.ec n (k.ec t)) t 0 := by
            refine hcases.trans ?_
            split
            · rename_i hzero
              rw [hzero, ← hn, Function.update_eq_self, hn, ← hzero, Function.update_eq_self]
            · rfl
          rw [List.getLast?_nil, hmoved]
          refine ⟨?_, fun _ => by simp [headEvents, hnt]⟩
          intro x hx
          have hxt : x ≠ t := by
            rintro rfl
            apply ht (List.mem_cons_of_mem n hx)
          have hxn : x ≠ n := by
            rintro rfl
            apply (List.nodup_cons.mp hnodup).1 hx
          rw [Function.update_of_ne hxt, Function.update_of_ne hxn]
          apply hec x (List.mem_cons_of_mem n hx)

namespace IsQueue

/-- The threads in front of a place and behind it. -/
theorem segments (h : k.IsQueue r (a ++ b)) {p : Option T} (hp : k.head r = .ptr p) :
  Segment k.next p a b.head? ∧ Chain.IsChain k.next b.head? b
  := by
  have hchain := h.chain p hp
  rw [Chain.IsChain, segment_append] at hchain
  obtain ⟨q, ha, hb⟩ := hchain
  obtain rfl := Chain.IsChain.head?_eq hb
  exact ⟨ha, hb⟩

/-- A thread is linked in between the threads of `a` and those of `b`. -/
theorem link (h : k.IsQueue r (a ++ b)) {p : Option T} (hp : k.head r = .ptr p)
    (ht : t ∉ a ++ b) (hzero : k.ec t = 0) :
  (k.link r a.getLast? b.head? t).IsQueue r (a ++ t :: b) ∧
    (k.link r a.getLast? b.head? t).pending r = k.pending r
  := by
  obtain ⟨ha, hb⟩ := h.segments hp
  obtain ⟨hec, hevents⟩ := link_events (r := r) h.nodup h.ec ht hzero
  have hnodup := List.nodup_append'.mp h.nodup
  have htab := ht
  rw [List.mem_append, not_or] at htab
  have hplace : a.getLast? ≠ some t := fun hlast => htab.1 (List.mem_of_getLast? hlast)
  have hsplice : splice (Function.update k.next t b.head?) p a.getLast? (some t)
      = ((splice k.next p a.getLast? (some t)).1,
        Function.update (splice k.next p a.getLast? (some t)).2 t b.head?) :=
    splice_update hplace
  have hhead : (k.link r a.getLast? b.head? t).head r
      = .ptr (splice k.next p a.getLast? (some t)).1 := by
    have hp' : ({ k with next := Function.update k.next t b.head? } : Links T R).head r
        = .ptr p := hp
    rw [link_head, store_head_self _ _ hp']
    dsimp only
    rw [hsplice]
  have hqueue : (k.link r a.getLast? b.head? t).IsQueue r (a ++ t :: b) := by
    constructor
    case signaled =>
      intro hsignaled
      rw [hhead] at hsignaled
      cases hsignaled
    case chain =>
      intro q hq
      obtain rfl := Qhead.ptr.inj (hhead.symm.trans hq)
      rw [link_next, store_next p]
      dsimp only
      rw [hsplice]
      apply isChain_link hnodup.1 hnodup.2.2 htab.1 htab.2 ha hb
    case nodup => apply List.nodup_middle.mpr (List.nodup_cons.mpr ⟨ht, h.nodup⟩)
    case ec => exact hec
  refine ⟨hqueue, ?_⟩
  rw [hqueue.pending_eq hhead, hevents, h.pending_eq hp]

/-- The thread behind those of `a` is unlinked. -/
theorem unlink (h : k.IsQueue r (a ++ t :: b)) {p : Option T} (hp : k.head r = .ptr p) :
  (k.unlink r a.getLast? t).IsQueue r (a ++ b) ∧
    (a ++ b ≠ [] → (k.unlink r a.getLast? t).pending r = k.pending r)
  := by
  obtain ⟨ha, htb⟩ := h.segments hp
  have hb : Chain.IsChain k.next (k.next t) b := htb.2
  obtain ⟨hec, hevents⟩ := unlink_events (r := r) h.nodup h.ec (Chain.IsChain.head?_eq hb).symm
  have hnodup := h.nodup
  rw [List.nodup_middle, List.nodup_cons] at hnodup
  obtain ⟨ht, hnodup⟩ := hnodup
  have hparts := List.nodup_append'.mp hnodup
  have hhead : (k.unlink r a.getLast? t).head r
      = .ptr (splice k.next p a.getLast? (k.next t)).1 := by
    rw [unlink_head, store_head_self _ _ hp]
  have hqueue : (k.unlink r a.getLast? t).IsQueue r (a ++ b) := by
    constructor
    case signaled =>
      intro hsignaled
      rw [hhead] at hsignaled
      cases hsignaled
    case chain =>
      intro q hq
      obtain rfl := Qhead.ptr.inj (hhead.symm.trans hq)
      rw [unlink_next, store_next p]
      apply (segment_update ht).mpr
      apply isChain_splice hparts.1 hparts.2.2 ha hb
    case nodup => exact hnodup
    case ec => exact hec
  refine ⟨hqueue, fun hne => ?_⟩
  rw [hqueue.pending_eq hhead, hevents hne, h.pending_eq hp]

/-- The event counter of a thread that is on no place of the queue can be written. -/
theorem set_ec (h : k.IsQueue r l) (ht : t ∉ l) (c : UInt8) (queue : T → Option R) :
  ({ k with ec := Function.update k.ec t c, queue } : Links T R).IsQueue r l ∧
    ({ k with ec := Function.update k.ec t c, queue } : Links T R).pending r = k.pending r
  := by
  have hne {x : T} (hx : x ∈ l) : x ≠ t := by
    rintro rfl
    apply ht hx
  constructor
  · refine ⟨h.signaled, h.chain, h.nodup, fun x hx => ?_⟩
    exact (Function.update_of_ne (hne (List.mem_of_mem_tail hx)) _ _).trans (h.ec x hx)
  · simp only [pending]
    cases hr : k.head r with
    | signaled => rfl
    | ptr p =>
        cases p with
        | none => rfl
        | some x =>
            have hx : x ∈ l := List.mem_of_mem_head? (h.chain _ hr).head?_eq
            dsimp only
            rw [Function.update_of_ne (hne hx)]

variable [Fintype T]

/-- The walk over the threads of the queue. -/
theorem skip_eq (h : k.IsQueue r l) {p : Option T} (hp : k.head r = .ptr p) (keep : T → Bool) :
  skip k.next keep (Fintype.card T) none p
    = some ((l.takeWhile keep).getLast?, (l.dropWhile keep).head?)
  := Links.skip_eq keep [] (h.chain p hp) h.nodup.length_le_card

/-- An insertion puts the thread behind those that are kept, and conserves the events. -/
theorem insert (h : k.IsQueue r l) (keep : T → Bool) (ht : t ∉ l) :
  ∃ k', k.queueInsert keep r t = some k' ∧ k'.IsQueue r (insertBehind keep t l) ∧
    k'.pending r = k.pending r
  := by
  cases hr : k.head r with
  | signaled =>
      obtain rfl := h.signaled hr
      simp only [queueInsert, hr]
      refine ⟨_, rfl, ?_, ?_⟩
      · constructor <;> simp [Links.link, store, insertBehind, Chain.IsChain]
      · simp [pending, hr, Links.link, store]
  | ptr p =>
      obtain ⟨hqueue, hpending⟩ := h.set_ec ht 0 (Function.update k.queue t (some r))
      have hskip := hqueue.skip_eq hr keep
      rw [← List.takeWhile_append_dropWhile (p := keep) (l := l)] at hqueue ht
      obtain ⟨hlink, hsame⟩ := hqueue.link hr ht (Function.update_self t 0 k.ec)
      simp only [queueInsert, hr]
      rw [hskip]
      exact ⟨_, rfl, hlink, hsame.trans hpending⟩

/-- A removal takes the thread off the queue, and conserves the events when another one is left. -/
theorem remove (h : k.IsQueue r l) (ht : t ∈ l) :
  ∃ k', k.rrSharedQueueRemove r t = some (k', -EOK) ∧ k'.IsQueue r (l.erase t) ∧
    (l.erase t ≠ [] → k'.pending r = k.pending r)
  := by
  cases hr : k.head r with
  | signaled =>
      rw [h.signaled hr] at ht
      cases ht
  | ptr p =>
      have hskip := h.skip_eq hr fun thread => decide (thread ≠ t)
      obtain ⟨a, b, rfl, hta⟩ := List.eq_append_cons_of_mem ht
      obtain ⟨htake, hdrop⟩ := walk_to rfl hta
      rw [htake, hdrop] at hskip
      obtain ⟨hqueue, hpending⟩ := h.unlink hr
      rw [List.erase_append_right _ hta, List.erase_cons_head]
      refine ⟨_, ?_, hqueue, hpending⟩
      simp only [rrSharedQueueRemove, hr, hskip]
      rfl

/-- The removal of a thread that is not on the queue fails, and changes nothing. -/
theorem remove_notMem (h : k.IsQueue r l) (ht : t ∉ l) :
  k.rrSharedQueueRemove r t = some (k, -EINVAL)
  := by
  cases hr : k.head r with
  | signaled => simp only [rrSharedQueueRemove, hr]
  | ptr p =>
      have hskip := h.skip_eq hr fun thread => decide (thread ≠ t)
      rw [walk_past ht] at hskip
      simp only [rrSharedQueueRemove, hr, hskip]
      rfl

end IsQueue

variable [Fintype T]

/-- The insertion of a scheduling class walks over the threads up to the priority value. -/
theorem classInsert_eq (c : SchedClass) (prio : T → ℕ) (k : Links T R) (r : R) (t : T) :
  k.classInsert c prio r t = k.queueInsert (fun x => c.key prio x ≤ c.key prio t) r t
  := by
  cases c with
  | rr => rfl
  | fifo => simp [classInsert, fifoQueueInsert, SchedClass.key]

/-- An insertion adds the thread to the queue, behind those that have arrived before with the same
priority value, and a removal takes it off.  Only the first thread counts events afterwards, and as
many are pending as before unless the queue is left empty.  The removal of a thread that is not on
the queue fails. -/
theorem queue_conserved (c : SchedClass) (prio : T → ℕ) (k : Links T R) (r : R) (l : List T)
    (h : k.IsQueue r l) (t : T) :
  (t ∉ l → ∃ k' l', k.classInsert c prio r t = some k' ∧ k'.IsQueue r l' ∧ l'.Perm (t :: l) ∧
      (∀ arrival : T → ℕ, StableBy (c.key prio) arrival l → (∀ x ∈ l, arrival x < arrival t) →
        StableBy (c.key prio) arrival l') ∧
      k'.pending r = k.pending r) ∧
    (t ∈ l → ∃ k', k.rrSharedQueueRemove r t = some (k', -EOK) ∧ k'.IsQueue r (l.erase t) ∧
      (∀ arrival : T → ℕ, StableBy (c.key prio) arrival l →
        StableBy (c.key prio) arrival (l.erase t)) ∧
      (l.erase t ≠ [] → k'.pending r = k.pending r)) ∧
    (t ∉ l → k.rrSharedQueueRemove r t = some (k, -EINVAL))
  := by
  refine ⟨fun ht => ?_, fun ht => ?_, h.remove_notMem⟩
  · obtain ⟨k', hk', hqueue, hpending⟩ := h.insert (fun x => c.key prio x ≤ c.key prio t) ht
    refine ⟨k', _, ?_, hqueue, perm_insertBehind, ?_, hpending⟩
    · rw [classInsert_eq, hk']
    · intro arrival hstable hlast
      apply hstable.insertBehind _ hlast
      simp
  · obtain ⟨k', hk', hqueue, hpending⟩ := h.remove ht
    refine ⟨k', hk', hqueue, ?_, hpending⟩
    intro arrival hstable
    apply hstable.sublist List.erase_sublist

/-- A queue of two threads, with two events. -/
def twoWaiting : Links (Fin 3) Unit where
  head _ := .ptr (some 0)
  next t := if t = 0 then some 1 else none
  queue t := if t = 2 then none else some ()
  ec t := if t = 0 then 2 else 0

theorem twoWaiting_isQueue : twoWaiting.IsQueue () [0, 1] := by
  constructor
  case signaled => simp [twoWaiting]
  case chain =>
    intro p hp
    obtain rfl := Qhead.ptr.inj hp
    exact ⟨rfl, rfl, rfl⟩
  case nodup => decide
  case ec => decide

/-- A thread of the smallest priority value goes to the front, with both events, and the first
thread gives them on when it is removed. -/
theorem queue_conserved_two :
  (∃ k' l', twoWaiting.classInsert .rr (fun t => if t = 2 then 1 else 7) () 2 = some k' ∧
      k'.IsQueue () l' ∧ l'.Perm [2, 0, 1] ∧ k'.pending () = 2) ∧
    ∃ k', twoWaiting.rrSharedQueueRemove () 0 = some (k', -EOK) ∧ k'.IsQueue () [1] ∧
      k'.pending () = 2
  := by
  constructor
  · obtain ⟨k', l', hk', hqueue, hperm, -, hpending⟩ :=
      (queue_conserved .rr (fun t => if t = 2 then 1 else 7) twoWaiting () [0, 1]
        twoWaiting_isQueue 2).1 (by decide)
    exact ⟨k', l', hk', hqueue, hperm, hpending⟩
  · obtain ⟨k', hk', hqueue, -, hpending⟩ :=
      (queue_conserved .rr (fun t => if t = 2 then 1 else 7) twoWaiting () [0, 1]
        twoWaiting_isQueue 0).2.1 (by decide)
    exact ⟨k', hk', hqueue, hpending (by decide)⟩

end Links

end Etaos
