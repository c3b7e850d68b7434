import Etaos.Sched.Queue
import Mathlib.Data.List.Nodup
import Mathlib.Data.List.TakeWhile

/-!
# The list operations on represented lists

On links that represent lists, an insertion is an insertion into the list, behind the
threads that are kept, and a removal is `List.erase`.  Neither touches another queue.
-/

set_option linter.unusedSectionVars false

namespace Etaos

open Chain

/-- Queues whose heads are `NULL` are empty. -/
theorem linked_nil {T R : Type} {k : Links T R} (hhead : ∀ r, k.head r = .ptr none) :
  Linked k fun _ => []
  := by
  constructor
  case signaled =>
    intro _ _
    rfl
  case chain =>
    intro r p hp
    exact (Qhead.ptr.inj ((hhead r).symm.trans hp)).symm
  case nodup =>
    intro _
    apply List.nodup_nil
  case queue =>
    intro _ _ ht
    cases ht

/-- The first element of a list that a walk does not pass over. -/
theorem of_dropWhile_eq_cons {α : Type} {keep : α → Bool} {l l' : List α} {a : α}
    (h : l.dropWhile keep = a :: l') :
  a ∈ l ∧ keep a = false
  := by
  have hne : l.dropWhile keep ≠ [] := by
    rw [h]
    apply List.cons_ne_nil
  constructor
  · apply (List.dropWhile_suffix keep).subset
    rw [h]
    apply List.mem_cons_self
  · have hhead := List.head_dropWhile_not keep hne
    simpa only [h, List.head_cons] using hhead

/-- The walk to a thread on a list stops behind the threads before it. -/
theorem walk_to {α : Type} [DecidableEq α] {l a b : List α} {t : α} (hab : l = a ++ t :: b)
    (ht : t ∉ a) :
  l.takeWhile (fun x => decide (x ≠ t)) = a ∧ l.dropWhile (fun x => decide (x ≠ t)) = t :: b
  := by
  have hpos : ∀ x ∈ a, decide (x ≠ t) = true := by
    intro x hx
    rw [decide_eq_true_eq]
    rintro rfl
    apply ht hx
  rw [hab, List.takeWhile_append_of_pos hpos, List.dropWhile_append_of_pos hpos]
  simp

/-- The walk to a thread that is not on a list meets the end of the list. -/
theorem walk_past {α : Type} [DecidableEq α] {l : List α} {t : α} (ht : t ∉ l) :
  l.dropWhile (fun x => decide (x ≠ t)) = []
  := by
  rw [List.dropWhile_eq_nil_iff]
  intro x hx
  rw [decide_eq_true_eq]
  rintro rfl
  apply ht hx

namespace Links

variable {T R : Type} [DecidableEq T] [DecidableEq R] {k : Links T R} {r : R}

@[simp]
theorem store_queue (place v : Option T) : (k.store r place v).queue = k.queue := by
  cases place <;> rfl

@[simp]
theorem store_ec (place v : Option T) : (k.store r place v).ec = k.ec := by
  cases place <;> rfl

theorem store_next (p place v : Option T) :
  (k.store r place v).next = (splice k.next p place v).2
  := by
  cases place <;> rfl

theorem store_head_self {p : Option T} (place v : Option T) (h : k.head r = .ptr p) :
  (k.store r place v).head r = .ptr (splice k.next p place v).1
  := by
  cases place with
  | none => simp [store, splice]
  | some a => simpa [store, splice] using h

theorem store_head_of_ne {r' : R} (place v : Option T) (h : r' ≠ r) :
  (k.store r place v).head r' = k.head r'
  := by
  cases place with
  | none => simp [store, h]
  | some a => rfl

/-- A walk over a chain ends before the first thread that is not kept, and leaves the
place behind the last thread that is. -/
theorem skip_eq {next : T → Option T} (keep : T → Bool) :
    ∀ {n : Nat} {p : Option T} {l : List T} (before : List T), Chain.IsChain next p l →
      l.length ≤ n → skip next keep n before.getLast? p
        = some ((before ++ l.takeWhile keep).getLast?, (l.dropWhile keep).head?)
  | n, p, [], before, h, _ => by
      obtain rfl : p = none := h
      cases n <;> simp [skip]
  | n + 1, p, t :: l, before, h, hlen => by
      obtain ⟨rfl, h⟩ := h
      cases ht : keep t with
      | false => simp [skip, ht, List.takeWhile, List.dropWhile]
      | true =>
          have ih := skip_eq keep (before ++ [t]) h (Nat.le_of_succ_le_succ hlen)
          rw [List.getLast?_append_of_ne_nil _ (List.cons_ne_nil t []),
            List.getLast?_singleton, List.append_assoc, List.singleton_append] at ih
          rw [List.takeWhile_cons_of_pos ht, List.dropWhile_cons_of_pos ht, ← ih]
          simp [skip, ht]

theorem toList_eq {next : T → Option T} :
    ∀ {n : Nat} {p : Option T} {l : List T}, Chain.IsChain next p l → l.length ≤ n →
      toList next n p = l
  | n, p, [], h, _ => by
      obtain rfl : p = none := h
      cases n <;> rfl
  | n + 1, p, t :: l, h, hlen => by
      obtain ⟨rfl, h⟩ := h
      rw [toList, toList_eq h (Nat.le_of_succ_le_succ hlen)]

end Links

variable {T R : Type} [DecidableEq T] [DecidableEq R] {k : Links T R} {L : R → List T}

namespace Linked

/-- A thread is on one list. -/
theorem root_unique (h : Linked k L) {r r' : R} {t : T} (hr : t ∈ L r) (hr' : t ∈ L r') :
  r = r'
  := by
  have := h.queue r t hr
  rw [h.queue r' t hr'] at this
  apply Option.some.inj this.symm

theorem disjoint (h : Linked k L) {r r' : R} (hne : r' ≠ r) {a : T} (ha : a ∈ L r') :
  a ∉ L r
  := by
  intro har
  apply hne (h.root_unique ha har)

/-- A head that is a pointer points to the first thread of the list. -/
theorem head_eq (h : Linked k L) {r : R} {p : Option T} (hp : k.head r = .ptr p) :
  (L r).head? = p
  := (h.chain r p hp).head?_eq

theorem head_of_cons (h : Linked k L) {r : R} {t : T} {l : List T} (hl : L r = t :: l) :
  k.head r = .ptr (some t)
  := by
  cases hr : k.head r with
  | signaled => simp [h.signaled r hr] at hl
  | ptr p => simp [← h.head_eq hr, hl]

/-- Links represent the lists of one family only. -/
theorem unique (h : Linked k L) {L' : R → List T} (h' : Linked k L') : L = L' := by
  funext r
  cases hr : k.head r with
  | signaled => rw [h.signaled r hr, h'.signaled r hr]
  | ptr p => apply Chain.IsChain.unique (h.chain r p hr) (h'.chain r p hr)

/-- A walk over the list of a queue. -/
theorem skip_eq [Fintype T] (h : Linked k L) {r : R} {p : Option T}
    (hp : k.head r = .ptr p) (keep : T → Bool) :
  Links.skip k.next keep (Fintype.card T) none p
    = some (((L r).takeWhile keep).getLast?, ((L r).dropWhile keep).head?)
  := by
  have hlen := (h.nodup r).length_le_card
  apply Links.skip_eq keep [] (h.chain r p hp) hlen

/-- Splitting the list of a queue in front of the place `a.getLast?`. -/
theorem segments (h : Linked k L) {r : R} {p : Option T} (hp : k.head r = .ptr p)
    {a b : List T} (hab : L r = a ++ b) :
  Segment k.next p a b.head? ∧ Chain.IsChain k.next b.head? b
  := by
  have hc := h.chain r p hp
  rw [hab, Chain.IsChain, segment_append] at hc
  obtain ⟨q, ha, hb⟩ := hc
  obtain rfl : b.head? = q := Chain.IsChain.head?_eq hb
  use ha, hb

/-- Clearing the mark `SIGNALED`, or setting it on an empty queue, changes no list. -/
theorem set_head (h : Linked k L) {r : R} {v : Qhead T} (hr : L r = [])
    (hv : v = .signaled ∨ v = .ptr none) :
  Linked { k with head := Function.update k.head r v } L
  := by
  constructor
  · intro r' h'
    by_cases hne : r' = r
    · rw [hne, hr]
    · apply h.signaled r'
      simpa [hne] using h'
  · intro r' p h'
    by_cases hne : r' = r
    · subst hne
      rw [hr]
      rcases hv with rfl | rfl
      · simp at h'
      · simp at h'
        apply h'.symm
    · apply h.chain r' p
      simpa [hne] using h'
  · apply h.nodup
  · apply h.queue

/-- The event counters are no part of the lists. -/
theorem set_ec (h : Linked k L) (ec : T → UInt8) :
  Linked { k with ec := ec } L
  := ⟨h.signaled, h.chain, h.nodup, h.queue⟩

/-- The record of a thread that is on no list can be cleared. -/
theorem clear (h : Linked k L) {t : T} (ht : ∀ r, t ∉ L r) : Linked (k.clear t) L := by
  constructor
  · exact h.signaled
  · intro r p hp
    apply (segment_update (ht r)).mpr
    apply h.chain r p hp
  · exact h.nodup
  · intro r x hx
    have hne : x ≠ t := by
      rintro rfl
      apply ht r hx
    apply (Function.update_of_ne hne _ _).trans
    apply h.queue r x hx

/-- A thread without a root pointer is on no list. -/
theorem notMem (h : Linked k L) {t : T} (ht : k.queue t = none) (r : R) : t ∉ L r := by
  intro hmem
  have hqueue := h.queue r t hmem
  simp [ht] at hqueue

/-- Putting the mark `SIGNALED` over a list forgets its threads. -/
theorem forget (h : Linked k L) (r : R) :
  Linked { k with head := Function.update k.head r .signaled } (Function.update L r [])
  := by
  constructor
  · intro r' h'
    by_cases hne : r' = r
    · simp [hne]
    · simp only [Function.update_of_ne hne] at h' ⊢
      apply h.signaled r' h'
  · intro r' p h'
    by_cases hne : r' = r
    · simp [hne] at h'
    · simp only [Function.update_of_ne hne] at h' ⊢
      apply h.chain r' p h'
  · intro r'
    by_cases hne : r' = r
    · simp [hne]
    · simp only [Function.update_of_ne hne]
      apply h.nodup r'
  · intro r' t
    by_cases hne : r' = r
    · simp [hne]
    · simp only [Function.update_of_ne hne]
      apply h.queue r' t

/-- The links change at one queue only: its new list is represented, and the other lists
are met as before. -/
theorem update_list (h : Linked k L) {k' : Links T R} {r : R} {p : Option T} {l : List T}
    (hhead : k'.head r = .ptr p) (hchain : Chain.IsChain k'.next p l) (hnodup : l.Nodup)
    (hqueue : ∀ t ∈ l, k'.queue t = some r)
    (hother : ∀ r', r' ≠ r → k'.head r' = k.head r' ∧
      (∀ q, Segment k.next q (L r') none → Segment k'.next q (L r') none) ∧
      ∀ t ∈ L r', k'.queue t = k.queue t) :
  Linked k' (Function.update L r l)
  := by
  constructor
  · intro r' h'
    by_cases hne : r' = r
    · subst hne
      cases hhead.symm.trans h'
    · rw [Function.update_of_ne hne]
      apply h.signaled r'
      rw [← (hother r' hne).1, h']
  · intro r' p' h'
    by_cases hne : r' = r
    · subst hne
      obtain rfl := Qhead.ptr.inj (hhead.symm.trans h')
      rw [Function.update_self]
      apply hchain
    · rw [Function.update_of_ne hne]
      apply (hother r' hne).2.1
      apply h.chain r' p'
      rw [← (hother r' hne).1, h']
  · intro r'
    by_cases hne : r' = r
    · subst hne
      rw [Function.update_self]
      apply hnodup
    · rw [Function.update_of_ne hne]
      apply h.nodup r'
  · intro r' t ht
    by_cases hne : r' = r
    · subst hne
      rw [Function.update_self] at ht
      apply hqueue t ht
    · rw [Function.update_of_ne hne] at ht
      rw [(hother r' hne).2.2 t ht]
      apply h.queue r' t ht

end Linked

/-! ### Insertion -/

namespace Links

variable {r : R}

@[simp]
theorem link_queue (k : Links T R) (r : R) (place thread : Option T) (tp : T) :
  (k.link r place thread tp).queue = k.queue
  := by
  simp only [link]
  split
  · simp
  · split <;> simp

theorem link_head (k : Links T R) (r : R) (place thread : Option T) (tp : T) :
  (k.link r place thread tp).head
    = ({ k with next := Function.update k.next tp thread }.store r place (some tp)).head
  := by
  simp only [link]
  split
  · rfl
  · split <;> rfl

theorem link_next (k : Links T R) (r : R) (place thread : Option T) (tp : T) :
  (k.link r place thread tp).next
    = ({ k with next := Function.update k.next tp thread }.store r place (some tp)).next
  := by
  simp only [link]
  split
  · rfl
  · split <;> rfl

theorem store_head_ne_signaled (place v : Option T) (h : k.head r ≠ .signaled) :
  (k.store r place v).head r ≠ .signaled
  := by
  cases place with
  | none => simp [store]
  | some a => exact h

/-- An insertion leaves the queue with a thread at its head, and the heads of the other
queues alone. -/
theorem queueInsert_head [Fintype T] {keep : T → Bool} {tp : T} {k' : Links T R}
    (hk : k.queueInsert keep r tp = some k') :
  k'.head r ≠ .signaled ∧ ∀ r', r' ≠ r → k'.head r' = k.head r'
  := by
  rw [queueInsert] at hk
  dsimp only at hk
  split at hk
  · obtain rfl := Option.some.inj hk
    simp only [link_head]
    constructor
    · simp [store]
    · intro r' hne
      apply store_head_of_ne _ _ hne
  · rename_i p hp
    obtain ⟨⟨place, thread⟩, -, rfl⟩ := Option.map_eq_some_iff.mp hk
    simp only [link_head]
    constructor
    · apply store_head_ne_signaled
      simp [hp]
    · intro r' hne
      apply store_head_of_ne _ _ hne

/-- An insertion sets the root pointer of the thread. -/
theorem queueInsert_queue [Fintype T] {keep : T → Bool} {tp : T} {k' : Links T R}
    (hk : k.queueInsert keep r tp = some k') :
  k'.queue = Function.update k.queue tp (some r)
  := by
  rw [queueInsert] at hk
  dsimp only at hk
  split at hk
  · obtain rfl := Option.some.inj hk
    apply link_queue
  · obtain ⟨⟨place, thread⟩, -, rfl⟩ := Option.map_eq_some_iff.mp hk
    apply link_queue

end Links

namespace Linked

/-- Linking a thread that is on no list in behind the threads of `a`. -/
theorem link (h : Linked k L) {r : R} {p : Option T} (hp : k.head r = .ptr p)
    {a b : List T} (hab : L r = a ++ b) {t : T} (ht : ∀ r', t ∉ L r') :
  Linked ({ k with queue := Function.update k.queue t (some r) }.link r a.getLast? b.head? t)
    (Function.update L r (a ++ t :: b))
  := by
  obtain ⟨ha, hb⟩ := h.segments hp hab
  have hnodup := h.nodup r
  have htab := ht r
  rw [hab] at hnodup htab
  rw [List.mem_append, not_or] at htab
  rw [List.nodup_append'] at hnodup
  set next := Function.update k.next t b.head? with hnext
  have ha' : Segment next p a b.head? := (segment_update htab.1).mpr ha
  have hb' : Chain.IsChain next b.head? b := (segment_update htab.2).mpr hb
  have htt : (splice next p a.getLast? (some t)).2 t = b.head? := by
    cases hl : a.getLast? with
    | none => simp [splice, hnext]
    | some x =>
        have hx : t ≠ x := fun e => htab.1 (e ▸ List.mem_of_getLast? hl)
        simp [splice, hnext, hx]
  apply h.update_list (p := (splice next p a.getLast? (some t)).1)
  · rw [Links.link_head]
    apply Links.store_head_self
    apply hp
  · rw [Links.link_next, Links.store_next p, Chain.IsChain, segment_middle]
    use segment_splice hnodup.1 ha'
    rw [htt]
    apply (segment_splice_of_disjoint hnodup.2.2).mpr hb'
  · apply List.nodup_append'.mpr
    refine ⟨hnodup.1, List.nodup_cons.mpr ⟨htab.2, hnodup.2.1⟩, ?_⟩
    rw [List.disjoint_cons_right]
    use htab.1, hnodup.2.2
  · intro x hx
    rw [Links.link_queue]
    by_cases hxt : x = t
    · simp [hxt]
    · have hxL : x ∈ L r := by
        rw [hab]
        simpa [hxt] using hx
      simp [hxt, h.queue r x hxL]
  · intro r' hne
    refine ⟨?_, ?_, ?_⟩
    · rw [Links.link_head]
      apply Links.store_head_of_ne _ _ hne
    · intro q hq
      rw [Links.link_next, Links.store_next p]
      have hdisjoint : ∀ x ∈ a, x ∉ L r' := by
        intro x hx hxr'
        apply h.disjoint hne hxr'
        rw [hab]
        apply List.mem_append_left _ hx
      apply (segment_splice_of_disjoint hdisjoint).mpr
      apply (segment_update (ht r')).mpr hq
    · intro x hx
      have hxt : x ≠ t := by
        rintro rfl
        apply ht r' hx
      simp [hxt]

/-- The insertion of a thread that is on no list puts it behind the threads kept. -/
theorem insert [Fintype T] (h : Linked k L) (keep : T → Bool) (r : R) {t : T}
    (ht : ∀ r', t ∉ L r') :
  ∃ k', k.queueInsert keep r t = some k' ∧
    Linked k' (Function.update L r ((L r).takeWhile keep ++ t :: (L r).dropWhile keep))
  := by
  cases hr : k.head r with
  | signaled =>
      have hL := h.signaled r hr
      have h' : Linked { k with
          head := Function.update k.head r (.ptr none)
          ec := Function.update k.ec t (0 + 1) } L :=
        (h.set_head hL (.inr rfl)).set_ec _
      have hlink := h'.link (p := none) (by simp) (a := []) (b := []) hL ht
      simp only [Links.queueInsert, hr, hL]
      refine ⟨_, rfl, ?_⟩
      simpa [Links.link, Links.store] using hlink
  | ptr p =>
      have h' : Linked { k with ec := Function.update k.ec t 0 } L := h.set_ec _
      have hlink := h'.link hr (List.takeWhile_append_dropWhile (p := keep) (l := L r)).symm ht
      simp only [Links.queueInsert, hr]
      rw [h.skip_eq hr keep]
      refine ⟨_, rfl, hlink⟩

end Linked

/-! ### Removal -/

namespace Links

variable {r : R}

@[simp]
theorem unlink_queue (k : Links T R) (r : R) (place : Option T) (tp : T) :
  (k.unlink r place tp).queue = Function.update k.queue tp none
  := by
  simp only [unlink]
  split
  · simp
  · split <;> simp

theorem unlink_head (k : Links T R) (r : R) (place : Option T) (tp : T) :
  (k.unlink r place tp).head = (k.store r place (k.next tp)).head
  := by
  simp only [unlink]
  split
  · rfl
  · split <;> rfl

theorem unlink_next (k : Links T R) (r : R) (place : Option T) (tp : T) :
  (k.unlink r place tp).next
    = Function.update (k.store r place (k.next tp)).next tp none
  := by
  simp only [unlink]
  split
  · rfl
  · split <;> rfl

/-- A removal puts no mark on the queue, and leaves the heads of the other queues alone. -/
theorem rrSharedQueueRemove_head [Fintype T] {tp : T} {k' : Links T R} {rc : Int}
    (hk : k.rrSharedQueueRemove r tp = some (k', rc)) :
  (k.head r ≠ .signaled → k'.head r ≠ .signaled) ∧ ∀ r', r' ≠ r → k'.head r' = k.head r'
  := by
  rw [rrSharedQueueRemove] at hk
  split at hk
  · obtain ⟨rfl, -⟩ := Prod.mk.inj (Option.some.inj hk)
    use id
    intro _ _
    rfl
  · obtain ⟨⟨place, thread⟩, -, hk⟩ := Option.map_eq_some_iff.mp hk
    cases thread with
    | none =>
        obtain ⟨rfl, -⟩ := Prod.mk.inj hk
        use id
        intro _ _
        rfl
    | some t =>
        obtain ⟨rfl, -⟩ := Prod.mk.inj hk
        simp only [unlink_head]
        use store_head_ne_signaled _ _
        intro r' hne
        apply store_head_of_ne _ _ hne

/-- A removal that succeeds clears the root pointer of the thread, and one that fails changes
nothing. -/
theorem rrSharedQueueRemove_queue [Fintype T] {tp : T} {k' : Links T R} {rc : Int}
    (hk : k.rrSharedQueueRemove r tp = some (k', rc)) :
  (rc = -EINVAL ∧ k' = k) ∨ (rc = -EOK ∧ k'.queue = Function.update k.queue tp none)
  := by
  rw [rrSharedQueueRemove] at hk
  split at hk
  · obtain ⟨rfl, rfl⟩ := Prod.mk.inj (Option.some.inj hk)
    exact .inl ⟨rfl, rfl⟩
  · obtain ⟨⟨place, thread⟩, -, hk⟩ := Option.map_eq_some_iff.mp hk
    cases thread with
    | none =>
        obtain ⟨rfl, rfl⟩ := Prod.mk.inj hk
        exact .inl ⟨rfl, rfl⟩
    | some t =>
        obtain ⟨rfl, rfl⟩ := Prod.mk.inj hk
        exact .inr ⟨rfl, unlink_queue _ _ _ _⟩

end Links

namespace Linked

/-- Unlinking the thread behind the threads of `a`. -/
theorem unlink (h : Linked k L) {r : R} {p : Option T} (hp : k.head r = .ptr p)
    {a b : List T} {t : T} (hab : L r = a ++ t :: b) :
  Linked (k.unlink r a.getLast? t) (Function.update L r (a ++ b))
  := by
  obtain ⟨ha, htb⟩ := h.segments hp hab
  have hb : Chain.IsChain k.next (k.next t) b := htb.2
  have hnodup := h.nodup r
  rw [hab, List.nodup_append', List.nodup_cons, List.disjoint_cons_right] at hnodup
  obtain ⟨hna, ⟨htb, hnb⟩, hta, hdisjoint⟩ := hnodup
  have ht : ∀ r', r' ≠ r → t ∉ L r' := by
    intro r' hne htr'
    apply h.disjoint hne htr'
    simp [hab]
  apply h.update_list (p := (splice k.next p a.getLast? (k.next t)).1)
  · rw [Links.unlink_head]
    apply Links.store_head_self _ _ hp
  · rw [Links.unlink_next, Links.store_next p]
    apply (segment_update (by simp [hta, htb])).mpr
    rw [segment_append]
    refine ⟨k.next t, segment_splice hna ha, ?_⟩
    apply (segment_splice_of_disjoint hdisjoint).mpr hb
  · apply List.nodup_append'.mpr ⟨hna, hnb, hdisjoint⟩
  · intro x hx
    have hxt : x ≠ t := by
      rintro rfl
      simp [hta, htb] at hx
    rw [Links.unlink_queue, Function.update_of_ne hxt]
    apply h.queue r
    rw [hab]
    simp only [List.mem_append, List.mem_cons] at hx ⊢
    tauto
  · intro r' hne
    refine ⟨?_, ?_, ?_⟩
    · rw [Links.unlink_head]
      apply Links.store_head_of_ne _ _ hne
    · intro q hq
      rw [Links.unlink_next, Links.store_next p]
      apply (segment_update (ht r' hne)).mpr
      apply (segment_splice_of_disjoint _).mpr hq
      intro x hx hxr'
      apply h.disjoint hne hxr'
      simp [hab, hx]
    · intro x hx
      rw [Links.unlink_queue, Function.update_of_ne]
      rintro rfl
      apply ht r' hne hx

/-- The removal of a thread erases it from the list, and fails when it is not there. -/
theorem remove [Fintype T] (h : Linked k L) (r : R) (t : T) :
  ∃ k', k.rrSharedQueueRemove r t = some (k', if t ∈ L r then -EOK else -EINVAL) ∧
    Linked k' (Function.update L r ((L r).erase t))
  := by
  have hout (ht : t ∉ L r) : Function.update L r ((L r).erase t) = L := by
    rw [List.erase_of_not_mem ht, Function.update_eq_self]
  cases hr : k.head r with
  | signaled =>
      have hL := h.signaled r hr
      have ht : t ∉ L r := by simp [hL]
      refine ⟨k, ?_, ?_⟩
      · simp [Links.rrSharedQueueRemove, hr, ht]
      · rw [hout ht]
        apply h
  | ptr p =>
      have hskip := h.skip_eq hr fun thread => decide (thread ≠ t)
      by_cases ht : t ∈ L r
      · obtain ⟨a, b, hab, hta⟩ := List.eq_append_cons_of_mem ht
        obtain ⟨htake, hdrop⟩ := walk_to hab hta
        rw [htake, hdrop] at hskip
        refine ⟨k.unlink r a.getLast? t, ?_, ?_⟩
        · simp only [Links.rrSharedQueueRemove, hr, hskip, if_pos ht]
          rfl
        · have herase : (L r).erase t = a ++ b := by
            rw [hab, List.erase_append_right _ hta, List.erase_cons_head]
          rw [herase]
          apply h.unlink hr hab
      · rw [walk_past ht] at hskip
        refine ⟨k, ?_, ?_⟩
        · simp only [Links.rrSharedQueueRemove, hr, hskip, if_neg ht]
          rfl
        · rw [hout ht]
          apply h

end Linked

/-! ### Event counters -/

/-- Only the first thread of a list counts events. -/
def EcAtHead (k : Links T R) (L : R → List T) : Prop :=
  ∀ t, k.ec t ≠ 0 → ∃ r, (L r).head? = some t

/-- The events that the first thread of a list counts. -/
def headEc (k : Links T R) (L : R → List T) (r : R) : UInt8 :=
  match (L r).head? with
  | none => 0
  | some t => k.ec t

namespace Links

theorem store_next_of_ne {r : R} {place v : Option T} {t : T} (h : place ≠ some t) :
  (k.store r place v).next t = k.next t
  := by
  cases place with
  | none => rfl
  | some a =>
      have hat : t ≠ a := by
        rintro rfl
        apply h rfl
      simp [store, hat]

/-- The counters after a thread is linked in: they stay, or those of the thread after it go to
it. -/
theorem link_ec {r : R} {place t : Option T} {tp : T} (hplace : place ≠ some tp) :
  ((k.link r place t tp).ec = k.ec ∧ ∀ n, t = some n → k.ec n = 0) ∨
    ∃ n, t = some n ∧ k.ec n ≠ 0 ∧ (k.link r place t tp).ec
      = Function.update (Function.update k.ec tp (k.ec tp + k.ec n)) n 0
  := by
  have hnext : ({ k with next := Function.update k.next tp t }.store r place
      (some tp)).next tp = t := by
    rw [store_next_of_ne hplace]
    apply Function.update_self
  rw [link]
  dsimp only
  rw [hnext]
  cases t with
  | none => simp
  | some n =>
      dsimp only
      rw [store_ec]
      split
      · rename_i hn
        left
        constructor
        · simp
        · rintro m hm
          obtain rfl := Option.some.inj hm
          exact hn
      · rename_i hn
        right
        refine ⟨n, rfl, hn, ?_⟩
        simp

/-- The counters after a thread is unlinked. -/
theorem unlink_ec {r : R} {place : Option T} {tp : T} (hplace : place ≠ some tp) :
  (k.unlink r place tp).ec
    = if k.ec tp = 0 then k.ec
      else match k.next tp with
        | none => Function.update k.ec tp 0
        | some n => Function.update (Function.update k.ec n (k.ec tp)) tp 0
  := by
  rw [unlink]
  simp only [store_ec]
  split
  · simp
  · rw [store_next_of_ne hplace]
    cases k.next tp <;> simp

/-- A thread that counts no event is unlinked, and the counters stay. -/
theorem unlink_ec_of_eq_zero {r : R} {place : Option T} {tp : T} (h : k.ec tp = 0) :
  (k.unlink r place tp).ec = k.ec
  := by
  rw [unlink]
  simp only [store_ec, h, if_true]

/-- The removal of a thread that counts no event. -/
theorem rrSharedQueueRemove_ec [Fintype T] {r : R} {tp : T} {k' : Links T R} {rc : Int}
    (hk' : k.rrSharedQueueRemove r tp = some (k', rc)) (h : k.ec tp = 0) :
  k'.ec = k.ec
  := by
  rw [rrSharedQueueRemove] at hk'
  split at hk'
  · obtain ⟨rfl, -⟩ := Prod.mk.inj (Option.some.inj hk')
    rfl
  · obtain ⟨⟨place, thread⟩, -, hk'⟩ := Option.map_eq_some_iff.mp hk'
    cases thread with
    | none =>
        obtain ⟨rfl, -⟩ := Prod.mk.inj hk'
        rfl
    | some t =>
        obtain ⟨rfl, -⟩ := Prod.mk.inj hk'
        apply unlink_ec_of_eq_zero h

end Links

/-- A thread that is put among threads that count no event counts none itself, when the queue is
not marked. -/
theorem Linked.queueInsert_ec_eq_zero [Fintype T] (h : Linked k L) {keep : T → Bool} {r : R}
    {tp : T} {k' : Links T R} (hr : k.head r ≠ .signaled) (htp : tp ∉ L r)
    (hec : ∀ t ∈ L r, k.ec t = 0) (hk' : k.queueInsert keep r tp = some k') {t : T}
    (ht : t = tp ∨ t ∈ L r) :
  k'.ec t = 0
  := by
  have hzero {u : T} (hu : u ∈ L r) : Function.update k.ec tp 0 u = 0 := by
    rw [Function.update_of_ne, hec u hu]
    rintro rfl
    exact htp hu
  rw [Links.queueInsert] at hk'
  cases hhead : k.head r with
  | signaled => exact absurd hhead hr
  | ptr p =>
      simp only [hhead] at hk'
      rw [h.skip_eq hhead keep] at hk'
      obtain rfl := Option.some.inj hk'
      have hplace : ((L r).takeWhile keep).getLast? ≠ some tp := by
        intro hlast
        apply htp
        apply (List.takeWhile_sublist keep).subset (List.mem_of_getLast? hlast)
      have hcases := Links.link_ec
        (k := { k with
          ec := Function.update k.ec tp 0, queue := Function.update k.queue tp (some r) })
        (r := r) (t := ((L r).dropWhile keep).head?) hplace
      rcases hcases with ⟨hsame, -⟩ | ⟨n, hn, hne, -⟩
      · rw [hsame]
        rcases ht with rfl | ht
        · apply Function.update_self
        · apply hzero ht
      · -- The thread behind it is on the queue, and has nothing to hand over.
        exfalso
        apply hne
        apply hzero
        apply (List.dropWhile_sublist keep).subset (List.mem_of_mem_head? hn)

namespace EcAtHead

/-- A thread on no list counts no event. -/
theorem ec_eq_zero (h : EcAtHead k L) {t : T} (ht : ∀ r, t ∉ L r) : k.ec t = 0 := by
  by_contra hne
  obtain ⟨r, hr⟩ := h t hne
  apply ht r (List.mem_of_mem_head? hr)

/-- A thread on a list that is not the first one counts no event. -/
theorem ec_of_mem (h : EcAtHead k L) (hk : Linked k L) {r : R} {t : T} (ht : t ∈ L r)
    (hhead : (L r).head? ≠ some t) :
  k.ec t = 0
  := by
  by_contra hne
  obtain ⟨r', hr'⟩ := h t hne
  obtain rfl := hk.root_unique (List.mem_of_mem_head? hr') ht
  apply hhead hr'

end EcAtHead

/-- The list of one queue becomes `l`, and its first thread counts `c` events. -/
structure Recounted (k : Links T R) (L : R → List T) (k' : Links T R) (r : R) (l : List T)
    (c : UInt8) : Prop where
  head : ∀ t, l.head? = some t → k'.ec t = c
  tail : ∀ t ∈ l, l.head? ≠ some t → k'.ec t = 0
  gone : ∀ t ∈ L r, t ∉ l → k'.ec t = 0
  other : ∀ t, t ∉ L r → t ∉ l → k'.ec t = k.ec t

namespace Recounted

variable {k' : Links T R} {r : R} {l : List T} {c : UInt8}

/-- Only the first threads of the lists count events afterwards. -/
theorem ecAtHead (hc : Recounted k L k' r l c) (h : EcAtHead k L) :
  EcAtHead k' (Function.update L r l)
  := by
  intro t ht
  by_cases hl : t ∈ l
  · use r
    rw [Function.update_self]
    by_contra hhead
    apply ht (hc.tail t hl hhead)
  · have hL : t ∉ L r := fun hL => ht (hc.gone t hL hl)
    rw [hc.other t hL hl] at ht
    obtain ⟨r', hr'⟩ := h t ht
    use r'
    rwa [Function.update_of_ne]
    rintro rfl
    apply hL (List.mem_of_mem_head? hr')

/-- The counts of the other queues stay. -/
theorem headEc_of_ne (hc : Recounted k L k' r l c) (hk : Linked k L)
    (hl : ∀ t ∈ l, ∀ r', r' ≠ r → t ∉ L r') {r' : R} (hne : r' ≠ r) :
  headEc k' (Function.update L r l) r' = headEc k L r'
  := by
  rw [headEc, headEc, Function.update_of_ne hne]
  cases hhead : (L r').head? with
  | none => rfl
  | some t =>
      have hmem : t ∈ L r' := List.mem_of_mem_head? hhead
      apply hc.other t (hk.disjoint hne hmem)
      intro htl
      apply hl t htl r' hne hmem

/-- The count of the queue itself. -/
theorem headEc_self (hc : Recounted k L k' r l c) (hl : l ≠ []) :
  headEc k' (Function.update L r l) r = c
  := by
  obtain ⟨t, l', rfl⟩ := List.exists_cons_of_ne_nil hl
  rw [headEc, Function.update_self]
  apply hc.head t rfl

/-- Linking a thread that is on no list in behind the threads of `a`. -/
theorem link (h : EcAtHead k L) (hk : Linked k L) {a b : List T} {t : T} (hab : L r = a ++ b)
    (ht : ∀ r', t ∉ L r') {queue : T → Option R} :
  Recounted k L
    ({ k with ec := Function.update k.ec t 0, queue }.link r a.getLast? b.head? t)
    r (a ++ t :: b) (headEc k L r)
  := by
  have hta : t ∉ a ∧ t ∉ b := by
    have := ht r
    rw [hab, List.mem_append, not_or] at this
    apply this
  have hec : Function.update k.ec t 0 = k.ec := by
    rw [← h.ec_eq_zero ht, Function.update_eq_self]
  have hplace : a.getLast? ≠ some t := fun hlast => hta.1 (List.mem_of_getLast? hlast)
  have hzero := h.ec_eq_zero ht
  have hcases := Links.link_ec (k := { k with queue }) (r := r) (t := b.head?) hplace
  rw [hec]
  rcases hcases with ⟨hsame, hb⟩ | ⟨n, hn, hne, hmoved⟩
  · -- The counters stay: the thread is not put before one that counts events.
    dsimp only at hsame hb
    constructor
    case head =>
      intro x hx
      rw [hsame, headEc, hab]
      cases a with
      | nil =>
          obtain rfl := Option.some.inj hx
          rw [hzero, List.nil_append]
          cases hhead : b.head? with
          | none => rfl
          | some n => exact (hb n hhead).symm
      | cons m a =>
          obtain rfl := Option.some.inj hx
          rfl
    case tail =>
      intro x hx hhead
      rw [hsame]
      by_cases hxt : x = t
      · rw [hxt, hzero]
      · have hxL : x ∈ L r := by
          rw [hab]
          simpa [hxt] using hx
        by_cases hxb : (L r).head? = some x
        · rw [hab] at hxb
          cases a with
          | nil => apply hb x hxb
          | cons m a => exact absurd hxb hhead
        · apply h.ec_of_mem hk hxL hxb
    case gone =>
      intro x hx hnot
      exfalso
      apply hnot
      rw [hab] at hx
      simp only [List.mem_append, List.mem_cons] at hx ⊢
      tauto
    case other =>
      intro x _ _
      rw [hsame]
  · -- The thread goes before the first one, and takes over its counter.
    dsimp only at hne hmoved
    rw [hzero, UInt8.zero_add] at hmoved
    have hnb : n ∈ b := List.mem_of_mem_head? hn
    have hnt : n ≠ t := by
      rintro rfl
      apply hta.2 hnb
    have hnL : n ∈ L r := by simp [hab, hnb]
    have hfirst : (L r).head? = some n := by
      by_contra hhead
      apply hne (h.ec_of_mem hk hnL hhead)
    obtain rfl : a = [] := by
      cases a with
      | nil => rfl
      | cons m a =>
          have hnodup := hk.nodup r
          rw [hab] at hfirst hnodup
          obtain rfl := Option.some.inj hfirst
          simp [hnb] at hnodup
    constructor
    case head =>
      intro x hx
      obtain rfl := Option.some.inj hx
      rw [hmoved, Function.update_of_ne hnt.symm, Function.update_self, headEc, hfirst]
    case tail =>
      intro x hx hhead
      have hxt : x ≠ t := by
        rintro rfl
        apply hhead rfl
      have hxL : x ∈ L r := by
        rw [hab]
        simpa [hxt] using hx
      rw [hmoved]
      by_cases hxn : x = n
      · rw [hxn, Function.update_self]
      · rw [Function.update_of_ne hxn, Function.update_of_ne hxt]
        apply h.ec_of_mem hk hxL
        rw [hfirst]
        intro heq
        apply hxn (Option.some.inj heq).symm
    case gone =>
      intro x hx hnot
      exfalso
      apply hnot
      rw [hab] at hx
      simp only [List.mem_append, List.mem_cons] at hx ⊢
      tauto
    case other =>
      intro x hxL hx
      have hxn : x ≠ n := by
        rintro rfl
        apply hxL hnL
      have hxt : x ≠ t := by
        rintro rfl
        simp at hx
      rw [hmoved, Function.update_of_ne hxn, Function.update_of_ne hxt]

/-- Unlinking the thread behind the threads of `a`. -/
theorem unlink (h : EcAtHead k L) (hk : Linked k L) {p : Option T} (hp : k.head r = .ptr p)
    {a b : List T} {t : T} (hab : L r = a ++ t :: b) :
  Recounted k L (k.unlink r a.getLast? t) r (a ++ b) (headEc k L r)
  := by
  have hnext : k.next t = b.head? := by
    have hb := (hk.segments hp hab).2
    exact (Chain.IsChain.head?_eq hb.2).symm
  have hnodup := hk.nodup r
  rw [hab] at hnodup
  have hta : t ∉ a ∧ t ∉ b := by
    rw [List.nodup_append', List.nodup_cons, List.disjoint_cons_right] at hnodup
    exact ⟨hnodup.2.2.1, hnodup.2.1.1⟩
  have hplace : a.getLast? ≠ some t := fun hlast => hta.1 (List.mem_of_getLast? hlast)
  have hmem {x : T} (hx : x ∈ a ++ b) : x ≠ t ∧ x ∈ L r := by
    constructor
    · rintro rfl
      simp [hta] at hx
    · rw [hab]
      simp only [List.mem_append, List.mem_cons] at hx ⊢
      tauto
  have hrest {x : T} (hx : x ∈ L r) (hnot : x ∉ a ++ b) : x = t := by
    rw [hab] at hx
    simp only [List.mem_append, List.mem_cons, not_or] at hx hnot
    tauto
  have hec := Links.unlink_ec (k := k) (r := r) hplace
  by_cases hzero : k.ec t = 0
  · rw [if_pos hzero] at hec
    constructor
    case head =>
      intro x hx
      rw [hec, headEc, hab]
      cases a with
      | nil =>
          have hxb : x ∈ b := List.mem_of_mem_head? hx
          have hxt := (hmem (x := x) (by simpa using hxb)).1
          rw [List.nil_append, List.head?_cons]
          dsimp only
          rw [hzero]
          apply h.ec_of_mem hk (r := r)
          · simp [hab, hxb]
          · simp [hab, hxt.symm]
      | cons m a =>
          obtain rfl := Option.some.inj hx
          rfl
    case tail =>
      intro x hx hhead
      rw [hec]
      apply h.ec_of_mem hk (hmem hx).2
      rw [hab]
      cases a with
      | nil => simpa using (hmem hx).1.symm
      | cons m a => apply hhead
    case gone =>
      intro x hx hnot
      rw [hec, hrest hx hnot, hzero]
    case other =>
      intro x _ _
      rw [hec]
  · -- The thread is the first one, and its counter goes to the next one.
    rw [if_neg hzero, hnext] at hec
    have hfirst : (L r).head? = some t := by
      by_contra hhead
      apply hzero (h.ec_of_mem hk (by simp [hab]) hhead)
    obtain rfl : a = [] := by
      cases a with
      | nil => rfl
      | cons m a =>
          rw [hab] at hfirst
          obtain rfl := Option.some.inj hfirst
          simp at hta
    have hfresh {x : T} (hx : x ∈ b) : k.ec x = 0 := by
      apply h.ec_of_mem hk (hmem (by simpa using hx)).2
      rw [hfirst]
      intro heq
      apply (hmem (x := x) (by simpa using hx)).1 (Option.some.inj heq).symm
    cases b with
    | nil =>
        have hec : (k.unlink r none t).ec = Function.update k.ec t 0 := hec
        constructor
        case head => intro x hx; cases hx
        case tail => intro x hx; cases hx
        case gone =>
          intro x hx hnot
          rw [hrest hx hnot]
          exact (congrFun hec t).trans (Function.update_self _ _ _)
        case other =>
          intro x hx _
          have hxt : x ≠ t := by
            rintro rfl
            apply hx (by simp [hab])
          exact (congrFun hec x).trans (Function.update_of_ne hxt _ _)
    | cons n b =>
        have hec : (k.unlink r none t).ec
            = Function.update (Function.update k.ec n (k.ec t)) t 0 := hec
        have hnt : n ≠ t := (hmem (x := n) (by simp)).1
        constructor
        case head =>
          intro x hx
          obtain rfl := Option.some.inj hx
          rw [headEc, hfirst]
          dsimp only
          exact (congrFun hec n).trans (by simp [hnt])
        case tail =>
          intro x hx hhead
          have hxn : x ≠ n := by
            rintro rfl
            apply hhead rfl
          have hxt := (hmem hx).1
          refine (congrFun hec x).trans ?_
          rw [Function.update_of_ne hxt, Function.update_of_ne hxn]
          apply hfresh (by simpa using hx)
        case gone =>
          intro x hx hnot
          rw [hrest hx hnot]
          exact (congrFun hec t).trans (Function.update_self _ _ _)
        case other =>
          intro x hx hnot
          have hxt : x ≠ t := by
            rintro rfl
            apply hx (by simp [hab])
          have hxn : x ≠ n := by
            rintro rfl
            apply hx (by simp [hab])
          refine (congrFun hec x).trans ?_
          rw [Function.update_of_ne hxt, Function.update_of_ne hxn]

/-- The list stays. -/
theorem refl (h : EcAtHead k L) (hk : Linked k L) (r : R) :
  Recounted k L k r (L r) (headEc k L r)
  := by
  constructor
  case head =>
    intro t ht
    rw [headEc, ht]
  case tail =>
    intro t ht hhead
    apply h.ec_of_mem hk ht hhead
  case gone => intro t ht hnot; exact absurd ht hnot
  case other => intro t _ _; rfl

variable [Fintype T]

/-- The insertion of a thread; the mark `SIGNALED` counts one event. -/
theorem insert (h : EcAtHead k L) (hk : Linked k L) {keep : T → Bool} {t : T}
    (ht : ∀ r', t ∉ L r') (hk' : k.queueInsert keep r t = some k') :
  Recounted k L k' r ((L r).takeWhile keep ++ t :: (L r).dropWhile keep)
    (if k.head r = .signaled then 1 else headEc k L r)
  := by
  cases hr : k.head r with
  | signaled =>
      have hL := hk.signaled r hr
      rw [Links.queueInsert] at hk'
      simp only [hr] at hk'
      obtain rfl := Option.some.inj hk'
      have hec : (0 : UInt8) + 1 = 1 := rfl
      simp only [hL, if_true]
      constructor
      case head =>
        intro x hx
        obtain rfl := Option.some.inj hx
        simp [Links.link, Links.store, hec]
      case tail =>
        intro x hx hhead
        simp at hx hhead
        exact absurd hx.symm hhead
      case gone =>
        intro x hx
        rw [hL] at hx
        cases hx
      case other =>
        intro x _ hx
        simp only [List.takeWhile_nil, List.dropWhile_nil, List.nil_append,
          List.mem_singleton] at hx
        simp [Links.link, Links.store, hx]
  | ptr p =>
      rw [Links.queueInsert] at hk'
      simp only [hr] at hk'
      rw [hk.skip_eq hr keep] at hk'
      obtain rfl := Option.some.inj hk'
      rw [if_neg (by simp)]
      apply link h hk List.takeWhile_append_dropWhile.symm ht

/-- The removal of a thread. -/
theorem remove (h : EcAtHead k L) (hk : Linked k L) {t : T} {rc : Int}
    (hk' : k.rrSharedQueueRemove r t = some (k', rc)) :
  Recounted k L k' r ((L r).erase t) (headEc k L r)
  := by
  have hout (ht : t ∉ L r) : Recounted k L k r ((L r).erase t) (headEc k L r) := by
    rw [List.erase_of_not_mem ht]
    apply refl h hk
  rw [Links.rrSharedQueueRemove] at hk'
  cases hr : k.head r with
  | signaled =>
      simp only [hr] at hk'
      obtain ⟨rfl, -⟩ := Prod.mk.inj (Option.some.inj hk')
      apply hout
      simp [hk.signaled r hr]
  | ptr p =>
      simp only [hr] at hk'
      rw [hk.skip_eq hr] at hk'
      by_cases ht : t ∈ L r
      · obtain ⟨a, b, hab, hta⟩ := List.eq_append_cons_of_mem ht
        obtain ⟨htake, hdrop⟩ := walk_to hab hta
        rw [htake, hdrop] at hk'
        obtain ⟨rfl, -⟩ := Prod.mk.inj (Option.some.inj hk')
        have herase : (L r).erase t = a ++ b := by
          rw [hab, List.erase_append_right _ hta, List.erase_cons_head]
        rw [herase]
        apply unlink h hk hr hab
      · rw [walk_past ht] at hk'
        obtain ⟨rfl, -⟩ := Prod.mk.inj (Option.some.inj hk')
        apply hout ht

end Recounted

/-! ### The operations of the scheduling classes -/

namespace Linked

variable [Fintype T]

/-- The insertion of a scheduling class is an insertion behind some threads. -/
theorem classInsert (h : Linked k L) (c : SchedClass) (prio : T → Nat) (r : R) {t : T}
    (ht : ∀ r', t ∉ L r') :
  ∃ k' a b, k.classInsert c prio r t = some k' ∧ L r = a ++ b ∧
    Linked k' (Function.update L r (a ++ t :: b)) ∧
    (k'.head r ≠ .signaled ∧ ∀ r', r' ≠ r → k'.head r' = k.head r') ∧
    (EcAtHead k L → Recounted k L k' r (a ++ t :: b)
      (if k.head r = .signaled then 1 else headEc k L r))
  := by
  have hinsert (keep : T → Bool) : ∃ k' a b, k.queueInsert keep r t = some k' ∧
      L r = a ++ b ∧ Linked k' (Function.update L r (a ++ t :: b)) ∧
      (k'.head r ≠ .signaled ∧ ∀ r', r' ≠ r → k'.head r' = k.head r') ∧
      (EcAtHead k L → Recounted k L k' r (a ++ t :: b)
        (if k.head r = .signaled then 1 else headEc k L r)) := by
    obtain ⟨k', hk', hlinked⟩ := h.insert keep r ht
    exact ⟨k', _, _, hk', List.takeWhile_append_dropWhile.symm, hlinked,
      Links.queueInsert_head hk', fun hec => Recounted.insert hec h ht hk'⟩
  cases c with
  | fifo => apply hinsert
  | rr => apply hinsert

end Linked

end Etaos
