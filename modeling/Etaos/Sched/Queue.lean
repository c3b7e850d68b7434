import Etaos.Library.Chain
import Mathlib.Algebra.Group.Nat.Defs
import Mathlib.Algebra.GroupWithZero.Nat
import Mathlib.Data.Fintype.Card

/-!
# Thread queues

The run queue and the thread queues are singly linked lists through the field `se.next` of
the threads, so that a thread is on one of them at a time.  `Links` holds the fields that
the list operations read and write: the heads of the queues, and for every thread its
`se.next`, its root pointer `queue` and its event counter `ec`.

The operations are those of `rr-shared.c` and `fifo.c`.  They walk a list through a
pointer `tpp` to the pointer to the next thread; `tpp` is modelled by the thread it points
into, or by `none` when it is the root of the queue.  A walk past more threads than there
are meets one of them twice and does not end; it is then `none`.
-/

namespace Etaos

/-- The error code of success. -/
def EOK : Int := 0

/-- The error code of an invalid argument. -/
def EINVAL : Int := 4

/-- The threads of a system of two are the literals of `Fin 2`. -/
instance neZeroTwo : NeZero 2 := ⟨Nat.succ_ne_zero 1⟩

/-- The threads of a system of three are the literals of `Fin 3`. -/
instance neZeroThree : NeZero 3 := ⟨Nat.succ_ne_zero 2⟩

/-- The head of a queue: a pointer to a thread, or the mark `SIGNALED`. -/
inductive Qhead (T : Type) where
  | signaled : Qhead T
  | ptr (p : Option T) : Qhead T
  deriving DecidableEq

/-- The scheduling classes of `fifo.c` and `rr.c`. -/
inductive SchedClass where
  | fifo
  | rr
  deriving DecidableEq

/-- What `event_notify` has read as the head of a queue. -/
inductive Sample where
  | null
  | signaled
  | thread
  deriving DecidableEq

/-- The head of a queue, as `event_notify` tells its values apart. -/
def Qhead.sample {T : Type} : Qhead T → Sample
  | .signaled => .signaled
  | .ptr none => .null
  | .ptr (some _) => .thread

namespace Qhead

variable {T : Type} {h : Qhead T}

theorem sample_eq_signaled : h.sample = .signaled ↔ h = .signaled := by
  rcases h with _ | _ | t <;> simp [sample]

theorem sample_eq_null : h.sample = .null ↔ h = .ptr none := by
  rcases h with _ | _ | t <;> simp [sample]

theorem sample_eq_thread : h.sample = .thread ↔ ∃ t, h = .ptr (some t) := by
  rcases h with _ | _ | t <;> simp [sample]

end Qhead

/-- The links of the threads `T` on the queues with roots `R`. -/
structure Links (T R : Type) where
  /-- The heads of the queues. -/
  head : R → Qhead T
  /-- The field `se.next`. -/
  next : T → Option T
  /-- The field `queue`, the root of the queue a thread is on. -/
  queue : T → Option R
  /-- The field `ec`. -/
  ec : T → UInt8

namespace Links

variable {T R : Type} [DecidableEq T] [DecidableEq R]

/-- The assignment `*tpp = v`, where `tpp` points to the `se.next` of the thread `place`,
or to the head of `r`. -/
def store (k : Links T R) (r : R) (place v : Option T) : Links T R :=
  match place with
  | none => { k with head := Function.update k.head r (.ptr v) }
  | some a => { k with next := Function.update k.next a v }

/-- The loop that moves `tpp` and `thread` on while `keep thread` holds. -/
def skip (next : T → Option T) (keep : T → Bool) :
    Nat → Option T → Option T → Option (Option T × Option T)
  | _, place, none => some (place, none)
  | 0, _, some _ => none
  | n + 1, place, some thread =>
      if keep thread then
        skip next keep n (some thread) (next thread)
      else
        some (place, some thread)

/-- The end of an insertion: `tp` goes before `thread` and into `*tpp`, and takes over the
event counter of the thread after it. -/
def link (k : Links T R) (r : R) (place thread : Option T) (tp : T) : Links T R :=
  let k := { k with next := Function.update k.next tp thread }
  let k := k.store r place (some tp)
  match k.next tp with
  | none => k
  | some n =>
      if k.ec n = 0 then
        k
      else
        let ec := Function.update k.ec tp (k.ec tp + k.ec n)
        { k with ec := Function.update ec n 0 }

/-- The links of a thread whose record is cleared. -/
def clear (k : Links T R) (tp : T) : Links T R :=
  { k with
    next := Function.update k.next tp none
    queue := Function.update k.queue tp none
    ec := Function.update k.ec tp 0 }

/-- The threads met from `p` on. -/
def toList (next : T → Option T) : Nat → Option T → List T
  | _, none => []
  | 0, some _ => []
  | n + 1, some thread => thread :: toList next n (next thread)

variable [Fintype T]

/-- The insertion of `tp` behind the threads that `keep` holds of.  A queue marked
`SIGNALED` is empty, and its event is counted by `tp`. -/
def queueInsert (keep : T → Bool) (k : Links T R) (r : R) (tp : T) : Option (Links T R) :=
  let k := { k with
    ec := Function.update k.ec tp 0
    queue := Function.update k.queue tp (some r) }
  match k.head r with
  | .signaled =>
      let k := { k with ec := Function.update k.ec tp (k.ec tp + 1) }
      some (k.link r none none tp)
  | .ptr thread =>
      (skip k.next keep (Fintype.card T) none thread).map fun (place, thread) =>
        k.link r place thread tp

/-- The insertion of `rr-shared.c`, behind the threads of at most the same priority
value. -/
def rrSharedQueueInsert (prio : T → Nat) (k : Links T R) (r : R) (tp : T) :
    Option (Links T R) :=
  queueInsert (fun thread => prio thread ≤ prio tp) k r tp

/-- The insertion of `fifo.c`, behind all threads. -/
def fifoQueueInsert (k : Links T R) (r : R) (tp : T) : Option (Links T R) :=
  queueInsert (fun _ => true) k r tp

/-- The insertion function of a scheduling class. -/
def classInsert (c : SchedClass) (prio : T → Nat) (k : Links T R) (r : R) (tp : T) :
    Option (Links T R) :=
  match c with
  | .fifo => k.fifoQueueInsert r tp
  | .rr => k.rrSharedQueueInsert prio r tp

/-- The removal of the thread `tp` found at `*tpp`; its event counter goes to the thread
after it. -/
def unlink (k : Links T R) (r : R) (place : Option T) (tp : T) : Links T R :=
  let k := k.store r place (k.next tp)
  let k :=
    if k.ec tp = 0 then
      k
    else
      match k.next tp with
      | none => { k with ec := Function.update k.ec tp 0 }
      | some n => { k with ec := Function.update (Function.update k.ec n (k.ec tp)) tp 0 }
  { k with
    next := Function.update k.next tp none
    queue := Function.update k.queue tp none }

/-- The removal of `rr-shared.c`, with its error code. -/
def rrSharedQueueRemove (k : Links T R) (r : R) (tp : T) : Option (Links T R × Int) :=
  match k.head r with
  | .signaled => some (k, -EINVAL)
  | .ptr thread =>
      (skip k.next (fun thread => thread ≠ tp) (Fintype.card T) none thread).map
        fun (place, thread) =>
          match thread with
          | none => (k, -EINVAL)
          | some _ => (k.unlink r place tp, -EOK)

end Links

/-! ### The lists the links represent -/

/-- The links `k` represent the lists `L`: following `se.next` from the head of a queue
meets the threads of its list, and the root pointer of a thread on a list leads to it. -/
structure Linked {T R : Type} (k : Links T R) (L : R → List T) : Prop where
  signaled : ∀ r, k.head r = .signaled → L r = []
  chain : ∀ r p, k.head r = .ptr p → Chain.IsChain k.next p (L r)
  nodup : ∀ r, (L r).Nodup
  queue : ∀ r, ∀ t ∈ L r, k.queue t = some r

end Etaos
