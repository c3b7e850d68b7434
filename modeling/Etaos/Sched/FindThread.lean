import Etaos.Sched.System
import Mathlib.Tactic.Use

/-!
# Threads by name

The lookup of a thread on the run queue by its name, and the destruction of the thread that is
found, in a build without `CONFIG_EXTENDED_THREAD`.

The loop of `rq_find_thread` does not go on to the next thread: a lookup that does not end at the
first thread of the run queue does not end.
-/

set_option linter.unusedSectionVars false

namespace Etaos

/-! ### Names -/

/-- A C string, the bytes before its `NUL`. -/
structure CString where
  bytes : List UInt8
  zero_notMem : 0 ∉ bytes
  deriving DecidableEq

/-- The function `strcmp` on the bytes from two pointers on; the byte behind the last one is
`NUL`. -/
def strcmpBytes : List UInt8 → List UInt8 → Int
  | [], [] => 0
  | [], s2 :: _ => 0 - s2.toNat
  | s1 :: _, [] => s1.toNat - 0
  | s1 :: l1, s2 :: l2 => if s1 = s2 then strcmpBytes l1 l2 else s1.toNat - s2.toNat

/-- The function `strcmp`. -/
def strcmp (s1 s2 : CString) : Int :=
  strcmpBytes s1.bytes s2.bytes

theorem toNat_ne_zero {b : UInt8} {l : List UInt8} (hl : 0 ∉ b :: l) : (b.toNat : Int) ≠ 0 := by
  intro hb
  apply hl
  have hzero : b = 0 := UInt8.toNat_inj.mp (Int.ofNat_eq_zero.mp hb)
  simp [hzero]

theorem strcmpBytes_eq_zero_iff :
    ∀ {l1 l2 : List UInt8}, 0 ∉ l1 → 0 ∉ l2 → (strcmpBytes l1 l2 = 0 ↔ l1 = l2)
  | [], [], _, _ => by simp [strcmpBytes]
  | [], s2 :: l2, _, h2 => by simpa [strcmpBytes] using toNat_ne_zero h2
  | s1 :: l1, [], h1, _ => by simpa [strcmpBytes] using toNat_ne_zero h1
  | s1 :: l1, s2 :: l2, h1, h2 => by
      rw [strcmpBytes, List.cons_eq_cons]
      split
      · rename_i heq
        rw [strcmpBytes_eq_zero_iff (List.not_mem_of_not_mem_cons h1)
          (List.not_mem_of_not_mem_cons h2), and_iff_right heq]
      · rename_i hne
        constructor
        · intro hzero
          have hnat : s1.toNat = s2.toNat := by omega
          apply absurd (UInt8.toNat_inj.mp hnat) hne
        · rintro ⟨heq, -⟩
          apply absurd heq hne

/-- The comparison of two names is zero when they are the same. -/
theorem strcmp_eq_zero_iff {s1 s2 : CString} : strcmp s1 s2 = 0 ↔ s1 = s2 := by
  rw [strcmp, strcmpBytes_eq_zero_iff s1.zero_notMem s2.zero_notMem, CString.mk.injEq]

/-! ### The lookup -/

/-- The kernel with the names of its threads, and what `thread_destroy` reads and writes of
them. -/
structure NamedKernel (T Q : Type) where
  k : Kernel T Q
  name : T → CString
  /-- The flag `THREAD_EXIT_FLAG`. -/
  exit : T → Bool
  /-- The flag `THREAD_REMOTE_KILL`. -/
  remoteKill : T → Bool
  /-- The list `kill_head`. -/
  kill : List T

namespace NamedKernel

variable {T Q : Type} [DecidableEq T] [DecidableEq Q]

/-- The function `rq_get_head`. -/
def rqGetHead (s : NamedKernel T Q) : Option (Option T) :=
  match s.k.links.head .runQueue with
  | .ptr p => some p
  | .signaled => none

/-- The loop of `rq_find_thread`, in at most `n` turns. -/
def findLoop (s : NamedKernel T Q) (name : CString) : ℕ → Option T → Option (Option T)
  | _, none => some none
  | 0, some _ => none
  | n + 1, some tp =>
      if strcmp (s.name tp) name = 0 then
        some (some tp)
      else
        findLoop s name n (some tp)

/-- The function `rq_find_thread`. -/
def rqFindThread (s : NamedKernel T Q) (name : CString) (n : ℕ) : Option (Option T) := do
  let tp ← s.rqGetHead
  s.findLoop name n tp

/-- The function `sched_find_thread_by_name`.  Without `CONFIG_SQS` it goes through the run queues
of `RQ_FOREACH`, of which there is one, until a thread is found. -/
def schedFindThreadByName (sqs : Bool) (s : NamedKernel T Q) (name : CString) (n : ℕ) :
    Option (Option T) :=
  if sqs then
    s.rqFindThread name n
  else do
    match ← s.rqFindThread name n with
    | some tp => some (some tp)
    | none => some none

/-! ### The destruction -/

/-- The function `sched_mark_remote_kill`. -/
def schedMarkRemoteKill (s : NamedKernel T Q) (tp : T) : Option (NamedKernel T Q) :=
  if !(s.k.thr tp).rq then
    none
  else if s.k.current = tp then
    some { s with
      k := s.k.modify tp fun th => { th with needResched := true, running := false, rq := true }
      exit := Function.update s.exit tp true
      kill := tp :: s.kill }
  else
    let s := { s with remoteKill := Function.update s.remoteKill tp true }
    if !(s.k.thr tp).sleeping && !(s.k.thr tp).waiting then
      some { s with k := s.k.modify s.k.current fun th => { th with needResched := true } }
    else
      some s

/-- The function `thread_destroy`, with its error code. -/
def threadDestroy (s : NamedKernel T Q) : Option T → Option (NamedKernel T Q × Int)
  | none => some (s, -EINVAL)
  | some tp =>
      if s.exit tp then
        some (s, 1)
      else
        (s.schedMarkRemoteKill tp).map fun s => (s, -EOK)

/-- The function `thread_destroy_by_name`. -/
def threadDestroyByName (sqs : Bool) (s : NamedKernel T Q) (name : CString) (n : ℕ) :
    Option (NamedKernel T Q × Int) := do
  let tp ← s.schedFindThreadByName sqs name n
  s.threadDestroy tp

/-! ### Lookups that end -/

/-- The threads on the run queue are those of `queue`. -/
def Runs (s : NamedKernel T Q) (queue : List T) : Prop :=
  ∃ p, s.rqGetHead = some p ∧ Chain.IsChain s.k.links.next p queue

/-- The first thread of a list that has the given name. -/
def firstNamed (s : NamedKernel T Q) (name : CString) (queue : List T) : Option T :=
  queue.find? fun tp => s.name tp = name

/-- The lookup of a name ends, with the first thread on the run queue that has it or with `NULL`,
and it is that thread that is destroyed by its name. -/
structure Finds (s : NamedKernel T Q) (name : CString) (queue : List T) : Prop where
  rqFindThread : ∃ n, s.rqFindThread name n = some (s.firstNamed name queue)
  schedFindThreadByName (sqs : Bool) :
    ∃ n, s.schedFindThreadByName sqs name n = some (s.firstNamed name queue)
  threadDestroyByName (sqs : Bool) :
    ∃ n, s.threadDestroyByName sqs name n = s.threadDestroy (s.firstNamed name queue)

variable {s : NamedKernel T Q} {name : CString} {queue : List T}

theorem schedFindThreadByName_eq (sqs : Bool) (n : ℕ) :
  s.schedFindThreadByName sqs name n = s.rqFindThread name n
  := by
  rw [schedFindThreadByName]
  cases sqs with
  | true => rfl
  | false =>
      rcases s.rqFindThread name n with _ | _ | tp
      · rfl
      · rfl
      · rfl

/-- The loop does not leave a thread that has another name. -/
theorem findLoop_of_ne {tp : T} (hne : s.name tp ≠ name) (n : ℕ) :
  s.findLoop name n (some tp) = none
  := by
  induction n with
  | zero => rfl
  | succ n ih => rw [findLoop, if_neg (mt strcmp_eq_zero_iff.mp hne), ih]

/-- The lookup ends at the first thread of the run queue, or when there is none. -/
theorem rqFindThread_iff (hqueue : s.Runs queue) :
  (∃ n, s.rqFindThread name n = some (s.firstNamed name queue)) ↔
    ∀ tp ∈ queue.head?, s.name tp = name
  := by
  obtain ⟨p, hp, hchain⟩ := hqueue
  cases queue with
  | nil =>
      obtain rfl : p = none := hchain
      apply iff_of_true
      · use 0
        rw [rqFindThread, hp]
        rfl
      · simp
  | cons tp queue =>
      obtain ⟨rfl, -⟩ := hchain
      have hloop (n : ℕ) : s.rqFindThread name n = s.findLoop name n (some tp) := by
        rw [rqFindThread, hp]
        rfl
      simp only [hloop, List.head?_cons, Option.mem_some_iff, forall_eq']
      by_cases heq : s.name tp = name
      · apply iff_of_true _ heq
        use 1
        rw [findLoop, if_pos (strcmp_eq_zero_iff.mpr heq), firstNamed,
          List.find?_cons_of_pos (by simp [heq])]
      · apply iff_of_false _ heq
        rintro ⟨n, hn⟩
        rw [findLoop_of_ne heq] at hn
        cases hn

/-- The lookup of a name finds the first thread that has it exactly when the run queue is empty or
its first thread has the name. -/
theorem finds_iff (s : NamedKernel T Q) (name : CString) (queue : List T)
    (hqueue : s.Runs queue) :
  s.Finds name queue ↔ ∀ tp ∈ queue.head?, s.name tp = name
  := by
  rw [← rqFindThread_iff hqueue]
  constructor
  · intro hfinds
    apply hfinds.rqFindThread
  · intro hfind
    constructor
    · apply hfind
    · intro sqs
      simp only [schedFindThreadByName_eq]
      apply hfind
    · intro sqs
      obtain ⟨n, hn⟩ := hfind
      use n
      rw [threadDestroyByName, schedFindThreadByName_eq, hn]
      rfl

/-- The name `tcp`. -/
def tcp : CString :=
  ⟨[116, 99, 112], by decide⟩

/-- The name `http`. -/
def http : CString :=
  ⟨[104, 116, 116, 112], by decide⟩

/-- The kernel with the thread `idle`, and the threads `tcp` and `http` on the run queue. -/
def servers : NamedKernel (Fin 3) Unit where
  k := { (System.boot (fun _ => 150) 0).k with
    links :=
      { head := fun r => if r = .runQueue then .ptr (some 1) else .ptr none
        next := fun t => if t = 1 then some 2 else none
        queue := fun t => if t = 0 then none else some .runQueue
        ec := fun _ => 0 }
    num := 2 }
  name := fun t =>
    if t = 0 then ⟨[105, 100, 108, 101], by decide⟩ else if t = 1 then tcp else http
  exit _ := false
  remoteKill _ := false
  kill := []

theorem servers_runs : servers.Runs [1, 2] := by
  use some 1
  simp [rqGetHead, servers, Chain.IsChain]

/-- The thread `tcp` is found. -/
theorem finds_iff_tcp : servers.Finds tcp [1, 2] := by
  apply (finds_iff servers _ _ servers_runs).mpr
  decide

/-- The lookup of the thread `http` does not end. -/
theorem not_finds_http :
  servers.firstNamed http [1, 2] = some 2 ∧
    (∀ n, servers.rqFindThread http n = none) ∧
    ¬ servers.Finds http [1, 2]
  := by
  have hnone (n : ℕ) : servers.rqFindThread http n = none := by
    obtain ⟨p, hp, hchain⟩ := servers_runs
    obtain ⟨rfl, -⟩ := hchain
    rw [rqFindThread, hp]
    apply findLoop_of_ne
    decide
  refine ⟨by decide, hnone, ?_⟩
  intro hfinds
  obtain ⟨n, hn⟩ := hfinds.rqFindThread
  rw [hnone] at hn
  cases hn

end NamedKernel

end Etaos
