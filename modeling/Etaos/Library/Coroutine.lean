import Etaos.Library.Run
import Mathlib.Algebra.Order.Group.Int
import Mathlib.Logic.Function.Basic

/-!
# Threads that share a processor

The threads `T` run commands over a shared state `S`, one at a time; the shared state says which
thread is current, and an atomic command can change that.  A command calls functions `F`, so
that every thread has a stack of frames: the rest of a function, and the place behind a call.  A
thread without frames may call any function, and an interrupt puts the call of a function on the
frames of the current thread.

Every thread has a counter.  `effect f` is what the function `f` is to add to the counter of the
thread that calls it.  `Cmd.wp` is the weakest precondition of a command for the value of the
counter of its thread, by the effects of the functions it calls: it says nothing about other
threads, since these leave the counter alone.  When the body of every function has its effect,
then in every run a function that returns has added its effect, whatever happened between its
call and its return.
-/

namespace Coroutine

/-- The commands of a thread. -/
inductive Cmd (S F : Type) where
  | skip
  /-- An atomic command, with a result that the rest depends on. -/
  | act {A : Type} (f : S → Option (S × A)) (rest : A → Cmd S F)
  /-- A number is added to the counter. -/
  | add (n : ℤ)
  | seq (p q : Cmd S F)
  /-- The command is repeated while a test holds. -/
  | while (b : S → Bool) (p : Cmd S F)
  | call (f : F)

namespace Cmd

variable {S F : Type}

/-- A change of the shared state that can fail. -/
def attempt (f : S → Option S) : Cmd S F :=
  .act (fun s => (f s).map fun s => (s, ())) fun _ => .skip

/-- A change of the shared state. -/
def assign (f : S → S) : Cmd S F :=
  .act (fun s => some (f s, ())) fun _ => .skip

/-- A value is read from the shared state. -/
def read {A : Type} (f : S → A) (rest : A → Cmd S F) : Cmd S F :=
  .act (fun s => some (s, f s)) rest

/-- The choice between two commands. -/
def ite (b : S → Bool) (p q : Cmd S F) : Cmd S F :=
  read b fun b => if b then p else q

/-- The commands of a list in order. -/
def block : List (Cmd S F) → Cmd S F
  | [] => .skip
  | p :: l => .seq p (block l)

end Cmd

/-- A frame: a command to be run, or the return of a function with the value of the counter at
its call. -/
inductive Frame (S F : Type) where
  | run (p : Cmd S F)
  | ret (f : F) (entry : ℤ)

/-- The function that a frame returns from, with the value of the counter at its call. -/
def Frame.returns {S F : Type} : Frame S F → Option (F × ℤ)
  | .run _ => none
  | .ret f entry => some (f, entry)

/-- The functions of the threads over the shared state. -/
structure Machine (S F T : Type) [DecidableEq T] where
  current : S → T
  /-- The counter of a thread. -/
  counter : S → T → ℤ
  /-- A number is added to the counter of the current thread. -/
  add : ℤ → S → S
  counter_add : ∀ n s t, counter (add n s) t = counter s t + if t = current s then n else 0
  body : F → Cmd S F
  /-- Whether an interrupt may call a function. -/
  interrupt : S → F → Bool

/-- The shared state with the frames of the threads. -/
structure State (S F T : Type) where
  shared : S
  frames : T → List (Frame S F)
  /-- What the counter of a thread is to be when its calls have returned. -/
  level : T → ℤ

/-- The steps. -/
inductive Label (F : Type) where
  /-- The current thread calls a function. -/
  | call (f : F)
  /-- The current thread runs its first frame. -/
  | run
  /-- An interrupt calls a function. -/
  | interrupt (f : F)

variable {S F T : Type} [DecidableEq T] {effect : F → ℤ}

namespace Machine

variable (m : Machine S F T) (effect : F → ℤ)

/-- The shared state and the frames behind a step of the first frame. -/
def runFrame (s : S) (fs : List (Frame S F)) : Frame S F → Option (S × List (Frame S F))
  | .run .skip => some (s, fs)
  | .run (.act f rest) => (f s).map fun (s, a) => (s, .run (rest a) :: fs)
  | .run (.add n) => some (m.add n s, fs)
  | .run (.seq p q) => some (s, .run p :: .run q :: fs)
  | .run (.while b p) =>
      some (s, if b s then .run p :: .run (.while b p) :: fs else fs)
  | .run (.call f) =>
      some (s, .run (m.body f) :: .ret f (m.counter s (m.current s)) :: fs)
  | .ret _ _ => some (s, fs)

/-- A step. -/
def step (c : State S F T) : Label F → Option (State S F T)
  | .call f =>
      let t := m.current c.shared
      match c.frames t with
      | [] =>
          some { c with
            frames := Function.update c.frames t [.run (.call f)]
            level := Function.update c.level t (c.level t + effect f) }
      | _ :: _ => none
  | .run =>
      let t := m.current c.shared
      match c.frames t with
      | [] => none
      | frame :: fs =>
          (m.runFrame c.shared fs frame).map fun (shared, fs) =>
            { c with shared, frames := Function.update c.frames t fs }
  | .interrupt f =>
      let t := m.current c.shared
      if m.interrupt c.shared f then
        some { c with frames := Function.update c.frames t (.run (.call f) :: c.frames t) }
      else
        none

/-- An atomic command with a result leaves the counters alone. -/
def Keeps {A : Type} (f : S → Option (S × A)) : Prop :=
  ∀ s s' a, f s = some (s', a) → m.counter s' = m.counter s

/-- A change of the shared state leaves the counters alone. -/
def Steady (f : S → Option S) : Prop :=
  ∀ s s', f s = some s' → m.counter s' = m.counter s

end Machine

/-! ### Preconditions -/

/-- The bound on a counter, when there is to be one. -/
def Low (bounded : Prop) (v : ℤ) : Prop :=
  bounded → 0 ≤ v

theorem Low.mono {bounded : Prop} {v w : ℤ} (h : Low bounded v) (hle : v ≤ w) :
  Low bounded w
  := fun hb => (h hb).trans hle

@[simp]
theorem Low.succ {bounded : Prop} {v : ℤ} (h : Low bounded v) : Low bounded (v + 1) :=
  h.mono (by simp)

namespace Cmd

variable (m : Machine S F T) (effect : F → ℤ) (bounded : Prop)

/-- The weakest precondition of a command for the counter of its thread. -/
def wp : Cmd S F → (ℤ → Prop) → ℤ → Prop
  | .skip, post, v => post v
  | .act f rest, post, v => m.Keeps f ∧ ∀ a, (rest a).wp post v
  | .add n, post, v => Low bounded (v + n) ∧ post (v + n)
  | .seq p q, post, v => p.wp (q.wp post) v
  | .while _ p, post, v => p.wp (· = v) v ∧ post v
  | .call f, post, v => Low bounded (v + effect f) ∧ post (v + effect f)

variable {m effect bounded} {post post' : ℤ → Prop} {v : ℤ}

/-- A command with a weaker postcondition. -/
theorem wp.mono {p : Cmd S F} (h : p.wp m effect bounded post v)
    (hpost : ∀ u, post u → post' u) :
  p.wp m effect bounded post' v
  := by
  induction p generalizing post post' v with
  | skip => exact hpost v h
  | act f rest ih => exact ⟨h.1, fun a => ih a (h.2 a) hpost⟩
  | add n => exact ⟨h.1, hpost _ h.2⟩
  | seq p q ihp ihq => exact ihp h fun u hu => ihq hu hpost
  | «while» b p => exact ⟨h.1, hpost v h.2⟩
  | call f => exact ⟨h.1, hpost _ h.2⟩

@[simp]
theorem wp_skip : wp m effect bounded .skip post v ↔ post v := Iff.rfl

@[simp]
theorem wp_act {A : Type} {f : S → Option (S × A)} {rest : A → Cmd S F} :
  wp m effect bounded (.act f rest) post v
    ↔ m.Keeps f ∧ ∀ a, (rest a).wp m effect bounded post v
  := Iff.rfl

@[simp]
theorem wp_seq {p q : Cmd S F} :
  wp m effect bounded (.seq p q) post v
    ↔ p.wp m effect bounded (q.wp m effect bounded post) v
  := Iff.rfl

@[simp]
theorem wp_add {n : ℤ} :
  wp m effect bounded (.add n) post v ↔ Low bounded (v + n) ∧ post (v + n)
  := Iff.rfl

@[simp]
theorem wp_while {b : S → Bool} {p : Cmd S F} :
  wp m effect bounded (.while b p) post v ↔ p.wp m effect bounded (· = v) v ∧ post v
  := Iff.rfl

@[simp]
theorem wp_call {f : F} :
  wp m effect bounded (.call f) post v ↔ Low bounded (v + effect f) ∧ post (v + effect f)
  := Iff.rfl

@[simp]
theorem wp_block_nil :
  wp (S := S) (F := F) m effect bounded (block []) post = post
  := rfl

@[simp]
theorem wp_block_cons {p : Cmd S F} {l : List (Cmd S F)} :
  wp m effect bounded (block (p :: l)) post v
    ↔ p.wp m effect bounded ((block l).wp m effect bounded post) v
  := Iff.rfl

@[simp]
theorem wp_attempt {f : S → Option S} :
  wp m effect bounded (attempt f) post v ↔ m.Steady f ∧ post v
  := by
  simp [attempt, wp, Machine.Keeps, Machine.Steady]

@[simp]
theorem wp_assign {f : S → S} :
  wp m effect bounded (assign f) post v ↔ (∀ s, m.counter (f s) = m.counter s) ∧ post v
  := by
  simp [assign, wp, Machine.Keeps]

@[simp]
theorem wp_read {A : Type} {f : S → A} {rest : A → Cmd S F} :
  wp m effect bounded (read f rest) post v ↔ ∀ a, (rest a).wp m effect bounded post v
  := by
  simp [read, Machine.Keeps]

@[simp]
theorem wp_ite {b : S → Bool} {p q : Cmd S F} :
  wp m effect bounded (ite b p q) post v
    ↔ p.wp m effect bounded post v ∧ q.wp m effect bounded post v
  := by
  simp [ite, and_comm]

/-- The commands of a list keep the value of the counter when each of them does. -/
theorem wp_block_map {A : Type} {l : List A} {p : A → Cmd S F}
    (h : ∀ a, (p a).wp m effect bounded (· = v) v) (hv : post v) :
  wp m effect bounded (block (l.map p)) post v
  := by
  induction l with
  | nil => exact hv
  | cons a l ih =>
      apply (h a).mono
      rintro u rfl
      exact ih

end Cmd

/-- The bodies of the functions have their effects, and do not bring the counter below both its
values at the call and at the return; an interrupt leaves the counter as it is. -/
structure Balanced (m : Machine S F T) (effect : F → ℤ) (bounded : Prop) : Prop where
  body : ∀ f v, Low bounded v → Low bounded (v + effect f) →
    (m.body f).wp m effect bounded (· = v + effect f) v
  interrupt : ∀ s f, m.interrupt s f → effect f = 0

/-- The frames of a thread end with its counter at `level`, from the value `v`, and the counter
of a function that returns differs from the one at its call by its effect. -/
def Ends (m : Machine S F T) (effect : F → ℤ) (bounded : Prop) (level : ℤ) :
    List (Frame S F) → ℤ → Prop
  | [], v => v = level
  | .run p :: fs, v => p.wp m effect bounded (Ends m effect bounded level fs) v
  | .ret f entry :: fs, v => v = entry + effect f ∧ Ends m effect bounded level fs v

/-- The invariant: the frames of every thread end with its level. -/
def Inv (m : Machine S F T) (effect : F → ℤ) (bounded : Prop) (c : State S F T) : Prop :=
  ∀ t, Low bounded (m.counter c.shared t) ∧
    Ends m effect bounded (c.level t) (c.frames t) (m.counter c.shared t)

/-- The calls of a thread leave its level at zero or above, when there is a bound. -/
def Paired (m : Machine S F T) (effect : F → ℤ) (bounded : Prop) (c : State S F T) :
    Label F → Prop
  | .call f => Low bounded (c.level (m.current c.shared) + effect f)
  | _ => True

instance (m : Machine S F T) (bounded : Prop) [Decidable bounded] (c : State S F T) :
    (l : Label F) → Decidable (Paired m effect bounded c l)
  | .call _ => inferInstanceAs (Decidable (bounded → _))
  | .run => inferInstanceAs (Decidable True)
  | .interrupt _ => inferInstanceAs (Decidable True)

/-- A start: no thread is in a call, and its counter is its level. -/
def Start (m : Machine S F T) (c : State S F T) : Prop :=
  ∀ t, c.frames t = [] ∧ c.level t = m.counter c.shared t

/-- The start with a given shared state. -/
def State.start (m : Machine S F T) (s : S) : State S F T where
  shared := s
  frames _ := []
  level := m.counter s

theorem start_start (m : Machine S F T) (s : S) : Start m (State.start m s) :=
  fun _ => ⟨rfl, rfl⟩

namespace Balanced

variable {m : Machine S F T} {bounded : Prop}

/-- The first frame of the current thread is run. -/
theorem runFrame (h : Balanced m effect bounded) {s s' : S} {fs fs' : List (Frame S F)}
    {frame : Frame S F} {level : ℤ} (hlow : Low bounded (m.counter s (m.current s)))
    (hends : Ends m effect bounded level (frame :: fs) (m.counter s (m.current s)))
    (hrun : m.runFrame s fs frame = some (s', fs')) :
  (∀ t, t ≠ m.current s → m.counter s' t = m.counter s t) ∧
    Low bounded (m.counter s' (m.current s)) ∧
    Ends m effect bounded level fs' (m.counter s' (m.current s))
  := by
  cases frame with
  | ret f entry =>
      obtain ⟨rfl, rfl⟩ := Prod.mk.inj (Option.some.inj hrun)
      exact ⟨fun _ _ => rfl, hlow, hends.2⟩
  | run p =>
      cases p with
      | skip =>
          obtain ⟨rfl, rfl⟩ := Prod.mk.inj (Option.some.inj hrun)
          exact ⟨fun _ _ => rfl, hlow, hends⟩
      | act f rest =>
          obtain ⟨⟨s₁, a⟩, hf, hrun⟩ := Option.map_eq_some_iff.mp hrun
          obtain ⟨rfl, rfl⟩ := Prod.mk.inj hrun
          rw [hends.1 _ _ _ hf]
          exact ⟨fun _ _ => rfl, hlow, hends.2 a⟩
      | add n =>
          obtain ⟨rfl, rfl⟩ := Prod.mk.inj (Option.some.inj hrun)
          constructor
          · intro t ht
            rw [m.counter_add, if_neg ht, add_zero]
          · rw [m.counter_add, if_pos rfl]
            exact hends
      | seq p q =>
          obtain ⟨rfl, rfl⟩ := Prod.mk.inj (Option.some.inj hrun)
          exact ⟨fun _ _ => rfl, hlow, hends⟩
      | «while» b p =>
          obtain ⟨rfl, rfl⟩ := Prod.mk.inj (Option.some.inj hrun)
          refine ⟨fun _ _ => rfl, hlow, ?_⟩
          split
          · apply hends.1.mono
            rintro u rfl
            exact hends
          · exact hends.2
      | call f =>
          obtain ⟨rfl, rfl⟩ := Prod.mk.inj (Option.some.inj hrun)
          refine ⟨fun _ _ => rfl, hlow, ?_⟩
          apply (h.body f _ hlow hends.1).mono
          rintro u rfl
          exact ⟨rfl, hends.2⟩

/-- A step keeps the invariant. -/
theorem step (h : Balanced m effect bounded) {c c' : State S F T} {l : Label F}
    (hc : Inv m effect bounded c) (hl : Paired m effect bounded c l)
    (hs : m.step effect c l = some c') :
  Inv m effect bounded c'
  := by
  intro t
  obtain ⟨hlow, hends⟩ := hc t
  cases l with
  | call f =>
      simp only [Machine.step] at hs
      split at hs
      · rename_i hframes
        obtain rfl := Option.some.inj hs
        use hlow
        by_cases ht : t = m.current c.shared
        · subst ht
          rw [hframes, Ends] at hends
          simp only [Function.update_self, Ends, Cmd.wp_call, hends, and_true]
          exact hl
        · simpa only [Function.update_of_ne ht] using hends
      · cases hs
  | run =>
      simp only [Machine.step] at hs
      split at hs
      · cases hs
      · rename_i frame fs hframes
        obtain ⟨⟨s', fs'⟩, hrun, rfl⟩ := Option.map_eq_some_iff.mp hs
        obtain ⟨hlow₀, hends₀⟩ := hc (m.current c.shared)
        rw [hframes] at hends₀
        obtain ⟨hother, hlow', hends'⟩ := h.runFrame hlow₀ hends₀ hrun
        by_cases ht : t = m.current c.shared
        · subst ht
          simp only [Function.update_self]
          exact ⟨hlow', hends'⟩
        · simp only [Function.update_of_ne ht, hother t ht]
          exact ⟨hlow, hends⟩
  | interrupt f =>
      simp only [Machine.step] at hs
      split at hs
      · rename_i hinterrupt
        obtain rfl := Option.some.inj hs
        use hlow
        by_cases ht : t = m.current c.shared
        · subst ht
          simp only [Function.update_self, Ends, Cmd.wp_call, h.interrupt _ _ hinterrupt, add_zero]
          exact ⟨hlow, hends⟩
        · simpa only [Function.update_of_ne ht] using hends
      · cases hs

/-- The invariant holds in every run from a start, whose counters and calls meet the bound when
there is one. -/
theorem inv (h : Balanced m effect bounded) {c₀ c : State S F T} {ls : List (Label F)}
    (hstart : Start m c₀) (hlow : ∀ t, Low bounded (m.counter c₀.shared t))
    (hls : Run.Meets (m.step effect) (Paired m effect bounded) c₀ ls)
    (hrun : Run.exec (m.step effect) c₀ ls = some c) :
  Inv m effect bounded c
  := by
  apply (Run.guarded_of_exec ls hrun hls).invariant (Inv m effect bounded)
  · intro t
    obtain ⟨hframes, hlevel⟩ := hstart t
    rw [hframes, hlevel]
    exact ⟨hlow t, rfl⟩
  · intro u l v hu hl hs
    exact h.step hu hl hs

/-- In every run a function that returns has added its effect to the counter of its thread. -/
theorem ret (h : Balanced m effect False) {c₀ c : State S F T} {ls : List (Label F)}
    (hstart : Start m c₀) (hrun : Run.exec (m.step effect) c₀ ls = some c) {t : T} {f : F}
    {entry : ℤ} {fs : List (Frame S F)} (hframes : c.frames t = .ret f entry :: fs) :
  m.counter c.shared t = entry + effect f
  := by
  have hls : Run.Meets (m.step effect) (Paired m effect False) c₀ ls := by
    apply Run.Meets.of_forall
    rintro s (f | _ | f) <;> simp [Paired, Low]
  obtain ⟨-, hends⟩ := h.inv hstart (by simp [Low]) hls hrun t
  rw [hframes] at hends
  exact hends.1

/-- In every run whose calls are paired the counters stay at zero or above. -/
theorem nonneg (h : Balanced m effect True) {c₀ c : State S F T} {ls : List (Label F)}
    (hstart : Start m c₀) (hlow : ∀ t, 0 ≤ m.counter c₀.shared t)
    (hls : Run.Meets (m.step effect) (Paired m effect True) c₀ ls)
    (hrun : Run.exec (m.step effect) c₀ ls = some c) (t : T) :
  0 ≤ m.counter c.shared t
  := (h.inv hstart (fun t _ => hlow t) hls hrun t).1 trivial

end Balanced

end Coroutine
