import Mathlib.Data.Option.Basic
import Mathlib.Order.Basic

/-!
# Runs of labelled transition systems

A system is a partial function `next : S → L → Option S`, which sends a state and a label
to the state after the step, when the step is enabled.  `Run.exec` follows a list of
labels.  `Run.Guarded next ok s t` says that `t` is reached from `s` by steps all of which
meet the condition `ok`, and `Run.Reachable next s t` that it is reached by any steps.

The induction over a run is packaged once, as `Run.Guarded.invariant`.
`Run.Inevitable next P s` says that every run from `s` comes to a state with the property
`P`; a measure that every step brings down shows it.  `Run.restrict next ok` has the steps
that meet `ok` only.
-/

namespace Run

variable {S L : Type*} (next : S → L → Option S)

/-- The state after the steps with the given labels, when all of them are enabled. -/
def exec : S → List L → Option S
  | s, [] => some s
  | s, l :: ls => (next s l).bind fun t => exec t ls

theorem exec_append :
    ∀ (s : S) (ls ls' : List L),
      exec next s (ls ++ ls') = (exec next s ls).bind fun t => exec next t ls'
  | s, [], ls' => rfl
  | s, l :: ls, ls' => by
      rw [List.cons_append, exec, exec, Option.bind_assoc]
      congr 1
      funext t
      apply exec_append

/-- `t` is reached from `s` by steps each of which meets `ok` in the state it starts in. -/
inductive Guarded (ok : S → L → Prop) (s : S) : S → Prop
  | refl : Guarded ok s s
  | step {t u : S} {l : L} : Guarded ok s t → ok t l → next t l = some u → Guarded ok s u

/-- `t` is reached from `s` by some steps. -/
abbrev Reachable : S → S → Prop := Guarded next fun _ _ => True

variable {next}

/-- A property of the start that every step meeting `ok` preserves holds in every state
reached by such steps. -/
theorem Guarded.invariant {ok : S → L → Prop} {s t : S} (I : S → Prop)
    (hrun : Guarded next ok s t) (hs : I s)
    (hstep : ∀ u l v, I u → ok u l → next u l = some v → I v) :
  I t
  := by
  induction hrun with
  | refl => apply hs
  | step _ hok hnext ih => apply hstep _ _ _ ih hok hnext

/-- A weaker condition on the steps reaches no fewer states. -/
theorem Guarded.mono {ok ok' : S → L → Prop} {s t : S}
    (h : ∀ u l, ok u l → ok' u l) (hrun : Guarded next ok s t) :
  Guarded next ok' s t
  := by
  induction hrun with
  | refl => apply Guarded.refl
  | step _ hok hnext ih => apply Guarded.step ih (h _ _ hok) hnext

theorem Guarded.trans {ok : S → L → Prop} {s t u : S}
    (hst : Guarded next ok s t) (htu : Guarded next ok t u) :
  Guarded next ok s u
  := by
  induction htu with
  | refl => apply hst
  | step _ hok hnext ih => apply Guarded.step ih hok hnext

/-- The steps of a list of labels meet the condition `ok`, along the run they make. -/
def Meets (next : S → L → Option S) (ok : S → L → Prop) : S → List L → Prop
  | _, [] => True
  | s, l :: ls => ok s l ∧ ∀ t ∈ next s l, Meets next ok t ls

/-- A condition that every step meets is met by every run. -/
theorem Meets.of_forall {ok : S → L → Prop} (h : ∀ s l, ok s l) :
    ∀ (s : S) (ls : List L), Meets next ok s ls
  | _, [] => trivial
  | s, l :: ls => ⟨h s l, fun t _ => Meets.of_forall h t ls⟩

theorem Meets.append_left {ok : S → L → Prop} :
    ∀ {s : S} {ls ls' : List L}, Meets next ok s (ls ++ ls') → Meets next ok s ls
  | _, [], _, _ => trivial
  | _, _ :: _, _, h => ⟨h.1, fun t ht => Meets.append_left (h.2 t ht)⟩

theorem meets_and {ok ok' : S → L → Prop} {s : S} {ls : List L} :
  Meets next (fun s l => ok s l ∧ ok' s l) s ls ↔ Meets next ok s ls ∧ Meets next ok' s ls
  := by
  induction ls generalizing s with
  | nil => simp [Meets]
  | cons l ls ih =>
      simp only [Meets, ih]
      constructor
      · rintro ⟨⟨h, h'⟩, hrest⟩
        exact ⟨⟨h, fun t ht => (hrest t ht).1⟩, h', fun t ht => (hrest t ht).2⟩
      · rintro ⟨⟨h, hrest⟩, h', hrest'⟩
        exact ⟨⟨h, h'⟩, fun t ht => ⟨hrest t ht, hrest' t ht⟩⟩

theorem Meets.and {ok ok' : S → L → Prop} {s : S} {ls : List L} (h : Meets next ok s ls)
    (h' : Meets next ok' s ls) :
  Meets next (fun s l => ok s l ∧ ok' s l) s ls
  := meets_and.mpr ⟨h, h'⟩

/-- Two conditions that agree on the steps from the states of an invariant are met by the same
runs. -/
theorem Meets.congr {ok ok' : S → L → Prop} (I : S → Prop)
    (hok : ∀ s l t, I s → next s l = some t → (ok s l ↔ ok' s l))
    (hstep : ∀ s l t, I s → ok s l → next s l = some t → I t) {s t : S} {ls : List L}
    (hs : I s) (hrun : exec next s ls = some t) :
  Meets next ok s ls ↔ Meets next ok' s ls
  := by
  induction ls generalizing s with
  | nil => rfl
  | cons l ls ih =>
      obtain ⟨u, hu, hrun⟩ := Option.bind_eq_some_iff.mp hrun
      simp only [Meets, hu, Option.mem_some_iff, forall_eq']
      rw [← hok s l u hs hu]
      apply and_congr_right
      intro hl
      apply ih (hstep s l u hs hl hu) hrun

/-- Two conditions that agree at the states of an invariant, which every step preserves, are met by
the same runs. -/
theorem meets_congr_of_invariant {ok ok' : S → L → Prop} (I : S → Prop)
    (hok : ∀ s l, I s → (ok s l ↔ ok' s l)) (hstep : ∀ s l t, I s → next s l = some t → I t) {s : S}
    {ls : List L} (hs : I s) :
  Meets next ok s ls ↔ Meets next ok' s ls
  := by
  induction ls generalizing s with
  | nil => rfl
  | cons l ls ih =>
      apply and_congr (hok s l hs)
      apply forall₂_congr
      intro t ht
      apply ih (hstep s l t hs ht)

instance Meets.decidable (ok : S → L → Prop) [∀ s l, Decidable (ok s l)] :
    ∀ (s : S) (ls : List L), Decidable (Meets next ok s ls)
  | _, [] => inferInstanceAs (Decidable True)
  | s, l :: ls =>
      match h : next s l with
      | none => decidable_of_iff (ok s l) (by simp [Meets, h])
      | some t =>
          have := Meets.decidable ok t ls
          decidable_of_iff (ok s l ∧ Meets next ok t ls) (by simp [Meets, h])

/-- A run of labels whose steps meet `ok` reaches its last state under that condition. -/
theorem guarded_of_exec {ok : S → L → Prop} :
    ∀ {s t : S} (ls : List L), exec next s ls = some t → Meets next ok s ls →
      Guarded next ok s t
  | s, t, [], h, _ => by
      obtain rfl := Option.some.inj h
      apply Guarded.refl
  | s, t, l :: ls, h, hok => by
      obtain ⟨u, hu, ht⟩ := Option.bind_eq_some_iff.mp h
      apply Guarded.trans (Guarded.step Guarded.refl hok.1 hu)
      apply guarded_of_exec ls ht (hok.2 u hu)

/-- What every step preserves of the state and of what is known of the labels so far holds at the
end of a run. -/
theorem exec_foldl {A : Type*} {ok : S → L → Prop} (f : A → L → A) (I : S → A → Prop)
    (hstep : ∀ s a l t, I s a → ok s l → next s l = some t → I t (f a l)) :
    ∀ {s t : S} {a : A} (ls : List L), I s a → exec next s ls = some t → Meets next ok s ls →
      I t (ls.foldl f a)
  | s, t, a, [], hs, h, _ => by
      obtain rfl := Option.some.inj h
      apply hs
  | s, t, a, l :: ls, hs, h, hok => by
      obtain ⟨u, hu, ht⟩ := Option.bind_eq_some_iff.mp h
      apply exec_foldl f I hstep ls (hstep s a l u hs hok.1 hu) ht (hok.2 u hu)

/-- When a step that meets `ok` is enabled and preserves a property, so do the steps of a list
of labels. -/
theorem exec_of_meets {ok : S → L → Prop} (I : S → Prop)
    (hstep : ∀ s l, I s → ok s l → ∃ t, next s l = some t ∧ I t) :
    ∀ {s : S} (ls : List L), I s → Meets next ok s ls → ∃ t, exec next s ls = some t ∧ I t
  | s, [], hs, _ => ⟨s, rfl, hs⟩
  | s, l :: ls, hs, hok => by
      obtain ⟨u, hu, hI⟩ := hstep s l hs hok.1
      obtain ⟨t, ht, hIt⟩ := exec_of_meets I hstep ls hI (hok.2 u hu)
      refine ⟨t, ?_, hIt⟩
      rw [exec, hu]
      apply ht

/-- What every step of a loop over a list preserves, the loop preserves. -/
theorem foldlM_invariant {A : Type*} {f : S → A → Option S} (I : S → Prop)
    (hstep : ∀ s a t, I s → f s a = some t → I t) :
    ∀ {l : List A} {s t : S}, I s → l.foldlM f s = some t → I t
  | [], s, t, hs, h => by
      obtain rfl := Option.some.inj h
      apply hs
  | a :: l, s, t, hs, h => by
      rw [List.foldlM_cons] at h
      obtain ⟨u, hu, ht⟩ := Option.bind_eq_some_iff.mp h
      apply foldlM_invariant I hstep (hstep s a u hs hu) ht

theorem reachable_of_exec :
    ∀ {s t : S} (ls : List L), exec next s ls = some t → Reachable next s t
  | s, t, [], h => by
      obtain rfl := Option.some.inj h
      apply Guarded.refl
  | s, t, l :: ls, h => by
      obtain ⟨u, hu, ht⟩ := Option.bind_eq_some_iff.mp h
      apply Guarded.trans (Guarded.step Guarded.refl trivial hu)
      apply reachable_of_exec ls ht

/-- A test that the last state of a run passes. -/
theorem exists_of_any (next : S → L → Option S) (s : S) (ls : List L) (p : S → Bool)
    (h : (exec next s ls).any p = true) :
  ∃ t, exec next s ls = some t ∧ p t = true
  := by
  rw [Option.any_eq_true] at h
  apply h

/-- Every run from a state comes to one with the property `P`: until then a step is enabled,
and from every step on it is inevitable. -/
inductive Inevitable (next : S → L → Option S) (P : S → Prop) : S → Prop
  | here {s : S} : P s → Inevitable next P s
  | step {s : S} : (∃ l t, next s l = some t) →
      (∀ l t, next s l = some t → Inevitable next P t) → Inevitable next P s

/-- What is inevitable from every state that is inevitable is inevitable. -/
theorem Inevitable.trans {P Q : S → Prop} {s : S} (h : Inevitable next P s)
    (hPQ : ∀ t, P t → Inevitable next Q t) :
  Inevitable next Q s
  := by
  induction h with
  | here hs => apply hPQ _ hs
  | step hex _ ih => apply Inevitable.step hex ih

theorem Inevitable.mono {P Q : S → Prop} {s : S} (h : Inevitable next P s)
    (hPQ : ∀ t, P t → Q t) :
  Inevitable next Q s
  := by
  apply h.trans
  intro t ht
  apply Inevitable.here (hPQ t ht)

/-- A property is inevitable when some step is enabled until it holds and every step until
then brings a measure down. -/
theorem inevitable_of_measure {P : S → Prop} (I : S → Prop) (μ : S → ℕ)
    (henabled : ∀ s, I s → ¬ P s → ∃ l t, next s l = some t)
    (hstep : ∀ s l t, I s → ¬ P s → next s l = some t → I t ∧ μ t < μ s) {s : S} (hs : I s) :
  Inevitable next P s
  := by
  induction hμ : μ s using Nat.strongRecOn generalizing s with
  | _ n ih =>
      subst hμ
      by_cases hP : P s
      · apply Inevitable.here hP
      · apply Inevitable.step (henabled s hs hP)
        intro l t ht
        obtain ⟨hI, hlt⟩ := hstep s l t hs hP ht
        apply ih (μ t) hlt hI rfl

/-- The steps that meet the condition `ok`, alone. -/
def restrict (next : S → L → Option S) (ok : S → L → Prop) [∀ s l, Decidable (ok s l)] (s : S)
    (l : L) : Option S :=
  if ok s l then next s l else none

theorem restrict_eq_some {ok : S → L → Prop} [∀ s l, Decidable (ok s l)] {s t : S} {l : L} :
  restrict next ok s l = some t ↔ ok s l ∧ next s l = some t
  := by
  rw [restrict]
  split
  · rename_i hok
    simp [hok]
  · rename_i hok
    simp [hok]

end Run
