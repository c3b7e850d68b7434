import Mathlib.Algebra.BigOperators.Group.Finset.Piecewise
import Mathlib.Algebra.Order.BigOperators.Group.Finset
import Mathlib.Data.Fintype.Basic
import Mathlib.Tactic.Ring

/-!
# Tallies of the places of processes

Finitely many processes `T` are each at some place `P`.  `tally w pc` adds up a weight of
their places: with the weight that is one at some places and zero at the others, it counts
the processes there.
-/

variable {T P : Type*}

/-- When one process goes to another place, some process is still at a place where `p` holds,
if that one is when it was. -/
theorem exists_update [DecidableEq T] {p : P → Bool} {pc : T → P} (t : T) {x : P}
    (h : ∃ u, p (pc u) = true) (hx : p (pc t) = true → p x = true) :
  ∃ u, p (Function.update pc t x u) = true
  := by
  obtain ⟨u, hu⟩ := h
  use u
  by_cases hut : u = t
  · rw [hut] at hu ⊢
    rw [Function.update_self, hx hu]
  · rw [Function.update_of_ne hut, hu]

/-- When one process went to another place, some process was at a place where `p` holds
before. -/
theorem exists_of_update [DecidableEq T] {p : P → Bool} {pc : T → P} {t : T} {x : P}
    (h : ∃ u, p (Function.update pc t x u) = true) (hx : p x = true → p (pc t) = true) :
  ∃ u, p (pc u) = true
  := by
  have hback := exists_update t (x := pc t) h
  rw [Function.update_self, Function.update_idem, Function.update_eq_self] at hback
  apply hback hx

variable [Fintype T]

/-- The sum of the weights of the places of all processes. -/
def tally (w : P → Int) (pc : T → P) : Int :=
  ∑ t, w (pc t)

/-- The weight of the places at which `p` holds. -/
def indicator (p : P → Bool) (x : P) : Int :=
  if p x then 1 else 0

theorem indicator_nonneg (p : P → Bool) (x : P) : 0 ≤ indicator p x := by
  rw [indicator]
  split
  · apply Int.one_nonneg
  · apply le_refl

/-- When one process goes to another place, the tally changes by the difference of the
weights. -/
theorem tally_update [DecidableEq T] (w : P → Int) (pc : T → P) (t : T) (x : P) :
  tally w (Function.update pc t x) = tally w pc - w (pc t) + w x
  := by
  have hcomp : (fun u => w (Function.update pc t x u))
      = Function.update (fun u => w (pc u)) t (w x) := by
    funext u
    apply Function.apply_update fun _ => w
  have hsum := Finset.add_sum_erase Finset.univ (fun u => w (pc u)) (Finset.mem_univ t)
  rw [tally, tally, hcomp, Finset.sum_update_of_mem (Finset.mem_univ t),
    Finset.sdiff_singleton_eq_erase, ← hsum]
  ring

theorem tally_nonneg {w : P → Int} (hw : ∀ x, 0 ≤ w x) (pc : T → P) : 0 ≤ tally w pc := by
  apply Finset.sum_nonneg
  intro t _
  apply hw

/-- No process weighs more than all of them. -/
theorem le_tally {w : P → Int} (hw : ∀ x, 0 ≤ w x) (pc : T → P) (t : T) :
  w (pc t) ≤ tally w pc
  := by
  apply Finset.single_le_sum (f := fun u => w (pc u)) _ (Finset.mem_univ t)
  intro u _
  apply hw

/-- A tally that is not zero has a process that weighs something. -/
theorem exists_of_tally_ne_zero {w : P → Int} {pc : T → P} (h : tally w pc ≠ 0) :
  ∃ t, w (pc t) ≠ 0
  := by
  obtain ⟨t, -, ht⟩ := Finset.exists_ne_zero_of_sum_ne_zero h
  use t

theorem tally_eq_zero {w : P → Int} {pc : T → P} (h : ∀ t, w (pc t) = 0) :
  tally w pc = 0
  := by
  apply Finset.sum_eq_zero
  intro t _
  apply h
