import Etaos.Time.Expiry

/-!
# The order of the timers

The list of a clock source under insertions and removals.  A new timer is inserted in order,
unless it expires before the last timer of the list and after all others.
-/

namespace Etaos.Time

open Lib Crt

variable {key : ℕ → ℤ} {t : ℕ}

/-! ### One insertion -/

/-- A timer that is misplaced leaves the list unsorted. -/
theorem not_sorted_insertTimer :
    ∀ {l : List ℕ}, Sorted key l → l.Nodup → Misplaced key (key t) l →
      ¬ Sorted key (insertTimer key t l)
  | [], _, _, hplaced => by simp [Misplaced] at hplaced
  | [x], _, _, hplaced => by
      obtain ⟨y, hy, hlt, -⟩ := hplaced
      obtain rfl := List.mem_singleton.mp hy
      rw [insertTimer, Sorted, List.pairwise_pair]
      omega
  | x :: y :: l, hsorted, hnodup, hplaced => by
      rw [Sorted, List.pairwise_cons] at hsorted
      rw [List.nodup_cons] at hnodup
      obtain ⟨z, hz, hlt, hother⟩ := hplaced
      -- the one timer that expires later is not the first one
      have hzx : z ≠ x := by
        rintro rfl
        have hyz : y ≠ z := fun heq => hnodup.1 (heq ▸ List.mem_cons_self)
        have := hother y (by simp) hyz
        have := hsorted.1 y (by simp)
        omega
      have hx : key x < key t := hother x (by simp) hzx.symm
      have hrest : Misplaced key (key t) (y :: l) := by
        refine ⟨z, ?_, hlt, ?_⟩
        · rcases List.mem_cons.mp hz with heq | hz
          · exact absurd heq hzx
          · exact hz
        · intro w hw hne
          apply hother w (List.mem_cons_of_mem x hw) hne
      rw [insertTimer, if_neg (by omega), Sorted, List.pairwise_cons]
      rintro ⟨-, htail⟩
      apply not_sorted_insertTimer hsorted.2 hnodup.2 hrest htail

namespace Clocksource

variable {cs : Clocksource} {l : List ℕ}

theorem Timers.nodup (hl : cs.Timers l) : l.Nodup :=
  (List.nodup_cons.mp (Ring.IsRing.nodup hl)).2.of_map _

/-- The list of a clock source is the list of one sequence of timers only. -/
theorem Timers.unique {l' : List ℕ} (hl : cs.Timers l) (hl' : cs.Timers l') : l = l' := by
  have hinj : Function.Injective Entry.entry := fun x y heq => Entry.entry.inj heq
  apply hinj.list_map
  apply Ring.IsRing.unique hl hl'

/-- The insertion of a timer succeeds, and leaves the list sorted unless it is misplaced. -/
theorem Timers.insert_sorted_iff (hl : cs.Timers l) (hlive : l.Perm cs.live)
    (hsorted : Sorted cs.expireAt l) (ht : t ∉ l) :
  (∃ cs' l', cs.rawClocksourceInsertTimer t = some cs' ∧ cs'.Timers l' ∧
      l'.Perm (t :: l) ∧ Sorted cs'.expireAt l') ↔
    ¬ Misplaced cs.expireAt (cs.expireAt t) l
  := by
  obtain ⟨lists, hinsert, hlist⟩ := hl.insert ht hlive.length_eq.le
  constructor
  · rintro ⟨cs', l', hinsert', hl', -, hsorted'⟩ hplaced
    obtain rfl := Option.some.inj (hinsert.symm.trans hinsert')
    have heq : insertTimer cs.expireAt t l = l' :=
      Timers.unique (show Timers { cs with lists } _ from hlist) hl'
    subst heq
    exact not_sorted_insertTimer hsorted hl.nodup hplaced hsorted'
  · intro hplaced
    exact ⟨_, _, hinsert, hlist, perm_insertTimer l,
      sorted_insertTimer hsorted hl.nodup hplaced⟩

/-! ### Runs -/

/-- What happens to the list of a clock source. -/
inductive ListOp where
  | insert (timer : ℕ) (expireAt : ℤ)
  | remove (timer : ℕ)
  deriving DecidableEq

/-- A step of the list.  The timers that are on it are live. -/
def listStep (cs : Clocksource) : ListOp → Option Clocksource
  | .insert timer expireAt =>
      { cs with
        timer := Function.update cs.timer timer { cs.timer timer with expireAt }
        live := timer :: cs.live }
        |>.rawClocksourceInsertTimer timer
  | .remove timer => do
      let lists ← cs.lists.listDel (.entry timer)
      some { cs with lists, live := cs.live.erase timer }

/-- The condition on a step: a timer that is inserted is new and not misplaced, and one that
is removed is on the list. -/
def ListOk (cs : Clocksource) : ListOp → Prop
  | .insert timer expireAt => timer ∉ cs.live ∧ ¬ Misplaced cs.expireAt expireAt cs.live
  | .remove timer => timer ∈ cs.live

instance (cs : Clocksource) : (op : ListOp) → Decidable (cs.ListOk op)
  | .insert _ _ => inferInstanceAs (Decidable (_ ∧ _))
  | .remove _ => inferInstanceAs (Decidable (_ ∈ _))

/-- The list is sorted, and has every live timer once. -/
def InOrder (cs : Clocksource) : Prop :=
  ∃ l, cs.Timers l ∧ l.Perm cs.live ∧ Sorted cs.expireAt l

/-- A timer is inserted. -/
theorem InOrder.insert (h : cs.InOrder) {v : ℤ} (ht : t ∉ cs.live)
    (hplaced : ¬ Misplaced cs.expireAt v cs.live) :
  ∃ cs', cs.listStep (.insert t v) = some cs' ∧ cs'.InOrder
  := by
  obtain ⟨l, hl, hlive, hsorted⟩ := h
  have htl : t ∉ l := fun hin => ht (hlive.mem_iff.mp hin)
  let cs₀ : Clocksource := { cs with
    timer := Function.update cs.timer t { cs.timer t with expireAt := v }
    live := t :: cs.live }
  have hkey (x : ℕ) (hx : x ∈ l) : cs₀.expireAt x = cs.expireAt x := by
    have hne : x ≠ t := fun heq => htl (heq ▸ hx)
    simp only [cs₀, expireAt, Function.update_of_ne hne]
  have hkeyt : cs₀.expireAt t = v := by simp [cs₀, expireAt]
  have hl₀ : cs₀.Timers l := hl
  have hsorted₀ : Sorted cs₀.expireAt l := by
    apply hsorted.imp_of_mem
    intro x y hx hy hxy
    rwa [hkey x hx, hkey y hy]
  have hplaced₀ : ¬ Misplaced cs₀.expireAt (cs₀.expireAt t) l := by
    rintro ⟨x, hx, hlt, hother⟩
    apply hplaced
    rw [hkeyt, hkey x hx] at hlt
    refine ⟨x, hlive.mem_iff.mp hx, hlt, ?_⟩
    intro y hy hne
    have hyl := hlive.mem_iff.mpr hy
    rw [← hkey y hyl, ← hkeyt]
    apply hother y hyl hne
  obtain ⟨lists, hinsert, hlist⟩ := hl₀.insert htl (by simp [cs₀, hlive.length_eq])
  refine ⟨{ cs₀ with lists }, hinsert, _, hlist, ?_,
    sorted_insertTimer hsorted₀ hl.nodup hplaced₀⟩
  apply (perm_insertTimer l).trans (hlive.cons t)

/-- A timer is removed. -/
theorem InOrder.remove (h : cs.InOrder) (ht : t ∈ cs.live) :
  ∃ cs', cs.listStep (.remove t) = some cs' ∧ cs'.InOrder
  := by
  obtain ⟨l, hl, hlive, hsorted⟩ := h
  obtain ⟨a, b, rfl⟩ := List.append_of_mem (hlive.mem_iff.mpr ht)
  obtain ⟨lists, hdel, hlist⟩ := hl.listDel
  have hsub : (a ++ b).Sublist (a ++ t :: b) := (List.sublist_cons_self t b).append_left a
  refine ⟨{ cs with lists, live := cs.live.erase t }, ?_, a ++ b, hlist, ?_,
    hsorted.sublist hsub⟩
  · rw [listStep, hdel]
    rfl
  · exact (List.cons_perm_iff_perm_erase.mp (List.perm_middle.symm.trans hlive)).2

/-- A step keeps the list in order. -/
theorem InOrder.step (h : cs.InOrder) {op : ListOp} (hop : cs.ListOk op) :
  ∃ cs', cs.listStep op = some cs' ∧ cs'.InOrder
  := by
  cases op with
  | insert t v => apply h.insert hop.1 hop.2
  | remove t => apply h.remove hop

/-- A run keeps the list in order. -/
theorem InOrder.exec (h : cs.InOrder) {ops : List ListOp} (hok : Run.Meets listStep ListOk cs ops) :
  ∃ cs', Run.exec listStep cs ops = some cs' ∧ cs'.InOrder
  := Run.exec_of_meets InOrder (fun _ _ h hop => h.step hop) ops h hok

/-- A new timer is inserted in order exactly when it is not misplaced, and so the list stays
in order in every run of insertions of such timers and of removals. -/
theorem sorted_insert_iff (hl : cs.Timers l) (hlive : l.Perm cs.live)
    (hsorted : Sorted cs.expireAt l) :
  (∀ t ∉ l, (∃ cs' l', cs.rawClocksourceInsertTimer t = some cs' ∧ cs'.Timers l' ∧
      l'.Perm (t :: l) ∧ Sorted cs'.expireAt l') ↔
        ¬ Misplaced cs.expireAt (cs.expireAt t) l) ∧
    ∀ ops, Run.Meets listStep ListOk cs ops →
      ∃ cs', Run.exec listStep cs ops = some cs' ∧ cs'.InOrder
  := by
  constructor
  · intro t ht
    apply hl.insert_sorted_iff hlive hsorted ht
  · intro ops hok
    have h : cs.InOrder := ⟨l, hl, hlive, hsorted⟩
    apply h.exec hok

/-- A clock source without timers. -/
def idle : Clocksource :=
  (TimerSystem.init 1000).cs

theorem idle_timers : idle.Timers [] :=
  ListHeads.isList_listHeadInit ..

theorem idle_inOrder : idle.InOrder :=
  ⟨[], idle_timers, List.Perm.refl [], List.Pairwise.nil⟩

/-- The theorem applied to a list with two timers: a third one is inserted before them, between
them and behind them in a run that removes one of them. -/
theorem sorted_insert_iff_two :
  ∃ cs : Clocksource, Run.exec listStep idle [.insert 5 100, .insert 7 200] = some cs ∧
    cs.Timers [5, 7] ∧ Sorted cs.expireAt [5, 7] ∧
    ((∃ cs' l', cs.rawClocksourceInsertTimer 6 = some cs' ∧ cs'.Timers l' ∧
      l'.Perm [6, 5, 7] ∧ Sorted cs'.expireAt l') ↔
        ¬ Misplaced cs.expireAt (cs.expireAt 6) [5, 7]) ∧
    ∃ cs', Run.exec listStep cs
      [.insert 8 50, .remove 5, .insert 9 300, .insert 5 120, .remove 9] = some cs' ∧ cs'.InOrder
  := by
  obtain ⟨cs, hrun, l, hl, hlive, hsorted⟩ := idle_inOrder.exec
    (show Run.Meets listStep ListOk idle [.insert 5 100, .insert 7 200] by decide)
  obtain ⟨hkey5, hkey7, hcs⟩ : cs.expireAt 5 = 100 ∧ cs.expireAt 7 = 200 ∧ cs.live = [7, 5] := by
    obtain rfl := Option.some.inj hrun
    exact ⟨rfl, rfl, rfl⟩
  have hpair : l = [5, 7] := by
    rw [hcs] at hlive
    obtain ⟨a, b, rfl⟩ := List.length_eq_two.mp hlive.length_eq
    have ha : a = 7 ∨ a = 5 := by simpa using hlive.subset List.mem_cons_self
    have hb : b = 7 ∨ b = 5 := by simpa using hlive.subset (List.mem_cons_of_mem a (by simp))
    have hne : a ≠ b := by simpa using hl.nodup
    have hle : cs.expireAt a ≤ cs.expireAt b := by simpa [Sorted] using hsorted
    rcases ha with rfl | rfl <;> rcases hb with rfl | rfl
    · exact absurd rfl hne
    · omega
    · rfl
    · exact absurd rfl hne
  subst hpair
  obtain ⟨hinsert, hruns⟩ := sorted_insert_iff hl hlive hsorted
  refine ⟨cs, hrun, hl, hsorted, hinsert 6 (by decide), hruns _ ?_⟩
  obtain rfl := Option.some.inj hrun
  decide

/-- A timer that expires at 10 is inserted behind the only other one, which expires at 100. -/
theorem unsorted_insert :
  ∃ cs : Clocksource, cs.Timers [5] ∧ [5].Perm cs.live ∧ Sorted cs.expireAt [5] ∧
    cs.expireAt 5 = 100 ∧ cs.expireAt 6 = 10 ∧
    ¬ ∃ cs' l', cs.rawClocksourceInsertTimer 6 = some cs' ∧ cs'.Timers l' ∧
      l'.Perm [6, 5] ∧ Sorted cs'.expireAt l'
  := by
  let cs₀ : Clocksource := { idle with
    timer := Function.update idle.timer 6 { idle.timer 6 with expireAt := 10 } }
  have h₀ : cs₀.InOrder := ⟨[], idle_timers, List.Perm.refl [], List.Pairwise.nil⟩
  obtain ⟨cs, hrun, l, hl, hlive, hsorted⟩ :=
    h₀.insert (t := 5) (v := 100) List.not_mem_nil (by decide)
  obtain ⟨hkey5, hkey6, hcs⟩ : cs.expireAt 5 = 100 ∧ cs.expireAt 6 = 10 ∧ cs.live = [5] := by
    obtain rfl := Option.some.inj hrun
    exact ⟨rfl, rfl, rfl⟩
  rw [hcs] at hlive
  obtain rfl := List.perm_singleton.mp hlive
  refine ⟨cs, hl, hcs ▸ List.Perm.refl _, hsorted, hkey5, hkey6, ?_⟩
  have hlive' : [5].Perm cs.live := by rw [hcs]
  rw [hl.insert_sorted_iff hlive' hsorted (by decide), not_not]
  refine ⟨5, by simp, by omega, ?_⟩
  rintro y hy hne
  exact absurd (List.mem_singleton.mp hy) hne

end Clocksource

end Etaos.Time
