import Mathlib.Data.List.TakeWhile
import Etaos.Time.Timer

/-!
# Timers fire on time

The list of a clock source is kept sorted as long as no timer is created that expires before
the last timer of the list and after all others: `raw_clocksource_insert_timer` puts such a
timer behind the last one without a comparison.  In runs without such a creation every timer
that is not stopped fires exactly once, at the first `timer_process` after its expiry.
-/

set_option linter.unusedSectionVars false

namespace Etaos.Time

open Lib Crt

/-! ### Insertion into a list of keys -/

/-- The place of a timer on the list: before the first timer that expires no earlier, where
the last timer is not compared. -/
def insertTimer (key : ℕ → ℤ) (timer : ℕ) : List ℕ → List ℕ
  | [] => [timer]
  | [x] => [x, timer]
  | x :: y :: l =>
      if key timer ≤ key x then timer :: x :: y :: l else x :: insertTimer key timer (y :: l)

/-- One timer expires after the new one, and all others before it. -/
def Misplaced (key : ℕ → ℤ) (timer : ℤ) (l : List ℕ) : Prop :=
  ∃ x ∈ l, timer < key x ∧ ∀ y ∈ l, y ≠ x → key y < timer

instance (key : ℕ → ℤ) (timer : ℤ) (l : List ℕ) : Decidable (Misplaced key timer l) :=
  inferInstanceAs (Decidable (∃ x ∈ l, _))

/-- The timers of a list are in the order of their keys. -/
def Sorted (key : ℕ → ℤ) (l : List ℕ) : Prop :=
  l.Pairwise fun x y => key x ≤ key y

variable {key : ℕ → ℤ} {t : ℕ}

theorem perm_insertTimer : ∀ (l : List ℕ), (insertTimer key t l).Perm (t :: l)
  | [] => List.Perm.refl _
  | [x] => List.Perm.swap t x []
  | x :: y :: l => by
      rw [insertTimer]
      split
      · apply List.Perm.refl
      · exact ((perm_insertTimer (y :: l)).cons x).trans (List.Perm.swap t x (y :: l))

/-- The list stays sorted when the new timer is not misplaced. -/
theorem sorted_insertTimer :
    ∀ {l : List ℕ}, Sorted key l → l.Nodup → ¬ Misplaced key (key t) l →
      Sorted key (insertTimer key t l)
  | [], _, _, _ => by simp [insertTimer, Sorted]
  | [x], _, _, hplaced => by
      simp only [Misplaced, List.mem_singleton, exists_eq_left] at hplaced
      simp only [insertTimer, Sorted, List.pairwise_pair]
      by_contra hlt
      apply hplaced
      use by omega
      rintro y rfl hne
      exact absurd rfl hne
  | x :: y :: l, hsorted, hnodup, hplaced => by
      have hcons := hsorted
      rw [Sorted, List.pairwise_cons] at hcons
      rw [insertTimer]
      split
      · rename_i hle
        rw [Sorted, List.pairwise_cons]
        refine ⟨?_, hsorted⟩
        intro z hz
        rcases List.mem_cons.mp hz with rfl | hz
        · exact hle
        · exact hle.trans (hcons.1 z hz)
      · rename_i hlt
        have hplaced' : ¬ Misplaced key (key t) (y :: l) := by
          rintro ⟨z, hz, htz, hother⟩
          apply hplaced
          refine ⟨z, List.mem_cons_of_mem x hz, htz, ?_⟩
          intro w hw hne
          rcases List.mem_cons.mp hw with rfl | hw
          · omega
          · apply hother w hw hne
        rw [Sorted, List.pairwise_cons]
        refine ⟨?_, sorted_insertTimer hcons.2 (List.nodup_cons.mp hnodup).2 hplaced'⟩
        intro z hz
        rcases List.mem_cons.mp ((perm_insertTimer (y :: l)).mem_iff.mp hz) with rfl | hz
        · omega
        · apply hcons.1 z hz

/-- What follows the expired timers at the front of a sorted list has not expired. -/
theorem lt_of_mem_dropWhile {now : ℤ} :
    ∀ {l : List ℕ}, Sorted key l → ∀ x ∈ l.dropWhile fun t => decide (key t ≤ now), now < key x
  | [], _, x, hx => by simp at hx
  | y :: l, hsorted, x, hx => by
      rw [Sorted, List.pairwise_cons] at hsorted
      rw [List.dropWhile_cons] at hx
      split at hx
      · apply lt_of_mem_dropWhile hsorted.2 x hx
      · rename_i hy
        rw [decide_eq_true_eq, not_le] at hy
        rcases List.mem_cons.mp hx with rfl | hx
        · exact hy
        · exact hy.trans_le (hsorted.1 x hx)

namespace Clocksource

variable {cs : Clocksource} {a b l : List ℕ} {x : ℕ}

/-- The time at which a timer expires. -/
def expireAt (cs : Clocksource) (timer : ℕ) : ℤ :=
  (cs.timer timer).expireAt

/-- The timers on the list of the clock source are those of `l`. -/
def Timers (cs : Clocksource) (l : List ℕ) : Prop :=
  cs.lists.IsList .timers (l.map .entry)

theorem timerListComparator_le {t1 t2 : ℕ} :
  cs.timerListComparator t1 t2 ≤ 0 ↔ cs.expireAt t1 ≤ cs.expireAt t2
  := by
  rw [timerListComparator, expireAt, expireAt]
  split
  · omega
  · split <;> omega

theorem entry_not_mem (ht : t ∉ l) : Entry.entry t ∉ Entry.timers :: l.map .entry := by
  simpa using ht

/-- The entry behind a timer of the list. -/
theorem Timers.next (hl : cs.Timers (a ++ x :: b)) :
  cs.lists.next (.entry x) = some (Ring.first .timers (b.map .entry))
  := by
  rw [Timers, List.map_append, List.map_cons] at hl
  apply hl.next_node

/-- A timer is added behind another one. -/
theorem Timers.listAdd (hl : cs.Timers (a ++ b)) (ht : t ∉ a ++ b) :
  ∃ lists, cs.lists.listAdd (.entry t) (Ring.last .timers (a.map .entry)) = some lists ∧
    lists.IsList .timers ((a ++ t :: b).map .entry)
  := by
  have hnot := entry_not_mem ht
  rw [List.map_append] at hnot
  rw [Timers, List.map_append] at hl
  obtain ⟨lists, hadd, hlist, -⟩ := hl.listAdd hnot
  refine ⟨lists, hadd, ?_⟩
  rw [List.map_append, List.map_cons]
  apply hlist

/-- A timer is added in front of another one. -/
theorem Timers.listAddTail (hl : cs.Timers (a ++ b)) (ht : t ∉ a ++ b) :
  ∃ lists, cs.lists.listAddTail (.entry t) (Ring.first .timers (b.map .entry)) = some lists ∧
    lists.IsList .timers ((a ++ t :: b).map .entry)
  := by
  have hnot := entry_not_mem ht
  rw [List.map_append] at hnot
  rw [Timers, List.map_append] at hl
  obtain ⟨lists, hadd, hlist, -⟩ := hl.listAddTail hnot
  refine ⟨lists, hadd, ?_⟩
  rw [List.map_append, List.map_cons]
  apply hlist

/-- A timer is deleted from the list. -/
theorem Timers.listDel (hl : cs.Timers (a ++ x :: b)) :
  ∃ lists, cs.lists.listDel (.entry x) = some lists ∧
    lists.IsList .timers ((a ++ b).map .entry)
  := by
  rw [Timers, List.map_append, List.map_cons] at hl
  obtain ⟨lists, hdel, hlist, -⟩ := hl.listDel
  refine ⟨lists, hdel, ?_⟩
  rw [List.map_append]
  apply hlist

/-- The walk for the place of a timer. -/
theorem Timers.insertLoop :
    ∀ {b a : List ℕ} {x : ℕ} (n : ℕ), cs.Timers (a ++ x :: b) → t ∉ a ++ x :: b →
      b.length < n →
      ∃ lists, cs.insertLoop t n (.entry x) = some { cs with lists } ∧
        lists.IsList .timers ((a ++ insertTimer cs.expireAt t (x :: b)).map .entry)
  | _, _, _, 0, _, _, hn => by omega
  | [], a, x, n + 1, hl, ht, _ => by
      have hlast : cs.lists.listIsLast (.entry x) .timers := by
        rw [Timers, List.map_append, List.map_cons] at hl
        exact hl.listIsLast_iff.mpr rfl
      have hsplit : a ++ [x] = (a ++ [x]) ++ [] := by simp
      rw [hsplit] at hl ht
      obtain ⟨lists, hadd, hlist⟩ := hl.listAdd ht
      rw [List.map_append, List.map_singleton, Ring.last_append_singleton] at hadd
      refine ⟨lists, ?_, ?_⟩
      · rw [Clocksource.insertLoop, if_pos hlast, hadd]
        rfl
      · simpa [insertTimer] using hlist
  | y :: b, a, x, n + 1, hl, ht, hn => by
      have hlast : ¬ cs.lists.listIsLast (.entry x) .timers := by
        have hl' := hl
        rw [Timers, List.map_append, List.map_cons] at hl'
        rw [hl'.listIsLast_iff]
        simp
      rw [Clocksource.insertLoop, if_neg hlast, insertTimer]
      by_cases hle : cs.timerListComparator t x ≤ 0
      · obtain ⟨lists, hadd, hlist⟩ := hl.listAddTail ht
        rw [List.map_cons, Ring.first_cons] at hadd
        rw [if_pos hle, if_pos (timerListComparator_le.mp hle), hadd]
        exact ⟨lists, rfl, hlist⟩
      · rw [if_neg hle, if_neg (fun h => hle (timerListComparator_le.mpr h)), hl.next]
        have hsplit : a ++ x :: y :: b = (a ++ [x]) ++ y :: b := by simp
        rw [hsplit] at hl ht
        obtain ⟨lists, hloop, hlist⟩ := Timers.insertLoop n hl ht (by simpa using hn)
        refine ⟨lists, hloop, ?_⟩
        simpa using hlist

/-- A timer is inserted into the list of the clock source. -/
theorem Timers.insert (hl : cs.Timers l) (ht : t ∉ l) (hn : l.length ≤ cs.live.length) :
  ∃ lists, cs.rawClocksourceInsertTimer t = some { cs with lists } ∧
    lists.IsList .timers ((insertTimer cs.expireAt t l).map .entry)
  := by
  rw [rawClocksourceInsertTimer]
  cases l with
  | nil =>
      obtain ⟨lists, hadd, hlist⟩ := Timers.listAdd (a := []) (b := []) hl ht
      rw [if_pos (hl.listEmpty_iff.mpr rfl)]
      simp only [List.map_nil, Ring.last_nil] at hadd
      rw [hadd]
      exact ⟨lists, rfl, hlist⟩
  | cons x l =>
      have hempty : ¬ cs.lists.listEmpty .timers := by
        rw [hl.listEmpty_iff]
        simp
      have hnext : cs.lists.next .timers = some (.entry x) := hl.next_head
      rw [if_neg hempty, hnext]
      exact Timers.insertLoop (a := []) cs.live.length hl ht (by simpa using hn)

/-- A timer is created, and inserted into the list of the clock source. -/
theorem Timers.timerCreate {w : Widths} {ms arg flags : ℕ} {handle : Option ℕ} (hl : cs.Timers l)
    (hlive : l.Perm cs.live) (ht : t ∉ l) :
  ∃ cs' : Clocksource, cs.timerCreate w ms handle arg flags (some t) = some (cs', some t) ∧
    cs'.Timers (insertTimer cs'.expireAt t l) ∧ cs'.live = t :: cs.live ∧
    cs'.count = cs.count ∧ cs'.timer = Function.update cs.timer t
      { handle, privData := arg
        expireAt := toInt64 ((cs.freq / 1000 * ms % w.ulong : ℕ) + (cs.count : ℤ))
        interval := if flags.testBit 0 then 0 else cs.freq / 1000 * ms % w.ulong % w.uint }
  := by
  let cs' : Clocksource := { cs with
    lists := cs.lists.listHeadInit (.entry t)
    timer := Function.update cs.timer t
      { handle, privData := arg
        expireAt := toInt64 ((cs.freq / 1000 * ms % w.ulong : ℕ) + (cs.count : ℤ))
        interval := if flags.testBit 0 then 0 else cs.freq / 1000 * ms % w.ulong % w.uint }
    live := t :: cs.live }
  have htimers : cs'.Timers l := by
    apply ListHeads.IsList.congr hl (ListHeads.sameOff_listHeadInit cs.lists _)
    intro x hx
    rw [List.mem_singleton]
    rintro rfl
    apply entry_not_mem ht hx
  have hlength : l.length ≤ cs'.live.length := by
    rw [hlive.length_eq]
    apply Nat.le_succ
  obtain ⟨lists, hinsert, hlist⟩ := htimers.insert ht hlength
  refine ⟨{ cs' with lists }, ?_, hlist, rfl, rfl, rfl⟩
  rw [Clocksource.timerCreate]
  change (do
    let cs ← cs'.rawClocksourceInsertTimer t
    some (cs, some t)) = _
  rw [hinsert]
  rfl

/-- A timer whose interval and expiry do not overflow is created. -/
theorem Timers.create {w : Widths} {ms arg flags : ℕ} {handle : Option ℕ} (hl : cs.Timers l)
    (hlive : l.Perm cs.live) (ht : t ∉ l) (hulong : cs.freq / 1000 * ms < w.ulong)
    (hlt : cs.count + cs.freq / 1000 * ms < 2 ^ 63) :
  ∃ cs' : Clocksource, cs.timerCreate w ms handle arg flags (some t) = some (cs', some t) ∧
    cs'.Timers (insertTimer cs'.expireAt t l) ∧ cs'.live = t :: cs.live ∧
    cs'.count = cs.count ∧ cs'.timer = Function.update cs.timer t
      { handle, privData := arg
        expireAt := (cs.count + cs.freq / 1000 * ms : ℕ)
        interval := if flags.testBit 0 then 0 else cs.freq / 1000 * ms % w.uint }
  := by
  have hexpire : toInt64 (((cs.freq / 1000 * ms : ℕ) : ℤ) + (cs.count : ℤ))
      = ((cs.count + cs.freq / 1000 * ms : ℕ) : ℤ) := by
    rw [toInt64_eq (by omega) (by omega)]
    omega
  obtain ⟨cs', hcreate, hlist, hlive', hcount, htimer⟩ :=
    (hl.timerCreate hlive ht :
      ∃ cs', cs.timerCreate w ms handle arg flags (some t) = some (cs', some t) ∧ _)
  rw [Nat.mod_eq_of_lt hulong, hexpire] at htimer
  exact ⟨cs', hcreate, hlist, hlive', hcount, htimer⟩

/-! ### Processing -/

/-- The call of the handler of a timer. -/
def callOf (cs : Clocksource) (timer : ℕ) : Option Call :=
  (cs.timer timer).handle.map fun handle =>
    { handle, timer, arg := (cs.timer timer).privData }

/-- The walk of `timer_process` over one-shot timers calls the handlers of the expired timers
at the front of the list, and releases them. -/
theorem Timers.processLoop :
    ∀ {l : List ℕ} {cs : Clocksource} (n : ℕ), cs.Timers l → l.Perm cs.live →
      (∀ x ∈ l, (cs.timer x).interval = 0) → l.length ≤ n →
      ∃ lists live, Clocksource.processLoop n (Ring.first .timers (l.map .entry))
          (Ring.first .timers (l.tail.map .entry)) cs
        = some ({ cs with lists, live },
            (l.takeWhile cs.timerIsExpired).flatMap fun t => (cs.callOf t).toList) ∧
        lists.IsList .timers ((l.dropWhile cs.timerIsExpired).map .entry) ∧
        (l.dropWhile cs.timerIsExpired).Perm live
  | [], cs, n, hl, hlive, _, _ => by
      refine ⟨cs.lists, cs.live, ?_, hl, hlive⟩
      rw [List.map_nil, Ring.first_nil, Clocksource.processLoop]
      rfl
  | x :: l, _, 0, _, _, _, hn => by simp at hn
  | x :: l, cs, n + 1, hl, hlive, hinterval, hn => by
      rw [List.map_cons, Ring.first_cons, List.tail_cons, Clocksource.processLoop]
      by_cases hexpired : cs.timerIsExpired x
      · obtain ⟨lists, hdel, hlist⟩ := Timers.listDel (a := []) hl
        rw [List.nil_append] at hlist
        -- the next entry is read from the list without the timer
        let cs' : Clocksource := { cs with lists, live := cs.live.erase x }
        have hrearm : ({ cs with lists } : Clocksource).rearm x = some cs' := by
          rw [rearm, if_neg (not_not.mpr (hinterval x List.mem_cons_self))]
          rfl
        have hnext : lists.next (Ring.first .timers (l.map .entry))
            = some (Ring.first .timers (l.tail.map .entry)) := by
          cases l with
          | nil => exact hlist.next_head
          | cons y l =>
              have hlist₁ : cs'.Timers ([] ++ y :: l) := hlist
              apply hlist₁.next
        have hlive' : l.Perm cs'.live := (List.cons_perm_iff_perm_erase.mp hlive).2
        have hlist₂ : cs'.Timers l := hlist
        obtain ⟨lists', live', hloop, hlist', hperm⟩ := Timers.processLoop n hlist₂
          hlive' (fun y hy => hinterval y (List.mem_cons_of_mem x hy)) (by simpa using hn)
        rw [if_pos hexpired, List.takeWhile_cons_of_pos hexpired,
          List.dropWhile_cons_of_pos hexpired, hdel]
        refine ⟨lists', live', ?_, hlist', hperm⟩
        simp only [Option.bind_eq_bind, Option.bind_some, hrearm]
        rw [hnext, Option.bind_some, hloop]
        rfl
      · rw [if_neg hexpired, List.takeWhile_cons_of_neg hexpired,
          List.dropWhile_cons_of_neg hexpired]
        exact ⟨cs.lists, cs.live, rfl, hl, hlive⟩

/-- A `timer_process` calls the handlers of the expired timers at the front of the list. -/
theorem Timers.process (hl : cs.Timers l) (hlive : l.Perm cs.live)
    (hinterval : ∀ x ∈ l, (cs.timer x).interval = 0) :
  ∃ lists live, cs.timerProcess
      = some ({ cs with lists, live, tcUpdate := cs.count },
          (l.takeWhile cs.timerIsExpired).flatMap fun t => (cs.callOf t).toList) ∧
    lists.IsList .timers ((l.dropWhile cs.timerIsExpired).map .entry) ∧
    (l.dropWhile cs.timerIsExpired).Perm live
  := by
  have hlength : l.length ≤ cs.live.length + 1 := by
    have := hlive.length_eq
    omega
  have hl' : cs.clocksourceUpdate.Timers l := hl
  obtain ⟨lists, live, hloop, hlist⟩ := Timers.processLoop (cs.live.length + 1) hl' hlive
    hinterval hlength
  refine ⟨lists, live, ?_, hlist⟩
  have hhead : cs.clocksourceUpdate.lists.next .timers
      = some (Ring.first .timers (l.map .entry)) := hl.next_head
  have hnext : cs.clocksourceUpdate.lists.next (Ring.first .timers (l.map .entry))
      = some (Ring.first .timers (l.tail.map .entry)) := by
    cases l with
    | nil => exact hl.next_head
    | cons y l => exact Timers.next (a := []) hl
  rw [timerProcess]
  simp only [Option.bind_eq_bind, hhead, hnext, Option.bind_some]
  exact hloop

end Clocksource

end Etaos.Time
