import Etaos.Time.Expiry

/-!
# Runs of a clock source

In every run in which no timer is misplaced on the list, each `timer_process` leaves exactly
the timers fired that were not stopped and that have expired.
-/

namespace Etaos.Time

open Lib Crt

/-- Whether a timer is misplaced depends on the keys of the timers only. -/
theorem Misplaced.congr {key key' : ℕ → ℤ} {v : ℤ} {l l' : List ℕ} (hperm : l.Perm l')
    (hkey : ∀ x ∈ l, key' x = key x) (h : Misplaced key v l) :
  Misplaced key' v l'
  := by
  obtain ⟨x, hx, hlt, hother⟩ := h
  refine ⟨x, hperm.mem_iff.mp hx, by rwa [hkey x hx], ?_⟩
  intro y hy hne
  have hy' := hperm.mem_iff.mpr hy
  rw [hkey y hy']
  apply hother y hy' hne

namespace TimerSystem

variable {w : Widths} {s : TimerSystem} {l : List ℕ}

/-- The condition on a step.  A timer that is created is a one-shot timer whose interval does
not overflow, `time_t` holds the time it expires at, and it is not misplaced.  A timer that is
stopped has neither been stopped before nor fired.  The tick count stays in `time_t`. -/
def Ok (w : Widths) (s : TimerSystem) : TimerOp → Prop
  | .create ms _ _ flags mem =>
      flags.testBit 0 ∧ s.cs.freq / 1000 * ms < w.ulong ∧ ∀ t ∈ mem, t ∉ s.cs.live ∧
        s.cs.count + s.cs.freq / 1000 * ms < 2 ^ 63 ∧
        ¬ Misplaced s.cs.expireAt (s.cs.count + s.cs.freq / 1000 * ms : ℕ) s.cs.live
  | .stop timer => timer ∈ s.cs.live
  | .tick n => s.cs.count + n < 2 ^ 63
  | .process => True

instance (s : TimerSystem) : (op : TimerOp) → Decidable (Ok w s op)
  | .create _ _ _ _ _ => inferInstanceAs (Decidable (_ ∧ _ ∧ ∀ t ∈ _, _))
  | .stop _ => inferInstanceAs (Decidable (_ ∈ _))
  | .tick _ => inferInstanceAs (Decidable (_ < _))
  | .process => inferInstanceAs (Decidable True)

/-- Exactly the timers that were not stopped and have expired were called, each of them once
and not early, and none of them is left on the list. -/
structure OnTime (s : TimerSystem) : Prop where
  fired_iff : ∀ i, i ∈ s.fired.map Prod.fst ↔
    i ∉ s.stopped ∧ ∃ e, s.expiry[i]? = some e ∧ e ≤ s.cs.count
  once : (s.fired.map Prod.fst).Nodup
  notEarly : ∀ p ∈ s.fired, ∃ e, s.expiry[p.1]? = some e ∧ e ≤ p.2
  noneLeft : ∃ l, s.cs.Timers l ∧ ∀ t ∈ l, (s.cs.count : ℤ) < s.cs.expireAt t

/-- The timers on the list are `l`.  They are the ones that are allocated, in the order in
which they expire, and with the timers that were stopped and those that fired they are all the
timers that were created. -/
structure Inv (s : TimerSystem) (l : List ℕ) : Prop where
  timers : s.cs.Timers l
  live : l.Perm s.cs.live
  count_lt : s.cs.count < 2 ^ 63
  oneShot : ∀ t ∈ l, (s.cs.timer t).interval = 0
  handled : ∀ t ∈ l, (s.cs.timer t).handle.isSome
  sorted : Sorted s.cs.expireAt l
  expiry : ∀ t ∈ l, ∃ e, s.expiry[s.serial t]? = some e ∧ s.cs.expireAt t = e
  once : (l.map s.serial ++ (s.stopped ++ s.fired.map Prod.fst)).Perm
    (List.range s.expiry.length)
  notEarly : ∀ p ∈ s.fired, ∃ e, s.expiry[p.1]? = some e ∧ e ≤ p.2 ∧ p.2 ≤ s.cs.count

theorem inv_init (freq : ℕ) : (init freq).Inv [] := by
  constructor
  · apply ListHeads.isList_listHeadInit
  all_goals simp [init, Clocksource.clocksourceInit, Sorted]

theorem Inv.nodup (h : s.Inv l) : l.Nodup := by
  have hnodup := (List.nodup_cons.mp h.timers.nodup).2
  apply List.Nodup.of_map _ hnodup

/-- A timer is created. -/
theorem Inv.create (h : s.Inv l) {ms handle arg flags : ℕ} {mem : Option ℕ}
    (hok : Ok w s (.create ms handle arg flags mem)) :
  ∃ u, step w s (.create ms handle arg flags mem) = some u ∧ ∃ l', u.Inv l'
  := by
  obtain ⟨hflag, hulong, hmem⟩ := hok
  cases mem with
  | none =>
      refine ⟨s, ?_, l, h⟩
      rw [step]
      simp [Clocksource.timerCreate]
  | some t =>
      obtain ⟨hlive, hlt, hplaced⟩ := hmem t rfl
      have ht : t ∉ l := fun hin => hlive (h.live.mem_iff.mp hin)
      have hne (x : ℕ) (hx : x ∈ l) : x ≠ t := fun heq => ht (heq ▸ hx)
      obtain ⟨cs', hcreate, hlist, hlive', hcount, htimer⟩ :=
        (h.timers.create h.live ht hulong hlt :
          ∃ cs', s.cs.timerCreate w ms (some handle) arg flags (some t) = some (cs', some t) ∧ _)
      rw [if_pos hflag] at htimer
      have hother (x : ℕ) (hx : x ∈ l) : cs'.timer x = s.cs.timer x := by
        rw [htimer, Function.update_of_ne (hne x hx)]
      have hkey (x : ℕ) (hx : x ∈ l) : cs'.expireAt x = s.cs.expireAt x := by
        rw [Clocksource.expireAt, hother x hx, Clocksource.expireAt]
      have hkeyt : cs'.expireAt t = ((s.cs.count + s.cs.freq / 1000 * ms : ℕ) : ℤ) := by
        rw [Clocksource.expireAt, htimer, Function.update_self]
      have hperm : (insertTimer cs'.expireAt t l).Perm (t :: l) := perm_insertTimer l
      have hmem (x : ℕ) : x ∈ insertTimer cs'.expireAt t l ↔ x = t ∨ x ∈ l :=
        hperm.mem_iff.trans List.mem_cons
      refine ⟨{ s with
        cs := cs'
        expiry := s.expiry ++ [s.cs.count + s.cs.freq / 1000 * ms]
        serial := Function.update s.serial t s.expiry.length }, ?_,
        insertTimer cs'.expireAt t l, hlist, ?_, ?_, ?_, ?_, ?_, ?_, ?_, ?_⟩
      · rw [step, hcreate]
        simp [guard, hlive]
      · rw [hlive']
        apply hperm.trans (h.live.cons t)
      · rw [hcount]
        apply h.count_lt
      · intro x hx
        dsimp only
        rcases (hmem x).mp hx with rfl | hx
        · rw [htimer, Function.update_self]
        · rw [hother x hx]
          apply h.oneShot x hx
      · intro x hx
        dsimp only
        rcases (hmem x).mp hx with rfl | hx
        · rw [htimer, Function.update_self, Option.isSome_some]
        · rw [hother x hx]
          apply h.handled x hx
      · apply sorted_insertTimer _ h.nodup
        · intro hmisplaced
          apply hplaced
          rw [← hkeyt]
          apply hmisplaced.congr h.live (fun x hx => (hkey x hx).symm)
        · apply h.sorted.imp_of_mem
          intro x y hx hy hxy
          dsimp only
          rwa [hkey x hx, hkey y hy]
      · intro x hx
        dsimp only
        rcases (hmem x).mp hx with rfl | hx
        · refine ⟨_, ?_, hkeyt⟩
          rw [Function.update_self, List.getElem?_concat_length]
        · obtain ⟨e, he, hxe⟩ := h.expiry x hx
          refine ⟨e, ?_, (hkey x hx).trans hxe⟩
          rw [Function.update_of_ne (hne x hx), List.getElem?_append_left, he]
          apply (List.getElem?_eq_some_iff.mp he).1
      · have hserial : ((insertTimer cs'.expireAt t l).map
            (Function.update s.serial t s.expiry.length)).Perm
              (s.expiry.length :: l.map s.serial) := by
          apply (hperm.map _).trans
          rw [List.map_cons, Function.update_self]
          rw [List.map_congr_left (fun x hx => Function.update_of_ne (hne x hx) ..)]
        rw [List.length_append, List.length_singleton, List.range_succ]
        apply (hserial.append_right _).trans
        rw [List.cons_append]
        apply (h.once.cons _).trans
        apply (List.perm_append_singleton _ _).symm
      · intro p hp
        obtain ⟨e, he, hle⟩ := h.notEarly p hp
        dsimp only
        rw [hcount]
        refine ⟨e, ?_, hle⟩
        rw [List.getElem?_append_left, he]
        apply (List.getElem?_eq_some_iff.mp he).1

/-- A timer is stopped. -/
theorem Inv.stop (h : s.Inv l) {t : ℕ} (ht : t ∈ s.cs.live) :
  ∃ u, step w s (.stop t) = some u ∧ ∃ l', u.Inv l'
  := by
  obtain ⟨a, b, rfl⟩ := List.append_of_mem (h.live.mem_iff.mpr ht)
  obtain ⟨lists, hdel, hlist⟩ := h.timers.listDel
  have hsub : (a ++ b).Sublist (a ++ t :: b) := (List.sublist_cons_self t b).append_left a
  have hlive : (a ++ b).Perm (s.cs.live.erase t) :=
    (List.cons_perm_iff_perm_erase.mp (List.perm_middle.symm.trans h.live)).2
  refine ⟨{ s with
    cs := ({ s.cs with lists } : Clocksource).kfree t, stopped := s.serial t :: s.stopped },
    ?_, a ++ b, hlist, hlive, h.count_lt, ?_, ?_, ?_, ?_, ?_, h.notEarly⟩
  · rw [step, Clocksource.timerStop, hdel]
    simp [guard, ht]
  · intro x hx
    apply h.oneShot x (hsub.subset hx)
  · intro x hx
    apply h.handled x (hsub.subset hx)
  · apply h.sorted.sublist hsub
  · intro x hx
    apply h.expiry x (hsub.subset hx)
  · apply List.Perm.trans _ h.once
    simp only [List.map_append, List.map_cons, List.append_assoc, List.cons_append]
    apply List.Perm.append_left
    apply List.perm_middle

/-- The clock ticks. -/
theorem Inv.tick (h : s.Inv l) {n : ℕ} (hn : s.cs.count + n < 2 ^ 63) :
  ∃ u, step w s (.tick n) = some u ∧ ∃ l', u.Inv l'
  := by
  have hmod : (s.cs.count + n) % 2 ^ 64 = s.cs.count + n := by
    rw [Nat.mod_eq_of_lt]
    omega
  refine ⟨_, rfl, l, h.timers, h.live, ?_, h.oneShot, h.handled, h.sorted, h.expiry, h.once, ?_⟩
  · rw [hmod]
    apply hn
  · intro p hp
    obtain ⟨e, he, hle, hcount⟩ := h.notEarly p hp
    refine ⟨e, he, hle, hcount.trans ?_⟩
    rw [hmod]
    apply Nat.le_add_right

/-- The calls of the handlers of timers that have one. -/
theorem map_calls {A : Type} (cs : Clocksource) (f : ℕ → A) :
    ∀ {l : List ℕ}, (∀ t ∈ l, (cs.timer t).handle.isSome) →
      (l.flatMap fun t => (cs.callOf t).toList).map (fun call => f call.timer) = l.map f
  | [], _ => rfl
  | t :: l, h => by
      rw [List.forall_mem_cons] at h
      obtain ⟨handle, hhandle⟩ := Option.isSome_iff_exists.mp h.1
      rw [List.flatMap_cons, List.map_append, map_calls cs f h.2, Clocksource.callOf, hhandle]
      rfl

/-- When no timer on the list has expired, exactly the timers that were not stopped and have
expired were called. -/
theorem Inv.onTime (h : s.Inv l) (hlate : ∀ t ∈ l, (s.cs.count : ℤ) < s.cs.expireAt t) :
  s.OnTime
  := by
  have hnodup := h.once.nodup_iff.mpr List.nodup_range
  rw [List.nodup_append', List.nodup_append'] at hnodup
  obtain ⟨-, ⟨-, hfired, hstopped⟩, -⟩ := hnodup
  constructor
  · intro i
    constructor
    · intro hi
      use fun hstop => hstopped hstop hi
      obtain ⟨p, hp, rfl⟩ := List.mem_map.mp hi
      obtain ⟨e, he, hle, hcount⟩ := h.notEarly p hp
      exact ⟨e, he, hle.trans hcount⟩
    · rintro ⟨hstop, e, he, hle⟩
      have hi : i ∈ List.range s.expiry.length := by
        rw [List.mem_range]
        apply (List.getElem?_eq_some_iff.mp he).1
      rw [← h.once.mem_iff, List.mem_append, List.mem_append] at hi
      rcases hi with hi | hi | hi
      · obtain ⟨t, ht, rfl⟩ := List.mem_map.mp hi
        obtain ⟨e', he', hexpire⟩ := h.expiry t ht
        rw [he, Option.some_inj] at he'
        have := hlate t ht
        omega
      · exact absurd hi hstop
      · exact hi
  · apply hfired
  · intro p hp
    obtain ⟨e, he, hle, -⟩ := h.notEarly p hp
    exact ⟨e, he, hle⟩
  · exact ⟨l, h.timers, hlate⟩

/-- The timers are processed. -/
theorem Inv.process (h : s.Inv l) :
  ∃ u, step w s .process = some u ∧ ∃ l', u.Inv l' ∧
    ∀ t ∈ l', (u.cs.count : ℤ) < u.cs.expireAt t
  := by
  have hcount : toInt64 (s.cs.count : ℤ) = s.cs.count := by
    have := h.count_lt
    rw [toInt64_eq] <;> omega
  have hexpired : s.cs.timerIsExpired = fun t => decide (s.cs.expireAt t ≤ (s.cs.count : ℤ)) := by
    funext t
    rw [Clocksource.timerIsExpired, Clocksource.clocksourceGetTick, hcount]
    rfl
  obtain ⟨lists, live, hprocess, hlist, hlive⟩ := h.timers.process h.live h.oneShot
  have hsplit : l.takeWhile s.cs.timerIsExpired ++ l.dropWhile s.cs.timerIsExpired = l :=
    List.takeWhile_append_dropWhile
  have htake := List.takeWhile_subset (p := s.cs.timerIsExpired) (l := l)
  have hdrop := List.dropWhile_sublist (l := l) s.cs.timerIsExpired
  refine ⟨{ s with
    cs := { s.cs with lists, live, tcUpdate := s.cs.count }
    fired := s.fired ++ (l.takeWhile s.cs.timerIsExpired).map
      fun t => (s.serial t, s.cs.count) }, ?_, l.dropWhile s.cs.timerIsExpired,
    ⟨hlist, hlive, h.count_lt, ?_, ?_, h.sorted.sublist hdrop, ?_, ?_, ?_⟩, ?_⟩
  · rw [step, hprocess]
    simp only [Option.bind_eq_bind, Option.bind_some]
    rw [map_calls s.cs (fun t => (s.serial t, s.cs.count)) fun t ht => h.handled t (htake ht)]
  · intro t ht
    apply h.oneShot t (hdrop.subset ht)
  · intro t ht
    apply h.handled t (hdrop.subset ht)
  · intro t ht
    apply h.expiry t (hdrop.subset ht)
  · apply List.Perm.trans _ h.once
    conv_rhs => rw [← hsplit]
    have hcalled : ((l.takeWhile s.cs.timerIsExpired).map
        fun t => (s.serial t, s.cs.count)).map Prod.fst
          = (l.takeWhile s.cs.timerIsExpired).map s.serial := List.map_map
    rw [List.map_append, List.map_append, hcalled, List.perm_iff_count]
    intro i
    simp only [List.count_append]
    omega
  · intro p hp
    rcases List.mem_append.mp hp with hp | hp
    · apply h.notEarly p hp
    · obtain ⟨t, ht, rfl⟩ := List.mem_map.mp hp
      obtain ⟨e, he, hexpire⟩ := h.expiry t (htake ht)
      have hle := List.mem_takeWhile_imp ht
      refine ⟨e, he, ?_, le_rfl⟩
      rw [hexpired, decide_eq_true_eq, hexpire] at hle
      omega
  · intro t ht
    rw [hexpired] at ht
    apply lt_of_mem_dropWhile h.sorted t ht

/-- Every step that meets the condition goes through. -/
theorem Inv.step (h : s.Inv l) {op : TimerOp} (hok : Ok w s op) :
  ∃ u, s.step w op = some u ∧ ∃ l', u.Inv l'
  := by
  cases op with
  | create ms handle arg flags mem => apply h.create hok
  | stop t => apply h.stop hok
  | tick n => apply h.tick hok
  | process =>
      obtain ⟨u, hu, l', h', -⟩ := h.process (w := w)
      exact ⟨u, hu, l', h'⟩

/-- After a `timer_process` in a run in which no timer is misplaced, exactly the timers that
were not stopped and have expired were called, once and not early. -/
theorem onTime_of_process (w : Widths) (freq : ℕ) (ops : List TimerOp)
    (hok : Run.Meets (step w) (Ok w) (init freq) (ops ++ [.process])) :
  ∃ s, Run.exec (step w) (init freq) (ops ++ [.process]) = some s ∧ s.OnTime
  := by
  obtain ⟨t, ht, l, h⟩ := Run.exec_of_meets (fun s : TimerSystem => ∃ l, s.Inv l)
    (fun s op hs hop => hs.elim fun l h => h.step hop) ops ⟨[], inv_init freq⟩ hok.append_left
  obtain ⟨u, hu, l', h', hlate⟩ := h.process (w := w)
  refine ⟨u, ?_, h'.onTime hlate⟩
  rw [Run.exec_append, ht, Option.bind_some, Run.exec, hu]
  rfl

/-- Timers of an AVR are created for the ticks 100, 200, 10 and 220; one of them is stopped. -/
theorem onTime_of_process_avr :
  ∃ s, Run.exec (step Widths.avr) (init 1000)
      ([.create 100 1 7 1 (some 5), .create 200 1 8 1 (some 7), .create 10 2 9 1 (some 6),
        .create 220 1 0 1 (some 8), .tick 50, .process, .stop 5, .tick 100] ++ [.process])
    = some s ∧ s.OnTime
  := by
  apply onTime_of_process
  decide

/-- A timer that expires before the only other one is put behind it, and is not called. -/
theorem late_of_misplaced :
  ∃ s, Run.exec (step Widths.avr) (init 1000)
      [.create 100 1 0 1 (some 5), .create 10 1 0 1 (some 6), .tick 50, .process] = some s ∧
    s.expiry = [100, 10] ∧ s.stopped = [] ∧ s.cs.count = 50 ∧ s.fired = [] ∧ ¬ s.OnTime
  := by
  refine ⟨_, rfl, rfl, rfl, rfl, rfl, ?_⟩
  intro h
  have hfired := (h.fired_iff 1).mpr ⟨List.not_mem_nil, 10, rfl, by decide⟩
  exact List.not_mem_nil hfired

end TimerSystem

end Etaos.Time
