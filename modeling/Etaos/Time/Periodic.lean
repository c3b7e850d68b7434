import Etaos.Time.Handlers

/-!
# Periodic timers

A timer that is created without the one-shot flag keeps its period over any number of
expiries, as long as the period fits the field `interval`.  A longer period is cut to the width
of that field, and the timer runs with a shorter period from its second expiry on, or is
released after the first one.
-/

namespace Etaos.Time

open Lib Crt

/-! ### Walks that stop no timer -/

namespace Handling

variable {w : Handling} {key key' : ℕ → ℤ} {l l' c : List ℕ} {t : ℕ}

/-- There is a walk when the handlers stop no timers. -/
theorem exists_walk (hstops : ∀ t, w.stops t = []) :
    ∀ (n : ℕ) {key : ℕ → ℤ} {l : List ℕ}, l.Nodup →
      l.countP (fun x => key x ≤ w.now) ≤ n → ∃ c key' l', w.Walk key l c key' l'
  | _, key, [], _, _ => ⟨[], key, [], Walk.stop (by simp)⟩
  | n, key, t :: rest, hnodup, hn => by
      by_cases hkey : key t ≤ w.now
      · rw [List.countP_cons_of_pos (by simpa using hkey)] at hn
        have hlt := countP_afterCall w key hnodup
        cases n with
        | zero => omega
        | succ n =>
            obtain ⟨c, key', l', hwalk⟩ :=
              exists_walk hstops n (nodup_afterCall hnodup) (hlt.trans (by omega))
            exact ⟨t :: c, key', l', Walk.call hkey (by simp [hstops]) hwalk⟩
      · refine ⟨[], key, t :: rest, Walk.stop ?_⟩
        intro x hx
        obtain rfl := Option.some.inj hx
        omega

/-- A timer that no handler stops is left as it is by a walk, or it is processed, and inserted
again when it has an interval. -/
theorem Walk.timer (h : w.Walk key l c key' l') (hstops : ∀ u, t ∉ w.stops u) :
    l.Nodup → t ∈ l →
      (t ∈ c ∧ (w.interval t ≠ 0 → t ∈ l' ∧ key' t = w.now + w.interval t)) ∨
        (t ∉ c ∧ t ∈ l' ∧ key' t = key t) := by
  induction h with
  | stop _ =>
      intro _ ht
      exact .inr ⟨List.not_mem_nil, ht, rfl⟩
  | @call key key' u rest c l' hkey hnext hwalk ih =>
      intro hnodup ht
      have ih := ih (nodup_afterCall hnodup)
      rcases List.mem_cons.mp ht with rfl | hrest
      · refine .inl ⟨List.mem_cons_self, ?_⟩
        intro hinterval
        rcases ih (mem_afterCall.mpr (.inl ⟨rfl, hinterval⟩)) with ⟨-, h⟩ | ⟨-, hl', hkey'⟩
        · exact h hinterval
        · exact ⟨hl', hkey'.trans (rearmed_self hinterval)⟩
      · have hne : t ≠ u := by
          rintro rfl
          exact (List.nodup_cons.mp hnodup).1 hrest
        rcases ih (mem_afterCall.mpr (.inr ⟨hrest, hstops u⟩)) with ⟨hc, h⟩ | ⟨hc, hl', hkey'⟩
        · exact .inl ⟨List.mem_cons_of_mem u hc, h⟩
        · refine .inr ⟨?_, hl', hkey'.trans (rearmed_of_ne hne)⟩
          rw [List.mem_cons]
          rintro (heq | hc')
          · exact hne heq
          · exact hc hc'

end Handling

/-! ### Runs -/

/-- A clock source with the tick at which a timer was created, or processed for the last time. -/
structure PeriodicSystem where
  cs : Clocksource
  base : ℕ → ℕ

/-- What happens to the clock source. -/
inductive PeriodicOp where
  | create (ms : ℕ) (handle : Option ℕ) (arg flags timer : ℕ)
  | stop (timer : ℕ)
  | tick (n : ℕ)
  | process
  deriving DecidableEq

namespace PeriodicSystem

/-- A step of the clock source.  The handlers touch no timer. -/
def step (w : Widths) (s : PeriodicSystem) : PeriodicOp → Option PeriodicSystem
  | .create ms handle arg flags timer => do
      let (cs, _) ← s.cs.timerCreate w ms handle arg flags (some timer)
      some { cs, base := Function.update s.base timer s.cs.count }
  | .stop timer => do
      let cs ← s.cs.timerStop timer
      some { s with cs }
  | .tick n => some { s with cs := { s.cs with count := (s.cs.count + n) % 2 ^ 64 } }
  | .process => do
      let (cs, timers) ← s.cs.timerProcessStopping fun _ => []
      some { cs, base := fun t => if t ∈ timers then s.cs.count else s.base t }

/-- The condition on a step of a run in which the timer `t` is not stopped.  Memory that is
allocated is not allocated again, a timer that is stopped is live, and the ticks stay in
`time_t`. -/
def Quiet (t : ℕ) (s : PeriodicSystem) : PeriodicOp → Prop
  | .create _ _ _ _ timer => timer ∉ s.cs.live
  | .stop timer => timer ∈ s.cs.live ∧ timer ≠ t
  | .tick n => s.cs.count + n < 2 ^ 63
  | .process => s.cs.Room s.cs.live

/-- The timers that are live are the ones on the list. -/
def Valid (s : PeriodicSystem) : Prop :=
  ∃ l, s.cs.Timers l ∧ l.Perm s.cs.live

/-- The timer `t` is on the list, is not a one-shot timer, and expires `period` ticks after it
was created, or processed for the last time. -/
structure Periodic (s : PeriodicSystem) (period t : ℕ) : Prop where
  listed : ∃ l, s.cs.Timers l ∧ l.Perm s.cs.live ∧ t ∈ l
  interval : (s.cs.timer t).interval ≠ 0
  expireAt : s.cs.expireAt t = s.base t + period

variable {w : Widths} {s u : PeriodicSystem} {period t : ℕ} {l : List ℕ}

/-- The field `interval` of the timer holds its period. -/
def Keeps (s : PeriodicSystem) (period t : ℕ) : Prop :=
  s.Periodic period t ∧ (s.cs.timer t).interval = period

/-- A timer is created. -/
theorem Valid.create (hs : s.Valid) {ms arg flags : ℕ} {handle : Option ℕ} (ht : t ∉ s.cs.live) :
  ∃ u, step w s (.create ms handle arg flags t) = some u ∧ u.Valid ∧
    u.cs.live = t :: s.cs.live ∧ u.cs.count = s.cs.count ∧
    u.base = Function.update s.base t s.cs.count ∧
    u.cs.timer = Function.update s.cs.timer t
      { handle, privData := arg
        expireAt := toInt64 ((s.cs.freq / 1000 * ms % w.ulong : ℕ) + (s.cs.count : ℤ))
        interval := if flags.testBit 0 then 0 else s.cs.freq / 1000 * ms % w.ulong % w.uint }
  := by
  obtain ⟨l, hl, hlive⟩ := hs
  obtain ⟨cs', hcreate, hlist, hlive', hcount, htimer⟩ :=
    (hl.timerCreate hlive (fun hin => ht (hlive.mem_iff.mp hin)) :
      ∃ cs', s.cs.timerCreate w ms handle arg flags (some t) = some (cs', some t) ∧ _)
  refine ⟨{ cs := cs', base := Function.update s.base t s.cs.count }, ?_, ⟨_, hlist, ?_⟩, hlive',
    hcount, rfl, htimer⟩
  · rw [step, hcreate]
    rfl
  · rw [hlive']
    exact (perm_insertTimer l).trans (hlive.cons t)

/-- A timer is stopped. -/
theorem Valid.stop (hs : s.Valid) (ht : t ∈ s.cs.live) :
  ∃ u, step w s (.stop t) = some u ∧ u.Valid ∧ u.cs.live = s.cs.live.erase t ∧
    u.cs.count = s.cs.count ∧ u.base = s.base ∧ u.cs.timer = s.cs.timer
  := by
  obtain ⟨l, hl, hlive⟩ := hs
  obtain ⟨lists, hdel, hlist⟩ := hl.erase (hlive.mem_iff.mpr ht)
  refine ⟨{ s with cs := { s.cs with lists, live := s.cs.live.erase t } }, ?_,
    ⟨_, hlist, hlive.erase t⟩, rfl, rfl, rfl, rfl⟩
  rw [step, Clocksource.timerStop, hdel]
  simp [guard, ht, Clocksource.kfree]

/-- The timers are processed. -/
theorem Valid.process (hs : s.Valid) (hroom : s.cs.Room s.cs.live) :
  ∃ u c key l l', step w s .process = some u ∧ s.cs.Timers l ∧ l.Perm s.cs.live ∧
    (s.cs.handling fun _ => []).Walk s.cs.expireAt l c key l' ∧
    Clocksource.Agrees s.cs u.cs key l' ∧
    u.base = fun t => if t ∈ c then s.cs.count else s.base t
  := by
  obtain ⟨l, hl, hlive⟩ := hs
  have hroom' : s.cs.Room l := fun x hx => hroom x (hlive.mem_iff.mp hx)
  have hstops (t : ℕ) : (s.cs.handling fun _ => []).stops t = [] := by
    simp [Clocksource.handling, Clocksource.stopsOf]
  rcases hl.processStopping hlive hroom' (fun _ => []) with
    ⟨c, key, l', cs', hwalk, hrun, hagrees⟩ | ⟨-, hnone⟩
  · refine ⟨{ cs := cs', base := fun t => if t ∈ c then s.cs.count else s.base t }, c, key, l,
      l', ?_, hl, hlive, hwalk, hagrees, rfl⟩
    rw [step, hrun]
    rfl
  · obtain ⟨c, key, l', hwalk⟩ := Handling.exists_walk hstops _ hl.nodup le_rfl
    exact absurd hwalk (hnone c key l')

/-- A step leaves the period of a timer as it is. -/
theorem Keeps.move (h : s.Keeps period t) {op : PeriodicOp} (hok : s.Quiet t op) :
  ∃ u, step w s op = some u ∧ u.Keeps period t
  := by
  obtain ⟨⟨⟨l, hl, hlive, ht⟩, hinterval, hexpire⟩, hperiod⟩ := h
  have hvalid : s.Valid := ⟨l, hl, hlive⟩
  have hmem : t ∈ s.cs.live := hlive.mem_iff.mp ht
  cases op with
  | create ms handle arg flags x =>
      have hne : t ≠ x := by
        rintro rfl
        exact hok hmem
      obtain ⟨u, hu, ⟨l', hl', hlive'⟩, hlive, hcount, hbase, htimer⟩ :=
        (hvalid.create hok : ∃ u, step w s (.create ms handle arg flags x) = some u ∧ _)
      have hkept : u.cs.timer t = s.cs.timer t := by
        rw [htimer, Function.update_of_ne hne]
      refine ⟨u, hu, ⟨⟨l', hl', hlive', ?_⟩, ?_, ?_⟩, ?_⟩
      · rw [hlive'.mem_iff, hlive]
        exact List.mem_cons_of_mem x hmem
      · rwa [hkept]
      · rw [Clocksource.expireAt, hkept, hbase, Function.update_of_ne hne]
        exact hexpire
      · rwa [hkept]
  | stop x =>
      obtain ⟨u, hu, ⟨l', hl', hlive'⟩, hlive, hcount, hbase, htimer⟩ :=
        (hvalid.stop hok.1 : ∃ u, step w s (.stop x) = some u ∧ _)
      refine ⟨u, hu, ⟨⟨l', hl', hlive', ?_⟩, ?_, ?_⟩, ?_⟩
      · rw [hlive'.mem_iff, hlive]
        exact (List.mem_erase_of_ne hok.2.symm).mpr hmem
      · rwa [htimer]
      · rw [Clocksource.expireAt, htimer, hbase]
        exact hexpire
      · rwa [htimer]
  | tick n => exact ⟨_, rfl, ⟨⟨l, hl, hlive, ht⟩, hinterval, hexpire⟩, hperiod⟩
  | process =>
      obtain ⟨u, c, key, l, l', hu, hl, hlive, hwalk, hagrees, hbase⟩ := hvalid.process (w := w) hok
      have hinterval' : (s.cs.handling fun _ => []).interval t ≠ 0 := hinterval
      have hnostop (x : ℕ) : t ∉ (s.cs.handling fun _ => []).stops x := by
        simp [Clocksource.handling, Clocksource.stopsOf]
      have hkept : (u.cs.timer t).interval = (s.cs.timer t).interval := by rw [hagrees.timer t]
      have htimer := hwalk.timer hnostop hl.nodup (hlive.mem_iff.mpr hmem)
      refine ⟨u, hu, ⟨⟨l', hagrees.timers, hagrees.live, ?_⟩, ?_, ?_⟩, ?_⟩
      · rcases htimer with ⟨-, h⟩ | ⟨-, ht, -⟩
        · exact (h hinterval').1
        · exact ht
      · rwa [hkept]
      · rw [hagrees.key_eq, hbase]
        rcases htimer with ⟨hc, h⟩ | ⟨hc, -, hkey⟩
        · dsimp only
          rw [if_pos hc, (h hinterval').2, ← hperiod]
          rfl
        · dsimp only
          rw [if_neg hc, hkey]
          exact hexpire
      · rwa [hkept]

/-- The timer is created, and keeps its period from then on. -/
theorem Valid.keeps (hs : s.Valid) {ms arg flags : ℕ} {handle : Option ℕ}
    (hflag : ¬ flags.testBit 0) (hfresh : t ∉ s.cs.live) (hpos : 0 < s.cs.freq / 1000 * ms)
    (hulong : s.cs.freq / 1000 * ms < w.ulong)
    (hlt : s.cs.count + s.cs.freq / 1000 * ms < 2 ^ 63)
    (huint : s.cs.freq / 1000 * ms < w.uint) :
  ∃ u, step w s (.create ms handle arg flags t) = some u ∧ u.Keeps (s.cs.freq / 1000 * ms) t
  := by
  obtain ⟨u, hu, ⟨l, hl, hlive'⟩, hlive, -, hbase, htimer⟩ :=
    (hs.create hfresh : ∃ u, step w s (.create ms handle arg flags t) = some u ∧ _)
  have hinterval : (u.cs.timer t).interval = s.cs.freq / 1000 * ms := by
    rw [htimer, Function.update_self]
    simp only [if_neg hflag, Nat.mod_eq_of_lt hulong, Nat.mod_eq_of_lt huint]
  refine ⟨u, hu, ⟨⟨l, hl, hlive', ?_⟩, ?_, ?_⟩, hinterval⟩
  · rw [hlive'.mem_iff, hlive]
    exact List.mem_cons_self
  · rw [hinterval]
    omega
  · rw [Clocksource.expireAt, htimer, hbase, Function.update_self, Function.update_self]
    simp only [Nat.mod_eq_of_lt hulong]
    rw [toInt64_eq (by omega) (by omega), add_comm]

/-- The other timers of the list are stopped, one after the other. -/
theorem Valid.stopOthers (w : Widths) (ops : List PeriodicOp) :
    ∀ (l : List ℕ) {s : PeriodicSystem}, s.Valid → t ∉ l → (t :: l).Perm s.cs.live →
      ∃ u, u.Valid ∧ [t].Perm u.cs.live ∧ u.cs.count = s.cs.count ∧ u.base = s.base ∧
        u.cs.timer = s.cs.timer ∧
        Run.exec (step w) s (l.map .stop ++ ops) = Run.exec (step w) u ops ∧
        (Run.Meets (step w) (Quiet t) u ops →
          Run.Meets (step w) (Quiet t) s (l.map .stop ++ ops))
  | [], s, hs, _, hlive => ⟨s, hs, hlive, rfl, rfl, rfl, rfl, id⟩
  | x :: l, s, hs, ht, hlive => by
      rw [List.mem_cons, not_or] at ht
      have hx : x ∈ s.cs.live := by
        rw [← hlive.mem_iff]
        simp
      obtain ⟨v, hv, hvalid, hlive', hcount, hbase, htimer⟩ :=
        (hs.stop hx : ∃ v, step w s (.stop x) = some v ∧ _)
      have hperm : (t :: l).Perm v.cs.live := by
        rw [hlive']
        apply (List.cons_perm_iff_perm_erase.mp _).2
        exact (List.Perm.swap t x l).trans hlive
      obtain ⟨u, hu, hperm', hcount', hbase', htimer', hexec, hmeets⟩ :=
        Valid.stopOthers w ops l hvalid ht.2 hperm
      refine ⟨u, hu, hperm', hcount'.trans hcount, hbase'.trans hbase, htimer'.trans htimer, ?_, ?_⟩
      · rw [List.map_cons, List.cons_append, Run.exec, hv, Option.bind_some, hexec]
      · intro hops
        refine ⟨⟨hx, Ne.symm ht.1⟩, ?_⟩
        intro v' hv'
        obtain rfl := Option.some.inj (hv.symm.trans hv')
        exact hmeets hops

/-- A timer whose period does not fit the field `interval` does not keep it: it loses its
period when the other timers are stopped, and it expires. -/
theorem Valid.lost (hs : s.Valid) {ms arg flags : ℕ} {handle : Option ℕ}
    (hflag : ¬ flags.testBit 0) (hfresh : t ∉ s.cs.live)
    (hulong : s.cs.freq / 1000 * ms < w.ulong)
    (hlt : s.cs.count + 2 * (s.cs.freq / 1000 * ms) < 2 ^ 63) (hwidth : 0 < w.uint)
    (huint : w.uint ≤ s.cs.freq / 1000 * ms) :
  ∃ ops, Run.Meets (step w) (Quiet t) s (.create ms handle arg flags t :: ops) ∧
    ∀ u, Run.exec (step w) s (.create ms handle arg flags t :: ops) = some u →
      ¬ u.Periodic (s.cs.freq / 1000 * ms) t
  := by
  let period := s.cs.freq / 1000 * ms
  obtain ⟨v, hv, hvalid, hlive, hcount, hbase, htimer⟩ :=
    (hs.create hfresh : ∃ v, step w s (.create ms handle arg flags t) = some v ∧ _)
  obtain ⟨u, hu, hperm, hcount', hbase', htimer', hexec, hmeets⟩ :=
    hvalid.stopOthers w [.tick period, .process] s.cs.live hfresh (by rw [hlive])
  -- the timer in the state in which it is the only one
  have hnow : u.cs.count = s.cs.count := hcount'.trans hcount
  have hinterval : (u.cs.timer t).interval = period % w.uint := by
    rw [htimer', htimer, Function.update_self]
    simp only [if_neg hflag, Nat.mod_eq_of_lt hulong, period]
  have hexpire : u.cs.expireAt t = s.cs.count + period := by
    rw [Clocksource.expireAt, htimer', htimer, Function.update_self]
    simp only [Nat.mod_eq_of_lt hulong]
    rw [toInt64_eq (by omega) (by omega), add_comm]
  have hcut : period % w.uint < w.uint := Nat.mod_lt _ hwidth
  have hmod : (u.cs.count + period) % 2 ^ 64 = s.cs.count + period := by
    rw [hnow, Nat.mod_eq_of_lt]
    omega
  let u₁ : PeriodicSystem := { u with cs := { u.cs with count := s.cs.count + period } }
  have htick : step w u (.tick period) = some u₁ := by
    rw [step, hmod]
  have hvalid₁ : u₁.Valid := hu
  have hroom : u₁.cs.Room u₁.cs.live := by
    intro x hx
    obtain rfl := List.mem_singleton.mp (hperm.mem_iff.mpr hx)
    change s.cs.count + period + (u.cs.timer x).interval < 2 ^ 63
    omega
  obtain ⟨u₂, c, key, l, l', hprocess, -, hl, hwalk, hagrees, hbase₂⟩ :=
    hvalid₁.process (w := w) hroom
  obtain rfl := List.perm_singleton.mp (hl.trans hperm.symm)
  refine ⟨s.cs.live.map .stop ++ [.tick period, .process], ⟨hfresh, ?_⟩, ?_⟩
  · intro v' hv'
    obtain rfl := Option.some.inj (hv.symm.trans hv')
    apply hmeets
    refine ⟨?_, ?_⟩
    · change u.cs.count + period < 2 ^ 63
      omega
    · intro u' hu'
      obtain rfl := Option.some.inj (htick.symm.trans hu')
      exact ⟨hroom, fun _ _ => trivial⟩
  · intro u' hu' hperiodic
    have hrun : Run.exec (step w) u [.tick period, .process] = some u₂ := by
      rw [Run.exec, htick, Option.bind_some, Run.exec, hprocess]
      rfl
    rw [Run.exec, hv, Option.bind_some, hexec, hrun] at hu'
    obtain rfl := Option.some.inj hu'
    obtain ⟨-, hne, hlast⟩ := hperiodic
    rw [hagrees.timer t] at hne
    have hne : (u.cs.timer t).interval ≠ 0 := hne
    have hc : t ∈ c := by
      rcases hwalk with ⟨hlate⟩ | _
      · have hlt : ((s.cs.count + period : ℕ) : ℤ) < u.cs.expireAt t := hlate t rfl
        omega
      · exact List.mem_cons_self
    have hnostop (x : ℕ) : t ∉ (u₁.cs.handling fun _ => []).stops x := by
      simp [Clocksource.handling, Clocksource.stopsOf]
    rcases hwalk.timer hnostop (List.nodup_singleton t) (List.mem_singleton_self t) with
      ⟨-, h⟩ | ⟨hnot, -⟩
    · have hkey : key t = ((s.cs.count + period : ℕ) : ℤ) + (u.cs.timer t).interval := (h hne).2
      rw [hagrees.key_eq, hkey, hbase₂] at hlast
      dsimp only at hlast
      rw [if_pos hc] at hlast
      have hcount₁ : u₁.cs.count = s.cs.count + period := rfl
      omega
    · exact hnot hc

/-- A timer that is created without the one-shot flag expires a period after its creation and
after each of its expiries, in every run in which it is not stopped, exactly when its period
fits the field `interval`. -/
theorem periodic_iff (w : Widths) (hs : s.Valid) {ms arg flags : ℕ} {handle : Option ℕ}
    (hflag : ¬ flags.testBit 0) (hfresh : t ∉ s.cs.live) (hpos : 0 < s.cs.freq / 1000 * ms)
    (hulong : s.cs.freq / 1000 * ms < w.ulong)
    (hlt : s.cs.count + 2 * (s.cs.freq / 1000 * ms) < 2 ^ 63) (hwidth : 0 < w.uint) :
  (∀ ops, Run.Meets (step w) (Quiet t) s (.create ms handle arg flags t :: ops) →
      ∃ u, Run.exec (step w) s (.create ms handle arg flags t :: ops) = some u ∧
        u.Periodic (s.cs.freq / 1000 * ms) t) ↔
    s.cs.freq / 1000 * ms < w.uint
  := by
  constructor
  · intro hall
    by_contra huint
    obtain ⟨ops, hmeets, hlost⟩ :=
      (hs.lost hflag hfresh hulong hlt hwidth (by omega) :
        ∃ ops, Run.Meets (step w) (Quiet t) s (.create ms handle arg flags t :: ops) ∧ _)
    obtain ⟨u, hu, hperiodic⟩ := hall ops hmeets
    exact hlost u hu hperiodic
  · intro huint ops hmeets
    obtain ⟨v, hv, hkeeps⟩ :=
      (hs.keeps hflag hfresh hpos hulong (by omega) huint :
        ∃ v, step w s (.create ms handle arg flags t) = some v ∧ _)
    obtain ⟨u, hu, hkeeps'⟩ := Run.exec_of_meets (fun s => s.Keeps (v.cs.timer t).interval t)
      (fun s op h hop => h.move hop) ops (by rw [hkeeps.2]; exact hkeeps) (hmeets.2 v hv)
    refine ⟨u, ?_, ?_⟩
    · rw [Run.exec, hv]
      exact hu
    · rw [hkeeps.2] at hkeeps'
      exact hkeeps'.1

/-- A clock source of 1000 Hz without timers. -/
def quiet : PeriodicSystem where
  cs := Clocksource.idle
  base := fun _ => 0

theorem quiet_valid : quiet.Valid :=
  ⟨[], Clocksource.idle_timers, List.Perm.refl []⟩

/-- A timer with the period 100 on an AVR. -/
theorem periodic_iff_short :
  (∀ ops, Run.Meets (step Widths.avr) (Quiet 5) quiet (.create 100 (some 1) 0 0 5 :: ops) →
      ∃ u, Run.exec (step Widths.avr) quiet (.create 100 (some 1) 0 0 5 :: ops) = some u ∧
        u.Periodic (quiet.cs.freq / 1000 * 100) 5) ↔
    quiet.cs.freq / 1000 * 100 < Widths.avr.uint
  := by
  apply periodic_iff Widths.avr quiet_valid (by decide) List.not_mem_nil (by decide) (by decide)
    (by decide) (by decide)

/-- A timer with the period 70000 loses it on an AVR. -/
theorem period_cut :
  ¬ ∀ ops, Run.Meets (step Widths.avr) (Quiet 5) quiet (.create 70000 (some 1) 0 0 5 :: ops) →
    ∃ u, Run.exec (step Widths.avr) quiet (.create 70000 (some 1) 0 0 5 :: ops) = some u ∧
      u.Periodic (quiet.cs.freq / 1000 * 70000) 5
  := by
  intro hall
  obtain ⟨ops, hmeets, hlost⟩ :=
    (quiet_valid.lost (by decide) List.not_mem_nil (by decide) (by decide) (by decide)
      (by decide) :
      ∃ ops, Run.Meets (step Widths.avr) (Quiet 5) quiet (.create 70000 (some 1) 0 0 5 :: ops) ∧ _)
  obtain ⟨u, hu, hperiodic⟩ := hall ops hmeets
  exact hlost u hu hperiodic

end PeriodicSystem

end Etaos.Time
