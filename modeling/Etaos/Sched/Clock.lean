import Etaos.Library.Run
import Mathlib.Data.BitVec
import Mathlib.Tactic.Use

/-!
# Time slices

The time slice of the current thread, with `CONFIG_PREEMPT`: the scheduling clock of `clock.c`
takes the length of every tick off it, and marks the thread with `PREEMPT_NEED_RESCHED_FLAG` when
it comes to zero.  The slice is an `unsigned int` of 16 bits, so that it wraps around when a tick
goes past zero.

A run lasts as long as the thread stays current.  `elapsed` is the time since its slice was last
loaded.
-/

namespace Etaos

/-- The choices of a build with `CONFIG_PREEMPT`. -/
structure SliceConfig where
  /-- The option `CONFIG_TIME_SLICE`. -/
  timeSlice : ℕ
  /-- The option `CONFIG_SCHED_FAIR`. -/
  schedFair : Bool
  timeSlice_pos : 0 < timeSlice
  timeSlice_lt : timeSlice < 2 ^ 16

/-- The current thread, as the scheduling clock sees it. -/
structure SliceThread where
  slice : BitVec 16
  cputime : ℤ
  /-- The flag `THREAD_NEED_RESCHED_FLAG`. -/
  needResched : Bool
  /-- The flag `PREEMPT_NEED_RESCHED_FLAG`. -/
  preemptNeedResched : Bool
  /-- The time since the slice was last loaded. -/
  elapsed : ℕ

/-- What happens while the thread is current. -/
inductive SliceOp where
  /-- The system tick calls `sched_clock_tick(ms)`. -/
  | tick (ms : ℕ)
  /-- A pass of `__schedule`.  `same` is whether the next thread is the current one, `idle`
  whether it is the idle thread, and `check` whether `preempt_check` is for the next thread. -/
  | pass (same idle check : Bool)
  /-- An interrupt sets `PREEMPT_NEED_RESCHED_FLAG`, as `irq_thread_signal` does. -/
  | preempt
  /-- The flag `THREAD_NEED_RESCHED_FLAG` is set. -/
  | resched
  deriving DecidableEq

namespace SliceThread

/-- The assignment `tp->slice = CONFIG_TIME_SLICE`. -/
def preemptResetSlice (cfg : SliceConfig) (tp : SliceThread) : SliceThread :=
  { tp with slice := BitVec.ofNat 16 cfg.timeSlice, elapsed := 0 }

/-- The function `sched_clock_tick`, up to its call of `preempt_schedule_irq`. -/
def schedClockTick (cfg : SliceConfig) (tp : SliceThread) (ms : ℕ) : SliceThread :=
  let tp := { tp with cputime := if cfg.schedFair then tp.cputime + ms else tp.cputime }
  let tp := { tp with slice := tp.slice - BitVec.ofNat 16 ms, elapsed := tp.elapsed + ms }
  if tp.slice = 0#16 then
    { tp.preemptResetSlice cfg with preemptNeedResched := true }
  else
    tp

/-- The function `reschedule_decide`, with its value. -/
def rescheduleDecide (cfg : SliceConfig) (cur : SliceThread) (same idle : Bool) :
    SliceThread × Bool :=
  let clear := { cur with needResched := false, preemptNeedResched := false }
  if same then
    (clear.preemptResetSlice cfg, false)
  else if idle && (cur.preemptNeedResched && !cur.needResched) then
    (clear.preemptResetSlice cfg, false)
  else
    (clear, cur.preemptNeedResched || cur.needResched)

/-- A step of the thread, as long as it stays current. -/
def next (cfg : SliceConfig) (tp : SliceThread) : SliceOp → Option SliceThread
  | .tick ms => if 0 < ms ∧ ms < 2 ^ 15 then some (tp.schedClockTick cfg ms) else none
  | .pass same idle check =>
      let tp := { tp with preemptNeedResched := tp.preemptNeedResched || check }
      match tp.rescheduleDecide cfg same idle with
      | (_, true) => none
      | (tp, false) => some tp
  | .preempt => some { tp with preemptNeedResched := true }
  | .resched => some { tp with needResched := true }

/-- The thread is marked when its slice has lasted for `CONFIG_TIME_SLICE`. -/
def Bounded (cfg : SliceConfig) (tp : SliceThread) : Prop :=
  cfg.timeSlice ≤ tp.elapsed → tp.preemptNeedResched = true

/-- A tick does not go past the end of the slice of a thread that is not marked. -/
def InTime (cfg : SliceConfig) (tp : SliceThread) : SliceOp → Prop
  | .tick ms => tp.preemptNeedResched = true ∨ tp.elapsed + ms ≤ cfg.timeSlice
  | _ => True

/-- The slice is what is left of it, and the thread is bounded. -/
structure Inv (cfg : SliceConfig) (tp : SliceThread) : Prop where
  slice : tp.slice = BitVec.ofNat 16 cfg.timeSlice - BitVec.ofNat 16 tp.elapsed
  bounded : tp.Bounded cfg

variable {cfg : SliceConfig} {tp tp' : SliceThread} {op : SliceOp}

/-- A slice that was just loaded is whole. -/
theorem inv_preemptResetSlice (cfg : SliceConfig) (tp : SliceThread) :
  (tp.preemptResetSlice cfg).Inv cfg
  := by
  constructor
  · simp [preemptResetSlice]
  · intro h
    have hpos := cfg.timeSlice_pos
    simp only [preemptResetSlice] at h
    omega

/-- What is left of a slice comes to zero when the time is a multiple of the range of the counter
past its length. -/
theorem slice_eq_zero_iff (cfg : SliceConfig) {n : ℕ} (hn : n < cfg.timeSlice + 2 ^ 16) :
  BitVec.ofNat 16 cfg.timeSlice - BitVec.ofNat 16 n = 0#16 ↔ n = cfg.timeSlice
  := by
  have hlt := cfg.timeSlice_lt
  rw [BitVec.sub_eq_iff_eq_add, BitVec.zero_add, ← BitVec.toNat_inj, BitVec.toNat_ofNat,
    BitVec.toNat_ofNat, Nat.mod_eq_of_lt hlt]
  constructor
  · intro h
    omega
  · rintro rfl
    rw [Nat.mod_eq_of_lt hlt]

/-- A pass that keeps the thread current loads its slice anew, or finds it unmarked. -/
theorem rescheduleDecide_cases {same idle : Bool}
    (h : tp.rescheduleDecide cfg same idle = (tp', false)) :
  (∃ u, tp' = preemptResetSlice cfg u) ∨
    tp.preemptNeedResched = false ∧
      tp' = { tp with needResched := false, preemptNeedResched := false }
  := by
  rw [rescheduleDecide] at h
  split at h
  · obtain ⟨rfl, -⟩ := Prod.mk.inj h
    left
    use { tp with needResched := false, preemptNeedResched := false }
  · split at h
    · obtain ⟨rfl, -⟩ := Prod.mk.inj h
      left
      use { tp with needResched := false, preemptNeedResched := false }
    · obtain ⟨rfl, hflags⟩ := Prod.mk.inj h
      rw [Bool.or_eq_false_iff] at hflags
      right
      use hflags.1

/-- A pass of `__schedule` after which the thread is current. -/
theorem next_pass {same idle check : Bool} (h : tp.next cfg (.pass same idle check) = some tp') :
  rescheduleDecide cfg { tp with preemptNeedResched := tp.preemptNeedResched || check } same idle
    = (tp', false)
  := by
  rw [next] at h
  split at h
  · cases h
  · obtain rfl := Option.some.inj h
    assumption

/-- A step keeps the slice of the thread what is left of it. -/
theorem slice_next
    (h : tp.slice = BitVec.ofNat 16 cfg.timeSlice - BitVec.ofNat 16 tp.elapsed)
    (hnext : tp.next cfg op = some tp') :
  tp'.slice = BitVec.ofNat 16 cfg.timeSlice - BitVec.ofNat 16 tp'.elapsed
  := by
  cases op with
  | tick ms =>
      rw [next, Option.ite_none_right_eq_some] at hnext
      obtain ⟨-, hnext⟩ := hnext
      obtain rfl := Option.some.inj hnext
      rw [schedClockTick]
      dsimp only
      split
      · simp [preemptResetSlice]
      · dsimp only
        rw [h, BitVec.ofNat_add, sub_sub]
  | pass same idle check =>
      rcases rescheduleDecide_cases (next_pass hnext) with ⟨u, rfl⟩ | ⟨-, rfl⟩
      · apply (inv_preemptResetSlice cfg u).slice
      · apply h
  | preempt =>
      obtain rfl := Option.some.inj hnext
      apply h
  | resched =>
      obtain rfl := Option.some.inj hnext
      apply h

/-- A step leaves the thread bounded exactly when it is in time. -/
theorem Inv.bounded_iff (h : tp.Inv cfg) (hnext : tp.next cfg op = some tp') :
  tp'.Bounded cfg ↔ tp.InTime cfg op
  := by
  cases op with
  | tick ms =>
      rw [next, Option.ite_none_right_eq_some] at hnext
      obtain ⟨⟨hpos, hms⟩, hnext⟩ := hnext
      obtain rfl := Option.some.inj hnext
      have hslice : tp.slice - BitVec.ofNat 16 ms
          = BitVec.ofNat 16 cfg.timeSlice - BitVec.ofNat 16 (tp.elapsed + ms) := by
        rw [h.slice, BitVec.ofNat_add, sub_sub]
      rw [InTime, schedClockTick]
      dsimp only
      cases hflag : tp.preemptNeedResched with
      | true => split <;> simp [Bounded]
      | false =>
          have hlt : tp.elapsed < cfg.timeSlice := by
            by_contra hle
            have hmarked := h.bounded (not_lt.mp hle)
            simp [hflag] at hmarked
          split
          · rename_i heq
            rw [hslice, slice_eq_zero_iff cfg (by omega)] at heq
            simp [Bounded, heq]
          · rename_i hne
            rw [hslice, slice_eq_zero_iff cfg (by omega)] at hne
            simp only [Bounded, Bool.false_eq_true, false_or, imp_false]
            omega
  | pass same idle check =>
      simp only [InTime, iff_true]
      rcases rescheduleDecide_cases (next_pass hnext) with ⟨u, rfl⟩ | ⟨hflag, rfl⟩
      · apply (inv_preemptResetSlice cfg u).bounded
      · intro hle
        have hmarked := h.bounded hle
        simp [hmarked] at hflag
  | preempt =>
      simp only [InTime, iff_true]
      obtain rfl := Option.some.inj hnext
      intro _
      rfl
  | resched =>
      simp only [InTime, iff_true]
      obtain rfl := Option.some.inj hnext
      apply h.bounded

/-- In every run from a slice that was just loaded, the thread is marked in every state in which
the slice has lasted for `CONFIG_TIME_SLICE`, if and only if every tick of the run is in time. -/
theorem bounded_iff_inTime (cfg : SliceConfig) (tp tp' : SliceThread) (ops : List SliceOp)
    (hrun : Run.exec (next cfg) (tp.preemptResetSlice cfg) ops = some tp') :
  Run.Meets (next cfg) (fun s op => ∀ t, s.next cfg op = some t → t.Bounded cfg)
      (tp.preemptResetSlice cfg) ops ↔
    Run.Meets (next cfg) (InTime cfg) (tp.preemptResetSlice cfg) ops
  := by
  apply Run.Meets.congr (Inv cfg) _ _ (inv_preemptResetSlice cfg tp) hrun
  · intro s op t hs ht
    rw [← hs.bounded_iff ht]
    simp [ht]
  · intro s op t hs hbounded ht
    constructor
    · apply slice_next hs.slice ht
    · apply hbounded t ht

/-- The build for the ATmega2560. -/
def atmega2560 : SliceConfig where
  timeSlice := 10
  schedFair := false
  timeSlice_pos := by decide
  timeSlice_lt := by decide

/-- A thread that has never run. -/
def fresh : SliceThread where
  slice := 0
  cputime := 0
  needResched := false
  preemptNeedResched := false
  elapsed := 0

instance (cfg : SliceConfig) (tp : SliceThread) : (op : SliceOp) → Decidable (tp.InTime cfg op)
  | .tick _ => inferInstanceAs (Decidable (_ ∨ _))
  | .pass _ _ _ => inferInstanceAs (Decidable True)
  | .preempt => inferInstanceAs (Decidable True)
  | .resched => inferInstanceAs (Decidable True)

/-- Ticks of five milliseconds end the slice, and a pass loads it anew. -/
theorem bounded_iff_inTime_five :
  Run.Meets (next atmega2560) (fun s op => ∀ t, s.next atmega2560 op = some t →
        t.Bounded atmega2560) (fresh.preemptResetSlice atmega2560)
      [.tick 5, .tick 5, .pass true false true, .tick 5] ↔
    Run.Meets (next atmega2560) (InTime atmega2560) (fresh.preemptResetSlice atmega2560)
      [.tick 5, .tick 5, .pass true false true, .tick 5]
  := by
  apply bounded_iff_inTime atmega2560 fresh { fresh with slice := 5, elapsed := 5 }
  rfl

/-- Four ticks of three milliseconds go past the end of a slice of ten, and the thread is not
marked. -/
theorem not_bounded_three :
  ∃ tp, Run.exec (next atmega2560) (fresh.preemptResetSlice atmega2560)
      [.tick 3, .tick 3, .tick 3, .tick 3] = some tp ∧ ¬ tp.Bounded atmega2560
  := by
  use { fresh with slice := 0xfffe, elapsed := 12 }
  constructor
  · rfl
  · simp [Bounded, atmega2560, fresh]

end SliceThread

end Etaos
