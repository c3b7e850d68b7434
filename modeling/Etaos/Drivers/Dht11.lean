import Mathlib.Data.Nat.Bits
import Mathlib.Logic.Function.Basic
import Mathlib.Tactic.Ring

/-!
# The DHT11 sensor

The function `raw_dht11_read` of `dht11.c` in the builds with `CONFIG_PREEMPT` and `CONFIG_SCHED`.

The sensor answers with two start pulses and 40 bits of a low and a high pulse each.  The lengths
of the pulses are what the calls of `dht_expect` return, one after the other; a pulse that does
not end in time has the length 0.
-/

namespace Etaos.Drivers

/-! ### The driver and its thread -/

/-- The fields of `struct dht11` that reading the sensor uses. -/
structure Dht11 where
  /-- The number of turns that `dht_expect` waits for. -/
  cycles : UInt32
  lastRead : ℕ
  lastReadOk : Bool
  data : Fin 5 → UInt8

/-- What the driver does with the line of the sensor, and how long it waits in between. -/
inductive LineOp where
  /-- The function `__raw_gpio_pin_write`. -/
  | write (level : Bool)
  /-- The function `gpio_direction_output`, with the level it drives. -/
  | output (level : Bool)
  /-- The function `gpio_direction_input`. -/
  | input
  | sleep (ms : ℕ)
  | delay (ms : ℕ)
  | delayUs (us : ℕ)

/-- The thread that reads the sensor.  While another thread has the processor its preemption
counter does not change. -/
structure DhtThread where
  dht : Dht11
  sysTick : ℕ
  /-- The value at `preempt_counter_ptr` of the thread. -/
  preemptCnt : ℤ
  /-- What `preempt_should_resched` returns. -/
  shouldResched : Bool
  /-- The number of calls of `preempt_schedule`. -/
  schedules : ℕ
  /-- Whether interrupts are enabled. -/
  irqs : Bool
  line : List LineOp
  /-- The arguments of the calls of `kfree`, the last one first. -/
  freed : List ℕ

namespace DhtThread

/-- The function `preempt_disable`. -/
def preemptDisable (s : DhtThread) : DhtThread :=
  { s with preemptCnt := s.preemptCnt + 1 }

/-- The function `preempt_enable`. -/
def preemptEnable (s : DhtThread) : DhtThread :=
  let s := { s with preemptCnt := s.preemptCnt - 1 }
  if s.preemptCnt = 0 ∧ s.shouldResched then
    { s with schedules := s.schedules + 1 }
  else
    s

/-- The function `irq_save_and_disable`, with the value of `flags`. -/
def irqSaveAndDisable (s : DhtThread) : DhtThread × Bool :=
  ({ s with irqs := false }, s.irqs)

/-- The function `irq_restore`. -/
def irqRestore (flags : Bool) (s : DhtThread) : DhtThread :=
  { s with irqs := s.irqs || flags }

/-- The function `kfree`. -/
def kfree (ptr : ℕ) (s : DhtThread) : DhtThread :=
  { s with freed := ptr :: s.freed }

/-- The line of the sensor is used. -/
def drive (op : LineOp) (s : DhtThread) : DhtThread :=
  { s with line := s.line ++ [op] }

/-- The driver writes a field of the sensor. -/
def setDht (f : Dht11 → Dht11) (s : DhtThread) : DhtThread :=
  { s with dht := f s.dht }

end DhtThread

/-! ### The pulses -/

/-- The successor of a number wraps around at the largest one only. -/
theorem toNat_succ {count : UInt32} (h : count.toNat + 1 < 2 ^ 32) :
  (count + 1).toNat = count.toNat + 1
  := by
  rw [UInt32.toNat_add, UInt32.toNat_one, Nat.mod_eq_of_lt h]

/-- The loop of `dht_expect` from a value of `count` on, where `pin` has the levels that the line
is read at and `pos` is the next reading. -/
def dhtExpectLoop (cycles : UInt32) (level : Bool) (pin : ℕ → Bool) (count : UInt32) (pos : ℕ) :
    UInt32 × ℕ :=
  if pin pos = level then
    if count ≥ cycles + 1 then
      (0, pos + 1)
    else
      dhtExpectLoop cycles level pin (count + 1) (pos + 1)
  else
    (count, pos + 1)
termination_by (cycles + 1).toNat - count.toNat
decreasing_by
  rename_i hlt
  rw [ge_iff_le, UInt32.le_iff_toNat_le, not_le] at hlt
  have hbound := (cycles + 1).toNat_lt
  have hsucc : (count + 1).toNat = count.toNat + 1 := toNat_succ (by omega)
  omega

/-- The function `dht_expect`, with the reading after its last one. -/
def dhtExpect (cycles : UInt32) (level : Bool) (pin : ℕ → Bool) (pos : ℕ) : UInt32 × ℕ :=
  dhtExpectLoop cycles level pin 1 pos

/-- The results of the calls of `dht_expect` for a low and a high level in turn, each with the
reading after it. -/
def dhtReports (cycles : UInt32) (pin : ℕ → Bool) : ℕ → UInt32 × ℕ
  | 0 => dhtExpect cycles false pin 0
  | k + 1 => dhtExpect cycles (k % 2 = 0) pin (dhtReports cycles pin k).2

/-- The array `cyclesdata` after some turns of the loop that receives the data bits, where
`expect` has the results of the calls of `dht_expect`. -/
def receive (expect : ℕ → UInt32) : ℕ → ℕ → UInt32
  | 0 => fun _ => 0
  | i + 1 =>
      let cyclesdata := Function.update (receive expect i) (2 * i) (expect (2 + 2 * i))
      Function.update cyclesdata (2 * i + 1) (expect (2 + 2 * i + 1))

/-- One turn of the loop that decodes the data bits, unless a pulse is missing. -/
def decodeBit (cyclesdata : ℕ → UInt32) (i : ℕ) (data : ℕ → UInt8) : Option (ℕ → UInt8) :=
  let lowc := cyclesdata (2 * i)
  let highc := cyclesdata (2 * i + 1)
  if lowc = 0 ∨ highc = 0 then
    none
  else
    let data := Function.update data (i / 8) (data (i / 8) <<< 1)
    if highc ≥ lowc then
      some (Function.update data (i / 8) (data (i / 8) ||| 1))
    else
      some data

/-- The array `data` after some turns of the loop that decodes the data bits. -/
def decode (cyclesdata : ℕ → UInt32) : ℕ → Option (ℕ → UInt8)
  | 0 => some fun _ => 0
  | i + 1 => (decode cyclesdata i).bind (decodeBit cyclesdata i)

/-! ### Reading the sensor -/

namespace DhtThread

/-- The start signal of `raw_dht11_read`, up to the first call of `dht_expect`, with the value of
`flags`. -/
def start (s : DhtThread) : DhtThread × Bool :=
  let s := s.setDht fun dht => { dht with lastRead := s.sysTick }
  let s := (s.preemptDisable.drive (.write true)).drive (.sleep 250)
  let s := (s.drive (.output false)).drive (.delay 20)
  let (s, flags) := s.irqSaveAndDisable
  let s := (s.drive (.write true)).drive (.delayUs 40)
  let s := ((s.drive .input).drive (.write true)).drive (.delayUs 10)
  (s, flags)

/-- The exit of `raw_dht11_read` when a start pulse is missing. -/
def noStart (cyclesdata : ℕ) (flags : Bool) (s : DhtThread) : DhtThread × Bool :=
  let s := ((s.irqRestore flags).preemptEnable).kfree cyclesdata
  (s, s.dht.lastReadOk)

/-- The end of `raw_dht11_read`, from the loop on that decodes the data bits to `data`. -/
def finish (cyclesdata : ℕ) (data : Option (ℕ → UInt8)) (s : DhtThread) : DhtThread × Bool :=
  match data with
  | none =>
      let s := s.preemptEnable.kfree cyclesdata
      let s := s.setDht fun dht => { dht with lastReadOk := false }
      (s, s.dht.lastReadOk)
  | some data =>
      let s := s.kfree cyclesdata
      let sum := (data 0).toNat + (data 1).toNat + (data 2).toNat + (data 3).toNat
      let s :=
        if (data 4).toNat = sum &&& 0xFF then
          s.setDht fun dht => { dht with lastReadOk := true, data := fun j => data j }
        else
          s.setDht fun dht => { dht with lastReadOk := false }
      (s, s.dht.lastReadOk)

/-- The function `raw_dht11_read`, where `expect` has the results of the calls of `dht_expect` and
`cyclesdata` is the memory that `kzalloc` returns. -/
def rawDht11Read (expect : ℕ → UInt32) (cyclesdata : ℕ) (s : DhtThread) : DhtThread × Bool :=
  let (s, flags) := s.start
  if expect 0 = 0 then
    s.noStart cyclesdata flags
  else if expect 1 = 0 then
    s.noStart cyclesdata flags
  else
    let s := (s.irqRestore flags).preemptEnable
    s.finish cyclesdata (decode (receive expect 40) 40)

end DhtThread

/-! ### The bits -/

/-- Whether a data bit is 1. -/
def pulseBit (cyclesdata : ℕ → UInt32) (k : ℕ) : Bool :=
  cyclesdata (2 * k) ≤ cyclesdata (2 * k + 1)

/-- The number that the first `m` bits of a byte make, the most significant one first. -/
def leading (cyclesdata : ℕ → UInt32) (j m : ℕ) : UInt8 :=
  UInt8.ofNat (Nat.ofBits fun k : Fin m => pulseBit cyclesdata (8 * j + (m - 1 - k)))

/-- A bit is shifted into a byte. -/
theorem shiftLeft_or (x : UInt8) (b : Bool) :
  (if b then x <<< 1 ||| 1 else x <<< 1) = 2 * x + UInt8.ofNat b.toNat
  := by
  obtain ⟨x⟩ := x
  revert x b
  decide +kernel

theorem leading_zero (cyclesdata : ℕ → UInt32) (j : ℕ) : leading cyclesdata j 0 = 0 :=
  congrArg UInt8.ofNat (Nat.ofBits_zero _)

theorem leading_succ (cyclesdata : ℕ → UInt32) (j m : ℕ) :
  leading cyclesdata j (m + 1)
    = if pulseBit cyclesdata (8 * j + m) then leading cyclesdata j m <<< 1 ||| 1
      else leading cyclesdata j m <<< 1
  := by
  have hbits : ((fun k : Fin (m + 1) => pulseBit cyclesdata (8 * j + (m + 1 - 1 - k))) ∘ Fin.succ)
      = fun k : Fin m => pulseBit cyclesdata (8 * j + (m - 1 - k)) := by
    funext k
    rw [Function.comp_apply, Fin.val_succ]
    congr 2
    omega
  rw [shiftLeft_or, leading, Nat.ofBits_succ, hbits, UInt8.ofNat_add, UInt8.ofNat_mul]
  rfl

/-- A turn of the loop that decodes the data bits puts the bit behind those of its byte. -/
theorem decodeBit_eq {cyclesdata : ℕ → UInt32} {i : ℕ} (hlow : cyclesdata (2 * i) ≠ 0)
    (hhigh : cyclesdata (2 * i + 1) ≠ 0) :
  decodeBit cyclesdata i (fun j => leading cyclesdata j (min 8 (i - 8 * j)))
    = some fun j => leading cyclesdata j (min 8 (i + 1 - 8 * j))
  := by
  have hbyte : leading cyclesdata (i / 8) (min 8 (i + 1 - 8 * (i / 8)))
      = if pulseBit cyclesdata i then
          leading cyclesdata (i / 8) (min 8 (i - 8 * (i / 8))) <<< 1 ||| 1
        else
          leading cyclesdata (i / 8) (min 8 (i - 8 * (i / 8))) <<< 1 := by
    have hi : 8 * (i / 8) + i % 8 = i := Nat.div_add_mod i 8
    have hbefore : min 8 (i - 8 * (i / 8)) = i % 8 := by omega
    have hafter : min 8 (i + 1 - 8 * (i / 8)) = i % 8 + 1 := by omega
    rw [hbefore, hafter, leading_succ, hi]
  have hother {j : ℕ} (hj : j ≠ i / 8) : min 8 (i + 1 - 8 * j) = min 8 (i - 8 * j) := by omega
  rw [decodeBit]
  simp only [hlow, hhigh, or_self, if_false, ge_iff_le, Function.update_self,
    Function.update_idem]
  rw [← apply_ite some]
  congr 1
  funext j
  by_cases hj : j = i / 8
  · subst hj
    rw [hbyte, pulseBit]
    simp only [decide_eq_true_eq]
    split
    · rw [Function.update_self]
    · rw [Function.update_self]
  · rw [hother hj]
    split
    · rw [Function.update_of_ne hj]
    · rw [Function.update_of_ne hj]

/-- When no pulse is missing, every byte has as many of its bits as have been decoded. -/
theorem decode_eq {cyclesdata : ℕ → UInt32} {i : ℕ} (h : ∀ k < 2 * i, cyclesdata k ≠ 0) :
  decode cyclesdata i = some fun j => leading cyclesdata j (min 8 (i - 8 * j))
  := by
  induction i with
  | zero =>
      rw [decode]
      congr 1
      funext j
      rw [Nat.zero_sub, Nat.min_zero, leading_zero]
  | succ i ih =>
      rw [decode, ih fun k hk => h k (by omega), Option.bind_some]
      apply decodeBit_eq (h _ (by omega)) (h _ (by omega))

theorem decodeBit_eq_none {cyclesdata : ℕ → UInt32} {i : ℕ} (data : ℕ → UInt8)
    (h : cyclesdata (2 * i) = 0 ∨ cyclesdata (2 * i + 1) = 0) :
  decodeBit cyclesdata i data = none
  := if_pos h

theorem decode_eq_none {cyclesdata : ℕ → UInt32} {i k : ℕ} (hk : k < 2 * i)
    (h : cyclesdata k = 0) :
  decode cyclesdata i = none
  := by
  induction i with
  | zero => omega
  | succ i ih =>
      rw [decode]
      obtain hbefore | rfl | rfl : k < 2 * i ∨ k = 2 * i ∨ k = 2 * i + 1 := by omega
      · rw [ih hbefore, Option.bind_none]
      · apply Option.bind_eq_none_iff.mpr
        intro data _
        apply decodeBit_eq_none data (Or.inl h)
      · apply Option.bind_eq_none_iff.mpr
        intro data _
        apply decodeBit_eq_none data (Or.inr h)

theorem receive_eq (expect : ℕ → UInt32) {i k : ℕ} (hk : k < 2 * i) :
  receive expect i k = expect (2 + k)
  := by
  induction i with
  | zero => omega
  | succ i ih =>
      obtain rfl | hk : k = 2 * i + 1 ∨ k < 2 * i + 1 := by omega
      · apply Function.update_self
      · rw [receive, Function.update_of_ne (by omega)]
        obtain rfl | hk : k = 2 * i ∨ k < 2 * i := by omega
        · apply Function.update_self
        · rw [Function.update_of_ne (by omega), ih hk]

/-! ### What a read leaves behind -/

/-- Whether a start pulse is missing. -/
def StartLost (expect : ℕ → UInt32) : Prop :=
  expect 0 = 0 ∨ expect 1 = 0

/-- Whether the sensor starts to answer and one of the 80 pulses of its data bits is missing. -/
def PulseLost (expect : ℕ → UInt32) : Prop :=
  ¬ StartLost expect ∧ ∃ k < 80, expect (2 + k) = 0

/-- Whether no pulse is missing. -/
def Answered (expect : ℕ → UInt32) : Prop :=
  ¬ StartLost expect ∧ ∀ k < 80, expect (2 + k) ≠ 0

/-- The bytes that the sensor sends. -/
def received (expect : ℕ → UInt32) (j : Fin 5) : UInt8 :=
  leading (fun k => expect (2 + k)) j 8

/-- Whether the last byte has the low eight bits of the sum of the other four. -/
def Checked (data : Fin 5 → UInt8) : Prop :=
  (data 4).toNat = ((data 0).toNat + (data 1).toNat + (data 2).toNat + (data 3).toNat) % 2 ^ 8

instance (expect : ℕ → UInt32) : Decidable (StartLost expect) :=
  inferInstanceAs (Decidable (_ ∨ _))

instance (expect : ℕ → UInt32) : Decidable (PulseLost expect) :=
  inferInstanceAs (Decidable (_ ∧ _))

instance (expect : ℕ → UInt32) : Decidable (Answered expect) :=
  inferInstanceAs (Decidable (_ ∧ _))

instance (data : Fin 5 → UInt8) : Decidable (Checked data) :=
  inferInstanceAs (Decidable (_ = _))

theorem startLost_or_pulseLost_or_answered (expect : ℕ → UInt32) :
  StartLost expect ∨ PulseLost expect ∨ Answered expect
  := by
  by_cases hstart : StartLost expect
  · apply Or.inl hstart
  · by_cases hlost : ∃ k < 80, expect (2 + k) = 0
    · apply Or.inr (Or.inl ⟨hstart, hlost⟩)
    · push Not at hlost
      apply Or.inr (Or.inr ⟨hstart, hlost⟩)

theorem Answered.not_pulseLost {expect : ℕ → UInt32} (h : Answered expect) :
  ¬ PulseLost expect
  := by
  rintro ⟨-, k, hk, hzero⟩
  apply h.2 k hk hzero

/-- The bytes that are decoded are those that the sensor sends. -/
theorem decode_receive {expect : ℕ → UInt32} (h : ∀ k < 80, expect (2 + k) ≠ 0) :
  ∃ data, decode (receive expect 40) 40 = some data ∧ ∀ j : Fin 5, data j = received expect j
  := by
  refine ⟨_, decode_eq fun k hk => ?_, ?_⟩
  · rw [receive_eq expect hk]
    apply h k hk
  · intro j
    have hj := j.isLt
    rw [Nat.min_eq_left (by omega), received, leading, leading]
    congr 2
    funext k
    rw [pulseBit, pulseBit, receive_eq expect (by omega), receive_eq expect (by omega)]

theorem decode_receive_eq_none {expect : ℕ → UInt32} (h : ∃ k < 80, expect (2 + k) = 0) :
  decode (receive expect 40) 40 = none
  := by
  obtain ⟨k, hk, hzero⟩ := h
  apply decode_eq_none hk
  rw [receive_eq expect hk, hzero]

namespace DhtThread

variable {expect : ℕ → UInt32} (cyclesdata : ℕ) (s : DhtThread)

/-- The start signal, after which the driver listens to the line. -/
def startSignal : List LineOp :=
  [.write true, .sleep 250, .output false, .delay 20, .write true, .delayUs 40, .input,
    .write true, .delayUs 10]

/-- A read has returned, with the values that it leaves in the preemption counter and in the
driver: it has freed the buffer once, the interrupts are as before, the start signal has been
sent, and it returns whether the last read has succeeded. -/
structure Returned (cyclesdata : ℕ) (s : DhtThread) (preemptCnt : ℤ) (lastReadOk : Bool)
    (data : Fin 5 → UInt8) (result : DhtThread × Bool) : Prop where
  preemptCnt : result.1.preemptCnt = preemptCnt
  freed : result.1.freed = cyclesdata :: s.freed
  irqs : result.1.irqs = s.irqs
  line : result.1.line = s.line ++ startSignal
  dht : result.1.dht = { s.dht with lastRead := s.sysTick, lastReadOk, data }
  result : result.2 = lastReadOk

@[simp]
theorem preemptEnable_preemptCnt : s.preemptEnable.preemptCnt = s.preemptCnt - 1 := by
  rw [preemptEnable]
  split <;> rfl

@[simp]
theorem preemptEnable_freed : s.preemptEnable.freed = s.freed := by
  rw [preemptEnable]
  split <;> rfl

@[simp]
theorem preemptEnable_irqs : s.preemptEnable.irqs = s.irqs := by
  rw [preemptEnable]
  split <;> rfl

@[simp]
theorem preemptEnable_line : s.preemptEnable.line = s.line := by
  rw [preemptEnable]
  split <;> rfl

@[simp]
theorem preemptEnable_dht : s.preemptEnable.dht = s.dht := by
  rw [preemptEnable]
  split <;> rfl

@[simp]
theorem kfree_preemptCnt : (s.kfree cyclesdata).preemptCnt = s.preemptCnt := rfl

@[simp]
theorem kfree_freed : (s.kfree cyclesdata).freed = cyclesdata :: s.freed := rfl

@[simp]
theorem kfree_irqs : (s.kfree cyclesdata).irqs = s.irqs := rfl

@[simp]
theorem kfree_line : (s.kfree cyclesdata).line = s.line := rfl

@[simp]
theorem kfree_dht : (s.kfree cyclesdata).dht = s.dht := rfl

@[simp]
theorem irqRestore_preemptCnt (flags : Bool) : (s.irqRestore flags).preemptCnt = s.preemptCnt := rfl

@[simp]
theorem irqRestore_freed (flags : Bool) : (s.irqRestore flags).freed = s.freed := rfl

@[simp]
theorem irqRestore_irqs (flags : Bool) : (s.irqRestore flags).irqs = (s.irqs || flags) := rfl

@[simp]
theorem irqRestore_line (flags : Bool) : (s.irqRestore flags).line = s.line := rfl

@[simp]
theorem irqRestore_dht (flags : Bool) : (s.irqRestore flags).dht = s.dht := rfl

@[simp]
theorem setDht_preemptCnt (f : Dht11 → Dht11) : (s.setDht f).preemptCnt = s.preemptCnt := rfl

@[simp]
theorem setDht_freed (f : Dht11 → Dht11) : (s.setDht f).freed = s.freed := rfl

@[simp]
theorem setDht_irqs (f : Dht11 → Dht11) : (s.setDht f).irqs = s.irqs := rfl

@[simp]
theorem setDht_line (f : Dht11 → Dht11) : (s.setDht f).line = s.line := rfl

@[simp]
theorem setDht_dht (f : Dht11 → Dht11) : (s.setDht f).dht = f s.dht := rfl

@[simp]
theorem start_preemptCnt : s.start.1.preemptCnt = s.preemptCnt + 1 := rfl

@[simp]
theorem start_freed : s.start.1.freed = s.freed := rfl

@[simp]
theorem start_irqs : s.start.1.irqs = false := rfl

@[simp]
theorem start_line : s.start.1.line = s.line ++ startSignal := by
  simp [start, drive, setDht, preemptDisable, irqSaveAndDisable, startSignal]

@[simp]
theorem start_dht : s.start.1.dht = { s.dht with lastRead := s.sysTick } := rfl

@[simp]
theorem start_flags : s.start.2 = s.irqs := rfl

theorem rawDht11Read_of_startLost (h : StartLost expect) :
  s.rawDht11Read expect cyclesdata = s.start.1.noStart cyclesdata s.start.2
  := by
  rw [rawDht11Read]
  by_cases hlow : expect 0 = 0
  · apply if_pos hlow
  · apply (if_neg hlow).trans (if_pos (h.resolve_left hlow))

theorem rawDht11Read_of_not_startLost (h : ¬ StartLost expect) :
  s.rawDht11Read expect cyclesdata
    = (s.start.1.irqRestore s.start.2).preemptEnable.finish cyclesdata
        (decode (receive expect 40) 40)
  := by
  rw [StartLost, not_or] at h
  rw [rawDht11Read]
  apply (if_neg h.1).trans (if_neg h.2)

/-- An exit for a missing start pulse. -/
theorem returned_of_startLost (h : StartLost expect) :
  Returned cyclesdata s s.preemptCnt s.dht.lastReadOk s.dht.data
    (s.rawDht11Read expect cyclesdata)
  := by
  rw [rawDht11Read_of_startLost cyclesdata s h, noStart]
  constructor <;> simp

/-- The exit for a missing pulse of a data bit, where the preemption counter goes down twice. -/
theorem returned_of_pulseLost (h : PulseLost expect) :
  Returned cyclesdata s (s.preemptCnt - 1) false s.dht.data (s.rawDht11Read expect cyclesdata)
  := by
  obtain ⟨hstart, hlost⟩ := h
  rw [rawDht11Read_of_not_startLost cyclesdata s hstart, decode_receive_eq_none hlost, finish]
  constructor <;> simp

/-- The exits when no pulse is missing. -/
theorem returned_of_answered (h : Answered expect) :
  Returned cyclesdata s s.preemptCnt (Checked (received expect))
    (if Checked (received expect) then received expect else s.dht.data)
    (s.rawDht11Read expect cyclesdata)
  := by
  obtain ⟨hstart, hpulses⟩ := h
  obtain ⟨data, hdecode, hdata⟩ := decode_receive hpulses
  have hbytes : (fun j : Fin 5 => data j) = received expect := funext hdata
  have hsum : ((data 4).toNat = ((data 0).toNat + (data 1).toNat + (data 2).toNat
      + (data 3).toNat) &&& 0xFF) ↔ Checked (received expect) := by
    rw [Checked, ← hbytes]
    exact Iff.of_eq (congrArg _ (Nat.and_two_pow_sub_one_eq_mod _ 8))
  rw [rawDht11Read_of_not_startLost cyclesdata s hstart, hdecode, finish]
  simp only [hsum, hbytes]
  split
  · rename_i hchecked
    constructor <;> simp [hchecked]
  · rename_i hchecked
    constructor <;> simp [hchecked]

/-! ### Balance -/

/-- The preemption counter is as at entry, the buffer has been freed once, and the data are
overwritten, with the bytes that the sensor sends, when no pulse is missing and the check
succeeds. -/
structure Balanced (expect : ℕ → UInt32) (cyclesdata : ℕ) (s s' : DhtThread) : Prop where
  preemptCnt : s'.preemptCnt = s.preemptCnt
  freed : s'.freed = cyclesdata :: s.freed
  data : s'.dht.data = if Answered expect ∧ Checked (received expect) then received expect
    else s.dht.data

/-- A read is balanced when a start pulse is missing or no pulse of the data bits is, and only
then. -/
theorem read_balanced_iff (expect : ℕ → UInt32) (cyclesdata : ℕ) (s : DhtThread) :
  Balanced expect cyclesdata s (s.rawDht11Read expect cyclesdata).1
    ↔ StartLost expect ∨ ∀ k < 80, expect (2 + k) ≠ 0
  := by
  obtain hstart | hlost | hanswered := startLost_or_pulseLost_or_answered expect
  · have hreturned := returned_of_startLost cyclesdata s hstart
    have hdata : ¬ (Answered expect ∧ Checked (received expect)) := fun h => h.1.1 hstart
    apply iff_of_true _ (Or.inl hstart)
    constructor
    · apply hreturned.preemptCnt
    · apply hreturned.freed
    · rw [if_neg hdata, hreturned.dht]
  · have hreturned := returned_of_pulseLost cyclesdata s hlost
    apply iff_of_false
    · intro hbalanced
      have hcnt := hreturned.preemptCnt.symm.trans hbalanced.preemptCnt
      omega
    · rintro (hstart | hpulses)
      · apply hlost.1 hstart
      · obtain ⟨k, hk, hzero⟩ := hlost.2
        apply hpulses k hk hzero
  · have hreturned := returned_of_answered cyclesdata s hanswered
    apply iff_of_true _ (Or.inr hanswered.2)
    constructor
    · apply hreturned.preemptCnt
    · apply hreturned.freed
    · simp only [hanswered, true_and, hreturned.dht]

/-- A thread with preemption enabled, before its first read. -/
def idle : DhtThread where
  dht := { cycles := 16000, lastRead := 0, lastReadOk := false, data := fun _ => 0 }
  sysTick := 3000
  preemptCnt := 0
  shouldResched := false
  schedules := 0
  irqs := true
  line := []
  freed := []

/-- The pulses of a sensor that is unplugged after 20 bits: the line stays high. -/
def unplugged (k : ℕ) : UInt32 :=
  if k < 42 then 50 else if k % 2 = 0 then 1 else 0

/-- A read of a sensor that is unplugged takes the preemption counter below its value. -/
theorem not_balanced_unplugged :
  ¬ Balanced unplugged 1 idle (idle.rawDht11Read unplugged 1).1
  := by
  intro h
  have hlost : PulseLost unplugged := ⟨by decide, 41, by decide, rfl⟩
  have hcnt := (returned_of_pulseLost 1 idle hlost).preemptCnt.symm.trans h.preemptCnt
  revert hcnt
  decide

/-! ### Several reads -/

/-- Reads of the sensor one after the other, each with its pulses and its buffer. -/
def reads (s : DhtThread) (calls : List ((ℕ → UInt32) × ℕ)) : DhtThread :=
  calls.foldl (fun s call => (s.rawDht11Read call.1 call.2).1) s

/-- A read takes the preemption counter down when a pulse of a data bit is missing. -/
theorem rawDht11Read_preemptCnt (expect : ℕ → UInt32) :
  (s.rawDht11Read expect cyclesdata).1.preemptCnt
    = s.preemptCnt - if PulseLost expect then 1 else 0
  := by
  obtain hstart | hlost | hanswered := startLost_or_pulseLost_or_answered expect
  · have hlost : ¬ PulseLost expect := fun h => h.1 hstart
    rw [if_neg hlost, sub_zero]
    apply (returned_of_startLost cyclesdata s hstart).preemptCnt
  · rw [if_pos hlost]
    apply (returned_of_pulseLost cyclesdata s hlost).preemptCnt
  · rw [if_neg hanswered.not_pulseLost, sub_zero]
    apply (returned_of_answered cyclesdata s hanswered).preemptCnt

/-- The bytes of the driver pass the check after a read when they do before it. -/
theorem rawDht11Read_checked (expect : ℕ → UInt32) (h : Checked s.dht.data) :
  Checked (s.rawDht11Read expect cyclesdata).1.dht.data
  := by
  obtain hstart | hlost | hanswered := startLost_or_pulseLost_or_answered expect
  · rw [(returned_of_startLost cyclesdata s hstart).dht]
    apply h
  · rw [(returned_of_pulseLost cyclesdata s hlost).dht]
    apply h
  · rw [(returned_of_answered cyclesdata s hanswered).dht]
    dsimp only
    split
    · assumption
    · apply h

/-- The preemption counter goes down with every read that misses a pulse of a data bit. -/
theorem reads_preemptCnt (calls : List ((ℕ → UInt32) × ℕ)) :
  (s.reads calls).preemptCnt = s.preemptCnt - calls.countP fun call => PulseLost call.1
  := by
  induction calls generalizing s with
  | nil => simp [reads]
  | cons call calls ih =>
      have hrest : s.reads (call :: calls) = (s.rawDht11Read call.1 call.2).1.reads calls := rfl
      rw [hrest, ih, rawDht11Read_preemptCnt, List.countP_cons, Nat.cast_add]
      simp only [decide_eq_true_eq, Nat.cast_ite, Nat.cast_one, Nat.cast_zero]
      ring

theorem reads_checked (calls : List ((ℕ → UInt32) × ℕ)) (h : Checked s.dht.data) :
  Checked (s.reads calls).dht.data
  := by
  induction calls generalizing s with
  | nil => apply h
  | cons call calls ih => apply ih _ (rawDht11Read_checked call.2 s call.1 h)

/-- Once a read has missed a pulse, a critical section does not end in a call of
`preempt_schedule` any more. -/
theorem schedules_of_pulseLost {calls : List ((ℕ → UInt32) × ℕ)} (hs : s.preemptCnt = 0)
    (hlost : ∃ call ∈ calls, PulseLost call.1) :
  (s.reads calls).preemptDisable.preemptEnable.schedules = (s.reads calls).schedules
  := by
  have hcnt := s.reads_preemptCnt calls
  have hpos : 0 < calls.countP fun call => PulseLost call.1 := by
    rw [List.countP_pos_iff]
    obtain ⟨call, hmem, hcall⟩ := hlost
    use call, hmem
    rw [decide_eq_true hcall]
  rw [preemptEnable, if_neg]
  · rfl
  · rintro ⟨hzero, -⟩
    simp only [preemptDisable] at hzero
    omega

end DhtThread

/-! ### Missing pulses -/

/-- The loop returns 0 when the line stays at the level until it gives up. -/
theorem dhtExpectLoop_eq_zero_iff {cycles : UInt32} (hcycles : cycles.toNat + 1 < 2 ^ 32)
    {level : Bool} {pin : ℕ → Bool} {count : UInt32} {pos : ℕ} (hpos : 0 < count.toNat)
    (hcount : count.toNat ≤ cycles.toNat + 1) :
  (dhtExpectLoop cycles level pin count pos).1 = 0
    ↔ ∀ i, count.toNat + i ≤ cycles.toNat + 1 → pin (pos + i) = level
  := by
  have hend := toNat_succ hcycles
  fun_induction dhtExpectLoop cycles level pin count pos with
  | case1 count pos hlevel hge =>
      rw [ge_iff_le, UInt32.le_iff_toNat_le, hend] at hge
      apply iff_of_true rfl
      intro i hi
      obtain rfl : i = 0 := by omega
      apply hlevel
  | case2 count pos hlevel hlt ih =>
      rw [ge_iff_le, UInt32.le_iff_toNat_le, hend, not_le] at hlt
      have hsucc : (count + 1).toNat = count.toNat + 1 := toNat_succ (by omega)
      apply (ih (by omega) (by omega)).trans
      rw [hsucc]
      constructor
      · intro h i hi
        cases i with
        | zero => apply hlevel
        | succ i =>
            rw [← Nat.add_assoc, Nat.add_right_comm]
            apply h
            omega
      · intro h i hi
        rw [Nat.add_right_comm]
        apply h (i + 1)
        omega
  | case3 count pos hlevel =>
      apply iff_of_false
      · intro hzero
        dsimp only at hzero
        rw [hzero, UInt32.toNat_zero] at hpos
        omega
      · intro h
        apply hlevel (h 0 hcount)

/-- A pulse is missing when the line stays at its level for more than `cycles` readings. -/
theorem dhtExpect_eq_zero_iff {cycles : UInt32} (hcycles : cycles.toNat + 1 < 2 ^ 32)
    (level : Bool) (pin : ℕ → Bool) (pos : ℕ) :
  (dhtExpect cycles level pin pos).1 = 0 ↔ ∀ i ≤ cycles.toNat, pin (pos + i) = level
  := by
  rw [dhtExpect, dhtExpectLoop_eq_zero_iff hcycles (by decide) (by rw [UInt32.toNat_one]; omega)]
  simp only [UInt32.toNat_one]
  apply forall_congr'
  intro i
  rw [Nat.add_comm 1 i, Nat.add_le_add_iff_right]

/-- A sensor that leaves the line high before it has sent all data bits misses a pulse. -/
theorem pulseLost_of_high {cycles : UInt32} (hcycles : cycles.toNat + 1 < 2 ^ 32)
    {pin : ℕ → Bool} {i : ℕ} (hi : i < 40)
    (hstart : ¬ StartLost fun k => (dhtReports cycles pin k).1)
    (hhigh : ∀ pos ≥ (dhtReports cycles pin (2 + 2 * i)).2, pin pos = true) :
  PulseLost fun k => (dhtReports cycles pin k).1
  := by
  refine ⟨hstart, 2 * i + 1, by omega, ?_⟩
  change (dhtExpect cycles ((2 + 2 * i) % 2 = 0) pin (dhtReports cycles pin (2 + 2 * i)).2).1 = 0
  rw [dhtExpect_eq_zero_iff hcycles]
  intro n _
  rw [hhigh _ (Nat.le_add_right _ n)]
  symm
  rw [decide_eq_true_eq]
  omega

end Etaos.Drivers
