import Etaos.Sched.WaitTmo

/-!
# The I2C bus of the ATmega

The transfer of a list of messages: `i2c_bus_xfer` and `__i2c_transfer` of `bus.c`, which try
again when an attempt timed out, and the attempts and the interrupt handler of
`atmega-bus.c`.  The interrupts carry any status at any time.
-/

namespace Etaos.Drivers

/-! ### The registers -/

/-- The macro `BIT`. -/
def bit (n : UInt8) : UInt8 :=
  1 <<< n

/-- The bits of `TWCR`. -/
def TWINT : UInt8 := 7
def TWEA : UInt8 := 6
def TWSTA : UInt8 := 5
def TWSTO : UInt8 := 4
def TWEN : UInt8 := 2
def TWIE : UInt8 := 0

/-- The constant `TWGO`. -/
def TWGO : UInt8 := bit TWINT ||| bit TWEN ||| bit TWIE

/-- The statuses that the interrupt handler tells apart. -/
inductive TwStatus where
  | start
  | repStart
  | mtSlaAck
  | mtSlaNack
  | mtDataAck
  | mtDataNack
  | arbLost
  | mrSlaAck
  | mrSlaNack
  | mrDataAck
  | mrDataNack
  /-- The label `default`. -/
  | other
  deriving DecidableEq

/-- The constant `TW_NO_INFO`. -/
def TW_NO_INFO : UInt8 := 0xF8

/-- The status in the register `TWSR`. -/
def TwStatus.ofTwsr (twsr : UInt8) : TwStatus :=
  match (twsr &&& 0xF8).toNat with
  | 0x08 => .start
  | 0x10 => .repStart
  | 0x18 => .mtSlaAck
  | 0x20 => .mtSlaNack
  | 0x28 => .mtDataAck
  | 0x30 => .mtDataNack
  | 0x38 => .arbLost
  | 0x40 => .mrSlaAck
  | 0x48 => .mrSlaNack
  | 0x50 => .mrDataAck
  | 0x58 => .mrDataNack
  | _ => .other

/-! ### The driver -/

/-- A message; `rd` is its flag `I2C_RD_FLAG`. -/
structure I2cMsg where
  destAddr : UInt16
  buff : ℕ
  len : ℕ
  idx : ℕ
  rd : Bool
  deriving DecidableEq

/-- The message without the field that is for internal use only. -/
def I2cMsg.unsent (msg : I2cMsg) : I2cMsg :=
  { msg with idx := 0 }

/-- The fields of a bus that `__i2c_transfer` reads. -/
structure I2cBus where
  timeout : ℕ
  retries : ℕ

/-- Where a thread is in `i2c_bus_xfer`. -/
inductive I2cPc where
  /-- At the condition of the loop of `__i2c_transfer`. -/
  | loop
  /-- At the loop of `atmega_i2c_xfer` that waits for the bus. -/
  | busy
  /-- Before its critical section. -/
  | setup
  /-- In its call of `mutex_wait_tmo`. -/
  | wait
  /-- Behind `atmega_i2c_xfer`. -/
  | ended
  /-- Behind `__i2c_transfer`. -/
  | returned
  deriving DecidableEq

/-- The driver, with the thread that transfers messages. -/
structure I2cSystem where
  mem : ℕ → UInt8
  /-- The messages of the caller. -/
  msgs : List I2cMsg
  /-- Whether `atmega_xfer_msgs` is the array of the caller. -/
  attached : Bool
  /-- The array that `atmega_xfer_msgs` is otherwise; it is empty when it is `NULL`. -/
  earlier : List I2cMsg
  twMmError : UInt8
  twIfBusy : Bool
  msgIndex : UInt8
  msgNum : UInt8
  twcr : UInt8
  twdr : UInt8
  /-- The thread on `mtr_xfer_mutex`. -/
  wait : WaitTmo
  pc : I2cPc
  /-- The variable `ret` of `__i2c_transfer`. -/
  ret : Int
  /-- The variable `retries` of `__i2c_transfer`. -/
  retries : ℕ
  /-- The variable `ref` of `__i2c_transfer`. -/
  ref : ℕ
  /-- Whether an interrupt of the transfer reported a slave address that was not
  acknowledged, or an unexpected status. -/
  fault : Bool

namespace I2cSystem

/-- The array `atmega_xfer_msgs`. -/
def atmegaXferMsgs (s : I2cSystem) : List I2cMsg :=
  if s.attached then s.msgs else s.earlier

/-- The assignment `atmega_xfer_msgs[msg_index] = msg`. -/
def setMsg (s : I2cSystem) (msg : I2cMsg) : I2cSystem :=
  { s with
    msgs := if s.attached then s.msgs.set s.msgIndex.toNat msg else s.msgs
    earlier := if s.attached then s.earlier else s.earlier.set s.msgIndex.toNat msg }

/-- The end of a transmission, as in the branches that notify the thread and stop. -/
def stop (s : I2cSystem) : I2cSystem :=
  { s with
    wait := s.wait.mutexUnlockIrq
    twcr := TWGO ||| bit TWSTO
    twIfBusy := false }

/-- The branch of `TW_MR_SLA_ACK`, which `TW_MR_DATA_ACK` falls through to. -/
def acknowledge (s : I2cSystem) (msg : I2cMsg) : I2cSystem :=
  { s with twcr := if msg.idx + 1 < msg.len then TWGO ||| bit TWEA else TWGO }

/-- The store of a byte received, and the step of `msg->idx`. -/
def receive (s : I2cSystem) (msg : I2cMsg) : I2cSystem × I2cMsg :=
  ({ s with mem := Function.update s.mem (msg.buff + msg.idx) s.twdr },
    { msg with idx := msg.idx + 1 })

/-- The function `atmega_i2c_stc_irq`, where `twdr` is a byte received; there is no result
when `msg_index` is outside of the array. -/
def atmegaI2cStcIrq (s : I2cSystem) (status : TwStatus) (twdr : UInt8) : Option I2cSystem :=
  let twcr := s.twcr
  s.atmegaXferMsgs[s.msgIndex.toNat]?.map fun msg =>
    match status with
    | .start | .repStart =>
        { s.setMsg { msg with idx := 0 } with
          twIfBusy := true
          twdr := if msg.rd then msg.destAddr.toUInt8 ||| 0x1 else msg.destAddr.toUInt8
          twcr := TWGO ||| (twcr &&& bit TWEA) }
    | .mtSlaAck | .mtDataAck =>
        if msg.idx < msg.len then
          { s.setMsg { msg with idx := msg.idx + 1 } with
            twdr := s.mem (msg.buff + msg.idx)
            twcr := TWGO ||| (twcr &&& bit TWEA) }
        else
          let s := s.setMsg { msg with len := 0 }
          if s.msgIndex.toNat + 1 < s.msgNum.toNat then
            { s with
              msgIndex := s.msgIndex + 1
              twcr := TWGO ||| (twcr &&& bit TWEA) ||| bit TWSTA }
          else
            { s with twMmError := UInt8.ofInt (-EOK) }.stop
    | .mtSlaNack | .mrSlaNack =>
        { s.setMsg { msg with len := 0 } with
          twMmError := UInt8.ofInt (-EINVAL)
          msgNum := 0
          fault := s.fault || s.attached }.stop
    | .mtDataNack => { s with twMmError := UInt8.ofInt (-EOK) }.stop
    | .arbLost =>
        -- The source takes the number of the bit for the bit.
        { s with twcr := twcr ||| TWSTA, twIfBusy := false }
    | .mrDataAck =>
        let (s, msg) := { s with twdr }.receive msg
        (s.setMsg msg).acknowledge msg
    | .mrSlaAck => s.acknowledge msg
    | .mrDataNack =>
        let (s, msg) := { s with twdr }.receive msg
        let s := s.setMsg { msg with len := 0 }
        if s.msgIndex.toNat + 1 < s.msgNum.toNat then
          { s with
            msgIndex := s.msgIndex + 1
            twcr := TWGO ||| bit TWEA ||| bit TWSTA }
        else
          { s.stop with twMmError := UInt8.ofInt (-EOK) }
    | .other =>
        { s with
          wait := s.wait.mutexUnlockIrq
          twMmError := UInt8.ofInt (-EINVAL)
          twIfBusy := false
          fault := s.fault || s.attached }

/-- The call of `i2c_bus_xfer` for the messages `msgs`, at the time `ref`. -/
def i2cBusXfer (s : I2cSystem) (msgs : List I2cMsg) (ref : ℕ) : I2cSystem :=
  { s with
    msgs
    attached := false
    earlier := s.atmegaXferMsgs
    wait := { s.wait with pc := .eventWait }
    pc := .loop
    ret := 0
    retries := 0
    ref
    fault := false }

/-- The critical section of `atmega_i2c_xfer`, where `TWSR` holds `twsr`. -/
def setup (s : I2cSystem) (twsr : UInt8) : I2cSystem :=
  { s with
    attached := true
    msgIndex := 0
    msgNum := UInt8.ofNat s.msgs.length
    twcr :=
      if ¬ s.twIfBusy ∧ twsr &&& 0xF8 = TW_NO_INFO then
        bit TWEN ||| bit TWIE ||| bit TWSTA ||| (s.twcr &&& bit TWSTO)
      else
        s.twcr
    wait := { s.wait with pc := .eventWait }
    pc := .wait }

/-- The value that `atmega_i2c_xfer` returns when `mutex_wait_tmo` has returned `rv`. -/
def xferResult (s : I2cSystem) (rv : Int) : Int :=
  if rv ≠ 0 then
    -EAGAIN
  else if s.twMmError ≠ 0 then
    s.twMmError.toNat
  else
    -EOK

/-- A step of the thread, where `TWSR` and `sys_tick` have the given values. -/
def run (bus : I2cBus) (s : I2cSystem) (twsr : UInt8) (sysTick : ℕ) : Option I2cSystem :=
  match s.pc with
  | .loop => some { s with pc := if s.retries < bus.retries then .busy else .returned }
  | .busy => some { s with pc := if s.twIfBusy then .busy else .setup }
  | .setup => some (s.setup twsr)
  | .wait =>
      match s.wait.pc with
      | .returned rv => some { s with ret := s.xferResult rv, pc := .ended }
      | _ => s.wait.run.map fun wait => { s with wait }
  | .ended =>
      if s.ret ≠ -EAGAIN ∨ sysTick > s.ref + bus.timeout then
        some { s with pc := .returned }
      else
        some { s with retries := s.retries + 1, pc := .loop }
  | .returned => none

/-- The value that `i2c_bus_xfer` returns. -/
def result (s : I2cSystem) : Option Int :=
  if s.pc = .returned then
    some (if s.ret = -EOK then s.msgs.length else s.ret)
  else
    none

end I2cSystem

/-- The steps of a transfer. -/
inductive I2cLabel where
  /-- The thread runs, with these values of `TWSR` and `sys_tick`. -/
  | run (twsr : UInt8) (sysTick : ℕ)
  /-- An interrupt, with these values of `TWSR` and `TWDR`. -/
  | stc (twsr twdr : UInt8)
  /-- A pass of the scheduler; `expired` is whether the time of the thread is up. -/
  | pass (expired : Bool)
  deriving DecidableEq

namespace I2cSystem

/-- One step of a transfer. -/
def step (bus : I2cBus) (s : I2cSystem) : I2cLabel → Option I2cSystem
  | .run twsr sysTick => s.run bus twsr sysTick
  | .stc twsr twdr => s.atmegaI2cStcIrq (.ofTwsr twsr) twdr
  | .pass expired => (s.wait.pass expired).map fun wait => { s with wait }

end I2cSystem

/-! ### Interrupts -/

namespace TwStatus

/-- A slave address was not acknowledged, or the status is unexpected. -/
def Faulty : TwStatus → Prop
  | .mtSlaNack | .mrSlaNack | .other => True
  | _ => False

/-- The status reports a start condition. -/
def Starts : TwStatus → Prop
  | .start | .repStart => True
  | _ => False

instance : DecidablePred Faulty := fun st => by
  cases st <;> unfold Faulty <;> infer_instance

instance : DecidablePred Starts := fun st => by
  cases st <;> unfold Starts <;> infer_instance

end TwStatus

namespace I2cSystem

/-- The interrupt finds the end of a message, whose length it overwrites. -/
def EndsMsg (s : I2cSystem) : TwStatus → Prop
  | .mtSlaAck | .mtDataAck =>
      ∃ msg ∈ s.atmegaXferMsgs[s.msgIndex.toNat]?, msg.len ≤ msg.idx
  | .mrDataNack => True
  | _ => False

instance (s : I2cSystem) : DecidablePred s.EndsMsg := fun st => by
  cases st <;> unfold EndsMsg <;> infer_instance

/-- What an interrupt can do to the variables of a transfer. -/
structure Handles (s : I2cSystem) (status : TwStatus) (s' : I2cSystem) : Prop where
  pc : s'.pc = s.pc
  ret : s'.ret = s.ret
  attached : s'.attached = s.attached
  length : s'.msgs.length = s.msgs.length
  wait : s'.wait = s.wait ∨ s'.wait = s.wait.mutexUnlockIrq ∧ s'.twIfBusy = false ∧
    (¬ status.Faulty → s'.twMmError = 0)
  busy : ¬ status.Starts → s'.twIfBusy = s.twIfBusy ∨ s'.twIfBusy = false
  error : ¬ status.Faulty → s'.twMmError = s.twMmError ∨ s'.twMmError = 0
  fault : ¬ (status.Faulty ∧ s.attached) → s'.fault = s.fault
  unsent : ¬ (s.attached ∧ (status.Faulty ∨ s.EndsMsg status)) →
    s'.msgs.map I2cMsg.unsent = s.msgs.map I2cMsg.unsent

section

variable {s s' : I2cSystem} {msg msg' : I2cMsg}

@[simp] theorem length_setMsg : (s.setMsg msg).msgs.length = s.msgs.length := by
  by_cases h : s.attached <;> simp [setMsg, h]

/-- A message that changes in its field `idx` only is still the same to the caller. -/
theorem unsent_setMsg (msg' : I2cMsg)
    (hmsg : s.atmegaXferMsgs[s.msgIndex.toNat]? = some msg)
    (h : s.attached → msg'.unsent = msg.unsent) :
  (s.setMsg msg').msgs.map I2cMsg.unsent = s.msgs.map I2cMsg.unsent
  := by
  rw [atmegaXferMsgs] at hmsg
  by_cases hs : s.attached
  · rw [if_pos hs] at hmsg
    obtain ⟨hi, rfl⟩ := List.getElem?_eq_some_iff.mp hmsg
    simp only [setMsg, hs, if_true, List.map_set, h hs]
    rw [← List.getElem_map I2cMsg.unsent (h := by simpa using hi), List.set_getElem_self]
  · simp [setMsg, hs]

/-- The interrupt handler does what `Handles` says. -/
theorem handles {status : TwStatus} {twdr : UInt8}
    (h : s.atmegaI2cStcIrq status twdr = some s') :
  s.Handles status s'
  := by
  obtain ⟨msg, hmsg, rfl⟩ := Option.map_eq_some_iff.mp h
  cases status with
  | start | repStart =>
      refine ⟨rfl, rfl, rfl, length_setMsg, .inl rfl, ?_, fun _ => .inl rfl, fun _ => rfl, ?_⟩
      · intro hnot
        exact absurd trivial hnot
      · intro _
        exact unsent_setMsg { msg with idx := 0 } hmsg fun _ => rfl
  | mtSlaAck | mtDataAck =>
      dsimp only
      split
      · refine ⟨rfl, rfl, rfl, length_setMsg, .inl rfl, fun _ => .inl rfl, fun _ => .inl rfl,
          fun _ => rfl, ?_⟩
        intro _
        exact unsent_setMsg { msg with idx := msg.idx + 1 } hmsg fun _ => rfl
      · rename_i hlen
        have hends : s.EndsMsg .mtSlaAck := ⟨msg, hmsg, Nat.le_of_not_lt hlen⟩
        have hunsent (hnot : ¬ (s.attached ∧ (False ∨ s.EndsMsg .mtSlaAck))) :
            (s.setMsg { msg with len := 0 }).msgs.map I2cMsg.unsent
              = s.msgs.map I2cMsg.unsent := by
          apply unsent_setMsg _ hmsg
          intro hattached
          exact absurd ⟨hattached, .inr hends⟩ hnot
        split
        · exact ⟨rfl, rfl, rfl, length_setMsg, .inl rfl, fun _ => .inl rfl,
            fun _ => .inl rfl, fun _ => rfl, hunsent⟩
        · exact ⟨rfl, rfl, rfl, length_setMsg, .inr ⟨rfl, rfl, fun _ => rfl⟩,
            fun _ => .inr rfl, fun _ => .inr rfl, fun _ => rfl, hunsent⟩
  | mtDataNack =>
      exact ⟨rfl, rfl, rfl, rfl, .inr ⟨rfl, rfl, fun _ => rfl⟩, fun _ => .inr rfl,
        fun _ => .inr rfl, fun _ => rfl, fun _ => rfl⟩
  | arbLost =>
      exact ⟨rfl, rfl, rfl, rfl, .inl rfl, fun _ => .inr rfl, fun _ => .inl rfl, fun _ => rfl,
        fun _ => rfl⟩
  | mtSlaNack | mrSlaNack =>
      refine ⟨rfl, rfl, rfl, length_setMsg, .inr ⟨rfl, rfl, fun hnot => absurd trivial hnot⟩,
        fun _ => .inr rfl, fun hnot => absurd trivial hnot, ?_, ?_⟩
      · intro hnot
        have hs : s.attached = false := by simpa [TwStatus.Faulty] using hnot
        simp [stop, hs]
      · intro hnot
        have hs : s.attached = false := by simpa [TwStatus.Faulty] using hnot
        simp [stop, setMsg, hs]
  | mrDataAck =>
      refine ⟨rfl, rfl, rfl, length_setMsg, .inl rfl, fun _ => .inl rfl, fun _ => .inl rfl,
        fun _ => rfl, ?_⟩
      intro _
      exact unsent_setMsg { msg with idx := msg.idx + 1 } hmsg fun _ => rfl
  | mrSlaAck =>
      exact ⟨rfl, rfl, rfl, rfl, .inl rfl, fun _ => .inl rfl, fun _ => .inl rfl, fun _ => rfl,
        fun _ => rfl⟩
  | mrDataNack =>
      dsimp only [receive]
      have hunsent (hnot : ¬ (s.attached ∧ (False ∨ s.EndsMsg .mrDataNack))) :
          (s.setMsg { msg with idx := msg.idx + 1, len := 0 }).msgs.map I2cMsg.unsent
            = s.msgs.map I2cMsg.unsent := by
        have hs : s.attached = false := by simpa [EndsMsg] using hnot
        simp [setMsg, hs]
      split
      · exact ⟨rfl, rfl, rfl, length_setMsg, .inl rfl, fun _ => .inl rfl, fun _ => .inl rfl,
          fun _ => rfl, hunsent⟩
      · exact ⟨rfl, rfl, rfl, length_setMsg, .inr ⟨rfl, rfl, fun _ => rfl⟩,
          fun _ => .inr rfl, fun _ => .inr rfl, fun _ => rfl, hunsent⟩
  | other =>
      refine ⟨rfl, rfl, rfl, rfl, .inr ⟨rfl, rfl, fun hnot => absurd trivial hnot⟩,
        fun _ => .inr rfl, fun hnot => absurd trivial hnot, ?_, fun _ => rfl⟩
      intro hnot
      have hs : s.attached = false := by simpa [TwStatus.Faulty] using hnot
      simp [hs]

end

/-! ### The returned value -/

/-- What holds in every run of a transfer: an attempt has failed with `-EAGAIN` exactly when
its time was up. -/
structure Base (s : I2cSystem) : Prop where
  queued : s.wait.Queued
  idle : s.pc ≠ .wait → s.wait.pc = .eventWait ∨ ∃ rv, s.wait.pc = .returned rv
  ret : s.pc = .loop ∨ s.pc = .ended ∨ s.pc = .returned →
    (s.ret = -EAGAIN ∧ s.wait.pc = .returned (-EINVAL)) ∨
      (0 ≤ s.ret ∧ s.wait.pc ≠ .returned (-EINVAL))

namespace Base

variable {s s' : I2cSystem} {bus : I2cBus}

theorem init {m : Bool} (hqp : s.wait.qp.Holds m []) (msgs : List I2cMsg) (ref : ℕ) :
  Base (s.i2cBusXfer msgs ref)
  := by
  constructor
  case queued => exact ⟨m, hqp⟩
  case idle =>
    intro _
    left
    rfl
  case ret =>
    intro _
    right
    exact ⟨le_rfl, nofun⟩

/-- The notification of an interrupt keeps the place of the thread. -/
theorem stc (h : Base s) {status : TwStatus} (hs : s.Handles status s') : Base s' := by
  have hpc : s'.wait.pc = s.wait.pc := by
    rcases hs.wait with hw | ⟨hw, -⟩ <;> rw [hw]
    rfl
  constructor
  case queued =>
    rcases hs.wait with hw | ⟨hw, -⟩ <;> rw [hw]
    · apply h.queued
    · apply h.queued.mutexUnlockIrq
  case idle =>
    rw [hs.pc, hpc]
    apply h.idle
  case ret =>
    rw [hs.pc, hs.ret, hpc]
    apply h.ret

/-- Only a thread that waits is taken off the queue. -/
theorem pc_of_pass (h : Base s) {expired : Bool} {wait : WaitTmo}
    (hw : s.wait.pass expired = some wait) :
  s.pc = .wait
  := by
  obtain ⟨hpc, -⟩ := WaitTmo.pc_of_pass hw
  by_contra hne
  rcases h.idle hne with hidle | ⟨rv, hidle⟩ <;> rw [hpc] at hidle <;> cases hidle

theorem pass (h : Base s) {expired : Bool} {wait : WaitTmo}
    (hw : s.wait.pass expired = some wait) :
  Base { s with wait }
  := by
  have hpc := h.pc_of_pass hw
  constructor
  case queued => apply (h.queued.pass hw).1
  case idle =>
    intro hne
    exact absurd hpc hne
  case ret =>
    dsimp only
    rw [hpc]
    rintro (hne | hne | hne) <;> cases hne

/-- The value of an attempt that has ended. -/
theorem xferResult_cases (h : Base s) {rv : Int} (hrv : s.wait.pc = .returned rv) :
  (s.xferResult rv = -EAGAIN ∧ rv = -EINVAL) ∨ (0 ≤ s.xferResult rv ∧ rv = -EOK)
  := by
  have hqueued := h.queued
  rw [WaitTmo.Queued, hrv] at hqueued
  rw [xferResult]
  rcases hqueued.1 with rfl | rfl
  · right
    refine ⟨?_, rfl⟩
    rw [if_neg (by decide)]
    split
    · apply Int.natCast_nonneg
    · decide
  · left
    exact ⟨if_pos (by decide), rfl⟩

theorem run (h : Base s) {twsr : UInt8} {sysTick : ℕ}
    (hs : s.run bus twsr sysTick = some s') :
  Base s'
  := by
  rw [I2cSystem.run] at hs
  split at hs <;> rename_i hpc
  · obtain rfl := Option.some.inj hs
    refine ⟨h.queued, fun _ => h.idle (by simp [hpc]), fun _ => h.ret (.inl hpc)⟩
  · obtain rfl := Option.some.inj hs
    refine ⟨h.queued, fun _ => h.idle (by simp [hpc]), ?_⟩
    dsimp only
    split <;> simp
  · obtain rfl := Option.some.inj hs
    refine ⟨?_, fun hne => absurd rfl hne, by simp [setup]⟩
    rcases h.idle (by simp [hpc]) with hidle | ⟨rv, hidle⟩
    · have hqueued := h.queued
      rw [WaitTmo.Queued, hidle] at hqueued
      apply hqueued
    · have hqueued := h.queued
      rw [WaitTmo.Queued, hidle] at hqueued
      apply hqueued.2
  · split at hs
    · rename_i rv hrv
      obtain rfl := Option.some.inj hs
      refine ⟨h.queued, fun _ => .inr ⟨rv, hrv⟩, fun _ => ?_⟩
      rcases h.xferResult_cases hrv with ⟨hret, rfl⟩ | ⟨hret, rfl⟩
      · left
        exact ⟨hret, hrv⟩
      · right
        refine ⟨hret, ?_⟩
        simp [hrv, EOK, EINVAL]
    · obtain ⟨wait, hwait, rfl⟩ := Option.map_eq_some_iff.mp hs
      refine ⟨(h.queued.run hwait).1, fun hne => absurd hpc hne, ?_⟩
      simp [hpc]
  · split at hs <;> obtain rfl := Option.some.inj hs <;>
      exact ⟨h.queued, fun _ => h.idle (by simp [hpc]), fun _ => h.ret (.inr (.inl hpc))⟩
  · cases hs

theorem step (h : Base s) {l : I2cLabel} (hs : s.step bus l = some s') : Base s' := by
  cases l with
  | run twsr sysTick => apply h.run hs
  | stc twsr twdr => apply h.stc (handles hs)
  | pass expired =>
      obtain ⟨wait, hwait, rfl⟩ := Option.map_eq_some_iff.mp hs
      apply h.pass hwait

/-- A negative value is returned exactly when the time of the last attempt was up. -/
theorem result_neg_iff (h : Base s) {r : Int} (hr : s.result = some r) :
  r < 0 ↔ s.wait.pc = .returned (-EINVAL)
  := by
  rw [result] at hr
  split at hr
  · rename_i hpc
    obtain rfl := Option.some.inj hr
    rcases h.ret (.inr (.inr hpc)) with ⟨hret, hwait⟩ | ⟨hret, hwait⟩
    · simp [hret, hwait, EAGAIN, EOK]
    · have hnot : ¬ (if s.ret = -EOK then (s.msgs.length : Int) else s.ret) < 0 := by
        split <;> omega
      exact iff_of_false hnot hwait
  · cases hr

end Base

/-! ### Sound transfers -/

/-- The last attempt was given up, and no other one has begun; at the start there is none. -/
def Abandoned (s : I2cSystem) : Prop :=
  match s.pc with
  | .loop | .busy | .setup => True
  | .wait => s.wait.pc = .returned (-EINVAL)
  | .ended => s.ret = -EAGAIN
  | .returned => False

instance (s : I2cSystem) : Decidable s.Abandoned := by
  unfold Abandoned
  split <;> infer_instance

/-- No interrupt of the transfer reports a fault; no start condition comes once it is settled
how an attempt ends, and no end of a message when the attempt was given up; and the time of an
attempt is up only when the bus is not busy and the messages are as the caller gave them. -/
def Sound (msgs : List I2cMsg) (s : I2cSystem) : I2cLabel → Prop
  | .run _ _ => True
  | .stc twsr _ =>
      s.attached →
        ¬ (TwStatus.ofTwsr twsr).Faulty ∧
        ((TwStatus.ofTwsr twsr).Starts → s.pc = .wait → ¬ s.wait.Settled) ∧
        (s.EndsMsg (.ofTwsr twsr) → ¬ s.Abandoned)
  | .pass expired =>
      expired → s.twIfBusy = false ∧ s.msgs.map I2cMsg.unsent = msgs.map I2cMsg.unsent

instance (msgs : List I2cMsg) : ∀ (s : I2cSystem) l, Decidable (s.Sound msgs l)
  | _, .run _ _ => inferInstanceAs (Decidable True)
  | _, .stc _ _ => inferInstanceAs (Decidable (_ → _))
  | _, .pass _ => inferInstanceAs (Decidable (_ → _))

/-- What a transfer of the messages `msgs` promises: an error for a fault; their number when
there was none and the transfer has completed; an idle bus behind every attempt; and the same
messages for every attempt. -/
structure Safe (bus : I2cBus) (msgs : List I2cMsg) (s : I2cSystem) : Prop where
  error : ∀ r, s.result = some r → s.fault → r < 0
  count : ∀ r, s.result = some r → s.fault = false → s.wait.pc ≠ .returned (-EINVAL) →
    r = msgs.length
  idle : ∀ l s', s.step bus l = some s' → s.pc = .wait → s'.pc = .ended →
    s'.twIfBusy = false
  again : ∀ l s', s.step bus l = some s' → s.pc = .setup → s'.pc = .wait →
    s'.msgs.map I2cMsg.unsent = msgs.map I2cMsg.unsent

/-- What holds in every run of sound steps. -/
structure Inv (msgs : List I2cMsg) (s : I2cSystem) : Prop where
  base : Base s
  length : s.msgs.length = msgs.length
  fault : s.fault = false
  attached : s.pc = .wait → s.attached
  zero : s.pc = .loop ∨ s.pc = .ended ∨ s.pc = .returned → 0 ≤ s.ret → s.ret = -EOK
  settled : s.pc = .wait → s.wait.Settled →
    s.twIfBusy = false ∧ (s.wait.pc ≠ .returned (-EINVAL) → s.twMmError = 0)
  same : s.Abandoned → s.msgs.map I2cMsg.unsent = msgs.map I2cMsg.unsent

namespace Inv

variable {s s' : I2cSystem} {bus : I2cBus} {msgs : List I2cMsg}

theorem init {m : Bool} (hqp : s.wait.qp.Holds m []) (msgs : List I2cMsg) (ref : ℕ) :
  Inv msgs (s.i2cBusXfer msgs ref)
  := by
  refine ⟨Base.init hqp msgs ref, rfl, rfl, nofun, fun _ _ => rfl,
    nofun, fun _ => rfl⟩

/-- An interrupt that reports no fault. -/
theorem stc (h : Inv msgs s) {twsr twdr : UInt8} (hsound : s.Sound msgs (.stc twsr twdr))
    (hs : s.Handles (.ofTwsr twsr) s') :
  Inv msgs s'
  := by
  have hwpc : s'.wait.pc = s.wait.pc := by
    rcases hs.wait with hw | ⟨hw, -⟩ <;> rw [hw]
    rfl
  have habandoned : s'.Abandoned ↔ s.Abandoned := by
    rw [Abandoned, Abandoned, hs.pc, hs.ret, hwpc]
  constructor
  case base => apply h.base.stc hs
  case length => rw [hs.length, h.length]
  case fault =>
    rw [hs.fault, h.fault]
    rintro ⟨hfaulty, hattached⟩
    apply (hsound hattached).1 hfaulty
  case attached =>
    rw [hs.pc, hs.attached]
    apply h.attached
  case zero =>
    rw [hs.pc, hs.ret]
    apply h.zero
  case settled =>
    rw [hs.pc, hwpc]
    intro hpc hsettled
    obtain ⟨hfaulty, hstarts, -⟩ := hsound (h.attached hpc)
    rcases hs.wait with hw | ⟨-, hbusy, herror⟩
    · -- the bus stays idle, since it is settled how the attempt ends
      rw [hw] at hsettled
      obtain ⟨hbusy, herror⟩ := h.settled hpc hsettled
      constructor
      · rcases hs.busy (fun hst => hstarts hst hpc hsettled) with hb | hb
        · rw [hb, hbusy]
        · apply hb
      · intro hne
        rcases hs.error hfaulty with he | he
        · rw [he, herror hne]
        · apply he
    · exact ⟨hbusy, fun _ => herror hfaulty⟩
  case same =>
    rw [habandoned]
    intro hab
    rw [hs.unsent, h.same hab]
    rintro ⟨hattached, hfaulty | hends⟩
    · apply (hsound hattached).1 hfaulty
    · apply (hsound hattached).2.2 hends hab

/-- A pass of the scheduler that takes the thread off the queue. -/
theorem pass (h : Inv msgs s) {expired : Bool} (hsound : s.Sound msgs (.pass expired))
    {wait : WaitTmo} (hw : s.wait.pass expired = some wait) :
  Inv msgs { s with wait }
  := by
  have hpc := h.base.pc_of_pass hw
  obtain ⟨-, hret⟩ := h.base.queued.pass hw
  constructor
  case base => apply h.base.pass hw
  case length => apply h.length
  case fault => apply h.fault
  case attached => apply h.attached
  case zero => apply h.zero
  case settled =>
    intro _ _
    cases expired with
    | true =>
        refine ⟨(hsound rfl).1, ?_⟩
        intro hne
        exact absurd hret hne
    | false =>
        obtain ⟨hbusy, herror⟩ := h.settled hpc hret.2
        refine ⟨hbusy, fun _ => herror ?_⟩
        obtain ⟨hschedule, -⟩ := WaitTmo.pc_of_pass hw
        simp [hschedule]
  case same =>
    intro hab
    simp only [Abandoned, hpc] at hab
    cases expired with
    | true => apply (hsound rfl).2
    | false =>
        have hok := hret.1.symm.trans hab
        simp [EOK, EINVAL] at hok

/-- A step of the thread. -/
theorem run (h : Inv msgs s) {twsr : UInt8} {sysTick : ℕ}
    (hs : s.run bus twsr sysTick = some s') :
  Inv msgs s'
  := by
  have hbase := h.base.run hs
  rw [I2cSystem.run] at hs
  split at hs <;> rename_i hpc
  · obtain rfl := Option.some.inj hs
    have hsame := h.same (by simp [Abandoned, hpc])
    refine ⟨hbase, h.length, h.fault, ?_, fun _ => h.zero (.inl hpc), ?_, fun _ => hsame⟩ <;>
      dsimp only <;> split <;> intro hwait <;> cases hwait
  · obtain rfl := Option.some.inj hs
    have hsame := h.same (by simp [Abandoned, hpc])
    refine ⟨hbase, h.length, h.fault, ?_, ?_, ?_, fun _ => hsame⟩
    · dsimp only
      split <;> intro hwait <;> cases hwait
    · dsimp only
      split <;> simp
    · dsimp only
      split <;> intro hwait <;> cases hwait
  · obtain rfl := Option.some.inj hs
    have hsame := h.same (by simp [Abandoned, hpc])
    exact ⟨hbase, h.length, h.fault, fun _ => rfl, by simp [setup],
      fun _ hsettled => hsettled.elim, fun _ => hsame⟩
  · split at hs
    · rename_i rv hrv
      obtain rfl := Option.some.inj hs
      refine ⟨hbase, h.length, h.fault, (by rintro ⟨⟩), ?_, (by rintro ⟨⟩), ?_⟩
      · intro _ hret
        rcases h.base.xferResult_cases hrv with ⟨hneg, -⟩ | ⟨-, rfl⟩
        · dsimp only at hret
          rw [hneg] at hret
          exact absurd hret (by decide)
        · have herror := (h.settled hpc (by simp [WaitTmo.Settled, hrv])).2
            (by simp [hrv, EOK, EINVAL])
          simp [xferResult, herror, EOK]
      · intro hab
        rcases h.base.xferResult_cases hrv with ⟨-, rfl⟩ | ⟨hpos, -⟩
        · apply h.same
          simp only [Abandoned, hpc, hrv]
        · have hneg : s.xferResult rv = -EAGAIN := hab
          rw [hneg] at hpos
          exact absurd hpos (by decide)
    · rename_i hrv
      obtain ⟨wait, hwait, rfl⟩ := Option.map_eq_some_iff.mp hs
      obtain ⟨-, hsettled, hok⟩ := h.base.queued.run hwait
      refine ⟨hbase, h.length, h.fault, h.attached, h.zero, ?_, ?_⟩
      · intro _ hset
        obtain ⟨hbusy, herror⟩ := h.settled hpc (hsettled hset)
        exact ⟨hbusy, fun _ => herror (hrv _)⟩
      · intro hab
        simp only [Abandoned, hpc] at hab
        have hno := hok _ hab
        simp [EOK, EINVAL] at hno
  · split at hs <;> rename_i hret <;> obtain rfl := Option.some.inj hs
    · exact ⟨hbase, h.length, h.fault, (by rintro ⟨⟩),
        fun _ => h.zero (.inr (.inl hpc)), (by rintro ⟨⟩), fun hab => hab.elim⟩
    · rw [not_or, not_not] at hret
      have hsame := h.same (by simpa [Abandoned, hpc] using hret.1)
      exact ⟨hbase, h.length, h.fault, (by rintro ⟨⟩),
        fun _ => h.zero (.inr (.inl hpc)), (by rintro ⟨⟩), fun _ => hsame⟩
  · cases hs

theorem step (h : Inv msgs s) {l : I2cLabel} (hsound : s.Sound msgs l)
    (hs : s.step bus l = some s') :
  Inv msgs s'
  := by
  cases l with
  | run twsr sysTick => apply h.run hs
  | stc twsr twdr => apply h.stc hsound (handles hs)
  | pass expired =>
      obtain ⟨wait, hwait, rfl⟩ := Option.map_eq_some_iff.mp hs
      apply h.pass hsound hwait

/-- An attempt ends in a step of a thread that has returned from its wait. -/
theorem idle (h : Inv msgs s) {l : I2cLabel} (hs : s.step bus l = some s')
    (hpc : s.pc = .wait) (hended : s'.pc = .ended) :
  s'.twIfBusy = false
  := by
  cases l with
  | run twsr sysTick =>
      simp only [I2cSystem.step, I2cSystem.run, hpc] at hs
      split at hs
      · rename_i rv hrv
        obtain rfl := Option.some.inj hs
        apply (h.settled hpc (by simp [WaitTmo.Settled, hrv])).1
      · obtain ⟨wait, -, rfl⟩ := Option.map_eq_some_iff.mp hs
        cases hended
  | stc twsr twdr =>
      rw [(handles hs).pc, hpc] at hended
      cases hended
  | pass expired =>
      obtain ⟨wait, -, rfl⟩ := Option.map_eq_some_iff.mp hs
      exact absurd (hpc.symm.trans hended) (by simp)

/-- An attempt begins in the critical section, which does not touch the messages. -/
theorem again (h : Inv msgs s) {l : I2cLabel} (hs : s.step bus l = some s')
    (hpc : s.pc = .setup) (hwait : s'.pc = .wait) :
  s'.msgs.map I2cMsg.unsent = msgs.map I2cMsg.unsent
  := by
  have hsame := h.same (by simp [Abandoned, hpc])
  cases l with
  | run twsr sysTick =>
      simp only [I2cSystem.step, I2cSystem.run, hpc] at hs
      obtain rfl := Option.some.inj hs
      apply hsame
  | stc twsr twdr =>
      rw [(handles hs).pc, hpc] at hwait
      cases hwait
  | pass expired =>
      obtain ⟨wait, hw, rfl⟩ := Option.map_eq_some_iff.mp hs
      apply hsame

theorem safe (h : Inv msgs s) : Safe bus msgs s := by
  constructor
  case error =>
    intro r _ hfault
    rw [h.fault] at hfault
    cases hfault
  case count =>
    intro r hr _ htime
    rw [result] at hr
    split at hr
    · rename_i hpc
      obtain rfl := Option.some.inj hr
      rcases h.base.ret (.inr (.inr hpc)) with ⟨-, hwait⟩ | ⟨hret, -⟩
      · exact absurd hwait htime
      · rw [if_pos (h.zero (.inr (.inr hpc)) hret), h.length]
    · cases hr
  case idle =>
    intro l s' hs hpc hended
    apply h.idle hs hpc hended
  case again =>
    intro l s' hs hpc hwait
    apply h.again hs hpc hwait

end Inv

/-- In every state reached by sound steps a transfer keeps its promises; and in every run at
all the value that it returns is negative exactly when the time of its last attempt was up. -/
theorem safe_of_sound {s : I2cSystem} {m : Bool} (hqp : s.wait.qp.Holds m []) (bus : I2cBus)
    (msgs : List I2cMsg) (ref : ℕ) :
  (∀ t, Run.Guarded (step bus) (Sound msgs) (s.i2cBusXfer msgs ref) t → Safe bus msgs t) ∧
    ∀ t, Run.Reachable (step bus) (s.i2cBusXfer msgs ref) t → ∀ r, t.result = some r →
      (r < 0 ↔ t.wait.pc = .returned (-EINVAL))
  := by
  constructor
  · intro t hrun
    apply Inv.safe
    apply hrun.invariant (Inv msgs) (Inv.init hqp msgs ref)
    intro u l v hu hsound hv
    apply hu.step hsound hv
  · intro t hrun r hr
    have ht : Base t := by
      apply hrun.invariant Base (Base.init hqp msgs ref)
      intro u l v hu _ hv
      apply hu.step hv
    apply ht.result_neg_iff hr

/-- The driver behind `atmega_i2c_init`. -/
def booted : I2cSystem where
  mem := fun _ => 0
  msgs := []
  attached := false
  earlier := []
  twMmError := 0
  twIfBusy := false
  msgIndex := 0
  msgNum := 0
  twcr := TWGO
  twdr := 0
  wait := { qp := .threadQueueInit, pc := .eventWait }
  pc := .returned
  ret := 0
  retries := 0
  ref := 0
  fault := false

/-- A message that writes one byte. -/
def oneWrite : I2cMsg where
  destAddr := 0xA0
  buff := 0
  len := 1
  idx := 0
  rd := false

/-- Steps of the thread. -/
def runs (n : ℕ) : List I2cLabel :=
  List.replicate n (.run TW_NO_INFO 0)

/-- A transfer of `oneWrite` that completes. -/
def completes : List I2cLabel :=
  runs 6 ++ [.stc 0x08 0, .stc 0x18 0, .stc 0x28 0, .pass false] ++ runs 2

/-- The theorem applied to a transfer that completes. -/
theorem safe_of_sound_completes :
  ∃ t, Run.exec (step ⟨500, 3⟩) (booted.i2cBusXfer [oneWrite] 0) completes = some t ∧
    t.result = some 1 ∧ Safe ⟨500, 3⟩ [oneWrite] t
  := by
  obtain ⟨t, ht, hresult⟩ := Run.exists_of_any (step ⟨500, 3⟩)
    (booted.i2cBusXfer [oneWrite] 0) completes (fun t => t.result = some 1) (by decide)
  have hqp : booted.wait.qp.Holds true [] := ThreadQueue.holds_threadQueueInit
  use t, ht, of_decide_eq_true hresult
  apply (safe_of_sound hqp ⟨500, 3⟩ [oneWrite] 0).1
  apply Run.guarded_of_exec completes ht
  decide

/-- A transfer whose slave address is not acknowledged. -/
def unacknowledged : List I2cLabel :=
  runs 6 ++ [.stc 0x08 0, .stc 0x20 0, .pass false] ++ runs 2

/-- A transfer whose time is up behind the start condition. -/
def givenUp : List I2cLabel :=
  runs 6 ++ [.stc 0x08 0, .pass true] ++ runs 1

/-- A transfer that is complete before `event_wait` discards its notification, and that is
tried again. -/
def tooEarly : List I2cLabel :=
  runs 3 ++ [.stc 0x08 0, .stc 0x18 0, .stc 0x28 0] ++ runs 3 ++ [.pass true] ++ runs 5

/-- A transfer without an acknowledgement returns 252; one that is given up can leave the bus
busy; and one that is tried again can send an empty message. -/
theorem not_safe :
  (∃ t, Run.exec (step ⟨500, 3⟩) (booted.i2cBusXfer [oneWrite] 0) unacknowledged = some t ∧
      t.fault = true ∧ t.result = some 252) ∧
    (∃ t, Run.exec (step ⟨500, 3⟩) (booted.i2cBusXfer [oneWrite] 0) givenUp = some t ∧
      t.pc = .ended ∧ t.twIfBusy = true) ∧
    ∃ t, Run.exec (step ⟨500, 3⟩) (booted.i2cBusXfer [oneWrite] 0) tooEarly = some t ∧
      t.pc = .wait ∧ t.retries = 1 ∧ t.msgs.map I2cMsg.len = [0]
  := by
  refine ⟨?_, ?_, ?_⟩
  · obtain ⟨t, ht, htest⟩ := Run.exists_of_any (step ⟨500, 3⟩)
      (booted.i2cBusXfer [oneWrite] 0) unacknowledged
      (fun t => t.fault = true ∧ t.result = some 252) (by decide)
    use t, ht
    apply of_decide_eq_true htest
  · obtain ⟨t, ht, htest⟩ := Run.exists_of_any (step ⟨500, 3⟩)
      (booted.i2cBusXfer [oneWrite] 0) givenUp
      (fun t => t.pc = .ended ∧ t.twIfBusy = true) (by decide)
    use t, ht
    apply of_decide_eq_true htest
  · obtain ⟨t, ht, htest⟩ := Run.exists_of_any (step ⟨500, 3⟩)
      (booted.i2cBusXfer [oneWrite] 0) tooEarly
      (fun t => t.pc = .wait ∧ t.retries = 1 ∧ t.msgs.map I2cMsg.len = [0]) (by decide)
    use t, ht
    apply of_decide_eq_true htest

end I2cSystem

end Etaos.Drivers
