import Etaos.Sched.WaitTmo

/-!
# The SPI bus of the ATmega

A transfer of `atmega-bus.c`.  The thread writes the first byte to `SPDR` and waits on
`master_xfer_mutex`; each interrupt stores the byte that was received and writes the next
one, and the last interrupt notifies the thread.  An interrupt comes at any time after the
byte it completes was written.
-/

namespace Etaos.Drivers

/-- A message, with the addresses of its buffers; without a receive buffer the bytes
received are dropped. -/
structure SpiMsg where
  rx : Option ℕ
  tx : ℕ
  len : ℕ

namespace SpiMsg

/-- The receive buffer is the transmission buffer, or has no byte in common with it. -/
def Buffers (msg : SpiMsg) : Prop :=
  ∀ rx ∈ msg.rx, rx = msg.tx ∨ rx + msg.len ≤ msg.tx ∨ msg.tx + msg.len ≤ rx

instance (msg : SpiMsg) : Decidable msg.Buffers :=
  inferInstanceAs (Decidable (∀ _ ∈ msg.rx, _))

/-- The length as an `int`, which has 16 bits as well. -/
def intLen (msg : SpiMsg) : Int :=
  (msg.len : Int).bmod (2 ^ 16)

/-- The bytes of the transmission buffer. -/
def bytes (msg : SpiMsg) (mem : ℕ → UInt8) : List UInt8 :=
  (List.range msg.len).map fun k => mem (msg.tx + k)

end SpiMsg

/-- The driver with the thread that transfers a message. -/
structure SpiSystem where
  mem : ℕ → UInt8
  masterRxBuff : Option ℕ
  masterTxBuff : ℕ
  masterIndex : ℕ
  masterLength : ℕ
  /-- The bit `SPIE` of `SPCR`. -/
  spie : Bool
  /-- The bytes that were written to `SPDR`. -/
  sent : List UInt8
  /-- The bytes that were read from `SPDR`, one for every exchange. -/
  received : List UInt8
  /-- The thread on `master_xfer_mutex`. -/
  wait : WaitTmo
  /-- The value that `atmega_spi_xfer` returned. -/
  result : Option Int

/-- The steps of a transfer. -/
inductive SpiLabel where
  /-- The thread runs. -/
  | run
  /-- The interrupt of an exchange that received the byte `spdr`. -/
  | stc (spdr : UInt8)
  /-- A pass of the scheduler; `expired` is whether the time of the thread is up. -/
  | pass (expired : Bool)
  deriving DecidableEq

namespace SpiSystem

/-- The function `atmega_spi_xfer` up to its call of `mutex_wait_tmo`. -/
def atmegaSpiXfer (mem : ℕ → UInt8) (qp : ThreadQueue Unit) (msg : SpiMsg) : SpiSystem where
  mem := mem
  masterRxBuff := msg.rx
  masterTxBuff := msg.tx
  masterIndex := 1
  masterLength := msg.len
  spie := true
  sent := [mem msg.tx]
  received := []
  wait := { qp, pc := .eventWait }
  result := none

/-- The end of `atmega_spi_xfer`, where `mutex_wait_tmo` has returned `rv`. -/
def endXfer (s : SpiSystem) (msg : SpiMsg) (rv : Int) : SpiSystem :=
  if rv ≠ 0 then
    { s with result := some (-EAGAIN) }
  else
    { s with spie := false, result := some msg.intLen }

/-- The read of the byte `spdr` from `SPDR`, and its store into the receive buffer. -/
def readSpdr (s : SpiSystem) (spdr : UInt8) : SpiSystem :=
  { s with
    received := s.received ++ [spdr]
    mem :=
      match s.masterRxBuff with
      | none => s.mem
      | some rx => Function.update s.mem (rx + (s.masterIndex - 1)) spdr }

/-- The function `atmega_spi_stc_irq`, where `SPDR` holds `spdr`. -/
def atmegaSpiStcIrq (s : SpiSystem) (spdr : UInt8) : SpiSystem :=
  let s := s.readSpdr spdr
  if s.masterIndex < s.masterLength then
    { s with
      sent := s.sent ++ [s.mem (s.masterTxBuff + s.masterIndex)]
      masterIndex := s.masterIndex + 1 }
  else
    { s with wait := s.wait.mutexUnlockIrq }

/-- One step of a transfer. -/
def step (msg : SpiMsg) (s : SpiSystem) : SpiLabel → Option SpiSystem
  | .run =>
      match s.wait.pc with
      | .returned rv => if s.result = none then some (s.endXfer msg rv) else none
      | _ => s.wait.run.map fun wait => { s with wait }
  | .stc spdr =>
      if s.spie ∧ s.received.length < s.sent.length then
        some (s.atmegaSpiStcIrq spdr)
      else
        none
  | .pass expired => (s.wait.pass expired).map fun wait => { s with wait }

/-- The last interrupt does not come before `event_wait` has discarded an earlier event, and
the time of the thread is not up. -/
def Timely (s : SpiSystem) : SpiLabel → Prop
  | .run => True
  | .stc _ => s.masterIndex < s.masterLength ∨ s.wait.pc ≠ .eventWait
  | .pass expired => expired = false

instance : ∀ (s : SpiSystem) l, Decidable (s.Timely l)
  | _, .run => inferInstanceAs (Decidable True)
  | _, .stc _ => inferInstanceAs (Decidable (_ ∨ _))
  | _, .pass _ => inferInstanceAs (Decidable (_ = _))

/-- What was exchanged so far: the bytes of the transmission buffer as it was, in order, and
the bytes received are in the receive buffer; no other byte has changed. -/
structure Exact (msg : SpiMsg) (mem : ℕ → UInt8) (s : SpiSystem) : Prop where
  sent : s.sent <+: msg.bytes mem
  stored : ∀ rx ∈ msg.rx, ∀ k (hk : k < s.received.length), s.mem (rx + k) = s.received[k]
  frame : ∀ a, (∀ rx ∈ msg.rx, a < rx ∨ rx + s.received.length ≤ a) → s.mem a = mem a
  count : s.received.length ≤ msg.len

/-- The whole message was exchanged, and its length is returned. -/
structure Complete (msg : SpiMsg) (mem : ℕ → UInt8) (s : SpiSystem) : Prop where
  exact : Exact msg mem s
  sent : s.sent = msg.bytes mem
  received : s.received.length = msg.len
  result : s.result = some (msg.len : Int)

/-! ### The exchanges -/

/-- The variables of the driver, at any time of a transfer. -/
structure Inv (msg : SpiMsg) (mem : ℕ → UInt8) (s : SpiSystem) : Prop where
  rx : s.masterRxBuff = msg.rx
  tx : s.masterTxBuff = msg.tx
  length : s.masterLength = msg.len
  index : s.masterIndex = s.sent.length
  pending : s.sent.length = min (s.received.length + 1) msg.len
  exact : Exact msg mem s
  spie : s.result = none → s.spie = true

section

variable {msg : SpiMsg} {mem : ℕ → UInt8} {s s' : SpiSystem}

/-- The length is a positive `int` when it is in the lower half of the range. -/
theorem intLen_eq_iff : msg.intLen = msg.len ↔ msg.len < 2 ^ 15 := by
  unfold SpiMsg.intLen
  constructor
  · intro heq
    have hlt := Int.bmod_lt (x := msg.len) (m := 2 ^ 16) (by decide)
    omega
  · intro hlt
    apply Int.bmod_eq_of_le <;> omega

@[simp] theorem length_bytes : (msg.bytes mem).length = msg.len := by
  simp [SpiMsg.bytes]

/-- A prefix goes on with the next element. -/
theorem prefix_concat {α : Type} {l l' : List α} (h : l <+: l') (hlt : l.length < l'.length) :
  l ++ [l'[l.length]] <+: l'
  := by
  obtain ⟨t, rfl⟩ := h
  cases t with
  | nil => simp at hlt
  | cons a t => simp

theorem getElem_bytes {k : ℕ} (hk : k < (msg.bytes mem).length) :
  (msg.bytes mem)[k] = mem (msg.tx + k)
  := by
  simp [SpiMsg.bytes]

namespace Inv

theorem init (hlen : 0 < msg.len) (qp : ThreadQueue Unit) :
  Inv msg mem (atmegaSpiXfer mem qp msg)
  := by
  constructor
  case rx => rfl
  case tx => rfl
  case length => rfl
  case index => rfl
  case pending =>
    change 1 = min (0 + 1) msg.len
    omega
  case exact =>
    constructor
    case sent =>
      rw [List.prefix_iff_eq_take]
      apply List.ext_getElem
      · simp only [atmegaSpiXfer, List.length_cons, List.length_nil, List.length_take,
          length_bytes]
        omega
      · intro k hk hk'
        obtain rfl : k = 0 := by simpa [atmegaSpiXfer] using hk
        simp [atmegaSpiXfer, getElem_bytes]
    case stored =>
      intro rx _ k hk
      cases hk
    case frame =>
      intro a _
      rfl
    case count => apply Nat.zero_le
  case spie =>
    intro _
    rfl

/-- The exchange that is under way is the one after those completed. -/
theorem index_eq (h : Inv msg mem s) (hpending : s.received.length < s.sent.length) :
  s.masterIndex = s.received.length + 1 ∧ s.received.length < msg.len
  := by
  have hsent := h.pending
  have hindex := h.index
  omega

/-- The received byte is put behind the others in the receive buffer. -/
theorem mem_readSpdr (h : Inv msg mem s) (hpending : s.received.length < s.sent.length)
    (spdr : UInt8) (a : ℕ) :
  (s.readSpdr spdr).mem a =
    if msg.rx.any (fun rx => a = rx + s.received.length) then spdr else s.mem a
  := by
  have hindex : s.masterIndex - 1 = s.received.length := by
    rw [(h.index_eq hpending).1, Nat.add_sub_cancel]
  simp only [readSpdr, h.rx, hindex]
  cases msg.rx with
  | none => simp
  | some rx => simp [Function.update_apply]

/-- The bytes received are in the receive buffer, the last one too. -/
theorem stored (h : Inv msg mem s) (hpending : s.received.length < s.sent.length)
    (spdr : UInt8) {rx : ℕ} (hrx : rx ∈ msg.rx) {k : ℕ}
    (hk : k < (s.received ++ [spdr]).length) :
  (s.readSpdr spdr).mem (rx + k) = (s.received ++ [spdr])[k]
  := by
  rw [h.mem_readSpdr hpending, Option.mem_def.mp hrx]
  rw [List.length_append, List.length_singleton] at hk
  by_cases hlast : k = s.received.length
  · subst hlast
    simp
  · have hlt : k < s.received.length := by omega
    rw [List.getElem_append_left hlt, ← h.exact.stored rx hrx k hlt]
    simp [hlast]

/-- No byte changes but those of the receive buffer that are received. -/
theorem frame (h : Inv msg mem s) (hpending : s.received.length < s.sent.length)
    (spdr : UInt8) {a : ℕ}
    (ha : ∀ rx ∈ msg.rx, a < rx ∨ rx + (s.received.length + 1) ≤ a) :
  (s.readSpdr spdr).mem a = mem a
  := by
  have hold : s.mem a = mem a := by
    apply h.exact.frame
    intro rx hrx
    have := ha rx hrx
    omega
  rw [h.mem_readSpdr hpending, if_neg, hold]
  intro hany
  rw [Option.any_eq_true] at hany
  obtain ⟨rx, hrx, heq⟩ := hany
  have := ha rx hrx
  have := of_decide_eq_true heq
  omega

/-- The byte that is sent next is still the one of the transmission buffer. -/
theorem next (h : Inv msg mem s) (hbuf : msg.Buffers)
    (hpending : s.received.length < s.sent.length) (spdr : UInt8)
    (hindex : s.masterIndex < s.masterLength) :
  (s.readSpdr spdr).mem (s.masterTxBuff + s.masterIndex) = mem (msg.tx + s.masterIndex)
  := by
  rw [h.tx]
  apply h.frame hpending spdr
  intro rx hrx
  have hlength := h.length
  have hindex' := (h.index_eq hpending).1
  rcases hbuf rx hrx with heq | hlt | hlt <;> omega

/-- What an interrupt leaves, whether it is the last one or not. -/
theorem of_readSpdr (h : Inv msg mem s) (hpending : s.received.length < s.sent.length)
    (spdr : UInt8) (hmem : s'.mem = (s.readSpdr spdr).mem)
    (hreceived : s'.received = s.received ++ [spdr]) (hsent : s'.sent <+: msg.bytes mem) :
  Exact msg mem s'
  := by
  have hlen := (h.index_eq hpending).2
  constructor
  case sent => apply hsent
  case stored =>
    intro rx hrx k hk
    simp only [hmem, hreceived] at hk ⊢
    apply h.stored hpending spdr hrx hk
  case frame =>
    intro a ha
    rw [hmem]
    apply h.frame hpending
    simpa [hreceived] using ha
  case count =>
    rw [hreceived, List.length_append, List.length_singleton]
    omega

/-- An interrupt completes the exchange of the byte that was sent last. -/
theorem atmegaSpiStcIrq (h : Inv msg mem s) (hbuf : msg.Buffers)
    (hpending : s.received.length < s.sent.length) (spdr : UInt8) :
  Inv msg mem (s.atmegaSpiStcIrq spdr)
  := by
  obtain ⟨hindex, hlen⟩ := h.index_eq hpending
  have hsent := h.pending
  have hlength := h.length
  have hi := h.index
  rw [SpiSystem.atmegaSpiStcIrq]
  split
  · rename_i hlt
    have hlt' : s.masterIndex < s.masterLength := hlt
    constructor
    case rx => apply h.rx
    case tx => apply h.tx
    case length => apply h.length
    case index =>
      change s.masterIndex + 1 = (s.sent ++ [_]).length
      simp [h.index]
    case pending =>
      change (s.sent ++ [_]).length = min ((s.received ++ [spdr]).length + 1) msg.len
      simp only [List.length_append, List.length_singleton]
      omega
    case exact =>
      refine h.of_readSpdr hpending spdr rfl rfl ?_
      change s.sent ++ [(s.readSpdr spdr).mem (s.masterTxBuff + s.masterIndex)] <+: _
      rw [h.next hbuf hpending spdr hlt']
      have hbytes : s.sent.length < (msg.bytes mem).length := by
        rw [length_bytes]
        omega
      rw [h.index, ← getElem_bytes hbytes]
      apply prefix_concat h.exact.sent
    case spie => apply h.spie
  · rename_i hlt
    have hlt' : ¬ s.masterIndex < s.masterLength := hlt
    constructor
    case rx => apply h.rx
    case tx => apply h.tx
    case length => apply h.length
    case index => apply h.index
    case pending =>
      change s.sent.length = min ((s.received ++ [spdr]).length + 1) msg.len
      simp only [List.length_append, List.length_singleton]
      omega
    case exact =>
      refine h.of_readSpdr hpending spdr rfl rfl ?_
      apply h.exact.sent
    case spie => apply h.spie

/-- The variables of the driver are not those of the wait. -/
theorem of_wait (h : Inv msg mem s) (wait : WaitTmo) : Inv msg mem { s with wait } where
  rx := h.rx
  tx := h.tx
  length := h.length
  index := h.index
  pending := h.pending
  exact := ⟨h.exact.sent, h.exact.stored, h.exact.frame, h.exact.count⟩
  spie := h.spie

theorem endXfer (h : Inv msg mem s) (rv : Int) : Inv msg mem (s.endXfer msg rv) := by
  have hexact : Exact msg mem (s.endXfer msg rv) := by
    rw [SpiSystem.endXfer]
    split <;> exact ⟨h.exact.sent, h.exact.stored, h.exact.frame, h.exact.count⟩
  rw [SpiSystem.endXfer] at hexact ⊢
  split at hexact <;> rename_i hrv
  · rw [if_pos hrv]
    exact ⟨h.rx, h.tx, h.length, h.index, h.pending, hexact, fun hnone => nomatch hnone⟩
  · rw [if_neg hrv]
    exact ⟨h.rx, h.tx, h.length, h.index, h.pending, hexact, fun hnone => nomatch hnone⟩

/-- Every step of a transfer keeps its variables. -/
theorem step (h : Inv msg mem s) (hbuf : msg.Buffers) {l : SpiLabel}
    (hs : s.step msg l = some s') :
  Inv msg mem s'
  := by
  cases l with
  | run =>
      simp only [SpiSystem.step] at hs
      split at hs
      · split at hs
        · obtain rfl := Option.some.inj hs
          apply h.endXfer
        · cases hs
      · obtain ⟨wait, -, rfl⟩ := Option.map_eq_some_iff.mp hs
        apply h.of_wait
  | stc spdr =>
      simp only [SpiSystem.step] at hs
      split at hs
      · rename_i hpending
        obtain rfl := Option.some.inj hs
        apply h.atmegaSpiStcIrq hbuf hpending.2
      · cases hs
  | pass expired =>
      obtain ⟨wait, -, rfl⟩ := Option.map_eq_some_iff.mp hs
      apply h.of_wait

end Inv

/-! ### The notification -/

/-- All bytes were exchanged. -/
def Full (msg : SpiMsg) (s : SpiSystem) : Bool :=
  s.received.length = msg.len

/-- A transfer whose notification is not lost. -/
structure OnTime (msg : SpiMsg) (mem : ℕ → UInt8) (s : SpiSystem) : Prop where
  inv : Inv msg mem s
  awaits : s.wait.Awaits (s.Full msg)
  result : s.result = none ∨ s.result = some msg.intLen ∧ s.wait.pc = .returned (-EOK)

/-- A transfer that fails. -/
structure Late (msg : SpiMsg) (mem : ℕ → UInt8) (s : SpiSystem) : Prop where
  inv : Inv msg mem s
  misses : s.wait.Misses
  ended : s.Full msg ∨ ∃ rv, s.wait.pc = .returned rv
  result : s.result = none ∨ s.result = some (-EAGAIN)

section

variable {msg : SpiMsg} {mem : ℕ → UInt8} {s s' : SpiSystem}

/-- The index has come to the length when all bytes are exchanged. -/
theorem full_iff : s.Full msg = true ↔ s.received.length = msg.len := by
  rw [Full, decide_eq_true_eq]

/-- The last interrupt notifies the thread. -/
theorem wait_atmegaSpiStcIrq (s : SpiSystem) (spdr : UInt8) :
  (s.atmegaSpiStcIrq spdr).wait =
    if s.masterIndex < s.masterLength then s.wait else s.wait.mutexUnlockIrq
  := by
  by_cases h : s.masterIndex < s.masterLength <;> simp [atmegaSpiStcIrq, readSpdr, h]

@[simp] theorem pc_atmegaSpiStcIrq (s : SpiSystem) (spdr : UInt8) :
  (s.atmegaSpiStcIrq spdr).wait.pc = s.wait.pc
  := by
  rw [wait_atmegaSpiStcIrq]
  split <;> rfl

@[simp] theorem result_atmegaSpiStcIrq (s : SpiSystem) (spdr : UInt8) :
  (s.atmegaSpiStcIrq spdr).result = s.result
  := by
  by_cases h : s.masterIndex < s.masterLength <;> simp [atmegaSpiStcIrq, readSpdr, h]

@[simp] theorem received_atmegaSpiStcIrq (s : SpiSystem) (spdr : UInt8) :
  (s.atmegaSpiStcIrq spdr).received = s.received ++ [spdr]
  := by
  by_cases h : s.masterIndex < s.masterLength <;> simp [atmegaSpiStcIrq, readSpdr, h]

/-- The interrupt that notifies is the last one. -/
theorem Inv.full_atmegaSpiStcIrq (h : Inv msg mem s)
    (hpending : s.received.length < s.sent.length) (spdr : UInt8) :
  s.Full msg = false ∧
    ((s.atmegaSpiStcIrq spdr).Full msg = true ↔ ¬ s.masterIndex < s.masterLength)
  := by
  obtain ⟨hindex, hlen⟩ := h.index_eq hpending
  have hlength := h.length
  constructor
  · rw [Bool.eq_false_iff, Ne, full_iff]
    omega
  · rw [full_iff, received_atmegaSpiStcIrq, List.length_append, List.length_singleton]
    omega

namespace OnTime

theorem init (hlen : 0 < msg.len) {qp : ThreadQueue Unit} {m : Bool} (hqp : qp.Holds m []) :
  OnTime msg mem (atmegaSpiXfer mem qp msg)
  := by
  constructor
  case inv => apply Inv.init hlen
  case awaits =>
    refine ⟨?_, m, hqp⟩
    rw [Bool.eq_false_iff, Ne, full_iff]
    apply hlen.ne
  case result =>
    left
    rfl

/-- The call has not returned while the thread waits. -/
theorem result_eq_none (h : OnTime msg mem s) (hpc : ∀ rv, s.wait.pc ≠ .returned rv) :
  s.result = none
  := by
  apply h.result.resolve_right
  rintro ⟨-, hreturned⟩
  apply hpc _ hreturned

/-- A step of the thread. -/
theorem run (h : OnTime msg mem s) (hbuf : msg.Buffers) (hs : s.step msg .run = some s') :
  OnTime msg mem s'
  := by
  have hinv := h.inv.step hbuf hs
  simp only [SpiSystem.step] at hs
  split at hs
  · rename_i rv hpc
    split at hs
    · obtain rfl := Option.some.inj hs
      have hawaits := h.awaits
      rw [WaitTmo.Awaits, hpc] at hawaits
      obtain ⟨rfl, -⟩ := hawaits
      rw [endXfer, if_neg (by decide)] at hinv ⊢
      exact ⟨hinv, h.awaits, .inr ⟨rfl, hpc⟩⟩
    · cases hs
  · rename_i hpc
    obtain ⟨wait, hwait, rfl⟩ := Option.map_eq_some_iff.mp hs
    exact ⟨hinv, h.awaits.run hwait, .inl (h.result_eq_none hpc)⟩

/-- An interrupt loses the notification when it is the last one and too early. -/
theorem stc (h : OnTime msg mem s) (hbuf : msg.Buffers) {spdr : UInt8}
    (hs : s.step msg (.stc spdr) = some s') :
  (s.Timely (.stc spdr) ∧ OnTime msg mem s') ∨ (¬ s.Timely (.stc spdr) ∧ Late msg mem s')
  := by
  have hinv := h.inv.step hbuf hs
  simp only [SpiSystem.step] at hs
  split at hs
  · rename_i hpending
    obtain rfl := Option.some.inj hs
    obtain ⟨hfull, hfull'⟩ := h.inv.full_atmegaSpiStcIrq hpending.2 spdr
    have hawaits := h.awaits
    rw [hfull] at hawaits
    have hwait := s.wait_atmegaSpiStcIrq spdr
    have hresult := h.result
    by_cases hlast : s.masterIndex < s.masterLength
    · left
      rw [if_pos hlast] at hwait
      rw [iff_false_right (not_not.mpr hlast), Bool.not_eq_true] at hfull'
      refine ⟨.inl hlast, hinv, ?_, ?_⟩
      · rw [hwait, hfull']
        apply hawaits
      · simpa using hresult
    · rw [if_neg hlast] at hwait
      by_cases hpc : s.wait.pc = .eventWait
      · right
        constructor
        · simp [Timely, hlast, hpc]
        · refine ⟨hinv, ?_, .inl (hfull'.mpr hlast), .inl ?_⟩
          · rw [hwait]
            apply hawaits.misses hpc
          · rw [result_atmegaSpiStcIrq]
            apply h.result_eq_none
            simp [hpc]
      · left
        refine ⟨.inr hpc, hinv, ?_, ?_⟩
        · rw [hwait, hfull'.mpr hlast]
          apply hawaits.mutexUnlockIrq hpc
        · simpa using hresult
  · cases hs

/-- A pass of the scheduler loses the notification when the time is up. -/
theorem pass (h : OnTime msg mem s) (hbuf : msg.Buffers) {expired : Bool}
    (hs : s.step msg (.pass expired) = some s') :
  (s.Timely (.pass expired) ∧ OnTime msg mem s') ∨
    (¬ s.Timely (.pass expired) ∧ Late msg mem s')
  := by
  have hinv := h.inv.step hbuf hs
  obtain ⟨wait, hwait, rfl⟩ := Option.map_eq_some_iff.mp hs
  obtain ⟨hpc, rv, hpc'⟩ := WaitTmo.pc_of_pass hwait
  have hresult : s.result = none := by
    apply h.result_eq_none
    simp [hpc]
  cases expired with
  | false =>
      left
      exact ⟨rfl, hinv, h.awaits.pass hwait, .inl hresult⟩
  | true =>
      right
      refine ⟨?_, hinv, WaitTmo.misses_of_expired hwait, .inr ⟨rv, hpc'⟩, .inl hresult⟩
      simp [Timely]

/-- A step loses the notification exactly when it is not timely. -/
theorem step (h : OnTime msg mem s) (hbuf : msg.Buffers) {l : SpiLabel}
    (hs : s.step msg l = some s') :
  (s.Timely l ∧ OnTime msg mem s') ∨ (¬ s.Timely l ∧ Late msg mem s')
  := by
  cases l with
  | run =>
      left
      exact ⟨trivial, h.run hbuf hs⟩
  | stc spdr => apply h.stc hbuf hs
  | pass expired => apply h.pass hbuf hs

/-- A timely step is enabled until the call returns. -/
theorem exists_step (h : OnTime msg mem s) (hresult : s.result = none) :
  ∃ l s', s.Timely l ∧ s.step msg l = some s'
  := by
  cases hpc : s.wait.pc with
  | eventWait =>
      obtain ⟨wait, hwait⟩ := h.awaits.exists_run (by simp [WaitTmo.stepsLeft, hpc])
      refine ⟨.run, { s with wait }, trivial, ?_⟩
      simp [SpiSystem.step, hpc, hwait]
  | rawEventWait =>
      obtain ⟨wait, hwait⟩ := h.awaits.exists_run (by simp [WaitTmo.stepsLeft, hpc])
      refine ⟨.run, { s with wait }, trivial, ?_⟩
      simp [SpiSystem.step, hpc, hwait]
  | queueAdd =>
      obtain ⟨wait, hwait⟩ := h.awaits.exists_run (by simp [WaitTmo.stepsLeft, hpc])
      refine ⟨.run, { s with wait }, trivial, ?_⟩
      simp [SpiSystem.step, hpc, hwait]
  | schedule =>
      cases hfull : s.Full msg with
      | true =>
          have hawaits := h.awaits
          rw [hfull] at hawaits
          obtain ⟨wait, hwait⟩ := hawaits.exists_pass hpc
          refine ⟨.pass false, { s with wait }, rfl, ?_⟩
          simp [SpiSystem.step, hwait]
      | false =>
          -- the exchange that is under way ends
          have hcount := h.inv.exact.count
          have hpending := h.inv.pending
          rw [Bool.eq_false_iff, Ne, full_iff] at hfull
          refine ⟨.stc 0, s.atmegaSpiStcIrq 0, .inr (by simp [hpc]), ?_⟩
          rw [SpiSystem.step, if_pos]
          exact ⟨h.inv.spie hresult, by omega⟩
  | returned rv =>
      refine ⟨.run, s.endXfer msg rv, trivial, ?_⟩
      simp [SpiSystem.step, hpc, hresult]

/-- A call that has returned has exchanged the whole message, and its result is the length when
that is an `int`. -/
theorem complete_iff (h : OnTime msg mem s) (hresult : s.result ≠ none) :
  Complete msg mem s ↔ msg.len < 2 ^ 15
  := by
  obtain ⟨hvalue, hpc⟩ := h.result.resolve_left hresult
  constructor
  · intro hcomplete
    rw [hcomplete.result] at hvalue
    exact intLen_eq_iff.mp (Option.some.inj hvalue).symm
  · intro hlen
    have hawaits := h.awaits
    rw [WaitTmo.Awaits, hpc] at hawaits
    have hreceived := full_iff.mp hawaits.2
    rw [intLen_eq_iff.mpr hlen] at hvalue
    refine ⟨h.inv.exact, ?_, hreceived, hvalue⟩
    apply h.inv.exact.sent.eq_of_length
    rw [length_bytes, h.inv.pending, hreceived]
    omega

end OnTime

namespace Late

/-- A notification that is lost stays lost. -/
theorem step (h : Late msg mem s) (hbuf : msg.Buffers) {l : SpiLabel}
    (hs : s.step msg l = some s') :
  Late msg mem s'
  := by
  have hinv := h.inv.step hbuf hs
  cases l with
  | run =>
      simp only [SpiSystem.step] at hs
      split at hs
      · rename_i rv hpc
        split at hs
        · obtain rfl := Option.some.inj hs
          rw [endXfer, h.misses.eq_of_returned hpc, if_pos (by decide)] at hinv ⊢
          exact ⟨hinv, h.misses, h.ended, .inr rfl⟩
        · cases hs
      · rename_i hpc
        obtain ⟨wait, hwait, rfl⟩ := Option.map_eq_some_iff.mp hs
        refine ⟨hinv, h.misses.run hwait, .inl ?_, h.result⟩
        apply h.ended.resolve_right
        rintro ⟨rv, hreturned⟩
        apply hpc rv hreturned
  | stc spdr =>
      simp only [SpiSystem.step] at hs
      split at hs
      · rename_i hpending
        obtain rfl := Option.some.inj hs
        obtain ⟨hfull, -⟩ := h.inv.full_atmegaSpiStcIrq hpending.2 spdr
        -- only a call whose time was up is still exchanging bytes
        obtain ⟨rv, hpc⟩ := h.ended.resolve_left (by simp [hfull])
        have hmisses := h.misses
        refine ⟨hinv, ?_, .inr ⟨rv, by simpa using hpc⟩, by simpa using h.result⟩
        simp only [WaitTmo.Misses, pc_atmegaSpiStcIrq, hpc] at hmisses ⊢
        apply hmisses
      · cases hs
  | pass expired =>
      obtain ⟨wait, hwait, rfl⟩ := Option.map_eq_some_iff.mp hs
      obtain ⟨-, rv, hpc⟩ := WaitTmo.pc_of_pass hwait
      exact ⟨hinv, h.misses.pass hwait, .inr ⟨rv, hpc⟩, h.result⟩

/-- A transfer that is late does not end as it should. -/
theorem not_complete (h : Late msg mem s) : ¬ Complete msg mem s := by
  intro hcomplete
  rcases h.result with hresult | hresult
  · rw [hcomplete.result] at hresult
    cases hresult
  · rw [hcomplete.result] at hresult
    have := Option.some.inj hresult
    rw [EAGAIN] at this
    omega

end Late

/-! ### Runs -/

/-- A run loses the notification exactly when one of its steps is not timely. -/
theorem OnTime.exec (hbuf : msg.Buffers) :
    ∀ {s t : SpiSystem} (ls : List SpiLabel), OnTime msg mem s →
      Run.exec (SpiSystem.step msg) s ls = some t →
      (Run.Meets (SpiSystem.step msg) Timely s ls ∧ OnTime msg mem t) ∨
        (¬ Run.Meets (SpiSystem.step msg) Timely s ls ∧ Late msg mem t)
  | s, t, [], h, ht => by
      obtain rfl := Option.some.inj ht
      left
      exact ⟨trivial, h⟩
  | s, t, l :: ls, h, ht => by
      obtain ⟨u, hu, ht⟩ := Option.bind_eq_some_iff.mp ht
      rcases h.step hbuf hu with ⟨htimely, hon⟩ | ⟨htimely, hlate⟩
      · rcases hon.exec hbuf ls ht with ⟨hmeets, hlast⟩ | ⟨hmeets, hlast⟩
        · left
          refine ⟨⟨htimely, ?_⟩, hlast⟩
          intro u' hu'
          obtain rfl := Option.some.inj (hu.symm.trans hu')
          apply hmeets
        · right
          refine ⟨?_, hlast⟩
          intro hall
          apply hmeets (hall.2 u hu)
      · right
        constructor
        · intro hall
          apply htimely hall.1
        · apply (Run.reachable_of_exec ls ht).invariant (Late msg mem) hlate
          intro u l v hlate _ hv
          apply hlate.step hbuf hv

/-- The steps that are left of a transfer, those of the thread and the exchanges. -/
def stepsLeft (msg : SpiMsg) (s : SpiSystem) : ℕ :=
  msg.len - s.received.length + s.wait.stepsLeft + if s.result = none then 1 else 0

/-- Every step makes the rest of the run shorter. -/
theorem stepsLeft_step (h : Inv msg mem s) {l : SpiLabel} (hs : s.step msg l = some s') :
  s'.stepsLeft msg < s.stepsLeft msg
  := by
  cases l with
  | run =>
      simp only [step] at hs
      split at hs
      · split at hs
        · rename_i hresult
          obtain rfl := Option.some.inj hs
          rw [endXfer]
          split <;> simp [stepsLeft, hresult]
        · cases hs
      · obtain ⟨wait, hwait, rfl⟩ := Option.map_eq_some_iff.mp hs
        have := WaitTmo.stepsLeft_run hwait
        simp only [stepsLeft]
        omega
  | stc spdr =>
      simp only [step] at hs
      split at hs
      · rename_i hpending
        obtain rfl := Option.some.inj hs
        have hlen := (h.index_eq hpending.2).2
        have hwait : (s.atmegaSpiStcIrq spdr).wait.stepsLeft = s.wait.stepsLeft := by
          rw [wait_atmegaSpiStcIrq]
          split <;> rfl
        simp only [stepsLeft, hwait, received_atmegaSpiStcIrq, result_atmegaSpiStcIrq,
          List.length_append, List.length_singleton]
        omega
      · cases hs
  | pass expired =>
      obtain ⟨wait, hwait, rfl⟩ := Option.map_eq_some_iff.mp hs
      have := WaitTmo.stepsLeft_pass hwait
      simp only [stepsLeft]
      omega

/-- From a transfer on time, timely steps lead to its end. -/
theorem OnTime.inevitable (h : OnTime msg mem s) (hbuf : msg.Buffers) (hlen : msg.len < 2 ^ 15) :
  Run.Inevitable (Run.restrict (SpiSystem.step msg) Timely) (Complete msg mem) s
  := by
  apply Run.inevitable_of_measure (OnTime msg mem) (stepsLeft msg) _ _ h
  · intro s hs hnot
    have hresult : s.result = none := by
      by_contra hne
      apply hnot ((hs.complete_iff hne).mpr hlen)
    obtain ⟨l, t, htimely, ht⟩ := hs.exists_step hresult
    use l, t
    rw [Run.restrict_eq_some]
    exact ⟨htimely, ht⟩
  · intro s l t hs _ ht
    rw [Run.restrict_eq_some] at ht
    obtain ⟨htimely, ht⟩ := ht
    constructor
    · rcases hs.step hbuf ht with ⟨-, hon⟩ | ⟨hnot, -⟩
      · apply hon
      · exact absurd htimely hnot
    · apply stepsLeft_step hs.inv ht

/-- In every run of a transfer the bytes on the bus and in the buffers are exact; while its
steps are timely the notification is not lost, and the call comes to return the length of the
message when that is an `int`; and a call that has returned returned it exactly when all steps were
timely and the length is an `int`. -/
theorem exact_and_complete_iff_timely {msg : SpiMsg} (mem : ℕ → UInt8) {qp : ThreadQueue Unit}
    {m : Bool} (hlen : 0 < msg.len) (hbuf : msg.Buffers) (hqp : qp.Holds m []) :
  (∀ s, Run.Reachable (step msg) (atmegaSpiXfer mem qp msg) s → Exact msg mem s) ∧
    (∀ s, Run.Guarded (step msg) Timely (atmegaSpiXfer mem qp msg) s →
      (s.received.length = msg.len → s.wait.Awaits true) ∧
        (msg.len < 2 ^ 15 →
          Run.Inevitable (Run.restrict (step msg) Timely) (Complete msg mem) s)) ∧
    ∀ ls s, Run.exec (step msg) (atmegaSpiXfer mem qp msg) ls = some s → s.result ≠ none →
      (Complete msg mem s ↔
        Run.Meets (step msg) Timely (atmegaSpiXfer mem qp msg) ls ∧ msg.len < 2 ^ 15)
  := by
  have hinit : OnTime msg mem (atmegaSpiXfer mem qp msg) := OnTime.init hlen hqp
  refine ⟨?_, ?_, ?_⟩
  · intro s hrun
    apply Inv.exact
    apply hrun.invariant (Inv msg mem) hinit.inv
    intro u l v hu _ hv
    apply hu.step hbuf hv
  · intro s hrun
    have hs : OnTime msg mem s := by
      apply hrun.invariant (OnTime msg mem) hinit
      intro u l v hu htimely hv
      rcases hu.step hbuf hv with ⟨-, hon⟩ | ⟨hnot, -⟩
      · apply hon
      · exact absurd htimely hnot
    constructor
    · intro hreceived
      have hawaits := hs.awaits
      rw [full_iff.mpr hreceived] at hawaits
      apply hawaits
    · apply hs.inevitable hbuf
  · intro ls s hs hresult
    rcases hinit.exec hbuf ls hs with ⟨hmeets, hon⟩ | ⟨hmeets, hlate⟩
    · rw [hon.complete_iff hresult, and_iff_right hmeets]
    · exact iff_of_false hlate.not_complete fun h => hmeets h.1

end

/-- A message of one byte, received where it was sent from. -/
def oneByte : SpiMsg where
  rx := some 0
  tx := 0
  len := 1

/-- The theorem applied to a message of one byte. -/
theorem exact_and_complete_iff_timely_oneByte :
  (∀ s, Run.Reachable (step oneByte) (atmegaSpiXfer (fun _ => 0) .threadQueueInit oneByte) s →
      Exact oneByte (fun _ => 0) s) ∧
    (∀ s, Run.Guarded (step oneByte) Timely
        (atmegaSpiXfer (fun _ => 0) .threadQueueInit oneByte) s →
      (s.received.length = oneByte.len → s.wait.Awaits true) ∧
        (oneByte.len < 2 ^ 15 →
          Run.Inevitable (Run.restrict (step oneByte) Timely) (Complete oneByte fun _ => 0) s)) ∧
    ∀ ls s, Run.exec (step oneByte) (atmegaSpiXfer (fun _ => 0) .threadQueueInit oneByte) ls
        = some s → s.result ≠ none →
      (Complete oneByte (fun _ => 0) s ↔ Run.Meets (step oneByte) Timely
        (atmegaSpiXfer (fun _ => 0) .threadQueueInit oneByte) ls ∧ oneByte.len < 2 ^ 15)
  := by
  apply exact_and_complete_iff_timely _ (by decide) (by decide)
    ThreadQueue.holds_threadQueueInit

/-- The only interrupt of a message of one byte comes before `event_wait`, which discards its
notification: the thread waits until its time is up. -/
theorem not_complete :
  ∃ s, Run.exec (step oneByte) (atmegaSpiXfer (fun _ => 0) .threadQueueInit oneByte)
      [.stc 7, .run, .run, .run, .pass true, .run] = some s ∧
    s.received.length = oneByte.len ∧ s.result = some (-EAGAIN)
  := by
  obtain ⟨s, hs, htest⟩ := Run.exists_of_any (step oneByte)
    (atmegaSpiXfer (fun _ => 0) .threadQueueInit oneByte)
    [.stc 7, .run, .run, .run, .pass true, .run]
    (fun s => s.received.length = oneByte.len ∧ s.result = some (-EAGAIN)) (by decide)
  use s, hs
  apply of_decide_eq_true htest

end

end SpiSystem

end Etaos.Drivers
