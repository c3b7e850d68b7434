import Mathlib.Tactic.Ring
import Etaos.Library.Paged
import Etaos.Sched.Queue

/-!
# The 24C02 EEPROM

The driver of the chip, from `24c02.c` and `eeprom.c`.  A write is cut into pieces of
`PAGE_SIZE` bytes that are counted from its start, and every piece is one transaction, whose
bytes the chip stores in the aligned page that the transaction starts in.
-/

namespace Etaos.Drivers

/-- The constant `PAGE_SIZE`. -/
def pageSize : ℕ := 8

/-- The error `ENOMEM`. -/
def ENOMEM : Int := 1

/-! ### The chip -/

/-- The chip: its cells, and the address that it reads from next. -/
structure Chip where
  cells : ℕ → UInt8
  pointer : ℕ

namespace Chip

/-- The chip receives the bytes of a message: an address, and the bytes to be stored. -/
def receive (chip : Chip) : List UInt8 → Chip
  | [] => chip
  | addr :: data =>
      { cells := Paged.store pageSize chip.cells addr.toNat data
        pointer := (Paged.pageNext pageSize)^[data.length] addr.toNat }

/-- The bytes that the chip sends for a message that reads `len` bytes. -/
def send (chip : Chip) (len : ℕ) : List UInt8 :=
  (List.range len).map fun i => chip.cells ((chip.pointer + i) % 256)

end Chip

/-! ### The driver -/

/-- The file of the EEPROM, with the chip behind the bus. -/
structure Eeprom where
  index : ℕ
  chip : Chip

namespace Eeprom

/-- The function `i2c_master_send`, when the transfer succeeds, with the count it returns. -/
def i2cMasterSend (ee : Eeprom) (buff : List UInt8) : Eeprom × Int :=
  ({ ee with chip := ee.chip.receive buff }, buff.length)

/-- The message for the piece of a buffer that is `idx` pages from its start. -/
def message (ee : Eeprom) (buff : List UInt8) (eepromIndex : UInt8) (idx len : ℕ) : List UInt8 :=
  UInt8.ofNat (ee.index + eepromIndex.toNat) :: (buff.drop (pageSize * idx)).take len

/-- The loop of `__ee_24c02_write` over the full pages, with its variables `idx` and
`eeprom_index` at the end. -/
def writePages (buff : List UInt8) (ee : Eeprom) : ℕ → ℕ → UInt8 → Eeprom × ℕ × UInt8
  | 0, idx, eepromIndex => (ee, idx, eepromIndex)
  | fullPages + 1, idx, eepromIndex =>
      let (ee, _) := ee.i2cMasterSend (ee.message buff eepromIndex idx pageSize)
      writePages buff ee fullPages (idx + 1) (eepromIndex + UInt8.ofNat pageSize)

/-- The function `__ee_24c02_write`, where `mem` says whether its allocation succeeds. -/
def ee24c02Write (ee : Eeprom) (buff : List UInt8) (mem : Bool) : Eeprom × Int :=
  let len := buff.length
  let fullPages := if len ≥ pageSize then len / pageSize else 0
  let leftOver := len % pageSize
  if mem then
    let (ee, idx, eepromIndex) := ee.writePages buff fullPages 0 0
    if leftOver ≠ 0 then
      let (ee, _) := ee.i2cMasterSend (ee.message buff eepromIndex idx leftOver)
      (ee, -EOK)
    else
      (ee, -EOK)
  else
    (ee, -ENOMEM)

/-- The function `__ee_24c02_read`, when the transfer of its two messages succeeds. -/
def ee24c02Read (ee : Eeprom) (len : ℕ) (mem : Bool) : Eeprom × List UInt8 × Int :=
  if mem then
    let chip := ee.chip.receive [UInt8.ofNat ee.index]
    ({ ee with chip := { chip with pointer := (chip.pointer + len) % 256 } }, chip.send len, -EOK)
  else
    (ee, [], -ENOMEM)

/-- The function `eeprom_write`. -/
def eepromWrite (ee : Eeprom) (buff : List UInt8) (mem : Bool) : Eeprom × Int :=
  let (ee, rc) := ee.ee24c02Write buff mem
  ({ ee with index := (ee.index + buff.length) % 2 ^ 16 }, rc)

/-- The function `eeprom_read`. -/
def eepromRead (ee : Eeprom) (len : ℕ) (mem : Bool) : Eeprom × List UInt8 × Int :=
  let (ee, buff, rc) := ee.ee24c02Read len mem
  ({ ee with index := (ee.index + len) % 2 ^ 16 }, buff, rc)

/-- A buffer that is written reads back from the same index, the cells outside of its range
are left as they are, and the index of the file advances by the length of the buffer. -/
def RoundTrip (ee : Eeprom) (buff : List UInt8) : Prop :=
  let (written, rc) := ee.eepromWrite buff true
  let (read, data, rc') := { written with index := ee.index }.eepromRead buff.length true
  rc = -EOK ∧ rc' = -EOK ∧ data = buff ∧
    written.index = ee.index + buff.length ∧ read.index = ee.index + buff.length ∧
    ∀ a < 256, ¬ (ee.index ≤ a ∧ a < ee.index + buff.length) →
      read.chip.cells a = ee.chip.cells a

variable {ee : Eeprom} {buff : List UInt8}

@[simp]
theorem i2cMasterSend_index (message : List UInt8) : (ee.i2cMasterSend message).1.index = ee.index :=
  rfl

@[simp]
theorem writePages_index (buff : List UInt8) :
    ∀ (n idx : ℕ) (eepromIndex : UInt8) (ee : Eeprom),
      (writePages buff ee n idx eepromIndex).1.index = ee.index
  | 0, _, _, _ => rfl
  | n + 1, idx, eepromIndex, ee => by
      rw [writePages, writePages_index]
      rfl

/-! ### Writes that keep to the pages -/

/-- A piece of the buffer that keeps to its page is stored behind the pieces before it. -/
theorem cells_message {cells : ℕ → UInt8} {idx len : ℕ}
    (hcells : ee.chip.cells = Paged.overwrite cells ee.index (buff.take (pageSize * idx)))
    (hidx : pageSize * idx ≤ buff.length) (hlast : ee.index + pageSize * idx < 256)
    (hpage : (ee.index + pageSize * idx) % pageSize + min len (buff.length - pageSize * idx)
      ≤ pageSize) :
  (ee.i2cMasterSend (ee.message buff (UInt8.ofNat (pageSize * idx)) idx len)).1.chip.cells
    = Paged.overwrite cells ee.index (buff.take (pageSize * idx + len))
  := by
  have haddr : (UInt8.ofNat (ee.index + (UInt8.ofNat (pageSize * idx)).toNat)).toNat
      = ee.index + pageSize * idx := by
    rw [UInt8.toNat_ofNat', UInt8.toNat_ofNat', Nat.mod_eq_of_lt (by omega : pageSize * idx < 2 ^ 8),
      Nat.mod_eq_of_lt (by omega)]
  have hlength : ((buff.drop (pageSize * idx)).take len).length
      = min len (buff.length - pageSize * idx) := by
    rw [List.length_take, List.length_drop]
  rw [i2cMasterSend, message]
  simp only [Chip.receive, haddr]
  rw [Paged.store_eq_overwrite (by rwa [hlength]), hcells, List.take_add, ← Paged.overwrite_append,
    List.length_take, min_eq_left hidx]

/-- The full pages of a buffer that starts at the start of a page. -/
theorem cells_writePages {cells : ℕ → UInt8} :
    ∀ (n idx : ℕ) {ee : Eeprom},
      ee.chip.cells = Paged.overwrite cells ee.index (buff.take (pageSize * idx)) →
      pageSize * (idx + n) ≤ buff.length → ee.index + buff.length ≤ 256 →
      ee.index % pageSize = 0 →
      ∃ ee', writePages buff ee n idx (UInt8.ofNat (pageSize * idx))
          = (ee', idx + n, UInt8.ofNat (pageSize * (idx + n))) ∧
        ee'.chip.cells = Paged.overwrite cells ee.index (buff.take (pageSize * (idx + n)))
  | 0, idx, ee, hcells, _, _, _ => ⟨ee, rfl, hcells⟩
  | n + 1, idx, ee, hcells, hle, hspace, halign => by
      have hsum : pageSize * (idx + (n + 1)) = pageSize * idx + pageSize * n + pageSize := by ring
      have hsum' : pageSize * (idx + 1 + n) = pageSize * idx + pageSize * n + pageSize := by ring
      have hsize : pageSize = 8 := rfl
      have hpage : (ee.index + pageSize * idx) % pageSize
          + min pageSize (buff.length - pageSize * idx) ≤ pageSize := by
        rw [Nat.add_mul_mod_self_left, halign]
        omega
      have hmessage := cells_message hcells (by omega) (by omega) hpage
      obtain ⟨ee', hwrite, hcells'⟩ := cells_writePages n (idx + 1) hmessage
        (by omega) hspace halign
      refine ⟨ee', ?_, ?_⟩
      · have hadd : UInt8.ofNat (pageSize * idx) + UInt8.ofNat pageSize
            = UInt8.ofNat (pageSize * (idx + 1)) := by
          rw [← UInt8.ofNat_add, Nat.mul_succ]
        rw [writePages]
        dsimp only
        rw [hadd, hwrite, Nat.add_right_comm, Nat.add_assoc]
      · rw [hcells', show idx + 1 + n = idx + (n + 1) by omega]
        rfl

/-- A buffer that starts at the start of a page, or fits in the page it starts in, is written
to consecutive addresses. -/
theorem cells_write (hspace : ee.index + buff.length ≤ 256)
    (hfit : ee.index % pageSize = 0 ∨ ee.index % pageSize + buff.length ≤ pageSize) :
  ∃ ee', ee.ee24c02Write buff true = (ee', -EOK) ∧ ee'.index = ee.index ∧
    ee'.chip.cells = Paged.overwrite ee.chip.cells ee.index buff
  := by
  have hempty : ee.chip.cells
      = Paged.overwrite ee.chip.cells ee.index (buff.take (pageSize * 0)) := rfl
  have hsize : pageSize = 8 := rfl
  have hdiv := Nat.div_add_mod buff.length pageSize
  -- the full pages
  obtain ⟨ee', hwrite, hcells⟩ : ∃ ee', writePages buff ee (buff.length / pageSize) 0 0
        = (ee', buff.length / pageSize, UInt8.ofNat (pageSize * (buff.length / pageSize))) ∧
      ee'.chip.cells = Paged.overwrite ee.chip.cells ee.index
        (buff.take (pageSize * (buff.length / pageSize))) := by
    by_cases halign : ee.index % pageSize = 0
    · have hpages := cells_writePages (buff.length / pageSize) 0 hempty
        (by rw [Nat.zero_add]; omega) hspace halign
      simpa using hpages
    · have hzero : buff.length / pageSize = 0 := Nat.div_eq_of_lt (by omega)
      rw [hzero]
      exact ⟨ee, rfl, hempty⟩
  have hindex : ee'.index = ee.index := by
    have hkept := writePages_index buff (buff.length / pageSize) 0 0 ee
    rwa [hwrite] at hkept
  have hfull : (if buff.length ≥ pageSize then buff.length / pageSize else 0)
      = buff.length / pageSize := by
    split
    · rfl
    · rw [Nat.div_eq_of_lt (by omega)]
  rw [← hindex] at hcells
  rw [ee24c02Write]
  simp only [hfull, hwrite, if_true]
  split
  · rename_i hleft
    have hpage : (ee'.index + pageSize * (buff.length / pageSize)) % pageSize
        + min (buff.length % pageSize) (buff.length - pageSize * (buff.length / pageSize))
          ≤ pageSize := by
      rw [Nat.add_mul_mod_self_left, hindex]
      have := Nat.mod_lt buff.length (show 0 < pageSize by decide)
      rcases hfit with halign | hfit
      · omega
      · have := Nat.mod_le buff.length pageSize
        omega
    have hmessage := cells_message hcells (by omega) (by omega) hpage
    rw [hdiv, List.take_length] at hmessage
    refine ⟨_, rfl, ?_, ?_⟩
    · rw [i2cMasterSend_index, hindex]
    · rw [hmessage, hindex]
  · rename_i hleft
    refine ⟨ee', rfl, hindex, ?_⟩
    rw [hcells, hindex, List.take_of_length_le (by omega)]

/-- A buffer that is written to consecutive addresses makes a round trip. -/
theorem roundTrip_of_fits (hspace : ee.index + buff.length ≤ 256)
    (hfit : ee.index % pageSize = 0 ∨ ee.index % pageSize + buff.length ≤ pageSize) :
  ee.RoundTrip buff
  := by
  obtain ⟨ee', hwrite, hindex, hcells⟩ := cells_write hspace hfit
  have hsum : (ee.index + buff.length) % 2 ^ 16 = ee.index + buff.length := by
    rw [Nat.mod_eq_of_lt]
    omega
  rw [RoundTrip, eepromWrite, hwrite]
  simp only [eepromRead, ee24c02Read, if_true, hindex, hsum, Chip.receive, true_and]
  refine ⟨?_, ?_⟩
  · rw [Chip.send]
    have hread : (List.range buff.length).map
        (fun i => Paged.overwrite ee.chip.cells ee.index buff (ee.index + i)) = buff :=
      Paged.overwrite_read
    conv_rhs => rw [← hread]
    apply List.map_congr_left
    intro i hi
    rw [List.mem_range] at hi
    have haddr : (UInt8.ofNat ee.index).toNat = ee.index := by
      rw [UInt8.toNat_ofNat', Nat.mod_eq_of_lt]
      omega
    change ee'.chip.cells (((UInt8.ofNat ee.index).toNat + i) % 256) = _
    rw [haddr, Nat.mod_eq_of_lt (by omega), hcells]
  · intro a _ ha
    change ee'.chip.cells a = ee.chip.cells a
    rw [hcells, Paged.overwrite_of_not_mem ha]

/-! ### Writes that go beyond a page -/

/-- A cell that holds `b` still does so after pieces of bytes `b`. -/
theorem writePages_keeps {b : UInt8} {x : ℕ} (hbuff : ∀ c ∈ buff, c = b) :
    ∀ (n idx : ℕ) (eepromIndex : UInt8) (ee : Eeprom), ee.chip.cells x = b →
      (writePages buff ee n idx eepromIndex).1.chip.cells x = b
  | 0, _, _, _, h => h
  | n + 1, idx, eepromIndex, ee, h => by
      rw [writePages]
      apply writePages_keeps hbuff
      apply Paged.store_keeps _ h
      intro c hc
      apply hbuff c (List.mem_of_mem_drop (List.mem_of_mem_take hc))

/-- A piece that goes beyond the end of its page reaches the start of the page. -/
theorem message_wraps {b : UInt8} {len : ℕ} (hbuff : ∀ c ∈ buff, c = b) (hindex : ee.index < 256)
    (hlen : len ≤ buff.length) (hpage : pageSize < ee.index % pageSize + len) :
  (ee.i2cMasterSend (ee.message buff 0 0 len)).1.chip.cells (Paged.pageStart pageSize ee.index) = b
  := by
  have haddr : (UInt8.ofNat (ee.index + (0 : UInt8).toNat)).toNat = ee.index := by
    rw [UInt8.toNat_zero, Nat.add_zero, UInt8.toNat_ofNat', Nat.mod_eq_of_lt (by omega)]
  rw [i2cMasterSend, message]
  simp only [Chip.receive, haddr]
  apply Paged.store_wraps
  · intro c hc
    apply hbuff c (List.mem_of_mem_drop (List.mem_of_mem_take hc))
  · rw [List.length_take, List.length_drop, Nat.mul_zero, Nat.sub_zero, min_eq_left hlen]
    exact hpage
  · apply Nat.mod_lt _ (by decide)

/-- The first cell of the page that a write starts in is written by the first piece of it that
goes beyond the end of that page. -/
theorem cells_write_wraps {b : UInt8} (hbuff : ∀ c ∈ buff, c = b)
    (hspace : ee.index + buff.length ≤ 256) (halign : ee.index % pageSize ≠ 0)
    (hpage : pageSize < ee.index % pageSize + buff.length) :
  (ee.ee24c02Write buff true).1.chip.cells (Paged.pageStart pageSize ee.index) = b
  := by
  have hmod : ee.index % pageSize < pageSize := Nat.mod_lt _ (by decide)
  rw [ee24c02Write]
  simp only [if_true]
  by_cases hlen : buff.length ≥ pageSize
  · rw [if_pos hlen]
    obtain ⟨n, hn⟩ : ∃ n, buff.length / pageSize = n + 1 := by
      apply Nat.exists_eq_succ_of_ne_zero
      have := Nat.div_pos hlen (show 0 < pageSize by decide)
      omega
    have hfull : (writePages buff ee (buff.length / pageSize) 0 0).1.chip.cells
        (Paged.pageStart pageSize ee.index) = b := by
      rw [hn, writePages]
      apply writePages_keeps hbuff
      apply message_wraps hbuff (by omega) hlen (by omega)
    split
    · apply Paged.store_keeps _ hfull
      intro c hc
      apply hbuff c (List.mem_of_mem_drop (List.mem_of_mem_take hc))
    · exact hfull
  · have hleft : buff.length % pageSize = buff.length := Nat.mod_eq_of_lt (by omega)
    rw [if_neg hlen, hleft, if_pos (by omega)]
    apply message_wraps hbuff (by omega) le_rfl hpage

/-- Every buffer of a length makes a round trip from an index of every chip exactly when the
index is the start of a page, or the buffer fits in the page of the index. -/
theorem roundTrip_iff {index len : ℕ} (hspace : index + len ≤ 256) :
  (∀ chip buff, buff.length = len → (Eeprom.mk index chip).RoundTrip buff) ↔
    index % pageSize = 0 ∨ index % pageSize + len ≤ pageSize
  := by
  constructor
  · intro hall
    by_contra hfit
    rw [not_or, Nat.not_le] at hfit
    -- a chip of zeros, and a buffer of ones
    let ee : Eeprom := { index, chip := { cells := fun _ => 0, pointer := 0 } }
    let buff : List UInt8 := List.replicate len 1
    have hbuff : ∀ c ∈ buff, c = 1 := fun c hc => List.eq_of_mem_replicate hc
    have hlength : buff.length = len := List.length_replicate
    have hone : (ee.ee24c02Write buff true).1.chip.cells (Paged.pageStart pageSize index) = 1 := by
      apply cells_write_wraps hbuff _ hfit.1
      · rw [hlength]
        exact hfit.2
      · rw [hlength]
        exact hspace
    obtain ⟨-, -, -, -, -, hframe⟩ := hall ee.chip buff hlength
    have hdiv := Nat.div_add_mod' index pageSize
    have hzero := hframe (Paged.pageStart pageSize index) (by rw [Paged.pageStart]; omega)
      (by rw [Paged.pageStart]; dsimp only; omega)
    change (ee.ee24c02Write buff true).1.chip.cells _ = 0 at hzero
    rw [hone] at hzero
    cases hzero
  · rintro hfit chip buff rfl
    apply roundTrip_of_fits hspace hfit

/-- The buffers of 20 bytes from the index 16 on. -/
theorem roundTrip_iff_aligned :
  (∀ chip buff, buff.length = 20 → (Eeprom.mk 16 chip).RoundTrip buff) ↔
    16 % pageSize = 0 ∨ 16 % pageSize + 20 ≤ pageSize
  := by
  apply roundTrip_iff (by decide)

/-- A write of two bytes to the last cell of a page on reaches the first cell of the page. -/
theorem not_roundTrip :
  ¬ (Eeprom.mk 7 { cells := fun _ => 0, pointer := 0 }).RoundTrip [1, 1]
  := by
  rintro ⟨-, -, -, -, -, hframe⟩
  have hzero := hframe 0 (by decide) (by decide)
  revert hzero
  decide

end Eeprom

end Etaos.Drivers
