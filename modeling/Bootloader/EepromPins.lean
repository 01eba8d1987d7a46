import Bootloader.Lib.Loop
import Bootloader.EepromChip

/-!
# The EEPROM driver on the pins

`EEPROM_Read` and `EEPROM_Write` of `bsp_eeprom.c` down to the levels of the two lines, with the chip on the bus.
Where each byte is acknowledged in one of its attempts they are the driver of `Eeprom` on a bus without errors, so
that its blocks carry over. `EE_TYPE` is `AT24C64`: the device address is `EE_DEV_ADDR` and the register address has
16 bits.
-/

namespace Bootloader
open TwoWire At24c64

namespace Bus
variable (d : Slave)

/-- A round of the loop of `EEPROM_ReadByte`: the byte that `I2CM_Read` puts in `data`, if it succeeds. -/
def readAttempt (iRegAddr : UInt16) (b : Bus) : Option UInt8 × Bus :=
  match b.i2cmRead eepromCfg d 0xA0 iRegAddr 1 with
  | (.eok, data, b) => (data.head?, b)
  | (_, _, b) => (none, b)

/-- `EEPROM_ReadByte`; `data` is 0 before. -/
def eepromReadByte (iRegAddr : UInt16) (b : Bus) : UInt8 × Bus :=
  let (data, b) := retry (readAttempt d iRegAddr) eepromAttempts b
  (data.getD 0, b)

/-- A round of the loop of `EEPROM_WriteByte`. -/
def writeAttempt (iRegAddr : UInt16) (iData : UInt8) (b : Bus) : Option Unit × Bus :=
  match b.i2cmWrite eepromCfg d 0xA0 iRegAddr [iData] with
  | (.eok, b) => (some (), b)
  | (_, b) => (none, b)

/-- `EEPROM_WriteByte`. -/
def eepromWriteByte (iRegAddr : UInt16) (iData : UInt8) (b : Bus) : Bus :=
  (retry (writeAttempt d iRegAddr iData) eepromAttempts b).2

/-- The loop of `EEPROM_Read`. -/
def readBlock : UInt16 → Nat → Bus → List UInt8 × Bus
  | _, 0, b => ([], b)
  | iRegAddr, iDataLen + 1, b =>
    let (data, b) := eepromReadByte d iRegAddr b
    let (iBuf, b) := readBlock (iRegAddr + 1) iDataLen b
    (data :: iBuf, b)

/-- `EEPROM_Read`. -/
def eepromRead (iRegAddr : UInt16) (iDataLen iBufLen : Nat) (b : Bus) : List UInt8 × Bus :=
  readBlock d iRegAddr (if iBufLen < iDataLen then iBufLen else iDataLen) b

/-- `EEPROM_Write`. -/
def eepromWrite : UInt16 → List UInt8 → Bus → Bus
  | _, [], b => b
  | iRegAddr, data :: iData, b => eepromWrite (iRegAddr + 1) iData (eepromWriteByte d iRegAddr data b)

/-! ### Acknowledged attempts -/

/-- The slave would acknowledge each byte of the parts. -/
def Acknowledges (ps : List Part) (b : Bus) : Prop := firstRefused d (decode b.trace).events ps = none

instance {ps : List Part} {b : Bus} : Decidable (Acknowledges d ps b) :=
  inferInstanceAs (Decidable (firstRefused d (decode b.trace).events ps = none))

/-- One of the attempts to read the byte is acknowledged. -/
def ReadAnswers (iRegAddr : UInt16) (b : Bus) : Prop :=
  ∃ i < eepromAttempts, Acknowledges d (readParts eepromCfg 0xA0 iRegAddr) (attempted (readAttempt d iRegAddr) i b)

/-- One of the attempts to write the byte is acknowledged. -/
def WriteAnswers (iRegAddr : UInt16) (iData : UInt8) (b : Bus) : Prop :=
  ∃ i < eepromAttempts,
    Acknowledges d (writeParts eepromCfg 0xA0 iRegAddr [iData]) (attempted (writeAttempt d iRegAddr iData) i b)

/-- Each byte of the block is read in one of its attempts. -/
def ReadsAnswered : UInt16 → Nat → Bus → Prop
  | _, 0, _ => True
  | iRegAddr, n + 1, b => ReadAnswers d iRegAddr b ∧ ReadsAnswered (iRegAddr + 1) n (eepromReadByte d iRegAddr b).2

/-- Each byte of the block is written in one of its attempts. -/
def WritesAnswered : UInt16 → List UInt8 → Bus → Prop
  | _, [], _ => True
  | iRegAddr, data :: iData, b =>
    WriteAnswers d iRegAddr data b ∧ WritesAnswered (iRegAddr + 1) iData (eepromWriteByte d iRegAddr data b)

end Bus

namespace At24c64
open Bus

/-- The chip behind the trace of the bus. -/
def chip (c : At24c64) (b : Bus) : At24c64 := c.after (decode b.trace).events

variable {c : At24c64} {refuses : List Event → Bool} {low : List Level → Bool} {d : Slave} {b : Bus} {a : UInt16}
  {v : UInt8} {l : List UInt8} {n m : Nat}

/-! ### Attempts -/

theorem write_acknowledged (h : Idle b) (hk : Acknowledges d (writeParts eepromCfg 0xA0 a [v]) b) :
    ∃ b', writeAttempt d a v b = (some (), b') ∧ Idle b' ∧
      (c.chip b').cells = (c.chip b).cells.write (a.toNat % eepromSize) [v] := by
  obtain ⟨hok, hidle, hev⟩ := i2cmWrite_ok h hk
  rw [writeAttempt]
  generalize b.i2cmWrite eepromCfg d 0xA0 a [v] = w at *
  obtain ⟨err, b'⟩ := w
  cases hok
  refine ⟨b', rfl, hidle, ?_⟩
  rw [chip, hev, after_append, after_write]; rfl

theorem write_refused (h : Idle b) (hk : ¬ Acknowledges d (writeParts eepromCfg 0xA0 a [v]) b) :
    ∃ b', writeAttempt d a v b = (none, b') ∧ Idle b' ∧ (c.chip b').cells = (c.chip b).cells := by
  obtain ⟨r, hr⟩ := Option.ne_none_iff_exists'.1 hk
  obtain ⟨herr, hidle, hev⟩ := i2cmWrite_refused rfl h hr
  have hne := writeParts_err (firstRefused_mem hr)
  rw [writeAttempt]
  generalize b.i2cmWrite eepromCfg d 0xA0 a [v] = w at *
  obtain ⟨err, b'⟩ := w
  dsimp only at herr
  refine ⟨b', ?_, hidle, ?_⟩
  · split
    · next heq => exact absurd (herr.symm.trans (congrArg Prod.fst heq)) hne
    · next heq => cases heq; rfl
  · rw [chip, hev]
    exact after_abort hr

theorem read_acknowledged (h : Idle b) (hk : Acknowledges (c.slave refuses low) (readParts eepromCfg 0xA0 a) b) :
    ∃ b', readAttempt (c.slave refuses low) a b = (some ((c.chip b).cells (a.toNat % eepromSize)), b') ∧ Idle b' ∧
      (c.chip b').cells = (c.chip b).cells := by
  obtain ⟨hok, hidle, es, rfl, hdata, hev⟩ := i2cmRead_ok Nat.one_pos h hk
  have hsend : c.after ((decode b.trace).events ++ (readParts eepromCfg 0xA0 a).flatMap Part.events) =
      ⟨(c.chip b).cells, a.toNat, .send, []⟩ := by rw [after_append, after_readParts]; rfl
  rw [Slave.bytes, Slave.bytes, byte_send (by rw [hsend]) (by rw [hsend]), hsend] at hdata
  rw [readAttempt]
  generalize b.i2cmRead eepromCfg (c.slave refuses low) 0xA0 a 1 = w at *
  obtain ⟨err, data, b'⟩ := w
  cases hok
  cases hdata
  refine ⟨b', rfl, hidle, ?_⟩
  rw [chip, hev, after_append, hsend, readEvents, after_append, after_nacked rfl]; rfl

theorem read_refused (h : Idle b) (hk : ¬ Acknowledges d (readParts eepromCfg 0xA0 a) b) :
    ∃ b', readAttempt d a b = (none, b') ∧ Idle b' ∧ (c.chip b').cells = (c.chip b).cells := by
  obtain ⟨r, hr⟩ := Option.ne_none_iff_exists'.1 hk
  obtain ⟨herr, hidle, hev⟩ := i2cmRead_refused (n := 1) rfl h hr
  obtain ⟨ps, hps⟩ : ∃ ps, readParts eepromCfg 0xA0 a = .start :: ps := readParts_start
  have hne := readParts_err (firstRefused_mem hr)
  rw [readAttempt]
  generalize b.i2cmRead eepromCfg d 0xA0 a 1 = w at *
  obtain ⟨err, data, b'⟩ := w
  dsimp only at herr
  refine ⟨b', ?_, hidle, ?_⟩
  · split
    · next heq => exact absurd (herr.symm.trans (congrArg Prod.fst heq)) hne
    · next heq => cases heq; rfl
  · rw [hps] at hr
    rw [chip, hev]
    exact after_abort hr

/-- A byte that is written in one of its attempts is in its cell, and no other cell changes. -/
theorem eepromWriteByte_spec (h : Idle b) (hk : WriteAnswers d a v b) : Idle (b.eepromWriteByte d a v) ∧
    (c.chip (b.eepromWriteByte d a v)).cells = (c.chip b).cells.write (a.toNat % eepromSize) [v] := by
  obtain ⟨_, b', he, hidle, hcells⟩ := retry_spec (I := fun t => Idle t ∧ (c.chip t).cells = (c.chip b).cells)
    (Q := fun _ t => Idle t ∧ (c.chip t).cells = (c.chip b).cells.write (a.toNat % eepromSize) [v])
    (fun t ht hkt => by
      obtain ⟨b', he, hb'⟩ := write_acknowledged (c := c) ht.1 hkt
      exact ⟨(), b', he, ht.2 ▸ hb'⟩)
    (fun t ht hkt => by
      obtain ⟨b', he, hidle, hcells⟩ := write_refused (c := c) ht.1 hkt
      exact ⟨b', he, hidle, hcells.trans ht.2⟩)
    ⟨h, rfl⟩ hk
  rw [eepromWriteByte, he]
  exact ⟨hidle, hcells⟩

/-- A byte that is read in one of its attempts is that of its cell, and no cell changes. -/
theorem eepromReadByte_spec (h : Idle b) (hk : ReadAnswers (c.slave refuses low) a b) :
    (b.eepromReadByte (c.slave refuses low) a).1 = (c.chip b).cells (a.toNat % eepromSize) ∧
      Idle (b.eepromReadByte (c.slave refuses low) a).2 ∧
      (c.chip (b.eepromReadByte (c.slave refuses low) a).2).cells = (c.chip b).cells := by
  obtain ⟨w, b', he, hw, hidle, hcells⟩ := retry_spec (I := fun t => Idle t ∧ (c.chip t).cells = (c.chip b).cells)
    (Q := fun w t => w = (c.chip b).cells (a.toNat % eepromSize) ∧ Idle t ∧ (c.chip t).cells = (c.chip b).cells)
    (fun t ht hkt => by
      obtain ⟨b', he, hb'⟩ := read_acknowledged ht.1 hkt
      exact ⟨_, b', he, by rw [ht.2], hb'.1, hb'.2.trans ht.2⟩)
    (fun t ht hkt => by
      obtain ⟨b', he, hidle, hcells⟩ := read_refused (c := c) ht.1 hkt
      exact ⟨b', he, hidle, hcells.trans ht.2⟩)
    ⟨h, rfl⟩ hk
  rw [eepromReadByte, he]
  exact ⟨hw, hidle, hcells⟩

/-! ### Blocks -/

/-- A bus on which every access succeeds at once. -/
def okBus : I2cBus := fun _ _ => .eok

theorem answers_okBus : Eeprom.Answers okBus n := ⟨0, by decide, rfl⟩

theorem toNat_succ : (a + 1).toNat = (a.toNat + 1) % 0x10000 := UInt16.toNat_add a 1

/-- A write of a block on the pins is one of the driver on a bus without errors. -/
theorem eepromWrite_refines (h : Idle b) (hw : WritesAnswered d a l b) :
    Idle (b.eepromWrite d a l) ∧
      (c.chip (b.eepromWrite d a l)).cells = (Eeprom.write okBus a.toNat l ⟨(c.chip b).cells, n⟩).cells := by
  induction l generalizing a b n with
  | nil => exact ⟨h, rfl⟩
  | cons v l ih =>
    obtain ⟨hv, hl⟩ := hw
    obtain ⟨hidle, hcells⟩ := eepromWriteByte_spec (c := c) h hv
    obtain ⟨hidle', hcells'⟩ := @ih _ _ (n + 1) hidle hl
    refine ⟨hidle', ?_⟩
    rw [Eeprom.write, Eeprom.writeByte_eq, if_pos answers_okBus, ← toNat_succ]
    exact hcells'.trans (by rw [hcells])

theorem readBlock_succ : b.readBlock d a (n + 1) =
    ((b.eepromReadByte d a).1 :: ((b.eepromReadByte d a).2.readBlock d (a + 1) n).1,
      ((b.eepromReadByte d a).2.readBlock d (a + 1) n).2) := rfl

/-- A read of a block on the pins is one of the driver on a bus without errors. -/
theorem readBlock_refines (h : Idle b) (hr : ReadsAnswered (c.slave refuses low) a n b) :
    (b.readBlock (c.slave refuses low) a n).1 = (Eeprom.read okBus a.toNat n ⟨(c.chip b).cells, m⟩).1 ∧
      Idle (b.readBlock (c.slave refuses low) a n).2 ∧
      (c.chip (b.readBlock (c.slave refuses low) a n).2).cells = (c.chip b).cells := by
  induction n generalizing a b m with
  | zero => exact ⟨rfl, h, rfl⟩
  | succ n ih =>
    obtain ⟨ha, hn⟩ := hr
    obtain ⟨hdata, hidle, hcells⟩ := eepromReadByte_spec h ha
    obtain ⟨hdata', hidle', hcells'⟩ := @ih _ _ (m + 1) hidle hn
    rw [readBlock_succ]
    refine ⟨?_, hidle', hcells'.trans hcells⟩
    rw [Eeprom.read, Eeprom.readByte_eq, if_pos answers_okBus, ← toNat_succ]
    exact congrArg₂ List.cons hdata (hdata'.trans (by rw [hcells]))

theorem exists_cell {x : Nat} (hx : x < eepromSize) : ∃ k < eepromSize, Eeprom.cell m k = x := by
  refine ⟨(x + eepromSize - m % eepromSize) % eepromSize, Nat.mod_lt _ (by decide), ?_⟩
  unfold Eeprom.cell eepromSize at *
  omega

/-- A block of at most as many bytes as there are cells, each acknowledged in one of its attempts to write it and in
one of those to read it back: the read gives the block, and no other cell has changed. -/
theorem block_round_trip (h : Idle b) (hl : l.length ≤ eepromSize)
    (hw : WritesAnswered (c.slave refuses low) a l b)
    (hr : ReadsAnswered (c.slave refuses low) a l.length (b.eepromWrite (c.slave refuses low) a l)) :
    ((b.eepromWrite (c.slave refuses low) a l).eepromRead (c.slave refuses low) a l.length l.length).1 = l ∧
    ∀ x < eepromSize, (∀ k < l.length, x ≠ (a.toNat + k) % eepromSize) →
      (c.chip ((b.eepromWrite (c.slave refuses low) a l).eepromRead
        (c.slave refuses low) a l.length l.length).2).cells x = (c.chip b).cells x := by
  obtain ⟨hidle, hcells⟩ := eepromWrite_refines (c := c) (n := 0) h hw
  obtain ⟨hdata, -, hkeep⟩ := readBlock_refines (m := 0) hidle hr
  rw [eepromRead, if_neg (Nat.lt_irrefl _)]
  refine ⟨?_, fun x hx hne => ?_⟩
  · rw [hdata, Eeprom.read_eq, hcells]
    refine Mem.read_eq_iff.2 fun k hk => ?_
    rw [Nat.zero_add, Eeprom.asRead, if_pos answers_okBus, Eeprom.write_cells (Nat.lt_of_lt_of_le hk hl) hl,
      if_pos answers_okBus, List.getElem?_eq_getElem hk, Option.getD_some]
  · obtain ⟨k, hk, rfl⟩ := exists_cell (m := a.toNat) hx
    have hout : l.length ≤ k := Nat.le_of_not_lt fun hlt => hne k hlt rfl
    rw [hkeep, hcells, Eeprom.write_cells hk hl, if_pos answers_okBus, List.getElem?_eq_none hout, Option.getD_none]

/-- A chip of erased cells. -/
def erasedChip : At24c64 := ⟨fun _ => 0xFF, 0, .off, []⟩

/-- Refuses what follows every third START: the first attempt to write a byte and the first two to read one fail. -/
def refusesThird (es : List Event) : Bool := es.count .start % 3 == 1

/-- A block that wraps from the last cell to the first one. -/
theorem block_round_trip_wrap :
    ((idleBus.eepromWrite (erasedChip.slave refusesThird fun _ => true) 0xFFFF [7, 9]).eepromRead
      (erasedChip.slave refusesThird fun _ => true) 0xFFFF 2 2).1 = [7, 9] ∧
    (erasedChip.chip ((idleBus.eepromWrite (erasedChip.slave refusesThird fun _ => true) 0xFFFF [7, 9]).eepromRead
      (erasedChip.slave refusesThird fun _ => true) 0xFFFF 2 2).2).cells 1 = 0xFF := by
  obtain ⟨hread, hkeep⟩ := @block_round_trip erasedChip refusesThird (fun _ => true) idleBus 0xFFFF [7, 9]
    ⟨rfl, rfl, rfl, rfl⟩ (by decide)
    ⟨⟨1, by decide, by decide +kernel⟩, ⟨1, by decide, by decide +kernel⟩, trivial⟩
    ⟨⟨2, by decide, by decide +kernel⟩, ⟨2, by decide, by decide +kernel⟩, trivial⟩
  have hcell := hkeep 1 (by decide) (by decide)
  rw [List.length_cons, List.length_singleton] at hcell
  exact ⟨hread, by rw [hcell]; rfl⟩

end At24c64

end Bootloader
