import Bootloader.Lib.Memory
import Bootloader.I2cMaster

/-!
# The EEPROM driver

`EEPROM_ReadByte`, `EEPROM_WriteByte`, `EEPROM_Read` and `EEPROM_Write` over an AT24C64 whose I2C
transactions may fail. The bus is an arbitrary function: the return code of every attempt of every
access. A read that never succeeds yields 0, and nobody is told.
-/

namespace Bootloader

/-- The return code of attempt `i` of access `n` to a byte. -/
abbrev I2cBus := Nat → Nat → I2cmError

/-- The size of an AT24C64, `ADDRESS_MAX`. -/
def eepromSize : Nat := 64 * 1024 / 8

/-- The number of attempts of an access. -/
def eepromAttempts : Nat := 200

/-- The cells, and the number of accesses made to them. -/
structure Eeprom where
  cells : Mem
  accesses : Nat

namespace Eeprom

/-- The attempts of access `access`, `n` of them left: the first that succeeds ends the loop with `done`. -/
def attempts {α : Type} (bus : I2cBus) (access : Nat) (done failed : α) : Nat → α
  | 0 => failed
  | n + 1 =>
    match bus access (eepromAttempts - (n + 1)) with
    | .eok => done
    | _ => attempts bus access done failed n

/-- `EEPROM_ReadByte`: `I2CM_Read` of one byte sets `data`, which is 0 before, if it succeeds. -/
def readByte (bus : I2cBus) (iRegAddr : Nat) (e : Eeprom) : UInt8 × Eeprom :=
  (attempts bus e.accesses (e.cells (iRegAddr % eepromSize)) 0 eepromAttempts,
    { e with accesses := e.accesses + 1 })

/-- `EEPROM_WriteByte`: the chip stores what `I2CM_Write` of one byte sends if it succeeds. -/
def writeByte (bus : I2cBus) (iRegAddr : Nat) (iData : UInt8) (e : Eeprom) : Eeprom :=
  { cells := attempts bus e.accesses (e.cells.write (iRegAddr % eepromSize) [iData]) e.cells eepromAttempts
    accesses := e.accesses + 1 }

/-- `EEPROM_Read`; the register address has 16 bits. -/
def read (bus : I2cBus) : Nat → Nat → Eeprom → List UInt8 × Eeprom
  | _, 0, e => ([], e)
  | iRegAddr, iDataLen + 1, e =>
    let (data, e) := readByte bus iRegAddr e
    let (iBuf, e) := read bus ((iRegAddr + 1) % 0x10000) iDataLen e
    (data :: iBuf, e)

/-- `EEPROM_Write`. -/
def write (bus : I2cBus) : Nat → List UInt8 → Eeprom → Eeprom
  | _, [], e => e
  | iRegAddr, data :: iData, e => write bus ((iRegAddr + 1) % 0x10000) iData (writeByte bus iRegAddr data e)

/-! ### What an access does -/

/-- One of the attempts of access `n` succeeds. -/
def Answers (bus : I2cBus) (n : Nat) : Prop := ∃ i < eepromAttempts, bus n i = .eok

instance {bus : I2cBus} {n : Nat} : Decidable (Answers bus n) :=
  inferInstanceAs (Decidable (∃ i < eepromAttempts, bus n i = .eok))

/-- The cell of byte `k` of a block that starts at the address `a`. -/
def cell (a k : Nat) : Nat := (a + k) % eepromSize

variable {bus : I2cBus} {a k n : Nat} {data : UInt8} {e : Eeprom}

theorem cell_succ : cell ((a + 1) % 0x10000) k = cell a (k + 1) := by
  unfold cell eepromSize
  omega

theorem cell_inj {j : Nat} (hj : j < eepromSize) (hk : k < eepromSize) (h : cell a j = cell a k) : j = k := by
  unfold cell eepromSize at *
  omega

theorem attempts_done {α : Type} {access : Nat} {done failed : α} (hn : n ≤ eepromAttempts)
    (h : ∃ i, eepromAttempts - n ≤ i ∧ i < eepromAttempts ∧ bus access i = .eok) :
    attempts bus access done failed n = done := by
  induction n with
  | zero =>
    obtain ⟨i, h1, h2, -⟩ := h
    omega
  | succ n ih =>
    rw [attempts]
    split
    · rfl
    · next hne =>
      obtain ⟨i, h1, h2, h3⟩ := h
      refine ih (by omega) ⟨i, ?_, h2, h3⟩
      have : i ≠ eepromAttempts - (n + 1) := fun hi => hne (hi ▸ h3)
      omega

theorem attempts_failed {α : Type} {access : Nat} {done failed : α} (hn : n ≤ eepromAttempts)
    (h : ∀ i < eepromAttempts, bus access i ≠ .eok) : attempts bus access done failed n = failed := by
  induction n with
  | zero => rfl
  | succ n ih =>
    rw [attempts]
    split
    · next hok => exact absurd hok (h _ (by omega))
    · exact ih (by omega)

theorem attempts_eq {α : Type} {access : Nat} {done failed : α} :
    attempts bus access done failed eepromAttempts = if Answers bus access then done else failed := by
  split
  · next h =>
    obtain ⟨i, hi, hok⟩ := h
    exact attempts_done (Nat.le_refl _) ⟨i, by omega, hi, hok⟩
  · next h => exact attempts_failed (Nat.le_refl _) fun i hi hok => h ⟨i, hi, hok⟩

theorem readByte_eq : readByte bus a e = (if Answers bus e.accesses then e.cells (a % eepromSize) else 0,
    { e with accesses := e.accesses + 1 }) := by
  rw [readByte, attempts_eq]

theorem writeByte_eq : writeByte bus a data e =
    ⟨if Answers bus e.accesses then e.cells.write (a % eepromSize) [data] else e.cells, e.accesses + 1⟩ := by
  rw [writeByte, attempts_eq]

/-! ### Blocks -/

/-- The bytes that a read of a block gives: 0 where the access fails. -/
def asRead (bus : I2cBus) (e : Eeprom) (a : Nat) : Mem := fun k =>
  if Answers bus (e.accesses + k) then e.cells (cell a k) else 0

theorem asRead_succ : asRead bus (readByte bus a e).2 ((a + 1) % 0x10000) k = asRead bus e a (k + 1) := by
  rw [readByte_eq, asRead, asRead, cell_succ, Nat.add_assoc, Nat.add_comm 1 k]

theorem read_eq : read bus a n e = ((asRead bus e a).read 0 n, { e with accesses := e.accesses + n }) := by
  induction n generalizing a e with
  | zero => rfl
  | succ n ih =>
    have hread : (asRead bus (readByte bus a e).2 ((a + 1) % 0x10000)).read 0 n = (asRead bus e a).read 1 n := by
      rw [Mem.read, Mem.read]
      exact List.map_congr_left fun k _ => by rw [asRead_succ, Nat.zero_add, Nat.add_comm 1 k]
    rw [read]
    dsimp only
    rw [ih, hread, readByte_eq, Mem.read_succ_left, asRead]
    dsimp only
    rw [Nat.add_zero, Nat.add_assoc, Nat.add_comm 1 n]; rfl

@[simp] theorem write_accesses {l : List UInt8} : (write bus a l e).accesses = e.accesses + l.length := by
  induction l generalizing a e with
  | nil => rfl
  | cons data l ih =>
    rw [write, ih, List.length_cons, Nat.add_comm l.length, ← Nat.add_assoc]; rfl

theorem cell_zero : cell a 0 = cell ((a + 1) % 0x10000) (eepromSize - 1) := by
  unfold cell eepromSize
  omega

theorem writeByte_cell (hk : k + 1 < eepromSize) :
    (writeByte bus a data e).cells (cell a (k + 1)) = e.cells (cell a (k + 1)) := by
  have hne : cell a (k + 1) ≠ a % eepromSize := fun h =>
    absurd (cell_inj hk (Nat.lt_of_le_of_lt (Nat.zero_le _) hk) (h.trans rfl)) (Nat.succ_ne_zero k)
  rw [writeByte_eq]
  dsimp only
  split
  · exact Mem.write_of_ne hne
  · rfl

/-- A write of a block stores the bytes whose access is answered, and no other cell changes. -/
theorem write_cells {l : List UInt8} (hk : k < eepromSize) (hl : l.length ≤ eepromSize) :
    (write bus a l e).cells (cell a k) =
      if Answers bus (e.accesses + k) then l[k]?.getD (e.cells (cell a k)) else e.cells (cell a k) := by
  induction l generalizing a e k with
  | nil => rw [write, List.getElem?_nil, Option.getD_none, ite_self]
  | cons data l ih =>
    rw [write]
    rw [List.length_cons] at hl
    cases k with
    | zero =>
      -- The cell is the last one that the rest of the block could reach, and the rest is shorter.
      rw [cell_zero, ih (by decide) (by omega), List.getElem?_eq_none (by omega), Option.getD_none, ite_self,
        ← cell_zero, writeByte_eq, Nat.add_zero, List.getElem?_cons_zero, Option.getD_some]
      dsimp only
      rw [show a % eepromSize = cell a 0 by rw [cell, Nat.add_zero], apply_ite (fun m : Mem => m (cell a 0)),
        Mem.write_self, Nat.add_zero]
    | succ k =>
      rw [← cell_succ, ih (by omega) (by omega), cell_succ, writeByte_cell hk, writeByte_eq, Nat.add_assoc,
        Nat.add_comm 1 k]
      rfl

end Eeprom

end Bootloader
