import Bootloader.Config
import Bootloader.Eeprom

/-!
# The repair of the configuration

`NET_CfgInit` over an EEPROM whose accesses may fail. `BootKeyCheck` and the test of the version judge the
structure as it was read and save it as a whole: a byte whose read failed, 0 in the structure, is then
written back over the stored one.
-/

namespace Bootloader
open Eeprom

def netLocalSave (bus : I2cBus) (iEepromAddr : Nat) (netLocalAddr : Mem) (e : Eeprom) : Eeprom :=
  write bus iEepromAddr (netLocalAddr.read 0 netLocalAddrSize) e

def bootKeyCheck (bus : I2cBus) (iEepromAddr : Nat) (netLocalAddr : Mem) (e : Eeprom) : Mem × Eeprom :=
  if bootKeyError netLocalAddr then
    (repairBootKey netLocalAddr, netLocalSave bus iEepromAddr (repairBootKey netLocalAddr) e)
  else (netLocalAddr, e)

/-- The structure behind `EEPROM_Read` and the assignment `NetLocalAddr.Mac[5]=NetLocalAddr.IP[3]`. -/
def fillNetLocalAddr (iBuf : List UInt8) : Mem :=
  let netLocalAddr := Mem.write (fun _ => 0) 0 iBuf
  netLocalAddr.write (macOffset + 5) [netLocalAddr (ipOffset + 3)]

def netCfgInit (bus : I2cBus) (iEepromAddr : Nat) (e : Eeprom) : Mem × Eeprom :=
  let (iBuf, e) := read bus iEepromAddr netLocalAddrSize e
  let (netLocalAddr, e) := bootKeyCheck bus iEepromAddr (fillNetLocalAddr iBuf) e
  if bootVersionDiffers netLocalAddr then
    (repairBootVersion netLocalAddr, netLocalSave bus iEepromAddr (repairBootVersion netLocalAddr) e)
  else (netLocalAddr, e)

/-! ### The condition -/

/-- A byte of the structure outside `Mac[5]`, `BootVersion` and `BootKey`. -/
def Kept (k : Nat) : Prop :=
  k < netLocalAddrSize ∧ k ≠ macOffset + 5 ∧ (k < bootVersionOffset ∨ userCodeTypeOffset ≤ k)

instance {k : Nat} : Decidable (Kept k) :=
  inferInstanceAs (Decidable (k < netLocalAddrSize ∧ k ≠ macOffset + 5 ∧
    (k < bootVersionOffset ∨ userCodeTypeOffset ≤ k)))

section
variable (bus : I2cBus) (a : Nat) (e : Eeprom) (k : Nat)

/-- The key, as it is read, is saved anew. -/
def savesKey : Bool := bootKeyError (asRead bus e a)

/-- The version, as it is read, is saved anew. -/
def savesVersion : Bool := bootVersionDiffers (asRead bus e a)

/-- The number of the first access of the save for the version, behind the read and the save for the key. -/
def versionAccess : Nat := e.accesses + netLocalAddrSize + if savesKey bus a e then netLocalAddrSize else 0

/-- A save writes byte `k`. -/
def Rewritten : Prop :=
  savesKey bus a e = true ∧ Answers bus (e.accesses + netLocalAddrSize + k) ∨
    savesVersion bus a e = true ∧ Answers bus (versionAccess bus a e + k)

instance : Decidable (Rewritten bus a e k) := inferInstanceAs (Decidable (_ ∧ _ ∨ _ ∧ _))

/-- Byte `k` is safe: it has been read, or is 0, or no save writes it. -/
def Safe : Prop := Answers bus (e.accesses + k) ∨ e.cells (cell a k) = 0 ∨ ¬ Rewritten bus a e k

instance : Decidable (Safe bus a e k) := inferInstanceAs (Decidable (_ ∨ _ ∨ ¬ _))

end

variable {bus : I2cBus} {a k : Nat} {e : Eeprom} {m m' : Mem}

/-! ### What the tests read -/

theorem bootKeyError_congr (h : ∀ k, bootKeyOffset ≤ k → k < netLocalAddrSize → m k = m' k) :
    bootKeyError m = bootKeyError m' := by
  have hpin : ∀ k, k < 3 → m (bootKeyOffset + k) = m' (bootKeyOffset + k) := fun k hk =>
    h _ (Nat.le_add_right _ _) (by unfold bootKeyOffset netLocalAddrSize; omega)
  have hstr : cString m (bootKeyOffset + 2) = cString m' (bootKeyOffset + 2) := by
    rw [cString, cString, Mem.read_congr fun k h1 h2 => h k (by omega) (by omega)]
  simp only [bootKeyError, hstr, hpin 0 (by decide), hpin 1 (by decide), hpin 2 (by decide)]

theorem bootVersionDiffers_congr (h : ∀ k, bootVersionOffset ≤ k → k < bootKeyOffset → m k = m' k) :
    bootVersionDiffers m = bootVersionDiffers m' := by
  rw [bootVersionDiffers, Mem.read_congr h]; rfl

theorem repairBootKey_of_kept (hk : k < bootKeyOffset ∨ userCodeTypeOffset ≤ k) : repairBootKey m k = m k := by
  obtain hk | hk := hk
  · exact Mem.write_of_lt hk
  · exact Mem.write_of_ge (Nat.le_trans (by decide) hk)

theorem repairBootVersion_of_kept (hk : k < bootVersionOffset ∨ bootKeyOffset ≤ k) :
    repairBootVersion m k = m k := by
  obtain hk | hk := hk
  · exact Mem.write_of_lt hk
  · exact Mem.write_of_ge (Nat.le_trans (by decide) hk)

theorem write_asRead (hk : k < netLocalAddrSize) :
    Mem.write (fun _ => 0) 0 ((asRead bus e a).read 0 netLocalAddrSize) k = asRead bus e a k := by
  have h := Mem.write_of_mem (m := fun _ => 0) (a := 0) (l := (asRead bus e a).read 0 netLocalAddrSize)
    (k := k) (by rwa [Mem.length_read])
  rwa [Mem.getElem_read, Nat.zero_add] at h

theorem fillNetLocalAddr_of_ne (hk : k < netLocalAddrSize) (hne : k ≠ macOffset + 5) :
    fillNetLocalAddr ((asRead bus e a).read 0 netLocalAddrSize) k = asRead bus e a k := by
  rw [fillNetLocalAddr, Mem.write_of_ne hne, write_asRead hk]

/-- Where every access of the read is answered, the structure is the one of `Bootloader.Config`. -/
theorem fillNetLocalAddr_of_answers (h : ∀ k < netLocalAddrSize, Answers bus (e.accesses + k)) :
    fillNetLocalAddr ((asRead bus e netEepromAddr).read 0 netLocalAddrSize) = readNetLocalAddr e.cells := by
  have hread : ∀ k < netLocalAddrSize, asRead bus e netEepromAddr k = e.cells (netEepromAddr + k) := fun k hk => by
    rw [asRead, if_pos (h k hk), cell, Nat.mod_eq_of_lt]
    unfold netEepromAddr eepromSize netLocalAddrSize at *
    omega
  funext k
  rw [readNetLocalAddr]
  dsimp only
  split
  · next hk =>
    rw [hk, fillNetLocalAddr, Mem.write_self, write_asRead (by decide), hread _ (by decide), if_pos (by decide)]
  · next hne =>
    split
    · next hk => rw [fillNetLocalAddr_of_ne hk hne, hread k hk]
    · next hk =>
      rw [fillNetLocalAddr, Mem.write_of_ne hne, Mem.write_of_ge (by rw [Mem.length_read]; omega)]

/-! ### What is saved -/

theorem netLocalSave_cells (hk : k < netLocalAddrSize) : (netLocalSave bus a m e).cells (cell a k) =
    if Answers bus (e.accesses + k) then m k else e.cells (cell a k) := by
  rw [netLocalSave, write_cells (Nat.lt_trans hk (by decide)) (by rw [Mem.length_read]; decide),
    Mem.getElem?_read hk, Option.getD_some, Nat.zero_add]

theorem netLocalSave_accesses : (netLocalSave bus a m e).accesses = e.accesses + netLocalAddrSize := by
  rw [netLocalSave, write_accesses, Mem.length_read]

theorem bootKeyCheck_cells (hk : k < netLocalAddrSize) (hk' : k < bootKeyOffset ∨ userCodeTypeOffset ≤ k) :
    (bootKeyCheck bus a m e).1 k = m k ∧ (bootKeyCheck bus a m e).2.cells (cell a k) =
      if bootKeyError m = true ∧ Answers bus (e.accesses + k) then m k else e.cells (cell a k) := by
  rw [bootKeyCheck]
  split
  · next h =>
    refine ⟨repairBootKey_of_kept hk', ?_⟩
    dsimp only
    simp only [netLocalSave_cells hk, repairBootKey_of_kept hk', h, true_and]
  · next h => exact ⟨rfl, by rw [if_neg fun hc => h hc.1]⟩

theorem bootKeyCheck_accesses : (bootKeyCheck bus a m e).2.accesses =
    e.accesses + if bootKeyError m = true then netLocalAddrSize else 0 := by
  rw [bootKeyCheck]
  split
  · exact netLocalSave_accesses
  · rfl

section
variable (hm : ∀ k, k < netLocalAddrSize → k ≠ macOffset + 5 → m k = asRead bus e a k)
include hm

theorem bootKeyError_eq : bootKeyError m = savesKey bus a e :=
  bootKeyError_congr fun k h1 h2 => hm k h2 (Nat.ne_of_gt (Nat.lt_of_lt_of_le (by decide) h1))

theorem bootVersionDiffers_eq {e' : Eeprom} :
    bootVersionDiffers (bootKeyCheck bus a m e').1 = savesVersion bus a e :=
  bootVersionDiffers_congr fun k h1 h2 =>
    (bootKeyCheck_cells (Nat.lt_trans h2 (by decide)) (.inl h2)).1.trans
      (hm k (Nat.lt_trans h2 (by decide)) (Nat.ne_of_gt (Nat.lt_of_lt_of_le (by decide) h1)))

end

/-- A byte outside the fields repaired: each save writes it as it was read, if its access is answered. -/
theorem netCfgInit_cells (hk : Kept k) : (netCfgInit bus a e).2.cells (cell a k) =
    if Rewritten bus a e k then asRead bus e a k else e.cells (cell a k) := by
  have hm : ∀ k, k < netLocalAddrSize → k ≠ macOffset + 5 →
      fillNetLocalAddr ((asRead bus e a).read 0 netLocalAddrSize) k = asRead bus e a k := fun k =>
    fillNetLocalAddr_of_ne
  rw [netCfgInit, read_eq]
  dsimp only
  generalize fillNetLocalAddr ((asRead bus e a).read 0 netLocalAddrSize) = m at hm ⊢
  obtain ⟨hb, hcell⟩ := @bootKeyCheck_cells bus a k { e with accesses := e.accesses + netLocalAddrSize } m hk.1
    (hk.2.2.imp (fun h => Nat.lt_trans h (by decide)) id)
  have hacc := @bootKeyCheck_accesses bus a { e with accesses := e.accesses + netLocalAddrSize } m
  rw [bootKeyError_eq hm, hm k hk.1 hk.2.1] at hcell
  rw [bootKeyError_eq hm] at hacc
  have hv : repairBootVersion (bootKeyCheck bus a m { e with accesses := e.accesses + netLocalAddrSize }).1 k =
      asRead bus e a k := by
    rw [repairBootVersion_of_kept (hk.2.2.imp id fun h => Nat.le_trans (by decide) h), hb, hm k hk.1 hk.2.1]
  rw [bootVersionDiffers_eq hm]
  cases hV : savesVersion bus a e with
  | true =>
    rw [if_pos rfl]
    dsimp only
    rw [netLocalSave_cells hk.1, hv, hcell, hacc]
    simp only [Rewritten, versionAccess, hV, true_and]
    by_cases hA : Answers bus (e.accesses + netLocalAddrSize +
        (if savesKey bus a e = true then netLocalAddrSize else 0) + k)
    · rw [if_pos hA, if_pos (.inr hA)]
    · simp only [hA, or_false, if_false]
  | false =>
    rw [if_neg Bool.false_ne_true, hcell]
    simp only [Rewritten, hV, Bool.false_eq_true, false_and, or_false]

/-- The bytes outside the fields repaired are kept if and only if each of them is safe. -/
theorem cfgInit_keeps_iff : (∀ k, Kept k → (netCfgInit bus a e).2.cells (cell a k) = e.cells (cell a k)) ↔
    ∀ k, Kept k → Safe bus a e k := by
  refine forall_congr' fun k => imp_congr_right fun hk => ?_
  rw [netCfgInit_cells hk, Safe]
  by_cases hr : Rewritten bus a e k
  · rw [if_pos hr, asRead]
    by_cases ha : Answers bus (e.accesses + k)
    · rw [if_pos ha]
      exact ⟨fun _ => .inl ha, fun _ => rfl⟩
    · rw [if_neg ha]
      constructor
      · exact fun h => .inr (.inl h.symm)
      · rintro (h | h | h)
        · exact absurd h ha
        · exact h.symm
        · exact absurd hr h
  · rw [if_neg hr]
    exact ⟨fun _ => .inr (.inr hr), fun _ => rfl⟩

/-- A valid configuration with the boot flag 1, whose reads of the flag and of the first letter of the key
fail: the repair of the key erases the flag. -/
theorem bootFlag_erased : ∃ (bus : I2cBus) (e : Eeprom), e.cells = eepromOf 1 ∧ Kept bootFlagOffset ∧
    (netCfgInit bus netEepromAddr e).2.cells (cell netEepromAddr bootFlagOffset) ≠
      e.cells (cell netEepromAddr bootFlagOffset) :=
  ⟨fun n _ => if n = bootFlagOffset ∨ n = bootKeyOffset then .rdevAckErr else .eok, ⟨eepromOf 1, 0⟩, rfl,
    by decide, by decide +kernel⟩

end Bootloader
