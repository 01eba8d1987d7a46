import Bootloader.ConfigRepair

/-!
# The configuration after a boot

`NET_CfgInit` over an EEPROM whose reads succeed, for every content of the block. A string of `NetLocalAddr`
without a NUL goes on in the RAM behind the structure; `behind` are the bytes there. A second boot finds
nothing to repair.
-/

namespace Bootloader
open Eeprom

/-- The string that starts at an offset of the structure, with the RAM behind it. -/
def cStringIn (behind : List UInt8) (netLocalAddr : Mem) (offset : Nat) : List UInt8 :=
  (netLocalAddr.read offset (netLocalAddrSize - offset) ++ behind).takeWhile (· ≠ 0)

/-- The test of `BootKeyCheck`; `atoi` may read on behind the structure. -/
def bootKeyErrorIn (behind : List UInt8) (netLocalAddr : Mem) : Bool :=
  let iPin (k : Nat) := netLocalAddr (bootKeyOffset + k)
  decide (iPin 0 ≠ 0x50) || decide (iPin 1 < 0x41) || decide (0x49 < iPin 1) || decide (iPin 2 < 0x30) ||
    decide (0x39 < iPin 2) || decide (15 < atoi (cStringIn behind netLocalAddr (bootKeyOffset + 2)))

def bootKeyCheckIn (behind : List UInt8) (bus : I2cBus) (iEepromAddr : Nat) (netLocalAddr : Mem) (e : Eeprom) :
    Mem × Eeprom :=
  if bootKeyErrorIn behind netLocalAddr then
    (repairBootKey netLocalAddr, netLocalSave bus iEepromAddr (repairBootKey netLocalAddr) e)
  else (netLocalAddr, e)

def netCfgInitIn (behind : List UInt8) (bus : I2cBus) (iEepromAddr : Nat) (e : Eeprom) : Mem × Eeprom :=
  let (iBuf, e) := read bus iEepromAddr netLocalAddrSize e
  let (netLocalAddr, e) := bootKeyCheckIn behind bus iEepromAddr (fillNetLocalAddr iBuf) e
  if bootVersionDiffers netLocalAddr then
    (repairBootVersion netLocalAddr, netLocalSave bus iEepromAddr (repairBootVersion netLocalAddr) e)
  else (netLocalAddr, e)

/-! ### The structure behind NET_CfgInit -/

/-- The bytes of the block at the address `a`. -/
def blockAt (e : Eeprom) (a : Nat) : Mem := fun k => e.cells (cell a k)

/-- The structure as it has been read. -/
def configOf (block : Mem) : Mem := fillNetLocalAddr (block.read 0 netLocalAddrSize)

section
variable (behind : List UInt8) (m : Mem)

def withBootKey : Mem := if bootKeyErrorIn behind m then repairBootKey m else m

/-- The structure with the key and the version repaired. -/
def repaired : Mem :=
  if bootVersionDiffers (withBootKey behind m) then repairBootVersion (withBootKey behind m) else withBootKey behind m

/-- `NET_CfgInit` saves the structure. -/
def saves : Bool := bootKeyErrorIn behind m || bootVersionDiffers (withBootKey behind m)

end

variable {behind : List UInt8} {bus : I2cBus} {a k offset : Nat} {e : Eeprom} {m m' block : Mem}

/-- Where strings end with the structure, this is the `NET_CfgInit` of `Bootloader.ConfigRepair`. -/
theorem netCfgInitIn_nil : netCfgInitIn [] bus a e = netCfgInit bus a e := by
  have hstr : ∀ m offset, cStringIn [] m offset = cString m offset := fun m offset => by
    rw [cStringIn, List.append_nil, cString]
  simp only [netCfgInitIn, bootKeyCheckIn, bootKeyErrorIn, hstr]
  rfl

theorem bootKeyErrorIn_congr (h : ∀ k, bootKeyOffset ≤ k → k < netLocalAddrSize → m k = m' k) :
    bootKeyErrorIn behind m = bootKeyErrorIn behind m' := by
  have hpin : ∀ k, k < 3 → m (bootKeyOffset + k) = m' (bootKeyOffset + k) := fun k hk =>
    h _ (Nat.le_add_right _ _) (by unfold bootKeyOffset netLocalAddrSize; omega)
  have hstr : cStringIn behind m (bootKeyOffset + 2) = cStringIn behind m' (bootKeyOffset + 2) := by
    rw [cStringIn, cStringIn, Mem.read_congr fun k h1 h2 => h k (by omega) (by omega)]
  simp only [bootKeyErrorIn, hstr, hpin 0 (by decide), hpin 1 (by decide), hpin 2 (by decide)]

theorem configOf_of_ne (hk : k < netLocalAddrSize) (hne : k ≠ macOffset + 5) : configOf block k = block k := by
  have h := Mem.write_of_mem (m := fun _ => 0) (a := 0) (l := block.read 0 netLocalAddrSize) (k := k)
    (by rwa [Mem.length_read])
  rw [Mem.getElem_read, Nat.zero_add] at h
  rw [configOf, fillNetLocalAddr, Mem.write_of_ne hne, h]

theorem configOf_mac : configOf block (macOffset + 5) = block (ipOffset + 3) := by
  rw [configOf, fillNetLocalAddr, Mem.write_self]; rfl

theorem configOf_of_ge (hk : netLocalAddrSize ≤ k) : configOf block k = 0 := by
  have hne : k ≠ macOffset + 5 := Nat.ne_of_gt (Nat.lt_of_lt_of_le (by decide) hk)
  rw [configOf, fillNetLocalAddr, Mem.write_of_ne hne, Mem.write_of_ge (by rwa [Mem.length_read, Nat.zero_add])]

theorem configOf_congr (h : ∀ k < netLocalAddrSize, block k = m k) : configOf block = configOf m := by
  rw [configOf, configOf, Mem.read_congr fun k _ hk => h k (by omega)]

/-! ### The repairs -/

theorem withBootKey_of_kept (hk : k < bootKeyOffset ∨ userCodeTypeOffset ≤ k) : withBootKey behind m k = m k := by
  rw [withBootKey]
  split
  · exact repairBootKey_of_kept hk
  · rfl

theorem repaired_of_kept (hk : k < bootVersionOffset ∨ bootKeyOffset ≤ k) :
    repaired behind m k = withBootKey behind m k := by
  rw [repaired]
  split
  · exact repairBootVersion_of_kept hk
  · rfl

/-- Outside the version and the key the structure stays as it has been read. -/
theorem repaired_of_other (hk : k < bootVersionOffset ∨ userCodeTypeOffset ≤ k) : repaired behind m k = m k := by
  rw [repaired_of_kept (hk.imp_right fun h => Nat.le_trans (by decide) h),
    withBootKey_of_kept (hk.imp_left fun h => Nat.lt_trans h (by decide))]

theorem repairBootKey_read : (repairBootKey m).read bootKeyOffset 4 = defaultBootKey :=
  Mem.read_write (l := defaultBootKey)

/-- A string that begins with the bytes `l` and a NUL. -/
theorem cStringIn_of_read {l : List UInt8} (hl : ∀ c ∈ l, c ≠ 0)
    (hfit : offset + l.length < netLocalAddrSize) (h : m.read offset (l.length + 1) = l ++ [0]) :
    cStringIn behind m offset = l := by
  have hsplit : netLocalAddrSize - offset = l.length + 1 + (netLocalAddrSize - offset - (l.length + 1)) := by omega
  rw [cStringIn, hsplit, Mem.read_add, h, List.append_assoc, List.append_assoc,
    List.takeWhile_append_of_pos fun c hc => decide_eq_true (hl c hc), List.singleton_append,
    List.takeWhile_cons_of_neg (by simp), List.append_nil]

theorem repairBootKey_string : cStringIn behind (repairBootKey m) (bootKeyOffset + 2) = [0x38] := by
  have h : (repairBootKey m).read bootKeyOffset (2 + 2) = [0x50, 0x42] ++ [0x38, 0] := repairBootKey_read
  rw [Mem.read_add] at h
  have h2 : (repairBootKey m).read (bootKeyOffset + 2) 2 = [0x38] ++ [0] := List.append_inj_right h Mem.length_read
  exact cStringIn_of_read (List.forall_mem_singleton.2 (by decide)) (by decide) h2

theorem bootKeyErrorIn_repairBootKey : bootKeyErrorIn behind (repairBootKey m) = false := by
  have hpin := (Mem.read_eq_iff (l := defaultBootKey)).1 (repairBootKey_read (m := m))
  have h0 : repairBootKey m (bootKeyOffset + 0) = 0x50 := hpin 0 (by decide)
  have h1 : repairBootKey m (bootKeyOffset + 1) = 0x42 := hpin 1 (by decide)
  have h2 : repairBootKey m (bootKeyOffset + 2) = 0x38 := hpin 2 (by decide)
  rw [bootKeyErrorIn, repairBootKey_string]
  simp only [h0, h1, h2]
  decide

/-- The key passes the test behind the repair. -/
theorem bootKeyErrorIn_repaired : bootKeyErrorIn behind (repaired behind m) = false := by
  rw [bootKeyErrorIn_congr fun k hk _ => repaired_of_kept (.inr hk), withBootKey]
  split
  · exact bootKeyErrorIn_repairBootKey
  · next h => exact Bool.not_eq_true _ ▸ h

theorem bootVersionDiffers_repaired : bootVersionDiffers (repaired behind m) = false := by
  rw [repaired]
  split
  · rw [bootVersionDiffers, repairBootVersion, show 5 = bootVersion.length from rfl, Mem.read_write, bne_self_eq_false]
  · next h => exact Bool.not_eq_true _ ▸ h

theorem repaired_of_saves (h : saves behind m = false) : repaired behind m = m := by
  obtain ⟨hkey, hver⟩ := Bool.or_eq_false_iff.1 h
  rw [repaired, hver, if_neg Bool.false_ne_true, withBootKey, hkey, if_neg Bool.false_ne_true]

theorem saves_repaired : saves behind (repaired behind m) = false := by
  have hkey : withBootKey behind (repaired behind m) = repaired behind m := by
    rw [withBootKey, bootKeyErrorIn_repaired, if_neg Bool.false_ne_true]
  rw [saves, hkey, bootKeyErrorIn_repaired, bootVersionDiffers_repaired, Bool.or_false]

/-- A structure that has been saved is read back as it is. -/
theorem configOf_repaired : configOf (repaired behind (configOf block)) = repaired behind (configOf block) := by
  funext k
  by_cases hk : k < netLocalAddrSize
  · by_cases hmac : k = macOffset + 5
    · rw [hmac, configOf_mac, repaired_of_other (.inl (by decide)), repaired_of_other (.inl (by decide)),
        configOf_mac, configOf_of_ne (by decide) (by decide)]
    · exact configOf_of_ne hk hmac
  · have hk := Nat.le_of_not_lt hk
    rw [configOf_of_ge hk, repaired_of_other (.inr (Nat.le_trans (by decide) hk)), configOf_of_ge hk]

/-! ### What NET_CfgInit does -/

/-- The reads succeed: the structure is that of the block, repaired. -/
theorem netCfgInitIn_config (h : ∀ k < netLocalAddrSize, Answers bus (e.accesses + k)) :
    (netCfgInitIn behind bus a e).1 = repaired behind (configOf (blockAt e a)) := by
  have hread : (asRead bus e a).read 0 netLocalAddrSize = (blockAt e a).read 0 netLocalAddrSize :=
    Mem.read_congr fun k _ hk => if_pos (h k (by omega))
  rw [netCfgInitIn, read_eq, hread, repaired, withBootKey]
  dsimp only
  rw [← configOf, bootKeyCheckIn]
  split
  · dsimp only
    split <;> rfl
  · dsimp only
    split <;> rfl

section
variable (hbus : ∀ n, Answers bus n)
include hbus

theorem netLocalSave_eq (hk : k < eepromSize) : (netLocalSave bus a m e).cells (cell a k) =
    if k < netLocalAddrSize then m k else e.cells (cell a k) := by
  rw [netLocalSave, write_cells hk (by rw [Mem.length_read]; decide), if_pos (hbus _)]
  split
  · next hlt => rw [Mem.getElem?_read hlt, Option.getD_some, Nat.zero_add]
  · next hge => rw [List.getElem?_eq_none (by rw [Mem.length_read]; omega), Option.getD_none]

/-- The cells behind `NET_CfgInit`: those of the structure, if it is saved. -/
theorem netCfgInitIn_cells (hk : k < eepromSize) : (netCfgInitIn behind bus a e).2.cells (cell a k) =
    if k < netLocalAddrSize ∧ saves behind (configOf (blockAt e a)) = true then
      repaired behind (configOf (blockAt e a)) k
    else e.cells (cell a k) := by
  have hread : (asRead bus e a).read 0 netLocalAddrSize = (blockAt e a).read 0 netLocalAddrSize :=
    Mem.read_congr fun k _ _ => if_pos (hbus _)
  rw [netCfgInitIn, read_eq, hread]
  dsimp only
  rw [← configOf, saves, repaired]
  generalize configOf (blockAt e a) = m
  rw [withBootKey, bootKeyCheckIn]
  cases hkey : bootKeyErrorIn behind m with
  | true =>
    simp only [if_true, Bool.true_or, and_true]
    split
    · rw [netLocalSave_eq hbus hk, netLocalSave_eq hbus hk]
      split <;> rfl
    · rw [netLocalSave_eq hbus hk]
  | false =>
    simp only [Bool.false_eq_true, if_false, Bool.false_or]
    split
    · next h => rw [netLocalSave_eq hbus hk]; simp only [h, and_true]
    · next h => rw [if_neg fun hc => h hc.2]

/-- A boot that has nothing to save makes the accesses of the read only. -/
theorem netCfgInitIn_of_saves (h : saves behind (configOf (blockAt e a)) = false) :
    netCfgInitIn behind bus a e =
      (configOf (blockAt e a), { e with accesses := e.accesses + netLocalAddrSize }) := by
  have hread : (asRead bus e a).read 0 netLocalAddrSize = (blockAt e a).read 0 netLocalAddrSize :=
    Mem.read_congr fun k _ _ => if_pos (hbus _)
  obtain ⟨hkey, hver⟩ := Bool.or_eq_false_iff.1 h
  rw [withBootKey, hkey, if_neg Bool.false_ne_true] at hver
  rw [netCfgInitIn, read_eq, hread]
  dsimp only
  rw [← configOf, bootKeyCheckIn, hkey, if_neg Bool.false_ne_true]
  dsimp only
  rw [hver, if_neg Bool.false_ne_true]

/-- The next boot reads the structure of this one and writes nothing; this one has changed the last byte of the
MAC address, the version and the key at most. -/
theorem netCfgInitIn_converges :
    netCfgInitIn behind bus a (netCfgInitIn behind bus a e).2 = ((netCfgInitIn behind bus a e).1,
      { (netCfgInitIn behind bus a e).2 with
        accesses := (netCfgInitIn behind bus a e).2.accesses + netLocalAddrSize }) ∧
    ∀ k < eepromSize, (netCfgInitIn behind bus a e).2.cells (cell a k) ≠ e.cells (cell a k) →
      k = macOffset + 5 ∨ bootVersionOffset ≤ k ∧ k < userCodeTypeOffset := by
  have hconfig : (netCfgInitIn behind bus a e).1 = repaired behind (configOf (blockAt e a)) :=
    netCfgInitIn_config fun k _ => hbus _
  have hcells : ∀ k < eepromSize, (netCfgInitIn behind bus a e).2.cells (cell a k) =
      if k < netLocalAddrSize ∧ saves behind (configOf (blockAt e a)) = true then
        repaired behind (configOf (blockAt e a)) k
      else e.cells (cell a k) := fun k hk => netCfgInitIn_cells hbus hk
  have hnext : configOf (blockAt (netCfgInitIn behind bus a e).2 a) = repaired behind (configOf (blockAt e a)) := by
    cases hs : saves behind (configOf (blockAt e a)) with
    | true =>
      rw [configOf_congr (m := repaired behind (configOf (blockAt e a))) fun k hk => ?_, configOf_repaired]
      rw [blockAt, hcells k (Nat.lt_trans hk (by decide)), if_pos ⟨hk, hs⟩]
    | false =>
      rw [configOf_congr (m := blockAt e a) fun k hk => ?_, repaired_of_saves hs]
      rw [blockAt, hcells k (Nat.lt_trans hk (by decide)), if_neg fun hc => by rw [hs] at hc; cases hc.2]; rfl
  constructor
  · rw [netCfgInitIn_of_saves hbus (by rw [hnext]; exact saves_repaired), hnext, hconfig]
  · intro k hk hne
    rw [hcells k hk] at hne
    by_contra hkept
    split at hne
    · next hs =>
      rw [repaired_of_other (by omega), configOf_of_ne hs.1 (by omega)] at hne
      exact hne rfl
    · exact hne rfl

end

/-- A block of zeroes: its key and its version are repaired. -/
theorem netCfgInitIn_converges_zero :
    (netCfgInitIn [] (fun _ _ => .eok) 0 ⟨fun _ => 0, 0⟩).1.read bootKeyOffset 4 = defaultBootKey ∧
    netCfgInitIn [] (fun _ _ => .eok) 0 (netCfgInitIn [] (fun _ _ => .eok) 0 ⟨fun _ => 0, 0⟩).2 =
      ((netCfgInitIn [] (fun _ _ => .eok) 0 ⟨fun _ => 0, 0⟩).1,
        { (netCfgInitIn [] (fun _ _ => .eok) 0 ⟨fun _ => 0, 0⟩).2 with
          accesses := (netCfgInitIn [] (fun _ _ => .eok) 0 ⟨fun _ => 0, 0⟩).2.accesses + netLocalAddrSize }) :=
  ⟨by decide +kernel, (netCfgInitIn_converges fun _ => ⟨0, by decide, rfl⟩).1⟩

end Bootloader
