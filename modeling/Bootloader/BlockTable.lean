import Bootloader.Eeprom
import Bootloader.Lib.Layout

/-!
# The block table of the EEPROM

`SCFG_Init` checks a table of named blocks, `EEPB_GetAddr` finds the address of one. Both add up the sizes in
16 bits, so a table whose sizes wrap around passes the check.
-/

namespace Bootloader

/-- `sEepromBlockInfo`. -/
structure EepromBlockInfo where
  name : String
  size : UInt16

/-- What `SCFG_Init` prints. -/
inductive ScfgMessage
  | duplicateName (i j : Nat) (name : String)
  | overSize
deriving DecidableEq, Repr

/-- `EEPROM_STARTADDRESS`. -/
def eepromStartAddress : UInt16 := 0

/-! ### The check -/

/-- The inner loop of `SCFG_Init`: block `i` against the blocks from `j` on. -/
def sameNames (i : Nat) (name : String) : Nat → List EepromBlockInfo → List ScfgMessage
  | _, [] => []
  | j, b :: rest =>
    (if name = b.name then [.duplicateName i j name] else []) ++ sameNames i name (j + 1) rest

/-- The outer loop: what it prints, and `usedsize`. -/
def checkBlocks : Nat → UInt16 → List EepromBlockInfo → List ScfgMessage × UInt16
  | _, usedsize, [] => ([], usedsize)
  | i, usedsize, b :: rest =>
    let (messages, used) := checkBlocks (i + 1) (usedsize + b.size) rest
    (sameNames i b.name (i + 1) rest ++ messages, used)

def scfgInit (table : List EepromBlockInfo) : List ScfgMessage :=
  let (messages, usedsize) := checkBlocks 0 0 table
  messages ++ if eepromSize < usedsize.toNat then [.overSize] else []

/-! ### The address -/

/-- The loop of `EEPB_GetAddr`: `*iAddr` and `*iSize`, if the name is in the table. -/
def findBlock (iName : String) : UInt16 → List EepromBlockInfo → Option (UInt16 × UInt16)
  | _, [] => none
  | addr, b :: rest => if b.name = iName then some (addr, b.size) else findBlock iName (addr + b.size) rest

/-- `EEPB_GetAddr`, with the value it returns. -/
def eepbGetAddr (table : List EepromBlockInfo) (iName : String) : UInt16 × Option (UInt16 × UInt16) :=
  match findBlock iName eepromStartAddress table with
  | some (addr, size) => (addr, some (addr, size))
  | none => (0, none)

/-! ### What the table is for -/

def blockSizes (table : List EepromBlockInfo) : List Nat := table.map fun b => b.size.toNat

/-- The range of bytes that `EEPB_GetAddr` gives a name. -/
def blockRange (table : List EepromBlockInfo) (iName : String) : Option (Nat × Nat) :=
  (eepbGetAddr table iName).2.map fun r => (r.1.toNat, r.1.toNat + r.2.toNat)

/-- Every block has its range behind those before it; the ranges are disjoint and in the EEPROM. -/
structure Allocates (table : List EepromBlockInfo) : Prop where
  range : ∀ k (hk : k < table.length), blockRange table table[k].name =
    some (Layout.offset (blockSizes table) k, Layout.offset (blockSizes table) k + table[k].size.toNat)
  disjoint : ∀ i j (hi : i < table.length) (hj : j < table.length), i ≠ j →
    ∀ r ∈ blockRange table table[i].name, ∀ r' ∈ blockRange table table[j].name, r.2 ≤ r'.1 ∨ r'.2 ≤ r.1
  inside : ∀ k (hk : k < table.length), ∀ r ∈ blockRange table table[k].name, r.2 ≤ eepromSize

section
variable {table : List EepromBlockInfo} {i j k : Nat} {usedsize addr : UInt16} {name : String}

theorem length_blockSizes : (blockSizes table).length = table.length := List.length_map _

theorem getElem_blockSizes (hk : k < table.length) (hk' : k < (blockSizes table).length) :
    (blockSizes table)[k] = table[k].size.toNat := List.getElem_map _

theorem sameNames_eq_nil : sameNames i name j table = [] ↔ ∀ b ∈ table, b.name ≠ name := by
  induction table generalizing j with
  | nil => exact ⟨fun _ b hb => absurd hb List.not_mem_nil, fun _ => rfl⟩
  | cons b table ih =>
    rw [sameNames, List.append_eq_nil_iff, ih, List.forall_mem_cons]
    refine and_congr_left' ?_
    split
    · next h => exact ⟨(by rintro ⟨⟩), fun hne => absurd h.symm hne⟩
    · next h => exact ⟨fun _ he => h he.symm, fun _ => rfl⟩

theorem nodup_of_checkBlocks (h : (checkBlocks i usedsize table).1 = []) : (table.map (·.name)).Nodup := by
  induction table generalizing i usedsize with
  | nil => exact List.nodup_nil
  | cons b table ih =>
    rw [checkBlocks] at h
    obtain ⟨hb, hrest⟩ := List.append_eq_nil_iff.1 h
    refine List.nodup_cons.2 ⟨fun hmem => ?_, ih hrest⟩
    obtain ⟨b', hb', hname⟩ := List.mem_map.1 hmem
    exact sameNames_eq_nil.1 hb b' hb' hname

/-- `usedsize` is the sum of the sizes modulo `2^16`. -/
theorem checkBlocks_usedsize : (checkBlocks i usedsize table).2.toNat =
    (usedsize.toNat + (blockSizes table).sum) % 2 ^ 16 := by
  induction table generalizing i usedsize with
  | nil => exact (Nat.mod_eq_of_lt usedsize.toNat_lt).symm
  | cons b table ih =>
    rw [checkBlocks]
    refine ih.trans ?_
    rw [UInt16.toNat_add, Nat.mod_add_mod, Nat.add_assoc]; rfl

/-- The loop of `EEPB_GetAddr` finds a block at the sum of the sizes before it, modulo `2^16`. -/
theorem findBlock_of_nodup (hnd : (table.map (·.name)).Nodup) (hk : k < table.length) :
    ∃ a, findBlock table[k].name addr table = some (a, table[k].size) ∧
      a.toNat = (addr.toNat + Layout.offset (blockSizes table) k) % 2 ^ 16 := by
  induction table generalizing addr k with
  | nil => exact absurd hk (Nat.not_lt_zero k)
  | cons b table ih =>
    obtain ⟨hb, hnd⟩ := List.nodup_cons.1 hnd
    rw [findBlock]
    cases k with
    | zero =>
      rw [List.getElem_cons_zero, if_pos rfl, Layout.offset_zero, Nat.add_zero]
      exact ⟨addr, rfl, (Nat.mod_eq_of_lt addr.toNat_lt).symm⟩
    | succ k =>
      have hk : k < table.length := Nat.lt_of_succ_lt_succ hk
      have hne : b.name ≠ table[k].name := fun he => hb (List.mem_map.2 ⟨_, List.getElem_mem hk, he.symm⟩)
      obtain ⟨a, ha, hval⟩ := @ih k (addr + b.size) hnd hk
      rw [List.getElem_cons_succ, if_neg hne]
      refine ⟨a, ha, hval.trans ?_⟩
      rw [UInt16.toNat_add, Nat.mod_add_mod, Nat.add_assoc]
      exact congrArg (fun x => (addr.toNat + x) % 2 ^ 16) Layout.offset_cons_succ.symm

theorem blockRange_of_nodup (hnd : (table.map (·.name)).Nodup) (hk : k < table.length) :
    blockRange table table[k].name = some (Layout.offset (blockSizes table) k % 2 ^ 16,
      Layout.offset (blockSizes table) k % 2 ^ 16 + table[k].size.toNat) := by
  obtain ⟨a, ha, hval⟩ := @findBlock_of_nodup table k eepromStartAddress hnd hk
  rw [show eepromStartAddress.toNat = 0 from rfl, Nat.zero_add] at hval
  rw [blockRange, eepbGetAddr, ha, ← hval]; rfl

/-- A table without a message: its names are different and its sizes fit modulo `2^16`. -/
theorem of_scfgInit (h : scfgInit table = []) :
    (table.map (·.name)).Nodup ∧ (blockSizes table).sum % 2 ^ 16 ≤ eepromSize := by
  rw [scfgInit] at h
  obtain ⟨hnames, hsize⟩ := List.append_eq_nil_iff.1 h
  refine ⟨nodup_of_checkBlocks hnames, Nat.le_of_not_lt fun hgt => ?_⟩
  have hu := @checkBlocks_usedsize table 0 0
  rw [show (0 : UInt16).toNat = 0 from rfl, Nat.zero_add] at hu
  rw [if_pos (by rw [hu]; exact hgt)] at hsize
  cases hsize

theorem end_le_sum (hk : k < table.length) :
    Layout.offset (blockSizes table) k + table[k].size.toNat ≤ (blockSizes table).sum := by
  have hk' : k < (blockSizes table).length := length_blockSizes.symm ▸ hk
  rw [← getElem_blockSizes hk hk']
  exact Layout.end_le_sum hk'

theorem end_le_offset (hi : i < table.length) (hij : i < j) :
    Layout.offset (blockSizes table) i + table[i].size.toNat ≤ Layout.offset (blockSizes table) j := by
  have hi' : i < (blockSizes table).length := length_blockSizes.symm ▸ hi
  rw [← getElem_blockSizes hi hi']
  exact Layout.end_le_offset hi' hij

theorem exists_end (h : 0 < (blockSizes table).sum) : ∃ k, ∃ hk : k < table.length,
    Layout.offset (blockSizes table) k + table[k].size.toNat = (blockSizes table).sum := by
  obtain ⟨k, hk', hend⟩ := Layout.exists_end h
  have hk : k < table.length := length_blockSizes ▸ hk'
  exact ⟨k, hk, by rwa [getElem_blockSizes hk hk'] at hend⟩

/-- A table that `SCFG_Init` accepts is allocated as it should be if and only if its sizes do not wrap around. -/
theorem allocates_iff (h : scfgInit table = []) : Allocates table ↔ (blockSizes table).sum < 2 ^ 16 := by
  obtain ⟨hnd, hused⟩ := of_scfgInit h
  constructor
  · intro ha
    by_contra hge
    obtain ⟨k, hk, hend⟩ := @exists_end table (by omega)
    have hin := ha.inside k hk _ (ha.range k hk)
    unfold eepromSize at hin
    dsimp only at hin
    omega
  · intro hlt
    have hsum : (blockSizes table).sum ≤ eepromSize := by rwa [Nat.mod_eq_of_lt hlt] at hused
    have hrange : ∀ k (hk : k < table.length), blockRange table table[k].name =
        some (Layout.offset (blockSizes table) k,
          Layout.offset (blockSizes table) k + table[k].size.toNat) := fun k hk => by
      have hend := end_le_sum hk
      rw [blockRange_of_nodup hnd hk, Nat.mod_eq_of_lt (by omega)]
    refine ⟨hrange, fun i j hi hj hij r hr r' hr' => ?_, fun k hk r hr => ?_⟩
    · rw [hrange i hi] at hr
      rw [hrange j hj] at hr'
      cases hr
      cases hr'
      rcases Nat.lt_or_gt_of_ne hij with hlt | hgt
      · exact .inl (end_le_offset hi hlt)
      · exact .inr (end_le_offset hj hgt)
    · rw [hrange k hk] at hr
      cases hr
      exact Nat.le_trans (end_le_sum hk) hsum

end

/-- The table of the boot loader. -/
def eepromBlockInfo : List EepromBlockInfo := [⟨"IP", 100⟩]

/-- The table of the boot loader with two blocks behind it, which fill the EEPROM. -/
theorem allocates_eepromBlockInfo : Allocates (eepromBlockInfo ++ [⟨"ResCal", 4000⟩, ⟨"Res4WCal", 4092⟩]) :=
  (allocates_iff (by decide)).2 (by decide)

/-- Two blocks of 40000 and 30000 bytes: the sum wraps around to 4464. -/
theorem not_allocates_of_wrap : scfgInit [⟨"a", 40000⟩, ⟨"b", 30000⟩] = [] ∧
    ¬ Allocates [⟨"a", 40000⟩, ⟨"b", 30000⟩] :=
  ⟨by decide, fun h => absurd (h.inside 0 (by decide) (0, 40000) (by decide)) (by decide)⟩

end Bootloader
