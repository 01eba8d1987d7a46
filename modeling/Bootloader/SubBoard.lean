import Bootloader.Lib.Transition

/-!
# The sub-boards

`bsp_sub.c`: the register cache `SubReg` and the calls on it, over fourteen boards with 64 byte registers
that take command words over SPI: bit 14 says whether the low byte is stored in the register of bits 8 to 13.
A call runs with interrupts disabled.
-/

namespace Bootloader

def subBoardNum : Nat := 14

def fsubRegMaxNum : Nat := 64

def trapValue8 : UInt8 := 0xAA

/-- The chip-select lines of the two groups of boards, CS1 as the lowest bit, and NSS. -/
structure SubLines where
  sub1 : Nat
  sub2 : Nat
  nss : Bool
deriving DecidableEq, Repr

/-- `SubReg`, a register at each even index with a trap value behind it, the lines, and the boards' registers. -/
structure Sub where
  subReg : Nat → Nat → UInt8
  lines : SubLines
  device : Nat → Nat → UInt8

inductive SubAct
  | writeByte (iRegAddr : Nat) (iData : UInt8) (iSubSite : Nat)
  | readByte (iRegAddr iSubSite : Nat)
  | setBit (iRegAddr iBit iSubSite : Nat)
  | resetBit (iRegAddr iBit iSubSite : Nat)
  | setBits (iRegAddr : Nat) (iBits : UInt8) (iSubSite : Nat)
  | resetBits (iRegAddr : Nat) (iBits : UInt8) (iSubSite : Nat)
  | getBit (iRegAddr iBit iSubSite : Nat)

namespace SubLines

/-- Behind `Disable_SUB1` and `Disable_SUB2`. -/
def disabled : SubLines := ⟨7, 7, true⟩

/-- `Enable_SUB1_1` to `Enable_SUB2_7`. -/
def enable (iSubSite : Nat) (l : SubLines) : SubLines :=
  if iSubSite < 7 then { l with sub1 := iSubSite, nss := false } else { l with sub2 := iSubSite - 7, nss := false }

/-- `Disable_SUB1` or `Disable_SUB2`. -/
def disable (iSubSite : Nat) (l : SubLines) : SubLines :=
  if iSubSite < 7 then { l with sub1 := 7, nss := true } else { l with sub2 := 7, nss := true }

/-- The board that the decoders of the two groups select. -/
def selected (l : SubLines) : Option Nat :=
  if l.nss then none else if l.sub1 < 7 then some l.sub1 else if l.sub2 < 7 then some (7 + l.sub2) else none

end SubLines

namespace Sub

/-- What a board does with a command word. -/
def answer (cmd : Nat) (regs : Nat → UInt8) : UInt8 × (Nat → UInt8) :=
  let reg := cmd / 2 ^ 8 % 2 ^ 6
  (regs reg, if cmd.testBit 14 then Function.update regs reg (UInt8.ofNat cmd) else regs)

/-- `FPGA_SendData`; the caller has checked the site. -/
def fpgaSendData (cmd iSubSite : Nat) (s : Sub) : UInt8 × Sub :=
  let lines := s.lines.enable iSubSite
  match lines.selected with
  | some site =>
    let (recv, regs) := answer cmd (s.device site)
    (recv, { s with device := Function.update s.device site regs, lines := lines.disable iSubSite })
  | none => (0, { s with lines := lines.disable iSubSite })

def setReg (iRegAddr iSubSite : Nat) (v : UInt8) (s : Sub) : Sub :=
  { s with subReg := Function.update s.subReg iSubSite (Function.update (s.subReg iSubSite) (2 * iRegAddr) v) }

/-- `FPGA_WR_CMD` and `FPGA_RD_CMD` with a register, and the byte written. -/
def cmdWord (wr iRegAddr : Nat) (v : UInt8) : Nat := ((wr <<< 6) ||| iRegAddr) <<< 8 ||| v.toNat

/-- The calls that change a register: `f` on the cache, then the new value to the board. A trap value that is
gone stops the program. -/
def modify (f : UInt8 → UInt8) (iRegAddr iSubSite : Nat) (s : Sub) : Option Sub :=
  if fsubRegMaxNum ≤ iRegAddr then some s
  else if subBoardNum ≤ iSubSite then some s
  else if s.subReg iSubSite (2 * iRegAddr + 1) ≠ trapValue8 then none
  else
    let v := f (s.subReg iSubSite (2 * iRegAddr))
    some (fpgaSendData (cmdWord 1 iRegAddr v) iSubSite (s.setReg iRegAddr iSubSite v)).2

def subWriteByte (iRegAddr : Nat) (iData : UInt8) (iSubSite : Nat) : Sub → Option Sub :=
  modify (fun _ => iData) iRegAddr iSubSite

def subSetBit (iRegAddr iBit iSubSite : Nat) : Sub → Option Sub :=
  modify (fun v => v ||| UInt8.ofNat (1 <<< iBit)) iRegAddr iSubSite

def subResetBit (iRegAddr iBit iSubSite : Nat) : Sub → Option Sub :=
  modify (fun v => v &&& ~~~ UInt8.ofNat (1 <<< iBit)) iRegAddr iSubSite

def subSetBits (iRegAddr : Nat) (iBits : UInt8) (iSubSite : Nat) : Sub → Option Sub :=
  modify (fun v => v ||| iBits) iRegAddr iSubSite

def subResetBits (iRegAddr : Nat) (iBits : UInt8) (iSubSite : Nat) : Sub → Option Sub :=
  modify (fun v => v &&& iBits) iRegAddr iSubSite

def subReadByte (iRegAddr iSubSite : Nat) (s : Sub) : Option (UInt8 × Sub) :=
  if fsubRegMaxNum ≤ iRegAddr then some (0, s)
  else if subBoardNum ≤ iSubSite then some (0, s)
  else if s.subReg iSubSite (2 * iRegAddr + 1) ≠ trapValue8 then none
  else
    let (value, s) := fpgaSendData (cmdWord 0 iRegAddr 0) iSubSite s
    some (value, s.setReg iRegAddr iSubSite value)

/-- `SUB_GetBit`, which reads as `SUB_ReadByte` does. -/
def subGetBit (iRegAddr iBit iSubSite : Nat) (s : Sub) : Option (UInt8 × Sub) :=
  (subReadByte iRegAddr iSubSite s).map fun (value, s) =>
    (UInt8.ofNat ((value.toNat &&& 1 <<< iBit) >>> iBit), s)

/-- A call and what it returns, 0 for the calls without a result. -/
def call : SubAct → Sub → Option (UInt8 × Sub)
  | .writeByte iRegAddr iData iSubSite, s => (subWriteByte iRegAddr iData iSubSite s).map (0, ·)
  | .readByte iRegAddr iSubSite, s => subReadByte iRegAddr iSubSite s
  | .setBit iRegAddr iBit iSubSite, s => (subSetBit iRegAddr iBit iSubSite s).map (0, ·)
  | .resetBit iRegAddr iBit iSubSite, s => (subResetBit iRegAddr iBit iSubSite s).map (0, ·)
  | .setBits iRegAddr iBits iSubSite, s => (subSetBits iRegAddr iBits iSubSite s).map (0, ·)
  | .resetBits iRegAddr iBits iSubSite, s => (subResetBits iRegAddr iBits iSubSite s).map (0, ·)
  | .getBit iRegAddr iBit iSubSite, s => subGetBit iRegAddr iBit iSubSite s

/-! ### SUB_Init -/

/-- `SubReg` behind `memset` and the loop that sets the trap values. -/
def trapReg : Nat → Nat → UInt8 := fun _ j => if j % 2 = 1 then trapValue8 else 0

/-- The reads of all registers in `SUB_Init`. -/
def configReads : List SubAct :=
  (List.range subBoardNum).flatMap fun i => (List.range fsubRegMaxNum).map fun j => .readByte j i

/-- The reads of `SUB_Init`: every register of every board, then the type of every board. -/
def initReads : List SubAct := configReads ++ (List.range subBoardNum).map fun i => .readByte 0x3F i

def calls : List SubAct → Sub → Option Sub
  | [], s => some s
  | a :: as, s =>
    match call a s with
    | some (_, s) => calls as s
    | none => none

/-- `SUB_Init` over boards with the registers `device`. -/
def subInit (device : Nat → Nat → UInt8) : Option Sub := calls initReads ⟨trapReg, .disabled, device⟩

/-- The program behind `SUB_Init`. -/
def system : Lts Sub SubAct where
  init s := ∃ device, subInit device = some s
  step a s := (call a s).map (·.2)

/-! ### A transfer -/

variable {s s' : Sub} {reg site : Nat} {v : UInt8} {f g : UInt8 → UInt8}

theorem enable_selected (h : site < subBoardNum) : (SubLines.disabled.enable site).selected = some site ∧
    (SubLines.disabled.enable site).disable site = .disabled := by
  unfold subBoardNum at h
  unfold SubLines.enable SubLines.disable SubLines.selected SubLines.disabled
  split
  · next h7 =>
    refine ⟨?_, rfl⟩
    dsimp only
    rw [if_neg Bool.false_ne_true]
  · next h7 =>
    refine ⟨?_, rfl⟩
    dsimp only
    rw [if_neg Bool.false_ne_true, if_neg (by decide), if_pos (by omega), Nat.add_sub_cancel' (by omega)]

theorem cmdWord_eq {wr : Nat} (h : reg < fsubRegMaxNum) :
    cmdWord wr reg v = wr * 2 ^ 14 + reg * 2 ^ 8 + v.toNat := by
  have hv := v.toNat_lt
  unfold fsubRegMaxNum at h
  rw [cmdWord, ← Nat.shiftLeft_add_eq_or_of_lt (i := 6) (b := reg) h, ← Nat.shiftLeft_add_eq_or_of_lt (i := 8) hv,
    Nat.shiftLeft_eq, Nat.shiftLeft_eq]
  omega

theorem answer_write {regs : Nat → UInt8} (h : reg < fsubRegMaxNum) :
    (answer (cmdWord 1 reg v) regs).2 = Function.update regs reg v := by
  have hv := v.toNat_lt
  unfold fsubRegMaxNum at h
  have hreg : cmdWord 1 reg v / 2 ^ 8 % 2 ^ 6 = reg := by rw [cmdWord_eq h]; omega
  have hbit : (cmdWord 1 reg v).testBit 14 = true := by
    rw [Nat.testBit_eq_decide_div_mod_eq, decide_eq_true_eq, cmdWord_eq h]; omega
  have hbyte : UInt8.ofNat (cmdWord 1 reg v) = v := by
    apply UInt8.toNat_inj.1
    rw [UInt8.toNat_ofNat', cmdWord_eq h]
    omega
  rw [answer, hreg, hbit, hbyte]; rfl

theorem answer_read {regs : Nat → UInt8} (h : reg < fsubRegMaxNum) :
    answer (cmdWord 0 reg 0) regs = (regs reg, regs) := by
  unfold fsubRegMaxNum at h
  have hreg : cmdWord 0 reg 0 / 2 ^ 8 % 2 ^ 6 = reg := by rw [cmdWord_eq h, UInt8.toNat_zero]; omega
  have hbit : (cmdWord 0 reg 0).testBit 14 = false := by
    rw [Nat.testBit_eq_decide_div_mod_eq, decide_eq_false_iff_not, cmdWord_eq h, UInt8.toNat_zero]; omega
  rw [answer, hreg, hbit]; rfl

/-! ### What a call does -/

/-- The trap values are there, and no board is selected. -/
structure Ready (s : Sub) : Prop where
  lines : s.lines = .disabled
  trap : ∀ i < subBoardNum, ∀ j < fsubRegMaxNum, s.subReg i (2 * j + 1) = trapValue8

/-- `SubReg` holds the registers of the boards. -/
structure Inv (s : Sub) : Prop extends Ready s where
  cache : ∀ i < subBoardNum, ∀ j < fsubRegMaxNum, s.subReg i (2 * j) = s.device i j

/-- The register `reg` of a board is `v`, in the cache and on the board. -/
def put (reg site : Nat) (v : UInt8) (s : Sub) : Sub :=
  { s.setReg reg site v with device := Function.update s.device site (Function.update (s.device site) reg v) }

theorem modify_eq (h : Ready s) (hr : reg < fsubRegMaxNum) (hs : site < subBoardNum) :
    modify f reg site s = some (s.put reg site (f (s.subReg site (2 * reg)))) := by
  obtain ⟨hsel, hdis⟩ := enable_selected hs
  rw [modify, if_neg (Nat.not_le_of_gt hr), if_neg (Nat.not_le_of_gt hs), if_neg fun hc => hc (h.trap site hs reg hr)]
  dsimp only
  rw [fpgaSendData, show (s.setReg reg site (f (s.subReg site (2 * reg)))).lines = .disabled from h.lines]
  dsimp only
  rw [hsel, hdis, ← h.lines]
  dsimp only
  rw [answer_write hr]; rfl

theorem subReadByte_eq (h : Ready s) (hr : reg < fsubRegMaxNum) (hs : site < subBoardNum) :
    subReadByte reg site s = some (s.device site reg, s.setReg reg site (s.device site reg)) := by
  obtain ⟨hsel, hdis⟩ := enable_selected hs
  rw [subReadByte, if_neg (Nat.not_le_of_gt hr), if_neg (Nat.not_le_of_gt hs),
    if_neg fun hc => hc (h.trap site hs reg hr), fpgaSendData, h.lines]
  dsimp only
  rw [hsel, hdis, ← h.lines]
  dsimp only
  rw [answer_read hr, Function.update_eq_self]

theorem update_cell {m : Nat → Nat → UInt8} {i j k l : Nat} :
    Function.update m k (Function.update (m k) l v) i j = if i = k ∧ j = l then v else m i j := by
  by_cases hi : i = k
  · rw [hi, Function.update_self, Function.update_apply]
    exact if_congr (and_iff_right rfl).symm rfl rfl
  · rw [Function.update_of_ne hi, if_neg fun hc => hi hc.1]

theorem Ready.setReg (h : Ready s) : Ready (s.setReg reg site v) := by
  refine ⟨h.lines, fun i hi j hj => ?_⟩
  rw [Sub.setReg]
  dsimp only
  rw [update_cell, if_neg (by omega), h.trap i hi j hj]

theorem setReg_cell {i j : Nat} : (s.setReg reg site v).subReg i (2 * j) =
    if i = site ∧ j = reg then v else s.subReg i (2 * j) := by
  rw [Sub.setReg]
  dsimp only
  rw [update_cell]
  exact if_congr (and_congr_right fun _ => by omega) rfl rfl

theorem put_device {i j : Nat} :
    (s.put reg site v).device i j = if i = site ∧ j = reg then v else s.device i j :=
  update_cell

theorem Inv.put (h : Inv s) : Inv (s.put reg site v) := by
  have hready : Ready (s.setReg reg site v) := h.toReady.setReg
  refine ⟨⟨hready.lines, hready.trap⟩, fun i hi j hj => ?_⟩
  rw [put_device, ← h.cache i hi j hj]
  exact setReg_cell

theorem put_put {w : UInt8} : (s.put reg site v).put reg site w = s.put reg site w := by
  simp only [put, setReg, Function.update_self, Function.update_idem]

theorem setReg_self (hv : s.subReg site (2 * reg) = v) : s.setReg reg site v = s := by
  rw [setReg, ← hv, Function.update_eq_self, Function.update_eq_self]

theorem put_self (h : Inv s) (hr : reg < fsubRegMaxNum) (hs : site < subBoardNum) :
    s.put reg site (s.device site reg) = s := by
  rw [put, setReg_self (h.cache site hs reg hr), Function.update_eq_self, Function.update_eq_self]

end Sub

namespace SubAct

def reg : SubAct → Nat
  | .writeByte r _ _ | .readByte r _ | .setBit r _ _ | .resetBit r _ _ | .setBits r _ _ | .resetBits r _ _
  | .getBit r _ _ => r

def site : SubAct → Nat
  | .writeByte _ _ i | .readByte _ i | .setBit _ _ i | .resetBit _ _ i | .setBits _ _ i | .resetBits _ _ i
  | .getBit _ _ i => i

/-- An existing site and register, and a bit from 0 to 7. -/
def Valid (a : SubAct) : Prop :=
  a.reg < fsubRegMaxNum ∧ a.site < subBoardNum ∧
    match a with
    | .setBit _ b _ | .resetBit _ b _ | .getBit _ b _ => b < 8
    | _ => True

/-- What the code makes of the register. -/
def code : SubAct → UInt8 → UInt8
  | .writeByte _ d _, _ => d
  | .readByte _ _, v | .getBit _ _ _, v => v
  | .setBit _ b _, v => v ||| UInt8.ofNat (1 <<< b)
  | .resetBit _ b _, v => v &&& ~~~ UInt8.ofNat (1 <<< b)
  | .setBits _ m _, v => v ||| m
  | .resetBits _ m _, v => v &&& m

end SubAct

/-- Bit `i` of a byte. -/
def bitOf (v : UInt8) (i : Nat) : Bool := v.toBitVec.getLsbD i

namespace SubAct

/-- The meaning of a call, bit by bit: what becomes of bit `i`. -/
def newBit (a : SubAct) (i : Nat) (old : Bool) : Bool :=
  match a with
  | .writeByte _ d _ => bitOf d i
  | .readByte _ _ | .getBit _ _ _ => old
  | .setBit _ b _ => decide (i = b) || old
  | .resetBit _ b _ => !decide (i = b) && old
  | .setBits _ m _ => bitOf m i || old
  | .resetBits _ m _ => !bitOf m i && old

/-- What a call returns for the register `v`. -/
def value : SubAct → UInt8 → UInt8
  | .readByte _ _, v => v
  | .getBit _ b _, v => if bitOf v b then 1 else 0
  | _, _ => 0

/-- The calls for single bits that make up one with a mask. -/
def single : SubAct → Option (UInt8 × (Nat → SubAct))
  | .setBits r m i => some (m, fun b => .setBit r b i)
  | .resetBits r m i => some (m, fun b => .resetBit r b i)
  | _ => none

end SubAct

namespace Sub

variable {s s' : Sub} {reg site b i : Nat} {v m : UInt8} {a : SubAct}

/-! ### Bits -/

theorem bitOf_or {w : UInt8} : bitOf (v ||| w) i = (bitOf v i || bitOf w i) := by
  rw [bitOf, UInt8.toBitVec_or, BitVec.getLsbD_or]; rfl

theorem bitOf_and {w : UInt8} : bitOf (v &&& w) i = (bitOf v i && bitOf w i) := by
  rw [bitOf, UInt8.toBitVec_and, BitVec.getLsbD_and]; rfl

theorem bitOf_not (hi : i < 8) : bitOf (~~~ v) i = !bitOf v i := by
  rw [bitOf, UInt8.toBitVec_not, BitVec.getLsbD_not, decide_eq_true hi, Bool.true_and]; rfl

theorem bitOf_single (hb : b < 8) (hi : i < 8) : bitOf (UInt8.ofNat (1 <<< b)) i = decide (i = b) := by
  have h : ∀ b < 8, ∀ i < 8, bitOf (UInt8.ofNat (1 <<< b)) i = decide (i = b) := by decide
  exact h b hb i hi

theorem bitOf_zero : bitOf 0 i = false := by
  rw [bitOf, UInt8.toBitVec_zero]
  exact BitVec.getLsbD_zero

theorem eq_of_bitOf {w : UInt8} (h : ∀ i < 8, bitOf v i = bitOf w i) : v = w :=
  UInt8.toBitVec_inj.1 (BitVec.eq_of_getLsbD_eq h)

theorem getBit_eq : UInt8.ofNat ((v.toNat &&& 1 <<< b) >>> b) = if bitOf v b then 1 else 0 := by
  have hbit : bitOf v b = v.toNat.testBit b := rfl
  have hone : 1 <<< b >>> b = 1 := by rw [Nat.shiftLeft_shiftRight]
  rw [Nat.shiftRight_and_distrib, hone, hbit, Nat.testBit_eq_decide_div_mod_eq, Nat.shiftRight_eq_div_pow,
    Nat.and_one_is_mod]
  obtain h | h := Nat.mod_two_eq_zero_or_one (v.toNat / 2 ^ b) <;> rw [h] <;> rfl

/-- The code of a call has its meaning, but for `SUB_ResetBits`. -/
theorem bitOf_code (hv : a.Valid) (ha : ∀ r m t, a ≠ .resetBits r m t) (hi : i < 8) :
    bitOf (a.code v) i = a.newBit i (bitOf v i) := by
  cases a with
  | writeByte r d t => rfl
  | readByte r t => rfl
  | getBit r b t => rfl
  | setBit r b t =>
    rw [SubAct.code, bitOf_or, bitOf_single hv.2.2 hi, Bool.or_comm]; rfl
  | resetBit r b t =>
    rw [SubAct.code, bitOf_and, bitOf_not hi, bitOf_single hv.2.2 hi, Bool.and_comm]; rfl
  | setBits r m t =>
    rw [SubAct.code, bitOf_or, Bool.or_comm]; rfl
  | resetBits r m t => exact absurd rfl (ha r m t)

/-- `SUB_ResetBits` keeps the named bits instead of turning them off: its code has its meaning if and only if
there is nothing to turn off or to keep. -/
theorem bitOf_code_resetBits : (∀ i < 8, bitOf ((SubAct.resetBits reg m site).code v) i =
    (SubAct.resetBits reg m site).newBit i (bitOf v i)) ↔ v = 0 := by
  constructor
  · intro h
    refine eq_of_bitOf fun i hi => ?_
    have hb := h i hi
    rw [SubAct.code, bitOf_and, SubAct.newBit] at hb
    rw [bitOf_zero]
    -- the four cases of the two bits: only 0 0 and 0 1 meet `hb`
    cases hv : bitOf v i <;> cases hm : bitOf m i <;> rw [hv, hm] at hb <;> cases hb
  · rintro rfl i -
    rw [SubAct.code, bitOf_and, SubAct.newBit, bitOf_zero, Bool.and_false, Bool.false_and]

/-! ### Calls -/

theorem call_eq (h : Inv s) (hv : a.Valid) : call a s = some (a.value (s.device a.site a.reg),
    s.put a.reg a.site (a.code (s.device a.site a.reg))) := by
  have hm : ∀ f, modify f a.reg a.site s = some (s.put a.reg a.site (f (s.device a.site a.reg))) := fun f => by
    rw [modify_eq h.toReady hv.1 hv.2.1, h.cache _ hv.2.1 _ hv.1]
  have hr : subReadByte a.reg a.site s = some (s.device a.site a.reg, s) := by
    rw [subReadByte_eq h.toReady hv.1 hv.2.1, setReg_self (h.cache _ hv.2.1 _ hv.1)]
  cases a with
  | readByte r t => exact hr.trans (by rw [SubAct.code, put_self h hv.1 hv.2.1, SubAct.value])
  | getBit r b t =>
    rw [SubAct.code, put_self h hv.1 hv.2.1, SubAct.value, ← getBit_eq]
    exact congrArg (Option.map _) hr
  | _ => exact congrArg (Option.map (0, ·)) (hm _)

/-- Calls that change one register, one after the other. -/
theorem calls_map {act : Nat → SubAct} {l : List Nat} (h : Inv s)
    (hact : ∀ b ∈ l, (act b).Valid ∧ (act b).reg = reg ∧ (act b).site = site) (hr : reg < fsubRegMaxNum)
    (hs : site < subBoardNum) : calls (l.map act) s =
      some (s.put reg site (l.foldl (fun v b => (act b).code v) (s.device site reg))) := by
  induction l generalizing s with
  | nil => rw [List.map_nil, calls, List.foldl_nil, put_self h hr hs]
  | cons b l ih =>
    obtain ⟨hv, hreg, hsite⟩ := hact b List.mem_cons_self
    rw [List.map_cons, calls, call_eq h hv, hreg, hsite]
    dsimp only
    rw [ih h.put fun b' hb' => hact b' (List.mem_cons_of_mem _ hb'), put_put, put_device, if_pos ⟨rfl, rfl⟩,
      List.foldl_cons]

theorem foldl_setBit {l : List Nat} (hl : ∀ b ∈ l, b < 8) (hi : i < 8) :
    bitOf (l.foldl (fun v b => (SubAct.setBit reg b site).code v) v) i = (decide (i ∈ l) || bitOf v i) := by
  induction l generalizing v with
  | nil => rfl
  | cons b l ih =>
    rw [List.foldl_cons, ih fun b' hb' => hl b' (List.mem_cons_of_mem _ hb'), SubAct.code, bitOf_or,
      bitOf_single (hl b List.mem_cons_self) hi, Bool.or_comm (bitOf v i), ← Bool.or_assoc]
    simp only [List.mem_cons, Bool.decide_or, Bool.or_comm (decide (i = b))]

theorem foldl_resetBit {l : List Nat} (hl : ∀ b ∈ l, b < 8) (hi : i < 8) :
    bitOf (l.foldl (fun v b => (SubAct.resetBit reg b site).code v) v) i = (!decide (i ∈ l) && bitOf v i) := by
  induction l generalizing v with
  | nil => rfl
  | cons b l ih =>
    rw [List.foldl_cons, ih fun b' hb' => hl b' (List.mem_cons_of_mem _ hb'), SubAct.code, bitOf_and,
      bitOf_not hi, bitOf_single (hl b List.mem_cons_self) hi, Bool.and_comm (bitOf v i), ← Bool.and_assoc]
    simp only [List.mem_cons, Bool.decide_or, Bool.not_or, Bool.and_comm (!decide (i = b))]

/-- The calls for the bits of a mask, in any order. -/
theorem foldl_single {act : Nat → SubAct} {l : List Nat} (ha : a.single = some (m, act))
    (hl : ∀ i, i ∈ l ↔ i < 8 ∧ bitOf m i = true) (hi : i < 8) :
    bitOf (l.foldl (fun v b => (act b).code v) v) i = a.newBit i (bitOf v i) := by
  have hlt : ∀ b ∈ l, b < 8 := fun b hb => ((hl b).1 hb).1
  have hmem : decide (i ∈ l) = bitOf m i := by
    rw [Bool.eq_iff_iff, decide_eq_true_iff, hl, and_iff_right hi]
  cases a with
  | setBits r m' t => cases ha; rw [foldl_setBit hlt hi, hmem]; rfl
  | resetBits r m' t => cases ha; rw [foldl_resetBit hlt hi, hmem]; rfl
  | _ => cases ha

/-- What a call should do: its bits in its register, nothing else, and its value; with a mask it is the calls for
the bits of the mask, in any order. -/
structure Meets (a : SubAct) (s : Sub) (r : UInt8) (s' : Sub) : Prop where
  bits : ∀ i < 8, bitOf (s'.device a.site a.reg) i = a.newBit i (bitOf (s.device a.site a.reg) i)
  frame : ∀ i j, ¬ (i = a.site ∧ j = a.reg) → s'.device i j = s.device i j
  value : r = a.value (s.device a.site a.reg)
  masks : ∀ m (act : Nat → SubAct) (l : List Nat), a.single = some (m, act) → (∀ i, i ∈ l ↔ i < 8 ∧ bitOf m i = true) →
    calls (l.map act) s = some s'

theorem meets_of_bits (h : Inv s) (hv : a.Valid)
    (hb : ∀ i < 8, bitOf (a.code (s.device a.site a.reg)) i = a.newBit i (bitOf (s.device a.site a.reg) i)) :
    Meets a s (a.value (s.device a.site a.reg)) (s.put a.reg a.site (a.code (s.device a.site a.reg))) := by
  refine ⟨?_, fun i j hne => by rw [put_device, if_neg hne], rfl, fun m act l ha hl => ?_⟩
  · rw [put_device, if_pos ⟨rfl, rfl⟩]; exact hb
  · have hact : ∀ b ∈ l, (act b).Valid ∧ (act b).reg = a.reg ∧ (act b).site = a.site := fun b hmem => by
      have hb8 := ((hl b).1 hmem).1
      cases a with
      | setBits r m' t => cases ha; exact ⟨⟨hv.1, hv.2.1, hb8⟩, rfl, rfl⟩
      | resetBits r m' t => cases ha; exact ⟨⟨hv.1, hv.2.1, hb8⟩, rfl, rfl⟩
      | _ => cases ha
    rw [calls_map h hact hv.1 hv.2.1, eq_of_bitOf fun i hi => (foldl_single ha hl hi).trans (hb i hi).symm]

/-! ### SUB_Init -/

theorem calls_readByte {l : List SubAct} (h : Ready s)
    (hl : ∀ a ∈ l, ∃ j i, a = .readByte j i ∧ j < fsubRegMaxNum ∧ i < subBoardNum) :
    ∃ s', calls l s = some s' ∧ Ready s' ∧ s'.device = s.device ∧ ∀ i j,
      .readByte j i ∈ l ∨ s.subReg i (2 * j) = s.device i j → s'.subReg i (2 * j) = s'.device i j := by
  induction l generalizing s with
  | nil =>
    exact ⟨s, rfl, h, rfl, fun i j hc => hc.resolve_left List.not_mem_nil⟩
  | cons a l ih =>
    obtain ⟨j, i, rfl, hj, hi⟩ := hl a List.mem_cons_self
    have hset : Ready (s.setReg j i (s.device i j)) := h.setReg
    obtain ⟨s', hs', hready, hdev, hcache⟩ := ih hset fun a ha => hl a (List.mem_cons_of_mem _ ha)
    refine ⟨s', ?_, hready, hdev, fun i' j' hc => hcache i' j' ?_⟩
    · rw [calls, call, subReadByte_eq h hj hi]
      exact hs'
    · rw [setReg_cell]
      by_cases he : i' = i ∧ j' = j
      · rw [if_pos he, he.1, he.2]
        exact .inr rfl
      · rw [if_neg he]
        refine hc.imp (fun hm => (List.mem_cons.1 hm).resolve_left fun hr => he ?_) id
        cases hr
        exact ⟨rfl, rfl⟩

theorem ready_start (device : Nat → Nat → UInt8) : Ready ⟨trapReg, .disabled, device⟩ := by
  refine ⟨rfl, fun i _ j _ => ?_⟩
  show (if (2 * j + 1) % 2 = 1 then trapValue8 else 0) = trapValue8
  rw [if_pos (by omega)]

theorem calls_append {as bs : List SubAct} (h : calls as s = some s') : calls (as ++ bs) s = calls bs s' := by
  induction as generalizing s with
  | nil =>
    cases h
    rfl
  | cons a as ih =>
    rw [calls] at h
    rw [List.cons_append, calls]
    cases ha : call a s with
    | none =>
      rw [ha] at h
      cases h
    | some x =>
      rw [ha] at h
      exact ih h

/-- Reads of registers that the cache holds change nothing. -/
theorem calls_reads {l : List Nat} (h : Inv s) (hr : reg < fsubRegMaxNum) (hl : ∀ i ∈ l, i < subBoardNum) :
    calls (l.map fun i => .readByte reg i) s = some s := by
  induction l with
  | nil => rfl
  | cons i l ih =>
    have hi := hl i List.mem_cons_self
    rw [List.map_cons, calls, call, subReadByte_eq h.toReady hr hi, setReg_self (h.cache i hi reg hr)]
    exact ih fun i hi => hl i (List.mem_cons_of_mem _ hi)

theorem inv_of_configReads (device : Nat → Nat → UInt8) :
    ∃ s, calls configReads ⟨trapReg, .disabled, device⟩ = some s ∧ Inv s ∧ s.device = device := by
  obtain ⟨s, hs, hr, hdev, hc⟩ := calls_readByte (l := configReads) (ready_start device) fun a ha => by
    obtain ⟨i, hi, ha⟩ := List.mem_flatMap.1 ha
    obtain ⟨j, hj, rfl⟩ := List.mem_map.1 ha
    exact ⟨j, i, rfl, List.mem_range.1 hj, List.mem_range.1 hi⟩
  refine ⟨s, hs, ⟨hr, fun i hi j hj => hc i j (.inl ?_)⟩, hdev⟩
  exact List.mem_flatMap.2 ⟨i, List.mem_range.2 hi, List.mem_map.2 ⟨j, List.mem_range.2 hj, rfl⟩⟩

theorem subInit_of_configReads {device : Nat → Nat → UInt8}
    (hs : calls configReads ⟨trapReg, .disabled, device⟩ = some s) (h : Inv s) : subInit device = some s := by
  show calls (configReads ++ _) _ = some s
  rw [calls_append hs]
  exact calls_reads h (by decide) fun i hi => List.mem_range.1 hi

theorem inv_of_init (device : Nat → Nat → UInt8) :
    ∃ s, subInit device = some s ∧ Inv s ∧ s.device = device := by
  obtain ⟨s, hs, hi, hdev⟩ := inv_of_configReads device
  exact ⟨s, subInit_of_configReads hs hi, hi, hdev⟩

/-! ### Runs -/

theorem modify_inv {f : UInt8 → UInt8} (h : Inv s) (hm : modify f reg site s = some s') : Inv s' := by
  by_cases hr : fsubRegMaxNum ≤ reg
  · rw [modify, if_pos hr] at hm
    cases hm; exact h
  by_cases hs : subBoardNum ≤ site
  · rw [modify, if_neg hr, if_pos hs] at hm
    cases hm; exact h
  rw [modify_eq h.toReady (Nat.lt_of_not_le hr) (Nat.lt_of_not_le hs)] at hm
  cases hm; exact h.put

theorem subReadByte_inv {r : UInt8} (h : Inv s) (hm : subReadByte reg site s = some (r, s')) : Inv s' := by
  by_cases hr : fsubRegMaxNum ≤ reg
  · rw [subReadByte, if_pos hr] at hm
    cases hm; exact h
  by_cases hs : subBoardNum ≤ site
  · rw [subReadByte, if_neg hr, if_pos hs] at hm
    cases hm; exact h
  have hr' := Nat.lt_of_not_le hr
  have hs' := Nat.lt_of_not_le hs
  rw [subReadByte_eq h.toReady hr' hs', setReg_self (h.cache _ hs' _ hr')] at hm
  cases hm; exact h

/-- A call keeps the invariant, also one for a register, a board or a bit that does not exist. -/
theorem call_inv {r : UInt8} (h : Inv s) (hc : call a s = some (r, s')) : Inv s' := by
  cases a with
  | readByte j i => exact subReadByte_inv h hc
  | getBit j b i =>
    obtain ⟨x, hx, he⟩ := Option.map_eq_some_iff.1 hc
    cases he; exact subReadByte_inv h hx
  | _ =>
    obtain ⟨x, hx, he⟩ := Option.map_eq_some_iff.1 hc
    cases he; exact modify_inv h hx

variable {h : List (Sub × SubAct)}

theorem inv_of_run (hr : system.Run h s) : Inv s ∧ ∀ x ∈ h, Inv x.1 := by
  refine hr.inv_states (C := fun _ _ => True) (I := Inv) ?_ ?_ fun _ _ => trivial
  · rintro s ⟨device, hs⟩
    obtain ⟨s', hs', hi, -⟩ := inv_of_init device
    cases hs.symm.trans hs'
    exact hi
  · intro s a s' hi _ ha
    obtain ⟨⟨r, t⟩, ht, rfl⟩ := Option.map_eq_some_iff.1 ha
    exact call_inv hi ht

/-- What a run should be: the cache holds the registers of the boards in every state, and every call for an existing
register and bit returns and does what it should. -/
structure Refines (h : List (Sub × SubAct)) (s : Sub) : Prop where
  cache : ∀ t ∈ s :: h.map (·.1), ∀ i < subBoardNum, ∀ j < fsubRegMaxNum, t.subReg i (2 * j) = t.device i j
  meets : ∀ x ∈ h, x.2.Valid → ∃ r s', call x.2 x.1 = some (r, s') ∧ Meets x.2 x.1 r s'

/-- A run is what it should be if and only if every `SUB_ResetBits` in it finds its register at zero. -/
theorem refines_iff (hr : system.Run h s) : Refines h s ↔ ∀ x ∈ h, ∀ reg m site, x.2 = .resetBits reg m site →
    reg < fsubRegMaxNum → site < subBoardNum → x.1.device site reg = 0 := by
  have hinv := inv_of_run hr
  have hh := hinv.2
  constructor
  · intro hR x hx reg m site he hreg hsite
    have hv : x.2.Valid := by rw [he]; exact ⟨hreg, hsite, trivial⟩
    obtain ⟨r, s', hc, hm⟩ := hR.meets x hx hv
    have hbits := hm.bits
    rw [call_eq (hh x hx) hv] at hc
    cases hc
    rw [put_device, if_pos ⟨rfl, rfl⟩, he] at hbits
    exact bitOf_code_resetBits.1 hbits
  · intro hz
    refine ⟨fun t ht => (Lts.forall_states_iff.2 hinv t ht).cache, fun x hx hv =>
      ⟨_, _, call_eq (hh x hx) hv, meets_of_bits (hh x hx) hv fun i hi8 => ?_⟩⟩
    by_cases ha : ∃ r m t, x.2 = .resetBits r m t
    · obtain ⟨r, m, t, he⟩ := ha
      rw [he] at hv ⊢
      exact bitOf_code_resetBits.2 (hz x hx r m t he hv.1 hv.2.1) i hi8
    · exact bitOf_code hv (fun r m t he => ha ⟨r, m, t, he⟩) hi8

/-- A call behind `SUB_Init`. -/
theorem run_single (device : Nat → Nat → UInt8) (hv : a.Valid) : ∃ s, s.device = device ∧ Inv s ∧
    system.Run [(s, a)] (s.put a.reg a.site (a.code (device a.site a.reg))) := by
  obtain ⟨s, hs, hi, hdev⟩ := inv_of_init device
  have hinit : system.Run [] s := .init ⟨device, hs⟩
  refine ⟨s, hdev, hi, hinit.step ?_⟩
  show (call a s).map (·.2) = _
  rw [call_eq hi hv, hdev]; rfl

/-- `SUB_ResetBits` on a register at zero. -/
theorem refines_iff_zero : ∃ h s, system.Run h s ∧ h.map (·.2) = [.resetBits 1 0x0F 2] ∧ Refines h s := by
  obtain ⟨s, hdev, -, hr⟩ := run_single (fun _ _ => 0) (a := .resetBits 1 0x0F 2)
    ⟨by decide, by decide, trivial⟩
  refine ⟨_, _, hr, rfl, (refines_iff hr).2 fun x hx reg m site _ _ _ => ?_⟩
  rw [List.mem_singleton.1 hx, hdev]

/-- Of the eight bits that are on, `SUB_ResetBits` with the mask 1 leaves on the named one and turns off the others. -/
theorem not_refines_of_resetBits : ∃ h s t, system.Run h s ∧ h = [(t, .resetBits 0 1 0)] ∧ t.device 0 0 = 0xFF ∧
    s.device 0 0 = 1 ∧ ¬ Refines h s := by
  have hv : (SubAct.resetBits 0 1 0).Valid := ⟨by decide, by decide, trivial⟩
  obtain ⟨t, hdev, hi, hr⟩ := run_single (fun _ _ => 0xFF) hv
  refine ⟨_, _, t, hr, rfl, by rw [hdev], ?_, fun hR => ?_⟩
  · exact put_device.trans (if_pos ⟨rfl, rfl⟩)
  · obtain ⟨r, s', hc, hm⟩ := hR.meets _ List.mem_cons_self hv
    have hbit := hm.bits 0 (by decide)
    rw [call_eq hi hv] at hc
    cases hc
    rw [put_device, if_pos ⟨rfl, rfl⟩, hdev] at hbit
    -- 0xFF &&& 1 against the bit that was to be turned off
    have hne : bitOf (0xFF &&& 1) 0 ≠ (!bitOf 1 0 && bitOf 0xFF 0) := by decide
    exact hne hbit

end Sub

end Bootloader
