import Bootloader.Lib.ByteCode
import Bootloader.FinshEval

/-!
# The code of a tree computes what the tree means

`compile_run`: where the code of a chain of nodes stands in the text segment, the machine runs it to its end, leaves
the cells below its stack pointer alone and pushes one cell a node, whose low bytes are the value of the node. The
induction is over the tree; one lemma an instruction and one a kind of node carry it.
-/

namespace Bootloader.Finsh

variable {call : Nat → List Nat → Mem → Option (Nat × Mem)} {text : List UInt8} {m m' : Mem} {st st' : Nat → Nat}
  {sp pc k v : Nat} {ks vs : List Nat} {n : NodeInfo} {child : Node} {w : Width} {op : BinOp}

/-! ### Cells -/

/-- The cells from `i` on hold the values, as far as their bytes count. -/
def Cells (st : Nat → Nat) : Nat → List Nat → List Nat → Prop
  | _, [], [] => True
  | i, k :: ks, v :: vs => st i % 256 ^ k = v ∧ Cells st (i + 1) ks vs
  | _, _, _ => False

theorem Cells.length {i : Nat} (h : Cells st i ks vs) : vs.length = ks.length := by
  induction ks generalizing i vs with
  | nil =>
    cases vs with
    | nil => rfl
    | cons v vs => exact h.elim
  | cons k ks ih =>
    cases vs with
    | nil => exact h.elim
    | cons v vs => simp [ih h.2]

/-- The arguments of a function are read whole. -/
theorem Cells.map_range {i : Nat} (h : Cells st i ks vs) (h4 : ∀ k ∈ ks, k = 4) :
    (List.range ks.length).map (fun j => st (i + j) % 256 ^ 4) = vs := by
  induction ks generalizing i vs with
  | nil =>
    cases vs with
    | nil => rfl
    | cons v vs => exact h.elim
  | cons k ks ih =>
    cases vs with
    | nil => exact h.elim
    | cons v vs =>
      obtain ⟨hv, h⟩ := h
      have hk : k = 4 := h4 k List.mem_cons_self
      have hi := ih h fun x hx => h4 x (List.mem_cons_of_mem k hx)
      rw [List.length_cons, List.range_succ_eq_map, List.map_cons, List.map_map, ← hi, ← hv, hk]
      congr 1
      refine List.map_congr_left fun j _ => ?_
      simp [Nat.add_assoc, Nat.add_comm 1]

/-! ### Codes -/

def Width.pick (w : Width) (byte word dword : Nat) : Nat :=
  match w with
  | .byte => byte
  | .word => word
  | .dword => dword

@[simp] theorem text_append (a b : Asm) : (a ++ b).text = a.text ++ b.text := rfl

@[simp] theorem errno_append (a b : Asm) : (a ++ b).errno = b.errno.or a.errno := rfl

theorem width?_eq_some {t : Nat} (h : width? t = some w) : t = w.pick dataTypeByte dataTypeWord dataTypeDword := by
  rw [width?] at h
  split_ifs at h with h₁ h₂ h₃ <;> cases h <;> assumption

theorem byDataType_eq {t b x d : Nat} (h : width? t = some w) : byDataType t b x d = codeByte (w.pick b x d) := by
  rw [width?_eq_some h]
  cases w <;> rfl

theorem storeAssign_eq {t : Nat} (h : width? t = some w) : storeAssign t =
    codeByte (w.pick opStByte opStWord opStDword) ++
      codeByte (w.pick opLdValueByteStack opLdValueWordStack opLdValueDwordStack) := by
  rw [width?_eq_some h]
  cases w <;> rfl

/-- The value at an address, the number 1 and an operation. -/
def stepCode (w : Width) (a o : Nat) : Asm :=
  codeByte (w.pick opLdValueByte opLdValueWord opLdValueDword) ++ codeDword a ++
    (codeByte (w.pick opLdByte opLdWord opLdDword) ++ ⟨leBytes w.bytes 1, none⟩) ++ codeByte o

theorem preStep_eq {t a b x d : Nat} (h : width? t = some w) : preStep t a b x d =
    stepCode w a (w.pick b x d) ++ codeByte (w.pick opStByte opStWord opStDword) ++ codeByte opLdValueDwordStack := by
  rw [width?_eq_some h]
  cases w <;> rfl

theorem postStep_eq {t a b x d : Nat} (h : width? t = some w) : postStep t a b x d =
    codeByte opLdDword ++ codeDword a ++ stepCode w a (w.pick b x d) ++
      codeByte (w.pick opStByte opStWord opStDword) ++ codeByte opPop := by
  rw [width?_eq_some h]
  cases w <;> rfl

theorem loadVar_eq {t : FinshType} {a : Nat} {address : Bool} (h : t.width? = some w) : loadVar t address a =
    codeByte (if address then opLdDword else w.pick opLdValueByte opLdValueWord opLdValueDword) ++ codeDword a := by
  cases t <;> cases h <;> rfl

/-! ### Instructions -/

theorem reach_op {o : Nat} {i : Op} {s : Vm} (hc : CodeAt text pc (codeByte o).text) (hi : opTable[o]? = some i)
    (he : i.exec call text ⟨m, st, sp, pc + 1⟩ = some s) : Reaches (vmStep call text) ⟨m, st, sp, pc⟩ s := by
  have ho : o < 256 := by
    have := List.getElem?_eq_some_iff.1 hi
    exact Nat.lt_trans this.1 (by decide)
  refine .one ?_
  rw [vmStep, show text[pc]? = _ from CodeAt.get hc]
  simp only [UInt8.toNat_ofNat', Nat.mod_eq_of_lt ho, hi]
  exact he

theorem operand_eq {a : Nat} (hc : CodeAt text pc (leBytes k a)) : operand text pc k = a % 256 ^ k := by
  have ht := hc.take_eq
  rw [length_leBytes] at ht
  rw [operand, ht, le_leBytes]

theorem operand_le {a : Nat} (hlen : text.length = finshTextMax) (h0 : 0 < k) (hc : CodeAt text pc (leBytes k a)) :
    pc + k ≤ finshTextMax := by
  have hl := List.IsPrefix.length_le hc
  rw [length_leBytes, List.length_drop] at hl
  omega

theorem setLow_operand {a old : Nat} : setLow k old (a % 256 ^ k) = setLow k old a := by
  rw [setLow, setLow, Nat.mod_mod]

section
variable (call m st sp)

theorem ld_run {a : Nat} (hlen : text.length = finshTextMax) (hsp : sp < finshStackMax)
    (hc : CodeAt text pc (codeByte (w.pick opLdByte opLdWord opLdDword)).text)
    (ha : CodeAt text (pc + 1) (leBytes w.bytes a)) :
    Reaches (vmStep call text) ⟨m, st, sp, pc⟩
      ⟨m, Function.update st sp (setLow w.bytes (st sp) a), sp + 1, pc + 1 + w.bytes⟩ := by
  refine reach_op hc (i := .ld w) (by cases w <;> rfl) ?_
  have hle := operand_le hlen (by cases w <;> decide) ha
  rw [Op.exec]
  simp only
  rw [if_neg (by omega), operand_eq ha]
  simp only [Vm.setCell, setLow_operand]

theorem ldValue_run {a : Nat} (hlen : text.length = finshTextMax) (hsp : sp < finshStackMax)
    (hc : CodeAt text pc (codeByte (w.pick opLdValueByte opLdValueWord opLdValueDword)).text)
    (ha : CodeAt text (pc + 1) (leBytes 4 a)) :
    Reaches (vmStep call text) ⟨m, st, sp, pc⟩
      ⟨m, Function.update st sp (setLow w.bytes (st sp) (m.word (a % 2 ^ 32) w.bytes)), sp + 1, pc + 1 + 4⟩ := by
  refine reach_op hc (i := .ldValue w) (by cases w <;> rfl) ?_
  have hle := operand_le hlen (by decide) ha
  rw [Op.exec]
  simp only
  rw [if_neg (by omega), operand_eq ha]
  rfl

theorem bin_run {r o : Nat} (hi : opTable[o]? = some (.bin op w))
    (hr : op.eval w (st sp % 256 ^ w.bytes) (st (sp + 1) % 256 ^ w.bytes) = some r)
    (hc : CodeAt text pc (codeByte o).text) :
    Reaches (vmStep call text) ⟨m, st, sp + 2, pc⟩
      ⟨m, Function.update st sp (setLow w.bytes (st sp) r), sp + 1, pc + 1⟩ := by
  refine reach_op hc hi ?_
  rw [Op.exec]
  simp only [Vm.cell, Nat.add_sub_cancel, show sp + 2 - 1 = sp + 1 from rfl]
  rw [if_neg (by omega), hr]
  rfl

theorem bw_run (hc : CodeAt text pc (codeByte (w.pick opBitwiseByte opBitwiseWord opBitwiseDword)).text) :
    Reaches (vmStep call text) ⟨m, st, sp + 1, pc⟩
      ⟨m, Function.update st sp (setLow w.bytes (st sp) (w.not (st sp % 256 ^ w.bytes))), sp + 1, pc + 1⟩ := by
  refine reach_op hc (i := .bw w) (by cases w <;> rfl) ?_
  rw [Op.exec]
  simp only [Vm.cell, Vm.setCell, Nat.add_sub_cancel]
  rw [if_neg (by omega)]

theorem ldValueStack_run
    (hc : CodeAt text pc (codeByte (w.pick opLdValueByteStack opLdValueWordStack opLdValueDwordStack)).text) :
    Reaches (vmStep call text) ⟨m, st, sp + 1, pc⟩
      ⟨m, Function.update st sp (setLow w.bytes (st sp) (m.word (st sp % 256 ^ 4) w.bytes)), sp + 1, pc + 1⟩ := by
  refine reach_op hc (i := .ldValueStack w) (by cases w <;> rfl) ?_
  rw [Op.exec]
  simp only [Vm.cell, Vm.setCell, Nat.add_sub_cancel]
  rw [if_neg (by omega)]
  rfl

theorem st_run (hc : CodeAt text pc (codeByte (w.pick opStByte opStWord opStDword)).text) :
    Reaches (vmStep call text) ⟨m, st, sp + 2, pc⟩
      ⟨m.setWord (st sp % 256 ^ 4) w.bytes (st (sp + 1) % 256 ^ w.bytes), st, sp + 1, pc + 1⟩ := by
  refine reach_op hc (i := .st w) (by cases w <;> rfl) ?_
  rw [Op.exec]
  simp only [Vm.cell, Nat.add_sub_cancel, show sp + 2 - 1 = sp + 1 from rfl]
  rw [if_neg (by omega)]
  rfl

theorem pop_run (hc : CodeAt text pc (codeByte opPop).text) :
    Reaches (vmStep call text) ⟨m, st, sp + 1, pc⟩ ⟨m, st, sp, pc + 1⟩ := by
  refine reach_op hc (i := .pop) rfl ?_
  rw [Op.exec]
  simp only [Nat.add_sub_cancel]
  rw [if_neg (by omega)]

theorem call_run {f r : Nat} {args : List Nat} (hlen : text.length = finshTextMax) (hf : st sp % 256 ^ 4 = f)
    (hargs : Cells st (sp + 1) ks args) (h4 : ∀ k ∈ ks, k = 4) (hn : ks.length ≤ 16)
    (hr : call f (if args = [] then [0] else args) m = some (r, m')) (hc : CodeAt text pc (codeByte opSyscall).text)
    (ha : CodeAt text (pc + 1) (leBytes 1 ks.length)) :
    Reaches (vmStep call text) ⟨m, st, sp + 1 + ks.length, pc⟩
      ⟨m', Function.update st sp (setLow 4 (st sp) r), sp + 1, pc + 1 + 1⟩ := by
  refine reach_op hc (i := .call) rfl ?_
  have hle := operand_le hlen (by decide) ha
  have hnum : operand text (pc + 1) 1 = ks.length := by rw [operand_eq ha, Nat.mod_eq_of_lt (by omega)]
  have hempty : ks.length = 0 ↔ args = [] := by rw [← hargs.length, List.length_eq_zero_iff]
  have hlist := hargs.map_range h4
  rw [Op.exec]
  simp only [hnum, Vm.cell, Vm.setCell, Width.bytes]
  rw [if_neg (by omega), show sp + 1 + ks.length - 1 - ks.length = sp by omega, hf, hlist]
  simp only [hempty, hr]
  rfl

end

/-! ### Nodes -/

/-- From the cells of the children on, the code at `pc` leaves one cell with `k` bytes of `v` and is at its end. -/
def Pushes (call : Nat → List Nat → Mem → Option (Nat × Mem)) (text : List UInt8) (m : Mem) (st : Nat → Nat)
    (sp cells pc len k v : Nat) (m' : Mem) : Prop :=
  ∃ st', Reaches (vmStep call text) ⟨m, st, sp + cells, pc⟩ ⟨m', st', sp + 1, pc + len⟩ ∧
    (∀ i < sp, st' i = st i) ∧ st' sp % 256 ^ k = v

theorem Pushes.update {a len cells : Nat} (hk : k ≤ w.bytes) (hv : a % 256 ^ k = v)
    (h : Reaches (vmStep call text) ⟨m, st, sp + cells, pc⟩
      ⟨m', Function.update st sp (setLow w.bytes (st sp) a), sp + 1, pc + len⟩) :
    Pushes call text m st sp cells pc len k v m' := by
  refine ⟨_, h, fun i hi => Function.update_of_ne (by omega) _ _, ?_⟩
  rw [Function.update_self, setLow_mod hk, hv]

theorem word_mod {a j : Nat} : m.word a j % 256 ^ j = m.word a j := Nat.mod_eq_of_lt Mem.word_lt

@[simp] theorem length_codeByte (x : Nat) : (codeByte x).text.length = 1 := rfl

@[simp] theorem length_codeDword (x : Nat) : (codeDword x).text.length = 4 := rfl

theorem code_split {a b : Asm} : CodeAt text pc (a ++ b).text ↔
    CodeAt text pc a.text ∧ CodeAt text (pc + a.text.length) b.text := CodeAt.append_iff

theorem ident_type (hn : n.nodeType.kind? = some .ident) : n.nodeType = .id := by
  cases hT : n.nodeType <;> simp [NodeType.kind?, hT] at hn ⊢

/-- A variable pushes its address or its value. -/
theorem loadVar_pushes {type : FinshType} {addr : Nat} {address : Bool} (hlen : text.length = finshTextMax)
    (hsp : sp < finshStackMax) (hw : type.width? = some w) (hc : CodeAt text pc (loadVar type address addr).text)
    (hk : k = if address then 4 else w.bytes)
    (hv : v = if address then addr % 2 ^ 32 else m.word (addr % 2 ^ 32) w.bytes) :
    Pushes call text m st sp 0 pc (loadVar type address addr).text.length k v m ∧
      (loadVar type address addr).errno = none := by
  rw [loadVar_eq hw] at hc ⊢
  refine ⟨?_, rfl⟩
  obtain ⟨hc, ha⟩ := code_split.1 hc
  cases address with
  | true =>
    subst hk hv
    exact Pushes.update (w := .dword) (Nat.le_refl 4) rfl (ld_run _ _ _ _ hlen hsp hc ha)
  | false =>
    subst hk hv
    exact Pushes.update (Nat.le_refl _) word_mod (ldValue_run _ _ _ _ hlen hsp hc ha)

theorem ident_pushes (hlen : text.length = finshTextMax) (hsp : sp < finshStackMax)
    (hn : n.nodeType.kind? = some .ident) (hk : n.kept child ks = some k) (he : n.eval call child vs m = some (v, m'))
    (hc : CodeAt text pc (compileNode n child).text) (hcells : Cells st sp ks vs) :
    Pushes call text m st sp ks.length pc (compileNode n child).text.length k v m' ∧
      (compileNode n child).errno = none := by
  simp only [NodeInfo.kept, NodeInfo.eval, hn, Option.bind_eq_bind, Option.bind_some] at hk he
  simp only [compileNode, ident_type hn] at hc ⊢
  rcases ks with _ | ⟨k₁, ks⟩
  swap
  · cases hk
  obtain rfl : vs = [] := by simpa using hcells.length
  rcases hid : n.id with _ | ⟨ptr, type⟩ | ⟨ptr, type, addr⟩ | ⟨ptr, func⟩
  · simp [hid, Ident.place?] at hk
  · simp only [hid, Ident.place?] at hk he hc ⊢
    rcases hw : type.width? with _ | w
    · simp [hw] at hk
    · simp only [hw, Option.map_some, Option.bind_some, Option.some.injEq, Prod.mk.injEq] at hk he
      obtain ⟨hv, rfl⟩ := he
      exact loadVar_pushes hlen hsp hw hc hk.symm hv.symm
  · simp only [hid, Ident.place?] at hk he hc ⊢
    rcases hw : type.width? with _ | w
    · simp [hw] at hk
    · simp only [hw, Option.map_some, Option.bind_some, Option.some.injEq, Prod.mk.injEq] at hk he
      obtain ⟨hv, rfl⟩ := he
      exact loadVar_pushes hlen hsp hw hc hk.symm hv.symm
  · simp only [hid, Option.some.injEq, Prod.mk.injEq] at hk he hc ⊢
    obtain ⟨rfl, rfl⟩ := he
    subst hk
    obtain ⟨hc, ha⟩ := code_split.1 hc
    exact ⟨Pushes.update (w := .dword) (Nat.le_refl 4) rfl (ld_run _ _ _ _ hlen hsp hc ha), rfl⟩

theorem const_pushes (hlen : text.length = finshTextMax) (hsp : sp < finshStackMax)
    (hn : n.nodeType.kind? = some (.const w)) (hk : n.kept child ks = some k)
    (he : n.eval call child vs m = some (v, m')) (hc : CodeAt text pc (compileNode n child).text)
    (hcells : Cells st sp ks vs) :
    Pushes call text m st sp ks.length pc (compileNode n child).text.length k v m' ∧
      (compileNode n child).errno = none := by
  simp only [NodeInfo.kept, NodeInfo.eval, hn, Option.bind_eq_bind, Option.bind_some] at hk he
  rcases ks with _ | ⟨k₁, ks⟩
  swap
  · cases hk
  obtain rfl : vs = [] := by simpa using hcells.length
  simp only [Option.some.injEq, Prod.mk.injEq] at hk he
  obtain ⟨rfl, rfl⟩ := he
  subst hk
  have hcode : compileNode n child = codeByte (w.pick opLdByte opLdWord opLdDword) ++
      ⟨leBytes w.bytes n.value, none⟩ := by
    cases hT : n.nodeType <;> simp [NodeType.kind?, hT] at hn <;> subst hn <;> simp [compileNode, hT] <;> rfl
  rw [hcode] at hc ⊢
  obtain ⟨hc, ha⟩ := code_split.1 hc
  refine ⟨Pushes.update (Nat.le_refl _) rfl ?_, rfl⟩
  rw [text_append, List.length_append, length_leBytes, ← Nat.add_assoc]
  exact ld_run _ _ _ _ hlen hsp hc ha

def BinOp.code (op : BinOp) (w : Width) : Nat :=
  match op with
  | .add => w.pick opAddByte opAddWord opAddDword
  | .sub => w.pick opSubByte opSubWord opSubDword
  | .div => w.pick opDivByte opDivWord opDivDword
  | .mod => w.pick opModByte opModWord opModDword
  | .mul => w.pick opMulByte opMulWord opMulDword
  | .and => w.pick opAndByte opAndWord opAndDword
  | .or => w.pick opOrByte opOrWord opOrDword
  | .xor => w.pick opXorByte opXorWord opXorDword
  | .shl => w.pick opShlByte opShlWord opShlDword
  | .shr => w.pick opShrByte opShrWord opShrDword

theorem opTable_code : opTable[op.code w]? = some (.bin op w) := by cases op <;> cases w <;> rfl

theorem compileNode_bin (hn : n.nodeType.kind? = some (.bin op)) (hw : width? n.dataType = some w) :
    compileNode n child = codeByte (op.code w) := by
  unfold compileNode
  cases hT : n.nodeType <;> simp [NodeType.kind?, hT] at hn <;> subst hn <;> exact byDataType_eq hw

theorem bin_pushes (hn : n.nodeType.kind? = some (.bin op)) (hk : n.kept child ks = some k)
    (he : n.eval call child vs m = some (v, m')) (hc : CodeAt text pc (compileNode n child).text)
    (hcells : Cells st sp ks vs) :
    Pushes call text m st sp ks.length pc (compileNode n child).text.length k v m' ∧
      (compileNode n child).errno = none := by
  simp only [NodeInfo.kept, NodeInfo.eval, hn, Option.bind_eq_bind, Option.bind_some] at hk he
  rcases ks with _ | ⟨k₁, _ | ⟨k₂, _ | ⟨k₃, ks⟩⟩⟩ <;> try cases hk
  obtain ⟨a, b, rfl⟩ : ∃ a b, vs = [a, b] := List.length_eq_two.1 hcells.length
  obtain ⟨hv₁, hv₂, -⟩ := hcells
  obtain ⟨w, hw, hk⟩ := Option.bind_eq_some_iff.1 hk
  obtain ⟨hle, hk⟩ := Option.ite_none_right_eq_some.1 hk
  cases hk
  simp only [hw, Option.bind_some] at he
  obtain ⟨r, hr, he⟩ := Option.bind_eq_some_iff.1 he
  cases he
  rw [compileNode_bin hn hw] at hc ⊢
  have hd₁ : 256 ^ w.bytes ∣ 256 ^ k₁ := Nat.pow_dvd_pow 256 hle.1
  have hd₂ : 256 ^ w.bytes ∣ 256 ^ k₂ := Nat.pow_dvd_pow 256 hle.2
  rw [← hv₁, ← hv₂, Nat.mod_mod_of_dvd _ hd₁, Nat.mod_mod_of_dvd _ hd₂] at hr
  exact ⟨Pushes.update (Nat.le_refl _) rfl (bin_run _ _ _ _ opTable_code hr hc), rfl⟩

theorem bitwise_pushes (hn : n.nodeType.kind? = some .bitwise) (hk : n.kept child ks = some k)
    (he : n.eval call child vs m = some (v, m')) (hc : CodeAt text pc (compileNode n child).text)
    (hcells : Cells st sp ks vs) :
    Pushes call text m st sp ks.length pc (compileNode n child).text.length k v m' ∧
      (compileNode n child).errno = none := by
  have hT : n.nodeType = .sysBitwise := by cases hT : n.nodeType <;> simp [NodeType.kind?, hT] at hn ⊢
  simp only [NodeInfo.kept, NodeInfo.eval, hn, Option.bind_eq_bind, Option.bind_some] at hk he
  rcases ks with _ | ⟨k₁, _ | ⟨k₂, ks⟩⟩ <;> try cases hk
  obtain ⟨a, rfl⟩ : ∃ a, vs = [a] := List.length_eq_one_iff.1 hcells.length
  obtain ⟨hv, -⟩ := hcells
  obtain ⟨w, hw, hk⟩ := Option.bind_eq_some_iff.1 hk
  obtain ⟨hle, hk⟩ := Option.ite_none_right_eq_some.1 hk
  cases hk
  simp only [hw, Option.bind_some, Option.some.injEq, Prod.mk.injEq] at he
  obtain ⟨rfl, rfl⟩ := he
  simp only [compileNode, hT, byDataType_eq hw] at hc ⊢
  refine ⟨Pushes.update (Nat.le_refl _) ?_ (bw_run _ _ _ _ hc), rfl⟩
  have hd : 256 ^ w.bytes ∣ 256 ^ k₁ := Nat.pow_dvd_pow 256 hle
  have hpos : 0 < 256 ^ w.bytes := Nat.pow_pos (by decide)
  rw [Width.not, Width.not, ← hv, Nat.mod_mod, Nat.mod_mod_of_dvd _ hd, Nat.mod_eq_of_lt (by omega)]

theorem Node.siblings_of_kept {t : Node} (h : t.kept = some ks) : t.siblings = ks.length := by
  induction t generalizing ks with
  | null =>
    cases h
    rfl
  | node n child sibling _ ih =>
    simp only [Node.kept, Option.bind_eq_bind] at h
    obtain ⟨ks₁, -, h⟩ := Option.bind_eq_some_iff.1 h
    obtain ⟨k, -, h⟩ := Option.bind_eq_some_iff.1 h
    obtain ⟨rest, hr, h⟩ := Option.bind_eq_some_iff.1 h
    cases h
    rw [Node.siblings, ih hr, List.length_cons]

theorem func_pushes (hlen : text.length = finshTextMax) (hn : n.nodeType.kind? = some .func)
    (hchild : child.kept = some ks) (hk : n.kept child ks = some k) (he : n.eval call child vs m = some (v, m'))
    (hc : CodeAt text pc (compileNode n child).text) (hcells : Cells st sp ks vs) :
    Pushes call text m st sp ks.length pc (compileNode n child).text.length k v m' ∧
      (compileNode n child).errno = none := by
  have hT : n.nodeType = .sysFunc := by cases hT : n.nodeType <;> simp [NodeType.kind?, hT] at hn ⊢
  simp only [NodeInfo.kept, NodeInfo.eval, hn, Option.bind_eq_bind, Option.bind_some] at hk he
  rcases ks with _ | ⟨k₁, ks⟩
  · cases hk
  rcases vs with _ | ⟨f, args⟩
  · exact hcells.elim
  obtain ⟨hf, hargs⟩ := hcells
  obtain ⟨⟨rfl, h4, hle⟩, hk'⟩ := Option.ite_none_right_eq_some.1 hk
  cases hk'
  obtain ⟨x, hr, he⟩ := Option.bind_eq_some_iff.1 he
  cases he
  have hs := Node.siblings_of_kept hchild
  rcases child with _ | ⟨c, grand, sibling⟩
  · cases hs
  rw [Node.siblings, List.length_cons, Nat.add_left_inj] at hs
  simp only [compileNode, hT, hs] at hc ⊢
  obtain ⟨hc, ha⟩ := code_split.1 hc
  refine ⟨Pushes.update (w := .dword) (Nat.le_refl 4) rfl ?_, rfl⟩
  have h := call_run _ _ _ _ hlen hf hargs h4 hle hr hc ha
  rwa [Nat.add_right_comm] at h

/-- The code of an assignment, by the width it stores. -/
theorem compileNode_assign (hn : n.nodeType.kind? = some .assign) (hw : child.assignWidth? = some w) :
    compileNode n child = codeByte (w.pick opStByte opStWord opStDword) ++
      codeByte (w.pick opLdValueByteStack opLdValueWordStack opLdValueDwordStack) := by
  have hT : n.nodeType = .sysAssign := by cases hT : n.nodeType <;> simp [NodeType.kind?, hT] at hn ⊢
  simp only [compileNode, hT]
  rcases child with _ | ⟨⟨type, dataType, id, address, value⟩, grand, sibling⟩
  · cases hw
  cases type <;> try cases hw
  · exact storeAssign_eq hw
  · exact storeAssign_eq hw

theorem assign_pushes (hn : n.nodeType.kind? = some .assign) (hk : n.kept child ks = some k)
    (he : n.eval call child vs m = some (v, m')) (hc : CodeAt text pc (compileNode n child).text)
    (hcells : Cells st sp ks vs) :
    Pushes call text m st sp ks.length pc (compileNode n child).text.length k v m' ∧
      (compileNode n child).errno = none := by
  simp only [NodeInfo.kept, NodeInfo.eval, hn, Option.bind_eq_bind, Option.bind_some] at hk he
  rcases ks with _ | ⟨k₁, _ | ⟨k₂, _ | ⟨k₃, ks⟩⟩⟩ <;> try cases hk
  obtain ⟨a, b, rfl⟩ : ∃ a b, vs = [a, b] := List.length_eq_two.1 hcells.length
  obtain ⟨ha, hb, -⟩ := hcells
  obtain ⟨w, hw, hk⟩ := Option.bind_eq_some_iff.1 hk
  obtain ⟨⟨rfl, hle⟩, hk'⟩ := Option.ite_none_right_eq_some.1 hk
  cases hk'
  simp only [hw, Option.bind_some, Option.some.injEq, Prod.mk.injEq] at he
  obtain ⟨rfl, rfl⟩ := he
  rw [compileNode_assign hn hw] at hc ⊢
  obtain ⟨hc, hc'⟩ := code_split.1 hc
  have hb' : st (sp + 1) % 256 ^ w.bytes = b % 256 ^ w.bytes := by
    rw [← hb, Nat.mod_mod_of_dvd _ (Nat.pow_dvd_pow 256 hle)]
  have hset : m.setWord a w.bytes (b % 256 ^ w.bytes) = m.setWord a w.bytes b := Mem.setWord_mod
  have h₁ := st_run call m st sp hc
  rw [ha, hb', hset] at h₁
  have h₂ := ldValueStack_run call (m.setWord a w.bytes b) st sp hc'
  rw [ha] at h₂
  refine ⟨Pushes.update (Nat.le_refl _) ?_ (h₁.trans h₂), rfl⟩
  rw [word_mod, ← hset, Mem.word_setWord (Nat.mod_lt _ (Nat.pow_pos (by decide)))]

theorem Node.variable?_eq_some {p : Nat} (h : child.variable? = some p) : ∃ dataType ptr type address value,
    child = .node ⟨.id, dataType, .var ptr type, address, value⟩ .null .null ∧ p = (ptr + 28) % 2 ^ 32 := by
  rcases child with _ | ⟨⟨nodeType, dataType, id, address, value⟩, _ | _, _ | _⟩
  · cases h
  · cases nodeType <;> try cases h
    cases id <;> cases h
    exact ⟨_, _, _, _, _, rfl, rfl⟩
  all_goals
    cases nodeType <;> try cases h
    cases id <;> cases h

/-- The address of a variable is what its node pushes under `&`. -/
theorem Node.eval_variable {m₀ : Mem} {dataType ptr value : Nat} {type : FinshType}
    (h : Node.eval call (.node ⟨.id, dataType, .var ptr type, true, value⟩ .null .null) m₀ = some (vs, m)) :
    vs = [(ptr + 28) % 2 ^ 32] := by
  rcases hw : type.width? with _ | w
  · simp [Node.eval, NodeInfo.eval, NodeType.kind?, Ident.place?, hw] at h
  · simp [Node.eval, NodeInfo.eval, NodeType.kind?, Ident.place?, hw] at h
    exact h.1.symm

theorem stepAt_eq_some {p : Nat} (h : stepAt op w p m = some (v, m')) :
    ∃ r, op.eval w (m.word p w.bytes) 1 = some r ∧ v = r % 256 ^ w.bytes ∧ m' = m.setWord p w.bytes r := by
  obtain ⟨r, hr, he⟩ := Option.bind_eq_some_iff.1 h
  cases he
  exact ⟨r, hr, rfl, rfl⟩

/-- The shared part of `++` and `--`: one more cell, with the new value. -/
theorem stepCode_run (call : Nat → List Nat → Mem → Option (Nat × Mem)) (st : Nat → Nat) (sp : Nat) {a r : Nat}
    (hlen : text.length = finshTextMax) (hsp : sp + 1 < finshStackMax)
    (hr : op.eval w (m.word (a % 2 ^ 32) w.bytes) 1 = some r) (hc : CodeAt text pc (stepCode w a (op.code w)).text) :
    ∃ st', Reaches (vmStep call text) ⟨m, st, sp, pc⟩
        ⟨m, st', sp + 1, pc + (stepCode w a (op.code w)).text.length⟩ ∧
      (∀ i < sp, st' i = st i) ∧ st' sp % 256 ^ w.bytes = r % 256 ^ w.bytes := by
  obtain ⟨hc, ho⟩ := code_split.1 hc
  obtain ⟨hc, hl⟩ := code_split.1 hc
  obtain ⟨hc, ha⟩ := code_split.1 hc
  obtain ⟨hl, h1⟩ := code_split.1 hl
  simp only [text_append, List.length_append, length_codeByte, length_codeDword, length_leBytes, ← Nat.add_assoc]
    at hl h1 ho
  set st₁ := Function.update st sp (setLow w.bytes (st sp) (m.word (a % 2 ^ 32) w.bytes)) with hst₁
  set st₂ := Function.update st₁ (sp + 1) (setLow w.bytes (st₁ (sp + 1)) 1) with hst₂
  have hv₁ : st₂ sp % 256 ^ w.bytes = m.word (a % 2 ^ 32) w.bytes := by
    rw [hst₂, Function.update_of_ne (by omega), hst₁, Function.update_self, setLow_mod (Nat.le_refl _), word_mod]
  have hv₂ : st₂ (sp + 1) % 256 ^ w.bytes = 1 := by
    rw [hst₂, Function.update_self, setLow_mod (Nat.le_refl _)]
    cases w <;> rfl
  have h₁ := ldValue_run call m st sp hlen (Nat.lt_of_succ_lt hsp) hc ha
  have h₂ := ld_run call m st₁ (sp + 1) hlen hsp hl h1
  have h₃ := bin_run call m st₂ sp opTable_code (by rwa [hv₁, hv₂]) ho
  refine ⟨Function.update st₂ sp (setLow w.bytes (st₂ sp) r), ?_, fun i hi => ?_, ?_⟩
  · simp only [stepCode, text_append, List.length_append, length_codeByte, length_codeDword, length_leBytes,
      ← Nat.add_assoc]
    exact h₁.trans (h₂.trans h₃)
  · rw [Function.update_of_ne (by omega), hst₂, Function.update_of_ne (by omega), hst₁,
      Function.update_of_ne (by omega)]
  · rw [Function.update_self, setLow_mod (Nat.le_refl _)]

theorem compileNode_pre (hn : n.nodeType.kind? = some (.pre op)) (hw : width? n.dataType = some w)
    {c : NodeInfo} {grand sibling : Node} (hc : c.nodeType = .id) :
    compileNode n (.node c grand sibling) = stepCode w c.id.varValue (op.code w) ++
      codeByte (w.pick opStByte opStWord opStDword) ++ codeByte opLdValueDwordStack := by
  unfold compileNode
  cases hT : n.nodeType <;> simp [NodeType.kind?, hT] at hn <;> subst hn <;> simp only [hc, if_true] <;>
    exact preStep_eq hw

theorem compileNode_post (hn : n.nodeType.kind? = some (.post op)) (hw : width? n.dataType = some w)
    {c : NodeInfo} {grand sibling : Node} (hc : c.nodeType = .id) :
    compileNode n (.node c grand sibling) = codeByte opLdDword ++ codeDword c.id.varValue ++
      stepCode w c.id.varValue (op.code w) ++ codeByte (w.pick opStByte opStWord opStDword) ++ codeByte opPop := by
  unfold compileNode
  cases hT : n.nodeType <;> simp [NodeType.kind?, hT] at hn <;> subst hn <;> simp only [hc, if_true] <;>
    exact postStep_eq hw

theorem word_setWord_mod {a r j : Nat} (hk : k ≤ j) (hw : w.bytes = k) :
    (m.setWord a w.bytes r).word a j % 256 ^ k = r % 256 ^ k := by
  rw [← Mem.setWord_mod, Mem.word_mod_of_le hk, ← hw, Mem.word_setWord (Nat.mod_lt _ (Nat.pow_pos (by decide)))]

theorem pre_pushes {m₀ : Mem} (hlen : text.length = finshTextMax) (hsp : sp + 2 < finshStackMax)
    (hn : n.nodeType.kind? = some (.pre op)) (hchild : child.eval call m₀ = some (vs, m))
    (hk : n.kept child ks = some k) (he : n.eval call child vs m = some (v, m'))
    (hc : CodeAt text pc (compileNode n child).text) (hcells : Cells st sp ks vs) :
    Pushes call text m st sp ks.length pc (compileNode n child).text.length k v m' ∧
      (compileNode n child).errno = none := by
  simp only [NodeInfo.kept, NodeInfo.eval, hn, Option.bind_eq_bind, Option.bind_some] at hk he
  rcases ks with _ | ⟨k₁, _ | ⟨k₂, ks⟩⟩ <;> try cases hk
  obtain ⟨a, rfl⟩ : ∃ a, vs = [a] := List.length_eq_one_iff.1 hcells.length
  obtain ⟨hv, -⟩ := hcells
  obtain ⟨w, hw, hk⟩ := Option.bind_eq_some_iff.1 hk
  obtain ⟨⟨rfl, hvar, haddr⟩, hk'⟩ := Option.ite_none_right_eq_some.1 hk
  cases hk'
  obtain ⟨p, hp⟩ := Option.isSome_iff_exists.1 hvar
  obtain ⟨dataType, ptr, type, address, value, rfl, rfl⟩ := Node.variable?_eq_some hp
  -- the child pushes the address that the code of the node loads from
  obtain rfl : address = true := haddr
  have ha : a = (ptr + 28) % 2 ^ 32 := List.head_eq_of_cons_eq (Node.eval_variable hchild)
  simp only [hw, Option.bind_some] at he
  obtain ⟨r, hr, rfl, rfl⟩ := stepAt_eq_some he
  rw [compileNode_pre hn hw rfl] at hc ⊢
  obtain ⟨hc, hl⟩ := code_split.1 hc
  obtain ⟨hc, hs⟩ := code_split.1 hc
  rw [ha] at hr
  obtain ⟨st₁, h₁, hbelow, hnew⟩ := stepCode_run call st (sp + 1) hlen hsp hr hc
  have hsame : st₁ sp % 256 ^ 4 = a := by rw [hbelow sp (Nat.lt_succ_self sp), hv]
  have h₂ := st_run call m st₁ sp hs
  rw [hsame, hnew, Mem.setWord_mod] at h₂
  have h₃ := ldValueStack_run call (m.setWord a w.bytes r) st₁ sp (w := .dword)
    (by rwa [text_append, List.length_append, ← Nat.add_assoc] at hl)
  rw [hsame] at h₃
  refine ⟨⟨Function.update st₁ sp (setLow 4 (st₁ sp) ((m.setWord a w.bytes r).word a 4)), ?_, fun i hi => ?_, ?_⟩, rfl⟩
  · simp only [text_append, List.length_append, length_codeByte, ← Nat.add_assoc]
    exact h₁.trans (h₂.trans h₃)
  · rw [Function.update_of_ne (by omega), hbelow i (by omega)]
  · rw [Function.update_self, setLow_mod (by cases w <;> decide)]
    exact word_setWord_mod (by cases w <;> decide) rfl

theorem post_pushes (hlen : text.length = finshTextMax) (hsp : sp + 3 < finshStackMax)
    (hn : n.nodeType.kind? = some (.post op)) (hk : n.kept child ks = some k)
    (he : n.eval call child vs m = some (v, m')) (hc : CodeAt text pc (compileNode n child).text)
    (hcells : Cells st sp ks vs) :
    Pushes call text m st sp ks.length pc (compileNode n child).text.length k v m' ∧
      (compileNode n child).errno = none := by
  simp only [NodeInfo.kept, NodeInfo.eval, hn, Option.bind_eq_bind, Option.bind_some] at hk he
  rcases ks with _ | ⟨k₁, _ | ⟨k₂, ks⟩⟩ <;> try cases hk
  obtain ⟨a, rfl⟩ : ∃ a, vs = [a] := List.length_eq_one_iff.1 hcells.length
  obtain ⟨hv, -⟩ := hcells
  obtain ⟨w, hw, hk⟩ := Option.bind_eq_some_iff.1 hk
  obtain ⟨hvar, hk'⟩ := Option.ite_none_right_eq_some.1 hk
  cases hk'
  obtain ⟨p, hp⟩ := Option.isSome_iff_exists.1 hvar
  simp only [hw, hp, Option.bind_some] at he
  obtain ⟨x, hx, he⟩ := Option.bind_eq_some_iff.1 he
  cases he
  obtain ⟨r, hr, -, hm⟩ := stepAt_eq_some hx
  obtain ⟨dataType, ptr, type, address, value, rfl, rfl⟩ := Node.variable?_eq_some hp
  rw [compileNode_post hn hw rfl] at hc ⊢
  obtain ⟨hc, hpop⟩ := code_split.1 hc
  obtain ⟨hc, hs⟩ := code_split.1 hc
  obtain ⟨hc, hstep⟩ := code_split.1 hc
  obtain ⟨hc, ha⟩ := code_split.1 hc
  simp only [text_append, List.length_append, length_codeByte, length_codeDword, ← Nat.add_assoc] at hstep hs hpop
  have h₁ := ld_run call m st (sp + 1) (w := .dword) hlen (Nat.lt_of_succ_lt (Nat.lt_of_succ_lt hsp)) hc ha
  obtain ⟨st₂, h₂, hbelow, hnew⟩ := stepCode_run call
    (Function.update st (sp + 1) (setLow 4 (st (sp + 1)) (ptr + 28))) (sp + 2) hlen hsp hr hstep
  have haddr : st₂ (sp + 1) % 256 ^ 4 = (ptr + 28) % 256 ^ 4 := by
    rw [hbelow (sp + 1) (Nat.lt_succ_self _), Function.update_self, setLow_mod (Nat.le_refl 4)]
  have h₃ := st_run call m st₂ (sp + 1) hs
  have hm' : m.setWord ((ptr + 28) % 256 ^ 4) w.bytes r = x.2 := hm.symm
  rw [haddr, hnew, Mem.setWord_mod, hm'] at h₃
  have h₄ := pop_run call x.2 st₂ (sp + 1) hpop
  have hold : ∀ i < sp + 1, st₂ i = st i := fun i hi => by
    rw [hbelow i (by omega), Function.update_of_ne (by omega)]
  refine ⟨⟨st₂, ?_, fun i hi => hold i (by omega), ?_⟩, rfl⟩
  · simp only [text_append, List.length_append, length_codeByte, length_codeDword, ← Nat.add_assoc]
    exact h₁.trans (h₂.trans (h₃.trans h₄))
  · rw [hold sp (Nat.lt_succ_self sp), hv]

theorem getvalue_pushes (hn : n.nodeType.kind? = some .getvalue) (hk : n.kept child ks = some k)
    (he : n.eval call child vs m = some (v, m')) (hc : CodeAt text pc (compileNode n child).text)
    (hcells : Cells st sp ks vs) :
    Pushes call text m st sp ks.length pc (compileNode n child).text.length k v m' ∧
      (compileNode n child).errno = none := by
  have hT : n.nodeType = .sysGetvalue := by cases hT : n.nodeType <;> simp [NodeType.kind?, hT] at hn ⊢
  simp only [NodeInfo.kept, NodeInfo.eval, hn, Option.bind_eq_bind, Option.bind_some] at hk he
  rcases ks with _ | ⟨k₁, _ | ⟨k₂, ks⟩⟩ <;> try cases hk
  obtain ⟨a, rfl⟩ : ∃ a, vs = [a] := List.length_eq_one_iff.1 hcells.length
  obtain ⟨hv, -⟩ := hcells
  by_cases h4 : k₁ = 4
  swap
  · cases (if_pos h4).symm.trans hk
  subst h4
  simp only [compileNode, hT] at hc ⊢
  rcases haddr : n.address with _ | _
  · simp only [haddr, ne_eq, not_true, if_false, Bool.false_eq_true] at hk he hc ⊢
    obtain ⟨w, hw, rfl⟩ := Option.map_eq_some_iff.1 hk
    simp only [hw, Option.bind_some, Option.some.injEq, Prod.mk.injEq] at he
    obtain ⟨rfl, rfl⟩ := he
    rw [byDataType_eq hw] at hc ⊢
    have h := ldValueStack_run call m st sp hc
    rw [hv] at h
    exact ⟨Pushes.update (Nat.le_refl _) word_mod h, rfl⟩
  · simp only [haddr, ne_eq, not_true, if_false, if_true, Option.some.injEq, Prod.mk.injEq] at hk he ⊢
    obtain ⟨rfl, rfl⟩ := he
    subst hk
    exact ⟨⟨st, .refl, fun _ _ => rfl, hv⟩, rfl⟩

theorem getaddr_pushes (hn : n.nodeType.kind? = some .getaddr) (hk : n.kept child ks = some k)
    (he : n.eval call child vs m = some (v, m')) (hcells : Cells st sp ks vs) :
    Pushes call text m st sp ks.length pc (compileNode n child).text.length k v m' ∧
      (compileNode n child).errno = none := by
  have hT : n.nodeType = .sysGetaddr := by cases hT : n.nodeType <;> simp [NodeType.kind?, hT] at hn ⊢
  simp only [NodeInfo.kept, NodeInfo.eval, hn, Option.bind_eq_bind, Option.bind_some] at hk he
  rcases ks with _ | ⟨k₁, _ | ⟨k₂, ks⟩⟩ <;> try cases hk
  obtain ⟨a, rfl⟩ : ∃ a, vs = [a] := List.length_eq_one_iff.1 hcells.length
  obtain ⟨hv, -⟩ := hcells
  cases he
  simp only [compileNode, hT]
  exact ⟨⟨st, .refl, fun _ _ => rfl, hv⟩, rfl⟩

theorem size_of_variable {kind : Kind} (hn : n.nodeType.kind? = some kind) (hkind : kind = .pre op ∨ kind = .post op)
    (hk : n.kept child ks = some k) : 1 ≤ child.size := by
  rcases child with _ | ⟨c, grand, sibling⟩
  · rcases hkind with rfl | rfl <;> rcases ks with _ | ⟨k₁, _ | ⟨k₂, ks⟩⟩ <;>
      simp [NodeInfo.kept, hn, Node.variable?] at hk
  · exact Nat.le_add_left 1 _

/-- The code of a node behind the code of its children. -/
theorem node_pushes {m₀ : Mem} (hlen : text.length = finshTextMax) (hsp : sp + 2 * (child.size + 1) ≤ finshStackMax)
    (hchild : child.kept = some ks) (hvs : child.eval call m₀ = some (vs, m)) (hk : n.kept child ks = some k)
    (he : n.eval call child vs m = some (v, m')) (hc : CodeAt text pc (compileNode n child).text)
    (hcells : Cells st sp ks vs) :
    Pushes call text m st sp ks.length pc (compileNode n child).text.length k v m' ∧
      (compileNode n child).errno = none := by
  rcases hn : n.nodeType.kind? with _ | kind
  · simp [NodeInfo.kept, hn] at hk
  cases kind with
  | ident => exact ident_pushes hlen (by omega) hn hk he hc hcells
  | const w => exact const_pushes hlen (by omega) hn hk he hc hcells
  | bin op => exact bin_pushes hn hk he hc hcells
  | bitwise => exact bitwise_pushes hn hk he hc hcells
  | func => exact func_pushes hlen hn hchild hk he hc hcells
  | assign => exact assign_pushes hn hk he hc hcells
  | pre op => exact pre_pushes hlen (by have := size_of_variable hn (.inl rfl) hk; omega) hn hvs hk he hc hcells
  | post op => exact post_pushes hlen (by have := size_of_variable hn (.inr rfl) hk; omega) hn hk he hc hcells
  | getvalue => exact getvalue_pushes hn hk he hc hcells
  | getaddr => exact getaddr_pushes hn hk he hcells

theorem compile_run {t : Node} (st : Nat → Nat) (hlen : text.length = finshTextMax)
    (hsp : sp + 2 * t.size ≤ finshStackMax)
    (hk : t.kept = some ks) (he : t.eval call m = some (vs, m')) (hc : CodeAt text pc (compile t).text) :
    (∃ st', Reaches (vmStep call text) ⟨m, st, sp, pc⟩ ⟨m', st', sp + ks.length, pc + (compile t).text.length⟩ ∧
      (∀ i < sp, st' i = st i) ∧ Cells st' sp ks vs) ∧ (compile t).errno = none := by
  induction t generalizing sp pc m m' ks vs st with
  | null =>
    cases hk
    cases he
    exact ⟨⟨st, .refl, fun _ _ => rfl, trivial⟩, rfl⟩
  | node n child sibling ihc ihs =>
    simp only [Node.kept, Node.eval, Option.bind_eq_bind] at hk he
    obtain ⟨ks₁, hk₁, hk⟩ := Option.bind_eq_some_iff.1 hk
    obtain ⟨k, hkn, hk⟩ := Option.bind_eq_some_iff.1 hk
    obtain ⟨ks₂, hk₂, hk⟩ := Option.bind_eq_some_iff.1 hk
    cases hk
    obtain ⟨⟨vs₁, m₁⟩, he₁, he⟩ := Option.bind_eq_some_iff.1 he
    obtain ⟨⟨v, m₂⟩, hen, he⟩ := Option.bind_eq_some_iff.1 he
    obtain ⟨⟨vs₂, m₃⟩, he₂, he⟩ := Option.bind_eq_some_iff.1 he
    cases he
    rw [compile] at hc ⊢
    rw [Node.size] at hsp
    obtain ⟨hc, hcs⟩ := code_split.1 hc
    obtain ⟨hcc, hcn⟩ := code_split.1 hc
    obtain ⟨⟨st₁, hr₁, hb₁, hcells⟩, herr₁⟩ := ihc st (show sp + 2 * child.size ≤ finshStackMax by omega) hk₁ he₁ hcc
    obtain ⟨⟨st₂, hr₂, hb₂, hv⟩, herr₂⟩ := node_pushes hlen
      (show sp + 2 * (child.size + 1) ≤ finshStackMax by omega) hk₁ he₁ hkn
      hen hcn hcells
    rw [text_append, List.length_append, ← Nat.add_assoc] at hcs
    obtain ⟨⟨st₃, hr₃, hb₃, hrest⟩, herr₃⟩ := ihs st₂
      (show sp + 1 + 2 * sibling.size ≤ finshStackMax by omega) hk₂ he₂ hcs
    refine ⟨⟨st₃, ?_, fun i hi => ?_, ?_, hrest⟩, ?_⟩
    · simp only [text_append, List.length_append, List.length_cons, ← Nat.add_assoc]
      rw [show sp + ks₂.length + 1 = sp + 1 + ks₂.length by omega]
      exact hr₁.trans (hr₂.trans hr₃)
    · rw [hb₃ i (by omega), hb₂ i hi, hb₁ i hi]
    · rw [hb₃ sp (Nat.lt_succ_self sp), hv]
    · rw [errno_append, errno_append, herr₁, herr₂, herr₃]
      rfl

end Bootloader.Finsh
