import Bootloader.FinshCompile

/-!
# A line of the shell is evaluated

`runTree_eval`: for every tree that fits the node table and the text segment, compiling it and running the code gives
the memory and the value that the tree means. The no-ops behind the code end the run, and the stack is large enough
for every tree. The text segment is not: `text_fits_iff` says how many `++` and `--` a tree can have.
-/

namespace Bootloader.Finsh

variable {call : Nat → List Nat → Mem → Option (Nat × Mem)} {text : List UInt8} {m m' : Mem} {st st' : Nat → Nat}
  {sp pc k v : Nat} {ks vs : List Nat} {n : NodeInfo} {child t : Node} {s s' : Vm}

/-! ### The loop of the machine -/

theorem exec_pc {i : Op} (h : i.exec call text s = some s') : s.pc ≤ s'.pc := by
  cases i <;> simp only [Op.exec, Vm.setCell] at h
  case noOp =>
    cases h
    exact Nat.le_refl _
  case bin op w =>
    split at h
    · cases h
    · obtain ⟨r, -, h⟩ := Option.bind_eq_some_iff.1 h
      cases h
      exact Nat.le_refl _
  case call =>
    split at h
    · cases h
    · obtain ⟨r, -, h⟩ := Option.bind_eq_some_iff.1 h
      cases h
      exact Nat.le_add_right _ _
  all_goals
    split at h
    · cases h
    · cases h
      simp

theorem vmStep_pc (h : vmStep call text s = some s') : s.pc < text.length ∧ s.pc < s'.pc := by
  rw [vmStep] at h
  rcases ho : text[s.pc]? with _ | o
  · simp [ho] at h
  · rw [ho] at h
    obtain ⟨i, -, h⟩ := Option.bind_eq_some_iff.1 h
    exact ⟨(List.getElem?_eq_some_iff.1 ho).1, exec_pc h⟩

/-- The fuel of `vmRun` is enough for every run that reaches the end of the text segment. -/
theorem vmLoop_of_reaches (hlen : text.length = finshTextMax) (h : Reaches (vmStep call text) s s')
    (hend : s'.pc = finshTextMax) {fuel : Nat} (hf : finshTextMax < fuel + s.pc) :
    vmLoop call text fuel s = some s' := by
  induction h using Relation.ReflTransGen.head_induction_on generalizing fuel with
  | refl =>
    obtain ⟨fuel, rfl⟩ : ∃ f, fuel = f + 1 := Nat.exists_eq_succ_of_ne_zero (by omega)
    rw [vmLoop, if_neg (by omega)]
  | head hstep _ ih =>
    obtain ⟨hlt, hpc⟩ := vmStep_pc hstep
    obtain ⟨fuel, rfl⟩ : ∃ f, fuel = f + 1 := Nat.exists_eq_succ_of_ne_zero (by omega)
    rw [vmLoop, if_pos (by omega), hstep]
    exact ih (by omega)

theorem noOps_run (hz : ∀ i, pc ≤ i → i < finshTextMax → text[i]? = some 0)
    (hpc : pc ≤ finshTextMax) :
    Reaches (vmStep call text) ⟨m, st, sp, pc⟩ ⟨m, st, sp, finshTextMax⟩ := by
  obtain ⟨j, hj⟩ := Nat.exists_eq_add_of_le hpc
  induction j generalizing pc with
  | zero =>
    rw [hj]
    exact .refl
  | succ j ih =>
    have hs : vmStep call text ⟨m, st, sp, pc⟩ = some ⟨m, st, sp, pc + 1⟩ := by
      rw [vmStep, show text[pc]? = _ from hz pc (Nat.le_refl _) (by omega)]
      rfl
    exact (Reaches.one hs).trans (ih (fun i h₁ h₂ => hz i (by omega) h₂) (by omega) (by omega))

/-! ### Statements -/

/-- One statement after the other: the machine ends with the value of the last one on top. -/
theorem compileList_run {t : Node} (st : Nat → Nat) (hlen : text.length = finshTextMax)
    (hsp : sp + 2 * t.size ≤ finshStackMax)
    (hne : t ≠ .null) (hk : t.keptList = some k) (he : t.evalList call m = some (v, m'))
    (hc : CodeAt text pc (compileList t).text) :
    (∃ st', Reaches (vmStep call text) ⟨m, st, sp, pc⟩ ⟨m', st', sp + 1, pc + (compileList t).text.length⟩ ∧
      st' sp % 256 ^ k = v) ∧ (compileList t).errno = none := by
  induction t generalizing pc m st with
  | null => exact absurd rfl hne
  | node n child sibling _ ih =>
    -- the statement alone
    have hone {k₁ v₁ : Nat} {m₁ : Mem} (hk₁ : (Node.node n child .null).keptList = some k₁)
        (he₁ : (Node.node n child .null).evalList call m = some (v₁, m₁))
        (hc₁ : CodeAt text pc (compile (.node n child .null)).text) :
        (∃ st', Reaches (vmStep call text) ⟨m, st, sp, pc⟩
            ⟨m₁, st', sp + 1, pc + (compile (.node n child .null)).text.length⟩ ∧ st' sp % 256 ^ k₁ = v₁) ∧
          (compile (.node n child .null)).errno = none := by
      obtain ⟨ks, hks, hkn⟩ := Option.bind_eq_some_iff.1 hk₁
      obtain ⟨⟨vs, m₂⟩, hvs, hen⟩ := Option.bind_eq_some_iff.1 he₁
      have hkept : (Node.node n child .null).kept = some [k₁] := by simp [Node.kept, hks, hkn]
      have heval : (Node.node n child .null).eval call m = some ([v₁], m₁) := by simp [Node.eval, hvs, hen]
      rw [Node.size] at hsp
      have hsz : sp + 2 * (Node.node n child .null).size ≤ finshStackMax := by
        simp only [Node.size]
        omega
      obtain ⟨⟨st', hr, -, hv, -⟩, herr⟩ := compile_run st hlen hsz hkept heval hc₁
      exact ⟨⟨st', hr, hv⟩, herr⟩
    rcases sibling with _ | ⟨n', child', sibling'⟩
    · exact hone hk he hc
    · obtain ⟨ks, hks, hk'⟩ := Option.bind_eq_some_iff.1 hk
      obtain ⟨k₁, hkn, hk'⟩ := Option.bind_eq_some_iff.1 hk'
      obtain ⟨⟨vs, m₂⟩, hvs, he'⟩ := Option.bind_eq_some_iff.1 he
      obtain ⟨⟨v₁, m₁⟩, hen, he'⟩ := Option.bind_eq_some_iff.1 he'
      obtain ⟨hc, hrest⟩ := code_split.1 hc
      obtain ⟨hc, hpop⟩ := code_split.1 hc
      rw [text_append, List.length_append, length_codeByte, ← Nat.add_assoc] at hrest
      have hk₁ : (Node.node n child .null).keptList = some k₁ := Option.bind_eq_some_iff.2 ⟨ks, hks, hkn⟩
      have he₁ : (Node.node n child .null).evalList call m = some (v₁, m₁) :=
        Option.bind_eq_some_iff.2 ⟨_, hvs, hen⟩
      obtain ⟨⟨st₁, hr₁, -⟩, herr₁⟩ := hone hk₁ he₁ hc
      rw [Node.size] at hsp
      have hr₂ := pop_run call m₁ st₁ sp hpop
      obtain ⟨⟨st', hr₃, hv⟩, herr₂⟩ := ih st₁ (by omega) (by rintro ⟨⟩) hk' he' hrest
      refine ⟨⟨st', ?_, hv⟩, ?_⟩
      · simp only [compileList, text_append, List.length_append, length_codeByte, ← Nat.add_assoc]
        exact hr₁.trans (hr₂.trans hr₃)
      · rw [compileList, errno_append, errno_append, herr₁, herr₂]
        rfl
        · rintro ⟨⟩

theorem size_typeCheck (t : Node) (b : Bool) : (typeCheck t b).size = t.size := by
  induction t generalizing b with
  | null => rfl
  | node n child sibling ihc ihs => rw [typeCheck, Node.size, Node.size, ihc, ihs]

/-- A tree that means something has no variable of an unknown type. -/
theorem node_typeError {b : Bool} {d : Nat} (hk : ({ n.setAddr b with dataType := d } : NodeInfo).kept t ks = some k) :
    n.typeError child = none := by
  have hkind : (n.setAddr b).nodeType = n.nodeType ∧ (n.setAddr b).id = n.id := by
    rw [NodeInfo.setAddr]
    split <;> exact ⟨rfl, rfl⟩
  unfold NodeInfo.typeError
  split
  · rename_i hT hid
    rcases ks with _ | ⟨k₁, ks⟩ <;>
      simp [NodeInfo.kept, hkind.1, hkind.2, hT, hid, NodeType.kind?, Ident.place?, FinshType.width?] at hk
  · rename_i hT hid
    rcases ks with _ | ⟨k₁, ks⟩ <;>
      simp [NodeInfo.kept, hkind.1, hkind.2, hT, hid, NodeType.kind?, Ident.place?, FinshType.width?] at hk
  · rfl

theorem typeError_of_kept {b : Bool} (hk : (typeCheck t b).kept = some ks) : typeError t = none := by
  induction t generalizing b ks with
  | null => rfl
  | node n child sibling ihc ihs =>
    obtain ⟨ks₁, hk₁, hk⟩ := Option.bind_eq_some_iff.1 hk
    obtain ⟨k, hkn, hk⟩ := Option.bind_eq_some_iff.1 hk
    obtain ⟨ks₂, hk₂, -⟩ := Option.bind_eq_some_iff.1 hk
    rw [typeError, node_typeError hkn, ihs hk₂, ihc hk₁]
    rfl

theorem typeError_of_keptList {b : Bool} (hk : (typeCheck t b).keptList = some k) : typeError t = none := by
  induction t generalizing b with
  | null => rfl
  | node n child sibling _ ihs =>
    rw [typeError]
    rcases sibling with _ | ⟨n', child', sibling'⟩
    · obtain ⟨ks₁, hk₁, hkn⟩ := Option.bind_eq_some_iff.1 hk
      rw [node_typeError hkn, typeError_of_kept hk₁]
      rfl
    · obtain ⟨ks₁, hk₁, hk⟩ := Option.bind_eq_some_iff.1 hk
      obtain ⟨k, hkn, hk⟩ := Option.bind_eq_some_iff.1 hk
      rw [node_typeError hkn, typeError_of_kept hk₁, ihs hk]
      rfl

theorem Width.bytes_le (w : Width) : w.bytes ≤ 4 := by cases w <;> decide

theorem NodeInfo.kept_le (hk : n.kept child ks = some k) (h4 : ∀ x ∈ ks, x ≤ 4) : k ≤ 4 := by
  obtain ⟨kind, -, hk⟩ := Option.bind_eq_some_iff.1 hk
  split at hk
  case h_1 =>
    split at hk
    · cases hk
      exact Nat.le_refl 4
    · obtain ⟨⟨w, a⟩, -, hk⟩ := Option.bind_eq_some_iff.1 hk
      cases hk
      split
      · exact Nat.le_refl 4
      · exact w.bytes_le
  case h_2 =>
    cases hk
    exact Width.bytes_le _
  case h_5 =>
    obtain ⟨-, hk⟩ := Option.ite_none_right_eq_some.1 hk
    cases hk
    exact Nat.le_refl 4
  case h_8 =>
    obtain ⟨w, -, hk⟩ := Option.bind_eq_some_iff.1 hk
    obtain ⟨-, hk⟩ := Option.ite_none_right_eq_some.1 hk
    cases hk
    exact h4 _ List.mem_cons_self
  case h_9 =>
    split_ifs at hk
    · cases hk
      exact Nat.le_refl 4
    · obtain ⟨w, -, rfl⟩ := Option.map_eq_some_iff.1 hk
      exact w.bytes_le
  case h_10 =>
    cases hk
    exact h4 _ List.mem_cons_self
  case h_11 => cases hk
  all_goals
    obtain ⟨w, -, hk⟩ := Option.bind_eq_some_iff.1 hk
    obtain ⟨-, hk⟩ := Option.ite_none_right_eq_some.1 hk
    cases hk
    exact w.bytes_le

theorem Node.kept_le (hk : t.kept = some ks) : ∀ x ∈ ks, x ≤ 4 := by
  induction t generalizing ks with
  | null =>
    cases hk
    simp
  | node n child sibling ihc ihs =>
    obtain ⟨ks₁, hk₁, hk⟩ := Option.bind_eq_some_iff.1 hk
    obtain ⟨k, hkn, hk⟩ := Option.bind_eq_some_iff.1 hk
    obtain ⟨ks₂, hk₂, hk⟩ := Option.bind_eq_some_iff.1 hk
    cases hk
    intro x hx
    rcases List.mem_cons.1 hx with rfl | hx
    · exact NodeInfo.kept_le hkn (ihc hk₁)
    · exact ihs hk₂ x hx

theorem Node.keptList_le (hk : t.keptList = some k) : k ≤ 4 := by
  induction t with
  | null =>
    cases hk
    exact Nat.le_refl 4
  | node n child sibling _ ihs =>
    rcases sibling with _ | ⟨n', child', sibling'⟩
    · obtain ⟨ks, hks, hkn⟩ := Option.bind_eq_some_iff.1 hk
      exact NodeInfo.kept_le hkn (Node.kept_le hks)
    · obtain ⟨ks, -, hk⟩ := Option.bind_eq_some_iff.1 hk
      obtain ⟨_, -, hk⟩ := Option.bind_eq_some_iff.1 hk
      exact ihs hk

theorem zeros_behind {code : List UInt8} (hfit : code.length ≤ finshTextMax) {i : Nat} (h : code.length ≤ i)
    (hi : i < finshTextMax) : (code ++ List.replicate (finshTextMax - code.length) 0)[i]? = some 0 := by
  rw [List.getElem?_append_right h, List.getElem?_replicate, if_pos (by omega)]

/-- Compiling a tree and running the code gives what the tree means: the memory behind it and the value of its last
statement in the bottom cell of the stack, as far as its bytes count. -/
theorem runTree_eval {root : Node} (st : Nat → Nat) (hsize : root.size ≤ finshNodeMax)
    (hfit : (compileList (typeCheck root false)).text.length ≤ finshTextMax)
    (hk : (typeCheck root false).keptList = some k) (he : (typeCheck root false).evalList call m = some (v, m')) :
    ∃ s, runTree call root m st = some s ∧ s.mem = m' ∧ stackBottom s % 256 ^ k = v := by
  set code := (compileList (typeCheck root false)).text with hcode
  set full := code ++ List.replicate (finshTextMax - code.length) 0 with hfull
  have hlen : full.length = finshTextMax := by
    rw [hfull, List.length_append, List.length_replicate]
    omega
  have hsz : 0 + 2 * (typeCheck root false).size ≤ finshStackMax := by
    rw [size_typeCheck]
    simp only [finshNodeMax, finshStackMax] at hsize ⊢
    omega
  have hmain : (∃ st' sp, Reaches (vmStep call full) ⟨m, Function.update st 0 0, 0, 0⟩ ⟨m', st', sp, 0 + code.length⟩ ∧
      st' 0 % 256 ^ k = v) ∧ (compileList (typeCheck root false)).errno = none := by
    by_cases hne : typeCheck root false = .null
    · simp only [hne, Node.keptList, Node.evalList, Option.some.injEq, Prod.mk.injEq] at hk he
      obtain ⟨rfl, rfl⟩ := he
      have hnil : code = [] := by rw [hcode, hne]; rfl
      rw [hnil, hne]
      exact ⟨⟨_, 0, .refl, by rw [Function.update_self, Nat.zero_mod]⟩, rfl⟩
    · obtain ⟨⟨st', hr, hv⟩, herr⟩ := compileList_run (Function.update st 0 0) hlen hsz hne hk he CodeAt.refl
      exact ⟨⟨st', 0 + 1, hr, hv⟩, herr⟩
  obtain ⟨⟨st', sp, hr, hv⟩, herr⟩ := hmain
  rw [Nat.zero_add] at hr
  have hend := hr.trans (noOps_run (fun i h₁ h₂ => zeros_behind hfit h₁ h₂) hfit)
  have hcomp : compilerRun root = (some full, none) := by
    rw [compilerRun, if_pos hfit, herr, typeError_of_keptList hk]
    rfl
  refine ⟨⟨m', st', sp, finshTextMax⟩, ?_, rfl, ?_⟩
  · rw [runTree, hcomp]
    exact vmLoop_of_reaches hlen hend rfl (Nat.lt_succ_self finshTextMax)
  · have hd : 256 ^ k ∣ 256 ^ 4 := Nat.pow_dvd_pow 256 (Node.keptList_le hk)
    rw [← hv]
    exact Nat.mod_mod_of_dvd _ hd

/-- `x = sum(3, 4 * 5); x++; ++x` for an `int x` whose `finsh_var` is at address 100. -/
def sampleTree : Node :=
  let x (sibling : Node) : Node := .node ⟨.id, 0, .var 100 .int, false, 0⟩ .null sibling
  let int (i : Nat) (sibling : Node) : Node := .node ⟨.valueInt, 0, .none, false, i⟩ .null sibling
  let sys (type : NodeType) (child sibling : Node) : Node := .node ⟨type, 0, .none, false, 0⟩ child sibling
  sys .sysAssign
    (x (sys .sysFunc (.node ⟨.id, 0, .syscall 300 7, false, 0⟩ .null (int 3 (sys .sysMul (int 4 (int 5 .null)) .null)))
      .null))
    (sys .sysInc (x .null) (sys .sysPreinc (x .null) .null))

def sampleCall (f : Nat) (args : List Nat) (m : Mem) : Option (Nat × Mem) :=
  if f = 7 then some (args.sum, m) else none

theorem runTree_eval_sample : ∃ s, runTree sampleCall sampleTree (fun _ => 0) (fun _ => 2 ^ 32 - 1) = some s ∧
    s.mem.word 128 4 = 25 ∧ stackBottom s % 256 ^ 4 = 25 := by
  have hx : ((typeCheck sampleTree false).evalList sampleCall (fun _ => 0)).any
      (fun x => decide (x.1 = 25 ∧ x.2.word 128 4 = 25)) = true := by decide +kernel
  obtain ⟨⟨v, m'⟩, he, hp⟩ := (Option.any_eq_true _ _).1 hx
  obtain ⟨rfl, hm⟩ := of_decide_eq_true hp
  obtain ⟨s, hs, rfl, hval⟩ := runTree_eval (fun _ => 2 ^ 32 - 1) (k := 4) (by decide +kernel) (by decide +kernel)
    (by decide +kernel) he
  exact ⟨s, hs, hm, hval⟩

/-! ### The text segment -/

def NodeType.isStep (type : NodeType) : Bool :=
  type = .sysPreinc ∨ type = .sysPredec ∨ type = .sysInc ∨ type = .sysDec

/-- The number of `++` and `--` in a chain. -/
def Node.steps : Node → Nat
  | .null => 0
  | .node n child sibling => (if n.nodeType.isStep then 1 else 0) + child.steps + sibling.steps

theorem steps_typeCheck (t : Node) (b : Bool) : (typeCheck t b).steps = t.steps := by
  induction t generalizing b with
  | null => rfl
  | node n child sibling ihc ihs =>
    have hT : (n.setAddr b).nodeType = n.nodeType := by
      rw [NodeInfo.setAddr]
      split <;> rfl
    rw [typeCheck, Node.steps, Node.steps, ihc, ihs, hT]

theorem byDataType_length (d b x y : Nat) : (byDataType d b x y).text.length ≤ 1 := by
  rw [byDataType]
  split_ifs <;> simp [Asm.nil]

theorem loadVar_length (type : FinshType) (address : Bool) (a : Nat) : (loadVar type address a).text.length ≤ 5 := by
  cases type <;> simp [loadVar, Asm.nil]

theorem storeAssign_length (d : Nat) : (storeAssign d).text.length ≤ 2 := by
  rw [storeAssign]
  split_ifs <;> simp [errorSet]

theorem preStep_length (d a b x y : Nat) : (preStep d a b x y).text.length ≤ 18 := by
  rw [preStep]
  split_ifs <;> simp [Asm.nil, codeWord]

theorem postStep_length (d a b x y : Nat) : (postStep d a b x y).text.length ≤ 18 := by
  rw [postStep]
  split_ifs <;> simp [Asm.nil, codeWord]

theorem compileNode_length {n : NodeInfo} (hn : n.nodeType.isStep = false) (child : Node) :
    (compileNode n child).text.length ≤ 5 := by
  have hb {b x y : Nat} : (byDataType n.dataType b x y).text.length ≤ 5 :=
    Nat.le_trans (byDataType_length ..) (by decide)
  have hs (d : Nat) : (storeAssign d).text.length ≤ 5 := Nat.le_trans (storeAssign_length d) (by decide)
  unfold compileNode
  cases hT : n.nodeType
  case id =>
    rcases n.id with _ | _ | _ | _
    · exact Nat.zero_le _
    · exact loadVar_length ..
    · exact loadVar_length ..
    · exact Nat.le_refl 5
  case sysFunc => cases child <;> simp [Asm.nil]
  case sysAssign =>
    rcases child with _ | ⟨c, grand, sibling⟩
    · exact Nat.zero_le _
    · simp only
      split_ifs
      · exact hs _
      · exact hs _
      · exact Nat.zero_le _
  case sysGetvalue =>
    simp only
    split_ifs
    · exact Nat.zero_le _
    · exact hb
  case sysPreinc | sysPredec | sysInc | sysDec => simp [NodeType.isStep, hT] at hn
  case valueChar | valueInt | valueLong | valueString | valueNull | sysNull | sysGetaddr | unknown | sysCast =>
    simp [Asm.nil, errorSet]
  all_goals exact hb

theorem compileNode_length_step {n : NodeInfo} (hn : n.nodeType.isStep = true) (child : Node) :
    (compileNode n child).text.length ≤ 18 := by
  unfold compileNode
  cases hT : n.nodeType
  case sysPreinc | sysPredec =>
    rcases child with _ | ⟨c, grand, sibling⟩
    · exact Nat.zero_le _
    · simp only
      split_ifs
      · exact preStep_length ..
      · exact Nat.zero_le _
  case sysInc | sysDec =>
    rcases child with _ | ⟨c, grand, sibling⟩
    · exact Nat.zero_le _
    · simp only
      split_ifs
      · exact postStep_length ..
      · exact Nat.zero_le _
  all_goals simp [NodeType.isStep, hT] at hn

theorem compile_length (t : Node) : (compile t).text.length ≤ 5 * t.size + 13 * t.steps := by
  induction t with
  | null => exact Nat.le_refl 0
  | node n child sibling ihc ihs =>
    have hn : (compileNode n child).text.length ≤ 5 + 13 * (if n.nodeType.isStep then 1 else 0) := by
      rcases hT : n.nodeType.isStep with _ | _
      · exact compileNode_length hT child
      · exact compileNode_length_step hT child
    rw [compile, text_append, text_append, List.length_append, List.length_append, Node.size, Node.steps]
    omega

theorem compileList_length (t : Node) : (compileList t).text.length ≤ 6 * t.size + 13 * t.steps := by
  induction t with
  | null => exact Nat.le_refl 0
  | node n child sibling _ ihs =>
    have hone := compile_length (.node n child .null)
    simp only [Node.size, Node.steps] at hone ⊢
    rcases sibling with _ | ⟨n', child', sibling'⟩
    · simp only [compileList, Node.size, Node.steps]
      omega
    · simp only [compileList, text_append, List.length_append, length_codeByte, Node.size, Node.steps] at ihs ⊢
      omega

def constNode (sibling : Node) : Node := .node ⟨.valueInt, 0, .none, false, 1⟩ .null sibling

/-- `x++` on an `int` at address 0. -/
def incNode (sibling : Node) : Node :=
  .node ⟨.sysInc, 0, .none, false, 0⟩ (.node ⟨.id, 0, .var 0 .int, false, 0⟩ .null .null) sibling

/-- Every line with at most two `++` and `--` fits the text segment, and no larger bound is safe: the node table lets
lines through that the compiler writes over the end of the segment. -/
theorem text_fits_iff (c : Nat) : (∀ t : Node, t.size ≤ finshNodeMax → t.steps ≤ c →
    (compileList (typeCheck t false)).text.length ≤ finshTextMax) ↔ c ≤ 2 := by
  constructor
  · intro h
    by_contra hc
    have hbad := h (incNode (incNode (incNode (constNode (constNode (constNode (constNode (constNode (constNode
      (constNode (constNode (constNode (constNode .null))))))))))))) (by decide)
        (Nat.le_trans (by decide) (Nat.lt_of_not_le hc))
    revert hbad
    decide +kernel
  · intro hc t hsize hsteps
    have h := compileList_length (typeCheck t false)
    rw [size_typeCheck, steps_typeCheck] at h
    simp only [finshNodeMax, finshTextMax] at hsize ⊢
    omega

end Bootloader.Finsh
