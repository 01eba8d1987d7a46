import Bootloader.Finsh

/-!
# What a tree means

`Node.eval` gives the values of a chain of nodes and the memory behind it, from the trees alone: no stack and no code.
`Node.kept` says how many low bytes of each value count. It is `none` for the trees on which the compiler and C part:
an operator over a function that returns no width, an operand narrower than the operator, a narrow argument of a
function, `++` on a system variable.
-/

namespace Bootloader.Finsh

def width? (dataType : Nat) : Option Width :=
  if dataType = dataTypeByte then some .byte
  else if dataType = dataTypeWord then some .word
  else if dataType = dataTypeDword then some .dword
  else none

def FinshType.width? : FinshType → Option Width
  | .char | .uchar => some .byte
  | .short | .ushort => some .word
  | .int | .uint | .long | .ulong | .charp | .shortp | .intp | .longp => some .dword
  | .void | .voidp | .unknown => none

/-- The width of a variable and where its value is. -/
def Ident.place? : Ident → Option (Width × Nat)
  | .var ptr type => type.width?.map (·, (ptr + 28) % 2 ^ 32)
  | .sysvar _ type addr => type.width?.map (·, addr % 2 ^ 32)
  | .syscall _ _ | .none => Option.none

/-- What a node does with its children. -/
inductive Kind
  | ident
  | const (w : Width)
  | bin (op : BinOp)
  | bitwise
  | func
  | assign
  | pre (op : BinOp)
  | post (op : BinOp)
  | getvalue
  | getaddr
deriving DecidableEq, Repr

def NodeType.kind? : NodeType → Option Kind
  | .id => some .ident
  | .valueChar => some (.const .byte)
  | .valueInt | .valueLong | .valueString | .valueNull => some (.const .dword)
  | .sysAdd => some (.bin .add)
  | .sysSub => some (.bin .sub)
  | .sysMul => some (.bin .mul)
  | .sysDiv => some (.bin .div)
  | .sysMod => some (.bin .mod)
  | .sysAnd => some (.bin .and)
  | .sysOr => some (.bin .or)
  | .sysXor => some (.bin .xor)
  | .sysShl => some (.bin .shl)
  | .sysShr => some (.bin .shr)
  | .sysBitwise => some .bitwise
  | .sysFunc => some .func
  | .sysAssign => some .assign
  | .sysPreinc => some (.pre .add)
  | .sysPredec => some (.pre .sub)
  | .sysInc => some (.post .add)
  | .sysDec => some (.post .sub)
  | .sysGetvalue => some .getvalue
  | .sysGetaddr => some .getaddr
  | .unknown | .sysCast | .sysNull => none

/-- The variable that `++` or `--` works on. -/
def Node.variable? : Node → Option Nat
  | .node ⟨.id, _, .var ptr _, _, _⟩ .null .null => some ((ptr + 28) % 2 ^ 32)
  | _ => none

def Node.address : Node → Bool
  | .node n _ _ => n.address
  | .null => false

/-- The width an assignment to this node stores. -/
def Node.assignWidth? : Node → Option Width
  | .node ⟨.id, dataType, _, _, _⟩ _ _ => Finsh.width? dataType
  | .node ⟨.sysGetvalue, dataType, _, _, _⟩ _ _ => Finsh.width? (dataType % 16)
  | _ => none

/-! ### Values -/

section
variable (call : Nat → List Nat → Mem → Option (Nat × Mem))

/-- `*a = *a op 1` at a width, with the value before and after. -/
def stepAt (op : BinOp) (w : Width) (a : Nat) (m : Mem) : Option (Nat × Mem) := do
  let r ← op.eval w (m.word a w.bytes) 1
  some (r % 256 ^ w.bytes, m.setWord a w.bytes r)

def NodeInfo.eval (n : NodeInfo) (child : Node) (vs : List Nat) (m : Mem) : Option (Nat × Mem) := do
  match ← n.nodeType.kind?, vs with
  | .ident, [] =>
    match n.id with
    | .syscall _ func => some (func % 2 ^ 32, m)
    | id => do
      let (w, a) ← id.place?
      some (if n.address then a else m.word a w.bytes, m)
  | .const w, [] => some (n.value % 256 ^ w.bytes, m)
  | .bin op, [a, b] => do
    let w ← width? n.dataType
    let r ← op.eval w (a % 256 ^ w.bytes) (b % 256 ^ w.bytes)
    some (r % 256 ^ w.bytes, m)
  | .bitwise, [a] => do
    let w ← width? n.dataType
    some (w.not a, m)
  | .func, f :: args => do
    let (r, m) ← call f (if args = [] then [0] else args) m
    some (r % 2 ^ 32, m)
  | .assign, [a, v] => do
    let w ← child.assignWidth?
    some (v % 256 ^ w.bytes, m.setWord a w.bytes v)
  | .pre op, [a] => do stepAt op (← width? n.dataType) a m
  | .post op, [v] => do
    let (_, m) ← stepAt op (← width? n.dataType) (← child.variable?) m
    some (v, m)
  | .getvalue, [a] =>
    if n.address then some (a, m)
    else do
      let w ← width? n.dataType
      some (m.word a w.bytes, m)
  | .getaddr, [a] => some (a, m)
  | _, _ => none

/-- The children from left to right, then the node, then its siblings. -/
def Node.eval : Node → Mem → Option (List Nat × Mem)
  | .null, m => some ([], m)
  | .node n child sibling, m => do
    let (vs, m) ← child.eval m
    let (v, m) ← n.eval call child vs m
    let (rest, m) ← sibling.eval m
    some (v :: rest, m)

/-- A list of statements: the value is that of the last. -/
def Node.evalList : Node → Mem → Option (Nat × Mem)
  | .null, m => some (0, m)
  | .node n child .null, m => do
    let (vs, m) ← child.eval call m
    n.eval call child vs m
  | .node n child sibling, m => do
    let (vs, m) ← child.eval call m
    let (_, m) ← n.eval call child vs m
    sibling.evalList m

end

/-! ### The bytes that count -/

def NodeInfo.kept (n : NodeInfo) (child : Node) (ks : List Nat) : Option Nat := do
  match ← n.nodeType.kind?, ks with
  | .ident, [] =>
    match n.id with
    | .syscall _ _ => some 4
    | id => do
      let (w, _) ← id.place?
      some (if n.address then 4 else w.bytes)
  | .const w, [] => some w.bytes
  | .bin _, [k, k'] => do
    let w ← width? n.dataType
    if w.bytes ≤ k ∧ w.bytes ≤ k' then some w.bytes else none
  | .bitwise, [k] => do
    let w ← width? n.dataType
    if w.bytes ≤ k then some w.bytes else none
  | .func, k :: ks => if k = 4 ∧ (∀ x ∈ ks, x = 4) ∧ ks.length ≤ 16 then some 4 else none
  | .assign, [k, k'] => do
    let w ← child.assignWidth?
    if k = 4 ∧ w.bytes ≤ k' then some w.bytes else none
  | .pre _, [k] => do
    let w ← width? n.dataType
    if k = 4 ∧ child.variable?.isSome ∧ child.address then some w.bytes else none
  | .post _, [k] => do
    let _ ← width? n.dataType
    if child.variable?.isSome then some k else none
  | .getvalue, [k] => if k ≠ 4 then none else if n.address then some 4 else (width? n.dataType).map Width.bytes
  | .getaddr, [k] => some k
  | _, _ => none

def Node.kept : Node → Option (List Nat)
  | .null => some []
  | .node n child sibling => do
    let ks ← child.kept
    let k ← n.kept child ks
    let rest ← sibling.kept
    some (k :: rest)

/-- The bytes of the value of the last statement that count. -/
def Node.keptList : Node → Option Nat
  | .null => some 4
  | .node n child .null => do
    let ks ← child.kept
    n.kept child ks
  | .node n child sibling => do
    let ks ← child.kept
    let _ ← n.kept child ks
    sibling.keptList

def Node.size : Node → Nat
  | .null => 0
  | .node _ child sibling => child.size + sibling.size + 1

end Bootloader.Finsh
