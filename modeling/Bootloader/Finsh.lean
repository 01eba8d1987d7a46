import Bootloader.Lib.Words

/-!
# The expression compiler and the virtual machine of the shell

A line typed into the shell becomes a tree of at most `FINSH_NODE_MAX` nodes, each with its first child and its next
sibling. `typeCheck` marks which nodes stand for an address and gives each the width of its first child, `compile`
writes byte code into the text segment and `vmRun` runs it on a stack of four-byte cells. An operation on bytes or
words writes only the low bytes of a cell. The functions a line calls are the parameter `call`.

A run is `none` where the C code leaves its arrays or its language: outside the stack or the text segment, through
the end of `op_table`, with more than 16 arguments, dividing by zero.
-/

namespace Bootloader.Finsh

def finshTextMax : Nat := 128

def finshStackMax : Nat := 64

def finshNodeMax : Nat := 16

inductive FinshType
  | unknown | void | voidp | char | uchar | charp | short | ushort | shortp | int | uint | intp | long | ulong | longp
deriving DecidableEq, Repr

inductive FinshError
  | unknownType | unknownNode
deriving DecidableEq, Repr

/-! ### Widths and arithmetic -/

inductive Width
  | byte | word | dword
deriving DecidableEq, Repr

def Width.bytes : Width → Nat
  | .byte => 1
  | .word => 2
  | .dword => 4

/-- `char` is unsigned here, `short` and `long` are signed. -/
def Width.toInt (w : Width) (v : Nat) : Int :=
  if w = .byte ∨ 2 * v < 256 ^ w.bytes then v else v - 256 ^ w.bytes

def Width.ofInt (w : Width) (i : Int) : Nat := (i % 256 ^ w.bytes).toNat

inductive BinOp
  | add | sub | div | mod | mul | and | or | xor | shl | shr
deriving DecidableEq, Repr

/-- The operators of C on operands of one width, the result cut to it. `none`: undefined in C. -/
def BinOp.eval (op : BinOp) (w : Width) (a b : Nat) : Option Nat :=
  let x := w.toInt a
  let y := w.toInt b
  let overflow : Bool := w = .dword ∧ x = -2 ^ 31 ∧ y = -1
  match op with
  | .add => some (w.ofInt (x + y))
  | .sub => some (w.ofInt (x - y))
  | .mul => some (w.ofInt (x * y))
  | .div => if y = 0 ∨ overflow then none else some (w.ofInt (x.tdiv y))
  | .mod => if y = 0 ∨ overflow then none else some (w.ofInt (x.tmod y))
  | .and => some (a &&& b)
  | .or => some (a ||| b)
  | .xor => some (a ^^^ b)
  | .shl => if 0 ≤ y ∧ y < 32 then some (w.ofInt (x * 2 ^ y.toNat)) else none
  | .shr => if 0 ≤ y ∧ y < 32 then some (w.ofInt (x / 2 ^ y.toNat)) else none

def Width.not (w : Width) (a : Nat) : Nat := 256 ^ w.bytes - 1 - a % 256 ^ w.bytes

/-! ### Trees -/

inductive NodeType
  | unknown | id | valueChar | valueInt | valueLong | valueString | valueNull | sysAdd | sysSub | sysMul | sysDiv
  | sysMod | sysAnd | sysOr | sysXor | sysBitwise | sysShl | sysShr | sysFunc | sysAssign | sysCast | sysPreinc
  | sysPredec | sysInc | sysDec | sysGetvalue | sysGetaddr | sysNull
deriving DecidableEq, Repr

/-- What the `id` of a node points to: the address of the `finsh_var`, `finsh_sysvar` or `finsh_syscall` and the
fields read through it. -/
inductive Ident
  | none
  | var (ptr : Nat) (type : FinshType)
  | sysvar (ptr : Nat) (type : FinshType) (var : Nat)
  | syscall (ptr func : Nat)
deriving DecidableEq, Repr

/-- `&(id.var->value)`, whatever `id` points to. -/
def Ident.varValue : Ident → Nat
  | .none => 28
  | .var ptr _ => ptr + 28
  | .sysvar ptr _ _ => ptr + 28
  | .syscall ptr _ => ptr + 28

structure NodeInfo where
  nodeType : NodeType
  dataType : Nat
  id : Ident
  /-- `FINSH_IDTYPE_ADDRESS` in `idtype`; the other bits of `idtype` are the constructor of `id`. -/
  address : Bool
  value : Nat
deriving DecidableEq, Repr

inductive Node
  | null
  | node (info : NodeInfo) (child sibling : Node)
deriving DecidableEq, Repr

def dataTypeVoid : Nat := 0
def dataTypeByte : Nat := 1
def dataTypeWord : Nat := 2
def dataTypeDword : Nat := 3

/-! ### `finsh_type_check` -/

/-- The `data_type` of a variable. -/
def FinshType.dataType : FinshType → Option Nat
  | .unknown => none
  | .void => some dataTypeVoid
  | .char | .uchar => some dataTypeByte
  | .short | .ushort => some dataTypeWord
  | .int | .uint | .long | .ulong => some dataTypeDword
  | .charp | .voidp | .shortp | .intp | .longp => some dataTypeDword

def NodeInfo.leafType (n : NodeInfo) : Nat :=
  match n.nodeType with
  | .id =>
    match n.id with
    | .var _ type | .sysvar _ type _ => type.dataType.getD n.dataType
    | _ => n.dataType
  | .valueChar => dataTypeByte
  | .valueInt | .valueLong | .valueString | .valueNull => dataTypeDword
  | _ => n.dataType

/-- The `is_addr` that a node passes to its child. -/
def NodeInfo.childAddr (n : NodeInfo) (isAddr : Bool) : Bool :=
  match n.nodeType with
  | .sysAssign | .sysPreinc | .sysPredec | .sysGetaddr => true
  | .sysGetvalue => if isAddr then false else isAddr
  | _ => isAddr

def NodeInfo.setAddr (n : NodeInfo) (isAddr : Bool) : NodeInfo :=
  match n.id with
  | .syscall _ _ => n
  | _ => { n with address := n.address || isAddr }

def typeCheck : Node → Bool → Node
  | .null, _ => .null
  | .node n child sibling, isAddr =>
    let child := typeCheck child (n.childAddr isAddr)
    let n := n.setAddr isAddr
    let dataType := match child with
      | .node c _ _ => c.dataType
      | .null => n.leafType
    .node { n with dataType := dataType } child (typeCheck sibling false)

/-- The error that `finsh_type_check` sets at a node: a variable declared with a type it does not know. -/
def NodeInfo.typeError (n : NodeInfo) (child : Node) : Option FinshError :=
  match n.nodeType, n.id, child with
  | .id, .var _ .unknown, .null | .id, .sysvar _ .unknown _, .null => some .unknownType
  | _, _, _ => none

/-- The last error that `finsh_type_check` sets: child, sibling and node come in this order. -/
def typeError : Node → Option FinshError
  | .null => none
  | .node n child sibling => ((n.typeError child).or (typeError sibling)).or (typeError child)

/-! ### `finsh_compile` -/

def opAddByte : Nat := 0x01
def opAddWord : Nat := 0x02
def opAddDword : Nat := 0x03
def opSubByte : Nat := 0x04
def opSubWord : Nat := 0x05
def opSubDword : Nat := 0x06
def opDivByte : Nat := 0x07
def opDivWord : Nat := 0x08
def opDivDword : Nat := 0x09
def opModByte : Nat := 0x0A
def opModWord : Nat := 0x0B
def opModDword : Nat := 0x0C
def opMulByte : Nat := 0x0D
def opMulWord : Nat := 0x0E
def opMulDword : Nat := 0x0F
def opAndByte : Nat := 0x10
def opAndWord : Nat := 0x11
def opAndDword : Nat := 0x12
def opOrByte : Nat := 0x13
def opOrWord : Nat := 0x14
def opOrDword : Nat := 0x15
def opXorByte : Nat := 0x16
def opXorWord : Nat := 0x17
def opXorDword : Nat := 0x18
def opBitwiseByte : Nat := 0x19
def opBitwiseWord : Nat := 0x1A
def opBitwiseDword : Nat := 0x1B
def opShlByte : Nat := 0x1C
def opShlWord : Nat := 0x1D
def opShlDword : Nat := 0x1E
def opShrByte : Nat := 0x1F
def opShrWord : Nat := 0x20
def opShrDword : Nat := 0x21
def opLdByte : Nat := 0x22
def opLdWord : Nat := 0x23
def opLdDword : Nat := 0x24
def opLdValueByte : Nat := 0x25
def opLdValueWord : Nat := 0x26
def opLdValueDword : Nat := 0x27
def opStByte : Nat := 0x28
def opStWord : Nat := 0x29
def opStDword : Nat := 0x2A
def opPop : Nat := 0x2B
def opSyscall : Nat := 0x2C
def opLdValueByteStack : Nat := 0x2D
def opLdValueWordStack : Nat := 0x2E
def opLdValueDwordStack : Nat := 0x2F

/-- Code with the last error set while it was written. -/
structure Asm where
  text : List UInt8
  errno : Option FinshError

def Asm.nil : Asm := ⟨[], none⟩

def Asm.append (a b : Asm) : Asm := ⟨a.text ++ b.text, b.errno.or a.errno⟩

instance : Append Asm := ⟨Asm.append⟩

def codeByte (x : Nat) : Asm := ⟨leBytes 1 x, none⟩

def codeWord (x : Nat) : Asm := ⟨leBytes 2 x, none⟩

def codeDword (x : Nat) : Asm := ⟨leBytes 4 x, none⟩

def errorSet (e : FinshError) : Asm := ⟨[], some e⟩

/-- One of three operations by the width of the node; none for another `data_type`. -/
def byDataType (dataType byte word dword : Nat) : Asm :=
  if dataType = dataTypeByte then codeByte byte
  else if dataType = dataTypeWord then codeByte word
  else if dataType = dataTypeDword then codeByte dword
  else .nil

/-- An identifier loads its address or the value there. A `void` and a `void *` load nothing. -/
def loadVar (type : FinshType) (address : Bool) (addr : Nat) : Asm :=
  match type with
  | .char | .uchar => codeByte (if address then opLdDword else opLdValueByte) ++ codeDword addr
  | .short | .ushort => codeByte (if address then opLdDword else opLdValueWord) ++ codeDword addr
  | .int | .uint | .long | .ulong | .charp | .shortp | .intp | .longp =>
    codeByte (if address then opLdDword else opLdValueDword) ++ codeDword addr
  | .void | .voidp | .unknown => .nil

def storeAssign (dataType : Nat) : Asm :=
  if dataType = dataTypeByte then codeByte opStByte ++ codeByte opLdValueByteStack
  else if dataType = dataTypeWord then codeByte opStWord ++ codeByte opLdValueWordStack
  else if dataType = dataTypeDword then codeByte opStDword ++ codeByte opLdValueDwordStack
  else errorSet .unknownType

/-- `++x` and `--x` behind the address of `x`: the value is loaded back as a double word whatever its width. -/
def preStep (dataType addr byte word dword : Nat) : Asm :=
  if dataType = dataTypeByte then
    codeByte opLdValueByte ++ codeDword addr ++ (codeByte opLdByte ++ codeByte 1) ++ codeByte byte ++
      codeByte opStByte ++ codeByte opLdValueDwordStack
  else if dataType = dataTypeWord then
    codeByte opLdValueWord ++ codeDword addr ++ (codeByte opLdWord ++ codeWord 1) ++ codeByte word ++
      codeByte opStWord ++ codeByte opLdValueDwordStack
  else if dataType = dataTypeDword then
    codeByte opLdValueDword ++ codeDword addr ++ (codeByte opLdDword ++ codeDword 1) ++ codeByte dword ++
      codeByte opStDword ++ codeByte opLdValueDwordStack
  else .nil

/-- `x++` and `x--` behind the value of `x`. -/
def postStep (dataType addr byte word dword : Nat) : Asm :=
  if dataType = dataTypeByte then
    codeByte opLdDword ++ codeDword addr ++ (codeByte opLdValueByte ++ codeDword addr) ++
      (codeByte opLdByte ++ codeByte 1) ++ codeByte byte ++ codeByte opStByte ++ codeByte opPop
  else if dataType = dataTypeWord then
    codeByte opLdDword ++ codeDword addr ++ (codeByte opLdValueWord ++ codeDword addr) ++
      (codeByte opLdWord ++ codeWord 1) ++ codeByte word ++ codeByte opStWord ++ codeByte opPop
  else if dataType = dataTypeDword then
    codeByte opLdDword ++ codeDword addr ++ (codeByte opLdValueDword ++ codeDword addr) ++
      (codeByte opLdDword ++ codeDword 1) ++ codeByte dword ++ codeByte opStDword ++ codeByte opPop
  else .nil

def Node.siblings : Node → Nat
  | .null => 0
  | .node _ _ sibling => sibling.siblings + 1

/-- What is written for a node behind the code of its children. -/
def compileNode (n : NodeInfo) (child : Node) : Asm :=
  match n.nodeType with
  | .id =>
    match n.id with
    | .syscall _ func => codeByte opLdDword ++ codeDword func
    | .sysvar _ type var => loadVar type n.address var
    | .var ptr type => loadVar type n.address (ptr + 28)
    | .none => .nil
  | .valueChar => codeByte opLdByte ++ codeByte n.value
  | .valueInt | .valueLong => codeByte opLdDword ++ codeDword n.value
  | .valueNull | .valueString => codeByte opLdDword ++ codeDword n.value
  | .sysAdd => byDataType n.dataType opAddByte opAddWord opAddDword
  | .sysSub => byDataType n.dataType opSubByte opSubWord opSubDword
  | .sysMul => byDataType n.dataType opMulByte opMulWord opMulDword
  | .sysDiv => byDataType n.dataType opDivByte opDivWord opDivDword
  | .sysMod => byDataType n.dataType opModByte opModWord opModDword
  | .sysAnd => byDataType n.dataType opAndByte opAndWord opAndDword
  | .sysOr => byDataType n.dataType opOrByte opOrWord opOrDword
  | .sysXor => byDataType n.dataType opXorByte opXorWord opXorDword
  | .sysBitwise => byDataType n.dataType opBitwiseByte opBitwiseWord opBitwiseDword
  | .sysShl => byDataType n.dataType opShlByte opShlWord opShlDword
  | .sysShr => byDataType n.dataType opShrByte opShrWord opShrDword
  | .sysFunc =>
    match child with
    | .node _ _ sibling => codeByte opSyscall ++ codeByte sibling.siblings
    | .null => .nil
  | .sysAssign =>
    match child with
    | .node c _ _ =>
      if c.nodeType = .id then storeAssign c.dataType
      else if c.nodeType = .sysGetvalue then storeAssign (c.dataType % 16)
      else .nil
    | .null => .nil
  | .sysPreinc =>
    match child with
    | .node c _ _ =>
      if c.nodeType = .id then preStep n.dataType c.id.varValue opAddByte opAddWord opAddDword else .nil
    | .null => .nil
  | .sysPredec =>
    match child with
    | .node c _ _ =>
      if c.nodeType = .id then preStep n.dataType c.id.varValue opSubByte opSubWord opSubDword else .nil
    | .null => .nil
  | .sysInc =>
    match child with
    | .node c _ _ =>
      if c.nodeType = .id then postStep n.dataType c.id.varValue opAddByte opAddWord opAddDword else .nil
    | .null => .nil
  | .sysDec =>
    match child with
    | .node c _ _ =>
      if c.nodeType = .id then postStep n.dataType c.id.varValue opSubByte opSubWord opSubDword else .nil
    | .null => .nil
  | .sysNull => codeDword 0
  | .sysGetvalue =>
    if n.address then .nil
    else byDataType n.dataType opLdValueByteStack opLdValueWordStack opLdValueDwordStack
  | .sysGetaddr => .nil
  | .unknown | .sysCast => errorSet .unknownNode

def compile : Node → Asm
  | .null => .nil
  | .node n child sibling => compile child ++ compileNode n child ++ compile sibling

/-- The loop of `finsh_compiler_run`: the nodes of the top level one by one, the value of each but the last popped. -/
def compileList : Node → Asm
  | .null => .nil
  | .node n child .null => compile (.node n child .null)
  | .node n child sibling => compile (.node n child .null) ++ codeByte opPop ++ compileList sibling

/-- `finsh_compiler_run`: the text segment, or `none` where the code runs over its end, and the error left. -/
def compilerRun (node : Node) : Option (List UInt8) × Option FinshError :=
  let checked := typeCheck node false
  let code := compileList checked
  (if code.text.length ≤ finshTextMax then some (code.text ++ List.replicate (finshTextMax - code.text.length) 0)
    else none,
    code.errno.or (typeError node))

/-! ### `finsh_vm_run` -/

inductive Op
  | noOp
  | bin (op : BinOp) (w : Width)
  | bw (w : Width)
  | ld (w : Width)
  | ldValue (w : Width)
  | st (w : Width)
  | pop
  | call
  | ldValueStack (w : Width)
deriving DecidableEq, Repr

def opTable : List Op :=
  [.noOp,
    .bin .add .byte, .bin .add .word, .bin .add .dword,
    .bin .sub .byte, .bin .sub .word, .bin .sub .dword,
    .bin .div .byte, .bin .div .word, .bin .div .dword,
    .bin .mod .byte, .bin .mod .word, .bin .mod .dword,
    .bin .mul .byte, .bin .mul .word, .bin .mul .dword,
    .bin .and .byte, .bin .and .word, .bin .and .dword,
    .bin .or .byte, .bin .or .word, .bin .or .dword,
    .bin .xor .byte, .bin .xor .word, .bin .xor .dword,
    .bw .byte, .bw .word, .bw .dword,
    .bin .shl .byte, .bin .shl .word, .bin .shl .dword,
    .bin .shr .byte, .bin .shr .word, .bin .shr .dword,
    .ld .byte, .ld .word, .ld .dword,
    .ldValue .byte, .ldValue .word, .ldValue .dword,
    .st .byte, .st .word, .st .dword,
    .pop, .call,
    .ldValueStack .byte, .ldValueStack .word, .ldValueStack .dword]

/-- The virtual machine with the memory its pointers reach. -/
structure Vm where
  mem : Mem
  stack : Nat → Nat
  sp : Nat
  pc : Nat

namespace Vm

/-- The member of width `w` of the cell `i`. -/
def cell (s : Vm) (w : Width) (i : Nat) : Nat := s.stack i % 256 ^ w.bytes

def setCell (s : Vm) (w : Width) (i v : Nat) : Vm :=
  { s with stack := Function.update s.stack i (setLow w.bytes (s.stack i) v) }

end Vm

/-- The operand of `n` bytes at `pc`. -/
def operand (text : List UInt8) (pc n : Nat) : Nat := Mem.le ((text.drop pc).take n)

section
variable (call : Nat → List Nat → Mem → Option (Nat × Mem)) (text : List UInt8)

def Op.exec (op : Op) (s : Vm) : Option Vm :=
  match op with
  | .noOp => some s
  | .bin op w =>
    if s.sp < 2 then none
    else do
      let r ← op.eval w (s.cell w (s.sp - 2)) (s.cell w (s.sp - 1))
      some { s.setCell w (s.sp - 2) r with sp := s.sp - 1 }
  | .bw w => if s.sp < 1 then none else some (s.setCell w (s.sp - 1) (w.not (s.cell w (s.sp - 1))))
  | .ld w =>
    if finshStackMax ≤ s.sp ∨ finshTextMax < s.pc + w.bytes then none
    else some { s.setCell w s.sp (operand text s.pc w.bytes) with sp := s.sp + 1, pc := s.pc + w.bytes }
  | .ldValue w =>
    if finshStackMax ≤ s.sp ∨ finshTextMax < s.pc + 4 then none
    else some { s.setCell w s.sp (s.mem.word (operand text s.pc 4) w.bytes) with sp := s.sp + 1, pc := s.pc + 4 }
  | .ldValueStack w =>
    if s.sp < 1 then none
    else some (s.setCell w (s.sp - 1) (s.mem.word (s.cell .dword (s.sp - 1)) w.bytes))
  | .st w =>
    if s.sp < 2 then none
    else some { s with
      mem := s.mem.setWord (s.cell .dword (s.sp - 2)) w.bytes (s.cell w (s.sp - 1)), sp := s.sp - 1 }
  | .pop => if s.sp < 1 then none else some { s with sp := s.sp - 1 }
  | .call =>
    let parameters := operand text s.pc 1
    if finshTextMax < s.pc + 1 ∨ 16 < parameters ∨ s.sp < parameters + 1 then none
    else do
      let f := s.sp - 1 - parameters
      let parameterv := (List.range parameters).map fun i => s.cell .dword (f + 1 + i)
      let (r, mem) ← call (s.cell .dword f) (if parameters = 0 then [0] else parameterv) s.mem
      some { s.setCell .dword f r with mem := mem, sp := f + 1, pc := s.pc + 1 }

/-- One turn of the loop of `finsh_vm_run`. -/
def vmStep (s : Vm) : Option Vm :=
  match text[s.pc]? with
  | none => none
  | some op => do
    let op ← opTable[op.toNat]?
    op.exec call text { s with pc := s.pc + 1 }

def vmLoop : Nat → Vm → Option Vm
  | 0, _ => none
  | fuel + 1, s => if s.pc < finshTextMax then vmStep call text s >>= vmLoop fuel else some s

/-- `finsh_vm_run`. Every turn moves `pc` on, so that there are at most `FINSH_TEXT_MAX` of them. -/
def vmRun (mem : Mem) (stack : Nat → Nat) : Option Vm := vmLoop call text (finshTextMax + 1) ⟨mem, stack, 0, 0⟩

end

/-- `finsh_stack_bottom`. -/
def stackBottom (s : Vm) : Nat := s.cell .dword 0

/-- `finsh_run_line` behind the parser: the tree is compiled and, unless that left an error, run. The compiler clears
only the first cell of the stack. -/
def runTree (call : Nat → List Nat → Mem → Option (Nat × Mem)) (root : Node) (mem : Mem) (stack : Nat → Nat) :
    Option Vm := do
  let text ← (compilerRun root).1
  let stack := Function.update stack 0 0
  if (compilerRun root).2 = none then vmRun call text mem stack else some ⟨mem, stack, 0, 0⟩

end Bootloader.Finsh
