import Loxis.Backend.MIRCompiler
import Loxis.Bytecode.Disasm
import Loxis.Bytecode.Mir
import Loxis.Lib.Listing

/-! # Emission

The instructions and labels that the compiler writes for a body, in order. An address stands for
a label until all code is written. Labels of checks are numbered through the whole run of the
compiler.
-/

namespace Loxis.Bytecode

open Lowering (MirBinOp MirUnaryOp Operand Constant LocalId BlockId)
open Backend (blockLabel)

/-- The labels: functions, blocks of a function, and the ends and arms of checks. -/
inductive Label
  | func (name : String)
  | block (body : String) (id : BlockId)
  | cmpEnd (n : ℕ)
  | cmpFalse (n : ℕ)
  | notTrue (n : ℕ)
  | notEnd (n : ℕ)
  deriving DecidableEq

/-- The text under which a label is kept. -/
def Label.text : Label → String
  | .func name => name
  | .block body id => blockLabel body id
  | .cmpEnd n => "_ce" ++ toString n
  | .cmpFalse n => "_cf" ++ toString n
  | .notTrue n => "_not_true" ++ toString n
  | .notEnd n => "_not_end" ++ toString n

/-- An operand as it is emitted. -/
inductive Arg
  | reg (r : ℕ)
  | imm (v : BitVec 64)
  | str (idx : ℕ)
  | addr (l : Label)
  | null
  | float (bits : BitVec 64)
  deriving DecidableEq

structure Instr where
  op : OpCode
  args : List Arg
  deriving DecidableEq

abbrev Item := Listing.Item Label Instr

def ins (op : OpCode) (args : List Arg) : Item := .ins ⟨op, args⟩

def mark (l : Label) : Item := .mark l

/-- What lasts from one emission to the next: the string pool and the numbers of the next checks. -/
structure Fresh where
  strings : List String
  cmpLabelId : ℕ
  notLabelId : ℕ
  deriving DecidableEq

abbrev Emit := StateT Fresh (Except String)

/-- One emission after the other. -/
def seq : List (Emit (List Item)) → Emit (List Item)
  | [] => pure []
  | m :: ms => do
    let c ← m
    let cs ← seq ms
    pure (c ++ cs)

def write (items : List Item) : Emit (List Item) := pure items

def internString (str : String) : Emit ℕ := do
  let s ← get
  match s.strings.findIdx? (· = str) with
  | some i => pure (i % 2 ^ 32)
  | none =>
    set { s with strings := s.strings ++ [str] }
    pure (s.strings.length % 2 ^ 32)

def nextCmpLabelId : Emit ℕ := do
  let s ← get
  set { s with cmpLabelId := s.cmpLabelId + 1 }
  pure s.cmpLabelId

def nextNotLabelId : Emit ℕ := do
  let s ← get
  set { s with notLabelId := s.notLabelId + 1 }
  pure s.notLabelId

/-- A jump has its target twice. -/
def jump (l : Label) : Item := ins .jmp [.addr l, .addr l]

section Emit

variable (b : MirBody)

/-- The label of a block of the body. -/
def target (id : BlockId) : Label := .block b.name id

def localToReg (lid : LocalId) : Emit ℕ :=
  if lid = 0 then pure 0
  else if 4064 ≤ lid then throw ("too many VM locals in " ++ b.name)
  else if lid + 15 < 240 then pure (lid + 15)
  else pure (lid + 15 + 16)

def emitConstant (reg : ℕ) : Constant → Emit (List Item)
  | .int v | .uint v => write [ins .push [.reg reg, .imm v]]
  | .double bits => write [ins .push [.reg reg, .float bits]]
  | .mono => write [ins .push [.reg reg, .null]]
  | .bool v => write [ins .push [.reg reg, .imm (if v then 1 else 0)]]
  | .char c => write [ins .push [.reg reg, .imm (c.signExtend 64)]]
  | .str s => do
    let idx ← internString s
    write [ins .push [.reg reg, .str idx]]

def emitOperandToReg (op : Operand) (reg : ℕ) : Emit (List Item) :=
  match op with
  | .const c => emitConstant reg c
  | .label l => write [ins .push [.reg reg, .addr (.func l)]]
  | .copy l | .move l => do
    let src ← localToReg b l
    write (if src = reg then [] else [ins .mov [.reg reg, .reg src]])

/-- An argument that may be missing. -/
def emitArgTo (args : List Operand) (i reg : ℕ) : Emit (List Item) :=
  match args[i]? with
  | some a => emitOperandToReg b a reg
  | none => write []

/-- Operands to registers from one on. Registers are numbers of 16 bits. -/
def emitFrom (reg : ℕ) : List Operand → Emit (List Item)
  | [] => write []
  | a :: as => seq [emitOperandToReg b a (reg % 2 ^ 16), emitFrom (reg + 1) as]

/-- Move `n` staged operands to the argument registers. -/
def moveStaged (n : ℕ) : List Item :=
  (List.range n).map fun i => ins .mov [.reg ((i + 1) % 2 ^ 16), .reg ((240 + i) % 2 ^ 16)]

/-- Stage operands and move them to the argument registers. -/
def emitStaged (args : List Operand) : Emit (List Item) :=
  seq [emitFrom b 240 args, write (moveStaged args.length)]

def emitArguments (args : List Operand) : Emit (List Item) :=
  if 10 < args.length then throw "call exceeds VM argument capacity" else emitStaged b args

/-- The type of a local, where it is one. -/
def localTy (l : LocalId) : Option TyKind := (b.locals[l]?).bind id

def isFloat (ty : Option TyKind) : Bool := ty = some .float || ty = some .double

def isInt (ty : Option TyKind) : Bool := ty = some .int || ty = some .long

def operandNeedsItoF : Operand → Bool
  | .copy l | .move l => isInt (localTy b l)
  | .const (.int _) | .const (.uint _) | .const (.bool _) | .const (.char _) => true
  | _ => false

def floatOp : MirBinOp → Option OpCode
  | .add => some .fAdd
  | .sub => some .fSub
  | .mul => some .fMul
  | .div => some .fDiv
  | _ => none

def intOp : MirBinOp → Option OpCode
  | .add => some .add
  | .sub => some .sub
  | .mul => some .mul
  | .div => some .div
  | .rem => some .rem
  | .shl => some .shl
  | .shr => some .shr
  | .bitAnd => some .bitAnd
  | .bitOr => some .bitOr
  | .bitXor => some .bitXor
  | _ => none

/-- The result of an addition comes first, that of other operations last. -/
def threeRegs (op : OpCode) (place l r : ℕ) : Item :=
  if op = .add ∨ op = .fAdd then ins op [.reg place, .reg l, .reg r]
  else ins op [.reg l, .reg r, .reg place]

def setTrue (place : ℕ) : Item := ins .push [.reg place, .imm 1]

def setFalse (place : ℕ) : Item := ins .push [.reg place, .imm 0]

def isComparison : MirBinOp → Bool
  | .eq | .ne | .lt | .le | .gt | .ge => true
  | _ => false

/-- The flags of a comparison turned into a truth value. -/
def comparison (op : MirBinOp) (place n : ℕ) : List Item :=
  match op with
  | .eq => [setTrue place, ins .jz [.addr (.cmpEnd n)], setFalse place, mark (.cmpEnd n)]
  | .ne => [setTrue place, ins .jnz [.addr (.cmpEnd n)], setFalse place, mark (.cmpEnd n)]
  | .lt => [setTrue place, ins .jn [.addr (.cmpEnd n)], setFalse place, mark (.cmpEnd n)]
  | .le =>
    [setTrue place, ins .jz [.addr (.cmpEnd n)], ins .jn [.addr (.cmpEnd n)], setFalse place,
      mark (.cmpEnd n)]
  | .gt =>
    [setTrue place, ins .jz [.addr (.cmpFalse n)], ins .jn [.addr (.cmpFalse n)],
      jump (.cmpEnd n), mark (.cmpFalse n), setFalse place, mark (.cmpEnd n)]
  | .ge =>
    [setTrue place, ins .jn [.addr (.cmpFalse n)], jump (.cmpEnd n), mark (.cmpFalse n),
      setFalse place, mark (.cmpEnd n)]
  | _ => [setFalse place]

/-- The float instruction of an operator on a place of a float type. -/
def placeFloatOp (place : LocalId) (op : MirBinOp) : Option OpCode :=
  if isFloat (localTy b place) then floatOp op else none

def emitBinary (place : LocalId) (placeReg : ℕ) (op : MirBinOp) (l r : Operand) :
    Emit (List Item) :=
  seq [emitOperandToReg b l 254, emitOperandToReg b r 253,
    match placeFloatOp b place op, intOp op with
    | some fop, _ =>
      write ((if operandNeedsItoF b l then [ins .iToF [.reg 254, .reg 254]] else []) ++
        (if operandNeedsItoF b r then [ins .iToF [.reg 253, .reg 253]] else []) ++
        [threeRegs fop placeReg 254 253])
    | none, some opc => write [threeRegs opc placeReg 254 253]
    | none, none =>
      if isComparison op then do
        let n ← nextCmpLabelId
        write (ins .cmp [.reg 254, .reg 253] :: comparison op placeReg n)
      else throw "backend received an unsupported MIR binary operator"]

def emitUnary (place : LocalId) (placeReg : ℕ) (op : MirUnaryOp) (opnd : Operand) :
    Emit (List Item) :=
  match op with
  | .neg =>
    seq [emitOperandToReg b opnd 254,
      write (if isFloat (localTy b place) then [ins .fNeg [.reg 254, .reg placeReg]]
        else [setFalse placeReg, ins .sub [.reg placeReg, .reg 254, .reg placeReg]])]
  | .not => do
    let n ← nextNotLabelId
    seq [emitOperandToReg b opnd 254,
      write [setFalse 253, ins .cmp [.reg 254, .reg 253], ins .jz [.addr (.notTrue n)],
        setFalse placeReg, jump (.notEnd n), mark (.notTrue n), setTrue placeReg,
        mark (.notEnd n)]]
  | .toStr =>
    seq [emitOperandToReg b opnd 254, write [ins .toStr [.reg 254, .reg placeReg]]]
  | _ => emitOperandToReg b opnd placeReg

/-- Store operands behind an object from its `i`-th cell on. The offsets wrap at `w` bits. -/
def emitCells (w placeReg offReg valReg i : ℕ) : List Operand → Emit (List Item)
  | [] => write []
  | a :: as =>
    seq [write [ins .push [.reg offReg, .imm (BitVec.ofNat 64 ((i + 1) * 9 % 2 ^ w))]],
      emitOperandToReg b a valReg,
      write [ins .hStore [.reg placeReg, .reg offReg, .reg valReg]],
      emitCells w placeReg offReg valReg (i + 1) as]

/-- Read a field behind an object. -/
def loadField (base off place : ℕ) : List Item :=
  [ins .push [.reg 250, .imm (BitVec.ofNat 64 off)], ins .hLoad [.reg base, .reg 250, .reg place]]

/-- Write an operand behind an object. -/
def emitStoreField (base off : ℕ) (value : Operand) : Emit (List Item) :=
  seq [write [ins .push [.reg 250, .imm (BitVec.ofNat 64 off)]], emitOperandToReg b value 251,
    write [ins .hStore [.reg base, .reg 250, .reg 251]]]

/-- The offset of an element, from the index in register 250 to register 251. -/
def elementOffset : List Item :=
  [ins .push [.reg 252, .imm 9], ins .mul [.reg 250, .reg 252, .reg 251],
    ins .add [.reg 251, .reg 252, .reg 251]]

def emitRvalue (place : LocalId) (rv : Rvalue) : Emit (List Item) := do
  let placeReg ← localToReg b place
  match rv with
  | .use op => emitOperandToReg b op placeReg
  | .binary op l r => emitBinary b place placeReg op l r
  | .unary op opnd => emitUnary b place placeReg op opnd
  | .cast op ty =>
    seq [emitOperandToReg b op 254,
      write (if isFloat ty then [ins .iToF [.reg 254, .reg placeReg]]
        else if isInt ty then [ins .fToI [.reg 254, .reg placeReg]]
        else [ins .mov [.reg placeReg, .reg 254]])]
  | .ref l | .ptr l => do
    let src ← localToReg b l
    write [ins .mov [.reg placeReg, .reg src]]
  | .alloc size typeId =>
    write [ins .alloc [.imm (BitVec.ofNat 64 typeId), .imm (BitVec.ofNat 64 size),
      .reg placeReg]]
  | .closure functionName envTypeId captures =>
    seq [write
        [ins .push [.reg 249, .imm (BitVec.ofNat 64 ((1 + captures.length) * 9 % 2 ^ 32))],
          ins .alloc [.imm (BitVec.ofNat 64 envTypeId), .reg 249, .reg placeReg],
          ins .push [.reg 250, .addr (.func functionName)],
          ins .push [.reg 251, .imm 0],
          ins .hStore [.reg placeReg, .reg 251, .reg 250]],
      emitCells b 64 placeReg 251 252 0 captures]
  | .closureGet env offset => do
    let base ← localToReg b env
    write (loadField base ((offset + 9) % 2 ^ 32) placeReg)
  | .closureSet offset value => emitStoreField b placeReg ((offset + 9) % 2 ^ 32) value
  | .field l field => do
    let base ← localToReg b l
    write (loadField base field placeReg)
  | .hStore offset value => emitStoreField b placeReg offset value
  | .aggregate kind ops =>
    match kind with
    | .array =>
      let n := ops.length % 2 ^ 32
      seq [write
          [ins .alloc [.imm 0, .imm (BitVec.ofNat 64 ((n + 1) * 9 % 2 ^ 32)), .reg placeReg],
            ins .push [.reg 250, .imm 0],
            ins .push [.reg 251, .imm (BitVec.ofNat 64 n)],
            ins .hStore [.reg placeReg, .reg 250, .reg 251]],
        emitCells b 32 placeReg 250 251 0 (ops.take n)]
    | _ => throw "backend does not implement tuple/ADT aggregates"
  | .index l idx => do
    let base ← localToReg b l
    seq [emitOperandToReg b idx 250,
      write (elementOffset ++ [ins .hLoad [.reg base, .reg 251, .reg placeReg]])]
  | .indexStore idx value =>
    seq [emitOperandToReg b idx 250, write elementOffset, emitOperandToReg b value 253,
      write [ins .hStore [.reg placeReg, .reg 251, .reg 253]]]
  | .isCheck obj targetTypeId => do
    let objReg ← localToReg b obj
    write [ins .isA [.reg objReg, .imm (BitVec.ofNat 64 targetTypeId), .reg placeReg]]
  | .globalLoad slot => write [ins .gLoad [.imm (BitVec.ofNat 64 slot), .reg placeReg]]
  | .globalStore slot value =>
    seq [emitOperandToReg b value placeReg,
      write [ins .gStore [.imm (BitVec.ofNat 64 slot), .reg placeReg]]]
  | .typeId obj | .vTableSlot obj _ => do
    let objReg ← localToReg b obj
    write [ins .typeOf [.reg objReg, .reg placeReg]]
  | .len _ | .discriminant _ => throw "backend received an unhandled MIR rvalue"

def emitStatement : Statement → Emit (List Item)
  | .assign place rv => emitRvalue b place rv
  | .storageLive _ | .storageDead _ | .drop _ => write [ins .nop []]
  | .setDiscriminant _ _ => throw "backend does not implement set-discriminant statements"
  | .push l => do
    let r ← localToReg b l
    write [ins .pushR [.reg r]]
  | .pop l => do
    let r ← localToReg b l
    write [ins .popR [.reg r]]
  | .globalStore slot value =>
    seq [emitOperandToReg b value 254,
      write [ins .gStore [.imm (BitVec.ofNat 64 slot), .reg 254]]]
  | .tryPush handler exceptionLocal => do
    let r ← localToReg b exceptionLocal
    write [ins .tryPush [.addr (target b handler), .reg r]]
  | .tryPop => write [ins .tryPop []]
  | .throw value => seq [emitOperandToReg b value 254, write [ins .throw [.reg 254]]]

/-- The name that a direct call names. -/
def funcLabel : Operand → String
  | .const (.str s) => if s = "" then "unknown" else s
  | _ => "unknown"

def nativeBuiltins : List (String × ℕ) :=
  [("nativeFileExists", 44), ("nativeTryReadText", 45), ("nativeIoError", 46),
    ("nativeIsDirectory", 47), ("nativeCreateDirectories", 48), ("nativeRemoveDirectory", 49),
    ("nativePathJoin", 50), ("nativePathNormalize", 51), ("nativePathParent", 52),
    ("nativePathName", 53), ("nativePathExtension", 54), ("nativeCurrentDirectory", 55),
    ("nativeListDirectory", 56), ("nativeDirectoryEntry", 57), ("nativeEnvironment", 60),
    ("nativeArgumentCount", 61), ("nativeArgument", 62), ("nativeUnixMillis", 63),
    ("nativeMonotonicNanos", 64), ("nativeSqrt", 70), ("nativeFloor", 71), ("nativeCeil", 72),
    ("nativeRound", 73), ("nativeSin", 74), ("nativeCos", 75), ("nativeLog", 76),
    ("nativeExp", 77), ("nativePow", 78), ("nativeIsFinite", 79), ("nativeDoubleString", 80),
    ("nativeParseDouble", 81), ("nativeValidDouble", 82), ("nativeTcpConnect", 83),
    ("nativeTcpBind", 84), ("nativeTcpAccept", 85), ("nativeSocketRead", 86),
    ("nativeSocketWrite", 87), ("nativeSocketClose", 88), ("nativeNetError", 89),
    ("nativeSocketLocalPort", 90)]

/-- The calls that are expanded in place. -/
inductive InPlace
  | print
  | write
  | alloc
  | hStore
  | hLoad
  | hFree
  /-- One instruction from a register to the result. -/
  | one (op : OpCode) (h : op ∈ [OpCode.strLen, .toStr, .iToF, .fToI, .fNeg])
  /-- One instruction on two floats. -/
  | two (op : OpCode) (h : op ∈ [OpCode.fAdd, .fSub, .fMul, .fDiv])
  /-- A system call with at most four staged arguments. -/
  | staged (number : ℕ)
  /-- A system call with one argument. -/
  | single (number : ℕ)
  | native (number : ℕ)
  | syscall

def inPlaceCalls : List (String × InPlace) :=
  [("print", .print), ("println", .print), ("write", .write), ("alloc", .alloc),
    ("halloc", .alloc), ("hstore", .hStore), ("hset", .hStore), ("hload", .hLoad),
    ("hread", .hLoad), ("hfree", .hFree), ("strlen", .one .strLen (by decide)),
    ("i2s", .one .toStr (by decide)), ("strchar", .staged 32), ("strslice", .staged 33),
    ("strindexof", .staged 34)] ++
  nativeBuiltins.map (fun p => (p.1, .native p.2)) ++
  [("nativeFileReadText", .staged 40), ("nativeFileWriteText", .staged 41),
    ("nativeFileAppendText", .staged 42), ("nativeFileRemove", .staged 43),
    ("itof", .one .iToF (by decide)), ("ftoi", .one .fToI (by decide)),
    ("fneg", .one .fNeg (by decide)), ("fadd", .two .fAdd (by decide)),
    ("fsub", .two .fSub (by decide)), ("fmul", .two .fMul (by decide)),
    ("fdiv", .two .fDiv (by decide)), ("s2i", .single 1), ("chr", .single 3),
    ("syscall", .syscall)]

def findInPlace (f : String) : Option InPlace :=
  (inPlaceCalls.find? fun p => p.1 = f).map Prod.snd

/-- The number of a system call in register 251. -/
def syscallNumber (n : ℕ) : Item := ins .push [.reg 251, .imm (BitVec.ofNat 64 n)]

/-- A call that is expanded in place, without the jump that follows it. -/
def emitInPlace (args : List Operand) : InPlace → Emit (List Item)
  | .print => seq [emitArgTo b args 0 254, write [ins .print [.reg 254]]]
  | .write => seq [emitArgTo b args 0 254, Bytecode.write [ins .write [.reg 254]]]
  | .alloc => seq [emitArgTo b args 0 251, write [ins .alloc [.imm 0, .reg 251, .reg 0]]]
  | .hStore =>
    seq [emitArgTo b args 0 251, emitArgTo b args 1 252, emitArgTo b args 2 253,
      write [ins .hStore [.reg 251, .reg 252, .reg 253]]]
  | .hLoad =>
    seq [emitArgTo b args 0 251, emitArgTo b args 1 252,
      write [ins .hLoad [.reg 251, .reg 252, .reg 0]]]
  | .hFree => seq [emitArgTo b args 0 251, write [ins .hFree [.reg 251]]]
  | .one op _ => seq [emitArgTo b args 0 253, write [ins op [.reg 253, .reg 0]]]
  | .two op _ =>
    seq [emitArgTo b args 0 252, emitArgTo b args 1 253, write [threeRegs op 0 252 253]]
  | .staged n =>
    seq [write [syscallNumber n], emitStaged b (args.take 4), write [ins .syscall [.reg 251]]]
  | .single n =>
    seq [write [syscallNumber n], emitArgTo b args 0 1, write [ins .syscall [.reg 251]]]
  | .native n =>
    seq [write [syscallNumber n], emitArguments b args, write [ins .syscall [.reg 251]]]
  | .syscall =>
    seq [emitArgTo b args 0 251, emitFrom b 1 ((args.drop 1).take 4),
      write [ins .syscall [.reg 251]]]

/-- One arm of a switch. -/
def switchArm (p : BitVec 64 × BlockId) : List Item :=
  [ins .push [.reg 251, .imm p.1], ins .cmp [.reg 252, .reg 251],
    ins .jz [.addr (target b p.2)]]

/-- A call of a name, expanded in place if it is one of those. -/
def emitCall (f : String) (args : List Operand) (ret : BlockId) : Emit (List Item) :=
  match findInPlace f with
  | some c => seq [emitInPlace b args c, write [jump (target b ret)]]
  | none => seq [emitStaged b args, write [ins .call [.addr (.func f)], jump (target b ret)]]

/-- A call through register 250. -/
def emitIndirect (func : Operand) (args : List Operand) (ret : BlockId) : Emit (List Item) :=
  seq [emitOperandToReg b func 250, emitStaged b args,
    write [ins .callInd [.reg 250, .imm (BitVec.ofNat 64 args.length)], jump (target b ret)]]

def emitTerminator : Terminator → Emit (List Item)
  | .goto t => write [jump (target b t)]
  | .switchInt discr values otherwise =>
    seq [emitOperandToReg b discr 252,
      write (values.flatMap (switchArm b) ++ [jump (target b otherwise)])]
  | .switchDiscr _ _ otherwise => write [jump (target b otherwise)]
  | .return_ => write [ins .ret []]
  | .call func args _ ret => emitCall b (funcLabel func) args ret
  | .callIndirect func args _ ret | .closureCall func args _ ret => emitIndirect b func args ret
  | .checkNull value nullTarget okTarget =>
    seq [emitOperandToReg b value 253,
      write [ins .nullChk [.reg 253, .addr (target b nullTarget)], jump (target b okTarget)]]
  | .virtualCall _ slot args _ ret =>
    seq [emitArguments b args,
      write [ins .vCall [.reg 1, .imm (BitVec.ofNat 64 slot),
        .imm (BitVec.ofNat 64 args.length), .addr (target b ret)]]]
  | .interfaceCall _ iface method args _ ret =>
    seq [emitArguments b args,
      write [ins .iCall [.reg 1, .imm (BitVec.ofNat 64 iface), .imm (BitVec.ofNat 64 method),
        .imm (BitVec.ofNat 64 args.length), .addr (target b ret)]]]
  | .unreachable =>
    seq [emitOperandToReg b (.const (.str "null unwrap or unreachable code")) 1,
      write [syscallNumber 99, ins .syscall [.reg 251]]]

/-- Move the incoming arguments from the `i`-th on to the registers of the parameters. -/
def emitPrologue (i : ℕ) : ℕ → Emit (List Item)
  | 0 => write []
  | n + 1 => do
    let r ← localToReg b (i + 1)
    seq [write [ins .mov [.reg r, .reg ((i + 1) % 2 ^ 16)]], emitPrologue (i + 1) n]

def emitBlock (i : ℕ) (bb : BasicBlock) : Emit (List Item) :=
  seq [write [mark (target b i)], seq (bb.stmts.map (emitStatement b)), emitTerminator b bb.term]

/-- The blocks from the `i`-th on. -/
def emitBlocks (i : ℕ) : List BasicBlock → Emit (List Item)
  | [] => write []
  | bb :: bbs => seq [emitBlock b i bb, emitBlocks (i + 1) bbs]

/-- The last register of the body's locals. -/
def maxLocalRegister : Emit ℕ :=
  if b.locals.length ≤ 1 then pure 15 else localToReg b (b.locals.length - 1)

/-- A body: its label, its prologue and its blocks. -/
def compileBody : Emit (List Item) := do
  let items ← seq [write [mark (.func b.name)], emitPrologue b 0 b.paramCount,
    emitBlocks b 0 b.blocks]
  let _ ← maxLocalRegister b
  pure items

end Emit

end Loxis.Bytecode
