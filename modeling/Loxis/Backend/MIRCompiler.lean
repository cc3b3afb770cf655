import Mathlib.Data.List.Basic
import Mathlib.Tactic.Common
import Loxis.Vm.Heap

/-! # Emission of calls

The last pass turns bodies of basic blocks into one sequence of instructions, in which
addresses are labels until all bodies are placed. The statements of a block and the
terminators that are no calls come with their code; positions count instructions.
-/

namespace Loxis.Backend

open Loxis.Vm (TAG_HEAP)

def TAG_INT : BitVec 8 := 0
def TAG_STR : BitVec 8 := 1
def TAG_FLOAT : BitVec 8 := 3
def TAG_NULL : BitVec 8 := 4

/-- The contents of a register. -/
structure Value where
  val : BitVec 64
  tag : BitVec 8
  deriving DecidableEq

/-- The instructions that calls are made of, with addresses in `α`. -/
inductive Instr (α : Type)
  | push (reg : ℕ) (v : Value)
  | pushAddr (reg : ℕ) (a : α)
  | mov (dst src : ℕ)
  | jmp (a : α)
  | call (a : α)
  | callInd (reg nargs : ℕ)
  | vcall (obj slot nargs : ℕ) (ret : α)
  | icall (obj iface method nargs : ℕ) (ret : α)
  | gstore (slot reg : ℕ)
  | ret
  | halt
  | other (opcode : ℕ) (as : List α)

namespace Instr

variable {α β : Type}

def map (f : α → β) : Instr α → Instr β
  | push r v => push r v
  | pushAddr r a => pushAddr r (f a)
  | mov d s => mov d s
  | jmp a => jmp (f a)
  | call a => call (f a)
  | callInd r n => callInd r n
  | vcall o s n a => vcall o s n (f a)
  | icall o i m n a => icall o i m n (f a)
  | gstore s r => gstore s r
  | ret => ret
  | halt => halt
  | other k as => other k (as.map f)

/-- The addresses in an instruction. -/
def addrs : Instr α → List α
  | pushAddr _ a | jmp a | call a | vcall _ _ _ a | icall _ _ _ _ a => [a]
  | other _ as => as
  | _ => []

/-- The registers in an instruction. -/
def regs : Instr α → List ℕ
  | push r _ | pushAddr r _ | callInd r _ | vcall r _ _ _ | icall r _ _ _ _ | gstore _ r => [r]
  | mov d s => [d, s]
  | _ => []

end Instr

/-- A constant: numbers, truth values and characters are integers. -/
inductive Constant
  | int (v : BitVec 64)
  | float (bits : BitVec 64)
  | str (s : String)
  | null
  deriving DecidableEq

inductive Operand
  | copy (l : ℕ)
  | move (l : ℕ)
  | const (c : Constant)
  | label (l : String)
  deriving DecidableEq

/-- The call terminators, and the others with their code. The emission looks at no destination. -/
inductive Terminator
  | call (func : Operand) (args : List Operand) (ret : ℕ)
  | callIndirect (funcPtr : Operand) (args : List Operand) (ret : ℕ)
  | closureCall (closure : Operand) (args : List Operand) (ret : ℕ)
  | virtualCall (recv slot : ℕ) (args : List Operand) (ret : ℕ)
  | interfaceCall (recv iface method : ℕ) (args : List Operand) (ret : ℕ)
  | other (head : Instr String) (tail : List (Instr String))

structure BasicBlock where
  stmts : List (Instr String)
  term : Terminator

/-- A function. Its locals are the result, the parameters and its variables, in that order. -/
structure MirBody where
  name : String
  paramCount : ℕ
  locals : ℕ
  blocks : List BasicBlock

structure LoweredClass where
  typeId : ℕ
  vtableMethodNames : List String
  itables : List (ℕ × List ℕ)

structure LoweringOutput where
  globalInitializers : List (String × ℕ)
  bodies : List MirBody
  classes : List LoweredClass

/-- The classes that have a number. -/
def LoweringOutput.numbered (out : LoweringOutput) : List LoweredClass :=
  out.classes.filter fun lc => lc.typeId ≠ 0xFFFFFFFF

/-- What the emission of calls takes from the rest of the pass: the string pool, and the code of
the operations that are expanded in place. -/
structure Surroundings where
  intern : String → BitVec 64
  expand : String → List Operand → String → Except String (Instr String × List (Instr String))

/-- The function names that stand for operations. -/
def inPlace : List String :=
  ["print", "println", "write", "alloc", "halloc", "hstore", "hset", "hload", "hread", "hfree",
    "strlen", "i2s", "strchar", "strslice", "strindexof", "nativeFileExists", "nativeTryReadText",
    "nativeIoError", "nativeIsDirectory", "nativeCreateDirectories", "nativeRemoveDirectory",
    "nativePathJoin", "nativePathNormalize", "nativePathParent", "nativePathName",
    "nativePathExtension", "nativeCurrentDirectory", "nativeListDirectory", "nativeDirectoryEntry",
    "nativeEnvironment", "nativeArgumentCount", "nativeArgument", "nativeUnixMillis",
    "nativeMonotonicNanos", "nativeSqrt", "nativeFloor", "nativeCeil", "nativeRound", "nativeSin",
    "nativeCos", "nativeLog", "nativeExp", "nativePow", "nativeIsFinite", "nativeDoubleString",
    "nativeParseDouble", "nativeValidDouble", "nativeTcpConnect", "nativeTcpBind",
    "nativeTcpAccept", "nativeSocketRead", "nativeSocketWrite", "nativeSocketClose",
    "nativeNetError", "nativeSocketLocalPort", "nativeFileReadText", "nativeFileWriteText",
    "nativeFileAppendText", "nativeFileRemove", "itof", "ftoi", "fneg", "fadd", "fsub", "fmul",
    "fdiv", "s2i", "chr", "syscall"]

def blockLabel (body : String) (id : ℕ) : String := body ++ "_b" ++ toString id

/-- The label that a direct call names. -/
def funcLabel : Operand → String
  | .const (.str s) => if s = "" then "unknown" else s
  | _ => "unknown"

section Emit

variable (g : Surroundings) (b : MirBody)

/-- The register of a local. Registers 240 to 255 are for staging. -/
def localToReg (l : ℕ) : Except String ℕ :=
  if l = 0 then .ok 0
  else if 4064 ≤ l then .error ("too many VM locals in " ++ b.name)
  else if l + 15 < 240 then .ok (l + 15)
  else .ok (l + 15 + 16)

def Constant.value : Constant → Value
  | .int v => ⟨v, TAG_INT⟩
  | .float bits => ⟨bits, TAG_FLOAT⟩
  | .str s => ⟨g.intern s, TAG_STR⟩
  | .null => ⟨0, TAG_NULL⟩

def emitOperandToReg (reg : ℕ) : Operand → Except String (List (Instr String))
  | .const c => .ok [.push reg (c.value g)]
  | .label l => .ok [.pushAddr reg l]
  | .copy l | .move l => do
    let src ← localToReg b l
    .ok (if src = reg then [] else [.mov reg src])

/-- Stage the operands in registers 240 and up, from the `i`-th on. -/
def stage (i : ℕ) : List Operand → Except String (List (Instr String))
  | [] => .ok []
  | a :: as => do
    let c ← emitOperandToReg g b ((240 + i) % 2 ^ 16) a
    let cs ← stage (i + 1) as
    .ok (c ++ cs)

/-- Move `n` staged operands to registers 1 and up. -/
def moveStaged (n : ℕ) : List (Instr String) :=
  (List.range n).map fun i => .mov ((i + 1) % 2 ^ 16) ((240 + i) % 2 ^ 16)

def emitArguments (args : List Operand) : Except String (List (Instr String)) :=
  if 10 < args.length then .error "call exceeds VM argument capacity"
  else do
    let cs ← stage g b 0 args
    .ok (cs ++ moveStaged args.length)

def emitTerminator : Terminator → Except String (List (Instr String))
  | .call func args ret =>
    if funcLabel func ∈ inPlace then do
      let (head, tail) ← g.expand (funcLabel func) args (blockLabel b.name ret)
      .ok (head :: tail)
    else do
      let cs ← stage g b 0 args
      .ok (cs ++ moveStaged args.length ++
        [.call (funcLabel func), .jmp (blockLabel b.name ret)])
  | .callIndirect p args ret | .closureCall p args ret => do
    let c ← emitOperandToReg g b 250 p
    let cs ← stage g b 0 args
    .ok (c ++ cs ++ moveStaged args.length ++
      [.callInd 250 args.length, .jmp (blockLabel b.name ret)])
  | .virtualCall _ slot args ret => do
    let cs ← emitArguments g b args
    .ok (cs ++ [.vcall 1 slot args.length (blockLabel b.name ret)])
  | .interfaceCall _ iface method args ret => do
    let cs ← emitArguments g b args
    .ok (cs ++ [.icall 1 iface method args.length (blockLabel b.name ret)])
  | .other head tail => .ok (head :: tail)

/-- Move the incoming arguments from the `i`-th on to the registers of the parameters. -/
def prologueFrom (i : ℕ) : ℕ → Except String (List (Instr String))
  | 0 => .ok []
  | n + 1 => do
    let r ← localToReg b (i + 1)
    let cs ← prologueFrom (i + 1) n
    .ok (.mov r ((i + 1) % 2 ^ 16) :: cs)

def maxLocalRegister : Except String ℕ :=
  if b.locals ≤ 1 then .ok 15 else localToReg b (b.locals - 1)

def emitBlock (bb : BasicBlock) : Except String (List (Instr String)) := do
  let t ← emitTerminator g b bb.term
  .ok (bb.stmts ++ t)

end Emit

/-- The code of a body. -/
structure Emitted where
  body : MirBody
  prologue : List (Instr String)
  blocks : List (List (Instr String))
  maxReg : ℕ

namespace Emitted

variable (c : Emitted)

def code : List (Instr String) := c.prologue ++ c.blocks.flatten

/-- The labels of a body that is placed at `start`. -/
def labels (start : ℕ) : List (String × ℕ) :=
  (c.body.name, start) :: (List.range c.blocks.length).map fun i =>
    (blockLabel c.body.name i, start + c.prologue.length + (c.blocks.take i).flatten.length)

end Emitted

def emitBody (g : Surroundings) (b : MirBody) : Except String Emitted := do
  let prologue ← prologueFrom b 0 b.paramCount
  let blocks ← b.blocks.mapM (emitBlock g b)
  let maxReg ← maxLocalRegister b
  .ok ⟨b, prologue, blocks, maxReg⟩

/-- The bodies with the positions at which they are placed. -/
def layout : ℕ → List Emitted → List (ℕ × Emitted)
  | _, [] => []
  | start, c :: cs => (start, c) :: layout (start + c.code.length) cs

structure FunctionDebugInfo where
  start : ℕ
  stop : ℕ
  maxLocalRegister : ℕ

structure VTableEntry where
  methodOffsets : List ℕ
  itable : List (ℕ × List ℕ)

structure Chunk where
  code : List (Instr ℕ)
  functions : List FunctionDebugInfo
  vtables : ℕ → VTableEntry

/-- The synthetic entry: initialize the globals, call main, halt. -/
def entry (inits : List (String × ℕ)) : List (Instr String) :=
  inits.flatMap (fun p => [.call p.1, .gstore p.2 0]) ++ [.call "main", .halt]

/-- The position of a label; a later definition replaces an earlier one. -/
def getLabelOffset (labels : List (String × ℕ)) (l : String) : Except String ℕ :=
  if l = "print" then .ok 0xFFFFFFFF
  else match labels.reverse.find? fun p => p.1 = l with
    | some p => .ok p.2
    | none => .error ("undefined label: " ++ l)

/-- A label that is known to be defined. -/
def offsetOf (labels : List (String × ℕ)) (l : String) : ℕ :=
  match getLabelOffset labels l with
  | .ok i => i
  | .error _ => 0

def buildItable (offsets : List ℕ) (ite : ℕ × List ℕ) : Except String (ℕ × List ℕ) := do
  let os ← ite.2.mapM fun sm => match offsets[sm]? with
    | some o => .ok o
    | none => .error ("invalid vtable slot " ++ toString sm)
  .ok (ite.1, os)

def buildVTable (labels : List (String × ℕ)) (lc : LoweredClass) :
    Except String (ℕ × VTableEntry) := do
  let offsets ← lc.vtableMethodNames.mapM (getLabelOffset labels)
  let itable ← lc.itables.mapM (buildItable offsets)
  .ok (lc.typeId, ⟨offsets, itable⟩)

def noVTable : VTableEntry := ⟨[], []⟩

/-- Where the labels of the bodies are. -/
def labelOffsets (out : LoweringOutput) (bodies : List Emitted) : List (String × ℕ) :=
  (layout (entry out.globalInitializers).length bodies).flatMap fun p => p.2.labels p.1

/-- Place the bodies after the entry, and resolve the labels. -/
def link (out : LoweringOutput) (bodies : List Emitted) : Except String Chunk := do
  let start := entry out.globalInitializers
  let labels := labelOffsets out bodies
  let tables ← out.numbered.mapM (buildVTable labels)
  let code := start ++ bodies.flatMap Emitted.code
  let _ ← (code.flatMap Instr.addrs).mapM (getLabelOffset labels)
  .ok
    { code := code.map (Instr.map (offsetOf labels))
      functions := (layout start.length bodies).map fun p =>
        ⟨p.1, p.1 + p.2.code.length, p.2.maxReg⟩
      vtables := fun ty =>
        match tables.reverse.find? fun p => p.1 = ty with
        | some p => p.2
        | none => noVTable }

def compile (g : Surroundings) (out : LoweringOutput) : Except String Chunk := do
  let bodies ← out.bodies.mapM (emitBody g)
  link out bodies

end Loxis.Backend
