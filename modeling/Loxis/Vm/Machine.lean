import Loxis.Backend.MIRCompiler
import Loxis.Lib.Outcome
import Loxis.Vm.Arc

/-! # The machine

Registers, globals, calls, spills and exception handlers, with the barrier calls by
which the collector learns of every reference that is taken or dropped. Instructions
that compute give values that are no references; they and the native calls are
parameters.
-/

namespace Loxis.Vm

open Function
open Loxis.Backend (TAG_INT TAG_STR TAG_FLOAT TAG_NULL VTableEntry)

abbrev Reg := Fin 4096

instance neZero_regs : NeZero 4096 := ⟨by decide⟩

/-- A value with its tag, in a register, a global or a cell. -/
abbrev Cell := BitVec 64 × BitVec 8

/-- A value that is no reference. -/
abbrev Scalar := { c : Cell // c.2 ≠ TAG_HEAP }

inductive Operand
  | reg (r : Reg)
  | imm (v : BitVec 64)
  | null
  | float (bits : BitVec 64)
  | str (idx : BitVec 64)
  | addr (a : BitVec 64)
  deriving DecidableEq

/-- The instructions that compute. -/
inductive Opcode
  | add | sub | mul | div | shl | shr | rem | bitAnd | bitOr | bitXor
  | fadd | fsub | fmul | fdiv | itoF | ftoI | fneg
  | cmp | write | print | strLen | toStr
  deriving DecidableEq

inductive Instr
  | nop
  | tryPush (target : ℕ) (exceptionReg : Reg)
  | tryPop
  | throw (source : Reg)
  | isA (source : Reg) (targetType : Operand) (result : Reg)
  | push (dst : Reg) (val : Operand)
  | pop
  | pushR (r : Reg)
  | popR (r : Reg)
  | alloc (typeId : ℕ) (size : Operand) (result : Reg)
  | hfree (base : Reg)
  | hstore (base off val : Reg)
  | hload (base off result : Reg)
  | mov (dst : Reg) (val : Operand)
  | gload (slot : Operand) (dst : Reg)
  | gstore (slot : Operand) (src : Reg)
  | compute (op : Opcode) (operands : List Operand)
  | jmp (addr : ℕ)
  | jnz (addr : ℕ)
  | jz (addr : ℕ)
  | jn (addr : ℕ)
  | skip (addr : Option ℕ)
  | call (addr : ℕ)
  | nullChk (val : Operand) (addr : ℕ)
  | callInd (func : Reg) (nargs : ℕ)
  | ret
  | vcall (obj : Reg) (slot resume : ℕ)
  | icall (obj : Reg) (iface method resume : ℕ)
  | typeOf (obj result : Reg)
  | syscall (num : Reg)
  | halt
  deriving DecidableEq

structure JitInstruction where
  op : Instr
  byteOffset : ℕ

structure FunctionInfo where
  start : ℕ
  stop : ℕ
  maxLocalRegister : Reg

structure Chunk where
  code : List JitInstruction
  functions : List FunctionInfo
  vtables : List VTableEntry
  typeNames : List String
  typeParents : List ℕ

structure CallFrame where
  returnIp : ℕ
  callIp : ℕ
  locals : List (Reg × Cell)

structure ExceptionHandler where
  targetIp : ℕ
  exceptionReg : Reg
  callDepth : ℕ
  dataDepth : ℕ

/-- The machine with its collector and the outside world. Stacks have their top first. -/
structure VM (G W : Type) where
  regs : Reg → Cell
  globals : Fin 256 → Cell
  zero : Bool
  neg : Bool
  callStack : List CallFrame
  dataStack : List (Reg × Cell)
  exceptionHandlers : List ExceptionHandler
  heap : Heap
  gc : G
  ip : ℕ
  world : W

/-- Why an instruction is given up: an exception found its handler, a panic, one of the heap's own
checks failed, an exception without a handler, or a chain of parent types that never ends. -/
inductive Signal
  | unwind
  | panic (message : String)
  | failure (f : Failure)
  | uncaught (exception : Cell)
  | hang

/-- What an instruction that computes, or a native call, comes to. -/
inductive Computed
  | value (dst : Reg) (v : Scalar)
  | flags (zero neg : Bool)
  | done
  | raise (message : String)
  | panic (message : String)

/-- The instructions that compute, the native calls and the string pool. -/
structure Natives (W : Type) where
  compute : Opcode → List Operand → (Reg → Cell) → W → Computed × W
  native : ℕ → (Reg → Cell) → W → Computed × W
  intern : String → W → BitVec 64 × W

abbrev Exec (G W : Type) := EStateM Signal (VM G W)

namespace VM

variable {G W : Type} (B : GCBackend G) (N : Natives W) (P : Chunk)

def panic {α : Type} (message : String) : Exec G W α := throw (.panic message)

/-- Call the collector. -/
def barrier (f : G → Heap → Except Failure (G × Heap)) : Exec G W Unit := fun s =>
  match f s.gc s.heap with
  | .error e => .error (.failure e) s
  | .ok p => .ok () { s with gc := p.1, heap := p.2 }

/-- A root takes the reference in a value, if it is one. -/
def addRoot (c : Cell) : Exec G W Unit :=
  if c.2 = TAG_HEAP then barrier (B.rootAdd (handleOf c.1)) else pure ()

/-- A root drops the reference in a value, if it is one. -/
def dropRoot (c : Cell) : Exec G W Unit :=
  if c.2 = TAG_HEAP then barrier (B.rootRemove (handleOf c.1)) else pure ()

def sameRef (c c' : Cell) : Bool := decide (c.2 = TAG_HEAP ∧ c'.2 = TAG_HEAP ∧ c.1 = c'.1)

def setReg (r : Reg) (c : Cell) : Exec G W Unit := do
  let s ← get
  bif sameRef (s.regs r) c then pure ()
  else do
    addRoot B c
    modify fun s => { s with regs := update s.regs r c }
    dropRoot B (s.regs r)

def setGlobal (slot : Fin 256) (c : Cell) : Exec G W Unit := do
  let s ← get
  bif sameRef (s.globals slot) c then pure ()
  else do
    addRoot B c
    modify fun s => { s with globals := update s.globals slot c }
    dropRoot B (s.globals slot)

def goto (ip : ℕ) : Exec G W Unit := modify fun s => { s with ip := ip }

def next : Exec G W Unit := modify fun s => { s with ip := s.ip + 1 }

def resolveJitTarget (byteOffset : ℕ) : Option ℕ :=
  P.code.findIdx? fun i => i.byteOffset = byteOffset

/-- Where an instruction starts at an offset in the code, or a panic. -/
def target (byteOffset : ℕ) (message : String) : Exec G W ℕ :=
  match resolveJitTarget P byteOffset with
  | some ip => pure ip
  | none => panic message

def readIntOperand : Operand → Exec G W (BitVec 64)
  | .reg r => do
    let s ← get
    pure (s.regs r).1
  | .imm v => pure v
  | _ => panic "numeric operand has an invalid tag"

/-- The last register of the locals of the function that an instruction belongs to. -/
def frameMaximum (callIp : ℕ) : ℕ :=
  match P.code[callIp]? with
  | none => 15
  | some i =>
    match P.functions.find? fun f => f.start ≤ i.byteOffset ∧ i.byteOffset < f.stop with
    | some f => f.maxLocalRegister
    | none => 15

/-- The registers that a frame saves. -/
def savedRegs (maximum : ℕ) : List Reg :=
  ((List.range' 16 (maximum + 1 - 16)).filter fun r => ¬ (240 ≤ r ∧ r ≤ 255)).map (Fin.ofNat 4096)

/-- The registers that a return clears. -/
def scratchRegs : List Reg := (List.range' 1 10 ++ List.range' 240 16).map (Fin.ofNat 4096)

def pushCallFrame (returnIp callIp : ℕ) : Exec G W Unit := do
  let s ← get
  let locals := (savedRegs (frameMaximum P callIp)).map fun r => (r, s.regs r)
  locals.forM fun p => addRoot B p.2
  modify fun s => { s with callStack := ⟨returnIp, callIp, locals⟩ :: s.callStack }

/-- A saved register gets its value back. -/
def restore (p : Reg × Cell) : Exec G W Unit := do
  setReg B p.1 p.2
  dropRoot B p.2

def restoreCallFrame : Exec G W Unit := do
  let s ← get
  match s.callStack with
  | [] => panic "attempted to restore an empty call stack"
  | frame :: rest => do
    modify fun s => { s with callStack := rest }
    scratchRegs.forM fun r => setReg B r (0, TAG_INT)
    frame.locals.forM (restore B)

/-- Leave calls until `depth` are left. A call is left in each turn, which bounds the turns. -/
def unwindCalls (depth : ℕ) : ℕ → Exec G W Unit
  | 0 => pure ()
  | n + 1 => do
    let s ← get
    if depth < s.callStack.length then do
      restoreCallFrame B
      unwindCalls depth n
    else pure ()

/-- Restore spilled registers until `depth` are left. -/
def unwindData (depth : ℕ) : ℕ → Exec G W Unit
  | 0 => pure ()
  | n + 1 => do
    let s ← get
    match s.dataStack with
    | [] => pure ()
    | p :: rest =>
      if depth < s.dataStack.length then do
        modify fun s => { s with dataStack := rest }
        restore B p
        unwindData depth n
      else pure ()

/-- An exception that no handler takes ends the run. -/
def reportUncaught (c : Cell) : Exec G W Unit := do
  let s ← get
  if c.2 = TAG_HEAP then
    if s.heap.valid (handleOf c.1) = false then panic "throw received an invalid exception handle"
    else if s.heap.loadCell (handleOf c.1) 0 = none then
      panic "exception object has no readable message field"
    else throw (.uncaught c)
  else throw (.uncaught c)

def throwValue (c : Cell) : Exec G W Unit := do
  let s ← get
  match s.exceptionHandlers with
  | [] => reportUncaught c
  | handler :: rest => do
    modify fun s => { s with exceptionHandlers := rest }
    addRoot B c
    unwindCalls B handler.callDepth s.callStack.length
    let s ← get
    unwindData B handler.dataDepth s.dataStack.length
    setReg B handler.exceptionReg c
    dropRoot B c
    goto handler.targetIp

def heapRef (handle : ℕ) : Cell := (BitVec.ofNat 64 handle, TAG_HEAP)

/-- Raise an exception with a message, and give the instruction up. -/
def raiseRuntime {α : Type} (message : String) : Exec G W α := do
  match P.typeNames.findIdx? (· = "RuntimeException") with
  | none => panic "RuntimeException type metadata is missing"
  | some typeId => do
    let s ← get
    let a := s.heap.alloc Heap.SLOT_SIZE typeId
    modify fun s => { s with heap := a.2 }
    if a.1 = Heap.INVALID then panic "heap exhausted while creating RuntimeException"
    else do
      let m := N.intern message s.world
      modify fun s => { s with gc := B.onAlloc a.1 s.gc, world := m.2 }
      match a.2.storeCell a.1 0 m.1 TAG_STR with
      | none => panic "failed to initialize RuntimeException.message"
      | some t => do
        modify fun s => { s with heap := t }
        throwValue B (heapRef a.1)
        throw .unwind

/-- Allocate, with the new object in a register. -/
def allocate (size typeId : ℕ) (r : Reg) : Exec G W Unit := do
  let s ← get
  let a := s.heap.alloc size typeId
  modify fun s => { s with heap := a.2 }
  if a.1 = Heap.INVALID then raiseRuntime B N P "heap exhausted (slot space full)"
  else do
    modify fun s => { s with gc := B.onAlloc a.1 s.gc }
    setReg B r (heapRef a.1)

/-- Read a cell of an object into a register. -/
def readHeap (base off : ℕ) (r : Reg) : Exec G W Unit := do
  let s ← get
  match s.heap.loadCell base off with
  | none => raiseRuntime B N P "heap read out of bounds or through an invalid handle"
  | some c => setReg B r c

/-- Write a cell of an object. -/
def writeHeap (base off : ℕ) (c : Cell) : Exec G W Unit := do
  let s ← get
  match s.heap.loadCell base off with
  | none => raiseRuntime B N P "heap write out of bounds or through an invalid handle"
  | some old => barrier (B.overwrite base off old c)

/-- Do what a computation came to. -/
def perform : Computed → Exec G W Unit
  | .value dst v => setReg B dst v.1
  | .flags z n => modify fun s => { s with zero := z, neg := n }
  | .done => pure ()
  | .raise message => raiseRuntime B N P message
  | .panic message => panic message

/-- The first argument of a system call. -/
def firstArgument (s : VM G W) : Cell := s.regs 1

def secondArgument (s : VM G W) : Cell := s.regs 2

def invokeSyscall (op : ℕ) : Exec G W Unit := do
  let s ← get
  match op with
  | 2 => setReg B 0 (BitVec.ofNat 64 (s.heap.getTypeId (handleOf s.firstArgument.1)), TAG_INT)
  | 20 => allocate B N P (handleOf s.firstArgument.1) 0 0
  | 21 => readHeap B N P (handleOf s.firstArgument.1) (handleOf s.secondArgument.1) 0
  | 22 => writeHeap B N P (handleOf s.firstArgument.1) (handleOf s.secondArgument.1) (s.regs 3)
  | 23 => modify fun s => { s with gc := B.onExplicitFree (handleOf s.firstArgument.1) s.gc }
  | _ => do
    let r := N.native op s.regs s.world
    modify fun s => { s with world := r.2 }
    perform B N P r.1

def NO_TYPE : ℕ := 0xFFFFFFFF

/-- Whether a type is below another one. The chain of parents visits no type twice, unless it never
ends. -/
def derives (parents : List ℕ) (targetType : ℕ) : ℕ → ℕ → Option Bool
  | 0, _ => none
  | n + 1, type =>
    if type = NO_TYPE then some false
    else if type = targetType then some true
    else
      match parents[type]? with
      | none => some false
      | some parent => derives parents targetType n parent

def isA (c : Cell) (targetType : ℕ) : Exec G W Bool := do
  let s ← get
  if c.2 = TAG_HEAP then
    if s.heap.valid (handleOf c.1) = false then panic "type check received an invalid heap handle"
    else
      match derives P.typeParents targetType (P.typeParents.length + 1)
        (s.heap.getTypeId (handleOf c.1)) with
      | none => throw .hang
      | some b => pure b
  else pure false

/-- The value of an operand of a move. -/
def operandCell (regs : Reg → Cell) : Operand → Cell
  | .reg r => regs r
  | .imm v => (v, TAG_INT)
  | .null => (0, TAG_NULL)
  | .float bits => (bits, TAG_FLOAT)
  | .str idx => (idx, TAG_STR)
  | .addr a => (a, TAG_INT)

/-- Shift `n` arguments up by one register, the last one first. Register numbers are bytes. -/
def shiftArgs : ℕ → Exec G W Unit
  | 0 => pure ()
  | n + 1 => do
    let s ← get
    setReg B (Fin.ofNat 4096 ((n + 2) % 256)) (s.regs (Fin.ofNat 4096 ((n + 1) % 256)))
    shiftArgs n

/-- The address that an indirect call goes to. A closure is passed as the first argument. -/
def indirect (func : Reg) (nargs : ℕ) : Exec G W ℕ := do
  let s ← get
  if (s.regs func).2 = TAG_HEAP then
    match s.heap.loadCell (handleOf (s.regs func).1) 0 with
    | none => panic "closure has no readable function cell"
    | some fn => do
      -- the count is a signed number in the loop
      shiftArgs B (if nargs < 2 ^ 31 then nargs else 0)
      let s ← get
      setReg B 1 (s.regs func)
      pure (handleOf fn.1)
  else pure (handleOf (s.regs func).1)

/-- Call the instruction at an index. -/
def enter (returnIp target : ℕ) : Exec G W Unit := do
  let s ← get
  pushCallFrame B P returnIp s.ip
  goto target

/-- The first of the methods of an interface that starts an instruction. -/
def interfaceMethod (itable : List (ℕ × List ℕ)) (iface method : ℕ) : Option ℕ :=
  itable.findSome? fun ite =>
    if ite.1 = iface then ite.2[method]?.bind (resolveJitTarget P) else none

/-- Drop the handlers of the call that returns. -/
def dropHandlers (depth : ℕ) (hs : List ExceptionHandler) : List ExceptionHandler :=
  hs.dropWhile fun h => depth ≤ h.callDepth

def branch (taken : Bool) (addr : ℕ) (message : String) : Exec G W Unit :=
  bif taken then do
    let ip ← target P addr message
    goto ip
  else next

/-- Execute an instruction. The result says whether the machine halts. -/
def execJitInstruction : Instr → Exec G W Bool
  | .nop => do next; pure false
  | .tryPush addr exceptionReg => do
    let ip ← target P addr "invalid exception handler target"
    modify fun s => { s with
      exceptionHandlers :=
        ⟨ip, exceptionReg, s.callStack.length, s.dataStack.length⟩ :: s.exceptionHandlers }
    next
    pure false
  | .tryPop => do
    let s ← get
    match s.exceptionHandlers with
    | [] => panic "exception handler stack underflow"
    | _ :: rest => do
      modify fun s => { s with exceptionHandlers := rest }
      next
      pure false
  | .throw source => do
    let s ← get
    throwValue B (s.regs source)
    pure false
  | .isA source targetType result => do
    let ty ← readIntOperand targetType
    let s ← get
    let b ← isA P (s.regs source) (handleOf ty)
    setReg B result (if b then 1 else 0, TAG_INT)
    next
    pure false
  | .push dst val => do
    let s ← get
    setReg B dst (operandCell s.regs val)
    next
    pure false
  | .pop => do next; pure false
  | .pushR r => do
    let s ← get
    addRoot B (s.regs r)
    modify fun t => { t with dataStack := (r, s.regs r) :: t.dataStack }
    next
    pure false
  | .popR r => do
    let s ← get
    match s.dataStack with
    | [] => do next; pure false
    | p :: rest => do
      modify fun s => { s with dataStack := rest }
      if p.1 ≠ r then panic "register spill stack mismatch"
      else do
        restore B p
        next
        pure false
  | .alloc typeId size result => do
    let n ← readIntOperand size
    allocate B N P (handleOf n) typeId result
    next
    pure false
  | .hfree base => do
    modify fun s => { s with gc := B.onExplicitFree (handleOf (s.regs base).1) s.gc }
    next
    pure false
  | .hstore base off val => do
    let s ← get
    writeHeap B N P (handleOf (s.regs base).1) (handleOf (s.regs off).1) (s.regs val)
    next
    pure false
  | .hload base off result => do
    let s ← get
    readHeap B N P (handleOf (s.regs base).1) (handleOf (s.regs off).1) result
    next
    pure false
  | .mov dst val => do
    let s ← get
    (match val with
      | .reg _ | .imm _ | .addr _ => setReg B dst (operandCell s.regs val)
      | _ => pure ())
    next
    pure false
  | .gload slot dst => do
    let n ← readIntOperand slot
    let s ← get
    if h : handleOf n < 256 then do
      setReg B dst (s.globals ⟨handleOf n, h⟩)
      next
      pure false
    else panic "global slot out of bounds"
  | .gstore slot src => do
    let n ← readIntOperand slot
    let s ← get
    if h : handleOf n < 256 then do
      setGlobal B ⟨handleOf n, h⟩ (s.regs src)
      next
      pure false
    else panic "global slot out of bounds"
  | .compute op operands => do
    let s ← get
    let r := N.compute op operands s.regs s.world
    modify fun s => { s with world := r.2 }
    perform B N P r.1
    next
    pure false
  | .jmp addr => do
    branch P true addr "invalid jump target"
    pure false
  | .jnz addr => do
    let s ← get
    branch P (!s.zero) addr "invalid jnz target"
    pure false
  | .jz addr => do
    let s ← get
    branch P s.zero addr "invalid jz target"
    pure false
  | .jn addr => do
    let s ← get
    branch P s.neg addr "invalid jn target"
    pure false
  | .skip none => pure true
  | .skip (some addr) => do
    branch P true addr "invalid skip target"
    pure false
  | .call addr => do
    let ip ← target P addr "invalid call target"
    let s ← get
    enter B P (s.ip + 1) ip
    pure false
  | .nullChk val addr => do
    let s ← get
    let isNull := match val with
      | .reg r => decide ((s.regs r).2 = TAG_NULL)
      | .null => true
      | _ => false
    branch P isNull addr "invalid null-check target"
    pure false
  | .callInd func nargs => do
    let addr ← indirect B func nargs
    let ip ← target P addr "invalid indirect call target"
    let s ← get
    enter B P (s.ip + 1) ip
    pure false
  | .ret => do
    modify fun s => { s with
      exceptionHandlers := dropHandlers s.callStack.length s.exceptionHandlers }
    let s ← get
    match s.callStack with
    | [] => pure true
    | frame :: _ => do
      restoreCallFrame B
      goto frame.returnIp
      pure false
  | .vcall obj slot resume => do
    let s ← get
    let typeId := s.heap.getTypeId (handleOf (s.regs obj).1)
    match (P.vtables[typeId]?.bind fun e => e.methodOffsets[slot]?).bind (resolveJitTarget P) with
    | none => panic s!"invalid virtual dispatch for type {typeId} slot {slot}"
    | some ip => do
      let back ← target P resume "invalid virtual return address"
      enter B P back ip
      pure false
  | .icall obj iface method resume => do
    let s ← get
    let typeId := s.heap.getTypeId (handleOf (s.regs obj).1)
    match P.vtables[typeId]?.bind fun e => interfaceMethod P e.itable iface method with
    | none => panic s!"invalid interface dispatch for type {typeId} interface {iface}"
    | some ip => do
      let back ← target P resume "invalid interface return address"
      enter B P back ip
      pure false
  | .typeOf obj result => do
    let s ← get
    setReg B result (BitVec.ofNat 64 (s.heap.getTypeId (handleOf (s.regs obj).1)), TAG_INT)
    next
    pure false
  | .syscall num => do
    let s ← get
    invokeSyscall B N P ((s.regs num).1.toNat % 256)
    next
    pure false
  | .halt => pure true

/-- One turn of the dispatch loop; none where the loop ends. -/
def step (s : VM G W) : Option (VM G W) :=
  match P.code[s.ip]? with
  | none => none
  | some i =>
    match execJitInstruction B N P i.op s with
    | .ok true _ => none
    | .ok false t => some t
    | .error .unwind t => some t
    | .error _ _ => none

/-- The machine before its first instruction. -/
def init (g : G) (w : W) : VM G W where
  regs _ := (0, TAG_INT)
  globals _ := (0, TAG_INT)
  zero := false
  neg := false
  callStack := []
  dataStack := []
  exceptionHandlers := []
  heap := Heap.new
  gc := g
  ip := 0
  world := w

/-- A machine whose computations and native calls do nothing. -/
def noNatives : Natives Unit where
  compute _ _ _ w := (.done, w)
  native _ _ w := (.done, w)
  intern _ w := (0, w)

@[irreducible] def clearRegs : Exec G W Unit :=
  (List.finRange 4096).forM fun r => setReg B r (0, TAG_INT)

@[irreducible] def clearGlobals : Exec G W Unit :=
  (List.finRange 256).forM fun g => setGlobal B g (0, TAG_INT)

/-- Drop the spilled registers, with as many turns as there are of them. -/
def dropData : ℕ → Exec G W Unit
  | 0 => pure ()
  | n + 1 => do
    let s ← get
    match s.dataStack with
    | [] => pure ()
    | p :: rest => do
      modify fun s => { s with dataStack := rest }
      dropRoot B p.2
      dropData n

/-- Drop every root but those of calls in progress. -/
def finishGC : Exec G W Unit := do
  clearRegs B
  clearGlobals B
  let s ← get
  dropData B s.dataStack.length

/-! ### What the barrier calls change -/

section Ends

variable {ε σ α β : Type} {s : σ} {Q : α → σ → Prop} {E : ε → σ → Prop}

theorem ends_get {f : σ → EStateM ε σ α} (h : Ends (f s) s Q E) : Ends (get >>= f) s Q E :=
  .bind h

theorem ends_modify {g : σ → σ} {f : PUnit → EStateM ε σ α} (h : Ends (f ⟨⟩) (g s) Q E) :
    Ends (modify g >>= f) s Q E :=
  .bind h

theorem ends_seq {R : β → σ → Prop} {x : EStateM ε σ α} {f : α → EStateM ε σ β} (h : Ends x s Q E)
    (hf : ∀ a t, Q a t → Ends (f a) t R E) : Ends (x >>= f) s R E :=
  .seq h hf fun _ _ => id

theorem ends_forM {I : σ → Prop} {f : β → EStateM ε σ PUnit}
    (hf : ∀ b s, I s → Ends (f b) s (fun _ => I) E) (l : List β) (h : I s) :
    Ends (l.forM f) s (fun _ => I) E := by
  induction l generalizing s with
  | nil => exact h
  | cons b l ih => exact ends_seq (hf b s h) fun _ t ht => ih ht

end Ends

variable {B} {P} {s : VM G W}

/-- The program ends in states with a property, or because the heap's own checks fail. -/
def Calm {α : Type} (x : Exec G W α) (s : VM G W) (Q : VM G W → Prop) : Prop :=
  Ends x s (fun _ => Q) fun e _ => ∃ f, e = .failure f

theorem calm_barrier (f : G → Heap → Except Failure (G × Heap)) :
    Calm (barrier f) s fun t => ∃ g h, t = { s with gc := g, heap := h } := by
  unfold Calm Ends barrier
  cases f s.gc s.heap with
  | error e => exact ⟨e, rfl⟩
  | ok p => exact ⟨p.1, p.2, rfl⟩

theorem calm_addRoot (c : Cell) :
    Calm (addRoot B c) s fun t => ∃ g h, t = { s with gc := g, heap := h } := by
  unfold addRoot
  split
  · exact calm_barrier _
  · exact ⟨s.gc, s.heap, rfl⟩

theorem calm_dropRoot (c : Cell) :
    Calm (dropRoot B c) s fun t => ∃ g h, t = { s with gc := g, heap := h } := by
  unfold dropRoot
  split
  · exact calm_barrier _
  · exact ⟨s.gc, s.heap, rfl⟩

theorem update_same {ι : Type} [DecidableEq ι] {f : ι → Cell} {i : ι} {c : Cell}
    (h : sameRef (f i) c = true) : update f i c = f := by
  obtain ⟨hold, hnew, heq⟩ := of_decide_eq_true h
  exact update_eq_self_iff.mpr (Prod.ext heq.symm (hnew.trans hold.symm))

/-- A place gets a new value. -/
theorem calm_replace {place : VM G W → VM G W} {c old : Cell}
    (hplace : ∀ g h, place { s with gc := g, heap := h } = { place s with gc := g, heap := h }) :
    Calm (addRoot B c >>= fun _ => modify place >>= fun _ => dropRoot B old) s fun t =>
      ∃ g h, t = { place s with gc := g, heap := h } := by
  refine (calm_addRoot c).seq ?_ fun _ _ => id
  rintro - t ⟨g, h, rfl⟩
  refine Ends.bind ((calm_dropRoot old).mono ?_ fun _ _ => id)
  rintro - u ⟨g', h', rfl⟩
  exact ⟨g', h', by rw [hplace]⟩

theorem calm_setReg (r : Reg) (c : Cell) : Calm (setReg B r c) s fun t =>
    ∃ g h, t = { s with regs := update s.regs r c, gc := g, heap := h } := by
  refine ends_get ?_
  cases hsame : sameRef (s.regs r) c with
  | true => exact ⟨s.gc, s.heap, by rw [update_same hsame]⟩
  | false => exact calm_replace fun _ _ => rfl

theorem calm_setGlobal (slot : Fin 256) (c : Cell) : Calm (setGlobal B slot c) s fun t =>
    ∃ g h, t = { s with globals := update s.globals slot c, gc := g, heap := h } := by
  refine ends_get ?_
  cases hsame : sameRef (s.globals slot) c with
  | true => exact ⟨s.gc, s.heap, by rw [update_same hsame]⟩
  | false => exact calm_replace fun _ _ => rfl

/-- The registers after writes, the first one first. -/
def writeRegs (regs : Reg → Cell) (l : List (Reg × Cell)) : Reg → Cell :=
  l.foldl (fun f p => update f p.1 p.2) regs

theorem writeRegs_of_ne {regs : Reg → Cell} {l : List (Reg × Cell)} {r : Reg}
    (h : ∀ p ∈ l, p.1 ≠ r) : writeRegs regs l r = regs r := by
  induction l generalizing regs with
  | nil => rfl
  | cons p l ih =>
    obtain ⟨hp, hl⟩ := List.forall_mem_cons.mp h
    exact (ih hl).trans (update_of_ne hp.symm _ _)

theorem writeRegs_map {regs f : Reg → Cell} {rs : List Reg} {r : Reg} (h : r ∈ rs) :
    writeRegs regs (rs.map fun r => (r, f r)) r = f r := by
  induction rs generalizing regs with
  | nil => cases h
  | cons k rs ih =>
    by_cases hr : r ∈ rs
    · exact ih hr
    · obtain rfl : r = k := (List.mem_cons.mp h).resolve_right hr
      have hne : ∀ p ∈ rs.map fun r => (r, f r), p.1 ≠ r := by
        intro p hp he
        obtain ⟨k, hk, rfl⟩ := List.mem_map.mp hp
        obtain rfl : k = r := he
        exact hr hk
      change writeRegs (update regs r (f r)) (rs.map fun r => (r, f r)) r = f r
      rw [writeRegs_of_ne hne, update_self]

theorem calm_restore (p : Reg × Cell) : Calm (restore B p) s fun t =>
    ∃ g h, t = { s with regs := update s.regs p.1 p.2, gc := g, heap := h } := by
  refine (calm_setReg p.1 p.2).seq ?_ fun _ _ => id
  rintro - t ⟨g, h, rfl⟩
  refine (calm_dropRoot p.2).mono ?_ fun _ _ => id
  rintro - u ⟨g', h', rfl⟩
  exact ⟨g', h', rfl⟩

theorem calm_writes {f : Reg × Cell → Exec G W PUnit}
    (hf : ∀ p s, Calm (f p) s fun t =>
      ∃ g h, t = { s with regs := update s.regs p.1 p.2, gc := g, heap := h })
    (l : List (Reg × Cell)) : Calm (l.forM f) s fun t =>
      ∃ g h, t = { s with regs := writeRegs s.regs l, gc := g, heap := h } := by
  induction l generalizing s with
  | nil => exact ⟨s.gc, s.heap, rfl⟩
  | cons p l ih =>
    refine (hf p s).seq ?_ fun _ _ => id
    rintro - t ⟨g, h, rfl⟩
    refine ih.mono ?_ fun _ _ => id
    rintro - u ⟨g', h', rfl⟩
    exact ⟨g', h', rfl⟩

theorem calm_clear (rs : List Reg) : Calm (rs.forM fun r => setReg B r (0, TAG_INT)) s fun t =>
    ∃ regs g h, t = { s with regs := regs, gc := g, heap := h } := by
  induction rs generalizing s with
  | nil => exact ⟨s.regs, s.gc, s.heap, rfl⟩
  | cons r rs ih =>
    refine (calm_setReg r _).seq ?_ fun _ _ => id
    rintro - t ⟨g, h, rfl⟩
    refine ih.mono ?_ fun _ _ => id
    rintro - u ⟨regs, g', h', rfl⟩
    exact ⟨regs, g', h', rfl⟩

theorem calm_restoreCallFrame {f : CallFrame} {rest : List CallFrame} (hs : s.callStack = f :: rest) :
    Calm (restoreCallFrame B) s fun t => ∃ regs g h, t =
      { s with regs := writeRegs regs f.locals, callStack := rest, gc := g, heap := h } := by
  refine ends_get ?_
  rw [hs]
  refine ends_modify ((calm_clear scratchRegs).seq ?_ fun _ _ => id)
  rintro - t ⟨regs, g, h, rfl⟩
  refine (calm_writes (fun p _ => calm_restore p) f.locals).mono ?_ fun _ _ => id
  rintro - u ⟨g', h', rfl⟩
  exact ⟨regs, g', h', rfl⟩

theorem calm_pushCallFrame (returnIp callIp : ℕ) :
    Calm (pushCallFrame B P returnIp callIp) s fun t => ∃ g h, t = { s with
      callStack := ⟨returnIp, callIp,
        (savedRegs (frameMaximum P callIp)).map fun r => (r, s.regs r)⟩ :: s.callStack
      gc := g
      heap := h } := by
  have hroots (l : List (Reg × Cell)) {s : VM G W} : Calm (l.forM fun p => addRoot B p.2) s fun t =>
      ∃ g h, t = { s with gc := g, heap := h } := by
    induction l generalizing s with
    | nil => exact ⟨s.gc, s.heap, rfl⟩
    | cons p l ih =>
      refine (calm_addRoot p.2).seq ?_ fun _ _ => id
      rintro - t ⟨g, h, rfl⟩
      refine ih.mono ?_ fun _ _ => id
      rintro - u ⟨g', h', rfl⟩
      exact ⟨g', h', rfl⟩
  refine ends_get ((hroots _).seq ?_ fun _ _ => id)
  rintro - t ⟨g, h, rfl⟩
  exact ⟨g, h, rfl⟩

theorem calm_shiftArgs (n : ℕ) : Calm (shiftArgs B n) s fun t =>
    ∃ regs g h, t = { s with regs := regs, gc := g, heap := h } := by
  induction n generalizing s with
  | zero => exact ⟨s.regs, s.gc, s.heap, rfl⟩
  | succ n ih =>
    refine ends_get ((calm_setReg _ _).seq ?_ fun _ _ => id)
    rintro - t ⟨g, h, rfl⟩
    refine ih.mono ?_ fun _ _ => id
    rintro - u ⟨regs, g', h', rfl⟩
    exact ⟨regs, g', h', rfl⟩

end VM

end Loxis.Vm
