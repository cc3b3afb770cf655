import Mathlib.Data.List.Basic

/-! # The mid-level representation

Functions as graphs of basic blocks over numbered locals. Types, source positions and the
statements that the lowering never emits are left out. The field `regions` is for the
specification only and no code reads it.
-/

namespace Loxis.Lowering

abbrev LocalId := ℕ
abbrev BlockId := ℕ

inductive MirBinOp
  | add | sub | mul | div | rem | shl | shr | bitAnd | bitOr | bitXor
  | and | or | eq | ne | lt | le | gt | ge
  deriving DecidableEq

inductive MirUnaryOp | neg | not | deref | ref | refMut | toStr
  deriving DecidableEq

inductive MirAssignOp
  | set | addEq | subEq | mulEq | divEq | remEq | ampEq | pipeEq | caretEq | shlEq | shrEq
  deriving DecidableEq

/-- The constants of operands. The last one has no content. -/
inductive Constant
  | int (v : BitVec 64)
  | uint (v : BitVec 64)
  | double (bits : BitVec 64)
  | bool (b : Bool)
  | char (c : BitVec 8)
  | str (s : String)
  | mono
  deriving DecidableEq

inductive Operand
  | copy (l : LocalId)
  | move (l : LocalId)
  | const (c : Constant)
  | label (s : String)
  deriving DecidableEq

inductive AggregateKind | tuple | array
  deriving DecidableEq

inductive Rvalue
  | use (op : Operand)
  | ref (mut_ : Bool) (l : LocalId)
  | binary (op : MirBinOp) (l r : Operand)
  | unary (op : MirUnaryOp) (operand : Operand)
  | cast (op : Operand)
  | aggregate (kind : AggregateKind) (ops : List Operand)
  | field (l : LocalId) (offset : ℕ)
  | hstore (offset : ℕ) (value : Operand)
  | index (l : LocalId) (idx : Operand)
  | indexStore (idx value : Operand)
  | alloc (size typeId : ℕ)
  | closure (functionName : String) (envTypeId : ℕ) (captures : List Operand)
  | closureGet (env : LocalId) (offset : ℕ)
  | closureSet (offset : ℕ) (value : Operand)
  | isCheck (obj : LocalId) (targetTypeId : ℕ)
  | globalLoad (slot : ℕ)
  | globalStore (slot : ℕ) (value : Operand)
  deriving DecidableEq

inductive Terminator
  | goto (target : BlockId)
  | switchInt (discr : Operand) (value : ℕ) (target otherwise : BlockId)
  | return_
  | call (func : Operand) (args : List Operand) (dest : LocalId) (return_ : BlockId)
  | callIndirect (func : Operand) (args : List Operand) (dest : LocalId) (return_ : BlockId)
  | closureCall (func : Operand) (args : List Operand) (dest : LocalId) (return_ : BlockId)
  | checkNull (value : Operand) (nullTarget okTarget : BlockId)
  | unreachable
  | virtualCall (recv : LocalId) (slot : ℕ) (args : List Operand) (dest : LocalId)
      (return_ : BlockId)
  | interfaceCall (recv : LocalId) (iface method : ℕ) (args : List Operand) (dest : LocalId)
      (return_ : BlockId)
  deriving DecidableEq

inductive Statement
  | assign (place : LocalId) (rv : Rvalue)
  | tryPush (handler : BlockId) (exceptionLocal : LocalId)
  | tryPop
  | throw (value : Operand)
  deriving DecidableEq

/-- A statement, with the exception variables of the try bodies around its source. -/
structure Located where
  st : Statement
  regions : List LocalId
  deriving DecidableEq

/-- A block, with the exception variables of the try bodies that it starts in. -/
structure BasicBlock where
  stmts : List Located
  term : Terminator
  regions : List LocalId
  deriving DecidableEq

/-- A new block: it is empty and goes to the first block. -/
def BasicBlock.new (regions : List LocalId) : BasicBlock := ⟨[], .goto 0, regions⟩

structure LocalDecl where
  name : String
  mut_ : Bool
  deriving DecidableEq

structure MirBody where
  locals : List LocalDecl
  blocks : List BasicBlock
  name : String
  paramCount : ℕ
  deriving DecidableEq

end Loxis.Lowering
