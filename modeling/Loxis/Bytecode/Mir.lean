import Mathlib.Data.Nat.Notation
import Loxis.Lowering.Mir

/-! # The input of the bytecode compiler

Bodies with every form of statement, value and terminator, also those that the lowering never
emits. Of a type only its kind matters here.
-/

namespace Loxis.Bytecode

open Lowering (MirBinOp MirUnaryOp Operand Constant LocalId BlockId)

inductive TyKind
  | infer | never | unit | bool | char | int | long | float | double | str | fn | tuple | array
  | slice | ref | rawPtr | adt | class_ | interface_ | param | projection | error | null
  deriving DecidableEq

inductive AggregateKind | tuple | array | adt
  deriving DecidableEq

inductive Rvalue
  | use (op : Operand)
  | ref (l : LocalId)
  | ptr (l : LocalId)
  | binary (op : MirBinOp) (l r : Operand)
  | unary (op : MirUnaryOp) (opnd : Operand)
  | cast (op : Operand) (ty : Option TyKind)
  | aggregate (kind : AggregateKind) (ops : List Operand)
  | field (l : LocalId) (field : ℕ)
  | hStore (offset : ℕ) (value : Operand)
  | index (l : LocalId) (idx : Operand)
  | indexStore (idx value : Operand)
  | len (l : LocalId)
  | discriminant (l : LocalId)
  | alloc (size typeId : ℕ)
  | closure (functionName : String) (envTypeId : ℕ) (captures : List Operand)
  | closureGet (env : LocalId) (offset : ℕ)
  | closureSet (offset : ℕ) (value : Operand)
  | vTableSlot (obj : LocalId) (slot : ℕ)
  | typeId (obj : LocalId)
  | isCheck (obj : LocalId) (targetTypeId : ℕ)
  | globalLoad (slot : ℕ)
  | globalStore (slot : ℕ) (value : Operand)

inductive Terminator
  | goto (target : BlockId)
  | switchInt (discr : Operand) (values : List (BitVec 64 × BlockId)) (otherwise : BlockId)
  | switchDiscr (l : LocalId) (targets : List BlockId) (otherwise : BlockId)
  | return_
  | call (func : Operand) (args : List Operand) (dest : LocalId) (return_ : BlockId)
  | callIndirect (funcPtr : Operand) (args : List Operand) (dest : LocalId) (return_ : BlockId)
  | closureCall (closure : Operand) (args : List Operand) (dest : LocalId) (return_ : BlockId)
  | checkNull (value : Operand) (nullTarget okTarget : BlockId)
  | unreachable
  | virtualCall (recv : LocalId) (vtableSlot : ℕ) (args : List Operand) (dest : LocalId)
      (return_ : BlockId)
  | interfaceCall (recv : LocalId) (ifaceTypeId methodIdx : ℕ) (args : List Operand)
      (dest : LocalId) (return_ : BlockId)

inductive Statement
  | assign (place : LocalId) (rv : Rvalue)
  | storageLive (l : LocalId)
  | storageDead (l : LocalId)
  | setDiscriminant (place : LocalId) (variant : ℕ)
  | drop (l : LocalId)
  | push (l : LocalId)
  | pop (l : LocalId)
  | globalStore (slot : ℕ) (value : Operand)
  | tryPush (handler : BlockId) (exceptionLocal : LocalId)
  | tryPop
  | throw (value : Operand)

structure BasicBlock where
  stmts : List Statement
  term : Terminator

/-- A function. A local may have no type. -/
structure MirBody where
  locals : List (Option TyKind)
  blocks : List BasicBlock
  name : String
  paramCount : ℕ

end Loxis.Bytecode
