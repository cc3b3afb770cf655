import Loxis.Lowering.Mir

/-! # The high-level representation

Resolved expression trees. Types and source positions are left out.
-/

namespace Loxis.Lowering

inductive HirPat
  | wild
  | bind (name : String) (mut_ : Bool)
  | enum (elems : List (Option HirPat)) (variantIndex : ℕ)

/-- A name. A global has a slot, a variable of an enclosing function an offset in the closure's
environment. -/
structure HirPath where
  name : String
  isStaticFunction : Bool
  captureOffset : Option ℕ
  globalSlot : Option ℕ

structure HirClosureCapture where
  name : String
  sourceOffset : Option ℕ

/-- How a method call finds its target. -/
inductive Dispatch
  | interface (ifaceTypeId methodIndex : ℕ)
  | vtable (index : ℕ)
  | direct (target : String)

inductive HirStmt (α : Type)
  | let_ (pat : HirPat) (init : α)
  | expr (e : Option α)

inductive Condition (α : Type)
  | expr (e : α)
  | pat (p : Option HirPat)
  | none

structure HirWhenArm (α : Type) where
  condition : Condition α
  body : α
  isElse : Bool

structure HirCatchClause (α : Type) where
  name : String
  typeId : ℕ
  body : α

inductive HirExpr
  | lit (val : Constant)
  | path (p : HirPath)
  | tuple (elems : List HirExpr)
  | array (elems : List HirExpr)
  | struct (totalFieldSize typeId : ℕ) (fields : List HirExpr)
  | call (label : String) (args : List HirExpr)
  | callValue (func : HirExpr) (args : List HirExpr)
  | methodCall (recv : HirExpr) (dispatch : Dispatch) (args : List HirExpr)
  | field (obj : HirExpr) (offset : ℕ)
  | index (obj idx : HirExpr)
  | unary (op : MirUnaryOp) (operand : HirExpr)
  | binary (op : MirBinOp) (l r : HirExpr)
  | assign (op : MirAssignOp) (lhs rhs : HirExpr)
  | block (stmts : List (HirStmt HirExpr)) (tail : Option HirExpr)
  | if_ (cond then_ : HirExpr) (else_ : Option HirExpr)
  | while_ (cond body : HirExpr) (label : Option String)
  | for_ (body : HirExpr) (label : Option String)
  | loop (body : HirExpr) (label : Option String)
  | when (scrut : Option HirExpr) (arms : List (HirWhenArm HirExpr))
  | break_ (label : Option String) (expr : Option HirExpr)
  | continue_ (label : Option String)
  | return_ (expr : Option HirExpr)
  | throw (expr : HirExpr)
  | tryCatch (body : HirExpr) (catches : List (HirCatchClause HirExpr))
      (finallyBody : Option HirExpr)
  | ref (mut_ : Bool) (expr : HirExpr)
  | deref (expr : HirExpr)
  | try_ (expr : HirExpr)
  | cast (expr : HirExpr)
  | safeCall (recv : HirExpr) (method : String) (args : List HirExpr)
  | safeField (recv : HirExpr) (offset : ℕ)
  | elvis (lhs rhs : HirExpr)
  | forceUnwrap (expr : HirExpr)
  | is (expr : HirExpr) (targetTypeId : ℕ)
  | isNot (expr : HirExpr) (targetTypeId : ℕ)
  | null (isNull : Bool)
  | closure (functionName : String) (envTypeId : ℕ) (captures : List HirClosureCapture)
  | enumCtor (typeId variantIndex totalFieldSize : ℕ) (fieldOffsets : List ℕ)
      (args : List HirExpr)

/-- A function. A closure's environment is its first parameter. -/
structure HirFn where
  name : String
  params : List String
  body : HirExpr
  hasEnv : Bool

structure HirCtorParam where
  name : String
  isVal : Bool
  isVar : Bool
  fieldOffset : ℕ

structure HirClassField where
  offset : ℕ
  initializer : Option HirExpr

structure HirClass where
  name : String
  typeId : ℕ
  superClassArgs : List HirExpr
  superFieldOffsets : List ℕ
  totalFieldSize : ℕ
  ctorParams : List HirCtorParam
  fields : List HirClassField
  initBlocks : List HirExpr
  methods : List HirFn

end Loxis.Lowering
