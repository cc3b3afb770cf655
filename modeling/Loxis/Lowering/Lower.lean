import Mathlib.Logic.Function.Basic
import Loxis.Lowering.Hir

/-! # Lowering expressions to blocks

The lowering visits an expression once, appends to the current block and returns the local that
holds the value. The functions for the kinds of expressions take the lowering of their parts as
an argument; `lowerExpr` ties the knot with fuel, because a finally body is lowered again at each
exit and is no part of the exit.

Some fields of the state are for the specification only and no code reads them: `lexical` maps a
name to the local of the binding around the expression being lowered, `regions` lists the
exception variables of the try bodies around it, and `balanced` says that each exit so far left
the try bodies that it pops the handlers of.
-/

namespace Loxis.Lowering

open Function

abbrev Scope := String → Option LocalId

structure LoopContext where
  breakTarget : BlockId
  continueTarget : BlockId
  label : Option String
  finallyDepth : ℕ
  regions : List LocalId

/-- A finally body that exits must run, with the exception variable of its statement and its
surroundings as written. -/
structure Finalizer where
  body : HirExpr
  handlerActive : Bool
  lexical : Scope
  regions : List LocalId
  exception : LocalId

/-- The try bodies around the part of the statement that is being lowered. -/
def Finalizer.inside (f : Finalizer) : List LocalId :=
  if f.handlerActive then f.exception :: f.regions else f.regions

/-- What a name was lowered to, and what it denotes as written. -/
structure Resolution where
  used : Option LocalId
  meant : Option LocalId

/-- The innermost loops and finally bodies come first. -/
structure LowerState where
  locals : List LocalDecl
  blocks : List BasicBlock
  loopStack : List LoopContext
  finallyStack : List Finalizer
  currentBlock : BlockId
  exitBlock : BlockId
  blockTerminated : Bool
  scope : Scope
  closureEnvLocal : Option LocalId
  scratch : Option LocalId
  lexical : Scope
  regions : List LocalId
  paths : List Resolution
  balanced : Bool

/-- The lowering is asked for the place of a value, or runs out of fuel. -/
inductive Failure | panic | fuel
  deriving DecidableEq

abbrev LowerM := StateT LowerState (Except Failure)

section Primitives

def newLocal (name : String) (mut_ : Bool) : LowerM LocalId := fun s =>
  .ok (s.locals.length, { s with locals := s.locals ++ [⟨name, mut_⟩] })

def newBlock : LowerM BlockId := fun s =>
  .ok (s.blocks.length, { s with blocks := s.blocks ++ [.new s.regions] })

def emit (st : Statement) : LowerM Unit := fun s =>
  .ok ((), if s.blockTerminated then s else
    { s with
      blocks := s.blocks.modify s.currentBlock fun b =>
        { b with stmts := b.stmts ++ [⟨st, s.regions⟩] } })

def term (t : Terminator) : LowerM Unit := fun s =>
  .ok ((), if s.blockTerminated then s else
    { s with
      blocks := s.blocks.modify s.currentBlock fun b => { b with term := t }
      blockTerminated := true })

def isTerminated : LowerM Bool := fun s => .ok (s.blockTerminated, s)

/-- Go on in block `b`. -/
def startBlock (b : BlockId) : LowerM Unit := fun s =>
  .ok ((), { s with currentBlock := b, blockTerminated := false })

def terminate : LowerM Unit := fun s => .ok ((), { s with blockTerminated := true })

def unitLocal : LowerM LocalId := do
  let tmp ← newLocal "unit" false
  emit (.assign tmp (.use (.const (.int 0))))
  return tmp

def scratchLocal : LowerM LocalId := fun s =>
  match s.scratch with
  | some l => .ok (l, s)
  | none => (do
      let l ← newLocal "_scratch" false
      modify fun s => { s with scratch := some l }
      return l : LowerM LocalId) s

def closureEnv : LowerM (Option LocalId) := fun s => .ok (s.closureEnvLocal, s)

def lookup (name : String) : LowerM (Option LocalId) := fun s => .ok (s.scope name, s)

/-- Look a name up that stands in the program. -/
def resolve (name : String) : LowerM (Option LocalId) := fun s =>
  .ok (s.scope name, { s with paths := ⟨s.scope name, s.lexical name⟩ :: s.paths })

def bindLocal (name : String) (l : LocalId) : LowerM Unit := fun s =>
  .ok ((), { s with
    scope := update s.scope name (some l)
    lexical := update s.lexical name (some l) })

def setScope (name : String) (l : Option LocalId) : LowerM Unit := fun s =>
  .ok ((), { s with scope := update s.scope name l })

/-- The bindings that `x` makes end with it, as written. -/
def inScope {α : Type} (x : LowerM α) : LowerM α := do
  let s ← get
  let a ← x
  modify fun t => { t with lexical := s.lexical }
  return a

/-- An exit that is reached leaves the right try bodies only if `b`. -/
def mark (b : Bool) : LowerM Unit := fun s =>
  .ok ((), if s.blockTerminated then s else { s with balanced := s.balanced && b })

/-- `x` is written in the try bodies `r`, with the names of `l`. -/
def writtenAt {α : Type} (l : Scope) (r : List LocalId) (x : LowerM α) : LowerM α := do
  let s ← get
  modify fun t => { t with lexical := l, regions := r }
  let a ← x
  modify fun t => { t with lexical := s.lexical, regions := s.regions }
  return a

/-- `x` is written in the try bodies `r`. -/
def atRegions {α : Type} (r : List LocalId) (x : LowerM α) : LowerM α := do
  let s ← get
  modify fun t => { t with regions := r }
  let a ← x
  modify fun t => { t with regions := s.regions }
  return a

/-- `x` is written in one more try body. -/
def inRegion {α : Type} (exception : LocalId) (x : LowerM α) : LowerM α := do
  let s ← get
  atRegions (exception :: s.regions) x

def withLoop {α : Type} (breakTarget continueTarget : BlockId) (label : Option String)
    (x : LowerM α) : LowerM α := do
  modify fun s => { s with
    loopStack :=
      ⟨breakTarget, continueTarget, label, s.finallyStack.length, s.regions⟩ :: s.loopStack }
  let a ← x
  modify fun s => { s with loopStack := s.loopStack.tail }
  return a

/-- Lower a part of a try statement with its finally body on the stack. The statement is written
in the try bodies `r`, with the names of `l`. -/
def withFinalizer {α : Type} (body : Option HirExpr) (handlerActive : Bool) (l : Scope)
    (r : List LocalId) (exception : LocalId) (x : LowerM α) : LowerM α :=
  match body with
  | none => x
  | some f => do
    modify fun s => { s with
      finallyStack := ⟨f, handlerActive, l, r, exception⟩ :: s.finallyStack }
    let a ← x
    modify fun s => { s with finallyStack := s.finallyStack.tail }
    return a

end Primitives

/-- The binary operator of a compound assignment. -/
def binOpForAssign : MirAssignOp → MirBinOp
  | .addEq => .add
  | .subEq => .sub
  | .mulEq => .mul
  | .divEq => .div
  | .remEq => .rem
  | .ampEq => .bitAnd
  | .pipeEq => .bitOr
  | .caretEq => .bitXor
  | .shlEq => .shl
  | .shrEq => .shr
  | .set => .add

section Nodes

variable (rec : HirExpr → LowerM LocalId)

/-- Leave the try body that `f` belongs to, if its handler is still there. -/
def popHandler (f : Finalizer) : LowerM Unit :=
  if f.handlerActive then atRegions f.inside (emit .tryPop) else pure ()

/-- Lower the finally bodies from an exit in the try bodies `r`, the innermost one first; false if
one of them does not complete. -/
def runFinalizers (r : List LocalId) : List Finalizer → LowerM Bool
  | [] => return true
  | f :: fs => do
    mark (r = f.inside)
    popHandler f
    let _ ← writtenAt f.lexical f.regions (rec f.body)
    if ← isTerminated then return false else runFinalizers f.regions fs

/-- Lower the finally bodies above `depth`, which do not see each other. -/
def lowerFinalizersTo (depth : ℕ) : LowerM Bool := do
  let s ← get
  let saved := s.finallyStack
  let above := saved.length - depth
  modify fun s => { s with finallyStack := saved.drop above }
  let r ← runFinalizers rec s.regions (saved.take above)
  modify fun s => { s with finallyStack := saved }
  return r

def lowerAll : List HirExpr → LowerM (List LocalId)
  | [] => return []
  | e :: es => do
    let l ← rec e
    let ls ← lowerAll es
    return l :: ls

def lowerLit (val : Constant) : LowerM LocalId := do
  let tmp ← newLocal "lit" false
  emit (.assign tmp (.use (.const val)))
  return tmp

def lowerPath (p : HirPath) : LowerM LocalId := do
  match p.globalSlot with
  | some slot =>
    let tmp ← newLocal "global" false
    emit (.assign tmp (.globalLoad slot))
    return tmp
  | none =>
    match ← resolve p.name with
    | some l => return l
    | none =>
      match p.captureOffset, ← closureEnv with
      | some offset, some env =>
        let tmp ← newLocal "capture" false
        emit (.assign tmp (.closureGet env offset))
        return tmp
      | _, _ =>
        if p.isStaticFunction then
          let tmp ← newLocal "fnptr" false
          emit (.assign tmp (.use (.label p.name)))
          return tmp
        else unitLocal

def lowerAggregate (kind : AggregateKind) (name : String) (elems : List HirExpr) :
    LowerM LocalId := do
  let ls ← lowerAll rec elems
  let tmp ← newLocal name false
  emit (.assign tmp (.aggregate kind (ls.map .copy)))
  return tmp

/-- Store the values of the expressions into an object, each at the offset it comes with. -/
def storeFields (obj : LocalId) : List (ℕ × HirExpr) → LowerM Unit
  | [] => return ()
  | (offset, e) :: es => do
    let l ← rec e
    emit (.assign obj (.hstore offset (.copy l)))
    storeFields obj es

def lowerStruct (totalFieldSize typeId : ℕ) (fields : List HirExpr) : LowerM LocalId := do
  let obj ← newLocal "obj" false
  emit (.assign obj (.alloc (if 0 < totalFieldSize then totalFieldSize else 9) typeId))
  storeFields rec obj (fields.zipIdx.map fun p => (p.2 * 9, p.1))
  return obj

def lowerEnumCtor (typeId variantIndex totalFieldSize : ℕ) (fieldOffsets : List ℕ)
    (args : List HirExpr) : LowerM LocalId := do
  let obj ← newLocal "enum" false
  emit (.assign obj (.alloc (if 0 < totalFieldSize then totalFieldSize else 9) typeId))
  emit (.assign obj (.hstore 0 (.const (.int (BitVec.ofNat 64 variantIndex)))))
  storeFields rec obj (fieldOffsets.zip args)
  return obj

def lowerCaptures : List HirClosureCapture → LowerM (List Operand)
  | [] => return []
  | c :: cs => do
    match ← lookup c.name with
    | some l =>
      let ops ← lowerCaptures cs
      return .copy l :: ops
    | none =>
      match c.sourceOffset, ← closureEnv with
      | some offset, some env =>
        let src ← newLocal "fwd_cap" false
        emit (.assign src (.closureGet env offset))
        let ops ← lowerCaptures cs
        return .copy src :: ops
      | _, _ => lowerCaptures cs

def lowerClosure (functionName : String) (envTypeId : ℕ) (captures : List HirClosureCapture) :
    LowerM LocalId := do
  let ops ← lowerCaptures captures
  let tmp ← newLocal "closure" false
  emit (.assign tmp (.closure functionName envTypeId ops))
  return tmp

/-- End the block with a call and go on where it returns to. -/
def finishCall (t : LocalId → BlockId → Terminator) : LowerM LocalId := do
  let dest ← newLocal "call" false
  let resume ← newBlock
  term (t dest resume)
  startBlock resume
  emit (.assign dest (.use (.move 0)))
  return dest

def lowerCall (label : String) (args : List HirExpr) : LowerM LocalId := do
  let ls ← lowerAll rec args
  finishCall (.call (.const (.str label)) (ls.map .copy))

/-- The called value is known to be a closure. -/
def isClosureCall : HirExpr → Bool
  | .closure _ _ _ => true
  | .path p => p.captureOffset.isSome
  | _ => false

def lowerCallValue (func : HirExpr) (args : List HirExpr) : LowerM LocalId := do
  let f ← rec func
  let ls ← lowerAll rec args
  if isClosureCall func then finishCall (.closureCall (.copy f) (ls.map .copy))
  else finishCall (.callIndirect (.copy f) (ls.map .copy))

def lowerMethodCall (recv : HirExpr) (dispatch : Dispatch) (args : List HirExpr) :
    LowerM LocalId := do
  let r ← rec recv
  let ls ← lowerAll rec args
  let ops := (r :: ls).map .copy
  match dispatch with
  | .interface iface method => finishCall (.interfaceCall r iface method ops)
  | .vtable slot => finishCall (.virtualCall r slot ops)
  | .direct target => finishCall (.call (.const (.str target)) ops)

/-- Lower one operand, and compute a value from it. -/
def lowerWith (e : HirExpr) (name : String) (rv : LocalId → Rvalue) : LowerM LocalId := do
  let l ← rec e
  let tmp ← newLocal name false
  emit (.assign tmp (rv l))
  return tmp

def lowerIndex (obj idx : HirExpr) : LowerM LocalId := do
  let o ← rec obj
  let i ← rec idx
  let tmp ← newLocal "index" false
  emit (.assign tmp (.index o (.copy i)))
  return tmp

def lowerUnary (op : MirUnaryOp) (operand : HirExpr) : LowerM LocalId :=
  lowerWith rec operand "unary" fun l =>
    match op with
    | .toStr | .neg | .not => .unary op (.copy l)
    | .deref => .use (.copy l)
    | .ref => .ref false l
    | .refMut => .ref true l

def lowerIsNot (e : HirExpr) (targetTypeId : ℕ) : LowerM LocalId := do
  let l ← rec e
  let checkTmp ← newLocal "isnot_chk" false
  emit (.assign checkTmp (.isCheck l targetTypeId))
  let tmp ← newLocal "isnot" false
  emit (.assign tmp (.unary .not (.copy checkTmp)))
  return tmp

/-- Finish a branch whose value is `v`. -/
def finishBranch (result v : LocalId) (exitB : BlockId) : LowerM Unit := do
  if ← isTerminated then return ()
  else
    emit (.assign result (.use (.copy v)))
    term (.goto exitB)

def lowerElse (result : LocalId) (mergeB : BlockId) (else_ : Option HirExpr) : LowerM Unit :=
  match else_ with
  | some e => do
    let v ← rec e
    finishBranch result v mergeB
  | none => do
    emit (.assign result (.use (.const (.int 0))))
    term (.goto mergeB)

def lowerIf (cond then_ : HirExpr) (else_ : Option HirExpr) : LowerM LocalId := do
  let c ← rec cond
  let thenB ← newBlock
  let elseB ← newBlock
  let mergeB ← newBlock
  term (.switchInt (.copy c) 1 thenB elseB)
  startBlock thenB
  let v ← rec then_
  let result ← newLocal "if_result" false
  finishBranch result v mergeB
  startBlock elseB
  lowerElse rec result mergeB else_
  startBlock mergeB
  return result

def lowerBinary (op : MirBinOp) (l r : HirExpr) : LowerM LocalId :=
  match op with
  | .and => lowerIf rec l r (some (.lit (.bool false)))
  | .or => lowerIf rec l (.lit (.bool true)) (some r)
  | _ => do
    let a ← rec l
    let b ← rec r
    let tmp ← newLocal "bin" false
    emit (.assign tmp (.binary op (.copy a) (.copy b)))
    return tmp

/-- Only names and dereferences are places. -/
def lowerPlace (e : HirExpr) : LowerM LocalId :=
  match e with
  | .path p => do
    match ← resolve p.name with
    | some l => return l
    | none => unitLocal
  | .deref e => rec e
  | .unary op operand => if op = .deref then rec operand else rec e
  | _ => fun _ => .error .panic

/-- The value to store: the right-hand side, combined with the old value by a compound
assignment. -/
def combine (op : MirAssignOp) (rd wr : String) (old : Rvalue) (rhs : LocalId) :
    LowerM LocalId :=
  if op = .set then return rhs
  else do
    let oldVal ← newLocal rd false
    emit (.assign oldVal old)
    let newVal ← newLocal wr false
    emit (.assign newVal (.binary (binOpForAssign op) (.copy oldVal) (.copy rhs)))
    return newVal

def assignCapture (op : MirAssignOp) (env : LocalId) (offset : ℕ) (rhs : HirExpr) :
    LowerM Unit := do
  let r ← rec rhs
  let v ← combine op "cap_rd" "cap_wr" (.closureGet env offset) r
  emit (.assign env (.closureSet offset (.copy v)))

def assignGlobal (op : MirAssignOp) (slot : ℕ) (rhs : HirExpr) : LowerM Unit := do
  let r ← rec rhs
  let v ← combine op "glob_rd" "glob_wr" (.globalLoad slot) r
  let s ← scratchLocal
  emit (.assign s (.globalStore slot (.copy v)))

def assignField (op : MirAssignOp) (obj : HirExpr) (offset : ℕ) (rhs : HirExpr) :
    LowerM Unit := do
  let o ← rec obj
  let r ← rec rhs
  let v ← combine op "fld_rd" "fld_wr" (.field o offset) r
  emit (.assign o (.hstore offset (.copy v)))

def assignIndex (op : MirAssignOp) (obj idx rhs : HirExpr) : LowerM Unit := do
  let o ← rec obj
  let i ← rec idx
  let r ← rec rhs
  let v ← combine op "elt_rd" "elt_wr" (.index o (.copy i)) r
  emit (.assign o (.indexStore (.copy i) (.copy v)))

def assignPlace (op : MirAssignOp) (lhs rhs : HirExpr) : LowerM Unit := do
  let r ← rec rhs
  let l ← lowerPlace rec lhs
  if op = .set then emit (.assign l (.use (.copy r)))
  else emit (.assign l (.binary (binOpForAssign op) (.copy l) (.copy r)))

def lowerStore (op : MirAssignOp) (lhs rhs : HirExpr) : LowerM Unit :=
  match lhs with
  | .path p => do
    match p.captureOffset, ← closureEnv with
    | some offset, some env => assignCapture rec op env offset rhs
    | _, _ =>
      match p.globalSlot with
      | some slot => assignGlobal rec op slot rhs
      | none => assignPlace rec op lhs rhs
  | .field obj offset => assignField rec op obj offset rhs
  | .index obj idx => assignIndex rec op obj idx rhs
  | _ => assignPlace rec op lhs rhs

def lowerAssign (op : MirAssignOp) (lhs rhs : HirExpr) : LowerM LocalId := do
  lowerStore rec op lhs rhs
  unitLocal

/-- An expression that may be missing. -/
def lowerOption : Option HirExpr → LowerM LocalId
  | some e => rec e
  | none => return 0

def lowerStmt (st : HirStmt HirExpr) : LowerM Unit := do
  if ← isTerminated then return ()
  else
    match st with
    | .let_ (.bind name mut_) init =>
      let l ← rec init
      let lid ← newLocal name mut_
      emit (.assign lid (.use (.copy l)))
      bindLocal name lid
    | .let_ _ e | .expr (some e) =>
      let _ ← rec e
    | .expr none => return ()

def lowerStmts : List (HirStmt HirExpr) → LowerM Unit
  | [] => return ()
  | st :: sts => do
    lowerStmt rec st
    lowerStmts sts

def lowerTail : Option HirExpr → LowerM LocalId
  | some e => rec e
  | none => unitLocal

def lowerBlock (stmts : List (HirStmt HirExpr)) (tail : Option HirExpr) : LowerM LocalId := do
  let blockB ← newBlock
  term (.goto blockB)
  startBlock blockB
  inScope do
    lowerStmts rec stmts
    lowerTail rec tail

def lowerWhile (cond body : HirExpr) (label : Option String) : LowerM LocalId := do
  let header ← newBlock
  let bodyB ← newBlock
  let exitB ← newBlock
  term (.goto header)
  startBlock header
  let c ← rec cond
  term (.switchInt (.copy c) 1 bodyB exitB)
  startBlock bodyB
  let _ ← withLoop exitB header label (rec body)
  term (.goto header)
  startBlock exitB
  unitLocal

/-- A loop whose body is followed by a jump to the head of the loop, or out of it. -/
def lowerLoop (repeats : Bool) (body : HirExpr) (label : Option String) : LowerM LocalId := do
  let bodyB ← newBlock
  let exitB ← newBlock
  term (.goto bodyB)
  startBlock bodyB
  let _ ← withLoop exitB bodyB label (rec body)
  term (.goto (if repeats then bodyB else exitB))
  startBlock exitB
  unitLocal

/-- Bind the fields of the variant that is matched. -/
def bindPayloads (scrut : LocalId) : List (Option HirPat × ℕ) → LowerM Unit
  | [] => return ()
  | (some (.bind name mut_), i) :: ps => do
    let payload ← newLocal name mut_
    emit (.assign payload (.field scrut ((i + 1) * 9)))
    bindLocal name payload
    bindPayloads scrut ps
  | _ :: ps => bindPayloads scrut ps

/-- The test of an arm, and what the arm binds. -/
def lowerCheck (scrut : LocalId) (c : Condition HirExpr) (bodyB next : BlockId) : LowerM Unit := do
  match c with
  | .expr e =>
    let v ← rec e
    let eq ← newLocal "" false
    emit (.assign eq (.binary .eq (.copy scrut) (.copy v)))
    term (.switchInt (.copy eq) 1 bodyB next)
  | .pat (some (.enum _ variantIndex)) =>
    let discr ← newLocal "when_discr" false
    emit (.assign discr (.field scrut 0))
    let eq ← newLocal "when_match" false
    emit (.assign eq (.binary .eq (.copy discr) (.const (.int (BitVec.ofNat 64 variantIndex)))))
    term (.switchInt (.copy eq) 1 bodyB next)
  | _ => term (.goto bodyB)

def bindArm (scrut : LocalId) : Condition HirExpr → LowerM Unit
  | .pat (some (.enum elems _)) => bindPayloads scrut elems.zipIdx
  | _ => return ()

def lowerArm (scrut result : LocalId) (exitB : BlockId) (arm : HirWhenArm HirExpr) :
    LowerM Unit :=
  inScope do
    bindArm scrut arm.condition
    let v ← rec arm.body
    finishBranch result v exitB

/-- The arms that are tested, with the blocks of their tests and bodies. -/
def lowerArms (scrut result : LocalId) (exitB elseB : BlockId) :
    List (HirWhenArm HirExpr × BlockId × BlockId) → LowerM Unit
  | [] => return ()
  | (arm, checkB, bodyB) :: rest => do
    startBlock checkB
    lowerCheck rec scrut arm.condition bodyB ((rest.head?.map fun p => p.2.1).getD elseB)
    startBlock bodyB
    lowerArm rec scrut result exitB arm
    lowerArms scrut result exitB elseB rest

def newArmBlocks : List (HirWhenArm HirExpr) →
    LowerM (List (HirWhenArm HirExpr × BlockId × BlockId))
  | [] => return []
  | arm :: arms => do
    let checkB ← newBlock
    let bodyB ← newBlock
    let rest ← newArmBlocks arms
    return (arm, checkB, bodyB) :: rest

/-- The block of the arm without a test. -/
def newElse (elseArm : Option (HirWhenArm HirExpr)) (exitB : BlockId) : LowerM BlockId :=
  match elseArm with
  | some _ => newBlock
  | none => return exitB

/-- Go to the first test, if there is one; else the block goes to the first one. -/
def enterChecks : List (HirWhenArm HirExpr × BlockId × BlockId) → LowerM Unit
  | [] => do
    let s ← get
    mark (s.regions = [])
  | (_, checkB, _) :: _ => term (.goto checkB)

def lowerElseArm (result : LocalId) (exitB : BlockId) :
    Option (HirWhenArm HirExpr) → LowerM Unit
  | some arm => do
    let v ← rec arm.body
    finishBranch result v exitB
  | none => return ()

def lowerWhen (scrut : Option HirExpr) (arms : List (HirWhenArm HirExpr)) : LowerM LocalId :=
  if arms.isEmpty then unitLocal
  else do
    let sc ← lowerOption rec scrut
    let exitB ← newBlock
    let result ← newLocal "when" false
    let elseArm := arms.find? fun arm => arm.isElse
    let checks ← newArmBlocks (arms.eraseP fun arm => arm.isElse)
    let elseB ← newElse elseArm exitB
    enterChecks checks
    lowerArms rec sc result exitB elseB checks
    startBlock elseB
    lowerElseArm rec result exitB elseArm
    startBlock exitB
    return result

/-- The loop that a jump names, the innermost one without a name. -/
def targetLoop (label : Option String) (loops : List LoopContext) : Option LoopContext :=
  match label with
  | some _ => loops.find? fun c => c.label = label
  | none => loops.head?

def findLoop (label : Option String) : LowerM (Option LoopContext) := fun s =>
  .ok (targetLoop label s.loopStack, s)

/-- The try bodies around the statement of the last finally body. -/
def afterFinalizers (r : List LocalId) (fs : List Finalizer) : List LocalId :=
  (fs.getLast?.map Finalizer.regions).getD r

/-- Run the finally bodies above `depth`, then, if they complete, end the block with `leave`, which
goes to the try bodies `target` if it goes anywhere. -/
def exitWith (depth : ℕ) (target : Option (List LocalId)) (leave : LowerM Unit) :
    LowerM Unit := do
  let s ← get
  if ← lowerFinalizersTo rec depth then
    mark (target.all fun r =>
      r = afterFinalizers s.regions (s.finallyStack.take (s.finallyStack.length - depth)))
    leave
  else return ()

def finallyDepth : LowerM ℕ := fun s => .ok (s.finallyStack.length, s)

def lowerBreak (label : Option String) (expr : Option HirExpr) : LowerM LocalId := do
  let depth ← finallyDepth
  let c ← findLoop label
  let _ ← lowerOption rec expr
  exitWith rec ((c.map LoopContext.finallyDepth).getD depth)
    (some ((c.map LoopContext.regions).getD []))
    (term (.goto ((c.map LoopContext.breakTarget).getD 0)))
  unitLocal

def lowerContinue (label : Option String) : LowerM LocalId := do
  let depth ← finallyDepth
  let c ← findLoop label
  exitWith rec ((c.map LoopContext.finallyDepth).getD depth)
    (some ((c.map LoopContext.regions).getD []))
    (term (.goto ((c.map LoopContext.continueTarget).getD 0)))
  unitLocal

def returnWith (val : Operand) : LowerM Unit := do
  atRegions [] (emit (.assign 0 (.use val)))
  let s ← get
  term (.goto s.exitBlock)

def lowerReturn (expr : Option HirExpr) : LowerM LocalId := do
  let val ← lowerOption rec expr
  exitWith rec 0 (some []) (returnWith (if expr.isSome then .copy val else .const (.int 0)))
  unitLocal

/-- The number of finally bodies below and including the innermost one whose handler catches. -/
def runtimeHandledDepth : List Finalizer → ℕ
  | [] => 0
  | f :: fs => if f.handlerActive then fs.length + 1 else runtimeHandledDepth fs

def throwWith (value : LocalId) : LowerM Unit := do
  emit (.throw (.copy value))
  terminate

def lowerThrow (expr : HirExpr) : LowerM LocalId := do
  let value ← rec expr
  let s ← get
  exitWith rec (runtimeHandledDepth s.finallyStack) none (throwWith value)
  unitLocal

/-- The catch clauses, from the block that tests the first one on. Each leaves the name of its
exception as it was. Returns the block that no clause handles. -/
def lowerCatches (finallyBody : Option HirExpr) (l : Scope) (r : List LocalId)
    (result exception : LocalId) (normalFinallyB nextTest : BlockId) :
    List (HirCatchClause HirExpr) → LowerM BlockId
  | [] => return nextTest
  | clause :: clauses => do
    startBlock nextTest
    let matches_ ← newLocal "catch_match" false
    emit (.assign matches_ (.isCheck exception clause.typeId))
    let catchB ← newBlock
    let nextTest' ← newBlock
    term (.switchInt (.copy matches_) 1 catchB nextTest')
    startBlock catchB
    let old ← lookup clause.name
    let v ← inScope do
      bindLocal clause.name exception
      withFinalizer finallyBody false l r exception (rec clause.body)
    setScope clause.name old
    finishBranch result v normalFinallyB
    lowerCatches finallyBody l r result exception normalFinallyB nextTest' clauses

/-- A copy of the finally body. -/
def lowerFinally : Option HirExpr → LowerM Unit
  | some f => do
    let _ ← rec f
  | none => return ()

/-- The end of a try body whose value is `v`. -/
def finishTry (result v : LocalId) : LowerM Unit := do
  if ← isTerminated then return ()
  else
    emit (.assign result (.use (.copy v)))
    emit .tryPop

/-- The end of the copy of the finally body for an exception that no clause handles. -/
def rethrow (exception : LocalId) : LowerM Unit := do
  if ← isTerminated then return () else throwWith exception

def lowerTryCatch (body : HirExpr) (catches : List (HirCatchClause HirExpr))
    (finallyBody : Option HirExpr) : LowerM LocalId := do
  let s ← get
  let result ← newLocal "try_result" false
  let exception ← newLocal "exception" false
  let handlerB ← newBlock
  let normalFinallyB ← newBlock
  let exceptionalFinallyB ← newBlock
  let mergeB ← newBlock
  emit (.tryPush handlerB exception)
  inRegion exception do
    let v ← withFinalizer finallyBody true s.lexical s.regions exception (rec body)
    finishTry result v
  term (.goto normalFinallyB)
  startBlock handlerB
  let nextTest ← lowerCatches rec finallyBody s.lexical s.regions result exception normalFinallyB
    handlerB catches
  startBlock nextTest
  term (.goto exceptionalFinallyB)
  startBlock normalFinallyB
  lowerFinally rec finallyBody
  term (.goto mergeB)
  startBlock exceptionalFinallyB
  lowerFinally rec finallyBody
  rethrow exception
  startBlock mergeB
  return result

def lowerForceUnwrap (e : HirExpr) : LowerM LocalId := do
  let v ← rec e
  let okB ← newBlock
  let panicB ← newBlock
  term (.checkNull (.copy v) panicB okB)
  startBlock panicB
  term .unreachable
  startBlock okB
  return v

def lowerElvis (lhs rhs : HirExpr) : LowerM LocalId := do
  let l ← rec lhs
  let result ← newLocal "elvis" false
  let okB ← newBlock
  let fbB ← newBlock
  let mergeB ← newBlock
  term (.checkNull (.copy l) fbB okB)
  startBlock okB
  emit (.assign result (.use (.copy l)))
  term (.goto mergeB)
  startBlock fbB
  let r ← rec rhs
  emit (.assign result (.use (.copy r)))
  term (.goto mergeB)
  startBlock mergeB
  return result

def lowerSafeCall (recv : HirExpr) (method : String) (args : List HirExpr) : LowerM LocalId := do
  let r ← rec recv
  let result ← newLocal "sc" false
  let callB ← newBlock
  let nullB ← newBlock
  let mergeB ← newBlock
  term (.checkNull (.copy r) nullB callB)
  startBlock nullB
  emit (.assign result (.use (.const (.int 0))))
  term (.goto mergeB)
  startBlock callB
  let ls ← lowerAll rec args
  let dest ← newLocal "sc_d" false
  let resume ← newBlock
  term (.call (.const (.str method)) ((r :: ls).map .copy) dest resume)
  startBlock resume
  emit (.assign result (.use (.copy dest)))
  term (.goto mergeB)
  startBlock mergeB
  return result

def lowerSafeField (recv : HirExpr) (offset : ℕ) : LowerM LocalId := do
  let r ← rec recv
  let result ← newLocal "sf" false
  let okB ← newBlock
  let nullB ← newBlock
  let mergeB ← newBlock
  term (.checkNull (.copy r) nullB okB)
  startBlock nullB
  emit (.assign result (.use (.const (.int 0))))
  term (.goto mergeB)
  startBlock okB
  emit (.assign result (.field r offset))
  term (.goto mergeB)
  startBlock mergeB
  return result

def lowerNull (isNull : Bool) : LowerM LocalId := do
  let tmp ← newLocal "null" false
  emit (.assign tmp (.use (.const (if isNull then .mono else .int 0))))
  return tmp

def lowerNode : HirExpr → LowerM LocalId
  | .lit val => lowerLit val
  | .path p => lowerPath p
  | .tuple elems => lowerAggregate rec .tuple "tuple" elems
  | .array elems => lowerAggregate rec .array "array" elems
  | .struct size typeId fields => lowerStruct rec size typeId fields
  | .call label args => lowerCall rec label args
  | .callValue func args => lowerCallValue rec func args
  | .methodCall recv dispatch args => lowerMethodCall rec recv dispatch args
  | .field obj offset => lowerWith rec obj "field" fun l => .field l offset
  | .index obj idx => lowerIndex rec obj idx
  | .unary op operand => lowerUnary rec op operand
  | .binary op l r => lowerBinary rec op l r
  | .assign op lhs rhs => lowerAssign rec op lhs rhs
  | .block stmts tail => lowerBlock rec stmts tail
  | .if_ cond then_ else_ => lowerIf rec cond then_ else_
  | .while_ cond body label => lowerWhile rec cond body label
  | .for_ body label => lowerLoop rec false body label
  | .loop body label => lowerLoop rec true body label
  | .when scrut arms => lowerWhen rec scrut arms
  | .break_ label expr => lowerBreak rec label expr
  | .continue_ label => lowerContinue rec label
  | .return_ expr => lowerReturn rec expr
  | .throw expr => lowerThrow rec expr
  | .tryCatch body catches finallyBody => lowerTryCatch rec body catches finallyBody
  | .ref mut_ expr => lowerWith rec expr "ref" fun l => .ref mut_ l
  | .deref expr => lowerWith rec expr "deref" fun l => .use (.copy l)
  | .try_ expr => rec expr
  | .cast expr => lowerWith rec expr "cast" fun l => .cast (.copy l)
  | .safeCall recv method args => lowerSafeCall rec recv method args
  | .safeField recv offset => lowerSafeField rec recv offset
  | .elvis lhs rhs => lowerElvis rec lhs rhs
  | .forceUnwrap expr => lowerForceUnwrap rec expr
  | .is expr typeId => lowerWith rec expr "is" fun l => .isCheck l typeId
  | .isNot expr typeId => lowerIsNot rec expr typeId
  | .null isNull => lowerNull isNull
  | .closure name envTypeId captures => lowerClosure name envTypeId captures
  | .enumCtor typeId variantIndex size offsets args =>
    lowerEnumCtor rec typeId variantIndex size offsets args

end Nodes

/-- Nothing is lowered after an exit. -/
def lowerExpr : ℕ → HirExpr → LowerM LocalId
  | 0, _ => fun _ => .error .fuel
  | n + 1, e => do
    if ← isTerminated then unitLocal else lowerNode (lowerExpr n) e

section Bodies

/-- Number the names from `first` on; a later name hides an earlier one. -/
def nameLocals (first : LocalId) (names : List String) (scope : Scope) : Scope :=
  (names.zipIdx first).foldl (fun sc p => update sc p.1 (some p.2)) scope

/-- The state in which a body is lowered: the result comes first among the locals, the entry and
the exit first among the blocks. -/
def beginBody (params : List String) (scope : Scope) (env : Option LocalId) : LowerState where
  locals := ("_return" :: params).map fun name => ⟨name, false⟩
  blocks := [.new [], .new []]
  loopStack := []
  finallyStack := []
  currentBlock := 0
  exitBlock := 1
  blockTerminated := false
  scope := scope
  closureEnvLocal := env
  scratch := none
  lexical := scope
  regions := []
  paths := []
  balanced := true

/-- Return the value of `result`. -/
def finishBody (result : LocalId) : LowerM Unit := do
  let exitB := (← get).exitBlock
  finishBranch 0 result exitB
  modify fun s => { s with blocks := s.blocks.modify exitB fun b => { b with term := .return_ } }

/-- The state after the body of a function is lowered. -/
def lowerFnState (fuel : ℕ) (fn : HirFn) : Except Failure LowerState :=
  let params := if fn.hasEnv then "__closure_env" :: fn.params else fn.params
  let start := beginBody params (nameLocals 1 params fun _ => none)
    (if fn.hasEnv then some 1 else none)
  ((lowerExpr fuel fn.body >>= finishBody) start).map Prod.snd

def lowerFn (fuel : ℕ) (fn : HirFn) : Except Failure MirBody :=
  (lowerFnState fuel fn).map fun s =>
    ⟨s.locals, s.blocks, fn.name, fn.params.length + if fn.hasEnv then 1 else 0⟩

/-- The state after the body of a method is lowered. The receiver has two names. -/
def lowerMethodState (fuel : ℕ) (method : HirFn) : Except Failure LowerState :=
  let self := update (update (fun _ => none) "self" (some 1)) "this" (some 1)
  let start := beginBody ("self" :: method.params) (nameLocals 2 method.params self) none
  ((lowerExpr fuel method.body >>= finishBody) start).map Prod.snd

def lowerMethod (fuel : ℕ) (cls : HirClass) (method : HirFn) : Except Failure MirBody :=
  (lowerMethodState fuel method).map fun s =>
    ⟨s.locals, s.blocks, cls.name ++ "." ++ method.name, method.params.length + 1⟩

/-- Store a parameter that is a field. -/
def storeParam (obj : LocalId) (p : HirCtorParam) : LowerM Unit :=
  if p.isVal || p.isVar then do
    match ← lookup p.name with
    | some l => emit (.assign obj (.hstore p.fieldOffset (.copy l)))
    | none => return ()
  else return ()

def storeParams (obj : LocalId) : List HirCtorParam → LowerM Unit
  | [] => return ()
  | p :: ps => do
    storeParam obj p
    storeParams obj ps

def superFields (cls : HirClass) : List (ℕ × HirExpr) :=
  cls.superClassArgs.zipIdx.map fun p => (cls.superFieldOffsets.getD p.2 (p.2 * 9), p.1)

def ownFields (cls : HirClass) : List (ℕ × HirExpr) :=
  cls.fields.filterMap fun f => f.initializer.map fun e => (f.offset, e)

/-- Allocate an object, store its fields and run the initializer blocks. -/
def lowerCtorBody (rec : HirExpr → LowerM LocalId) (cls : HirClass) : LowerM Unit := do
  let obj ← newLocal "self" false
  bindLocal "self" obj
  bindLocal "this" obj
  emit (.assign obj
    (.alloc (if 0 < cls.totalFieldSize then cls.totalFieldSize else 9) cls.typeId))
  storeFields rec obj (superFields cls)
  storeParams obj cls.ctorParams
  storeFields rec obj (ownFields cls)
  let _ ← lowerAll rec cls.initBlocks
  finishBody obj

/-- The state after a constructor is lowered. -/
def lowerClassCtorState (fuel : ℕ) (cls : HirClass) : Except Failure LowerState :=
  let params := cls.ctorParams.map HirCtorParam.name
  let start := beginBody params (nameLocals 1 params fun _ => none) none
  (lowerCtorBody (lowerExpr fuel) cls start).map Prod.snd

def lowerClassCtor (fuel : ℕ) (cls : HirClass) : Except Failure MirBody :=
  (lowerClassCtorState fuel cls).map fun s =>
    ⟨s.locals, s.blocks, cls.name ++ ".init", cls.ctorParams.length⟩

end Bodies

end Loxis.Lowering
