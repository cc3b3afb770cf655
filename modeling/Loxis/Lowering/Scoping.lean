import Loxis.Lowering.Lower

/-! # The names and exits of a body

A visit of a body in the order of its lowering that builds no code. It numbers the bindings and
keeps two maps: the last binding made of each name, and the binding around the place visited.
A use of a name is stale when the two differ: a block, an arm or an exit has ended since the
last binding was made.

A try body is known by the number of its exception variable. An exit is balanced when the try
bodies that it leaves are those whose handlers it pops.
-/

namespace Loxis.Lowering

open Function

/-- The number of the binding of a name. -/
abbrev Bindings := String → Option ℕ

/-- A finally body that exits must run, with the exception variable of its statement, and the
bindings and try bodies around it. -/
structure Pending where
  body : HirExpr
  handlerActive : Bool
  here : Bindings
  regions : List ℕ
  exception : ℕ

/-- The try bodies around the part of the statement that is being visited. -/
def Pending.inside (p : Pending) : List ℕ :=
  if p.handlerActive then p.exception :: p.regions else p.regions

/-- A loop, with the number of finally bodies and the try bodies around it. -/
structure LoopScope where
  label : Option String
  depth : ℕ
  regions : List ℕ

structure ScopeState where
  next : ℕ
  last : Bindings
  here : Bindings
  hasEnv : Bool
  loops : List LoopScope
  finals : List Pending
  regions : List ℕ
  stopped : Bool
  fresh : Bool
  balanced : Bool

abbrev Visit := StateM ScopeState

section Primitives

def newBinding : Visit ℕ := fun w => (w.next, { w with next := w.next + 1 })

def bindTo (name : String) (i : ℕ) : Visit Unit := fun w =>
  ((), { w with
    last := update w.last name (some i)
    here := update w.here name (some i) })

/-- A use of a name, which must not be stale. -/
def use (name : String) : Visit Unit := fun w =>
  ((), { w with fresh := w.fresh && decide (w.last name = w.here name) })

def stop : Visit Unit := fun w => ((), { w with stopped := true })

def resume : Visit Unit := fun w => ((), { w with stopped := false })

def isStopped : Visit Bool := fun w => (w.stopped, w)

def hasEnvironment : Visit Bool := fun w => (w.hasEnv, w)

def lastBinding (name : String) : Visit (Option ℕ) := fun w => (w.last name, w)

def setLast (name : String) (i : Option ℕ) : Visit Unit := fun w =>
  ((), { w with last := update w.last name i })

/-- An exit that is visited leaves the right try bodies only if `b`. -/
def markExit (b : Bool) : Visit Unit := fun w =>
  ((), if w.stopped then w else { w with balanced := w.balanced && b })

/-- Visit with the bindings `h` and the try bodies `r` around, and forget the bindings made. -/
def visitAt {α : Type} (h : Bindings) (r : List ℕ) (x : Visit α) : Visit α := do
  let w ← get
  modify fun v => { v with here := h, regions := r }
  let a ← x
  modify fun v => { v with here := w.here, regions := w.regions }
  return a

def visitScope {α : Type} (x : Visit α) : Visit α := do
  let w ← get
  let a ← x
  modify fun v => { v with here := w.here }
  return a

def visitRegion {α : Type} (i : ℕ) (x : Visit α) : Visit α := do
  let w ← get
  modify fun v => { v with regions := i :: w.regions }
  let a ← x
  modify fun v => { v with regions := w.regions }
  return a

def visitLoop {α : Type} (label : Option String) (x : Visit α) : Visit α := do
  modify fun w => { w with loops := ⟨label, w.finals.length, w.regions⟩ :: w.loops }
  let a ← x
  modify fun w => { w with loops := w.loops.tail }
  return a

def visitPending {α : Type} (body : Option HirExpr) (handlerActive : Bool) (h : Bindings)
    (r : List ℕ) (exception : ℕ) (x : Visit α) : Visit α :=
  match body with
  | none => x
  | some f => do
    modify fun w => { w with finals := ⟨f, handlerActive, h, r, exception⟩ :: w.finals }
    let a ← x
    modify fun w => { w with finals := w.finals.tail }
    return a

end Primitives

section Nodes

variable (rec : HirExpr → Visit Unit)

/-- The finally bodies that an exit in the try bodies `r` runs. -/
def visitFinals (r : List ℕ) : List Pending → Visit Bool
  | [] => return true
  | p :: ps => do
    markExit (r = p.inside)
    visitAt p.here p.regions (rec p.body)
    if ← isStopped then return false else visitFinals p.regions ps

def visitFinalsTo (depth : ℕ) : Visit Bool := do
  let w ← get
  let saved := w.finals
  let above := saved.length - depth
  modify fun w => { w with finals := saved.drop above }
  let r ← visitFinals rec w.regions (saved.take above)
  modify fun w => { w with finals := saved }
  return r

def visitAll : List HirExpr → Visit Unit
  | [] => return ()
  | e :: es => do
    rec e
    visitAll es

def visitOption : Option HirExpr → Visit Unit
  | some e => rec e
  | none => return ()

def visitIf (cond then_ : HirExpr) (else_ : Option HirExpr) : Visit Unit := do
  rec cond
  resume
  rec then_
  resume
  visitOption rec else_
  resume

def visitBinary (op : MirBinOp) (l r : HirExpr) : Visit Unit :=
  match op with
  | .and => visitIf rec l r (some (.lit (.bool false)))
  | .or => visitIf rec l (.lit (.bool true)) (some r)
  | _ => visitAll rec [l, r]

def visitPlace (e : HirExpr) : Visit Unit :=
  match e with
  | .path p => use p.name
  | .deref e => rec e
  | .unary op operand => if op = .deref then rec operand else rec e
  | _ => return ()

/-- The place of a name that is neither captured nor a global. -/
def useTarget (p : HirPath) (env : Bool) : Visit Unit :=
  if (p.captureOffset.isSome && env) || p.globalSlot.isSome then return () else use p.name

def visitAssign (lhs rhs : HirExpr) : Visit Unit :=
  match lhs with
  | .path p => do
    let env ← hasEnvironment
    rec rhs
    useTarget p env
  | .field obj _ => visitAll rec [obj, rhs]
  | .index obj idx => visitAll rec [obj, idx, rhs]
  | _ => do
    rec rhs
    visitPlace rec lhs

def visitStmt (st : HirStmt HirExpr) : Visit Unit := do
  if ← isStopped then return ()
  else
    match st with
    | .let_ (.bind name _) init =>
      rec init
      let i ← newBinding
      bindTo name i
    | .let_ _ init => rec init
    | .expr e => visitOption rec e

def visitStmts : List (HirStmt HirExpr) → Visit Unit
  | [] => return ()
  | st :: sts => do
    visitStmt rec st
    visitStmts sts

def visitBlock (stmts : List (HirStmt HirExpr)) (tail : Option HirExpr) : Visit Unit := do
  resume
  visitScope do
    visitStmts rec stmts
    visitOption rec tail

def visitWhile (cond body : HirExpr) (label : Option String) : Visit Unit := do
  resume
  rec cond
  resume
  visitLoop label (rec body)
  resume

def visitForever (body : HirExpr) (label : Option String) : Visit Unit := do
  resume
  visitLoop label (rec body)
  resume

def visitPayloads : List (Option HirPat) → Visit Unit
  | [] => return ()
  | some (.bind name _) :: ps => do
    let i ← newBinding
    bindTo name i
    visitPayloads ps
  | _ :: ps => visitPayloads ps

def visitCheck (c : Condition HirExpr) : Visit Unit :=
  match c with
  | .expr e => rec e
  | _ => return ()

def visitBinds : Condition HirExpr → Visit Unit
  | .pat (some (.enum elems _)) => visitPayloads elems
  | _ => return ()

def visitArm (arm : HirWhenArm HirExpr) : Visit Unit :=
  visitScope do
    visitBinds arm.condition
    rec arm.body

def visitArms : List (HirWhenArm HirExpr) → Visit Unit
  | [] => return ()
  | arm :: arms => do
    resume
    visitCheck rec arm.condition
    resume
    visitArm rec arm
    visitArms arms

/-- Without an arm to test, the block goes to the first block. -/
def visitEnter (arms : List (HirWhenArm HirExpr)) : Visit Unit := do
  let w ← get
  if arms.isEmpty then markExit (w.regions = []) else return ()

def visitWhen (scrut : Option HirExpr) (arms : List (HirWhenArm HirExpr)) : Visit Unit :=
  if arms.isEmpty then return ()
  else do
    visitOption rec scrut
    visitEnter (arms.eraseP fun arm => arm.isElse)
    visitArms rec (arms.eraseP fun arm => arm.isElse)
    resume
    visitOption rec ((arms.find? fun arm => arm.isElse).map HirWhenArm.body)
    resume

/-- The try bodies around the statement of the last finally body. -/
def afterPending (r : List ℕ) (ps : List Pending) : List ℕ :=
  (ps.getLast?.map Pending.regions).getD r

def visitJump (depth : ℕ) (target : Option (List ℕ)) : Visit Unit := do
  let w ← get
  if ← visitFinalsTo rec depth then
    markExit (target.all fun r =>
      r = afterPending w.regions (w.finals.take (w.finals.length - depth)))
    stop
  else return ()

/-- The loop that a jump names. -/
def jumpTarget (label : Option String) (loops : List LoopScope) : Option LoopScope :=
  match label with
  | some _ => loops.find? fun l => l.label = label
  | none => loops.head?

/-- How many finally bodies stay when a jump leaves for its loop, and the try bodies around it. -/
def jumpScope (label : Option String) : Visit (ℕ × List ℕ) := fun w =>
  let l := jumpTarget label w.loops
  (((l.map LoopScope.depth).getD w.finals.length, (l.map LoopScope.regions).getD []), w)

def visitBreak (label : Option String) (expr : Option HirExpr) : Visit Unit := do
  let t ← jumpScope label
  visitOption rec expr
  visitJump rec t.1 (some t.2)

/-- The number of finally bodies below and including the innermost one whose handler catches. -/
def handledDepth : List Pending → ℕ
  | [] => 0
  | f :: fs => if f.handlerActive then fs.length + 1 else handledDepth fs

def visitThrow (expr : HirExpr) : Visit Unit := do
  rec expr
  visitJump rec (handledDepth (← get).finals) none

/-- The clauses bind their names to one variable of the statement. -/
def visitCatches (finallyBody : Option HirExpr) (h : Bindings) (r : List ℕ) (i : ℕ) :
    List (HirCatchClause HirExpr) → Visit Unit
  | [] => return ()
  | clause :: clauses => do
    resume
    let old ← lastBinding clause.name
    visitScope do
      bindTo clause.name i
      visitPending finallyBody false h r i (rec clause.body)
    setLast clause.name old
    visitCatches finallyBody h r i clauses

def visitTryCatch (body : HirExpr) (catches : List (HirCatchClause HirExpr))
    (finallyBody : Option HirExpr) : Visit Unit := do
  let w ← get
  let i ← newBinding
  visitRegion i (visitPending finallyBody true w.here w.regions i (rec body))
  visitCatches rec finallyBody w.here w.regions i catches
  resume
  visitOption rec finallyBody
  resume
  visitOption rec finallyBody
  resume

def visitNode : HirExpr → Visit Unit
  | .lit _ | .null _ | .closure _ _ _ => return ()
  | .path p => if p.globalSlot.isNone then use p.name else return ()
  | .tuple es | .array es | .struct _ _ es => visitAll rec es
  | .enumCtor _ _ _ offsets args => visitAll rec ((offsets.zip args).map Prod.snd)
  | .call _ args => do
    visitAll rec args
    resume
  | .callValue e args | .methodCall e _ args => do
    rec e
    visitAll rec args
    resume
  | .field e _ | .unary _ e | .ref _ e | .deref e | .try_ e | .cast e | .is e _ | .isNot e _ =>
    rec e
  | .index obj idx => visitAll rec [obj, idx]
  | .binary op l r => visitBinary rec op l r
  | .assign _ lhs rhs => visitAssign rec lhs rhs
  | .block stmts tail => visitBlock rec stmts tail
  | .if_ cond then_ else_ => visitIf rec cond then_ else_
  | .while_ cond body label => visitWhile rec cond body label
  | .for_ body label | .loop body label => visitForever rec body label
  | .when scrut arms => visitWhen rec scrut arms
  | .break_ label expr => visitBreak rec label expr
  | .continue_ label => visitBreak rec label none
  | .return_ expr => do
    visitOption rec expr
    visitJump rec 0 (some [])
  | .throw expr => visitThrow rec expr
  | .tryCatch body catches finallyBody => visitTryCatch rec body catches finallyBody
  | .safeCall recv _ args => do
    rec recv
    resume
    visitAll rec args
    resume
  | .forceUnwrap e | .safeField e _ => do
    rec e
    resume
  | .elvis lhs rhs => do
    rec lhs
    resume
    rec rhs
    resume

end Nodes

/-- Nothing is visited after an exit. -/
def visitExpr : ℕ → HirExpr → Visit Unit
  | 0, _ => return ()
  | n + 1, e => do
    if ← isStopped then return () else visitNode (visitExpr n) e

section Bodies

/-- Where a body is visited with its parameters bound. -/
def beginVisit (params : List String) (scope : Bindings) (hasEnv : Bool) : ScopeState where
  next := params.length + 1
  last := scope
  here := scope
  hasEnv := hasEnv
  loops := []
  finals := []
  regions := []
  stopped := false
  fresh := true
  balanced := true

/-- A function is visited. -/
def visitFn (fuel : ℕ) (fn : HirFn) : ScopeState :=
  let params := if fn.hasEnv then "__closure_env" :: fn.params else fn.params
  (visitExpr fuel fn.body (beginVisit params (nameLocals 1 params fun _ => none) fn.hasEnv)).2

def visitMethod (fuel : ℕ) (method : HirFn) : ScopeState :=
  let self := update (update (fun _ => none) "self" (some 1)) "this" (some 1)
  (visitExpr fuel method.body
    (beginVisit ("self" :: method.params) (nameLocals 2 method.params self) false)).2

def visitCtorBody (rec : HirExpr → Visit Unit) (cls : HirClass) : Visit Unit := do
  let i ← newBinding
  bindTo "self" i
  bindTo "this" i
  visitAll rec ((superFields cls).map Prod.snd)
  visitAll rec ((ownFields cls).map Prod.snd)
  visitAll rec cls.initBlocks

def visitCtor (fuel : ℕ) (cls : HirClass) : ScopeState :=
  let params := cls.ctorParams.map HirCtorParam.name
  (visitCtorBody (visitExpr fuel) cls
    (beginVisit params (nameLocals 1 params fun _ => none) false)).2

end Bodies

end Loxis.Lowering
