import Loxis.Lib.Simulation
import Loxis.Lowering.SafeNav

/-! # A reference evaluator

What an expression means, apart from its lowering. Operands are evaluated from left to right, each
to the value that it has then. A compound assignment reads its target after the right-hand side. A
name bound in a block has its old value again after the block.

Exceptions that a `try` would catch, pattern tests, closures and references are left out.
-/

namespace Loxis.Lowering

open Function
open Loxis.Backend (Value TAG_INT)

inductive Operation
  | unary (op : MirUnaryOp)
  | binary (op : MirBinOp)
  | cast
  | is (targetTypeId : ℕ)
  | aggregate (kind : AggregateKind)
  | field (offset : ℕ)
  | index
  | globalLoad (slot : ℕ)
  | alloc (size typeId : ℕ)

inductive Store
  | field (offset : ℕ)
  | index
  | global (slot : ℕ)

/-- The world around a function, whose operations see the values of their operands only. The result
of a call does not depend on what local 0 holds before it. -/
structure Ops (W : Type) where
  intern : String → BitVec 64
  address : String → BitVec 64
  equal : Value → ℕ → Bool
  perform : Operation → List Value → W → Outcome Value W
  store : Store → List Value → W → Outcome Unit W
  call : Callee → List Value → W → Outcome Value W
  rest : LocalId → Rvalue → (LocalId → Value) → W → Outcome (LocalId → Value) W

namespace Ops

variable {W : Type} (O : Ops W)

def base : Services W where
  intern := O.intern
  address := O.address
  equal := O.equal
  field v offset := O.perform (.field offset) [v]
  call callee args _ := O.call callee args
  other := O.rest

/-- The computation or the store of an assignment, with its operands. -/
def parts (place : LocalId) : Rvalue → Option ((Operation ⊕ Store) × List Operand)
  | .binary op l r => some (.inl (.binary op), [l, r])
  | .unary op x => some (.inl (.unary op), [x])
  | .cast x => some (.inl .cast, [x])
  | .aggregate kind xs => some (.inl (.aggregate kind), xs)
  | .isCheck obj targetTypeId => some (.inl (.is targetTypeId), [.copy obj])
  | .index l idx => some (.inl .index, [.copy l, idx])
  | .globalLoad slot => some (.inl (.globalLoad slot), [])
  | .alloc size typeId => some (.inl (.alloc size typeId), [])
  | .hstore offset value => some (.inr (.field offset), [.copy place, value])
  | .indexStore idx value => some (.inr .index, [.copy place, idx, value])
  | .globalStore slot value => some (.inr (.global slot), [value])
  | _ => none

/-- The machine of a function in this world. -/
def services : Services W :=
  { O.base with
    other := fun place rv locals w =>
      match parts place rv with
      | some (.inl op, xs) =>
        (O.perform op (xs.map (Operand.value O.base locals)) w).map (update locals place)
      | some (.inr st, xs) =>
        (O.store st (xs.map (Operand.value O.base locals)) w).map fun _ => locals
      | none => O.rest place rv locals w }

end Ops

abbrev Env := String → Value

/-- How an expression is left before it has a value. -/
inductive Exit
  | break_ (label : Option String)
  | continue_ (label : Option String)
  | return_ (v : Value)

inductive Result (W α : Type)
  | done (a : α) (ρ : Env) (w : W)
  | left (x : Exit) (ρ : Env) (w : W)
  | raised (exception : Value) (w : W)
  | stuck

section Evaluations

variable {W α β : Type}

def Result.mapEnv (f : Env → Env) : Result W α → Result W α
  | .done a ρ w => .done a (f ρ) w
  | .left x ρ w => .left x (f ρ) w
  | .raised v w => .raised v w
  | .stuck => .stuck

/-- An evaluation, which can run out of fuel. -/
def Eval (W α : Type) := Env → W → Option (Result W α)

namespace Eval

instance : Monad (Eval W) where
  pure a := fun ρ w => some (.done a ρ w)
  bind x f := fun ρ w =>
    match x ρ w with
    | none => none
    | some (.done a ρ' w') => f a ρ' w'
    | some (.left e ρ' w') => some (.left e ρ' w')
    | some (.raised v w') => some (.raised v w')
    | some .stuck => some .stuck

instance : LawfulMonad (Eval W) :=
  LawfulMonad.mk' (Eval W)
    (fun x => by
      funext ρ w
      change (match x ρ w with
        | none => none
        | some (.done a ρ' w') => some (.done a ρ' w')
        | some (.left e ρ' w') => some (.left e ρ' w')
        | some (.raised v w') => some (.raised v w')
        | some .stuck => some .stuck) = x ρ w
      rcases x ρ w with _ | ⟨⟩ | ⟨⟩ | ⟨⟩ | _ <;> rfl)
    (fun _ _ => rfl)
    (fun x f g => by
      funext ρ w
      simp only [Bind.bind]
      rcases x ρ w with _ | ⟨⟩ | ⟨⟩ | ⟨⟩ | _ <;> rfl)

def leave (x : Exit) : Eval W α := fun ρ w => some (.left x ρ w)

def raise (v : Value) : Eval W α := fun _ w => some (.raised v w)

def fail : Eval W α := fun _ _ => some .stuck

def ofOutcome (f : W → Outcome α W) : Eval W α := fun ρ w =>
  match f w with
  | .returned a w' => some (.done a ρ w')
  | .raised v w' => some (.raised v w')
  | .stuck => some .stuck

def readVar (x : String) : Eval W Value := fun ρ w => some (.done (ρ x) ρ w)

def writeVar (x : String) (v : Value) : Eval W Unit := fun ρ w => some (.done () (update ρ x v) w)

/-- `x` is bound to `v` as long as `y` is evaluated. -/
def letIn (x : String) (v : Value) (y : Eval W α) : Eval W α := fun ρ w =>
  (y (update ρ x v) w).map (Result.mapEnv fun ρ' => update ρ' x (ρ x))

/-- How one turn of a loop ends. -/
inductive Turn | completed | continued | broken

/-- A jump with the name `label` is to a loop with the name `loop`. -/
def hits (label loop : Option String) : Bool := label.isNone || decide (loop = label)

/-- One turn of a loop, with the jumps to the loop. -/
def turn (loop : Option String) (body : Eval W Value) : Eval W Turn := fun ρ w =>
  match body ρ w with
  | none => none
  | some (.done _ ρ' w') => some (.done .completed ρ' w')
  | some (.left (.break_ label) ρ' w') =>
    if hits label loop then some (.done .broken ρ' w') else some (.left (.break_ label) ρ' w')
  | some (.left (.continue_ label) ρ' w') =>
    if hits label loop then some (.done .continued ρ' w')
    else some (.left (.continue_ label) ρ' w')
  | some (.left (.return_ v) ρ' w') => some (.left (.return_ v) ρ' w')
  | some (.raised v w') => some (.raised v w')
  | some .stuck => some .stuck

end Eval

end Evaluations

open Eval

/-- The value of an expression that has none. -/
def unit : Value := ⟨0, TAG_INT⟩

section Nodes

variable {W : Type} (O : Ops W) (rec : HirExpr → Eval W Value)

def perform (op : Operation) (vs : List Value) : Eval W Value := ofOutcome (O.perform op vs)

def store (st : Store) (vs : List Value) : Eval W Unit := ofOutcome (O.store st vs)

def invoke (callee : Callee) (vs : List Value) : Eval W Value := ofOutcome (O.call callee vs)

def evalAll : List HirExpr → Eval W (List Value)
  | [] => return []
  | e :: es => do
    let v ← rec e
    let vs ← evalAll es
    return v :: vs

def evalOption : Option HirExpr → Eval W Value
  | some e => rec e
  | none => return unit

def evalIf (cond : HirExpr) (then_ else_ : Eval W Value) : Eval W Value := do
  let v ← rec cond
  if O.equal v 1 then then_ else else_

/-- The value to assign, where `old` reads the target. -/
def evalCombine (op : MirAssignOp) (old : Eval W Value) (v : Value) : Eval W Value :=
  if op = .set then return v
  else do
    let a ← old
    perform O (.binary (binOpForAssign op)) [a, v]

def evalAssign (op : MirAssignOp) (lhs rhs : HirExpr) : Eval W Unit :=
  match lhs with
  | .path p => do
    let v ← rec rhs
    match p.globalSlot with
    | some slot =>
      let v' ← evalCombine O op (perform O (.globalLoad slot) []) v
      store O (.global slot) [v']
    | none =>
      let v' ← evalCombine O op (readVar p.name) v
      writeVar p.name v'
  | .field obj offset => do
    let o ← rec obj
    let v ← rec rhs
    let v' ← evalCombine O op (perform O (.field offset) [o]) v
    store O (.field offset) [o, v']
  | .index obj idx => do
    let o ← rec obj
    let i ← rec idx
    let v ← rec rhs
    let v' ← evalCombine O op (perform O .index [o, i]) v
    store O .index [o, i, v']
  | _ => fail

def evalBlock (tail : Option HirExpr) : List (HirStmt HirExpr) → Eval W Value
  | [] => evalOption rec tail
  | .let_ (.bind name _) init :: sts => do
    let v ← rec init
    letIn name v (evalBlock tail sts)
  | .let_ _ e :: sts | .expr (some e) :: sts => do
    let _ ← rec e
    evalBlock tail sts
  | .expr none :: sts => evalBlock tail sts

def evalStores (obj : Value) : List (ℕ × HirExpr) → Eval W Unit
  | [] => return ()
  | (offset, e) :: es => do
    let v ← rec e
    store O (.field offset) [obj, v]
    evalStores obj es

/-- A closure is called through its environment, another value as the address of a function. -/
def calleeOf (func : HirExpr) (v : Value) : Callee :=
  if isClosureCall func then .closure v else .pointer v

def evalNode : HirExpr → Eval W Value
  | .lit val => return val.value O.base
  | .null isNull => return (if isNull then Constant.mono else .int 0).value O.base
  | .path p =>
    match p.globalSlot with
    | some slot => perform O (.globalLoad slot) []
    | none => readVar p.name
  | .tuple es => evalAll rec es >>= perform O (.aggregate .tuple)
  | .array es => evalAll rec es >>= perform O (.aggregate .array)
  | .struct size typeId es => do
    let obj ← perform O (.alloc (if 0 < size then size else 9) typeId) []
    evalStores O rec obj (es.zipIdx.map fun p => (p.2 * 9, p.1))
    return obj
  | .enumCtor typeId variantIndex size offsets args => do
    let obj ← perform O (.alloc (if 0 < size then size else 9) typeId) []
    store O (.field 0) [obj, (Constant.int (BitVec.ofNat 64 variantIndex)).value O.base]
    evalStores O rec obj (offsets.zip args)
    return obj
  | .call label args =>
    evalAll rec args >>= invoke O (.label (funcLabel (.const (.str label))))
  | .callValue func args => do
    let f ← rec func
    let vs ← evalAll rec args
    invoke O (calleeOf func f) vs
  | .methodCall recv dispatch args => evalAll rec (recv :: args) >>= invoke O dispatch.callee
  | .field e offset => evalAll rec [e] >>= perform O (.field offset)
  | .index obj idx => evalAll rec [obj, idx] >>= perform O .index
  | .unary op e =>
    match op with
    | .neg | .not | .toStr => evalAll rec [e] >>= perform O (.unary op)
    | .deref => rec e
    | .ref | .refMut => fail
  | .deref e | .try_ e => rec e
  | .cast e => evalAll rec [e] >>= perform O .cast
  | .is e targetTypeId => evalAll rec [e] >>= perform O (.is targetTypeId)
  | .isNot e targetTypeId => do
    let b ← evalAll rec [e] >>= perform O (.is targetTypeId)
    perform O (.unary .not) [b]
  | .binary op l r =>
    match op with
    | .and => evalIf O rec l (rec r) (rec (.lit (.bool false)))
    | .or => evalIf O rec l (rec (.lit (.bool true))) (rec r)
    | _ => evalAll rec [l, r] >>= perform O (.binary op)
  | .assign op lhs rhs => do
    evalAssign O rec op lhs rhs
    return unit
  | .block sts tail => evalBlock rec tail sts
  | .if_ cond then_ else_ => evalIf O rec cond (rec then_) (evalOption rec else_)
  | .while_ cond body label =>
    evalIf O rec cond (do
      match ← turn label (rec body) with
      | .broken => return unit
      | _ => rec (.while_ cond body label)) (return unit)
  | .loop body label => do
    match ← turn label (rec body) with
    | .broken => return unit
    | _ => rec (.loop body label)
  | .for_ body label => do
    match ← turn label (rec body) with
    | .continued => rec (.for_ body label)
    | _ => return unit
  | .break_ label e => do
    let _ ← evalOption rec e
    leave (.break_ label)
  | .continue_ label => leave (.continue_ label)
  | .return_ e => do
    let v ← evalOption rec e
    leave (.return_ v)
  | .throw e => do
    let v ← rec e
    raise v
  | .elvis lhs rhs => do
    let v ← rec lhs
    if IsNull v then rec rhs else return v
  | .forceUnwrap e => do
    let v ← rec e
    if IsNull v then fail else return v
  | .safeField e offset => do
    let v ← rec e
    if IsNull v then return unit else perform O (.field offset) [v]
  | .ref _ _ | .when _ _ | .tryCatch _ _ _ | .safeCall _ _ _ | .closure _ _ _ => fail

end Nodes

variable {W : Type} (O : Ops W)

def evalExpr : ℕ → HirExpr → Eval W Value
  | 0, _ => fun _ _ => none
  | n + 1, e => evalNode O (evalExpr n) e

/-- The parameters have the values of the arguments. -/
def bindParams (params : List String) (args : List Value) : Env := fun x =>
  args.getD (params.idxOf x) unit

/-- What a call of the function comes to. -/
def evalFn (fuel : ℕ) (fn : HirFn) (args : List Value) (w : W) : Option (Outcome Value W) :=
  (evalExpr O fuel fn.body (bindParams fn.params args) w).map fun r =>
    match r with
    | .done v _ w' | .left (.return_ v) _ w' => .returned v w'
    | .raised v w' => .raised v w'
    | .left _ _ _ | .stuck => .stuck

section Orderly

/-- The names whose local is the local of the value, if any. -/
def yields : HirExpr → List String
  | .path p => if p.globalSlot.isNone then [p.name] else []
  | .block _ (some e) => yields e
  | .try_ e | .forceUnwrap e => yields e
  | _ => []

/-- The names that are bound after the statements. -/
def declared : List (HirStmt HirExpr) → List String → List String
  | [], names => names
  | .let_ (.bind name _) _ :: sts, names => declared sts (name :: names)
  | _ :: sts, names => declared sts names

mutual

/-- Every name is bound, no name hides another, no operand is assigned while it waits for the
operands after it, and every jump has a loop. `waiting` are the names that wait, `loops` the names
of the loops around. -/
def orderly (names waiting : List String) (loops : List (Option String)) : HirExpr → Bool
  | .lit _ | .null _ => true
  | .path p => p.globalSlot.isSome || names.contains p.name
  | .tuple es | .array es | .call _ es => orderlyAll names waiting loops es
  | .struct _ _ es | .enumCtor _ _ _ _ es => orderlyEach names waiting loops es
  | .callValue e es | .methodCall e _ es =>
    orderly names waiting loops e && orderlyAll names (waiting ++ yields e) loops es
  | .field e _ | .deref e | .try_ e | .cast e | .is e _ | .isNot e _ | .throw e | .forceUnwrap e
  | .safeField e _ => orderly names waiting loops e
  | .unary op e =>
    decide (op ≠ .ref) && decide (op ≠ .refMut) && orderly names waiting loops e
  | .index l r => orderly names waiting loops l && orderly names (waiting ++ yields l) loops r
  | .binary op l r =>
    orderly names waiting loops l &&
      orderly names (if op = .and ∨ op = .or then waiting else waiting ++ yields l) loops r
  | .assign _ (.path p) rhs =>
    orderly names waiting loops rhs &&
      (p.globalSlot.isSome || names.contains p.name && !waiting.contains p.name)
  | .assign _ (.field obj _) rhs =>
    orderly names waiting loops obj && orderly names (waiting ++ yields obj) loops rhs
  | .assign _ (.index obj idx) rhs =>
    orderly names waiting loops obj && orderly names (waiting ++ yields obj) loops idx &&
      orderly names (waiting ++ yields obj ++ yields idx) loops rhs
  | .block sts tail =>
    orderlyStmts names waiting loops sts && orderlyOption (declared sts names) waiting loops tail
  | .if_ cond then_ else_ =>
    orderly names waiting loops cond && orderly names waiting loops then_ &&
      orderlyOption names waiting loops else_
  | .while_ cond body label =>
    orderly names waiting loops cond && orderly names waiting (label :: loops) body
  | .loop body label | .for_ body label => orderly names waiting (label :: loops) body
  | .break_ label e => orderlyOption names waiting loops e && loops.any (hits label)
  | .continue_ label => loops.any (hits label)
  | .return_ e => orderlyOption names waiting loops e
  | .elvis lhs rhs => orderly names waiting loops lhs && orderly names waiting loops rhs
  | _ => false

def orderlyAll (names waiting : List String) (loops : List (Option String)) :
    List HirExpr → Bool
  | [] => true
  | e :: es => orderly names waiting loops e && orderlyAll names (waiting ++ yields e) loops es

def orderlyEach (names waiting : List String) (loops : List (Option String)) :
    List HirExpr → Bool
  | [] => true
  | e :: es => orderly names waiting loops e && orderlyEach names waiting loops es

def orderlyOption (names waiting : List String) (loops : List (Option String)) :
    Option HirExpr → Bool
  | none => true
  | some e => orderly names waiting loops e

def orderlyStmts (names waiting : List String) (loops : List (Option String)) :
    List (HirStmt HirExpr) → Bool
  | [] => true
  | .let_ (.bind name _) e :: sts =>
    orderly names waiting loops e && !names.contains name &&
      orderlyStmts (name :: names) waiting loops sts
  | .let_ .wild e :: sts | .expr (some e) :: sts =>
    orderly names waiting loops e && orderlyStmts names waiting loops sts
  | .expr none :: sts => orderlyStmts names waiting loops sts
  | _ :: _ => false

end

end Orderly

end Loxis.Lowering
