import Mathlib.Logic.Relation
import Loxis.Backend.MIRCompiler
import Loxis.Lowering.Mir

/-! # Running blocks

What the statements and terminators do with the locals of a body. A call leaves its result in
local 0 and the other locals of the caller as they are. The rest of the machine is a parameter,
and a run ends at an exception or a panic.
-/

namespace Loxis.Lowering

open Function
open Loxis.Backend (Value TAG_INT TAG_STR TAG_FLOAT TAG_NULL)

/-- What an operation or a call comes to: a result, an exception, or a panic. -/
inductive Outcome (α W : Type)
  | returned (a : α) (w : W)
  | raised (exception : Value) (w : W)
  | stuck

def Outcome.map {α β W : Type} (f : α → β) : Outcome α W → Outcome β W
  | returned a w => returned (f a) w
  | raised v w => raised v w
  | stuck => stuck

/-- What a call names. The first argument of a virtual or interface call is its receiver. -/
inductive Callee
  | label (target : String)
  | virtual (slot : ℕ)
  | interface (iface method : ℕ)
  | pointer (f : Value)
  | closure (f : Value)

/-- The machine around a body. A call also gets the value that local 0 holds before it. -/
structure Services (W : Type) where
  intern : String → BitVec 64
  address : String → BitVec 64
  equal : Value → ℕ → Bool
  field : Value → ℕ → W → Outcome Value W
  call : Callee → List Value → Value → W → Outcome Value W
  other : LocalId → Rvalue → (LocalId → Value) → W → Outcome (LocalId → Value) W

/-- A place in a body, with the contents of its locals. -/
structure Point where
  block : BlockId
  pos : ℕ
  locals : LocalId → Value

/-- The test of a null check. -/
def IsNull (v : Value) : Prop := v.tag = TAG_NULL

instance : DecidablePred IsNull := fun v => inferInstanceAs (Decidable (v.tag = TAG_NULL))

section Step

variable {W : Type} (S : Services W)

def Constant.value : Constant → Value
  | .int v | .uint v => ⟨v, TAG_INT⟩
  | .double bits => ⟨bits, TAG_FLOAT⟩
  | .bool b => ⟨if b then 1 else 0, TAG_INT⟩
  | .char c => ⟨c.signExtend 64, TAG_INT⟩
  | .str s => ⟨S.intern s, TAG_STR⟩
  | .mono => ⟨0, TAG_NULL⟩

def Operand.value (locals : LocalId → Value) : Operand → Value
  | .copy l | .move l => locals l
  | .const c => c.value S
  | .label s => ⟨S.address s, TAG_INT⟩

/-- The locals after an assignment. -/
def assign (place : LocalId) (rv : Rvalue) (locals : LocalId → Value) (w : W) :
    Outcome (LocalId → Value) W :=
  match rv with
  | .use op => .returned (update locals place (op.value S locals)) w
  | .field l offset => (S.field (locals l) offset w).map fun v => update locals place v
  | rv => S.other place rv locals w

def execStatement (st : Statement) (locals : LocalId → Value) (w : W) :
    Outcome (LocalId → Value) W :=
  match st with
  | .assign place rv => assign S place rv locals w
  | .tryPush _ _ | .tryPop => .returned locals w
  | .throw v => .raised (v.value S locals) w

/-- Call, and go on in block `ret`. -/
def callTo (callee : Callee) (args : List Operand) (ret : BlockId) (locals : LocalId → Value)
    (w : W) : Outcome Point W :=
  (S.call callee (args.map (Operand.value S locals)) (locals 0) w).map fun v =>
    ⟨ret, 0, update locals 0 v⟩

/-- The label that a call names. -/
def funcLabel : Operand → String
  | .const (.str s) => if s = "" then "unknown" else s
  | _ => "unknown"

def execTerminator (t : Terminator) (locals : LocalId → Value) (w : W) : Outcome Point W :=
  match t with
  | .goto target => .returned ⟨target, 0, locals⟩ w
  | .switchInt discr value target otherwise =>
    .returned ⟨if S.equal (discr.value S locals) value then target else otherwise, 0, locals⟩ w
  | .checkNull value nullTarget okTarget =>
    .returned ⟨if (value.value S locals).tag = TAG_NULL then nullTarget else okTarget, 0, locals⟩ w
  | .call func args _ ret => callTo S (.label (funcLabel func)) args ret locals w
  | .callIndirect f args _ ret => callTo S (.pointer (f.value S locals)) args ret locals w
  | .closureCall f args _ ret => callTo S (.closure (f.value S locals)) args ret locals w
  | .virtualCall _ slot args _ ret => callTo S (.virtual slot) args ret locals w
  | .interfaceCall _ iface method args _ ret =>
    callTo S (.interface iface method) args ret locals w
  | .return_ | .unreachable => .stuck

/-- One statement or terminator. -/
def step (blocks : List BasicBlock) (p : Point) (w : W) : Outcome Point W :=
  match blocks[p.block]? with
  | none => .stuck
  | some b =>
    match b.stmts[p.pos]? with
    | some st => (execStatement S st.st p.locals w).map fun ls => ⟨p.block, p.pos + 1, ls⟩
    | none => execTerminator S b.term p.locals w

end Step

/-- What a run comes to that goes on until `stop` holds or an exception is raised. -/
inductive RunsTo {W : Type} (S : Services W) (blocks : List BasicBlock)
    (stop : BlockId → ℕ → Prop) : Point → W → Outcome Point W → Prop
  | stop {p : Point} {w : W} (hs : stop p.block p.pos) : RunsTo S blocks stop p w (.returned p w)
  | raised {p : Point} {w w' : W} {v : Value} (hs : ¬ stop p.block p.pos)
      (h : step S blocks p w = .raised v w') : RunsTo S blocks stop p w (.raised v w')
  | step {p q : Point} {w w' : W} {o : Outcome Point W} (hs : ¬ stop p.block p.pos)
      (h : step S blocks p w = .returned q w') (ht : RunsTo S blocks stop q w' o) :
      RunsTo S blocks stop p w o

end Loxis.Lowering
