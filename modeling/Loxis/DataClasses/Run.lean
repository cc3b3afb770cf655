import Mathlib.Logic.Function.Basic
import Loxis.DataClasses.Check
import Loxis.Vm.Heap

/-! # What the members do

Objects and strings are in tables. Floats are known by their bits; arithmetic on them and the
other intrinsics are a parameter.
-/

namespace Loxis.DataClasses

open Backend (Value TAG_INT TAG_STR TAG_FLOAT TAG_NULL)
open Vm (TAG_HEAP)

/-! ## State -/

structure Obj where
  typeId : ℕ
  size : ℕ
  slots : ℕ → Value

abbrev Bytes := List (BitVec 8)

structure State where
  objects : List Obj
  strings : List Bytes

namespace State

variable (s : State)

def load (v : Value) (k : ℕ) : Option Value :=
  (s.objects[v.val.toNat]?).bind fun o => if k < o.size then some (o.slots k) else none

def text (v : Value) : Bytes := (s.strings[v.val.toNat]?).getD []

/-- A new string; the table is searched for no other one of its text. -/
def intern (b : Bytes) : Value × State :=
  (⟨BitVec.ofNat 64 s.strings.length, TAG_STR⟩, { s with strings := s.strings ++ [b] })

end State

def zero : Value := ⟨0, TAG_INT⟩

def boolValue (b : Bool) : Value := ⟨if b then 1 else 0, TAG_INT⟩

/-! ## Floats -/

def isNaN (b : BitVec 64) : Bool := 0x7FF0000000000000 < b.toNat % 2 ^ 63

def isZero (b : BitVec 64) : Bool := b.toNat % 2 ^ 63 = 0

/-- Two floats compare equal. -/
def feq (a b : BitVec 64) : Bool := !isNaN a && !isNaN b && (a = b || isZero a && isZero b)

/-- Conversions and arithmetic of floats, and the intrinsics that the members do not call. These
give no object of a class. -/
structure Machine where
  itof : BitVec 64 → BitVec 64
  ftoi : BitVec 64 → BitVec 64
  fadd : BitVec 64 → BitVec 64 → BitVec 64
  fmul : BitVec 64 → BitVec 64 → BitVec 64
  intrinsic : String → List Value → State → Option (Value × State)
  ftoi_zero : ∀ a b, isZero a = true → isZero b = true → ftoi a = ftoi b
  raw : ∀ f vs s v t o, intrinsic f vs s = some (v, t) → v.tag = TAG_HEAP →
    t.objects[v.val.toNat]? = some o → o.typeId = 0

namespace Machine

variable (M : Machine)

def toFloat (v : Value) : BitVec 64 := if v.tag = TAG_FLOAT then v.val else M.itof v.val

/-- The comparison of two registers. -/
def cmp (s : State) (a b : Value) : Bool :=
  if a.tag = TAG_NULL ∨ b.tag = TAG_NULL then a.tag = b.tag
  else if a.tag = TAG_FLOAT ∨ b.tag = TAG_FLOAT then feq (M.toFloat a) (M.toFloat b)
  else if a.tag = TAG_STR ∧ b.tag = TAG_STR then s.text a = s.text b
  else a.val = b.val

def add (ty : Kind) (s : State) (a b : Value) : Value × State :=
  if ty = .double then (⟨M.fadd (M.toFloat a) (M.toFloat b), TAG_FLOAT⟩, s)
  else if a.tag = TAG_STR ∧ b.tag = TAG_STR then s.intern (s.text a ++ s.text b)
  else (⟨a.val + b.val, TAG_INT⟩, s)

def mul (ty : Kind) (s : State) (a b : Value) : Value × State :=
  if ty = .double then (⟨M.fmul (M.toFloat a) (M.toFloat b), TAG_FLOAT⟩, s)
  else (⟨a.val * b.val, TAG_INT⟩, s)

/-- The byte at an index, or minus one. -/
def charAt (b : Bytes) (i : BitVec 64) : BitVec 64 :=
  match b[i.toNat]? with
  | some x => x.setWidth 64
  | none => -1

def call (f : String) (args : List Value) (s : State) : Option (Value × State) :=
  match f, args with
  | "strlen", [v] => some (⟨if v.tag = TAG_STR then (s.text v).length else 0, TAG_INT⟩, s)
  | "chr", [v] => some (s.intern [v.val.setWidth 8])
  | "strchar", [v, i] => some (⟨charAt (s.text v) i.val, TAG_INT⟩, s)
  | "ftoi", [v] => some (⟨M.ftoi v.val, TAG_INT⟩, s)
  | f, args => M.intrinsic f args s

end Machine

/-! ## Construction -/

/-- Names bound to values, later ones over earlier ones. -/
def bindAll (ρ : String → Value) (ps : List (String × Value)) : String → Value :=
  ps.foldl (fun ρ p => Function.update ρ p.1 p.2) ρ

namespace DataClass

variable (c : DataClass)

/-- The fields of an object by name. -/
def view (slots : ℕ → Value) (n : String) : Value := slots (c.slot n)

/-- The slots after the fields have been assigned by name. -/
def assign (slots : ℕ → Value) (v : String → Value) (k : ℕ) : Value :=
  match c.fieldNames[k]? with
  | some n => if c.slot n = k then v n else slots k
  | none => slots k

/-- The scope of the constructor. The new object is bound last. -/
def ctorScope (obj : Value) (args : List Value) : String → Value :=
  bindAll (fun _ => zero) ((c.primaryCtor.map ParamDecl.name).zip args ++
    [("self", obj), ("this", obj)])

/-- The slots before the user's code. -/
def stored (obj : Value) (args : List Value) : ℕ → Value :=
  c.properties.foldl
    (fun slots p => Function.update slots (c.storeSlot p.name) (c.ctorScope obj args p.name))
    fun k => if k < c.inherited.length then (c.superArgs args)[k]?.getD zero else zero

def construct (args : List Value) (s : State) : Option (Value × State) :=
  let obj : Value := ⟨BitVec.ofNat 64 s.objects.length, TAG_HEAP⟩
  (c.init (c.view (c.stored obj args))).map fun v =>
    (obj, { s with
      objects := s.objects ++
        [⟨c.typeId, c.fieldNames.length, c.assign (c.stored obj args) v⟩] })

/-! ## Evaluation -/

variable (M : Machine)

def litValue (s : State) : Lit → Value × State
  | .bool b => (boolValue b, s)
  | .int n => (⟨BitVec.ofNat 64 n, TAG_INT⟩, s)
  | .str t => s.intern (t.toUTF8.toList.map UInt8.toBitVec)

mutual

def eval (ρ : String → Value) : Hir → State → Option (Value × State)
  | .lit l, s => some (litValue s l)
  | .local_ n, s => some (ρ n, s)
  | .self_ k, s => (s.load (ρ "self") k).map (·, s)
  | .field o k, s => (eval ρ o s).bind fun r => (r.2.load r.1 k).map (·, r.2)
  | .intrinsic f args, s => (evalAll ρ args s).bind fun r => M.call f r.1 r.2
  | .init args, s => (evalAll ρ args s).bind fun r => c.construct r.1 r.2
  | .eq l r, s =>
    (eval ρ l s).bind fun a => (eval ρ r a.2).map fun b =>
      (boolValue (M.cmp b.2 a.1 b.1), b.2)
  | .add ty l r, s => (eval ρ l s).bind fun a => (eval ρ r a.2).map fun b => M.add ty b.2 a.1 b.1
  | .mul ty l r, s => (eval ρ l s).bind fun a => (eval ρ r a.2).map fun b => M.mul ty b.2 a.1 b.1
  | .ite cond t e, s =>
    (eval ρ cond s).bind fun r =>
      if M.cmp r.2 r.1 (boolValue true) then eval ρ t r.2 else eval ρ e r.2

def evalAll (ρ : String → Value) : List Hir → State → Option (List Value × State)
  | [], s => some ([], s)
  | h :: hs, s =>
    (eval ρ h s).bind fun r => (evalAll ρ hs r.2).map fun rs => (r.1 :: rs.1, rs.2)

end

/-- The scope of a member. Parameters are bound last. -/
def scope (m : Member) (v : Value) (args : List Value) : String → Value :=
  bindAll (fun _ => zero) ([("self", v), ("this", v)] ++ (m.params.map Prod.fst).zip args)

/-- Calls a member. -/
def run (m : Member) (v : Value) (args : List Value) (s : State) : Option (Value × State) :=
  match c.checkMember m with
  | .ok h => c.eval M (scope m v args) h s
  | .error _ => none

/-! ## The laws -/

def Kind.tag : Kind → BitVec 8
  | .str => TAG_STR
  | .double => TAG_FLOAT
  | _ => TAG_INT

structure HasKind (s : State) (k : Kind) (v : Value) : Prop where
  tag : v.tag = Kind.tag k
  inTable : k = .str → v.val.toNat < s.strings.length

/-- The value of a property of an object. -/
def value (o : Obj) (p : Property) : Value := o.slots (c.slot p.name)

/-- An object of the class, with values of the right types in its properties. -/
structure Instance (s : State) (v : Value) (o : Obj) : Prop where
  ref : v.tag = TAG_HEAP
  live : s.objects[v.val.toNat]? = some o
  typeId : o.typeId = c.typeId
  size : o.size = c.fieldNames.length
  typed : ∀ p ∈ c.properties, HasKind s p.kind (c.value o p)

/-- No property is a NaN. -/
def NaNFree (o : Obj) : Prop :=
  ∀ p ∈ c.properties, (c.value o p).tag = TAG_FLOAT → isNaN (c.value o p).val = false

/-- The properties are pairwise equal. -/
def Agree (s : State) (o o' : Obj) : Prop :=
  ∀ p ∈ c.properties, M.cmp s (c.value o p) (c.value o' p) = true

/-- A member says yes. -/
def Says (m : Member) (s : State) (v w : Value) : Prop :=
  c.run M m v [w] s = some (boolValue true, s)

/-- A member decides whether the properties of two instances are pairwise equal. -/
def Decides (m : Member) : Prop :=
  ∀ s v w o o', c.Instance s v o → c.Instance s w o' →
    ∃ b : Bool, c.run M m v [w] s = some (boolValue b, s) ∧ (b = true ↔ c.Agree M s o o')

/-- Instances without NaNs. -/
def Ordinary (s : State) : Type := { v : Value // ∃ o, c.Instance s v o ∧ c.NaNFree o }

/-- There is room for another object, and for a string for each property. -/
def Room (s : State) : Prop :=
  s.objects.length + 1 < 2 ^ 32 ∧ s.strings.length + c.properties.length < 2 ^ 32

structure Lawful : Prop where
  component : ∀ s v o, c.Instance s v o → ∀ (k : ℕ) (p : Property), c.properties[k]? = some p →
    c.run M (component k p) v [] s = some (c.value o p, s)
  equals : c.Decides M c.equals
  operatorEq : c.Decides M c.operatorEq
  equivalence : ∀ s, Equivalence (fun x y : c.Ordinary s => c.Says M c.equals s x.1 y.1) ∧
    Equivalence fun x y : c.Ordinary s => c.Says M c.operatorEq s x.1 y.1
  hashCode : ∀ s v w o o', c.Room s → c.Instance s v o → c.Instance s w o' → c.Agree M s o o' →
    ∃ n t t', c.run M c.hashCode v [] s = some (⟨n, TAG_INT⟩, t) ∧
      c.run M c.hashCode w [] s = some (⟨n, TAG_INT⟩, t')
  copy : ∀ s v o, c.Room s → c.Instance s v o → c.NaNFree o →
    ∃ w o' t, c.run M c.copy v (c.properties.map (c.value o)) s = some (w, t) ∧
      c.Instance t w o' ∧ c.Instance t v o ∧ c.Says M c.operatorEq t w v

end DataClass

end Loxis.DataClasses
