import Loxis.Lowering.Exec
import Loxis.Subtyping.TypeChecker
import Loxis.Vm.HeapSound

/-! # Struct literals

The check of a literal resolves its fields by name. The code that it is lowered to stores their
values one slot after the other. Expressions are a parameter, with a meaning that may be anything
but cannot reach the object before the literal is done.
-/

namespace Loxis.Literals

open Backend (Value)
open Lowering (Outcome)
open Mono (Ident Ty SubstMap makeSubst makeNullable)
open Subtyping (sameType)
open Vm (Heap)

/-! ## Substitution -/

mutual

def substituteType (subst : SubstMap) : Ty → Ty
  | .nullable t => makeNullable (substituteType subst t)
  | .param name idx => (subst.lookup name).getD (.param name idx)
  | .fn params ret => .fn (substituteEach subst params) (substituteType subst ret)
  | .tuple elems => .tuple (substituteEach subst elems)
  | .array elem len => .array (substituteType subst elem) len
  | .slice elem => .slice (substituteType subst elem)
  | .ref m elem => .ref m (substituteType subst elem)
  | .rawPtr m elem => .rawPtr m (substituteType subst elem)
  | .adt name args => .adt name (substituteEach subst args)
  | .cls name args => .cls name (substituteEach subst args)
  | .iface name args => .iface name (substituteEach subst args)
  | t => t

def substituteEach (subst : SubstMap) : List Ty → List Ty
  | [] => []
  | t :: ts => substituteType subst t :: substituteEach subst ts

end

/-! ## Classes -/

/-- The initialiser of a field's declaration. -/
inductive Initializer (E : Type)
  | lit (v : Value)
  | code (e : E)

structure FieldInfo (E : Type) where
  type : Ty
  offset : ℕ
  initializer : Option (Initializer E)

/-- The size of a field slot. -/
def slotSize : ℕ := 9

/-- A class as the checker sees it: its fields by name, inherited ones included. Fields lie in
slots, and an object is small. A specialisation gets a type id of its own, above those of all
declarations. -/
structure ClassDef (E : Type) where
  name : Ident
  params : List String
  totalFieldSize : ℕ
  typeId : ℕ
  specialId : List Ty → ℕ
  lookupField : String → Option (FieldInfo E)
  aligned : ∀ f fi, lookupField f = some fi → slotSize ∣ fi.offset
  small : totalFieldSize + slotSize < 2 ^ 32
  fresh : ∀ args, typeId < specialId args

variable {E : Type}

/-- A field of a literal. A name on its own stands for the variable of that name too. -/
abbrev FieldInit (E : Type) := String × E

/-! ## The check -/

/-- What the checker makes of expressions. -/
structure Checker (E : Type) where
  errors : E → List String
  type : E → Ty

/-- The type that a field of the class type should have. -/
def expectedType (C : ClassDef E) (args : List Ty) (fi : FieldInfo E) : Ty :=
  let subst := makeSubst C.params args
  if subst = [] then fi.type else substituteType subst fi.type

/-- The value of an unknown field is not looked at. -/
def checkField (T : Checker E) (C : ClassDef E) (args : List Ty) (f : FieldInit E) : List String :=
  match C.lookupField f.1 with
  | none => ["unknown field '" ++ f.1 ++ "' in " ++ C.name.text]
  | some fi =>
    T.errors f.2 ++
      if sameType (T.type f.2) (expectedType C args fi) then []
      else ["field type mismatch for '" ++ f.1 ++ "'"]

/-- The errors of a literal. -/
def checkStruct (T : Checker E) (C : ClassDef E) (args : List Ty) (fields : List (FieldInit E)) :
    List String :=
  fields.flatMap (checkField T C args)

/-! ## The code -/

/-- The size of the object. -/
def objectSize (C : ClassDef E) : ℕ := if 0 < C.totalFieldSize then C.totalFieldSize else slotSize

variable {W : Type}

/-- Each value is stored before the next expression is evaluated. The values are returned for the
specification only. -/
def storeFields (eval : E → W × Heap → Outcome Value (W × Heap)) (obj : ℕ) :
    List (ℕ × E) → W × Heap → Outcome (List Value) (W × Heap)
  | [], s => .returned [] s
  | (offset, e) :: es, s =>
    match eval e s with
    | .returned v (w, h) =>
      match h.storeCell obj offset v.val v.tag with
      | some h => (storeFields eval obj es (w, h)).map (v :: ·)
      | none => .stuck
    | .raised x s => .raised x s
    | .stuck => .stuck

/-- Allocates an object of the class, or of the template, and stores the values in the order of the
literal. -/
def evalStruct (eval : E → W × Heap → Outcome Value (W × Heap)) (C : ClassDef E)
    (fields : List (FieldInit E)) (s : W × Heap) : Outcome (ℕ × List Value) (W × Heap) :=
  let (obj, h) := s.2.alloc (objectSize C) C.typeId
  (storeFields eval obj ((fields.map Prod.snd).zipIdx.map fun p => (p.2 * slotSize, p.1))
    (s.1, h)).map fun vs => (obj, vs)

/-- Reads a field of an object. -/
def readField (C : ClassDef E) (h : Heap) (obj : ℕ) (f : String) : Option Value :=
  (C.lookupField f).bind fun fi => (h.loadCell obj fi.offset).map fun c => ⟨c.1, c.2⟩

/-! ## What a literal should do -/

/-- The type id of the instances of a class at type arguments. -/
def instanceId (C : ClassDef E) (args : List Ty) : ℕ :=
  if args = [] then C.typeId else C.specialId args

/-- The value that an initialiser gives in a state. -/
def Initializer.Gives (eval : E → W × Heap → Outcome Value (W × Heap)) (s : W × Heap) (v : Value) :
    Initializer E → Prop
  | .lit c => v = c
  | .code e => ∃ s', eval e s = .returned v s'

/-- The expressions are evaluated once each and in order. Only the heap may change in between. -/
inductive InTurn (eval : E → W × Heap → Outcome Value (W × Heap)) :
    List E → W → List Value → W → Prop
  | nil (w : W) : InTurn eval [] w [] w
  | cons {e : E} {es : List E} {v : Value} {vs : List Value} {w w₁ w₂ : W} {h h₁ : Heap} :
      eval e (w, h) = .returned v (w₁, h₁) → InTurn eval es w₁ vs w₂ →
      InTurn eval (e :: es) w (v :: vs) w₂

/-- The object has the values of the literal, and those of the initialisers for other fields. -/
structure Initialised (eval : E → W × Heap → Outcome Value (W × Heap)) (C : ClassDef E)
    (args : List Ty) (fields : List (FieldInit E)) (w : W) (obj : ℕ) (vs : List Value)
    (s : W × Heap) : Prop where
  evaluated : InTurn eval (fields.map Prod.snd) w vs s.1
  instance_ : s.2.getTypeId obj = instanceId C args
  named : ∀ (k : ℕ) (f : FieldInit E) (v : Value), fields[k]? = some f → vs[k]? = some v →
    readField C s.2 obj f.1 = some v
  omitted : ∀ f fi, C.lookupField f = some fi → f ∉ fields.map Prod.fst →
    ∃ init v, fi.initializer = some init ∧ init.Gives eval s v ∧ readField C s.2 obj f = some v

/-- Evaluation leaves the object alone. -/
def Spares (eval : E → W × Heap → Outcome Value (W × Heap)) (obj : ℕ) : Prop :=
  ∀ e w h v w' h', h.Sound → h.valid obj = true → eval e (w, h) = .returned v (w', h') →
    h'.Sound ∧ h'.valid obj = true ∧ h'.slots obj = h.slots obj ∧
      ∀ offset, h'.loadCell obj offset = h.loadCell obj offset

/-- There is room for an object of the class. -/
def Room (C : ClassDef E) (h : Heap) : Prop :=
  h.Sound ∧ (h.alloc (objectSize C) C.typeId).1 ≠ Heap.INVALID ∧
    (h.alloc (objectSize C) C.typeId).2.Sound

/-- A literal that is accepted names no field twice, leaves out only fields with an initialiser,
and, whatever its expressions do, completes when these do and makes the object. -/
structure Correct (T : Checker E) (C : ClassDef E) (args : List Ty)
    (fields : List (FieldInit E)) : Prop where
  nodup : (fields.map Prod.fst).Nodup
  complete : ∀ f fi, C.lookupField f = some fi → f ∉ fields.map Prod.fst →
    fi.initializer.isSome = true
  completes : ∀ (W : Type) (eval : E → W × Heap → Outcome Value (W × Heap)) (w : W) (h : Heap),
    Room C h → Spares eval (h.alloc (objectSize C) C.typeId).1 →
    (∀ e s, ∃ v s', eval e s = .returned v s') →
    ∃ r s', evalStruct eval C fields (w, h) = .returned r s'
  initialised : ∀ (W : Type) (eval : E → W × Heap → Outcome Value (W × Heap)) (w : W) (h : Heap)
    (s : W × Heap) (obj : ℕ) (vs : List Value), Room C h →
    Spares eval (h.alloc (objectSize C) C.typeId).1 →
    evalStruct eval C fields (w, h) = .returned (obj, vs) s →
    Initialised eval C args fields w obj vs s

end Loxis.Literals
