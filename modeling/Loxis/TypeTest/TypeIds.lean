import Mathlib.Algebra.GroupWithZero.Nat
import Loxis.Mono.Types

/-! # Runtime type ids

Classes get their type ids from the scope builder, specialisations from a counter of the
monomorphiser, and closure environments from a range of their own. The machine tests an object's
type along a table of parents, which has an entry for every class that was emitted.
-/

namespace Loxis.TypeTest

open Mono (Ident Ty SubstMap makeSubst substEach)

/-! ## Declarations -/

inductive ClassKind | cls | object | enum
  deriving DecidableEq

/-- A class, an object or an enum class. -/
structure Decl where
  name : Ident
  kind : ClassKind
  generics : List String
  /-- The superclass and its type arguments. -/
  superClass : Option (Ident × List Ty)

/-- The number of different type ids. -/
def idRange : ℕ := 2 ^ 32

/-- Stands for a type id that is missing. -/
def noTypeId : ℕ := idRange - 1

/-- The type id that `declareItem` gives the declaration at the index. -/
def declaredId (i : ℕ) : ℕ := i % idRange

/-- The declaration that a name stands for. -/
def lookup (decls : List Decl) (name : Ident) : Option ℕ := decls.findIdx? (·.name = name)

def superDef (decls : List Decl) (d : Decl) : Option ℕ :=
  d.superClass.bind fun (name, _) => lookup decls name

/-! ## Building -/

structure HirClass where
  typeId : ℕ
  parentTypeId : ℕ

def buildClass (decls : List Decl) (i : ℕ) (d : Decl) : HirClass :=
  ⟨declaredId i, (superDef decls d).elim noTypeId declaredId⟩

/-- An object's parent is left out. -/
def buildObject (i : ℕ) : HirClass := ⟨declaredId i, noTypeId⟩

/-- An enum class has no type id here, although its values do. -/
def buildEnumClass : HirClass := ⟨noTypeId, noTypeId⟩

def buildItem (decls : List Decl) (i : ℕ) (d : Decl) : HirClass :=
  match d.kind with
  | .cls => buildClass decls i d
  | .object => buildObject i
  | .enum => buildEnumClass

def build (decls : List Decl) : List HirClass :=
  decls.zipIdx.map fun (d, i) => buildItem decls i d

/-! ## Specialising -/

/-- The type id that the monomorphiser's counter starts from. -/
def firstTypeId (hir : List HirClass) : ℕ :=
  hir.foldl
    (fun next c =>
      if c.typeId ≠ noTypeId ∧ next ≤ c.typeId then (c.typeId + 1) % idRange else next) 1

/-- A class of the output: the copy of a declaration, or a specialisation. -/
inductive Emit
  | copy (i : ℕ)
  | spec (i : ℕ) (typeArgs : List Ty)

def Emit.decl : Emit → ℕ
  | copy i => i
  | spec i _ => i

def Emit.typeArgs : Emit → List Ty
  | copy _ => []
  | spec _ typeArgs => typeArgs

def Emit.isSpec : Emit → Bool
  | copy _ => false
  | spec .. => true

/-- The emitted classes. A specialisation has the template's parent and a type id of its own. -/
def monomorphize (hir : List HirClass) : ℕ → List Emit → List HirClass
  | _, [] => []
  | next, .copy i :: es =>
    (hir[i]?).getD buildEnumClass :: monomorphize hir next es
  | next, .spec i _ :: es =>
    { (hir[i]?).getD buildEnumClass with typeId := next } ::
      monomorphize hir ((next + 1) % idRange) es

/-- The type ids of the specialisations. -/
def specIds (es : List Emit) (classes : List HirClass) : List ℕ :=
  (es.zip classes).filterMap fun
    | (.spec .., c) => some c.typeId
    | _ => none

/-! ## The table of parents -/

/-- Makes room for an index. -/
def resize (table : List ℕ) (n : ℕ) : List ℕ := table ++ List.replicate (n - table.length) noTypeId

def addParent (table : List ℕ) (c : HirClass) : List ℕ :=
  if c.typeId = noTypeId then table
  else (resize table (c.typeId + 1)).set c.typeId c.parentTypeId

def buildVTableMetadata (classes : List HirClass) : List ℕ := classes.foldl addParent []

/-- The loop of the test, without a result when the fuel runs out. -/
def isA (typeParents : List ℕ) (target : ℕ) : ℕ → ℕ → Option Bool
  | 0, _ => none
  | fuel + 1, type =>
    if type = noTypeId then some false
    else if type = target then some true
    else
      match typeParents[type]? with
      | none => some false
      | some parent => isA typeParents target fuel parent

/-! ## Programs -/

/-- A value, as far as its runtime type goes. -/
inductive Value
  /-- Null, a number, a string. -/
  | plain
  /-- An array or a buffer. -/
  | raw
  | closure (k : ℕ)
  /-- Made by the constructor of an emitted class. -/
  | made (k : ℕ)
  /-- A variant of an enum class, or a struct literal of a class, with type arguments. -/
  | literal (i : ℕ) (typeArgs : List Ty)

/-- The class type that a test or a catch clause names. -/
structure Target where
  decl : ℕ
  typeArgs : List Ty

structure Program where
  decls : List Decl
  /-- In the order of the monomorphiser's output. -/
  emitted : List Emit
  /-- The number of closures. -/
  closures : ℕ
  tests : List (Value × Target)

namespace Program

variable (p : Program)

def classes : List HirClass :=
  monomorphize (build p.decls) (firstTypeId (build p.decls)) p.emitted

def typeParents : List ℕ := buildVTableMetadata p.classes

/-- The first type id of closure environments. -/
def envBase : ℕ := 0x40000000

def closureId (k : ℕ) : ℕ := (envBase + k) % idRange

/-- The runtime type id of a value on the heap. -/
def typeId : Value → Option ℕ
  | .plain => none
  | .raw => some 0
  | .closure k => some (closureId k)
  | .made k => (p.classes[k]?).map HirClass.typeId
  | .literal i _ => some (declaredId i)

/-- The test of a value. It names the template of a generic class. -/
def test (v : Value) (t : Target) (fuel : ℕ) : Option Bool :=
  match p.typeId v with
  | none => some false
  | some type => isA p.typeParents (declaredId t.decl) fuel type

/-- The type ids of declarations, specialisations and closure environments. -/
def ids : List ℕ :=
  (List.range p.decls.length).map declaredId ++ specIds p.emitted p.classes ++
    (List.range p.closures).map closureId

end Program

end Loxis.TypeTest

/-! ## What type tests should say

A test should hold of the instances of a class and of its subclasses. The type ids say so when
they are distinct and, for a generic class, only where the ids of the templates happen to agree
with the hierarchy.
-/

namespace Loxis.TypeTest

open Mono (Ident Ty makeSubst substEach)

namespace Program

variable (p : Program)

/-! ## The hierarchy -/

def Generic (i : ℕ) : Prop := ∃ d, p.decls[i]? = some d ∧ d.generics ≠ []

/-- A class without type parameters, and no object or enum class. -/
def PlainClass (i : ℕ) : Prop := ∃ d, p.decls[i]? = some d ∧ d.kind = .cls ∧ d.generics = []

/-- The superclass of a class at type arguments. -/
def Extends (x y : ℕ × List Ty) : Prop :=
  ∃ d name typeArgs, p.decls[x.1]? = some d ∧ d.superClass = some (name, typeArgs) ∧
    lookup p.decls name = some y.1 ∧ y.2 = substEach (makeSubst d.generics x.2) typeArgs

/-- An ancestor, with the declarations strictly between. -/
inductive Path : ℕ × List Ty → List ℕ → ℕ × List Ty → Prop
  | super {x y : ℕ × List Ty} : p.Extends x y → Path x [] y
  | step {x y z : ℕ × List Ty} {mid : List ℕ} : p.Extends x y → Path y mid z →
      Path x (y.1 :: mid) z

/-- The class of a value, with its type arguments. -/
def runtimeClass : Value → Option (ℕ × List Ty)
  | .made k => (p.emitted[k]?).map fun e => (e.decl, e.typeArgs)
  | .literal i typeArgs => some (i, typeArgs)
  | _ => none

/-- A class at type arguments is the one that is named. -/
def Named (t : Target) (x : ℕ × List Ty) : Prop :=
  x.1 = t.decl ∧ (p.Generic t.decl → x.2 = t.typeArgs)

def IsInstance (v : Value) (t : Target) : Prop :=
  ∃ x y, p.runtimeClass v = some x ∧ (y = x ∨ ∃ mid, p.Path x mid y) ∧ p.Named t y

/-- A value that can come up in a run. -/
def Valid : Value → Prop
  | .plain | .raw => True
  | .closure k => k < p.closures
  | .made k => ∃ e d, p.emitted[k]? = some e ∧ p.decls[e.decl]? = some d ∧ d.kind ≠ .enum
  | .literal i _ => ∃ d, p.decls[i]? = some d ∧ d.kind ≠ .object

/-- What the checker and the monomorphiser see to. -/
structure WellFormed : Prop where
  names : (p.decls.map Decl.name).Nodup
  supers : ∀ d ∈ p.decls, ∀ name typeArgs, d.superClass = some (name, typeArgs) →
    ∃ s < p.decls.length, lookup p.decls name = some s
  acyclic : ∃ rank : ℕ → ℕ, ∀ i d s, p.decls[i]? = some d → superDef p.decls d = some s →
    rank s < rank i
  objects : ∀ d ∈ p.decls, d.kind = .object → d.generics = []
  copies : ∀ i, .copy i ∈ p.emitted ↔ ∃ d, p.decls[i]? = some d ∧ d.generics = []
  specs : ∀ i typeArgs, .spec i typeArgs ∈ p.emitted → p.Generic i
  once : p.emitted.Nodup
  tests : ∀ v t, (v, t) ∈ p.tests → p.Valid v ∧ t.decl < p.decls.length

/-! ## The specification -/

structure Exact : Prop where
  /-- All have type ids, and these are distinct. -/
  distinct : (noTypeId :: p.ids).Nodup
  exact : ∀ v t, (v, t) ∈ p.tests →
    ∃ fuel b, p.test v t fuel = some b ∧ (b = true ↔ p.IsInstance v t)

/-! ## When the tests are exact -/

structure IdsCondition : Prop where
  /-- When anything is specialised, the last declaration is no enum class, or the only one. -/
  fresh : (∀ e ∈ p.emitted, e.isSpec = false) ∨ p.decls.length ≤ 1 ∨
    ∃ d, p.decls.getLast? = some d ∧ d.kind ≠ .enum
  bounded : p.decls.length + p.emitted.countP Emit.isSpec ≤ noTypeId
  closures : p.closures = 0 ∨
    p.decls.length + p.emitted.countP Emit.isSpec ≤ envBase ∧ envBase + p.closures ≤ noTypeId

/-- The value's class hands the test on to its superclass. -/
def Linked : Value → Prop
  | .made k => ∃ e d, p.emitted[k]? = some e ∧ p.decls[e.decl]? = some d ∧ d.kind = .cls
  | .literal i _ => p.PlainClass i
  | _ => False

structure TestCondition (v : Value) (t : Target) : Prop where
  /-- An array is not tested for the first class of the program, nor for an ancestor of it with
  only plain classes below. -/
  raw : v = .raw → t.decl ≠ 0 ∧ ∀ mid y, p.PlainClass 0 → p.Path (0, []) mid y → y.1 = t.decl →
    ∃ m ∈ mid, ¬ p.PlainClass m
  /-- A value of the very class that is tested for, if generic, is a literal or a variant of the
  same type arguments, or an object with others. -/
  own : ∀ x, p.runtimeClass v = some x → x.1 = t.decl → p.Generic t.decl →
    ((∃ i typeArgs, v = .literal i typeArgs) ↔ x.2 = t.typeArgs)
  /-- An ancestor is named at the type arguments that it has for the value, exactly when only
  plain classes are between. -/
  above : ∀ x mid y, p.runtimeClass v = some x → p.Path x mid y → y.1 = t.decl →
    (p.Named t y ↔ p.Linked v ∧ ∀ m ∈ mid, p.PlainClass m)

end Program

end Loxis.TypeTest
