import Mathlib.Logic.Function.Basic
import Loxis.Mono.Types

/-! # The subtype test

What the scope builder records of the supertypes of classes and interfaces, and the tests of the
type checker that read it.
-/

namespace Loxis.Subtyping

open Function
open Mono (Ident Ty)

/-! ## Declarations -/

inductive Kind
  /-- A class or an object. -/
  | cls (superClass : Option (Ident × List Ty))
  | enum
  | iface

/-- A class, an object, an enum class or an interface. The interfaces of an interface are those
that it extends. -/
structure Decl where
  name : Ident
  kind : Kind
  generics : List String
  interfaces : List (Ident × List Ty)

structure ClassDef where
  superName : Option Ident
  /-- The class that the superclass's name was resolved to. -/
  superDef : Option Ident
  interfaceNames : List Ident

structure InterfaceDef where
  superNames : List Ident

inductive Symbol
  | cls (d : ClassDef)
  | iface (d : InterfaceDef)

abbrev Scope := Ident → Option Symbol

namespace Scope

variable (scope : Scope) (name : Ident)

def classDef : Option ClassDef :=
  match scope name with
  | some (.cls d) => some d
  | _ => none

def interfaceDef : Option InterfaceDef :=
  match scope name with
  | some (.iface d) => some d
  | _ => none

end Scope

/-! ## The scope builder -/

/-- An enum class declares no interface names. -/
def Decl.declare (d : Decl) : Symbol :=
  match d.kind with
  | .cls superClass => .cls ⟨superClass.map Prod.fst, none, d.interfaces.map Prod.fst⟩
  | .enum => .cls ⟨none, none, []⟩
  | .iface => .iface ⟨d.interfaces.map Prod.fst⟩

def declareItem (scope : Scope) (d : Decl) : Scope := update scope d.name (some d.declare)

def addInterfaces (names more : List Ident) : List Ident :=
  more.foldl (fun names name => if name ∈ names then names else names ++ [name]) names

/-- A superclass's names are copied as they are at that moment. -/
def inheritFromSuper (scope : Scope) (d : ClassDef) : ClassDef :=
  match d.superName with
  | none => d
  | some superName =>
    match scope.classDef superName with
    | none => d
    | some superDef =>
      { d with
        superDef := some superName
        interfaceNames := addInterfaces d.interfaceNames superDef.interfaceNames }

def resolveInterface (scope : Scope) (supers : List Ident) (d : InterfaceDef) : InterfaceDef :=
  ⟨d.superNames ++ supers.flatMap fun s =>
    ((scope.interfaceDef s).map InterfaceDef.superNames).getD []⟩

def resolveItem (scope : Scope) (d : Decl) : Scope :=
  match scope d.name with
  | some (.cls c) => update scope d.name (some (.cls (inheritFromSuper scope c)))
  | some (.iface i) =>
    update scope d.name (some (.iface (resolveInterface scope (d.interfaces.map Prod.fst) i)))
  | none => scope

/-- Declares all items, then resolves them in their order. -/
def build (decls : List Decl) : Scope :=
  decls.foldl resolveItem (decls.foldl declareItem fun _ => none)

/-! ## Equal types -/

namespace Ty

def isNullable : Ty → Bool
  | .nullable _ => true
  | _ => false

def unwrapNullable : Ty → Ty
  | .nullable t => t
  | t => t

def isError : Ty → Bool
  | .error | .nullable .error => true
  | _ => false

end Ty

mutual

/-- An error type is the same as any. Of type parameters the names are compared, of projections
nothing. -/
def sameType (a b : Ty) : Bool :=
  Ty.isError a || Ty.isError b ||
  match a, b with
  | .nullable a, .nullable b => sameType a b
  | .infer i, .infer j => i == j
  | .fn ps r, .fn qs s => sameTypes ps qs && sameType r s
  | .tuple ts, .tuple us => sameTypes ts us
  | .array e n, .array f m => n == m && sameType e f
  | .slice e, .slice f => sameType e f
  | .ref x e, .ref y f => x == y && sameType e f
  | .rawPtr x e, .rawPtr y f => x == y && sameType e f
  | .adt c ts, .adt d us => c == d && sameTypes ts us
  | .cls c ts, .cls d us => c == d && sameTypes ts us
  | .iface c ts, .iface d us => c == d && sameTypes ts us
  | .param x _, .param y _ => x == y
  | .never, .never | .unit, .unit | .bool, .bool | .char, .char | .int, .int | .long, .long
  | .float, .float | .double, .double | .str, .str | .null, .null
  | .projection .., .projection .. => true
  | _, _ => false

/-- Lists of one length, type by type. -/
def sameTypes : List Ty → List Ty → Bool
  | [], [] => true
  | a :: as, b :: bs => sameType a b && sameTypes as bs
  | _, _ => false

end

/-! ## Subtypes -/

/-- A class and its superclasses, up to `n` of them. -/
def superChain (scope : Scope) : ℕ → Ident → List Ident
  | 0, _ => []
  | n + 1, c =>
    match (scope.classDef c).bind ClassDef.superDef with
    | some s => c :: superChain scope n s
    | none => [c]

/-- The supertypes of a class or an interface are told by their names. -/
def namesSubtype (decls : List Decl) (a b : Ty) : Bool :=
  let scope := build decls
  match a, b with
  | .cls c _, .cls d _ => d ∈ superChain scope decls.length c
  | .iface i _, .iface j _ => j ∈ ((scope.interfaceDef i).map InterfaceDef.superNames).getD []
  | .cls c _, .iface j _ => j ∈ ((scope.classDef c).map ClassDef.interfaceNames).getD []
  | _, _ => false

def isParam : Ty → Bool
  | .param .. => true
  | _ => false

def isNever : Ty → Bool
  | .never => true
  | _ => false

def isNull : Ty → Bool
  | .null => true
  | _ => false

/-- The test behind the one for arrays. A type is compared with a nullable one without looking at
its supertypes. -/
def isSubtypeRest (decls : List Decl) (a b : Ty) : Bool :=
  let a' := Ty.unwrapNullable a
  let b' := Ty.unwrapNullable b
  if isParam b' || isParam a' then true
  else if isNever a' then true
  else if isNull a' && Ty.isNullable b then true
  else if Ty.isNullable b && !Ty.isNullable a then sameType a' b'
  else namesSubtype decls a' b'

/-- Arrays are compared whether or not they are nullable. -/
def isSubtype (decls : List Decl) (a b : Ty) : Bool :=
  sameType a b ||
  match a, b with
  | .array e n, .array f m
  | .array e n, .nullable (.array f m)
  | .nullable (.array e n), .array f m
  | .nullable (.array e n), .nullable (.array f m) => (m == 0 || n == m) && isSubtype decls e f
  | a, b => isSubtypeRest decls a b

end Loxis.Subtyping
