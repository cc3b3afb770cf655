import Loxis.Mono.Monomorphizer

/-! # Emitted functions and their names

What a module calls for, what the pass has emitted for which item and type arguments, and what
the names should do: tell apart everything that was emitted, and lead each request to the copy
it asked for.
-/

namespace Loxis.Mono

/-- The emitted functions and methods. A method's label has its class in front. -/
def functions (output : List Item) : List (Entity × String) :=
  output.flatMap fun
    | .fn f => [(f.entity, f.name)]
    | .cls _ name _ methods => methods.map fun f => (f.entity, name ++ "." ++ f.name)

def classes (output : List Item) : List (Entity × String) :=
  output.filterMap fun
    | .fn _ => none
    | .cls entity name _ _ => some (entity, name)

def functionAt (hir : HirModule) (i : ℕ) : Option HirFn :=
  match hir[i]? with
  | some (.fn f) => some f
  | _ => none

def classAt (hir : HirModule) (i : ℕ) : Option HirClass :=
  match hir[i]? with
  | some (.cls c) => some c
  | _ => none

def methodAt (hir : HirModule) (i m : ℕ) : Option (HirClass × HirMethod) :=
  (classAt hir i).bind fun c => (c.methods[m]?).map fun method => (c, method)

/-! ## What a module calls for -/

/-- The specialisations that a use requests. -/
def requests (hir : HirModule) : Site → List Entity
  | .call fnName typeArgs =>
    match fnByName hir fnName with
    | some (i, f) => if typeArgs ≠ [] ∧ f.generics ≠ [] then [.fn i typeArgs] else []
    | none => []
  | .construct className typeArgs =>
    match classByName hir className with
    | some (i, c) => if typeArgs ≠ [] ∧ c.generics ≠ [] then [.cls i typeArgs] else []
    | none => []
  | .methodCall recvTy name typeArgs =>
    match recvTy.receiver with
    | some (className, classArgs) =>
      match classByName hir className with
      | some (i, owner) =>
        let ownerArgs := if classArgs ≠ [] ∧ owner.generics ≠ [] then classArgs else []
        (if ownerArgs ≠ [] then [.cls i ownerArgs] else []) ++
          match genericMethod owner name with
          | some (m, _) => if typeArgs ≠ [] then [.method i ownerArgs m typeArgs] else []
          | none => []
      | none => []
    | none => []

/-- The body of a copy; of a class, its initialisers and the bodies of its plain methods. -/
def bodyOf (hir : HirModule) : Entity → List Site
  | .fn i typeArgs =>
    (functionAt hir i).elim [] fun f => f.body.map (Site.subst (makeSubst f.generics typeArgs))
  | .cls i typeArgs =>
    (classAt hir i).elim [] fun c =>
      (c.inits ++ (plainMethods c).flatMap (·.2.body)).map
        (Site.subst (makeSubst c.generics typeArgs))
  | .method i ownerArgs m typeArgs =>
    (methodAt hir i m).elim [] fun (c, method) =>
      let body :=
        if c.generics = [] then method.body
        else method.body.map (Site.subst (makeSubst c.generics ownerArgs))
      body.map (Site.subst (makeSubst method.generics typeArgs))

/-- What a copy requests. -/
def needs (hir : HirModule) (e : Entity) : List Entity := (bodyOf hir e).flatMap (requests hir)

/-- An item that is copied as it is. -/
inductive Root (hir : HirModule) : ℕ → Entity → Prop
  | fn {i : ℕ} {f : HirFn} : functionAt hir i = some f → f.generics = [] → Root hir i (.fn i [])
  | cls {i : ℕ} {c : HirClass} : classAt hir i = some c → c.generics = [] → Root hir i (.cls i [])

/-- The specialisations that the items of a module request, and the copies that these lead to. -/
inductive Requested (hir : HirModule) : Entity → Prop
  | root {i : ℕ} {r e : Entity} : Root hir i r → e ∈ needs hir r → Requested hir e
  | step {e e' : Entity} : Requested hir e → e' ∈ needs hir e → Requested hir e'

/-- The specialisations that are requested while item `i` is copied. The body of a method is
scanned at once, other bodies wait until all items are copied. -/
inductive Early (hir : HirModule) (i : ℕ) : Entity → Prop
  | root {r e : Entity} : Root hir i r → e ∈ needs hir r → Early hir i e
  | step {k m : ℕ} {ownerArgs typeArgs : List Ty} {e : Entity} :
      Early hir i (.method k ownerArgs m typeArgs) →
      e ∈ needs hir (.method k ownerArgs m typeArgs) → Early hir i e

/-- The functions and methods that a module calls for. -/
inductive Emits (hir : HirModule) : Entity → Prop
  | fn {i : ℕ} {f : HirFn} : functionAt hir i = some f → f.generics = [] → Emits hir (.fn i [])
  | method {i m : ℕ} {c : HirClass} {method : HirMethod} : classAt hir i = some c →
      c.generics = [] → (m, method) ∈ plainMethods c → Emits hir (.method i [] m [])
  | clsMethod {i m : ℕ} {c : HirClass} {method : HirMethod} {typeArgs : List Ty} :
      classAt hir i = some c → (m, method) ∈ plainMethods c → Requested hir (.cls i typeArgs) →
      Emits hir (.method i typeArgs m [])
  | genericFn {i : ℕ} {typeArgs : List Ty} : Requested hir (.fn i typeArgs) →
      Emits hir (.fn i typeArgs)
  | genericMethod {i m : ℕ} {ownerArgs typeArgs : List Ty} :
      Requested hir (.method i ownerArgs m typeArgs) →
        Emits hir (.method i ownerArgs m typeArgs)

/-! ## What the names record -/

/-- The label of a function for type arguments. -/
def HirFn.labelFor (f : HirFn) (typeArgs : List Ty) : Label :=
  match f.label with
  | .function name args => .function name (args ++ typeArgs)
  | .overload name e params ret =>
    if typeArgs = [] then .overload name e params ret
    else
      let subst := makeSubst f.generics typeArgs
      .overload name e (f.params.map (substTy subst)) (substTy subst f.ret)
  | .method owner ownerArgs name args => .method owner ownerArgs name (args ++ typeArgs)

namespace Entity

def typeArgs : Entity → List Ty
  | fn _ ts | cls _ ts | method _ _ _ ts => ts

/-- The label of what is not in the module. -/
def unknown : Label := .function ⟨"", by decide, by decide⟩ []

/-- What the naming scheme records of an entity. -/
def label (hir : HirModule) : Entity → Label
  | fn i ts => (functionAt hir i).elim unknown (·.labelFor ts)
  | cls i ts => (classAt hir i).elim unknown fun c => .function c.name ts
  | method i ownerArgs m ts =>
    (methodAt hir i m).elim unknown fun (c, d) => .method c.name ownerArgs d.name ts

/-- The label of the item that an entity is a copy of. -/
def generic (hir : HirModule) : Entity → Label
  | fn i _ => (functionAt hir i).elim unknown (·.label)
  | cls i _ => label hir (cls i [])
  | method i ownerArgs m _ => label hir (method i ownerArgs m [])

/-- Two specialisations that the pass takes for one: of items of one label, at type arguments
that differ in the names of type parameters at most. -/
def SameRequest (hir : HirModule) (e e' : Entity) : Prop :=
  (e.generic hir).erase = (e'.generic hir).erase ∧
    e.typeArgs.map Ty.erase = e'.typeArgs.map Ty.erase

/-- Two functions that the naming scheme does not tell apart: overloads of one signature,
methods of one name in one class, or functions of one name of which neither counts as an
overload. -/
def Clash (hir : HirModule) (e e' : Entity) : Prop := (e.label hir).erase = (e'.label hir).erase

end Entity

/-! ## The specification -/

/-- Distinct functions have distinct labels, distinct class specialisations have distinct names,
and every request is answered with the label of what it asked for. -/
structure NamesDistinct (st : State) : Prop where
  functions : ∀ e l e' l', (e, l) ∈ functions st.output → (e', l') ∈ functions st.output →
    e ≠ e' → l ≠ l'
  classes : ∀ i ts n i' ts' n', ts ≠ [] → ts' ≠ [] → (.cls i ts, n) ∈ classes st.output →
    (.cls i' ts', n') ∈ classes st.output → (i, ts) ≠ (i', ts') → n ≠ n'
  answers : ∀ e a, .asked e a ∈ st.trace →
    (e, a) ∈ Mono.functions st.output ∨ (e, a) ∈ Mono.classes st.output

/-- A non-generic class with the name of class `k`. -/
def Stands (hir : HirModule) (k j : ℕ) : Prop :=
  ∃ c d, classAt hir k = some c ∧ classAt hir j = some d ∧ d.name = c.name ∧ d.generics = []

/-- When the names are right. -/
structure NamesResolvable (hir : HirModule) : Prop where
  /-- The pass takes no two requests for one. -/
  requestsApart : ∀ e e', Requested hir e → Requested hir e' → e.SameRequest hir e' → e = e'
  /-- A method that is requested of a class without type arguments finds the class … -/
  ownerStands : ∀ k m ts, Requested hir (.method k [] m ts) → ∃ j, Stands hir k j
  /-- … and finds it copied when it is requested while the items are. -/
  ownerFirst : ∀ i k m ts, Early hir i (.method k [] m ts) → ∃ j < i, Stands hir k j
  /-- The naming scheme tells apart the functions that the module calls for. -/
  noClash : ∀ e e', Emits hir e → Emits hir e' → e.Clash hir e' → e = e'

end Loxis.Mono
