import Loxis.Mono.Names

/-! # The monomorphiser

Every generic function, class and method gets a copy for each list of type arguments it is used
with. The bodies are kept as far as the pass reads them: as the uses of generic items in them,
in the order in which the scan meets these.
-/

namespace Loxis.Mono

/-- A use of an item that may be generic. -/
inductive Site
  | call (fnName : String) (typeArgs : List Ty)
  | construct (className : Ident) (typeArgs : List Ty)
  | methodCall (recvTy : Ty) (method : Ident) (typeArgs : List Ty)

def Site.subst (subst : SubstMap) : Site → Site
  | call fnName typeArgs => call fnName (substEach subst typeArgs)
  | construct className typeArgs => construct className (substEach subst typeArgs)
  | methodCall recvTy method typeArgs =>
    methodCall (substTy subst recvTy) method (substEach subst typeArgs)

/-- A function item. Its name is the text of its label. -/
structure HirFn where
  label : Label
  generics : List String
  params : List Ty
  ret : Ty
  body : List Site

structure HirMethod where
  name : Ident
  generics : List String
  body : List Site

structure HirClass where
  name : Ident
  generics : List String
  /-- Field initialisers and init blocks. -/
  inits : List Site
  methods : List HirMethod

inductive HirItem
  | fn (f : HirFn)
  | cls (c : HirClass)

abbrev HirModule := List HirItem

/-! ## Declarations and their labels -/

inductive SymbolKind | type | interface | value
  deriving DecidableEq

structure FunDecl where
  name : Ident
  isExtension : Bool
  generics : List String
  /-- The receiver of an extension comes first. -/
  params : List Ty
  ret : Ty
  body : List Site

/-- A top-level declaration. -/
inductive Decl
  | function (f : FunDecl)
  | cls (c : HirClass)
  | object (c : HirClass)
  | enum (c : HirClass) (variants : List Ident)
  /-- An interface with its default methods. -/
  | iface (name : Ident) (defaults : List (Ident × List Site))
  | value (name : Ident)
  | typeAlias (name : Ident)

/-- The symbols that `declareItem` declares. -/
def Decl.symbols : Decl → List (Ident × SymbolKind)
  | function f => [(f.name, .value)]
  | cls c => [(c.name, .type)]
  | object c => [(c.name, .value)]
  | enum c variants => (c.name, .type) :: variants.map (·, .value)
  | iface name _ => [(name, .interface)]
  | value name => [(name, .value)]
  | typeAlias name => [(name, .type)]

structure Symbol where
  kind : SymbolKind
  overloads : ℕ

/-- A second value of a name is an overload; any other symbol replaces the one before. -/
def Symbol.declare (kind : SymbolKind) : Option Symbol → Symbol
  | some ⟨.value, n⟩ => if kind = .value then ⟨.value, if n = 0 then 2 else n + 1⟩ else ⟨kind, 0⟩
  | _ => ⟨kind, 0⟩

def lookup (decls : List Decl) (name : Ident) : Option Symbol :=
  ((decls.flatMap Decl.symbols).filter (·.1 = name)).foldl
    (fun sym d => some (Symbol.declare d.2 sym)) none

def overloaded (decls : List Decl) (name : Ident) : Bool :=
  (lookup decls name).any (·.overloads ≠ 0)

/-- The name that the checker gives an overload, or the declared one. -/
def FunDecl.label (decls : List Decl) (f : FunDecl) : Label :=
  if overloaded decls f.name then .overload f.name f.isExtension f.params f.ret
  else .function f.name []

def FunDecl.build (decls : List Decl) (f : FunDecl) : HirFn :=
  ⟨f.label decls, f.generics, f.params, f.ret, f.body⟩

def buildInterfaceMethod (iface : Ident) (method : Ident × List Site) : HirFn :=
  ⟨.method iface [] method.1 [], [], [.int], .unit, method.2⟩

/-- The module's items, and after them the functions that were generated on the way. -/
def build (decls : List Decl) : HirModule :=
  decls.filterMap (fun
    | .function f => some (.fn (f.build decls))
    | .cls c | .object c | .enum c _ => some (.cls c)
    | _ => none) ++
  decls.flatMap (fun
    | .iface name defaults => defaults.map fun m => .fn (buildInterfaceMethod name m)
    | _ => [])

/-! ## Tables -/

/-- The last function of the name. -/
def fnByName (hir : HirModule) (name : String) : Option (ℕ × HirFn) :=
  hir.zipIdx.reverse.findSome? fun
    | (.fn f, i) => if f.label.text = name then some (i, f) else none
    | _ => none

/-- The last class of the name. -/
def classByName (hir : HirModule) (name : Ident) : Option (ℕ × HirClass) :=
  hir.zipIdx.reverse.findSome? fun
    | (.cls c, i) => if c.name = name then some (i, c) else none
    | _ => none

/-- The first generic method of the name. -/
def genericMethod (owner : HirClass) (name : Ident) : Option (ℕ × HirMethod) :=
  owner.methods.zipIdx.findSome? fun (m, i) =>
    if m.name = name ∧ m.generics ≠ [] then some (i, m) else none

/-! ## Specialisations -/

/-- What a specialisation is a copy of, and for which type arguments. Without type arguments it
is the item itself. -/
inductive Entity
  | fn (i : ℕ) (typeArgs : List Ty)
  | cls (i : ℕ) (typeArgs : List Ty)
  | method (i : ℕ) (ownerArgs : List Ty) (m : ℕ) (typeArgs : List Ty)

structure SpecKey where
  defName : String
  typeSig : String
  deriving DecidableEq

/-- An entry of the specialisation map. The entity is not in the code: it says for which
specialisation the entry was made. -/
structure Spec where
  key : SpecKey
  name : String
  entity : Entity

/-- An emitted function, with the entity that it is the body of. -/
structure OutFn where
  entity : Entity
  name : String
  body : List Site

inductive Item
  | fn (f : OutFn)
  | cls (entity : Entity) (name : String) (inits : List Site) (methods : List OutFn)

/-- What happened: an item was copied to the output, a specialisation was requested and answered
with a name. -/
inductive Event
  | copied (i : ℕ)
  | asked (entity : Entity) (answer : String)

structure State where
  specMap : List Spec
  worklist : List SpecKey
  output : List Item
  trace : List Event

namespace State

def find (st : State) (key : SpecKey) : Option Spec := st.specMap.find? (·.key = key)

def log (st : State) (e : Event) : State := { st with trace := st.trace ++ [e] }

def define (st : State) (s : Spec) : State := { st with specMap := s :: st.specMap }

def push (st : State) (item : Item) : State := { st with output := st.output ++ [item] }

def schedule (st : State) (key : SpecKey) : State := { st with worklist := key :: st.worklist }

end State

/-- The characters before the first `$P`. -/
def beforeDescriptor : List Char → Option (List Char)
  | [] => none
  | '$' :: 'P' :: _ => some []
  | c :: cs => (beforeDescriptor cs).map (c :: ·)

/-- The name of a function's copy, which has the descriptor of its own signature when the
function has one. -/
def specializedName (f : HirFn) (typeArgs : List Ty) : String :=
  match beforeDescriptor f.label.text.toList with
  | some base =>
    let subst := makeSubst f.generics typeArgs
    mangleFunctionSignature (String.ofList base) (f.params.map (substTy subst))
      (substTy subst f.ret)
  | none => mangle f.label.text typeArgs

def monoFn (i : ℕ) (f : HirFn) (typeArgs : List Ty) (st : State) : State :=
  let key : SpecKey := ⟨f.label.text, typeSigVec typeArgs⟩
  match st.find key with
  | some s => st.log (.asked (.fn i typeArgs) s.name)
  | none =>
    let name := specializedName f typeArgs
    let body := f.body.map (Site.subst (makeSubst f.generics typeArgs))
    (((st.log (.asked (.fn i typeArgs) name)).define ⟨key, name, .fn i typeArgs⟩).schedule
      key).push (.fn ⟨.fn i typeArgs, name, body⟩)

/-- The methods that are compiled with their class. The generic ones wait for type arguments. -/
def plainMethods (c : HirClass) : List (ℕ × HirMethod) :=
  c.methods.zipIdx.filterMap fun (m, i) => if m.generics = [] then some (i, m) else none

/-- A class with its fields and non-generic methods at the given type arguments. -/
def copyClass (i : ℕ) (c : HirClass) (typeArgs : List Ty) (name : String) : Item :=
  let subst := makeSubst c.generics typeArgs
  .cls (.cls i typeArgs) name (c.inits.map (Site.subst subst))
    ((plainMethods c).map fun (m, method) =>
      ⟨.method i typeArgs m [], method.name.text, method.body.map (Site.subst subst)⟩)

def monoClass (i : ℕ) (c : HirClass) (typeArgs : List Ty) (st : State) : String × State :=
  let key : SpecKey := ⟨c.name.text, typeSigVec typeArgs⟩
  match st.find key with
  | some s => (s.name, st.log (.asked (.cls i typeArgs) s.name))
  | none =>
    let name := mangle c.name.text typeArgs
    (name, (((st.log (.asked (.cls i typeArgs) name)).define
      ⟨key, name, .cls i typeArgs⟩).schedule key).push (copyClass i c typeArgs name))

/-- Adds a method to the first class of the name. Without one the method is dropped. -/
def attach (owner : String) (f : OutFn) : List Item → List Item
  | [] => []
  | .cls entity name inits methods :: items =>
    if name = owner then .cls entity name inits (methods ++ [f]) :: items
    else .cls entity name inits methods :: attach owner f items
  | .fn g :: items => .fn g :: attach owner f items

section Scan

variable (hir : HirModule) (scan : List Site → State → Option State)

/-- The body is scanned before the method is added to its class. -/
def monoMethod (i : ℕ) (owner : HirClass) (specializedOwner : String) (classArgs : List Ty)
    (m : ℕ) (method : HirMethod) (typeArgs : List Ty) (st : State) : Option State :=
  let key : SpecKey := ⟨specializedOwner ++ "." ++ method.name.text, typeSigVec typeArgs⟩
  let entity := Entity.method i classArgs m typeArgs
  match st.find key with
  | some s => some (st.log (.asked entity (specializedOwner ++ "." ++ s.name)))
  | none =>
    let name := mangle method.name.text typeArgs
    let body :=
      if owner.generics = [] then method.body
      else method.body.map (Site.subst (makeSubst owner.generics classArgs))
    let body := body.map (Site.subst (makeSubst method.generics typeArgs))
    (scan body ((st.log (.asked entity (specializedOwner ++ "." ++ name))).define
      ⟨key, name, entity⟩)).map fun st =>
        { st with output := attach specializedOwner ⟨entity, name, body⟩ st.output }

/-- The method of a call, after its owner. -/
def scanMethod (i : ℕ) (owner : HirClass) (specializedOwner : String) (classArgs : List Ty)
    (name : Ident) (typeArgs : List Ty) (st : State) : Option State :=
  match genericMethod owner name with
  | some (m, method) =>
    if typeArgs ≠ [] then monoMethod scan i owner specializedOwner classArgs m method typeArgs st
    else some st
  | none => some st

def scanSite (st : State) : Site → Option State
  | .call fnName typeArgs =>
    match fnByName hir fnName with
    | some (i, f) =>
      if typeArgs ≠ [] ∧ f.generics ≠ [] then some (monoFn i f typeArgs st) else some st
    | none => some st
  | .construct className typeArgs =>
    match classByName hir className with
    | some (i, c) =>
      if typeArgs ≠ [] ∧ c.generics ≠ [] then some (monoClass i c typeArgs st).2 else some st
    | none => some st
  | .methodCall recvTy name typeArgs =>
    match recvTy.receiver with
    | some (className, classArgs) =>
      match classByName hir className with
      | some (i, owner) =>
        if classArgs ≠ [] ∧ owner.generics ≠ [] then
          let (specializedOwner, st) := monoClass i owner classArgs st
          scanMethod scan i owner specializedOwner classArgs name typeArgs st
        else scanMethod scan i owner owner.name.text [] name typeArgs st
      | none => some st
    | none => some st

end Scan

/-- Scans a body. The fuel bounds how deep the bodies of methods are nested that are scanned for
one another. -/
def scanSites (hir : HirModule) : ℕ → List Site → State → Option State
  | 0, _, _ => none
  | fuel + 1, sites, st => sites.foldlM (scanSite hir (scanSites hir fuel)) st

/-- Copies a non-generic item, whose bodies are scanned before it reaches the output. -/
def copyItem (hir : HirModule) (fuel : ℕ) (st : State) : HirItem × ℕ → Option State
  | (.fn f, i) =>
    if f.generics = [] then
      let body := f.body.map (Site.subst [])
      (scanSites hir fuel body st).map fun st =>
        (st.log (.copied i)).push (.fn ⟨.fn i [], f.label.text, body⟩)
    else some st
  | (.cls c, i) =>
    if c.generics = [] then
      let sites := c.inits ++ (plainMethods c).flatMap (·.2.body)
      (scanSites hir fuel (sites.map (Site.subst [])) st).map fun st =>
        (st.log (.copied i)).push (copyClass i c [] c.name.text)
    else some st

/-- The bodies of an item, if it has the name. -/
def Item.sitesOf (name : String) : Item → List Site
  | .fn f => if f.name = name then f.body else []
  | .cls _ clsName inits methods =>
    if clsName = name then inits ++ methods.flatMap (·.body) else []

/-- Scans the items of a name among those that are there when the scan begins. -/
def scanNamed (hir : HirModule) (fuel : ℕ) (name : String) (st : State) : Option State :=
  (List.range st.output.length).foldlM
    (fun st index => scanSites hir fuel ((st.output[index]?).elim [] (Item.sitesOf name)) st) st

/-- Scans new specialisations until none is left. -/
def drain (hir : HirModule) : ℕ → State → Option State
  | 0, _ => none
  | fuel + 1, st =>
    match st.worklist with
    | [] => some st
    | key :: keys =>
      let name := ((st.find key).map Spec.name).getD ""
      (scanNamed hir fuel name { st with worklist := keys }).bind (drain hir fuel)

/-- The whole pass. Without enough fuel there is no result. -/
def monomorphize (hir : HirModule) (fuel : ℕ) : Option State :=
  (hir.zipIdx.foldlM (copyItem hir fuel) ⟨[], [], [], []⟩).bind (drain hir fuel)

end Loxis.Mono
