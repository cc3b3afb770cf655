import Mathlib.Algebra.GroupWithZero.Nat
import Mathlib.Data.List.Basic
import Mathlib.Data.Nat.Notation
import Mathlib.Logic.Function.Basic
import Mathlib.Tactic.Common

/-! # Resolving classes and interfaces

The scope builder first declares every top-level name and then resolves the items in their
order. A class copies the fields, methods and vtable that its superclass has at that moment, and
adds its own.
-/

namespace Loxis.Classes

/-! ## Declarations -/

structure PropertyDecl where
  name : String
  isVal : Bool
  isVar : Bool

structure FieldDecl where
  name : String
  isVal : Bool

structure MethodDecl where
  name : String
  arity : ℕ
  isOpen : Bool
  isAbstract : Bool
  isOverride : Bool

structure ClassDecl where
  name : String
  superName : Option String
  interfaces : List String
  primaryCtor : List PropertyDecl
  fields : List FieldDecl
  methods : List MethodDecl

structure InterfaceMethodDecl where
  name : String
  arity : ℕ
  hasDefault : Bool

structure InterfaceDecl where
  name : String
  supers : List String
  methods : List InterfaceMethodDecl

inductive Item
  | cls (decl : ClassDecl)
  | iface (decl : InterfaceDecl)

def Item.name : Item → String
  | cls decl => decl.name
  | iface decl => decl.name

/-! ## Definitions -/

structure FieldInfo where
  name : String
  offset : ℕ
  isVal : Bool
  /-- The type is known. It is resolved during type checking. -/
  typed : Bool

structure MethodInfo where
  name : String
  arity : ℕ
  isOpen : Bool
  isAbstract : Bool
  isOverride : Bool
  isInterfaceDefault : Bool
  defaultIfaceName : String
  /-- The number of parameters of the method's type, with the receiver, when it is known. -/
  funcParams : Option ℕ
  vtableIndex : Option ℕ

structure ItableEntry where
  interfaceName : String
  slotMap : List ℕ

structure ClassDef where
  superName : Option String
  /-- The class that the superclass's name was resolved to. -/
  superDef : Option String
  interfaceNames : List String
  fields : List FieldInfo
  methods : List MethodInfo
  /-- Indices of `methods`. -/
  vtable : List ℕ
  itables : List ItableEntry
  totalFieldSize : ℕ

structure InterfaceDef where
  methods : List MethodInfo

inductive Symbol
  | cls (d : ClassDef)
  | iface (d : InterfaceDef)

abbrev Scope := String → Option Symbol

def Scope.classDef (scope : Scope) (name : String) : Option ClassDef :=
  match scope name with
  | some (.cls d) => some d
  | _ => none

def Scope.interfaceDef (scope : Scope) (name : String) : Option InterfaceDef :=
  match scope name with
  | some (.iface d) => some d
  | _ => none

/-! ## Declaring -/

def ClassDecl.declare (decl : ClassDecl) : ClassDef :=
  ⟨decl.superName, none, decl.interfaces, [], [], [], [], 0⟩

def Item.declare : Item → Symbol
  | cls decl => .cls decl.declare
  | iface _ => .iface ⟨[]⟩

def declareItem (scope : Scope) (item : Item) : Scope :=
  Function.update scope item.name (some item.declare)

/-! ## Inheriting -/

/-- The methods in front of `methods`, from the last to the first. A method is left out when one
of its name that overrides is there already. -/
def prependMethods (superMethods methods : List MethodInfo) : List MethodInfo :=
  superMethods.foldr
    (fun m methods => if methods.any fun om => om.name = m.name ∧ om.isOverride then methods
      else m :: methods) methods

def addInterfaces (names more : List String) : List String :=
  more.foldl (fun names name => if name ∈ names then names else names ++ [name]) names

def inheritFromSuper (scope : Scope) (d : ClassDef) : ClassDef :=
  match d.superName with
  | none => d
  | some superName =>
    match scope.classDef superName with
    | none => d
    | some superDef =>
      { d with
        superDef := some superName
        fields := superDef.fields ++ d.fields
        methods := prependMethods superDef.methods d.methods
        vtable := superDef.vtable ++ d.vtable
        interfaceNames := addInterfaces d.interfaceNames superDef.interfaceNames
        totalFieldSize := superDef.totalFieldSize }

/-! ## Own members -/

/-- The size of a field slot. -/
def slotSize : ℕ := 9

/-- Offsets are 32-bit numbers. -/
def addField (d : ClassDef) (f : FieldDecl) : ClassDef :=
  { d with
    fields := d.fields ++ [⟨f.name, d.totalFieldSize, f.isVal, false⟩]
    totalFieldSize := (d.totalFieldSize + slotSize) % 2 ^ 32 }

/-- The fields that a class declares: the properties among the constructor's parameters, then
those of the body. -/
def ClassDecl.ownFields (decl : ClassDecl) : List FieldDecl :=
  (decl.primaryCtor.filter fun p => p.isVal || p.isVar).map (fun p => ⟨p.name, p.isVal⟩) ++
    decl.fields

def MethodDecl.info (m : MethodDecl) : MethodInfo :=
  ⟨m.name, m.arity, m.isOpen, m.isAbstract, m.isOverride, false, "", none, none⟩

/-- Replaces the first method of the signature, whose slot is kept. -/
def replaceMethod (mi : MethodInfo) : List MethodInfo → List MethodInfo × Option ℕ
  | [] => ([], none)
  | m :: methods =>
    if m.name = mi.name ∧ m.arity = mi.arity then
      ({ mi with vtableIndex := m.vtableIndex } :: methods, m.vtableIndex)
    else
      let (methods, slot) := replaceMethod mi methods
      (m :: methods, slot)

/-- A method that takes over a slot replaces the one that had it. Any other is added, also when
it replaced one without a slot. -/
def addMethod (methods : List MethodInfo) (m : MethodDecl) : List MethodInfo :=
  let (methods, slot) := if m.isOverride then replaceMethod m.info methods else (methods, none)
  if slot = none then methods ++ [m.info] else methods

/-- Gives every virtual method without a slot the next one. -/
def assignSlots : List MethodInfo → ℕ → List ℕ → List MethodInfo × List ℕ
  | [], _, vtable => ([], vtable)
  | m :: methods, i, vtable =>
    let takes := (m.isOpen || m.isAbstract || m.isOverride) && m.vtableIndex.isNone
    let (methods, vtable') := assignSlots methods (i + 1) (if takes then vtable ++ [i] else vtable)
    ((if takes then { m with vtableIndex := some vtable.length } else m) :: methods, vtable')

def buildVTable (d : ClassDef) : ClassDef :=
  let (methods, vtable) := assignSlots d.methods 0 d.vtable
  { d with methods := methods, vtable := vtable }

/-! ## Interfaces -/

/-- The first method of the name, unless both methods' types are known and differ in the number
of parameters. -/
def implementing (methods : List MethodInfo) (im : MethodInfo) : Option (MethodInfo × ℕ) :=
  methods.zipIdx.find? fun (cm, _) =>
    cm.name = im.name ∧ ¬ (im.funcParams.isSome ∧ cm.funcParams.isSome ∧
      im.funcParams ≠ cm.funcParams)

def injectDefault (iname : String) (im : MethodInfo) (d : ClassDef) : ClassDef :=
  { d with
    vtable := d.vtable ++ [d.methods.length]
    methods := d.methods ++
      [⟨im.name, 0, true, false, false, true, iname, im.funcParams, some d.vtable.length⟩] }

/-- The slots of an interface's methods in a class. A default is added for a method that the
class does not have; without one there is no interface table. -/
def implementMethods (iname : String) : List MethodInfo → ClassDef → List ℕ →
    ClassDef × Option (List ℕ)
  | [], d, slots => (d, some slots)
  | im :: ims, d, slots =>
    match implementing d.methods im with
    | some (cm, i) => implementMethods iname ims d (slots ++ [cm.vtableIndex.getD i])
    | none =>
      if im.isAbstract then (d, none)
      else implementMethods iname ims (injectDefault iname im d) (slots ++ [d.vtable.length])

/-- The first interface that a class does not implement ends the check. -/
def checkInterfaceConformance (scope : Scope) : List String → ClassDef → ClassDef
  | [], d => d
  | iname :: inames, d =>
    match scope.interfaceDef iname with
    | none => checkInterfaceConformance scope inames d
    | some ifaceDef =>
      match implementMethods iname ifaceDef.methods d [] with
      | (d, none) => d
      | (d, some slots) =>
        checkInterfaceConformance scope inames { d with itables := d.itables ++ [⟨iname, slots⟩] }

/-! ## Resolving -/

/-- The definition of a class after it is resolved. -/
def resolveDef (scope : Scope) (decl : ClassDecl) (d : ClassDef) : ClassDef :=
  let d := inheritFromSuper scope d
  let d := decl.ownFields.foldl addField d
  let d := { d with methods := decl.methods.foldl addMethod d.methods }
  let d := buildVTable d
  checkInterfaceConformance scope d.interfaceNames d

def resolveClass (scope : Scope) (decl : ClassDecl) : Scope :=
  match scope.classDef decl.name with
  | some d => Function.update scope decl.name (some (.cls (resolveDef scope decl d)))
  | none => scope

def InterfaceMethodDecl.info (m : InterfaceMethodDecl) : MethodInfo :=
  ⟨m.name, m.arity, false, !m.hasDefault, false, false, "", some (m.arity + 1), none⟩

/-- The methods of the superinterfaces, as far as they are resolved, come first. -/
def resolveInterface (scope : Scope) (decl : InterfaceDecl) : Scope :=
  match scope.interfaceDef decl.name with
  | some d =>
    let inherited := decl.supers.flatMap fun s =>
      ((scope.interfaceDef s).map InterfaceDef.methods).getD []
    Function.update scope decl.name
      (some (.iface ⟨d.methods ++ inherited ++ decl.methods.map InterfaceMethodDecl.info⟩))
  | none => scope

def resolveItem (scope : Scope) : Item → Scope
  | .cls decl => resolveClass scope decl
  | .iface decl => resolveInterface scope decl

/-- Declares all items, then resolves them in their order. -/
def build (items : List Item) : Scope :=
  items.foldl resolveItem (items.foldl declareItem fun _ => none)

/-! ## Field access -/

/-- Types the first field of the name. -/
def typeField (name : String) : List FieldInfo → List FieldInfo
  | [] => []
  | f :: fields =>
    if f.name = name then { f with typed := true } :: fields else f :: typeField name fields

/-- The checker comes to the field `name` that a class declares. -/
def checkField (scope : Scope) (cls name : String) : Scope :=
  match scope.classDef cls with
  | some d => Function.update scope cls (some (.cls { d with fields := typeField name d.fields }))
  | none => scope

/-- The fields in the order in which the checker comes to them. -/
def declaredFields (items : List Item) : List (String × String) :=
  items.flatMap fun
    | .cls decl => decl.ownFields.map fun f => (decl.name, f.name)
    | .iface _ => []

/-- The scope when the first `n` fields are checked. -/
def checkedScope (items : List Item) (n : ℕ) : Scope :=
  ((declaredFields items).take n).foldl (fun scope (cls, name) => checkField scope cls name)
    (build items)

/-- The first typed field of the name in the class, or else in its superclass and so on. The
fuel bounds the length of the chain; without it there is no result. -/
def lookupField (scope : Scope) (name : String) : ℕ → String → Option (Option FieldInfo)
  | 0, _ => none
  | fuel + 1, cls =>
    match scope.classDef cls with
    | none => some none
    | some d =>
      match d.fields.find? fun f => f.name = name ∧ f.typed with
      | some f => some (some f)
      | none =>
        match d.superDef with
        | some superName => lookupField scope name fuel superName
        | none => some none

end Loxis.Classes
