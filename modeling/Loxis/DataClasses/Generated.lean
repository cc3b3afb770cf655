import Loxis.Backend.MIRCompiler

/-! # Data classes

The parser writes the members of a data class as syntax. They refer to the properties by name,
and to their parameters by fixed names.
-/

namespace Loxis.DataClasses

open Backend (Value)

/-! ## Syntax -/

inductive Lit
  | bool (b : Bool)
  | int (n : ℕ)
  | str (s : String)

inductive Expr
  | lit (l : Lit)
  | path (name : String)
  | field (obj : Expr) (name : String)
  | call (callee : String) (args : List Expr)
  | eq (l r : Expr)
  | add (l r : Expr)
  | mul (l r : Expr)
  | ite (cond then_ else_ : Expr)

/-! ## Classes -/

/-- The types that a property may have. -/
inductive Kind
  | int | str | bool | char | double
  deriving DecidableEq, Repr

def Kind.name : Kind → String
  | .int => "int"
  | .str => "str"
  | .bool => "bool"
  | .char => "char"
  | .double => "double"

/-- The names of the built-in types that the parser looks for. -/
def builtinTypes : List String := ["int", "str", "bool", "char", "float", "double"]

/-- A constructor parameter that is a field. Its type may be written by another name of it. -/
structure Property where
  name : String
  kind : Kind
  written : Option String
  fresh : ∀ a ∈ written, a ∉ builtinTypes

def Property.typeName (p : Property) : String := p.written.getD p.kind.name

inductive ParamDecl
  | property (p : Property)
  | plain (name : String)

def ParamDecl.name : ParamDecl → String
  | .property p => p.name
  | .plain n => n

def ParamDecl.property? : ParamDecl → Option Property
  | .property p => some p
  | .plain _ => none

/-- The members that the parser adds. -/
inductive MemberId
  | component (k : ℕ)
  | copy | equals | operatorEq | hashCode | toString
  deriving DecidableEq

def MemberId.name : MemberId → String
  | .component k => "component" ++ ToString.toString (k + 1)
  | .copy => "copy"
  | .equals => "equals"
  | .operatorEq => "operator=="
  | .hashCode => "hashCode"
  | .toString => "toString"

/-- The members for `n` properties, in order. -/
def memberIds (n : ℕ) : List MemberId :=
  (List.range n).map .component ++ [.copy, .equals, .operatorEq, .hashCode, .toString]

/-- A data class without user-written replacements of its members. The code that the user writes
for the constructor sees the fields by name. Properties of one name have one type, and are not
declared as fields again. Parameters are counted in 32 bits. -/
structure DataClass where
  name : String
  typeId : ℕ
  generics : List String
  primaryCtor : List ParamDecl
  inherited : List String
  fields : List String
  methods : List String
  superArgs : List Value → List Value
  init : (String → Value) → Option (String → Value)
  typed : typeId ≠ 0
  small : primaryCtor.length + 2 < 2 ^ 32
  apart : ∀ p ∈ primaryCtor.filterMap ParamDecl.property?, p.name ∉ fields
  oneKind : ∀ p ∈ primaryCtor.filterMap ParamDecl.property?,
    ∀ q ∈ primaryCtor.filterMap ParamDecl.property?, p.name = q.name → p.kind = q.kind
  own : ∀ id ∈ memberIds (primaryCtor.filterMap ParamDecl.property?).length, id.name ∉ methods

namespace DataClass

variable (c : DataClass)

def properties : List Property := c.primaryCtor.filterMap ParamDecl.property?

/-- The fields of an object, one slot each. -/
def fieldNames : List String := c.inherited ++ c.properties.map Property.name ++ c.fields

/-- The slot of the first field of a name. -/
def slot (n : String) : ℕ := c.fieldNames.idxOf n

/-- The slot of the last field of a name, where the constructor stores. -/
def storeSlot (n : String) : ℕ := c.fieldNames.length - 1 - c.fieldNames.reverse.idxOf n

end DataClass

/-! ## Members -/

structure Member where
  id : MemberId
  params : List (String × String)
  ret : String
  body : Expr

def equalsBody (properties : List Property) : Expr :=
  properties.foldr (fun p result =>
    .ite (.eq (.path p.name) (.field (.path "other") p.name)) result (.lit (.bool false)))
    (.lit (.bool true))

/-- The number for a property in a hash code. -/
def hashValue (p : Property) : Expr :=
  let value := Expr.path p.name
  if p.typeName = "str" then .call "strlen" [value]
  else if p.typeName = "char" then .call "strchar" [.call "chr" [value], .lit (.int 0)]
  else if p.typeName = "bool" then .ite value (.lit (.int 1)) (.lit (.int 0))
  else if p.typeName = "float" ∨ p.typeName = "double" then .call "ftoi" [value]
  else value

def hashBody (properties : List Property) : Expr :=
  properties.foldl (fun hash p => .add (.mul hash (.lit (.int 31))) (hashValue p)) (.lit (.int 1))

def textValue (p : Property) : Expr :=
  let value := Expr.path p.name
  if p.typeName = "bool" then .ite value (.lit (.str "true")) (.lit (.str "false"))
  else if p.typeName = "char" then .call "chr" [value]
  else if p.typeName = "float" ∨ p.typeName = "double" then .call "nativeDoubleString" [value]
  else if p.typeName ≠ "str" then .call "i2s" [value]
  else value

def textBody (name : String) (properties : List Property) : Expr :=
  .add (properties.zipIdx.foldl (fun text p =>
    .add (.add text (.lit (.str ((if p.2 = 0 then "" else ", ") ++ p.1.name ++ "="))))
      (textValue p.1)) (.lit (.str (name ++ "(")))) (.lit (.str ")"))

namespace DataClass

variable (c : DataClass)

def component (k : ℕ) (p : Property) : Member :=
  ⟨.component k, [], p.typeName, .path p.name⟩

def copy : Member :=
  ⟨.copy, c.properties.map fun p => (p.name, p.typeName), c.name,
    .call c.name (c.properties.map fun p => .path p.name)⟩

def equals : Member := ⟨.equals, [("other", c.name)], "bool", equalsBody c.properties⟩

def operatorEq : Member := ⟨.operatorEq, [("other", c.name)], "bool", equalsBody c.properties⟩

def hashCode : Member := ⟨.hashCode, [], "int", hashBody c.properties⟩

def toString : Member := ⟨.toString, [], "str", textBody c.name c.properties⟩

/-- The generated members, in order. -/
def members : List Member :=
  (c.properties.zipIdx.map fun p => component p.2 p.1) ++
    [c.copy, c.equals, c.operatorEq, c.hashCode, c.toString]

end DataClass

end Loxis.DataClasses
