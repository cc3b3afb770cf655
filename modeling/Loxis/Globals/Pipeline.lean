import Mathlib.Logic.Function.Basic
import Loxis.Bytecode.Encode
import Loxis.Mono.Monomorphizer

/-! # Globals through the passes

Top-level variables and singleton objects from their declarations to the startup code: the slots
that the scope gives them, the functions that initialise them and where each pass puts these. Code
is a parameter. Of it only the closures in it and the number of its blocks are known.
-/

namespace Loxis.Globals

open Function
open Mono (Ident Label SymbolKind)

/-- A method. The name of a constructor is a keyword. -/
structure Method (E : Type) where
  name : String
  body : E
  ne_init : name ≠ "init"

/-- The signature of an overload: whether it is an extension, its parameters and its result. -/
abbrev Signature := Bool × List Mono.Ty × Mono.Ty

/-- The label of a function, which may be an overload. -/
def functionLabel (name : Ident) : Option Signature → Label
  | none => .function name []
  | some (isExtension, params, ret) => .overload name isExtension params ret

/-- The declarations of the combined module. A class, an enum or an object has the code of its
constructor. -/
inductive Decl (E : Type)
  | function (name : Ident) (overload : Option Signature) (generic : Bool) (body : E)
  | cls (name : Ident) (generic : Bool) (ctor : E) (methods : List (Method E))
  | enum (name : Ident) (generic : Bool) (variants : List Ident) (ctor : E)
      (methods : List (Method E))
  | object (name : Ident) (ctor : E) (methods : List (Method E))
  | iface (name : Ident) (generic : Bool) (defaults : List (Method E))
  | val (name : Ident) (init : Option E)
  | var (name : Ident) (init : Option E)
  | const (name : Ident) (init : Option E)
  | typeAlias (name : Ident)

variable {E : Type}

section Scope

structure Symbol where
  kind : SymbolKind
  isClass : Bool
  globalSlot : Option ℕ

/-- A second value of a name is an overload and has the type of the last one; any other symbol
replaces the one before. -/
def Symbol.declare (kind : SymbolKind) (isClass : Bool) : Option Symbol → Symbol
  | some s =>
    if s.kind = .value ∧ kind = .value then { s with isClass := isClass } else ⟨kind, isClass, none⟩
  | none => ⟨kind, isClass, none⟩

/-- The builtin names, which a declaration replaces, are left out. -/
structure ScopeBuilder where
  symbols : Ident → Option Symbol
  nextGlobalSlot : ℕ

namespace ScopeBuilder

def declare (b : ScopeBuilder) (kind : SymbolKind) (isClass : Bool) (name : Ident) :
    ScopeBuilder :=
  { b with symbols := update b.symbols name (some (Symbol.declare kind isClass (b.symbols name))) }

def giveSlot (b : ScopeBuilder) (name : Ident) : ScopeBuilder where
  symbols := update b.symbols name
    ((b.symbols name).map fun s => { s with globalSlot := some b.nextGlobalSlot })
  nextGlobalSlot := b.nextGlobalSlot + 1

def globalSlot (b : ScopeBuilder) (name : Ident) : Option ℕ :=
  (b.symbols name).bind Symbol.globalSlot

end ScopeBuilder

/-- Declare a name, and the variants of an enum. -/
def declareItem (b : ScopeBuilder) : Decl E → ScopeBuilder
  | .function name _ _ _ | .val name _ | .const name _ => b.declare .value false name
  | .cls name _ _ _ => b.declare .type true name
  | .enum name _ variants _ _ =>
    variants.foldl (fun b v => b.declare .value true v) (b.declare .type true name)
  | .object name _ _ => (b.declare .value true name).giveSlot name
  | .var name _ => (b.declare .value false name).giveSlot name
  | .iface name _ _ => b.declare .interface false name
  | .typeAlias name => b.declare .type false name

/-- The first pass. A variable keeps the slot that its name gets. -/
def declareItems : List (Decl E) → ScopeBuilder → List (Decl E × Option ℕ) × ScopeBuilder
  | [], b => ([], b)
  | d :: ds, b =>
    let b' := declareItem b d
    let slot := match d with
      | .var name _ => b'.globalSlot name
      | _ => none
    let r := declareItems ds b'
    ((d, slot) :: r.1, r.2)

/-- The second pass. An object takes the slot that its name has in the end, if the name then means
an object or a variant. -/
def resolveItem (b : ScopeBuilder) : Decl E × Option ℕ → Decl E × Option ℕ
  | (.object name ctor methods, slot) =>
    (.object name ctor methods, if (b.symbols name).any Symbol.isClass then b.globalSlot name
      else slot)
  | p => p

/-- The declarations with their slots. -/
def buildScope (ds : List (Decl E)) : List (Decl E × Option ℕ) :=
  let r := declareItems ds ⟨fun _ => none, 0⟩
  r.1.map (resolveItem r.2)

end Scope

section Build

structure HirFn (E : Type) where
  name : String
  generic : Bool
  body : E
  globalSlot : Option ℕ

structure HirClass (E : Type) where
  name : String
  generic : Bool
  ctor : E
  methods : List (Method E)
  isSingleton : Bool
  globalSlot : Option ℕ

inductive HirItem (E : Type)
  | fn (f : HirFn E)
  | cls (c : HirClass E)

/-- The closures in code become functions of their own. -/
structure Lambda (E : Type) where
  number : ℕ
  generic : Bool
  body : E

def Lambda.fn (l : Lambda E) : HirFn E :=
  ⟨"__lambda_" ++ toString l.number, l.generic, l.body, none⟩

variable (lambdas : E → List (Lambda E))

def lift (e : E) : List (HirFn E) := (lambdas e).map Lambda.fn

def liftMethods (ms : List (Method E)) : List (HirFn E) := ms.flatMap fun m => lift lambdas m.body

/-- What a declaration becomes in its place. -/
def buildItem : Decl E × Option ℕ → Option (HirItem E)
  | (.function name overload generic body, _) =>
    some (.fn ⟨(functionLabel name overload).text, generic, body, none⟩)
  | (.cls name generic ctor methods, _) | (.enum name generic _ ctor methods, _) =>
    some (.cls ⟨name.text, generic, ctor, methods, false, none⟩)
  | (.object name ctor methods, slot) => some (.cls ⟨name.text, false, ctor, methods, true, slot⟩)
  | _ => none

/-- A function for the initialiser of a value. -/
def getter (kind : String) (name : Ident) (slot : Option ℕ) : Option E → List (HirFn E)
  | some e => lift lambdas e ++ [⟨kind ++ name.text, false, e, slot⟩]
  | none => []

/-- What a declaration adds to the generated functions. -/
def generate : Decl E × Option ℕ → List (HirFn E)
  | (.function _ _ _ body, _) => lift lambdas body
  | (.cls _ _ ctor methods, _) | (.enum _ _ _ ctor methods, _) | (.object _ ctor methods, _) =>
    lift lambdas ctor ++ liftMethods lambdas methods
  | (.iface name generic defaults, _) => defaults.flatMap fun m =>
    lift lambdas m.body ++ [⟨name.text ++ "." ++ m.name, generic, m.body, none⟩]
  | (.val name init, _) => getter lambdas "__val_" name none init
  | (.var name init, slot) => getter lambdas "__var_" name slot init
  | (.const name init, _) => getter lambdas "__const_" name none init
  | (.typeAlias _, _) => []

/-- The items in their order, and the generated functions behind all of them. -/
def build (ds : List (Decl E × Option ℕ)) : List (HirItem E) :=
  ds.filterMap buildItem ++ (ds.flatMap (generate lambdas)).map .fn

end Build

section Monomorphize

def HirItem.name : HirItem E → String
  | fn f => f.name
  | cls c => c.name

def HirItem.generic : HirItem E → Bool
  | fn f => f.generic
  | cls c => c.generic

/-- A function of a global, or a singleton. -/
def HirItem.globalSlot : HirItem E → Option ℕ
  | fn f => f.globalSlot
  | cls c => if c.isSingleton then c.globalSlot else none

/-- A copy of a generic item. Its type arguments are in its name. -/
structure Specialization (E : Type) where
  item : HirItem E
  noSlot : item.globalSlot = none
  mangled : '$' ∈ item.name.toList

/-- What the pass makes of generic items: the copies that it adds before it copies the item of an
index, and the methods that a class has in the end. -/
structure Copies (E : Type) where
  added : ℕ → List (Specialization E)
  methods : HirClass E → List (Method E)

def HirItem.copy (M : Copies E) : HirItem E → List (HirItem E)
  | fn f => if f.generic then [] else [.fn f]
  | cls c => if c.generic then [] else [.cls { c with methods := M.methods c }]

def copyItems (M : Copies E) : ℕ → List (HirItem E) → List (HirItem E)
  | n, [] => (M.added n).map Specialization.item
  | n, i :: is => (M.added n).map Specialization.item ++ i.copy M ++ copyItems M (n + 1) is

def monomorphize (M : Copies E) (hir : List (HirItem E)) : List (HirItem E) := copyItems M 0 hir

end Monomorphize

section Lower

/-- The bodies of an item with their labels. -/
def HirItem.bodies : HirItem E → List (String × E)
  | fn f => [(f.name, f.body)]
  | cls c => (c.name ++ ".init", c.ctor) :: c.methods.map fun m => (c.name ++ "." ++ m.name, m.body)

/-- The initialiser that an item adds to the startup code. -/
def HirItem.initializer : HirItem E → Option (String × ℕ)
  | fn f => f.globalSlot.map fun slot => (f.name, slot)
  | cls c => if c.isSingleton then c.globalSlot.map fun slot => (c.name ++ ".init", slot) else none

structure LoweringOutput (E : Type) where
  bodies : List (String × E)
  globalInitializers : List (String × ℕ)

def lower (hir : List (HirItem E)) : LoweringOutput E :=
  ⟨hir.flatMap HirItem.bodies, hir.filterMap HirItem.initializer⟩

/-- The labels of a body and of its blocks, with the code and the block that they stand for. The
prologue of a body counts to its first block. -/
def labelsOf (blocks : E → ℕ) (b : String × E) : List (String × E × ℕ) :=
  (b.1, b.2, 0) :: (List.range (blocks b.2)).map fun k => (Backend.blockLabel b.1 k, b.2, k)

/-- What a label stands for in the end. -/
def getLabel (labels : List (String × E × ℕ)) (l : String) : Option (E × ℕ) :=
  (labels.reverse.find? fun p => p.1 = l).map Prod.snd

/-- Everything about the code that the passes do not look into. -/
structure Code (E : Type) where
  lambdas : E → List (Lambda E)
  copies : Copies E
  blocks : E → ℕ

/-- All passes. -/
def compile (C : Code E) (ds : List (Decl E)) : LoweringOutput E :=
  lower (monomorphize C.copies (build C.lambdas (buildScope ds)))

def LoweringOutput.labels (C : Code E) (out : LoweringOutput E) : List (String × E × ℕ) :=
  out.bodies.flatMap (labelsOf C.blocks)

/-- The startup code. -/
def LoweringOutput.entry (out : LoweringOutput E) : List Bytecode.Item :=
  Bytecode.entry out.globalInitializers

end Lower

end Loxis.Globals

/-! ## Startup

The startup code calls each initialiser and stores its result into a slot of the machine, and then
calls the main function. It is compared with running the initialisers of the declarations one after
another.
-/

namespace Loxis.Globals

open Function
open Backend (Value)
open Mono (Ident)

variable {E W : Type}

/-- The number of global slots of the machine. -/
def slotCount : ℕ := 256

/-- The contents of the slots, and the rest of the machine. -/
structure State (W : Type) where
  globals : ℕ → Value
  rest : W

/-- What running code from a block on comes to, if it returns. -/
abbrev Machine (E W : Type) := E × ℕ → State W → Option (Value × State W)

inductive Event (E : Type)
  | ran (target : E × ℕ)
  | stored (slot : ℕ) (v : Value)

/-- What happened before the main function, and the state in which it is called if it is. -/
structure Result (E W : Type) where
  trace : List (Event E)
  final : Option (State W)

def Result.after (e : Event E) (r : Result E W) : Result E W := { r with trace := e :: r.trace }

/-- The slot in an operand. -/
def slotOf (v : BitVec 64) : ℕ := v.toNat % 2 ^ 32

/-- Run the startup code. The result of a call is in register 0. A label that is not there, an
initialiser that does not return or a slot out of bounds ends it. -/
def execEntry (find : String → Option (E × ℕ)) (M : Machine E W) :
    List Bytecode.Item → Value → State W → Result E W
  | .ins ⟨.call, [.addr (.func l)]⟩ :: is, _, s =>
    if l = "main" then ⟨[], some s⟩
    else match find l with
      | none => ⟨[], none⟩
      | some t => (match M t s with
        | none => ⟨[], none⟩
        | some (v, s') => execEntry find M is v s' : Result E W).after (.ran t)
  | .ins ⟨.gStore, [.imm slot, .reg 0]⟩ :: is, v, s =>
    if slotCount ≤ slotOf slot then ⟨[], none⟩
    else (execEntry find M is v { s with globals := update s.globals (slotOf slot) v }).after
      (.stored (slotOf slot) v)
  | _, _, _ => ⟨[], none⟩

/-- Run initialisers one after another, and put the value of each into its slot. -/
def runInitializers (M : Machine E W) : List (E × ℕ) → State W → Result E W
  | [], s => ⟨[], some s⟩
  | (e, slot) :: gs, s => (match M (e, 0) s with
    | none => ⟨[], none⟩
    | some (v, s') => (runInitializers M gs { s' with globals := update s'.globals slot v }).after
      (.stored slot v) : Result E W).after (.ran (e, 0))

def Decl.isGlobal : Decl E → Bool
  | .object _ _ _ | .var _ _ => true
  | _ => false

/-- The code that initialises a global. -/
def Decl.initializer : Decl E → Option E
  | .object _ ctor _ => some ctor
  | .var _ init => init
  | _ => none

/-- The globals that are initialised, in the order of their declarations, each with a slot of its
own. -/
def globals : ℕ → List (Decl E) → List (E × ℕ)
  | _, [] => []
  | n, d :: ds =>
    if d.isGlobal then (d.initializer.map fun e => (e, n)).toList ++ globals (n + 1) ds
    else globals n ds

/-- Distinct globals have distinct slots of the machine, and the startup code initialises all of
them once, in the order of their declarations. -/
structure InitializesInOrder (C : Code E) (ds : List (Decl E)) : Prop where
  fits : ds.countP Decl.isGlobal ≤ slotCount
  distinct : ((buildScope ds).filterMap Prod.snd).Nodup
  runs : ∀ (W : Type) (M : Machine E W) (s : State W) (v : Value),
    execEntry (getLabel ((compile C ds).labels C)) M (compile C ds).entry v s =
      runInitializers M (globals 0 ds) s

section Names

variable (x : Ident)

/-- The name gets another symbol or another slot. -/
def Decl.takes : Decl E → Bool
  | .cls name _ _ _ | .enum name _ _ _ _ | .object name _ _ | .iface name _ _ | .var name _
  | .typeAlias name => name = x
  | _ => false

/-- The name becomes an overload that is no class. -/
def Decl.retypes : Decl E → Bool
  | .function name _ _ _ | .val name _ | .const name _ => name = x
  | _ => false

/-- The name becomes an overload that has a class. -/
def Decl.restores : Decl E → Bool
  | .enum _ _ variants _ _ => x ∈ variants
  | _ => false

/-- A name with a slot, that means a class or not, has its slot and means a class after further
declarations. -/
def Keeps : Bool → List (Decl E) → Prop
  | isClass, [] => isClass
  | isClass, d :: ds =>
    d.takes x = false ∧ Keeps (isClass && !d.retypes x || d.restores x) ds

end Names

/-- The labels of the functions that initialise variables. -/
def varLabels (C : Code E) (ds : List (Decl E)) : List (String × E × ℕ) :=
  ds.flatMap fun
    | .var name (some e) => labelsOf C.blocks ("__var_" ++ name.text, e)
    | _ => []

/-- There are slots enough, no object comes after a variable with an initialiser, no object loses
its name, and no label of the initialiser of a later variable has the text of that of a variable. -/
structure Ordered (C : Code E) (ds : List (Decl E)) : Prop where
  fits : ds.countP Decl.isGlobal ≤ slotCount
  objectsFirst : ∀ xs ys name e, ds = xs ++ .var name (some e) :: ys →
    ∀ name' ctor methods, .object name' ctor methods ∉ ys
  objects : ∀ xs ys name ctor methods, ds = xs ++ .object name ctor methods :: ys →
    Keeps name true ys
  vars : ∀ xs ys name e, ds = xs ++ .var name (some e) :: ys →
    ∀ t, getLabel (varLabels C ys) ("__var_" ++ name.text) = some t → t = (e, 0)

end Loxis.Globals
