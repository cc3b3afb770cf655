import Loxis.DataClasses.Generated

/-! # The check of the members

Names are looked up among the parameters, then in the scope of the class. A name that is not
declared in the innermost scope, and is a field of the class, is read from the object.
-/

namespace Loxis.DataClasses

/-! ## Types -/

inductive Ty
  | prim (k : Kind)
  | cls | fn | other
  deriving DecidableEq

def Ty.numeric : Ty → Bool
  | .prim .int | .prim .double => true
  | _ => false

/-- The kind of a result of arithmetic. -/
def promoted (t₁ t₂ : Ty) : Kind :=
  if t₁ = .prim .double ∨ t₂ = .prim .double then .double else .int

/-- What the next stage gets. -/
inductive Hir
  | lit (l : Lit)
  | local_ (name : String)
  | self_ (slot : ℕ)
  | field (obj : Hir) (slot : ℕ)
  | intrinsic (name : String) (args : List Hir)
  | init (args : List Hir)
  | eq (l r : Hir)
  | add (ty : Kind) (l r : Hir)
  | mul (ty : Kind) (l r : Hir)
  | ite (cond then_ else_ : Hir)

/-! ## Intrinsics -/

/-- The native functions, with the types of their arguments and result. -/
def natives : List (String × List Kind × Ty) := [
  ("nativeFileExists", [.str], .prim .int),
  ("nativeTryReadText", [.str], .other),
  ("nativeIoError", [], .prim .str),
  ("nativeIsDirectory", [.str], .prim .int),
  ("nativeCreateDirectories", [.str], .prim .int),
  ("nativeRemoveDirectory", [.str], .prim .int),
  ("nativePathJoin", [.str, .str], .prim .str),
  ("nativePathNormalize", [.str], .prim .str),
  ("nativePathParent", [.str], .prim .str),
  ("nativePathName", [.str], .prim .str),
  ("nativePathExtension", [.str], .prim .str),
  ("nativeCurrentDirectory", [], .prim .str),
  ("nativeListDirectory", [.str], .prim .int),
  ("nativeDirectoryEntry", [.int], .prim .str),
  ("nativeEnvironment", [.str], .other),
  ("nativeArgumentCount", [], .prim .int),
  ("nativeArgument", [.int], .prim .str),
  ("nativeUnixMillis", [], .prim .int),
  ("nativeMonotonicNanos", [], .prim .int),
  ("nativeSqrt", [.double], .prim .double),
  ("nativeFloor", [.double], .prim .double),
  ("nativeCeil", [.double], .prim .double),
  ("nativeRound", [.double], .prim .double),
  ("nativeSin", [.double], .prim .double),
  ("nativeCos", [.double], .prim .double),
  ("nativeLog", [.double], .prim .double),
  ("nativeExp", [.double], .prim .double),
  ("nativePow", [.double, .double], .prim .double),
  ("nativeIsFinite", [.double], .prim .int),
  ("nativeDoubleString", [.double], .prim .str),
  ("nativeParseDouble", [.str], .prim .double),
  ("nativeValidDouble", [.str], .prim .int),
  ("nativeTcpConnect", [.str, .int], .prim .int),
  ("nativeTcpBind", [.str, .int], .prim .int),
  ("nativeTcpAccept", [.int], .prim .int),
  ("nativeSocketRead", [.int, .int], .other),
  ("nativeSocketWrite", [.int, .str], .prim .int),
  ("nativeSocketClose", [.int], .prim .int),
  ("nativeNetError", [], .prim .str),
  ("nativeSocketLocalPort", [.int], .prim .int)]

def printing : List String := ["print", "println", "write"]

/-- The other intrinsics by their results. Their arguments are not compared with anything. -/
def unitIntrinsics : List String := ["hset", "hstore", "hfree", "error"]

def intIntrinsics : List String :=
  ["syscall", "alloc", "halloc", "hread", "hload", "strlen", "s2i", "ftoi", "strchar",
    "strindexof", "nativeFileWriteText", "nativeFileAppendText", "nativeFileRemove"]

def strIntrinsics : List String := ["i2s", "strslice", "chr", "nativeFileReadText"]

def doubleIntrinsics : List String := ["itof", "fadd", "fsub", "fmul", "fdiv", "fneg"]

/-- The names that are taken for an intrinsic wherever they are called. -/
def intrinsics : List String :=
  natives.map Prod.fst ++ printing ++ unitIntrinsics ++ intIntrinsics ++ strIntrinsics ++
    doubleIntrinsics

/-- The type of a call of an intrinsic. -/
def intrinsicType (name : String) (args : List Ty) : Except String Ty :=
  match natives.lookup name with
  | some (kinds, ret) =>
    if args.length ≠ kinds.length then .error ("Wrong number of arguments to " ++ name)
    else if args = kinds.map Ty.prim then .ok ret
    else .error ("argument to " ++ name ++ " has the wrong type")
  | none =>
    if name ∈ printing then
      match args with
      | [.prim k] => if k = .double then .error ("cannot " ++ name) else .ok .other
      | [_] => .error ("cannot " ++ name)
      | _ => .error ("Wrong number of arguments to " ++ name)
    else if name ∈ intIntrinsics then .ok (.prim .int)
    else if name ∈ strIntrinsics then .ok (.prim .str)
    else if name ∈ doubleIntrinsics then .ok (.prim .double)
    else .ok .other

/-! ## Scopes -/

namespace DataClass

variable (c : DataClass)

/-- The names that are values in the scope of the class. -/
def valueNames : List String :=
  "this" :: c.properties.map Property.name ++ c.fields ++ c.methods ++
    c.members.map fun m => m.id.name

/-- A type name is looked up like any other. -/
def resolve (name : String) : Except String Unit :=
  if name ∈ c.valueNames then .error ("path does not refer to a type: " ++ name) else .ok ()

/-- The type of a field of the class that is a property: the last declaration has it. -/
def fieldKind (n : String) : Option Kind :=
  (c.properties.reverse.find? fun p => p.name = n).map Property.kind

/-- The type of a name in a member. A method that has been reached takes the name of a property. -/
def symbol (done : List String) (params : List (String × Ty)) (n : String) : Option Ty :=
  match params.reverse.lookup n with
  | some t => some t
  | none => if n ∈ done then some .fn else (c.fieldKind n).map Ty.prim

/-! ## Expressions -/

def litType : Lit → Ty
  | .bool _ => .prim .bool
  | .int _ => .prim .int
  | .str _ => .prim .str

mutual

/-- `nested` tells that the scope is that of a branch, which declares nothing. -/
def check (done : List String) (params : List (String × Ty)) (nested : Bool) :
    Expr → Except String (Ty × Hir)
  | .lit l => .ok (litType l, .lit l)
  | .path n =>
    match c.symbol done params n with
    | none => .error ("unresolved path: " ++ n)
    | some t =>
      .ok (t, if (nested ∨ n ∉ params.map Prod.fst) ∧ n ∈ c.fieldNames then .self_ (c.slot n)
        else .local_ n)
  | .field obj n => do
    let (t, o) ← check done params nested obj
    match t, c.fieldKind n with
    | .cls, some k => .ok (.prim k, .field o (c.slot n))
    | _, _ => .error ("field '" ++ n ++ "' not found")
  | .call f args => do
    let (ts, hs) ← checkAll done params nested args
    if f ∈ intrinsics then
      let t ← intrinsicType f ts
      .ok (t, .intrinsic f hs)
    else if f ∈ params.map Prod.fst ∨ f ∈ c.valueNames then .error "call on non-function"
    else if c.generics ≠ [] then .error ("cannot infer generic type arguments for " ++ c.name)
    else if args.length ≠ c.primaryCtor.length then .error "missing argument"
    else .ok (.cls, .init hs)
  | .eq l r => do
    let (tl, hl) ← check done params nested l
    let (tr, hr) ← check done params nested r
    if tl = tr then .ok (.prim .bool, .eq hl hr) else .error "comparison type mismatch"
  | .add l r => do
    let (tl, hl) ← check done params nested l
    let (tr, hr) ← check done params nested r
    if tl = .prim .str ∧ tr = .prim .str then .ok (.prim .str, .add .str hl hr)
    else if tl.numeric ∧ tr.numeric then .ok (.prim (promoted tl tr), .add (promoted tl tr) hl hr)
    else .error "numeric op on non-numeric"
  | .mul l r => do
    let (tl, hl) ← check done params nested l
    let (tr, hr) ← check done params nested r
    if tl.numeric ∧ tr.numeric then .ok (.prim (promoted tl tr), .mul (promoted tl tr) hl hr)
    else .error "numeric op on non-numeric"
  | .ite cond t e => do
    let (tc, hc) ← check done params nested cond
    let (tt, ht) ← check done params true t
    let (te, he) ← check done params true e
    if tc ≠ .prim .bool then .error "if condition must be bool"
    else if tt = te then .ok (te, .ite hc ht he)
    else .error "if/else branch type mismatch"

def checkAll (done : List String) (params : List (String × Ty)) (nested : Bool) :
    List Expr → Except String (List Ty × List Hir)
  | [] => .ok ([], [])
  | e :: es => do
    let (t, h) ← check done params nested e
    let (ts, hs) ← checkAll done params nested es
    .ok (t :: ts, h :: hs)

end

section Literals

variable {c}

theorem check_bind {α β : Type} {x : Except String α} {f : α → Except String β} {r : β} :
    (x >>= f) = .ok r ↔ ∃ a, x = .ok a ∧ f a = .ok r := by
  cases x with
  | error e => exact ⟨nofun, fun ⟨_, h, _⟩ => nomatch h⟩
  | ok a => exact ⟨fun h => ⟨a, rfl, h⟩, fun ⟨_, h, hf⟩ => by cases h; exact hf⟩

theorem check_lit {names : List String} {params : List (String × Ty)} {nested : Bool} {l : Lit}
    {ty : Ty} {h : Hir} (hc : c.check names params nested (.lit l) = .ok (ty, h)) :
    ty = litType l ∧ h = .lit l := by
  rw [check] at hc
  cases hc
  exact ⟨rfl, rfl⟩

end Literals

/-! ## Members -/

/-- The names of the members that have been reached at a member, user-written ones first. -/
def done (id : MemberId) : List String :=
  c.methods ++ (((c.members.map Member.id).takeWhile (· ≠ id)) ++ [id]).map MemberId.name

/-- The type of a parameter. -/
def paramType (typeName : String) : Ty :=
  if typeName = c.name then .cls
  else match c.properties.find? fun p => p.typeName = typeName with
    | some p => .prim p.kind
    | none => .other

def checkMember (m : Member) : Except String Hir := do
  m.params.forM fun p => c.resolve p.2
  c.resolve m.ret
  let (_, h) ← c.check (c.done m.id) (m.params.map fun p => (p.1, c.paramType p.2)) false m.body
  .ok h

/-- The members pass the check. -/
def Accepted : Prop := c.properties ≠ [] ∧ ∀ m ∈ c.members, (c.checkMember m).isOk = true

end DataClass

end Loxis.DataClasses
