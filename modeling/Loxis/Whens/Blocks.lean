import Loxis.Backend.MIRCompiler
import Loxis.Lowering.Hir
import Loxis.Subtyping.TypeChecker
import Loxis.DataClasses.Run

/-! # The arms of a when

A `when` as it is parsed, the check of its arms, and the arms that are lowered. Expressions and
literals are a parameter.
-/

namespace Loxis.Whens

open Backend (Value)
open Lowering (HirPat HirWhenArm Condition)
open Mono (Ident Ty)
open Subtyping (Decl sameType isSubtype)

/-! ## Syntax -/

/-- The payload of a variant. -/
inductive Elem
  | wild
  | bind (name : String)

inductive Pat (L : Type)
  | wild
  | bind (name : String)
  | lit (l : L)
  | enum (path : List String) (elems : List Elem)

/-- An arm. Only `else` has no condition. -/
structure Arm (C E : Type) where
  condition : Option C
  body : E

inductive When (E L : Type)
  | over (scrut : E) (arms : List (Arm (Pat L) E))
  | conds (arms : List (Arm E E))

/-! ## The program -/

structure EnumVariant where
  name : String
  arity : ℕ

/-- The number that a pattern gets when it names no variant. -/
def noVariant : ℕ := 2 ^ 32 - 1

/-- An enum class. Its variants are numbered in order. -/
structure EnumDef where
  name : Ident
  variants : List EnumVariant
  small : variants.length ≤ noVariant

/-- The types of literals. -/
def literalTypes : List Ty := [.bool, .char, .int, .double, .str]

/-- What is known of expressions and literals: their errors and types, the names that an expression
looks up and those that stay bound after it is lowered, and the values that a literal equals. -/
structure Program (E L : Type) where
  errors : E → List String
  type : E → Ty
  uses : E → List String
  binds : E → List String
  litType : L → Ty
  litIs : L → Value → Bool
  enums : Ident → Option EnumDef
  decls : List Decl
  text : Ty → String
  literal : ∀ l, litType l ∈ literalTypes

variable {E L : Type} (P : Program E L)

namespace Program

/-- The enum class of a type, nullable or not. -/
def enumOf : Ty → Option EnumDef
  | .cls name _ => P.enums name
  | .nullable (.cls name _) => P.enums name
  | _ => none

end Program

/-- The last segment names the variant. -/
def variantName (path : List String) : String := path.getLastD ""

def EnumDef.find? (d : EnumDef) (path : List String) : Option ℕ :=
  d.variants.findIdx? fun v => v.name == variantName path

/-- The number of a pattern, after the check. -/
def variantIndex (ty : Ty) (path : List String) : ℕ :=
  ((P.enumOf ty).bind fun d => d.find? path).getD noVariant

/-! ## The check -/

/-- Where a `when` stands: whether a type is expected of it, and how many expression statements
are around it. -/
structure Position where
  expectsType : Bool
  stmtExprDepth : ℕ

def Position.valuePosition (pos : Position) : Bool := pos.expectsType || pos.stmtExprDepth == 0

def checkPat (ty : Ty) : Pat L → List String
  | .lit l => if sameType (P.litType l) ty then [] else ["literal pattern type mismatch"]
  | .enum path elems =>
    match (P.enumOf ty).bind fun d => (d.find? path).bind fun i => d.variants[i]? with
    | some v => if v.arity = elems.length then [] else ["enum pattern arity mismatch"]
    | none => []
  | _ => []

/-- The errors of the bodies of arms, with the type of the arms before them. -/
def checkBodies : Option Ty → List E → List String
  | _, [] => []
  | none, e :: es => P.errors e ++ checkBodies (some (P.type e)) es
  | some result, e :: es =>
    let armTy := P.type e
    P.errors e ++
      if sameType result armTy then checkBodies (some result) es
      else if isSubtype P.decls armTy result then checkBodies (some result) es
      else if isSubtype P.decls result armTy then checkBodies (some armTy) es
      else ("when arm type mismatch: " ++ P.text result ++ " and " ++ P.text armTy) ::
        checkBodies (some result) es

/-- An arm that every value matches. -/
def Arm.coversEverything (a : Arm (Pat L) E) : Bool :=
  match a.condition with
  | none => true
  | some .wild => true
  | some (.bind _) => true
  | some _ => false

def Arm.covers (ty : Ty) (i : ℕ) (a : Arm (Pat L) E) : Bool :=
  match a.condition with
  | some (.enum path _) => variantIndex P ty path == i
  | _ => false

/-- The names of the variants without an arm. -/
def missing (ty : Ty) (d : EnumDef) (arms : List (Arm (Pat L) E)) : List String :=
  (d.variants.zipIdx.filter fun v => !arms.any (Arm.covers P ty v.2)).map fun v => v.1.name

def checkExhaustive (pos : Position) (ty : Ty) (arms : List (Arm (Pat L) E)) : List String :=
  match P.enumOf ty with
  | none => []
  | some d =>
    if pos.valuePosition && !arms.any Arm.coversEverything then
      let names := missing P ty d arms
      if names = [] then []
      else ["when is not exhaustive: " ++ "`" ++ P.text ty ++ "` has no arm for " ++
        ", ".intercalate names]
    else []

/-- The errors of a `when`. -/
def checkWhen (pos : Position) : When E L → List String
  | .over scrut arms =>
    P.errors scrut ++
      (arms.filterMap Arm.condition).flatMap (checkPat P (P.type scrut)) ++
      checkBodies P none (arms.map Arm.body) ++ checkExhaustive P pos (P.type scrut) arms
  | .conds arms =>
    (arms.filterMap Arm.condition).flatMap P.errors ++ checkBodies P none (arms.map Arm.body)

/-! ## The arms that are lowered -/

def buildElem : Elem → HirPat
  | .wild => .wild
  | .bind name => .bind name false

def buildPat (ty : Ty) : Pat L → HirPat
  | .bind name => .bind name false
  | .enum path elems => .enum (elems.map fun e => some (buildElem e)) (variantIndex P ty path)
  | _ => .wild

def buildArm {C : Type} (build : C → Condition E) (a : Arm C E) : HirWhenArm E :=
  ⟨(a.condition.map build).getD .none, a.body, a.condition.isNone⟩

def buildWhen : When E L → Option E × List (HirWhenArm E)
  | .over scrut arms =>
    (some scrut, arms.map (buildArm fun p => .pat (some (buildPat P (P.type scrut) p))))
  | .conds arms => (none, arms.map (buildArm Condition.expr))

end Loxis.Whens

/-! ## The blocks of a when

The tests and bodies of the arms become blocks, and the blocks are run. What the expressions do is
a parameter. The locals are named after what they are for.
-/

namespace Loxis.Whens

open Backend (Value TAG_INT TAG_FLOAT TAG_NULL)
open DataClasses (feq)
open Function
open Lowering (HirPat HirWhenArm Condition)
open Vm (Heap)

variable {E L : Type}

/-- The expressions of a `when`. -/
inductive Part
  | scrut
  | cond (arm : ℕ)
  | body (arm : ℕ)
  deriving DecidableEq

/-- What a name stands for: the variable of that name around the `when`, a variable of an
expression inside, a field of a variant, or the whole scrutinee. -/
inductive Place
  | around (name : String)
  | inner (p : Part) (name : String)
  | payload (arm elem : ℕ)
  | whole (arm : ℕ)
  deriving DecidableEq

abbrev Scope := String → Place

inductive Local
  | ret
  | scrut
  | result
  | discr (arm : ℕ)
  | test (arm : ℕ)
  | payload (arm elem : ℕ)
  | val (p : Part)
  deriving DecidableEq

/-! ## Lowering -/

inductive Operand
  | copy (l : Local)
  | int (n : ℕ)

inductive Instr
  | eval (p : Part) (scope : Scope) (dst : Local)
  | field (dst src : Local) (offset : ℕ)
  | eq (dst l : Local) (r : Operand)
  | move (dst src : Local)

inductive Label
  | entry
  | check (k : ℕ)
  | body (k : ℕ)
  | else_
  | exit
  /-- The first block of the function. -/
  | first

inductive Term
  | goto (target : Label)
  | switch (l : Local) (one otherwise : Label)

structure Block where
  instrs : List Instr
  term : Term

/-- The scope after an expression. What it declares stays bound. -/
def leave (p : Part) (names : List String) (σ : Scope) : Scope := fun n =>
  if n ∈ names then .inner p n else σ n

/-- The names of the payloads that an arm binds, with their positions. -/
def payloads : Condition E → List (String × ℕ)
  | .pat (some (.enum elems _)) =>
    elems.zipIdx.filterMap fun q =>
      match q.1 with
      | some (.bind name _) => some (name, q.2)
      | _ => none
  | _ => []

def bindPayloads (arm : ℕ) (σ : Scope) (ps : List (String × ℕ)) : Scope :=
  ps.foldl (fun σ p => update σ p.1 (.payload arm p.2)) σ

/-- An arm that is tested, with the scopes of its condition and of its body. -/
structure Check (E : Type) where
  arm : ℕ
  condition : Condition E
  before : Scope
  inside : Scope

/-- The names that a condition leaves bound. -/
def conditionBinds (P : Program E L) : Condition E → List String
  | .expr e => P.binds e
  | _ => []

/-- The arms that are tested, and the scope after them. -/
def lowerChecks (P : Program E L) : Scope → List (HirWhenArm E × ℕ) → List (Check E) × Scope
  | σ, [] => ([], σ)
  | σ, (a, i) :: as =>
    let inside := bindPayloads i (leave (.cond i) (conditionBinds P a.condition) σ)
      (payloads a.condition)
    let rest := lowerChecks P (leave (.body i) (P.binds a.body) inside) as
    (⟨i, a.condition, σ, inside⟩ :: rest.1, rest.2)

structure Lowered (E : Type) where
  hasScrut : Bool
  noArms : Bool
  checks : List (Check E)
  /-- The arm without a test, with its scope. -/
  else_ : Option (ℕ × Scope)

/-- The scope of the first test. -/
def scopeIn (P : Program E L) : Option E → Scope
  | some e => leave .scrut (P.binds e) Place.around
  | none => Place.around

def lowerWhen (P : Program E L) (hir : Option E × List (HirWhenArm E)) : Lowered E :=
  let arms := hir.2.zipIdx
  let isElse : HirWhenArm E × ℕ → Bool := fun a => a.1.isElse
  let checks := lowerChecks P (scopeIn P hir.1) (arms.eraseP isElse)
  ⟨hir.1.isSome, hir.2.isEmpty, checks.1, (arms.find? isElse).map fun a => (a.2, checks.2)⟩

namespace Lowered

variable (w : Lowered E)

/-- Without a scrutinee the conditions are compared with the first local. -/
def scrut : Local := if w.hasScrut then .scrut else .ret

def checkBlock (c : Check E) (body next : Label) : Block :=
  match c.condition with
  | .expr _ =>
    ⟨[.eval (.cond c.arm) c.before (.val (.cond c.arm)),
      .eq (.test c.arm) w.scrut (.copy (.val (.cond c.arm)))], .switch (.test c.arm) body next⟩
  | .pat (some (.enum _ variantIndex)) =>
    ⟨[.field (.discr c.arm) w.scrut 0, .eq (.test c.arm) (.discr c.arm) (.int variantIndex)],
      .switch (.test c.arm) body next⟩
  | _ => ⟨[], .goto body⟩

def evalBody (arm : ℕ) (σ : Scope) : List Instr :=
  [.eval (.body arm) σ (.val (.body arm)), .move .result (.val (.body arm))]

def bodyBlock (c : Check E) : Block :=
  ⟨(payloads c.condition).map (fun p => .field (.payload c.arm p.2) w.scrut ((p.2 + 1) * 9)) ++
    evalBody c.arm c.inside, .goto .exit⟩

/-- Where the test of an arm goes when it fails. -/
def next (k : ℕ) : Label :=
  if k + 1 < w.checks.length then .check (k + 1)
  else if w.else_.isSome then .else_ else .exit

/-- A block that no jump was put at the end of goes to the first one. -/
def block : Label → Block
  | .entry =>
    if w.noArms then ⟨[], .goto .exit⟩
    else ⟨if w.hasScrut then [.eval .scrut Place.around .scrut] else [],
      .goto (if w.checks = [] then .first else .check 0)⟩
  | .check k =>
    match w.checks[k]? with
    | some c => w.checkBlock c (.body k) (w.next k)
    | none => ⟨[], .goto .first⟩
  | .body k =>
    match w.checks[k]? with
    | some c => w.bodyBlock c
    | none => ⟨[], .goto .first⟩
  | .else_ =>
    match w.else_ with
    | some (arm, σ) => ⟨evalBody arm σ, .goto .exit⟩
    | none => ⟨[], .goto .first⟩
  | .exit | .first => ⟨[], .goto .first⟩

end Lowered

/-! ## Runs -/

/-- What a name means: a field of a variant comes with its value. -/
structure Meaning where
  place : Place
  value : Option Value

/-- An expression gives a value, or leaves the `when` in a way that `R` describes. -/
inductive Res (S R : Type)
  | value (v : Value) (s : S × Heap)
  | left (r : R)

/-- What the expressions do, under a meaning of the names. -/
abbrev Code (S R : Type) := Part → (String → Meaning) → S × Heap → Res S R

inductive End (S R : Type)
  | value (v : Value) (s : S × Heap)
  /-- No arm was taken. -/
  | unmatched (s : S × Heap)
  | left (r : R)
  /-- A field that is not there was read. -/
  | failed
  /-- The function starts again. -/
  | restarted

/-- The expressions that were evaluated, and how the `when` ends. -/
abbrev Outcome (S R : Type) := List Part × End S R

structure Config (S : Type) where
  locals : Local → Option Value
  store : S × Heap
  trace : List Part

variable {S R : Type}

def handle (v : Value) : ℕ := v.val.toNat % 2 ^ 32

def load (h : Heap) (v : Value) (offset : ℕ) : Option Value :=
  (h.loadCell (handle v) offset).map fun c => ⟨c.1, c.2⟩

/-- The comparison of registers, for those that hold no strings. -/
def same (itof : BitVec 64 → BitVec 64) (a b : Value) : Bool :=
  let toFloat (v : Value) : BitVec 64 := if v.tag = TAG_FLOAT then v.val else itof v.val
  if a.tag = TAG_NULL ∨ b.tag = TAG_NULL then a.tag = b.tag
  else if a.tag = TAG_FLOAT ∨ b.tag = TAG_FLOAT then feq (toFloat a) (toFloat b)
  else a.val = b.val

def intValue (n : ℕ) : Value := ⟨BitVec.ofNat 64 n, TAG_INT⟩

def boolValue (b : Bool) : Value := intValue b.toNat

namespace Config

variable (c : Config S)

def get (l : Local) : Value := (c.locals l).getD (intValue 0)

def set (l : Local) (v : Value) : Config S := { c with locals := update c.locals l (some v) }

def meaning (σ : Scope) (n : String) : Meaning :=
  match σ n with
  | .payload i j => ⟨.payload i j, c.locals (.payload i j)⟩
  | p => ⟨p, none⟩

def operand : Operand → Value
  | .copy l => c.get l
  | .int n => intValue n

end Config

variable (itof : BitVec 64 → BitVec 64) (code : Code S R)

def runInstr (i : Instr) (c : Config S) : Except (Outcome S R) (Config S) :=
  match i with
  | .eval p σ dst =>
    match code p (c.meaning σ) c.store with
    | .value v s => .ok ({ c with store := s, trace := c.trace ++ [p] }.set dst v)
    | .left r => .error (c.trace ++ [p], .left r)
  | .field dst src offset =>
    match load c.store.2 (c.get src) offset with
    | some v => .ok (c.set dst v)
    | none => .error (c.trace, .failed)
  | .eq dst l r => .ok (c.set dst (boolValue (same itof (c.get l) (c.operand r))))
  | .move dst src => .ok (c.set dst (c.get src))

def runInstrs : List Instr → Config S → Except (Outcome S R) (Config S)
  | [], c => .ok c
  | i :: is, c => (runInstr itof code i c).bind (runInstrs is)

def Term.target (c : Config S) : Term → Label
  | .goto l => l
  | .switch t one otherwise => if c.get t = intValue 1 then one else otherwise

def Config.atExit (c : Config S) : Outcome S R :=
  (c.trace, match c.locals .result with
    | some v => .value v c.store
    | none => .unmatched c.store)

/-- Runs from a label, through at most the given number of blocks. -/
def exec (w : Lowered E) : ℕ → Label → Config S → Option (Outcome S R)
  | 0, _, _ => none
  | _ + 1, .exit, c => some c.atExit
  | _ + 1, .first, c => some (c.trace, .restarted)
  | fuel + 1, l, c =>
    match runInstrs itof code (w.block l).instrs c with
    | .ok c' => exec w fuel ((w.block l).term.target c') c'
    | .error o => some o

/-- The locals of the function before the `when`. -/
def Config.start (ret : Value) (s : S × Heap) : Config S :=
  ⟨update (fun _ => none) .ret (some ret), s, []⟩

/-- The run of a `when` ends as said. -/
def Ends (w : Lowered E) (ret : Value) (s : S × Heap) (o : Outcome S R) : Prop :=
  ∃ fuel, exec itof code w fuel .entry (Config.start ret s) = some o

end Loxis.Whens
