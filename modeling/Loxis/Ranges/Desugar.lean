import Mathlib.Data.List.Basic
import Mathlib.Logic.Function.Basic

/-! # Loops over ranges

A `for` over a range becomes a loop over a hidden index. The bounds and the body are a parameter:
they see what their names mean and change the store.
-/

namespace Loxis.Ranges

open Function

/-! ## Syntax -/

inductive Part
  | lo
  | hi
  | body
  deriving DecidableEq

/-- What a name stands for: the variable of that name around the loop, a variable of an expression
inside, the index, or the loop variable. -/
inductive Place
  | around (name : String)
  | inner (p : Part) (name : String)
  | index
  | elem
  deriving DecidableEq

/-- The names that an expression looks up, and those that stay bound after it is lowered. -/
structure Names where
  uses : List String
  binds : List String

/-- A `for` over a range. Without a variable the pattern is a wildcard. -/
structure For where
  var : Option String
  inclusive : Bool
  label : Option String
  names : Part → Names

inductive BinOp | add | sub | ge | gt

inductive Hir
  | user (p : Part)
  | path (name : String)
  | int (v : BitVec 64)
  | bin (op : BinOp) (l r : Hir)
  | assign (name : String) (rhs : Hir)
  | seq (first rest : Hir)
  | let_ (p : Place) (name : String) (init rest : Hir)
  | if_ (cond then_ : Hir)
  | break_
  | loop (body : Hir) (label : Option String)

/-! ## Desugaring -/

def forIndex : String := "__for_i"

namespace For

variable (f : For)

/-- Bind the loop variable. -/
def wrapWithPat (elem body : Hir) : Hir :=
  match f.var with
  | some x => .let_ .elem x elem body
  | none => body

/-- The index is stepped at the top of the body. -/
def makeForLoopBody (incIdx exitCond elem body : Hir) : Hir :=
  .loop (.seq incIdx (.seq (.if_ exitCond .break_) (f.wrapWithPat elem body))) f.label

/-- The index starts one below the first element. -/
def desugarFor : Hir :=
  let idxPath := Hir.path forIndex
  let incIdx := Hir.assign forIndex (.bin .add idxPath (.int 1))
  let exitOp := if f.inclusive then BinOp.gt else BinOp.ge
  let exitCond := Hir.bin exitOp idxPath (.user .hi)
  .let_ .index forIndex (.bin .sub (.user .lo) (.int 1))
    (f.makeForLoopBody incIdx exitCond idxPath (.user .body))

end For

/-! ## Expressions -/

/-- What a name means: the loop's own variables come with their values. -/
structure Meaning where
  place : Place
  value : Option (BitVec 64)

/-- An expression gives a value, leaves or continues a loop, or leaves the function in a way that
`R` describes. -/
inductive Res (S R : Type)
  | value (v : BitVec 64) (s : S)
  | brk (label : Option String) (s : S)
  | cont (label : Option String) (s : S)
  | left (r : R)

/-- What the expressions do, and the variables of the program. -/
structure Code (S R : Type) where
  eval : Part → (String → Meaning) → S → Res S R
  read : Place → S → BitVec 64
  write : Place → BitVec 64 → S → S

/-- An expression is evaluated, under a meaning of the names that it looks up. -/
structure Event where
  part : Part
  env : String → Option Meaning

def For.event (f : For) (p : Part) (ρ : String → Meaning) : Event :=
  ⟨p, fun n => if n ∈ (f.names p).uses then some (ρ n) else none⟩

/-- How the evaluation of a tree ends. -/
inductive Exit (R : Type)
  | value (v : BitVec 64)
  | brk (label : Option String)
  | cont (label : Option String)
  | left (r : R)

structure State (S : Type) where
  own : Place → BitVec 64
  store : S
  trace : List Event

abbrev Scope := String → Place

/-- The scope after an expression. What it declares stays bound. -/
def leave (p : Part) (names : List String) (σ : Scope) : Scope := fun n =>
  if n ∈ names then .inner p n else σ n

/-- A jump without a label is for the innermost loop. -/
def targets (label : Option String) : Option String → Bool
  | none => true
  | some l => label == some l

section Eval

variable {S R : Type} (f : For) (c : Code S R)

/-- The scope after a tree. No binding of the lowering ends. -/
def after : Scope → Hir → Scope
  | σ, .user p => leave p (f.names p).binds σ
  | σ, .path _ | σ, .int _ | σ, .break_ => σ
  | σ, .bin _ l r => after (after σ l) r
  | σ, .assign _ rhs => after σ rhs
  | σ, .seq first rest => after (after σ first) rest
  | σ, .let_ p name init rest => after (update (after σ init) name p) rest
  | σ, .if_ cond then_ => after (after σ cond) then_
  | σ, .loop body _ => after σ body

namespace State

variable (s : State S)

def get : Place → BitVec 64
  | .index => s.own .index
  | .elem => s.own .elem
  | p => c.read p s.store

def set (v : BitVec 64) : Place → State S
  | .index => { s with own := update s.own .index v }
  | .elem => { s with own := update s.own .elem v }
  | p => { s with store := c.write p v s.store }

def meaning (σ : Scope) (n : String) : Meaning :=
  match σ n with
  | .index => ⟨.index, some (s.own .index)⟩
  | .elem => ⟨.elem, some (s.own .elem)⟩
  | p => ⟨p, none⟩

/-- Evaluates an expression of the program. -/
def user (σ : Scope) (p : Part) : Exit R × State S :=
  let ρ := s.meaning σ
  let s' (store : S) : State S := ⟨s.own, store, s.trace ++ [f.event p ρ]⟩
  match c.eval p ρ s.store with
  | .value v t => (.value v, s' t)
  | .brk l t => (.brk l, s' t)
  | .cont l t => (.cont l, s' t)
  | .left r => (.left r, s' s.store)

end State

def BinOp.apply : BinOp → BitVec 64 → BitVec 64 → BitVec 64
  | .add, x, y => x + y
  | .sub, x, y => x - y
  | .ge, x, y => if y.sle x then 1 else 0
  | .gt, x, y => if y.slt x then 1 else 0

/-- Repeats a body until a jump leaves the loop. -/
def iterate (label : Option String) (body : State S → Option (Exit R × State S)) :
    ℕ → State S → Option (Exit R × State S)
  | 0, _ => none
  | fuel + 1, s =>
    match body s with
    | none => none
    | some (.value _, t) => iterate label body fuel t
    | some (.cont l, t) =>
      if targets label l then iterate label body fuel t else some (.cont l, t)
    | some (.brk l, t) => some (if targets label l then .value 0 else .brk l, t)
    | some (.left r, t) => some (.left r, t)

/-- Evaluates a part of a tree, and goes on with its value if there is one. -/
def andThen (o : Option (Exit R × State S))
    (k : BitVec 64 → State S → Option (Exit R × State S)) : Option (Exit R × State S) :=
  match o with
  | some (.value v, s) => k v s
  | o => o

/-- Evaluates a tree. Scopes are those of the lowering, and the fuel bounds the turns of a loop. -/
def eval (fuel : ℕ) : Scope → Hir → State S → Option (Exit R × State S)
  | σ, .user p, s => some (s.user f c σ p)
  | σ, .path name, s => some (.value (s.get c (σ name)), s)
  | _, .int v, s => some (.value v, s)
  | σ, .bin op l r, s =>
    andThen (eval fuel σ l s) fun x s =>
      andThen (eval fuel (after f σ l) r s) fun y s => some (.value (op.apply x y), s)
  | σ, .assign name rhs, s =>
    andThen (eval fuel σ rhs s) fun v s => some (.value 0, s.set c v (after f σ rhs name))
  | σ, .seq first rest, s =>
    andThen (eval fuel σ first s) fun _ s => eval fuel (after f σ first) rest s
  | σ, .let_ p name init rest, s =>
    andThen (eval fuel σ init s) fun v s =>
      eval fuel (update (after f σ init) name p) rest (s.set c v p)
  | σ, .if_ cond then_, s =>
    andThen (eval fuel σ cond s) fun v s =>
      if v = 1 then eval fuel (after f σ cond) then_ s else some (.value 0, s)
  | _, .break_, s => some (.brk none, s)
  | σ, .loop body label, s => iterate label (fun s => eval fuel σ body s) fuel s

/-! ## What a loop should do -/

/-- How a `for` ends. -/
inductive End (S R : Type)
  | done (s : S)
  | brk (label : Option String) (s : S)
  | cont (label : Option String) (s : S)
  | left (r : R)

abbrev Outcome (S R : Type) := List Event × End S R

def outcome : Exit R × State S → Outcome S R
  | (.value _, s) => (s.trace, .done s.store)
  | (.brk l, s) => (s.trace, .brk l s.store)
  | (.cont l, s) => (s.trace, .cont l s.store)
  | (.left r, s) => (s.trace, .left r)

def around (n : String) : Meaning := ⟨.around n, none⟩

/-- The names in the body, when the loop variable is `x`. -/
def For.bodyMeaning (x : BitVec 64) (n : String) : Meaning :=
  if f.var = some n then ⟨.elem, some x⟩ else around n

/-- The number of elements of a range. -/
def For.size (lo hi : BitVec 64) : ℕ :=
  (if f.inclusive then hi.toInt + 1 - lo.toInt else hi.toInt - lo.toInt).toNat

/-- The body for `count` elements from `x` on. -/
def For.passes : ℕ → BitVec 64 → S → List Event → Outcome S R
  | 0, _, s, trace => (trace, .done s)
  | count + 1, x, s, trace =>
    let trace := trace ++ [f.event .body (f.bodyMeaning x)]
    match c.eval .body (f.bodyMeaning x) s with
    | .value _ s => For.passes count (x + 1) s trace
    | .cont l s =>
      if targets f.label l then For.passes count (x + 1) s trace else (trace, .cont l s)
    | .brk l s => (trace, if targets f.label l then .done s else .brk l s)
    | .left r => (trace, .left r)

/-- Both bounds once, and the body for each element in order. -/
def For.spec (s : S) : Outcome S R :=
  let lo := f.event .lo around
  let hi := f.event .hi around
  match c.eval .lo around s with
  | .value a s =>
    match c.eval .hi around s with
    | .value b s => f.passes c (f.size a b) a s [lo, hi]
    | .brk l s => ([lo, hi], .brk l s)
    | .cont l s => ([lo, hi], .cont l s)
    | .left r => ([lo, hi], .left r)
  | .brk l s => ([lo], .brk l s)
  | .cont l s => ([lo], .cont l s)
  | .left r => ([lo], .left r)

/-- The code of a `for` does what it should. -/
def For.Iterates (s : S) : Prop :=
  ∃ fuel e, eval f c fuel Place.around f.desugarFor ⟨fun _ => 0, s, []⟩ = some e ∧
    outcome e = f.spec c s

/-- Expressions see the names that they look up. -/
def Respects : Prop :=
  ∀ p ρ ρ' s, (∀ n ∈ (f.names p).uses, ρ n = ρ' n) → c.eval p ρ s = c.eval p ρ' s

end Eval

end Loxis.Ranges
