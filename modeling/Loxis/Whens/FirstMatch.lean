import Loxis.Whens.Chain

/-! # The first matching arm

What a `when` should do, and the condition under which its blocks do it.
-/

namespace Loxis.Whens

open Backend (Value TAG_NULL)
open Function
open Mono (Ty)
open Vm (Heap TAG_HEAP)

variable {E L S R : Type}

/-! ## What a when should do -/

def Elem.name? : Elem → Option String
  | .wild => none
  | .bind name => some name

/-- The names that the fields of a variant are bound to, with their positions. -/
def Pat.payloads : Pat L → List (String × ℕ)
  | .enum _ elems => elems.zipIdx.filterMap fun q => q.1.name?.map (·, q.2)
  | _ => []

section Spec

variable (P : Program E L) (code : Code S R)

/-- A value of an enum class: an object with the number of a variant and the fields of this one. -/
def EnumDef.HasValue (d : EnumDef) (h : Heap) (v : Value) : Prop :=
  v.tag = TAG_HEAP ∧ ∃ i var, d.variants[i]? = some var ∧ load h v 0 = some (intValue i) ∧
    ∀ j < var.arity, (load h v ((j + 1) * 9)).isSome = true

/-- A value of an enum type is a value of the enum class, or null. -/
def HasType (ty : Ty) (h : Heap) (v : Value) : Prop :=
  ∀ d, P.enumOf ty = some d → d.HasValue h v ∨ v.tag = TAG_NULL

def Pat.matches (ty : Ty) (h : Heap) (v : Value) : Pat L → Bool
  | .wild | .bind _ => true
  | .lit l => P.litIs l v
  | .enum path _ =>
    match (P.enumOf ty).bind fun d => d.find? path with
    | some i => v.tag = TAG_HEAP ∧ load h v 0 = some (intValue i)
    | none => false

/-- The names in the body of an arm. -/
def Pat.bindings (arm : ℕ) (h : Heap) (v : Value) : Pat L → String → Meaning
  | .bind name => update (plain Place.around) name ⟨.whole arm, some v⟩
  | p =>
    p.payloads.foldl
      (fun ρ q => update ρ q.1 ⟨.payload arm q.2, load h v ((q.2 + 1) * 9)⟩) (plain Place.around)

def isElse {C : Type} (a : Arm C E × ℕ) : Bool := a.1.condition.isNone

def isMatch (ty : Ty) (h : Heap) (v : Value) (a : Arm (Pat L) E × ℕ) : Bool :=
  a.1.condition.any (Pat.matches P ty h v)

def armBindings (a : Arm (Pat L) E × ℕ) (h : Heap) (v : Value) : String → Meaning :=
  (a.1.condition.map fun p => p.bindings a.2 h v).getD (plain Place.around)

/-- The body of the first `else`, if there is one. -/
def takeElse (else_ : Option ℕ) (s : S × Heap) (trace : List Part) : Outcome S R :=
  match else_ with
  | some arm => runBody code arm (plain Place.around) s trace
  | none => (trace, .unmatched s)

def takeFirst (ty : Ty) (v : Value) (else_ : Option ℕ) (arms : List (Arm (Pat L) E × ℕ))
    (s : S × Heap) (trace : List Part) : Outcome S R :=
  match arms.find? (isMatch P ty s.2 v) with
  | some a => runBody code a.2 (armBindings a s.2 v) s trace
  | none => takeElse code else_ s trace

/-- The first arm whose condition is true. -/
def takeTrue (else_ : Option ℕ) :
    List (Arm E E × ℕ) → S × Heap → List Part → Outcome S R
  | [], s, trace => takeElse code else_ s trace
  | (⟨none, _⟩, _) :: arms, s, trace => takeTrue else_ arms s trace
  | (⟨some _, _⟩, i) :: arms, s, trace =>
    match code (.cond i) (plain Place.around) s with
    | .value v s =>
      if v = boolValue true then
        runBody code i (plain Place.around) s (trace ++ [.cond i])
      else takeTrue else_ arms s (trace ++ [.cond i])
    | .left r => (trace ++ [.cond i], .left r)

/-- The position of the first `else`. -/
def firstElse {C : Type} (arms : List (Arm C E)) : Option ℕ :=
  (arms.zipIdx.find? isElse).map Prod.snd

/-- What a `when` should do. -/
def When.spec (w : When E L) (s : S × Heap) : Outcome S R :=
  match w with
  | .over scrut arms =>
    match code .scrut (plain Place.around) s with
    | .value v s => takeFirst P code (P.type scrut) v (firstElse arms) arms.zipIdx s [.scrut]
    | .left r => ([.scrut], .left r)
  | .conds arms => takeTrue code (firstElse arms) arms.zipIdx s []

/-! ## Correctness -/

def When.part (w : When E L) (p : Part) : Option E :=
  match w, p with
  | .over scrut _, .scrut => some scrut
  | .over _ arms, .body i => arms[i]?.map Arm.body
  | .conds arms, .cond i => arms[i]?.bind Arm.condition
  | .conds arms, .body i => arms[i]?.map Arm.body
  | _, _ => none

/-- Expressions see the names that they look up, and conditions without a scrutinee are boolean. -/
structure Respects (w : When E L) (code : Code S R) : Prop where
  uses : ∀ p e, w.part p = some e → ∀ ρ ρ' s, (∀ n ∈ P.uses e, ρ n = ρ' n) →
    code p ρ s = code p ρ' s
  boolean : ∀ i ρ s v s', code (.cond i) ρ s = .value v s' → ∃ b, v = boolValue b

/-- The scrutinee, if there is one, has the value `v` in the heap `h`. -/
def When.Gives (w : When E L) (code : Code S R) (s : S × Heap) (v : Value) (h : Heap) : Prop :=
  match w with
  | .over _ _ => ∃ x, code .scrut (plain Place.around) s = .value v (x, h)
  | .conds _ => True

/-- Whatever the expressions do, the blocks do what they should. -/
def When.Correct (itof : BitVec 64 → BitVec 64) (w : When E L) (ret v : Value) (h : Heap) : Prop :=
  ∀ (S R : Type) (code : Code S R) (s : S × Heap), Respects P w code → w.Gives code s v h →
    Ends itof code (lowerWhen P (buildWhen P w)) ret s (w.spec P code s)

end Spec

/-! ## The condition -/

section Sound

variable (P : Program E L) (itof : BitVec 64 → BitVec 64)

/-- The arms that are tested. -/
def tested {C : Type} (arms : List (Arm C E)) : List (Arm C E × ℕ) := arms.zipIdx.eraseP isElse

/-- The names that an arm with a pattern leaves bound. -/
def patLeaks (a : Arm (Pat L) E × ℕ) : List String :=
  ((a.1.condition.map Pat.payloads).getD []).map Prod.fst ++ P.binds a.1.body

def condLeaks (a : Arm E E × ℕ) : List String :=
  (a.1.condition.map P.binds).getD [] ++ P.binds a.1.body

/-- An arm that is passed over: a variant that the number in the scrutinee rules out. -/
def Skipped (ty : Ty) (h : Heap) (v : Value) (a : Arm (Pat L) E × ℕ) : Prop :=
  ∃ path elems, a.1.condition = some (.enum path elems) ∧
    ((∃ d, P.enumOf ty = some d ∧ d.HasValue h v) ∨
      ∃ t, load h v 0 = some t ∧ same itof t (intValue (variantIndex P ty path)) = false)

/-- The body of an arm that is taken looks up no name that was left bound before, and not the name
that stands for the whole scrutinee. -/
def Taken (leaks : List String) (a : Arm (Pat L) E × ℕ) : Prop :=
  ∀ p, a.1.condition = some p → ∀ n ∈ P.uses a.1.body,
    p ≠ .bind n ∧ (n ∈ leaks → n ∈ p.payloads.map Prod.fst)

/-- The body of the first `else` looks up no name that was left bound before. -/
def ElseClear {C : Type} (leaks : List String) (arms : List (Arm C E)) : Prop :=
  ∀ a, arms.zipIdx.find? isElse = some a → ∀ n ∈ P.uses a.1.body, n ∉ leaks

/-- The condition for a `when` over a value. -/
structure SoundOver (scrut : E) (arms : List (Arm (Pat L) E)) (v : Value) (h : Heap) : Prop where
  nonempty : tested arms ≠ []
  skipped : ∀ a ∈ (tested arms).takeWhile fun a => !isMatch P (P.type scrut) h v a,
    Skipped P itof (P.type scrut) h v a
  taken : ∀ pre a post, tested arms = pre ++ a :: post →
    (∀ b ∈ pre, isMatch P (P.type scrut) h v b = false) → isMatch P (P.type scrut) h v a = true →
      Taken P (P.binds scrut ++ pre.flatMap (patLeaks P)) a
  else_ : (∀ b ∈ tested arms, isMatch P (P.type scrut) h v b = false) →
    ElseClear P (P.binds scrut ++ (tested arms).flatMap (patLeaks P)) arms

/-- The condition for a `when` without a scrutinee: the first local happens to hold the value of
true, which the conditions are compared with. -/
structure SoundConds (arms : List (Arm E E)) (ret : Value) : Prop where
  nonempty : tested arms ≠ []
  tests : ∀ b, same itof ret (boolValue b) = b
  oneElse : ∀ a ∈ tested arms, a.1.condition.isSome = true
  clear : ∀ pre a post, tested arms = pre ++ a :: post →
    (∀ e, a.1.condition = some e → ∀ n ∈ P.uses e, n ∉ pre.flatMap (condLeaks P)) ∧
    ∀ n ∈ P.uses a.1.body, n ∉ pre.flatMap (condLeaks P) ++ (a.1.condition.map P.binds).getD []
  else_ : ElseClear P ((tested arms).flatMap (condLeaks P)) arms

def When.Sound (w : When E L) (ret v : Value) (h : Heap) : Prop :=
  match w with
  | .over scrut arms => SoundOver P itof scrut arms v h
  | .conds arms => arms = [] ∨ SoundConds P itof arms ret

end Sound

end Loxis.Whens
