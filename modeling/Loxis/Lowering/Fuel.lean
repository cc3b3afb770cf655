import Mathlib.Algebra.GroupWithZero.Nat
import Loxis.Lib.Simulation
import Loxis.Lowering.Lower

/-! # Enough fuel

The lowering goes from an expression to its parts and, at an exit, to the finally bodies on the
stack. Both make the expression and the stack together smaller.
-/

namespace Loxis.Lowering

section Rules

variable {α β : Type} {k : ℕ}

/-- The size of the finally bodies on the stack. -/
noncomputable def weight (fs : List Finalizer) : ℕ := (fs.map fun F => sizeOf F.body + 1).sum

/-- From a stack of weight at most `k`, `x` does not run out of fuel and leaves the stack. -/
class Bounded (k : ℕ) (x : LowerM α) : Prop where
  bounded : ∀ s, weight s.finallyStack ≤ k → x s ≠ .error .fuel ∧
    ∀ a s', x s = .ok (a, s') → s'.finallyStack = s.finallyStack

variable {x : LowerM α} {g : α → LowerM β}

theorem bounded_of_ok (f : LowerState → α × LowerState)
    (h : ∀ s, x s = .ok (f s) ∧ (f s).2.finallyStack = s.finallyStack) : Bounded k x where
  bounded s _ := by
    obtain ⟨hx, hs⟩ := h s
    rw [hx]
    refine ⟨nofun, fun a s' he => ?_⟩
    rw [Except.ok.inj he] at hs
    exact hs

instance (a : α) : Bounded k (pure a : LowerM α) :=
  bounded_of_ok (fun s => (a, s)) fun _ => ⟨rfl, rfl⟩

theorem Bounded.bind (hx : Bounded k x) (hg : ∀ a, Bounded k (g a)) : Bounded k (x >>= g) where
  bounded s hs := by
    obtain ⟨hne, hok⟩ := hx.bounded s hs
    cases h : x s with
    | error e =>
      have he : (x >>= g) s = .error e := by
        change (x s >>= fun p => g p.1 p.2) = _
        rw [h]
        rfl
      rw [he]
      exact ⟨fun hf => hne (h.trans (by rw [Except.error.inj hf])), nofun⟩
    | ok p =>
      rw [bind_of_ok h]
      have hp := hok p.1 p.2 h
      obtain ⟨hne', hok'⟩ := (hg p.1).bounded p.2 (hp ▸ hs)
      exact ⟨hne', fun a s' ha => (hok' a s' ha).trans hp⟩

instance [hx : Bounded k x] [hg : ∀ a, Bounded k (g a)] : Bounded k (x >>= g) := hx.bind hg

instance {p : Prop} [Decidable p] {x x' : LowerM α} [hx : Bounded k x] [hx' : Bounded k x'] :
    Bounded k (if p then x else x') := by
  split
  · exact hx
  · exact hx'

instance (name : String) (mut_ : Bool) : Bounded k (newLocal name mut_) :=
  bounded_of_ok _ fun _ => ⟨rfl, rfl⟩

instance : Bounded k newBlock := bounded_of_ok _ fun _ => ⟨rfl, rfl⟩

instance (st : Statement) : Bounded k (emit st) :=
  bounded_of_ok _ fun s => ⟨rfl, by dsimp only; split <;> rfl⟩

instance (t : Terminator) : Bounded k (term t) :=
  bounded_of_ok _ fun s => ⟨rfl, by dsimp only; split <;> rfl⟩

instance (b : Bool) : Bounded k (mark b) :=
  bounded_of_ok _ fun s => ⟨rfl, by dsimp only; split <;> rfl⟩

instance : Bounded k isTerminated := bounded_of_ok _ fun _ => ⟨rfl, rfl⟩

instance (b : BlockId) : Bounded k (startBlock b) := bounded_of_ok _ fun _ => ⟨rfl, rfl⟩

instance : Bounded k terminate := bounded_of_ok _ fun _ => ⟨rfl, rfl⟩

instance : Bounded k closureEnv := bounded_of_ok _ fun _ => ⟨rfl, rfl⟩

instance (name : String) : Bounded k (lookup name) := bounded_of_ok _ fun _ => ⟨rfl, rfl⟩

instance (name : String) : Bounded k (resolve name) := bounded_of_ok _ fun _ => ⟨rfl, rfl⟩

instance (name : String) (l : LocalId) : Bounded k (bindLocal name l) :=
  bounded_of_ok _ fun _ => ⟨rfl, rfl⟩

instance (name : String) (l : Option LocalId) : Bounded k (setScope name l) :=
  bounded_of_ok _ fun _ => ⟨rfl, rfl⟩

instance : Bounded k (get : LowerM LowerState) := bounded_of_ok _ fun _ => ⟨rfl, rfl⟩

instance : Bounded k finallyDepth := bounded_of_ok _ fun _ => ⟨rfl, rfl⟩

instance (label : Option String) : Bounded k (findLoop label) :=
  bounded_of_ok _ fun _ => ⟨rfl, rfl⟩

theorem bounded_modify {f : LowerState → LowerState}
    (h : ∀ s, (f s).finallyStack = s.finallyStack) : Bounded k (modify f : LowerM Unit) :=
  bounded_of_ok (fun s => ((), f s)) fun s => ⟨rfl, h s⟩

instance : Bounded k unitLocal := by
  unfold unitLocal
  infer_instance

instance : Bounded k scratchLocal where
  bounded s hs := by
    unfold scratchLocal
    split
    · exact ⟨nofun, fun a s' h => by cases h; rfl⟩
    · exact ⟨nofun, fun a s' h => by cases h; rfl⟩

instance [Bounded k x] : Bounded k (inScope x) := by
  have := fun s : LowerState => bounded_modify (k := k)
    (f := fun t => { t with lexical := s.lexical }) fun _ => rfl
  unfold inScope
  infer_instance

instance (l : Scope) (r : List LocalId) [Bounded k x] : Bounded k (writtenAt l r x) := by
  have h := fun (l : Scope) r => bounded_modify (k := k)
    (f := fun t => { t with lexical := l, regions := r }) fun _ => rfl
  unfold writtenAt
  infer_instance

instance (r : List LocalId) [Bounded k x] : Bounded k (atRegions r x) := by
  have h := fun r => bounded_modify (k := k) (f := fun t => { t with regions := r }) fun _ => rfl
  unfold atRegions
  infer_instance

instance (l : LocalId) [Bounded k x] : Bounded k (inRegion l x) := by
  unfold inRegion
  infer_instance

instance (i j : BlockId) (label : Option String) [hx : Bounded k x] :
    Bounded k (withLoop i j label x) := by
  have h := fun (f : LowerState → List LoopContext) => bounded_modify (k := k)
    (f := fun s => { s with loopStack := f s }) fun _ => rfl
  have h₁ := h fun s => ⟨i, j, label, s.finallyStack.length, s.regions⟩ :: s.loopStack
  have h₂ := h fun s => s.loopStack.tail
  unfold withLoop
  infer_instance

theorem ok_around {y : Except Failure (α × LowerState)} {f : LowerState → LowerState}
    {fs : List Finalizer} (hy : y ≠ .error .fuel)
    (hf : ∀ a t, y = .ok (a, t) → (f t).finallyStack = fs) :
    (y >>= fun p => .ok (p.1, f p.2)) ≠ .error .fuel ∧
      ∀ a s', (y >>= fun p => .ok (p.1, f p.2)) = .ok (a, s') → s'.finallyStack = fs := by
  cases y with
  | error e => exact ⟨fun h => hy (congrArg _ (Except.error.inj h)), nofun⟩
  | ok p =>
    refine ⟨nofun, fun a s' h => ?_⟩
    cases Except.ok.inj h
    exact hf p.1 p.2 rfl

theorem bounded_withFinalizer {body : Option HirExpr} (active : Bool) (l : Scope)
    (r : List LocalId) (exception : LocalId)
    (hx : Bounded (k + body.elim 0 fun f => sizeOf f + 1) x) :
    Bounded k (withFinalizer body active l r exception x) where
  bounded s hs := by
    cases body with
    | none => exact hx.bounded s hs
    | some f =>
      have hw : weight (⟨f, active, l, r, exception⟩ :: s.finallyStack) ≤ k + (sizeOf f + 1) := by
        simp only [weight, List.map_cons, List.sum_cons]
        unfold weight at hs
        omega
      obtain ⟨hne, hok⟩ := hx.bounded
        { s with finallyStack := ⟨f, active, l, r, exception⟩ :: s.finallyStack } hw
      exact ok_around (f := fun t => { t with finallyStack := t.finallyStack.tail }) hne
        fun a t ha => congrArg List.tail (hok a t ha)

end Rules

section Exits

variable {rec : HirExpr → LowerM LocalId} {k : ℕ}

theorem weight_append (fs gs : List Finalizer) : weight (fs ++ gs) = weight fs + weight gs := by
  simp [weight]

theorem size_lt_weight {F : Finalizer} {fs : List Finalizer} (hF : F ∈ fs) :
    sizeOf F.body < weight fs := by
  obtain ⟨gs, hs, rfl⟩ := List.append_of_mem hF
  simp only [weight, List.map_append, List.sum_append, List.map_cons, List.sum_cons]
  omega

instance (F : Finalizer) : Bounded k (popHandler F) := by
  unfold popHandler
  infer_instance

theorem bounded_runFinalizers (r : List LocalId) {fs : List Finalizer}
    (h : ∀ F ∈ fs, Bounded k (rec F.body)) : Bounded k (runFinalizers rec r fs) := by
  induction fs generalizing r with
  | nil => exact (inferInstance : Bounded k (pure true))
  | cons F fs ih =>
    have := ih F.regions fun G hG => h G (List.mem_cons_of_mem _ hG)
    have := h F List.mem_cons_self
    unfold runFinalizers
    infer_instance

variable (hfin : ∀ e j, sizeOf e + j < k → Bounded j (rec e))
include hfin

theorem bounded_lowerFinalizersTo (depth : ℕ) : Bounded k (lowerFinalizersTo rec depth) where
  bounded s hs := by
    set above := s.finallyStack.length - depth with habove
    have hsum : weight (s.finallyStack.take above) + weight (s.finallyStack.drop above) ≤ k := by
      rw [← weight_append, List.take_append_drop]
      exact hs
    have hrun : Bounded (weight (s.finallyStack.drop above))
        (runFinalizers rec s.regions (s.finallyStack.take above)) := by
      refine bounded_runFinalizers _ fun F hF => hfin F.body _ ?_
      have := size_lt_weight hF
      omega
    obtain ⟨hne, -⟩ := hrun.bounded
      { s with finallyStack := s.finallyStack.drop above } (Nat.le_refl _)
    exact ok_around (f := fun t => { t with finallyStack := s.finallyStack }) hne fun _ _ _ => rfl

theorem bounded_exitWith (depth : ℕ) (target : Option (List LocalId)) (leave : LowerM Unit)
    [Bounded k leave] : Bounded k (exitWith rec depth target leave) := by
  have := bounded_lowerFinalizersTo hfin depth
  unfold exitWith
  infer_instance

end Exits

-- A node of many steps needs a large instance.
set_option synthInstance.maxSize 2000

section Nodes

variable {rec : HirExpr → LowerM LocalId} {k n : ℕ}

theorem bounded_lowerAll {es : List HirExpr} (h : ∀ e ∈ es, Bounded k (rec e)) :
    Bounded k (lowerAll rec es) := by
  induction es with
  | nil => exact (inferInstance : Bounded k (pure []))
  | cons e es ih =>
    have := ih fun e' he => h e' (List.mem_cons_of_mem _ he)
    have := h e List.mem_cons_self
    unfold lowerAll
    infer_instance

theorem bounded_storeFields (obj : LocalId) {es : List (ℕ × HirExpr)}
    (h : ∀ e ∈ es, Bounded k (rec e.2)) : Bounded k (storeFields rec obj es) := by
  induction es with
  | nil => exact (inferInstance : Bounded k (pure ()))
  | cons e es ih =>
    have := ih fun e' he => h e' (List.mem_cons_of_mem _ he)
    have := h e List.mem_cons_self
    unfold storeFields
    infer_instance

instance (captures : List HirClosureCapture) : Bounded k (lowerCaptures captures) := by
  induction captures with
  | nil => exact (inferInstance : Bounded k (pure []))
  | cons c cs ih =>
    refine Bounded.bind (inferInstance : Bounded k (lookup c.name)) fun o => ?_
    cases o with
    | some l =>
      dsimp only
      infer_instance
    | none =>
      refine Bounded.bind (inferInstance : Bounded k closureEnv) fun env => ?_
      cases c.sourceOffset <;> cases env <;> dsimp only <;> infer_instance

instance (p : HirPath) : Bounded k (lowerPath p) := by
  unfold lowerPath
  cases p.globalSlot with
  | some slot =>
    dsimp only
    infer_instance
  | none =>
    refine Bounded.bind (inferInstance : Bounded k (resolve p.name)) fun o => ?_
    cases o with
    | some l => exact (inferInstance : Bounded k (pure l))
    | none =>
      refine Bounded.bind (inferInstance : Bounded k closureEnv) fun env => ?_
      cases p.captureOffset <;> cases env <;> dsimp only <;> infer_instance

instance (t : LocalId → BlockId → Terminator) : Bounded k (finishCall t) := by
  unfold finishCall
  infer_instance

instance (result v : LocalId) (exitB : BlockId) : Bounded k (finishBranch result v exitB) := by
  unfold finishBranch
  infer_instance

instance (op : MirAssignOp) (rd wr : String) (old : Rvalue) (rhs : LocalId) :
    Bounded k (combine op rd wr old rhs) := by
  unfold combine
  infer_instance

theorem bounded_lowerElse {e : Option HirExpr} (h : ∀ e' ∈ e, Bounded k (rec e'))
    (result : LocalId) (mergeB : BlockId) : Bounded k (lowerElse rec result mergeB e) := by
  cases e with
  | some e =>
    have := h e rfl
    unfold lowerElse
    infer_instance
  | none =>
    unfold lowerElse
    infer_instance

theorem bounded_lowerIf {cond then_ : HirExpr} {else_ : Option HirExpr}
    (hc : Bounded k (rec cond)) (ht : Bounded k (rec then_))
    (he : ∀ e ∈ else_, Bounded k (rec e)) : Bounded k (lowerIf rec cond then_ else_) := by
  have := fun r m => bounded_lowerElse he r m
  clear he
  unfold lowerIf
  infer_instance

theorem bounded_lowerOption {e : Option HirExpr} (h : ∀ e' ∈ e, Bounded k (rec e')) :
    Bounded k (lowerOption rec e) := by
  cases e with
  | some e => exact h e rfl
  | none => exact (inferInstance : Bounded k (pure 0))

theorem bounded_lowerTail {e : Option HirExpr} (h : ∀ e' ∈ e, Bounded k (rec e')) :
    Bounded k (lowerTail rec e) := by
  cases e with
  | some e => exact h e rfl
  | none => exact (inferInstance : Bounded k unitLocal)

theorem bounded_lowerBinary {op : MirBinOp} {l r : HirExpr} (hl : Bounded k (rec l))
    (hr : Bounded k (rec r)) (hlit : ∀ b, Bounded k (rec (.lit (.bool b)))) :
    Bounded k (lowerBinary rec op l r) := by
  have hand : Bounded k (lowerIf rec l r (some (.lit (.bool false)))) :=
    bounded_lowerIf hl hr fun e he => Option.some.inj he ▸ hlit false
  have hor : Bounded k (lowerIf rec l (.lit (.bool true)) (some r)) :=
    bounded_lowerIf hl (hlit true) fun e he => Option.some.inj he ▸ hr
  unfold lowerBinary
  cases op <;> dsimp only <;> infer_instance

theorem bounded_lowerPlace {e : HirExpr} (he : ∀ e', sizeOf e' ≤ sizeOf e → Bounded k (rec e')) :
    Bounded k (lowerPlace rec e) := by
  cases e
  case path p =>
    refine Bounded.bind (inferInstance : Bounded k (resolve p.name)) fun o => ?_
    cases o <;> dsimp only <;> infer_instance
  case deref e => exact he e (by decreasing_tactic)
  case unary op e =>
    have := he (.unary op e) (Nat.le_refl _)
    have := he e (by decreasing_tactic)
    unfold lowerPlace
    infer_instance
  all_goals exact ⟨fun s _ => ⟨nofun, nofun⟩⟩

theorem bounded_lowerStore {op : MirAssignOp} {lhs rhs : HirExpr} (hr : Bounded k (rec rhs))
    (he : ∀ e', sizeOf e' ≤ sizeOf lhs → Bounded k (rec e')) :
    Bounded k (lowerStore rec op lhs rhs) := by
  have hp : Bounded k (assignPlace rec op lhs rhs) := by
    have := bounded_lowerPlace he
    unfold assignPlace
    clear he
    infer_instance
  cases lhs
  case path p =>
    refine Bounded.bind (inferInstance : Bounded k closureEnv) fun env => ?_
    have hc : ∀ env offset, Bounded k (assignCapture rec op env offset rhs) := fun _ _ => by
      unfold assignCapture
      clear he
      infer_instance
    have hg : ∀ slot, Bounded k (assignGlobal rec op slot rhs) := fun _ => by
      unfold assignGlobal
      clear he
      infer_instance
    clear he
    cases p.captureOffset <;> cases env <;> cases p.globalSlot <;> dsimp only <;> infer_instance
  case field obj offset =>
    have := he obj (by decreasing_tactic)
    unfold lowerStore assignField
    clear he
    infer_instance
  case index obj idx =>
    have := he obj (by decreasing_tactic)
    have := he idx (by decreasing_tactic)
    unfold lowerStore assignIndex
    clear he
    infer_instance
  all_goals exact hp

theorem bounded_lowerStmt {st : HirStmt HirExpr}
    (h : ∀ e, sizeOf e < sizeOf st → Bounded k (rec e)) : Bounded k (lowerStmt rec st) := by
  refine Bounded.bind inferInstance fun b => ?_
  cases b with
  | true => exact (inferInstance : Bounded k (pure ()))
  | false =>
    cases st with
    | let_ pat init =>
      have := h init (by decreasing_tactic)
      clear h
      cases pat <;> dsimp only <;> infer_instance
    | expr e =>
      cases e with
      | none => exact (inferInstance : Bounded k (pure ()))
      | some e =>
        have := h e (by decreasing_tactic)
        clear h
        dsimp only
        infer_instance

theorem bounded_lowerStmts {sts : List (HirStmt HirExpr)}
    (h : ∀ st ∈ sts, ∀ e, sizeOf e < sizeOf st → Bounded k (rec e)) :
    Bounded k (lowerStmts rec sts) := by
  induction sts with
  | nil => exact (inferInstance : Bounded k (pure ()))
  | cons st sts ih =>
    have := ih fun st' hst => h st' (List.mem_cons_of_mem _ hst)
    have := bounded_lowerStmt (h st List.mem_cons_self)
    unfold lowerStmts
    infer_instance

theorem bounded_bindPayloads (scrut : LocalId) (ps : List (Option HirPat × ℕ)) :
    Bounded k (bindPayloads scrut ps) := by
  induction ps with
  | nil => exact (inferInstance : Bounded k (pure ()))
  | cons p ps ih =>
    obtain ⟨_ | ⟨_ | _ | _⟩, i⟩ := p <;> unfold bindPayloads <;> infer_instance

instance (scrut : LocalId) (c : Condition HirExpr) : Bounded k (bindArm scrut c) := by
  have := bounded_bindPayloads (k := k)
  rcases c with e | (_ | (_ | ⟨name, mut_⟩ | ⟨elems, i⟩)) | _ <;> unfold bindArm <;> dsimp only <;>
    infer_instance

theorem bounded_lowerCheck (scrut : LocalId) {c : Condition HirExpr} (bodyB next : BlockId)
    (h : ∀ e, sizeOf e < sizeOf c → Bounded k (rec e)) :
    Bounded k (lowerCheck rec scrut c bodyB next) := by
  rcases c with e | (_ | (_ | ⟨name, mut_⟩ | ⟨elems, i⟩)) | _
  case expr =>
    have := h e (by decreasing_tactic)
    clear h
    unfold lowerCheck
    infer_instance
  all_goals
    clear h
    unfold lowerCheck
    dsimp only
    infer_instance

theorem bounded_lowerArms {scrut result : LocalId} {exitB elseB : BlockId}
    {arms : List (HirWhenArm HirExpr × BlockId × BlockId)}
    (h : ∀ arm ∈ arms, ∀ e, sizeOf e < sizeOf arm.1 → Bounded k (rec e)) :
    Bounded k (lowerArms rec scrut result exitB elseB arms) := by
  induction arms with
  | nil => exact (inferInstance : Bounded k (pure ()))
  | cons arm arms ih =>
    obtain ⟨⟨c, body, isElse⟩, checkB, bodyB⟩ := arm
    have hrest := ih fun arm' hm => h arm' (List.mem_cons_of_mem _ hm)
    have harm := h _ List.mem_cons_self
    have hbody := harm body (by decreasing_tactic)
    have hcheck := fun next => bounded_lowerCheck scrut bodyB next
      fun e (he : sizeOf e < sizeOf c) => harm e (by decreasing_tactic)
    clear h harm
    unfold lowerArms lowerArm
    infer_instance

theorem bounded_newArmBlocks {arms : List (HirWhenArm HirExpr)}
    {g : List (HirWhenArm HirExpr × BlockId × BlockId) → LowerM LocalId}
    (hg : ∀ checks, checks.map Prod.fst = arms → Bounded k (g checks)) :
    Bounded k (newArmBlocks arms >>= g) := by
  induction arms generalizing g with
  | nil => exact hg [] rfl
  | cons arm arms ih =>
    simp only [newArmBlocks, bind_assoc, pure_bind]
    refine Bounded.bind inferInstance fun checkB => Bounded.bind inferInstance fun bodyB => ?_
    exact ih fun checks hc => hg _ (congrArg (arm :: ·) hc)

instance (elseArm : Option (HirWhenArm HirExpr)) (exitB : BlockId) :
    Bounded k (newElse elseArm exitB) := by
  cases elseArm <;> unfold newElse <;> infer_instance

instance (checks : List (HirWhenArm HirExpr × BlockId × BlockId)) :
    Bounded k (enterChecks checks) := by
  cases checks <;> unfold enterChecks <;> infer_instance

theorem bounded_lowerElseArm (result : LocalId) (exitB : BlockId)
    {arm : Option (HirWhenArm HirExpr)} (h : ∀ a ∈ arm, Bounded k (rec a.body)) :
    Bounded k (lowerElseArm rec result exitB arm) := by
  cases arm with
  | some arm =>
    have := h arm rfl
    clear h
    unfold lowerElseArm
    infer_instance
  | none => exact (inferInstance : Bounded k (pure ()))

theorem bounded_lowerWhen {scrut : Option HirExpr} {arms : List (HirWhenArm HirExpr)}
    (hs : ∀ e ∈ scrut, Bounded k (rec e))
    (h : ∀ arm ∈ arms, ∀ e, sizeOf e < sizeOf arm → Bounded k (rec e)) :
    Bounded k (lowerWhen rec scrut arms) := by
  unfold lowerWhen
  split
  · infer_instance
  refine Bounded.bind (bounded_lowerOption hs) fun sc => Bounded.bind inferInstance fun exitB => ?_
  refine Bounded.bind inferInstance fun result => bounded_newArmBlocks fun checks hc => ?_
  have harms : ∀ elseB, Bounded k (lowerArms rec sc result exitB elseB checks) := fun elseB => by
    refine bounded_lowerArms fun arm ha => h arm.1 ?_
    refine List.mem_of_mem_eraseP (p := fun arm => arm.isElse) ?_
    rw [← hc]
    exact List.mem_map_of_mem ha
  have helse : Bounded k (lowerElseArm rec result exitB (arms.find? fun arm => arm.isElse)) := by
    refine bounded_lowerElseArm _ _ fun a ha => h a (List.mem_of_find?_eq_some ha) _ ?_
    obtain ⟨c, body, isElse⟩ := a
    decreasing_tactic
  clear hs h
  infer_instance

theorem bounded_lowerCatches {finallyBody : Option HirExpr} (l : Scope) (r : List LocalId)
    (result exception : LocalId) (normalFinallyB nextTest : BlockId)
    {clauses : List (HirCatchClause HirExpr)}
    (h : ∀ c ∈ clauses, Bounded (k + finallyBody.elim 0 fun f => sizeOf f + 1) (rec c.body)) :
    Bounded k (lowerCatches rec finallyBody l r result exception normalFinallyB nextTest
      clauses) := by
  induction clauses generalizing nextTest with
  | nil => exact (inferInstance : Bounded k (pure nextTest))
  | cons clause clauses ih =>
    have hrest := fun next => ih next fun c hc => h c (List.mem_cons_of_mem _ hc)
    have hbody := bounded_withFinalizer false l r exception (h clause List.mem_cons_self)
    clear h
    unfold lowerCatches
    infer_instance

instance (result v : LocalId) : Bounded k (finishTry result v) := by
  unfold finishTry
  infer_instance

instance (value : LocalId) : Bounded k (throwWith value) := by
  unfold throwWith
  infer_instance

instance (exception : LocalId) : Bounded k (rethrow exception) := by
  unfold rethrow
  infer_instance

theorem bounded_lowerFinally {e : Option HirExpr} (h : ∀ e' ∈ e, Bounded k (rec e')) :
    Bounded k (lowerFinally rec e) := by
  cases e with
  | some e =>
    have := h e rfl
    clear h
    unfold lowerFinally
    infer_instance
  | none => exact (inferInstance : Bounded k (pure ()))

theorem bounded_lowerTryCatch {body : HirExpr} {catches : List (HirCatchClause HirExpr)}
    {finallyBody : Option HirExpr}
    (hb : Bounded (k + finallyBody.elim 0 fun f => sizeOf f + 1) (rec body))
    (hc : ∀ c ∈ catches, Bounded (k + finallyBody.elim 0 fun f => sizeOf f + 1) (rec c.body))
    (hf : ∀ e ∈ finallyBody, Bounded k (rec e)) :
    Bounded k (lowerTryCatch rec body catches finallyBody) := by
  have hbody := fun l r x => bounded_withFinalizer true l r x hb
  have hcatch := fun l r v x i j => bounded_lowerCatches l r v x i j hc
  have hfinally := bounded_lowerFinally hf
  clear hb hc hf
  refine Bounded.bind inferInstance fun s => Bounded.bind inferInstance fun result => ?_
  refine Bounded.bind inferInstance fun exception => Bounded.bind inferInstance fun handlerB => ?_
  refine Bounded.bind inferInstance fun normalB => Bounded.bind inferInstance fun excB => ?_
  refine Bounded.bind inferInstance fun mergeB => Bounded.bind inferInstance fun _ => ?_
  refine Bounded.bind inferInstance fun _ => Bounded.bind inferInstance fun _ => ?_
  refine Bounded.bind inferInstance fun _ => Bounded.bind inferInstance fun nextTest => ?_
  infer_instance

instance (val : Operand) : Bounded k (returnWith val) := by
  unfold returnWith
  infer_instance

section Kinds

variable {e e' : HirExpr} {es : List HirExpr}

instance (val : Constant) : Bounded k (lowerLit val) := by
  unfold lowerLit
  infer_instance

instance (isNull : Bool) : Bounded k (lowerNull isNull) := by
  unfold lowerNull
  infer_instance

instance (name : String) (typeId : ℕ) (captures : List HirClosureCapture) :
    Bounded k (lowerClosure name typeId captures) := by
  unfold lowerClosure
  infer_instance

theorem bounded_lowerAggregate (kind : AggregateKind) (name : String)
    (h : Bounded k (lowerAll rec es)) : Bounded k (lowerAggregate rec kind name es) := by
  unfold lowerAggregate
  infer_instance

theorem bounded_lowerStruct (size typeId : ℕ) (h : ∀ e ∈ es, Bounded k (rec e)) :
    Bounded k (lowerStruct rec size typeId es) := by
  have hmem : ∀ p ∈ es.zipIdx.map fun p => (p.2 * 9, p.1), p.2 ∈ es := fun p hp => by
    obtain ⟨q, hq, rfl⟩ := List.mem_map.mp hp
    exact List.fst_mem_of_mem_zipIdx hq
  have := fun obj => bounded_storeFields obj fun p hp => h p.2 (hmem p hp)
  clear h
  unfold lowerStruct
  infer_instance

theorem bounded_lowerEnumCtor (typeId variantIndex size : ℕ) (offsets : List ℕ)
    (h : ∀ e ∈ es, Bounded k (rec e)) :
    Bounded k (lowerEnumCtor rec typeId variantIndex size offsets es) := by
  have hmem : ∀ p ∈ offsets.zip es, p.2 ∈ es := fun p hp => (List.of_mem_zip hp).2
  have := fun obj => bounded_storeFields obj fun p hp => h p.2 (hmem p hp)
  clear h
  unfold lowerEnumCtor
  infer_instance

theorem bounded_lowerCall (label : String) (h : Bounded k (lowerAll rec es)) :
    Bounded k (lowerCall rec label es) := by
  unfold lowerCall
  infer_instance

theorem bounded_lowerCallValue (he : Bounded k (rec e)) (h : Bounded k (lowerAll rec es)) :
    Bounded k (lowerCallValue rec e es) := by
  unfold lowerCallValue
  infer_instance

theorem bounded_lowerMethodCall (dispatch : Dispatch) (he : Bounded k (rec e))
    (h : Bounded k (lowerAll rec es)) : Bounded k (lowerMethodCall rec e dispatch es) := by
  unfold lowerMethodCall
  cases dispatch <;> dsimp only <;> infer_instance

theorem bounded_lowerWith (name : String) (rv : LocalId → Rvalue) (he : Bounded k (rec e)) :
    Bounded k (lowerWith rec e name rv) := by
  unfold lowerWith
  infer_instance

theorem bounded_lowerIndex (he : Bounded k (rec e)) (he' : Bounded k (rec e')) :
    Bounded k (lowerIndex rec e e') := by
  unfold lowerIndex
  infer_instance

theorem bounded_lowerIsNot (typeId : ℕ) (he : Bounded k (rec e)) :
    Bounded k (lowerIsNot rec e typeId) := by
  unfold lowerIsNot
  infer_instance

theorem bounded_lowerBlock {sts : List (HirStmt HirExpr)} {tail : Option HirExpr}
    (hs : Bounded k (lowerStmts rec sts)) (ht : Bounded k (lowerTail rec tail)) :
    Bounded k (lowerBlock rec sts tail) := by
  unfold lowerBlock
  infer_instance

theorem bounded_lowerWhile (label : Option String) (he : Bounded k (rec e))
    (he' : Bounded k (rec e')) : Bounded k (lowerWhile rec e e' label) := by
  unfold lowerWhile
  infer_instance

theorem bounded_lowerLoop (repeats : Bool) (label : Option String) (he : Bounded k (rec e)) :
    Bounded k (lowerLoop rec repeats e label) := by
  unfold lowerLoop
  infer_instance

theorem bounded_lowerForceUnwrap (he : Bounded k (rec e)) :
    Bounded k (lowerForceUnwrap rec e) := by
  unfold lowerForceUnwrap
  infer_instance

theorem bounded_lowerElvis (he : Bounded k (rec e)) (he' : Bounded k (rec e')) :
    Bounded k (lowerElvis rec e e') := by
  unfold lowerElvis
  infer_instance

theorem bounded_lowerSafeCall (method : String) (he : Bounded k (rec e))
    (h : Bounded k (lowerAll rec es)) : Bounded k (lowerSafeCall rec e method es) := by
  refine Bounded.bind he fun r => Bounded.bind inferInstance fun result => ?_
  refine Bounded.bind inferInstance fun callB => Bounded.bind inferInstance fun nullB => ?_
  refine Bounded.bind inferInstance fun mergeB => Bounded.bind inferInstance fun _ => ?_
  refine Bounded.bind inferInstance fun _ => Bounded.bind inferInstance fun _ => ?_
  infer_instance

theorem bounded_lowerSafeField (offset : ℕ) (he : Bounded k (rec e)) :
    Bounded k (lowerSafeField rec e offset) := by
  unfold lowerSafeField
  infer_instance

variable (hfin : ∀ e j, sizeOf e + j < k → Bounded j (rec e))
include hfin

theorem bounded_lowerBreak (label : Option String) {o : Option HirExpr}
    (ho : Bounded k (lowerOption rec o)) : Bounded k (lowerBreak rec label o) := by
  have := fun depth r t => bounded_exitWith hfin depth r (term t)
  clear hfin
  unfold lowerBreak
  infer_instance

theorem bounded_lowerContinue (label : Option String) : Bounded k (lowerContinue rec label) := by
  have := fun depth r t => bounded_exitWith hfin depth r (term t)
  clear hfin
  unfold lowerContinue
  infer_instance

theorem bounded_lowerReturn {o : Option HirExpr} (ho : Bounded k (lowerOption rec o)) :
    Bounded k (lowerReturn rec o) := by
  have := fun r val => bounded_exitWith hfin 0 r (returnWith val)
  clear hfin
  unfold lowerReturn
  infer_instance

theorem bounded_lowerThrow (he : Bounded k (rec e)) : Bounded k (lowerThrow rec e) := by
  have := fun depth r val => bounded_exitWith hfin depth r (throwWith val)
  clear hfin
  unfold lowerThrow
  infer_instance

end Kinds

theorem HirExpr.sizeOf_pos (e : HirExpr) : 0 < sizeOf e := by
  cases e <;> decreasing_tactic

/-- A node whose parts and finally bodies have enough fuel. -/
theorem bounded_lowerNode {e : HirExpr} (he : sizeOf e + k < n + 1)
    (hrec : ∀ e j, sizeOf e + j < n → Bounded j (rec e)) : Bounded k (lowerNode rec e) := by
  have hpart : ∀ e', sizeOf e' < sizeOf e → Bounded k (rec e') := fun e' h => hrec e' k (by omega)
  have hexit : ∀ e' j, sizeOf e' + j < k → Bounded j (rec e') := fun e' j h =>
    hrec e' j (by omega)
  have hlist : ∀ es : List HirExpr, sizeOf es < sizeOf e → Bounded k (lowerAll rec es) :=
    fun es h => bounded_lowerAll fun e' he' =>
      hpart e' (Nat.lt_trans (List.sizeOf_lt_of_mem he') h)
  have hopt : ∀ o : Option HirExpr, sizeOf o < sizeOf e → ∀ e' ∈ o, Bounded k (rec e') :=
    fun o h e' he' => hpart e' (by subst he'; simp at h; omega)
  cases e with
  | lit val => exact (inferInstance : Bounded k (lowerLit val))
  | null isNull => exact (inferInstance : Bounded k (lowerNull isNull))
  | path p => exact (inferInstance : Bounded k (lowerPath p))
  | closure name envTypeId captures =>
    exact (inferInstance : Bounded k (lowerClosure name envTypeId captures))
  | tuple es | array es => exact bounded_lowerAggregate _ _ (hlist es (by decreasing_tactic))
  | struct size typeId es =>
    refine bounded_lowerStruct _ _ fun e' h => hpart e' ?_
    have := List.sizeOf_lt_of_mem h
    simp
    omega
  | enumCtor typeId variantIndex size offsets es =>
    refine bounded_lowerEnumCtor _ _ _ _ fun e' h => hpart e' ?_
    have := List.sizeOf_lt_of_mem h
    simp
    omega
  | call label es => exact bounded_lowerCall _ (hlist es (by decreasing_tactic))
  | callValue f es =>
    exact bounded_lowerCallValue (hpart f (by decreasing_tactic)) (hlist es (by decreasing_tactic))
  | methodCall r dispatch es =>
    exact bounded_lowerMethodCall _ (hpart r (by decreasing_tactic))
      (hlist es (by decreasing_tactic))
  | safeCall r method es =>
    exact bounded_lowerSafeCall _ (hpart r (by decreasing_tactic)) (hlist es (by decreasing_tactic))
  | field e | unary op e | is e =>
    exact bounded_lowerWith _ _ (hpart e (by decreasing_tactic))
  | ref m e | deref e | cast e => exact bounded_lowerWith _ _ (hpart e (by decreasing_tactic))
  | index a b =>
    exact bounded_lowerIndex (hpart a (by decreasing_tactic)) (hpart b (by decreasing_tactic))
  | binary op a b =>
    refine bounded_lowerBinary (hpart a (by decreasing_tactic)) (hpart b (by decreasing_tactic))
      fun v => ?_
    have : 0 < sizeOf op := by cases op <;> simp
    have := a.sizeOf_pos
    have := b.sizeOf_pos
    exact hpart _ (by decreasing_tactic)
  | assign op lhs rhs =>
    refine Bounded.bind (bounded_lowerStore (hpart rhs (by decreasing_tactic)) fun e' h =>
      hpart e' ?_) fun _ => inferInstance
    simp
    omega
  | block sts tail =>
    refine bounded_lowerBlock (bounded_lowerStmts fun st hst e' h => hpart e' ?_)
      (bounded_lowerTail (hopt tail (by decreasing_tactic)))
    have := List.sizeOf_lt_of_mem hst
    simp
    omega
  | if_ c t o =>
    exact bounded_lowerIf (hpart c (by decreasing_tactic)) (hpart t (by decreasing_tactic))
      (hopt o (by decreasing_tactic))
  | while_ c b label =>
    exact bounded_lowerWhile _ (hpart c (by decreasing_tactic)) (hpart b (by decreasing_tactic))
  | for_ b label | loop b label => exact bounded_lowerLoop _ _ (hpart b (by decreasing_tactic))
  | when scrut arms =>
    refine bounded_lowerWhen (hopt scrut (by decreasing_tactic)) fun arm harm e' h => hpart e' ?_
    have := List.sizeOf_lt_of_mem harm
    simp
    omega
  | break_ label o =>
    exact bounded_lowerBreak hexit label (bounded_lowerOption (hopt o (by decreasing_tactic)))
  | continue_ label => exact bounded_lowerContinue hexit label
  | return_ o =>
    exact bounded_lowerReturn hexit (bounded_lowerOption (hopt o (by decreasing_tactic)))
  | throw e => exact bounded_lowerThrow hexit (hpart e (by decreasing_tactic))
  | tryCatch b cs o =>
    have hsize : sizeOf (HirExpr.tryCatch b cs o) = 1 + sizeOf b + sizeOf cs + sizeOf o := by simp
    have ho : (o.elim 0 fun f => sizeOf f + 1) ≤ sizeOf o := by
      cases o with
      | none => exact Nat.zero_le _
      | some f => exact Nat.le_of_eq (Nat.add_comm _ _)
    refine bounded_lowerTryCatch (hrec b _ (by omega)) (fun c hc => hrec c.body _ ?_)
      (hopt o (by omega))
    have := List.sizeOf_lt_of_mem hc
    have : sizeOf c.body < sizeOf c := by
      obtain ⟨name, typeId, body⟩ := c
      decreasing_tactic
    omega
  | try_ e => exact hpart e (by decreasing_tactic)
  | safeField e offset => exact bounded_lowerSafeField _ (hpart e (by decreasing_tactic))
  | elvis a b =>
    exact bounded_lowerElvis (hpart a (by decreasing_tactic)) (hpart b (by decreasing_tactic))
  | forceUnwrap e => exact bounded_lowerForceUnwrap (hpart e (by decreasing_tactic))
  | isNot e typeId => exact bounded_lowerIsNot _ (hpart e (by decreasing_tactic))

theorem bounded_lowerExpr {e : HirExpr} (h : sizeOf e + k < n) : Bounded k (lowerExpr n e) := by
  induction n generalizing e k with
  | zero => omega
  | succ n ih =>
    have := bounded_lowerNode h fun e j he => ih he
    unfold lowerExpr
    infer_instance

end Nodes

section Bodies

variable {n : ℕ}

instance (result : LocalId) : Bounded 0 (finishBody result) := by
  have := fun exitB => bounded_modify (k := 0) (f := fun s => { s with
    blocks := s.blocks.modify exitB fun b => { b with term := .return_ } }) fun _ => rfl
  unfold finishBody
  infer_instance

instance (obj : LocalId) (p : HirCtorParam) : Bounded 0 (storeParam obj p) := by
  unfold storeParam
  split
  · refine Bounded.bind inferInstance fun o => ?_
    cases o <;> dsimp only <;> infer_instance
  · infer_instance

instance (obj : LocalId) (ps : List HirCtorParam) : Bounded 0 (storeParams obj ps) := by
  induction ps with
  | nil => exact (inferInstance : Bounded 0 (pure ()))
  | cons p ps ih =>
    unfold storeParams
    infer_instance

theorem bounded_body {body : HirExpr} (h : sizeOf body < n) :
    Bounded 0 (lowerExpr n body >>= finishBody) := by
  have := bounded_lowerExpr (k := 0) h
  infer_instance

theorem HirClass.sizeOf_parts (cls : HirClass) : sizeOf cls.superClassArgs < sizeOf cls ∧
    sizeOf cls.fields < sizeOf cls ∧ sizeOf cls.initBlocks < sizeOf cls := by
  obtain ⟨_⟩ := cls
  simp
  omega

theorem bounded_lowerCtorBody {cls : HirClass} (h : sizeOf cls < n) :
    Bounded 0 (lowerCtorBody (lowerExpr n) cls) := by
  obtain ⟨hs, hf, hi⟩ := cls.sizeOf_parts
  have hsuper : ∀ p ∈ superFields cls, Bounded 0 (lowerExpr n p.2) := fun p hp => by
    obtain ⟨q, hq, rfl⟩ := List.mem_map.mp hp
    have := List.sizeOf_lt_of_mem (List.fst_mem_of_mem_zipIdx hq)
    exact bounded_lowerExpr (e := q.1) (by omega)
  have hown : ∀ p ∈ ownFields cls, Bounded 0 (lowerExpr n p.2) := fun p hp => by
    obtain ⟨f, hmem, hp⟩ := List.mem_filterMap.mp hp
    obtain ⟨e, he, rfl⟩ := Option.map_eq_some_iff.mp hp
    have := List.sizeOf_lt_of_mem hmem
    have : sizeOf e < sizeOf f := by
      obtain ⟨offset, init⟩ := f
      subst he
      simp
      omega
    exact bounded_lowerExpr (e := e) (by omega)
  have hinit : ∀ e ∈ cls.initBlocks, Bounded 0 (lowerExpr n e) := fun e he => by
    have := List.sizeOf_lt_of_mem he
    exact bounded_lowerExpr (by omega)
  have h₁ := fun obj => bounded_storeFields obj hsuper
  have h₂ := fun obj => bounded_storeFields obj hown
  have h₃ := bounded_lowerAll hinit
  clear hsuper hown hinit
  unfold lowerCtorBody
  infer_instance

end Bodies

end Loxis.Lowering
