import Loxis.Lowering.Evaluator
import Loxis.Lowering.Fuel

/-! # The lowering of orderly expressions

An orderly expression is lowered without a failure. The lowering only appends to blocks, leaves the
loops around as they are, and leaves the names that were bound before with their locals.
-/

namespace Loxis.Lowering

open Function

section Rules

variable {α β : Type} {names : List String}

/-- From `s` to `s'` blocks only grow, and the surroundings and the locals of `names` stay. -/
structure Grown (names : List String) (s s' : LowerState) : Prop where
  stmts : ∀ (i : BlockId) (b : BasicBlock), s.blocks[i]? = some b →
    ∃ b' : BasicBlock, s'.blocks[i]? = some b' ∧ b.stmts <+: b'.stmts
  loops : s'.loopStack = s.loopStack
  finals : s'.finallyStack = s.finallyStack
  exit : s'.exitBlock = s.exitBlock
  env : s'.closureEnvLocal = s.closureEnvLocal
  scope : ∀ x ∈ names, s'.scope x = s.scope x
  locals : s.locals.length ≤ s'.locals.length

/-- Outside of `try` statements, `x` does not fail and only adds to the code. -/
class Lowers (names : List String) (x : LowerM α) : Prop where
  lowers : ∀ s, s.finallyStack = [] → ∃ a s', x s = .ok (a, s') ∧ Grown names s s'

variable {x : LowerM α} {g : α → LowerM β} {s s' t : LowerState}

theorem Grown.refl (names : List String) (s : LowerState) : Grown names s s where
  stmts _ b h := ⟨b, h, List.prefix_refl _⟩
  loops := rfl
  finals := rfl
  exit := rfl
  env := rfl
  scope _ _ := rfl
  locals := Nat.le_refl _

theorem Grown.trans (h : Grown names s t) (h' : Grown names t s') : Grown names s s' where
  stmts i b hb := by
    obtain ⟨b₁, hb₁, hp₁⟩ := h.stmts i b hb
    obtain ⟨b₂, hb₂, hp₂⟩ := h'.stmts i b₁ hb₁
    exact ⟨b₂, hb₂, hp₁.trans hp₂⟩
  loops := h'.loops.trans h.loops
  finals := h'.finals.trans h.finals
  exit := h'.exit.trans h.exit
  env := h'.env.trans h.env
  scope x hx := (h'.scope x hx).trans (h.scope x hx)
  locals := Nat.le_trans h.locals h'.locals

theorem Grown.mono {names' : List String} (h : Grown names s s') (hn : names' ⊆ names) :
    Grown names' s s' :=
  { h with scope := fun x hx => h.scope x (hn hx) }

/-- What changes no block. -/
theorem grown_of_same (hb : s'.blocks = s.blocks) (hl : s'.loopStack = s.loopStack)
    (hf : s'.finallyStack = s.finallyStack) (he : s'.exitBlock = s.exitBlock)
    (hc : s'.closureEnvLocal = s.closureEnvLocal) (hs : ∀ x ∈ names, s'.scope x = s.scope x)
    (hlen : s.locals.length ≤ s'.locals.length) : Grown names s s' :=
  ⟨fun _ b h => ⟨b, hb ▸ h, List.prefix_refl _⟩, hl, hf, he, hc, hs, hlen⟩

/-- What changes the current block. -/
theorem grown_of_modify {f : BasicBlock → BasicBlock} {i : BlockId} {b : Bool}
    (hf : ∀ b, b.stmts <+: (f b).stmts) :
    Grown names s { s with blocks := s.blocks.modify i f, blockTerminated := b } where
  stmts j b hb := by
    by_cases hij : i = j
    · exact ⟨f b, by simp [hij, hb], hf b⟩
    · exact ⟨b, by simp [hij, hb], List.prefix_refl _⟩
  loops := rfl
  finals := rfl
  exit := rfl
  env := rfl
  scope _ _ := rfl
  locals := Nat.le_refl _

section Primitives

variable (names s)

theorem grown_declare (name : String) (m : Bool) : Grown names s (s.declare name m) :=
  grown_of_same rfl rfl rfl rfl rfl (fun _ _ => rfl) (by simp)

theorem grown_grow : Grown names s s.grow where
  stmts _ b hb := ⟨b,
    (List.getElem?_append_left (List.getElem?_eq_some_iff.mp hb).1).trans hb, List.prefix_refl _⟩
  loops := rfl
  finals := rfl
  exit := rfl
  env := rfl
  scope _ _ := rfl
  locals := Nat.le_refl _

theorem grown_push (st : Statement) : Grown names s (s.push st) :=
  grown_of_modify fun _ => List.prefix_append _ _

theorem grown_close (t : Terminator) : Grown names s (s.close t) :=
  grown_of_modify fun _ => List.prefix_refl _

theorem grown_goTo (b : BlockId) : Grown names s (s.goTo b) :=
  grown_of_same rfl rfl rfl rfl rfl (fun _ _ => rfl) (Nat.le_refl _)

end Primitives

theorem Lowers.bind (hx : Lowers names x) (hg : ∀ a, Lowers names (g a)) :
    Lowers names (x >>= g) where
  lowers s hs := by
    obtain ⟨a, t, ha, hst⟩ := hx.lowers s hs
    obtain ⟨b, s', hb, hts⟩ := (hg a).lowers t (hst.finals.trans hs)
    exact ⟨b, s', (bind_of_ok ha).trans hb, hst.trans hts⟩

theorem Lowers.mono {names' : List String} (h : Lowers names x) (hn : names' ⊆ names) :
    Lowers names' x where
  lowers s hs := by
    obtain ⟨a, s', ha, hg⟩ := h.lowers s hs
    exact ⟨a, s', ha, hg.mono hn⟩

theorem Lowers.grown {a : α} (h : Lowers names x) (hs : s.finallyStack = [])
    (hx : x s = .ok (a, s')) : Grown names s s' := by
  obtain ⟨b, t, hb, hg⟩ := h.lowers s hs
  cases hx.symm.trans hb
  exact hg

theorem lowers_of_ok (f : LowerState → α × LowerState)
    (h : ∀ s, x s = .ok (f s) ∧ Grown names s (f s).2) : Lowers names x where
  lowers s _ := ⟨(f s).1, (f s).2, (h s).1, (h s).2⟩

/-- What changes no block, no scope and no surroundings. -/
theorem lowers_of_quiet (f : LowerState → α × LowerState)
    (h : ∀ s, x s = .ok (f s) ∧ (f s).2.blocks = s.blocks ∧ (f s).2.loopStack = s.loopStack ∧
      (f s).2.finallyStack = s.finallyStack ∧ (f s).2.exitBlock = s.exitBlock ∧
      (f s).2.closureEnvLocal = s.closureEnvLocal ∧ (f s).2.scope = s.scope ∧
      s.locals.length ≤ (f s).2.locals.length) : Lowers names x :=
  lowers_of_ok f fun s =>
    let ⟨hx, hb, hl, hf, he, hc, hs, hlen⟩ := h s
    ⟨hx, grown_of_same hb hl hf he hc (fun _ _ => by rw [hs]) hlen⟩

instance (a : α) : Lowers names (pure a : LowerM α) :=
  lowers_of_ok (fun s => (a, s)) fun s => ⟨rfl, .refl names s⟩

instance [hx : Lowers names x] [hg : ∀ a, Lowers names (g a)] : Lowers names (x >>= g) :=
  hx.bind hg

instance {p : Prop} [Decidable p] {x x' : LowerM α} [hx : Lowers names x]
    [hx' : Lowers names x'] : Lowers names (if p then x else x') := by
  split
  · exact hx
  · exact hx'

instance (name : String) (mut_ : Bool) : Lowers names (newLocal name mut_) :=
  lowers_of_ok _ fun s => ⟨rfl, grown_declare names s name mut_⟩

instance : Lowers names newBlock := lowers_of_ok _ fun s => ⟨rfl, grown_grow names s⟩

instance (st : Statement) : Lowers names (emit st) :=
  lowers_of_ok _ fun s => ⟨rfl, by
    dsimp only
    split
    · exact .refl names s
    · exact grown_push names s st⟩

instance (t : Terminator) : Lowers names (term t) :=
  lowers_of_ok _ fun s => ⟨rfl, by
    dsimp only
    split
    · exact .refl names s
    · exact grown_close names s t⟩

instance (b : Bool) : Lowers names (mark b) :=
  lowers_of_quiet _ fun s => ⟨rfl, by
    dsimp only
    split <;> exact ⟨rfl, rfl, rfl, rfl, rfl, rfl, Nat.le_refl _⟩⟩

instance (b : BlockId) : Lowers names (startBlock b) :=
  lowers_of_ok _ fun s => ⟨rfl, grown_goTo names s b⟩

instance : Lowers names isTerminated :=
  lowers_of_quiet _ fun _ => ⟨rfl, rfl, rfl, rfl, rfl, rfl, rfl, Nat.le_refl _⟩

instance : Lowers names terminate :=
  lowers_of_quiet _ fun _ => ⟨rfl, rfl, rfl, rfl, rfl, rfl, rfl, Nat.le_refl _⟩

instance : Lowers names closureEnv :=
  lowers_of_quiet _ fun _ => ⟨rfl, rfl, rfl, rfl, rfl, rfl, rfl, Nat.le_refl _⟩

instance (name : String) : Lowers names (resolve name) :=
  lowers_of_quiet _ fun _ => ⟨rfl, rfl, rfl, rfl, rfl, rfl, rfl, Nat.le_refl _⟩

instance : Lowers names (get : LowerM LowerState) :=
  lowers_of_quiet _ fun _ => ⟨rfl, rfl, rfl, rfl, rfl, rfl, rfl, Nat.le_refl _⟩

instance : Lowers names finallyDepth :=
  lowers_of_quiet _ fun _ => ⟨rfl, rfl, rfl, rfl, rfl, rfl, rfl, Nat.le_refl _⟩

instance (label : Option String) : Lowers names (findLoop label) :=
  lowers_of_quiet _ fun _ => ⟨rfl, rfl, rfl, rfl, rfl, rfl, rfl, Nat.le_refl _⟩

theorem lowers_bindLocal {name : String} (l : LocalId) (h : name ∉ names) :
    Lowers names (bindLocal name l) :=
  lowers_of_ok _ fun _ => ⟨rfl, grown_of_same rfl rfl rfl rfl rfl
    (fun x hx => update_of_ne (fun he => h (by rw [← he]; exact hx)) _ _) (Nat.le_refl _)⟩

instance : Lowers names unitLocal := by
  unfold unitLocal
  infer_instance

instance : Lowers names scratchLocal where
  lowers s _ := by
    unfold scratchLocal
    split
    · exact ⟨_, s, rfl, .refl names s⟩
    · exact ⟨_, _, rfl, grown_of_same rfl rfl rfl rfl rfl (fun _ _ => rfl) (by simp)⟩

theorem lowers_modify {f : LowerState → LowerState}
    (h : ∀ s, (f s).blocks = s.blocks ∧ (f s).loopStack = s.loopStack ∧
      (f s).finallyStack = s.finallyStack ∧ (f s).exitBlock = s.exitBlock ∧
      (f s).closureEnvLocal = s.closureEnvLocal ∧ (f s).scope = s.scope ∧
      (f s).locals = s.locals) : Lowers names (modify f : LowerM Unit) :=
  lowers_of_quiet (fun s => ((), f s)) fun s =>
    let ⟨hb, hl, hf, he, hc, hs, hlen⟩ := h s
    ⟨rfl, hb, hl, hf, he, hc, hs, Nat.le_of_eq (by rw [hlen])⟩

instance [Lowers names x] : Lowers names (inScope x) := by
  have (s : LowerState) :
      Lowers names (modify fun t => { t with lexical := s.lexical } : LowerM Unit) :=
    lowers_modify fun _ => ⟨rfl, rfl, rfl, rfl, rfl, rfl, rfl⟩
  unfold inScope
  infer_instance

instance (r : List LocalId) [Lowers names x] : Lowers names (atRegions r x) := by
  have h (r : List LocalId) :
      Lowers names (modify fun t => { t with regions := r } : LowerM Unit) :=
    lowers_modify fun _ => ⟨rfl, rfl, rfl, rfl, rfl, rfl, rfl⟩
  unfold atRegions
  infer_instance

instance (i j : BlockId) (label : Option String) [hx : Lowers names x] :
    Lowers names (withLoop i j label x) where
  lowers s hs := by
    obtain ⟨a, t, ha, hg⟩ := hx.lowers { s with
      loopStack := ⟨i, j, label, s.finallyStack.length, s.regions⟩ :: s.loopStack } hs
    refine ⟨a, { t with loopStack := t.loopStack.tail }, ?_, hg.stmts, ?_, hg.finals, hg.exit,
      hg.env, hg.scope, hg.locals⟩
    · unfold withLoop
      exact (bind_of_ok rfl).trans ((bind_of_ok ha).trans rfl)
    · exact congrArg List.tail hg.loops

end Rules

section Exits

variable {rec : HirExpr → LowerM LocalId} {s : LowerState}

theorem lowerFinalizersTo_nil (h : s.finallyStack = []) (depth : ℕ) :
    lowerFinalizersTo rec depth s = .ok (true, s) := by
  obtain ⟨_⟩ := s
  obtain rfl := h
  unfold lowerFinalizersTo
  refine (bind_of_ok rfl).trans ((bind_of_ok rfl).trans ?_)
  simp only [List.take_nil, List.drop_nil, runFinalizers]
  rfl

/-- Without finally bodies an exit just leaves. -/
theorem exitWith_nil (rec : HirExpr → LowerM LocalId) (h : s.finallyStack = []) (depth : ℕ)
    (target : Option (List LocalId)) (leave : LowerM Unit) :
    ∃ b, exitWith rec depth target leave s = (do mark b; leave) s := by
  refine ⟨target.all fun r =>
    r = afterFinalizers s.regions (s.finallyStack.take (s.finallyStack.length - depth)), ?_⟩
  exact (bind_of_ok rfl).trans (bind_of_ok (lowerFinalizersTo_nil h depth))

instance (names : List String) (depth : ℕ) (target : Option (List LocalId))
    (leave : LowerM Unit) [hl : Lowers names leave] :
    Lowers names (exitWith rec depth target leave) where
  lowers s hs := by
    obtain ⟨b, hb⟩ := exitWith_nil rec hs depth target leave
    rw [hb]
    exact (inferInstance : Lowers names (do mark b; leave)).lowers s hs

end Exits

-- A node of many steps needs a large instance.
set_option synthInstance.maxSize 2000

section Nodes

variable {rec : HirExpr → LowerM LocalId} {names : List String} {e e' : HirExpr}
  {es : List HirExpr}

instance (op : MirAssignOp) (rd wr : String) (old : Rvalue) (rhs : LocalId) :
    Lowers names (combine op rd wr old rhs) := by
  unfold combine
  infer_instance

instance (t : LocalId → BlockId → Terminator) : Lowers names (finishCall t) := by
  unfold finishCall
  infer_instance

instance (result v : LocalId) (exitB : BlockId) : Lowers names (finishBranch result v exitB) := by
  unfold finishBranch
  infer_instance

instance (val : Operand) : Lowers names (returnWith val) := by
  unfold returnWith
  infer_instance

instance (value : LocalId) : Lowers names (throwWith value) := by
  unfold throwWith
  infer_instance

instance (p : HirPath) : Lowers names (lowerPath p) := by
  unfold lowerPath
  cases p.globalSlot with
  | some slot =>
    dsimp only
    infer_instance
  | none =>
    refine Lowers.bind inferInstance fun o => ?_
    cases o with
    | some l => exact (inferInstance : Lowers names (pure l))
    | none =>
      refine Lowers.bind inferInstance fun env => ?_
      cases p.captureOffset <;> cases env <;> dsimp only <;> infer_instance

theorem lowers_lowerAll (h : ∀ e ∈ es, Lowers names (rec e)) : Lowers names (lowerAll rec es) := by
  induction es with
  | nil => exact (inferInstance : Lowers names (pure []))
  | cons e es ih =>
    have := h e List.mem_cons_self
    have := ih fun e' he => h e' (List.mem_cons_of_mem _ he)
    unfold lowerAll
    infer_instance

theorem lowers_storeFields (rec : HirExpr → LowerM LocalId) (obj : LocalId)
    {ps : List (ℕ × HirExpr)} (h : ∀ p ∈ ps, Lowers names (rec p.2)) :
    Lowers names (storeFields rec obj ps) := by
  induction ps with
  | nil => exact (inferInstance : Lowers names (pure ()))
  | cons p ps ih =>
    have := h p List.mem_cons_self
    have := ih fun q hq => h q (List.mem_cons_of_mem _ hq)
    unfold storeFields
    infer_instance

theorem lowers_lowerElse (result : LocalId) (mergeB : BlockId) {o : Option HirExpr}
    (h : ∀ e ∈ o, Lowers names (rec e)) : Lowers names (lowerElse rec result mergeB o) := by
  cases o with
  | none =>
    unfold lowerElse
    infer_instance
  | some e =>
    have := h e rfl
    unfold lowerElse
    infer_instance

theorem lowers_lowerIf {o : Option HirExpr} (hc : Lowers names (rec e)) (ht : Lowers names (rec e'))
    (ho : ∀ e ∈ o, Lowers names (rec e)) : Lowers names (lowerIf rec e e' o) := by
  have := fun result mergeB => lowers_lowerElse result mergeB ho
  unfold lowerIf
  infer_instance

theorem lowers_lowerOption {o : Option HirExpr} (h : ∀ e ∈ o, Lowers names (rec e)) :
    Lowers names (lowerOption rec o) := by
  cases o with
  | none => exact (inferInstance : Lowers names (pure 0))
  | some e => exact h e rfl

theorem lowers_lowerTail {o : Option HirExpr} (h : ∀ e ∈ o, Lowers names (rec e)) :
    Lowers names (lowerTail rec o) := by
  cases o with
  | none => exact (inferInstance : Lowers names unitLocal)
  | some e => exact h e rfl

theorem lowers_lowerWith (name : String) (rv : LocalId → Rvalue) (h : Lowers names (rec e)) :
    Lowers names (lowerWith rec e name rv) := by
  unfold lowerWith
  infer_instance

instance (p : HirPath) : Lowers names (lowerPlace rec (.path p)) := by
  refine Lowers.bind inferInstance fun o => ?_
  cases o <;> dsimp only <;> infer_instance

theorem lowers_storePath (op : MirAssignOp) (p : HirPath) (h : Lowers names (rec e)) :
    Lowers names (lowerStore rec op (.path p) e) := by
  refine Lowers.bind inferInstance fun env => ?_
  unfold assignCapture assignGlobal assignPlace
  cases p.captureOffset <;> cases env <;> cases p.globalSlot <;> dsimp only <;> infer_instance

theorem lowers_storeField (op : MirAssignOp) {obj : HirExpr} (offset : ℕ)
    (ho : Lowers names (rec obj)) (h : Lowers names (rec e)) :
    Lowers names (lowerStore rec op (.field obj offset) e) := by
  unfold lowerStore assignField
  infer_instance

theorem lowers_storeIndex (op : MirAssignOp) {obj idx : HirExpr} (ho : Lowers names (rec obj))
    (hi : Lowers names (rec idx)) (h : Lowers names (rec e)) :
    Lowers names (lowerStore rec op (.index obj idx) e) := by
  unfold lowerStore assignIndex
  infer_instance

theorem lowers_lowerStmts {sts : List (HirStmt HirExpr)} {waiting : List String}
    {loops : List (Option String)} (h : orderlyStmts names waiting loops sts = true)
    (hrec : ∀ names e, orderly names waiting loops e = true → sizeOf e < sizeOf sts →
      Lowers names (rec e)) : Lowers names (lowerStmts rec sts) := by
  induction sts generalizing names with
  | nil => exact (inferInstance : Lowers names (pure ()))
  | cons st sts ih =>
    have ih' (names : List String) (h : orderlyStmts names waiting loops sts = true) :
        Lowers names (lowerStmts rec sts) :=
      ih h fun names' e he hlt => hrec names' e he (by simp; omega)
    obtain ⟨_ | ⟨name, m⟩ | _, e⟩ | (_ | e) := st
    · simp only [orderlyStmts, Bool.and_eq_true] at h
      have := hrec names e h.1 (by simp; omega)
      have := ih' names h.2
      unfold lowerStmts lowerStmt
      infer_instance
    · simp only [orderlyStmts, Bool.and_eq_true, Bool.not_eq_true', List.contains_eq_mem,
        decide_eq_false_iff_not] at h
      have := hrec names e h.1.1 (by simp; omega)
      have := (ih' (name :: names) h.2).mono (List.subset_cons_self name names)
      have := fun l => lowers_bindLocal l h.1.2
      unfold lowerStmts lowerStmt
      infer_instance
    · cases h
    · have := ih' names h
      unfold lowerStmts lowerStmt
      infer_instance
    · simp only [orderlyStmts, Bool.and_eq_true] at h
      have := hrec names e h.1 (by simp; omega)
      have := ih' names h.2
      unfold lowerStmts lowerStmt
      infer_instance

end Nodes

section Orderly

variable {names waiting : List String} {loops : List (Option String)} {e : HirExpr}
  {es : List HirExpr}

theorem orderly_of_mem_each (h : orderlyEach names waiting loops es = true) (he : e ∈ es) :
    orderly names waiting loops e = true := by
  induction es with
  | nil => cases he
  | cons e' es ih =>
    simp only [orderlyEach, Bool.and_eq_true] at h
    rcases List.mem_cons.mp he with rfl | he
    · exact h.1
    · exact ih h.2 he

theorem orderly_of_mem_all (h : orderlyAll names waiting loops es = true) (he : e ∈ es) :
    ∃ waiting', orderly names waiting' loops e = true := by
  induction es generalizing waiting with
  | nil => cases he
  | cons e' es ih =>
    simp only [orderlyAll, Bool.and_eq_true] at h
    rcases List.mem_cons.mp he with rfl | he
    · exact ⟨waiting, h.1⟩
    · exact ih h.2 he

theorem declared_subset (sts : List (HirStmt HirExpr)) (names : List String) :
    names ⊆ declared sts names := by
  induction sts generalizing names with
  | nil => exact List.Subset.refl names
  | cons st sts ih =>
    obtain ⟨_ | ⟨name, m⟩ | _, e⟩ | (_ | e) := st
    · exact ih names
    · exact List.Subset.trans (List.subset_cons_self name names) (ih (name :: names))
    · exact ih names
    · exact ih names
    · exact ih names

end Orderly

/-- An orderly node whose parts are lowered. -/
theorem lowers_lowerNode {rec : HirExpr → LowerM LocalId} {names waiting : List String}
    {loops : List (Option String)} {e : HirExpr} (h : orderly names waiting loops e = true)
    (hrec : ∀ names waiting loops e', orderly names waiting loops e' = true → sizeOf e' < sizeOf e →
      Lowers names (rec e')) : Lowers names (lowerNode rec e) := by
  have hall : ∀ waiting es, orderlyAll names waiting loops es = true → sizeOf es < sizeOf e →
      Lowers names (lowerAll rec es) := fun waiting es hes hlt => lowers_lowerAll fun e' he' =>
    have ⟨waiting', ho⟩ := orderly_of_mem_all hes he'
    hrec names waiting' loops e' ho (Nat.lt_trans (List.sizeOf_lt_of_mem he') hlt)
  have hopt : ∀ names o, orderlyOption names waiting loops o = true → sizeOf o < sizeOf e →
      ∀ e' ∈ o, Lowers names (rec e') := fun names o ho hlt e' he' => by
    obtain rfl := he'
    exact hrec names waiting loops e' ho (by simp at hlt; omega)
  cases e with
  | lit val =>
    unfold lowerNode lowerLit
    infer_instance
  | null isNull =>
    unfold lowerNode lowerNull
    infer_instance
  | path p => exact (inferInstance : Lowers names (lowerPath p))
  | tuple es | array es =>
    have := hall waiting es h (by decreasing_tactic)
    unfold lowerNode lowerAggregate
    infer_instance
  | struct size typeId es =>
    have (obj : LocalId) :
        Lowers names (storeFields rec obj (es.zipIdx.map fun p => (p.2 * 9, p.1))) := by
      refine lowers_storeFields rec obj fun p hp => ?_
      obtain ⟨q, hq, rfl⟩ := List.mem_map.mp hp
      have hmem := List.fst_mem_of_mem_zipIdx hq
      have := List.sizeOf_lt_of_mem hmem
      exact hrec names waiting loops q.1 (orderly_of_mem_each h hmem) (by simp; omega)
    clear hrec hall hopt
    unfold lowerNode lowerStruct
    infer_instance
  | enumCtor typeId variantIndex size offsets es =>
    have (obj : LocalId) : Lowers names (storeFields rec obj (offsets.zip es)) := by
      refine lowers_storeFields rec obj fun p hp => ?_
      have hmem := (List.of_mem_zip hp).2
      have := List.sizeOf_lt_of_mem hmem
      exact hrec names waiting loops p.2 (orderly_of_mem_each h hmem) (by simp; omega)
    clear hrec hall hopt
    unfold lowerNode lowerEnumCtor
    infer_instance
  | call label es =>
    have := hall waiting es h (by decreasing_tactic)
    unfold lowerNode lowerCall
    infer_instance
  | callValue f es =>
    simp only [orderly, Bool.and_eq_true] at h
    have := hrec names waiting loops f h.1 (by decreasing_tactic)
    have := hall _ es h.2 (by decreasing_tactic)
    unfold lowerNode lowerCallValue
    infer_instance
  | methodCall r dispatch es =>
    simp only [orderly, Bool.and_eq_true] at h
    have := hrec names waiting loops r h.1 (by decreasing_tactic)
    have := hall _ es h.2 (by decreasing_tactic)
    unfold lowerNode lowerMethodCall
    cases dispatch <;> dsimp only <;> infer_instance
  | field e offset | is e offset =>
    exact lowers_lowerWith _ _ (hrec names waiting loops e h (by decreasing_tactic))
  | deref e | cast e =>
    exact lowers_lowerWith _ _ (hrec names waiting loops e h (by decreasing_tactic))
  | unary op e =>
    simp only [orderly, Bool.and_eq_true] at h
    exact lowers_lowerWith _ _ (hrec names waiting loops e h.2 (by decreasing_tactic))
  | isNot e typeId =>
    have := hrec names waiting loops e h (by decreasing_tactic)
    unfold lowerNode lowerIsNot
    infer_instance
  | index l r =>
    simp only [orderly, Bool.and_eq_true] at h
    have := hrec _ _ _ l h.1 (by decreasing_tactic)
    have := hrec _ _ _ r h.2 (by decreasing_tactic)
    unfold lowerNode lowerIndex
    infer_instance
  | binary op l r =>
    simp only [orderly, Bool.and_eq_true] at h
    have hl := hrec _ _ _ l h.1 (by decreasing_tactic)
    have hr := hrec _ _ _ r h.2 (by decreasing_tactic)
    have hlit : ∀ b, Lowers names (rec (.lit (.bool b))) := fun b =>
      hrec names waiting loops _ rfl (by
        have := l.sizeOf_pos
        have := r.sizeOf_pos
        have : 0 < sizeOf op := by cases op <;> simp
        decreasing_tactic)
    have hand : Lowers names (lowerIf rec l r (some (.lit (.bool false)))) :=
      lowers_lowerIf hl hr fun e he => Option.some.inj he ▸ hlit false
    have hor : Lowers names (lowerIf rec l (.lit (.bool true)) (some r)) :=
      lowers_lowerIf hl (hlit true) fun e he => Option.some.inj he ▸ hr
    clear hrec hall hopt
    unfold lowerNode lowerBinary
    cases op <;> dsimp only <;> infer_instance
  | assign op lhs rhs =>
    have hstore : Lowers names (lowerStore rec op lhs rhs) := by
      cases lhs with
      | path p =>
        simp only [orderly, Bool.and_eq_true] at h
        exact lowers_storePath op p (hrec _ _ _ rhs h.1 (by decreasing_tactic))
      | field obj offset =>
        simp only [orderly, Bool.and_eq_true] at h
        exact lowers_storeField op offset (hrec _ _ _ obj h.1 (by decreasing_tactic))
          (hrec _ _ _ rhs h.2 (by decreasing_tactic))
      | index obj idx =>
        simp only [orderly, Bool.and_eq_true] at h
        exact lowers_storeIndex op (hrec _ _ _ obj h.1.1 (by decreasing_tactic))
          (hrec _ _ _ idx h.1.2 (by decreasing_tactic)) (hrec _ _ _ rhs h.2 (by decreasing_tactic))
      | _ => simp [orderly] at h
    clear hrec hall hopt
    unfold lowerNode lowerAssign
    infer_instance
  | block sts tail =>
    simp only [orderly, Bool.and_eq_true] at h
    have := lowers_lowerStmts h.1 fun names e he hlt => hrec names _ _ e he (by simp; omega)
    have := (lowers_lowerTail (hopt _ tail h.2 (by decreasing_tactic))).mono
      (declared_subset sts names)
    clear hrec hall hopt
    unfold lowerNode lowerBlock
    infer_instance
  | if_ c t o =>
    simp only [orderly, Bool.and_eq_true] at h
    exact lowers_lowerIf (hrec _ _ _ c h.1.1 (by decreasing_tactic))
      (hrec _ _ _ t h.1.2 (by decreasing_tactic)) (hopt _ o h.2 (by decreasing_tactic))
  | while_ c b label =>
    simp only [orderly, Bool.and_eq_true] at h
    have := hrec _ _ _ c h.1 (by decreasing_tactic)
    have := hrec _ _ _ b h.2 (by decreasing_tactic)
    unfold lowerNode lowerWhile
    infer_instance
  | for_ b label | loop b label =>
    have := hrec _ _ _ b h (by decreasing_tactic)
    unfold lowerNode lowerLoop
    infer_instance
  | break_ label o =>
    simp only [orderly, Bool.and_eq_true] at h
    have := lowers_lowerOption (hopt _ o h.1 (by decreasing_tactic))
    unfold lowerNode lowerBreak
    infer_instance
  | continue_ label =>
    unfold lowerNode lowerContinue
    infer_instance
  | return_ o =>
    have := lowers_lowerOption (hopt _ o h (by decreasing_tactic))
    unfold lowerNode lowerReturn
    infer_instance
  | throw e =>
    have := hrec _ _ _ e h (by decreasing_tactic)
    unfold lowerNode lowerThrow
    infer_instance
  | try_ e => exact hrec _ _ _ e h (by decreasing_tactic)
  | safeField e offset =>
    have := hrec _ _ _ e h (by decreasing_tactic)
    unfold lowerNode lowerSafeField
    infer_instance
  | elvis l r =>
    simp only [orderly, Bool.and_eq_true] at h
    have := hrec _ _ _ l h.1 (by decreasing_tactic)
    have := hrec _ _ _ r h.2 (by decreasing_tactic)
    unfold lowerNode lowerElvis
    infer_instance
  | forceUnwrap e =>
    have := hrec _ _ _ e h (by decreasing_tactic)
    unfold lowerNode lowerForceUnwrap
    infer_instance
  | ref | when | tryCatch | safeCall | closure => simp [orderly] at h

/-- An orderly expression is lowered. -/
theorem lowers_lowerExpr {n : ℕ} {names waiting : List String} {loops : List (Option String)}
    {e : HirExpr} (h : orderly names waiting loops e = true) (hn : sizeOf e < n) :
    Lowers names (lowerExpr n e) := by
  induction n generalizing names waiting loops e with
  | zero => omega
  | succ n ih =>
    have : Lowers names (lowerNode (lowerExpr n) e) :=
      lowers_lowerNode h fun _ _ _ _ ho hlt => ih ho (by omega)
    unfold lowerExpr
    infer_instance

end Loxis.Lowering
