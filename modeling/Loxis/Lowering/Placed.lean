import Loxis.Lib.Simulation
import Loxis.Lowering.Lower

/-! # Code stays where it is placed

The lowering of an expression writes to the current block and to blocks that it makes itself.
The blocks in place before it, but for the current one, are the same after it.
-/

namespace Loxis.Lowering

section Rules

variable {α β : Type} {n : ℕ} {K : List ℕ} {c : BlockId}

/-- There are `n` blocks and the blocks `K` after them, and the current block is `c` or comes after
the first `n`. -/
structure Standing (n : ℕ) (K : List ℕ) (c : BlockId) (s : LowerState) : Prop where
  base : n ≤ s.blocks.length
  made : ∀ k ∈ K, n + k < s.blocks.length
  current : s.currentBlock = c ∨ n ≤ s.currentBlock
  exists_ : s.currentBlock < s.blocks.length

/-- From `s` to `s'` the first `n` blocks but for block `c` are the same. -/
structure Beyond (n : ℕ) (c : BlockId) (s s' : LowerState) : Prop where
  blocks : ∀ i < n, i ≠ c → s'.blocks[i]? = s.blocks[i]?
  length : s.blocks.length ≤ s'.blocks.length
  locals : s.locals.length ≤ s'.locals.length

/-- `x` leaves the first `n` blocks but for block `c` as they are. It goes only to new blocks and to
the blocks `K`. -/
class Local (n : ℕ) (K : List ℕ) (c : BlockId) (x : LowerM α) : Prop where
  beyond : ∀ s a s', Standing n K c s → x s = .ok (a, s') → Beyond n c s s' ∧ Standing n K c s'

variable {x : LowerM α} {g : α → LowerM β} {s s' t : LowerState}

theorem Beyond.refl (n : ℕ) (c : BlockId) (s : LowerState) : Beyond n c s s :=
  ⟨fun _ _ _ => rfl, Nat.le_refl _, Nat.le_refl _⟩

theorem Beyond.trans (h : Beyond n c s t) (h' : Beyond n c t s') : Beyond n c s s' where
  blocks i hi hc := (h'.blocks i hi hc).trans (h.blocks i hi hc)
  length := Nat.le_trans h.length h'.length
  locals := Nat.le_trans h.locals h'.locals

/-- What changes at most the current block, and stays there. -/
theorem local_of_current (f : LowerState → α × LowerState)
    (h : ∀ s, x s = .ok (f s) ∧ (f s).2.blocks.length = s.blocks.length ∧
      (∀ i ≠ s.currentBlock, (f s).2.blocks[i]? = s.blocks[i]?) ∧
      (f s).2.currentBlock = s.currentBlock ∧ s.locals.length ≤ (f s).2.locals.length) :
    Local n K c x where
  beyond s a s' hs hx := by
    obtain ⟨hf, hb, hi, hcur, hl⟩ := h s
    rw [hf] at hx
    rw [Except.ok.inj hx] at hb hi hcur hl
    have hstand : Standing n K c s' := by
      constructor
      · rw [hb]
        exact hs.base
      · rw [hb]
        exact hs.made
      · rw [hcur]
        exact hs.current
      · rw [hcur, hb]
        exact hs.exists_
    refine ⟨⟨fun i hlt hne => hi i fun h => ?_, Nat.le_of_eq hb.symm, hl⟩, hstand⟩
    rcases hs.current with hc | hc
    · exact hne (h.trans hc)
    · exact Nat.not_lt.mpr hc (h ▸ hlt)

/-- What changes no block. -/
theorem local_of_same (f : LowerState → α × LowerState)
    (h : ∀ s, x s = .ok (f s) ∧ (f s).2.blocks = s.blocks ∧
      (f s).2.currentBlock = s.currentBlock ∧ s.locals.length ≤ (f s).2.locals.length) :
    Local n K c x :=
  local_of_current f fun s =>
    ⟨(h s).1, by rw [(h s).2.1], fun i _ => by rw [(h s).2.1], (h s).2.2⟩

theorem Local.bind (hx : Local n K c x) (hg : ∀ a, Local n K c (g a)) :
    Local n K c (x >>= g) where
  beyond s b s' hs h := by
    obtain ⟨a, t, ha, hb⟩ := bind_eq_ok h
    obtain ⟨hst, ht⟩ := hx.beyond s a t hs ha
    obtain ⟨hts, hs'⟩ := (hg a).beyond t b s' ht hb
    exact ⟨hst.trans hts, hs'⟩

instance (a : α) : Local n K c (pure a : LowerM α) :=
  local_of_same (fun s => (a, s)) fun _ => ⟨rfl, rfl, rfl, Nat.le_refl _⟩

instance [hx : Local n K c x] [hg : ∀ a, Local n K c (g a)] : Local n K c (x >>= g) := hx.bind hg

instance {p : Prop} [Decidable p] {x x' : LowerM α} [hx : Local n K c x]
    [hx' : Local n K c x'] : Local n K c (if p then x else x') := by
  split
  · exact hx
  · exact hx'

/-- What follows a new block may go there. The number of the block is a sum for the search of
instances. -/
theorem Local.newBlock {g : BlockId → LowerM β} (hg : ∀ k, Local n (k :: K) c (g (n + k))) :
    Local n K c (Lowering.newBlock >>= g) where
  beyond s a s' hs h := by
    obtain ⟨b, t, hb, ha⟩ := bind_eq_ok h
    cases hb
    obtain ⟨k, hk⟩ := Nat.exists_eq_add_of_le hs.base
    have hst : Beyond n c s { s with blocks := s.blocks ++ [.new s.regions] } :=
      ⟨fun i hi _ => List.getElem?_append_left (Nat.lt_of_lt_of_le hi hs.base), by simp,
        Nat.le_refl _⟩
    have ht : Standing n (k :: K) c { s with blocks := s.blocks ++ [.new s.regions] } := by
      refine ⟨Nat.le_trans hs.base hst.length, List.forall_mem_cons.mpr ⟨?_, fun j hj => ?_⟩,
        hs.current, Nat.lt_of_lt_of_le hs.exists_ hst.length⟩
      · simp [hk]
      · exact Nat.lt_of_lt_of_le (hs.made j hj) hst.length
    rw [hk] at ha
    obtain ⟨hts, hs'⟩ := (hg k).beyond _ _ _ ht ha
    exact ⟨hst.trans hts, hs'.base, fun j hj => hs'.made j (List.mem_cons_of_mem _ hj),
      hs'.current, hs'.exists_⟩

instance (priority := high) {g : BlockId → LowerM β}
    [hg : ∀ k, Local n (k :: K) c (g (n + k))] : Local n K c (Lowering.newBlock >>= g) :=
  .newBlock hg

/-- Membership, for the search of instances. -/
class Made (k : ℕ) (K : List ℕ) : Prop where
  mem : k ∈ K

instance (k : ℕ) : Made k (k :: K) := ⟨List.mem_cons_self⟩

instance (j k : ℕ) [h : Made k K] : Made k (j :: K) := ⟨List.mem_cons_of_mem _ h.mem⟩

instance (k : ℕ) [h : Made k K] : Local n K c (startBlock (n + k)) where
  beyond s a s' hs hx := by
    cases hx
    exact ⟨⟨fun _ _ _ => rfl, Nat.le_refl _, Nat.le_refl _⟩, hs.base, hs.made,
      .inr (Nat.le_add_right n k), hs.made k h.mem⟩

instance (name : String) (mut_ : Bool) : Local n K c (newLocal name mut_) :=
  local_of_same _ fun _ => ⟨rfl, rfl, rfl, by simp⟩

theorem modify_other {bs : List BasicBlock} {f : BasicBlock → BasicBlock} {i j : ℕ} (h : i ≠ j) :
    (bs.modify j f)[i]? = bs[i]? := by
  simp [Ne.symm h]

instance (st : Statement) : Local n K c (emit st) :=
  local_of_current _ fun s => ⟨rfl, by
    dsimp only
    split
    · exact ⟨rfl, fun _ _ => rfl, rfl, Nat.le_refl _⟩
    · exact ⟨List.length_modify .., fun _ => modify_other, rfl, Nat.le_refl _⟩⟩

instance (t : Terminator) : Local n K c (term t) :=
  local_of_current _ fun s => ⟨rfl, by
    dsimp only
    split
    · exact ⟨rfl, fun _ _ => rfl, rfl, Nat.le_refl _⟩
    · exact ⟨List.length_modify .., fun _ => modify_other, rfl, Nat.le_refl _⟩⟩

instance (b : Bool) : Local n K c (mark b) :=
  local_of_same _ fun s => ⟨rfl, by dsimp only; split <;> exact ⟨rfl, rfl, Nat.le_refl _⟩⟩

instance : Local n K c isTerminated := local_of_same _ fun _ => ⟨rfl, rfl, rfl, Nat.le_refl _⟩

instance : Local n K c terminate := local_of_same _ fun _ => ⟨rfl, rfl, rfl, Nat.le_refl _⟩

instance : Local n K c closureEnv := local_of_same _ fun _ => ⟨rfl, rfl, rfl, Nat.le_refl _⟩

instance (name : String) : Local n K c (lookup name) :=
  local_of_same _ fun _ => ⟨rfl, rfl, rfl, Nat.le_refl _⟩

instance (name : String) : Local n K c (resolve name) :=
  local_of_same _ fun _ => ⟨rfl, rfl, rfl, Nat.le_refl _⟩

instance (name : String) (l : LocalId) : Local n K c (bindLocal name l) :=
  local_of_same _ fun _ => ⟨rfl, rfl, rfl, Nat.le_refl _⟩

instance (name : String) (l : Option LocalId) : Local n K c (setScope name l) :=
  local_of_same _ fun _ => ⟨rfl, rfl, rfl, Nat.le_refl _⟩

instance : Local n K c (get : LowerM LowerState) :=
  local_of_same _ fun _ => ⟨rfl, rfl, rfl, Nat.le_refl _⟩

instance : Local n K c finallyDepth := local_of_same _ fun _ => ⟨rfl, rfl, rfl, Nat.le_refl _⟩

instance (label : Option String) : Local n K c (findLoop label) :=
  local_of_same _ fun _ => ⟨rfl, rfl, rfl, Nat.le_refl _⟩

theorem local_modify {f : LowerState → LowerState}
    (h : ∀ s, (f s).blocks = s.blocks ∧ (f s).currentBlock = s.currentBlock ∧
      (f s).locals = s.locals) : Local n K c (modify f : LowerM Unit) :=
  local_of_same (fun s => ((), f s)) fun s => ⟨rfl, (h s).1, (h s).2.1,
    Nat.le_of_eq (by rw [(h s).2.2])⟩

instance : Local n K c unitLocal := by
  unfold unitLocal
  infer_instance

instance : Local n K c scratchLocal where
  beyond s a s' hs h := by
    unfold scratchLocal at h
    split at h
    · cases h
      exact ⟨.refl n c s, hs⟩
    · cases h
      exact ⟨⟨fun _ _ _ => rfl, Nat.le_refl _, by simp⟩, hs.base, hs.made, hs.current, hs.exists_⟩

instance [Local n K c x] : Local n K c (inScope x) := by
  have := fun s : LowerState => local_modify (n := n) (K := K) (c := c)
    (f := fun t => { t with lexical := s.lexical }) fun _ => ⟨rfl, rfl, rfl⟩
  unfold inScope
  infer_instance

instance (l : Scope) (r : List LocalId) [Local n K c x] : Local n K c (writtenAt l r x) := by
  have h := fun (l : Scope) r => local_modify (n := n) (K := K) (c := c)
    (f := fun t => { t with lexical := l, regions := r }) fun _ => ⟨rfl, rfl, rfl⟩
  unfold writtenAt
  infer_instance

instance (r : List LocalId) [Local n K c x] : Local n K c (atRegions r x) := by
  have h := fun r => local_modify (n := n) (K := K) (c := c)
    (f := fun t => { t with regions := r }) fun _ => ⟨rfl, rfl, rfl⟩
  unfold atRegions
  infer_instance

instance (l : LocalId) [Local n K c x] : Local n K c (inRegion l x) := by
  unfold inRegion
  infer_instance

instance (i j : BlockId) (label : Option String) [Local n K c x] :
    Local n K c (withLoop i j label x) := by
  have h := fun (f : LowerState → List LoopContext) => local_modify (n := n) (K := K) (c := c)
    (f := fun s => { s with loopStack := f s }) fun _ => ⟨rfl, rfl, rfl⟩
  have h₁ := h fun s => ⟨i, j, label, s.finallyStack.length, s.regions⟩ :: s.loopStack
  have h₂ := h fun s => s.loopStack.tail
  unfold withLoop
  infer_instance

theorem local_finals (f : LowerState → List Finalizer) :
    Local n K c (modify fun s => { s with finallyStack := f s } : LowerM Unit) :=
  local_modify fun _ => ⟨rfl, rfl, rfl⟩

instance (body : Option HirExpr) (active : Bool) (l : Scope) (r : List LocalId)
    (exception : LocalId) [hx : Local n K c x] :
    Local n K c (withFinalizer body active l r exception x) := by
  cases body with
  | none => exact hx
  | some f =>
    have h₁ := local_finals (n := n) (K := K) (c := c)
      fun s => ⟨f, active, l, r, exception⟩ :: s.finallyStack
    have h₂ := local_finals (n := n) (K := K) (c := c) fun s => s.finallyStack.tail
    unfold withFinalizer
    dsimp only
    infer_instance

end Rules

-- A node of many steps needs a large instance.
set_option synthInstance.maxSize 2000

section Nodes

variable {rec : HirExpr → LowerM LocalId} {n : ℕ} {K : List ℕ} {c : BlockId}
  [hrec : ∀ e K, Local n K c (rec e)]

instance (F : Finalizer) : Local n K c (popHandler F) := by
  unfold popHandler
  infer_instance

instance (r : List LocalId) (fs : List Finalizer) : Local n K c (runFinalizers rec r fs) := by
  induction fs generalizing r with
  | nil => exact (inferInstance : Local n K c (pure true))
  | cons F fs ih =>
    unfold runFinalizers
    infer_instance

instance (depth : ℕ) : Local n K c (lowerFinalizersTo rec depth) := by
  have h := fun f => local_finals (n := n) (K := K) (c := c) f
  unfold lowerFinalizersTo
  infer_instance

instance (depth : ℕ) (target : Option (List LocalId)) (leave : LowerM Unit)
    [Local n K c leave] : Local n K c (exitWith rec depth target leave) := by
  unfold exitWith
  infer_instance

instance (es : List HirExpr) : Local n K c (lowerAll rec es) := by
  induction es with
  | nil => exact (inferInstance : Local n K c (pure []))
  | cons e es ih =>
    unfold lowerAll
    infer_instance

instance (obj : LocalId) (es : List (ℕ × HirExpr)) : Local n K c (storeFields rec obj es) := by
  induction es with
  | nil => exact (inferInstance : Local n K c (pure ()))
  | cons e es ih =>
    unfold storeFields
    infer_instance

instance (captures : List HirClosureCapture) : Local n K c (lowerCaptures captures) := by
  induction captures with
  | nil => exact (inferInstance : Local n K c (pure []))
  | cons p ps ih =>
    refine Local.bind (inferInstance : Local n K c (lookup p.name)) fun o => ?_
    cases o with
    | some l =>
      dsimp only
      infer_instance
    | none =>
      refine Local.bind (inferInstance : Local n K c closureEnv) fun env => ?_
      cases p.sourceOffset <;> cases env <;> dsimp only <;> infer_instance

instance (p : HirPath) : Local n K c (lowerPath p) := by
  unfold lowerPath
  cases p.globalSlot with
  | some slot =>
    dsimp only
    infer_instance
  | none =>
    refine Local.bind (inferInstance : Local n K c (resolve p.name)) fun o => ?_
    cases o with
    | some l => exact (inferInstance : Local n K c (pure l))
    | none =>
      refine Local.bind (inferInstance : Local n K c closureEnv) fun env => ?_
      cases p.captureOffset <;> cases env <;> dsimp only <;> infer_instance

instance (t : LocalId → BlockId → Terminator) : Local n K c (finishCall t) := by
  unfold finishCall
  infer_instance

instance (result v : LocalId) (exitB : BlockId) : Local n K c (finishBranch result v exitB) := by
  unfold finishBranch
  infer_instance

instance (op : MirAssignOp) (rd wr : String) (old : Rvalue) (rhs : LocalId) :
    Local n K c (combine op rd wr old rhs) := by
  unfold combine
  infer_instance

instance (e : Option HirExpr) (result : LocalId) (mergeB : BlockId) :
    Local n K c (lowerElse rec result mergeB e) := by
  cases e <;> unfold lowerElse <;> infer_instance

instance (cond then_ : HirExpr) (else_ : Option HirExpr) :
    Local n K c (lowerIf rec cond then_ else_) := by
  unfold lowerIf
  infer_instance

instance (e : Option HirExpr) : Local n K c (lowerOption rec e) := by
  cases e with
  | some e => exact hrec e K
  | none => exact (inferInstance : Local n K c (pure 0))

instance (e : Option HirExpr) : Local n K c (lowerTail rec e) := by
  cases e with
  | some e => exact hrec e K
  | none => exact (inferInstance : Local n K c unitLocal)

instance (op : MirBinOp) (l r : HirExpr) : Local n K c (lowerBinary rec op l r) := by
  unfold lowerBinary
  cases op <;> dsimp only <;> infer_instance

instance (e : HirExpr) : Local n K c (lowerPlace rec e) := by
  cases e
  case path p =>
    refine Local.bind (inferInstance : Local n K c (resolve p.name)) fun o => ?_
    cases o <;> dsimp only <;> infer_instance
  case deref e => exact hrec e K
  case unary op e =>
    unfold lowerPlace
    infer_instance
  all_goals exact ⟨fun s _ _ _ h => nomatch h⟩

instance (op : MirAssignOp) (lhs rhs : HirExpr) : Local n K c (assignPlace rec op lhs rhs) := by
  unfold assignPlace
  infer_instance

instance (op : MirAssignOp) (lhs rhs : HirExpr) : Local n K c (lowerStore rec op lhs rhs) := by
  cases lhs
  case path p =>
    refine Local.bind (inferInstance : Local n K c closureEnv) fun env => ?_
    unfold assignCapture assignGlobal
    cases p.captureOffset <;> cases env <;> cases p.globalSlot <;> dsimp only <;> infer_instance
  case field obj offset =>
    unfold lowerStore assignField
    infer_instance
  case index obj idx =>
    unfold lowerStore assignIndex
    infer_instance
  all_goals exact (inferInstance : Local n K c (assignPlace rec op _ rhs))

instance (st : HirStmt HirExpr) : Local n K c (lowerStmt rec st) := by
  refine Local.bind inferInstance fun b => ?_
  cases b with
  | true => exact (inferInstance : Local n K c (pure ()))
  | false =>
    cases st with
    | let_ pat init => cases pat <;> dsimp only <;> infer_instance
    | expr e => cases e <;> dsimp only <;> infer_instance

instance (sts : List (HirStmt HirExpr)) : Local n K c (lowerStmts rec sts) := by
  induction sts with
  | nil => exact (inferInstance : Local n K c (pure ()))
  | cons st sts ih =>
    unfold lowerStmts
    infer_instance

theorem local_bindPayloads (scrut : LocalId) (ps : List (Option HirPat × ℕ)) :
    Local n K c (bindPayloads scrut ps) := by
  induction ps with
  | nil => exact (inferInstance : Local n K c (pure ()))
  | cons p ps ih =>
    obtain ⟨_ | ⟨_ | _ | _⟩, i⟩ := p <;> unfold bindPayloads <;> infer_instance

instance (scrut : LocalId) (cond : Condition HirExpr) : Local n K c (bindArm scrut cond) := by
  have := local_bindPayloads (n := n) (K := K) (c := c)
  rcases cond with e | (_ | (_ | ⟨name, mut_⟩ | ⟨elems, i⟩)) | _ <;> unfold bindArm <;>
    dsimp only <;> infer_instance

instance (scrut : LocalId) (cond : Condition HirExpr) (bodyB next : BlockId) :
    Local n K c (lowerCheck rec scrut cond bodyB next) := by
  rcases cond with e | (_ | (_ | ⟨name, mut_⟩ | ⟨elems, i⟩)) | _ <;> unfold lowerCheck <;>
    dsimp only <;> infer_instance

variable (rec) in
theorem local_lowerArms (scrut result : LocalId) (exitB elseB : BlockId)
    {arms : List (HirWhenArm HirExpr × BlockId × BlockId)}
    (h : ∀ arm ∈ arms, (∃ k ∈ K, arm.2.1 = n + k) ∧ ∃ k ∈ K, arm.2.2 = n + k) :
    Local n K c (lowerArms rec scrut result exitB elseB arms) := by
  induction arms with
  | nil => exact (inferInstance : Local n K c (pure ()))
  | cons arm arms ih =>
    have := ih fun arm' hm => h arm' (List.mem_cons_of_mem _ hm)
    obtain ⟨arm, checkB, bodyB⟩ := arm
    obtain ⟨⟨i, hi, rfl⟩, j, hj, rfl⟩ := h _ List.mem_cons_self
    have := Made.mk hi
    have := Made.mk hj
    unfold lowerArms lowerArm
    infer_instance

/-- The tests and the bodies of arms are in new blocks. -/
theorem local_newArmBlocks (arms : List (HirWhenArm HirExpr))
    {g : List (HirWhenArm HirExpr × BlockId × BlockId) → LowerM LocalId}
    (hg : ∀ checks K', K ⊆ K' → (∀ arm ∈ checks, (∃ k ∈ K', arm.2.1 = n + k) ∧
      ∃ k ∈ K', arm.2.2 = n + k) → Local n K' c (g checks)) :
    Local n K c (newArmBlocks arms >>= g) := by
  induction arms generalizing g K with
  | nil => exact hg [] K (List.Subset.refl K) nofun
  | cons arm arms ih =>
    simp only [newArmBlocks, bind_assoc, pure_bind]
    refine Local.newBlock fun i => Local.newBlock fun j => ih fun checks K' hK hc => ?_
    obtain ⟨hj, hi, hK⟩ : j ∈ K' ∧ i ∈ K' ∧ K ⊆ K' := by
      simpa [List.cons_subset] using hK
    exact hg _ K' hK (List.forall_mem_cons.mpr ⟨⟨⟨i, hi, rfl⟩, j, hj, rfl⟩, hc⟩)

/-- The arm without a test is in a new block, if there is one. -/
theorem local_newElse {elseArm : Option (HirWhenArm HirExpr)} {k : ℕ}
    {g : BlockId → LowerM LocalId} (hk : k ∈ K)
    (hg : ∀ j K', K ⊆ K' → j ∈ K' → Local n K' c (g (n + j))) :
    Local n K c (newElse elseArm (n + k) >>= g) := by
  cases elseArm with
  | none => exact hg k K (List.Subset.refl K) hk
  | some arm =>
    exact Local.newBlock fun j => hg j _ (List.subset_cons_self j K) List.mem_cons_self

instance (checks : List (HirWhenArm HirExpr × BlockId × BlockId)) :
    Local n K c (enterChecks checks) := by
  cases checks <;> unfold enterChecks <;> infer_instance

instance (result : LocalId) (exitB : BlockId) (arm : Option (HirWhenArm HirExpr)) :
    Local n K c (lowerElseArm rec result exitB arm) := by
  cases arm <;> unfold lowerElseArm <;> infer_instance

/-- The code of the arms, after their blocks. -/
def fromArms (rec : HirExpr → LowerM LocalId) (sc result : LocalId) (exitB : BlockId)
    (elseArm : Option (HirWhenArm HirExpr))
    (checks : List (HirWhenArm HirExpr × BlockId × BlockId)) (elseB : BlockId) :
    LowerM LocalId := do
  enterChecks checks
  lowerArms rec sc result exitB elseB checks
  startBlock elseB
  lowerElseArm rec result exitB elseArm
  startBlock exitB
  return result

variable (rec) in
theorem local_fromArms (sc result : LocalId) (elseArm : Option (HirWhenArm HirExpr))
    {checks : List (HirWhenArm HirExpr × BlockId × BlockId)} {i j : ℕ} (hi : i ∈ K) (hj : j ∈ K)
    (h : ∀ arm ∈ checks, (∃ k ∈ K, arm.2.1 = n + k) ∧ ∃ k ∈ K, arm.2.2 = n + k) :
    Local n K c (fromArms rec sc result (n + i) elseArm checks (n + j)) := by
  have := Made.mk hi
  have := Made.mk hj
  have := local_lowerArms rec (c := c) sc result (n + i) (n + j) h
  unfold fromArms
  infer_instance

instance (scrut : Option HirExpr) (arms : List (HirWhenArm HirExpr)) :
    Local n K c (lowerWhen rec scrut arms) := by
  unfold lowerWhen
  split
  · infer_instance
  refine Local.bind inferInstance fun sc => Local.newBlock fun i => ?_
  refine Local.bind inferInstance fun result => ?_
  refine local_newArmBlocks _ fun checks K' hK hc => ?_
  refine local_newElse (hK List.mem_cons_self) fun j K'' hK' hj => ?_
  exact local_fromArms rec sc result _ (hK' (hK List.mem_cons_self)) hj fun arm ha =>
    ⟨(hc arm ha).1.imp fun k hk => ⟨hK' hk.1, hk.2⟩,
      (hc arm ha).2.imp fun k hk => ⟨hK' hk.1, hk.2⟩⟩

variable (rec) in
/-- What follows the clauses may go to the block that none of them handles. -/
theorem local_lowerCatches {g : BlockId → LowerM LocalId}
    (hg : ∀ k K', K ⊆ K' → k ∈ K' → Local n K' c (g (n + k))) (finallyBody : Option HirExpr)
    (l : Scope) (r : List LocalId) (result exception : LocalId) (normalFinallyB : BlockId) {i : ℕ}
    (clauses : List (HirCatchClause HirExpr)) (hi : i ∈ K) :
    Local n K c
      (lowerCatches rec finallyBody l r result exception normalFinallyB (n + i) clauses >>= g) := by
  induction clauses generalizing i K with
  | nil => exact hg i K (List.Subset.refl K) hi
  | cons clause clauses ih =>
    have := Made.mk hi
    simp only [lowerCatches, bind_assoc]
    refine Local.bind inferInstance fun _ => Local.bind inferInstance fun matches_ => ?_
    refine Local.bind inferInstance fun _ => Local.newBlock fun j => Local.newBlock fun k => ?_
    have := ih (i := k) (K := k :: j :: K) (fun m K' hK => hg m K' fun a ha =>
      hK (List.mem_cons_of_mem _ (List.mem_cons_of_mem _ ha))) List.mem_cons_self
    infer_instance

instance (result v : LocalId) : Local n K c (finishTry result v) := by
  unfold finishTry
  infer_instance

instance (value : LocalId) : Local n K c (throwWith value) := by
  unfold throwWith
  infer_instance

instance (exception : LocalId) : Local n K c (rethrow exception) := by
  unfold rethrow
  infer_instance

instance (e : Option HirExpr) : Local n K c (lowerFinally rec e) := by
  cases e <;> unfold lowerFinally <;> infer_instance

/-- The code after the clauses of a try statement. -/
def afterCatches (rec : HirExpr → LowerM LocalId) (finallyBody : Option HirExpr)
    (result exception : LocalId) (normalFinallyB exceptionalFinallyB mergeB nextTest : BlockId) :
    LowerM LocalId := do
  startBlock nextTest
  term (.goto exceptionalFinallyB)
  startBlock normalFinallyB
  lowerFinally rec finallyBody
  term (.goto mergeB)
  startBlock exceptionalFinallyB
  lowerFinally rec finallyBody
  rethrow exception
  startBlock mergeB
  return result

variable (rec) in
theorem local_afterCatches (finallyBody : Option HirExpr) (result exception : LocalId)
    (i j k l : ℕ) [Made i K] [Made j K] [Made k K] [Made l K] :
    Local n K c
      (afterCatches rec finallyBody result exception (n + i) (n + j) (n + k) (n + l)) := by
  unfold afterCatches
  infer_instance

instance (body : HirExpr) (catches : List (HirCatchClause HirExpr))
    (finallyBody : Option HirExpr) : Local n K c (lowerTryCatch rec body catches finallyBody) := by
  refine Local.bind inferInstance fun s => Local.bind inferInstance fun result => ?_
  refine Local.bind inferInstance fun exception => Local.newBlock fun h => ?_
  refine Local.newBlock fun i => Local.newBlock fun j => Local.newBlock fun k => ?_
  refine Local.bind inferInstance fun _ => Local.bind inferInstance fun _ => ?_
  refine Local.bind inferInstance fun _ => Local.bind inferInstance fun _ => ?_
  refine local_lowerCatches rec (fun l K' hK hl => ?_) finallyBody s.lexical s.regions result
    exception (n + i) catches (by simp)
  obtain ⟨hk, hj, hi, -⟩ : k ∈ K' ∧ j ∈ K' ∧ i ∈ K' ∧ h :: K ⊆ K' := by
    simpa only [List.cons_subset] using hK
  have := Made.mk hi
  have := Made.mk hj
  have := Made.mk hk
  have := Made.mk hl
  exact local_afterCatches rec finallyBody result exception i j k l

instance (val : Operand) : Local n K c (returnWith val) := by
  unfold returnWith
  infer_instance

instance (recv : HirExpr) (dispatch : Dispatch) (args : List HirExpr) :
    Local n K c (lowerMethodCall rec recv dispatch args) := by
  unfold lowerMethodCall
  cases dispatch <;> dsimp only <;> infer_instance

instance (recv : HirExpr) (method : String) (args : List HirExpr) :
    Local n K c (lowerSafeCall rec recv method args) := by
  refine Local.bind (hrec recv K) fun r => Local.bind inferInstance fun result => ?_
  refine Local.newBlock fun i => Local.newBlock fun j => Local.newBlock fun k => ?_
  refine Local.bind inferInstance fun _ => Local.bind inferInstance fun _ => ?_
  infer_instance

instance local_lowerNode (e : HirExpr) : Local n K c (lowerNode rec e) := by
  cases e <;> dsimp only [lowerNode, lowerLit, lowerNull, lowerClosure, lowerAggregate,
    lowerStruct, lowerEnumCtor, lowerCall, lowerCallValue, lowerWith, lowerIndex, lowerUnary,
    lowerIsNot, lowerAssign, lowerBlock, lowerWhile, lowerLoop, lowerBreak, lowerContinue,
    lowerReturn, lowerThrow, lowerForceUnwrap, lowerElvis, lowerSafeField] <;> infer_instance

end Nodes

/-- The lowering of an expression leaves what is in place but for the current block. -/
instance local_lowerExpr {n : ℕ} {K : List ℕ} {c : BlockId} (fuel : ℕ) (e : HirExpr) :
    Local n K c (lowerExpr fuel e) := by
  induction fuel generalizing e K with
  | zero => exact ⟨fun _ _ _ _ h => nomatch h⟩
  | succ fuel ih =>
    unfold lowerExpr
    infer_instance

end Loxis.Lowering
