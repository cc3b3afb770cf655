import Loxis.Lowering.Simulates

/-! # Code without branches

Literals, names, operations on operands, calls, constructors and assignments.
-/

namespace Loxis.Lowering

open Function Eval
open Loxis.Backend (Value TAG_INT)

variable {W : Type} {O : Ops W} {blocks : List BasicBlock} {exit : BlockId} {m k : ℕ}
  {vrec : HirExpr → Eval W Value} {names waiting : List String} {loops : List (Option String)}
  {P P₀ : List BlockId} {s s₁ s' : LowerState} {ls ls₁ : LocalId → Value} {ρ : Env} {w : W}
  {e l r : HirExpr} {es : List HirExpr} {a : LocalId} {name : String}

section Steps

theorem value_services (x : Operand) : x.value O.services ls = x.value O.base ls := by
  rcases x with _ | _ | c | _
  · rfl
  · rfl
  · cases c <;> rfl
  · rfl

theorem map_value_copy (as : List LocalId) :
    (as.map Operand.copy).map (Operand.value O.base ls) = as.map ls := by
  rw [List.map_map]
  rfl

theorem Ready.block_ne (h : Ready names loops exit P s) : s.currentBlock ≠ exit :=
  ((h.apart.blank _ h.exit_mem).1).symm

/-- Where a statement is emitted. -/
theorem Ready.push (h : Ready names loops exit P s) (st : Statement) :
    Ready names loops exit P (s.push st) :=
  h.grown (grown_push names s st) h.flows (h.apart.push st) h.exit_mem

theorem Ready.declare (h : Ready names loops exit P s) (name : String) (b : Bool) :
    Ready names loops exit P (s.declare name b) :=
  h.grown (grown_declare names s name b) h.flows (h.apart.declare name b) h.exit_mem

/-- A value in a new local. -/
theorem Meets.finished {v : Value} (hM : Meets names waiting s ls ρ ls₁)
    (hR : Ready names loops exit P₀ s) (hg : Grown names s s₁) (hf : s'.blockTerminated = false)
    (ha : a = s₁.locals.length) (hlt : a < s'.locals.length) :
    Finished names waiting [] s s' ls a v ρ (s'.here (update ls₁ a v)) := by
  subst ha
  refine ⟨_, rfl, hf, hM.newLocal hR (.inr hg.locals), ?_, update_self ..⟩
  refine ⟨Nat.lt_of_lt_of_le hR.pos hg.locals, hlt, fun x hx hl => ?_⟩
  obtain ⟨l', hl', -, hlt⟩ := hR.scope x hx
  obtain rfl := Option.some.inj (hl.symm.trans hl')
  exact absurd hg.locals (Nat.not_le.mpr hlt)

/-- A statement that assigns to a new local. -/
def into (name : String) (rv : Rvalue) : LowerM LocalId := do
  let tmp ← newLocal name false
  emit (.assign tmp rv)
  return tmp

theorem into_eq (name : String) (rv : Rvalue) (h : s.blockTerminated = false) :
    into name rv s =
      .ok (s.locals.length, (s.declare name false).push (.assign s.locals.length rv)) := by
  rw [into, bind_of_ok (newLocal_eq _ _), bind_of_ok (emit_eq (s := s.declare name false) _ h)]
  rfl

theorem Settled.of_into {rv : Rvalue} (h : Settled P s' blocks)
    (hx : into name rv s = .ok (a, s')) : Settled P s blocks := by
  obtain ⟨tmp, s₁, h₁, hx⟩ := bind_eq_ok hx
  obtain ⟨_, s₂, h₂, hx⟩ := bind_eq_ok hx
  obtain ⟨-, rfl⟩ := pure_eq_ok hx
  cases h₁
  exact Settled.of_declare (h.of_emit h₂)

/-- Where a computation into a new local leaves the lowering. -/
theorem Ready.into {rv : Rvalue} (hR : Ready names loops exit P s)
    (hx : Lowering.into name rv s = .ok (a, s')) :
    Ready names loops exit P s' ∧ Grown names s s' ∧ a = s.locals.length ∧
      a < s'.locals.length := by
  rw [into_eq name rv hR.flows] at hx
  obtain ⟨rfl, rfl⟩ := Prod.mk.inj (Except.ok.inj hx)
  refine ⟨(hR.declare name false).push _, ?_, rfl, by simp⟩
  exact (grown_declare names s name false).trans (grown_push names _ _)

/-- A statement that assigns to a new local is one step. -/
theorem Settled.step_into {rv : Rvalue} (hS : Settled P s' blocks)
    (hR : Ready names loops exit P s) (hx : into name rv s = .ok (a, s')) :
    step O.services blocks (s.here ls) w =
      (Lowering.assign O.services a rv ls w).map s'.here := by
  rw [into_eq name rv hR.flows] at hx
  obtain ⟨rfl, rfl⟩ := Prod.mk.inj (Except.ok.inj hx)
  exact hS.step_push O.services ls w hR.apart.inside

/-- A computation into a new local. -/
theorem Fate.compute {op : Operation} {vs : List Value} {rv : Rvalue}
    {Q : Value → Env → Point → Prop} {E : Exit → Env → Point → Prop}
    (hR : Ready names loops exit P s₁) (hx : into name rv s₁ = .ok (a, s'))
    (hS : Settled P s' blocks)
    (hrv : Lowering.assign O.services a rv ls₁ w = (O.perform op vs w).map (update ls₁ a))
    (hQ : ∀ v, Q v ρ (s'.here (update ls₁ a v))) :
    Fate (machine O.services blocks exit) k (s₁.here ls₁, w) (Lowering.perform O op vs ρ w) E
      Q := by
  refine .operation hR.block_ne ?_ hQ
  rw [hS.step_into hR hx, hrv]
  cases O.perform op vs w <;> rfl

/-- A move into a new local. -/
theorem Fate.move {x : Operand} {α : Type} {y : Option (Result W α)} {E : Exit → Env → Point → Prop}
    {Q : α → Env → Point → Prop} (hR : Ready names loops exit P s₁)
    (hx : into name (.use x) s₁ = .ok (a, s')) (hS : Settled P s' blocks)
    (hy : Fate (machine O.services blocks exit) k (s'.here (update ls₁ a (x.value O.base ls₁)), w) y
      E Q) :
    Fate (machine O.services blocks exit) k (s₁.here ls₁, w) y E Q := by
  refine .step hR.block_ne (hS.step_into hR hx) ?_
  rw [value_services]
  exact hy

end Steps

section Leaves

/-- A constant. -/
theorem simulates_const (name : String) (c : Constant) (y : Value) (hy : y = c.value O.base) :
    Simulates O blocks exit k names waiting loops (into name (.use (.const c)))
      (pure y) [] := by
  intro P s a s' ls ρ w hR hx hS hA
  obtain ⟨hR', -, ha, hlt⟩ := hR.into hx
  subst hy
  refine .move hR hx hS (.done ?_)
  exact (Meets.refl hA).finished hR (.refl names s) hR'.flows ha hlt

theorem simulates_lit (c : Constant) :
    Simulates O blocks exit k names waiting loops (lowerNode (lowerExpr m) (.lit c))
      (evalNode O vrec (.lit c)) [] :=
  simulates_const "lit" c _ rfl

theorem simulates_null (isNull : Bool) :
    Simulates O blocks exit k names waiting loops (lowerNode (lowerExpr m) (.null isNull))
      (evalNode O vrec (.null isNull)) [] :=
  simulates_const "null" _ _ rfl

/-- A name stands for its local, a global is loaded. -/
theorem simulates_path {p : HirPath}
    (hp : orderly names waiting loops (.path p) = true) :
    Simulates O blocks exit k names waiting loops (lowerNode (lowerExpr m) (.path p))
      (evalNode O vrec (.path p)) (yields (.path p)) := by
  intro P s a s' ls ρ w hR hx hS hA
  simp only [orderly, Bool.or_eq_true, List.contains_eq_mem, decide_eq_true_eq] at hp
  change lowerPath p s = _ at hx
  unfold lowerPath at hx
  cases hg : p.globalSlot with
  | some slot =>
    have heval : evalNode O vrec (.path p) = perform O (.globalLoad slot) [] := by
      simp only [evalNode, hg]
    rw [hg] at hx
    rw [heval]
    change into "global" (.globalLoad slot) s = _ at hx
    obtain ⟨hR', -, ha, hlt⟩ := hR.into hx
    refine .compute hR hx hS rfl fun v => ?_
    simp only [yields, hg, Option.isNone_some, Bool.false_eq_true, if_false]
    exact (Meets.refl hA).finished hR (.refl names s) hR'.flows ha hlt
  | none =>
    have heval : evalNode O vrec (.path p) = readVar p.name := by simp only [evalNode, hg]
    rw [hg] at hx hp
    rw [heval]
    have hmem : p.name ∈ names := by simpa using hp
    obtain ⟨l, hl, hpos, hlt⟩ := hR.scope p.name hmem
    have hres : resolve p.name s = .ok (some l,
        { s with paths := ⟨s.scope p.name, s.lexical p.name⟩ :: s.paths }) := by
      rw [resolve, hl]
    change (resolve p.name >>= _) s = _ at hx
    rw [bind_of_ok hres] at hx
    obtain ⟨rfl, rfl⟩ := pure_eq_ok hx
    refine ⟨s.here ls, .refl _, ls, rfl, hR.flows, .refl hA, ⟨hpos, hlt, fun x hx' hxl => ?_⟩,
      hA p.name hmem l hl⟩
    simp only [yields, hg, Option.isNone_none, if_true, List.mem_singleton]
    exact hR.inj x hx' p.name hmem (hxl.trans hl.symm)

end Leaves

section Strict

variable {op : Operation}

theorem length_lowerAll {rec : HirExpr → LowerM LocalId} {as : List LocalId}
    (h : lowerAll rec es s = .ok (as, s')) : as.length = es.length := by
  induction es generalizing s as with
  | nil =>
    obtain ⟨rfl, -⟩ := pure_eq_ok h
    rfl
  | cons e es ih =>
    obtain ⟨a, s₁, ha, h⟩ := bind_eq_ok h
    obtain ⟨as', s₂, has, h⟩ := bind_eq_ok h
    obtain ⟨rfl, rfl⟩ := pure_eq_ok h
    simp [ih has]

/-- Operands, and a computation on their values. -/
theorem simulates_strict (rv : List LocalId → Rvalue)
    (h : PartAll O blocks exit m vrec k names waiting loops es)
    (hrv : ∀ as : List LocalId, as.length = es.length → ∀ ls w tmp,
      Lowering.assign O.services tmp (rv as) ls w =
        (O.perform op (as.map ls) w).map (update ls tmp)) :
    Simulates O blocks exit k names waiting loops
      (lowerAll (lowerExpr m) es >>= fun as => into name (rv as))
      (evalAll vrec es >>= perform O op) [] := by
  intro P s a s' ls ρ w hR hx hS hA
  obtain ⟨as, s₁, has, hx⟩ := bind_eq_ok hx
  refine h.bind (List.Subset.refl _) hR has (hS.of_into hx) (.refl names s) (.refl hA) ?_
  rintro vs ρ' w' ls' hR' hg' hM' - rfl
  obtain ⟨hR₂, -, ha, hlt⟩ := hR'.into hx
  refine .compute hR' hx hS (hrv as (length_lowerAll has) ls' w' a) fun v => ?_
  exact hM'.finished hR hg' hR₂.flows ha hlt

/-- One operand. -/
theorem simulates_with {rv : LocalId → Rvalue}
    (h : Part O blocks exit m vrec k names waiting loops e)
    (hrv : ∀ l ls w tmp, Lowering.assign O.services tmp (rv l) ls w =
      (O.perform op [ls l] w).map (update ls tmp)) :
    Simulates O blocks exit k names waiting loops (lowerWith (lowerExpr m) e name rv)
      (evalAll vrec [e] >>= perform O op) [] := by
  have heq : lowerWith (lowerExpr m) e name rv =
      lowerAll (lowerExpr m) [e] >>= fun as => into name (rv (as.headD 0)) := by
    simp only [lowerWith, lowerAll, into, bind_assoc, pure_bind]
    rfl
  rw [heq]
  refine simulates_strict _ ⟨h, trivial⟩ fun as has ls w tmp => ?_
  obtain ⟨l, rfl⟩ := List.length_eq_one_iff.mp has
  exact hrv l ls w tmp

/-- Two operands. -/
theorem simulates_two (name : String) (rv : LocalId → LocalId → Rvalue)
    (hl : Part O blocks exit m vrec k names waiting loops l)
    (hr : Part O blocks exit m vrec k names (waiting ++ yields l) loops r)
    (hrv : ∀ a b ls w tmp, Lowering.assign O.services tmp (rv a b) ls w =
      (O.perform op [ls a, ls b] w).map (update ls tmp)) :
    Simulates O blocks exit k names waiting loops
      (do
        let a ← lowerExpr m l
        let b ← lowerExpr m r
        into name (rv a b))
      (evalAll vrec [l, r] >>= perform O op) [] := by
  have heq : (do
        let a ← lowerExpr m l
        let b ← lowerExpr m r
        into name (rv a b)) =
      lowerAll (lowerExpr m) [l, r] >>= fun as => into name (rv (as.getD 0 0) (as.getD 1 0)) := by
    simp only [lowerAll, bind_assoc, pure_bind]
    rfl
  rw [heq]
  refine simulates_strict _ ⟨hl, hr, trivial⟩ fun as has ls w tmp => ?_
  obtain ⟨a, b, rfl⟩ := List.length_eq_two.mp has
  exact hrv a b ls w tmp

theorem simulates_aggregate (kind : AggregateKind)
    (h : PartAll O blocks exit m vrec k names waiting loops es) :
    Simulates O blocks exit k names waiting loops (lowerAggregate (lowerExpr m) kind name es)
      (evalAll vrec es >>= perform O (.aggregate kind)) [] := by
  refine simulates_strict (fun as => .aggregate kind (as.map .copy)) h fun as _ ls w tmp => ?_
  rw [← map_value_copy (O := O)]
  rfl

theorem simulates_unary {op : MirUnaryOp}
    (h : Part O blocks exit m vrec k names waiting loops e)
    (hop : op = .neg ∨ op = .not ∨ op = .toStr) :
    Simulates O blocks exit k names waiting loops (lowerNode (lowerExpr m) (.unary op e))
      (evalNode O vrec (.unary op e)) [] := by
  obtain rfl | rfl | rfl := hop
  all_goals exact simulates_with h fun _ _ _ _ => rfl

theorem simulates_binary {op : MirBinOp} (hop : op ≠ .and ∧ op ≠ .or)
    (hl : Part O blocks exit m vrec k names waiting loops l)
    (hr : Part O blocks exit m vrec k names (waiting ++ yields l) loops r) :
    Simulates O blocks exit k names waiting loops (lowerNode (lowerExpr m) (.binary op l r))
      (evalNode O vrec (.binary op l r)) [] := by
  have h : ∀ op : MirBinOp, Simulates O blocks exit k names waiting loops
      (do
        let a ← lowerExpr m l
        let b ← lowerExpr m r
        into "bin" (.binary op (.copy a) (.copy b)))
      (evalAll vrec [l, r] >>= perform O (.binary op)) [] := fun op =>
    simulates_two "bin" _ hl hr fun _ _ _ _ _ => rfl
  cases op
  case and => exact absurd rfl hop.1
  case or => exact absurd rfl hop.2
  all_goals exact h _

theorem simulates_index (hl : Part O blocks exit m vrec k names waiting loops l)
    (hr : Part O blocks exit m vrec k names (waiting ++ yields l) loops r) :
    Simulates O blocks exit k names waiting loops (lowerNode (lowerExpr m) (.index l r))
      (evalNode O vrec (.index l r)) [] :=
  simulates_two "index" (fun o i => .index o (.copy i)) hl hr fun _ _ _ _ _ => rfl

/-- The negation of a test. -/
theorem simulates_isNot (typeId : ℕ) (h : Part O blocks exit m vrec k names waiting loops e) :
    Simulates O blocks exit k names waiting loops (lowerNode (lowerExpr m) (.isNot e typeId))
      (evalNode O vrec (.isNot e typeId)) [] := by
  intro P s a s' ls ρ w hR hx hS hA
  have heq : lowerNode (lowerExpr m) (.isNot e typeId) =
      (do
        let l ← lowerExpr m e
        let t ← into "isnot_chk" (.isCheck l typeId)
        into "isnot" (.unary .not (.copy t))) := by
    simp only [into, bind_assoc, pure_bind]
    rfl
  rw [heq] at hx
  obtain ⟨b, s₁, hb, hx⟩ := bind_eq_ok hx
  obtain ⟨t, s₂, ht, hx⟩ := bind_eq_ok hx
  have hS₂ := hS.of_into hx
  simp only [evalNode, evalAll, bind_assoc, pure_bind]
  refine h.bind (List.Subset.refl _) hR hb (hS₂.of_into ht) (.refl names s) (.refl hA) ?_
  rintro v ρ' w' ls' hR' hg' hM' - - rfl
  obtain ⟨hR₂, hg₂, ht', -⟩ := hR'.into ht
  obtain ⟨hR₃, -, ha, hlt⟩ := hR₂.into hx
  refine Fate.bind (Q := fun v ρ'' q => ρ'' = ρ' ∧ q = s₂.here (update ls' t v))
    (.compute hR' ht hS₂ rfl fun v => ⟨rfl, rfl⟩) ?_
  rintro v _ w'' _ ⟨rfl, rfl⟩
  refine .compute hR₂ hx hS ?_ fun v' => ?_
  · change (O.perform _ [update ls' t v t] w'').map _ = _
    rw [update_self]
  · have hM₂ := hM'.newLocal (l := t) (v := v) hR (.inr (ht' ▸ hg'.locals))
    exact hM₂.finished hR (hg'.trans hg₂) hR₃.flows ha hlt

/-- A reference that is read. -/
theorem simulates_copy (h : Part O blocks exit m vrec k names waiting loops e) :
    Simulates O blocks exit k names waiting loops
      (lowerWith (lowerExpr m) e name fun l => .use (.copy l)) (vrec e) [] := by
  intro P s a s' ls ρ w hR hx hS hA
  obtain ⟨b, s₁, hb, hx⟩ := bind_eq_ok hx
  change into name (.use (.copy b)) s₁ = _ at hx
  rw [← bind_pure (vrec e)]
  refine h.bind (List.Subset.refl _) hR hb (hS.of_into hx) (.refl names s) (.refl hA) ?_
  rintro v ρ' w' ls' hR' hg' hM' - - rfl
  obtain ⟨hR₂, -, ha, hlt⟩ := hR'.into hx
  refine .move hR' hx hS (.done ?_)
  exact hM'.finished hR hg' hR₂.flows ha hlt

end Strict

section Calls

variable {t : LocalId → BlockId → Terminator} {callee : Callee} {vs : List Value}

theorem here_grow (h : s.currentBlock < s.blocks.length) : s.grow.here ls = s.here ls := by
  have hblock : (s.blocks ++ [BasicBlock.new s.regions])[s.currentBlock]? =
      s.blocks[s.currentBlock]? := List.getElem?_append_left h
  simp [LowerState.here, LowerState.size, LowerState.grow, hblock]

/-- What is known of a call that is finished, whether it is reached or not. -/
theorem Settled.of_finishCall (h : Settled P s' blocks) (hP : Apart P s)
    (hx : finishCall t s = .ok (a, s')) : Settled P s blocks := by
  obtain ⟨dest, s₁, h₁, hx⟩ := bind_eq_ok hx
  obtain ⟨resume, s₂, h₂, hx⟩ := bind_eq_ok hx
  obtain ⟨_, s₃, h₃, hx⟩ := bind_eq_ok hx
  obtain ⟨_, s₄, h₄, hx⟩ := bind_eq_ok hx
  obtain ⟨_, s₅, h₅, hx⟩ := bind_eq_ok hx
  obtain ⟨-, rfl⟩ := pure_eq_ok hx
  cases h₁
  cases h₂
  cases h₄
  have hP₃ := ((hP.declare "call" false).grow).term h₃
  have hS₃ := (h.of_emit h₅).of_goTo hP₃.current_notMem hP₃.inside
  have hS₂ := (hS₃.of_term h₃).of_grow (s := s.declare "call" false) (P := P) hP.inside ?_
  · exact hS₂.of_declare
  · intro i hi hlt
    exact (List.mem_cons.mp hi).resolve_left (Nat.ne_of_lt hlt)

/-- The state after a call. -/
def afterFinish (s : LowerState) (t : Terminator) : LowerState :=
  ((((s.declare "call" false).grow.close t).goTo s.blocks.length).push
    (.assign s.locals.length (.use (.move 0))))

theorem finishCall_eq (h : s.blockTerminated = false) :
    finishCall t s =
      .ok (s.locals.length, afterFinish s (t s.locals.length s.blocks.length)) := by
  rw [finishCall, bind_of_ok (newLocal_eq _ _), bind_of_ok newBlock_eq,
    bind_of_ok (term_eq (s := (s.declare _ _).grow) _ h), bind_of_ok (startBlock_eq _),
    bind_of_ok (emit_eq _ rfl)]
  rfl

theorem Ready.finishCall (hR : Ready names loops exit P s)
    (hx : Lowering.finishCall t s = .ok (a, s')) :
    Ready names loops exit P s' ∧ Grown names s s' ∧ a = s.locals.length ∧
      a < s'.locals.length := by
  rw [finishCall_eq hR.flows] at hx
  obtain ⟨rfl, rfl⟩ := Prod.mk.inj (Except.ok.inj hx)
  have hg : Grown names s (afterFinish s (t s.locals.length s.blocks.length)) :=
    (((((grown_declare names s "call" false).trans (grown_grow names _)).trans
      (grown_close names _ _)).trans (grown_goTo names _ _)).trans (grown_push names _ _))
  have hP := ((hR.apart.declare "call" false).grow.close
    (t s.locals.length s.blocks.length)).goTo List.mem_cons_self (List.subset_cons_self _ P)
      fun hm => Nat.lt_irrefl _ (hR.apart.lt hm)
  refine ⟨hR.grown hg rfl (hP.push _) hR.exit_mem, hg, rfl, ?_⟩
  simp [afterFinish]

/-- A call, which leaves its result in local 0 and then in a new local. -/
theorem Fate.invoke {Q : Value → Env → Point → Prop} {E : Exit → Env → Point → Prop}
    (hR : Ready names loops exit P s₁) (hx : Lowering.finishCall t s₁ = .ok (a, s'))
    (hS : Settled P s' blocks)
    (ht : ∀ dest ret, execTerminator O.services (t dest ret) ls₁ w =
      (O.call callee vs w).map fun v => ⟨ret, 0, update ls₁ 0 v⟩)
    (hQ : ∀ v, Q v ρ (s'.here (update (update ls₁ 0 v) a v))) :
    Fate (machine O.services blocks exit) k (s₁.here ls₁, w) (Lowering.invoke O callee vs ρ w) E
      Q := by
  rw [finishCall_eq hR.flows] at hx
  obtain ⟨rfl, rfl⟩ := Prod.mk.inj (Except.ok.inj hx)
  have hP : Apart (s₁.blocks.length :: P) (s₁.declare "call" false).grow :=
    (hR.apart.declare "call" false).grow
  have hPc := hP.close (t s₁.locals.length s₁.blocks.length)
  have hPg := hPc.goTo List.mem_cons_self (List.subset_cons_self _ P)
    fun hm => Nat.lt_irrefl _ (hR.apart.lt hm)
  have hSc := (hS.of_emit (emit_eq _ rfl)).of_goTo hPc.current_notMem hPc.inside
  have hcall := hSc.step_close O.services ls₁ w hP
  rw [here_grow (s := s₁.declare "call" false) hR.apart.inside, ht] at hcall
  change Lowering.step O.services blocks (s₁.here ls₁) w = _ at hcall
  have hmove : ∀ ls w, Lowering.step O.services blocks ⟨s₁.blocks.length, 0, ls⟩ w =
      .returned ((afterFinish s₁ (t s₁.locals.length s₁.blocks.length)).here
        (update ls s₁.locals.length (ls 0))) w := fun ls w => by
    have := hS.step_push O.services ls w hPg.inside
    rw [LowerState.here, hPc.size_goTo List.mem_cons_self] at this
    exact this
  have hne : s₁.blocks.length ≠ exit :=
    Ne.symm (hPg.blank exit hR.exit_mem).1
  simp only [Lowering.invoke, ofOutcome]
  cases hc : O.call callee vs w with
  | returned v w' =>
    rw [hc] at hcall
    exact .step hR.block_ne hcall (.step hne (hmove _ w') (.done (hQ v)))
  | raised v w' =>
    rw [hc] at hcall
    exact .of_halt (machine_raised hR.block_ne hcall)
  | stuck =>
    rw [hc] at hcall
    exact .of_stuck (machine_stuck hR.block_ne hcall)

/-- Operands, and a call with their values. -/
theorem simulates_call {t : List LocalId → LocalId → BlockId → Terminator}
    (h : PartAll O blocks exit m vrec k names waiting loops es)
    (ht : ∀ as ls w dest ret, execTerminator O.services (t as dest ret) ls w =
      (O.call callee (as.map ls) w).map fun v => ⟨ret, 0, update ls 0 v⟩) :
    Simulates O blocks exit k names waiting loops
      (lowerAll (lowerExpr m) es >>= fun as => finishCall (t as))
      (evalAll vrec es >>= invoke O callee) [] := by
  intro P s a s' ls ρ w hR hx hS hA
  obtain ⟨as, s₁, has, hx⟩ := bind_eq_ok hx
  have hP₁ := hR.apart.lowerAll has
  refine h.bind (List.Subset.refl _) hR has (hS.of_finishCall hP₁ hx) (.refl names s) (.refl hA) ?_
  rintro vs ρ' w' ls' hR' hg' hM' - rfl
  obtain ⟨hR₂, -, ha, hlt⟩ := hR'.finishCall hx
  refine .invoke hR' hx hS (fun dest ret => ht as ls' w' dest ret) fun v => ?_
  exact (hM'.newLocal hR (.inl rfl)).finished hR hg' hR₂.flows ha hlt

theorem callTo_services (as : List LocalId) {callee : Callee} {ret : BlockId} :
    callTo O.services callee (as.map .copy) ret ls w =
      (O.call callee (as.map ls) w).map fun v => ⟨ret, 0, update ls 0 v⟩ := by
  have hmap : (as.map Operand.copy).map (Operand.value O.services ls) = as.map ls := by
    rw [List.map_map]
    rfl
  rw [callTo, hmap]
  rfl

theorem simulates_directCall (label : String)
    (h : PartAll O blocks exit m vrec k names waiting loops es) :
    Simulates O blocks exit k names waiting loops (lowerNode (lowerExpr m) (.call label es))
      (evalNode O vrec (.call label es)) [] :=
  simulates_call (t := fun as => .call (.const (.str label)) (as.map .copy)) h
    fun _ _ _ _ _ => callTo_services _

theorem simulates_methodCall (dispatch : Dispatch)
    (he : Part O blocks exit m vrec k names waiting loops e)
    (h : PartAll O blocks exit m vrec k names (waiting ++ yields e) loops es) :
    Simulates O blocks exit k names waiting loops
      (lowerNode (lowerExpr m) (.methodCall e dispatch es))
      (evalNode O vrec (.methodCall e dispatch es)) [] := by
  have heq : lowerNode (lowerExpr m) (.methodCall e dispatch es) =
      lowerAll (lowerExpr m) (e :: es) >>= fun as =>
        finishCall (dispatch.terminator (as.headD 0) as.tail) := by
    simp only [lowerAll, bind_assoc, pure_bind]
    cases dispatch <;> rfl
  rw [heq]
  intro P s a s' ls ρ w hR hx hS hA
  obtain ⟨as, s₁, has, hx⟩ := bind_eq_ok hx
  have hlen := length_lowerAll has
  obtain _ | ⟨b, as⟩ := as
  · cases hlen
  have hall : PartAll O blocks exit m vrec k names waiting loops (e :: es) := ⟨he, h⟩
  refine hall.bind (List.Subset.refl _) hR has (hS.of_finishCall (hR.apart.lowerAll has) hx)
    (.refl names s) (.refl hA) ?_
  rintro vs ρ' w' ls' hR' hg' hM' - rfl
  obtain ⟨hR₂, -, ha, hlt⟩ := hR'.finishCall hx
  refine .invoke hR' hx hS (fun dest ret => ?_) fun v => ?_
  · cases dispatch <;> exact callTo_services (b :: as)
  · exact (hM'.newLocal hR (.inl rfl)).finished hR hg' hR₂.flows ha hlt

theorem simulates_callValue (he : Part O blocks exit m vrec k names waiting loops e)
    (h : PartAll O blocks exit m vrec k names (waiting ++ yields e) loops es) :
    Simulates O blocks exit k names waiting loops (lowerNode (lowerExpr m) (.callValue e es))
      (evalNode O vrec (.callValue e es)) [] := by
  have heq : lowerNode (lowerExpr m) (.callValue e es) = (do
      let f ← lowerExpr m e
      let as ← lowerAll (lowerExpr m) es
      finishCall (if isClosureCall e then .closureCall (.copy f) (as.map .copy)
        else .callIndirect (.copy f) (as.map .copy))) := by
    change (lowerExpr m e >>= _) = _
    congr 1
    funext f
    congr 1
    funext as
    split <;> rfl
  rw [heq]
  intro P s a s' ls ρ w hR hx hS hA
  obtain ⟨f, s₁, hf, hx⟩ := bind_eq_ok hx
  obtain ⟨as, s₂, has, hx⟩ := bind_eq_ok hx
  have hP₁ := hR.apart.lower hf
  have hfin := (he.lowers.grown hR.finals hf).finals.trans hR.finals
  have hS₂ := hS.of_finishCall (hP₁.lowerAll has) hx
  simp only [evalNode]
  refine he.bind (List.Subset.refl _) hR hf (h.settled hS₂ hP₁ hfin has) (.refl names s)
    (.refl hA) ?_
  rintro v ρ₁ w₁ ls₁ hR₁ hg₁ hM₁ - hH hv
  refine h.bind (List.subset_append_left _ _) hR₁ has hS₂ hg₁ hM₁ ?_
  rintro vs ρ₂ w₂ ls₂ hR₂ hg₂ hM₂ hk₂ rfl
  have hv₂ : ls₂ f = v := (hk₂.holder hH hg₁ (List.subset_append_right _ _)).trans hv
  obtain ⟨hR₃, -, ha, hlt⟩ := hR₂.finishCall hx
  refine .invoke hR₂ hx hS (fun dest ret => ?_) fun v => ?_
  · subst hv₂
    simp only [calleeOf]
    split <;> exact callTo_services _
  · exact (hM₂.newLocal hR (.inl rfl)).finished hR hg₂ hR₃.flows ha hlt

end Calls

end Loxis.Lowering
