import Loxis.Lowering.Operands

/-! # Assignments and constructors -/

namespace Loxis.Lowering

open Function Eval
open Loxis.Backend (Value TAG_INT)

variable {W : Type} {O : Ops W} {blocks : List BasicBlock} {exit : BlockId} {m k : ℕ}
  {vrec : HirExpr → Eval W Value} {names waiting : List String} {loops : List (Option String)}
  {P P₀ : List BlockId} {s s₁ s₂ s' : LowerState} {ls ls₁ ls₂ : LocalId → Value} {ρ : Env} {w : W}
  {e obj idx : HirExpr} {op : MirAssignOp} {a r : LocalId} {p : HirPath}

section Steps

/-- New locals do not matter. -/
theorem Meets.congr (hM : Meets names waiting s ls ρ ls₁) (hR : Ready names loops exit P s)
    (h : ∀ l < s.locals.length, ls₂ l = ls₁ l) : Meets names waiting s ls ρ ls₂ where
  agrees x hx l hl := by
    obtain ⟨l', hl', -, hlt⟩ := hR.scope x hx
    obtain rfl := Option.some.inj (hl.symm.trans hl')
    rw [h l hlt]
    exact hM.agrees x hx l hl
  kept l hpos hlt hn := (h l hlt).trans (hM.kept l hpos hlt hn)

theorem Ready.emit {st : Statement} {a : Unit} (hR : Ready names loops exit P s)
    (hx : Lowering.emit st s = .ok (a, s')) : Ready names loops exit P s' ∧ Grown names s s' := by
  rw [emit_eq st hR.flows] at hx
  obtain ⟨-, rfl⟩ := Prod.mk.inj (Except.ok.inj hx)
  exact ⟨hR.push st, grown_push names s st⟩

/-- A statement that is emitted is one step. -/
theorem Settled.step_emit {st : Statement} {a : Unit} (ls : LocalId → Value) (w : W)
    (hS : Settled P s' blocks)
    (hR : Ready names loops exit P s) (hx : emit st s = .ok (a, s')) :
    step O.services blocks (s.here ls) w =
      (execStatement O.services st ls w).map s'.here := by
  rw [emit_eq st hR.flows] at hx
  obtain ⟨-, rfl⟩ := Prod.mk.inj (Except.ok.inj hx)
  exact hS.step_push O.services ls w hR.apart.inside

/-- A store. -/
theorem Fate.store {st : Store} {vs : List Value} {o : LocalId} {rv : Rvalue} {b : Unit}
    {Q : Unit → Env → Point → Prop} {E : Exit → Env → Point → Prop}
    (hR : Ready names loops exit P s₁) (hx : emit (.assign o rv) s₁ = .ok (b, s'))
    (hS : Settled P s' blocks)
    (hrv : Lowering.assign O.services o rv ls₁ w = (O.store st vs w).map fun _ => ls₁)
    (hQ : Q () ρ (s'.here ls₁)) :
    Fate (machine O.services blocks exit) k (s₁.here ls₁, w) (Lowering.store O st vs ρ w) E Q := by
  refine .operation (g := fun _ => s'.here ls₁) hR.block_ne ?_ fun _ => hQ
  rw [hS.step_emit ls₁ w hR hx, execStatement, hrv]
  cases O.store st vs w <;> rfl

theorem Settled.of_unit (hS : Settled P s' blocks) (hx : unitLocal s = .ok (a, s')) :
    Settled P s blocks :=
  hS.of_into (show into "unit" _ s = _ from hx)

/-- The value of what has none. -/
theorem Fate.unit {E : Exit → Env → Point → Prop} (hM : Meets names waiting s ls ρ ls₁)
    (hR₀ : Ready names loops exit P₀ s) (hg : Grown names s s₁) (hR : Ready names loops exit P s₁)
    (hx : unitLocal s₁ = .ok (a, s')) (hS : Settled P s' blocks) :
    Fate (machine O.services blocks exit) k (s₁.here ls₁, w)
      ((pure Lowering.unit : Eval W Value) ρ w) E (Finished names waiting [] s s' ls a) := by
  obtain ⟨hR', -, ha, hlt⟩ := hR.into (show into "unit" _ s₁ = _ from hx)
  exact .move hR hx hS (.done (hM.finished hR₀ hg hR'.flows ha hlt))

end Steps

section Combine

variable {old : Rvalue} {rd wr : String} {v : LocalId}

theorem combine_set (hop : op = .set) : combine op rd wr old r = pure r := if_pos hop

theorem combine_other (hop : op ≠ .set) :
    combine op rd wr old r = (do
      let oldVal ← into rd old
      into wr (.binary (binOpForAssign op) (.copy oldVal) (.copy r))) := by
  rw [combine, if_neg hop]
  simp only [into, bind_assoc, pure_bind]

theorem Settled.of_combine (h : Settled P s' blocks)
    (hx : combine op rd wr old r s = .ok (v, s')) : Settled P s blocks := by
  by_cases hop : op = .set
  · rw [combine_set hop] at hx
    obtain ⟨-, rfl⟩ := pure_eq_ok hx
    exact h
  · rw [combine_other hop] at hx
    obtain ⟨o, s₁, h₁, hx⟩ := bind_eq_ok hx
    exact (h.of_into hx).of_into h₁

theorem Ready.combine (hR : Ready names loops exit P s)
    (hx : Lowering.combine op rd wr old r s = .ok (v, s')) :
    Ready names loops exit P s' ∧ Grown names s s' := by
  by_cases hop : op = .set
  · rw [combine_set hop] at hx
    obtain ⟨-, rfl⟩ := pure_eq_ok hx
    exact ⟨hR, .refl names s⟩
  · rw [combine_other hop] at hx
    obtain ⟨o, s₁, h₁, hx⟩ := bind_eq_ok hx
    obtain ⟨hR₁, hg₁, -⟩ := hR.into h₁
    obtain ⟨hR₂, hg₂, -⟩ := hR₁.into hx
    exact ⟨hR₂, hg₁.trans hg₂⟩

/-- The value that an assignment stores. -/
theorem Fate.combine {opn : Operation} {vs : List Value} {E : Exit → Env → Point → Prop}
    (hR : Ready names loops exit P s₁) (hx : Lowering.combine op rd wr old r s₁ = .ok (v, s₂))
    (hS : Settled P s₂ blocks) (hr : r < s₁.locals.length)
    (hold : ∀ a, Lowering.assign O.services a old ls₁ w =
      (O.perform opn vs w).map (update ls₁ a)) :
    Fate (machine O.services blocks exit) k (s₁.here ls₁, w)
      (evalCombine O op (Lowering.perform O opn vs) (ls₁ r) ρ w) E
      fun v' ρ' q => ρ' = ρ ∧ ∃ ls₂, q = s₂.here ls₂ ∧
        (∀ l < s₁.locals.length, ls₂ l = ls₁ l) ∧ ls₂ v = v' := by
  by_cases hop : op = .set
  · rw [combine_set hop] at hx
    obtain ⟨rfl, rfl⟩ := pure_eq_ok hx
    rw [evalCombine, if_pos hop]
    exact .done ⟨rfl, ls₁, rfl, fun _ _ => rfl, rfl⟩
  · rw [combine_other hop] at hx
    obtain ⟨o, s₃, h₃, hx⟩ := bind_eq_ok hx
    obtain ⟨hR₃, hg₃, ho, hlt₃⟩ := hR.into h₃
    obtain ⟨-, -, hv, -⟩ := hR₃.into hx
    rw [evalCombine, if_neg hop]
    refine Fate.bind (Q := fun v' ρ' q => ρ' = ρ ∧ q = s₃.here (update ls₁ o v'))
      (.compute hR h₃ (hS.of_into hx) (hold o) fun v' => ⟨rfl, rfl⟩) ?_
    rintro v' _ w' _ ⟨rfl, rfl⟩
    have hro : r ≠ o := by
      rintro rfl
      exact absurd hr (Nat.not_lt.mpr (Nat.le_of_eq ho.symm))
    refine .compute hR₃ hx hS ?_ fun v'' => ⟨rfl, _, rfl, fun l hl => ?_, update_self ..⟩
    · change (O.perform _ [update ls₁ o v' o, update ls₁ o v' r] w').map _ = _
      rw [update_self, update_of_ne hro]
    · have hlo : l ≠ o := Nat.ne_of_lt (ho ▸ hl)
      have hlv : l ≠ v := Nat.ne_of_lt (hv ▸ Nat.lt_of_lt_of_le hl hg₃.locals)
      rw [update_of_ne hlv, update_of_ne hlo]

end Combine

section Targets

theorem lowerAssign_eq (rec : HirExpr → LowerM LocalId) (op : MirAssignOp) (lhs rhs : HirExpr) :
    lowerNode rec (.assign op lhs rhs) = (do
      lowerStore rec op lhs rhs
      unitLocal) := rfl

/-- An assignment whose store does what the evaluator does. -/
theorem simulates_assign {lhs rhs : HirExpr}
    (h : ∀ P s u s₁ ls ρ w, Ready names loops exit P s →
      lowerStore (lowerExpr m) op lhs rhs s = .ok (u, s₁) → Settled P s₁ blocks →
      Agrees names s ρ ls →
      Fate (machine O.services blocks exit) k (s.here ls, w) (evalAssign O vrec op lhs rhs ρ w)
        (Exits (machine O.services blocks exit) names waiting s ls) fun _ ρ' q =>
          ∃ ls', q = s₁.here ls' ∧ Ready names loops exit P s₁ ∧ Grown names s s₁ ∧
            Meets names waiting s ls ρ' ls') :
    Simulates O blocks exit k names waiting loops (lowerNode (lowerExpr m) (.assign op lhs rhs))
      (evalNode O vrec (.assign op lhs rhs)) [] := by
  intro P s a s' ls ρ w hR hx hS hA
  rw [lowerAssign_eq] at hx
  obtain ⟨u, s₁, hu, hx⟩ := bind_eq_ok hx
  refine (h P s u s₁ ls ρ w hR hu (hS.of_unit hx) hA).bind ?_
  rintro _ ρ' w' _ ⟨ls', rfl, hR', hg', hM'⟩
  exact .unit hM' hR hg' hR' hx hS

theorem Ready.closureEnv (hR : Ready names loops exit P s) :
    Lowering.closureEnv s = .ok (none, s) := by rw [Lowering.closureEnv, hR.env]

/-- Without an environment a name is a global or a local. -/
theorem lowerStore_path (hR : Ready names loops exit P s) (rec : HirExpr → LowerM LocalId)
    (p : HirPath) :
    lowerStore rec op (.path p) e s = (match p.globalSlot with
      | some slot => assignGlobal rec op slot e
      | none => assignPlace rec op (.path p) e) s := by
  change (Lowering.closureEnv >>= _) s = _
  rw [bind_of_ok hR.closureEnv]
  cases p.captureOffset <;> rfl

theorem Ready.place (hR : Ready names loops exit P s) (hp : p.name ∈ names)
    (rec : HirExpr → LowerM LocalId) : ∃ l s', s.scope p.name = some l ∧
      lowerPlace rec (.path p) s = .ok (l, s') ∧ Ready names loops exit P s' ∧ Grown names s s' ∧
      ∀ ls, s'.here ls = s.here ls := by
  obtain ⟨l, hl, -, -⟩ := hR.scope p.name hp
  have hg : Grown names s { s with paths := ⟨s.scope p.name, s.lexical p.name⟩ :: s.paths } :=
    grown_of_same rfl rfl rfl rfl rfl (fun _ _ => rfl) (Nat.le_refl _)
  have hres : resolve p.name s = .ok (some l,
      { s with paths := ⟨s.scope p.name, s.lexical p.name⟩ :: s.paths }) := by
    rw [resolve, hl]
  refine ⟨l, _, hl, ?_, hR.grown hg hR.flows (hR.apart.of_same rfl rfl) hR.exit_mem, hg,
    fun _ => rfl⟩
  change (resolve p.name >>= _) s = _
  rw [bind_of_ok hres]
  rfl

/-- The operation of a compound assignment to a local, or a move. -/
def placeValue (op : MirAssignOp) (l r : LocalId) : Rvalue :=
  if op = .set then .use (.copy r) else .binary (binOpForAssign op) (.copy l) (.copy r)

theorem simulates_assignLocal (hp : p.name ∈ names) (hw : p.name ∉ waiting)
    (hg : p.globalSlot = none) (h : Part O blocks exit m vrec k names waiting loops e) :
    Simulates O blocks exit k names waiting loops
      (lowerNode (lowerExpr m) (.assign op (.path p) e))
      (evalNode O vrec (.assign op (.path p) e)) [] := by
  refine simulates_assign fun P s u s' ls ρ w hR hx hS hA => ?_
  rw [lowerStore_path hR, hg] at hx
  change (do
    let r ← lowerExpr m e
    let l ← lowerPlace (lowerExpr m) (.path p)
    if op = MirAssignOp.set then emit (.assign l (.use (.copy r)))
    else emit (.assign l (.binary (binOpForAssign op) (.copy l) (.copy r)))) s = _ at hx
  obtain ⟨r, s₁, hr, hx⟩ := bind_eq_ok hx
  obtain ⟨l, s₂, hl, hx⟩ := bind_eq_ok hx
  have hemit : emit (.assign l (placeValue op l r)) s₂ = .ok (u, s') := by
    rw [← hx, placeValue]
    split <;> rfl
  have hS₁ : Settled P s₁ blocks := by
    change (resolve p.name >>= _) s₁ = _ at hl
    obtain ⟨o, s₃, ho, hl⟩ := bind_eq_ok hl
    cases ho
    cases hsc : s₁.scope p.name with
    | some l' =>
      rw [hsc] at hl
      obtain ⟨-, rfl⟩ := pure_eq_ok hl
      exact (hS.of_emit hemit).of_same rfl rfl rfl
    | none =>
      rw [hsc] at hl
      exact ((hS.of_emit hemit).of_unit hl).of_same rfl rfl rfl
  simp only [evalAssign, hg]
  refine h.bind (List.Subset.refl _) hR hr hS₁ (.refl names s) (.refl hA) ?_
  rintro v ρ₁ w₁ ls₁ hR₁ hg₁ hM₁ - - rfl
  obtain ⟨l', s₃, hsc, hl', hR₂, hg₂, hhere⟩ := hR₁.place hp (lowerExpr m)
  obtain ⟨rfl, rfl⟩ := Prod.mk.inj (Except.ok.inj (hl'.symm.trans hl))
  obtain ⟨hR₃, hg₃⟩ := hR₂.emit hemit
  have hstep := hS.step_emit (O := O) ls₁ w₁ hR₂ hemit
  rw [hhere] at hstep
  have hsc₀ : s.scope p.name = some l' := (hg₁.scope _ hp).symm.trans hsc
  have hlast : ∀ v, ∃ ls', s'.here (update ls₁ l' v) = s'.here ls' ∧
      Ready names loops exit P s' ∧ Grown names s s' ∧
      Meets names waiting s ls (update ρ₁ p.name v) ls' := fun v =>
    ⟨_, rfl, hR₃, (hg₁.trans hg₂).trans hg₃, hM₁.assigned hR hp hw hsc₀⟩
  by_cases hop : op = .set
  · rw [placeValue, if_pos hop] at hstep
    rw [evalCombine, if_pos hop]
    exact .step hR₁.block_ne hstep ⟨_, .refl _, hlast _⟩
  · rw [placeValue, if_neg hop] at hstep
    rw [evalCombine, if_neg hop]
    have hold : ρ₁ p.name = ls₁ l' := (hM₁.agrees p.name hp l' hsc₀).symm
    refine Fate.bind (x := do
        let a ← readVar p.name
        perform O (.binary (binOpForAssign op)) [a, ls₁ r])
      (Q := fun v ρ' q => ρ' = ρ₁ ∧ q = s'.here (update ls₁ l' v)) ?_ ?_
    · change Fate _ _ _ (perform O _ [ρ₁ p.name, ls₁ r] ρ₁ w₁) _ _
      rw [hold]
      refine .operation hR₁.block_ne ?_ fun v => ⟨rfl, rfl⟩
      rw [hstep, execStatement]
      change ((O.perform _ [ls₁ l', ls₁ r] w₁).map _).map _ = _
      cases O.perform (.binary (binOpForAssign op)) [ls₁ l', ls₁ r] w₁ <;> rfl
    · rintro v _ w₂ _ ⟨rfl, rfl⟩
      exact ⟨_, .refl _, hlast v⟩

theorem Ready.scratch {l : LocalId} (hR : Ready names loops exit P s)
    (hx : scratchLocal s = .ok (l, s')) : Ready names loops exit P s' ∧ Grown names s s' ∧
      ∀ ls, s'.here ls = s.here ls := by
  unfold scratchLocal at hx
  split at hx
  · cases hx
    exact ⟨hR, .refl names s, fun _ => rfl⟩
  · cases hx
    have hg := grown_declare names s "_scratch" false
    exact ⟨hR.grown ⟨hg.stmts, hg.loops, hg.finals, hg.exit, hg.env, hg.scope, hg.locals⟩ hR.flows
      (hR.apart.of_same rfl rfl) hR.exit_mem,
      ⟨hg.stmts, hg.loops, hg.finals, hg.exit, hg.env, hg.scope, hg.locals⟩, fun _ => rfl⟩

theorem Settled.of_scratch {l : LocalId} (h : Settled P s' blocks)
    (hx : scratchLocal s = .ok (l, s')) : Settled P s blocks := by
  unfold scratchLocal at hx
  split at hx
  · cases hx
    exact h
  · cases hx
    exact h.of_same rfl rfl rfl

theorem simulates_assignGlobal {slot : ℕ} (hg : p.globalSlot = some slot)
    (h : Part O blocks exit m vrec k names waiting loops e) :
    Simulates O blocks exit k names waiting loops
      (lowerNode (lowerExpr m) (.assign op (.path p) e))
      (evalNode O vrec (.assign op (.path p) e)) [] := by
  refine simulates_assign fun P s u s' ls ρ w hR hx hS hA => ?_
  rw [lowerStore_path hR, hg] at hx
  obtain ⟨r, s₁, hr, hx⟩ := bind_eq_ok hx
  obtain ⟨v, s₂, hv, hx⟩ := bind_eq_ok hx
  obtain ⟨l, s₃, hl, hx⟩ := bind_eq_ok hx
  have hS₂ := (hS.of_emit hx).of_scratch hl
  simp only [evalAssign, hg]
  refine h.bind (List.Subset.refl _) hR hr (hS₂.of_combine hv) (.refl names s) (.refl hA) ?_
  rintro _ ρ₁ w₁ ls₁ hR₁ hg₁ hM₁ - hH rfl
  obtain ⟨hR₂, hg₂⟩ := hR₁.combine hv
  obtain ⟨hR₃, hg₃, hhere⟩ := hR₂.scratch hl
  obtain ⟨hR₄, hg₄⟩ := hR₃.emit hx
  refine (Fate.combine hR₁ hv hS₂ hH.lt fun _ => rfl).bind ?_
  rintro v' _ w₂ _ ⟨rfl, ls₂, rfl, hsame, rfl⟩
  rw [← hhere]
  refine .store hR₃ hx hS rfl ⟨ls₂, rfl, hR₄, ((hg₁.trans hg₂).trans hg₃).trans hg₄, ?_⟩
  exact hM₁.congr hR fun l hl => hsame l (Nat.lt_of_lt_of_le hl hg₁.locals)

theorem simulates_assignField {offset : ℕ}
    (ho : Part O blocks exit m vrec k names waiting loops obj)
    (h : Part O blocks exit m vrec k names (waiting ++ yields obj) loops e) :
    Simulates O blocks exit k names waiting loops
      (lowerNode (lowerExpr m) (.assign op (.field obj offset) e))
      (evalNode O vrec (.assign op (.field obj offset) e)) [] := by
  refine simulates_assign fun P s u s' ls ρ w hR hx hS hA => ?_
  obtain ⟨o, s₁, hobj, hx⟩ := bind_eq_ok hx
  obtain ⟨r, s₂, hr, hx⟩ := bind_eq_ok hx
  obtain ⟨v, s₃, hv, hx⟩ := bind_eq_ok hx
  have hS₃ := hS.of_emit hx
  have hS₂ := hS₃.of_combine hv
  have hf₁ := (ho.lowers.grown hR.finals hobj).finals.trans hR.finals
  simp only [evalAssign]
  refine ho.bind (List.Subset.refl _) hR hobj (h.settled hS₂ (hR.apart.lower hobj) hf₁ hr)
    (.refl names s) (.refl hA) ?_
  rintro vo ρ₁ w₁ ls₁ hR₁ hg₁ hM₁ - hHo hvo
  refine h.bind (List.subset_append_left _ _) hR₁ hr hS₂ hg₁ hM₁ ?_
  rintro _ ρ₂ w₂ ls₂ hR₂ hg₂ hM₂ hk₂ hH rfl
  have hvo₂ : ls₂ o = vo := (hk₂.holder hHo hg₁ (List.subset_append_right _ _)).trans hvo
  have holt : o < s₂.locals.length :=
    Nat.lt_of_lt_of_le hHo.lt (h.lowers.grown hR₁.finals hr).locals
  obtain ⟨hR₃, hg₃⟩ := hR₂.combine hv
  obtain ⟨hR₄, hg₄⟩ := hR₃.emit hx
  subst hvo₂
  refine (Fate.combine hR₂ hv hS₃ hH.lt fun _ => rfl).bind ?_
  rintro v' _ w₃ _ ⟨rfl, ls₃, rfl, hsame, rfl⟩
  rw [← hsame o holt]
  refine .store hR₃ hx hS rfl ⟨ls₃, rfl, hR₄, (hg₂.trans hg₃).trans hg₄, ?_⟩
  exact hM₂.congr hR fun l hl => hsame l (Nat.lt_of_lt_of_le hl hg₂.locals)

theorem simulates_assignIndex
    (ho : Part O blocks exit m vrec k names waiting loops obj)
    (hi : Part O blocks exit m vrec k names (waiting ++ yields obj) loops idx)
    (h : Part O blocks exit m vrec k names (waiting ++ yields obj ++ yields idx) loops e) :
    Simulates O blocks exit k names waiting loops
      (lowerNode (lowerExpr m) (.assign op (.index obj idx) e))
      (evalNode O vrec (.assign op (.index obj idx) e)) [] := by
  refine simulates_assign fun P s u s' ls ρ w hR hx hS hA => ?_
  obtain ⟨o, s₁, hobj, hx⟩ := bind_eq_ok hx
  obtain ⟨i, s₂, hidx, hx⟩ := bind_eq_ok hx
  obtain ⟨r, s₃, hr, hx⟩ := bind_eq_ok hx
  obtain ⟨v, s₄, hv, hx⟩ := bind_eq_ok hx
  have hS₄ := hS.of_emit hx
  have hS₃ := hS₄.of_combine hv
  have hP₁ := hR.apart.lower hobj
  have hf₁ := (ho.lowers.grown hR.finals hobj).finals.trans hR.finals
  have hf₂ := (hi.lowers.grown hf₁ hidx).finals.trans hf₁
  have hS₂ := h.settled hS₃ (hP₁.lower hidx) hf₂ hr
  simp only [evalAssign]
  refine ho.bind (List.Subset.refl _) hR hobj (hi.settled hS₂ hP₁ hf₁ hidx) (.refl names s)
    (.refl hA) ?_
  rintro vo ρ₁ w₁ ls₁ hR₁ hg₁ hM₁ - hHo hvo
  refine hi.bind (List.subset_append_left _ _) hR₁ hidx hS₂ hg₁ hM₁ ?_
  rintro vi ρ₂ w₂ ls₂ hR₂ hg₂ hM₂ hk₂ hHi hvi
  have hvo₂ : ls₂ o = vo := (hk₂.holder hHo hg₁ (List.subset_append_right _ _)).trans hvo
  have hsub : waiting ⊆ waiting ++ yields obj ++ yields idx :=
    List.Subset.trans (List.subset_append_left _ _) (List.subset_append_left _ _)
  refine h.bind hsub hR₂ hr hS₃ hg₂ hM₂ ?_
  rintro _ ρ₃ w₃ ls₃ hR₃ hg₃ hM₃ hk₃ hH rfl
  have hgi := hi.lowers.grown hR₁.finals hidx
  have hgr := h.lowers.grown hR₂.finals hr
  -- The object waits for the index and the value, the index for the value.
  have hHo₂ : Holder names (yields obj) s s₂ o :=
    ⟨hHo.pos, Nat.lt_of_lt_of_le hHo.lt hgi.locals, hHo.name⟩
  have hvo₃ : ls₃ o = vo := (hk₃.holder hHo₂ hg₂ (List.Subset.trans
    (List.subset_append_right _ _) (List.subset_append_left _ _))).trans hvo₂
  have hvi₃ : ls₃ i = vi := (hk₃.holder hHi hg₂ (List.subset_append_right _ _)).trans hvi
  have holt : o < s₃.locals.length := Nat.lt_of_lt_of_le hHo₂.lt hgr.locals
  have hilt : i < s₃.locals.length := Nat.lt_of_lt_of_le hHi.lt hgr.locals
  obtain ⟨hR₄, hg₄⟩ := hR₃.combine hv
  obtain ⟨hR₅, hg₅⟩ := hR₄.emit hx
  subst hvo₃
  subst hvi₃
  refine (Fate.combine hR₃ hv hS₄ hH.lt fun _ => rfl).bind ?_
  rintro v' _ w₄ _ ⟨rfl, ls₄, rfl, hsame, rfl⟩
  rw [← hsame o holt, ← hsame i hilt]
  refine .store hR₄ hx hS rfl ⟨ls₄, rfl, hR₅, (hg₃.trans hg₄).trans hg₅, ?_⟩
  exact hM₃.congr hR fun l hl => hsame l (Nat.lt_of_lt_of_le hl hg₃.locals)

end Targets

section Constructors

variable {ps : List (ℕ × HirExpr)} {o : LocalId} {u : Unit}

theorem Apart.storeFields (h : Apart P s)
    (hx : Lowering.storeFields (lowerExpr m) o ps s = .ok (u, s')) : Apart P s' := by
  induction ps generalizing s with
  | nil =>
    obtain ⟨-, rfl⟩ := pure_eq_ok hx
    exact h
  | cons p ps ih =>
    obtain ⟨l, s₁, hl, hx⟩ := bind_eq_ok hx
    obtain ⟨_, s₂, he, hx⟩ := bind_eq_ok hx
    exact ih ((h.lower hl).emit he) hx

theorem Settled.of_storeFields (hS : Settled P s' blocks) (hP : Apart P s)
    (hx : storeFields (lowerExpr m) o ps s = .ok (u, s'))
    (h : ∀ p ∈ ps, Lowers names (lowerExpr m p.2)) (hf : s.finallyStack = []) :
    Settled P s blocks := by
  induction ps generalizing s with
  | nil =>
    obtain ⟨-, rfl⟩ := pure_eq_ok hx
    exact hS
  | cons p ps ih =>
    obtain ⟨l, s₁, hl, hx⟩ := bind_eq_ok hx
    obtain ⟨_, s₂, he, hx⟩ := bind_eq_ok hx
    have hp := h p List.mem_cons_self
    have hf₁ := (hp.grown hf hl).finals.trans hf
    have hf₂ := ((inferInstance : Lowers names (emit _)).grown hf₁ he).finals.trans hf₁
    have hS₂ := ih ((hP.lower hl).emit he) hx (fun q hq => h q (List.mem_cons_of_mem _ hq)) hf₂
    exact (hS₂.of_emit he).of_lower hP hl hp hf

/-- The values of the fields are stored one after the other. -/
theorem Fate.stores {vo : Value} (h : ∀ p ∈ ps, Part O blocks exit m vrec k names waiting loops p.2)
    (hR : Ready names loops exit P s₁)
    (hx : storeFields (lowerExpr m) o ps s₁ = .ok (u, s₂)) (hS : Settled P s₂ blocks)
    (hg : Grown names s s₁) (hM : Meets names waiting s ls ρ ls₁)
    (hH : Holder names [] s s₁ o) (ho : ls₁ o = vo) :
    Fate (machine O.services blocks exit) k (s₁.here ls₁, w) (evalStores O vrec vo ps ρ w)
      (Exits (machine O.services blocks exit) names waiting s ls) fun _ ρ' q =>
        ∃ ls', q = s₂.here ls' ∧ Ready names loops exit P s₂ ∧ Grown names s s₂ ∧
          Meets names waiting s ls ρ' ls' ∧ ls' o = vo := by
  induction ps generalizing s₁ ls₁ ρ w with
  | nil =>
    obtain ⟨-, rfl⟩ := pure_eq_ok hx
    exact .done ⟨ls₁, rfl, hR, hg, hM, ho⟩
  | cons p ps ih =>
    obtain ⟨l, s₃, hl, hx⟩ := bind_eq_ok hx
    obtain ⟨_, s₄, he, hx⟩ := bind_eq_ok hx
    have hp := h p List.mem_cons_self
    have hps := fun q hq => h q (List.mem_cons_of_mem p hq)
    have hP₄ := (hR.apart.lower hl).emit he
    have hf₃ := (hp.lowers.grown hR.finals hl).finals.trans hR.finals
    have hf₄ := ((inferInstance : Lowers names (emit _)).grown hf₃ he).finals.trans hf₃
    have hS₄ := hS.of_storeFields hP₄ hx (fun q hq => (hps q hq).lowers) hf₄
    refine hp.bind (List.Subset.refl _) hR hl (hS₄.of_emit he) hg hM ?_
    rintro v ρ' w' ls' hR₃ hg₃ hM₃ hk₃ - rfl
    have ho₃ : ls' o = vo := (hk₃.holder hH hg (List.nil_subset _)).trans ho
    obtain ⟨hR₄, hg₄⟩ := hR₃.emit he
    subst ho₃
    refine Fate.bind (Q := fun _ ρ'' q => ρ'' = ρ' ∧ q = s₄.here ls')
      (.store hR₃ he hS₄ rfl ⟨rfl, rfl⟩) ?_
    rintro _ _ w'' _ ⟨rfl, rfl⟩
    have hlt := Nat.lt_of_lt_of_le hH.lt
      ((hp.lowers.grown hR.finals hl).trans hg₄).locals
    exact ih hps hR₄ hx (hg₃.trans hg₄) hM₃ ⟨hH.pos, hlt, hH.name⟩ rfl

theorem Ready.holder_new (hR : Ready names loops exit P s) (hg : Grown names s s₁)
    (ha : a = s₁.locals.length) (hlt : a < s'.locals.length) : Holder names [] s s' a := by
  subst ha
  refine ⟨Nat.lt_of_lt_of_le hR.pos hg.locals, hlt, fun x hx hl => ?_⟩
  obtain ⟨l', hl', -, hlt⟩ := hR.scope x hx
  obtain rfl := Option.some.inj (hl.symm.trans hl')
  exact absurd hg.locals (Nat.not_le.mpr hlt)

theorem simulates_struct {size typeId : ℕ} {es : List HirExpr}
    (h : ∀ e ∈ es, Part O blocks exit m vrec k names waiting loops e) :
    Simulates O blocks exit k names waiting loops
      (lowerNode (lowerExpr m) (.struct size typeId es))
      (evalNode O vrec (.struct size typeId es)) [] := by
  intro P s a s' ls ρ w hR hx hS hA
  have heq : lowerNode (lowerExpr m) (.struct size typeId es) = (do
      let o ← into "obj" (.alloc (if 0 < size then size else 9) typeId)
      storeFields (lowerExpr m) o (es.zipIdx.map fun p => (p.2 * 9, p.1))
      return o) := by
    simp only [into, bind_assoc, pure_bind]
    rfl
  rw [heq] at hx
  obtain ⟨o, s₁, ho, hx⟩ := bind_eq_ok hx
  obtain ⟨_, s₂, hst, hx⟩ := bind_eq_ok hx
  obtain ⟨rfl, rfl⟩ := pure_eq_ok hx
  have hps : ∀ p ∈ es.zipIdx.map fun p => (p.2 * 9, p.1),
      Part O blocks exit m vrec k names waiting loops p.2 := fun p hp => by
    obtain ⟨q, hq, rfl⟩ := List.mem_map.mp hp
    exact h q.1 (List.fst_mem_of_mem_zipIdx hq)
  obtain ⟨hR₁, hg₁, ho', hlt₁⟩ := hR.into ho
  have hS₁ := hS.of_storeFields hR₁.apart hst (fun p hp => (hps p hp).lowers) hR₁.finals
  simp only [evalNode]
  refine Fate.bind (Q := fun v ρ' q => ρ' = ρ ∧ q = s₁.here (update ls o v))
    (.compute hR ho hS₁ rfl fun v => ⟨rfl, rfl⟩) ?_
  rintro v _ w₁ _ ⟨rfl, rfl⟩
  have hM₁ := (Meets.refl hA : Meets names waiting s ls _ ls).newLocal (l := o) (v := v) hR
    (.inr (Nat.le_of_eq ho'.symm))
  refine (Fate.stores hps hR₁ hst hS hg₁ hM₁ (hR.holder_new (.refl names s) ho' hlt₁)
    (update_self ..)).bind ?_
  rintro _ ρ₂ w₂ _ ⟨ls₂, rfl, hR₂, hg₂, hM₂, hv⟩
  refine .done ⟨ls₂, rfl, hR₂.flows, hM₂, ?_, hv⟩
  have hlt₂ := (lowers_storeFields (lowerExpr m) o fun p hp => (hps p hp).lowers).grown
    hR₁.finals hst
  exact hR.holder_new (.refl names s) ho' (Nat.lt_of_lt_of_le hlt₁ hlt₂.locals)

theorem simulates_enumCtor {typeId variantIndex size : ℕ} {offsets : List ℕ} {es : List HirExpr}
    (h : ∀ e ∈ es, Part O blocks exit m vrec k names waiting loops e) :
    Simulates O blocks exit k names waiting loops
      (lowerNode (lowerExpr m) (.enumCtor typeId variantIndex size offsets es))
      (evalNode O vrec (.enumCtor typeId variantIndex size offsets es)) [] := by
  intro P s a s' ls ρ w hR hx hS hA
  have heq : lowerNode (lowerExpr m) (.enumCtor typeId variantIndex size offsets es) = (do
      let o ← into "enum" (.alloc (if 0 < size then size else 9) typeId)
      emit (.assign o (.hstore 0 (.const (.int (BitVec.ofNat 64 variantIndex)))))
      storeFields (lowerExpr m) o (offsets.zip es)
      return o) := by
    simp only [into, bind_assoc, pure_bind]
    rfl
  rw [heq] at hx
  obtain ⟨o, s₁, ho, hx⟩ := bind_eq_ok hx
  obtain ⟨_, s₂, htag, hx⟩ := bind_eq_ok hx
  obtain ⟨_, s₃, hst, hx⟩ := bind_eq_ok hx
  obtain ⟨rfl, rfl⟩ := pure_eq_ok hx
  have hps : ∀ p ∈ offsets.zip es, Part O blocks exit m vrec k names waiting loops p.2 :=
    fun p hp => h p.2 (List.of_mem_zip hp).2
  obtain ⟨hR₁, hg₁, ho', hlt₁⟩ := hR.into ho
  obtain ⟨hR₂, hg₂⟩ := hR₁.emit htag
  have hS₂ := hS.of_storeFields hR₂.apart hst (fun p hp => (hps p hp).lowers) hR₂.finals
  simp only [evalNode]
  refine Fate.bind (Q := fun v ρ' q => ρ' = ρ ∧ q = s₁.here (update ls o v))
    (.compute hR ho (hS₂.of_emit htag) rfl fun v => ⟨rfl, rfl⟩) ?_
  rintro v ρ₁ w₁ _ ⟨rfl, rfl⟩
  have hM₁ := (Meets.refl hA : Meets names waiting s ls _ ls).newLocal (l := o) (v := v) hR
    (.inr (Nat.le_of_eq ho'.symm))
  have hv₁ : update ls o v o = v := update_self ..
  refine Fate.bind (Q := fun _ ρ'' q => ρ'' = ρ₁ ∧ q = s₂.here (update ls o v))
    (.store hR₁ htag hS₂ ?_ ⟨rfl, rfl⟩) ?_
  · change (O.store _ [update ls o v o, _] w₁).map _ = _
    rw [hv₁]
    rfl
  rintro _ _ w₂ _ ⟨rfl, rfl⟩
  have hlt₂ := Nat.lt_of_lt_of_le hlt₁ hg₂.locals
  refine (Fate.stores hps hR₂ hst hS (hg₁.trans hg₂) hM₁
    (hR.holder_new (.refl names s) ho' hlt₂) hv₁).bind ?_
  rintro _ ρ₃ w₃ _ ⟨ls₃, rfl, hR₃, hg₃, hM₃, hv⟩
  refine .done ⟨ls₃, rfl, hR₃.flows, hM₃, ?_, hv⟩
  have hg₄ := (lowers_storeFields (lowerExpr m) o fun p hp => (hps p hp).lowers).grown
    hR₂.finals hst
  exact hR.holder_new (.refl names s) ho' (Nat.lt_of_lt_of_le hlt₂ hg₄.locals)

end Constructors

end Loxis.Lowering
