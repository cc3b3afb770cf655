import Loxis.Lowering.Branches

/-! # Jumps and loops

An exit ends its block. The code before it leads to a point from where the next step goes to the
head of the loop, out of the loop or to the exit of the body.
-/

namespace Loxis.Lowering

open Function Eval
open Loxis.Backend (Value)

variable {W : Type} {O : Ops W} {blocks : List BasicBlock} {exit : BlockId} {m k : ℕ}
  {vrec : HirExpr → Eval W Value} {names waiting : List String} {loops : List (Option String)}
  {P : List BlockId} {s s₁ s₂ s' : LowerState} {ls ls₁ : LocalId → Value} {ρ : Env} {w : W}
  {a : LocalId} {u : Unit} {label : Option String}

section Exits

theorem Fate.leave {α : Type} {M : Point × W → Next (Point × W) (Outcome Point W)} {x : Exit}
    {E : Exit → Env → Point → Prop} {Q : α → Env → Point → Prop} {q : Point} (h : E x ρ q) :
    Fate M k (q, w) ((Eval.leave x : Eval W α) ρ w) E Q :=
  ⟨q, .refl _, h⟩

/-- The value of an expression that may be missing. -/
def optionOperand (o : Option HirExpr) (a : LocalId) : Operand :=
  if o.isSome then .copy a else .const (.int 0)

theorem Apart.option {o : Option HirExpr} (hP : Apart P s)
    (hx : lowerOption (lowerExpr m) o s = .ok (a, s')) : Apart P s' := by
  cases o with
  | none =>
    obtain ⟨-, rfl⟩ := pure_eq_ok hx
    exact hP
  | some e => exact hP.lower hx

/-- Evaluate an expression that may be missing. -/
theorem Fate.option {α : Type} {o : Option HirExpr} {f : Value → Eval W α}
    {Q : α → Env → Point → Prop}
    (ho : ∀ e ∈ o, Part O blocks exit m vrec k names waiting loops e)
    (hR : Ready names loops exit P s) (hx : lowerOption (lowerExpr m) o s = .ok (a, s₁))
    (hS : Settled P s₁ blocks) (hA : Agrees names s ρ ls)
    (hf : ∀ ρ' w' ls', Ready names loops exit P s₁ → Grown names s s₁ →
      Meets names waiting s ls ρ' ls' →
      Fate (machine O.services blocks exit) k (s₁.here ls', w')
        (f ((optionOperand o a).value O.base ls') ρ' w')
        (Exits (machine O.services blocks exit) names waiting s ls) Q) :
    Fate (machine O.services blocks exit) k (s.here ls, w) ((evalOption vrec o >>= f) ρ w)
      (Exits (machine O.services blocks exit) names waiting s ls) Q := by
  cases o with
  | none =>
    obtain ⟨-, rfl⟩ := pure_eq_ok hx
    exact hf ρ w ls hR (.refl names s) (.refl hA)
  | some e =>
    refine (ho e rfl).bind (List.Subset.refl _) hR hx hS (.refl names s) (.refl hA) ?_
    rintro _ ρ' w' ls' hR' hg' hM' - - rfl
    exact hf ρ' w' ls' hR' hg' hM'

instance (b : Bool) : Inner names (mark b) where
  lowers := inferInstance
  apart h hx := by
    cases hx
    split
    · exact h
    · exact h.of_same rfl rfl
  settled h _ _ hx := by
    cases hx
    split at h
    · exact h
    · exact h.of_same rfl rfl rfl

theorem Ready.mark {b : Bool} (hR : Ready names loops exit P s)
    (hx : Lowering.mark b s = .ok (u, s')) :
    Ready names loops exit P s' ∧ s'.here = s.here ∧ s'.exitBlock = s.exitBlock := by
  have hg := (inferInstance : Lowers names (Lowering.mark b)).grown hR.finals hx
  have ha := (inferInstance : Inner names (Lowering.mark b)).apart hR.apart hx
  have hs' : s' = { s with balanced := s.balanced && b } := by
    cases hx
    exact if_neg (by simp [hR.flows])
  refine ⟨hR.grown hg ?_ ha hR.exit_mem, ?_, hg.exit⟩
  · rw [hs']
    exact hR.flows
  · rw [hs']
    rfl

/-- An exit is marked, leaves, and has the local of its value. -/
theorem exits (loops : List (Option String)) (exit : BlockId)
    {rec : HirExpr → LowerM LocalId} {depth : ℕ} {target : Option (List LocalId)}
    {leave : LowerM Unit} (hleave : Inner names leave)
    (hx : (do exitWith rec depth target leave; unitLocal) s = .ok (a, s'))
    (hP : Apart P s) (hf : s.finallyStack = []) (hS : Settled P s' blocks) :
    Settled P s blocks ∧ (Ready names loops exit P s →
      ∃ s₁ s₂, Ready names loops exit P s₁ ∧ s₁.here = s.here ∧ s₁.exitBlock = s.exitBlock ∧
        leave s₁ = .ok ((), s₂) ∧ Settled P s₂ blocks) := by
  obtain ⟨_, s₂, h, hx⟩ := bind_eq_ok hx
  obtain ⟨b, hb⟩ := exitWith_nil rec hf depth target leave
  rw [hb] at h
  obtain ⟨_, s₁, hm, hl⟩ := bind_eq_ok h
  have hmark := (inferInstance : Inner names (Lowering.mark b))
  have hP₁ := hmark.apart hP hm
  have hf₁ := (hmark.lowers.grown hf hm).finals.trans hf
  have hS₂ := (inferInstance : Inner names unitLocal).settled hS (hleave.apart hP₁ hl)
    ((hleave.lowers.grown hf₁ hl).finals.trans hf₁) hx
  refine ⟨hmark.settled (hleave.settled hS₂ hP₁ hf₁ hl) hP hf hm, fun hR => ?_⟩
  obtain ⟨hR₁, hhere, hexit⟩ := hR.mark hm
  exact ⟨s₁, s₂, hR₁, hhere, hexit, hl, hS₂⟩

/-- The end of a block is one step. -/
theorem jumps_goto {b : BlockId} (ls : LocalId → Value)
    (hR : Ready names loops exit P s)
    (hx : term (.goto b) s = .ok (u, s')) (hS : Settled P s' blocks) :
    Jumps (machine O.services blocks exit) (s.here ls) ⟨b, 0, ls⟩ := by
  intro w
  have hterm := term_eq (.goto b) hR.flows
  cases hterm.symm.trans hx
  exact machine_go hR.block_ne (hS.step_close _ _ _ hR.apart)

theorem targetLoop_of_hits {cs : List LoopContext}
    (h : (cs.map LoopContext.label).any (hits label) = true) :
    ∃ c, targetLoop label cs = some c := by
  cases label with
  | none =>
    cases cs with
    | nil => simp at h
    | cons c cs => exact ⟨c, rfl⟩
  | some l =>
    simp only [targetLoop]
    rw [← Option.isSome_iff_exists, List.find?_isSome]
    simpa [hits] using h

theorem simulates_break {o : Option HirExpr}
    (ho : ∀ e ∈ o, Part O blocks exit m vrec k names waiting loops e)
    (hl : loops.any (hits label) = true) :
    Simulates O blocks exit k names waiting loops (lowerNode (lowerExpr m) (.break_ label o))
      (evalNode O vrec (.break_ label o)) [] := by
  intro P s a s' ls ρ w hR hx hS hA
  obtain ⟨c, hc⟩ := targetLoop_of_hits (hR.loops.symm ▸ hl)
  have hfind : findLoop label s = .ok (some c, s) := by rw [findLoop, hc]
  change (finallyDepth >>= _) s = _ at hx
  rw [bind_of_ok (show finallyDepth s = .ok (s.finallyStack.length, s) from rfl),
    bind_of_ok hfind] at hx
  obtain ⟨v, s₁, hv, hx⟩ := bind_eq_ok hx
  have hlo : Lowers names (lowerOption (lowerExpr m) o) :=
    lowers_lowerOption fun e he => (ho e he).lowers
  obtain ⟨hS₁, hexits⟩ := exits loops exit
    (inferInstance : Inner names (term _)) hx (hR.apart.option hv)
    ((hlo.grown hR.finals hv).finals.trans hR.finals) hS
  refine Fate.option ho hR hv hS₁ hA fun ρ' w' ls' hR' hg' hM' => ?_
  obtain ⟨s₂, s₃, hR₂, hhere, -, hgo, hS₃⟩ := hexits hR'
  rw [← hhere]
  exact .leave ⟨c, hc, ls', jumps_goto ls' hR₂ hgo hS₃, hM'⟩

theorem simulates_continue (hl : loops.any (hits label) = true) :
    Simulates O blocks exit k names waiting loops (lowerNode (lowerExpr m) (.continue_ label))
      (evalNode O vrec (.continue_ label)) [] := by
  intro P s a s' ls ρ w hR hx hS hA
  obtain ⟨c, hc⟩ := targetLoop_of_hits (hR.loops.symm ▸ hl)
  have hfind : findLoop label s = .ok (some c, s) := by rw [findLoop, hc]
  change (finallyDepth >>= _) s = _ at hx
  rw [bind_of_ok (show finallyDepth s = .ok (s.finallyStack.length, s) from rfl),
    bind_of_ok hfind] at hx
  obtain ⟨-, hexits⟩ := exits loops exit
    (inferInstance : Inner names (term _)) hx hR.apart hR.finals hS
  obtain ⟨s₂, s₃, hR₂, hhere, -, hgo, hS₃⟩ := hexits hR
  rw [← hhere]
  exact .leave ⟨c, hc, ls, jumps_goto ls hR₂ hgo hS₃, .refl hA⟩

theorem inner_modify {f : LowerState → LowerState} (hf : ∀ s, (f s).blocks = s.blocks ∧
      (f s).loopStack = s.loopStack ∧ (f s).finallyStack = s.finallyStack ∧
      (f s).exitBlock = s.exitBlock ∧ (f s).closureEnvLocal = s.closureEnvLocal ∧
      (f s).scope = s.scope ∧ (f s).locals = s.locals)
    (hc : ∀ s, (f s).currentBlock = s.currentBlock ∧ (f s).blockTerminated = s.blockTerminated) :
    Inner names (modify f : LowerM Unit) where
  lowers := lowers_modify hf
  apart {P s a s'} h hx := by
    cases hx
    exact h.of_same (hf s).1 (hc s).1
  settled {P s a s' blocks} h _ _ hx := by
    cases hx
    exact h.of_same (hf s).1 (hc s).1 (hc s).2

instance : Inner names (get : LowerM LowerState) where
  lowers := inferInstance
  apart h hx := by
    cases hx
    exact h
  settled h _ _ hx := by
    cases hx
    exact h

instance {α : Type} (r : List LocalId) (x : LowerM α) [Inner names x] :
    Inner names (atRegions r x) := by
  have h (r : List LocalId) :
      Inner names (modify fun t => { t with regions := r } : LowerM Unit) :=
    inner_modify (fun _ => ⟨rfl, rfl, rfl, rfl, rfl, rfl, rfl⟩) fun _ => ⟨rfl, rfl⟩
  unfold atRegions
  infer_instance

instance (x : Operand) : Inner names (returnWith x) := by
  unfold returnWith
  infer_instance

/-- A return moves its value to local 0 and goes to the exit. -/
theorem leads_returnWith {x : Operand} (ls : LocalId → Value) (w : W)
    (hR : Ready names loops exit P s)
    (hx : returnWith x s = .ok (u, s')) (hS : Settled P s' blocks) :
    ∃ q, Leads (machine O.services blocks exit) (s.here ls, w) (q, w) ∧
      Jumps (machine O.services blocks exit) q
        ⟨s.exitBlock, 0, update ls 0 (x.value O.base ls)⟩ := by
  set st : Statement := .assign 0 (.use x)
  set t : LowerState := { s with regions := [] }
  have hRt : Ready names loops exit P t :=
    hR.grown (grown_of_same rfl rfl rfl rfl rfl (fun _ _ => rfl) (Nat.le_refl _)) hR.flows
      (hR.apart.of_same rfl rfl) hR.exit_mem
  set t' : LowerState := { t.push st with regions := s.regions }
  have hemit : atRegions [] (emit st) s = .ok ((), t') := by
    refine (bind_of_ok rfl).trans ((bind_of_ok rfl).trans ?_)
    exact (bind_of_ok (emit_eq st hRt.flows)).trans rfl
  have hRt' : Ready names loops exit P t' :=
    (hRt.push st).grown (grown_of_same rfl rfl rfl rfl rfl (fun _ _ => rfl) (Nat.le_refl _))
      hR.flows ((hRt.push st).apart.of_same rfl rfl) hR.exit_mem
  rw [returnWith, bind_of_ok hemit] at hx
  have hgo : term (.goto s.exitBlock) t' = .ok (u, s') := hx
  have hSt : Settled P (t.push st) blocks := (hS.of_term hgo).of_same rfl rfl rfl
  refine ⟨_, .of_next (machine_go hR.block_ne ?_), jumps_goto _ hRt' hgo hS⟩
  have hstep := hSt.step_push O.services ls w hRt.apart.inside
  rw [← value_services]
  exact hstep

theorem simulates_return {o : Option HirExpr}
    (ho : ∀ e ∈ o, Part O blocks exit m vrec k names waiting loops e) :
    Simulates O blocks exit k names waiting loops (lowerNode (lowerExpr m) (.return_ o))
      (evalNode O vrec (.return_ o)) [] := by
  intro P s a s' ls ρ w hR hx hS hA
  obtain ⟨v, s₁, hv, hx⟩ := bind_eq_ok hx
  have hlo : Lowers names (lowerOption (lowerExpr m) o) :=
    lowers_lowerOption fun e he => (ho e he).lowers
  obtain ⟨hS₁, hexits⟩ := exits loops exit
    (inferInstance : Inner names (returnWith _)) hx (hR.apart.option hv)
    ((hlo.grown hR.finals hv).finals.trans hR.finals) hS
  refine Fate.option ho hR hv hS₁ hA fun ρ' w' ls' hR' hg' hM' => ?_
  obtain ⟨s₂, s₃, hR₂, hhere, hexit, hgo, hS₃⟩ := hexits hR'
  obtain ⟨q, hq, hj⟩ := leads_returnWith (O := O) ls' w' hR₂ hgo hS₃
  rw [hhere] at hq
  rw [hexit, hg'.exit] at hj
  exact .lead hq (.leave ⟨_, hj, update_self ..⟩)

instance : Inner names terminate where
  lowers := inferInstance
  apart h hx := by
    cases hx
    exact h.of_same rfl rfl
  settled {P s a s' blocks} h _ _ hx := by
    cases hx
    exact ⟨fun i hi hn _ => h.done i hi hn fun _ => rfl, h.begun⟩

instance (value : LocalId) : Inner names (throwWith value) := by
  unfold throwWith
  infer_instance

theorem simulates_throw {e : HirExpr}
    (he : Part O blocks exit m vrec k names waiting loops e) :
    Simulates O blocks exit k names waiting loops (lowerNode (lowerExpr m) (.throw e))
      (evalNode O vrec (.throw e)) [] := by
  intro P s a s' ls ρ w hR hx hS hA
  obtain ⟨v, s₁, hv, hx⟩ := bind_eq_ok hx
  change (do exitWith _ _ none (throwWith v); unitLocal) s₁ = _ at hx
  obtain ⟨hS₁, hexits⟩ := exits loops exit
    (inferInstance : Inner names (throwWith v)) hx (hR.apart.lower hv)
    ((he.lowers.grown hR.finals hv).finals.trans hR.finals) hS
  refine he.bind (List.Subset.refl _) hR hv hS₁ (.refl names s) (.refl hA) ?_
  rintro _ ρ' w' ls' hR' hg' hM' - - rfl
  obtain ⟨s₂, s₃, hR₂, hhere, -, hthrow, hS₃⟩ := hexits hR'
  rw [← hhere]
  obtain ⟨_, s₄, h₄, hend⟩ := bind_eq_ok hthrow
  have hR₄ := hR₂.emit h₄
  have hS₄ := (inferInstance : Inner names terminate).settled hS₃ hR₄.1.apart hR₄.1.finals hend
  exact .of_halt (machine_raised hR₂.block_ne (hS₄.step_emit _ _ hR₂ h₄))

end Exits

section Loops

variable {body : HirExpr} {brk cont next : BlockId}

/-- The body of a loop, what follows it, and the block behind the loop. -/
def loopBody (rec : HirExpr → LowerM LocalId) (brk cont next : BlockId) (label : Option String)
    (body : HirExpr) : LowerM LocalId := do
  let _ ← withLoop brk cont label (rec body)
  term (.goto next)
  startBlock brk
  unitLocal

theorem lowerWhile_loopBody (rec : HirExpr → LowerM LocalId) (cond body : HirExpr)
    (label : Option String) : lowerWhile rec cond body label = (do
      let header ← newBlock
      let bodyB ← newBlock
      let exitB ← newBlock
      term (.goto header)
      startBlock header
      let c ← rec cond
      term (.switchInt (.copy c) 1 bodyB exitB)
      startBlock bodyB
      loopBody rec exitB header header label body) := by
  simp only [lowerWhile, loopBody]

theorem lowerLoop_loopBody (rec : HirExpr → LowerM LocalId) (repeats : Bool) (body : HirExpr)
    (label : Option String) : lowerLoop rec repeats body label = (do
      let bodyB ← newBlock
      let exitB ← newBlock
      term (.goto bodyB)
      startBlock bodyB
      loopBody rec exitB bodyB (if repeats then bodyB else exitB) label body) := by
  simp only [lowerLoop, loopBody]

/-- Where a turn of a loop goes. -/
def turnTarget (brk cont next : BlockId) : Turn → BlockId
  | .completed => next
  | .continued => cont
  | .broken => brk

/-- The end of a turn: the next step goes on from there. -/
def TurnEnds (M : Point × W → Next (Point × W) (Outcome Point W)) (names waiting : List String)
    (s : LowerState) (ls : LocalId → Value) (brk cont next : BlockId) (t : Turn) (ρ : Env)
    (q : Point) : Prop :=
  ∃ ls', Jumps M q ⟨turnTarget brk cont next t, 0, ls'⟩ ∧ Meets names waiting s ls ρ ls'

/-- A jump out of the body of a loop is a jump to the loop or out of the loop. -/
theorem Fate.turn {M : Point × W → Next (Point × W) (Outcome Point W)} {c : Point × W}
    {y : Eval W Value} (s₀ : LowerState) (lc : LoopContext) (ls₁ : LocalId → Value)
    (hlc : s₀.loopStack = lc :: s.loopStack) (hlabel : lc.label = label)
    (hb : lc.breakTarget = brk) (hcont : lc.continueTarget = cont)
    (hexit : s₀.exitBlock = s.exitBlock)
    (hM : ∀ ρ ls', Meets names waiting s₀ ls₁ ρ ls' → Meets names waiting s ls ρ ls')
    (h : Fate M k c (y ρ w) (Exits M names waiting s₀ ls₁) fun _ ρ' q =>
      TurnEnds M names waiting s ls brk cont next .completed ρ' q) :
    Fate M k c (Eval.turn label y ρ w) (Exits M names waiting s ls)
      (TurnEnds M names waiting s ls brk cont next) := by
  have htarget : ∀ l, targetLoop l s₀.loopStack =
      if hits l label then some lc else targetLoop l s.loopStack := by
    intro l
    rw [hlc]
    cases l with
    | none => rfl
    | some l =>
      simp only [targetLoop, hits, List.find?_cons, hlabel, Option.isNone_some, Bool.false_or]
      split <;> simp_all
  unfold Eval.turn
  cases hy : y ρ w with
  | none =>
    rw [hy] at h
    exact h
  | some r =>
    rw [hy] at h
    cases r with
    | done v ρ' w' => exact h
    | raised v w' => exact h
    | stuck => exact h
    | left x ρ' w' =>
      obtain ⟨q, hq, hx⟩ := h
      cases x with
      | break_ l =>
        obtain ⟨c', hc', ls', hj, hm⟩ := hx
        rw [htarget] at hc'
        by_cases hh : hits l label = true
        · simp only [hh, if_true] at hc' ⊢
          obtain rfl := Option.some.inj hc'
          exact ⟨q, hq, ls', hb ▸ hj, hM _ _ hm⟩
        · simp only [hh] at hc' ⊢
          exact ⟨q, hq, c', hc', ls', hj, hM _ _ hm⟩
      | continue_ l =>
        obtain ⟨c', hc', ls', hj, hm⟩ := hx
        rw [htarget] at hc'
        by_cases hh : hits l label = true
        · simp only [hh, if_true] at hc' ⊢
          obtain rfl := Option.some.inj hc'
          exact ⟨q, hq, ls', hcont ▸ hj, hM _ _ hm⟩
        · simp only [hh] at hc' ⊢
          exact ⟨q, hq, c', hc', ls', hj, hM _ _ hm⟩
      | return_ v =>
        obtain ⟨ls', hj, hv⟩ := hx
        exact ⟨q, hq, ls', hexit ▸ hj, hv⟩

/-- A loop body at `t` in the loop that starts at `s`. -/
structure Looped (O : Ops W) (blocks : List BasicBlock) (exit : BlockId) (m : ℕ)
    (names waiting : List String) (loops : List (Option String)) (P : List BlockId)
    (s t s' : LowerState) (ls : LocalId → Value) (brk cont next : BlockId) (label : Option String)
    (body : HirExpr) (a : LocalId) : Prop where
  settled : Settled (brk :: P) t blocks
  turn : ∀ {vrec : HirExpr → Eval W Value} {k : ℕ},
    Part O blocks exit m vrec k names waiting (label :: loops) body → ∀ {ρ ls₁} w,
    Meets names waiting s ls ρ ls₁ →
    Fate (machine O.services blocks exit) k (t.here ls₁, w) (Eval.turn label (vrec body) ρ w)
      (Exits (machine O.services blocks exit) names waiting s ls)
      (TurnEnds (machine O.services blocks exit) names waiting s ls brk cont next)
  behind : ∀ {k : ℕ} {ρ ls₁} w {E : Exit → Env → Point → Prop}, Meets names waiting s ls ρ ls₁ →
    Fate (machine O.services blocks exit) k (⟨brk, 0, ls₁⟩, w)
      ((pure Lowering.unit : Eval W Value) ρ w) E (Finished names waiting [] s s' ls a)

theorem looped {t : LowerState} (waiting : List String) (ls : LocalId → Value)
    (hlow : Lowers names (lowerExpr m body))
    (hR : Ready names loops exit P s) (hRt : Ready names loops exit (brk :: P) t)
    (hg : Grown names s t) (hbrk : brk ∉ P)
    (hx : loopBody (lowerExpr m) brk cont next label body t = .ok (a, s'))
    (hS : Settled P s' blocks) :
    Looped O blocks exit m names waiting loops P s t s' ls brk cont next label body a := by
  obtain ⟨v, t₂, hw, hx⟩ := bind_eq_ok hx
  obtain ⟨_, t₃, hgo, hunit⟩ := bind_eq_ok hx
  rw [bind_of_ok (startBlock_eq brk)] at hunit
  have hgw := (inferInstance : Lowers names (withLoop brk cont label (lowerExpr m body))).grown
    hRt.finals hw
  obtain ⟨_, t₀, h₀, hw⟩ := bind_eq_ok hw
  obtain ⟨v', t₁, hbody, hw⟩ := bind_eq_ok hw
  obtain ⟨_, t₂', h₂, hw⟩ := bind_eq_ok hw
  obtain ⟨rfl, rfl⟩ := pure_eq_ok hw
  cases h₀
  cases h₂
  set lc : LoopContext := ⟨brk, cont, label, t.finallyStack.length, t.regions⟩
  set t₀ : LowerState := { t with loopStack := lc :: t.loopStack }
  set t₂ : LowerState := { t₁ with loopStack := t₁.loopStack.tail }
  have hR₀ : Ready names (label :: loops) exit (brk :: P) t₀ :=
    { hRt with
      apart := hRt.apart.of_same rfl rfl
      loops := by rw [← hRt.loops]; rfl }
  have hP₁ := hR₀.apart.lower hbody
  have hP₂ : Apart (brk :: P) t₂ := hP₁.of_same rfl rfl
  have hP₃ := hP₂.term hgo
  have hS₃ : Settled (brk :: P) t₃ blocks :=
    ((inferInstance : Inner names unitLocal).settled hS
      (hP₃.goTo List.mem_cons_self (List.subset_cons_self _ _) hbrk)
      (((hg.trans hgw).trans ((inferInstance : Lowers names (term _)).grown
        (hgw.finals.trans hRt.finals) hgo)).finals.trans hR.finals) hunit).of_goTo
      hP₃.current_notMem hP₃.inside
  have hS₁ : Settled (brk :: P) t₁ blocks := (hS₃.of_term hgo).of_same rfl rfl rfl
  have hgt := hg.trans hgw
  have hg₃ := (hgt.trans ((inferInstance : Lowers names (term _)).grown
    (hgt.finals.trans hR.finals) hgo)).trans (grown_goTo names t₃ brk)
  refine ⟨(hS₁.of_lower hR₀.apart hbody hlow hRt.finals).of_same rfl rfl rfl, ?_, ?_⟩
  · intro vrec k hpart ρ ls₁ w hM
    refine Fate.turn t₀ lc ls₁ ?_ rfl rfl rfl hg.exit
      (fun ρ' ls' h => hM.trans hg ⟨h.agrees, h.kept⟩) ?_
    · exact congrArg _ hg.loops
    · have hrun := hpart.simulates _ _ _ _ ls₁ ρ w hR₀ hbody hS₁ ((Agrees.grown hg).mpr hM.agrees)
      refine hrun.mono (fun _ _ _ h => h) ?_
      rintro v ρ' _ ⟨ls', rfl, hflows, hM', -, -⟩
      have hR₂ : Ready names loops exit (brk :: P) t₂ := hRt.grown hgw hflows hP₂ hRt.exit_mem
      have hj := jumps_goto (O := O) ls' hR₂ hgo hS₃
      exact ⟨ls', hj, hM.trans hg ⟨hM'.agrees, hM'.kept⟩⟩
  · intro k ρ ls₁ w E hM
    rw [← here_goTo hP₃ List.mem_cons_self]
    have hR₃ := hR.grown hg₃ rfl (hP₃.goTo List.mem_cons_self (List.subset_cons_self _ _) hbrk)
      hR.exit_mem
    exact .unit hM hR hg₃ hR₃ hunit hS

/-- One more turn, which takes a step. -/
theorem Fate.again {n : ℕ} {e : HirExpr} {q q' : Point} {E : Exit → Env → Point → Prop}
    {Q : Value → Env → Point → Prop} (hk : k ≤ n + 1 - sizeOf e)
    (hj : Jumps (machine O.services blocks exit) q q')
    (h : ∀ n', n = n' + 1 → ∀ k', k' ≤ n' + 1 - sizeOf e →
      Fate (machine O.services blocks exit) k' (q', w) (evalNode O (evalExpr O n') e ρ w) E Q) :
    Fate (machine O.services blocks exit) k (q, w) (evalExpr O n e ρ w) E Q := by
  cases n with
  | zero =>
    have := e.sizeOf_pos
    obtain rfl : k = 0 := by omega
    exact Lasts.zero
  | succ n => exact .next (hj w) (h n rfl (k - 1) (by omega))

/-- Whether a loop goes on after a turn, where a completed turn is repeated or not. -/
def turnsAgain (repeats : Bool) : Turn → Bool
  | .completed => repeats
  | .continued => true
  | .broken => false

theorem evalNode_while (rec : HirExpr → Eval W Value) (cond body : HirExpr) :
    evalNode O rec (.while_ cond body label) = rec cond >>= fun v =>
      if O.equal v 1 then
        Eval.turn label (rec body) >>= fun t =>
          if turnsAgain true t then rec (.while_ cond body label) else pure Lowering.unit
      else pure Lowering.unit := by
  simp only [evalNode, evalIf]
  congr
  funext v
  congr
  funext t
  cases t <;> rfl

theorem evalNode_loop (rec : HirExpr → Eval W Value) (body : HirExpr) :
    evalNode O rec (.loop body label) = Eval.turn label (rec body) >>= fun t =>
      if turnsAgain true t then rec (.loop body label) else pure Lowering.unit := by
  simp only [evalNode]
  congr
  funext t
  cases t <;> rfl

theorem evalNode_for (rec : HirExpr → Eval W Value) (body : HirExpr) :
    evalNode O rec (.for_ body label) = Eval.turn label (rec body) >>= fun t =>
      if turnsAgain false t then rec (.for_ body label) else pure Lowering.unit := by
  simp only [evalNode]
  congr
  funext t
  cases t <;> rfl

/-- A turn of a loop, and the turns after it. -/
theorem Looped.turns {t : LowerState} {n : ℕ} {e : HirExpr} (entry : BlockId) (repeats : Bool)
    (L : Looped O blocks exit m names waiting loops P s t s' ls brk cont next label body a)
    (hentry : ∀ t, turnTarget brk cont next t = if turnsAgain repeats t then entry else brk)
    (hpart : Part O blocks exit m (evalExpr O n) k names waiting (label :: loops) body)
    (hk : k ≤ n + 1 - sizeOf e) (hM : Meets names waiting s ls ρ ls₁)
    (h : ∀ n', n = n' + 1 → ∀ k', k' ≤ n' + 1 - sizeOf e → ∀ ρ ls₁ w,
      Meets names waiting s ls ρ ls₁ →
      Fate (machine O.services blocks exit) k' (⟨entry, 0, ls₁⟩, w)
        (evalNode O (evalExpr O n') e ρ w)
        (Exits (machine O.services blocks exit) names waiting s ls)
        (Finished names waiting [] s s' ls a)) :
    Fate (machine O.services blocks exit) k (t.here ls₁, w)
      ((Eval.turn label (evalExpr O n body) >>= fun t =>
        if turnsAgain repeats t then evalExpr O n e else pure Lowering.unit) ρ w)
      (Exits (machine O.services blocks exit) names waiting s ls)
      (Finished names waiting [] s s' ls a) := by
  refine (L.turn hpart w hM).bind ?_
  rintro t ρ' w' q ⟨ls', hj, hM'⟩
  rw [hentry] at hj
  cases ht : turnsAgain repeats t with
  | true =>
    rw [ht] at hj
    exact .again hk hj fun n' hn k' hk' => h n' hn k' hk' ρ' ls' w' hM'
  | false =>
    rw [ht] at hj
    exact .lead (.of_next (hj w')) (L.behind w' hM')

/-- A loop without a test. -/
theorem simulates_lowerLoop (repeats : Bool) {n : ℕ} {e : HirExpr} (hk : k ≤ n + 1 - sizeOf e)
    (he : ∀ n, evalNode O (evalExpr O n) e = Eval.turn label (evalExpr O n body) >>= fun t =>
      if turnsAgain repeats t then evalExpr O n e else pure Lowering.unit)
    (hpart : ∀ n k, k ≤ n + 1 - sizeOf e →
      Part O blocks exit m (evalExpr O n) k names waiting (label :: loops) body) :
    Simulates O blocks exit k names waiting loops (lowerLoop (lowerExpr m) repeats body label)
      (evalNode O (evalExpr O n) e) [] := by
  intro P s a s' ls ρ w hR hx hS hA
  rw [lowerLoop_loopBody] at hx
  obtain ⟨bodyB, s₁, h₁, hx⟩ := bind_eq_ok hx
  obtain ⟨exitB, s₂, h₂, hx⟩ := bind_eq_ok hx
  obtain ⟨_, s₃, h₃, hloop⟩ := bind_eq_ok hx
  rw [bind_of_ok (startBlock_eq bodyB)] at hloop
  obtain ⟨hP₁, hbody, hh₁, rfl, -⟩ := hR.apart.newBlock h₁
  obtain ⟨hP₂, hexit, hh₂, rfl, -⟩ := hP₁.newBlock h₂
  have hP₃ := hP₂.term h₃
  have hne : bodyB ∉ exitB :: P := fun hm => by
    rcases List.mem_cons.mp hm with rfl | hm
    · exact hexit List.mem_cons_self
    · exact hbody hm
  have hPt : Apart (exitB :: P) (s₃.goTo bodyB) :=
    hP₃.goTo (List.mem_cons_of_mem _ List.mem_cons_self) (fun i hi => by
      simp only [List.mem_cons] at hi ⊢
      tauto) hne
  have hg₂ := (grown_grow names s).trans (grown_grow names _)
  have hgt := (hg₂.trans ((inferInstance : Lowers names (term _)).grown
    (hg₂.finals.trans hR.finals) h₃)).trans (grown_goTo names s₃ bodyB)
  have L := looped (O := O) waiting ls (hpart 0 0 (Nat.zero_le _)).lowers hR
    (hR.grown hgt rfl hPt (List.mem_cons_of_mem _ hR.exit_mem)) hgt
    (fun hm => hexit (List.mem_cons_of_mem _ hm)) hloop hS
  have hS₃ : Settled (exitB :: bodyB :: P) s₃ blocks :=
    (L.settled.of_goTo (fun hm => hP₃.current_notMem (by
      simp only [List.mem_cons] at hm ⊢
      tauto)) hP₃.inside).mono fun i hi => by
        simp only [List.mem_cons] at hi ⊢
        tauto
  have hj := jumps_goto (O := O) ls (hR.grown hg₂ hR.flows hP₂
    (List.mem_cons_of_mem _ (List.mem_cons_of_mem _ hR.exit_mem))) h₃ hS₃
  rw [hh₂, hh₁] at hj
  refine .lead (.of_next (hj w)) ?_
  have hturns : ∀ n k, k ≤ n + 1 - sizeOf e → ∀ ρ ls₁ w, Meets names waiting s ls ρ ls₁ →
      Fate (machine O.services blocks exit) k (⟨bodyB, 0, ls₁⟩, w)
        (evalNode O (evalExpr O n) e ρ w)
        (Exits (machine O.services blocks exit) names waiting s ls)
        (Finished names waiting [] s s' ls a) := by
    intro n
    induction n using Nat.strong_induction_on with
    | _ n ih =>
      intro k hk ρ ls₁ w hM
      rw [he, ← here_goTo hP₃ (List.mem_cons_of_mem _ List.mem_cons_self)]
      refine L.turns bodyB repeats (fun t => ?_) (hpart n k hk) hk hM
        fun n' hn => ih n' (by omega)
      cases t <;> cases repeats <;> rfl
  exact hturns n k hk ρ ls w (.refl hA)

/-- A loop that tests first. -/
theorem simulates_while {cond : HirExpr} {n : ℕ}
    (hk : k ≤ n + 1 - sizeOf (HirExpr.while_ cond body label))
    (hcond : ∀ n k, k ≤ n + 1 - sizeOf (HirExpr.while_ cond body label) →
      Part O blocks exit m (evalExpr O n) k names waiting loops cond)
    (hbody : ∀ n k, k ≤ n + 1 - sizeOf (HirExpr.while_ cond body label) →
      Part O blocks exit m (evalExpr O n) k names waiting (label :: loops) body) :
    Simulates O blocks exit k names waiting loops
      (lowerNode (lowerExpr m) (.while_ cond body label))
      (evalNode O (evalExpr O n) (.while_ cond body label)) [] := by
  intro P s a s' ls ρ w hR hx hS hA
  change lowerWhile _ _ _ _ s = _ at hx
  rw [lowerWhile_loopBody] at hx
  obtain ⟨header, s₁, h₁, hx⟩ := bind_eq_ok hx
  obtain ⟨bodyB, s₂, h₂, hx⟩ := bind_eq_ok hx
  obtain ⟨exitB, s₃, h₃, hx⟩ := bind_eq_ok hx
  obtain ⟨_, s₄, h₄, hx⟩ := bind_eq_ok hx
  rw [bind_of_ok (startBlock_eq header)] at hx
  obtain ⟨c, t₂, hc, hx⟩ := bind_eq_ok hx
  obtain ⟨_, t₃, hswitch, hx⟩ := bind_eq_ok hx
  rw [bind_of_ok (startBlock_eq bodyB)] at hx
  have hthree := three names hR.apart h₁ h₂ h₃
  have hlow := (hcond 0 0 (Nat.zero_le _)).lowers
  -- The blocks that are not yet started, at each of the states.
  have hP₄ := hthree.apart.term h₄
  have hPt₁ : Apart (bodyB :: exitB :: P) (s₄.goTo header) :=
    hP₄.goTo List.mem_cons_self (List.subset_cons_self _ _) hthree.fst
  have hPt₂ := hPt₁.lower hc
  have hPt₃ := hPt₂.term hswitch
  have hPt₄ : Apart (exitB :: P) (t₃.goTo bodyB) :=
    hPt₃.goTo List.mem_cons_self (List.subset_cons_self _ _) hthree.snd
  have hmem : exit ∈ exitB :: P := List.mem_cons_of_mem _ hR.exit_mem
  have hg₃ := hthree.grown
  have hg₄ := (hg₃.trans ((inferInstance : Lowers names (term _)).grown
    (hg₃.finals.trans hR.finals) h₄)).trans (grown_goTo names s₄ header)
  have hg₅ := hg₄.trans (hlow.grown (hg₄.finals.trans hR.finals) hc)
  have hg₆ := (hg₅.trans ((inferInstance : Lowers names (term _)).grown
    (hg₅.finals.trans hR.finals) hswitch)).trans (grown_goTo names t₃ bodyB)
  have hRt₁ := hR.grown hg₄ rfl hPt₁ (List.mem_cons_of_mem _ hmem)
  have L := looped (O := O) waiting ls (hbody 0 0 (Nat.zero_le _)).lowers hR
    (hR.grown hg₆ rfl hPt₄ hmem) hg₆ hthree.trd hx hS
  have hSt₃ := L.settled.of_goTo hPt₃.current_notMem hPt₃.inside
  have hSt₂ := hSt₃.of_term hswitch
  have hS₄ := (hSt₂.of_lower hPt₁ hc hlow (hg₄.finals.trans hR.finals)).of_goTo
    hP₄.current_notMem hP₄.inside
  have hj := jumps_goto (O := O) ls (hR.grown hg₃ (hthree.flows.trans hR.flows)
    hthree.apart (List.mem_cons_of_mem _ (List.mem_cons_of_mem _ hmem))) h₄ hS₄
  rw [hthree.here] at hj
  refine .lead (.of_next (hj w)) ?_
  have hturns : ∀ n k, k ≤ n + 1 - sizeOf (HirExpr.while_ cond body label) → ∀ ρ ls₁ w,
      Meets names waiting s ls ρ ls₁ →
      Fate (machine O.services blocks exit) k (⟨header, 0, ls₁⟩, w)
        (evalNode O (evalExpr O n) (.while_ cond body label) ρ w)
        (Exits (machine O.services blocks exit) names waiting s ls)
        (Finished names waiting [] s s' ls a) := by
    intro n
    induction n using Nat.strong_induction_on with
    | _ n ih =>
      intro k hk ρ ls₁ w hM
      rw [← here_goTo hP₄ List.mem_cons_self, evalNode_while]
      refine (hcond n k hk).bind (List.Subset.refl _) hRt₁ hc hSt₂ hg₄ hM ?_
      rintro _ ρ' w' ls' hR' - hM' - - rfl
      cases (term_eq (.switchInt (.copy c) 1 bodyB exitB) hR'.flows).symm.trans hswitch
      have hgo := hSt₃.step_close O.services ls' w' hPt₂
      rw [execTerminator_switch] at hgo
      refine .step hR'.block_ne hgo ?_
      cases hb : O.equal (ls' c) 1 with
      | true =>
        have hturn := L.turns (n := n) (e := .while_ cond body label) (w := w') header true
          (fun t => by cases t <;> rfl) (hbody n k hk) hk hM'
          fun n' hn => ih n' (by omega)
        rwa [here_goTo hPt₃ List.mem_cons_self] at hturn
      | false => exact L.behind w' hM'
  exact hturns n k hk ρ ls w (.refl hA)

end Loops

end Loxis.Lowering
