import Loxis.Lowering.Stores

/-! # Code with branches

Two blocks that are made before they are started and a block where they meet: conditionals,
short-circuit operators and tests for null.
-/

namespace Loxis.Lowering

open Function Eval
open Loxis.Backend (Value TAG_INT)

section Pieces

variable {α β : Type} {names : List String} {P : List BlockId} {s s' : LowerState}
  {blocks : List BasicBlock} {x : LowerM α} {g : α → LowerM β} {b : BlockId}

/-- A piece of lowering that stays in its own blocks, whether it is reached or not. -/
class Inner (names : List String) (x : LowerM α) : Prop where
  lowers : Lowers names x
  apart : ∀ {P : List BlockId} {s : LowerState} {a : α} {s' : LowerState}, Apart P s →
    x s = .ok (a, s') → Apart P s'
  settled : ∀ {P : List BlockId} {s : LowerState} {a : α} {s' : LowerState}
    {blocks : List BasicBlock}, Settled P s' blocks → Apart P s → s.finallyStack = [] →
    x s = .ok (a, s') → Settled P s blocks

theorem Inner.bind (hx : Inner names x) (hg : ∀ a, Inner names (g a)) :
    Inner names (x >>= g) where
  lowers := hx.lowers.bind fun a => (hg a).lowers
  apart h h' := by
    obtain ⟨a, t, ha, hb⟩ := bind_eq_ok h'
    exact (hg a).apart (hx.apart h ha) hb
  settled hS hP hf h' := by
    obtain ⟨a, t, ha, hb⟩ := bind_eq_ok h'
    have hf' := (hx.lowers.grown hf ha).finals.trans hf
    exact hx.settled ((hg a).settled hS (hx.apart hP ha) hf' hb) hP hf ha

instance [hx : Inner names x] [hg : ∀ a, Inner names (g a)] : Inner names (x >>= g) := hx.bind hg

instance (a : α) : Inner names (pure a : LowerM α) where
  lowers := inferInstance
  apart h hx := by
    obtain ⟨-, rfl⟩ := pure_eq_ok hx
    exact h
  settled h _ _ hx := by
    obtain ⟨-, rfl⟩ := pure_eq_ok hx
    exact h

instance (st : Statement) : Inner names (emit st) where
  lowers := inferInstance
  apart h hx := h.emit hx
  settled h _ _ hx := h.of_emit hx

instance (t : Terminator) : Inner names (term t) where
  lowers := inferInstance
  apart h hx := h.term hx
  settled h _ _ hx := h.of_term hx

instance (name : String) (m : Bool) : Inner names (newLocal name m) where
  lowers := inferInstance
  apart h hx := by
    cases hx
    exact h.of_same rfl rfl
  settled h _ _ hx := by
    cases hx
    exact h.of_same rfl rfl rfl

instance : Inner names unitLocal := by
  unfold unitLocal
  infer_instance

theorem Apart.newBlock (h : Apart P s) (hx : Lowering.newBlock s = .ok (b, s')) :
    Apart (b :: P) s' ∧ b ∉ P ∧ s'.here = s.here ∧ s' = s.grow ∧ b < s'.blocks.length := by
  cases hx
  refine ⟨h.grow, fun hm => Nat.lt_irrefl _ (h.lt hm), funext fun ls => here_grow h.inside, rfl, ?_⟩
  simp

theorem Settled.of_newBlock {Q : List BlockId} (h : Settled Q s' blocks) (hP : Apart P s)
    (hx : Lowering.newBlock s = .ok (b, s')) (hQ : Q ⊆ b :: P) : Settled P s blocks := by
  cases hx
  refine Settled.of_grow h hP.inside fun i hi hlt => ?_
  exact (List.mem_cons.mp (hQ hi)).resolve_left (Nat.ne_of_lt hlt)

/-- Put a value where branches meet. -/
def moveTo (result : LocalId) (x : Operand) (b : BlockId) : LowerM Unit := do
  emit (.assign result (.use x))
  term (.goto b)

theorem finishBranch_eq (result v : LocalId) (b : BlockId) :
    finishBranch result v b = moveTo result (.copy v) b := by
  funext s
  cases h : s.blockTerminated with
  | false =>
    have hterm : isTerminated s = .ok (false, s) := by rw [isTerminated, h]
    rw [finishBranch, bind_of_ok hterm]
    rfl
  | true =>
    have hterm : isTerminated s = .ok (true, s) := by rw [isTerminated, h]
    have hemit : ∀ st, emit st s = .ok ((), s) := fun st => by simp [emit, h]
    have hgoto : term (.goto b) s = .ok ((), s) := by simp [term, h]
    rw [finishBranch, bind_of_ok hterm, moveTo, bind_of_ok (hemit _), hgoto]
    rfl

instance (result : LocalId) (x : Operand) (b : BlockId) : Inner names (moveTo result x b) := by
  unfold moveTo
  infer_instance

end Pieces

section Fork

variable {W : Type} {O : Ops W} {blocks : List BasicBlock} {exit : BlockId} {m k : ℕ}
  {vrec : HirExpr → Eval W Value} {names waiting : List String} {loops : List (Option String)}
  {P P₀ : List BlockId} {s s₁ s₂ s' : LowerState} {ls ls₁ ls₂ : LocalId → Value} {ρ : Env} {w : W}
  {a b c : BlockId} {result : LocalId} {u : Unit}

theorem Part.inner {e : HirExpr} (h : Part O blocks exit m vrec k names waiting loops e) :
    Inner names (lowerExpr m e) where
  lowers := h.lowers
  apart hP hx := hP.lower hx
  settled hS hP hf hx := hS.of_lower hP hx h.lowers hf

/-- A branch ends where the branches meet. -/
theorem leads_moveTo {x : Operand} (ls₁ : LocalId → Value) (w : W)
    (hR : Ready names loops exit P s₁)
    (hx : moveTo result x b s₁ = .ok (u, s₂)) (hS : Settled P s₂ blocks) :
    Leads (machine O.services blocks exit) (s₁.here ls₁, w)
      (⟨b, 0, update ls₁ result (x.value O.base ls₁)⟩, w) := by
  rw [moveTo, bind_of_ok (emit_eq _ hR.flows)] at hx
  have hR' := hR.push (.assign result (.use x))
  have hterm := term_eq (.goto b) hR'.flows
  have hs₂ := hterm.symm.trans hx
  cases hs₂
  have h₁ := (hS.of_term hterm).step_push O.services ls₁ w hR.apart.inside
  have h₂ := hS.step_close O.services (update ls₁ result (x.value O.services ls₁)) w hR'.apart
  rw [← value_services (O := O)]
  exact .head (machine_go hR.block_ne h₁) (.of_next (machine_go hR'.block_ne h₂))

/-- Two branches, the first of which names the local of the result. -/
def branches (a b c : BlockId) (first : LowerM LocalId) (second : LocalId → LowerM Unit) :
    LowerM LocalId := do
  startBlock a
  let result ← first
  startBlock b
  second result
  startBlock c
  return result

/-- Where branches meet, with a result in a local that is new since `s`. -/
structure Meeting (s s' : LowerState) (c : BlockId) (result : LocalId) : Prop where
  at_ : ∀ ls, s'.here ls = ⟨c, 0, ls⟩
  flows : s'.blockTerminated = false
  new : s.locals.length ≤ result
  lt : result < s'.locals.length

/-- Where the code of two branches is that start after `s₁` and end in `s'`. -/
structure Forked (names : List String) (loops : List (Option String)) (exit : BlockId)
    (blocks : List BasicBlock) (P : List BlockId) (s s₁ : LowerState) (a b c : BlockId)
    (first : LowerM LocalId) (second : LocalId → LowerM Unit) (result : LocalId)
    (s₂ s₃ s' : LowerState) : Prop where
  first_eq : first (s₁.goTo a) = .ok (result, s₂)
  second_eq : second result (s₂.goTo b) = .ok ((), s₃)
  here₁ : ∀ ls, (s₁.goTo a).here ls = ⟨a, 0, ls⟩
  here₂ : ∀ ls, (s₂.goTo b).here ls = ⟨b, 0, ls⟩
  grown₁ : Grown names s (s₁.goTo a)
  grown₂ : Grown names s (s₂.goTo b)
  ready₁ : Ready names loops exit (b :: c :: P) (s₁.goTo a)
  ready₂ : Ready names loops exit (c :: P) (s₂.goTo b)
  settled : Settled (a :: b :: c :: P) s₁ blocks
  settled₁ : Settled (b :: c :: P) s₂ blocks
  settled₂ : Settled (c :: P) s₃ blocks
  meeting : s.locals.length ≤ result → result < s₂.locals.length → Meeting s s' c result

theorem here_goTo (hP : Apart P s) (hb : b ∈ P) (ls : LocalId → Value) :
    (s.goTo b).here ls = ⟨b, 0, ls⟩ := by
  rw [LowerState.here, hP.size_goTo hb]
  rfl

theorem forked {first : LowerM LocalId} {second : LocalId → LowerM Unit}
    (hfirst : Inner names first) (hsecond : ∀ r, Inner names (second r))
    (hx : branches a b c first second s₁ = .ok (result, s')) (hS : Settled P s' blocks)
    (hP : Apart (a :: b :: c :: P) s₁) (hab : a ∉ b :: c :: P) (hbc : b ∉ c :: P)
    (hR : Ready names loops exit P s) (hg : Grown names s s₁) :
    ∃ s₂ s₃, Forked names loops exit blocks P s s₁ a b c first second result s₂ s₃ s' := by
  rw [branches, bind_of_ok (startBlock_eq a)] at hx
  obtain ⟨r, s₂, h₁, hx⟩ := bind_eq_ok hx
  rw [bind_of_ok (startBlock_eq b)] at hx
  obtain ⟨_, s₃, h₂, hx⟩ := bind_eq_ok hx
  rw [bind_of_ok (startBlock_eq c)] at hx
  obtain ⟨rfl, rfl⟩ := pure_eq_ok hx
  have hP₁ : Apart (b :: c :: P) (s₁.goTo a) :=
    hP.goTo List.mem_cons_self (List.subset_cons_self _ _) hab
  have hP₁' := hfirst.apart hP₁ h₁
  have hP₂ : Apart (c :: P) (s₂.goTo b) :=
    hP₁'.goTo List.mem_cons_self (List.subset_cons_self _ _) hbc
  have hP₂' := (hsecond r).apart hP₂ h₂
  have hg₁ := hg.trans (grown_goTo names s₁ a)
  have hf₁ := hg₁.finals.trans hR.finals
  have hg₂ := (hg₁.trans (hfirst.lowers.grown hf₁ h₁)).trans (grown_goTo names s₂ b)
  have hf₂ := hg₂.finals.trans hR.finals
  have hg₃ := (hsecond r).lowers.grown hf₂ h₂
  have hS₂ := hS.of_goTo hP₂'.current_notMem hP₂'.inside
  have hS₁ := ((hsecond r).settled hS₂ hP₂ hf₂ h₂).of_goTo hP₁'.current_notMem hP₁'.inside
  have hS₀ := (hfirst.settled hS₁ hP₁ hf₁ h₁).of_goTo hP.current_notMem hP.inside
  have hmem : exit ∈ c :: P := List.mem_cons_of_mem _ hR.exit_mem
  refine ⟨s₂, s₃, h₁, h₂, here_goTo hP List.mem_cons_self, here_goTo hP₁' List.mem_cons_self,
    hg₁, hg₂, hR.grown hg₁ rfl hP₁ (List.mem_cons_of_mem _ hmem), hR.grown hg₂ rfl hP₂ hmem, hS₀,
    hS₁, hS₂, fun hnew hlt => ⟨here_goTo hP₂' List.mem_cons_self, rfl, hnew, ?_⟩⟩
  have hgs := ((grown_goTo names s₂ b).trans hg₃).trans (grown_goTo names s₃ c)
  exact Nat.lt_of_lt_of_le hlt hgs.locals

theorem Meeting.finished {v : Value} (h : Meeting s s' c result)
    (hR : Ready names loops exit P s) (hM : Meets names waiting s ls ρ ls₁) :
    Finished names waiting [] s s' ls result v ρ ⟨c, 0, update ls₁ result v⟩ := by
  refine ⟨_, (h.at_ _).symm, h.flows, hM.newLocal hR (.inr h.new), ?_, update_self ..⟩
  refine ⟨Nat.lt_of_lt_of_le hR.pos h.new, h.lt, fun x hx hl => ?_⟩
  obtain ⟨l', hl', -, hlt⟩ := hR.scope x hx
  obtain rfl := Option.some.inj (hl.symm.trans hl')
  exact absurd h.new (Nat.not_le.mpr hlt)

/-- A branch that is an expression. -/
theorem Fate.branch {Q : List BlockId} {e : HirExpr} {v : LocalId} {t₀ t₁ t₁' t₂ : LowerState}
    (h : Meeting s s' c result) (hR : Ready names loops exit P s)
    (he : Part O blocks exit m vrec k names waiting loops e) (hR₀ : Ready names loops exit Q t₀)
    (hx : lowerExpr m e t₀ = .ok (v, t₁)) (ht : t₁' = t₁ ∨ ∃ name b, t₁' = t₁.declare name b)
    (hmove : moveTo result (.copy v) c t₁' = .ok (u, t₂)) (hS : Settled Q t₂ blocks)
    (hg : Grown names s t₀) (hM : Meets names waiting s ls ρ ls₁) :
    Fate (machine O.services blocks exit) k (t₀.here ls₁, w) (vrec e ρ w)
      (Exits (machine O.services blocks exit) names waiting s ls)
      (Finished names waiting [] s s' ls result) := by
  have hf₁ := (he.lowers.grown hR₀.finals hx).finals.trans hR₀.finals
  have hmoves : Inner names (moveTo result (.copy v) c) := inferInstance
  have hS₁ : Settled Q t₁ blocks := by
    have hP₁ := hR₀.apart.lower hx
    obtain rfl | ⟨name, b, rfl⟩ := ht
    · exact hmoves.settled hS hP₁ hf₁ hmove
    · exact (hmoves.settled hS (hP₁.declare name b) hf₁ hmove).of_declare
  rw [← bind_pure (vrec e)]
  refine he.bind (List.Subset.refl _) hR₀ hx hS₁ hg hM ?_
  rintro _ ρ' w' ls' hR₁ - hM' - - rfl
  have hR₁' : Ready names loops exit Q t₁' ∧ t₁'.here = t₁.here := by
    obtain rfl | ⟨name, b, rfl⟩ := ht
    · exact ⟨hR₁, rfl⟩
    · exact ⟨hR₁.declare name b, rfl⟩
  have hlead := leads_moveTo (O := O) ls' w' hR₁'.1 hmove hS
  rw [hR₁'.2] at hlead
  exact .lead hlead (.done (h.finished hR hM'))

/-- A branch that is a constant or a local. -/
theorem Fate.moveBranch {Q : List BlockId} {x : Operand} {y : Value} {t₀ t₁ : LowerState}
    {E : Exit → Env → Point → Prop} (h : Meeting s s' c result) (hR : Ready names loops exit P s)
    (hR₀ : Ready names loops exit Q t₀) (hmove : moveTo result x c t₀ = .ok (u, t₁))
    (hS : Settled Q t₁ blocks) (hM : Meets names waiting s ls ρ ls₁)
    (hy : y = x.value O.base ls₁) :
    Fate (machine O.services blocks exit) k (t₀.here ls₁, w) ((pure y : Eval W Value) ρ w) E
      (Finished names waiting [] s s' ls result) := by
  subst hy
  exact .lead (leads_moveTo ls₁ w hR₀ hmove hS) (.done (h.finished hR hM))

instance (result v : LocalId) (b : BlockId) : Inner names (finishBranch result v b) := by
  rw [finishBranch_eq]
  infer_instance

theorem inner_lowerElse {o : Option HirExpr} (h : ∀ e ∈ o, Inner names (lowerExpr m e)) :
    Inner names (lowerElse (lowerExpr m) result c o) := by
  cases o with
  | none => exact (inferInstance : Inner names (moveTo result (.const (.int 0)) c))
  | some e =>
    have := h e rfl
    unfold lowerElse
    infer_instance

theorem lowerIf_branches (rec : HirExpr → LowerM LocalId) (cond then_ : HirExpr)
    (else_ : Option HirExpr) : lowerIf rec cond then_ else_ = (do
      let v ← rec cond
      let thenB ← newBlock
      let elseB ← newBlock
      let mergeB ← newBlock
      term (.switchInt (.copy v) 1 thenB elseB)
      branches thenB elseB mergeB (do
        let v ← rec then_
        let result ← newLocal "if_result" false
        finishBranch result v mergeB
        return result) fun result => lowerElse rec result mergeB else_) := by
  simp only [lowerIf, branches, bind_assoc, pure_bind]

/-- Three blocks that are made after `s`. -/
structure Three (names : List String) (P : List BlockId) (s s' : LowerState) (a b c : BlockId) :
    Prop where
  apart : Apart (a :: b :: c :: P) s'
  here : s'.here = s.here
  flows : s'.blockTerminated = s.blockTerminated
  grown : Grown names s s'
  fst : a ∉ b :: c :: P
  snd : b ∉ c :: P
  trd : c ∉ P
  settled : ∀ blocks, Settled (a :: b :: c :: P) s' blocks → Settled P s blocks

theorem Three.swap (h : Three names P s s' a b c) : Three names P s s' b a c := by
  have hperm : ∀ {x y : BlockId}, x :: y :: c :: P ⊆ y :: x :: c :: P := fun {x y} i hi => by
    simp only [List.mem_cons] at hi ⊢
    tauto
  have hfst := h.fst
  have hsnd := h.snd
  simp only [List.mem_cons, not_or] at hfst hsnd
  refine ⟨h.apart.mono hperm, h.here, h.flows, h.grown, ?_, ?_, h.trd, fun blocks hS =>
    h.settled blocks (hS.mono hperm)⟩
  · simp only [List.mem_cons, not_or]
    exact ⟨Ne.symm hfst.1, hsnd⟩
  · simp only [List.mem_cons, not_or]
    exact hfst.2

theorem three {s₃ : LowerState} (names : List String) (hP : Apart P s)
    (h₁ : newBlock s = .ok (a, s₁)) (h₂ : newBlock s₁ = .ok (b, s₂))
    (h₃ : newBlock s₂ = .ok (c, s₃)) : Three names P s s₃ a b c := by
  obtain ⟨hP₁, ha, hh₁, rfl, -⟩ := hP.newBlock h₁
  obtain ⟨hP₂, hb, hh₂, rfl, -⟩ := hP₁.newBlock h₂
  obtain ⟨hP₃, hc, hh₃, rfl, -⟩ := hP₂.newBlock h₃
  simp only [List.mem_cons, not_or] at ha hb hc
  refine ⟨hP₃.mono fun i hi => ?_, hh₃.trans (hh₂.trans hh₁), rfl, ?_, ?_, ?_, hc.2.2,
    fun blocks hS => ?_⟩
  · simp only [List.mem_cons] at hi ⊢
    tauto
  · exact ((grown_grow names s).trans (grown_grow names _)).trans (grown_grow names _)
  · simp only [List.mem_cons, not_or]
    exact ⟨Ne.symm hb.1, Ne.symm hc.2.1, ha⟩
  · simp only [List.mem_cons, not_or]
    exact ⟨Ne.symm hc.1, hb.2⟩
  · have hS₂ := hS.of_newBlock (P := b :: a :: P) hP₂ h₃ fun i hi => by
      simp only [List.mem_cons] at hi ⊢
      tauto
    exact (hS₂.of_newBlock hP₁ h₂ (List.Subset.refl _)).of_newBlock hP h₁ (List.Subset.refl _)

/-- A test, and two branches. -/
theorem fork {t : Terminator} {first : LowerM LocalId} {second : LocalId → LowerM Unit}
    {s₃ s₄ : LowerState} (hfirst : Inner names first) (hsecond : ∀ r, Inner names (second r))
    (hR : Ready names loops exit P s) (hg : Grown names s s₁)
    (hthree : Three names P s₁ s₃ a b c) (ht : term t s₃ = .ok (u, s₄))
    (hx : branches a b c first second s₄ = .ok (result, s')) (hS : Settled P s' blocks) :
    (∃ s₅ s₆, Forked names loops exit blocks P s s₄ a b c first second result s₅ s₆ s' ∧
        Grown names s₁ s₅) ∧
      Settled P s₁ blocks ∧
      ∀ target ls w, Ready names loops exit P s₁ →
        execTerminator O.services t ls w = .returned ⟨target, 0, ls⟩ w →
        Leads (machine O.services blocks exit) (s₁.here ls, w) (⟨target, 0, ls⟩, w) := by
  have hg₃ := hg.trans hthree.grown
  have hg₄ := (inferInstance : Lowers names (term t)).grown (hg₃.finals.trans hR.finals) ht
  obtain ⟨s₅, s₆, F⟩ := forked hfirst hsecond hx hS (hthree.apart.term ht) hthree.fst hthree.snd
    hR (hg₃.trans hg₄)
  have hg₅ := hfirst.lowers.grown (F.grown₁.finals.trans hR.finals) F.first_eq
  have hgs := ((hthree.grown.trans hg₄).trans (grown_goTo names s₄ a)).trans hg₅
  refine ⟨⟨s₅, s₆, F, hgs⟩, hthree.settled _ (F.settled.of_term ht), fun target ls w hR₁ hgo => ?_⟩
  have hR₃ : Ready names loops exit (a :: b :: c :: P) s₃ := by
    refine hR₁.grown hthree.grown (hthree.flows.trans hR₁.flows) hthree.apart ?_
    have hmem := hR.exit_mem
    simp only [List.mem_cons]
    tauto
  cases (term_eq t hR₃.flows).symm.trans ht
  rw [← hthree.here]
  exact .of_next (machine_go hR₃.block_ne ((F.settled.step_close _ _ _ hR₃.apart).trans hgo))

theorem execTerminator_switch (l : LocalId) (value : ℕ) (a b : BlockId) :
    execTerminator O.services (.switchInt (.copy l) value a b) ls w =
      .returned ⟨if O.equal (ls l) value then a else b, 0, ls⟩ w :=
  rfl

theorem execTerminator_checkNull (l : LocalId) (a b : BlockId) :
    execTerminator O.services (.checkNull (.copy l) a b) ls w =
      .returned ⟨if IsNull (ls l) then a else b, 0, ls⟩ w :=
  rfl

/-- A conditional. -/
theorem simulates_if {cond then_ : HirExpr} {o : Option HirExpr}
    (hcond : Part O blocks exit m vrec k names waiting loops cond)
    (hthen : Part O blocks exit m vrec k names waiting loops then_)
    (helse : ∀ e ∈ o, Part O blocks exit m vrec k names waiting loops e) :
    Simulates O blocks exit k names waiting loops (lowerIf (lowerExpr m) cond then_ o)
      (evalIf O vrec cond (vrec then_) (evalOption vrec o)) [] := by
  intro P s a s' ls ρ w hR hx hS hA
  rw [lowerIf_branches] at hx
  obtain ⟨c, s₁, hc, hx⟩ := bind_eq_ok hx
  obtain ⟨thenB, s₂, h₂, hx⟩ := bind_eq_ok hx
  obtain ⟨elseB, s₃, h₃, hx⟩ := bind_eq_ok hx
  obtain ⟨mergeB, s₄, h₄, hx⟩ := bind_eq_ok hx
  obtain ⟨_, s₅, h₅, hx⟩ := bind_eq_ok hx
  have hg₁ := hcond.lowers.grown hR.finals hc
  have := hthen.inner
  have hinner (result : LocalId) : Inner names (lowerElse (lowerExpr m) result mergeB o) :=
    inner_lowerElse fun e he => (helse e he).inner
  obtain ⟨⟨s₆, s₇, F, -⟩, hS₁, hgo⟩ := fork (O := O) (by infer_instance) hinner hR hg₁
    (three names (hR.apart.lower hc) h₂ h₃ h₄) h₅ hx hS
  -- The first branch, up to its end.
  obtain ⟨v, t₁, hv, hfirst⟩ := bind_eq_ok F.first_eq
  obtain ⟨result, t₂, hresult, hfirst⟩ := bind_eq_ok hfirst
  obtain ⟨_, t₃, hmove, hfirst⟩ := bind_eq_ok hfirst
  obtain ⟨rfl, rfl⟩ := pure_eq_ok hfirst
  cases hresult
  rw [finishBranch_eq] at hmove
  have hgt := F.grown₁.trans (hthen.lowers.grown F.ready₁.finals hv)
  have hgd := hgt.trans (grown_declare names t₁ "if_result" false)
  have hmoves : Inner names (moveTo t₁.locals.length (.copy v) mergeB) := inferInstance
  have hgm := hmoves.lowers.grown (hgd.finals.trans hR.finals) hmove
  have hmeet := F.meeting hgt.locals (Nat.lt_of_lt_of_le (by simp) hgm.locals)
  refine hcond.bind (List.Subset.refl _) hR hc hS₁ (.refl names s) (.refl hA) ?_
  rintro _ ρ₁ w₁ ls₁ hR₁ - hM₁ - - rfl
  cases hb : O.equal (ls₁ c) 1 with
  | true =>
    refine .lead (hgo thenB ls₁ w₁ hR₁ (by rw [execTerminator_switch, if_pos hb])) ?_
    rw [← F.here₁]
    exact .branch hmeet hR hthen F.ready₁ hv (.inr ⟨_, _, rfl⟩) hmove F.settled₁ F.grown₁ hM₁
  | false =>
    refine .lead (hgo elseB ls₁ w₁ hR₁ (by simp [execTerminator_switch, hb])) ?_
    rw [← F.here₂]
    cases o with
    | none => exact .moveBranch hmeet hR F.ready₂ F.second_eq F.settled₂ hM₁ rfl
    | some e =>
      obtain ⟨v', t₄, hv', hmove'⟩ := bind_eq_ok F.second_eq
      rw [finishBranch_eq] at hmove'
      exact .branch hmeet hR (helse e rfl) F.ready₂ hv' (.inl rfl) hmove' F.settled₂ F.grown₂ hM₁

theorem lowerElvis_branches (rec : HirExpr → LowerM LocalId) (lhs rhs : HirExpr) :
    lowerElvis rec lhs rhs = (do
      let l ← rec lhs
      let result ← newLocal "elvis" false
      let okB ← newBlock
      let fbB ← newBlock
      let mergeB ← newBlock
      term (.checkNull (.copy l) fbB okB)
      branches okB fbB mergeB (do
        moveTo result (.copy l) mergeB
        return result) fun r => do
          let v ← rec rhs
          moveTo r (.copy v) mergeB) := by
  simp only [lowerElvis, branches, moveTo, bind_assoc, pure_bind]

theorem simulates_elvis {lhs rhs : HirExpr}
    (hl : Part O blocks exit m vrec k names waiting loops lhs)
    (hr : Part O blocks exit m vrec k names waiting loops rhs) :
    Simulates O blocks exit k names waiting loops (lowerNode (lowerExpr m) (.elvis lhs rhs))
      (evalNode O vrec (.elvis lhs rhs)) [] := by
  intro P s a s' ls ρ w hR hx hS hA
  change lowerElvis _ _ _ s = _ at hx
  rw [lowerElvis_branches] at hx
  obtain ⟨l, s₁, hc, hx⟩ := bind_eq_ok hx
  rw [bind_of_ok (newLocal_eq _ _)] at hx
  obtain ⟨okB, s₂, h₂, hx⟩ := bind_eq_ok hx
  obtain ⟨fbB, s₃, h₃, hx⟩ := bind_eq_ok hx
  obtain ⟨mergeB, s₄, h₄, hx⟩ := bind_eq_ok hx
  obtain ⟨_, s₅, h₅, hx⟩ := bind_eq_ok hx
  have hg₁ := hl.lowers.grown hR.finals hc
  have hgd := hg₁.trans (grown_declare names s₁ "elvis" false)
  have := hr.inner
  obtain ⟨⟨s₆, s₇, F, hgf⟩, hS₁, hgo⟩ := fork (O := O) (by infer_instance)
    (fun _ => by infer_instance) hR hgd
    (three names ((hR.apart.lower hc).declare "elvis" false) h₂ h₃ h₄) h₅ hx hS
  obtain ⟨_, t₁, hmove, hfirst⟩ := bind_eq_ok F.first_eq
  obtain ⟨rfl, rfl⟩ := pure_eq_ok hfirst
  obtain ⟨r, t₂, hv, hmove'⟩ := bind_eq_ok F.second_eq
  have hmeet := F.meeting hg₁.locals (Nat.lt_of_lt_of_le (by simp) hgf.locals)
  refine hl.bind (List.Subset.refl _) hR hc hS₁.of_declare (.refl names s) (.refl hA) ?_
  rintro v ρ₁ w₁ ls₁ hR₁ - hM₁ - - rfl
  have hR₁' := hR₁.declare "elvis" false
  change Fate _ _ _ ((if IsNull (ls₁ l) then vrec rhs else pure (ls₁ l)) ρ₁ w₁) _ _
  by_cases hb : IsNull (ls₁ l)
  · rw [if_pos hb]
    refine .lead (hgo fbB ls₁ w₁ hR₁' (by rw [execTerminator_checkNull, if_pos hb])) ?_
    rw [← F.here₂]
    exact .branch hmeet hR hr F.ready₂ hv (.inl rfl) hmove' F.settled₂ F.grown₂ hM₁
  · rw [if_neg hb]
    refine .lead (hgo okB ls₁ w₁ hR₁' (by rw [execTerminator_checkNull, if_neg hb])) ?_
    rw [← F.here₁]
    exact .moveBranch hmeet hR F.ready₁ hmove F.settled₁ hM₁ rfl

/-- Load a field where branches meet. -/
def fieldTo (obj : LocalId) (offset : ℕ) (b : BlockId) (result : LocalId) : LowerM Unit := do
  emit (.assign result (.field obj offset))
  term (.goto b)

theorem lowerSafeField_branches (rec : HirExpr → LowerM LocalId) (e : HirExpr) (offset : ℕ) :
    lowerSafeField rec e offset = (do
      let r ← rec e
      let result ← newLocal "sf" false
      let okB ← newBlock
      let nullB ← newBlock
      let mergeB ← newBlock
      term (.checkNull (.copy r) nullB okB)
      branches nullB okB mergeB (do
        moveTo result (.const (.int 0)) mergeB
        return result) (fieldTo r offset mergeB)) := by
  simp only [lowerSafeField, branches, moveTo, fieldTo, bind_assoc, pure_bind]

instance (obj : LocalId) (offset : ℕ) : Inner names (fieldTo obj offset c result) := by
  unfold fieldTo
  infer_instance

/-- A branch that loads a field. -/
theorem Fate.fieldBranch {Q : List BlockId} {obj : LocalId} {offset : ℕ} {t₀ t₁ : LowerState}
    {E : Exit → Env → Point → Prop} (h : Meeting s s' c result) (hR : Ready names loops exit P s)
    (hR₀ : Ready names loops exit Q t₀) (hload : fieldTo obj offset c result t₀ = .ok (u, t₁))
    (hS : Settled Q t₁ blocks) (hM : Meets names waiting s ls ρ ls₁) :
    Fate (machine O.services blocks exit) k (t₀.here ls₁, w)
      (perform O (.field offset) [ls₁ obj] ρ w) E (Finished names waiting [] s s' ls result) := by
  rw [fieldTo, bind_of_ok (emit_eq _ hR₀.flows)] at hload
  have hR₁ := hR₀.push (.assign result (.field obj offset))
  have hterm := term_eq (.goto c) hR₁.flows
  cases hterm.symm.trans hload
  rw [← bind_pure (perform O (.field offset) [ls₁ obj])]
  refine Fate.bind (Q := fun v ρ' q => ρ' = ρ ∧
    q = (t₀.push (.assign result (.field obj offset))).here (update ls₁ result v))
    (.operation hR₀.block_ne ?_ fun v => ⟨rfl, rfl⟩) ?_
  · rw [(hS.of_term hterm).step_push _ _ _ hR₀.apart.inside]
    change ((O.perform _ [ls₁ obj] w).map _).map _ = _
    cases O.perform (.field offset) [ls₁ obj] w <;> rfl
  · rintro v _ w' _ ⟨rfl, rfl⟩
    exact .step hR₁.block_ne (hS.step_close _ _ _ hR₁.apart) (.done (h.finished hR hM))

theorem simulates_safeField {e : HirExpr} {offset : ℕ}
    (he : Part O blocks exit m vrec k names waiting loops e) :
    Simulates O blocks exit k names waiting loops (lowerNode (lowerExpr m) (.safeField e offset))
      (evalNode O vrec (.safeField e offset)) [] := by
  intro P s a s' ls ρ w hR hx hS hA
  change lowerSafeField _ _ _ s = _ at hx
  rw [lowerSafeField_branches] at hx
  obtain ⟨l, s₁, hc, hx⟩ := bind_eq_ok hx
  rw [bind_of_ok (newLocal_eq _ _)] at hx
  obtain ⟨okB, s₂, h₂, hx⟩ := bind_eq_ok hx
  obtain ⟨nullB, s₃, h₃, hx⟩ := bind_eq_ok hx
  obtain ⟨mergeB, s₄, h₄, hx⟩ := bind_eq_ok hx
  obtain ⟨_, s₅, h₅, hx⟩ := bind_eq_ok hx
  have hg₁ := he.lowers.grown hR.finals hc
  have hgd := hg₁.trans (grown_declare names s₁ "sf" false)
  obtain ⟨⟨s₆, s₇, F, hgf⟩, hS₁, hgo⟩ := fork (O := O) (by infer_instance)
    (fun _ => by infer_instance) hR hgd
    (three names ((hR.apart.lower hc).declare "sf" false) h₂ h₃ h₄).swap h₅ hx hS
  obtain ⟨_, t₁, hmove, hfirst⟩ := bind_eq_ok F.first_eq
  obtain ⟨rfl, rfl⟩ := pure_eq_ok hfirst
  have hmeet := F.meeting hg₁.locals (Nat.lt_of_lt_of_le (by simp) hgf.locals)
  refine he.bind (List.Subset.refl _) hR hc hS₁.of_declare (.refl names s) (.refl hA) ?_
  rintro v ρ₁ w₁ ls₁ hR₁ - hM₁ - - rfl
  have hR₁' := hR₁.declare "sf" false
  change Fate _ _ _ ((if IsNull (ls₁ l) then pure unit else
    perform O (.field offset) [ls₁ l] : Eval W Value) ρ₁ w₁) _ _
  by_cases hb : IsNull (ls₁ l)
  · rw [if_pos hb]
    refine .lead (hgo nullB ls₁ w₁ hR₁' (by rw [execTerminator_checkNull, if_pos hb])) ?_
    rw [← F.here₁]
    exact .moveBranch hmeet hR F.ready₁ hmove F.settled₁ hM₁ rfl
  · rw [if_neg hb]
    refine .lead (hgo okB ls₁ w₁ hR₁' (by rw [execTerminator_checkNull, if_neg hb])) ?_
    rw [← F.here₂]
    exact .fieldBranch hmeet hR F.ready₂ F.second_eq F.settled₂ hM₁

/-- A value that may not be null. -/
theorem simulates_forceUnwrap {e : HirExpr}
    (he : Part O blocks exit m vrec k names waiting loops e) :
    Simulates O blocks exit k names waiting loops (lowerNode (lowerExpr m) (.forceUnwrap e))
      (evalNode O vrec (.forceUnwrap e)) (yields (.forceUnwrap e)) := by
  intro P s a s' ls ρ w hR hx hS hA
  change lowerForceUnwrap _ _ s = _ at hx
  obtain ⟨l, s₁, hc, hx⟩ := bind_eq_ok hx
  obtain ⟨okB, s₂, h₂, hx⟩ := bind_eq_ok hx
  obtain ⟨panicB, s₃, h₃, hx⟩ := bind_eq_ok hx
  obtain ⟨_, s₄, h₄, hx⟩ := bind_eq_ok hx
  rw [bind_of_ok (startBlock_eq panicB)] at hx
  obtain ⟨_, s₅, h₅, hx⟩ := bind_eq_ok hx
  rw [bind_of_ok (startBlock_eq okB)] at hx
  obtain ⟨rfl, rfl⟩ := pure_eq_ok hx
  have hP₁ := hR.apart.lower hc
  obtain ⟨hP₂, hok, hh₂, rfl, -⟩ := hP₁.newBlock h₂
  obtain ⟨hP₃, hpanic, hh₃, rfl, -⟩ := hP₂.newBlock h₃
  have hP₄ := hP₃.term h₄
  have hP₄' : Apart (okB :: P) (s₄.goTo panicB) :=
    hP₄.goTo List.mem_cons_self (List.subset_cons_self _ _) hpanic
  have hP₅ := hP₄'.term h₅
  have hg₁ := he.lowers.grown hR.finals hc
  have hf₁ := hg₁.finals.trans hR.finals
  have hg₃ := (grown_grow names s₁).trans (grown_grow names _)
  have hg₄ := (hg₃.trans ((inferInstance : Lowers names (term _)).grown
    (hg₃.finals.trans hf₁) h₄)).trans (grown_goTo names s₄ panicB)
  have hg₅ := (hg₄.trans ((inferInstance : Lowers names (term _)).grown
    (hg₄.finals.trans hf₁) h₅)).trans (grown_goTo names s₅ okB)
  have hmem : exit ∈ okB :: P := List.mem_cons_of_mem _ hR.exit_mem
  have hS₅ := hS.of_goTo hP₅.current_notMem hP₅.inside
  have hS₄ := (hS₅.of_term h₅).of_goTo hP₄.current_notMem hP₄.inside
  have hS₂ := (hS₄.of_term h₄).of_newBlock hP₂ h₃ (List.Subset.refl _)
  have hS₁ := hS₂.of_newBlock hP₁ h₂ (List.Subset.refl _)
  simp only [evalNode]
  refine he.bind (List.Subset.refl _) hR hc hS₁ (.refl names s) (.refl hA) ?_
  rintro v ρ₁ w₁ ls₁ hR₁ hgs hM₁ - hH rfl
  have hR₃ := hR₁.grown hg₃ hR₁.flows hP₃ (List.mem_cons_of_mem _ hmem)
  have hterm := term_eq (.checkNull (.copy l) panicB okB) hR₃.flows
  cases hterm.symm.trans h₄
  have hgo := hS₄.step_close O.services ls₁ w₁ hP₃
  rw [execTerminator_checkNull, hh₃, hh₂] at hgo
  by_cases hb : IsNull (ls₁ l)
  · rw [if_pos hb]
    rw [if_pos hb] at hgo
    refine .step hR₁.block_ne hgo ?_
    rw [← here_goTo hP₄ List.mem_cons_self]
    have hR₄ := hR₁.grown hg₄ rfl hP₄' hmem
    cases (term_eq .unreachable hR₄.flows).symm.trans h₅
    exact .of_stuck (machine_stuck hR₄.block_ne (hS₅.step_close _ _ _ hP₄'))
  · rw [if_neg hb]
    rw [if_neg hb] at hgo
    refine .step hR₁.block_ne hgo ?_
    rw [← here_goTo hP₅ List.mem_cons_self]
    exact .done ⟨ls₁, rfl, rfl, hM₁, ⟨hH.pos, Nat.lt_of_lt_of_le hH.lt hg₅.locals, hH.name⟩, rfl⟩

end Fork

end Loxis.Lowering
