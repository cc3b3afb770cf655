import Loxis.Lowering.Fate

/-! # Lowered code does what the evaluator does

Between the code of two operands only the locals of variables change that are assigned, new locals
aside. So an operand that waits keeps its value unless it is a variable that a later operand
assigns.
-/

namespace Loxis.Lowering

open Function Eval
open Loxis.Backend (Value)

section Places

variable {names waiting loops' : List String} {loops : List (Option String)} {exit : BlockId}
  {P Q : List BlockId} {s s' s₁ : LowerState} {ρ ρ' ρ₁ : Env} {ls ls' ls₁ : LocalId → Value}
  {l : ℕ} {v : Value} {x : String}

/-- The names have their values. -/
def Agrees (names : List String) (s : LowerState) (ρ : Env) (ls : LocalId → Value) : Prop :=
  ∀ x ∈ names, ∀ l : ℕ, s.scope x = some l → ls l = ρ x

/-- Of the locals of `s` only those of the names have changed that do not wait. -/
def Kept (names waiting : List String) (s : LowerState) (ls ls' : LocalId → Value) : Prop :=
  ∀ l : ℕ, 0 < l → l < s.locals.length → (∀ x ∈ names, x ∉ waiting → s.scope x ≠ some l) →
    ls' l = ls l

/-- A run from `s` that has come to the environment `ρ'`. -/
structure Meets (names waiting : List String) (s : LowerState) (ls : LocalId → Value) (ρ' : Env)
    (ls' : LocalId → Value) : Prop where
  agrees : Agrees names s ρ' ls'
  kept : Kept names waiting s ls ls'

/-- The lowering can go on at `s`, with `P` the blocks that are made and not yet started. -/
structure Ready (names : List String) (loops : List (Option String)) (exit : BlockId)
    (P : List BlockId) (s : LowerState) : Prop where
  flows : s.blockTerminated = false
  apart : Apart P s
  exit_mem : exit ∈ P
  exit_eq : s.exitBlock = exit
  finals : s.finallyStack = []
  env : s.closureEnvLocal = none
  loops : s.loopStack.map LoopContext.label = loops
  pos : 0 < s.locals.length
  scope : ∀ x ∈ names, ∃ l : ℕ, s.scope x = some l ∧ 0 < l ∧ l < s.locals.length
  inj : ∀ x ∈ names, ∀ y ∈ names, s.scope x = s.scope y → x = y

/-- The local of a value of an expression that yields the names `ys`. -/
structure Holder (names ys : List String) (s s' : LowerState) (a : ℕ) : Prop where
  pos : 0 < a
  lt : a < s'.locals.length
  name : ∀ x ∈ names, s.scope x = some a → x ∈ ys

/-- The next step goes from `p` to `q`. -/
def Jumps {W : Type} (M : Point × W → Next (Point × W) (Outcome Point W)) (p q : Point) : Prop :=
  ∀ w, M (p, w) = .go (q, w)

/-- Before a jump or a return. -/
def Exits {W : Type} (M : Point × W → Next (Point × W) (Outcome Point W))
    (names waiting : List String) (s : LowerState) (ls : LocalId → Value) :
    Exit → Env → Point → Prop
  | .break_ label, ρ, q => ∃ c, targetLoop label s.loopStack = some c ∧
      ∃ ls', Jumps M q ⟨c.breakTarget, 0, ls'⟩ ∧ Meets names waiting s ls ρ ls'
  | .continue_ label, ρ, q => ∃ c, targetLoop label s.loopStack = some c ∧
      ∃ ls', Jumps M q ⟨c.continueTarget, 0, ls'⟩ ∧ Meets names waiting s ls ρ ls'
  | .return_ v, _, q => ∃ ls', Jumps M q ⟨s.exitBlock, 0, ls'⟩ ∧ ls' 0 = v

theorem Ready.grown (h : Ready names loops exit P s) (hg : Grown names s s')
    (hf : s'.blockTerminated = false) (ha : Apart Q s') (hQ : exit ∈ Q) :
    Ready names loops exit Q s' where
  flows := hf
  apart := ha
  exit_mem := hQ
  exit_eq := hg.exit.trans h.exit_eq
  finals := hg.finals.trans h.finals
  env := hg.env.trans h.env
  loops := by rw [hg.loops, h.loops]
  pos := Nat.lt_of_lt_of_le h.pos hg.locals
  scope x hx := by
    obtain ⟨l, hl, hpos, hlt⟩ := h.scope x hx
    exact ⟨l, (hg.scope x hx).trans hl, hpos, Nat.lt_of_lt_of_le hlt hg.locals⟩
  inj x hx y hy hxy := by
    rw [hg.scope x hx, hg.scope y hy] at hxy
    exact h.inj x hx y hy hxy

theorem Agrees.grown (hg : Grown names s s') : Agrees names s' ρ ls ↔ Agrees names s ρ ls := by
  constructor
  · exact fun h x hx l hl => h x hx l ((hg.scope x hx).trans hl)
  · exact fun h x hx l hl => h x hx l ((hg.scope x hx).symm.trans hl)

theorem Kept.refl (names waiting : List String) (s : LowerState) (ls : LocalId → Value) :
    Kept names waiting s ls ls :=
  fun _ _ _ _ => rfl

theorem Kept.trans (h : Kept names waiting s ls ls₁) (hg : Grown names s s₁)
    (h' : Kept names waiting s₁ ls₁ ls') : Kept names waiting s ls ls' := by
  intro l hpos hlt hn
  rw [h' l hpos (Nat.lt_of_lt_of_le hlt hg.locals) fun x hx hw => by
    rw [hg.scope x hx]
    exact hn x hx hw]
  exact h l hpos hlt hn

theorem Kept.mono {waiting' : List String} (h : Kept names waiting' s ls ls')
    (hw : waiting ⊆ waiting') : Kept names waiting s ls ls' :=
  fun l hpos hlt hn => h l hpos hlt fun x hx hx' => hn x hx fun hm => hx' (hw hm)

theorem Meets.refl (h : Agrees names s ρ ls) : Meets names waiting s ls ρ ls :=
  ⟨h, .refl _ _ _ _⟩

theorem Meets.trans (h : Meets names waiting s ls ρ₁ ls₁) (hg : Grown names s s₁)
    (h' : Meets names waiting s₁ ls₁ ρ' ls') : Meets names waiting s ls ρ' ls' :=
  ⟨(Agrees.grown hg).mp h'.agrees, h.kept.trans hg h'.kept⟩

theorem Meets.mono {waiting' : List String} (h : Meets names waiting' s ls ρ' ls')
    (hw : waiting ⊆ waiting') : Meets names waiting s ls ρ' ls' :=
  ⟨h.agrees, h.kept.mono hw⟩

/-- A new local, or local 0. -/
theorem Meets.newLocal (h : Meets names waiting s ls ρ ls') (hR : Ready names loops exit P s)
    (hl : l = 0 ∨ s.locals.length ≤ l) : Meets names waiting s ls ρ (update ls' l v) where
  agrees x hx l' hl' := by
    obtain ⟨l'', hl'', hpos, hlt⟩ := hR.scope x hx
    obtain rfl := Option.some.inj (hl'.symm.trans hl'')
    have hne : l' ≠ l := by
      rintro rfl
      omega
    rw [update_of_ne hne]
    exact h.agrees x hx l' hl'
  kept l' hpos hlt hn := by
    have hne : l' ≠ l := by
      rintro rfl
      omega
    rw [update_of_ne hne]
    exact h.kept l' hpos hlt hn

/-- An assignment to a name. -/
theorem Meets.assigned (h : Meets names waiting s ls ρ ls') (hR : Ready names loops exit P s)
    (hx : x ∈ names) (hw : x ∉ waiting) (hl : s.scope x = some l) :
    Meets names waiting s ls (Function.update ρ x v) (Function.update ls' l v) where
  agrees y hy l' hl' := by
    rcases eq_or_ne y x with rfl | hne
    · obtain rfl := Option.some.inj (hl'.symm.trans hl)
      rw [update_self, update_self]
    · rw [update_of_ne, update_of_ne hne]
      · exact h.agrees y hy l' hl'
      · rintro rfl
        exact hne (hR.inj y hy x hx (hl'.trans hl.symm))
  kept l' hpos hlt hn := by
    rw [update_of_ne]
    · exact h.kept l' hpos hlt hn
    · rintro rfl
      exact hn x hx hw hl

/-- What waits keeps its value. -/
theorem Kept.holder {ys waiting' : List String} {a : LocalId} (h : Kept names waiting' s₁ ls₁ ls')
    (ha : Holder names ys s s₁ a) (hg : Grown names s s₁) (hys : ys ⊆ waiting') :
    ls' a = ls₁ a :=
  h a ha.pos ha.lt fun x hx hw hl => hw (hys (ha.name x hx ((hg.scope x hx).symm.trans hl)))

theorem Exits.back {W : Type} {M : Point × W → Next (Point × W) (Outcome Point W)} {y : Exit}
    {q : Point} (h : Exits M names waiting s₁ ls₁ y ρ q) (hg : Grown names s s₁)
    (hk : Kept names waiting s ls ls₁) : Exits M names waiting s ls y ρ q := by
  have hm : ∀ ρ ls', Meets names waiting s₁ ls₁ ρ ls' → Meets names waiting s ls ρ ls' :=
    fun ρ ls' h => ⟨(Agrees.grown hg).mp h.agrees, hk.trans hg h.kept⟩
  cases y with
  | break_ label =>
    obtain ⟨c, hc, ls', hq, h⟩ := h
    exact ⟨c, hg.loops ▸ hc, ls', hq, hm _ _ h⟩
  | continue_ label =>
    obtain ⟨c, hc, ls', hq, h⟩ := h
    exact ⟨c, hg.loops ▸ hc, ls', hq, hm _ _ h⟩
  | return_ v =>
    obtain ⟨ls', hq, h⟩ := h
    exact ⟨ls', hg.exit ▸ hq, h⟩

theorem Exits.mono {W : Type} {M : Point × W → Next (Point × W) (Outcome Point W)}
    {waiting' : List String} {y : Exit} {q : Point}
    (h : Exits M names waiting' s ls y ρ q) (hw : waiting ⊆ waiting') :
    Exits M names waiting s ls y ρ q := by
  cases y with
  | break_ label =>
    obtain ⟨c, hc, ls', hq, h⟩ := h
    exact ⟨c, hc, ls', hq, h.mono hw⟩
  | continue_ label =>
    obtain ⟨c, hc, ls', hq, h⟩ := h
    exact ⟨c, hc, ls', hq, h.mono hw⟩
  | return_ v => exact h

end Places

section Lists

variable {P : List BlockId} {s s' : LowerState} {blocks : List BasicBlock} {names : List String}
  {m : ℕ} {es : List HirExpr} {as : List LocalId}

theorem Apart.lowerAll (h : Apart P s) (hx : Lowering.lowerAll (lowerExpr m) es s = .ok (as, s')) :
    Apart P s' := by
  induction es generalizing s as with
  | nil =>
    obtain ⟨-, rfl⟩ := pure_eq_ok hx
    exact h
  | cons e es ih =>
    obtain ⟨a, s₁, ha, hx⟩ := bind_eq_ok hx
    obtain ⟨as', s₂, has, hx⟩ := bind_eq_ok hx
    obtain ⟨-, rfl⟩ := pure_eq_ok hx
    exact ih (h.lower ha) has

theorem Settled.of_lowerAll (h : Settled P s' blocks) (hP : Apart P s)
    (hx : Lowering.lowerAll (lowerExpr m) es s = .ok (as, s'))
    (hl : ∀ e ∈ es, Lowers names (lowerExpr m e)) (hf : s.finallyStack = []) :
    Settled P s blocks := by
  induction es generalizing s as with
  | nil =>
    obtain ⟨-, rfl⟩ := pure_eq_ok hx
    exact h
  | cons e es ih =>
    obtain ⟨a, s₁, ha, hx⟩ := bind_eq_ok hx
    obtain ⟨as', s₂, has, hx⟩ := bind_eq_ok hx
    obtain ⟨-, rfl⟩ := pure_eq_ok hx
    have he := hl e List.mem_cons_self
    exact (ih (hP.lower ha) has (fun e' he' => hl e' (List.mem_cons_of_mem _ he'))
      ((he.grown hf ha).finals.trans hf)).of_lower hP ha he hf

end Lists

section Parts

variable {W : Type} (O : Ops W) (blocks : List BasicBlock) (exit : BlockId)

/-- The run has come to the end of the code of an expression, with its value `v` in local `a`. -/
def Finished (names waiting ys : List String) (s s' : LowerState) (ls : LocalId → Value) (a : ℕ)
    (v : Value) (ρ : Env) (q : Point) : Prop :=
  ∃ ls', q = s'.here ls' ∧ s'.blockTerminated = false ∧ Meets names waiting s ls ρ ls' ∧
    Holder names ys s s' a ∧ ls' a = v

/-- The code that `x` makes does what `y` does. -/
def Simulates (k : ℕ) (names waiting : List String) (loops : List (Option String))
    (x : LowerM LocalId) (y : Eval W Value) (ys : List String) : Prop :=
  ∀ P s a s' ls ρ w, Ready names loops exit P s → x s = .ok (a, s') → Settled P s' blocks →
    Agrees names s ρ ls →
    Fate (machine O.services blocks exit) k (s.here ls, w) (y ρ w)
      (Exits (machine O.services blocks exit) names waiting s ls)
      (Finished names waiting ys s s' ls a)

variable (m : ℕ) (vrec : HirExpr → Eval W Value) (k : ℕ)

/-- A part of an expression whose code does what the evaluator does. -/
structure Part (names waiting : List String) (loops : List (Option String)) (e : HirExpr) :
    Prop where
  lowers : Lowers names (lowerExpr m e)
  simulates : Simulates O blocks exit k names waiting loops (lowerExpr m e) (vrec e) (yields e)

/-- Parts that wait for the parts after them. -/
def PartAll (names waiting : List String) (loops : List (Option String)) : List HirExpr → Prop
  | [] => True
  | e :: es => Part O blocks exit m vrec k names waiting loops e ∧
      PartAll names (waiting ++ yields e) loops es

variable {O blocks exit m vrec k} {names waiting waiting' : List String}
  {loops : List (Option String)} {P P₀ : List BlockId} {s s₁ s₂ s' : LowerState}
  {ls ls₁ : LocalId → Value} {ρ : Env} {w : W} {e : HirExpr} {es : List HirExpr} {a : LocalId}
  {as : List LocalId} {β : Type} {Q : β → Env → Point → Prop} {name : String}

theorem Part.ready (h : Part O blocks exit m vrec k names waiting loops e)
    (hR : Ready names loops exit P s) (hx : lowerExpr m e s = .ok (a, s'))
    (hf : s'.blockTerminated = false) : Ready names loops exit P s' :=
  hR.grown (h.lowers.grown hR.finals hx) hf (hR.apart.lower hx) hR.exit_mem

theorem Part.settled (h : Part O blocks exit m vrec k names waiting loops e)
    (hS : Settled P s' blocks) (hP : Apart P s) (hf : s.finallyStack = [])
    (hx : lowerExpr m e s = .ok (a, s')) : Settled P s blocks :=
  hS.of_lower hP hx h.lowers hf

/-- Evaluate a part, and go on from the end of its code. -/
theorem Part.bind (h : Part O blocks exit m vrec k names waiting' loops e)
    (hw : waiting ⊆ waiting') (hR : Ready names loops exit P s₁)
    (hx : lowerExpr m e s₁ = .ok (a, s₂)) (hS : Settled P s₂ blocks) (hg : Grown names s s₁)
    (hM : Meets names waiting s ls ρ ls₁) {f : Value → Eval W β}
    (hf : ∀ v ρ' w' ls', Ready names loops exit P s₂ → Grown names s s₂ →
      Meets names waiting s ls ρ' ls' → Kept names waiting' s₁ ls₁ ls' →
      Holder names (yields e) s s₂ a → ls' a = v →
      Fate (machine O.services blocks exit) k (s₂.here ls', w') (f v ρ' w')
        (Exits (machine O.services blocks exit) names waiting s ls) Q) :
    Fate (machine O.services blocks exit) k (s₁.here ls₁, w) ((vrec e >>= f) ρ w)
      (Exits (machine O.services blocks exit) names waiting s ls) Q := by
  have hg₂ := h.lowers.grown hR.finals hx
  have hrun := h.simulates P s₁ a s₂ ls₁ ρ w hR hx hS ((Agrees.grown hg).mpr hM.agrees)
  refine (hrun.mono (fun y ρ' q hy => (hy.mono hw).back hg hM.kept) fun _ _ _ h => h).bind ?_
  rintro v ρ' w' q ⟨ls', rfl, hflows, hM', hH, rfl⟩
  refine hf _ ρ' w' ls' (h.ready hR hx hflows) (hg.trans hg₂) (hM.trans hg (hM'.mono hw)) hM'.kept
    ⟨hH.pos, hH.lt, fun x hx' hl => ?_⟩ rfl
  exact hH.name x hx' ((hg.scope x hx').trans hl)

theorem PartAll.lowers (h : PartAll O blocks exit m vrec k names waiting loops es) (he : e ∈ es) :
    Lowers names (lowerExpr m e) := by
  induction es generalizing waiting with
  | nil => cases he
  | cons e' es ih =>
    rcases List.mem_cons.mp he with rfl | he
    · exact h.1.lowers
    · exact ih h.2 he

theorem PartAll.settled (h : PartAll O blocks exit m vrec k names waiting loops es)
    (hS : Settled P s' blocks) (hP : Apart P s) (hf : s.finallyStack = [])
    (hx : lowerAll (lowerExpr m) es s = .ok (as, s')) : Settled P s blocks :=
  hS.of_lowerAll hP hx (fun _ he => h.lowers he) hf

/-- Evaluate operands from left to right. -/
theorem PartAll.bind (h : PartAll O blocks exit m vrec k names waiting' loops es)
    (hw : waiting ⊆ waiting') (hR : Ready names loops exit P s₁)
    (hx : lowerAll (lowerExpr m) es s₁ = .ok (as, s₂)) (hS : Settled P s₂ blocks)
    (hg : Grown names s s₁) (hM : Meets names waiting s ls ρ ls₁) {f : List Value → Eval W β}
    (hf : ∀ vs ρ' w' ls', Ready names loops exit P s₂ → Grown names s s₂ →
      Meets names waiting s ls ρ' ls' → Kept names waiting' s₁ ls₁ ls' → as.map ls' = vs →
      Fate (machine O.services blocks exit) k (s₂.here ls', w') (f vs ρ' w')
        (Exits (machine O.services blocks exit) names waiting s ls) Q) :
    Fate (machine O.services blocks exit) k (s₁.here ls₁, w) ((evalAll vrec es >>= f) ρ w)
      (Exits (machine O.services blocks exit) names waiting s ls) Q := by
  induction es generalizing s₁ waiting' ls₁ ρ w as f with
  | nil =>
    obtain ⟨rfl, rfl⟩ := pure_eq_ok hx
    exact hf [] ρ w ls₁ hR hg hM (.refl _ _ _ _) rfl
  | cons e es ih =>
    obtain ⟨a, s₃, ha, hx⟩ := bind_eq_ok hx
    obtain ⟨as', s₄, has, hx⟩ := bind_eq_ok hx
    obtain ⟨rfl, rfl⟩ := pure_eq_ok hx
    have hg₃ := h.1.lowers.grown hR.finals ha
    have hS₃ := h.2.settled hS (hR.apart.lower ha) (hg₃.finals.trans hR.finals) has
    simp only [evalAll, bind_assoc, pure_bind]
    refine h.1.bind hw hR ha hS₃ hg hM fun v ρ' w' ls' hR' hg' hM' hk hH hv => ?_
    refine ih h.2 (List.Subset.trans hw (List.subset_append_left _ _)) hR' has hg' hM' ?_
    intro vs ρ'' w'' ls'' hR'' hg'' hM'' hk' hvs
    refine hf (v :: vs) ρ'' w'' ls'' hR'' hg'' hM'' ?_ ?_
    · exact hk.trans hg₃ (hk'.mono (List.subset_append_left _ _))
    · rw [List.map_cons, hvs, hk'.holder hH hg' (List.subset_append_right _ _), hv]

end Parts

end Loxis.Lowering
