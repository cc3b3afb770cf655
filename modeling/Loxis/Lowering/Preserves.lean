import Loxis.Lowering.Jumps

/-! # The lowering preserves what an expression means

Blocks, and the code of a whole function. A run of the code comes to an outcome exactly when the
evaluation of the body does.
-/

namespace Loxis.Lowering

open Function Eval
open Loxis.Backend (Value)

variable {W : Type} {O : Ops W} {blocks : List BasicBlock} {exit : BlockId} {m k : ℕ}
  {vrec : HirExpr → Eval W Value} {names waiting ys : List String} {loops : List (Option String)}
  {P : List BlockId} {s s₁ s₂ s' : LowerState} {ls ls₁ : LocalId → Value} {ρ : Env} {w : W}
  {a : LocalId} {u : Unit} {name : String}

section Blocks

instance : Inner names isTerminated where
  lowers := inferInstance
  apart h hx := by
    cases hx
    exact h
  settled h _ _ hx := by
    cases hx
    exact h

instance {α : Type} (p : Prop) [Decidable p] (x x' : LowerM α) [hx : Inner names x]
    [hx' : Inner names x'] : Inner names (if p then x else x') := by
  split
  · exact hx
  · exact hx'

theorem inner_bindLocal (l : LocalId) (h : name ∉ names) : Inner names (bindLocal name l) where
  lowers := lowers_bindLocal l h
  apart h hx := by
    cases hx
    exact h.of_same rfl rfl
  settled h _ _ hx := by
    cases hx
    exact h.of_same rfl rfl rfl

theorem Inner.mono {α : Type} {names' : List String} {x : LowerM α} (h : Inner names' x)
    (hn : names ⊆ names') : Inner names x :=
  ⟨h.lowers.mono hn, h.apart, h.settled⟩

/-- What is left of a block. -/
def lowerRest (rec : HirExpr → LowerM LocalId) (sts : List (HirStmt HirExpr))
    (tail : Option HirExpr) : LowerM LocalId := do
  lowerStmts rec sts
  lowerTail rec tail

theorem lowerRest_cons (rec : HirExpr → LowerM LocalId) (st : HirStmt HirExpr)
    (sts : List (HirStmt HirExpr)) (tail : Option HirExpr) :
    lowerRest rec (st :: sts) tail = lowerStmt rec st >>= fun _ => lowerRest rec sts tail := by
  simp only [lowerRest, lowerStmts, bind_assoc]

/-- The value of a binding in a new local. -/
def bindNew (name : String) (mut_ : Bool) (l : LocalId) : LowerM Unit := do
  let lid ← newLocal name mut_
  emit (.assign lid (.use (.copy l)))
  bindLocal name lid

theorem lowerStmt_flows {rec : HirExpr → LowerM LocalId} {st : HirStmt HirExpr}
    (h : s.blockTerminated = false) :
    lowerStmt rec st s = (match st with
      | .let_ (.bind name mut_) init => do
        let l ← rec init
        bindNew name mut_ l
      | .let_ _ e | .expr (some e) => do
        let _ ← rec e
      | .expr none => return () : LowerM Unit) s := by
  have hterm : isTerminated s = .ok (false, s) := by rw [isTerminated, h]
  unfold lowerStmt
  rw [bind_of_ok hterm]
  rfl

theorem lowerStmt_none (rec : HirExpr → LowerM LocalId) :
    lowerStmt rec (.expr none) = pure () := by
  funext s
  unfold lowerStmt
  cases h : s.blockTerminated with
  | false => exact bind_of_ok (show isTerminated s = .ok (false, s) by rw [isTerminated, h])
  | true => exact bind_of_ok (show isTerminated s = .ok (true, s) by rw [isTerminated, h])

/-- A name that is bound for the rest of the block. -/
theorem Meets.bound {lid : ℕ} {v : Value} (hk : Kept names waiting s ls ls₁)
    (hg : Grown names s s₁) (hn : name ∉ names) (hl : s₁.scope name = some lid)
    (hlid : s.locals.length ≤ lid) {ls' : LocalId → Value}
    (h : Meets (name :: names) waiting s₁ ls₁ ρ ls') :
    Meets names waiting s ls (update ρ name v) ls' where
  agrees x hx l hxl := by
    have hne : x ≠ name := fun he => hn (he ▸ hx)
    rw [update_of_ne hne]
    exact h.agrees x (List.mem_cons_of_mem _ hx) l ((hg.scope x hx).trans hxl)
  kept l hpos hlt hx := by
    rw [h.kept l hpos (Nat.lt_of_lt_of_le hlt hg.locals) fun x hx' hw => ?_]
    · exact hk l hpos hlt hx
    · rcases List.mem_cons.mp hx' with rfl | hx'
      · rw [hl]
        rintro ⟨⟩
        omega
      · rw [hg.scope x hx']
        exact hx x hx' hw

theorem Exits.map {M : Point × W → Next (Point × W) (Outcome Point W)} {names' : List String}
    {g : Env → Env} {y : Exit} {q : Point} (h : Exits M names' waiting s₁ ls₁ y ρ q)
    (hloops : s₁.loopStack = s.loopStack) (hexit : s₁.exitBlock = s.exitBlock)
    (hm : ∀ ρ ls', Meets names' waiting s₁ ls₁ ρ ls' → Meets names waiting s ls (g ρ) ls') :
    Exits M names waiting s ls y (g ρ) q := by
  cases y with
  | break_ label =>
    obtain ⟨c, hc, ls', hq, h⟩ := h
    exact ⟨c, hloops ▸ hc, ls', hq, hm _ _ h⟩
  | continue_ label =>
    obtain ⟨c, hc, ls', hq, h⟩ := h
    exact ⟨c, hloops ▸ hc, ls', hq, hm _ _ h⟩
  | return_ v =>
    obtain ⟨ls', hq, h⟩ := h
    exact ⟨ls', hexit ▸ hq, h⟩

theorem Finished.map {names' : List String} {g : Env → Env} {v : Value} {q : Point}
    (h : Finished names' waiting ys s₁ s' ls₁ a v ρ q)
    (hscope : ∀ x ∈ names, s.scope x = some a → x ∈ names' ∧ s₁.scope x = some a)
    (hm : ∀ ρ ls', Meets names' waiting s₁ ls₁ ρ ls' → Meets names waiting s ls (g ρ) ls') :
    Finished names waiting ys s s' ls a v (g ρ) q := by
  obtain ⟨ls', rfl, hf, hM, hH, hv⟩ := h
  refine ⟨ls', rfl, hf, hm _ _ hM, ⟨hH.pos, hH.lt, fun x hx hxa => ?_⟩, hv⟩
  obtain ⟨hx', hxa'⟩ := hscope x hx hxa
  exact hH.name x hx' hxa'

variable {y : LowerM LocalId} {ev : Eval W Value} {e : HirExpr} {st : HirStmt HirExpr}

theorem inner_lowerStmt (he : Inner names (lowerExpr m e))
    (hst : st = .expr (some e) ∨ st = .let_ .wild e ∨
      ∃ name b, st = .let_ (.bind name b) e ∧ name ∉ names) :
    Inner names (lowerStmt (lowerExpr m) st) := by
  obtain rfl | rfl | ⟨name, b, rfl, hn⟩ := hst
  · unfold lowerStmt
    infer_instance
  · unfold lowerStmt
    infer_instance
  · have := fun l => inner_bindLocal l hn
    unfold lowerStmt
    infer_instance

/-- A statement whose value is not used, and the rest of the block. -/
theorem simulates_discard (he : Part O blocks exit m vrec k names waiting loops e)
    (hst : st = .expr (some e) ∨ st = .let_ .wild e) (hy : Inner names y)
    (h : Simulates O blocks exit k names waiting loops y ev ys) :
    Simulates O blocks exit k names waiting loops (lowerStmt (lowerExpr m) st >>= fun _ => y)
      (vrec e >>= fun _ => ev) ys := by
  intro P s a s' ls ρ w hR hx hS hA
  obtain ⟨u, t, hs, hx⟩ := bind_eq_ok hx
  rw [lowerStmt_flows hR.flows] at hs
  have hs' : ((lowerExpr m e >>= fun _ => pure ()) : LowerM Unit) s = .ok (u, t) := by
    obtain rfl | rfl := hst <;> exact hs
  obtain ⟨l, s₁, hl, hs'⟩ := bind_eq_ok hs'
  obtain ⟨-, rfl⟩ := pure_eq_ok hs'
  have hg := he.lowers.grown hR.finals hl
  have hS₁ := hy.settled hS (hR.apart.lower hl) (hg.finals.trans hR.finals) hx
  refine he.bind (List.Subset.refl _) hR hl hS₁ (.refl names s) (.refl hA) ?_
  rintro v ρ₁ w₁ ls₁ hR₁ - hM₁ - - -
  have hm : ∀ ρ ls', Meets names waiting s₁ ls₁ ρ ls' → Meets names waiting s ls ρ ls' :=
    fun _ _ h' => hM₁.trans hg h'
  refine (h P s₁ a s' ls₁ ρ₁ w₁ hR₁ hx hS ((Agrees.grown hg).mpr hM₁.agrees)).mono
    (fun _ _ _ h' => h'.map hg.loops hg.exit hm) fun _ _ _ h' => h'.map (fun x hx hxa => ?_) hm
  exact ⟨hx, (hg.scope x hx).trans hxa⟩

/-- The state after a binding. -/
def LowerState.bound (s : LowerState) (name : String) (l : LocalId) : LowerState :=
  { s with
    scope := update s.scope name (some l)
    lexical := update s.lexical name (some l) }

@[simp] theorem LowerState.bound_self (s : LowerState) (name : String) (l : LocalId) :
    (s.bound name l).scope name = some l :=
  update_self ..

theorem LowerState.bound_of_ne {x : String} (s : LowerState) (l : LocalId) (h : x ≠ name) :
    (s.bound name l).scope x = s.scope x :=
  update_of_ne h ..

theorem Ready.bound {l : ℕ} (name : String) (hR : Ready names loops exit P s)
    (hg : Grown names s s₁) (hR₁ : Ready names loops exit P s₁) (hl : s.locals.length ≤ l)
    (hlt : l < s₁.locals.length) :
    Ready (name :: names) loops exit P (s₁.bound name l) :=
  { hR₁ with
    apart := hR₁.apart.of_same rfl rfl
    scope := fun x hx => by
      rcases eq_or_ne x name with rfl | hne
      · exact ⟨l, s₁.bound_self x l, Nat.lt_of_lt_of_le hR.pos hl, hlt⟩
      · obtain ⟨l', hl', hpos, hlt'⟩ := hR₁.scope x (List.mem_of_ne_of_mem hne hx)
        exact ⟨l', (s₁.bound_of_ne l hne).trans hl', hpos, hlt'⟩
    inj := by
      -- An older name has a local of `s`.
      have hold : ∀ x ∈ names, s₁.scope x ≠ some l := fun x hx hxl => by
        obtain ⟨l', hl', -, hlt'⟩ := hR.scope x hx
        obtain rfl := Option.some.inj (((hg.scope x hx).symm.trans hxl).symm.trans hl')
        omega
      intro x hx x' hx' hxx
      rcases eq_or_ne x name with rfl | hne <;> rcases eq_or_ne x' x with rfl | hne'
      · rfl
      · rw [s₁.bound_self, s₁.bound_of_ne l hne'] at hxx
        exact absurd hxx.symm (hold x' (List.mem_of_ne_of_mem hne' hx'))
      · rfl
      · have hmem := List.mem_of_ne_of_mem hne hx
        rcases eq_or_ne x' name with rfl | hne''
        · rw [s₁.bound_self, s₁.bound_of_ne l hne] at hxx
          exact absurd hxx (hold x hmem)
        · rw [s₁.bound_of_ne l hne, s₁.bound_of_ne l hne''] at hxx
          exact hR₁.inj x hmem x' (List.mem_of_ne_of_mem hne'' hx') hxx }

/-- A binding, and the rest of the block. -/
theorem simulates_bind {mut_ : Bool} (he : Part O blocks exit m vrec k names waiting loops e)
    (hn : name ∉ names) (hy : Inner (name :: names) y)
    (h : Simulates O blocks exit k (name :: names) waiting loops y ev ys) :
    Simulates O blocks exit k names waiting loops
      (lowerStmt (lowerExpr m) (.let_ (.bind name mut_) e) >>= fun _ => y)
      (vrec e >>= fun v => letIn name v ev) ys := by
  intro P s a s' ls ρ w hR hx hS hA
  obtain ⟨u, s₂, hs, hx⟩ := bind_eq_ok hx
  rw [lowerStmt_flows hR.flows] at hs
  obtain ⟨l, s₁, hl, hbind⟩ := bind_eq_ok hs
  have hP₁ := hR.apart.lower hl
  have hinner : Inner names (bindNew name mut_ l) := by
    have := fun l => inner_bindLocal l hn
    unfold bindNew
    infer_instance
  have hg₁ := he.lowers.grown hR.finals hl
  have hg₁₂ := hinner.lowers.grown (hg₁.finals.trans hR.finals) hbind
  have hg := hg₁.trans hg₁₂
  have hP₂ := hinner.apart hP₁ hbind
  have hS₂ := hy.settled hS hP₂ (hg.finals.trans hR.finals) hx
  have hS₁ := hinner.settled hS₂ hP₁ (hg₁.finals.trans hR.finals) hbind
  refine he.bind (List.Subset.refl _) hR hl hS₁ (.refl names s) (.refl hA) ?_
  rintro _ ρ₁ w₁ ls₁ hR₁ - hM₁ - - rfl
  -- One step moves the value into the new local.
  have hRd := hR₁.declare name mut_
  obtain ⟨t, ht⟩ : ∃ t, t = (s₁.declare name mut_).push
    (.assign s₁.locals.length (.use (.copy l))) := ⟨_, rfl⟩
  obtain rfl : s₂ = t.bound name s₁.locals.length := by
    rw [bindNew, bind_of_ok (newLocal_eq _ _), bind_of_ok (emit_eq _ hRd.flows), ← ht] at hbind
    cases hbind
    rfl
  have hSt : Settled P t blocks := hS₂.of_same rfl rfl rfl
  have hRt : Ready names loops exit P t := ht ▸ hRd.push _
  have hgt : Grown names s₁ t :=
    ht ▸ (grown_declare names s₁ name mut_).trans (grown_push names _ _)
  have hstep : step O.services blocks (s₁.here ls₁) w₁ =
      .returned (t.here (update ls₁ s₁.locals.length (ls₁ l))) w₁ := by
    subst ht
    exact hSt.step_push O.services ls₁ w₁ hRd.apart.inside
  refine .step hR₁.block_ne hstep ?_
  have hR₂ := hR.bound name (hg₁.trans hgt) hRt hg₁.locals (by simp [ht])
  have hM₂ := hM₁.newLocal (l := s₁.locals.length) (v := ls₁ l) hR (.inr hg₁.locals)
  have hA₂ : Agrees (name :: names) (t.bound name s₁.locals.length) (update ρ₁ name (ls₁ l))
      (update ls₁ s₁.locals.length (ls₁ l)) := by
    intro x hx l' hl'
    rcases eq_or_ne x name with rfl | hne
    · obtain rfl := Option.some.inj ((t.bound_self x _).symm.trans hl')
      rw [update_self, update_self]
    · rw [update_of_ne hne]
      have hx := List.mem_of_ne_of_mem hne hx
      exact hM₂.agrees x hx l' ((hg.scope x hx).symm.trans hl')
  have hm : ∀ ρ ls', Meets (name :: names) waiting (t.bound name s₁.locals.length)
      (update ls₁ s₁.locals.length (ls₁ l)) ρ ls' →
      Meets names waiting s ls (update ρ name (ρ₁ name)) ls' := fun ρ ls' h' =>
    h'.bound hM₂.kept hg hn (t.bound_self name _) hg₁.locals
  refine (h P _ a s' _ _ w₁ hR₂ hx hS hA₂).mapEnv
    (fun _ _ _ h' => h'.map hg.loops hg.exit hm) fun _ _ _ h' => h'.map (fun x hx hxa => ?_) hm
  exact ⟨List.mem_cons_of_mem _ hx, (hg.scope x hx).trans hxa⟩

theorem simulates_tail {o : Option HirExpr}
    (ho : ∀ e ∈ o, Part O blocks exit m vrec k names waiting loops e) :
    Inner names (lowerTail (lowerExpr m) o) ∧
      Simulates O blocks exit k names waiting loops (lowerTail (lowerExpr m) o)
        (evalOption vrec o) (yields (.block [] o)) := by
  cases o with
  | none =>
    refine ⟨(inferInstance : Inner names unitLocal), fun P s a s' ls ρ w hR hx hS hA => ?_⟩
    exact .unit (.refl hA) hR (.refl names s) hR hx hS
  | some e => exact ⟨(ho e rfl).inner, (ho e rfl).simulates⟩

/-- The rest of a block, by induction on its statements. -/
theorem simulates_rest {sts : List (HirStmt HirExpr)} {tail : Option HirExpr} {size : ℕ}
    (h : orderlyStmts names waiting loops sts = true)
    (ht : orderlyOption (declared sts names) waiting loops tail = true)
    (hsize : sizeOf sts + sizeOf tail ≤ size)
    (hrec : ∀ names e, orderly names waiting loops e = true → sizeOf e < size →
      Part O blocks exit m vrec k names waiting loops e) :
    Inner names (lowerRest (lowerExpr m) sts tail) ∧
      Simulates O blocks exit k names waiting loops (lowerRest (lowerExpr m) sts tail)
        (evalBlock vrec tail sts) (yields (.block [] tail)) := by
  induction sts generalizing names with
  | nil =>
    refine simulates_tail fun e he => ?_
    subst he
    exact hrec names e ht (by simp at hsize; omega)
  | cons st sts ih =>
    have ih' (names : List String) (h : orderlyStmts names waiting loops sts = true)
        (ht : orderlyOption (declared sts names) waiting loops tail = true) :=
      ih h ht (by simp at hsize; omega)
    simp only [lowerRest_cons]
    obtain ⟨_ | ⟨name, b⟩ | _, e⟩ | (_ | e) := st
    · simp only [orderlyStmts, Bool.and_eq_true] at h
      have he := hrec names e h.1 (by simp at hsize; omega)
      obtain ⟨hinner, hsim⟩ := ih' names h.2 ht
      have := inner_lowerStmt he.inner (.inr (.inl rfl))
      exact ⟨inferInstance, simulates_discard he (.inr rfl) hinner hsim⟩
    · simp only [orderlyStmts, Bool.and_eq_true, Bool.not_eq_true', List.contains_eq_mem,
        decide_eq_false_iff_not] at h
      have he := hrec names e h.1.1 (by simp at hsize; omega)
      obtain ⟨hinner, hsim⟩ := ih' (name :: names) h.2 ht
      have := hinner.mono (List.subset_cons_self name names)
      have := inner_lowerStmt he.inner (.inr (.inr ⟨name, b, rfl, h.1.2⟩))
      exact ⟨inferInstance, simulates_bind he h.1.2 hinner hsim⟩
    · cases h
    · rw [lowerStmt_none]
      simp only [pure_bind]
      exact ih' names h ht
    · simp only [orderlyStmts, Bool.and_eq_true] at h
      have he := hrec names e h.1 (by simp at hsize; omega)
      obtain ⟨hinner, hsim⟩ := ih' names h.2 ht
      have := inner_lowerStmt he.inner (.inl rfl)
      exact ⟨inferInstance, simulates_discard he (.inl rfl) hinner hsim⟩

theorem simulates_block {sts : List (HirStmt HirExpr)} {tail : Option HirExpr}
    (hinner : Inner names (lowerRest (lowerExpr m) sts tail))
    (h : Simulates O blocks exit k names waiting loops (lowerRest (lowerExpr m) sts tail)
      (evalBlock vrec tail sts) ys) :
    Simulates O blocks exit k names waiting loops (lowerNode (lowerExpr m) (.block sts tail))
      (evalNode O vrec (.block sts tail)) ys := by
  intro P s a s' ls ρ w hR hx hS hA
  obtain ⟨blockB, s₁, h₁, hx⟩ := bind_eq_ok hx
  obtain ⟨_, s₂, h₂, hx⟩ := bind_eq_ok hx
  rw [bind_of_ok (startBlock_eq blockB)] at hx
  obtain ⟨t, _, h₃, hx⟩ := bind_eq_ok hx
  cases h₃
  obtain ⟨a', t₁, hrest, hx⟩ := bind_eq_ok hx
  obtain ⟨_, t₂, h₄, hx⟩ := bind_eq_ok hx
  obtain ⟨rfl, rfl⟩ := pure_eq_ok hx
  cases h₄
  obtain ⟨hP₁, hb, hh₁, rfl, -⟩ := hR.apart.newBlock h₁
  have hP₂ := hP₁.term h₂
  have hPt : Apart P (s₂.goTo blockB) :=
    hP₂.goTo List.mem_cons_self (List.subset_cons_self _ _) hb
  have hg₁ := grown_grow names s
  have hg := (hg₁.trans ((inferInstance : Lowers names (term _)).grown
    (hg₁.finals.trans hR.finals) h₂)).trans (grown_goTo names s₂ blockB)
  have hS₁ : Settled P t₁ blocks := hS.of_same rfl rfl rfl
  have hS₂ := (hinner.settled hS₁ hPt (hg.finals.trans hR.finals) hrest).of_goTo
    hP₂.current_notMem hP₂.inside
  have hj := jumps_goto (O := O) ls
    (hR.grown hg₁ hR.flows hP₁ (List.mem_cons_of_mem _ hR.exit_mem)) h₂ hS₂
  rw [hh₁] at hj
  refine .lead (.of_next (hj w)) ?_
  rw [← here_goTo hP₂ List.mem_cons_self]
  have hm : ∀ ρ ls', Meets names waiting (s₂.goTo blockB) ls ρ ls' →
      Meets names waiting s ls ρ ls' := fun _ _ h' => (Meets.refl hA).trans hg h'
  refine (h P _ _ _ ls ρ w (hR.grown hg rfl hPt hR.exit_mem) hrest hS₁
    ((Agrees.grown hg).mpr hA)).mono (fun _ _ _ h' => h'.map hg.loops hg.exit hm) ?_
  rintro v ρ' _ ⟨ls', rfl, hf, hM, hH, hv⟩
  exact ⟨ls', rfl, hf, hm _ _ hM, ⟨hH.pos, hH.lt, fun x hx hxa =>
    hH.name x hx ((hg.scope x hx).trans hxa)⟩, hv⟩

end Blocks

section Expressions

variable {e : HirExpr} {es : List HirExpr} {n : ℕ}

theorem PartAll.of_orderly (h : orderlyAll names waiting loops es = true)
    (hrec : ∀ waiting, ∀ e ∈ es, orderly names waiting loops e = true →
      Part O blocks exit m vrec k names waiting loops e) :
    PartAll O blocks exit m vrec k names waiting loops es := by
  induction es generalizing waiting with
  | nil => trivial
  | cons e es ih =>
    simp only [orderlyAll, Bool.and_eq_true] at h
    exact ⟨hrec waiting e List.mem_cons_self h.1, ih h.2 fun waiting e' he' =>
      hrec waiting e' (List.mem_cons_of_mem _ he')⟩

/-- An orderly node whose parts are simulated. -/
theorem simulates_lowerNode (h : orderly names waiting loops e = true)
    (hk : k ≤ n + 1 - sizeOf e)
    (hrec : ∀ names waiting loops e' n k, orderly names waiting loops e' = true →
      sizeOf e' < sizeOf e → k ≤ n - sizeOf e' →
      Part O blocks exit m (evalExpr O n) k names waiting loops e') :
    Simulates O blocks exit k names waiting loops (lowerNode (lowerExpr m) e)
      (evalNode O (evalExpr O n) e) (yields e) := by
  have hpart : ∀ names waiting loops e' n k, orderly names waiting loops e' = true →
      sizeOf e' < sizeOf e → k ≤ n + 1 - sizeOf e →
      Part O blocks exit m (evalExpr O n) k names waiting loops e' :=
    fun names waiting loops e' n k ho hlt hk => hrec names waiting loops e' n k ho hlt (by omega)
  have hall : ∀ waiting es, orderlyAll names waiting loops es = true → sizeOf es < sizeOf e →
      PartAll O blocks exit m (evalExpr O n) k names waiting loops es := fun waiting es hes hlt =>
    .of_orderly hes fun waiting e' he' ho =>
      hpart names waiting loops e' n k ho (Nat.lt_trans (List.sizeOf_lt_of_mem he') hlt) hk
  have hopt : ∀ o, orderlyOption names waiting loops o = true → sizeOf o < sizeOf e →
      ∀ e' ∈ o, Part O blocks exit m (evalExpr O n) k names waiting loops e' :=
    fun o ho hlt e' he' => by
      obtain rfl := he'
      exact hpart names waiting loops e' n k ho (by simp at hlt; omega) hk
  cases e with
  | lit val => exact simulates_lit val
  | null isNull => exact simulates_null isNull
  | path p => exact simulates_path h
  | tuple es | array es => exact simulates_aggregate _ (hall waiting es h (by decreasing_tactic))
  | struct size typeId es =>
    refine simulates_struct fun e' he' => ?_
    have := List.sizeOf_lt_of_mem he'
    exact hpart _ _ _ e' n k (orderly_of_mem_each h he') (by simp; omega) hk
  | enumCtor typeId variantIndex size offsets es =>
    refine simulates_enumCtor fun e' he' => ?_
    have := List.sizeOf_lt_of_mem he'
    exact hpart _ _ _ e' n k (orderly_of_mem_each h he') (by simp; omega) hk
  | call label es => exact simulates_directCall label (hall waiting es h (by decreasing_tactic))
  | callValue f es =>
    simp only [orderly, Bool.and_eq_true] at h
    exact simulates_callValue (hpart _ _ _ f n k h.1 (by decreasing_tactic) hk)
      (hall _ es h.2 (by decreasing_tactic))
  | methodCall r dispatch es =>
    simp only [orderly, Bool.and_eq_true] at h
    exact simulates_methodCall dispatch (hpart _ _ _ r n k h.1 (by decreasing_tactic) hk)
      (hall _ es h.2 (by decreasing_tactic))
  | field e offset =>
    exact simulates_with (hpart _ _ _ e n k h (by decreasing_tactic) hk) fun _ _ _ _ => rfl
  | is e offset =>
    exact simulates_with (hpart _ _ _ e n k h (by decreasing_tactic) hk) fun _ _ _ _ => rfl
  | cast e =>
    exact simulates_with (hpart _ _ _ e n k h (by decreasing_tactic) hk) fun _ _ _ _ => rfl
  | deref e => exact simulates_copy (hpart _ _ _ e n k h (by decreasing_tactic) hk)
  | unary op e =>
    simp only [orderly, Bool.and_eq_true, decide_eq_true_eq] at h
    have he := hpart _ _ _ e n k h.2 (by decreasing_tactic) hk
    cases op with
    | deref => exact simulates_copy he
    | ref => exact absurd rfl h.1.1
    | refMut => exact absurd rfl h.1.2
    | neg => exact simulates_unary he (.inl rfl)
    | not => exact simulates_unary he (.inr (.inl rfl))
    | toStr => exact simulates_unary he (.inr (.inr rfl))
  | isNot e typeId => exact simulates_isNot typeId (hpart _ _ _ e n k h (by decreasing_tactic) hk)
  | index l r =>
    simp only [orderly, Bool.and_eq_true] at h
    exact simulates_index (hpart _ _ _ l n k h.1 (by decreasing_tactic) hk)
      (hpart _ _ _ r n k h.2 (by decreasing_tactic) hk)
  | binary op l r =>
    simp only [orderly, Bool.and_eq_true] at h
    have hl := hpart _ _ _ l n k h.1 (by decreasing_tactic) hk
    have hr := hpart _ _ _ r n k h.2 (by decreasing_tactic) hk
    have hlit : ∀ b, Part O blocks exit m (evalExpr O n) k names waiting loops (.lit (.bool b)) :=
      fun b => hpart _ _ _ _ n k rfl (by
        have := l.sizeOf_pos
        have := r.sizeOf_pos
        have : 0 < sizeOf op := by cases op <;> simp
        decreasing_tactic) hk
    by_cases hand : op = .and
    · subst hand
      exact simulates_if hl hr fun e he => Option.some.inj he ▸ hlit false
    · by_cases hor : op = .or
      · subst hor
        exact simulates_if hl (hlit true) fun e he => Option.some.inj he ▸ hr
      · rw [if_neg (not_or.mpr ⟨hand, hor⟩)] at hr
        exact simulates_binary ⟨hand, hor⟩ hl hr
  | assign op lhs rhs =>
    cases lhs with
    | path p =>
      simp only [orderly, Bool.and_eq_true, Bool.or_eq_true] at h
      have hr := hpart _ _ _ rhs n k h.1 (by decreasing_tactic) hk
      cases hslot : p.globalSlot with
      | some slot => exact simulates_assignGlobal hslot hr
      | none =>
        simp only [hslot, Option.isSome_none, Bool.false_eq_true, false_or, List.contains_eq_mem,
          decide_eq_true_eq, Bool.not_eq_true', decide_eq_false_iff_not] at h
        exact simulates_assignLocal h.2.1 h.2.2 hslot hr
    | field obj offset =>
      simp only [orderly, Bool.and_eq_true] at h
      exact simulates_assignField (hpart _ _ _ obj n k h.1 (by decreasing_tactic) hk)
        (hpart _ _ _ rhs n k h.2 (by decreasing_tactic) hk)
    | index obj idx =>
      simp only [orderly, Bool.and_eq_true] at h
      exact simulates_assignIndex (hpart _ _ _ obj n k h.1.1 (by decreasing_tactic) hk)
        (hpart _ _ _ idx n k h.1.2 (by decreasing_tactic) hk)
        (hpart _ _ _ rhs n k h.2 (by decreasing_tactic) hk)
    | _ => simp [orderly] at h
  | block sts tail =>
    simp only [orderly, Bool.and_eq_true] at h
    have hparts (names : List String) (e' : HirExpr) (ho : orderly names waiting loops e' = true)
        (hlt : sizeOf e' < sizeOf sts + sizeOf tail) :
        Part O blocks exit m (evalExpr O n) k names waiting loops e' :=
      hpart names waiting loops e' n k ho (by simp; omega) hk
    obtain ⟨hinner, hsim⟩ := simulates_rest h.1 h.2 (Nat.le_refl _) hparts
    have hyields : yields (.block sts tail) = yields (.block [] tail) := by cases tail <;> rfl
    rw [hyields]
    exact simulates_block hinner hsim
  | if_ c t o =>
    simp only [orderly, Bool.and_eq_true] at h
    exact simulates_if (hpart _ _ _ c n k h.1.1 (by decreasing_tactic) hk)
      (hpart _ _ _ t n k h.1.2 (by decreasing_tactic) hk) (hopt o h.2 (by decreasing_tactic))
  | while_ c b label =>
    simp only [orderly, Bool.and_eq_true] at h
    exact simulates_while hk (fun n k => hpart _ _ _ c n k h.1 (by decreasing_tactic))
      fun n k => hpart _ _ _ b n k h.2 (by decreasing_tactic)
  | loop b label =>
    exact simulates_lowerLoop true hk (fun n => evalNode_loop _ b)
      fun n k => hpart _ _ _ b n k h (by decreasing_tactic)
  | for_ b label =>
    exact simulates_lowerLoop false hk (fun n => evalNode_for _ b)
      fun n k => hpart _ _ _ b n k h (by decreasing_tactic)
  | break_ label o =>
    simp only [orderly, Bool.and_eq_true] at h
    exact simulates_break (hopt o h.1 (by decreasing_tactic)) h.2
  | continue_ label => exact simulates_continue h
  | return_ o => exact simulates_return (hopt o h (by decreasing_tactic))
  | throw e => exact simulates_throw (hpart _ _ _ e n k h (by decreasing_tactic) hk)
  | try_ e => exact (hpart _ _ _ e n k h (by decreasing_tactic) hk).simulates
  | safeField e offset => exact simulates_safeField (hpart _ _ _ e n k h (by decreasing_tactic) hk)
  | elvis l r =>
    simp only [orderly, Bool.and_eq_true] at h
    exact simulates_elvis (hpart _ _ _ l n k h.1 (by decreasing_tactic) hk)
      (hpart _ _ _ r n k h.2 (by decreasing_tactic) hk)
  | forceUnwrap e => exact simulates_forceUnwrap (hpart _ _ _ e n k h (by decreasing_tactic) hk)
  | ref | when | tryCatch | safeCall | closure => simp [orderly] at h

/-- The code of an orderly expression does what the evaluation says, by induction on the size. -/
theorem part_of_orderly (h : orderly names waiting loops e = true) (hm : sizeOf e < m)
    (hk : k ≤ n - sizeOf e) : Part O blocks exit m (evalExpr O n) k names waiting loops e := by
  induction m generalizing names waiting loops e n k with
  | zero => omega
  | succ m ih =>
    refine ⟨lowers_lowerExpr h hm, fun P s a s' ls ρ w hR hx hS hA => ?_⟩
    rw [lowerExpr_flows m e hR.flows] at hx
    cases n with
    | zero =>
      obtain rfl : k = 0 := by omega
      exact Lasts.zero
    | succ n =>
      exact simulates_lowerNode h hk (fun names waiting loops e' n k ho hlt hk =>
        ih ho (by omega) hk) P s a s' ls ρ w hR hx hS hA

end Expressions

section Functions

variable {M : Point × W → Next (Point × W) (Outcome Point W)} {c : Point × W}

/-- The run comes to the outcome, with its value in local 0. -/
def Meant (M : Point × W → Next (Point × W) (Outcome Point W)) (k : ℕ) (c : Point × W) :
    Option (Outcome Value W) → Prop
  | none => Lasts M k c
  | some .stuck => Hangs M c
  | some o => ∃ o', Halts M c o' ∧ o'.map (fun q => q.locals 0) = o

/-- A run that has an outcome is met by an evaluation with enough fuel. -/
theorem halts_iff_of_meant {f : ℕ → Option (Outcome Value W)} {d : ℕ} {o : Outcome Value W}
    (h : ∀ n, Meant M (n - d) c (f n)) (ho : o ≠ .stuck) :
    (∃ o', Halts M c o' ∧ o'.map (fun q => q.locals 0) = o) ↔ ∃ n, f n = some o := by
  constructor
  · rintro ⟨o', ⟨k, hk⟩, rfl⟩
    refine ⟨k + d, ?_⟩
    have hn := h (k + d)
    rw [Nat.add_sub_cancel] at hn
    cases hf : f (k + d) with
    | none =>
      rw [hf] at hn
      cases Eq.trans (Eq.symm hn) hk
    | some r =>
      rw [hf] at hn
      cases r with
      | stuck => cases Eq.trans (Eq.symm (hn k)) hk
      | returned a w =>
        obtain ⟨o'', ho'', hmap⟩ := hn
        rw [← hmap, ho''.unique ⟨k, hk⟩]
      | raised v w =>
        obtain ⟨o'', ho'', hmap⟩ := hn
        rw [← hmap, ho''.unique ⟨k, hk⟩]
  · rintro ⟨n, hn⟩
    have hmeant := h n
    rw [hn] at hmeant
    cases o with
    | stuck => exact absurd rfl ho
    | returned a w => exact hmeant
    | raised v w => exact hmeant

theorem nameLocals_cons (first : LocalId) (y : String) (ys : List String) (sc : Scope) :
    nameLocals first (y :: ys) sc = nameLocals (first + 1) ys (update sc y (some first)) := by
  simp [nameLocals, List.zipIdx_cons]

theorem nameLocals_of_notMem {x : String} (hx : x ∉ names) (first : LocalId) (sc : Scope) :
    nameLocals first names sc x = sc x := by
  induction names generalizing first sc with
  | nil => rfl
  | cons y ys ih =>
    obtain ⟨hne, hx⟩ := List.ne_and_not_mem_of_not_mem_cons hx
    rw [nameLocals_cons, ih hx, update_of_ne hne]

theorem nameLocals_of_mem {x : String} (hn : names.Nodup) (hx : x ∈ names) (first : LocalId)
    (sc : Scope) : nameLocals first names sc x = some (first + names.idxOf x) := by
  induction names generalizing first sc with
  | nil => cases hx
  | cons y ys ih =>
    rw [List.nodup_cons] at hn
    rw [nameLocals_cons]
    rcases eq_or_ne x y with rfl | hne
    · rw [nameLocals_of_notMem hn.1, update_self, List.idxOf_cons_self, Nat.add_zero]
    · rw [ih hn.2 (List.mem_of_ne_of_mem hne hx), List.idxOf_cons_ne _ (Ne.symm hne),
        Nat.succ_add_eq_add_succ]

/-- The state in which the body of a function is lowered. -/
theorem ready_beginBody {params : List String} (hn : params.Nodup) :
    Ready params [] 1 [1] (beginBody params (nameLocals 1 params fun _ => none) none) where
  flows := rfl
  apart := by
    refine ⟨Nat.zero_lt_two, fun i hi => ?_⟩
    obtain rfl := List.mem_singleton.mp hi
    exact ⟨Nat.one_ne_zero, _, rfl, rfl⟩
  exit_mem := List.mem_singleton_self 1
  exit_eq := rfl
  finals := rfl
  env := rfl
  loops := rfl
  pos := Nat.succ_pos _
  scope x hx := by
    refine ⟨_, nameLocals_of_mem hn hx 1 _, by omega, ?_⟩
    have := List.idxOf_lt_length_of_mem hx
    simp only [beginBody, List.length_map, List.length_cons]
    omega
  inj x hx y hy hxy := by
    change nameLocals 1 params _ x = nameLocals 1 params _ y at hxy
    rw [nameLocals_of_mem hn hx, nameLocals_of_mem hn hy, Option.some.injEq] at hxy
    exact (List.idxOf_inj hx).mp (Nat.add_left_cancel hxy)

/-- The end of a body: the value goes to local 0, and the exit returns. -/
theorem finishBody_ok (hP : Apart [1] s) (hf : s.finallyStack = []) (hexit : s.exitBlock = 1)
    (a : LocalId) : ∃ t blocks', finishBranch 0 a 1 s = .ok ((), t) ∧
      finishBody a s = .ok ((), { t with blocks := blocks' }) ∧ Settled [1] t blocks' := by
  obtain ⟨_, t, ht, hg⟩ := (inferInstance : Lowers [] (finishBranch 0 a 1)).lowers s hf
  refine ⟨t, t.blocks.modify 1 fun b => { b with term := .return_ }, ht, ?_, ?_⟩
  · refine (bind_of_ok rfl).trans ?_
    rw [hexit]
    exact (bind_of_ok ht).trans rfl
  · have hPt := (inferInstance : Inner [] (finishBranch 0 a 1)).apart hP ht
    have hne : t.currentBlock ≠ 1 := fun he => hPt.current_notMem (List.mem_singleton.mpr he)
    refine ⟨fun i _ hn _ => modify_other fun he => hn (List.mem_singleton.mpr he), fun b hb => ?_⟩
    exact ⟨b, (modify_other hne).trans hb, List.prefix_refl _⟩

/-- What the code of a body does, from its entry to its exit. -/
theorem meant_of_fate {r : Option (Result W Value)} {t : LowerState}
    (hs : s.loopStack = []) (hexit : s.exitBlock = 1) (hx : finishBranch 0 a 1 s₁ = .ok (u, t))
    (hS : Settled [1] t blocks)
    (hR : s₁.blockTerminated = false → Ready names [] 1 [1] s₁)
    (h : Fate (machine O.services blocks 1) k c r
      (Exits (machine O.services blocks 1) names [] s ls) (Finished names [] ys s s₁ ls a)) :
    Meant (machine O.services blocks 1) k c (r.map fun r => match r with
      | .done v _ w' | .left (.return_ v) _ w' => .returned v w'
      | .raised v w' => .raised v w'
      | .left _ _ _ | .stuck => .stuck) := by
  have hhalt (ls : LocalId → Value) (w : W) :
      machine O.services blocks 1 (⟨1, 0, ls⟩, w) = .halt (.returned ⟨1, 0, ls⟩ w) := if_pos rfl
  have hloop : ∀ label, targetLoop label s.loopStack = none := by
    rw [hs]
    rintro (_ | _) <;> rfl
  rcases r with _ | ⟨v, ρ, w⟩ | ⟨x, ρ, w⟩ | ⟨v, w⟩ | _
  · exact h
  · obtain ⟨q, hq, ls', rfl, hflows, -, -, rfl⟩ := h
    rw [finishBranch_eq] at hx
    have hlead := leads_moveTo (O := O) ls' w (hR hflows) hx hS
    refine ⟨_, (hq.trans hlead).halts (.of_halt (hhalt _ w)), ?_⟩
    change Outcome.returned (update ls' 0 (ls' a) 0) w = _
    rw [update_self]
  · obtain ⟨q, hq, h⟩ := h
    cases x with
    | break_ label =>
      obtain ⟨c, hc, -⟩ := h
      rw [hloop] at hc
      cases hc
    | continue_ label =>
      obtain ⟨c, hc, -⟩ := h
      rw [hloop] at hc
      cases hc
    | return_ v =>
      obtain ⟨ls', hj, rfl⟩ := h
      rw [hexit] at hj
      exact ⟨_, (hq.trans (.of_next (hj w))).halts (.of_halt (hhalt _ w)), rfl⟩
  · exact ⟨_, h, rfl⟩
  · exact h

/-- Integers alone. -/
def integers : Ops Unit where
  intern _ := 0
  address _ := 0
  equal v n := v.val = BitVec.ofNat 64 n
  perform op vs w :=
    match op, vs with
    | .binary .add, [a, b] => .returned ⟨a.val + b.val, Backend.TAG_INT⟩ w
    | .binary .sub, [a, b] => .returned ⟨a.val - b.val, Backend.TAG_INT⟩ w
    | .binary .gt, [a, b] => .returned ⟨if b.val.slt a.val then 1 else 0, Backend.TAG_INT⟩ w
    | _, _ => .stuck
  store _ _ _ := .stuck
  call _ _ _ := .stuck
  rest _ _ _ _ := .stuck

/-- The sum of the numbers up to `n`. -/
def sumTo : HirFn where
  name := "sum"
  params := ["n"]
  body := .block
    [.let_ (.bind "s" true) (.lit (.int 0)),
      .expr (some (.while_ (.binary .gt (.path ⟨"n", false, none, none⟩) (.lit (.int 0)))
        (.block
          [.expr (some (.assign .addEq (.path ⟨"s", false, none, none⟩)
              (.path ⟨"n", false, none, none⟩))),
            .expr (some (.assign .subEq (.path ⟨"n", false, none, none⟩) (.lit (.int 1))))]
          none) none))]
    (some (.path ⟨"s", false, none, none⟩))
  hasEnv := false

end Functions

end Loxis.Lowering
