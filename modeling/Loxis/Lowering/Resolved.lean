import Loxis.Lowering.Fuel
import Loxis.Lowering.ScopingSound

/-! # Which bodies keep their names

A body is lowered with every name standing for the local that it denotes exactly when no name of
the body is stale.
-/

namespace Loxis.Lowering

open Function List

/-- What the lowering makes a body of. -/
inductive Source
  | fn (fn : HirFn)
  | method (method : HirFn)
  | ctor (cls : HirClass)

/-- The state after the body is lowered. -/
def Source.state (fuel : ℕ) : Source → Except Failure LowerState
  | .fn f => lowerFnState fuel f
  | .method m => lowerMethodState fuel m
  | .ctor c => lowerClassCtorState fuel c

noncomputable def Source.size : Source → ℕ
  | .fn f => sizeOf f.body
  | .method m => sizeOf m.body
  | .ctor c => sizeOf c

theorem ne_fuel {α : Type} {x : LowerM α} {s : LowerState} (hx : Bounded 0 x)
    (hs : s.finallyStack = []) : (x s).map Prod.snd ≠ .error .fuel := by
  have h := (hx.bounded s (by rw [hs]; exact Nat.le_refl 0)).1
  cases hr : x s with
  | error e => exact fun he => h (hr.trans (congrArg _ (Except.error.inj he)))
  | ok p => nofun

/-- With enough fuel a body is lowered, unless the place of a value is asked for. -/
theorem Source.enough_fuel (b : Source) {fuel : ℕ} (h : b.size < fuel) :
    b.state fuel ≠ .error .fuel := by
  cases b with
  | fn f => exact ne_fuel (bounded_body h) rfl
  | method m => exact ne_fuel (bounded_body h) rfl
  | ctor c => exact ne_fuel (bounded_lowerCtorBody h) rfl

/-- Where the visit of the body ends. -/
def Source.visit (fuel : ℕ) : Source → ScopeState
  | .fn f => visitFn fuel f
  | .method m => visitMethod fuel m
  | .ctor c => visitCtor fuel c

/-- No name of the body is stale. -/
def Source.Fresh (fuel : ℕ) (b : Source) : Prop := (b.visit fuel).fresh = true

/-- Every name stands for the local that it denotes. -/
def Resolved (s : LowerState) : Prop := ∀ r ∈ s.paths, r.used = r.meant

section Start

variable {params names : List String} {sc : Scope} {first n : ℕ} {w : ScopeState}

theorem names_nameLocals (h : Names id n sc sc) (hn : first + names.length ≤ n) :
    Names id n (nameLocals first names sc) (nameLocals first names sc) := by
  induction names generalizing first sc with
  | nil => exact h
  | cons name names ih =>
    have hlen : first + (names.length + 1) ≤ n := hn
    have hsc : Names id n (update sc name (some first)) (update sc name (some first)) :=
      h.update (by omega)
    exact ih hsc (by omega)

theorem names_none : Names id n (fun _ => none) fun _ => none := fun _ => ⟨rfl, fun _ h => nomatch h⟩

/-- Nothing is known of the locals. -/
def World.any : World where
  holds _ _ := True
  stable _ _ _ _ _ _ _ := trivial

theorem tracks_begin (h : Names id (params.length + 1) sc sc) (env : Option LocalId) :
    Tracks World.any (beginBody params sc env) (beginVisit params sc env.isSome) where
  stopped := rfl
  env := rfl
  paths := ⟨fun _ => rfl, fun _ _ hr => nomatch hr⟩
  balanced := rfl
  fits := ⟨id, ⟨fun _ _ _ _ h => h, fun i hi => by simpa [beginBody, beginVisit] using hi, h, h,
    ⟨rfl, fun _ hi => nomatch hi⟩, .nil, .nil⟩, trivial⟩

end Start

section Bodies

variable {fuel : ℕ} {s : LowerState}

instance (result : LocalId) : Flag (finishBody result) := by
  have := flag_finishBranch
  have hexit : ∀ exitB : BlockId, Still (modify fun s => { s with
      blocks := s.blocks.modify exitB fun b => { b with term := .return_ } } : LowerM Unit) :=
    fun exitB => still_of_quiet fun s a s' hx => by
      cases hx
      exact ⟨rfl, rfl, rfl, rfl, rfl, rfl, rfl, rfl, rfl, Nat.le_refl _⟩
  unfold finishBody
  infer_instance

/-- A body that is visited to its end. -/
theorem tracks_end {α : Type} {x : LowerM α} {y : Visit Unit} {start : LowerState}
    {w : ScopeState} (hxy : Ends x y) (hR : Tracks World.any start w)
    (h : (x start).map Prod.snd = .ok s) :
    ∃ b, Tracks World.any s { (y w).2 with stopped := b } := by
  cases hx : x start with
  | error e =>
    rw [hx] at h
    cases h
  | ok p =>
    rw [hx] at h
    cases h
    exact hxy _ _ _ _ _ hR hx

theorem ends_body (fuel : ℕ) (body : HirExpr) :
    Ends (lowerExpr fuel body >>= finishBody) (visitExpr fuel body) :=
  (follows_lowerExpr fuel body).thenFlag

instance still_storeParams (obj : LocalId) (ps : List HirCtorParam) :
    Still (storeParams obj ps) := by
  induction ps with
  | nil => exact (inferInstance : Still (pure ()))
  | cons p ps ih =>
    have : Still (storeParam obj p) := by
      unfold storeParam
      split
      · refine ⟨Silent.bind (inferInstance : Still (lookup p.name)).silent fun o => ?_⟩
        cases o with
        | some l => exact (inferInstance : Still (emit _)).silent
        | none => exact (inferInstance : Still (pure ())).silent
      · infer_instance
    exact (inferInstance : Still (storeParam obj p >>= fun _ => storeParams obj ps))

theorem ends_lowerCtorBody {rec : HirExpr → LowerM LocalId} {vrec : HirExpr → Visit Unit}
    (hrec : ∀ e, Follows (rec e) (vrec e)) (cls : HirClass) :
    Ends (lowerCtorBody rec cls) (visitCtorBody vrec cls) := by
  have hrest : ∀ obj, Ends (do
      emit (.assign obj
        (.alloc (if 0 < cls.totalFieldSize then cls.totalFieldSize else 9) cls.typeId))
      storeFields rec obj (superFields cls)
      storeParams obj cls.ctorParams
      storeFields rec obj (ownFields cls)
      let _ ← lowerAll rec cls.initBlocks
      finishBody obj) (do
      visitAll vrec ((superFields cls).map Prod.snd)
      visitAll vrec ((ownFields cls).map Prod.snd)
      visitAll vrec cls.initBlocks) := fun obj =>
    Ends.still fun _ => Ends.after (follows_storeFields hrec obj _) fun _ => Ends.still fun _ =>
      Ends.after (follows_storeFields hrec obj _) fun _ => (follows_lowerAll hrec _).thenFlag
  intro T s w a s' hR hx
  obtain ⟨obj, s₁, h₁, hx₁⟩ := bind_eq_ok hx
  obtain ⟨_, s₂, h₂, hx₂⟩ := bind_eq_ok hx₁
  obtain ⟨_, s₃, h₃, hx₃⟩ := bind_eq_ok hx₂
  obtain ⟨hq, hlen, hobj⟩ : Quiet s s₁ ∧ s.locals.length < s₁.locals.length ∧
      obj = s.locals.length := by
    cases h₁
    exact ⟨⟨rfl, rfl, rfl, rfl, rfl, rfl, rfl, rfl, rfl, by simp⟩, by simp, rfl⟩
  have hT : ∀ f n, (T.binding w.next s.locals.length).holds f n → obj = f w.next ∧ w.next < n :=
    fun f n hf => ⟨hobj.trans hf.2.1, hf.2.2⟩
  cases h₂
  cases h₃
  have hR₃ := (((hR.fresh hq hlen).bind "self" hT).bind "this" hT).weaken T fun f n hf => hf.1
  exact hrest obj _ _ _ _ _ hR₃ hx₃

theorem names_params (params : List String) :
    Names id (params.length + 1) (nameLocals 1 params fun _ => none)
      (nameLocals 1 params fun _ => none) :=
  names_nameLocals names_none (by omega)

/-- The visit follows the lowering of a body. -/
theorem Source.tracks (b : Source) (h : b.state fuel = .ok s) :
    ∃ c, Tracks World.any s { b.visit fuel with stopped := c } := by
  cases b with
  | fn f =>
    obtain ⟨name, params, body, hasEnv⟩ := f
    refine tracks_end (ends_body fuel body) ?_ h
    cases hasEnv
    · exact tracks_begin (names_params params) none
    · exact tracks_begin (names_params ("__closure_env" :: params)) (some 1)
  | method m =>
    refine tracks_end (ends_body fuel m.body) (tracks_begin ?_ none) h
    refine names_nameLocals ((names_none.update ?_).update ?_) ?_
    all_goals simp only [List.length_cons]; omega
  | ctor c =>
    exact tracks_end (ends_lowerCtorBody (follows_lowerExpr fuel) c)
      (tracks_begin (names_params _) none) h

theorem Source.resolved_of_ok (b : Source) (h : b.state fuel = .ok s) :
    Resolved s ↔ b.Fresh fuel := by
  obtain ⟨c, hR⟩ := b.tracks h
  exact hR.paths

end Bodies

section Outcome

instance (s : LowerState) : Decidable (Resolved s) := List.decidableBAll _ _

/-- With enough fuel the names of a body are lowered to the locals that they denote exactly if no
name of the body is stale. -/
theorem resolves_iff (b : Source) (fuel : ℕ) (h : b.size < fuel) :
    b.state fuel ≠ .error .fuel ∧
      ∀ s, b.state fuel = .ok s → (Resolved s ↔ b.Fresh fuel) :=
  ⟨b.enough_fuel h, fun _ hs => b.resolved_of_ok hs⟩

theorem exists_ok {x : Except Failure LowerState} {p : LowerState → Prop} [DecidablePred p]
    (h : (x.toOption.any fun s => decide (p s)) = true) : ∃ s, x = .ok s ∧ p s := by
  cases x with
  | error e => cases h
  | ok s => exact ⟨s, rfl, of_decide_eq_true h⟩

/-- A block that rebinds a name, and a use of the name after it. -/
def shadowing : HirFn where
  name := "f"
  params := []
  body := .block
    [.let_ (.bind "x" false) (.lit (.int 1)),
      .expr (some (.block [.let_ (.bind "x" false) (.lit (.int 2))] none))]
    (some (.path ⟨"x", false, none, none⟩))
  hasEnv := false

theorem shadowing_stale : ∃ s, (Source.fn shadowing).state 2000 = .ok s ∧ ¬ Resolved s :=
  exists_ok (by decide +kernel)

theorem resolves_iff_shadowing : (Source.fn shadowing).state 2000 ≠ .error .fuel ∧
    ∃ s, (Source.fn shadowing).state 2000 = .ok s ∧
      (Resolved s ↔ (Source.fn shadowing).Fresh 2000) := by
  obtain ⟨hne, hiff⟩ := resolves_iff (.fn shadowing) 2000 (by decide +kernel)
  obtain ⟨s, hs, -⟩ := exists_ok (x := (Source.fn shadowing).state 2000) (p := fun _ => True)
    (by decide +kernel)
  exact ⟨hne, s, hs, hiff s hs⟩

end Outcome

end Loxis.Lowering
