import Loxis.Lowering.Emission

/-! # Safe navigation

A safe access tests its receiver and goes to an arm of its own for null. What it comes to is
compared with the ordinary access to the same member, at points where the receivers and the
arguments of both have the same values.
-/

namespace Loxis.Lowering

open Function
open Loxis.Backend (Value TAG_INT TAG_NULL)

variable {W : Type}

/-- The run is at the end of the code so far. -/
def LowerState.Ended (s : LowerState) (b : BlockId) (i : ℕ) : Prop :=
  b = s.currentBlock ∧ i = s.size

/-- From the end of the code of `s`, the code up to `t` comes to the value of local `l`, or to an
exception. -/
def ComesTo (S : Services W) (s t : LowerState) (l : LocalId) (ls : LocalId → Value) (w : W)
    (o : Outcome Value W) : Prop :=
  ∃ o', RunsTo S t.blocks t.Ended (s.here ls) w o' ∧ o'.map (fun q => q.locals l) = o

/-- A field access lowered after its receiver. -/
structure FieldAccess (recv : HirExpr) (offset : ℕ) where
  fuel : ℕ
  before : LowerState
  received : LowerState
  after : LowerState
  r : LocalId
  result : LocalId
  receiver : lowerExpr fuel recv before = .ok (r, received)
  lowered : lowerNode (lowerExpr fuel) (.field recv offset) before = .ok (result, after)
  inside : before.currentBlock < before.blocks.length
  flows : received.blockTerminated = false

/-- A safe field access lowered after its receiver. -/
structure SafeField (recv : HirExpr) (offset : ℕ) where
  fuel : ℕ
  before : LowerState
  received : LowerState
  after : LowerState
  r : LocalId
  result : LocalId
  receiver : lowerExpr fuel recv before = .ok (r, received)
  lowered : lowerNode (lowerExpr fuel) (.safeField recv offset) before = .ok (result, after)
  inside : before.currentBlock < before.blocks.length
  flows : received.blockTerminated = false

/-- Null for null, else what the field access comes to. -/
def SafeField.Navigates {recv : HirExpr} {offset : ℕ} (S : Services W) (f : SafeField recv offset)
    (g : FieldAccess recv offset) (ls ls' : LocalId → Value) (w : W) : Prop :=
  (IsNull (ls f.r) → ∃ v, IsNull v ∧ ComesTo S f.received f.after f.result ls w (.returned v w)) ∧
  (¬ IsNull (ls f.r) → ∀ o, ComesTo S f.received f.after f.result ls w o ↔
    ComesTo S g.received g.after g.result ls' w o)

/-- Where the lowering of a safe access stands after the null arm. -/
def nullArm (name : String) (s : LowerState) (r : LocalId) : LowerState :=
  let n := s.blocks.length
  (((((s.declare name false).grow.grow.grow.close (.checkNull (.copy r) (n + 1) n)).goTo
    (n + 1)).push (.assign s.locals.length (.use (.const (.int 0))))).close (.goto (n + 2))).goTo n

@[simp] theorem nullArm_length (name : String) (s : LowerState) (r : LocalId) :
    (nullArm name s r).blocks.length = s.blocks.length + 3 := by simp [nullArm]

@[simp] theorem nullArm_locals (name : String) (s : LowerState) (r : LocalId) :
    (nullArm name s r).locals.length = s.locals.length + 1 := by simp [nullArm]

/-- A method call lowered after its receiver and its arguments. -/
structure MethodCall (recv : HirExpr) (dispatch : Dispatch) (args : List HirExpr) where
  fuel : ℕ
  before : LowerState
  received : LowerState
  argued : LowerState
  after : LowerState
  r : LocalId
  values : List LocalId
  result : LocalId
  receiver : lowerExpr fuel recv before = .ok (r, received)
  arguments : lowerAll (lowerExpr fuel) args received = .ok (values, argued)
  lowered : lowerNode (lowerExpr fuel) (.methodCall recv dispatch args) before = .ok (result, after)
  inside : before.currentBlock < before.blocks.length
  flows : argued.blockTerminated = false

/-- A safe call lowered after its receiver. -/
structure SafeCall (recv : HirExpr) (method : String) (args : List HirExpr) where
  fuel : ℕ
  before : LowerState
  received : LowerState
  argued : LowerState
  after : LowerState
  r : LocalId
  values : List LocalId
  result : LocalId
  receiver : lowerExpr fuel recv before = .ok (r, received)
  arguments : lowerAll (lowerExpr fuel) args (nullArm "sc" received r) = .ok (values, argued)
  lowered : lowerNode (lowerExpr fuel) (.safeCall recv method args) before = .ok (result, after)
  inside : before.currentBlock < before.blocks.length
  flows : received.blockTerminated = false
  arguedFlows : argued.blockTerminated = false

namespace SafeCall

variable {recv : HirExpr} {method : String} {args : List HirExpr} {dispatch : Dispatch}

/-- The block where the arguments begin. -/
def callBlock (c : SafeCall recv method args) : BlockId := c.received.blocks.length

/-- The local that the result is read from. -/
def source (c : SafeCall recv method args) : LocalId := c.argued.locals.length

/-- Null for null without the arguments, else on to the arguments. -/
def Branches (S : Services W) (c : SafeCall recv method args) (ls : LocalId → Value) (w : W) :
    Prop :=
  let stop b i := c.after.Ended b i ∨ b = c.callBlock
  (IsNull (ls c.r) → ∃ q, RunsTo S c.after.blocks stop (c.received.here ls) w (.returned q w) ∧
    c.after.Ended q.block q.pos ∧ IsNull (q.locals c.result)) ∧
  (¬ IsNull (ls c.r) →
    RunsTo S c.after.blocks stop (c.received.here ls) w (.returned ⟨c.callBlock, 0, ls⟩ w))

/-- From the call on, what the method call comes to. -/
def CallsAs (S : Services W) (c : SafeCall recv method args) (d : MethodCall recv dispatch args)
    (ls ls' : LocalId → Value) (w : W) : Prop :=
  ∀ o, ComesTo S c.argued c.after c.result ls w o ↔ ComesTo S d.argued d.after d.result ls' w o

/-- Receiver and arguments have the same values. -/
def Agrees (c : SafeCall recv method args) (d : MethodCall recv dispatch args)
    (ls ls' : LocalId → Value) : Prop :=
  (c.r :: c.values).map ls = (d.r :: d.values).map ls' ∧ ls 0 = ls' 0

end SafeCall

/-- A safe call with a fallback. -/
structure SafeElvis (recv : HirExpr) (method : String) (args : List HirExpr) (fallback : HirExpr)
    extends SafeCall recv method args where
  final : LowerState
  value : LocalId
  elvis : lowerNode (lowerExpr (fuel + 1)) (.elvis (.safeCall recv method args) fallback) before =
    .ok (value, final)

/-- From `p` the run comes to the fallback. -/
def SafeElvis.EvaluatesFallback {recv : HirExpr} {method : String} {args : List HirExpr}
    {fallback : HirExpr} (S : Services W) (e : SafeElvis recv method args fallback) (p : Point)
    (w : W) : Prop :=
  let n := e.after.blocks.length
  ∃ ls w', RunsTo S e.final.blocks (fun b _ => b = n ∨ b = n + 1) p w (.returned ⟨n + 1, 0, ls⟩ w')

/-- A null receiver leads to the fallback. -/
def SafeElvis.FallsBackOnNull {recv : HirExpr} {method : String} {args : List HirExpr}
    {fallback : HirExpr} (S : Services W) (e : SafeElvis recv method args fallback)
    (ls : LocalId → Value) (w : W) : Prop :=
  IsNull (ls e.r) → e.EvaluatesFallback S (e.received.here ls) w

/-- From the call on, the fallback is evaluated where the method call returns null. -/
def SafeElvis.FallsBackAs {recv : HirExpr} {method : String} {args : List HirExpr}
    {dispatch : Dispatch} {fallback : HirExpr} (S : Services W)
    (e : SafeElvis recv method args fallback) (d : MethodCall recv dispatch args)
    (ls ls' : LocalId → Value) (w : W) : Prop :=
  e.EvaluatesFallback S (e.argued.here ls) w ↔
    ∃ v w', ComesTo S d.argued d.after d.result ls' w (.returned v w') ∧ IsNull v

/-- What a method call names. -/
def Dispatch.callee : Dispatch → Callee
  | .interface iface method => .interface iface method
  | .vtable slot => .virtual slot
  | .direct target => .label (funcLabel (.const (.str target)))

section Arm

variable {s : LowerState} {name : String} {r : LocalId} {blocks : List BasicBlock}
  {sts : List Located} {t : Terminator}

/-- The null check after `s` and its null arm, which assigns zero. -/
structure NullCheck (blocks : List BasicBlock) (s : LowerState) (r : LocalId) : Prop where
  check : ∃ sts, Holds blocks s.currentBlock sts
    (.checkNull (.copy r) (s.blocks.length + 1) s.blocks.length) ∧ s.size = sts.length
  null : Holds blocks (s.blocks.length + 1)
    [⟨.assign s.locals.length (.use (.const (.int 0))), s.regions⟩] (.goto (s.blocks.length + 2))

/-- What keeps the block of the check and the one of the null arm keeps them. -/
theorem NullCheck.mono {blocks' : List BasicBlock} (h : NullCheck blocks s r)
    (hs : s.currentBlock < s.blocks.length)
    (hb : ∀ i sts t, i < s.blocks.length + 2 → i ≠ s.blocks.length → Holds blocks i sts t →
      Holds blocks' i sts t) : NullCheck blocks' s r := by
  obtain ⟨⟨sts, hc, hsize⟩, hn⟩ := h
  exact ⟨⟨sts, hb _ _ _ (Nat.lt_add_right 2 hs) (Nat.ne_of_lt hs) hc, hsize⟩,
    hb _ _ _ (Nat.lt_succ_self _) (Nat.succ_ne_self _) hn⟩

theorem nullArm_blocks (h : s.Open) (name : String) (r : LocalId) :
    NullCheck (nullArm name s r).blocks s r ∧
    Holds (nullArm name s r).blocks s.blocks.length [] (.goto 0) ∧
    Holds (nullArm name s r).blocks (s.blocks.length + 2) [] (.goto 0) := by
  obtain ⟨sts, t, hb, hsize⟩ := h.holds
  have hlt := h.inside
  set s₁ := (s.declare name false).grow with hs₁
  have hlen : s₁.blocks.length = s.blocks.length + 1 := by simp [hs₁]
  have hcheck : Holds s₁.grow.grow.blocks s.currentBlock sts t :=
    (Holds.grow (s := s.declare name false) hb).grow.grow
  have hok : Holds s₁.grow.grow.blocks s.blocks.length [] (.goto 0) :=
    (holds_grow (s := s.declare name false)).grow.grow
  have hnull : Holds s₁.grow.grow.blocks (s.blocks.length + 1) [] (.goto 0) := by
    rw [← hlen]
    exact (holds_grow (s := s₁)).grow
  have hmerge : Holds s₁.grow.grow.blocks (s.blocks.length + 2) [] (.goto 0) := by
    have := holds_grow (s := s₁.grow)
    rwa [LowerState.grow_length, hlen] at this
  set s₃ := s₁.grow.grow with hs₃
  have hcur : s₃.currentBlock = s.currentBlock := rfl
  -- The blocks other than those of the check and of the null arm are as they were made.
  have hother : ∀ i sts t, i ≠ s.currentBlock → i ≠ s.blocks.length + 1 → Holds s₃.blocks i sts t →
      Holds (nullArm name s r).blocks i sts t := by
    intro i sts t hi hi' h
    exact (((h.close_other hi).goTo.push_other hi').close_other hi').goTo
  refine ⟨⟨⟨sts, ?_, hsize⟩, ?_⟩, hother _ _ _ ?_ ?_ hok, hother _ _ _ ?_ ?_ hmerge⟩
  · have hne := Nat.ne_of_lt (Nat.lt_succ_of_lt hlt)
    exact (((hcheck.close rfl).goTo.push_other hne).close_other hne).goTo
  · have hne := Nat.ne_of_gt (Nat.lt_succ_of_lt hlt)
    exact (((hnull.close_other hne).goTo.push rfl).close rfl).goTo
  · exact Nat.ne_of_gt hlt
  · exact Nat.ne_of_lt (Nat.lt_succ_self _)
  · exact Nat.ne_of_gt (Nat.lt_add_right 2 hlt)
  · exact Nat.ne_of_gt (Nat.lt_succ_self _)

/-- The lowering of a null arm. -/
theorem nullArm_eq {β : Type} (h : s.blockTerminated = false) (name : String) (r : LocalId)
    (g : LocalId → BlockId → LowerM β) :
    (do
      let result ← newLocal name false
      let okB ← newBlock
      let nullB ← newBlock
      let mergeB ← newBlock
      term (.checkNull (.copy r) nullB okB)
      startBlock nullB
      emit (.assign result (.use (.const (.int 0))))
      term (.goto mergeB)
      startBlock okB
      g result mergeB : LowerM β) s =
      g s.locals.length (s.blocks.length + 2) (nullArm name s r) := by
  rw [bind_of_ok (newLocal_eq name false), bind_of_ok newBlock_eq, bind_of_ok newBlock_eq,
    bind_of_ok newBlock_eq,
    bind_of_ok (term_eq (s := (s.declare name false).grow.grow.grow) _ h),
    bind_of_ok (startBlock_eq _), bind_of_ok (emit_eq _ rfl), bind_of_ok (term_eq _ rfl),
    bind_of_ok (startBlock_eq _)]
  simp [nullArm]

end Arm

section After

variable {recv fallback : HirExpr} {offset : ℕ} {method : String} {args : List HirExpr}
  {dispatch : Dispatch}

theorem FieldAccess.after_eq (g : FieldAccess recv offset) :
    g.result = g.received.locals.length ∧
      g.after = (g.received.declare "field" false).push
        (.assign g.received.locals.length (.field g.r offset)) := by
  have h := g.lowered
  change lowerWith (lowerExpr g.fuel) recv "field" (fun l => .field l offset) g.before = _ at h
  rw [lowerWith, bind_of_ok g.receiver, bind_of_ok (newLocal_eq _ _),
    bind_of_ok (emit_eq (s := LowerState.declare _ _ _) _ g.flows)] at h
  obtain ⟨h₁, h₂⟩ := pure_eq_ok h
  exact ⟨h₁.symm, h₂.symm⟩

theorem SafeField.after_eq (f : SafeField recv offset) :
    f.result = f.received.locals.length ∧
      f.after = (((nullArm "sf" f.received f.r).push
        (.assign f.received.locals.length (.field f.r offset))).close
          (.goto (f.received.blocks.length + 2))).goTo (f.received.blocks.length + 2) := by
  have h := f.lowered
  change lowerSafeField (lowerExpr f.fuel) recv offset f.before = _ at h
  rw [lowerSafeField, bind_of_ok f.receiver, nullArm_eq f.flows, bind_of_ok (emit_eq _ rfl),
    bind_of_ok (term_eq _ rfl), bind_of_ok (startBlock_eq _)] at h
  obtain ⟨h₁, h₂⟩ := pure_eq_ok h
  exact ⟨h₁.symm, h₂.symm⟩

/-- The terminator of a method call. -/
def Dispatch.terminator (d : Dispatch) (r : LocalId) (ls : List LocalId) (dest : LocalId)
    (ret : BlockId) : Terminator :=
  let ops := (r :: ls).map Operand.copy
  match d with
  | .interface iface method => .interfaceCall r iface method ops dest ret
  | .vtable slot => .virtualCall r slot ops dest ret
  | .direct target => .call (.const (.str target)) ops dest ret

theorem MethodCall.after_eq (d : MethodCall recv dispatch args) :
    d.result = d.argued.locals.length ∧
      d.after = (((d.argued.declare "call" false).grow.close (dispatch.terminator d.r d.values
        d.argued.locals.length d.argued.blocks.length)).goTo d.argued.blocks.length).push
          (.assign d.argued.locals.length (.use (.move 0))) := by
  have h := d.lowered
  change lowerMethodCall (lowerExpr d.fuel) recv dispatch args d.before = _ at h
  have hfinish : lowerMethodCall (lowerExpr d.fuel) recv dispatch args d.before =
      finishCall (dispatch.terminator d.r d.values) d.argued := by
    rw [lowerMethodCall, bind_of_ok d.receiver, bind_of_ok d.arguments]
    cases dispatch <;> rfl
  rw [hfinish, finishCall, bind_of_ok (newLocal_eq _ _), bind_of_ok newBlock_eq,
    bind_of_ok (term_eq (s := (d.argued.declare _ _).grow) _ d.flows), bind_of_ok (startBlock_eq _),
    bind_of_ok (emit_eq _ rfl)] at h
  obtain ⟨h₁, h₂⟩ := pure_eq_ok h
  exact ⟨h₁.symm, h₂.symm⟩

/-- Where the lowering of a safe call ends, after the arguments in `ls`. -/
def afterCall (s₁ s₂ : LowerState) (r : LocalId) (ls : List LocalId) (method : String) :
    LowerState :=
  (((((s₂.declare "sc_d" false).grow.close (.call (.const (.str method))
    ((r :: ls).map .copy) s₂.locals.length s₂.blocks.length)).goTo s₂.blocks.length).push
      (.assign s₁.locals.length (.use (.copy s₂.locals.length)))).close
        (.goto (s₁.blocks.length + 2))).goTo (s₁.blocks.length + 2)

theorem lowerSafeCall_eq {fuel : ℕ} {s s₁ s₂ : LowerState} {ls : List LocalId}
    (hr : lowerExpr fuel recv s = .ok (r, s₁)) (hf : s₁.blockTerminated = false)
    (ha : lowerAll (lowerExpr fuel) args (nullArm "sc" s₁ r) = .ok (ls, s₂))
    (hf' : s₂.blockTerminated = false) :
    lowerNode (lowerExpr fuel) (.safeCall recv method args) s =
      .ok (s₁.locals.length, afterCall s₁ s₂ r ls method) := by
  change lowerSafeCall (lowerExpr fuel) recv method args s = _
  rw [lowerSafeCall, bind_of_ok hr, nullArm_eq hf, bind_of_ok ha, bind_of_ok (newLocal_eq _ _),
    bind_of_ok newBlock_eq, bind_of_ok (term_eq (s := (s₂.declare _ _).grow) _ hf'),
    bind_of_ok (startBlock_eq _), bind_of_ok (emit_eq _ rfl), bind_of_ok (term_eq _ rfl),
    bind_of_ok (startBlock_eq _)]
  rfl

theorem SafeCall.after_eq (c : SafeCall recv method args) :
    c.result = c.received.locals.length ∧
      c.after = afterCall c.received c.argued c.r c.values method := by
  have h := c.lowered.symm.trans (lowerSafeCall_eq c.receiver c.flows c.arguments c.arguedFlows)
  exact ⟨(Prod.mk.inj (Except.ok.inj h)).1, (Prod.mk.inj (Except.ok.inj h)).2⟩

end After

section Code

variable {s : LowerState} {r : LocalId} {blocks : List BasicBlock} {S : Services W}
  {stop : BlockId → ℕ → Prop} {ls : LocalId → Value} {w : W} {o : Outcome Point W}
  {recv fallback : HirExpr} {offset : ℕ} {method : String} {args : List HirExpr}
  {dispatch : Dispatch}

/-- A receiver that is not null leads to the other arm. -/
theorem NullCheck.runsTo_ok (h : NullCheck blocks s r) (hnull : ¬ IsNull (ls r))
    (hs : ¬ stop s.currentBlock s.size) :
    RunsTo S blocks stop (s.here ls) w o ↔ RunsTo S blocks stop ⟨s.blocks.length, 0, ls⟩ w o := by
  obtain ⟨sts, hc, hsize⟩ := h.check
  refine runsTo_step hs ?_
  rw [step_terminator hc hsize]
  simp only [execTerminator, Operand.value]
  exact congrArg (Outcome.returned · w) (congrArg (Point.mk · 0 ls) (if_neg hnull))

/-- A null receiver makes the result zero. -/
theorem NullCheck.runsTo_null (h : NullCheck blocks s r) (hnull : IsNull (ls r))
    (hs : ¬ stop s.currentBlock s.size) (hs' : ∀ i, ¬ stop (s.blocks.length + 1) i) :
    RunsTo S blocks stop (s.here ls) w o ↔
      RunsTo S blocks stop
        ⟨s.blocks.length + 2, 0, update ls s.locals.length ⟨0, TAG_INT⟩⟩ w o := by
  obtain ⟨sts, hc, hsize⟩ := h.check
  have h₁ : step S blocks (s.here ls) w = .returned ⟨s.blocks.length + 1, 0, ls⟩ w := by
    rw [step_terminator hc hsize]
    simp only [execTerminator, Operand.value]
    exact congrArg (Outcome.returned · w) (congrArg (Point.mk · 0 ls) (if_pos hnull))
  rw [runsTo_step hs h₁, runsTo_step (hs' 0) (step_use h.null rfl),
    runsTo_step (hs' 1) (step_goto (i := 1) h.null rfl)]
  rfl

theorem received_open {fuel : ℕ} {s₁ : LowerState} (h : lowerExpr fuel recv s = .ok (r, s₁))
    (hin : s.currentBlock < s.blocks.length) (hf : s₁.blockTerminated = false) : s₁.Open :=
  have hs : Standing s.blocks.length [] s.currentBlock s :=
    ⟨Nat.le_refl _, nofun, .inl rfl, hin⟩
  ⟨hf, ((local_lowerExpr fuel recv).beyond s r s₁ hs h).2.exists_⟩

namespace SafeField

variable (f : SafeField recv offset)

theorem received_open : f.received.Open := Lowering.received_open f.receiver f.inside f.flows

theorem code : NullCheck f.after.blocks f.received f.r ∧
    Holds f.after.blocks f.received.blocks.length [⟨.assign f.result (.field f.r offset),
      f.received.regions⟩] (.goto (f.received.blocks.length + 2)) ∧
    Holds f.after.blocks (f.received.blocks.length + 2) [] (.goto 0) := by
  obtain ⟨hresult, hafter⟩ := f.after_eq
  obtain ⟨hcheck, hok, hmerge⟩ := nullArm_blocks f.received_open "sf" f.r
  rw [hresult, hafter]
  refine ⟨hcheck.mono f.received_open.inside fun i sts t _ hi h => ?_, ?_, ?_⟩
  · exact ((h.push_other hi).close_other hi).goTo
  · exact ((hok.push rfl).close rfl).goTo
  · have hne := Nat.ne_of_gt (Nat.lt_add_of_pos_right (n := f.received.blocks.length)
      (show 0 < 2 by decide))
    exact ((hmerge.push_other hne).close_other hne).goTo

theorem ended {b : BlockId} {i : ℕ} :
    f.after.Ended b i ↔ b = f.received.blocks.length + 2 ∧ i = 0 := by
  have hcur : f.after.currentBlock = f.received.blocks.length + 2 := by
    rw [f.after_eq.2]
    rfl
  have hsize : f.after.size = 0 := f.code.2.2.size hcur.symm
  rw [LowerState.Ended, hcur, hsize]

end SafeField

theorem comesTo_of_map {s t : LowerState} {l : LocalId} {x : Outcome Value W}
    {g : Value → Point} {k : Value → Value} {o : Outcome Value W}
    (h : ∀ o', RunsTo S t.blocks t.Ended (s.here ls) w o' ↔ o' = x.map g ∧ o' ≠ .stuck)
    (hg : ∀ v, (g v).locals l = k v) : ComesTo S s t l ls w o ↔ o = x.map k ∧ o ≠ .stuck := by
  simp only [ComesTo, h]
  cases x with
  | returned v w' =>
    constructor
    · rintro ⟨_, ⟨rfl, -⟩, rfl⟩
      exact ⟨congrArg (Outcome.returned · w') (hg v), nofun⟩
    · rintro ⟨rfl, -⟩
      exact ⟨_, ⟨rfl, nofun⟩, congrArg (Outcome.returned · w') (hg v)⟩
  | raised v w' =>
    constructor
    · rintro ⟨_, ⟨rfl, -⟩, rfl⟩
      exact ⟨rfl, nofun⟩
    · rintro ⟨rfl, -⟩
      exact ⟨_, ⟨rfl, nofun⟩, rfl⟩
  | stuck =>
    constructor
    · rintro ⟨_, ⟨rfl, h⟩, -⟩
      exact absurd rfl h
    · rintro ⟨rfl, h⟩
      exact absurd rfl h

theorem Outcome.map_id {α : Type} (x : Outcome α W) : x.map (fun a => a) = x := by
  cases x <;> rfl

namespace SafeField

variable (f : SafeField recv offset) {o : Outcome Value W}

theorem comesTo_null (hnull : IsNull (ls f.r)) :
    ComesTo S f.received f.after f.result ls w o ↔ o = .returned ⟨0, TAG_INT⟩ w := by
  have hin := f.received_open.inside
  have hend : ∀ o', RunsTo S f.after.blocks f.after.Ended (f.received.here ls) w o' ↔
      o' = .returned ⟨f.received.blocks.length + 2, 0,
        update ls f.received.locals.length ⟨0, TAG_INT⟩⟩ w := fun o' => by
    rw [f.code.1.runsTo_null hnull, runsTo_stop (f.ended.mpr ⟨rfl, rfl⟩)]
    · exact fun h => absurd (f.ended.mp h).1 (Nat.ne_of_lt (Nat.lt_add_right 2 hin))
    · exact fun i h => absurd (f.ended.mp h).1 (Nat.ne_of_lt (Nat.lt_succ_self _))
  simp only [ComesTo, hend, f.after_eq.1, exists_eq_left]
  simp [Outcome.map, eq_comm]

theorem comesTo_ok (hnull : ¬ IsNull (ls f.r)) :
    ComesTo S f.received f.after f.result ls w o ↔ o = S.field (ls f.r) offset w ∧ o ≠ .stuck := by
  have hin := f.received_open.inside
  obtain ⟨hcheck, hok, -⟩ := f.code
  have hok' : ∀ i, ¬ f.after.Ended f.received.blocks.length i := fun i h =>
    absurd (f.ended.mp h).1 (Nat.ne_of_lt (Nat.lt_add_of_pos_right (by decide)))
  have hend : ∀ o', RunsTo S f.after.blocks f.after.Ended (f.received.here ls) w o' ↔
      o' = (S.field (ls f.r) offset w).map (fun v =>
        ⟨f.received.blocks.length + 2, 0, update ls f.result v⟩) ∧ o' ≠ .stuck := fun o' => by
    rw [hcheck.runsTo_ok hnull fun h => absurd (f.ended.mp h).1
      (Nat.ne_of_lt (Nat.lt_add_right 2 hin))]
    refine runsTo_of_map (f := fun v => ⟨f.received.blocks.length, 1, update ls f.result v⟩)
      (hok' 0) (step_field hok rfl) fun v w' o => ?_
    rw [runsTo_step (hok' 1) (step_goto (i := 1) hok rfl), runsTo_stop (f.ended.mpr ⟨rfl, rfl⟩)]
  rw [comesTo_of_map (k := fun v => v) hend fun v => update_self .., Outcome.map_id]

end SafeField

theorem FieldAccess.comesTo (g : FieldAccess recv offset) {o : Outcome Value W} :
    ComesTo S g.received g.after g.result ls w o ↔ o = S.field (ls g.r) offset w ∧ o ≠ .stuck := by
  obtain ⟨hresult, hafter⟩ := g.after_eq
  have hopen := Lowering.received_open g.receiver g.inside g.flows
  obtain ⟨sts, t, hb, hsize⟩ := hopen.holds
  have hcode : Holds ((g.received.declare "field" false).push
      (.assign g.received.locals.length (.field g.r offset))).blocks g.received.currentBlock
      (sts ++ [⟨.assign g.received.locals.length (.field g.r offset), g.received.regions⟩]) t :=
    Holds.push (s := g.received.declare "field" false) hb rfl
  rw [← hafter] at hcode
  have hcur : g.after.currentBlock = g.received.currentBlock := by
    rw [hafter]
    rfl
  have hend : ∀ i, g.after.Ended g.received.currentBlock i ↔ i = sts.length + 1 := fun i => by
    rw [LowerState.Ended, hcode.size hcur.symm, hcur]
    simp
  have hends : ∀ o', RunsTo S g.after.blocks g.after.Ended (g.received.here ls) w o' ↔
      o' = (S.field (ls g.r) offset w).map (fun v =>
        ⟨g.received.currentBlock, sts.length + 1, update ls g.result v⟩) ∧ o' ≠ .stuck :=
    fun o' => by
    refine runsTo_of_map (p := g.received.here ls)
      (f := fun v => ⟨g.received.currentBlock, sts.length + 1, update ls g.result v⟩)
      (fun h => ?_) ?_ fun v w' o => runsTo_stop ((hend _).mpr rfl)
    · have := (hend _).mp h
      simp only [LowerState.here, hsize] at this
      omega
    · rw [hresult, LowerState.here, hsize]
      exact step_field hcode List.getElem?_concat_length
  rw [comesTo_of_map (k := fun v => v) hends fun v => update_self .., Outcome.map_id]

/-- A safe field access is right where the receiver is not null, and only there. -/
theorem SafeField.navigates_iff (f : SafeField recv offset) (g : FieldAccess recv offset)
    {ls' : LocalId → Value} (hls : ls f.r = ls' g.r) :
    f.Navigates S g ls ls' w ↔ ¬ IsNull (ls f.r) := by
  constructor
  · intro h hnull
    obtain ⟨v, hv, hc⟩ := h.1 hnull
    cases (f.comesTo_null hnull).mp hc
    cases hv
  · intro hnull
    refine ⟨fun h => absurd h hnull, fun _ o => ?_⟩
    rw [f.comesTo_ok hnull, g.comesTo, hls]

namespace SafeCall

variable (c : SafeCall recv method args)

theorem received_open : c.received.Open := Lowering.received_open c.receiver c.inside c.flows

/-- The arguments leave what is before them as it is. -/
theorem argued_beyond :
    Beyond (c.received.blocks.length + 3) c.callBlock (nullArm "sc" c.received c.r) c.argued ∧
      Standing (c.received.blocks.length + 3) [] c.callBlock c.argued :=
  have hs : Standing (c.received.blocks.length + 3) [] c.callBlock
      (nullArm "sc" c.received c.r) :=
    ⟨Nat.le_of_eq (nullArm_length ..).symm, nofun, .inl rfl,
      Nat.lt_of_lt_of_eq (Nat.lt_add_of_pos_right (by decide)) (nullArm_length ..).symm⟩
  (inferInstance : Local _ [] _ (lowerAll (lowerExpr c.fuel) args)).beyond _ _ _ hs c.arguments

theorem argued_open : c.argued.Open := ⟨c.arguedFlows, c.argued_beyond.2.exists_⟩

/-- The code of a safe call: the null check, the call, and the plumbing of its result. -/
structure Code (c : SafeCall recv method args) (blocks : List BasicBlock) : Prop where
  check : NullCheck blocks c.received c.r
  call : ∃ sts, Holds blocks c.argued.currentBlock sts (.call (.const (.str method))
    ((c.r :: c.values).map .copy) c.source c.argued.blocks.length) ∧ c.argued.size = sts.length
  resume : ∃ x, Holds blocks c.argued.blocks.length
    [⟨.assign c.result (.use (.copy c.source)), x⟩] (.goto (c.received.blocks.length + 2))

theorem code : c.Code c.after.blocks ∧
    Holds c.after.blocks (c.received.blocks.length + 2) [] (.goto 0) := by
  obtain ⟨hresult, hafter⟩ := c.after_eq
  obtain ⟨hcheck, -, hmerge⟩ := nullArm_blocks c.received_open "sc" c.r
  obtain ⟨hbeyond, hstand⟩ := c.argued_beyond
  obtain ⟨sts, t, hb, hsize⟩ := c.argued_open.holds
  have hin := c.received_open.inside
  have hn : c.received.blocks.length + 3 ≤ c.argued.blocks.length := hstand.base
  -- A block before the arguments is neither the one of the call nor the one after it.
  have hcall : ∀ i, i < c.received.blocks.length + 3 → i ≠ c.callBlock →
      i ≠ c.argued.currentBlock := fun i hi hne h => by
    rcases hstand.current with hc | hc
    · exact hne (h.trans hc)
    · exact absurd (h ▸ hi) (Nat.not_lt.mpr hc)
  have hkeep : ∀ i sts t, i < c.received.blocks.length + 3 → i ≠ c.callBlock →
      Holds (nullArm "sc" c.received c.r).blocks i sts t → Holds c.after.blocks i sts t :=
    fun i sts t hi hne h => by
      have h₁ := Holds.grow (s := c.argued.declare "sc_d" false) (hbeyond.holds h hi hne)
      have hresume := Nat.ne_of_lt (Nat.lt_of_lt_of_le hi hn)
      rw [hafter]
      exact (((h₁.close_other (hcall i hi hne)).goTo.push_other hresume).close_other hresume).goTo
  refine ⟨⟨hcheck.mono hin fun i sts t hi hne h => hkeep i sts t (by omega) hne h, ⟨sts, ?_, hsize⟩,
    c.argued.regions, ?_⟩, hkeep _ _ _ (Nat.lt_succ_self _)
    (Nat.ne_of_gt (Nat.lt_add_of_pos_right (by decide))) hmerge⟩
  · have h₁ := Holds.grow (s := c.argued.declare "sc_d" false) hb
    have hne := Nat.ne_of_lt c.argued_open.inside
    rw [hafter]
    exact (((h₁.close rfl).goTo.push_other hne).close_other hne).goTo
  · have h₁ := holds_grow (s := c.argued.declare "sc_d" false)
    have hne := Nat.ne_of_gt c.argued_open.inside
    rw [hafter, hresult]
    exact (((h₁.close_other hne).goTo.push rfl).close rfl).goTo

theorem ended {b : BlockId} {i : ℕ} :
    c.after.Ended b i ↔ b = c.received.blocks.length + 2 ∧ i = 0 := by
  have hcur : c.after.currentBlock = c.received.blocks.length + 2 := by
    rw [c.after_eq.2]
    rfl
  have hsize : c.after.size = 0 := c.code.2.size hcur.symm
  rw [LowerState.Ended, hcur, hsize]

/-- The blocks of the code of a safe call are not the one where it ends. -/
theorem ne_merge : c.received.currentBlock ≠ c.received.blocks.length + 2 ∧
    c.argued.currentBlock ≠ c.received.blocks.length + 2 ∧
    c.argued.blocks.length ≠ c.received.blocks.length + 2 := by
  obtain ⟨-, hstand⟩ := c.argued_beyond
  have hn : c.received.blocks.length + 3 ≤ c.argued.blocks.length := hstand.base
  refine ⟨Nat.ne_of_lt (Nat.lt_add_right 2 c.received_open.inside), fun h => ?_, by omega⟩
  rcases hstand.current with hc | hc
  · exact absurd (hc.symm.trans h) (Nat.ne_of_lt (Nat.lt_add_of_pos_right (by decide)))
  · rw [h] at hc
    exact absurd hc (Nat.not_succ_le_self _)

theorem source_ne_zero : c.source ≠ 0 := by
  have h := c.argued_beyond.1.locals
  rw [nullArm_locals] at h
  exact Nat.ne_of_gt (Nat.lt_of_lt_of_le (Nat.succ_pos _) h)

/-- The run from the call on, whatever stops it outside the call. -/
theorem Code.runsTo_call {c : SafeCall recv method args} (h : c.Code blocks)
    (hs : ∀ i, ¬ stop c.argued.currentBlock i ∧ ¬ stop c.argued.blocks.length i) {g : Value → Point}
    (hf : ∀ v w' o, RunsTo S blocks stop ⟨c.received.blocks.length + 2, 0,
      update (update ls 0 v) c.result (ls c.source)⟩ w' o ↔ o = .returned (g v) w') :
    RunsTo S blocks stop (c.argued.here ls) w o ↔
      o = (S.call (.label (funcLabel (.const (.str method)))) ((c.r :: c.values).map ls) (ls 0)
        w).map g ∧ o ≠ .stuck := by
  obtain ⟨sts, hcall, hsize⟩ := h.call
  obtain ⟨x, hresume⟩ := h.resume
  refine runsTo_of_map (f := fun v => ⟨c.argued.blocks.length, 0, update ls 0 v⟩) (hs _).1 ?_
    fun v w' o => ?_
  · rw [step_terminator hcall hsize]
    simp [execTerminator, callTo, LowerState.here, Operand.value, Function.comp_def]
  · rw [runsTo_step (hs 0).2 (step_use hresume rfl),
      runsTo_step (hs 1).2 (step_goto (i := 1) hresume rfl)]
    have hsource : (Operand.copy c.source).value S (update ls 0 v) = ls c.source :=
      update_of_ne c.source_ne_zero ..
    rw [hsource]
    exact hf v w' o

theorem comesTo {o : Outcome Value W} :
    ComesTo S c.argued c.after c.result ls w o ↔
      o = (S.call (.label (funcLabel (.const (.str method)))) ((c.r :: c.values).map ls) (ls 0)
        w).map (fun _ => ls c.source) ∧ o ≠ .stuck := by
  obtain ⟨-, h₁, h₂⟩ := c.ne_merge
  refine comesTo_of_map (fun o' => c.code.1.runsTo_call (fun i => ⟨fun h => h₁ (c.ended.mp h).1,
    fun h => h₂ (c.ended.mp h).1⟩) fun v w' o => runsTo_stop (c.ended.mpr ⟨rfl, rfl⟩)) fun v => ?_
  exact update_self ..

/-- The test of a safe call is right where the receiver is not null, and only there. -/
theorem branches_iff : c.Branches S ls w ↔ ¬ IsNull (ls c.r) := by
  obtain ⟨h₁, -, -⟩ := c.ne_merge
  have hcheck := c.code.1.check
  have hin := Nat.ne_of_lt c.received_open.inside
  have hstart : ¬ (c.after.Ended c.received.currentBlock c.received.size ∨
      c.received.currentBlock = c.callBlock) := by
    rintro (h | h)
    · exact h₁ (c.ended.mp h).1
    · exact hin h
  constructor
  · rintro ⟨h, -⟩ hnull
    obtain ⟨q, hq, hend, hres⟩ := h hnull
    rw [hcheck.runsTo_null hnull hstart, runsTo_stop (.inl (c.ended.mpr ⟨rfl, rfl⟩))] at hq
    · cases hq
      simp only [← c.after_eq.1, update_self] at hres
      cases hres
    · rintro i (h | h)
      · exact absurd (c.ended.mp h).1 (Nat.ne_of_lt (Nat.lt_succ_self _))
      · exact absurd h (Nat.succ_ne_self _)
  · intro hnull
    refine ⟨fun h => absurd h hnull, fun _ => ?_⟩
    rw [hcheck.runsTo_ok hnull hstart, runsTo_stop (.inr rfl)]
    rfl

end SafeCall

theorem MethodCall.argued_open (d : MethodCall recv dispatch args) : d.argued.Open :=
  have hs : Standing d.before.blocks.length [] d.before.currentBlock d.before :=
    ⟨Nat.le_refl _, nofun, .inl rfl, d.inside⟩
  have hr := ((local_lowerExpr d.fuel recv).beyond _ _ _ hs d.receiver).2
  ⟨d.flows, ((inferInstance : Local _ [] _ (lowerAll (lowerExpr d.fuel) args)).beyond _ _ _ hr
    d.arguments).2.exists_⟩

theorem Dispatch.step_terminator {b ret : BlockId} {sts : List Located} {dest : LocalId}
    {vs : List LocalId}
    (h : Holds blocks b sts (dispatch.terminator r vs dest ret)) :
    step S blocks ⟨b, sts.length, ls⟩ w =
      (S.call dispatch.callee ((r :: vs).map ls) (ls 0) w).map fun v =>
        ⟨ret, 0, update ls 0 v⟩ := by
  rw [Lowering.step_terminator (p := ⟨b, sts.length, ls⟩) h rfl]
  cases dispatch <;>
    simp [Dispatch.terminator, Dispatch.callee, execTerminator, callTo, Operand.value,
      Function.comp_def]

theorem MethodCall.comesTo (d : MethodCall recv dispatch args) {o : Outcome Value W} :
    ComesTo S d.argued d.after d.result ls w o ↔
      o = S.call dispatch.callee ((d.r :: d.values).map ls) (ls 0) w ∧ o ≠ .stuck := by
  obtain ⟨hresult, hafter⟩ := d.after_eq
  obtain ⟨sts, t, hb, hsize⟩ := d.argued_open.holds
  have hin := d.argued_open.inside
  have hcall : Holds d.after.blocks d.argued.currentBlock sts (dispatch.terminator d.r d.values
      d.argued.locals.length d.argued.blocks.length) := by
    rw [hafter]
    exact ((Holds.grow (s := d.argued.declare "call" false) hb).close rfl).goTo.push_other
      (Nat.ne_of_lt hin)
  have hresume : Holds d.after.blocks d.argued.blocks.length
      ([] ++ [⟨.assign d.argued.locals.length (.use (.move 0)), d.argued.regions⟩]) (.goto 0) := by
    rw [hafter]
    exact ((holds_grow (s := d.argued.declare "call" false)).close_other
      (Nat.ne_of_gt hin)).goTo.push rfl
  have hcur : d.after.currentBlock = d.argued.blocks.length := by
    rw [hafter]
    rfl
  have hended : ∀ b i, d.after.Ended b i ↔ b = d.argued.blocks.length ∧ i = 1 := fun b i => by
    rw [LowerState.Ended, hcur, hresume.size hcur.symm]
    rfl
  have hends : ∀ o', RunsTo S d.after.blocks d.after.Ended (d.argued.here ls) w o' ↔
      o' = (S.call dispatch.callee ((d.r :: d.values).map ls) (ls 0) w).map (fun v =>
        ⟨d.argued.blocks.length, 1, update (update ls 0 v) d.result v⟩) ∧ o' ≠ .stuck :=
    fun o' => by
    rw [LowerState.here, hsize]
    refine runsTo_of_map (fun h => Nat.ne_of_lt hin ((hended _ _).mp h).1)
      (Dispatch.step_terminator hcall) fun v w' o => ?_
    rw [runsTo_step (fun h => absurd ((hended _ _).mp h).2 Nat.zero_ne_one) (step_use hresume rfl),
      runsTo_stop ((hended _ _).mpr ⟨rfl, rfl⟩), hresult]
    have hmove : (Operand.move 0).value S (update ls 0 v) = v := by
      rw [Operand.value, update_self]
    rw [hmove]
  rw [comesTo_of_map (k := fun v => v) hends fun v => update_self .., Outcome.map_id]

/-- From the call on, a safe call is right where a call of the bare name has the outcome of the
method call, with the old contents of the source of the result as the value returned. -/
theorem SafeCall.callsAs_iff (c : SafeCall recv method args) (d : MethodCall recv dispatch args)
    {ls' : LocalId → Value} (h : c.Agrees d ls ls') :
    c.CallsAs S d ls ls' w ↔
      (S.call (.label (funcLabel (.const (.str method)))) ((c.r :: c.values).map ls) (ls 0) w).map
        (fun _ => ls c.source) =
      S.call dispatch.callee ((c.r :: c.values).map ls) (ls 0) w := by
  simp only [CallsAs, c.comesTo, d.comesTo, ← h.1, ← h.2]
  generalize (S.call (.label _) _ _ w).map _ = x
  generalize S.call dispatch.callee _ _ w = y
  constructor
  · intro h
    cases x with
    | stuck =>
      by_contra hne
      exact ((h y).mpr ⟨rfl, Ne.symm hne⟩).2 ((h y).mpr ⟨rfl, Ne.symm hne⟩).1
    | _ => exact ((h _).mp ⟨rfl, nofun⟩).1
  · rintro rfl o
    rfl

/-- Nothing is lowered after an exit. -/
theorem open_of_flows {fuel : ℕ} {s₁ : LowerState} {e : HirExpr}
    (h : lowerExpr fuel e s = .ok (r, s₁)) (hf : s₁.blockTerminated = false) :
    s.blockTerminated = false := by
  by_contra hs
  rw [Bool.not_eq_false] at hs
  cases fuel with
  | zero => cases h
  | succ fuel =>
    rw [lowerExpr, bind_of_ok (show isTerminated s = .ok (s.blockTerminated, s) from rfl), hs] at h
    simp only [if_true, unitLocal, bind_of_ok (newLocal_eq _ _)] at h
    obtain ⟨_, t, ht, hp⟩ := bind_eq_ok h
    simp only [emit, LowerState.declare_blockTerminated, hs, if_true] at ht
    cases ht
    cases hp
    rw [LowerState.declare_blockTerminated, hs] at hf
    cases hf

theorem lowerExpr_of_flows (h : s.blockTerminated = false) (fuel : ℕ) (e : HirExpr) :
    lowerExpr (fuel + 1) e s = lowerNode (lowerExpr fuel) e s := by
  rw [lowerExpr, bind_of_ok (show isTerminated s = _ from rfl), h]
  rfl

/-- Where the lowering of an elvis stands before the fallback, with its left side in `l`. -/
def nullTest (s : LowerState) (l : LocalId) : LowerState :=
  let n := s.blocks.length
  (((((s.declare "elvis" false).grow.grow.grow.close (.checkNull (.copy l) (n + 1) n)).goTo n).push
    (.assign s.locals.length (.use (.copy l)))).close (.goto (n + 2))).goTo (n + 1)

/-- The rest of the lowering of an elvis. -/
def lowerFallback (fuel : ℕ) (fallback : HirExpr) (s : LowerState) : LowerM LocalId := do
  let r ← lowerExpr fuel fallback
  emit (.assign s.locals.length (.use (.copy r)))
  term (.goto (s.blocks.length + 2))
  startBlock (s.blocks.length + 2)
  return s.locals.length

theorem lowerElvis_eq {fuel : ℕ} {s₁ : LowerState} {lhs : HirExpr} {l : LocalId}
    (hl : lowerExpr fuel lhs s = .ok (l, s₁)) (hf : s₁.blockTerminated = false) :
    lowerNode (lowerExpr fuel) (.elvis lhs fallback) s =
      lowerFallback fuel fallback s₁ (nullTest s₁ l) := by
  change lowerElvis (lowerExpr fuel) lhs fallback s = _
  rw [lowerElvis, bind_of_ok hl, bind_of_ok (newLocal_eq _ _), bind_of_ok newBlock_eq,
    bind_of_ok newBlock_eq, bind_of_ok newBlock_eq,
    bind_of_ok (term_eq (s := (s₁.declare _ _).grow.grow.grow) _ hf),
    bind_of_ok (startBlock_eq _), bind_of_ok (emit_eq _ rfl), bind_of_ok (term_eq _ rfl),
    bind_of_ok (startBlock_eq _)]
  simp [nullTest, lowerFallback]

theorem lowerFallback_lit (fuel : ℕ) (v : Constant) (s₁ : LowerState)
    (h : s.blockTerminated = false) :
    lowerFallback (fuel + 1) (.lit v) s₁ s = .ok (s₁.locals.length,
      (((((s.declare "lit" false).push (.assign s.locals.length (.use (.const v)))).push
        (.assign s₁.locals.length (.use (.copy s.locals.length)))).close
          (.goto (s₁.blocks.length + 2))).goTo (s₁.blocks.length + 2))) := by
  have hlit : lowerExpr (fuel + 1) (.lit v) s = .ok (s.locals.length,
      (s.declare "lit" false).push (.assign s.locals.length (.use (.const v)))) := by
    rw [lowerExpr_of_flows h]
    change lowerLit v s = _
    rw [lowerLit, bind_of_ok (newLocal_eq _ _),
      bind_of_ok (emit_eq (s := s.declare _ _) _ h)]
    rfl
  set t := (s.declare "lit" false).push (.assign s.locals.length (.use (.const v)))
  have hopen : t.blockTerminated = false := h
  have hpush : ∀ st, (t.push st).blockTerminated = false := fun _ => h
  rw [lowerFallback, bind_of_ok hlit, bind_of_ok (emit_eq _ hopen),
    bind_of_ok (term_eq _ (hpush _)), bind_of_ok (startBlock_eq _)]
  rfl

namespace SafeElvis

variable (e : SafeElvis recv method args fallback)

/-- Where the lowering of the elvis stands before the fallback. -/
def tested : LowerState := nullTest e.after e.result

theorem after_flows : e.after.blockTerminated = false := by
  rw [e.after_eq.2]
  rfl

theorem final_eq :
    lowerFallback (e.fuel + 1) fallback e.after e.tested = .ok (e.value, e.final) := by
  have hcall : lowerExpr (e.fuel + 1) (.safeCall recv method args) e.before =
      .ok (e.result, e.after) := by
    rw [lowerExpr_of_flows (open_of_flows e.receiver e.flows)]
    exact e.lowered
  rw [tested, ← lowerElvis_eq hcall e.after_flows]
  exact e.elvis

theorem tested_eq : e.tested.blocks.length = e.after.blocks.length + 3 ∧
    e.tested.currentBlock = e.after.blocks.length + 1 := by
  constructor
  · simp [tested, nullTest]
  · rfl

/-- The fallback leaves what is before it as it is. -/
theorem final_beyond :
    Beyond e.after.blocks.length (e.after.blocks.length + 1) e.tested e.final := by
  obtain ⟨hlen, hcur⟩ := e.tested_eq
  have hs : Standing e.after.blocks.length [2] (e.after.blocks.length + 1) e.tested := by
    refine ⟨?_, fun k hk => ?_, .inl hcur, ?_⟩
    · rw [hlen]
      exact Nat.le_add_right ..
    · rw [List.mem_singleton.mp hk, hlen]
      exact Nat.lt_succ_self _
    · rw [hcur, hlen]
      exact Nat.add_lt_add_left (by decide) _
  have hlocal : Local e.after.blocks.length [2] (e.after.blocks.length + 1)
      (lowerFallback (e.fuel + 1) fallback e.after) := by
    unfold lowerFallback
    infer_instance
  exact (hlocal.beyond _ _ _ hs e.final_eq).1

/-- The code of the safe call, and the null check of the elvis after it. -/
theorem code : e.Code e.final.blocks ∧ Holds e.final.blocks (e.received.blocks.length + 2) []
    (.checkNull (.copy e.result) (e.after.blocks.length + 1) e.after.blocks.length) := by
  obtain ⟨hcode, hmerge⟩ := e.toSafeCall.code
  obtain ⟨h₁, h₂, h₃⟩ := e.ne_merge
  have hcur : e.after.currentBlock = e.received.blocks.length + 2 := by
    rw [e.after_eq.2]
    rfl
  -- What the code of the safe call holds stays, but for the block where it ends.
  have hkeep : ∀ i sts t, i ≠ e.received.blocks.length + 2 → Holds e.after.blocks i sts t →
      Holds e.final.blocks i sts t := fun i sts t hne h => by
    have hlt := h.lt
    have hn := Nat.ne_of_lt hlt
    refine e.final_beyond.holds ?_ hlt (Nat.ne_of_lt (Nat.lt_succ_of_lt hlt))
    have h' := ((Holds.grow (s := e.after.declare "elvis" false) h).grow).grow
    exact (((h'.close_other (hcur ▸ hne)).goTo.push_other hn).close_other hn).goTo
  refine ⟨⟨⟨?_, ?_⟩, ?_, ?_⟩, ?_⟩
  · obtain ⟨sts, h, hsize⟩ := hcode.check.check
    exact ⟨sts, hkeep _ _ _ h₁ h, hsize⟩
  · exact hkeep _ _ _ (Nat.ne_of_lt (Nat.lt_succ_self _)) hcode.check.null
  · obtain ⟨sts, h, hsize⟩ := hcode.call
    exact ⟨sts, hkeep _ _ _ h₂ h, hsize⟩
  · obtain ⟨x, h⟩ := hcode.resume
    exact ⟨x, hkeep _ _ _ h₃ h⟩
  · have hlt := hmerge.lt
    have hn := Nat.ne_of_lt hlt
    refine e.final_beyond.holds ?_ hlt (Nat.ne_of_lt (Nat.lt_succ_of_lt hlt))
    have h' := ((Holds.grow (s := e.after.declare "elvis" false) hmerge).grow).grow
    exact (((h'.close hcur.symm).goTo.push_other hn).close_other hn).goTo

/-- The fallback and the other arm of the elvis are after the code of the safe call. -/
theorem not_stop {b : BlockId} (h : b < e.after.blocks.length) :
    ¬ (b = e.after.blocks.length ∨ b = e.after.blocks.length + 1) := by
  rintro (h' | h')
  · exact Nat.ne_of_lt h h'
  · exact Nat.ne_of_lt (Nat.lt_succ_of_lt h) h'

/-- Where the null check of the elvis leads. -/
def next (v : Value) : BlockId :=
  if IsNull v then e.after.blocks.length + 1 else e.after.blocks.length

theorem runsTo_merge {ls' : LocalId → Value} {w' : W} :
    RunsTo S e.final.blocks (fun b _ => b = e.after.blocks.length ∨ b = e.after.blocks.length + 1)
      ⟨e.received.blocks.length + 2, 0, ls'⟩ w' o ↔
    o = .returned ⟨e.next (ls' e.result), 0, ls'⟩ w' := by
  have hstep : step S e.final.blocks ⟨e.received.blocks.length + 2, 0, ls'⟩ w' =
      .returned ⟨e.next (ls' e.result), 0, ls'⟩ w' :=
    step_terminator (p := ⟨e.received.blocks.length + 2, 0, ls'⟩) e.code.2 rfl
  rw [runsTo_step (e.not_stop e.toSafeCall.code.2.lt) hstep, runsTo_stop]
  unfold next
  dsimp only
  split
  · exact .inr rfl
  · exact .inl rfl

/-- For a null receiver the fallback is not evaluated. -/
theorem not_evaluates (hnull : IsNull (ls e.r)) :
    ¬ e.EvaluatesFallback S (e.received.here ls) w := by
  rintro ⟨ls', w', h⟩
  have hlt := e.toSafeCall.code.2.lt
  rw [e.code.1.check.runsTo_null hnull, e.runsTo_merge, ← e.after_eq.1] at h
  · have hb : e.after.blocks.length + 1 = e.next (update ls e.result ⟨0, TAG_INT⟩ e.result) :=
      congrArg Point.block (Outcome.returned.inj h).1
    rw [update_self, next, if_neg (by decide)] at hb
    exact absurd hb (Nat.succ_ne_self _)
  · exact e.not_stop (Nat.lt_trans e.received_open.inside (Nat.lt_of_le_of_lt (by simp) hlt))
  · exact fun i => e.not_stop (Nat.lt_of_succ_lt hlt)

/-- From the call on, the fallback is evaluated where the call returns and the source of the result
holds null. -/
theorem evaluates_iff : e.EvaluatesFallback S (e.argued.here ls) w ↔ IsNull (ls e.source) ∧
    ∃ v w', S.call (.label (funcLabel (.const (.str method)))) ((e.r :: e.values).map ls) (ls 0) w =
      .returned v w' := by
  obtain ⟨sts, hcall, -⟩ := e.toSafeCall.code.1.call
  obtain ⟨x, hresume⟩ := e.toSafeCall.code.1.resume
  have hends : ∀ o, RunsTo S e.final.blocks
      (fun b _ => b = e.after.blocks.length ∨ b = e.after.blocks.length + 1)
        (e.argued.here ls) w o ↔
      o = (S.call (.label (funcLabel (.const (.str method)))) ((e.r :: e.values).map ls) (ls 0)
        w).map (fun v => ⟨e.next (ls e.source), 0,
          update (update ls 0 v) e.result (ls e.source)⟩) ∧ o ≠ .stuck := fun o =>
    e.code.1.runsTo_call (fun _ => ⟨e.not_stop hcall.lt, e.not_stop hresume.lt⟩) fun v w' o => by
      rw [e.runsTo_merge, update_self]
  simp only [EvaluatesFallback, hends]
  constructor
  · rintro ⟨ls', w', h, -⟩
    cases hx : S.call (.label (funcLabel (.const (.str method))))
      ((e.r :: e.values).map ls) (ls 0) w
    case returned v w₁ =>
      rw [hx] at h
      have hb : e.after.blocks.length + 1 = e.next (ls e.source) :=
        congrArg Point.block (Outcome.returned.inj h).1
      refine ⟨?_, v, w₁, rfl⟩
      by_contra hne
      rw [next, if_neg hne] at hb
      exact absurd hb (Nat.succ_ne_self _)
    all_goals
      rw [hx] at h
      cases h
  · rintro ⟨hnull, v, w', hx⟩
    refine ⟨update (update ls 0 v) e.result (ls e.source), w', ?_, nofun⟩
    rw [hx, next, if_pos hnull]
    rfl

end SafeElvis

/-- A safe field access is right just where the receiver is not null. A safe call is right just
where the receiver is not null and a call of the bare name has the outcome of the method call,
with the contents of the local that the result is read from in the place of the value returned.
An elvis after it is right just where the receiver is not null and that local holds null when the
method call returns null. -/
theorem safe_navigation_iff (S : Services W) (f : SafeField recv offset)
    (g : FieldAccess recv offset) (e : SafeElvis recv method args fallback)
    (d : MethodCall recv dispatch args) (ls ls' : LocalId → Value) (w : W)
    (hf : ls f.r = ls' g.r) (hc : e.Agrees d ls ls') :
    let call := fun callee => S.call callee ((e.r :: e.values).map ls) (ls 0) w
    let label := Callee.label (funcLabel (.const (.str method)))
    (f.Navigates S g ls ls' w ↔ ¬ IsNull (ls f.r)) ∧
    (e.Branches S ls w ↔ ¬ IsNull (ls e.r)) ∧
    (e.CallsAs S d ls ls' w ↔ (call label).map (fun _ => ls e.source) = call dispatch.callee) ∧
    (e.FallsBackOnNull S ls w ↔ ¬ IsNull (ls e.r)) ∧
    (e.FallsBackAs S d ls ls' w ↔
      (IsNull (ls e.source) ∧ (∃ v w', call label = .returned v w') ↔
        ∃ v w', call dispatch.callee = .returned v w' ∧ IsNull v)) := by
  refine ⟨f.navigates_iff g hf, e.branches_iff, e.callsAs_iff d hc, ?_, ?_⟩
  · exact ⟨fun h hnull => e.not_evaluates hnull (h hnull), fun h hnull => absurd hnull h⟩
  · have hret : ∀ v w', ComesTo S d.argued d.after d.result ls' w (.returned v w') ↔
        S.call dispatch.callee ((e.r :: e.values).map ls) (ls 0) w = .returned v w' :=
      fun v w' => by
        rw [d.comesTo, ← hc.1, ← hc.2]
        exact ⟨fun h => h.1.symm, fun h => ⟨h.symm, nofun⟩⟩
    simp only [SafeElvis.FallsBackAs, e.evaluates_iff, hret]

end Code

section Example

/-- A function with one parameter. -/
def oneParam : LowerState := beginBody ["x"] (nameLocals 1 ["x"] fun _ => none) none

def paramX : HirExpr := .path ⟨"x", false, none, none⟩

def fieldOfX : FieldAccess paramX 9 where
  fuel := 1
  before := oneParam
  received := _
  after := _
  r := 1
  result := 2
  receiver := rfl
  lowered := rfl
  inside := by decide
  flows := rfl

def safeFieldOfX : SafeField paramX 9 where
  fuel := 1
  before := oneParam
  received := _
  after := _
  r := 1
  result := 2
  receiver := rfl
  lowered := rfl
  inside := by decide
  flows := rfl

def callOfX : MethodCall paramX (.vtable 3) [] where
  fuel := 1
  before := oneParam
  received := _
  argued := _
  after := _
  r := 1
  values := []
  result := 2
  receiver := rfl
  arguments := rfl
  lowered := rfl
  inside := by decide
  flows := rfl

def safeCallOfX : SafeCall paramX "m" [] where
  fuel := 1
  before := oneParam
  received := _
  argued := _
  after := _
  r := 1
  values := []
  result := _
  receiver := rfl
  arguments := rfl
  lowered := lowerSafeCall_eq rfl rfl rfl rfl
  inside := by decide
  flows := rfl
  arguedFlows := rfl

/-- `x?.m() ?: 7`. -/
def elvisOfX : SafeElvis paramX "m" [] (.lit (.int 7)) where
  toSafeCall := safeCallOfX
  final := _
  value := _
  elvis := (lowerElvis_eq ((lowerExpr_of_flows (s := oneParam) rfl 1 _).trans safeCallOfX.lowered)
    rfl).trans (lowerFallback_lit 1 _ _ rfl)

/-- Every call returns five. -/
def fives : Services Unit where
  intern _ := 0
  address _ := 0
  equal v n := v.val = BitVec.ofNat 64 n
  field _ _ w := .returned ⟨0, TAG_INT⟩ w
  call _ _ _ w := .returned ⟨5, TAG_INT⟩ w
  other _ _ ls w := .returned ls w

/-- With zero in the source of its result a safe call does not come to five. -/
theorem safe_navigation_fives :
    ¬ elvisOfX.CallsAs fives callOfX (fun _ => ⟨0, TAG_INT⟩) (fun _ => ⟨0, TAG_INT⟩) () := by
  obtain ⟨-, -, h, -⟩ := safe_navigation_iff fives safeFieldOfX fieldOfX elvisOfX callOfX
    (fun _ => ⟨0, TAG_INT⟩) (fun _ => ⟨0, TAG_INT⟩) () rfl
    ⟨by simp [elvisOfX, safeCallOfX, callOfX], rfl⟩
  rw [h]
  exact fun h => absurd (Outcome.returned.inj h).1 (by decide)

/-- A null receiver comes to zero, and not to the fallback. -/
theorem null_comes_to_zero : ¬ ∀ (recv : HirExpr) (method : String) (args : List HirExpr)
    (fallback : HirExpr) (e : SafeElvis recv method args fallback) (S : Services Unit)
    (ls : LocalId → Value), e.Branches S ls () ∧ e.FallsBackOnNull S ls () := by
  intro h
  obtain ⟨-, h⟩ := h paramX "m" [] (.lit (.int 7)) elvisOfX fives fun _ => ⟨0, TAG_NULL⟩
  exact elvisOfX.not_evaluates (by decide) (h (by decide))

end Example

end Loxis.Lowering
