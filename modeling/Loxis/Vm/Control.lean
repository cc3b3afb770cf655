import Loxis.Vm.Safe

/-! # Calls and handlers

What instructions do to the calls in progress, to the spilled registers and to the
exception handlers. A handler belongs to the call that installed it: it is gone when this
call returns, and an exception that it takes leaves the machine in this call.
-/

namespace Loxis.Vm

open Function

/-- The stacks of the machine, with their top first. -/
structure Stacks where
  calls : List CallFrame
  spills : List (Reg × Cell)
  handlers : List ExceptionHandler

/-- Handlers are those of calls in progress, and a newer one never belongs to an older call. -/
structure Stacks.Nested (c : Stacks) : Prop where
  depth : ∀ h ∈ c.handlers, h.callDepth ≤ c.calls.length
  order : c.handlers.Pairwise fun h h' => h'.callDepth ≤ h.callDepth

/-- What a stack still holds when it has been pushed to or popped from, but not below it. -/
theorem suffix_of_comparable {α : Type} {l s t : List α} (h : l <:+ s) (ht : t <:+ s ∨ s <:+ t)
    (hlen : l.length ≤ t.length) : l <:+ t := by
  rcases ht with ht | ht
  · exact List.suffix_of_suffix_length_le h ht hlen
  · exact h.trans ht

theorem suffix_of_eq {α : Type} {l s : List α} (h : s = l) : l <:+ s := h ▸ List.suffix_refl _

theorem drop_of_suffix {α : Type} {l s : List α} (h : l <:+ s) :
    s.drop (s.length - l.length) = l := (List.suffix_iff_eq_drop.mp h).symm

namespace VM

variable {G W : Type} {B : GCBackend G} {N : Natives W} {P : Chunk} {s t u : VM G W}

def control (s : VM G W) : Stacks := ⟨s.callStack, s.dataStack, s.exceptionHandlers⟩

/-- The newest handler took an exception: what came after its installation is left. -/
structure Taken (c : Stacks) (e : Cell) (t : VM G W) (h : ExceptionHandler) : Prop where
  handlers : c.handlers = h :: t.exceptionHandlers
  calls : t.callStack = c.calls.drop (c.calls.length - h.callDepth)
  spills : t.dataStack = c.spills.drop (c.spills.length - h.dataDepth)
  target : t.ip = h.targetIp
  exception : t.regs h.exceptionReg = e

/-- An instruction is given up for an exception only when a handler took it. -/
def Unwound (c : Stacks) (e : Signal) (t : VM G W) : Prop := e = .unwind → ∃ v h, Taken c v t h

/-- No exception is raised. -/
def Quiet (_ : Stacks) (e : Signal) (_ : VM G W) : Prop := e ≠ .unwind

/-- The program leaves the stacks as they are when it ends with a result. -/
def Keep {α : Type} (E : Stacks → Signal → VM G W → Prop) (x : Exec G W α) : Prop :=
  ∀ s, Ends x s (fun _ t => t.control = s.control) (E s.control)

section Keep

variable {α β : Type} {E : Stacks → Signal → VM G W → Prop} {x : Exec G W α} {f : α → Exec G W β}

theorem Keep.pure (a : α) : Keep E (pure a : Exec G W α) := fun _ => rfl

theorem Keep.bind (hx : Keep E x) (hf : ∀ a, Keep E (f a)) : Keep E (x >>= f) := by
  intro s
  refine (hx s).seq (fun a t ht => ?_) fun _ _ => id
  have := hf a t
  rwa [ht] at this

theorem Keep.get {f : VM G W → Exec G W β} (hf : ∀ s, Keep E (f s)) : Keep E (get >>= f) :=
  fun s => ends_get (hf s s)

theorem Keep.modify {f : VM G W → VM G W} (h : ∀ s, (f s).control = s.control) :
    Keep E (modify f) := h

theorem Keep.forM {f : β → Exec G W PUnit} (hf : ∀ b, Keep E (f b)) (l : List β) :
    Keep E (l.forM f) := by
  induction l with
  | nil => exact .pure _
  | cons b l ih => exact (hf b).bind fun _ => ih

theorem Keep.throw {e : Signal} (h : ∀ s : VM G W, E s.control e s) :
    Keep E (throw e : Exec G W α) := h

theorem Keep.panic (message : String) : Keep Quiet (panic message : Exec G W α) :=
  .throw fun _ => nofun

theorem Keep.quiet (h : Keep Quiet x) : Keep Unwound x :=
  fun s => (h s).mono (fun _ _ => id) fun _ _ hne he => absurd he hne

end Keep

theorem quiet_of_calm {x : Exec G W Unit} {Q : VM G W → Prop} {c : Stacks} (h : Calm x s Q) :
    Ends x s (fun _ => Q) (Quiet c) := by
  refine h.mono (fun _ _ => id) ?_
  rintro - t ⟨f, rfl⟩
  exact nofun

theorem Keep.of_calm {x : Exec G W Unit}
    (h : ∀ s, Calm x s fun t => t.control = s.control) : Keep Quiet x :=
  fun s => quiet_of_calm (h s)

theorem keep_barrier (f : G → Heap → Except Failure (G × Heap)) :
    Keep Quiet (barrier f : Exec G W Unit) :=
  .of_calm fun _ => (calm_barrier f).mono (by rintro - t ⟨g, h, rfl⟩; rfl) fun _ _ => id

theorem keep_addRoot (c : Cell) : Keep Quiet (addRoot B c : Exec G W Unit) :=
  .of_calm fun _ => (calm_addRoot c).mono (by rintro - t ⟨g, h, rfl⟩; rfl) fun _ _ => id

theorem keep_dropRoot (c : Cell) : Keep Quiet (dropRoot B c : Exec G W Unit) :=
  .of_calm fun _ => (calm_dropRoot c).mono (by rintro - t ⟨g, h, rfl⟩; rfl) fun _ _ => id

theorem keep_setReg (r : Reg) (c : Cell) : Keep Quiet (setReg B r c : Exec G W Unit) :=
  .of_calm fun _ => (calm_setReg r c).mono (by rintro - t ⟨g, h, rfl⟩; rfl) fun _ _ => id

theorem keep_setGlobal (g : Fin 256) (c : Cell) :
    Keep Quiet (setGlobal B g c : Exec G W Unit) :=
  .of_calm fun _ => (calm_setGlobal g c).mono (by rintro - t ⟨g, h, rfl⟩; rfl) fun _ _ => id

theorem keep_restore (p : Reg × Cell) : Keep Quiet (restore B p : Exec G W Unit) :=
  (keep_setReg _ _).bind fun _ => keep_dropRoot _

theorem keep_goto (ip : ℕ) : Keep Quiet (goto ip : Exec G W Unit) := .modify fun _ => rfl

theorem keep_next : Keep Quiet (next : Exec G W Unit) := .modify fun _ => rfl

theorem keep_target (addr : ℕ) (message : String) :
    Keep Quiet (target P addr message : Exec G W ℕ) := by
  unfold target
  split
  · exact .pure _
  · exact .panic _

theorem keep_readIntOperand (o : Operand) :
    Keep Quiet (readIntOperand o : Exec G W (BitVec 64)) := by
  cases o with
  | reg r => exact Keep.get fun _ => .pure _
  | imm v => exact .pure _
  | null => exact .panic _
  | float bits => exact .panic _
  | str idx => exact .panic _
  | addr a => exact .panic _

theorem keep_branch (taken : Bool) (addr : ℕ) (message : String) :
    Keep Quiet (branch P taken addr message : Exec G W Unit) := by
  cases taken with
  | true => exact (keep_target _ _).bind fun _ => keep_goto _
  | false => exact keep_next

theorem keep_isA (c : Cell) (targetType : ℕ) : Keep Quiet (isA P c targetType : Exec G W Bool) := by
  refine Keep.get fun s => ?_
  split
  · split
    · exact .panic _
    · split
      · exact .throw fun _ => nofun
      · exact .pure _
  · exact .pure _

theorem keep_shiftArgs (n : ℕ) : Keep Quiet (shiftArgs B n : Exec G W Unit) :=
  .of_calm fun _ => (calm_shiftArgs n).mono (by rintro - t ⟨regs, g, h, rfl⟩; rfl) fun _ _ => id

theorem keep_indirect (func : Reg) (nargs : ℕ) :
    Keep Quiet (indirect B func nargs : Exec G W ℕ) := by
  refine Keep.get fun s => ?_
  split
  · split
    · exact .panic _
    · exact (keep_shiftArgs _).bind fun _ => Keep.get fun _ => (keep_setReg _ _).bind fun _ =>
        .pure _
  · exact .pure _

/-! ### Leaving calls -/

theorem quiet_restoreCallFrame {f : CallFrame} {rest : List CallFrame}
    (h : s.callStack = f :: rest) :
    Ends (restoreCallFrame B) s (fun _ t => t.control = { s.control with calls := rest })
      (Quiet s.control) := by
  refine quiet_of_calm ((calm_restoreCallFrame h).mono ?_ fun _ _ => id)
  rintro - t ⟨regs, g, m, rfl⟩
  rfl

theorem quiet_unwindCalls (depth : ℕ) {n : ℕ} (hn : s.callStack.length ≤ n) :
    Ends (unwindCalls B depth n) s (fun _ t => t.control =
      { s.control with calls := s.callStack.drop (s.callStack.length - depth) })
      (Quiet s.control) := by
  induction n generalizing s with
  | zero =>
    have hnil := List.length_eq_zero_iff.mp (Nat.le_zero.mp hn)
    exact .pure (by rw [hnil]; simp [control, hnil])
  | succ n ih =>
    refine ends_get ?_
    split
    · next hlt =>
      obtain ⟨f, rest, hcs⟩ := List.exists_cons_of_length_pos (Nat.zero_lt_of_lt hlt)
      rw [hcs, List.length_cons] at hlt hn
      refine ends_seq (quiet_restoreCallFrame hcs) fun _ t ht => ?_
      obtain ⟨hcalls, hspills, hhandlers⟩ := Stacks.mk.inj ht
      have hlen : t.callStack.length ≤ n := by rw [hcalls]; omega
      refine (ih hlen).mono (fun _ u hu => ?_) fun _ _ => id
      rw [hu, ht, hcalls, hcs, List.length_cons, Nat.succ_sub (by omega), List.drop_succ_cons]
    · next hge =>
      exact .pure (by rw [Nat.sub_eq_zero_of_le (by omega), List.drop_zero]; rfl)

theorem quiet_unwindData (depth : ℕ) {n : ℕ} (hn : s.dataStack.length ≤ n) :
    Ends (unwindData B depth n) s (fun _ t => t.control =
      { s.control with spills := s.dataStack.drop (s.dataStack.length - depth) })
      (Quiet s.control) := by
  induction n generalizing s with
  | zero =>
    have hnil := List.length_eq_zero_iff.mp (Nat.le_zero.mp hn)
    exact .pure (by rw [hnil]; simp [control, hnil])
  | succ n ih =>
    refine ends_get ?_
    split
    · next hnil => exact .pure (by rw [hnil]; simp [control, hnil])
    · next p rest hds =>
      split
      · next hlt =>
        rw [hds, List.length_cons] at hlt hn
        refine ends_modify (ends_seq (keep_restore p { s with dataStack := rest })
          fun _ t ht => ?_)
        obtain ⟨hcalls, hspills, hhandlers⟩ := Stacks.mk.inj ht
        have hlen : t.dataStack.length ≤ n := hspills ▸ Nat.le_of_lt_succ hn
        refine (ih hlen).mono (fun _ u hu => ?_) fun _ _ => id
        rw [hu, ht, hspills, hds, List.length_cons, Nat.succ_sub (by omega), List.drop_succ_cons]
        rfl
      · next hge =>
        exact .pure (by rw [Nat.sub_eq_zero_of_le (by omega), List.drop_zero]; rfl)

/-! ### Exceptions -/

theorem quiet_reportUncaught {c : Cell} {Q : Unit → VM G W → Prop} :
    Ends (reportUncaught c) s Q (Quiet s.control) := by
  refine ends_get ?_
  split
  · split
    · exact nofun
    · split
      · exact nofun
      · exact nofun
  · exact nofun

theorem quiet_throwValue (c : Cell) :
    Ends (throwValue B c) s (fun _ t => ∃ h, Taken s.control c t h) (Quiet s.control) := by
  refine ends_get ?_
  split
  · exact quiet_reportUncaught
  · next handler rest hhs =>
    refine ends_modify ?_
    refine ends_seq (keep_addRoot c { s with exceptionHandlers := rest }) fun _ t ht => ?_
    obtain ⟨hcalls, hspills, hhandlers⟩ := Stacks.mk.inj ht
    refine ends_seq (quiet_unwindCalls _ (hcalls ▸ le_refl _)) fun _ t' ht' => ends_get ?_
    refine ends_seq (quiet_unwindData _ le_rfl) fun _ u hu => ?_
    refine ends_seq (quiet_of_calm (calm_setReg _ _)) ?_
    rintro - v ⟨g, m, rfl⟩
    refine ends_seq (quiet_of_calm (calm_dropRoot _)) ?_
    rintro - w ⟨g', m', rfl⟩
    obtain ⟨hcalls', hspills', hhandlers'⟩ := Stacks.mk.inj ht'
    obtain ⟨hcalls'', hspills'', hhandlers''⟩ := Stacks.mk.inj hu
    refine ⟨handler, ?_, ?_, ?_, rfl, update_self ..⟩
    · exact hhs.trans (congrArg _ (hhandlers''.trans (hhandlers'.trans hhandlers)).symm)
    · refine hcalls''.trans (hcalls'.trans ?_)
      rw [hcalls]
      rfl
    · refine hspills''.trans ?_
      rw [hspills'.trans hspills]
      rfl

/-- Raising an exception ends the instruction. -/
theorem keep_raiseRuntime {α : Type} (message : String) :
    Keep Unwound (raiseRuntime B N P message : Exec G W α) := by
  intro s
  unfold raiseRuntime
  split
  · exact (Keep.panic _).quiet s
  · next typeId _ =>
    refine ends_get (ends_modify ?_)
    split
    · exact nofun
    · refine ends_modify ?_
      split
      · exact nofun
      · refine ends_modify (ends_seq ((quiet_throwValue _).mono (fun _ _ => id) fun _ _ hne he =>
          absurd he hne) ?_)
        rintro - t ⟨h, ht⟩ -
        exact ⟨_, h, ht⟩

theorem keep_allocate (size typeId : ℕ) (r : Reg) :
    Keep Unwound (allocate B N P size typeId r : Exec G W Unit) := by
  refine Keep.get fun s => Keep.bind ?_ fun _ => ?_
  · exact Keep.modify fun _ => rfl
  split
  · exact keep_raiseRuntime _
  · refine Keep.bind ?_ fun _ => (keep_setReg _ _).quiet
    exact Keep.modify fun _ => rfl

theorem keep_readHeap (base off : ℕ) (r : Reg) :
    Keep Unwound (readHeap B N P base off r : Exec G W Unit) := by
  refine Keep.get fun s => ?_
  split
  · exact keep_raiseRuntime _
  · exact (keep_setReg _ _).quiet

theorem keep_writeHeap (base off : ℕ) (c : Cell) :
    Keep Unwound (writeHeap B N P base off c : Exec G W Unit) := by
  refine Keep.get fun s => ?_
  split
  · exact keep_raiseRuntime _
  · exact (keep_barrier _).quiet

theorem keep_perform (e : Computed) : Keep Unwound (perform B N P e : Exec G W Unit) := by
  cases e with
  | value dst v => exact (keep_setReg _ _).quiet
  | flags z n => exact Keep.modify fun _ => rfl
  | done => exact .pure _
  | raise message => exact keep_raiseRuntime _
  | panic message => exact (Keep.panic _).quiet

theorem keep_invokeSyscall (op : ℕ) :
    Keep Unwound (invokeSyscall B N P op : Exec G W Unit) := by
  refine Keep.get fun s => ?_
  split
  · exact (keep_setReg _ _).quiet
  · exact keep_allocate _ _ _
  · exact keep_readHeap _ _ _
  · exact keep_writeHeap _ _ _
  · exact Keep.modify fun _ => rfl
  · refine Keep.bind ?_ fun _ => keep_perform _
    exact Keep.modify fun _ => rfl

/-! ### Instructions -/

/-- What an instruction does to the stacks. -/
def Turn (P : Chunk) : Instr → VM G W → VM G W → Prop
  | .tryPush addr r, s, t => ∃ ip, resolveJitTarget P addr = some ip ∧
      t.control = { s.control with
        handlers := ⟨ip, r, s.callStack.length, s.dataStack.length⟩ :: s.exceptionHandlers }
  | .tryPop, s, t => t.control = { s.control with handlers := s.exceptionHandlers.tail }
  | .throw source, s, t => ∃ h, Taken s.control (s.regs source) t h
  | .pushR r, s, t => t.control = { s.control with spills := (r, s.regs r) :: s.dataStack }
  | .popR _, s, t => t.control = { s.control with spills := s.dataStack.tail }
  | .call _, s, t | .callInd _ _, s, t | .vcall _ _ _, s, t | .icall _ _ _ _, s, t =>
    ∃ f, t.control = { s.control with calls := f :: s.callStack }
  | .ret, s, t => t.control =
      ⟨s.callStack.tail, s.dataStack, dropHandlers s.callStack.length s.exceptionHandlers⟩
  | _, s, t => t.control = s.control

theorem control_spill (p : Reg × Cell) (h : t.control = s.control) :
    ({ t with dataStack := p :: t.dataStack } : VM G W).control =
      { s.control with spills := p :: s.dataStack } :=
  congrArg (fun c : Stacks => { c with spills := p :: c.spills }) h

theorem quiet_pushCallFrame (returnIp callIp : ℕ) :
    Ends (pushCallFrame B P returnIp callIp) s
      (fun _ t => ∃ f, t.control = { s.control with calls := f :: s.callStack })
      (Quiet s.control) := by
  refine quiet_of_calm ((calm_pushCallFrame returnIp callIp).mono ?_ fun _ _ => id)
  rintro - t ⟨g, m, rfl⟩
  exact ⟨_, rfl⟩

theorem quiet_enter (returnIp ip : ℕ) :
    Ends (enter B P returnIp ip) s
      (fun _ t => ∃ f, t.control = { s.control with calls := f :: s.callStack })
      (Quiet s.control) :=
  ends_get (ends_seq (quiet_pushCallFrame _ _) fun _ _ ht => ht)

theorem quiet_target (addr : ℕ) (message : String) :
    Ends (target P addr message) s (fun ip t => resolveJitTarget P addr = some ip ∧ t = s)
      (Quiet s.control) := by
  unfold target
  split
  · next hip => exact ⟨hip, rfl⟩
  · exact nofun

/-- Where an instruction that leaves the stacks alone continues. -/
theorem Keep.then {x : Exec G W Unit} {b : Bool} (hx : Keep Unwound x) :
    Keep Unwound (x >>= fun _ => next >>= fun _ => (Pure.pure b : Exec G W Bool)) :=
  hx.bind fun _ => keep_next.quiet.bind fun _ => .pure _

theorem Ends.loud {α : Type} {x : Exec G W α} {Q : α → VM G W → Prop} {c c' : Stacks}
    (h : Ends x s Q (Quiet c)) : Ends x s Q (Unwound c') :=
  h.mono (fun _ _ => id) fun _ _ hne he => absurd he hne

/-- One instruction does to the stacks what is said of it, or a handler takes an exception. -/
theorem ends_turn (i : Instr) : Ends (execJitInstruction B N P i) s (fun _ t => Turn P i s t)
    (Unwound s.control) := by
  cases i with
  | nop => exact rfl
  | tryPush addr r =>
    refine Ends.loud (ends_seq (quiet_target _ _) ?_)
    rintro ip t ⟨hip, rfl⟩
    exact ⟨ip, hip, rfl⟩
  | tryPop =>
    refine ends_get ?_
    split
    · exact nofun
    · next hs =>
      change _ = { s.control with handlers := s.exceptionHandlers.tail }
      rw [hs]
      rfl
  | throw source =>
    exact ends_get (ends_seq (Ends.loud (quiet_throwValue _)) fun _ _ ht => ht)
  | isA source targetType result =>
    exact ((keep_readIntOperand _).quiet.bind fun _ => Keep.get fun _ =>
      (keep_isA _ _).quiet.bind fun _ => (keep_setReg _ _).quiet.then) s
  | push dst val => exact (Keep.get fun _ => (keep_setReg _ _).quiet.then) s
  | pop => exact rfl
  | pushR r =>
    refine ends_get (ends_seq (Ends.loud (keep_addRoot _ s)) fun _ t ht => ?_)
    exact control_spill (r, s.regs r) ht
  | popR r =>
    refine ends_get ?_
    split
    · next hs =>
      change s.control = { s.control with spills := s.dataStack.tail }
      rw [hs, List.tail_nil, ← hs]
      rfl
    · next p rest hs =>
      refine ends_modify ?_
      split
      · exact nofun
      · refine ends_seq (Ends.loud (keep_restore p { s with dataStack := rest })) fun _ t ht => ?_
        change t.control = { s.control with spills := s.dataStack.tail }
        rw [hs]
        exact ht
  | alloc typeId size result =>
    exact ((keep_readIntOperand _).quiet.bind fun _ => (keep_allocate _ _ _).then) s
  | hfree base => exact rfl
  | hstore base off val => exact (Keep.get fun _ => (keep_writeHeap _ _ _).then) s
  | hload base off result => exact (Keep.get fun _ => (keep_readHeap _ _ _).then) s
  | mov dst val =>
    refine (Keep.get fun s => Keep.then ?_) s
    split
    · exact (keep_setReg _ _).quiet
    · exact (keep_setReg _ _).quiet
    · exact (keep_setReg _ _).quiet
    · exact .pure _
  | gload slot dst =>
    refine ((keep_readIntOperand _).quiet.bind fun _ => Keep.get fun s => ?_) s
    split
    · exact (keep_setReg _ _).quiet.then
    · exact (Keep.panic _).quiet
  | gstore slot src =>
    refine ((keep_readIntOperand _).quiet.bind fun _ => Keep.get fun s => ?_) s
    split
    · exact (keep_setGlobal _ _).quiet.then
    · exact (Keep.panic _).quiet
  | compute op operands =>
    refine (Keep.get fun s => Keep.bind ?_ fun _ => (keep_perform _).then) s
    exact Keep.modify fun _ => rfl
  | jmp addr => exact ((keep_branch _ _ _).quiet.bind fun _ => .pure _) s
  | jnz addr => exact (Keep.get fun _ => (keep_branch _ _ _).quiet.bind fun _ => .pure _) s
  | jz addr => exact (Keep.get fun _ => (keep_branch _ _ _).quiet.bind fun _ => .pure _) s
  | jn addr => exact (Keep.get fun _ => (keep_branch _ _ _).quiet.bind fun _ => .pure _) s
  | skip addr =>
    cases addr with
    | none => exact rfl
    | some addr => exact ((keep_branch _ _ _).quiet.bind fun _ => .pure _) s
  | call addr =>
    refine Ends.loud (ends_seq (quiet_target _ _) ?_)
    rintro ip t ⟨-, rfl⟩
    exact ends_get (ends_seq (quiet_enter _ _) fun _ _ ht => ht)
  | nullChk val addr =>
    exact (Keep.get fun _ => (keep_branch _ _ _).quiet.bind fun _ => .pure _) s
  | callInd func nargs =>
    refine Ends.loud (ends_seq (keep_indirect _ _ s) fun addr t ht => ?_)
    rw [← ht]
    refine ends_seq (quiet_target _ _) ?_
    rintro ip t ⟨-, rfl⟩
    refine ends_get (ends_seq (quiet_enter _ _) ?_)
    rintro - u ⟨f, hu⟩
    exact ⟨f, hu.trans (congrArg (fun c : Stacks => { c with calls := f :: c.calls }) ht)⟩
  | ret =>
    refine ends_modify (ends_get ?_)
    split
    · next hs =>
      change s.callStack = [] at hs
      change _ = Stacks.mk s.callStack.tail s.dataStack
        (dropHandlers s.callStack.length s.exceptionHandlers)
      rw [hs]
      rfl
    · next frame rest hs =>
      refine ends_seq (Ends.loud (quiet_restoreCallFrame hs)) fun _ t ht => ?_
      change t.control = Stacks.mk s.callStack.tail s.dataStack
        (dropHandlers s.callStack.length s.exceptionHandlers)
      change s.callStack = _ at hs
      rw [ht, hs]
      rfl
  | vcall obj slot resume =>
    refine ends_get ?_
    simp only
    split
    · exact nofun
    · refine Ends.loud (ends_seq (quiet_target _ _) ?_)
      rintro back t ⟨-, rfl⟩
      exact ends_seq (quiet_enter _ _) fun _ _ ht => ht
  | icall obj iface method resume =>
    refine ends_get ?_
    simp only
    split
    · exact nofun
    · refine Ends.loud (ends_seq (quiet_target _ _) ?_)
      rintro back t ⟨-, rfl⟩
      exact ends_seq (quiet_enter _ _) fun _ _ ht => ht
  | typeOf obj result => exact (Keep.get fun _ => (keep_setReg _ _).quiet.then) s
  | syscall num => exact (Keep.get fun _ => (keep_invokeSyscall _).then) s
  | halt => exact rfl

end VM

end Loxis.Vm

/-! ## Handlers and their calls

Along a run the handlers are nested as the calls are. What a handler takes leaves the
machine in the call that installed it, with what had been spilled then.
-/

namespace Loxis.Vm

open Relation

theorem Stacks.Nested.call {c c' : Stacks} (hs : c.Nested)
    (h : ∃ f, c' = { c with calls := f :: c.calls }) : c'.Nested := by
  obtain ⟨f, rfl⟩ := h
  exact ⟨fun h hh => (hs.depth h hh).trans (Nat.le_succ _), hs.order⟩

/-- A stack is pushed to or popped from. -/
def Comparable {α : Type} (l l' : List α) : Prop := l' <:+ l ∨ l <:+ l'

theorem Comparable.refl {α : Type} (l : List α) : Comparable l l := Or.inl (List.suffix_refl l)

/-- What was there when a handler was installed is still there, below it. -/
structure Stacks.Below (c : Stacks) (h : ExceptionHandler) (d : Stacks) : Prop where
  calls : c.calls <:+ d.calls
  spills : c.spills <:+ d.spills
  handlers : h :: c.handlers <:+ d.handlers

/-- Each stack is pushed to or popped from. -/
structure Stacks.Near (c d : Stacks) : Prop where
  calls : Comparable c.calls d.calls
  spills : Comparable c.spills d.spills
  handlers : Comparable c.handlers d.handlers

theorem Stacks.Near.refl (c : Stacks) : c.Near c := ⟨.refl _, .refl _, .refl _⟩

namespace VM

variable {G W : Type} {B : GCBackend G} {N : Natives W} {P : Chunk} {g : G} {w : W}
  {s t u v : VM G W} {i : Instr} {h : ExceptionHandler}

/-- The runs of a chunk. -/
def turns (B : GCBackend G) (N : Natives W) (P : Chunk) (g : G) (w : W) :
    System (VM G W) Instr where
  init s := s = init g w
  next s i t := P.code[s.ip]?.map JitInstruction.op = some i ∧ step B N P s = some t

theorem next_cases (hn : (turns B N P g w).next s i t) :
    execJitInstruction B N P i s = .ok false t ∨
      execJitInstruction B N P i s = .error .unwind t := by
  obtain ⟨hi, hstep⟩ := hn
  obtain ⟨j, hj, rfl⟩ := Option.map_eq_some_iff.mp hi
  unfold step at hstep
  simp only [hj] at hstep
  cases he : execJitInstruction B N P j.op s with
  | ok halted u =>
    simp only [he] at hstep
    cases halted with
    | true => cases hstep
    | false => exact Or.inl (by rw [Option.some.inj hstep])
  | error e u =>
    simp only [he] at hstep
    cases e with
    | unwind => exact Or.inr (by rw [Option.some.inj hstep])
    | panic message => cases hstep
    | failure f => cases hstep
    | uncaught c => cases hstep
    | hang => cases hstep

theorem turn_of_next (hn : (turns B N P g w).next s i t) :
    Turn P i s t ∨ ∃ e h, Taken s.control e t h :=
  (next_cases hn).imp (ends_turn i).of_ok fun he => (ends_turn i).of_error he rfl

/-! ### Nesting -/

theorem Taken.nested {e : Cell} (ht : Taken s.control e t h) (hs : s.control.Nested) :
    t.control.Nested := by
  obtain ⟨hdepth, horder⟩ := hs
  rw [ht.handlers] at hdepth horder
  obtain ⟨hle, horder⟩ := List.pairwise_cons.mp horder
  have hh : h.callDepth ≤ s.callStack.length := hdepth h List.mem_cons_self
  refine ⟨fun h' hh' => ?_, horder⟩
  have hlen : t.callStack.length = h.callDepth := by
    rw [ht.calls, List.length_drop]
    exact Nat.sub_sub_self hh
  exact (hle h' hh').trans_eq hlen.symm

theorem dropHandlers_suffix (depth : ℕ) (hs : List ExceptionHandler) :
    dropHandlers depth hs <:+ hs := List.dropWhile_suffix _

/-- What stays belongs to calls that stay. -/
theorem lt_of_mem_dropHandlers {depth : ℕ} {hs : List ExceptionHandler}
    (ho : hs.Pairwise fun h h' => h'.callDepth ≤ h.callDepth) (hh : h ∈ dropHandlers depth hs) :
    h.callDepth < depth := by
  induction hs with
  | nil => cases hh
  | cons h' hs ih =>
    obtain ⟨hle, ho⟩ := List.pairwise_cons.mp ho
    unfold dropHandlers at hh ih
    rw [List.dropWhile_cons] at hh
    split at hh
    · exact ih ho hh
    · next hlt =>
      have hlt : h'.callDepth < depth := by simpa using hlt
      rcases List.mem_cons.mp hh with rfl | hmem
      · exact hlt
      · exact (hle h hmem).trans_lt hlt

theorem Turn.nested (ht : Turn P i s t) (hs : s.control.Nested) : t.control.Nested := by
  cases i with
  | tryPush addr r =>
    obtain ⟨ip, -, ht⟩ := ht
    rw [ht]
    exact ⟨List.forall_mem_cons.mpr ⟨le_rfl, hs.depth⟩, .cons hs.depth hs.order⟩
  | tryPop =>
    rw [show t.control = _ from ht]
    exact ⟨fun h hh => hs.depth h (List.mem_of_mem_tail hh),
      hs.order.sublist (List.tail_sublist _)⟩
  | throw source =>
    obtain ⟨h, ht⟩ := ht
    exact ht.nested hs
  | pushR r =>
    rw [show t.control = _ from ht]
    exact ⟨hs.depth, hs.order⟩
  | popR r =>
    rw [show t.control = _ from ht]
    exact ⟨hs.depth, hs.order⟩
  | call addr => exact Stacks.Nested.call hs ht
  | callInd func nargs => exact Stacks.Nested.call hs ht
  | vcall obj slot resume => exact Stacks.Nested.call hs ht
  | icall obj iface method resume => exact Stacks.Nested.call hs ht
  | ret =>
    rw [show t.control = _ from ht]
    refine ⟨fun h hh => ?_, hs.order.sublist (dropHandlers_suffix _ _).sublist⟩
    have hlt := lt_of_mem_dropHandlers hs.order hh
    rw [List.length_tail]
    omega
  | _ =>
    rw [show t.control = s.control from ht]
    exact hs

theorem nested_of_next (hn : (turns B N P g w).next s i t) (hs : s.control.Nested) :
    t.control.Nested := by
  rcases turn_of_next hn with ht | ⟨e, h, ht⟩
  · exact ht.nested hs
  · exact ht.nested hs

/-- Along a run every handler belongs to a call in progress, and newer handlers to newer calls. -/
theorem reachable_nested (h : (turns B N P g w).Reachable s) : s.control.Nested := by
  refine h.inv (P := fun s => s.control.Nested) (fun s hs => ?_) fun s i t hs hn => ?_
  · rw [show s = _ from hs]
    refine ⟨fun _ hh => ?_, List.Pairwise.nil⟩
    cases hh
  · exact nested_of_next hn hs

/-- A handler, a call and a throw in the called function. -/
def throwInCall : Chunk where
  code := [⟨.tryPush 3 5, 0⟩, ⟨.call 2, 1⟩, ⟨.throw 1, 2⟩, ⟨.halt, 3⟩]
  functions := []
  vtables := []
  typeNames := []
  typeParents := []

/-- The state after a number of steps; the last one, where the run is shorter. -/
def after (B : GCBackend G) (N : Natives W) (P : Chunk) (s : VM G W) : ℕ → VM G W
  | 0 => s
  | n + 1 => (step B N P (after B N P s n)).getD (after B N P s n)

theorem next_after {s : VM G W} {n : ℕ} {i : Instr}
    (h : P.code[(after B N P s n).ip]?.map JitInstruction.op = some i ∧
      (step B N P (after B N P s n)).isSome = true) :
    (turns B N P g w).next (after B N P s n) i (after B N P s (n + 1)) := by
  obtain ⟨hi, hsome⟩ := h
  obtain ⟨t, ht⟩ := Option.isSome_iff_exists.mp hsome
  refine ⟨hi, ?_⟩
  rw [after, ht]
  rfl

theorem reachable_nested_throwInCall : ∃ s : VM GCMetrics Unit,
    s.exceptionHandlers.length = 1 ∧ s.callStack.length = 1 ∧ s.control.Nested := by
  let S := turns noGC noNatives throwInCall GCMetrics.zero ()
  let s : ℕ → VM GCMetrics Unit := after noGC noNatives throwInCall (init GCMetrics.zero ())
  have hpush : S.next (s 0) (.tryPush 3 5) (s 1) := next_after (by decide +kernel)
  have hcall : S.next (s 1) (.call 2) (s 2) := next_after (by decide +kernel)
  have hs : S.Reachable (s 2) := ((System.Reachable.start rfl).next hpush).next hcall
  exact ⟨s 2, by decide +kernel, by decide +kernel, reachable_nested hs⟩

/-! ### What a handler comes back to -/

/-- The handler that was installed in a state is still there, and nothing that was spilled before
has been restored. -/
def Inside (s u : VM G W) : Prop :=
  s.exceptionHandlers.length < u.exceptionHandlers.length ∧
    s.dataStack.length ≤ u.dataStack.length

theorem Taken.near {e : Cell} (ht : Taken s.control e t h) : s.control.Near t.control := by
  refine ⟨Or.inl ?_, Or.inl ?_, Or.inl ?_⟩
  · exact (congrArg (· <:+ _) ht.calls).mpr (List.drop_suffix _ _)
  · exact (congrArg (· <:+ _) ht.spills).mpr (List.drop_suffix _ _)
  · exact ht.handlers ▸ List.suffix_cons _ _

theorem Turn.near (ht : Turn P i s t) : s.control.Near t.control := by
  have hcall (h : ∃ f, t.control = { s.control with calls := f :: s.callStack }) :
      s.control.Near t.control := by
    obtain ⟨f, h⟩ := h
    rw [h]
    exact ⟨Or.inr (List.suffix_cons _ _), .refl _, .refl _⟩
  cases i with
  | tryPush addr r =>
    obtain ⟨ip, -, ht⟩ := ht
    rw [ht]
    exact ⟨.refl _, .refl _, Or.inr (List.suffix_cons _ _)⟩
  | tryPop =>
    rw [show t.control = _ from ht]
    exact ⟨.refl _, .refl _, Or.inl (List.tail_suffix _)⟩
  | throw source =>
    obtain ⟨h, ht⟩ := ht
    exact ht.near
  | pushR r =>
    rw [show t.control = _ from ht]
    exact ⟨.refl _, Or.inr (List.suffix_cons _ _), .refl _⟩
  | popR r =>
    rw [show t.control = _ from ht]
    exact ⟨.refl _, Or.inl (List.tail_suffix _), .refl _⟩
  | call addr => exact hcall ht
  | callInd func nargs => exact hcall ht
  | vcall obj slot resume => exact hcall ht
  | icall obj iface method resume => exact hcall ht
  | ret =>
    rw [show t.control = _ from ht]
    exact ⟨Or.inl (List.tail_suffix _), .refl _, Or.inl (dropHandlers_suffix _ _)⟩
  | _ =>
    rw [show t.control = s.control from ht]
    exact .refl _

theorem near_of_next (hn : (turns B N P g w).next s i t) : s.control.Near t.control := by
  rcases turn_of_next hn with ht | ⟨e, h, ht⟩
  · exact ht.near
  · exact ht.near

theorem Below.next (hb : s.control.Below h t.control) (hh : h.callDepth = s.callStack.length)
    (hs : t.control.Nested) (hn : (turns B N P g w).next t i u) (hu : Inside s u) :
    s.control.Below h u.control := by
  have hnear := near_of_next hn
  have hnest := nested_of_next hn hs
  have hhandlers := suffix_of_comparable hb.handlers hnear.handlers hu.1
  refine ⟨suffix_of_comparable hb.calls hnear.calls ?_,
    suffix_of_comparable hb.spills hnear.spills hu.2, hhandlers⟩
  -- the handler is still there, and so is its call
  change s.callStack.length ≤ _
  rw [← hh]
  exact hnest.depth h (hhandlers.subset List.mem_cons_self)

theorem tryPush_next {addr : ℕ} {r : Reg} (hn : (turns B N P g w).next s (.tryPush addr r) t) :
    ∃ ip, resolveJitTarget P addr = some ip ∧ t.control = { s.control with
      handlers := ⟨ip, r, s.callStack.length, s.dataStack.length⟩ :: s.exceptionHandlers } := by
  rcases next_cases hn with he | he
  · exact (ends_turn (.tryPush addr r)).of_ok he
  · have hquiet : Ends (execJitInstruction B N P (.tryPush addr r)) s (fun _ _ => True)
        (Quiet s.control) := ends_seq (quiet_target _ _) fun _ _ _ => trivial
    exact absurd rfl (hquiet.of_error he)

/-- Only an exception takes a handler off, but for the instructions that do so themselves. -/
theorem Turn.taken (ht : Turn P i s t) (hi : i ≠ .tryPop) (hi' : i ≠ .ret)
    (hlt : t.exceptionHandlers.length < s.exceptionHandlers.length) :
    ∃ source, i = .throw source ∧ ∃ h, Taken s.control (s.regs source) t h := by
  have hsame {c : Stacks} (h : t.control = c) (hc : s.exceptionHandlers <:+ c.handlers) :
      ∃ source, i = .throw source ∧ ∃ h, Taken s.control (s.regs source) t h := by
    subst h
    exact absurd hc.length_le (not_le.mpr hlt)
  cases i with
  | tryPop => exact absurd rfl hi
  | ret => exact absurd rfl hi'
  | throw source => exact ⟨source, rfl, ht⟩
  | tryPush addr r =>
    obtain ⟨ip, -, ht⟩ := ht
    exact hsame ht (List.suffix_cons _ _)
  | call addr => exact hsame ht.choose_spec (List.suffix_refl _)
  | callInd func nargs => exact hsame ht.choose_spec (List.suffix_refl _)
  | vcall obj slot resume => exact hsame ht.choose_spec (List.suffix_refl _)
  | icall obj iface method resume => exact hsame ht.choose_spec (List.suffix_refl _)
  | _ => exact hsame ht (List.suffix_refl _)

theorem taken_of_next (hn : (turns B N P g w).next s i t) (hi : i ≠ .tryPop) (hi' : i ≠ .ret)
    (hlt : t.exceptionHandlers.length < s.exceptionHandlers.length) :
    ∃ e h, Taken s.control e t h ∧ ∀ source, i = .throw source → e = s.regs source := by
  rcases next_cases hn with he | he
  · obtain ⟨source, rfl, h, ht⟩ := ((ends_turn i).of_ok he).taken hi hi' hlt
    refine ⟨_, h, ht, ?_⟩
    rintro _ ⟨rfl⟩
    rfl
  · obtain ⟨e, h, ht⟩ := (ends_turn i).of_error he rfl
    refine ⟨e, h, ht, ?_⟩
    rintro source rfl
    have hquiet : Ends (execJitInstruction B N P (.throw source)) s (fun _ _ => True)
        (Quiet s.control) :=
      ends_get (ends_seq (quiet_throwValue _) fun _ _ _ => trivial)
    exact absurd rfl (hquiet.of_error he)

theorem run_below {addr ip : ℕ} {r : Reg} (hs : (turns B N P g w).Reachable s)
    (hn : (turns B N P g w).next s (.tryPush addr r) t)
    (ht : t.control = { s.control with
      handlers := ⟨ip, r, s.callStack.length, s.dataStack.length⟩ :: s.exceptionHandlers })
    (hrun : ReflTransGen (fun a b => (∃ i, (turns B N P g w).next a i b) ∧ Inside s b) t u) :
    s.control.Below ⟨ip, r, s.callStack.length, s.dataStack.length⟩ u.control ∧
      u.control.Nested := by
  induction hrun with
  | refl =>
    refine ⟨?_, nested_of_next hn (reachable_nested hs)⟩
    rw [ht]
    exact ⟨List.suffix_refl _, List.suffix_refl _, List.suffix_refl _⟩
  | tail _ hnext ih =>
    obtain ⟨⟨j, hj⟩, hu⟩ := hnext
    obtain ⟨hb, hnest⟩ := ih
    exact ⟨Below.next hb rfl hnest hj hu, nested_of_next hj hnest⟩

/-- A handler that takes an exception leaves the calls, the spilled registers and the other handlers
as they were when it was installed, with the exception in its register, and continues at its
target; whatever was called, spilled, installed and caught in between. -/
theorem caught_returns {addr : ℕ} {r : Reg}
    (hs : (turns B N P g w).Reachable s) (hn : (turns B N P g w).next s (.tryPush addr r) t)
    (hrun : ReflTransGen (fun a b => (∃ i, (turns B N P g w).next a i b) ∧ Inside s b) t u)
    (hcatch : (turns B N P g w).next u i v) (hi : i ≠ .tryPop) (hi' : i ≠ .ret)
    (hlen : v.exceptionHandlers.length = s.exceptionHandlers.length) :
    v.control = s.control ∧ resolveJitTarget P addr = some v.ip ∧
      ∀ source, i = .throw source → v.regs r = u.regs source := by
  obtain ⟨ip, hip, ht⟩ := tryPush_next hn
  obtain ⟨hbelow, -⟩ := run_below hs hn ht hrun
  have hlt : v.exceptionHandlers.length < u.exceptionHandlers.length := by
    rw [hlen]
    exact hbelow.handlers.length_le
  obtain ⟨e, h, htaken, he⟩ := taken_of_next hcatch hi hi' hlt
  -- the handler that took it is the one that was installed
  have hnewest := htaken.handlers
  have heq := hbelow.handlers.eq_of_length (by
    rw [hnewest, List.length_cons, List.length_cons, hlen]
    rfl)
  obtain ⟨rfl, hrest⟩ := List.cons.inj (heq.trans hnewest)
  have hcalls : v.callStack = s.callStack := htaken.calls.trans (drop_of_suffix hbelow.calls)
  have hspills : v.dataStack = s.dataStack := htaken.spills.trans (drop_of_suffix hbelow.spills)
  refine ⟨?_, ?_, fun source hsource => ?_⟩
  · change Stacks.mk v.callStack v.dataStack v.exceptionHandlers = s.control
    rw [hcalls, hspills, ← hrest]
    rfl
  · rw [htaken.target]
    exact hip
  · rw [← he source hsource]
    exact htaken.exception

theorem caught_returns_throwInCall : ∃ u v : VM GCMetrics Unit, u.callStack.length = 1 ∧
    v.control = (init GCMetrics.zero ()).control ∧
      resolveJitTarget throwInCall 3 = some v.ip ∧
        ∀ source, Instr.throw 1 = .throw source → v.regs 5 = u.regs source := by
  let S := turns noGC noNatives throwInCall GCMetrics.zero ()
  let s : ℕ → VM GCMetrics Unit := after noGC noNatives throwInCall (init GCMetrics.zero ())
  have hstart : S.Reachable (s 0) := .start rfl
  have hpush : S.next (s 0) (.tryPush 3 5) (s 1) := next_after (by decide +kernel)
  have hcall : S.next (s 1) (.call 2) (s 2) := next_after (by decide +kernel)
  have hthrow : S.next (s 2) (.throw 1) (s 3) := next_after (by decide +kernel)
  have hinside : Inside (s 0) (s 2) := by
    constructor
    · decide +kernel
    · decide +kernel
  refine ⟨s 2, s 3, by decide +kernel, ?_⟩
  exact caught_returns hstart hpush (.single ⟨⟨_, hcall⟩, hinside⟩) hthrow nofun nofun
    (by decide +kernel)

end VM

end Loxis.Vm

/-! ## What a call comes back to

A call returns to the instruction after it, with the saved registers as they were when
the callee was entered, and a spilled register gets its value back. What the callee does in
between does not matter, as long as the stack is not popped below what was there.
-/

namespace Loxis.Vm

open Function Relation
open Loxis.Backend (TAG_INT)

namespace VM

variable {G W : Type} {B : GCBackend G} {N : Natives W} {P : Chunk} {g : G} {w : W}
  {s t u v : VM G W} {i : Instr}

/-- What stays of a stack while it is not popped below it. -/
theorem run_suffix {α : Type} (stack : VM G W → List α) {l : List α}
    (hnear : ∀ a j b, (turns B N P g w).next a j b → Comparable (stack a) (stack b))
    (hl : l <:+ stack t)
    (hrun : ReflTransGen (fun a b => (∃ j, (turns B N P g w).next a j b) ∧
      l.length ≤ (stack b).length) t u) : l <:+ stack u := by
  induction hrun with
  | refl => exact hl
  | tail _ hnext ih =>
    obtain ⟨⟨j, hj⟩, hlen⟩ := hnext
    exact suffix_of_comparable ih (hnear _ _ _ hj) hlen

/-! ### Calls -/

/-- Where an instruction that calls comes back to. -/
def returnTo (P : Chunk) (ip : ℕ) : Instr → Option ℕ
  | .call _ | .callInd _ _ => some (ip + 1)
  | .vcall _ _ resume | .icall _ _ _ resume => resolveJitTarget P resume
  | _ => none

/-- The machine has just entered a callee. -/
structure Entered (P : Chunk) (s : VM G W) (back : ℕ) (t : VM G W) : Prop where
  frame : t.callStack = ⟨back, s.ip,
    (savedRegs (frameMaximum P s.ip)).map fun r => (r, t.regs r)⟩ :: s.callStack

theorem calm_enter (back ip : ℕ) : Calm (enter B P back ip) s fun t =>
    Entered P s back t ∧ t.regs = s.regs := by
  refine ends_get ((calm_pushCallFrame back s.ip).seq ?_ fun _ _ => id)
  rintro - t ⟨g, h, rfl⟩
  exact ⟨⟨rfl⟩, rfl⟩

theorem quiet_indirect (func : Reg) (nargs : ℕ) {c : Stacks} :
    Ends (indirect B func nargs) s
      (fun _ t => ∃ regs g h, t = { s with regs := regs, gc := g, heap := h }) (Quiet c) := by
  refine ends_get ?_
  split
  · split
    · exact nofun
    · refine ends_seq (quiet_of_calm (calm_shiftArgs _)) ?_
      rintro - t ⟨regs, g, h, rfl⟩
      refine ends_get (ends_seq (quiet_of_calm (calm_setReg _ _)) ?_)
      rintro - u ⟨g', h', rfl⟩
      exact ⟨_, g', h', rfl⟩
  · exact ⟨s.regs, s.gc, s.heap, rfl⟩

/-- A call raises no exception, and saves the registers that its function uses. -/
theorem quiet_call {back : ℕ} (hi : returnTo P s.ip i = some back) :
    Ends (execJitInstruction B N P i) s
      (fun _ t => Entered P s back t ∧ ((∀ func n, i ≠ .callInd func n) → t.regs = s.regs))
      (Quiet s.control) := by
  cases i with
  | call addr =>
    obtain rfl := Option.some.inj hi
    refine ends_seq (quiet_target _ _) ?_
    rintro ip t ⟨-, rfl⟩
    refine ends_get (ends_seq (quiet_of_calm (calm_enter _ _)) ?_)
    rintro - u ⟨hu, hregs⟩
    exact ⟨hu, fun _ => hregs⟩
  | callInd func nargs =>
    obtain rfl := Option.some.inj hi
    refine ends_seq (quiet_indirect _ _) ?_
    rintro addr t ⟨regs, g, h, rfl⟩
    refine ends_seq (quiet_target _ _) ?_
    rintro ip t ⟨-, rfl⟩
    refine ends_get (ends_seq (quiet_of_calm (calm_enter _ _)) ?_)
    rintro - u ⟨hu, -⟩
    exact ⟨⟨hu.frame⟩, fun hne => absurd rfl (hne func nargs)⟩
  | vcall obj slot resume =>
    refine ends_get ?_
    simp only
    split
    · exact nofun
    · refine ends_seq (quiet_target _ _) ?_
      rintro ip t ⟨hip, rfl⟩
      obtain rfl := Option.some.inj (hip.symm.trans hi)
      refine ends_seq (quiet_of_calm (calm_enter _ _)) ?_
      rintro - u ⟨hu, hregs⟩
      exact ⟨hu, fun _ => hregs⟩
  | icall obj iface method resume =>
    refine ends_get ?_
    simp only
    split
    · exact nofun
    · refine ends_seq (quiet_target _ _) ?_
      rintro ip t ⟨hip, rfl⟩
      obtain rfl := Option.some.inj (hip.symm.trans hi)
      refine ends_seq (quiet_of_calm (calm_enter _ _)) ?_
      rintro - u ⟨hu, hregs⟩
      exact ⟨hu, fun _ => hregs⟩
  | _ => cases hi

theorem quiet_ret {f : CallFrame} {rest : List CallFrame} (hs : s.callStack = f :: rest) :
    Ends (execJitInstruction B N P .ret) s (fun _ t => t.callStack = rest ∧ t.ip = f.returnIp ∧
      ∃ regs, t.regs = writeRegs regs f.locals) (Quiet s.control) := by
  refine ends_modify (ends_get ?_)
  split
  · next hnil =>
    rw [show s.callStack = [] from hnil] at hs
    cases hs
  · next frame rest' hs' =>
    obtain ⟨rfl, rfl⟩ := List.cons.inj (hs.symm.trans hs')
    refine ends_seq (quiet_of_calm (calm_restoreCallFrame hs')) ?_
    rintro - t ⟨regs, g, h, rfl⟩
    exact ⟨rfl, rfl, regs, rfl⟩

/-- An instruction that raises no exception leaves a state that it ends with. -/
theorem ok_of_next {Q : Bool → VM G W → Prop} {c : Stacks} (hn : (turns B N P g w).next s i t)
    (h : Ends (execJitInstruction B N P i) s Q (Quiet c)) : Q false t := by
  rcases next_cases hn with he | he
  · exact h.of_ok he
  · exact absurd rfl (h.of_error he)

/-- A call comes back to the instruction after it, with the calls in progress as they were and the
saved registers as they were when the callee was entered, whatever was called, returned from and
thrown in between. -/
theorem call_returns {back : ℕ} (hcall : (turns B N P g w).next s i t)
    (hback : returnTo P s.ip i = some back)
    (hrun : ReflTransGen (fun a b => (∃ j, (turns B N P g w).next a j b) ∧
      s.callStack.length < b.callStack.length) t u)
    (hret : (turns B N P g w).next u .ret v) (hlen : v.callStack.length = s.callStack.length) :
    v.callStack = s.callStack ∧ v.ip = back ∧
      (∀ r ∈ savedRegs (frameMaximum P s.ip), v.regs r = t.regs r) ∧
        ((∀ func n, i ≠ .callInd func n) → t.regs = s.regs) := by
  obtain ⟨⟨hframe⟩, hregs⟩ := ok_of_next hcall (quiet_call hback)
  have hsuffix := run_suffix VM.callStack (fun _ _ _ hn => (near_of_next hn).calls)
    (suffix_of_eq hframe) hrun
  cases hu : u.callStack with
  | nil =>
    rw [hu] at hsuffix
    exact absurd hsuffix.length_le (Nat.not_succ_le_zero _)
  | cons f rest =>
    obtain ⟨hrest, hip, regs, hv⟩ := ok_of_next hret (quiet_ret hu)
    rw [hu] at hsuffix
    -- the frame that is left is the one of this call
    have heq := hsuffix.eq_of_length (by
      rw [List.length_cons, List.length_cons, ← hrest, hlen])
    obtain ⟨rfl, rfl⟩ := List.cons.inj heq
    refine ⟨hrest, hip, fun r hr => ?_, hregs⟩
    rw [hv]
    exact writeRegs_map hr

/-! ### Spilled registers -/

theorem quiet_pushR (r : Reg) : Ends (execJitInstruction B N P (.pushR r)) s
    (fun _ t => t.dataStack = (r, s.regs r) :: s.dataStack) (Quiet s.control) := by
  refine ends_get (ends_seq (quiet_of_calm (calm_addRoot _)) ?_)
  rintro - t ⟨g, h, rfl⟩
  exact rfl

theorem quiet_popR {p : Reg × Cell} {rest : List (Reg × Cell)} {r : Reg}
    (hs : s.dataStack = p :: rest) : Ends (execJitInstruction B N P (.popR r)) s
      (fun _ t => p.1 = r ∧ t.dataStack = rest ∧ t.regs r = p.2) (Quiet s.control) := by
  refine ends_get ?_
  rw [hs]
  refine ends_modify ?_
  split
  · exact nofun
  · next hr =>
    obtain rfl := not_not.mp hr
    refine ends_seq (quiet_of_calm (calm_restore p)) ?_
    rintro - t ⟨g, h, rfl⟩
    exact ⟨rfl, rfl, update_self ..⟩

/-- A register that was spilled gets its value back from the instruction that takes its entry off,
and this instruction names the same register. -/
theorem spill_returns {r r' : Reg} (hpush : (turns B N P g w).next s (.pushR r) t)
    (hrun : ReflTransGen (fun a b => (∃ j, (turns B N P g w).next a j b) ∧
      s.dataStack.length < b.dataStack.length) t u)
    (hpop : (turns B N P g w).next u (.popR r') v)
    (hlen : v.dataStack.length = s.dataStack.length) :
    r' = r ∧ v.regs r = s.regs r ∧ v.dataStack = s.dataStack := by
  have ht := ok_of_next hpush (quiet_pushR r)
  have hsuffix := run_suffix VM.dataStack (fun _ _ _ hn => (near_of_next hn).spills)
    (suffix_of_eq ht) hrun
  cases hu : u.dataStack with
  | nil =>
    rw [hu] at hsuffix
    exact absurd hsuffix.length_le (Nat.not_succ_le_zero _)
  | cons p rest =>
    obtain ⟨hr, hrest, hv⟩ := ok_of_next hpop (quiet_popR hu)
    rw [hu] at hsuffix
    have heq := hsuffix.eq_of_length (by
      rw [List.length_cons, List.length_cons, ← hrest, hlen])
    obtain ⟨rfl, rfl⟩ := List.cons.inj heq
    obtain rfl : r = r' := hr
    exact ⟨rfl, hv, hrest⟩

/-- A spilled register, a call, and a callee that overwrites the registers of its caller. -/
def callerAndCallee : Chunk where
  code := [⟨.pushR 1, 0⟩, ⟨.call 4, 1⟩, ⟨.popR 1, 2⟩, ⟨.halt, 3⟩, ⟨.mov 16 (.imm 9), 4⟩,
    ⟨.mov 1 (.imm 9), 5⟩, ⟨.ret, 6⟩]
  functions := [⟨0, 4, 16⟩, ⟨4, 7, 16⟩]
  vtables := []
  typeNames := []
  typeParents := []

theorem call_returns_callerAndCallee : ∃ u v : VM GCMetrics Unit,
    u.regs 16 = (9, TAG_INT) ∧ v.ip = 2 ∧ v.regs 16 = (0, TAG_INT) := by
  let S := turns noGC noNatives callerAndCallee GCMetrics.zero ()
  let s : ℕ → VM GCMetrics Unit := after noGC noNatives callerAndCallee (init GCMetrics.zero ())
  have hcall : S.next (s 1) (.call 4) (s 2) := next_after (by decide +kernel)
  have hfirst : S.next (s 2) (.mov 16 (.imm 9)) (s 3) := next_after (by decide +kernel)
  have hsecond : S.next (s 3) (.mov 1 (.imm 9)) (s 4) := next_after (by decide +kernel)
  have hret : S.next (s 4) .ret (s 5) := next_after (by decide +kernel)
  have hback : returnTo callerAndCallee (s 1).ip (.call 4) = some 2 := by decide +kernel
  have hrun : ReflTransGen (fun a b => (∃ j, S.next a j b) ∧
      (s 1).callStack.length < b.callStack.length) (s 2) (s 4) :=
    .tail (.single ⟨⟨_, hfirst⟩, by decide +kernel⟩) ⟨⟨_, hsecond⟩, by decide +kernel⟩
  obtain ⟨-, hip, hregs, -⟩ := call_returns hcall hback hrun hret (by decide +kernel)
  refine ⟨s 4, s 5, by decide +kernel, hip, (hregs 16 (by decide +kernel)).trans ?_⟩
  decide +kernel

theorem spill_returns_callerAndCallee : ∃ u v : VM GCMetrics Unit,
    u.regs 16 = (0, TAG_INT) ∧ v.dataStack.length = 0 ∧ v.regs 1 = (0, TAG_INT) := by
  let S := turns noGC noNatives callerAndCallee GCMetrics.zero ()
  let s : ℕ → VM GCMetrics Unit := after noGC noNatives callerAndCallee (init GCMetrics.zero ())
  have hpush : S.next (s 0) (.pushR 1) (s 1) := next_after (by decide +kernel)
  have hcall : S.next (s 1) (.call 4) (s 2) := next_after (by decide +kernel)
  have hfirst : S.next (s 2) (.mov 16 (.imm 9)) (s 3) := next_after (by decide +kernel)
  have hsecond : S.next (s 3) (.mov 1 (.imm 9)) (s 4) := next_after (by decide +kernel)
  have hret : S.next (s 4) .ret (s 5) := next_after (by decide +kernel)
  have hpop : S.next (s 5) (.popR 1) (s 6) := next_after (by decide +kernel)
  have hinto : ReflTransGen (fun a b => (∃ j, S.next a j b) ∧
      (s 0).dataStack.length < b.dataStack.length) (s 1) (s 3) :=
    .tail (.single ⟨⟨_, hcall⟩, by decide +kernel⟩) ⟨⟨_, hfirst⟩, by decide +kernel⟩
  have hrun := (hinto.tail ⟨⟨_, hsecond⟩, by decide +kernel⟩).tail
    ⟨⟨_, hret⟩, by decide +kernel⟩
  obtain ⟨-, hregs, -⟩ := spill_returns hpush hrun hpop (by decide +kernel)
  exact ⟨s 5, s 6, by decide +kernel, by decide +kernel, hregs⟩

end VM

end Loxis.Vm
