import Loxis.Backend.Elements

/-! # Integer instructions

The machine evaluates one C++ expression on signed 64-bit numbers for each opcode. Where the
expression has no value the behaviour is undefined; only a zero divisor is checked for and
becomes an exception. An exception goes to the innermost handler.
-/

namespace Loxis.Backend

open Loxis.Vm (Heap TAG_HEAP)

/-- The binary integer opcodes. -/
inductive IntOp
  | add | sub | mul | div | rem | shl | shr
deriving DecidableEq

/-- The integer is a signed 64-bit number. -/
def Fits (v : ℤ) : Prop := -2 ^ 63 ≤ v ∧ v < 2 ^ 63

instance (v : ℤ) : Decidable (Fits v) := inferInstanceAs (Decidable (_ ∧ _))

/-- The amount is less than the width of a number. -/
def IsAmount (n : ℤ) : Prop := 0 ≤ n ∧ n < 64

instance (n : ℤ) : Decidable (IsAmount n) := inferInstanceAs (Decidable (_ ∧ _))

/-- The C++ expression of an opcode; none where its behaviour is undefined. -/
def IntOp.expr (a b : BitVec 64) : IntOp → Option (BitVec 64)
  | add => if Fits (a.toInt + b.toInt) then some (a + b) else none
  | sub => if Fits (a.toInt - b.toInt) then some (a - b) else none
  | mul => if Fits (a.toInt * b.toInt) then some (a * b) else none
  | div => if b ≠ 0 ∧ Fits (a.toInt.tdiv b.toInt) then some (a.sdiv b) else none
  | rem => if b ≠ 0 ∧ Fits (a.toInt.tdiv b.toInt) then some (a.srem b) else none
  | shl => if IsAmount b.toInt then some (a <<< b.toNat) else none
  | shr => if IsAmount b.toInt then some (a.sshiftRight b.toNat) else none

/-- A register or a number in the instruction. -/
inductive IntOperand
  | reg (r : ℕ)
  | imm (v : BitVec 64)

/-- The integer instructions with their operands in the order of the bytecode. -/
inductive ArithInstr
  | add (dst src : ℕ) (val : IntOperand)
  | sub (src : ℕ) (val : IntOperand) (dst : ℕ)
  | mul (src : ℕ) (val : IntOperand) (dst : ℕ)
  | div (src : ℕ) (val : IntOperand) (dst : ℕ)
  | shl (src : ℕ) (val : IntOperand) (dst : ℕ)
  | shr (src : ℕ) (val : IntOperand) (dst : ℕ)
  | rem (src : ℕ) (val : IntOperand) (dst : ℕ)

/-- Where a handler continues, the register of its exception, and how many calls and saved
registers are in progress there. -/
structure ExceptionHandler where
  targetIp : ℕ
  exceptionReg : ℕ
  callDepth : ℕ
  dataDepth : ℕ

/-- The machine with its saved registers and its exception handlers, newer ones first. -/
structure Thread where
  machine : Machine
  dataStack : List (ℕ × Value)
  exceptionHandlers : List ExceptionHandler

/-- How an instruction ends. -/
inductive Ended
  | next (t : Thread)
  | uncaught (heap : Heap) (exception : ℕ)
  | panic
  | undefined

/-- Leave calls until `depth` are left. -/
def unwindCalls (depth : ℕ) : List CallFrame → Machine → Machine
  | [], m => { m with frames := [] }
  | f :: fs, m =>
    if depth < (f :: fs).length then unwindCalls depth fs (m.restoreCallFrame f)
    else { m with frames := f :: fs }

/-- Restore saved registers until `depth` are left. -/
def unwindData (depth : ℕ) : List (ℕ × Value) → Machine → List (ℕ × Value) × Machine
  | [], m => ([], m)
  | p :: ps, m =>
    if depth < (p :: ps).length then unwindData depth ps (m.setReg p.1 p.2) else (p :: ps, m)

namespace Thread

variable (t : Thread)

def throwValue (exception : ℕ) : Ended :=
  match t.exceptionHandlers with
  | [] => .uncaught t.machine.heap exception
  | handler :: hs =>
    let (data, m) := unwindData handler.dataDepth t.dataStack
      (unwindCalls handler.callDepth t.machine.frames t.machine)
    .next ⟨{ m.setReg handler.exceptionReg ⟨BitVec.ofNat 64 exception, TAG_HEAP⟩ with
      ip := handler.targetIp }, data, hs⟩

/-- Throw a new exception with a message. -/
def raiseRuntime (x : Metadata) (message : String) : Ended :=
  match Backend.raiseRuntime x t.machine.heap message with
  | .raise heap exception =>
    { t with machine := { t.machine with heap := heap } }.throwValue exception
  | _ => .panic

def readIntOperand : IntOperand → BitVec 64
  | .reg r => (t.machine.regs r).val
  | .imm v => v

/-- Set a register and go on. -/
def finish (dst : ℕ) (v : Value) : Thread := { t with machine := (t.machine.setReg dst v).next }

/-- Evaluate the expression of an opcode. -/
def evaluate (op : IntOp) (src : ℕ) (val : IntOperand) (dst : ℕ) : Ended :=
  match op.expr (t.machine.regs src).val (t.readIntOperand val) with
  | none => .undefined
  | some v => .next (t.finish dst ⟨v, TAG_INT⟩)

/-- The string in the other operand of a concatenation. -/
def stringOperand : IntOperand → Option (BitVec 64)
  | .reg r => if (t.machine.regs r).tag = TAG_STR then some (t.machine.regs r).val else none
  | .imm _ => none

end Thread

namespace ArithInstr

variable (x : Metadata) (t : Thread)

def exec : ArithInstr → Ended
  | .add dst src val =>
    match if (t.machine.regs src).tag = TAG_STR then t.stringOperand val else none with
    | some s => .next (t.finish dst ⟨x.concat (t.machine.regs src).val s, TAG_STR⟩)
    | none => t.evaluate .add src val dst
  | .sub src val dst => t.evaluate .sub src val dst
  | .mul src val dst => t.evaluate .mul src val dst
  | .div src val dst =>
    if t.readIntOperand val = 0 then t.raiseRuntime x "division by zero"
    else t.evaluate .div src val dst
  | .shl src val dst => t.evaluate .shl src val dst
  | .shr src val dst => t.evaluate .shr src val dst
  | .rem src val dst =>
    if t.readIntOperand val = 0 then t.raiseRuntime x "remainder by zero"
    else t.evaluate .rem src val dst

def op : ArithInstr → IntOp
  | .add .. => .add
  | .sub .. => .sub
  | .mul .. => .mul
  | .div .. => .div
  | .shl .. => .shl
  | .shr .. => .shr
  | .rem .. => .rem

def src : ArithInstr → ℕ
  | .add _ s _ | .sub s _ _ | .mul s _ _ | .div s _ _ | .shl s _ _ | .shr s _ _ | .rem s _ _ => s

def val : ArithInstr → IntOperand
  | .add _ _ v | .sub _ v _ | .mul _ v _ | .div _ v _ | .shl _ v _ | .shr _ v _ | .rem _ v _ => v

def dst : ArithInstr → ℕ
  | .add d _ _ | .sub _ _ d | .mul _ _ d | .div _ _ d | .shl _ _ d | .shr _ _ d | .rem _ _ d => d

/-- The operands are numbers; an addition of two strings concatenates them. -/
def OnIntegers (i : ArithInstr) : Prop :=
  i.op = .add → (t.machine.regs i.src).tag = TAG_STR → t.stringOperand i.val = none

end ArithInstr

/-- The integer that an opcode computes, before it is reduced to 64 bits; none where it has no
result. -/
def IntOp.value (a b : ℤ) : IntOp → Option ℤ
  | add => some (a + b)
  | sub => some (a - b)
  | mul => some (a * b)
  | div => if b ≠ 0 ∧ Fits (a.tdiv b) then some (a.tdiv b) else none
  | rem => if b ≠ 0 ∧ Fits (a.tdiv b) then some (a.tmod b) else none
  | shl => if IsAmount b then some (a * 2 ^ b.toNat) else none
  | shr => if IsAmount b then some (a / 2 ^ b.toNat) else none

/-- The innermost handler has a new exception; the older objects are kept. -/
def Thread.Catches (t : Thread) (x : Metadata) (o : Ended) : Prop :=
  ∃ heap e message, t.machine.heap.valid e = false ∧ Kept t.machine.heap heap ∧
    IsException x heap message e ∧
    match t.exceptionHandlers with
    | [] => o = .uncaught heap e
    | h :: hs => ∃ t', o = .next t' ∧ t'.machine.heap = heap ∧ t'.machine.ip = h.targetIp ∧
        t'.machine.regs h.exceptionReg = ⟨BitVec.ofNat 64 e, TAG_HEAP⟩ ∧
        t'.exceptionHandlers = hs ∧ t'.machine.frames.length ≤ h.callDepth ∧
        t'.dataStack.length ≤ h.dataDepth

/-- An instruction has the result of its opcode, or throws an exception where there is none. -/
structure ArithInstr.Total (x : Metadata) (t : Thread) (i : ArithInstr) : Prop where
  value : ∀ v, i.op.value (t.machine.regs i.src).val.toInt (t.readIntOperand i.val).toInt = some v →
    i.exec x t = .next (t.finish i.dst ⟨BitVec.ofInt 64 v, TAG_INT⟩)
  raises : i.op.value (t.machine.regs i.src).val.toInt (t.readIntOperand i.val).toInt = none →
    t.Catches x (i.exec x t)

/-- The divisors that are checked for. -/
def IntOp.guard (b : BitVec 64) : IntOp → Option String
  | div => if b = 0 then some "division by zero" else none
  | rem => if b = 0 then some "remainder by zero" else none
  | _ => none

/-- The condition on the operands; a zero divisor needs room for an exception. -/
def IntOp.Defined (ready : Prop) (a b : ℤ) : IntOp → Prop
  | add => Fits (a + b)
  | sub => Fits (a - b)
  | mul => Fits (a * b)
  | div | rem => if b = 0 then ready else Fits (a.tdiv b)
  | shl | shr => IsAmount b

/-! ## Expressions -/

section Expressions

variable {a b w : BitVec 64} {op : IntOp}

theorem toInt_eq_zero_iff : b.toInt = 0 ↔ b = 0 := by
  rw [← BitVec.toInt_zero, BitVec.toInt_inj]
  rfl

theorem toNat_toInt_of_isAmount (h : IsAmount b.toInt) : b.toInt.toNat = b.toNat := by
  obtain ⟨h₀, h₁⟩ := h
  rw [BitVec.toInt_eq_toNat_cond] at h₀ h₁ ⊢
  split_ifs at h₀ h₁ ⊢ with hlt
  · exact Int.toNat_natCast _
  · have := b.isLt
    omega

theorem shiftLeft_eq_ofInt (n : ℕ) : a <<< n = BitVec.ofInt 64 (a.toInt * 2 ^ n) := by
  have hpow : BitVec.ofInt 64 (2 ^ n) = BitVec.ofNat 64 (2 ^ n) := by
    rw [← BitVec.ofInt_natCast]
    simp
  apply BitVec.eq_of_toNat_eq
  rw [BitVec.ofInt_mul, BitVec.ofInt_toInt, hpow, BitVec.toNat_mul, BitVec.toNat_ofNat,
    Nat.mul_mod_mod, BitVec.toNat_shiftLeft, Nat.shiftLeft_eq]

theorem sshiftRight_eq_ofInt (n : ℕ) : a.sshiftRight n = BitVec.ofInt 64 (a.toInt / 2 ^ n) := by
  rw [BitVec.sshiftRight_eq, Int.shiftRight_eq_div_pow]
  rfl

/-- A defined expression is the result of its opcode. -/
theorem value_of_expr (h : op.expr a b = some w) :
    ∃ v, op.value a.toInt b.toInt = some v ∧ w = BitVec.ofInt 64 v := by
  cases op <;> simp only [IntOp.expr, Option.ite_none_right_eq_some, Option.some.injEq] at h <;>
    obtain ⟨hdef, rfl⟩ := h
  case add => exact ⟨_, rfl, BitVec.eq_of_toInt_eq (by rw [BitVec.toInt_add, BitVec.toInt_ofInt])⟩
  case sub => exact ⟨_, rfl, BitVec.eq_of_toInt_eq (by rw [BitVec.toInt_sub, BitVec.toInt_ofInt])⟩
  case mul => exact ⟨_, rfl, BitVec.eq_of_toInt_eq (by rw [BitVec.toInt_mul, BitVec.toInt_ofInt])⟩
  case div =>
    refine ⟨_, if_pos ⟨toInt_eq_zero_iff.not.mpr hdef.1, hdef.2⟩, BitVec.eq_of_toInt_eq ?_⟩
    rw [BitVec.toInt_sdiv, BitVec.toInt_ofInt]
  case rem =>
    refine ⟨_, if_pos ⟨toInt_eq_zero_iff.not.mpr hdef.1, hdef.2⟩, ?_⟩
    rw [← BitVec.toInt_srem, BitVec.ofInt_toInt]
  case shl =>
    refine ⟨_, if_pos hdef, ?_⟩
    rw [toNat_toInt_of_isAmount hdef, shiftLeft_eq_ofInt]
  case shr =>
    refine ⟨_, if_pos hdef, ?_⟩
    rw [toNat_toInt_of_isAmount hdef, sshiftRight_eq_ofInt]

theorem expr_isSome_iff :
    (op.expr a b).isSome = true ↔ op.guard b = none ∧ op.Defined False a.toInt b.toInt := by
  cases op <;> by_cases hb : b = 0 <;>
    simp [IntOp.expr, IntOp.Defined, IntOp.guard, toInt_eq_zero_iff, hb]

/-- What is checked for has no result. -/
theorem value_of_guard {message : String} (h : op.guard b = some message) :
    op.value a.toInt b.toInt = none := by
  cases op <;> simp only [IntOp.guard, Option.ite_none_right_eq_some, reduceCtorEq] at h <;>
    exact if_neg fun hdef => hdef.1 (toInt_eq_zero_iff.mpr h.1)

theorem defined_iff {ready : Prop} : op.Defined ready a.toInt b.toInt ↔
    (∃ message, op.guard b = some message) ∧ ready ∨ (op.expr a b).isSome = true := by
  rw [expr_isSome_iff]
  cases op <;> by_cases hb : b = 0#64 <;> simp [IntOp.Defined, IntOp.guard, toInt_eq_zero_iff, hb]

end Expressions

/-! ## Exceptions -/

section Exceptions

variable {x : Metadata} {t : Thread}

theorem unwindCalls_spec (depth : ℕ) (fs : List CallFrame) (m : Machine) :
    (unwindCalls depth fs m).heap = m.heap ∧ (unwindCalls depth fs m).frames.length ≤ depth := by
  induction fs generalizing m with
  | nil => exact ⟨rfl, Nat.zero_le _⟩
  | cons f fs ih =>
    rw [unwindCalls]
    split
    · exact ih _
    · next hdepth => exact ⟨rfl, not_lt.mp hdepth⟩

theorem unwindData_spec (depth : ℕ) (ps : List (ℕ × Value)) (m : Machine) :
    (unwindData depth ps m).1.length ≤ depth ∧ (unwindData depth ps m).2.heap = m.heap ∧
      (unwindData depth ps m).2.frames = m.frames := by
  induction ps generalizing m with
  | nil => exact ⟨Nat.zero_le _, rfl, rfl⟩
  | cons p ps ih =>
    rw [unwindData]
    split
    · exact ih _
    · next hdepth => exact ⟨not_lt.mp hdepth, rfl, rfl⟩

theorem Thread.Catches.cases {o : Ended} (h : t.Catches x o) :
    (∃ heap e, o = .uncaught heap e) ∨ ∃ t', o = .next t' := by
  obtain ⟨heap, e, message, -, -, -, ho⟩ := h
  split at ho
  · exact .inl ⟨heap, e, ho⟩
  · obtain ⟨t', rfl, -⟩ := ho
    exact .inr ⟨t', rfl⟩

theorem catches_throwValue {heap : Heap} {e : ℕ} {message : String}
    (hnew : t.machine.heap.valid e = false) (hkept : Kept t.machine.heap heap)
    (he : IsException x heap message e) :
    t.Catches x ({ t with machine := { t.machine with heap := heap } }.throwValue e) := by
  refine ⟨heap, e, message, hnew, hkept, he, ?_⟩
  rw [Thread.throwValue]
  cases t.exceptionHandlers with
  | nil => rfl
  | cons h hs =>
    obtain ⟨hheap, hframes⟩ := unwindCalls_spec h.callDepth t.machine.frames
      { t.machine with heap := heap }
    obtain ⟨hdata, hheap', hframes'⟩ := unwindData_spec h.dataDepth t.dataStack
      (unwindCalls h.callDepth t.machine.frames { t.machine with heap := heap })
    refine ⟨_, rfl, hheap'.trans hheap, rfl, Function.update_self .., rfl, ?_, hdata⟩
    exact hframes' ▸ hframes

/-- The program can catch what is thrown exactly if the exception can be made. -/
theorem catches_raiseRuntime_iff (hs : t.machine.heap.Sound)
    (hroom : (t.machine.heap.takePayload 1).2.memorySize < 2 ^ 32) (message : String) :
    t.Catches x (t.raiseRuntime x message) ↔ ExceptionReady x t.machine.heap := by
  constructor
  · intro h
    by_contra hready
    rw [Thread.raiseRuntime, raiseRuntime_panic hready] at h
    obtain ⟨_, _, ho⟩ | ⟨_, ho⟩ := h.cases <;> cases ho
  · intro hready
    obtain ⟨heap, e, hraise, hnew, hkept, he⟩ := raiseRuntime_spec hs hroom hready message
    rw [Thread.raiseRuntime, hraise]
    exact catches_throwValue hnew hkept he

end Exceptions

/-! ## Instructions -/

section Instructions

variable {x : Metadata} {t : Thread} {i : ArithInstr}

theorem exec_eq (hint : i.OnIntegers t) :
    i.exec x t = match i.op.guard (t.readIntOperand i.val) with
      | some message => t.raiseRuntime x message
      | none => t.evaluate i.op i.src i.val i.dst := by
  cases i with
  | add dst src val =>
    have hval : (if (t.machine.regs src).tag = TAG_STR then t.stringOperand val else none) =
        none := ite_eq_right_iff.mpr (hint rfl)
    simp only [ArithInstr.exec, hval]
    rfl
  | div src val dst | rem src val dst =>
    by_cases hzero : t.readIntOperand val = 0 <;>
      simp only [ArithInstr.exec, ArithInstr.op, ArithInstr.val, IntOp.guard, hzero, if_true,
        if_false, ArithInstr.src, ArithInstr.dst]
  | _ => rfl

theorem ArithInstr.Total.ne_undefined (h : i.Total x t) : i.exec x t ≠ .undefined := by
  cases hv : i.op.value (t.machine.regs i.src).val.toInt (t.readIntOperand i.val).toInt with
  | some v =>
    rw [h.value v hv]
    exact nofun
  | none =>
    obtain ⟨_, _, ho⟩ | ⟨_, ho⟩ := (h.raises hv).cases <;>
      · rw [ho]
        exact nofun

/-- An instruction is total exactly if its exact result fits, its amount is in range, or its
divisor is zero and the exception can be made. -/
theorem total_iff_defined (hs : t.machine.heap.Sound)
    (hroom : (t.machine.heap.takePayload 1).2.memorySize < 2 ^ 32) (hint : i.OnIntegers t) :
    i.Total x t ↔ i.op.Defined (ExceptionReady x t.machine.heap)
      (t.machine.regs i.src).val.toInt (t.readIntOperand i.val).toInt := by
  rw [defined_iff]
  cases hguard : i.op.guard (t.readIntOperand i.val) with
  | some message =>
    have hexec : i.exec x t = t.raiseRuntime x message := by rw [exec_eq hint, hguard]
    have hnone := value_of_guard (a := (t.machine.regs i.src).val) hguard
    have hexpr : ((i.op.expr (t.machine.regs i.src).val (t.readIntOperand i.val)).isSome) ≠ true :=
      fun hsome => by simpa [hguard] using (expr_isSome_iff.mp hsome).1
    rw [or_iff_left hexpr, and_iff_right ⟨message, rfl⟩,
      ← catches_raiseRuntime_iff hs hroom message, ← hexec]
    constructor
    · exact fun h => h.raises hnone
    · exact fun h => ⟨fun v hv => (nomatch hnone.symm.trans hv), fun _ => h⟩
  | none =>
    have hexec : i.exec x t = t.evaluate i.op i.src i.val i.dst := by rw [exec_eq hint, hguard]
    rw [or_iff_right fun h => Option.some_ne_none _ h.1.choose_spec.symm]
    rw [Thread.evaluate] at hexec
    cases hexpr : i.op.expr (t.machine.regs i.src).val (t.readIntOperand i.val) with
    | none =>
      rw [hexpr] at hexec
      refine iff_of_false (fun h => ?_) Bool.false_ne_true
      have hstop := h.ne_undefined
      exact hstop hexec
    | some w =>
      rw [hexpr] at hexec
      obtain ⟨v, hv, rfl⟩ := value_of_expr hexpr
      refine iff_of_true ⟨fun v' hv' => ?_, fun hnone => ?_⟩ rfl
      · rw [hexec, Option.some.inj (hv.symm.trans hv')]
      · rw [hv] at hnone
        cases hnone

end Instructions

/-! ## A division by zero and an overflow -/

section Division

/-- Register 17 is divided in a `try` whose handler is at 3. -/
def dividing (v : BitVec 64) : Thread := ⟨atIndex v, [], [⟨3, 19, 0, 0⟩]⟩

theorem exceptionReady_twoElements : ExceptionReady exceptionMetadata twoElements.heap :=
  ⟨List.mem_singleton.mpr rfl, Or.inl rfl, by decide⟩

/-- A division by zero is caught. -/
theorem total_division_by_zero :
    (ArithInstr.div 17 (.imm 0) 18).Total exceptionMetadata (dividing 7) :=
  (total_iff_defined twoElements_sound (by decide) (fun h _ => IntOp.noConfusion h)).mpr
    exceptionReady_twoElements

/-- The quotient of the least number and `-1` does not fit. -/
theorem least_by_minus_one : ¬ ∀ (x : Metadata) (t : Thread) (i : ArithInstr),
    t.machine.heap.Sound → (t.machine.heap.takePayload 1).2.memorySize < 2 ^ 32 →
      ExceptionReady x t.machine.heap → i.OnIntegers t → i.Total x t := by
  intro h
  have htotal := h exceptionMetadata (dividing (BitVec.intMin 64)) (.div 17 (.imm (-1)) 18)
    twoElements_sound (by decide) exceptionReady_twoElements (fun h _ => IntOp.noConfusion h)
  exact htotal.ne_undefined rfl

end Division

end Loxis.Backend
