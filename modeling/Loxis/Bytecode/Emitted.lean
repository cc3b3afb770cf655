import Loxis.Bytecode.Sound

/-! # The emission function by function

Whatever is emitted for operands, values and statements is sound, and so is a terminator when it
has no more arguments than there are registers to stage them.
-/

namespace Loxis.Bytecode

open Listing
open Lowering (MirBinOp MirUnaryOp Operand Constant LocalId BlockId)

variable {b : MirBody} {W : Prop} {s t u v : Fresh} {items xs ys : List Item} {op : OpCode}
  {args : List Arg} {l : Label} {m : Emit (List Item)} {ms : List (Emit (List Item))} {r n i : ℕ}

section Values

theorem known_func (name : String) : Known b (.func name) := .inl ⟨name, rfl⟩

theorem known_target (id : BlockId) : Known b (target b id) := .inr ⟨id, rfl⟩

theorem emits_constant (hr : W → r < 4096) (c : Constant) : Emits b W (emitConstant r c) := by
  cases c with
  | str str =>
    intro s items t hm
    obtain ⟨idx, s₁, hidx, hm⟩ := bind_eq_ok hm
    obtain ⟨hlt, hle⟩ := internString_ok hidx
    obtain ⟨rfl, rfl⟩ := pure_eq_ok hm
    have hlt : idx < 4294967296 := hlt
    exact .plain (by simpa [plainItem_ins, operandCountFor, Arg.Fits, hlt] using hr) hle
  | int | uint | double | mono | bool | char =>
    exact .write (by simpa [plainItem_ins, operandCountFor, Arg.Fits] using hr)

theorem emits_operand (hr : W → r < 4096) (o : Operand) : Emits b W (emitOperandToReg b o r) := by
  cases o with
  | const c => exact emits_constant hr c
  | label l =>
    exact .write (by simpa [plainItem_ins, operandCountFor, Arg.Fits, known_func] using hr)
  | copy l | move l =>
    refine .local fun r' hr' => .write ?_
    split_ifs
    · simp
    · simpa [plainItem_ins, operandCountFor, Arg.Fits, hr'] using hr

theorem emits_argTo (hr : r < 4096) (as : List Operand) (i : ℕ) :
    Emits b W (emitArgTo b as i r) := by
  unfold emitArgTo
  split
  · exact emits_operand (fun _ => hr) _
  · exact .nil

theorem emits_from {reg : ℕ} (as : List Operand)
    (hr : W → ∀ i < as.length, (reg + i) % 2 ^ 16 < 4096) : Emits b W (emitFrom b reg as) := by
  induction as generalizing reg with
  | nil => exact .nil
  | cons a as ih =>
    have hhead : W → reg % 2 ^ 16 < 4096 := fun hw => hr hw 0 (Nat.succ_pos _)
    have htail : Emits b W (emitFrom b (reg + 1) as) := by
      refine ih fun hw i hi => ?_
      rw [Nat.add_assoc, Nat.add_comm 1]
      exact hr hw (i + 1) (Nat.succ_lt_succ hi)
    exact .cons (emits_operand hhead a) (.cons htail .done)

theorem plain_moveStaged {n : ℕ} (hn : W → n ≤ 3856) :
    ∀ x ∈ moveStaged n, PlainItem b W x := by
  intro x hx
  obtain ⟨i, hi, rfl⟩ := List.mem_map.mp hx
  rw [List.mem_range] at hi
  refine plainItem_ins.mpr ⟨fun _ _ => rfl, fun hw => ?_, by simp⟩
  have hn := hn hw
  have h1 : (i + 1) % 65536 < 4096 := by omega
  have h2 : (240 + i) % 65536 < 4096 := by omega
  simp [Arg.Fits, h1, h2]

theorem emits_staged {as : List Operand} (has : W → as.length ≤ 3856) :
    Emits b W (emitStaged b as) := by
  refine .cons (emits_from as fun hw i hi => ?_) (.cons (.write (plain_moveStaged has)) .done)
  have hlen := has hw
  omega

theorem emits_arguments (as : List Operand) : Emits b W (emitArguments b as) := by
  unfold emitArguments
  split_ifs with h
  · exact .throw _
  · exact emits_staged fun _ => by omega

theorem sound_comparison {op : MirBinOp} (hop : isComparison op = true) (hr : r < 4096)
    (s : Fresh) : Sound b W s (comparison op r s.cmpLabelId)
      { s with cmpLabelId := s.cmpLabelId + 1 } := by
  have hle : s.Le { s with cmpLabelId := s.cmpLabelId + 1 } := ⟨Nat.le_succ _, Nat.le_refl _⟩
  cases op with
  | eq | ne | lt | le | gt | ge =>
    refine ⟨⟨?_, fun _ => ?_, ?_⟩, hle, ?_, ?_⟩ <;>
      simp [comparison, setTrue, setFalse, jump, ins, mark, names, uses, code, Instr.labels,
        Fresh.Numbered, operandCountFor, Arg.Fits, hr]
  | add | sub | mul | div | rem | shl | shr | bitAnd | bitOr | bitXor | and | or =>
    exact absurd hop (by decide)

theorem plain_threeRegs {op : OpCode} {place l r : ℕ} (hp : place < 4096) (hl : l < 4096)
    (hr : r < 4096) (hop : ∀ code ip, operandCountFor code ip op = some 3) :
    PlainItem b W (threeRegs op place l r) := by
  unfold threeRegs
  split_ifs <;> simp [plainItem_ins, hop, Arg.Fits, hp, hl, hr]

theorem count_floatOp {op : MirBinOp} {fop : OpCode} (h : floatOp op = some fop)
    (code : List UInt8) (ip : ℕ) : operandCountFor code ip fop = some 3 := by
  cases op with
  | add | sub | mul | div =>
    obtain rfl := Option.some.inj h
    rfl
  | rem | shl | shr | bitAnd | bitOr | bitXor | and | or | eq | ne | lt | le | gt | ge => cases h

theorem count_intOp {op : MirBinOp} {opc : OpCode} (h : intOp op = some opc)
    (code : List UInt8) (ip : ℕ) : operandCountFor code ip opc = some 3 := by
  cases op with
  | add | sub | mul | div | rem | shl | shr | bitAnd | bitOr | bitXor =>
    obtain rfl := Option.some.inj h
    rfl
  | and | or | eq | ne | lt | le | gt | ge => cases h

theorem emits_binary {place : LocalId} (hr : r < 4096) (op : MirBinOp) (x y : Operand) :
    Emits b W (emitBinary b place r op x y) := by
  refine .cons (emits_operand (fun _ => by decide) x)
    (.cons (emits_operand (fun _ => by decide) y) (.cons ?_ .done))
  cases hfop : placeFloatOp b place op with
  | some fop =>
    have hcount : floatOp op = some fop := by
      unfold placeFloatOp at hfop
      split_ifs at hfop
      exact hfop
    refine .write ?_
    simp only [List.forall_mem_append, List.forall_mem_singleton]
    refine ⟨⟨?_, ?_⟩, plain_threeRegs hr (by decide) (by decide) (count_floatOp hcount)⟩
    · split_ifs <;> simp [plainItem_ins, operandCountFor, Arg.Fits]
    · split_ifs <;> simp [plainItem_ins, operandCountFor, Arg.Fits]
  | none =>
    cases hopc : intOp op with
    | some opc =>
      refine .write ?_
      rw [List.forall_mem_singleton]
      exact plain_threeRegs hr (by decide) (by decide) (count_intOp hopc)
    | none =>
      simp only
      split_ifs with hop
      · intro s items t hm
        obtain ⟨n, s₁, hn, hm⟩ := bind_eq_ok hm
        obtain ⟨rfl, rfl⟩ : s.cmpLabelId = n ∧
          { s with cmpLabelId := s.cmpLabelId + 1 } = s₁ := Prod.mk.inj (Except.ok.inj hn)
        obtain ⟨rfl, rfl⟩ := pure_eq_ok hm
        have hcmp : Sound b W s [ins .cmp [.reg 254, .reg 253]] s :=
          .plain (by simp [plainItem_ins, operandCountFor, Arg.Fits]) (.refl s)
        exact hcmp.append (sound_comparison hop hr s)
      · exact .throw _

/-- The number of a negation is given out before its operand is emitted. -/
theorem emits_not {place : LocalId} (hr : r < 4096) (o : Operand) :
    Emits b W (emitUnary b place r .not o) := by
  intro s items t hm
  obtain ⟨n, s₁, hn, hm⟩ := bind_eq_ok hm
  obtain ⟨rfl, rfl⟩ : s.notLabelId = n ∧ { s with notLabelId := s.notLabelId + 1 } = s₁ :=
    Prod.mk.inj (Except.ok.inj hn)
  obtain ⟨xs, u, ys, hc, hys, rfl⟩ := seq_cons_ok hm
  obtain ⟨rfl, rfl⟩ := write_ok (seq_one_ok hys)
  have hoperand := emits_operand (W := W) (fun _ => by decide) o _ _ _ hc
  have hle : s.Le { s with notLabelId := s.notLabelId + 1 } := ⟨Nat.le_refl _, Nat.le_succ _⟩
  refine hoperand.join (u := s) (v := { s with notLabelId := s.notLabelId + 1 }) ?_ hle (.refl _)
    (.refl s) hoperand.le (.inr (.refl _))
  refine ⟨⟨?_, fun _ => ?_, ?_⟩, hle, ?_, ?_⟩ <;>
    simp [setTrue, setFalse, jump, ins, mark, names, uses, code, Instr.labels, Fresh.Numbered,
      operandCountFor, Arg.Fits, hr]

theorem emits_unary {place : LocalId} (hr : r < 4096) (op : MirUnaryOp) (o : Operand) :
    Emits b W (emitUnary b place r op o) := by
  cases op with
  | neg =>
    refine .cons (emits_operand (fun _ => by decide) o) (.cons (.write ?_) .done)
    split_ifs <;> simp [plainItem_ins, setFalse, operandCountFor, Arg.Fits, hr]
  | not => exact emits_not hr o
  | toStr =>
    exact .cons (emits_operand (fun _ => by decide) o)
      (.cons (.write (by simp [plainItem_ins, operandCountFor, Arg.Fits, hr])) .done)
  | deref | ref | refMut => exact emits_operand (fun _ => hr) o

theorem emits_cells {w off val : ℕ} (hr : r < 4096) (hoff : off < 4096) (hval : val < 4096)
    (i : ℕ) (as : List Operand) : Emits b W (emitCells b w r off val i as) := by
  induction as generalizing i with
  | nil => exact .nil
  | cons a as ih =>
    refine .cons (.write ?_)
      (.cons (emits_operand (fun _ => hval) a) (.cons (.write ?_) (.cons (ih (i + 1)) .done)))
    · simp [plainItem_ins, operandCountFor, Arg.Fits, hoff]
    · simp [plainItem_ins, operandCountFor, Arg.Fits, hr, hoff, hval]

theorem emits_storeField {base : ℕ} (hb : base < 4096) (off : ℕ) (o : Operand) :
    Emits b W (emitStoreField b base off o) := by
  refine .cons (.write ?_)
    (.cons (emits_operand (fun _ => by decide) o) (.cons (.write ?_) .done))
  · simp [plainItem_ins, operandCountFor, Arg.Fits]
  · simp [plainItem_ins, operandCountFor, Arg.Fits, hb]

theorem emits_loadField {base : ℕ} (hb : base < 4096) (hr : r < 4096) (off : ℕ) :
    Emits b W (write (loadField base off r)) :=
  .write (by simp [loadField, plainItem_ins, operandCountFor, Arg.Fits, hb, hr])

theorem emits_rvalue (place : LocalId) (rv : Rvalue) : Emits b W (emitRvalue b place rv) := by
  refine .local fun r hr => ?_
  cases rv with
  | use o => exact emits_operand (fun _ => hr) o
  | binary op x y => exact emits_binary hr op x y
  | unary op o => exact emits_unary hr op o
  | cast o ty =>
    refine .cons (emits_operand (fun _ => by decide) o) (.cons (.write ?_) .done)
    split_ifs <;> simp [plainItem_ins, operandCountFor, Arg.Fits, hr]
  | ref l | ptr l =>
    refine .local fun src hsrc => .write ?_
    simp [plainItem_ins, operandCountFor, Arg.Fits, hr, hsrc]
  | alloc | globalLoad => exact .write (by simp [plainItem_ins, operandCountFor, Arg.Fits, hr])
  | closure name ty captures =>
    refine .cons (.write ?_)
      (.cons (emits_cells hr (by decide) (by decide) 0 captures) .done)
    simp [plainItem_ins, operandCountFor, Arg.Fits, hr, known_func]
  | closureGet | field => exact .local fun base hbase => emits_loadField hbase hr _
  | closureSet offset value | hStore offset value => exact emits_storeField hr _ value
  | aggregate kind ops =>
    cases kind with
    | array =>
      refine .cons (.write ?_) (.cons (emits_cells hr (by decide) (by decide) 0 _) .done)
      simp [plainItem_ins, operandCountFor, Arg.Fits, hr]
    | tuple | adt => exact .throw _
  | index l idx =>
    refine .local fun base hbase =>
      .cons (emits_operand (fun _ => by decide) idx) (.cons (.write ?_) .done)
    simp [elementOffset, plainItem_ins, operandCountFor, Arg.Fits, hr, hbase]
  | indexStore idx value =>
    refine .cons (emits_operand (fun _ => by decide) idx) (.cons (.write ?_)
      (.cons (emits_operand (fun _ => by decide) value) (.cons (.write ?_) .done)))
    · simp [elementOffset, plainItem_ins, operandCountFor, Arg.Fits]
    · simp [plainItem_ins, operandCountFor, Arg.Fits, hr]
  | isCheck | typeId | vTableSlot =>
    refine .local fun obj hobj => .write ?_
    simp [plainItem_ins, operandCountFor, Arg.Fits, hr, hobj]
  | globalStore slot value =>
    refine .cons (emits_operand (fun _ => hr) value) (.cons (.write ?_) .done)
    simp [plainItem_ins, operandCountFor, Arg.Fits, hr]
  | len | discriminant => exact .throw _

theorem emits_statement (st : Statement) : Emits b W (emitStatement b st) := by
  cases st with
  | assign place rv => exact emits_rvalue place rv
  | storageLive | storageDead | drop | tryPop =>
    exact .write (by simp [plainItem_ins, operandCountFor])
  | setDiscriminant => exact .throw _
  | push | pop =>
    exact .local fun r hr => .write (by simp [plainItem_ins, operandCountFor, Arg.Fits, hr])
  | globalStore slot value | throw value =>
    refine .cons (emits_operand (fun _ => by decide) value) (.cons (.write ?_) .done)
    simp [plainItem_ins, operandCountFor, Arg.Fits]
  | tryPush handler l =>
    refine .local fun r hr => .write ?_
    simp [plainItem_ins, operandCountFor, Arg.Fits, hr, known_target]

theorem emits_statements (sts : List Statement) :
    Emits b W (seq (sts.map (emitStatement b))) := by
  induction sts with
  | nil => exact .done
  | cons st sts ih => exact .cons (emits_statement st) ih

end Values

section Terminators

/-- The arguments that a terminator stages in registers without a limit on their number. -/
def Terminator.staged : Terminator → ℕ
  | .call func args _ _ => if (findInPlace (funcLabel func)).isNone then args.length else 0
  | .callIndirect _ args _ _ | .closureCall _ args _ _ => args.length
  | _ => 0

theorem emits_inPlace (as : List Operand) (f : InPlace) : Emits b W (emitInPlace b as f) := by
  have arg (r : ℕ) (hr : r < 4096) (i : ℕ) : Emits b W (emitArgTo b as i r) :=
    emits_argTo hr as i
  cases f with
  | print | write =>
    refine .cons (arg 254 (by decide) 0) (.cons (.write ?_) .done)
    simp [plainItem_ins, operandCountFor, Arg.Fits]
  | alloc | hFree =>
    refine .cons (arg 251 (by decide) 0) (.cons (.write ?_) .done)
    simp [plainItem_ins, operandCountFor, Arg.Fits]
  | hStore =>
    refine .cons (arg 251 (by decide) 0) (.cons (arg 252 (by decide) 1)
      (.cons (arg 253 (by decide) 2) (.cons (.write ?_) .done)))
    simp [plainItem_ins, operandCountFor, Arg.Fits]
  | hLoad =>
    refine .cons (arg 251 (by decide) 0) (.cons (arg 252 (by decide) 1) (.cons (.write ?_) .done))
    simp [plainItem_ins, operandCountFor, Arg.Fits]
  | one op h =>
    have hop : ∀ code ip, operandCountFor code ip op = some 2 := by
      simp only [List.mem_cons, List.not_mem_nil, or_false] at h
      rcases h with rfl | rfl | rfl | rfl | rfl <;> exact fun _ _ => rfl
    refine .cons (arg 253 (by decide) 0) (.cons (.write ?_) .done)
    simp [plainItem_ins, hop, Arg.Fits]
  | two op h =>
    have hop : ∀ code ip, operandCountFor code ip op = some 3 := by
      simp only [List.mem_cons, List.not_mem_nil, or_false] at h
      rcases h with rfl | rfl | rfl | rfl <;> exact fun _ _ => rfl
    refine .cons (arg 252 (by decide) 0) (.cons (arg 253 (by decide) 1) (.cons (.write ?_) .done))
    rw [List.forall_mem_singleton]
    exact plain_threeRegs (by decide) (by decide) (by decide) hop
  | staged n =>
    refine .cons (.write ?_) (.cons (emits_staged fun _ => ?_) (.cons (.write ?_) .done))
    · simp [syscallNumber, plainItem_ins, operandCountFor, Arg.Fits]
    · exact (List.length_take_le 4 as).trans (by decide)
    · simp [plainItem_ins, operandCountFor, Arg.Fits]
  | single n =>
    refine .cons (.write ?_) (.cons (arg 1 (by decide) 0) (.cons (.write ?_) .done))
    · simp [syscallNumber, plainItem_ins, operandCountFor, Arg.Fits]
    · simp [plainItem_ins, operandCountFor, Arg.Fits]
  | native n =>
    refine .cons (.write ?_) (.cons (emits_arguments as) (.cons (.write ?_) .done))
    · simp [syscallNumber, plainItem_ins, operandCountFor, Arg.Fits]
    · simp [plainItem_ins, operandCountFor, Arg.Fits]
  | syscall =>
    refine .cons (arg 251 (by decide) 0) (.cons (emits_from _ fun _ i hi => ?_)
      (.cons (.write ?_) .done))
    · have hlen := List.length_take_le 4 (as.drop 1)
      omega
    · simp [plainItem_ins, operandCountFor, Arg.Fits]

theorem emits_jump (id : BlockId) : Emits b W (write [jump (target b id)]) :=
  .write (by simp [jump, plainItem_ins, operandCountFor, Arg.Fits, known_target])

theorem emits_call {f : String} {as : List Operand} (ret : BlockId)
    (has : findInPlace f = none → W → as.length ≤ 3856) : Emits b W (emitCall b f as ret) := by
  unfold emitCall
  split
  · exact .cons (emits_inPlace as _) (.cons (emits_jump ret) .done)
  · rename_i hf
    refine .cons (emits_staged (has hf)) (.cons (.write ?_) .done)
    simp [jump, plainItem_ins, operandCountFor, Arg.Fits, known_target, known_func]

theorem emits_indirect {as : List Operand} (o : Operand) (ret : BlockId)
    (has : W → as.length ≤ 3856) : Emits b W (emitIndirect b o as ret) := by
  refine .cons (emits_operand (fun _ => by decide) o) (.cons (emits_staged has)
    (.cons (.write ?_) .done))
  simp [jump, plainItem_ins, operandCountFor, Arg.Fits, known_target]

theorem emits_terminator {term : Terminator} (h : W → term.staged ≤ 3856) :
    Emits b W (emitTerminator b term) := by
  cases term with
  | goto id => exact emits_jump id
  | switchDiscr l ids id => exact emits_jump id
  | switchInt o values id =>
    refine .cons (emits_operand (fun _ => by decide) o) (.cons (.write ?_) .done)
    simp only [List.forall_mem_append, List.forall_mem_singleton, List.forall_mem_flatMap]
    constructor
    · intro p hp
      simp [switchArm, plainItem_ins, operandCountFor, Arg.Fits, known_target]
    · simp [jump, plainItem_ins, operandCountFor, Arg.Fits, known_target]
  | return_ => exact .write (by simp [plainItem_ins, operandCountFor])
  | call func as dest ret =>
    refine emits_call ret fun hf hw => ?_
    have hlen := h hw
    rwa [Terminator.staged, hf] at hlen
  | callIndirect o as dest ret | closureCall o as dest ret => exact emits_indirect o ret h
  | checkNull o x y =>
    refine .cons (emits_operand (fun _ => by decide) o) (.cons (.write ?_) .done)
    simp [jump, plainItem_ins, operandCountFor, Arg.Fits, known_target]
  | virtualCall recv slot as dest ret | interfaceCall recv iface method as dest ret =>
    refine .cons (emits_arguments as) (.cons (.write ?_) .done)
    simp [plainItem_ins, operandCountFor, Arg.Fits, known_target]
  | unreachable =>
    refine .cons (emits_operand (fun _ => by decide) _) (.cons (.write ?_) .done)
    simp [syscallNumber, plainItem_ins, operandCountFor, Arg.Fits]

end Terminators

end Loxis.Bytecode
