import Loxis.Backend.Straight

/-! # Calls

A call terminator hands over its arguments when at the entry of the called body the
parameters hold them, and a return finds the caller's locals as they were. This holds
for every call with few enough arguments, how many depends on the shape of the call.
-/

namespace Loxis.Backend

open Function
open Loxis.Vm (Heap TAG_HEAP)

/-- The call hands the values over to the body `d` and comes back to block `ret` of `b`: at the
entry of `d` its parameters hold the values, and when a return leaves that frame the locals of `b`
are as before the call and register 0 is as `d` left it. -/
def Faithful (c : Chunk) (A : String → ℕ) (m : Machine) (b d : MirBody) (ret : ℕ)
    (vs : List Value) : Prop :=
  ∃ m', m.Steps c m' ∧ m'.ip = A d.name + d.paramCount ∧
    (∀ i v, vs[i]? = some v → m'.regs (regOf (i + 1)) = v) ∧
    ∃ f, m'.frames = f :: m.frames ∧
      ∀ r : Machine, r.frames = m'.frames → c.code[r.ip]? = some .ret →
        ∃ r', r.Steps c r' ∧ r'.ip = A (blockLabel b.name ret) ∧ r'.frames = m.frames ∧
          r'.regs 0 = r.regs 0 ∧ ∀ l, 0 < l → l < b.locals → r'.regs (regOf l) = m.regs (regOf l)

inductive CallShape | direct | indirect | closure | virtual | interface
  deriving DecidableEq

/-- The terminator has the shape and `n` arguments, and names the body `d`, which takes the
values. -/
def Names (g : Surroundings) (out : LoweringOutput) (A : String → ℕ) (m : Machine)
    (d : MirBody) (args : List Operand) (ret : ℕ) (vs : List Value) :
    CallShape → Terminator → Prop
  | .direct, t => ∃ func, t = .call func args ret ∧ funcLabel func = d.name ∧
      vs = args.map (Operand.value g A m.regs)
  | .indirect, t => ∃ p, t = .callIndirect p args ret ∧
      (p.value g A m.regs).tag ≠ TAG_HEAP ∧
      (p.value g A m.regs).val.toNat % 2 ^ 32 = A d.name ∧
      vs = args.map (Operand.value g A m.regs)
  | .closure, t => ∃ p fn, t = .closureCall p args ret ∧
      (p.value g A m.regs).tag = TAG_HEAP ∧
      m.heap.loadCell ((p.value g A m.regs).val.toNat % 2 ^ 32) 0 = some fn ∧
      fn.1.toNat % 2 ^ 32 = A d.name ∧
      vs = p.value g A m.regs :: args.map (Operand.value g A m.regs)
  | .virtual, t => ∃ recv slot lc, t = .virtualCall recv slot args ret ∧
      args.head? = some (.copy recv) ∧ lc ∈ out.numbered ∧
      lc.typeId = m.heap.getTypeId ((m.regs (regOf recv)).val.toNat % 2 ^ 32) ∧
      lc.vtableMethodNames[slot]? = some d.name ∧
      vs = args.map (Operand.value g A m.regs)
  | .interface, t => ∃ recv iface method lc ite sm, t = .interfaceCall recv iface method args ret ∧
      args.head? = some (.copy recv) ∧ lc ∈ out.numbered ∧
      lc.typeId = m.heap.getTypeId ((m.regs (regOf recv)).val.toNat % 2 ^ 32) ∧
      lc.itables.find? (fun ite => ite.1 = iface ∧ method < ite.2.length) = some ite ∧
      ite.2[method]? = some sm ∧ lc.vtableMethodNames[sm]? = some d.name ∧
      vs = args.map (Operand.value g A m.regs)

/-- The machine stands before a call of a compiled program. Class numbers are distinct, and the
called body has code and takes as many arguments as it gets. -/
structure CallSite (g : Surroundings) (out : LoweringOutput) (bodies : List Emitted) (c : Chunk)
    (m : Machine) (b d : MirBody) (args : List Operand) (ret : ℕ) (vs : List Value)
    (s : CallShape) : Prop extends Compiled g out bodies c where
  classes : (out.numbered.map LoweredClass.typeId).Nodup
  caller : b ∈ out.bodies
  callee : d ∈ out.bodies
  function : d.name ∉ inPlace
  arity : d.paramCount = vs.length
  nonempty : d.blocks ≠ []
  resume : ret < b.blocks.length
  standing : ∃ k stmts t, b.blocks[k]? = some ⟨stmts, t⟩ ∧
    m.ip = address out bodies (blockLabel b.name k) + stmts.length ∧
    Names g out (address out bodies) m d args ret vs s t

/-- Every call of the shape with `n` arguments is faithful. -/
def Meets (s : CallShape) (n : ℕ) : Prop :=
  ∀ g out bodies c m b d args ret vs, CallSite g out bodies c m b d args ret vs s →
    args.length = n → Faithful c (address out bodies) m b d ret vs

section Frame

variable {c : Chunk} {m r : Machine} {l k M : ℕ} {rs f : ℕ → Value}

theorem foldl_update (xs : List ℕ) (f rs : ℕ → Value) (k : ℕ) :
    ((xs.map fun r => (r, f r)).foldl (fun rs p => update rs p.1 p.2) rs) k =
      if k ∈ xs then f k else rs k := by
  induction xs generalizing rs with
  | nil => rfl
  | cons x xs ih =>
    rw [List.map_cons, List.foldl_cons, ih, update_apply]
    by_cases hk : k ∈ xs
    · simp [hk]
    · by_cases hx : k = x
      · simp [hx]
      · simp [hk, hx]

theorem foldl_clear (xs : List ℕ) (v : Value) (rs : ℕ → Value) (hk : k ∉ xs) :
    xs.foldl (fun rs r => update rs r v) rs k = rs k := by
  induction xs generalizing rs with
  | nil => rfl
  | cons x xs ih =>
    rw [List.mem_cons, not_or] at hk
    rw [List.foldl_cons, ih _ hk.2, update_of_ne hk.1]

theorem mem_savedRegs : k ∈ Machine.savedRegs M ↔ 16 ≤ k ∧ k ≤ M ∧ (k < 240 ∨ 256 ≤ k) := by
  simp only [Machine.savedRegs, List.mem_filter, List.mem_range'_1, decide_eq_true_eq]
  omega

/-- A frame saves the registers of all locals. -/
theorem regOf_mem_savedRegs {b : MirBody} (h : maxLocalRegister b = .ok M) (h₀ : 0 < l)
    (hl : l < b.locals) : regOf l ∈ Machine.savedRegs M := by
  rw [maxLocalRegister, if_neg (by omega)] at h
  obtain ⟨hlt, rfl⟩ := localToReg_eq_ok.mp h
  rw [mem_savedRegs]
  unfold regOf
  split_ifs <;> omega

/-- A return restores the saved registers and keeps the result. -/
theorem ret_step {fs : List CallFrame} {ra : ℕ} (hc : c.code[r.ip]? = some .ret)
    (hr : r.frames = ⟨ra, (Machine.savedRegs M).map fun k => (k, f k)⟩ :: fs) :
    ∃ r', r.step c = some r' ∧ r'.ip = ra ∧ r'.frames = fs ∧ r'.regs 0 = r.regs 0 ∧
      ∀ k ∈ Machine.savedRegs M, r'.regs k = f k := by
  refine ⟨{ r.restoreCallFrame ⟨ra, (Machine.savedRegs M).map fun k => (k, f k)⟩ with
    frames := fs, ip := ra }, ?_, rfl, rfl, ?_, fun k hk => ?_⟩
  · unfold Machine.step
    rw [hc]
    simp only [Instr.regs, List.all_nil, if_true, hr]
  · simp only [Machine.restoreCallFrame]
    rw [foldl_update, if_neg (by simp [mem_savedRegs]), foldl_clear _ _ _ (by decide)]
  · simp only [Machine.restoreCallFrame]
    rw [foldl_update, if_pos hk]

theorem jump_step {a : ℕ} (hc : c.code[r.ip]? = some (.jmp a)) (ha : a < c.code.length) :
    r.step c = some { r with ip := a } := by
  unfold Machine.step
  rw [hc]
  simp [Instr.regs, Machine.jump, ha]

end Frame

section Entry

variable {g : Surroundings} {out : LoweringOutput} {bodies : List Emitted} {c : Chunk}
  {m m₂ : Machine} {b d : MirBody} {e : Emitted} {vs : List Value} {ret : ℕ}

/-- The entry of a body hands the arguments in the low registers over to the parameters. -/
theorem enter (h : Placed g out bodies c d e) (hd : d.name ≠ "print") (hn : d.paramCount ≤ 15)
    (hlen : d.paramCount = vs.length) (hip : m₂.ip = address out bodies d.name)
    (hv : ∀ i v, vs[i]? = some v → m₂.regs (i + 1) = v) :
    ∃ m', m₂.Steps c m' ∧ m'.ip = address out bodies d.name + d.paramCount ∧
      (∀ i v, vs[i]? = some v → m'.regs (regOf (i + 1)) = v) ∧ m'.frames = m₂.frames := by
  obtain ⟨hl, hs, he⟩ := prologue_spec (A := address out bodies) h.emits.prologue
    (by omega : 0 + d.paramCount ≤ 15)
  have hslice := h.prologue hd
  rw [← hip] at hslice
  refine ⟨_, Machine.steps_straight hslice hs, ?_, fun i v hi => ?_, rfl⟩
  · simp [hip, hl]
  · have hlt : i < vs.length := (List.getElem?_eq_some_iff.mp hi).1
    have hr : regOf (i + 1) = 16 + i := by
      rw [regOf, if_neg (by omega), if_pos (by omega)]
      omega
    rw [hr]
    simp only
    rw [he, if_pos (by omega), ← hv i v hi]
    congr 1
    omega

/-- A call whose arguments are in the low registers, and whose frame saves the caller's locals, is
faithful. -/
theorem faithful_of_entered {ra M : ℕ} (hd : Placed g out bodies c d e) (hname : d.name ≠ "print")
    (hn : d.paramCount ≤ 15) (hlen : d.paramCount = vs.length) (hM : maxLocalRegister b = .ok M)
    (hsteps : m.Steps c m₂) (hip : m₂.ip = address out bodies d.name)
    (hframes : m₂.frames = ⟨ra, (Machine.savedRegs M).map fun k => (k, m₂.regs k)⟩ :: m.frames)
    (hkeep : ∀ k, 16 ≤ k → k < 240 ∨ 256 ≤ k → m₂.regs k = m.regs k)
    (hv : ∀ i v, vs[i]? = some v → m₂.regs (i + 1) = v)
    (hra : ra = address out bodies (blockLabel b.name ret) ∨
      c.code[ra]? = some (.jmp (address out bodies (blockLabel b.name ret))))
    (hlt : address out bodies (blockLabel b.name ret) < c.code.length) :
    Faithful c (address out bodies) m b d ret vs := by
  obtain ⟨m', hs', hip', hp, hf⟩ := enter hd hname hn hlen hip hv
  refine ⟨m', hsteps.trans hs', hip', hp, _, hf.trans hframes, fun r hr hret => ?_⟩
  obtain ⟨r', hstep, hrip, hrf, hr0, hrk⟩ := ret_step hret (hr.trans (hf.trans hframes))
  have hlocals : ∀ l, 0 < l → l < b.locals → r'.regs (regOf l) = m.regs (regOf l) :=
    fun l h₀ hl => by
      have hmem := regOf_mem_savedRegs hM h₀ hl
      obtain ⟨h₁, -, h₂⟩ := mem_savedRegs.mp hmem
      rw [hrk _ hmem, hkeep _ h₁ h₂]
  rcases hra with rfl | hjmp
  · exact ⟨r', .single hstep, hrip, hrf, hr0, hlocals⟩
  · rw [← hrip] at hjmp
    exact ⟨_, .tail (.single hstep) (jump_step hjmp hlt), rfl, hrf, hr0, hlocals⟩

end Entry

section Site

variable {g : Surroundings} {out : LoweringOutput} {bodies : List Emitted} {c : Chunk}
  {m m₁ m₂ : Machine} {b d : MirBody} {args : List Operand} {vs : List Value} {ret a ra M : ℕ}
  {s : CallShape}

/-- The terminator that the machine stands before, and its code. -/
theorem CallSite.code (h : CallSite g out bodies c m b d args ret vs s) :
    ∃ t code M, Names g out (address out bodies) m d args ret vs s t ∧
      emitTerminator g b t = .ok code ∧
      Slice c m.ip (code.map (Instr.map (address out bodies))) ∧ maxLocalRegister b = .ok M ∧
      ∀ m' : Machine, m.ip ≤ m'.ip → m'.ip < m.ip + code.length → m'.frameMaximum c = M := by
  obtain ⟨e, he⟩ := h.toCompiled.placed h.caller
  obtain ⟨k, stmts, t, hk, hip, hn⟩ := h.standing
  obtain ⟨code, hok, hs, hf⟩ := he.block k _ hk
  simp only [emitBlock, bind, Except.bind] at hok
  split at hok
  · cases hok
  · next tc htc =>
    cases hok
    rw [List.map_append] at hs
    have hs := hs.append.2
    rw [List.length_map, ← hip] at hs
    refine ⟨t, tc, e.maxReg, hn, htc, hs, he.emits.maxReg, fun m' h₁ h₂ => hf m' (by omega) ?_⟩
    rw [List.length_append]
    omega

theorem CallSite.name_ne (h : CallSite g out bodies c m b d args ret vs s) :
    d.name ≠ "print" := fun he => h.function (by rw [he]; decide)

theorem CallSite.resume_lt (h : CallSite g out bodies c m b d args ret vs s) :
    address out bodies (blockLabel b.name ret) < c.code.length := by
  obtain ⟨e, he⟩ := h.toCompiled.placed h.caller
  exact he.block_lt h.resume

/-- The machine after a call instruction. -/
def called (m : Machine) (M ra a : ℕ) (rs : ℕ → Value) : Machine :=
  { m with
    regs := rs
    frames := ⟨ra, (Machine.savedRegs M).map fun k => (k, rs k)⟩ :: m.frames
    ip := a }

theorem call_step (hc : c.code[m.ip]? = some (.call a)) (hM : m.frameMaximum c = M)
    (ha : a < c.code.length) : m.step c = some (called m M (m.ip + 1) a m.regs) := by
  unfold Machine.step
  rw [hc]
  simp [Instr.regs, Machine.jump, Machine.pushCallFrame, hM, ha, called]

theorem direct_faithful (h : CallSite g out bodies c m b d args ret vs .direct)
    (hn : args.length ≤ 15) : Faithful c (address out bodies) m b d ret vs := by
  obtain ⟨t, code, M, ⟨func, rfl, hfn, rfl⟩, hok, hs, hM, hf⟩ := h.code
  obtain ⟨e, he⟩ := h.toCompiled.placed h.callee
  have hlen := h.arity
  rw [List.length_map] at hlen
  rw [emitTerminator, hfn, if_neg h.function] at hok
  simp only [bind, Except.bind] at hok
  split at hok
  · cases hok
  · next cs hcs =>
    cases hok
    obtain ⟨hstr, -, heff⟩ := deliver (A := address out bodies) hcs hn
    obtain ⟨hv, hk⟩ := heff m.regs
    rw [List.map_append] at hs
    obtain ⟨hs₁, hs₂⟩ := hs.append
    obtain ⟨hcall, hs₃⟩ := hs₂.getElem
    obtain ⟨hjmp, -⟩ := hs₃.getElem
    have hsteps := Machine.steps_straight hs₁ hstr
    set m₁ : Machine := { m with
      regs := effects ((cs ++ moveStaged args.length).map (Instr.map (address out bodies))) m.regs
      ip := m.ip + ((cs ++ moveStaged args.length).map (Instr.map (address out bodies))).length }
    have hMf : m₁.frameMaximum c = M := hf m₁ (Nat.le_add_right _ _) (by
      simp only [m₁, List.length_map, List.length_append]
      simp)
    have hstep := call_step (m := m₁) hcall hMf (he.entry_lt h.name_ne h.nonempty)
    refine faithful_of_entered he h.name_ne (by omega) h.arity hM (hsteps.tail hstep) rfl rfl
      (fun k h₁ h₂ => hk k (by omega) (by omega)) (fun i v hi => ?_) (Or.inr hjmp) h.resume_lt
    rw [List.getElem?_map, Option.map_eq_some_iff] at hi
    obtain ⟨op, hop, rfl⟩ := hi
    exact hv i op hop

theorem callInd_step {reg n : ℕ} (hc : c.code[m.ip]? = some (.callInd reg n))
    (hreg : reg < 4096) (hM : m.frameMaximum c = M) {rs : ℕ → Value}
    (hi : m.indirect reg n = some (a, { m with regs := rs })) (ha : a < c.code.length) :
    m.step c = some (called m M (m.ip + 1) a rs) := by
  have hM' : Machine.frameMaximum c { m with regs := rs } = M := hM
  unfold Machine.step
  rw [hc]
  simp [Instr.regs, hreg, hi, Machine.jump, Machine.pushCallFrame, hM', ha, called]

/-- What the code of an indirect call does up to the call instruction. -/
theorem indirect_staged {p : Operand} {code : List (Instr String)} {A : String → ℕ}
    (hok : emitTerminator g b (.callIndirect p args ret) = .ok code)
    (hn : args.length ≤ 10) (hs : Slice c m.ip (code.map (Instr.map A))) :
    ∃ m₁ : Machine, m.Steps c m₁ ∧ m.ip ≤ m₁.ip ∧ m₁.ip + 1 < m.ip + code.length ∧
      m₁.frames = m.frames ∧ m₁.heap = m.heap ∧
      c.code[m₁.ip]? = some (.callInd 250 args.length) ∧
      c.code[m₁.ip + 1]? = some (.jmp (A (blockLabel b.name ret))) ∧
      m₁.regs 250 = p.value g A m.regs ∧
      (∀ i v, (args.map (Operand.value g A m.regs))[i]? = some v → m₁.regs (i + 1) = v) ∧
      ∀ k, 16 ≤ k → k < 240 ∨ 256 ≤ k → m₁.regs k = m.regs k := by
  simp only [emitTerminator, bind, Except.bind] at hok
  split at hok
  · cases hok
  · next pc hpc =>
    split at hok
    · cases hok
    · next cs hcs =>
      cases hok
      obtain ⟨hstr₀, heff₀, -⟩ := emitOperandToReg_spec (A := A) hpc (by decide)
      obtain ⟨hstr₁, hst, heff₁⟩ := deliver (A := A) hcs (by omega)
      obtain ⟨hv, hk⟩ := heff₁ (update m.regs 250 (p.value g A m.regs))
      rw [List.append_assoc pc, List.map_append, List.map_append] at hs
      obtain ⟨hs₁, hs₂⟩ := hs.append
      obtain ⟨hcall, hs₃⟩ := hs₂.getElem
      obtain ⟨hjmp, -⟩ := hs₃.getElem
      have hsteps := Machine.steps_straight hs₁ fun x hx =>
        (List.mem_append.mp hx).elim (hstr₀ x) (hstr₁ x)
      refine ⟨_, hsteps, Nat.le_add_right _ _, by simp; omega, rfl, rfl, hcall, hjmp, ?_,
        fun i v hi => ?_, fun k h₁ h₂ => ?_⟩
      · simp only
        rw [effects_append, heff₀, hk 250 (by omega) (by omega), update_self]
      · rw [List.getElem?_map, Option.map_eq_some_iff] at hi
        obtain ⟨op, hop, rfl⟩ := hi
        simp only
        rw [effects_append, heff₀, hv i op hop]
        exact hst op (List.mem_of_getElem? hop) _ _ fun k hk => update_of_ne (by omega) _ _
      · simp only
        rw [effects_append, heff₀, hk k (by omega) (by omega), update_of_ne (by omega)]

theorem indirect_faithful (h : CallSite g out bodies c m b d args ret vs .indirect)
    (hn : args.length ≤ 10) : Faithful c (address out bodies) m b d ret vs := by
  obtain ⟨t, code, M, ⟨p, rfl, htag, htgt, rfl⟩, hok, hs, hM, hf⟩ := h.code
  obtain ⟨e, he⟩ := h.toCompiled.placed h.callee
  have hlen := h.arity
  rw [List.length_map] at hlen
  obtain ⟨m₁, hsteps, hle, hlt, hfr, hheap, hcall, hjmp, hp, hv, hk⟩ :=
    indirect_staged hok hn hs
  have hi : m₁.indirect 250 args.length =
      some (address out bodies d.name, { m₁ with regs := m₁.regs }) := by
    rw [Machine.indirect, Machine.handle, hp, if_neg htag, htgt]
  have hstep := callInd_step hcall (by decide) (hf m₁ hle (by omega)) hi
    (he.entry_lt h.name_ne h.nonempty)
  exact faithful_of_entered he h.name_ne (by omega) h.arity hM (hsteps.tail hstep) rfl
    (by rw [called, hfr]) hk hv (Or.inr hjmp) h.resume_lt

theorem closure_faithful (h : CallSite g out bodies c m b d args ret vs .closure)
    (hn : args.length ≤ 10) : Faithful c (address out bodies) m b d ret vs := by
  obtain ⟨t, code, M, ⟨p, fn, rfl, htag, hcell, htgt, rfl⟩, hok, hs, hM, hf⟩ := h.code
  obtain ⟨e, he⟩ := h.toCompiled.placed h.callee
  have hlen := h.arity
  rw [List.length_cons, List.length_map] at hlen
  obtain ⟨m₁, hsteps, hle, hlt, hfr, hheap, hcall, hjmp, hp, hv, hk⟩ := indirect_staged hok hn hs
  have hshift := shiftArgs_eq (show args.length ≤ 254 by omega) m₁.regs
  set rs := update (Machine.shiftArgs args.length m₁.regs) 1
    (p.value g (address out bodies) m.regs) with hrs
  have hi : m₁.indirect 250 args.length =
      some (address out bodies d.name, { m₁ with regs := rs }) := by
    rw [Machine.indirect, Machine.handle, hp, if_pos htag, hheap, hcell, hrs, ← htgt]
    simp only [Option.map_some]
    rw [hshift 250, if_neg (by omega), hp]
  have hstep := callInd_step hcall (by decide) (hf m₁ hle (by omega)) hi
    (he.entry_lt h.name_ne h.nonempty)
  refine faithful_of_entered he h.name_ne (by omega) h.arity hM (hsteps.tail hstep) rfl
    (by rw [called, hfr]) (fun k h₁ h₂ => ?_) (fun i v hi => ?_) (Or.inr hjmp) h.resume_lt
  · simp only [called]
    rw [hrs, update_of_ne (by omega), hshift, if_neg (by omega)]
    exact hk k h₁ h₂
  · simp only [called]
    cases i with
    | zero =>
      rw [← Option.some.inj hi, hrs]
      exact update_self _ _ _
    | succ i =>
      have hlt : i < args.length := by simpa using (List.getElem?_eq_some_iff.mp hi).1
      rw [hrs, update_of_ne (by omega), hshift, if_pos (by omega)]
      exact hv i v hi

/-- What the code of a virtual call does up to the call instruction. -/
theorem dispatch_staged {A : String → ℕ} {cs : List (Instr String)} {x : Instr String}
    (hok : emitArguments g b args = .ok cs) (hs : Slice c m.ip ((cs ++ [x]).map (Instr.map A))) :
    args.length ≤ 10 ∧ ∃ m₁ : Machine, m.Steps c m₁ ∧ m₁.ip = m.ip + cs.length ∧
      m₁.frames = m.frames ∧ m₁.heap = m.heap ∧ c.code[m₁.ip]? = some (x.map A) ∧
      (∀ i v, (args.map (Operand.value g A m.regs))[i]? = some v → m₁.regs (i + 1) = v) ∧
      ∀ k, 16 ≤ k → k < 240 ∨ 256 ≤ k → m₁.regs k = m.regs k := by
  unfold emitArguments at hok
  split at hok
  · cases hok
  · next hn =>
    simp only [bind, Except.bind] at hok
    split at hok
    · cases hok
    · next cs hcs =>
      cases hok
      obtain ⟨hstr, -, heff⟩ := deliver (A := A) hcs (by omega)
      obtain ⟨hv, hk⟩ := heff m.regs
      rw [List.map_append] at hs
      obtain ⟨hs₁, hs₂⟩ := hs.append
      obtain ⟨hcall, -⟩ := hs₂.getElem
      refine ⟨by omega, _, Machine.steps_straight hs₁ hstr, by simp, rfl, rfl, hcall,
        fun i v hi => ?_, fun k h₁ h₂ => hk k (by omega) (by omega)⟩
      rw [List.getElem?_map, Option.map_eq_some_iff] at hi
      obtain ⟨op, hop, rfl⟩ := hi
      exact hv i op hop

/-- A receiver is the first argument. -/
theorem receiver_value {A : String → ℕ} {recv : ℕ} (hr : args.head? = some (.copy recv))
    (hv : ∀ i v, (args.map (Operand.value g A m.regs))[i]? = some v → m₁.regs (i + 1) = v) :
    m₁.regs 1 = m.regs (regOf recv) := by
  refine hv 0 _ ?_
  rw [List.getElem?_map, ← List.head?_eq_getElem?, hr]
  rfl

theorem virtual_faithful (h : CallSite g out bodies c m b d args ret vs .virtual) :
    Faithful c (address out bodies) m b d ret vs := by
  obtain ⟨t, code, M, ⟨recv, slot, lc, rfl, hrecv, hlc, hty, hslot, rfl⟩, hok, hs, hM, hf⟩ := h.code
  obtain ⟨e, he⟩ := h.toCompiled.placed h.callee
  have hlen := h.arity
  rw [List.length_map] at hlen
  simp only [emitTerminator, bind, Except.bind] at hok
  split at hok
  · cases hok
  · next cs hcs =>
    cases hok
    obtain ⟨hn, m₁, hsteps, hip, hfr, hheap, hcall, hv, hk⟩ := dispatch_staged hcs hs
    have hmeth : m₁.vmethod c 1 slot = some (address out bodies d.name) := by
      rw [Machine.vmethod, Machine.handle, receiver_value hrecv hv, hheap, ← hty]
      exact vtable_method h.linked h.classes hlc hslot
    have hMf : m₁.frameMaximum c = M := hf m₁ (by omega) (by simp [hip])
    have hstep : m₁.step c = some (called m₁ M (address out bodies (blockLabel b.name ret))
        (address out bodies d.name) m₁.regs) := by
      unfold Machine.step
      rw [hcall]
      simp [Instr.map, Instr.regs, h.resume_lt, hmeth, Machine.jump, Machine.pushCallFrame, hMf,
        he.entry_lt h.name_ne h.nonempty, called]
    exact faithful_of_entered he h.name_ne (by omega) h.arity hM (hsteps.tail hstep) rfl
      (by rw [called, hfr]) hk hv (Or.inl rfl) h.resume_lt

theorem interface_faithful (h : CallSite g out bodies c m b d args ret vs .interface) :
    Faithful c (address out bodies) m b d ret vs := by
  obtain ⟨t, code, M, ⟨recv, iface, method, lc, ite, sm, rfl, hrecv, hlc, hty, hite, hsm, hslot,
    rfl⟩, hok, hs, hM, hf⟩ := h.code
  obtain ⟨e, he⟩ := h.toCompiled.placed h.callee
  have hlen := h.arity
  rw [List.length_map] at hlen
  simp only [emitTerminator, bind, Except.bind] at hok
  split at hok
  · cases hok
  · next cs hcs =>
    cases hok
    obtain ⟨hn, m₁, hsteps, hip, hfr, hheap, hcall, hv, hk⟩ := dispatch_staged hcs hs
    have hmeth : m₁.imethod c 1 iface method = some (address out bodies d.name) := by
      rw [Machine.imethod, Machine.handle, receiver_value hrecv hv, hheap, ← hty]
      exact itable_method h.linked h.classes hlc hite hsm hslot
    have hMf : m₁.frameMaximum c = M := hf m₁ (by omega) (by simp [hip])
    have hstep : m₁.step c = some (called m₁ M (address out bodies (blockLabel b.name ret))
        (address out bodies d.name) m₁.regs) := by
      unfold Machine.step
      rw [hcall]
      simp [Instr.map, Instr.regs, h.resume_lt, hmeth, Machine.jump, Machine.pushCallFrame, hMf,
        he.entry_lt h.name_ne h.nonempty, called]
    exact faithful_of_entered he h.name_ne (by omega) h.arity hM (hsteps.tail hstep) rfl
      (by rw [called, hfr]) hk hv (Or.inl rfl) h.resume_lt

end Site

end Loxis.Backend
