import Loxis.Backend.Calls

/-! # How many arguments a call may have

A callee that takes too many parameters is rejected. Up to that number, calls with more
arguments than the staging registers can hold are not faithful: the prologue of the callee
reads registers that it has already overwritten, and the arguments of an indirect call
overwrite its target.
-/

namespace Loxis.Backend

open Function Relation
open Loxis.Vm (Heap TAG_HEAP)

variable {g : Surroundings} {out : LoweringOutput} {bodies : List Emitted} {c : Chunk}
  {m m' z : Machine} {b d : MirBody} {args : List Operand} {vs : List Value} {ret i n k : ℕ}
  {s : CallShape} {A : String → ℕ} {cs : List (Instr String)} {xs : List (Instr ℕ)}

section Rejected

theorem prologueFrom_lt (h : prologueFrom b i n = .ok cs) (hn : 0 < n) : i + n < 4064 := by
  induction n generalizing i cs with
  | zero => exact absurd hn (Nat.lt_irrefl 0)
  | succ n ih =>
    simp only [prologueFrom, bind, Except.bind] at h
    split at h
    · cases h
    · next r hr =>
      split at h
      · cases h
      · next ds hds =>
        have hlt := (localToReg_eq_ok.mp hr).1
        rcases Nat.eq_zero_or_pos n with rfl | hpos
        · exact hlt
        · have := ih hds hpos
          omega

/-- A callee that takes too many parameters does not compile. -/
theorem CallSite.arity_lt (h : CallSite g out bodies c m b d args ret vs s) :
    vs.length < 4064 := by
  obtain ⟨e, he⟩ := h.toCompiled.placed h.callee
  have hp := he.emits.prologue
  rw [h.arity] at hp
  rcases Nat.eq_zero_or_pos vs.length with h0 | hpos
  · omega
  · have := prologueFrom_lt hp hpos
    omega

end Rejected

section Stuck

/-- A machine that has stopped is where every run leads. -/
theorem Machine.Steps.stopped (hz : m.Steps c z) (hs : z.step c = none) (h : m.Steps c m') :
    m'.Steps c z := by
  have hu : Relator.RightUnique fun x y : Machine => x.step c = some y := fun x y w hy hw =>
    Option.some.inj (hy.symm.trans hw)
  rcases ReflTransGen.total_of_right_unique hu hz h with hzm | hmz
  · rcases ReflTransGen.cases_head hzm with rfl | ⟨y, hy, -⟩
    · exact .refl
    · rw [hs] at hy
      cases hy
  · exact hmz

theorem Machine.step_halt (h : c.code[m.ip]? = some .halt) : m.step c = none := by
  unfold step
  rw [h]
  rfl

/-- Where a faithful call to a body that stops at once leads. -/
theorem Faithful.stopped (h : Faithful c A m b d ret vs) (hz : m.Steps c z)
    (hs : z.step c = none) (hd : c.code[A d.name + d.paramCount]? = some .halt) :
    z.ip = A d.name + d.paramCount ∧ z.frames ≠ m.frames ∧
      ∀ i v, vs[i]? = some v → z.regs (regOf (i + 1)) = v := by
  obtain ⟨m', hm', hip, hv, f, hf, -⟩ := h
  have hstop : m'.step c = none := Machine.step_halt (hip ▸ hd)
  have hz' : m' = z := by
    rcases ReflTransGen.cases_head (hz.stopped hs hm') with he | ⟨y, hy, -⟩
    · exact he
    · rw [hstop] at hy
      cases hy
  rw [← hz']
  refine ⟨hip, ?_, hv⟩
  rw [hf]
  exact fun he => absurd (congrArg List.length he) (by simp)

/-- Code of which each instruction is straight or has a register that does not exist runs to its
end, or to such an instruction. -/
theorem Machine.steps_quiet (hx : Slice c m.ip xs)
    (hq : ∀ x ∈ xs, x.straight = true ∨ x.regs.all (· < 4096) = false) :
    (∀ x ∈ xs, x.straight = true) ∨
      ∃ z, m.Steps c z ∧ z.step c = none ∧ z.frames = m.frames := by
  induction xs generalizing m with
  | nil => exact Or.inl fun x hx => absurd hx List.not_mem_nil
  | cons x xs ih =>
    obtain ⟨h₁, h₂⟩ := hx.getElem
    rcases hq x List.mem_cons_self with hs | hb
    · have hstep := step_straight h₁ hs
      rcases ih (m := { m with regs := x.effect m.regs, ip := m.ip + 1 }) h₂
        fun y hy => hq y (List.mem_cons_of_mem _ hy) with hs' | ⟨z, hz, hn, hf⟩
      · exact Or.inl (List.forall_mem_cons.mpr ⟨hs, hs'⟩)
      · exact Or.inr ⟨z, .head hstep hz, hn, hf⟩
    · refine Or.inr ⟨m, .refl, ?_, rfl⟩
      unfold step
      rw [h₁]
      simp [hb]

end Stuck

section Constants

/-- Arguments that are integers. -/
def ints (vs : List (BitVec 64)) : List Operand := vs.map fun v => .const (.int v)

theorem stage_ints (vs : List (BitVec 64)) (i : ℕ) :
    stage g b i (ints vs) =
      .ok ((vs.zipIdx i).map fun p => .push ((240 + p.2) % 2 ^ 16) ⟨p.1, TAG_INT⟩) := by
  induction vs generalizing i with
  | nil => rfl
  | cons v vs ih =>
    have := ih (i + 1)
    simp only [ints, List.map_cons, stage, emitOperandToReg, bind, Except.bind, List.zipIdx_cons,
      Constant.value] at this ⊢
    rw [this]
    rfl

/-- What the staging of integers leaves in the registers. -/
theorem effects_ints (vs : List (BitVec 64)) (hi : i + vs.length ≤ 3856) (rs : ℕ → Value) :
    effects (((vs.zipIdx i).map fun p => (.push ((240 + p.2) % 2 ^ 16) ⟨p.1, TAG_INT⟩ :
      Instr String)).map (Instr.map A)) rs k =
      if 240 + i ≤ k then ((vs[k - 240 - i]?).map fun v => ⟨v, TAG_INT⟩).getD (rs k)
      else rs k := by
  induction vs generalizing i rs with
  | nil => simp
  | cons v vs ih =>
    rw [List.length_cons] at hi
    rw [List.zipIdx_cons, List.map_cons, List.map_cons, effects_cons, ih (by omega)]
    simp only [Instr.map, Instr.effect, update_apply,
      Nat.mod_eq_of_lt (show 240 + i < 2 ^ 16 by omega)]
    rcases Nat.lt_trichotomy k (240 + i) with hk | rfl | hk
    · rw [if_neg (by omega), if_neg (by omega), if_neg (by omega)]
    · rw [if_neg (by omega), if_pos rfl, if_pos (Nat.le_refl _)]
      simp
    · rw [if_pos (by omega), if_neg (by omega), if_pos (by omega),
        show k - 240 - i = (k - 240 - (i + 1)) + 1 by omega, List.getElem?_cons_succ]

/-- The staging and moving of integers. -/
def staging (vs : List (BitVec 64)) : List (Instr String) :=
  ((vs.zipIdx 0).map fun p => .push ((240 + p.2) % 2 ^ 16) ⟨p.1, TAG_INT⟩) ++ moveStaged vs.length

theorem quiet_staging {x : Instr ℕ} {vs : List (BitVec 64)}
    (hx : x ∈ (staging vs).map (Instr.map A)) :
    x.straight = true ∨ x.regs.all (· < 4096) = false := by
  rw [staging, List.map_append, List.mem_append] at hx
  simp only [moveStaged, List.map_map, List.mem_map] at hx
  rcases hx with ⟨p, -, rfl⟩ | ⟨j, -, rfl⟩
  all_goals exact (Bool.eq_false_or_eq_true _).imp_right id

/-- Staging that stays straight does not reach the registers that do not exist. -/
theorem length_of_straight {vs : List (BitVec 64)}
    (h : ∀ x ∈ (staging vs).map (Instr.map A), x.straight = true) : vs.length ≤ 3856 := by
  by_contra hlt
  rw [Nat.not_le] at hlt
  have hmem : Instr.push 4096 ⟨vs[3856], TAG_INT⟩ ∈ (staging vs).map (Instr.map A) := by
    rw [staging, List.map_append, List.map_map]
    refine List.mem_append_left _ (List.mem_map.mpr ⟨(vs[3856], 3856), ?_, rfl⟩)
    rw [List.mk_mem_zipIdx_iff_getElem?]
    exact List.getElem?_eq_getElem hlt
  exact absurd (h _ hmem) (by simp [Instr.straight, Instr.regs])

/-- The staging code stops before the call, or it leaves the integers in the low registers and
those that are not moved over in the staging registers. -/
theorem staging_run {vs : List (BitVec 64)} (hs : Slice c m.ip ((staging vs).map (Instr.map A))) :
    (∃ z, m.Steps c z ∧ z.step c = none ∧ z.frames = m.frames) ∨
      ∃ m₁ : Machine, m.Steps c m₁ ∧ m₁.ip = m.ip + (staging vs).length ∧
        m₁.frames = m.frames ∧ (∀ k v, vs[k]? = some v → m₁.regs (k + 1) = ⟨v, TAG_INT⟩) ∧
        ∀ k v, vs.length < 240 + k → vs[k]? = some v → m₁.regs (240 + k) = ⟨v, TAG_INT⟩ := by
  rcases Machine.steps_quiet hs fun x hx => quiet_staging hx with hstr | hz
  · right
    have hlen := length_of_straight hstr
    obtain ⟨-, hm⟩ := moveStaged_spec (A := A) hlen
    have hi := fun k rs => effects_ints (A := A) (k := k) (i := 0) vs (by omega) rs
    refine ⟨_, Machine.steps_straight hs hstr, by simp, rfl, fun k v hv => ?_, fun k v hk hv => ?_⟩
    · have hlt := (List.getElem?_eq_some_iff.mp hv).1
      simp only [staging, List.map_append, effects_append]
      rw [hm, if_pos (by omega), hi, if_pos (by omega), show 239 + (k + 1) - 240 - 0 = k by omega,
        hv]
      rfl
    · simp only [staging, List.map_append, effects_append]
      rw [hm, if_neg (by omega), hi, if_pos (by omega), show 240 + k - 240 - 0 = k by omega, hv]
      rfl
  · exact Or.inl hz

theorem prologueFrom_add {j : ℕ} (h : prologueFrom b i (j + n) = .ok cs) : ∃ cs₁ cs₂,
    cs = cs₁ ++ cs₂ ∧ prologueFrom b i j = .ok cs₁ ∧ prologueFrom b (i + j) n = .ok cs₂ := by
  induction j generalizing i cs with
  | zero => exact ⟨[], cs, rfl, rfl, by simpa using h⟩
  | succ j ih =>
    rw [Nat.succ_add_eq_add_succ, Nat.add_succ] at h
    simp only [prologueFrom, bind, Except.bind] at h ⊢
    split at h
    · cases h
    · split at h
      · cases h
      · next r hr ds hds =>
        cases h
        obtain ⟨cs₁, cs₂, rfl, h₁, h₂⟩ := ih hds
        refine ⟨_ :: cs₁, cs₂, rfl, by simp only [h₁], ?_⟩
        rw [show i + (j + 1) = i + 1 + j by omega]
        exact h₂

/-- A prologue writes the registers of its parameters. -/
theorem prologue_frame (h : prologueFrom b i n = .ok cs) :
    (∀ x ∈ cs.map (Instr.map A), x.straight = true) ∧ cs.length = n ∧
      ∀ rs k, (∀ j, i ≤ j → k ≠ regOf (j + 1)) → effects (cs.map (Instr.map A)) rs k = rs k := by
  induction n generalizing i cs with
  | zero =>
    cases h
    exact ⟨by simp, rfl, fun _ _ _ => rfl⟩
  | succ n ih =>
    simp only [prologueFrom, bind, Except.bind] at h
    split at h
    · cases h
    · next r hr =>
      split at h
      · cases h
      · next ds hds =>
        cases h
        obtain ⟨hlt, rfl⟩ := localToReg_eq_ok.mp hr
        obtain ⟨hs, hlen, hk⟩ := ih hds
        refine ⟨?_, congrArg (· + 1) hlen, fun rs k hj => ?_⟩
        · rw [List.map_cons]
          refine List.forall_mem_cons.mpr ⟨?_, hs⟩
          have := (regOf_range hlt).1
          simp only [Instr.map, Instr.straight, Instr.regs, List.all_cons, List.all_nil,
            Bool.and_true, Bool.and_eq_true, decide_eq_true_eq]
          omega
        · rw [List.map_cons, effects_cons, hk _ _ fun j hj' => hj j (by omega)]
          exact update_of_ne (hj i (Nat.le_refl i)) _ _

/-- A prologue of more than 15 parameters puts the first argument into the 16th. -/
theorem prologue_overwrites (h : prologueFrom b 0 (16 + n) = .ok cs) (rs : ℕ → Value) :
    effects (cs.map (Instr.map A)) rs 31 = rs 1 := by
  rw [show 16 + n = 15 + (n + 1) by omega] at h
  obtain ⟨cs₁, cs₂, rfl, h₁, h₂⟩ := prologueFrom_add h
  obtain ⟨-, -, he₁⟩ := prologue_spec (A := A) h₁ (Nat.le_refl 15)
  rw [prologueFrom] at h₂
  simp only [bind, Except.bind] at h₂
  split at h₂
  · cases h₂
  · next r hr =>
    split at h₂
    · cases h₂
    · next ds hds =>
      cases h₂
      obtain ⟨-, rfl⟩ := localToReg_eq_ok.mp hr
      obtain ⟨-, -, hk⟩ := prologue_frame (A := A) hds
      rw [List.map_append, effects_append, List.map_cons, effects_cons, hk _ _ fun j hj he => ?_]
      · exact (he₁ rs 16).trans (if_pos (by omega))
      · exact absurd (regOf_inj (l := 16) (he : regOf 16 = _)) (by omega)

end Constants

section Program

/-- A body that takes `n` parameters and stops. -/
def wide (n : ℕ) : MirBody := ⟨"f", n, n + 1, [⟨[], .other .halt []⟩]⟩

/-- A body that makes a call and stops. -/
def caller (t : Terminator) : MirBody := ⟨"main", 0, 2, [⟨[], t⟩, ⟨[], .other .halt []⟩]⟩

def program (n : ℕ) (t : Terminator) : LoweringOutput := ⟨[], [wide n, caller t], []⟩

/-- No strings and no operations in place. -/
def bare : Surroundings := ⟨fun _ => 0, fun _ _ _ => .error ""⟩

variable {t : Terminator} {tc : List (Instr String)}

theorem exists_prologue (hn : i + n < 4064) : ∃ cs, prologueFrom b i n = .ok cs ∧
    cs.length = n ∧ (∀ x ∈ cs, x.addrs = []) := by
  induction n generalizing i with
  | zero => exact ⟨[], rfl, rfl, by simp⟩
  | succ n ih =>
    obtain ⟨cs, hcs, hlen, ha⟩ := ih (i := i + 1) (by omega)
    have hr : localToReg b (i + 1) = .ok (regOf (i + 1)) :=
      localToReg_eq_ok.mpr ⟨by omega, rfl⟩
    refine ⟨.mov (regOf (i + 1)) ((i + 1) % 2 ^ 16) :: cs, ?_, congrArg (· + 1) hlen,
      List.forall_mem_cons.mpr ⟨rfl, ha⟩⟩
    simp only [prologueFrom, bind, Except.bind, hr, hcs]

theorem getLabelOffset_ok {labels : List (String × ℕ)} {l : String}
    (h : l ∈ labels.map Prod.fst) : ∃ i, getLabelOffset labels l = .ok i := by
  unfold getLabelOffset
  split
  · exact ⟨_, rfl⟩
  · cases hq : labels.reverse.find? (fun p => p.1 = l) with
    | some p => exact ⟨p.2, rfl⟩
    | none =>
      obtain ⟨p, hp, rfl⟩ := List.mem_map.mp h
      rw [List.find?_eq_none] at hq
      simpa using hq p (List.mem_reverse.mpr hp)

theorem mapM_of_ok {α β ε : Type} {f : α → Except ε β} {xs : List α}
    (h : ∀ x ∈ xs, ∃ y, f x = .ok y) : ∃ ys, xs.mapM f = .ok ys := by
  induction xs with
  | nil => exact ⟨[], rfl⟩
  | cons x xs ih =>
    obtain ⟨y, hy⟩ := h x List.mem_cons_self
    obtain ⟨ys, hys⟩ := ih fun x' hx' => h x' (List.mem_cons_of_mem _ hx')
    refine ⟨y :: ys, ?_⟩
    rw [List.mapM_cons, hy, hys]
    rfl

theorem labelNames_program :
    labelNames (program n t) = ["f", "f_b0", "main", "main_b0", "main_b1"] := rfl

theorem exists_program (hn : n < 4064) (ht : emitTerminator bare (caller t) t = .ok tc)
    (ha : ∀ x ∈ tc, ∀ l ∈ x.addrs, l = "f" ∨ l = blockLabel "main" 1) :
    ∃ bodies c, Compiled bare (program n t) bodies c ∧
      address (program n t) bodies "f" = 2 ∧ c.code[1]? = some .halt := by
  obtain ⟨pro, hpro, hlen, hpa⟩ := exists_prologue (b := wide n) (i := 0) (n := n) (by omega)
  have hreg : maxLocalRegister (wide n) = .ok (if n = 0 then 15 else regOf n) := by
    unfold maxLocalRegister
    rcases Nat.eq_zero_or_pos n with rfl | hpos
    · rfl
    · rw [if_neg (by simp only [wide]; omega), if_neg (by omega)]
      exact localToReg_eq_ok.mpr ⟨by simp only [wide]; omega, rfl⟩
  set ef : Emitted := ⟨wide n, pro, [[.halt]], if n = 0 then 15 else regOf n⟩
  set em : Emitted := ⟨caller t, [], [tc, [.halt]], 16⟩
  have hf : emitBody bare (wide n) = .ok ef := by
    simp only [emitBody, bind, Except.bind]
    rw [show (wide n).paramCount = n from rfl, hpro, hreg]
    rfl
  have hm : emitBody bare (caller t) = .ok em := by
    have hb : emitBlock bare (caller t) ⟨[], t⟩ = .ok tc := by
      simp only [emitBlock, ht, bind, Except.bind, List.nil_append]
    have hbs : (caller t).blocks.mapM (emitBlock bare (caller t)) = .ok [tc, [.halt]] := by
      rw [caller, List.mapM_cons]
      rw [caller] at hb
      rw [hb]
      rfl
    simp only [emitBody, bind, Except.bind]
    rw [hbs]
    rfl
  have hbodies : (program n t).bodies.mapM (emitBody bare) = .ok [ef, em] := by
    rw [program, List.mapM_cons, hf, List.mapM_cons, hm]
    rfl
  have hnames : ∀ l, l = "f" ∨ l = "main" ∨ l = blockLabel "main" 1 →
      l ∈ (labelOffsets (program n t) [ef, em]).map Prod.fst := fun l hl => by
    rw [map_fst_labelOffsets hbodies, labelNames_program]
    rcases hl with rfl | rfl | rfl <;> decide
  have hall : ∀ l ∈ (entry [] ++ [ef, em].flatMap Emitted.code).flatMap Instr.addrs,
      ∃ i, getLabelOffset (labelOffsets (program n t) [ef, em]) l = .ok i := fun l hl => by
      refine getLabelOffset_ok (hnames l ?_)
      obtain ⟨x, hx, hl⟩ := List.mem_flatMap.mp hl
      simp only [entry, List.flatMap_cons, List.flatMap_nil, Emitted.code, List.nil_append,
        List.append_nil, List.flatten_cons, List.flatten_nil, List.mem_append, List.mem_cons,
        List.not_mem_nil, or_false, ef, em] at hx
      rcases hx with (rfl | rfl) | (hx | rfl) | hx | rfl
      · simp only [Instr.addrs, List.mem_singleton] at hl
        exact Or.inr (Or.inl hl)
      · cases hl
      · rw [hpa x hx] at hl
        cases hl
      · cases hl
      · exact (ha x hx l hl).imp_right Or.inr
      · cases hl
  obtain ⟨offs, hoffs⟩ := mapM_of_ok hall
  have hlink : ∃ c, link (program n t) [ef, em] = .ok c := by
    simp only [link, bind, Except.bind]
    rw [show (program n t).numbered = [] from rfl,
      show (program n t).globalInitializers = [] from rfl, hoffs]
    exact ⟨_, rfl⟩
  obtain ⟨c, hc⟩ := hlink
  have hnd : (labelNames (program n t)).Nodup := by
    rw [labelNames_program]
    decide
  refine ⟨[ef, em], c, ⟨hbodies, hc, hnd⟩, ?_, ?_⟩
  · refine offsetOf_of_ok (offsetOf_eq ?_ ?_ (by decide))
    · rw [map_fst_labelOffsets hbodies]
      exact hnd
    · exact List.mem_cons_self
  · rw [link_code hc]
    rfl

/-- Before the call of `caller t`, with an object in its local. -/
def before (out : LoweringOutput) (bodies : List Emitted) (heap : Heap) : Machine where
  regs := update (fun _ => ⟨0, TAG_INT⟩) 16 ⟨1, TAG_HEAP⟩
  frames := []
  ip := address out bodies (blockLabel "main" 0)
  heap := heap

theorem wide_mem : wide n ∈ (program n t).bodies := List.mem_cons_self

theorem caller_mem : caller t ∈ (program n t).bodies := List.mem_cons_of_mem _ List.mem_cons_self

theorem callSite_program (heap : Heap) (h : Compiled bare (program n t) bodies c)
    (hlen : n = vs.length)
    (hn : Names bare (program n t) (address (program n t) bodies)
      (before (program n t) bodies heap) (wide n) args 1 vs s t) :
    CallSite bare (program n t) bodies c (before (program n t) bodies heap) (caller t) (wide n)
      args 1 vs s where
  toCompiled := h
  classes := List.nodup_nil
  caller := caller_mem
  callee := wide_mem
  function := show "f" ∉ inPlace by decide +kernel
  arity := hlen
  nonempty := by simp [wide]
  resume := by simp [caller]
  standing := ⟨0, [], t, rfl, rfl, hn⟩

theorem slice_program (heap : Heap) (h : Compiled bare (program n t) bodies c)
    (ht : emitTerminator bare (caller t) t = .ok tc) :
    Slice c (before (program n t) bodies heap).ip
      (tc.map (Instr.map (address (program n t) bodies))) := by
  obtain ⟨e, he⟩ := h.placed caller_mem
  obtain ⟨code, hok, hs, -⟩ := he.block 0 ⟨[], t⟩ rfl
  simp only [emitBlock, ht, bind, Except.bind, List.nil_append] at hok
  cases hok
  exact hs

/-- The code of the called body. -/
theorem slice_wide (h : Compiled bare (program n t) bodies c)
    (hf : address (program n t) bodies "f" = 2) :
    ∃ pro, prologueFrom (wide n) 0 n = .ok pro ∧
      Slice c 2 (pro.map (Instr.map (address (program n t) bodies))) ∧
      c.code[2 + pro.length]? = some .halt := by
  obtain ⟨e, he⟩ := h.placed wide_mem
  have hs := he.body (show "f" ≠ "print" by decide)
  have hb : e.blocks = [[.halt]] := (Except.ok.inj he.emits.blocks).symm
  rw [show (wide n).name = "f" from rfl, hf, Emitted.code, hb, List.map_append] at hs
  obtain ⟨hs₁, hs₂⟩ := hs.append
  refine ⟨e.prologue, he.emits.prologue, hs₁, ?_⟩
  rw [List.length_map] at hs₂
  exact hs₂.getElem.1

theorem funcLabel_f : funcLabel (.const (.str "f")) = "f" := by decide

theorem length_ints (vs : List (BitVec 64)) : (ints vs).length = vs.length := List.length_map _

theorem addrs_staging {vs : List (BitVec 64)} : ∀ x ∈ staging vs, x.addrs = [] := by
  intro x hx
  simp only [staging, moveStaged, List.mem_append, List.mem_map] at hx
  rcases hx with ⟨p, -, rfl⟩ | ⟨j, -, rfl⟩ <;> rfl

/-- A direct call with more than 15 arguments hands the first one over as the 16th. -/
theorem overwritten {pro : List (Instr String)} {l : String} {v : BitVec 64}
    {vals : List (BitVec 64)} (hv : vals[0]? = some v)
    (hpro : prologueFrom b 0 (16 + k) = .ok pro) (hf : A "f" = 2)
    (hw : Slice c 2 (pro.map (Instr.map A))) (hh : c.code[2 + pro.length]? = some .halt)
    (hs : Slice c m.ip ((staging vals ++ [Instr.call "f", .jmp l]).map (Instr.map A))) :
    ∃ z, m.Steps c z ∧ z.step c = none ∧ (z.frames = m.frames ∨ z.regs 31 = ⟨v, TAG_INT⟩) := by
  rw [List.map_append] at hs
  obtain ⟨hs₁, hs₂⟩ := hs.append
  rcases staging_run hs₁ with ⟨z, hz, hn, hfr⟩ | ⟨m₁, hm₁, hip, -, hlow, -⟩
  · exact ⟨z, hz, hn, Or.inl hfr⟩
  · rw [List.length_map, ← hip] at hs₂
    have hcall : c.code[m₁.ip]? = some (.call 2) := hs₂.getElem.1.trans (by rw [← hf]; rfl)
    have hlt := (List.getElem?_eq_some_iff.mp hh).1
    have hstep := call_step hcall rfl (by omega)
    have hrun := Machine.steps_straight (m := called m₁ (m₁.frameMaximum c) (m₁.ip + 1) 2 m₁.regs)
      hw (prologue_frame hpro).1
    refine ⟨_, (hm₁.tail hstep).trans hrun, Machine.step_halt ?_, Or.inr ?_⟩
    · simp only [called, List.length_map]
      exact hh
    · exact (prologue_overwrites hpro _).trans (hlow 0 v hv)

/-- With more than 10 arguments the 11th overwrites the target of an indirect call. -/
theorem clobbered (pc : List (Instr String)) {l : String} (hn : 11 ≤ n)
    (hh : c.code[1]? = some .halt) (hpc : ∀ x ∈ pc.map (Instr.map A), x.straight = true)
    (hs : Slice c m.ip ((pc ++ (staging (List.replicate n 1) ++
      [Instr.callInd 250 n, .jmp l])).map (Instr.map A))) :
    ∃ z, m.Steps c z ∧ z.step c = none ∧ (z.frames = m.frames ∨ z.ip = 1) := by
  rw [List.map_append] at hs
  obtain ⟨hs₀, hs⟩ := hs.append
  rw [List.map_append] at hs
  obtain ⟨hs₁, hs₂⟩ := hs.append
  have hm := Machine.steps_straight hs₀ hpc
  set m₀ : Machine := { m with
    regs := effects (pc.map (Instr.map A)) m.regs
    ip := m.ip + (pc.map (Instr.map A)).length }
  rcases staging_run (m := m₀) hs₁ with ⟨z, hz, hstop, hfr⟩ | ⟨m₁, hm₁, hip, -, hlow, hhigh⟩
  · exact ⟨z, hm.trans hz, hstop, Or.inl hfr⟩
  · replace hs₂ : Slice c m₁.ip ([Instr.callInd 250 n, .jmp l].map (Instr.map A)) := by
      rw [hip]
      simpa [m₀] using hs₂
    have hget : ∀ k, k < n → (List.replicate n (1 : BitVec 64))[k]? = some 1 := fun k hk => by
      rw [List.getElem?_replicate, if_pos hk]
    have h250 : m₁.regs 250 = ⟨1, TAG_INT⟩ := by
      by_cases h : 250 ≤ n
      · exact hlow 249 1 (hget 249 h)
      · exact hhigh 10 1 (by rw [List.length_replicate]; omega) (hget 10 (by omega))
    have hi : m₁.indirect 250 n = some (1, { m₁ with regs := m₁.regs }) := by
      rw [Machine.indirect, Machine.handle, h250, if_neg (by decide)]
      rfl
    have hstep := callInd_step hs₂.getElem.1 (by decide) rfl hi
      (List.getElem?_eq_some_iff.mp hh).1
    exact ⟨_, hm.trans (hm₁.tail hstep), Machine.step_halt hh, Or.inr rfl⟩

theorem addrs_staged {P : String → Prop} {tl : List (Instr String)} {vals : List (BitVec 64)}
    (h : ∀ x ∈ tl, ∀ l ∈ x.addrs, P l) : ∀ x ∈ staging vals ++ tl, ∀ l ∈ x.addrs, P l := by
  refine List.forall_mem_append.mpr ⟨fun x hx l hl => ?_, h⟩
  rw [addrs_staging x hx] at hl
  cases hl

/-- The called body stops at once. -/
theorem halt_wide (h : Compiled bare (program n t) bodies c)
    (hf : address (program n t) bodies "f" = 2) :
    c.code[address (program n t) bodies (wide n).name + (wide n).paramCount]? = some .halt := by
  obtain ⟨pro, hpro, -, hh⟩ := slice_wide h hf
  rw [(prologue_frame (A := id fun _ => 0) hpro).2.1] at hh
  rw [show (wide n).name = "f" from rfl, hf]
  exact hh

theorem emit_direct (vs : List (BitVec 64)) :
    emitTerminator bare b (.call (.const (.str "f")) (ints vs) 1) =
      .ok (staging vs ++ [.call "f", .jmp (blockLabel b.name 1)]) := by
  rw [emitTerminator, funcLabel_f, if_neg (by decide), stage_ints]
  simp only [bind, Except.bind, staging, length_ints]

theorem emit_indirect (vs : List (BitVec 64)) :
    emitTerminator bare b (.callIndirect (.label "f") (ints vs) 1) = .ok ([.pushAddr 250 "f"] ++
      (staging vs ++ [.callInd 250 vs.length, .jmp (blockLabel b.name 1)])) := by
  simp only [emitTerminator, emitOperandToReg, stage_ints, bind, Except.bind, staging, length_ints,
    List.append_assoc]

theorem emit_closure (vs : List (BitVec 64)) :
    emitTerminator bare b (.closureCall (.copy 1) (ints vs) 1) = .ok ([.mov 250 16] ++
      (staging vs ++ [.callInd 250 vs.length, .jmp (blockLabel b.name 1)])) := by
  have hr : localToReg b 1 = .ok 16 := rfl
  simp only [emitTerminator, emitOperandToReg, hr, stage_ints, bind, Except.bind, staging,
    length_ints, List.append_assoc]
  rfl

theorem not_meets_direct (h₁ : 16 ≤ n) (h₂ : n < 4064) : ¬ Meets .direct n := by
  intro h
  obtain ⟨k, rfl⟩ := Nat.exists_eq_add_of_le h₁
  let vals : List (BitVec 64) := 1 :: List.replicate (15 + k) 0
  have hlen : vals.length = 16 + k := by simp [vals]; omega
  obtain ⟨bodies, c, hc, hf, -⟩ := exists_program h₂ (emit_direct vals)
    (addrs_staged (by simp [Instr.addrs, caller]))
  have hfaith := h _ _ _ _ _ _ _ _ _ _ (callSite_program (s := .direct) Heap.new hc
    (by rw [List.length_map, length_ints, hlen]) ⟨_, rfl, funcLabel_f, rfl⟩)
    (by rw [length_ints, hlen])
  obtain ⟨pro, hpro, hwide, hhalt⟩ := slice_wide hc hf
  obtain ⟨z, hz, hn, hfr | hr⟩ := overwritten (show vals[0]? = some 1 from rfl) hpro hf hwide hhalt
    (slice_program Heap.new hc (emit_direct vals))
  · exact (hfaith.stopped hz hn (halt_wide hc hf)).2.1 hfr
  · have h15 := (hfaith.stopped hz hn (halt_wide hc hf)).2.2 15 ⟨0, TAG_INT⟩ (by
      have hv15 : vals[15]? = some 0 := by
        simp only [vals, List.getElem?_cons_succ, List.getElem?_replicate]
        exact if_pos (by omega)
      rw [List.getElem?_map, ints, List.getElem?_map, hv15]
      rfl)
    rw [show regOf (15 + 1) = 31 by decide, hr] at h15
    exact absurd (congrArg Value.val h15) (by decide)

theorem not_meets_indirect (h₁ : 11 ≤ n) (h₂ : n < 4064) : ¬ Meets .indirect n := by
  intro h
  let vals : List (BitVec 64) := List.replicate n 1
  have hlen : (ints vals).length = n := by rw [length_ints, List.length_replicate]
  obtain ⟨bodies, c, hc, hf, hh⟩ := exists_program h₂ (emit_indirect vals)
    (List.forall_mem_append.mpr
      ⟨by simp [Instr.addrs], addrs_staged (by simp [Instr.addrs, caller])⟩)
  have hfaith := h _ _ _ _ _ _ _ _ _ _ (callSite_program (s := .indirect) Heap.new hc
    (by rw [List.length_map, hlen]) ⟨_, rfl, show TAG_INT ≠ TAG_HEAP by decide,
      (congrArg (fun a => (BitVec.ofNat 64 a).toNat % 2 ^ 32) hf).trans hf.symm, rfl⟩) hlen
  have hs := slice_program Heap.new hc (emit_indirect vals)
  rw [List.length_replicate] at hs
  obtain ⟨z, hz, hn, hbad⟩ := clobbered [.pushAddr 250 "f"] h₁ hh
    (by simp [Instr.map, Instr.straight, Instr.regs]) hs
  obtain ⟨hip, hfr, -⟩ := hfaith.stopped hz hn (halt_wide hc hf)
  refine hbad.elim hfr fun h1 => ?_
  rw [h1, show (wide n).name = "f" from rfl, hf] at hip
  omega

/-- A heap with one object, whose first cell holds the position 2. -/
def closureHeap : Heap :=
  ((Heap.new.alloc 9 0).2.storeCell 1 0 2 TAG_INT).getD Heap.new

theorem load_closureHeap : closureHeap.loadCell 1 0 = some (2, TAG_INT) := by decide

theorem not_meets_closure (h₁ : 11 ≤ n) (h₂ : n < 4063) : ¬ Meets .closure n := by
  intro h
  let vals : List (BitVec 64) := List.replicate n 1
  have hlen : (ints vals).length = n := by rw [length_ints, List.length_replicate]
  obtain ⟨bodies, c, hc, hf, hh⟩ := exists_program (n := n + 1) (by omega)
    (emit_closure vals) (List.forall_mem_append.mpr
      ⟨by simp [Instr.addrs], addrs_staged (by simp [Instr.addrs, caller])⟩)
  have hfaith := h _ _ _ _ _ _ _ _ _ _ (callSite_program (s := .closure) closureHeap hc
    (by rw [List.length_cons, List.length_map, hlen])
    ⟨_, _, rfl, rfl, load_closureHeap, hf.symm, rfl⟩) hlen
  have hs := slice_program closureHeap hc (emit_closure vals)
  rw [List.length_replicate] at hs
  obtain ⟨z, hz, hn, hbad⟩ := clobbered [.mov 250 16] h₁ hh
    (by simp [Instr.map, Instr.straight, Instr.regs]) hs
  obtain ⟨hip, hfr, -⟩ := hfaith.stopped hz hn (halt_wide hc hf)
  refine hbad.elim hfr fun h1 => ?_
  rw [h1, show (wide (n + 1)).name = "f" from rfl, hf] at hip
  omega

end Program

section Limits

/-- The numbers of arguments that calls of a shape hand over, or that no callee can take. -/
def CallShape.Fits : CallShape → ℕ → Prop
  | .direct, n => n ≤ 15 ∨ 4064 ≤ n
  | .indirect, n => n ≤ 10 ∨ 4064 ≤ n
  | .closure, n => n ≤ 10 ∨ 4063 ≤ n
  | .virtual, _ | .interface, _ => True

/-- A shape is faithful at exactly the numbers of arguments that fit. -/
theorem meets_iff (s : CallShape) (n : ℕ) : Meets s n ↔ s.Fits n := by
  constructor
  · intro h
    by_contra hn
    cases s with
    | direct =>
      simp only [CallShape.Fits, not_or, Nat.not_le] at hn
      exact not_meets_direct hn.1 hn.2 h
    | indirect =>
      simp only [CallShape.Fits, not_or, Nat.not_le] at hn
      exact not_meets_indirect hn.1 hn.2 h
    | closure =>
      simp only [CallShape.Fits, not_or, Nat.not_le] at hn
      exact not_meets_closure hn.1 hn.2 h
    | virtual | interface => exact hn trivial
  · rintro hn g out bodies c m b d args ret vs h rfl
    have hlt := h.arity_lt
    cases s with
    | direct =>
      obtain ⟨t, code, M, ⟨func, -, -, hvs⟩, -⟩ := h.code
      rw [hvs, List.length_map] at hlt
      exact direct_faithful h (hn.resolve_right (Nat.not_le.mpr hlt))
    | indirect =>
      obtain ⟨t, code, M, ⟨p, -, -, -, hvs⟩, -⟩ := h.code
      rw [hvs, List.length_map] at hlt
      exact indirect_faithful h (hn.resolve_right (Nat.not_le.mpr hlt))
    | closure =>
      obtain ⟨t, code, M, ⟨p, fn, -, -, -, -, hvs⟩, -⟩ := h.code
      rw [hvs, List.length_cons, List.length_map] at hlt
      exact closure_faithful h (hn.resolve_right (by omega))
    | virtual => exact virtual_faithful h
    | interface => exact interface_faithful h

/-- Not every call is faithful: the sixteenth argument of a direct call is lost. -/
theorem direct_sixteen : ¬ ∀ s n, Meets s n := fun h =>
  not_meets_direct (Nat.le_refl 16) (by decide) (h .direct 16)

end Limits

end Loxis.Backend
