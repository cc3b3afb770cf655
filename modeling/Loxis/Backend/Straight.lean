import Loxis.Backend.Layout

/-! # Straight code

Code of pushes and moves runs to its end and only changes registers. What the emitted
staging, moving and prologue code does to them.
-/

namespace Loxis.Backend

open Function

variable {g : Surroundings} {c : Chunk} {b : MirBody} {m : Machine} {A : String → ℕ}
  {rs rs' : ℕ → Value} {xs ys : List (Instr ℕ)} {cs : List (Instr String)} {args : List Operand}
  {op : Operand} {i j n r : ℕ}

namespace Instr

/-- Pushes and moves whose registers exist. -/
def straight (x : Instr ℕ) : Bool :=
  match x with
  | push _ _ | pushAddr _ _ | mov _ _ => x.regs.all (· < 4096)
  | _ => false

/-- The registers after a push or a move. -/
def effect (rs : ℕ → Value) : Instr ℕ → ℕ → Value
  | push r v => update rs r v
  | pushAddr r a => update rs r ⟨BitVec.ofNat 64 a, TAG_INT⟩
  | mov d s => update rs d (rs s)
  | _ => rs

end Instr

/-- The registers after straight code. -/
def effects (xs : List (Instr ℕ)) (rs : ℕ → Value) : ℕ → Value := xs.foldl Instr.effect rs

@[simp] theorem effects_nil : effects [] rs = rs := rfl

@[simp] theorem effects_cons (x : Instr ℕ) :
    effects (x :: xs) rs = effects xs (x.effect rs) := rfl

@[simp] theorem effects_append : effects (xs ++ ys) rs = effects ys (effects xs rs) :=
  List.foldl_append

namespace Machine

theorem step_straight {x : Instr ℕ} (hx : c.code[m.ip]? = some x) (hs : x.straight = true) :
    m.step c = some { m with regs := x.effect m.regs, ip := m.ip + 1 } := by
  unfold step
  rw [hx]
  cases x <;> simp only [Instr.straight, Bool.false_eq_true] at hs
  all_goals
    simp only [hs, if_true]
    rfl

theorem steps_straight (hx : Slice c m.ip xs) (hs : ∀ x ∈ xs, x.straight = true) :
    m.Steps c { m with regs := effects xs m.regs, ip := m.ip + xs.length } := by
  induction xs generalizing m with
  | nil => exact .refl
  | cons x xs ih =>
    obtain ⟨h₁, h₂⟩ := hx.getElem
    have hstep := step_straight h₁ (hs x List.mem_cons_self)
    refine .head hstep ?_
    have := ih (m := { m with regs := x.effect m.regs, ip := m.ip + 1 }) h₂
      fun y hy => hs y (List.mem_cons_of_mem _ hy)
    rw [List.length_cons, Nat.add_comm xs.length, ← Nat.add_assoc]
    exact this

end Machine

section Emission

/-- The value of an operand in a body. -/
def Operand.value (g : Surroundings) (A : String → ℕ) (rs : ℕ → Value) : Operand → Value
  | .const c => c.value g
  | .label l => ⟨BitVec.ofNat 64 (A l), TAG_INT⟩
  | .copy l | .move l => rs (regOf l)

/-- The operand has the same value whatever the staging registers hold. -/
def Operand.Steady (g : Surroundings) (A : String → ℕ) (op : Operand) : Prop :=
  ∀ rs rs', (∀ k, k < 240 ∨ 256 ≤ k → rs' k = rs k) → op.value g A rs' = op.value g A rs

theorem emitOperandToReg_spec (h : emitOperandToReg g b r op = .ok cs) (hr : r < 4096) :
    (∀ x ∈ cs.map (Instr.map A), x.straight = true) ∧
      (∀ rs, effects (cs.map (Instr.map A)) rs = update rs r (op.value g A rs)) ∧
      op.Steady g A := by
  have hlocal : ∀ l src, localToReg b l = .ok src → (∀ rs, op.value g A rs = rs (regOf l)) →
      cs = (if src = r then [] else [.mov r src]) →
      (∀ x ∈ cs.map (Instr.map A), x.straight = true) ∧
      (∀ rs, effects (cs.map (Instr.map A)) rs = update rs r (op.value g A rs)) ∧
      op.Steady g A := by
    rintro l src hsrc hv rfl
    obtain ⟨hlt, rfl⟩ := localToReg_eq_ok.mp hsrc
    obtain ⟨h₁, h₂⟩ := regOf_range hlt
    refine ⟨?_, fun rs => ?_, fun rs rs' hk => ?_⟩
    · split
      · simp
      · simp [Instr.map, Instr.straight, Instr.regs, hr, h₁]
    · rw [hv]
      split
      · next he => rw [he]; simp
      · rfl
    · rw [hv, hv, hk _ h₂]
  cases op with
  | const k =>
    cases h
    exact ⟨by simp [Instr.map, Instr.straight, Instr.regs, hr], fun _ => rfl, fun _ _ _ => rfl⟩
  | label l =>
    cases h
    exact ⟨by simp [Instr.map, Instr.straight, Instr.regs, hr], fun _ => rfl, fun _ _ _ => rfl⟩
  | copy l | move l =>
    simp only [emitOperandToReg, bind, Except.bind] at h
    split at h
    · cases h
    · next src hsrc =>
      cases h
      exact hlocal l src hsrc (fun _ => rfl) rfl

/-- What staging does when it stays within the staging registers. -/
theorem stage_spec (h : stage g b i args = .ok cs) (hi : i + args.length ≤ 15) :
    (∀ x ∈ cs.map (Instr.map A), x.straight = true) ∧ (∀ op ∈ args, op.Steady g A) ∧
      ∀ rs, (∀ j op, args[j]? = some op →
          effects (cs.map (Instr.map A)) rs (240 + i + j) = op.value g A rs) ∧
        ∀ k, k < 240 + i ∨ 240 + i + args.length ≤ k →
          effects (cs.map (Instr.map A)) rs k = rs k := by
  induction args generalizing i cs with
  | nil =>
    cases h
    exact ⟨by simp, by simp, fun rs => ⟨fun j op hj => by simp at hj, fun k _ => rfl⟩⟩
  | cons a as ih =>
    simp only [stage, bind, Except.bind] at h
    split at h
    · cases h
    · next ca hca =>
      split at h
      · cases h
      · next cas hcas =>
        cases h
        rw [List.length_cons] at hi ⊢
        rw [Nat.mod_eq_of_lt (by omega)] at hca
        obtain ⟨hs₁, hv₁, hc₁⟩ := emitOperandToReg_spec (A := A) hca (by omega)
        obtain ⟨hs₂, hc₂, hv₂⟩ := ih hcas (by omega)
        rw [List.map_append]
        refine ⟨fun x hx => (List.mem_append.mp hx).elim (hs₁ x) (hs₂ x),
          List.forall_mem_cons.mpr ⟨hc₁, hc₂⟩, fun rs => ?_⟩
        rw [effects_append, hv₁]
        obtain ⟨hj, hk⟩ := hv₂ (update rs (240 + i) (a.value g A rs))
        refine ⟨fun j op hop => ?_, fun k hk' => ?_⟩
        · cases j with
          | zero =>
            obtain rfl := Option.some.inj hop
            rw [hk _ (by omega)]
            exact update_self _ _ _
          | succ j =>
            rw [show 240 + i + (j + 1) = 240 + (i + 1) + j by omega, hj j op hop]
            exact hc₂ op (List.mem_of_getElem? hop) _ _ fun k hk => update_of_ne (by omega) _ _
        · rw [hk k (by omega), update_of_ne (by omega)]

/-- Moving reads each staging register before it can be overwritten. -/
theorem moveStaged_spec (hn : n ≤ 3856) :
    (∀ x ∈ (moveStaged n).map (Instr.map A), x.straight = true) ∧
      ∀ rs k, effects ((moveStaged n).map (Instr.map A)) rs k =
        if 1 ≤ k ∧ k ≤ n then rs (239 + k) else rs k := by
  induction n with
  | zero => exact ⟨by simp [moveStaged], fun rs k => by simp [moveStaged, effects]; omega⟩
  | succ n ih =>
    obtain ⟨hs, he⟩ := ih (by omega)
    have hsucc : (moveStaged (n + 1)).map (Instr.map A) =
        (moveStaged n).map (Instr.map A) ++ [.mov (n + 1) (240 + n)] := by
      simp only [moveStaged, List.range_succ, List.map_append, List.map_cons, List.map_nil,
        Instr.map, Nat.mod_eq_of_lt (show n + 1 < 2 ^ 16 by omega),
        Nat.mod_eq_of_lt (show 240 + n < 2 ^ 16 by omega)]
    rw [hsucc]
    refine ⟨fun x hx => (List.mem_append.mp hx).elim (hs x) fun hx => ?_, fun rs k => ?_⟩
    · rw [List.mem_singleton.mp hx]
      simp only [Instr.straight, Instr.regs, List.all_cons, List.all_nil, Bool.and_true,
        Bool.and_eq_true, decide_eq_true_eq]
      omega
    · rw [effects_append]
      simp only [effects_cons, effects_nil, Instr.effect, update_apply, he]
      split
      · next hk =>
        subst hk
        rw [if_neg (by omega), if_pos (by omega)]
        congr 1
        omega
      · next hk =>
        by_cases h : 1 ≤ k ∧ k ≤ n
        · rw [if_pos h, if_pos (by omega)]
        · rw [if_neg h, if_neg (by omega)]

/-- What the prologue does while the registers it reads are not those of parameters. -/
theorem prologue_spec (h : prologueFrom b i n = .ok cs) (hi : i + n ≤ 15) :
    cs.length = n ∧ (∀ x ∈ cs.map (Instr.map A), x.straight = true) ∧
      ∀ rs k, effects (cs.map (Instr.map A)) rs k =
        if 16 + i ≤ k ∧ k < 16 + i + n then rs (k - 15) else rs k := by
  induction n generalizing i cs with
  | zero =>
    cases h
    exact ⟨rfl, by simp, fun rs k => by rw [if_neg (by omega)]; rfl⟩
  | succ n ih =>
    simp only [prologueFrom, bind, Except.bind] at h
    split at h
    · cases h
    · next src hsrc =>
      split at h
      · cases h
      · next ds hds =>
        cases h
        obtain ⟨hlen, hs, he⟩ := ih hds (by omega)
        have hr : src = 16 + i := by
          rw [(localToReg_eq_ok.mp hsrc).2, regOf, if_neg (by omega), if_pos (by omega)]
          omega
        subst hr
        rw [Nat.mod_eq_of_lt (show i + 1 < 2 ^ 16 by omega)]
        refine ⟨by rw [List.length_cons, hlen], ?_, fun rs k => ?_⟩
        · rw [List.map_cons]
          refine List.forall_mem_cons.mpr ⟨?_, hs⟩
          simp only [Instr.map, Instr.straight, Instr.regs, List.all_cons, List.all_nil,
            Bool.and_true, Bool.and_eq_true, decide_eq_true_eq]
          omega
        · rw [List.map_cons, effects_cons, he]
          simp only [Instr.map, Instr.effect, update_apply]
          by_cases hk : k = 16 + i
          · rw [if_neg (by omega), if_pos hk, if_pos (by omega), hk]
            congr 1
            omega
          · by_cases h : 16 + (i + 1) ≤ k ∧ k < 16 + (i + 1) + n
            · rw [if_pos h, if_neg (by omega), if_pos (by omega)]
            · rw [if_neg h, if_neg hk, if_neg (by omega)]

/-- Staging and moving put the values of the arguments into registers 1 and up. -/
theorem deliver (h : stage g b 0 args = .ok cs) (hn : args.length ≤ 15) :
    (∀ x ∈ (cs ++ moveStaged args.length).map (Instr.map A), x.straight = true) ∧
      (∀ op ∈ args, op.Steady g A) ∧
      ∀ rs, (∀ i op, args[i]? = some op →
          effects ((cs ++ moveStaged args.length).map (Instr.map A)) rs (i + 1) =
            op.value g A rs) ∧
        ∀ k, args.length < k → k < 240 ∨ 240 + args.length ≤ k →
          effects ((cs ++ moveStaged args.length).map (Instr.map A)) rs k = rs k := by
  obtain ⟨hs₁, hst, he₁⟩ := stage_spec (A := A) h (by omega)
  obtain ⟨hs₂, he₂⟩ := moveStaged_spec (A := A) (show args.length ≤ 3856 by omega)
  rw [List.map_append]
  refine ⟨fun x hx => (List.mem_append.mp hx).elim (hs₁ x) (hs₂ x), hst, fun rs => ?_⟩
  obtain ⟨hv, hk⟩ := he₁ rs
  rw [effects_append]
  refine ⟨fun i op hi => ?_, fun k h₁ h₂ => ?_⟩
  · have hlt := (List.getElem?_eq_some_iff.mp hi).1
    rw [he₂, if_pos (by omega), ← hv i op hi]
    congr 1
    omega
  · rw [he₂, if_neg (by omega), hk k (by omega)]

theorem shiftArgs_eq (hn : n ≤ 254) (rs : ℕ → Value) (k : ℕ) :
    Machine.shiftArgs n rs k = if 2 ≤ k ∧ k ≤ n + 1 then rs (k - 1) else rs k := by
  induction n generalizing rs with
  | zero => rw [if_neg (by omega)]; rfl
  | succ n ih =>
    rw [Machine.shiftArgs, ih (by omega), Nat.mod_eq_of_lt (by omega), Nat.mod_eq_of_lt (by omega)]
    simp only [update_apply]
    by_cases hk : k = n + 2
    · rw [if_neg (by omega), if_pos hk, if_pos (by omega), hk]
      rfl
    · by_cases h : 2 ≤ k ∧ k ≤ n + 1
      · rw [if_pos h, if_neg (by omega), if_pos (by omega)]
      · rw [if_neg h, if_neg hk, if_neg (by omega)]

end Emission

end Loxis.Backend
