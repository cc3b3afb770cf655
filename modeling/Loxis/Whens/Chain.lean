import Loxis.Whens.Blocks

/-! # The chain of tests

The blocks of a `when` run as a chain: test after test, and the body of the first arm whose test
succeeds.
-/

namespace Loxis.Whens

open Backend (Value)
open Function
open Lowering (HirPat Condition)
open Vm (Heap)

variable {E S R : Type} (itof : BitVec 64 → BitVec 64) (code : Code S R)

/-! ## The chain -/

def plain (σ : Scope) (n : String) : Meaning := ⟨σ n, none⟩

/-- The fields that an arm binds. -/
def fields (c : Check E) : List ℕ := (payloads c.condition).map Prod.snd

/-- The names in the body of an arm that a value matches. -/
def inArm (h : Heap) (v : Value) (c : Check E) (n : String) : Meaning :=
  match c.inside n with
  | .payload i j =>
    ⟨.payload i j, if i = c.arm ∧ j ∈ fields c then load h v ((j + 1) * 9) else none⟩
  | p => ⟨p, none⟩

def runBody (arm : ℕ) (ρ : String → Meaning) (s : S × Heap) (trace : List Part) : Outcome S R :=
  (trace ++ [.body arm],
    match code (.body arm) ρ s with
    | .value v s => .value v s
    | .left r => .left r)

def enter (v : Value) (c : Check E) (s : S × Heap) (trace : List Part) : Outcome S R :=
  if (fields c).all fun j => (load s.2 v ((j + 1) * 9)).isSome then
    runBody code c.arm (inArm s.2 v c) s trace
  else (trace, .failed)

def runElse (else_ : Option (ℕ × Scope)) (s : S × Heap) (trace : List Part) : Outcome S R :=
  match else_ with
  | some (arm, σ) => runBody code arm (plain σ) s trace
  | none => (trace, .unmatched s)

def chain (v : Value) (else_ : Option (ℕ × Scope)) :
    List (Check E) → S × Heap → List Part → Outcome S R
  | [], s, trace => runElse code else_ s trace
  | c :: cs, s, trace =>
    match c.condition with
    | .expr _ =>
      match code (.cond c.arm) (plain c.before) s with
      | .value b s =>
        if same itof v b then enter code v c s (trace ++ [.cond c.arm])
        else chain v else_ cs s (trace ++ [.cond c.arm])
      | .left r => (trace ++ [.cond c.arm], .left r)
    | .pat (some (.enum _ variantIndex)) =>
      match load s.2 v 0 with
      | some t =>
        if same itof t (intValue variantIndex) then enter code v c s trace
        else chain v else_ cs s trace
      | none => (trace, .failed)
    | _ => enter code v c s trace

namespace Lowered

variable (w : Lowered E)

def runChecks (v : Value) (s : S × Heap) (trace : List Part) : Outcome S R :=
  if w.checks = [] then (trace, .restarted) else chain itof code v w.else_ w.checks s trace

/-- What a `when` does. -/
def run (ret : Value) (s : S × Heap) : Outcome S R :=
  if w.noArms then ([], .unmatched s)
  else if w.hasScrut then
    match code .scrut (plain Place.around) s with
    | .value v s => w.runChecks itof code v s [.scrut]
    | .left r => ([.scrut], .left r)
  else w.runChecks itof code ret s []

end Lowered

/-! ## Configurations -/

@[simp] theorem Config.set_store (c : Config S) (l : Local) (v : Value) :
    (c.set l v).store = c.store := rfl

@[simp] theorem Config.set_trace (c : Config S) (l : Local) (v : Value) :
    (c.set l v).trace = c.trace := rfl

@[simp] theorem Config.get_set_self (c : Config S) (l : Local) (v : Value) :
    (c.set l v).get l = v := by
  simp [Config.get, Config.set]

theorem Config.locals_set_ne {l l' : Local} (h : l' ≠ l) (c : Config S) (v : Value) :
    (c.set l v).locals l' = c.locals l' := update_of_ne h _ _

theorem Config.get_set_ne {l l' : Local} (h : l' ≠ l) (c : Config S) (v : Value) :
    (c.set l v).get l' = c.get l' := by
  rw [Config.get, Config.locals_set_ne h, Config.get]

variable {w : Lowered E}

theorem Lowered.scrut_ne (w : Lowered E) {l : Local} (hs : .scrut ≠ l) (hr : .ret ≠ l) :
    w.scrut ≠ l := by
  unfold Lowered.scrut
  split
  · exact hs
  · exact hr

/-- A configuration in which no arm has been taken yet. -/
structure Untaken (w : Lowered E) (v : Value) (s : S × Heap) (trace : List Part) (c : Config S) :
    Prop where
  scrut : c.get w.scrut = v
  result : c.locals .result = none
  payload : ∀ i j, c.locals (.payload i j) = none
  store : c.store = s
  trace : c.trace = trace

namespace Untaken

variable {v : Value} {s : S × Heap} {trace : List Part} {c : Config S}

/-- The locals of a test may be set. -/
theorem set (hu : Untaken w v s trace c) {l : Local} (u : Value) (hs : w.scrut ≠ l)
    (hr : .result ≠ l) (hp : ∀ i j, .payload i j ≠ l) : Untaken w v s trace (c.set l u) where
  scrut := by rw [Config.get_set_ne hs, hu.scrut]
  result := by rw [Config.locals_set_ne hr, hu.result]
  payload i j := by rw [Config.locals_set_ne (hp i j), hu.payload i j]
  store := hu.store
  trace := hu.trace

theorem set_val (hu : Untaken w v s trace c) (p : Part) (u : Value) :
    Untaken w v s trace (c.set (.val p) u) :=
  hu.set u (w.scrut_ne nofun nofun) nofun nofun

theorem set_discr (hu : Untaken w v s trace c) (arm : ℕ) (u : Value) :
    Untaken w v s trace (c.set (.discr arm) u) :=
  hu.set u (w.scrut_ne nofun nofun) nofun nofun

theorem set_test (hu : Untaken w v s trace c) (arm : ℕ) (u : Value) :
    Untaken w v s trace (c.set (.test arm) u) :=
  hu.set u (w.scrut_ne nofun nofun) nofun nofun

theorem meaning_eq (hu : Untaken w v s trace c) (σ : Scope) : c.meaning σ = plain σ := by
  funext n
  unfold Config.meaning plain
  cases σ n with
  | payload i j =>
    simp only
    rw [hu.payload i j]
  | around | inner | whole => rfl

theorem evaluated (hu : Untaken w v s trace c) (p : Part) (s' : S × Heap) :
    Untaken w v s' (trace ++ [p]) { c with store := s', trace := c.trace ++ [p] } where
  scrut := hu.scrut
  result := hu.result
  payload := hu.payload
  store := rfl
  trace := by rw [hu.trace]

end Untaken

/-! ## Blocks -/

theorem runInstrs_append (is js : List Instr) (c : Config S) :
    runInstrs itof code (is ++ js) c =
      (runInstrs itof code is c).bind (runInstrs itof code js) := by
  induction is generalizing c with
  | nil => rfl
  | cons i is ih =>
    rw [List.cons_append, runInstrs, runInstrs]
    cases runInstr itof code i c with
    | error o => rfl
    | ok c' => exact ih c'

variable {itof code}

/-- What a body block does, after the fields have been read. -/
theorem runInstrs_evalBody {arm : ℕ} {σ : Scope} {s : S × Heap} {trace : List Part} {c : Config S}
    (hs : c.store = s) (ht : c.trace = trace) :
    (match runInstrs itof code (Lowered.evalBody arm σ) c with
      | .ok c' => c'.atExit
      | .error o => o) = runBody code arm (c.meaning σ) s trace := by
  subst hs ht
  simp only [Lowered.evalBody, runInstrs, runInstr, runBody]
  cases code (.body arm) (c.meaning σ) c.store with
  | value v s => simp [Except.bind, Config.atExit, Config.set, Config.get]
  | left r => rfl

section Fields

variable {v : Value} {arm : ℕ} {c : Config S}

/-- The instructions that read the fields `js` of the scrutinee. -/
def readFields (w : Lowered E) (arm : ℕ) (js : List ℕ) : List Instr :=
  js.map fun j => .field (.payload arm j) w.scrut ((j + 1) * 9)

theorem scrut_ne_payload (w : Lowered E) (i j : ℕ) : w.scrut ≠ .payload i j :=
  w.scrut_ne nofun nofun

variable (itof code arm) in
/-- The fields of an arm are read one after the other. -/
theorem runInstrs_readFields (js : List ℕ) (hv : c.get w.scrut = v)
    (hjs : ∀ j ∈ js, (load c.store.2 v ((j + 1) * 9)).isSome = true) :
    ∃ c', runInstrs itof code (readFields w arm js) c = .ok c' ∧ c'.store = c.store ∧
      c'.trace = c.trace ∧ ∀ i j, c'.locals (.payload i j) =
        if i = arm ∧ j ∈ js then load c.store.2 v ((j + 1) * 9) else c.locals (.payload i j) := by
  induction js generalizing c with
  | nil => exact ⟨c, rfl, rfl, rfl, by simp⟩
  | cons j js ih =>
    obtain ⟨u, hu⟩ := Option.isSome_iff_exists.mp (hjs j List.mem_cons_self)
    have hv' : (c.set (.payload arm j) u).get w.scrut = v := by
      rw [Config.get_set_ne (scrut_ne_payload w arm j), hv]
    obtain ⟨c', hrun, hstore, htrace, hlocals⟩ :=
      ih hv' fun j' hj' => hjs j' (List.mem_cons_of_mem _ hj')
    refine ⟨c', ?_, hstore, htrace, ?_⟩
    · rw [readFields, List.map_cons, runInstrs, runInstr, hv, hu]
      exact hrun
    · rintro i j'
      rw [hlocals i j', Config.set_store]
      by_cases hj : i = arm ∧ j' = j
      · obtain ⟨rfl, rfl⟩ := hj
        simp only [true_and, List.mem_cons, true_or, if_true]
        split
        · rfl
        · rw [hu]
          exact update_self ..
      · rw [Config.locals_set_ne (by rintro ⟨⟩; exact hj ⟨rfl, rfl⟩)]
        have hmem : i = arm ∧ j' ∈ j :: js ↔ i = arm ∧ j' ∈ js := by
          rw [List.mem_cons]
          tauto
        simp only [hmem]

theorem runInstrs_readFields_failed (js : List ℕ) (hv : c.get w.scrut = v)
    (hjs : ∃ j ∈ js, load c.store.2 v ((j + 1) * 9) = none) :
    runInstrs itof code (readFields w arm js) c = .error (c.trace, .failed) := by
  induction js generalizing c with
  | nil =>
    obtain ⟨j, hj, -⟩ := hjs
    cases hj
  | cons j js ih =>
    rw [readFields, List.map_cons, runInstrs, runInstr, hv]
    cases hl : load c.store.2 v ((j + 1) * 9) with
    | none => rfl
    | some u =>
      obtain ⟨j', hj', hnone⟩ := hjs
      have hmem : j' ∈ js := by
        rcases List.mem_cons.mp hj' with rfl | h
        · cases hl.symm.trans hnone
        · exact h
      exact ih (by rw [Config.get_set_ne (scrut_ne_payload w arm j), hv]) ⟨j', hmem, hnone⟩

end Fields

section Run

variable {ch : Check E} {v : Value} {s : S × Heap} {trace : List Part} {c : Config S} {k : ℕ}

theorem exec_exit (fuel : ℕ) (c : Config S) :
    exec itof code w (fuel + 1) .exit c = some c.atExit := rfl

/-- A block that is not an end of the run. -/
theorem exec_block {l : Label} (he : l ≠ .exit) (hf : l ≠ .first) (fuel : ℕ) :
    exec itof code w (fuel + 1) l c =
      match runInstrs itof code (w.block l).instrs c with
      | .ok c' => exec itof code w fuel ((w.block l).term.target c') c'
      | .error o => some o := by
  cases l with
  | exit => exact absurd rfl he
  | first => exact absurd rfl hf
  | _ => rfl

theorem exec_block_check (k fuel : ℕ) :
    exec itof code w (fuel + 1) (.check k) c =
      match runInstrs itof code (w.block (.check k)).instrs c with
      | .ok c' => exec itof code w fuel ((w.block (.check k)).term.target c') c'
      | .error o => some o :=
  exec_block (l := .check k) nofun nofun fuel

/-- A block that evaluates the body of an arm is the last one but the exit. -/
theorem exec_evalBody {l : Label} (he : l ≠ .exit) (hf : l ≠ .first) {is : List Instr} {arm : ℕ}
    {σ : Scope} {c' : Config S}
    (hl : w.block l = ⟨is ++ Lowered.evalBody arm σ, .goto .exit⟩)
    (hrun : runInstrs itof code is c = .ok c') (fuel : ℕ) :
    exec itof code w (fuel + 2) l c =
      some (runBody code arm (c'.meaning σ) c'.store c'.trace) := by
  rw [exec_block he hf, hl, runInstrs_append, hrun, ← runInstrs_evalBody rfl rfl]
  simp only [Except.bind]
  cases runInstrs itof code (Lowered.evalBody arm σ) c' with
  | ok c'' => rfl
  | error o => rfl

theorem exec_body (hk : w.checks[k]? = some ch) (hu : Untaken w v s trace c) (fuel : ℕ) :
    exec itof code w (fuel + 2) (.body k) c = some (enter code v ch s trace) := by
  have hblock : w.block (.body k) =
      ⟨readFields w ch.arm (fields ch) ++ Lowered.evalBody ch.arm ch.inside, .goto .exit⟩ := by
    simp [Lowered.block, hk, Lowered.bodyBlock, readFields, fields, comp_def]
  rw [enter]
  split_ifs with hjs
  · obtain ⟨c', hrun, hstore, htrace, hlocals⟩ := runInstrs_readFields itof code
      ch.arm (fields ch) hu.scrut (by simpa [hu.store] using hjs)
    rw [exec_evalBody (l := .body k) nofun nofun hblock hrun, hstore, htrace, hu.store, hu.trace]
    congr 2
    funext n
    unfold Config.meaning inArm
    cases ch.inside n with
    | payload i j =>
      simp only
      rw [hlocals, hu.payload, hu.store]
    | around | inner | whole => rfl
  · have hnone : ∃ j ∈ fields ch, load c.store.2 v ((j + 1) * 9) = none := by
      simpa [hu.store] using hjs
    rw [exec_block (l := .body k) nofun nofun, hblock, runInstrs_append,
      runInstrs_readFields_failed _ hu.scrut hnone, hu.trace]
    rfl

theorem exec_else {arm : ℕ} {σ : Scope} (he : w.else_ = some (arm, σ))
    (hu : Untaken w v s trace c) (fuel : ℕ) :
    exec itof code w (fuel + 2) .else_ c = some (runBody code arm (plain σ) s trace) := by
  have hblock : w.block .else_ = ⟨[] ++ Lowered.evalBody arm σ, .goto .exit⟩ := by
    simp [Lowered.block, he]
  rw [exec_evalBody (l := .else_) nofun nofun hblock rfl, hu.meaning_eq, hu.store, hu.trace]

/-! ## The run -/

/-- Where the tests of the arms from `k` on begin. -/
def Lowered.labelAt (w : Lowered E) (k : ℕ) : Label :=
  if k < w.checks.length then .check k else if w.else_.isSome then .else_ else .exit

@[simp] theorem boolValue_eq_one (b : Bool) : boolValue b = intValue 1 ↔ b = true := by
  cases b <;> simp [boolValue, intValue]

/-- The end of a test. -/
theorem target_test {b : Bool} (one otherwise : Label) (t : Local) (c : Config S) :
    (Term.switch t one otherwise).target (c.set t (boolValue b)) =
      if b then one else otherwise := by
  simp [Term.target]

theorem exec_labelAt {cs : List (Check E)} (hk : w.checks.drop k = cs)
    (hu : Untaken w v s trace c) {fuel : ℕ} (hf : 2 * cs.length + 2 ≤ fuel) :
    exec itof code w fuel (w.labelAt k) c = some (chain itof code v w.else_ cs s trace) := by
  induction cs generalizing k s trace c fuel with
  | nil =>
    obtain ⟨fuel, rfl⟩ := Nat.exists_eq_add_of_le' hf
    have hlen : ¬ k < w.checks.length := by
      have := List.drop_eq_nil_iff.mp hk
      omega
    rw [Lowered.labelAt, if_neg hlen, chain]
    unfold runElse
    cases he : w.else_ with
    | some e => exact exec_else he hu _
    | none =>
      simp only [Option.isSome_none, Bool.false_eq_true, if_false]
      rw [show fuel + (2 * ([] : List (Check E)).length + 2) = fuel + 1 + 1 by rfl, exec_exit,
        Config.atExit, hu.result, hu.store, hu.trace]
  | cons ch cs ih =>
    have hlen : k < w.checks.length := by
      by_contra h
      rw [List.drop_eq_nil_of_le (by omega)] at hk
      cases hk
    have hget : w.checks[k]? = some ch := by
      rw [List.drop_eq_getElem_cons hlen, List.cons.injEq] at hk
      rw [List.getElem?_eq_getElem hlen, hk.1]
    have hrest : w.checks.drop (k + 1) = cs := by
      rw [List.drop_eq_getElem_cons hlen, List.cons.injEq] at hk
      exact hk.2
    obtain ⟨fuel, rfl⟩ := Nat.exists_eq_add_of_le' hf
    have hblock : w.block (.check k) = w.checkBlock ch (.body k) (w.labelAt (k + 1)) := by
      rw [Lowered.block, hget]
      rfl
    have hbody : ∀ {s trace c} (f : ℕ), Untaken w v s trace c →
        exec itof code w (f + 2) (.body k) c = some (enter code v ch s trace) :=
      fun f h => exec_body hget h f
    rw [Lowered.labelAt, if_pos hlen, List.length_cons, show fuel + (2 * (cs.length + 1) + 2) =
      fuel + 2 * cs.length + 3 + 1 by omega, exec_block_check, hblock]
    unfold Lowered.checkBlock chain
    cases hc : ch.condition with
    | none => exact hbody _ hu
    | expr e =>
      simp only [runInstrs, runInstr, hu.meaning_eq, hu.store, hu.trace]
      cases code (.cond ch.arm) (plain ch.before) s with
      | left r => rfl
      | value b s' =>
        have hu' := (hu.evaluated (.cond ch.arm) s').set_val (.cond ch.arm) b
        rw [hu.trace] at hu'
        have hu'' := hu'.set_test ch.arm (boolValue (same itof v b))
        simp only [Except.bind, Config.operand, hu'.scrut, Config.get_set_self, target_test]
        split_ifs with heq
        · exact hbody _ hu''
        · exact ih hrest hu'' (by omega)
    | pat p =>
      cases p with
      | none => exact hbody _ hu
      | some p =>
        cases p with
        | wild => exact hbody _ hu
        | bind => exact hbody _ hu
        | enum elems variantIndex =>
          simp only [runInstrs, runInstr, hu.scrut, hu.store, hu.trace]
          cases load s.2 v 0 with
          | none => rfl
          | some t =>
            have hu' := hu.set_discr ch.arm t
            have hu'' := hu'.set_test ch.arm (boolValue (same itof t (intValue variantIndex)))
            simp only [Except.bind, Config.operand, Config.get_set_self, target_test]
            split_ifs with heq
            · exact hbody _ hu''
            · exact ih hrest hu'' (by omega)

end Run

section Ends

variable {ret v : Value} {s : S × Heap} {o : Outcome S R}

/-- More fuel does not change a run. -/
theorem exec_mono {fuel fuel' : ℕ} (hf : fuel ≤ fuel') {l : Label} {c : Config S}
    (h : exec itof code w fuel l c = some o) : exec itof code w fuel' l c = some o := by
  induction fuel generalizing fuel' l c with
  | zero => cases h
  | succ fuel ih =>
    obtain ⟨fuel', rfl⟩ := Nat.exists_eq_succ_of_ne_zero (by omega : fuel' ≠ 0)
    by_cases he : l = .exit
    · rw [← h, he]
      rfl
    by_cases hfirst : l = .first
    · rw [← h, hfirst]
      rfl
    rw [exec_block he hfirst] at h ⊢
    cases hrun : runInstrs itof code (w.block l).instrs c with
    | error o' =>
      rw [hrun] at h
      exact h
    | ok c' =>
      rw [hrun] at h
      exact ih (by omega) h

theorem Ends.unique {o' : Outcome S R} (h : Ends itof code w ret s o)
    (h' : Ends itof code w ret s o') : o = o' := by
  obtain ⟨f, hf⟩ := h
  obtain ⟨f', hf'⟩ := h'
  have := (exec_mono (Nat.le_max_left f f') hf).symm.trans (exec_mono (Nat.le_max_right f f') hf')
  exact Option.some.inj this

variable (itof code) in
/-- From the end of the entry the tests follow. -/
theorem exec_runChecks {trace : List Part} {c : Config S} (hu : Untaken w v s trace c) :
    ∃ fuel, exec itof code w fuel (if w.checks = [] then .first else .check 0) c =
      some (w.runChecks itof code v s trace) := by
  unfold Lowered.runChecks
  split_ifs with hc
  · refine ⟨1, ?_⟩
    rw [← hu.trace]
    rfl
  · have hlabel : Label.check 0 = w.labelAt 0 := by
      rw [Lowered.labelAt, if_pos (List.length_pos_iff.mpr hc)]
    refine ⟨2 * w.checks.length + 2, ?_⟩
    rw [hlabel]
    exact exec_labelAt List.drop_zero hu le_rfl

/-- The blocks do what the chain does. -/
theorem ends_run (w : Lowered E) (ret : Value) (s : S × Heap) :
    Ends itof code w ret s (w.run itof code ret s) := by
  unfold Lowered.run
  by_cases hn : w.noArms = true
  · refine ⟨2, ?_⟩
    rw [exec_block (l := .entry) nofun nofun, Lowered.block, if_pos hn, if_pos hn]
    rfl
  rw [if_neg hn]
  by_cases hs : w.hasScrut = true
  · have hblock : w.block .entry = ⟨[.eval .scrut Place.around .scrut],
        .goto (if w.checks = [] then .first else .check 0)⟩ := by
      rw [Lowered.block, if_neg hn, if_pos hs]
    have hmean : (Config.start ret s).meaning Place.around = plain Place.around := rfl
    rw [if_pos hs]
    cases hcode : code .scrut (plain Place.around) s with
    | left r =>
      refine ⟨1, ?_⟩
      rw [exec_block (l := .entry) nofun nofun, hblock]
      simp only [runInstrs, runInstr, hmean]
      rw [show (Config.start ret s).store = s from rfl, hcode]
      rfl
    | value v s' =>
      have hu : Untaken w v s' [.scrut]
          (({ Config.start ret s with store := s', trace := [.scrut] } : Config S).set .scrut v) :=
        { scrut := by
            rw [Lowered.scrut, if_pos hs]
            exact Config.get_set_self ..
          result := rfl
          payload := fun _ _ => rfl
          store := rfl
          trace := rfl }
      obtain ⟨fuel, hfuel⟩ := exec_runChecks itof code hu
      refine ⟨fuel + 1, ?_⟩
      rw [exec_block (l := .entry) nofun nofun, hblock]
      simp only [runInstrs, runInstr, hmean]
      rw [show (Config.start ret s).store = s from rfl, hcode]
      exact hfuel
  · have hblock : w.block .entry = ⟨[], .goto (if w.checks = [] then .first else .check 0)⟩ := by
      rw [Lowered.block, if_neg hn, if_neg hs]
    have hu : Untaken w ret s [] (Config.start ret s) :=
      { scrut := by
          rw [Lowered.scrut, if_neg hs]
          rfl
        result := rfl
        payload := fun _ _ => rfl
        store := rfl
        trace := rfl }
    obtain ⟨fuel, hfuel⟩ := exec_runChecks itof code hu
    refine ⟨fuel + 1, ?_⟩
    rw [if_neg hs, exec_block (l := .entry) nofun nofun, hblock]
    exact hfuel

theorem ends_iff : Ends itof code w ret s o ↔ o = w.run itof code ret s := by
  constructor
  · exact fun h => h.unique (ends_run w ret s)
  · rintro rfl
    exact ends_run w ret s

end Ends

end Loxis.Whens
