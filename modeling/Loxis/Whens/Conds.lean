import Loxis.Whens.Over

/-! # Whens without a scrutinee

The conditions are compared with the first local, so that the chain of tests takes the first arm
whose condition is true only if this local holds the value of true.
-/

namespace Loxis.Whens

open Backend (Value)
open Lowering (HirWhenArm Condition)
open Vm (Heap)

variable {E L S R : Type} {P : Program E L} {itof : BitVec 64 → BitVec 64} {code : Code S R}

/-! ## Tests -/

abbrev condArm (a : Arm E E × ℕ) : HirWhenArm E × ℕ := Prod.map (buildArm Condition.expr) id a

section Tests

variable {σ : Scope} {leaks : List String} {i : ℕ} {c b : E} {v : Value}
  {as : List (Arm E E × ℕ)} {else_ : Option (ℕ × Scope)} {e : Option ℕ} {s : S × Heap}
  {trace : List Part}

theorem lowerChecks_cond :
    lowerChecks P σ (((⟨some c, b⟩, i) :: as).map condArm) =
      let inside := leave (.cond i) (P.binds c) σ
      let rest := lowerChecks P (leave (.body i) (P.binds b) inside) (as.map condArm)
      (⟨i, .expr c, σ, inside⟩ :: rest.1, rest.2) := by
  simp [lowerChecks, condArm, buildArm, conditionBinds, payloads, bindPayloads]

theorem lowerChecks_else :
    lowerChecks P σ (((⟨none, b⟩, i) :: as).map condArm) =
      let rest := lowerChecks P (leave (.body i) (P.binds b) σ) (as.map condArm)
      (⟨i, .none, σ, σ⟩ :: rest.1, rest.2) := by
  simp [lowerChecks, condArm, buildArm, conditionBinds, payloads, bindPayloads]

theorem lowerChecks_condLeaks (hl : Leaks σ leaks) :
    Leaks (lowerChecks P σ (as.map condArm)).2 (leaks ++ as.flatMap (condLeaks P)) := by
  induction as generalizing σ leaks with
  | nil =>
    rw [List.flatMap_nil, List.append_nil]
    exact hl
  | cons a as ih =>
    obtain ⟨⟨_ | c, b⟩, i⟩ := a
    · rw [lowerChecks_else]
      have := ih (hl.leave (.body i) (P.binds b))
      simpa [condLeaks] using this
    · rw [lowerChecks_cond]
      have := ih ((hl.leave (.cond i) (P.binds c)).leave (.body i) (P.binds b))
      simpa [condLeaks] using this

/-- The names of `names` mean what they do around the `when`. -/
theorem Leaks.plain_eq (hl : Leaks σ leaks) {names : List String} (hn : ∀ n ∈ names, n ∉ leaks) :
    ∀ n ∈ names, plain σ n = plain Place.around n := by
  intro n hmem
  have := hl n
  rw [if_neg (hn n hmem)] at this
  rw [plain, this]
  rfl

theorem Leaks.clear (hl : Leaks σ leaks) {names : List String}
    (hn : ∀ n ∈ names, plain σ n = plain Place.around n) : ∀ n ∈ names, n ∉ leaks := by
  intro n hmem hleak
  have := hl n
  rw [if_pos hleak] at this
  exact this.1 n (congrArg Meaning.place (hn n hmem))

theorem enter_cond (ch : Check E) (hc : ch.condition = .expr c) :
    enter code v ch s trace = runBody code ch.arm (inArm s.2 v ch) s trace := by
  simp [enter, fields, payloads, hc]

/-- A condition binds no fields. -/
theorem inArm_cond (ch : Check E) (hc : ch.condition = .expr c) (h : Heap) :
    inArm h v ch = plain ch.inside := by
  funext n
  unfold inArm plain
  cases ch.inside n with
  | payload j k => simp [fields, payloads, hc]
  | around | inner | whole => rfl

@[simp] theorem boolValue_inj {b b' : Bool} : boolValue b = boolValue b' ↔ b = b' := by
  cases b <;> cases b' <;> simp [boolValue, intValue]

theorem chain_cond {cs : List (Check E)} {inside : Scope} :
    chain itof code v else_ (⟨i, .expr c, σ, inside⟩ :: cs) s trace =
      match code (.cond i) (plain σ) s with
      | .value b s =>
        if same itof v b then runBody code i (plain inside) s (trace ++ [.cond i])
        else chain itof code v else_ cs s (trace ++ [.cond i])
      | .left r => (trace ++ [.cond i], .left r) := by
  simp only [chain]
  cases code (.cond i) (plain σ) s with
  | left r => rfl
  | value u s' =>
    simp only [enter_cond (c := c) ⟨i, .expr c, σ, inside⟩ rfl,
      inArm_cond (c := c) ⟨i, .expr c, σ, inside⟩ rfl]

end Tests

/-! ## The condition is enough -/

section Enough

variable {σ : Scope} {leaks : List String} {v : Value} {as : List (Arm E E × ℕ)}
  {else_ : Option (ℕ × Scope)} {e : Option ℕ} {s : S × Heap} {trace : List Part}

theorem chain_eq_takeTrue (hl : Leaks σ leaks) (htests : ∀ b, same itof v (boolValue b) = b)
    (hbool : ∀ i ρ s u s', code (.cond i) ρ s = .value u s' → ∃ b, u = boolValue b)
    (hcond : ∀ a ∈ as, ∀ c, a.1.condition = some c → ∀ ρ ρ' s, (∀ n ∈ P.uses c, ρ n = ρ' n) →
      code (.cond a.2) ρ s = code (.cond a.2) ρ' s)
    (hbody : ∀ a ∈ as, ∀ ρ ρ' s, (∀ n ∈ P.uses a.1.body, ρ n = ρ' n) →
      code (.body a.2) ρ s = code (.body a.2) ρ' s)
    (hone : ∀ a ∈ as, a.1.condition.isSome = true)
    (hclear : ∀ pre a post, as = pre ++ a :: post →
      (∀ c, a.1.condition = some c → ∀ n ∈ P.uses c, n ∉ leaks ++ pre.flatMap (condLeaks P)) ∧
      ∀ n ∈ P.uses a.1.body,
        n ∉ leaks ++ (pre.flatMap (condLeaks P) ++ (a.1.condition.map P.binds).getD []))
    (helse : ∀ s trace, runElse code else_ s trace = takeElse code e s trace) :
    chain itof code v else_ (lowerChecks P σ (as.map condArm)).1 s trace =
      takeTrue code e as s trace := by
  induction as generalizing σ leaks s trace with
  | nil => exact helse s trace
  | cons a as ih =>
    obtain ⟨hc, hb⟩ := hclear [] a as rfl
    obtain ⟨⟨_ | c, b⟩, i⟩ := a
    · cases hone _ List.mem_cons_self
    · have hcode : code (.cond i) (plain σ) s = code (.cond i) (plain Place.around) s :=
        hcond _ List.mem_cons_self c rfl _ _ _ (hl.plain_eq (by simpa using hc c rfl))
      rw [lowerChecks_cond, chain_cond, takeTrue, hcode]
      cases hrun : code (.cond i) (plain Place.around) s with
      | left r => rfl
      | value u s' =>
        obtain ⟨t, rfl⟩ := hbool _ _ _ _ _ hrun
        simp only [htests, boolValue_inj]
        split_ifs
        · have := hbody _ List.mem_cons_self _ _ s'
            ((hl.leave (.cond i) (P.binds c)).plain_eq (by simpa using hb))
          simp only at this
          simp only [runBody, this]
        · refine ih ((hl.leave (.cond i) (P.binds c)).leave (.body i) (P.binds b))
            (fun a ha => hcond a (List.mem_cons_of_mem _ ha))
            (fun a ha => hbody a (List.mem_cons_of_mem _ ha))
            (fun a ha => hone a (List.mem_cons_of_mem _ ha)) ?_
          rintro pre a post rfl
          have := hclear ((⟨some c, b⟩, i) :: pre) a post rfl
          simpa [condLeaks] using this

end Enough

/-! ## The condition is needed -/

/-- Conditions that give the answers, or tell what their names mean, and bodies that tell what
their names mean. -/
def script (P : Program E L) (w : When E L) (answers : ℕ → Option Bool) :
    Code Unit (String → Option Meaning) := fun p ρ s =>
  let tell : String → Option Meaning := fun n =>
    if n ∈ (w.part p).elim [] P.uses then some (ρ n) else none
  match p with
  | .cond i =>
    match answers i with
    | some b => .value (boolValue b) s
    | none => .left tell
  | _ => .left tell

section Script

variable {w : When E L} {answers : ℕ → Option Bool} {s : Unit × Heap} {trace : List Part}
  {ρ ρ' : String → Meaning} {i : ℕ} {e : E}

theorem script_respects (w : When E L) (answers : ℕ → Option Bool) :
    Respects P w (script P w answers) where
  uses p e hp ρ ρ' s hρ := by
    have htell : (fun n => if n ∈ (w.part p).elim [] P.uses then some (ρ n) else none) =
        fun n => if n ∈ (w.part p).elim [] P.uses then some (ρ' n) else none := by
      funext n
      rw [hp, Option.elim_some]
      split_ifs with hn
      · rw [hρ n hn]
      · rfl
    cases p with
    | scrut | body i => exact congrArg Res.left htell
    | cond i =>
      simp only [script]
      cases answers i with
      | some b => rfl
      | none => exact congrArg Res.left htell
  boolean i ρ s v s' hv := by
    simp only [script] at hv
    cases ha : answers i with
    | some b =>
      rw [ha] at hv
      cases hv
      exact ⟨b, rfl⟩
    | none =>
      rw [ha] at hv
      cases hv

theorem tell_inj {p : Part} (hp : w.part p = some e)
    (h : (fun n => if n ∈ (w.part p).elim [] P.uses then some (ρ n) else none) =
      fun n => if n ∈ (w.part p).elim [] P.uses then some (ρ' n) else none) :
    ∀ n ∈ P.uses e, ρ n = ρ' n := by
  intro n hn
  have := congrFun h n
  simpa [hp, hn] using this

variable (answers) in
theorem script_body_tells (hp : w.part (.body i) = some e)
    (heq : runBody (script P w answers) i ρ s trace = runBody (script P w answers) i ρ' s trace) :
    ∀ n ∈ P.uses e, ρ n = ρ' n :=
  tell_inj hp (End.left.inj (Prod.mk.inj heq).2)

theorem script_answer {b : Bool} (ha : answers i = some b) :
    script P w answers (.cond i) ρ s = .value (boolValue b) s := by
  simp [script, ha]

theorem script_silent (ha : answers i = none) :
    script P w answers (.cond i) ρ s =
      .left fun n => if n ∈ (w.part (.cond i)).elim [] P.uses then some (ρ n) else none := by
  simp [script, ha]

end Script

section Traces

variable {σ : Scope} {v : Value} {as : List (Arm E E × ℕ)} {cs : List (Check E)}
  {else_ : Option (ℕ × Scope)} {e : Option ℕ} {s : S × Heap} {trace : List Part}

/-- Only bodies of arms with a condition are evaluated, and that of the first `else`. -/
theorem takeTrue_trace (code : Code S R) (e : Option ℕ) (as : List (Arm E E × ℕ)) (s : S × Heap)
    (trace : List Part) :
    ∃ mid, (takeTrue code e as s trace).1 = trace ++ mid ∧
      ∀ i, .body i ∈ mid → e = some i ∨ ∃ a ∈ as, a.2 = i ∧ a.1.condition.isSome = true := by
  induction as generalizing s trace with
  | nil =>
    cases e with
    | none => exact ⟨[], by simp [takeTrue, takeElse], by simp⟩
    | some j => exact ⟨[.body j], rfl, by simp⟩
  | cons a as ih =>
    obtain ⟨⟨_ | c, b⟩, k⟩ := a
    · obtain ⟨mid, htrace, hmid⟩ := ih s trace
      refine ⟨mid, htrace, fun i hi => ?_⟩
      rcases hmid i hi with h | ⟨a, ha, hai⟩
      · exact .inl h
      · exact .inr ⟨a, List.mem_cons_of_mem _ ha, hai⟩
    · rw [takeTrue]
      cases code (.cond k) (plain Place.around) s with
      | left r => exact ⟨[.cond k], rfl, by simp⟩
      | value u s' =>
        simp only
        split_ifs
        · refine ⟨[.cond k, .body k], by simp [runBody], fun i hi => ?_⟩
          have : i = k := by simpa using hi
          exact .inr ⟨_, List.mem_cons_self, this.symm, rfl⟩
        · obtain ⟨mid, htrace, hmid⟩ := ih s' (trace ++ [.cond k])
          refine ⟨.cond k :: mid, by simp [htrace], fun i hi => ?_⟩
          rcases hmid i (by simpa using hi) with h | ⟨a, ha, hai⟩
          · exact .inl h
          · exact .inr ⟨a, List.mem_cons_of_mem _ ha, hai⟩

theorem enter_trace (code : Code S R) (v : Value) (c : Check E) (s : S × Heap)
    (trace : List Part) :
    ∃ mid, (enter code v c s trace).1 = trace ++ mid ∧ ∀ i, .body i ∈ mid → i = c.arm := by
  unfold enter
  split_ifs
  · exact ⟨[.body c.arm], rfl, by simp⟩
  · exact ⟨[], by simp, by simp⟩

variable (itof) in
/-- Only bodies of arms that are tested are evaluated, and that of the first `else`. -/
theorem chain_trace (code : Code S R) (v : Value) (else_ : Option (ℕ × Scope))
    (cs : List (Check E)) (s : S × Heap) (trace : List Part) :
    ∃ mid, (chain itof code v else_ cs s trace).1 = trace ++ mid ∧
      ∀ i, .body i ∈ mid → else_.map Prod.fst = some i ∨ ∃ c ∈ cs, c.arm = i := by
  induction cs generalizing s trace with
  | nil =>
    cases else_ with
    | none => exact ⟨[], by simp [chain, runElse], by simp⟩
    | some j => exact ⟨[.body j.1], rfl, by simp⟩
  | cons c cs ih =>
    have hrest : ∀ s trace, ∃ mid, (chain itof code v else_ cs s trace).1 = trace ++ mid ∧
        ∀ i, .body i ∈ mid → else_.map Prod.fst = some i ∨ ∃ c' ∈ c :: cs, c'.arm = i := by
      intro s trace
      obtain ⟨mid, htrace, hmid⟩ := ih s trace
      refine ⟨mid, htrace, fun i hi => ?_⟩
      rcases hmid i hi with h | ⟨c', hc', hi⟩
      · exact .inl h
      · exact .inr ⟨c', List.mem_cons_of_mem _ hc', hi⟩
    have henter : ∀ s trace, ∃ mid, (enter code v c s trace).1 = trace ++ mid ∧
        ∀ i, .body i ∈ mid → else_.map Prod.fst = some i ∨ ∃ c' ∈ c :: cs, c'.arm = i := by
      intro s trace
      obtain ⟨mid, htrace, hmid⟩ := enter_trace code v c s trace
      exact ⟨mid, htrace, fun i hi => .inr ⟨c, List.mem_cons_self, (hmid i hi).symm⟩⟩
    unfold chain
    split
    · cases code (.cond c.arm) (plain c.before) s with
      | left r => exact ⟨[.cond c.arm], rfl, by simp⟩
      | value b s' =>
        simp only
        split_ifs
        · obtain ⟨mid, htrace, hmid⟩ := henter s' (trace ++ [.cond c.arm])
          exact ⟨.cond c.arm :: mid, by simp [htrace], fun i hi => hmid i (by simpa using hi)⟩
        · obtain ⟨mid, htrace, hmid⟩ := hrest s' (trace ++ [.cond c.arm])
          exact ⟨.cond c.arm :: mid, by simp [htrace], fun i hi => hmid i (by simpa using hi)⟩
    · split
      · split_ifs
        · exact henter s trace
        · exact hrest s trace
      · exact ⟨[], by simp, by simp⟩
    · exact henter s trace

theorem lowerChecks_arms :
    (lowerChecks P σ (as.map condArm)).1.map Check.arm = as.map Prod.snd := by
  induction as generalizing σ with
  | nil => rfl
  | cons a as ih =>
    obtain ⟨⟨_ | c, b⟩, i⟩ := a
    · rw [lowerChecks_else]
      simp [ih]
    · rw [lowerChecks_cond]
      simp [ih]

/-- A body that is evaluated by the rest of the chain is one of the rest. -/
theorem chain_ne_body {i : ℕ} {o : Outcome S R} (ho : o.1 = trace ++ [.body i])
    (hi : i ∉ cs.map Check.arm) (he : else_.map Prod.fst ≠ some i) :
    chain itof code v else_ cs s trace ≠ o := by
  rintro rfl
  obtain ⟨mid, htrace, hmid⟩ := chain_trace itof code v else_ cs s trace
  have : mid = [.body i] := by simpa using htrace.symm.trans ho
  rcases hmid i (by simp [this]) with h | ⟨c, hc, rfl⟩
  · exact he h
  · exact hi (List.mem_map_of_mem hc)

theorem takeTrue_ne_body {i : ℕ} {o : Outcome S R} (ho : o.1 = trace ++ [.body i])
    (hi : ∀ a ∈ as, a.1.condition.isSome = true → a.2 ≠ i) (he : e ≠ some i) :
    takeTrue code e as s trace ≠ o := by
  rintro rfl
  obtain ⟨mid, htrace, hmid⟩ := takeTrue_trace code e as s trace
  have : mid = [.body i] := by simpa using htrace.symm.trans ho
  rcases hmid i (by simp [this]) with h | ⟨a, ha, hai, hsome⟩
  · exact he h
  · exact hi a ha hsome hai

end Traces

section Needed

variable {w : When E L} {σ : Scope} {leaks : List String} {v : Value} {as : List (Arm E E × ℕ)}
  {else_ : Option (ℕ × Scope)} {e : Option ℕ} {s : Unit × Heap} {trace : List Part}

/-- One arm gets an answer of its own, and the others are false. -/
def answer (i : ℕ) (b : Option Bool) : ℕ → Option Bool := Function.update (fun _ => some false) i b

theorem answer_self (i : ℕ) (b : Option Bool) : answer i b i = b := Function.update_self ..

theorem answer_of_not_mem {done : List ℕ} {i : ℕ} (hi : i ∉ done) (b : Option Bool) :
    ∀ j ∈ done, answer i b j = some false := by
  intro j hj
  exact Function.update_of_ne (by rintro rfl; exact hi hj) _ _

/-- A chain that takes the first arm whose condition is true, for all answers, meets the
condition. -/
theorem sound_of_chain_eq_takeTrue (done : List ℕ) (hl : Leaks σ leaks)
    (hparts : ∀ a ∈ as, w.part (.body a.2) = some a.1.body ∧ w.part (.cond a.2) = a.1.condition)
    (hnodup : (as.map Prod.snd).Nodup) (hdone : ∀ a ∈ as, a.2 ∉ done)
    (he : ∀ a ∈ as, e ≠ some a.2) (hels : else_.map Prod.fst = e)
    (heq : ∀ answers, (∀ j ∈ done, answers j = some false) →
      chain itof (script P w answers) v else_ (lowerChecks P σ (as.map condArm)).1 s trace =
        takeTrue (script P w answers) e as s trace) :
    (as ≠ [] → ∀ b, same itof v (boolValue b) = b) ∧
    (∀ a ∈ as, a.1.condition.isSome = true) ∧
    (∀ pre a post, as = pre ++ a :: post →
      (∀ c, a.1.condition = some c → ∀ n ∈ P.uses c, n ∉ leaks ++ pre.flatMap (condLeaks P)) ∧
      ∀ n ∈ P.uses a.1.body,
        n ∉ leaks ++ (pre.flatMap (condLeaks P) ++ (a.1.condition.map P.binds).getD [])) ∧
    ∃ answers trace', runElse (script P w answers) else_ s trace' =
      takeElse (script P w answers) e s trace' := by
  induction as generalizing σ leaks done trace with
  | nil =>
    refine ⟨by simp, by simp, by simp, fun _ => some false, trace, ?_⟩
    exact heq (fun _ => some false) fun _ _ => rfl
  | cons a as ih =>
    obtain ⟨hnot, hnodup'⟩ := List.nodup_cons.mp hnodup
    have hdone' := hdone a List.mem_cons_self
    have he' := he a List.mem_cons_self
    obtain ⟨hbody, hcond⟩ := hparts a List.mem_cons_self
    obtain ⟨⟨_ | c, b⟩, i⟩ := a
    · have h := heq (fun _ => some false) fun _ _ => rfl
      rw [lowerChecks_else] at h
      refine absurd h.symm (takeTrue_ne_body (i := i) ?_ ?_ he')
      · simp [chain, enter, fields, payloads, runBody]
      · intro a ha hsome hai
        rcases List.mem_cons.mp ha with rfl | ha
        · cases hsome
        · exact hnot (List.mem_map.mpr ⟨a, ha, hai⟩)
    · have hl' := hl.leave (.cond i) (P.binds c)
      have hrest : i ∉ (lowerChecks P (leave (.body i) (P.binds b) (leave (.cond i) (P.binds c) σ))
          (as.map condArm)).1.map Check.arm := by
        rw [lowerChecks_arms]
        exact hnot
      simp only [lowerChecks_cond, chain_cond, takeTrue] at heq
      have hsilent := heq _ (answer_of_not_mem hdone' none)
      rw [script_silent (answer_self i none), script_silent (answer_self i none)] at hsilent
      have hclear : ∀ n ∈ P.uses c, n ∉ leaks :=
        hl.clear (tell_inj hcond (End.left.inj (Prod.mk.inj hsilent).2))
      have htrue := heq _ (answer_of_not_mem hdone' (some true))
      rw [script_answer (answer_self i (some true)), script_answer (answer_self i (some true))]
        at htrue
      simp only [if_true] at htrue
      have hsameTrue : same itof v (boolValue true) = true := by
        by_contra hne
        rw [if_neg hne] at htrue
        exact chain_ne_body rfl hrest (hels ▸ he') htrue
      rw [if_pos hsameTrue] at htrue
      have hbodyClear : ∀ n ∈ P.uses b, n ∉ leaks ++ P.binds c :=
        hl'.clear (script_body_tells _ hbody htrue)
      have hfalse : ∀ answers, (∀ j ∈ i :: done, answers j = some false) →
          (if same itof v (boolValue false) = true then
            runBody (script P w answers) i (plain (leave (.cond i) (P.binds c) σ)) s
              (trace ++ [.cond i])
          else chain itof (script P w answers) v else_
            (lowerChecks P (leave (.body i) (P.binds b) (leave (.cond i) (P.binds c) σ))
              (as.map condArm)).1 s (trace ++ [.cond i])) =
            takeTrue (script P w answers) e as s (trace ++ [.cond i]) := by
        intro answers hans
        have h := heq answers fun j hj => hans j (List.mem_cons_of_mem _ hj)
        rw [script_answer (hans i List.mem_cons_self), script_answer (hans i List.mem_cons_self)]
          at h
        simpa using h
      have hsameFalse : same itof v (boolValue false) = false := by
        by_contra hne
        have h := hfalse (fun _ => some false) fun _ _ => rfl
        rw [if_pos (by simpa using hne)] at h
        refine takeTrue_ne_body rfl ?_ he' h.symm
        intro a ha _ hai
        exact hnot (List.mem_map.mpr ⟨a, ha, hai⟩)
      simp only [hsameFalse, Bool.false_eq_true, if_false] at hfalse
      obtain ⟨-, hone, hclears, helse⟩ := ih (i :: done) (hl'.leave (.body i) (P.binds b))
        (fun a ha => hparts a (List.mem_cons_of_mem _ ha)) hnodup'
        (fun a ha h => by
          rcases List.mem_cons.mp h with h | h
          · exact hnot (List.mem_map.mpr ⟨a, ha, h⟩)
          · exact hdone a (List.mem_cons_of_mem _ ha) h)
        (fun a ha => he a (List.mem_cons_of_mem _ ha)) hfalse
      refine ⟨fun _ => ?_, ?_, ?_, helse⟩
      · rintro (_ | _)
        · exact hsameFalse
        · exact hsameTrue
      · intro a ha
        rcases List.mem_cons.mp ha with rfl | ha
        · rfl
        · exact hone a ha
      · rintro pre a post hsplit
        cases pre with
        | nil =>
          cases hsplit
          refine ⟨?_, ?_⟩
          · rintro c' hc'
            cases hc'
            simpa using hclear
          · simpa using hbodyClear
        | cons d pre =>
          cases hsplit
          have := hclears pre a post rfl
          simpa [condLeaks] using this

end Needed

/-! ## The whole when -/

section Whole

variable {arms : List (Arm E E)} {ret v : Value} {h : Heap}

/-- What the lowered tests and the lowered `else` of a `when` without a scrutinee are. -/
abbrev condChecks (P : Program E L) (arms : List (Arm E E)) : List (Check E) × Scope :=
  lowerChecks P Place.around ((tested arms).map condArm)

theorem condChecks_leaks :
    Leaks (condChecks P arms).2 ((tested arms).flatMap (condLeaks P)) := by
  have : Leaks (condChecks P arms).2 ([] ++ (tested arms).flatMap (condLeaks P)) :=
    lowerChecks_condLeaks Leaks.around
  simpa using this

theorem lowerWhen_conds :
    lowerWhen P (buildWhen P (.conds arms)) =
      ⟨false, arms.isEmpty, (condChecks P arms).1,
        (arms.zipIdx.find? isElse).map fun a => (a.2, (condChecks P arms).2)⟩ := by
  simp only [lowerWhen, buildWhen, tested_build, else_build, scopeIn, Option.map_map]
  simp [Function.comp_def]

theorem run_conds (hne : arms ≠ []) {s : S × Heap} :
    (lowerWhen P (buildWhen P (.conds arms))).run itof code ret s =
      if tested arms = [] then ([], .restarted)
      else chain itof code ret
        ((arms.zipIdx.find? isElse).map fun a => (a.2, (condChecks P arms).2))
        (condChecks P arms).1 s [] := by
  have hemp : ¬ arms.isEmpty = true := by simpa using hne
  rw [lowerWhen_conds, Lowered.run, if_neg hemp, if_neg (by simp)]
  simp only [Lowered.runChecks, lowerChecks_eq_nil, List.map_eq_nil_iff]

/-- An `else` is passed over. -/
theorem takeTrue_append_else {e : Option ℕ} {pre post : List (Arm E E × ℕ)} {a : Arm E E × ℕ}
    (ha : a.1.condition = none) (s : S × Heap) (trace : List Part) :
    takeTrue code e (pre ++ a :: post) s trace = takeTrue code e (pre ++ post) s trace := by
  induction pre generalizing s trace with
  | nil =>
    obtain ⟨⟨_ | c, b⟩, i⟩ := a
    · rfl
    · cases ha
  | cons d pre ih =>
    obtain ⟨⟨_ | c, b⟩, i⟩ := d
    · exact ih s trace
    · simp only [List.cons_append, takeTrue, ih]

theorem takeTrue_tested {e : Option ℕ} (s : S × Heap) (trace : List Part) :
    takeTrue code e arms.zipIdx s trace = takeTrue code e (tested arms) s trace := by
  cases ha : arms.zipIdx.find? isElse with
  | none => rw [tested_of_no_else ha]
  | some a =>
    obtain ⟨pre, post, hsplit, htested, hnone⟩ := split_else ha
    rw [hsplit, htested, takeTrue_append_else hnone]

theorem SoundConds.correct (hs : SoundConds P itof arms ret) :
    (When.conds arms : When E L).Correct P itof ret v h := by
  rintro S R code s hr -
  rw [ends_iff, run_conds (tested_ne_nil_of hs.nonempty), if_neg hs.nonempty, When.spec,
    takeTrue_tested]
  refine (chain_eq_takeTrue Leaks.around hs.tests hr.boolean ?_ ?_ hs.oneElse ?_
    ?_).symm
  · intro a ha c hc ρ ρ' s' hρ
    exact hr.uses _ c (by simp [When.part, getElem?_of_tested ha, hc]) ρ ρ' _ hρ
  · intro a ha ρ ρ' s' hρ
    exact hr.uses _ _ (by simp [When.part, getElem?_of_tested ha]) ρ ρ' _ hρ
  · simpa using hs.clear
  · intro s' trace
    unfold firstElse
    cases ha : arms.zipIdx.find? isElse with
    | none => rfl
    | some a =>
      have huses : code (.body a.2) (plain (condChecks P arms).2) s' =
          code (.body a.2) (plain Place.around) s' :=
        hr.uses _ a.1.body (by simp [When.part, getElem?_of_else ha]) _ _ _
          (condChecks_leaks.plain_eq (hs.else_ a ha))
      simp only [Option.map_some, runElse, takeElse, runBody, huses]

theorem SoundConds.of_correct (hne : arms ≠ [])
    (hc : (When.conds arms : When E L).Correct P itof ret v h) : SoundConds P itof arms ret := by
  set w : When E L := .conds arms with hw
  have heq : ∀ answers, takeTrue (script P w answers) (firstElse arms) (tested arms) ((), h) [] =
      if tested arms = [] then ([], .restarted)
      else chain itof (script P w answers) ret
        ((arms.zipIdx.find? isElse).map fun a => (a.2, (condChecks P arms).2))
        (condChecks P arms).1 ((), h) [] := by
    intro answers
    have := ends_iff.mp (hc _ _ (script P w answers) ((), h) (script_respects w answers) trivial)
    rw [hw, run_conds hne, When.spec, takeTrue_tested] at this
    exact this
  have hnonempty : tested arms ≠ [] := by
    intro hnil
    have := heq fun _ => none
    rw [if_pos hnil, hnil] at this
    unfold takeTrue takeElse at this
    cases he : firstElse arms <;> rw [he] at this <;> cases this
  simp only [if_neg hnonempty] at heq
  obtain ⟨htests, hone, hclear, answers, trace, helse⟩ :=
    sound_of_chain_eq_takeTrue [] Leaks.around
      (fun a ha => by simp [hw, When.part, getElem?_of_tested ha]) (tested_nodup arms) (by simp)
      (fun a ha => firstElse_ne ha) (by simp [firstElse, Function.comp_def])
      fun answers _ => (heq answers).symm
  refine ⟨hnonempty, htests hnonempty, hone, by simpa using hclear, ?_⟩
  intro a ha
  unfold firstElse at helse
  rw [ha] at helse
  exact condChecks_leaks.clear
    (script_body_tells answers (s := ((), h))
      (by simp [hw, When.part, getElem?_of_else ha]) helse)

/-- Without arms nothing is evaluated. -/
theorem correct_nil : (When.conds [] : When E L).Correct P itof ret v h := by
  rintro S R code s - -
  rw [ends_iff]
  rfl

end Whole

end Loxis.Whens
