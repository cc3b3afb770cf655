import Loxis.Ranges.Desugar

/-! # The turns of a loop over a range

One turn steps the index, evaluates the upper bound and runs the body.
-/

namespace Loxis.Ranges

open Function

variable {S R : Type} {f : For} {c : Code S R}

/-! ## One turn -/

def State.stepIndex (c : Code S R) (t : State S) : State S := t.set c (t.own .index + 1) .index

namespace For

variable (f : For) (c : Code S R)

/-- The scope of the upper bound. -/
def hiScope : Scope := update (leave .lo (f.names .lo).binds Place.around) forIndex .index

/-- The scope after the upper bound. -/
def elemScope : Scope := leave .hi (f.names .hi).binds f.hiScope

def bodyScope : Scope :=
  match f.var with
  | some x => update f.elemScope x .elem
  | none => f.elemScope

/-- The index is past the end. -/
def past (x hi : BitVec 64) : Bool := if f.inclusive then hi.slt x else hi.sle x

def bindElem (t : State S) : State S :=
  match f.var with
  | some _ => t.set c (t.get c (f.elemScope forIndex)) .elem
  | none => t

def runBody (t : State S) : Exit R × State S := (f.bindElem c t).user f c f.bodyScope .body

/-- A turn of the loop. -/
def turn (t : State S) : Exit R × State S :=
  match (t.stepIndex c).user f c f.hiScope .hi with
  | (.value b, u) => if f.past (t.own .index + 1) b then (.brk none, u) else f.runBody c u
  | e => e

end For

@[simp] theorem ite_bit {α : Type} (b : Bool) (x y : α) :
    (if (if b = true then (1 : BitVec 64) else 0) = 1 then x else y) =
      if b = true then x else y := by
  cases b <;> simp

theorem eval_wrapWithPat (fuel : ℕ) (t : State S) :
    eval f c fuel f.elemScope (f.wrapWithPat (.path forIndex) (.user .body)) t =
      some (f.runBody c t) := by
  unfold For.wrapWithPat For.runBody For.bindElem For.bodyScope
  cases f.var <;> rfl

theorem eval_turn (fuel : ℕ) (t : State S) :
    eval f c fuel f.hiScope
      (.seq (.assign forIndex (.bin .add (.path forIndex) (.int 1)))
        (.seq (.if_ (.bin (if f.inclusive then .gt else .ge) (.path forIndex) (.user .hi)) .break_)
          (f.wrapWithPat (.path forIndex) (.user .body)))) t = some (f.turn c t) := by
  have hindex : f.hiScope forIndex = .index := update_self ..
  have hstep : t.set c (t.get c .index + 1) .index = t.stepIndex c := rfl
  have hown : (t.stepIndex c).get c .index = t.own .index + 1 := by
    simp only [State.get, State.stepIndex, State.set, update_self]
  simp only [eval, andThen, after, hindex, BinOp.apply, hstep, hown]
  unfold For.turn
  rcases (t.stepIndex c).user f c f.hiScope .hi with ⟨b | l | l | r, u⟩
  · have hscope : leave .hi (f.names .hi).binds f.hiScope = f.elemScope := rfl
    simp only [hscope, eval_wrapWithPat]
    unfold For.past
    cases f.inclusive <;> simp only [Bool.false_eq_true, if_true, if_false, ite_bit] <;>
      split_ifs <;> rfl
  · rfl
  · rfl
  · rfl

theorem eval_desugarFor (fuel : ℕ) (t : State S) :
    eval f c fuel Place.around f.desugarFor t =
      match t.user f c Place.around .lo with
      | (.value a, u) =>
        iterate f.label (fun t => some (f.turn c t)) fuel (u.set c (a - 1) .index)
      | e => some e := by
  change andThen (andThen (some (t.user f c Place.around .lo)) fun x s =>
      andThen (some (.value 1, s)) fun y s => some (.value (x - y), s))
    (fun v s => iterate f.label (fun s => eval f c fuel f.hiScope _ s) fuel (s.set c v .index)) = _
  simp only [eval_turn]
  rcases t.user f c Place.around .lo with ⟨a | l | l | r, u⟩ <;> rfl

end Loxis.Ranges

/-! ## When a range is iterated

The upper bound is evaluated again before every further turn, so that a loop does what it should
only if it has at most one.
-/

namespace Loxis.Ranges

open Function

variable {S R : Type}

section Defs

variable (f : For) (c : Code S R)

/-- An evaluation after which the loop goes on. -/
def GoesOn (r : Res S R) : Prop :=
  (∃ v s, r = .value v s) ∨ ∃ l s, r = .cont l s ∧ targets f.label l = true

/-- A first turn with the element `a` that runs the body as it should, and is the last one. -/
structure LastTurn (a : BitVec 64) (s : S) : Prop where
  names : ∀ n ∈ (f.names .body).uses, f.var ≠ some n →
    n ≠ forIndex ∧ n ∉ (f.names .lo).binds ∧ n ∉ (f.names .hi).binds
  elem : ∀ x ∈ (f.names .body).uses, f.var = some x → forIndex ∈ (f.names .hi).binds →
    c.read (.inner .hi forIndex) s = a
  leaves : ¬ GoesOn f (c.eval .body (f.bodyMeaning a) s)

/-- The condition: the upper bound does not look up the index or what the lower bound declares and
does not jump to the loop, and the range is empty or the first turn is the last one. -/
structure Sound (s : S) : Prop where
  names : ∀ a s₁, c.eval .lo around s = .value a s₁ → ∀ n ∈ (f.names .hi).uses,
    n ≠ forIndex ∧ n ∉ (f.names .lo).binds
  stays : ∀ a s₁ l s₂, c.eval .lo around s = .value a s₁ →
    c.eval .hi around s₁ = .brk l s₂ ∨ c.eval .hi around s₁ = .cont l s₂ →
      targets f.label l = false
  once : ∀ a s₁ b s₂, c.eval .lo around s = .value a s₁ → c.eval .hi around s₁ = .value b s₂ →
    f.past a b = false → LastTurn f c a s₂

end Defs

variable {f : For} {c : Code S R}

/-! ## Names -/

theorem event_eq_iff {p : Part} {ρ ρ' : String → Meaning} :
    f.event p ρ = f.event p ρ' ↔ ∀ n ∈ (f.names p).uses, ρ n = ρ' n := by
  constructor
  · intro h n hn
    have := congrFun (congrArg Event.env h) n
    simpa [For.event, hn] using this
  · intro h
    unfold For.event
    congr 1
    funext n
    split_ifs with hn
    · rw [h n hn]
    · rfl

theorem meaning_around (t : State S) : t.meaning Place.around = around := rfl

theorem hiMeaning_eq_iff {t : State S} {n : String} :
    t.meaning f.hiScope n = around n ↔ n ≠ forIndex ∧ n ∉ (f.names .lo).binds := by
  unfold State.meaning For.hiScope
  by_cases hn : n = forIndex
  · subst hn
    simp [around]
  · rw [update_of_ne hn]
    unfold leave
    by_cases hb : n ∈ (f.names .lo).binds <;> simp [hn, hb, around]

theorem elemScope_eq_around_iff {n : String} :
    f.elemScope n = .around n ↔
      n ≠ forIndex ∧ n ∉ (f.names .lo).binds ∧ n ∉ (f.names .hi).binds := by
  unfold For.elemScope For.hiScope leave
  by_cases hhi : n ∈ (f.names .hi).binds
  · simp [hhi]
  · by_cases hn : n = forIndex
    · subst hn
      simp [hhi]
    · rw [if_neg hhi, update_of_ne hn]
      by_cases hlo : n ∈ (f.names .lo).binds <;> simp [hn, hlo, hhi]

theorem bodyScope_self {x : String} (hx : f.var = some x) : f.bodyScope x = .elem := by
  simp [For.bodyScope, hx]

theorem bodyScope_of_ne {n : String} (hn : f.var ≠ some n) : f.bodyScope n = f.elemScope n := by
  unfold For.bodyScope
  cases hv : f.var with
  | none => rfl
  | some x => exact update_of_ne (by rintro rfl; exact hn hv) _ _

/-- The value that the loop variable is bound to. -/
theorem bindElem_elem {t : State S} {x : String} (hx : f.var = some x) :
    (f.bindElem c t).own .elem =
      if forIndex ∈ (f.names .hi).binds then c.read (.inner .hi forIndex) t.store
      else t.own .index := by
  unfold For.bindElem
  rw [hx]
  simp only [State.set, update_self, For.elemScope, leave]
  split_ifs
  · rfl
  · rw [For.hiScope, update_self]
    rfl

theorem bindElem_store (t : State S) : (f.bindElem c t).store = t.store := by
  unfold For.bindElem
  cases f.var <;> rfl

theorem bindElem_trace (t : State S) : (f.bindElem c t).trace = t.trace := by
  unfold For.bindElem
  cases f.var <;> rfl

theorem bodyMeaning_eq_iff {t : State S} {a : BitVec 64} {n : String} (ha : t.own .index = a) :
    (f.bindElem c t).meaning f.bodyScope n = f.bodyMeaning a n ↔
      (f.var ≠ some n → n ≠ forIndex ∧ n ∉ (f.names .lo).binds ∧ n ∉ (f.names .hi).binds) ∧
        (f.var = some n → forIndex ∈ (f.names .hi).binds →
          c.read (.inner .hi forIndex) t.store = a) := by
  unfold State.meaning For.bodyMeaning
  by_cases hn : f.var = some n
  · rw [bodyScope_self hn, if_pos hn]
    simp only [bindElem_elem hn, ha]
    by_cases hb : forIndex ∈ (f.names .hi).binds <;> simp [hn, hb]
  · rw [bodyScope_of_ne hn, if_neg hn, ← elemScope_eq_around_iff]
    constructor
    · intro h
      refine ⟨fun _ => ?_, fun h => absurd h hn⟩
      have := congrArg Meaning.place h
      rw [show (around n).place = .around n from rfl] at this
      rw [← this]
      split <;> simp_all
    · intro h
      rw [h.1 hn]
      rfl

/-! ## Traces -/

theorem user_trace (t : State S) (σ : Scope) (p : Part) :
    (t.user f c σ p).2.trace = t.trace ++ [f.event p (t.meaning σ)] := by
  simp only [State.user]
  cases c.eval p (t.meaning σ) t.store <;> rfl

theorem runBody_trace (t : State S) :
    (f.runBody c t).2.trace =
      t.trace ++ [f.event .body ((f.bindElem c t).meaning f.bodyScope)] := by
  rw [For.runBody, user_trace, bindElem_trace]

/-- The event of the upper bound in a turn. -/
def For.hiEvent (f : For) (c : Code S R) (t : State S) : Event :=
  f.event .hi ((t.stepIndex c).meaning f.hiScope)

theorem turn_trace (t : State S) :
    ∃ mid, (f.turn c t).2.trace = t.trace ++ f.hiEvent c t :: mid := by
  have htrace := user_trace (f := f) (c := c) (t.stepIndex c) f.hiScope .hi
  unfold For.turn
  generalize (t.stepIndex c).user f c f.hiScope .hi = o at htrace ⊢
  obtain ⟨b | l | l | r, u⟩ := o
  · simp only
    have htrace : u.trace = t.trace ++ [f.hiEvent c t] := htrace
    split_ifs
    · exact ⟨[], htrace⟩
    · refine ⟨[f.event .body ((f.bindElem c u).meaning f.bodyScope)], ?_⟩
      rw [runBody_trace, htrace, List.append_assoc]
      rfl
  all_goals exact ⟨[], htrace⟩

/-- A loop evaluates its upper bound first. -/
theorem iterate_trace {fuel : ℕ} {t : State S} {e : Exit R × State S}
    (h : iterate f.label (fun t => some (f.turn c t)) fuel t = some e) :
    ∃ mid, e.2.trace = t.trace ++ f.hiEvent c t :: mid := by
  induction fuel generalizing t with
  | zero => cases h
  | succ fuel ih =>
    obtain ⟨mid, hmid⟩ := turn_trace (f := f) (c := c) t
    have hrest : ∀ u, u.trace = t.trace ++ f.hiEvent c t :: mid →
        iterate f.label (fun t => some (f.turn c t)) fuel u = some e →
          ∃ mid, e.2.trace = t.trace ++ f.hiEvent c t :: mid := by
      intro u hu hrun
      obtain ⟨mid', hmid'⟩ := ih hrun
      refine ⟨mid ++ f.hiEvent c u :: mid', ?_⟩
      rw [hmid', hu]
      simp
    unfold iterate at h
    rcases hturn : f.turn c t with ⟨v | l | l | r, u⟩
    · rw [hturn] at hmid h
      exact hrest u hmid h
    · rw [hturn] at hmid h
      cases h
      exact ⟨mid, hmid⟩
    · rw [hturn] at hmid h
      simp only at h
      split_ifs at h
      · exact hrest u hmid h
      · cases h
        exact ⟨mid, hmid⟩
    · rw [hturn] at hmid h
      cases h
      exact ⟨mid, hmid⟩

/-- A range evaluates nothing but its body after the bounds. -/
theorem passes_trace (count : ℕ) (x : BitVec 64) (s : S) (trace : List Event) :
    ∃ mid, (f.passes c count x s trace).1 = trace ++ mid ∧ ∀ e ∈ mid, e.part = .body := by
  induction count generalizing x s trace with
  | zero => exact ⟨[], by simp [For.passes], by simp⟩
  | succ count ih =>
    have hrest : ∀ s', ∃ mid,
        (f.passes c count (x + 1) s' (trace ++ [f.event .body (f.bodyMeaning x)])).1 =
          trace ++ mid ∧ ∀ e ∈ mid, e.part = .body := by
      intro s'
      obtain ⟨mid, hmid, hbody⟩ := ih (x + 1) s' (trace ++ [f.event .body (f.bodyMeaning x)])
      refine ⟨f.event .body (f.bodyMeaning x) :: mid, by rw [hmid, List.append_assoc]; rfl, ?_⟩
      intro e he
      rcases List.mem_cons.mp he with rfl | he
      · rfl
      · exact hbody e he
    have hone : ∃ mid, trace ++ [f.event .body (f.bodyMeaning x)] = trace ++ mid ∧
        ∀ e ∈ mid, e.part = .body :=
      ⟨[f.event .body (f.bodyMeaning x)], rfl, by simp [For.event]⟩
    simp only [For.passes]
    cases c.eval .body (f.bodyMeaning x) s with
    | value v s' => exact hrest s'
    | brk l s' => exact hone
    | left r => exact hone
    | cont l s' =>
      simp only
      split_ifs
      · exact hrest s'
      · exact hone

theorem passes_succ_trace (count : ℕ) (x : BitVec 64) (s : S) (trace : List Event) :
    ∃ mid, (f.passes c (count + 1) x s trace).1 =
      trace ++ f.event .body (f.bodyMeaning x) :: mid := by
  simp only [For.passes]
  have hrest := fun s' => passes_trace (f := f) (c := c) count (x + 1) s'
    (trace ++ [f.event .body (f.bodyMeaning x)])
  cases c.eval .body (f.bodyMeaning x) s with
  | value v s' =>
    obtain ⟨mid, hmid, -⟩ := hrest s'
    exact ⟨mid, by rw [hmid, List.append_assoc]; rfl⟩
  | brk l s' => exact ⟨[], rfl⟩
  | left r => exact ⟨[], rfl⟩
  | cont l s' =>
    simp only
    split_ifs
    · obtain ⟨mid, hmid, -⟩ := hrest s'
      exact ⟨mid, by rw [hmid, List.append_assoc]; rfl⟩
    · exact ⟨[], rfl⟩

/-! ## Sizes -/

theorem size_eq_zero_iff {a b : BitVec 64} : f.size a b = 0 ↔ f.past a b = true := by
  unfold For.size For.past
  have ha := BitVec.toInt_lt (x := a)
  cases f.inclusive
  · simp only [Bool.false_eq_true, if_false, BitVec.sle_iff_toInt_le]
    omega
  · simp only [if_true, BitVec.slt_iff_toInt_lt]
    omega

/-! ## The first turn -/

/-- How an expression ends in a state. -/
def exitOf (t : State S) (e : Event) : Res S R → Exit R × State S
  | .value v s => (.value v, ⟨t.own, s, t.trace ++ [e]⟩)
  | .brk l s => (.brk l, ⟨t.own, s, t.trace ++ [e]⟩)
  | .cont l s => (.cont l, ⟨t.own, s, t.trace ++ [e]⟩)
  | .left r => (.left r, ⟨t.own, t.store, t.trace ++ [e]⟩)

theorem user_eq (hr : Respects f c) {t : State S} {σ : Scope} {p : Part} {ρ : String → Meaning}
    (hρ : ∀ n ∈ (f.names p).uses, t.meaning σ n = ρ n) :
    t.user f c σ p = exitOf t (f.event p ρ) (c.eval p ρ t.store) := by
  simp only [State.user, hr p _ ρ t.store hρ, event_eq_iff.mpr hρ]
  cases c.eval p ρ t.store <;> rfl

/-- The state in front of the first turn. -/
def atLoop (f : For) (c : Code S R) (a : BitVec 64) (s : S) : State S :=
  State.set c ⟨fun _ => 0, s, [f.event .lo around]⟩ (a - 1) .index

theorem stepIndex_atLoop (a : BitVec 64) (s : S) :
    ((atLoop f c a s).stepIndex c).own .index = a := by
  simp only [atLoop, State.stepIndex, State.set, update_self]
  exact BitVec.sub_add_cancel a 1

theorem atLoop_index (a : BitVec 64) (s : S) : (atLoop f c a s).own .index + 1 = a := by
  simp only [atLoop, State.set, update_self]
  exact BitVec.sub_add_cancel a 1

section First

variable {s s₁ s₂ : S} {a b : BitVec 64}

theorem eval_start (fuel : ℕ) :
    eval f c fuel Place.around f.desugarFor ⟨fun _ => 0, s, []⟩ =
      match c.eval .lo around s with
      | .value a s₁ =>
        iterate f.label (fun t => some (f.turn c t)) fuel (atLoop f c a s₁)
      | r => some (exitOf ⟨fun _ => 0, s, []⟩ (f.event .lo around) r) := by
  rw [eval_desugarFor]
  simp only [State.user, meaning_around]
  cases c.eval .lo around s <;> rfl

/-- The upper bound of the first turn. -/
theorem turn_atLoop (hr : Respects f c)
    (hnames : ∀ n ∈ (f.names .hi).uses, n ≠ forIndex ∧ n ∉ (f.names .lo).binds) :
    f.turn c (atLoop f c a s₁) =
      match exitOf ((atLoop f c a s₁).stepIndex c) (f.event .hi around) (c.eval .hi around s₁) with
      | (.value b, u) => if f.past a b then (.brk none, u) else f.runBody c u
      | e => e := by
  have hρ : ∀ n ∈ (f.names .hi).uses,
      ((atLoop f c a s₁).stepIndex c).meaning f.hiScope n = around n :=
    fun n hn => hiMeaning_eq_iff.mpr (hnames n hn)
  unfold For.turn
  rw [user_eq hr hρ, atLoop_index]
  rfl

/-- The events of both bounds. -/
theorem spec_value (hlo : c.eval .lo around s = .value a s₁) :
    ∃ mid, (f.spec c s).1 = f.event .lo around :: f.event .hi around :: mid := by
  simp only [For.spec, hlo]
  cases c.eval .hi around s₁ with
  | value b s₂ =>
    obtain ⟨mid, hmid, -⟩ := passes_trace (f := f) (c := c) (f.size a b) a s₂
      [f.event .lo around, f.event .hi around]
    exact ⟨mid, hmid⟩
  | brk l s₂ | cont l s₂ | left r => exact ⟨[], rfl⟩

/-- The body of the first turn, with the names that it should see. -/
theorem runBody_eq (hr : Respects f c) {t : State S} (ha : t.own .index = a)
    (hnames : ∀ n ∈ (f.names .body).uses, f.var ≠ some n →
      n ≠ forIndex ∧ n ∉ (f.names .lo).binds ∧ n ∉ (f.names .hi).binds)
    (helem : ∀ x ∈ (f.names .body).uses, f.var = some x → forIndex ∈ (f.names .hi).binds →
      c.read (.inner .hi forIndex) t.store = a) :
    f.runBody c t = exitOf (f.bindElem c t) (f.event .body (f.bodyMeaning a))
      (c.eval .body (f.bodyMeaning a) t.store) := by
  rw [For.runBody, user_eq hr (ρ := f.bodyMeaning a), bindElem_store]
  exact fun n hn => (bodyMeaning_eq_iff ha).mpr ⟨hnames n hn, helem n hn⟩

/-! ## The condition -/

/-- A loop that meets the condition does what it should, in one turn. -/
theorem Sound.iterates (hr : Respects f c) (hs : Sound f c s) : f.Iterates c s := by
  unfold For.Iterates
  refine ⟨1, ?_⟩
  simp only [eval_start, For.spec]
  cases hlo : c.eval .lo around s with
  | brk l s₁ | cont l s₁ | left r => exact ⟨_, rfl, rfl⟩
  | value a s₁ =>
    simp only [iterate, turn_atLoop hr (hs.names a s₁ hlo)]
    cases hhi : c.eval .hi around s₁ with
    | left r => exact ⟨_, rfl, rfl⟩
    | brk l s₂ =>
      have := hs.stays a s₁ l s₂ hlo (.inl hhi)
      exact ⟨_, rfl, by simp [this, outcome, atLoop, State.stepIndex, State.set]⟩
    | cont l s₂ =>
      have := hs.stays a s₁ l s₂ hlo (.inr hhi)
      simp only [exitOf, this, Bool.false_eq_true, if_false]
      exact ⟨_, rfl, rfl⟩
    | value b s₂ =>
      simp only [exitOf]
      by_cases hp : f.past a b = true
      · rw [if_pos hp, size_eq_zero_iff.mpr hp]
        exact ⟨_, rfl, rfl⟩
      · have hp : f.past a b = false := by simpa using hp
        have hlast := hs.once a s₁ b s₂ hlo hhi hp
        obtain ⟨count, hcount⟩ := Nat.exists_eq_succ_of_ne_zero
          (fun h => by simp [size_eq_zero_iff.mp h] at hp : f.size a b ≠ 0)
        rw [hcount, if_neg (by simp [hp]), runBody_eq hr (t := ⟨_, s₂, _⟩) (stepIndex_atLoop a s₁)
          hlast.names hlast.elem]
        simp only [For.passes]
        have hleaves := hlast.leaves
        cases hbody : c.eval .body (f.bodyMeaning a) s₂ with
        | value v s₃ => exact absurd (.inl ⟨v, s₃, hbody⟩) hleaves
        | left r => exact ⟨_, rfl, by simp [outcome, bindElem_trace]; rfl⟩
        | brk l s₃ =>
          refine ⟨_, rfl, ?_⟩
          by_cases hl : targets f.label l = true
          · simp [outcome, bindElem_trace, hl]
            rfl
          · simp [outcome, bindElem_trace, hl]
            rfl
        | cont l s₃ =>
          by_cases hl : targets f.label l = true
          · exact absurd (.inr ⟨l, s₃, hbody, hl⟩) hleaves
          · simp only [exitOf, hl, Bool.false_eq_true, if_false]
            exact ⟨_, rfl, by simp [outcome, bindElem_trace]; rfl⟩

theorem outcome_fst (e : Exit R × State S) : (outcome e).1 = e.2.trace := by
  obtain ⟨v | l | l | r, t⟩ := e <;> rfl

/-- A loop that goes on evaluates its upper bound again. -/
theorem iterate_ne {fuel : ℕ} {t : State S} {e : Exit R × State S} {trace : List Event}
    (mid : List Event)
    (hrun : iterate f.label (fun t => some (f.turn c t)) fuel t = some e)
    (ht : t.trace = trace) (he : e.2.trace = trace ++ mid) (hmid : ∀ x ∈ mid, x.part = .body) :
    False := by
  obtain ⟨rest, hrest⟩ := iterate_trace hrun
  rw [he, ht, List.append_cancel_left_eq] at hrest
  have := hmid (f.hiEvent c t) (by simp [hrest])
  cases this

theorem names_of_iterate {fuel : ℕ} {e : Exit R × State S} (hlo : c.eval .lo around s = .value a s₁)
    (hrun : iterate f.label (fun t => some (f.turn c t)) fuel (atLoop f c a s₁) = some e)
    (hout : outcome e = f.spec c s) :
    ∀ n ∈ (f.names .hi).uses, n ≠ forIndex ∧ n ∉ (f.names .lo).binds := by
  obtain ⟨mid, hmid⟩ := iterate_trace hrun
  obtain ⟨mid', hmid'⟩ := spec_value (f := f) hlo
  rw [← hout, outcome_fst, hmid] at hmid'
  have hevent : f.hiEvent c (atLoop f c a s₁) = f.event .hi around := by
    have : f.event .lo around :: f.hiEvent c (atLoop f c a s₁) :: mid =
        f.event .lo around :: f.event .hi around :: mid' := hmid'
    simp only [List.cons.injEq, true_and] at this
    exact this.1
  intro n hn
  exact hiMeaning_eq_iff.mp (event_eq_iff.mp hevent n hn)

theorem Sound.of_value (hlo : c.eval .lo around s = .value a s₁)
    (hnames : ∀ n ∈ (f.names .hi).uses, n ≠ forIndex ∧ n ∉ (f.names .lo).binds)
    (hstays : ∀ l s₂, c.eval .hi around s₁ = .brk l s₂ ∨ c.eval .hi around s₁ = .cont l s₂ →
      targets f.label l = false)
    (honce : ∀ b s₂, c.eval .hi around s₁ = .value b s₂ → f.past a b = false →
      LastTurn f c a s₂) : Sound f c s where
  names a' s' h := by
    cases hlo.symm.trans h
    exact hnames
  stays a' s' l s₂ h := by
    cases hlo.symm.trans h
    exact hstays l s₂
  once a' s' b s₂ h := by
    cases hlo.symm.trans h
    exact honce b s₂

/-- What is left of a loop when a turn has ended. -/
def goOn (f : For) (c : Code S R) (fuel : ℕ) : Exit R × State S → Option (Exit R × State S)
  | (.value _, t) => iterate f.label (fun t => some (f.turn c t)) fuel t
  | (.cont l, t) =>
    if targets f.label l then iterate f.label (fun t => some (f.turn c t)) fuel t
    else some (.cont l, t)
  | (.brk l, t) => some (if targets f.label l then .value 0 else .brk l, t)
  | (.left r, t) => some (.left r, t)

theorem iterate_succ (fuel : ℕ) (t : State S) :
    iterate f.label (fun t => some (f.turn c t)) (fuel + 1) t = goOn f c fuel (f.turn c t) := by
  rw [iterate]
  rcases f.turn c t with ⟨v | l | l | r, u⟩ <;> rfl

theorem goOn_trace {fuel : ℕ} {o e : Exit R × State S} (h : goOn f c fuel o = some e) :
    ∃ mid, e.2.trace = o.2.trace ++ mid := by
  obtain ⟨v | l | l | r, u⟩ := o
  · obtain ⟨mid, hmid⟩ := iterate_trace h
    exact ⟨_, hmid⟩
  · cases h
    exact ⟨[], (List.append_nil _).symm⟩
  · simp only [goOn] at h
    split_ifs at h
    · obtain ⟨mid, hmid⟩ := iterate_trace h
      exact ⟨_, hmid⟩
    · cases h
      exact ⟨[], (List.append_nil _).symm⟩
  · cases h
    exact ⟨[], (List.append_nil _).symm⟩

/-- The first turn of a loop that does what it should is the last one. -/
theorem lastTurn_of_goOn (hr : Respects f c) {fuel count : ℕ} {t : State S}
    {e : Exit R × State S} (ha : t.own .index = a)
    (hrun : goOn f c fuel (f.runBody c t) = some e)
    (hout : outcome e = f.passes c (count + 1) a t.store t.trace) : LastTurn f c a t.store := by
  have hevent : f.event .body ((f.bindElem c t).meaning f.bodyScope) =
      f.event .body (f.bodyMeaning a) := by
    obtain ⟨mid, hmid⟩ := goOn_trace hrun
    obtain ⟨mid', hmid'⟩ := passes_succ_trace (f := f) (c := c) count a t.store t.trace
    rw [← hout, outcome_fst, hmid, runBody_trace, List.append_assoc,
      List.append_cancel_left_eq] at hmid'
    exact (List.cons.inj hmid').1
  have hmeaning := fun n hn => (bodyMeaning_eq_iff ha).mp (event_eq_iff.mp hevent n hn)
  refine ⟨fun n hn => (hmeaning n hn).1, fun n hn => (hmeaning n hn).2, ?_⟩
  rw [runBody_eq hr ha (fun n hn => (hmeaning n hn).1) fun n hn => (hmeaning n hn).2] at hrun
  -- Another turn would show in the trace.
  have hagain : ∀ s' mid, (∀ x ∈ mid, x.part = Part.body) →
      (outcome e).1 = t.trace ++ [f.event .body (f.bodyMeaning a)] ++ mid →
      iterate f.label (fun t => some (f.turn c t)) fuel
        ⟨(f.bindElem c t).own, s', (f.bindElem c t).trace ++ [f.event .body (f.bodyMeaning a)]⟩ =
          some e → False := by
    intro s' mid hmid hout hrun
    refine iterate_ne mid hrun rfl ?_ hmid
    rw [bindElem_trace, ← outcome_fst, hout]
  rintro (⟨v, s', h⟩ | ⟨l, s', h, hl⟩)
  · simp only [For.passes, h] at hout
    rw [h] at hrun
    obtain ⟨mid, hmid, hbody⟩ := passes_trace (f := f) (c := c) count (a + 1) s'
      (t.trace ++ [f.event .body (f.bodyMeaning a)])
    exact hagain s' mid hbody (by rw [hout, hmid]) hrun
  · simp only [For.passes, h, hl, if_true] at hout
    rw [h, exitOf, goOn, if_pos hl] at hrun
    obtain ⟨mid, hmid, hbody⟩ := passes_trace (f := f) (c := c) count (a + 1) s'
      (t.trace ++ [f.event .body (f.bodyMeaning a)])
    exact hagain s' mid hbody (by rw [hout, hmid]) hrun

/-- A loop that does what it should meets the condition. -/
theorem Sound.of_iterates (hr : Respects f c) (h : f.Iterates c s) : Sound f c s := by
  obtain ⟨fuel, e, heval, hout⟩ := h
  rw [eval_start] at heval
  cases hlo : c.eval .lo around s with
  | brk l s₁ | cont l s₁ | left r => constructor <;> simp [hlo]
  | value a s₁ =>
    rw [hlo] at heval
    have hnames := names_of_iterate hlo heval hout
    obtain ⟨fuel, rfl⟩ : ∃ n, fuel = n + 1 := by
      cases fuel with
      | zero => cases heval
      | succ n => exact ⟨n, rfl⟩
    simp only [For.spec, hlo] at hout
    simp only [iterate_succ, turn_atLoop hr hnames] at heval
    cases hhi : c.eval .hi around s₁ with
    | left r =>
      refine .of_value hlo hnames ?_ ?_
      · rintro l s₂ (h | h) <;> cases hhi.symm.trans h
      · intro b s₂ h
        cases hhi.symm.trans h
    | brk l s₂ =>
      rw [hhi] at heval hout
      refine .of_value hlo hnames ?_ ?_
      · rintro l s₂ (h | h) <;> cases hhi.symm.trans h
        by_contra hl
        have hl : targets f.label l = true := by simpa using hl
        simp only [exitOf, goOn, hl, if_true] at heval
        cases heval
        cases hout
      · intro b s₂ h
        cases hhi.symm.trans h
    | cont l s₂ =>
      rw [hhi] at heval hout
      refine .of_value hlo hnames ?_ ?_
      · rintro l s₂ (h | h) <;> cases hhi.symm.trans h
        by_contra hl
        have hl : targets f.label l = true := by simpa using hl
        simp only [exitOf, goOn, hl, if_true] at heval
        refine iterate_ne [] heval rfl ?_ (by simp)
        rw [← outcome_fst, hout]
        rfl
      · intro b s₂ h
        cases hhi.symm.trans h
    | value b s₂ =>
      rw [hhi] at heval hout
      refine .of_value hlo hnames ?_ ?_
      · rintro l s₂ (h | h) <;> cases hhi.symm.trans h
      · rintro b s₂ h hp
        cases hhi.symm.trans h
        obtain ⟨count, hcount⟩ := Nat.exists_eq_succ_of_ne_zero
          (fun h => by simp [size_eq_zero_iff.mp h] at hp : f.size a b ≠ 0)
        simp only [hcount] at hout
        simp only [exitOf, hp, Bool.false_eq_true, if_false] at heval
        exact lastTurn_of_goOn (t := ⟨_, s₂, _⟩) hr (stepIndex_atLoop a s₁) heval hout

end First

/-! ## A range whose end is the largest integer -/

section Sample

/-- The bounds of a loop are values, and its body does nothing. -/
def constCode (lo hi : BitVec 64) : Code Unit Empty where
  eval p _ s :=
    match p with
    | .lo => .value lo s
    | .hi => .value hi s
    | .body => .value 0 s
  read _ _ := 0
  write _ _ s := s

theorem constCode_respects (f : For) (lo hi : BitVec 64) : Respects f (constCode lo hi) := by
  intro p ρ ρ' s h
  cases p <;> rfl

/-- `for x in lo..=hi { }`. -/
def inclusiveLoop : For := ⟨some "x", true, none, fun _ => ⟨[], []⟩⟩

/-- The index is never past the largest integer. -/
theorem turn_goes_on (t : State Unit) :
    ∃ u, inclusiveLoop.turn (constCode (BitVec.intMax 64) (BitVec.intMax 64)) t =
      (.value 0, u) := by
  have hp : inclusiveLoop.past (t.own .index + 1) (BitVec.intMax 64) = false := by
    have := BitVec.toInt_lt (x := t.own .index + 1)
    have hmax : (BitVec.intMax 64).toInt = 2 ^ 63 - 1 := by decide
    have : ¬ (BitVec.intMax 64).toInt < (t.own .index + 1).toInt := by omega
    rw [← BitVec.slt_iff_toInt_lt, Bool.not_eq_true] at this
    exact this
  simp only [For.turn, State.user, constCode, hp, Bool.false_eq_true, if_false]
  exact ⟨_, rfl⟩

end Sample

end Loxis.Ranges

/-! ## Ranges with a constant end

A loop whose upper bound is a constant runs its body for every element in order and stops, unless
the range is inclusive and ends at the largest integer.
-/

namespace Loxis.Ranges

variable {S R : Type} {f : For} {c : Code S R} {b : BitVec 64}

theorem toInt_succ {x y : BitVec 64} (h : x.toInt < y.toInt) : (x + 1).toInt = x.toInt + 1 := by
  have hx := BitVec.le_toInt x
  have hy := BitVec.toInt_lt (x := y)
  have hone : (1 : BitVec 64).toInt = 1 := by decide
  rw [BitVec.toInt_add, hone, Int.bmod_eq_of_le (by omega) (by omega)]

/-- The next element leaves one fewer. -/
theorem size_succ {count : ℕ} {x : BitVec 64} (hmax : f.inclusive = true → b ≠ BitVec.intMax 64)
    (h : f.size x b = count + 1) : f.size (x + 1) b = count := by
  unfold For.size at h ⊢
  cases hi : f.inclusive with
  | false =>
    simp only [hi, Bool.false_eq_true, if_false] at h ⊢
    rw [toInt_succ (y := b) (by omega)]
    omega
  | true =>
    simp only [hi, if_true] at h ⊢
    have hb : b.toInt < (BitVec.intMax 64).toInt := by
      have hle := BitVec.toInt_lt (x := b)
      have heq : (BitVec.intMax 64).toInt = 2 ^ 63 - 1 := by decide
      have hne : b.toInt ≠ (BitVec.intMax 64).toInt := fun h => hmax hi (BitVec.eq_of_toInt_eq h)
      omega
    rw [toInt_succ (y := BitVec.intMax 64) (by omega)]
    omega

/-- The events but those of the upper bound. -/
def apartFromHi (trace : List Event) : List Event := trace.filter fun e => e.part ≠ .hi

theorem apartFromHi_append (as bs : List Event) :
    apartFromHi (as ++ bs) = apartFromHi as ++ apartFromHi bs := List.filter_append ..

/-- A loop with a constant end that looks up nothing of the loop. -/
structure ConstantEnd (f : For) (c : Code S R) (b : BitVec 64) : Prop where
  respects : Respects f c
  value : ∀ ρ s, c.eval .hi ρ s = .value b s
  bounded : f.inclusive = true → b ≠ BitVec.intMax 64
  names : ∀ n ∈ (f.names .body).uses, f.var ≠ some n →
    n ≠ forIndex ∧ n ∉ (f.names .lo).binds ∧ n ∉ (f.names .hi).binds
  elem : forIndex ∉ (f.names .hi).binds

theorem ConstantEnd.turn_eq (hc : ConstantEnd f c b) {t : State S} {x : BitVec 64}
    (hx : t.own .index + 1 = x) :
    ∃ u, u.own .index = x ∧ u.store = t.store ∧ u.trace = t.trace ++ [f.hiEvent c t] ∧
      f.turn c t = if f.past x b then (.brk none, u) else
        exitOf (f.bindElem c u) (f.event .body (f.bodyMeaning x))
          (c.eval .body (f.bodyMeaning x) u.store) := by
  have hindex : (t.stepIndex c).own .index = x := by
    simp only [State.stepIndex, State.set, Function.update_self]
    exact hx
  refine ⟨⟨(t.stepIndex c).own, t.store, t.trace ++ [f.hiEvent c t]⟩, hindex, rfl, rfl, ?_⟩
  rw [For.turn, State.user, hc.value, hx]
  refine if_congr Iff.rfl rfl ?_
  exact runBody_eq (t := ⟨(t.stepIndex c).own, t.store, t.trace ++ [f.hiEvent c t]⟩) hc.respects
    hindex hc.names fun _ _ _ h => absurd h hc.elem

theorem ConstantEnd.iterate_eq (hc : ConstantEnd f c b) {count : ℕ} {x : BitVec 64} {t : State S}
    {trace : List Event} (hx : t.own .index + 1 = x) (hsize : f.size x b = count)
    (htrace : apartFromHi t.trace = apartFromHi trace) :
    ∃ fuel e, iterate f.label (fun t => some (f.turn c t)) fuel t = some e ∧
      (outcome e).2 = (f.passes c count x t.store trace).2 ∧
      apartFromHi (outcome e).1 = apartFromHi (f.passes c count x t.store trace).1 := by
  induction count generalizing x t trace with
  | zero =>
    obtain ⟨u, -, hstore, hutrace, hturn⟩ := hc.turn_eq hx
    rw [if_pos (size_eq_zero_iff.mp hsize)] at hturn
    refine ⟨1, (.value 0, u), ?_, by rw [← hstore]; rfl, ?_⟩
    · rw [iterate_succ, hturn]
      rfl
    · rw [outcome_fst, hutrace, apartFromHi_append, htrace]
      exact List.append_nil _
  | succ count ih =>
    obtain ⟨u, hindex, hstore, hutrace, hturn⟩ := hc.turn_eq hx
    have hpast : ¬ f.past x b = true := by
      rw [← size_eq_zero_iff, hsize]
      omega
    rw [if_neg hpast, hstore] at hturn
    have happ : apartFromHi (u.trace ++ [f.event .body (f.bodyMeaning x)]) =
        apartFromHi (trace ++ [f.event .body (f.bodyMeaning x)]) := by
      rw [apartFromHi_append, apartFromHi_append, hutrace, apartFromHi_append, htrace]
      exact congrArg (· ++ _) (List.append_nil _)
    have hbind : (f.bindElem c u).own .index + 1 = x + 1 := by
      rw [← hindex]
      unfold For.bindElem
      cases f.var <;> rfl
    -- The turns that are left.
    have hrest : ∀ s', ∃ fuel e,
        iterate f.label (fun t => some (f.turn c t)) fuel ⟨(f.bindElem c u).own, s',
          (f.bindElem c u).trace ++ [f.event .body (f.bodyMeaning x)]⟩ = some e ∧
        (outcome e).2 = (f.passes c count (x + 1) s'
          (trace ++ [f.event .body (f.bodyMeaning x)])).2 ∧
        apartFromHi (outcome e).1 = apartFromHi (f.passes c count (x + 1) s'
          (trace ++ [f.event .body (f.bodyMeaning x)])).1 := by
      intro s'
      rw [bindElem_trace]
      exact ih hbind (size_succ hc.bounded hsize) happ
    simp only [For.passes]
    cases hbody : c.eval .body (f.bodyMeaning x) t.store with
    | value v s' =>
      obtain ⟨fuel, e, he, hend, hevents⟩ := hrest s'
      refine ⟨fuel + 1, e, ?_, hend, hevents⟩
      rw [iterate_succ, hturn, hbody]
      exact he
    | left r =>
      refine ⟨1, _, by rw [iterate_succ, hturn, hbody]; rfl, rfl, ?_⟩
      rw [outcome_fst, bindElem_trace, happ]
    | brk l s' =>
      refine ⟨1, _, by rw [iterate_succ, hturn, hbody]; rfl, ?_, ?_⟩
      · by_cases hl : targets f.label l = true <;> simp [hl, outcome]
      · rw [outcome_fst, bindElem_trace, happ]
    | cont l s' =>
      by_cases hl : targets f.label l = true
      · obtain ⟨fuel, e, he, hend, hevents⟩ := hrest s'
        simp only [hl, if_true]
        refine ⟨fuel + 1, e, ?_, hend, hevents⟩
        rw [iterate_succ, hturn, hbody, exitOf, goOn, if_pos hl]
        exact he
      · simp only [hl, Bool.false_eq_true, if_false]
        refine ⟨1, _, by rw [iterate_succ, hturn, hbody, exitOf, goOn, if_neg hl], rfl, ?_⟩
        rw [outcome_fst, bindElem_trace, happ]

/-- Apart from further evaluations of its end, a loop with a constant end does what it should. -/
theorem ConstantEnd.iterates (hc : ConstantEnd f c b) (s : S) :
    ∃ fuel e, eval f c fuel Place.around f.desugarFor ⟨fun _ => 0, s, []⟩ = some e ∧
      (outcome e).2 = (f.spec c s).2 ∧
      apartFromHi (outcome e).1 = apartFromHi (f.spec c s).1 := by
  simp only [eval_start, For.spec]
  cases c.eval .lo around s with
  | brk l s₁ | cont l s₁ | left r => exact ⟨0, _, rfl, rfl, rfl⟩
  | value a s₁ =>
    simp only [hc.value]
    exact hc.iterate_eq (atLoop_index a s₁) rfl rfl

end Loxis.Ranges
