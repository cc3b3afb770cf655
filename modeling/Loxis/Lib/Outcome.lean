import Mathlib.Tactic.Common

/-! # Programs with state and exceptions

A program changes a state and ends with a result or with an exception; the changes made
before an exception stay. `Ends` gives a postcondition for either end.
-/

namespace Loxis

universe u

variable {ε σ α β : Type u} {x : EStateM ε σ α} {f : α → EStateM ε σ β} {s : σ}
  {Q Q' : α → σ → Prop} {R : β → σ → Prop} {E E' : ε → σ → Prop}

/-- From this state the program ends with a result that satisfies `Q` or an exception that
satisfies `E`. -/
def Ends (x : EStateM ε σ α) (s : σ) (Q : α → σ → Prop) (E : ε → σ → Prop) : Prop :=
  match x s with
  | .ok a s' => Q a s'
  | .error e s' => E e s'

namespace Ends

theorem pure {a : α} (h : Q a s) : Ends (Pure.pure a) s Q E := h

theorem throw {e : ε} (h : E e s) : Ends (MonadExcept.throw e) s Q E := h

theorem bind (h : Ends x s (fun a s' => Ends (f a) s' R E) E) : Ends (x >>= f) s R E := by
  unfold Ends at h ⊢
  change match EStateM.bind x f s with | .ok a s' => R a s' | .error e s' => E e s'
  unfold EStateM.bind
  cases hx : x s with
  | ok a s' => rwa [hx] at h
  | error e s' => rwa [hx] at h

theorem mono (h : Ends x s Q E) (hQ : ∀ a s', Q a s' → Q' a s') (hE : ∀ e s', E e s' → E' e s') :
    Ends x s Q' E' := by
  unfold Ends at h ⊢
  split
  · next hx => rw [hx] at h; exact hQ _ _ h
  · next hx => rw [hx] at h; exact hE _ _ h

/-- The rule for sequences with what is known of the first program. -/
theorem seq (h : Ends x s Q E') (hQ : ∀ a s', Q a s' → Ends (f a) s' R E)
    (hE : ∀ e s', E' e s' → E e s') : Ends (x >>= f) s R E :=
  .bind (h.mono hQ hE)

theorem and (h : Ends x s Q E) (h' : Ends x s Q' E') :
    Ends x s (fun a s' => Q a s' ∧ Q' a s') fun e s' => E e s' ∧ E' e s' := by
  unfold Ends at h h' ⊢
  split
  · next hx => rw [hx] at h h'; exact ⟨h, h'⟩
  · next hx => rw [hx] at h h'; exact ⟨h, h'⟩

theorem of_ok {a : α} {s' : σ} (h : Ends x s Q E) (hx : x s = .ok a s') : Q a s' := by
  unfold Ends at h
  rwa [hx] at h

theorem of_error {e : ε} {s' : σ} (h : Ends x s Q E) (hx : x s = .error e s') : E e s' := by
  unfold Ends at h
  rwa [hx] at h

/-- A program that is known to end with one result. -/
theorem of_eq {a : α} {s' : σ} (hx : x s = .ok a s') (h : Q a s') : Ends x s Q E := by
  unfold Ends
  rwa [hx]

/-- A program that is known to end with one exception. -/
theorem of_eq_error {e : ε} {s' : σ} (hx : x s = .error e s') (h : E e s') : Ends x s Q E := by
  unfold Ends
  rwa [hx]

end Ends

theorem bind_ok {a : α} {s' : σ} (h : x s = .ok a s') : (x >>= f) s = f a s' := by
  change EStateM.bind x f s = f a s'
  rw [EStateM.bind, h]

theorem bind_error {e : ε} {s' : σ} (h : x s = .error e s') : (x >>= f) s = .error e s' := by
  change EStateM.bind x f s = .error e s'
  rw [EStateM.bind, h]

/-! ## Loops -/

section Loop

variable {ε σ α : Type} {s : σ} {E : ε → σ → Prop}

/-- A loop with its local variables, which gives up after so many turns. -/
def whileLoop (stuck : ε) (cond : α → EStateM ε σ Bool) (body : α → EStateM ε σ α) :
    ℕ → α → EStateM ε σ α
  | 0, _ => throw stuck
  | n + 1, a => cond a >>= fun b => if b then body a >>= whileLoop stuck cond body n else pure a

/-- The rule for a loop of `N` turns: what holds after each number of turns. -/
theorem Ends.counted {stuck : ε} {cond : α → EStateM ε σ Bool} {body : α → EStateM ε σ α}
    (N : ℕ) (I : ℕ → α → σ → Prop)
    (hcond : ∀ n a s, n ≤ N → I n a s → cond a s = .ok (decide (n < N)) s)
    (hbody : ∀ n a s, n < N → I n a s → Ends (body a) s (I (n + 1)) E)
    {a : α} (h : I 0 a s) {fuel : ℕ} (hfuel : N < fuel) :
    Ends (whileLoop stuck cond body fuel a) s (I N) E := by
  suffices hn : ∀ n ≤ N, ∀ fuel, N - n < fuel → ∀ a s, I n a s →
      Ends (whileLoop stuck cond body fuel a) s (I N) E from
    hn 0 (Nat.zero_le N) fuel hfuel a s h
  intro n hn fuel
  induction fuel generalizing n with
  | zero => omega
  | succ fuel ih =>
    intro hfuel a s h
    refine .bind (.of_eq (hcond n a s hn h) ?_)
    rcases Nat.lt_or_eq_of_le hn with hlt | rfl
    · rw [if_pos (decide_eq_true hlt)]
      exact .seq (hbody n a s hlt h) (fun a' s' h' => ih (n + 1) hlt (by omega) a' s' h')
        fun _ _ h' => h'
    · rw [if_neg (by simp)]
      exact .pure h

end Loop

/-! ## Sequences of calls -/

/-- How a program ends, and the state that it leaves. -/
def outcome (x : EStateM ε σ α) (s : σ) : Except ε α × σ :=
  match x s with
  | .ok a s' => (.ok a, s')
  | .error e s' => (.error e, s')

theorem Ends.outcome (h : Ends x s Q E) :
    (∃ a s', Loxis.outcome x s = (.ok a, s') ∧ Q a s') ∨
      ∃ e s', Loxis.outcome x s = (.error e, s') ∧ E e s' := by
  unfold Ends at h
  unfold Loxis.outcome
  split at h
  · exact .inl ⟨_, _, rfl, h⟩
  · exact .inr ⟨_, _, rfl, h⟩

variable {ι : Type*} {τ : Type*}

/-- Calls one after the other, each from the state that the one before has left. -/
def attempts (call : ι → EStateM ε σ α) : List ι → σ → List (Except ε α) × σ
  | [], s => ([], s)
  | i :: is, s =>
    let (o, s') := outcome (call i) s
    let (os, s'') := attempts call is s'
    (o :: os, s'')

/-- The steps of an abstract machine with these results. -/
inductive Steps (step : τ → ι → Except ε α → τ → Prop) :
    τ → List ι → List (Except ε α) → τ → Prop
  | nil (t : τ) : Steps step t [] [] t
  | cons {t t' t'' : τ} {i : ι} {is : List ι} {o : Except ε α} {os : List (Except ε α)} :
      step t i o t' → Steps step t' is os t'' → Steps step t (i :: is) (o :: os) t''

/-- Calls that each simulate a step simulate the steps in any order. -/
theorem attempts_steps {call : ι → EStateM ε σ α} {step : τ → ι → Except ε α → τ → Prop}
    {R : σ → τ → Prop}
    (h : ∀ i s t, R s t → ∃ t', step t i (outcome (call i) s).1 t' ∧ R (outcome (call i) s).2 t')
    (is : List ι) {s : σ} {t : τ} (hR : R s t) :
    ∃ t', Steps step t is (attempts call is s).1 t' ∧ R (attempts call is s).2 t' := by
  induction is generalizing s t with
  | nil => exact ⟨t, .nil t, hR⟩
  | cons i is ih =>
    obtain ⟨t', hstep, hR'⟩ := h i s t hR
    obtain ⟨t'', hsteps, hR''⟩ := ih hR'
    exact ⟨t'', .cons hstep hsteps, hR''⟩

theorem attempts_inv {call : ι → EStateM ε σ α} {P : σ → Prop}
    (h : ∀ i s, P s → P (outcome (call i) s).2) (is : List ι) {s : σ} (hs : P s) :
    P (attempts call is s).2 := by
  induction is generalizing s with
  | nil => exact hs
  | cons i is ih => exact ih (h i s hs)

end Loxis
