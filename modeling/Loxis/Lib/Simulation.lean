import Mathlib.Tactic.Common

/-! # Simulation of stateful programs

Two programs over their own states, the first of which can fail, run in step when they take
related states to related states. The relation has an index, for what is fixed between two
points of the programs.
-/

namespace Loxis

universe u

variable {σ ρ ε α β γ δ : Type} {τ : Type u}

/-- Where the first program does not fail, the second one ends in a related state with a related
result. -/
def Sim (R : τ → σ → ρ → Prop) (V : α → β → Prop) (x : StateT σ (Except ε) α)
    (y : StateM ρ β) : Prop :=
  ∀ t s w a s', R t s w → x s = .ok (a, s') → V a (y w).1 ∧ R t s' (y w).2

/-- Running the first program alone keeps the states related. -/
def Silent (R : τ → σ → ρ → Prop) (x : StateT σ (Except ε) α) : Prop :=
  ∀ t s w a s', R t s w → x s = .ok (a, s') → R t s' w

section State

variable {x : StateT σ (Except ε) α} {f : α → StateT σ (Except ε) β} {s s' : σ} {b : β}

/-- A program that does not fail splits at a bind. -/
theorem bind_eq_ok (h : (x >>= f) s = .ok (b, s')) :
    ∃ a t, x s = .ok (a, t) ∧ f a t = .ok (b, s') := by
  change (x s >>= fun p => f p.1 p.2) = _ at h
  cases hx : x s with
  | error e =>
    rw [hx] at h
    cases h
  | ok p =>
    rw [hx] at h
    exact ⟨p.1, p.2, rfl, h⟩

theorem bind_of_ok {a : α} {t : σ} (h : x s = .ok (a, t)) : (x >>= f) s = f a t := by
  change (x s >>= fun p => f p.1 p.2) = _
  rw [h]
  rfl

theorem pure_eq_ok {a c : α} (h : (pure a : StateT σ (Except ε) α) s = .ok (c, s')) :
    a = c ∧ s = s' := Prod.mk.inj (Except.ok.inj h)

end State

variable {R : τ → σ → ρ → Prop} {V : α → β → Prop} {W : γ → δ → Prop}
  {x : StateT σ (Except ε) α} {y : StateM ρ β} {f : α → StateT σ (Except ε) γ}
  {g : β → StateM ρ δ} {z : StateM ρ δ}

theorem Sim.bind (h : Sim R V x y) (hf : ∀ a b, V a b → Sim R W (f a) (g b)) :
    Sim R W (x >>= f) (y >>= g) := by
  intro t s w c s' hR hx
  obtain ⟨a, s₁, ha, hc⟩ := bind_eq_ok hx
  obtain ⟨hv, hR₁⟩ := h t s w a s₁ hR ha
  exact hf a _ hv t s₁ _ c s' hR₁ hc

theorem Sim.left (h : Silent R x) (hf : ∀ a, Sim R W (f a) z) : Sim R W (x >>= f) z := by
  intro t s w c s' hR hx
  obtain ⟨a, s₁, ha, hc⟩ := bind_eq_ok hx
  exact hf a t s₁ w c s' (h t s w a s₁ hR ha) hc

theorem Silent.pure {a : α} : Silent R (Pure.pure a : StateT σ (Except ε) α) := by
  intro t s w c s' hR hx
  obtain ⟨-, rfl⟩ := pure_eq_ok hx
  exact hR

theorem Silent.bind (h : Silent R x) (hf : ∀ a, Silent R (f a)) : Silent R (x >>= f) := by
  intro t s w c s' hR hx
  obtain ⟨a, s₁, ha, hc⟩ := bind_eq_ok hx
  exact hf a t s₁ w c s' (h t s w a s₁ hR ha) hc

/-- A silent program can stand for a result that the second program does not look at. -/
theorem Sim.of_silent (h : Silent R x) {b : β} (hV : ∀ a, V a b) :
    Sim R V x (Pure.pure b) := fun t s w a s' hR hx => ⟨hV a, h t s w a s' hR hx⟩

end Loxis

/-! ## Executions of a deterministic machine

A machine that goes on, halts with an outcome or is stuck. The outcome of a configuration is
found with enough fuel, and a configuration that leads to another has the same outcome. That an
execution lasts is said of a number of steps, so that it can be shown by induction on that number.
-/

namespace Loxis

variable {σ ω : Type}

/-- What a machine does next. -/
inductive Next (σ ω : Type)
  | go (s : σ)
  | halt (o : ω)
  | stuck

variable (next : σ → Next σ ω)

/-- The outcome, if the machine halts in fewer than so many steps. -/
def execute : ℕ → σ → Option ω
  | 0, _ => none
  | k + 1, s =>
    match next s with
    | .go t => execute k t
    | .halt o => some o
    | .stuck => none

/-- The machine comes from `s` to `t`. -/
def Leads (s t : σ) : Prop := ∃ j, ∀ k, execute next (j + k) s = execute next k t

/-- The machine goes on for `k` steps, or it is stuck. -/
def Lasts (k : ℕ) (s : σ) : Prop := execute next k s = none

/-- The machine never halts. -/
def Hangs (s : σ) : Prop := ∀ k, Lasts next k s

/-- The machine halts with `o`. -/
def Halts (s : σ) (o : ω) : Prop := ∃ k, execute next k s = some o

variable {next} {s t u : σ} {o o' : ω} {k : ℕ}

theorem execute_mono (h : execute next k s = some o) (j : ℕ) :
    execute next (j + k) s = some o := by
  induction k generalizing s with
  | zero => cases h
  | succ k ih =>
    simp only [execute] at h ⊢
    split at h
    · exact ih h
    · exact h
    · cases h

theorem Halts.unique (h : Halts next s o) (h' : Halts next s o') : o = o' := by
  obtain ⟨k, hk⟩ := h
  obtain ⟨j, hj⟩ := h'
  have := (execute_mono hk j).symm.trans ((Nat.add_comm j k) ▸ execute_mono hj k)
  exact Option.some.inj this

theorem Halts.of_halt (h : next s = .halt o) : Halts next s o := ⟨1, by rw [execute, h]⟩

theorem Hangs.of_stuck (h : next s = .stuck) : Hangs next s := by
  rintro (_ | k)
  · rfl
  · rw [Lasts, execute, h]

theorem Lasts.zero : Lasts next 0 s := rfl

theorem Leads.refl (s : σ) : Leads next s s := ⟨0, fun k => by rw [Nat.zero_add]⟩

theorem Leads.trans (h : Leads next s t) (h' : Leads next t u) : Leads next s u := by
  obtain ⟨i, hi⟩ := h
  obtain ⟨j, hj⟩ := h'
  exact ⟨i + j, fun k => by rw [Nat.add_assoc, hi, hj]⟩

theorem Leads.of_next (h : next s = .go t) : Leads next s t :=
  ⟨1, fun k => by rw [Nat.add_comm, execute, h]⟩

theorem Leads.head (h : next s = .go t) (h' : Leads next t u) : Leads next s u :=
  (Leads.of_next h).trans h'

/-- A configuration has the outcome of the one it leads to. -/
theorem Leads.halts (h : Leads next s t) (ht : Halts next t o) : Halts next s o := by
  obtain ⟨j, hj⟩ := h
  obtain ⟨k, hk⟩ := ht
  exact ⟨j + k, (hj k).trans hk⟩

theorem Leads.lasts (h : Leads next s t) (ht : Lasts next k t) : Lasts next k s := by
  obtain ⟨j, hj⟩ := h
  refine Option.eq_none_iff_forall_ne_some.mpr fun o ho => ?_
  have := execute_mono ho j
  rw [hj k, ht] at this
  cases this

theorem Leads.hangs (h : Leads next s t) (ht : Hangs next t) : Hangs next s := fun k =>
  h.lasts (ht k)

/-- One more step. -/
theorem Lasts.head (h : next s = .go t) (ht : Lasts next k t) : Lasts next (k + 1) s := by
  rw [Lasts, execute, h]
  exact ht

theorem Lasts.mono {j : ℕ} (h : Lasts next k s) (hj : j ≤ k) : Lasts next j s := by
  obtain ⟨i, rfl⟩ := Nat.exists_eq_add_of_le' hj
  refine Option.eq_none_iff_forall_ne_some.mpr fun o ho => ?_
  cases Eq.trans (Eq.symm h) (execute_mono ho i)

end Loxis
