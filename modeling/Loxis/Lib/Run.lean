import Mathlib.Data.Nat.Notation
import Mathlib.Tactic.Common

/-! # Bounded loops

A `while` loop is a body that reports whether another turn follows, run under a
bound on the number of turns. A measure that every further turn decreases makes
the bound irrelevant: the loop ends by itself, in a turn that reports `false`.
-/

namespace Loxis

variable {σ : Type*}

/-- Run the body until it reports `false`, at most the given number of times. -/
def iterUntil (f : σ → σ × Bool) : ℕ → σ → σ
  | 0, s => s
  | n + 1, s => if (f s).2 then iterUntil f n (f s).1 else (f s).1

variable {f : σ → σ × Bool} {P : σ → Prop} {μ : σ → ℕ}

theorem iterUntil_inv (hf : ∀ s, P s → P (f s).1) (n : ℕ) {s : σ} (hs : P s) :
    P (iterUntil f n s) := by
  induction n generalizing s with
  | zero => exact hs
  | succ n ih =>
    unfold iterUntil
    split
    · exact ih (hf s hs)
    · exact hf s hs

/-- Loops whose bodies go hand in hand go hand in hand. -/
theorem iterUntil_sim {τ : Type*} {g : τ → τ × Bool} {R : σ → τ → Prop}
    (h : ∀ s t, R s t → R (f s).1 (g t).1 ∧ (f s).2 = (g t).2) (n : ℕ) {s : σ} {t : τ}
    (hst : R s t) : R (iterUntil f n s) (iterUntil g n t) := by
  induction n generalizing s t with
  | zero => exact hst
  | succ n ih =>
    obtain ⟨h1, h2⟩ := h s t hst
    unfold iterUntil
    rw [h2]
    split
    · exact ih h1
    · exact h1

/-- With enough turns the last turn of the loop is one that reports `false`. -/
theorem iterUntil_stop (hf : ∀ s, P s → P (f s).1)
    (hμ : ∀ s, P s → (f s).2 = true → μ (f s).1 < μ s) (n : ℕ) {s : σ} (hs : P s)
    (hn : μ s < n) : ∃ t, P t ∧ (f t).2 = false ∧ iterUntil f n s = (f t).1 := by
  induction n generalizing s with
  | zero => omega
  | succ n ih =>
    unfold iterUntil
    split
    · next h => exact ih (hf s hs) (by have := hμ s hs h; omega)
    · next h => exact ⟨s, hs, by simpa using h, rfl⟩

end Loxis

/-! ## Runs of transition systems

Labelled transition systems, their finite runs and reachable states, and the rule
that carries an invariant along a run. A system given by a partial step function
can also be executed.
-/

namespace Loxis

variable {σ α : Type*}

/-- A labelled transition system. -/
structure System (σ α : Type*) where
  init : σ → Prop
  next : σ → α → σ → Prop

namespace System

variable {S : System σ α}

/-- A finite run under a list of labels, oldest first. -/
inductive Run (S : System σ α) : σ → List α → σ → Prop
  | nil (s : σ) : Run S s [] s
  | snoc {s t u : σ} {as : List α} {a : α} : Run S s as t → S.next t a u → Run S s (as ++ [a]) u

def Reachable (S : System σ α) (t : σ) : Prop := ∃ s as, S.init s ∧ S.Run s as t

variable {P : σ → Prop} {s t : σ} {as : List α} {a : α}

/-- What every step preserves holds at the end of every run. -/
theorem Run.inv (h : S.Run s as t) (hstep : ∀ s a t, P s → S.next s a t → P t) (hs : P s) :
    P t := by
  induction h with
  | nil => exact hs
  | snoc _ hn ih => exact hstep _ _ _ ih hn

theorem Reachable.start (h : S.init s) : S.Reachable s := ⟨s, [], h, .nil s⟩

theorem Reachable.next (h : S.Reachable s) (hn : S.next s a t) : S.Reachable t :=
  let ⟨s₀, as, hi, hr⟩ := h
  ⟨s₀, as ++ [a], hi, hr.snoc hn⟩

theorem Reachable.run (h : S.Reachable s) (hr : S.Run s as t) : S.Reachable t := by
  induction hr with
  | nil => exact h
  | snoc _ hn ih => exact ih.next hn

/-- An inductive invariant holds of every reachable state. -/
theorem Reachable.inv (h : S.Reachable t) (hinit : ∀ s, S.init s → P s)
    (hstep : ∀ s a t, P s → S.next s a t → P t) : P t :=
  let ⟨_, _, hi, hr⟩ := h
  hr.inv hstep (hinit _ hi)

/-- A system with more initial states and more steps reaches more. -/
theorem Reachable.mono {S' : System σ α} (h : S.Reachable t) (hinit : ∀ s, S.init s → S'.init s)
    (hnext : ∀ s a t, S.next s a t → S'.next s a t) : S'.Reachable t := by
  obtain ⟨s, as, hi, hr⟩ := h
  refine ⟨s, as, hinit s hi, ?_⟩
  induction hr with
  | nil => exact .nil s
  | snoc _ hn ih => exact ih.snoc (hnext _ _ _ hn)

section Exec

variable {init : σ → Prop} {step : σ → α → Option σ}

/-- The system of a partial step function. -/
def ofStep (init : σ → Prop) (step : σ → α → Option σ) : System σ α where
  init := init
  next s a t := step s a = some t

/-- Execute a list of labels. -/
def exec (step : σ → α → Option σ) : σ → List α → Option σ
  | s, [] => some s
  | s, a :: as => (step s a).bind (exec step · as)

theorem Run.cons {u : σ} (hn : S.next s a t) (hr : S.Run t as u) : S.Run s (a :: as) u := by
  induction hr with
  | nil => exact Run.snoc (.nil s) hn
  | snoc _ hb ih => exact ih.snoc hb

theorem Run.of_exec (h : exec step s as = some t) : (ofStep init step).Run s as t := by
  induction as generalizing s with
  | nil =>
    obtain rfl := Option.some.inj h
    exact .nil s
  | cons a as ih =>
    obtain ⟨u, hu, ht⟩ := Option.bind_eq_some_iff.mp h
    exact .cons hu (ih ht)

/-- A checked execution from an initial state exhibits a reachable state. -/
theorem reachable_of_exec (init : σ → Prop) (step : σ → α → Option σ) (s : σ) (as : List α)
    (p : σ → Bool) (hi : init s) (h : (exec step s as).any p = true) :
    ∃ t, (ofStep init step).Reachable t ∧ p t = true := by
  cases ht : exec step s as with
  | none => simp [ht] at h
  | some t =>
    rw [ht] at h
    exact ⟨t, ⟨s, as, hi, .of_exec ht⟩, by simpa using h⟩

/-- A partial step function restricted by a check. -/
def guarded (ok : σ → α → Bool) (step : σ → α → Option σ) (s : σ) (a : α) : Option σ :=
  if ok s a then step s a else none

/-- A checked execution in which every label passes a check that implies the discipline. -/
theorem reachable_of_guarded (init : σ → Prop) (step : σ → α → Option σ) (ok : σ → α → Bool)
    {allowed : σ → α → Prop} (hok : ∀ s a, ok s a = true → allowed s a) (s : σ) (as : List α)
    (p : σ → Bool) (hi : init s) (h : (exec (guarded ok step) s as).any p = true) :
    ∃ t, (System.mk init fun s a t => allowed s a ∧ step s a = some t).Reachable t ∧
      p t = true := by
  obtain ⟨t, hr, hp⟩ := reachable_of_exec init (guarded ok step) s as p hi h
  refine ⟨t, hr.mono (fun _ => id) fun s a t hn => ?_, hp⟩
  have hn : guarded ok step s a = some t := hn
  simp only [guarded, Option.ite_none_right_eq_some] at hn
  exact ⟨hok s a hn.1, hn.2⟩

end Exec

end System

end Loxis
