import Loxis.Lowering.Settled

/-! # Evaluations and runs

How a run goes that does what an evaluation says. An evaluation that runs out of fuel is met by a
run that lasts, so that a run with an outcome is also met by an evaluation.
-/

namespace Loxis.Lowering

open Function Eval
open Loxis.Backend (Value)

section Machine

variable {W : Type} (S : Services W) (blocks : List BasicBlock) (exit : BlockId)

/-- A body runs until it comes to its exit. -/
def machine (c : Point × W) : Next (Point × W) (Outcome Point W) :=
  if c.1.block = exit then .halt (.returned c.1 c.2)
  else
    match step S blocks c.1 c.2 with
    | .returned q w => .go (q, w)
    | .raised v w => .halt (.raised v w)
    | .stuck => .stuck

variable {S blocks exit} {p q : Point} {w w' : W} {o : Outcome Point W} {v : Value}

theorem machine_go (hp : p.block ≠ exit) (h : step S blocks p w = .returned q w') :
    machine S blocks exit (p, w) = .go (q, w') := by
  simp [machine, hp, h]

theorem machine_raised (hp : p.block ≠ exit) (h : step S blocks p w = .raised v w') :
    machine S blocks exit (p, w) = .halt (.raised v w') := by
  simp [machine, hp, h]

theorem machine_stuck (hp : p.block ≠ exit) (h : step S blocks p w = .stuck) :
    machine S blocks exit (p, w) = .stuck := by
  simp [machine, hp, h]

/-- What a run comes to is what the machine halts with. -/
theorem runsTo_iff_halts :
    RunsTo S blocks (fun b _ => b = exit) p w o ↔ Halts (machine S blocks exit) (p, w) o := by
  constructor
  · intro h
    induction h with
    | stop hs => exact .of_halt (if_pos hs)
    | raised hs h => exact .of_halt (machine_raised hs h)
    | step hs h _ ih => exact (Leads.of_next (machine_go hs h)).halts ih
  · rintro ⟨k, hk⟩
    induction k generalizing p w with
    | zero => cases hk
    | succ k ih =>
      by_cases hp : p.block = exit
      · have hm : machine S blocks exit (p, w) = .halt (.returned p w) := if_pos hp
        simp only [execute, hm, Option.some.injEq] at hk
        exact hk ▸ .stop hp
      · cases hs : step S blocks p w with
        | returned q w' =>
          simp only [execute, machine_go hp hs] at hk
          exact .step hp hs (ih hk)
        | raised v w' =>
          simp only [execute, machine_raised hp hs, Option.some.injEq] at hk
          exact hk ▸ .raised hp hs
        | stuck =>
          simp only [execute, machine_stuck hp hs] at hk
          cases hk

end Machine

section Fate

variable {W α β : Type} {M : Point × W → Next (Point × W) (Outcome Point W)} {k : ℕ}
  {c c' : Point × W} {r : Option (Result W α)} {E E' : Exit → Env → Point → Prop}
  {Q Q' : α → Env → Point → Prop} {R : β → Env → Point → Prop} {ρ : Env} {w : W}
  {x : Eval W α} {f : α → Eval W β}

/-- From `c` the run does what `r` says: it comes to a point with `Q` or leaves to a point with
`E`. If `r` is missing it goes on for `k` steps. -/
def Fate (M : Point × W → Next (Point × W) (Outcome Point W)) (k : ℕ) (c : Point × W)
    (r : Option (Result W α)) (E : Exit → Env → Point → Prop) (Q : α → Env → Point → Prop) : Prop :=
  match r with
  | none => Lasts M k c
  | some (.done a ρ w) => ∃ q, Leads M c (q, w) ∧ Q a ρ q
  | some (.left x ρ w) => ∃ q, Leads M c (q, w) ∧ E x ρ q
  | some (.raised v w) => Halts M c (.raised v w)
  | some .stuck => Hangs M c

theorem Fate.lead (hc : Leads M c c') (h : Fate M k c' r E Q) : Fate M k c r E Q := by
  rcases r with _ | ⟨⟩ | ⟨⟩ | ⟨⟩ | _
  · exact hc.lasts h
  · obtain ⟨q, hq, h⟩ := h
    exact ⟨q, hc.trans hq, h⟩
  · obtain ⟨q, hq, h⟩ := h
    exact ⟨q, hc.trans hq, h⟩
  · exact hc.halts h
  · exact hc.hangs h

/-- A step counts. -/
theorem Fate.next (hc : M c = .go c') (h : Fate M (k - 1) c' r E Q) : Fate M k c r E Q := by
  rcases r with _ | r
  · exact (Lasts.head hc h).mono (by omega)
  · have h' : Fate M k c' (some r) E Q := by cases r <;> exact h
    exact .lead (.of_next hc) h'

theorem Fate.mono (h : Fate M k c r E Q) (hE : ∀ x ρ q, E x ρ q → E' x ρ q)
    (hQ : ∀ a ρ q, Q a ρ q → Q' a ρ q) : Fate M k c r E' Q' := by
  rcases r with _ | ⟨⟩ | ⟨⟩ | ⟨⟩ | _
  · exact h
  · obtain ⟨q, hq, h⟩ := h
    exact ⟨q, hq, hQ _ _ _ h⟩
  · obtain ⟨q, hq, h⟩ := h
    exact ⟨q, hq, hE _ _ _ h⟩
  · exact h
  · exact h

theorem Fate.done {a : α} {q : Point} (h : Q a ρ q) :
    Fate M k (q, w) ((pure a : Eval W α) ρ w) E Q :=
  ⟨q, .refl _, h⟩

theorem Fate.bind (h : Fate M k c (x ρ w) E Q)
    (hf : ∀ a ρ' w' q, Q a ρ' q → Fate M k (q, w') (f a ρ' w') E R) :
    Fate M k c ((x >>= f) ρ w) E R := by
  change Fate M k c (match x ρ w with
    | none => none
    | some (.done a ρ' w') => f a ρ' w'
    | some (.left e ρ' w') => some (.left e ρ' w')
    | some (.raised v w') => some (.raised v w')
    | some .stuck => some .stuck) E R
  cases hx : x ρ w with
  | none =>
    rw [hx] at h
    exact h
  | some r =>
    rw [hx] at h
    cases r with
    | done a ρ' w' =>
      obtain ⟨q, hq, hQ⟩ := h
      exact .lead hq (hf a ρ' w' q hQ)
    | left e ρ' w' => exact h
    | raised v w' => exact h
    | stuck => exact h

/-- A change of the environment alone. -/
theorem Fate.mapEnv {g : Env → Env} (h : Fate M k c r E Q)
    (hE : ∀ x ρ q, E x ρ q → E' x (g ρ) q) (hQ : ∀ a ρ q, Q a ρ q → Q' a (g ρ) q) :
    Fate M k c (r.map (Result.mapEnv g)) E' Q' := by
  rcases r with _ | ⟨⟩ | ⟨⟩ | ⟨⟩ | _
  · exact h
  · obtain ⟨q, hq, h⟩ := h
    exact ⟨q, hq, hQ _ _ _ h⟩
  · obtain ⟨q, hq, h⟩ := h
    exact ⟨q, hq, hE _ _ _ h⟩
  · exact h
  · exact h

end Fate

section Steps

variable {W α : Type} {S : Services W} {blocks : List BasicBlock} {exit : BlockId} {k : ℕ}
  {p : Point} {w : W} {ρ : Env} {E : Exit → Env → Point → Prop} {Q : α → Env → Point → Prop}

/-- An operation that the code does in one step. -/
theorem Fate.operation {f : W → Outcome α W} {g : α → Point} (hp : p.block ≠ exit)
    (h : step S blocks p w = (f w).map g) (hQ : ∀ a, Q a ρ (g a)) :
    Fate (machine S blocks exit) k (p, w) (ofOutcome f ρ w) E Q := by
  simp only [ofOutcome]
  cases hf : f w with
  | returned a w' =>
    rw [hf] at h
    exact ⟨g a, .of_next (machine_go hp h), hQ a⟩
  | raised v w' =>
    rw [hf] at h
    exact .of_halt (machine_raised hp h)
  | stuck =>
    rw [hf] at h
    exact .of_stuck (machine_stuck hp h)

theorem Fate.step {r : Option (Result W α)} {q : Point} {w' : W} (hp : p.block ≠ exit)
    (h : Lowering.step S blocks p w = .returned q w')
    (hr : Fate (machine S blocks exit) k (q, w') r E Q) :
    Fate (machine S blocks exit) k (p, w) r E Q :=
  .lead (.of_next (machine_go hp h)) hr

end Steps

end Loxis.Lowering
