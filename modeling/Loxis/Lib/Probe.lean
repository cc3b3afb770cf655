import Mathlib.Tactic.Common

/-! # Linear probing

The search of an open-addressed table: from a start slot on, cyclically, to the first
slot that stops it.
-/

namespace Loxis

/-- The first of at most `n + 1` slots from `h` on at which `stop` holds, or the last one. -/
def probe (stop : ℕ → Bool) (size : ℕ) : ℕ → ℕ → ℕ
  | 0, h => h
  | n + 1, h => if stop h then h else probe stop size n ((h + 1) % size)

variable {stop stop' : ℕ → Bool} {size n h p q : ℕ}

theorem probe_lt (hs : 0 < size) (hh : h < size) : probe stop size n h < size := by
  induction n generalizing h with
  | zero => exact hh
  | succ n ih =>
    unfold probe
    split
    · exact hh
    · exact ih (Nat.mod_lt _ hs)

/-- A search that does not stop has passed every slot on its way. -/
theorem probe_passed (hh : h < size) (hn : stop (probe stop size n h) = false) {i : ℕ}
    (hi : i ≤ n) : stop ((h + i) % size) = false := by
  induction n generalizing h i with
  | zero =>
    obtain rfl : i = 0 := by omega
    simpa [Nat.mod_eq_of_lt hh, probe] using hn
  | succ n ih =>
    unfold probe at hn
    split at hn
    · next hs => rw [hs] at hn; cases hn
    · next hs =>
      rcases i with - | i
      · simpa [Nat.mod_eq_of_lt hh] using hs
      · have := ih (Nat.mod_lt _ (by omega)) hn (i := i) (by omega)
        rwa [Nat.mod_add_mod, show h + 1 + i = h + (i + 1) by omega] at this

/-- A full round stops whenever some slot can stop it. -/
theorem probe_stops (hh : h < size) (hp : p < size) (hs : stop p = true) :
    stop (probe stop size size h) = true := by
  by_contra hn
  have hlt : (p + size - h) % size < size := Nat.mod_lt _ (by omega)
  have := probe_passed hh (by simpa using hn) (Nat.le_of_lt hlt)
  rw [Nat.add_mod_mod, show h + (p + size - h) = p + size by omega, Nat.add_mod_right,
    Nat.mod_eq_of_lt hp, hs] at this
  cases this

/-- Changing a slot that would have stopped the search, but did not, does not move it. -/
theorem probe_update (hagree : ∀ x, x ≠ q → stop' x = stop x) (hq : stop q = true)
    (hne : probe stop size n h ≠ q) : probe stop' size n h = probe stop size n h := by
  induction n generalizing h with
  | zero => rfl
  | succ n ih =>
    unfold probe at hne ⊢
    by_cases hs : stop h = true
    · rw [if_pos hs] at hne ⊢
      rw [if_pos (by rwa [hagree h hne])]
    · have hhq : h ≠ q := by rintro rfl; exact hs hq
      rw [if_neg hs] at hne ⊢
      rw [if_neg (by rwa [hagree h hhq]), ih hne]

/-- A search that stops has passed all slots before that one. -/
theorem probe_path (hh : h < size) (hn : stop (probe stop size n h) = true) :
    ∃ i ≤ n, probe stop size n h = (h + i) % size ∧ ∀ j < i, stop ((h + j) % size) = false := by
  induction n generalizing h with
  | zero => exact ⟨0, Nat.le_refl _, (Nat.mod_eq_of_lt hh).symm, fun j hj => absurd hj (Nat.not_lt_zero j)⟩
  | succ n ih =>
    unfold probe at hn ⊢
    by_cases hs : stop h = true
    · rw [if_pos hs]
      exact ⟨0, Nat.zero_le _, (Nat.mod_eq_of_lt hh).symm, fun j hj => absurd hj (Nat.not_lt_zero j)⟩
    · rw [if_neg hs] at hn ⊢
      obtain ⟨i, hi, heq, hpre⟩ := ih (Nat.mod_lt _ (by omega)) hn
      refine ⟨i + 1, Nat.succ_le_succ hi, ?_, fun j hj => ?_⟩
      · rw [heq, Nat.mod_add_mod, show h + 1 + i = h + (i + 1) by omega]
      · rcases j with - | j
        · simpa [Nat.mod_eq_of_lt hh] using hs
        · have := hpre j (by omega)
          rwa [Nat.mod_add_mod, show h + 1 + j = h + (j + 1) by omega] at this

/-- A search stops at the first slot that can stop it. -/
theorem probe_first (hh : h < size) {i : ℕ} (hi : i ≤ n)
    (hpre : ∀ j < i, stop ((h + j) % size) = false) (hs : stop ((h + i) % size) = true) :
    probe stop size n h = (h + i) % size := by
  induction n generalizing h i with
  | zero =>
    obtain rfl : i = 0 := by omega
    exact (Nat.mod_eq_of_lt hh).symm
  | succ n ih =>
    unfold probe
    rcases i with - | i
    · rw [Nat.add_zero, Nat.mod_eq_of_lt hh] at hs
      rw [if_pos hs]
      exact (Nat.mod_eq_of_lt hh).symm
    · have h0 := hpre 0 (Nat.succ_pos i)
      rw [Nat.add_zero, Nat.mod_eq_of_lt hh] at h0
      have hshift : ∀ j, ((h + 1) % size + j) % size = (h + (j + 1)) % size := fun j => by
        rw [Nat.mod_add_mod, show h + 1 + j = h + (j + 1) by omega]
      rw [if_neg (by simp [h0]), ih (Nat.mod_lt _ (by omega)) (Nat.le_of_succ_le_succ hi)
        (fun j hj => by rw [hshift]; exact hpre (j + 1) (by omega)) (by rwa [hshift]), hshift]

end Loxis
