import Mathlib.Data.List.Perm.Basic
import Mathlib.Order.Defs.Unbundled
import Loxis.Stdlib.ListsInPlace

/-! # Sorting

Selection sort: each turn puts an element that no later one precedes in its place.
-/

namespace Loxis.Stdlib.Lists

variable {T : Type} {w : World T} {abs : List (List (Value T))} {l : ℕ}
  {xs ys : List (Value T)} {n b : ℕ} {E : Stop → World T → Prop}
  {before : Value T → Value T → Bool}

/-- A comparison that no element precedes itself in, and that is transitive. -/
abbrev Strict (before : Value T → Value T → Bool) : Prop :=
  IsStrictOrder (Value T) fun a b => before a b = true

/-- No later element precedes one of the first `n`. -/
def SortedUpto (before : Value T → Value T → Bool) (n : ℕ) (ys : List (Value T)) : Prop :=
  ∀ i j x y, i < n → i < j → ys[i]? = some x → ys[j]? = some y → before y x = false

/-- No element from the position on precedes that of the other position. -/
def LeastFrom (before : Value T → Value T → Bool) (n m b : ℕ) (ys : List (Value T)) : Prop :=
  ∀ j x y, n ≤ j → j < m → ys[b]? = some x → ys[j]? = some y → before y x = false

/-- The elements of two positions change places. -/
def exchange (ys : List (Value T)) (n b : ℕ) (hn : n < ys.length) (hb : b < ys.length) :
    List (Value T) := (ys.set n ys[b]).set b ys[n]

theorem getElem?_exchange (hn : n < ys.length) (hb : b < ys.length) (c : ℕ) :
    (exchange ys n b hn hb)[c]? = ys[if c = b then n else if c = n then b else c]? := by
  rw [exchange, List.getElem?_set, List.getElem?_set, List.length_set]
  split
  · next heq => rw [if_pos heq.symm, List.getElem?_eq_getElem hn]
  · next hne =>
    rw [if_neg (Ne.symm hne)]
    split
    · next heq => rw [if_pos heq.symm, List.getElem?_eq_getElem hb]
    · next hne' => rw [if_neg (Ne.symm hne')]

/-- A turn of the sort. -/
theorem SortedUpto.step (h : SortedUpto before n ys) (hn : n < ys.length) (hb : b < ys.length)
    (hnb : n ≤ b) (hleast : LeastFrom before n ys.length b ys) :
    SortedUpto before (n + 1) (exchange ys n b hn hb) := by
  intro i j x y hi hij hx hy
  rw [getElem?_exchange] at hx hy
  have hlt := (List.getElem?_eq_some_iff.mp hy).1
  rcases Nat.lt_succ_iff_lt_or_eq.mp hi with hlt' | rfl
  · rw [if_neg (by omega), if_neg (by omega)] at hx
    refine h i _ x y hlt' ?_ hx hy
    split
    · exact hlt'
    · split <;> omega
  · have hxb : ys[b]? = some x := by
      rw [← hx]
      split
      · next heq => rw [heq]
      · rw [if_pos rfl]
    refine hleast _ x y ?_ hlt hxb hy
    split
    · exact le_rfl
    · split <;> omega

theorem LeastFrom.step (hbefore : Strict before) {m : ℕ} (h : LeastFrom before n m b ys)
    {x y : Value T} (hx : ys[b]? = some x) (hy : ys[m]? = some y) :
    LeastFrom before n (m + 1) (if before y x then m else b) ys := by
  intro j x' y' hnj hj hx' hy'
  rcases Nat.lt_succ_iff_lt_or_eq.mp hj with hlt | rfl
  · split at hx'
    · next hyx =>
      rw [hy] at hx'
      cases hx'
      refine Bool.eq_false_iff.mpr fun htrue => ?_
      have := h j x y' hnj hlt hx hy'
      rw [hbefore.trans _ _ _ htrue hyx] at this
      cases this
    · exact h j x' y' hnj hlt hx' hy'
  · rw [hy] at hy'
    cases hy'
    split at hx'
    · rw [hy] at hx'
      cases hx'
      exact Bool.eq_false_iff.mpr (hbefore.irrefl y)
    · next hyx =>
      rw [hx] at hx'
      cases hx'
      exact Bool.eq_false_iff.mpr hyx

/-- The search for the least of the elements from a position on. -/
theorem select_ends (h : Rep w abs) (hl : abs[l]? = some ys) (hn : n < ys.length) :
    Ends (loop (fun (_, j) => return j < (← size l)) (fun (best, j) => do
      let best := if before (← get l j) (← get l best) then j else best
      return (best, ← add j 1)) ((n : ℤ), (n : ℤ) + 1)) w
      (fun p w' => w' = w ∧ ∃ b : ℕ, p.1 = b ∧ n ≤ b ∧ b < ys.length ∧
        (Strict before → LeastFrom before n ys.length b ys)) E := by
  have hlimit := h.length_le hl
  unfold limit at hlimit
  refine (Ends.counted (ys.length - (n + 1))
    (fun m (p : ℤ × ℤ) u => u = w ∧ p.2 = (n + 1 + m : ℕ) ∧ ∃ b : ℕ, p.1 = b ∧ n ≤ b ∧
      b < ys.length ∧ (Strict before → LeastFrom before n (n + 1 + m) b ys)) ?_ ?_ ?_ ?_).mono
    (fun p w' hp => ?_) fun _ _ h => h
  · rintro m ⟨best, j⟩ u hm ⟨rfl, rfl, -⟩
    change (size l >>= _) u = _
    rw [bind_ok (size_ok h hl)]
    exact return_decide (by omega)
  · rintro m ⟨best, j⟩ u hm ⟨rfl, rfl, b, rfl, hnb, hb, hleast⟩
    refine .bind (.of_eq (get_ok h hl (k := n + 1 + m) (by omega)) ?_)
    refine .bind (.of_eq (get_ok h hl hb) ?_)
    refine .bind (.of_eq (add_ok ⟨by omega, by omega⟩ ⟨by omega, by omega⟩) (.pure ?_))
    refine ⟨rfl, rfl, if before ys[n + 1 + m] ys[b] then n + 1 + m else b, ?_, ?_, ?_, fun hs => ?_⟩
    · exact (apply_ite _ _ _ _).symm
    · split <;> omega
    · split <;> omega
    · exact (hleast hs).step hs (List.getElem?_eq_getElem hb) (List.getElem?_eq_getElem _)
  · refine ⟨rfl, rfl, n, rfl, le_rfl, hn, fun hs j x y hnj hj hx hy => ?_⟩
    have hjn : j = n := by omega
    rw [hjn, hx] at hy
    cases hy
    exact Bool.eq_false_iff.mpr (hs.irrefl x)
  · unfold turns
    omega
  · obtain ⟨rfl, -, b, hp, hnb, hb, hleast⟩ := hp
    rw [show n + 1 + (ys.length - (n + 1)) = ys.length by omega] at hleast
    exact ⟨rfl, b, hp, hnb, hb, hleast⟩

theorem sortBy_ends (h : Rep w abs) (hl : abs[l]? = some xs) :
    Ends (sortBy l before) w (fun _ w' => ∃ ys, Rep w' (abs.set l ys) ∧ ys.Perm xs ∧
      (Strict before → ys.Pairwise fun x y => before y x = false)) E := by
  have hlimit := h.length_le hl
  unfold limit at hlimit
  unfold sortBy
  refine .seq (Ends.counted xs.length
    (fun n (i : ℤ) u => i = n ∧ ∃ ys, Rep u (abs.set l ys) ∧ ys.Perm xs ∧
      (Strict before → SortedUpto before n ys)) ?_ ?_ ?_ ?_)
    (fun i u hu => ?_) fun _ _ h => h
  · rintro n i u hn ⟨rfl, ys, hu, hperm, -⟩
    rw [bind_ok (size_ok hu (get_set_self hl)), hperm.length_eq]
    exact return_decide Nat.cast_lt
  · rintro n i u hn ⟨rfl, ys, hu, hperm, hsorted⟩
    have hlen := hperm.length_eq
    refine .bind (.of_eq (add_ok ⟨by omega, by omega⟩ ⟨by omega, by omega⟩) ?_)
    refine .seq (select_ends hu (get_set_self hl) (by omega)) (fun p u' hp => ?_) fun _ _ h => h
    obtain ⟨rfl, b, hpb, hnb, hb, hleast⟩ := hp
    obtain ⟨best, j⟩ := p
    cases hpb
    have hn' : n < ys.length := by omega
    have hstep (hs : Strict before) := (hsorted hs).step hn' hb hnb (hleast hs)
    by_cases hbn : (b : ℤ) ≠ n
    · obtain ⟨u₁, hset₁, hu₁⟩ := hu.set_ok (k := n) (v := ys[b]) hl hn'
      obtain ⟨u₂, hset₂, hu₂⟩ := hu₁.set_ok (k := b) (v := ys[n]) hl
        (by rw [List.length_set]; exact hb)
      change Ends (if (b : ℤ) ≠ n then _ else _) _ _ _
      rw [if_pos hbn]
      refine .bind (.of_eq (get_ok hu (get_set_self hl) hn') ?_)
      refine .bind (.of_eq (get_ok hu (get_set_self hl) hb) ?_)
      refine .bind (.of_eq hset₁ (.bind (.of_eq hset₂ ?_)))
      refine .of_eq (add_ok ⟨by omega, by omega⟩ ⟨by omega, by omega⟩) ?_
      exact ⟨rfl, _, hu₂, (List.set_set_perm hn' hb).trans hperm, hstep⟩
    · have heq : b = n := by omega
      subst heq
      change Ends (if (b : ℤ) ≠ b then _ else _) _ _ _
      rw [if_neg hbn]
      refine .of_eq (add_ok ⟨by omega, by omega⟩ ⟨by omega, by omega⟩) ?_
      refine ⟨rfl, ys, hu, hperm, fun hs => ?_⟩
      have hstep := hstep hs
      rwa [exchange, List.set_getElem_self, List.set_getElem_self] at hstep
  · refine ⟨rfl, xs, by rwa [abs_set_self hl], .refl xs, fun _ i _ _ _ hi => ?_⟩
    exact absurd hi (Nat.not_lt_zero i)
  · unfold turns
    omega
  · obtain ⟨-, ys, hu, hperm, hsorted⟩ := hu
    refine .pure ⟨ys, hu, hperm, fun hs => ?_⟩
    refine List.pairwise_iff_getElem.mpr fun i j hi hj hij => ?_
    exact hsorted hs i j _ _ (by rw [← hperm.length_eq]; exact hi) hij (List.getElem?_eq_getElem hi)
      (List.getElem?_eq_getElem hj)

end Loxis.Stdlib.Lists
