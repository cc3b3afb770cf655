import Loxis.Stdlib.ListsSpec

/-! # Operations that change a list

Insertion, removal, reversal and sorting move the elements one by one.
-/

namespace Loxis.Stdlib.Lists

variable {T : Type} {w : World T} {abs : List (List (Value T))} {l : ℕ}
  {xs ys : List (Value T)} {v : Value T} {k : ℕ} {E : Stop → World T → Prop}

theorem get_set_self (hl : abs[l]? = some xs) : (abs.set l ys)[l]? = some ys :=
  List.getElem?_set_self (List.getElem?_eq_some_iff.mp hl).1

/-- Writing an element in a list that has been changed already. -/
theorem Rep.set_ok (h : Rep w (abs.set l ys)) (hl : abs[l]? = some xs) (hk : k < ys.length) :
    ∃ w', set l k v w = .ok () w' ∧ Rep w' (abs.set l (ys.set k v)) := by
  obtain ⟨w', hset, hw'⟩ := Lists.set_ok (v := v) h (get_set_self hl) hk
  rw [List.set_set] at hw'
  exact ⟨w', hset, hw'⟩

/-! ## Removal -/

/-- The last element goes, and its cell is erased. -/
theorem erase_ends (h : Rep w (abs.set l (xs ++ [v]))) (hl : abs[l]? = some ys) {value : Value T} :
    Ends (do
      let f ← fields l
      let len ← sub f.len 1
      assign l { f with len := len }
      hset f.buffer (← add 9 (← mul len 9)) .null
      return value : Call T (Value T)) w (fun a w' => a = value ∧ Rep w' (abs.set l xs)) E := by
  obtain ⟨f, hf, hlen, cap, b, hcap, hm, hb⟩ := h.fields (get_set_self hl)
  have hle := hb.le
  have hbounded := hb.bounded
  unfold limit at hbounded
  rw [List.length_append, List.length_singleton] at hlen hle
  have hpred : f.len - 1 = (xs.length : ℤ) := by omega
  refine .bind (.of_eq (fields_ok hf) ?_)
  refine .bind (.of_eq (sub_ok ⟨by omega, by omega⟩ ⟨by omega, by omega⟩) ?_)
  rw [hpred]
  refine .bind (.of_eq rfl ?_)
  refine .bind (.of_eq (mul_of_fits ⟨by omega, by omega⟩ ⟨by omega, by omega⟩
    ⟨by omega, by omega⟩) ?_)
  refine .bind (.of_eq (add_ok ⟨by omega, by omega⟩ ⟨by omega, by omega⟩) ?_)
  refine .bind (.of_eq (hset_ok hm hb.size (by omega) hb.bounded) (.pure ⟨rfl, ?_⟩))
  have hrep := h.store hf hm hcap rfl hb.erase
  rw [List.set_set] at hrep
  exact hrep

theorem removeAt_ends (h : Rep w abs) (hl : abs[l]? = some xs) (hk : k < xs.length) :
    Ends (removeAt l k) w (fun a w' => a = xs[k] ∧ Rep w' (abs.set l (xs.eraseIdx k))) E := by
  have hlimit := h.length_le hl
  unfold limit at hlimit
  unfold removeAt
  refine .bind (.of_eq (get_ok h hl hk) ?_)
  -- the elements behind the removed one move by one
  refine .seq (Ends.counted (xs.length - 1 - k)
    (fun n (i : ℤ) u => i = (k + n : ℕ) ∧ ∃ ys, Rep u (abs.set l ys) ∧ ys.length = xs.length ∧
      ∀ j, ys[j]? = if k ≤ j ∧ j < k + n then xs[j + 1]? else xs[j]?) ?_ ?_ ?_ ?_)
    (fun i u hu => ?_) fun _ _ h => h
  · rintro n i u hn ⟨rfl, ys, hu, hlen, -⟩
    obtain ⟨f, hf, hfl, -⟩ := hu.fields (get_set_self hl)
    rw [bind_ok (add_ok ⟨by omega, by omega⟩ ⟨by omega, by omega⟩), bind_ok (fields_ok hf)]
    exact return_decide (by omega)
  · rintro n i u hn ⟨rfl, ys, hu, hlen, hys⟩
    refine .bind (.of_eq (add_ok ⟨by omega, by omega⟩ ⟨by omega, by omega⟩) ?_)
    rw [← Nat.cast_succ]
    refine .bind (.of_eq (get_ok hu (get_set_self hl) (k := k + n + 1) (by omega)) ?_)
    obtain ⟨u', hset, hu'⟩ := hu.set_ok (k := k + n) (v := ys[k + n + 1]) hl (by omega)
    refine .bind (.of_eq hset (.of_eq (add_ok ⟨by omega, by omega⟩ ⟨by omega, by omega⟩) ?_))
    refine ⟨rfl, _, hu', by rw [List.length_set, hlen], fun j => ?_⟩
    rw [List.getElem?_set, hys j, ← List.getElem?_eq_getElem, hys]
    split
    · next heq =>
      subst heq
      rw [if_pos (by omega), if_neg (by omega), if_pos ⟨by omega, by omega⟩]
    · next hne =>
      by_cases hj : k ≤ j ∧ j < k + n
      · rw [if_pos hj, if_pos ⟨by omega, by omega⟩]
      · rw [if_neg hj, if_neg (by omega)]
  · refine ⟨rfl, xs, by rwa [abs_set_self hl], rfl, fun j => ?_⟩
    rw [if_neg (by omega)]
  · unfold turns
    omega
  · obtain ⟨-, ys, hu, hlen, hys⟩ := hu
    have heq : ys = xs.eraseIdx k ++ [xs[xs.length - 1]] := by
      have herase := List.length_eraseIdx_of_lt hk
      refine List.ext_getElem? fun j => ?_
      rw [hys j, List.getElem?_append, herase, List.getElem?_eraseIdx]
      rcases Nat.lt_trichotomy j (xs.length - 1) with hlt | rfl | hgt
      · rw [if_pos hlt]
        by_cases hkj : j < k
        · rw [if_pos hkj, if_neg (by omega)]
        · rw [if_neg hkj, if_pos ⟨by omega, by omega⟩]
      · rw [if_neg (by omega), if_neg (Nat.lt_irrefl _), Nat.sub_self]
        exact List.getElem?_eq_getElem (by omega)
      · rw [if_neg (by omega), if_neg (by omega), List.getElem?_eq_none (by omega),
          List.getElem?_eq_none (by rw [List.length_singleton]; omega)]
    rw [heq] at hu
    exact erase_ends hu hl

theorem removeAt_error (h : Rep w abs) (hl : abs[l]? = some xs) {i : ℤ}
    (hi : ¬ (0 ≤ i ∧ i < xs.length)) :
    removeAt l i w = .error (.raised "list index out of bounds") w := by
  rw [removeAt, bind_error (get_error h hl hi)]

theorem pop_ends (h : Rep w abs) (hl : abs[l]? = some xs) :
    Ends (pop l) w (fun a w' => a = xs.getLast? ∧ Rep w' (abs.set l xs.dropLast)) E := by
  have hlimit := h.length_le hl
  unfold limit at hlimit
  obtain ⟨f, hf, hlen, -⟩ := h.fields hl
  unfold pop
  refine .bind (.of_eq (fields_ok hf) ?_)
  by_cases hzero : f.len = 0
  · have hnil : xs = [] := List.length_eq_zero_iff.mp (by omega)
    subst hnil
    rw [if_pos hzero]
    exact .pure ⟨rfl, by rwa [List.dropLast_nil, abs_set_self hl]⟩
  · rw [if_neg hzero]
    have hpred : f.len - 1 = (xs.length - 1 : ℕ) := by omega
    refine .bind (.of_eq (sub_ok ⟨by omega, by omega⟩ ⟨by omega, by omega⟩) ?_)
    rw [hpred]
    refine .seq (removeAt_ends h hl (k := xs.length - 1) (by omega)) (fun a w' h' => ?_)
      fun _ _ h => h
    obtain ⟨rfl, hw'⟩ := h'
    rw [List.eraseIdx_length_sub_one] at hw'
    refine .pure ⟨?_, hw'⟩
    rw [List.getLast?_eq_getElem?, List.getElem?_eq_getElem (by omega)]

theorem clear_ends (h : Rep w abs) (hl : abs[l]? = some xs) :
    Ends (clear l) w (fun _ w' => Rep w' (abs.set l [])) E := by
  have hlimit := h.length_le hl
  unfold limit at hlimit
  unfold clear
  -- the first `n` elements have been erased
  refine .seq (Ends.counted xs.length
    (fun n (i : ℤ) u => i = n ∧ ∃ ys, Rep u (abs.set l ys) ∧ ys.length = xs.length ∧
      ∀ j < n, ys[j]? = some .null) ?_ ?_ ?_ ?_)
    (fun i u hu => ?_) fun _ _ h => h
  · rintro n i u hn ⟨rfl, ys, hu, hlen, -⟩
    obtain ⟨f, hf, hfl, -⟩ := hu.fields (get_set_self hl)
    rw [bind_ok (fields_ok hf)]
    exact return_decide (by omega)
  · rintro n i u hn ⟨rfl, ys, hu, hlen, hys⟩
    obtain ⟨f, hf, hfl, cap, b, hcap, hm, hb⟩ := hu.fields (get_set_self hl)
    have hle := hb.le
    refine .bind (.of_eq (fields_ok hf) ?_)
    refine .bind (.of_eq (mul_of_fits ⟨by omega, by omega⟩ ⟨by omega, by omega⟩
      ⟨by omega, by omega⟩) ?_)
    refine .bind (.of_eq (add_ok ⟨by omega, by omega⟩ ⟨by omega, by omega⟩) ?_)
    refine .bind (.of_eq (hset_ok hm hb.size (by omega) hb.bounded) ?_)
    refine .of_eq (add_ok ⟨by omega, by omega⟩ ⟨by omega, by omega⟩) ?_
    have hrep := hu.store (v := .null) hf hm hcap (hfl.trans (by rw [List.length_set]))
      (hb.store (k := n) (by omega))
    rw [set_self hf, List.set_set] at hrep
    refine ⟨rfl, _, hrep, by rw [List.length_set, hlen], fun j hj => ?_⟩
    rcases Nat.lt_succ_iff_lt_or_eq.mp hj with hlt | rfl
    · rw [List.getElem?_set_ne (by omega), hys j hlt]
    · exact List.getElem?_set_self (by omega)
  · exact ⟨rfl, xs, by rwa [abs_set_self hl], rfl, fun j hj => absurd hj (Nat.not_lt_zero j)⟩
  · unfold turns
    omega
  · obtain ⟨-, ys, hu, hlen, hys⟩ := hu
    obtain ⟨f, hf, hfl, cap, b, hcap, hm, hb⟩ := hu.fields (get_set_self hl)
    have hnull : ∀ y ∈ ys, y = .null := by
      intro y hy
      obtain ⟨j, hj, rfl⟩ := List.getElem_of_mem hy
      have := hys j (by omega)
      rw [List.getElem?_eq_getElem hj] at this
      exact Option.some.inj this
    refine .bind (.of_eq (fields_ok hf) (.of_eq rfl ?_))
    have hrep := hu.update (g := { f with len := 0 }) hf
      ⟨rfl, cap, b, hcap, hm, hb.nil hnull⟩ (fun _ _ _ h => h) (.inl rfl)
    rw [List.set_set] at hrep
    exact hrep

/-! ## Insertion -/

theorem insert_ends (h : Rep w abs) (hl : abs[l]? = some xs) (hk : k ≤ xs.length) :
    Ends (insert l k v) w (fun _ w' => Rep w' (abs.set l (xs.insertIdx k v)))
      fun e w' => e = .raised "list capacity overflow" ∧ w' = w := by
  have hlimit := h.length_le hl
  unfold limit at hlimit
  obtain ⟨f, hf, hlen, -⟩ := h.fields hl
  unfold insert
  refine .bind (.of_eq (fields_ok hf) ?_)
  refine .bind (.of_eq (require_ok ⟨by omega, by omega⟩) ?_)
  refine .seq (push_ends h hl) (fun _ w₁ hw₁ => ?_) fun _ _ h => h
  obtain ⟨f₁, hf₁, hlen₁, -⟩ := hw₁.fields (get_set_self hl)
  rw [List.length_append, List.length_singleton] at hlen₁
  refine .bind (.of_eq (fields_ok hf₁) ?_)
  refine .bind (.of_eq (sub_ok ⟨by omega, by omega⟩ ⟨by omega, by omega⟩) ?_)
  -- the elements from the end down to `i` have moved by one
  refine .seq (Ends.counted (xs.length - k)
    (fun n (i : ℤ) u => i = (xs.length - n : ℕ) ∧ ∃ ys, Rep u (abs.set l ys) ∧
      ys.length = xs.length + 1 ∧
      ∀ j, ys[j]? = if xs.length - n < j then xs[j - 1]? else (xs ++ [v])[j]?) ?_ ?_ ?_ ?_)
    (fun i u hu => ?_) fun _ _ h => h
  · rintro n i u hn ⟨rfl, -⟩
    exact return_decide (by omega)
  · rintro n i u hn ⟨rfl, ys, hu, hlen, hys⟩
    have hpred : ((xs.length - n : ℕ) : ℤ) - 1 = (xs.length - (n + 1) : ℕ) := by omega
    have hsub := sub_ok (w := u) (a := (xs.length - n : ℕ)) (b := 1) ⟨by omega, by omega⟩
      ⟨by omega, by omega⟩
    rw [hpred] at hsub
    refine .bind (.of_eq hsub ?_)
    refine .bind (.of_eq (get_ok hu (get_set_self hl) (k := xs.length - (n + 1)) (by omega)) ?_)
    obtain ⟨u', hset, hu'⟩ := hu.set_ok (k := xs.length - n) (v := ys[xs.length - (n + 1)]) hl
      (by omega)
    refine .bind (.of_eq hset (.of_eq (sub_ok ⟨by omega, by omega⟩ ⟨by omega, by omega⟩) ?_))
    refine ⟨hpred, _, hu', by rw [List.length_set, hlen], fun j => ?_⟩
    rw [List.getElem?_set, hys j, ← List.getElem?_eq_getElem, hys]
    split
    · next heq =>
      subst heq
      rw [if_pos (by omega), if_neg (by omega), if_pos (by omega),
        List.getElem?_append_left (by omega), Nat.sub_sub]
    · next hne =>
      by_cases hj : xs.length - n < j
      · rw [if_pos hj, if_pos (by omega)]
      · rw [if_neg hj, if_neg (by omega)]
  · refine ⟨by omega, _, hw₁, by rw [List.length_append]; rfl, fun j => ?_⟩
    split
    · rw [List.getElem?_eq_none (by rw [List.length_append, List.length_singleton]; omega),
        List.getElem?_eq_none (by omega)]
    · rfl
  · unfold turns
    omega
  · obtain ⟨-, ys, hu, hlen, hys⟩ := hu
    obtain ⟨u', hset, hu'⟩ := hu.set_ok (k := k) (v := v) hl (by omega)
    refine .of_eq hset ?_
    have heq : ys.set k v = xs.insertIdx k v := by
      refine List.ext_getElem? fun j => ?_
      rw [List.getElem?_set, hys j, List.getElem?_insertIdx]
      rcases Nat.lt_trichotomy j k with hlt | rfl | hgt
      · rw [if_neg (by omega), if_neg (by omega), if_pos hlt,
          List.getElem?_append_left (by omega)]
      · rw [if_pos rfl, if_pos (by omega), if_neg (Nat.lt_irrefl j), if_pos rfl, if_pos hk]
      · rw [if_neg (by omega), if_pos (by omega), if_neg (by omega), if_neg (by omega)]
    rwa [← heq]

theorem insert_error (h : Rep w abs) (hl : abs[l]? = some xs) {i : ℤ}
    (hi : ¬ (0 ≤ i ∧ i ≤ xs.length)) :
    insert l i v w = .error (.raised "list index out of bounds") w := by
  obtain ⟨f, hf, hlen, -⟩ := h.fields hl
  rw [insert, bind_ok (fields_ok hf), bind_error (require_error (by rwa [hlen]))]

/-! ## Reversal -/

theorem reverse_ends (h : Rep w abs) (hl : abs[l]? = some xs) :
    Ends (reverse l) w (fun _ w' => Rep w' (abs.set l xs.reverse)) E := by
  have hlimit := h.length_le hl
  unfold limit at hlimit
  obtain ⟨f, hf, hlen, -⟩ := h.fields hl
  unfold reverse
  refine .bind (.of_eq (fields_ok hf) ?_)
  refine .bind (.of_eq (sub_ok ⟨by omega, by omega⟩ ⟨by omega, by omega⟩) ?_)
  -- the first `n` elements and the last `n` have changed places
  refine .seq (Ends.counted (xs.length / 2)
    (fun n (p : ℤ × ℤ) u => p = ((n : ℤ), (xs.length : ℤ) - 1 - n) ∧
      ∃ ys, Rep u (abs.set l ys) ∧ ys.length = xs.length ∧
      ∀ j, ys[j]? = if j < xs.length ∧ (j < n ∨ xs.length ≤ j + n) then xs[xs.length - 1 - j]?
        else xs[j]?) ?_ ?_ ?_ ?_)
    (fun i u hu => ?_) fun _ _ h => h
  · rintro n _ u hn ⟨rfl, -⟩
    exact return_decide (by omega)
  · rintro n _ u hn ⟨rfl, ys, hu, hlen, hys⟩
    have hright : (xs.length : ℤ) - 1 - n = (xs.length - 1 - n : ℕ) := by omega
    rw [hright]
    refine .bind (.of_eq (get_ok hu (get_set_self hl) (k := n) (by omega)) ?_)
    refine .bind (.of_eq (get_ok hu (get_set_self hl) (k := xs.length - 1 - n) (by omega)) ?_)
    obtain ⟨u₁, hset₁, hu₁⟩ := hu.set_ok (k := n) (v := ys[xs.length - 1 - n]) hl (by omega)
    obtain ⟨u₂, hset₂, hu₂⟩ := hu₁.set_ok (k := xs.length - 1 - n) (v := ys[n]) hl
      (by rw [List.length_set]; omega)
    refine .bind (.of_eq hset₁ (.bind (.of_eq hset₂ ?_)))
    refine .bind (.of_eq (add_ok ⟨by omega, by omega⟩ ⟨by omega, by omega⟩) ?_)
    refine .bind (.of_eq (sub_ok ⟨by omega, by omega⟩ ⟨by omega, by omega⟩) (.pure ?_))
    refine ⟨Prod.ext (by push_cast; rfl) (by push_cast; omega), _, hu₂, ?_, fun j => ?_⟩
    · rw [List.length_set, List.length_set, hlen]
    · have hleft : ys[n]? = xs[n]? := by rw [hys, if_neg (by omega)]
      have hright : ys[xs.length - 1 - n]? = xs[xs.length - 1 - n]? := by
        rw [hys, if_neg (by omega)]
      rw [List.getElem?_set, List.getElem?_set, List.length_set, hys j, ← List.getElem?_eq_getElem,
        ← List.getElem?_eq_getElem, hleft, hright]
      by_cases hj₂ : xs.length - 1 - n = j
      · subst hj₂
        rw [if_pos rfl, if_pos (by omega), if_pos ⟨by omega, by omega⟩,
          show xs.length - 1 - (xs.length - 1 - n) = n by omega]
      · rw [if_neg hj₂]
        by_cases hj₁ : n = j
        · subst hj₁
          rw [if_pos rfl, if_pos (by omega), if_pos ⟨by omega, by omega⟩]
        · rw [if_neg hj₁]
          by_cases hj : j < xs.length ∧ (j < n ∨ xs.length ≤ j + n)
          · rw [if_pos hj, if_pos ⟨hj.1, by omega⟩]
          · rw [if_neg hj, if_neg (by omega)]
  · refine ⟨by rw [hlen, Nat.cast_zero, sub_zero], xs, by rwa [abs_set_self hl], rfl, fun j => ?_⟩
    rw [if_neg (by omega)]
  · unfold turns
    omega
  · obtain ⟨-, ys, hu, hlen, hys⟩ := hu
    have heq : ys = xs.reverse := by
      refine List.ext_getElem? fun j => ?_
      rw [hys j]
      by_cases hj : j < xs.length
      · rw [List.getElem?_reverse hj]
        split
        · rfl
        · rw [show xs.length - 1 - j = j by omega]
      · rw [if_neg (by omega), List.getElem?_eq_none (by omega),
          List.getElem?_eq_none (by rw [List.length_reverse]; omega)]
    rw [heq] at hu
    exact .pure hu

end Loxis.Stdlib.Lists
