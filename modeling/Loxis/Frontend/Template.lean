import Loxis.Frontend.StringLit

/-! # The scan of a template

A fragment is taken whole exactly when the scan sees it as one piece, and the loop over the raw text
has one equation for each way it can go on.
-/

namespace Loxis.Frontend

variable {lit raw l m t w e f : List Byte} {c d : Byte} {n k : ℕ} {str : Bool} {its : List Item}
  {ps qs : List Part}

section Bytes

theorem quote_ne_backslash : quote ≠ backslash := by decide

theorem backslash_ne_dollar : backslash ≠ dollar := by decide

theorem lbrace_ne_dollar : lbrace ≠ dollar := by decide

theorem ne_of_idStart (h : isIdStart c = true) : c ≠ dollar ∧ c ≠ lbrace := by
  constructor
  · rintro rfl
    exact absurd h (by decide)
  · rintro rfl
    exact absurd h (by decide)

theorem ne_dollar_of_hex (h : (hexDigit c).isSome) : c ≠ dollar := by
  rintro rfl
  exact absurd h (by decide)

theorem ne_x_of_known (h : c ∈ knownEscapes) : c ≠ 0x78 := by
  rintro rfl
  exact absurd h (by decide)

end Bytes

section Fragment

theorem takeFragment_length {r : List Byte × List Byte} (h : takeFragment str n l = some r) :
    r.2.length < l.length := by
  fun_induction takeFragment str n l generalizing r
  case case1 | case3 | case6 => exact absurd h (by simp)
  case case10 =>
    obtain rfl := Option.some.inj h
    exact Nat.lt_succ_self _
  case case4 ih | case7 ih =>
    obtain ⟨r', h', rfl⟩ := Option.map_eq_some_iff.mp h
    exact (ih h').trans (Nat.lt_add_of_pos_right (Nat.succ_pos 1))
  case case2 ih | case5 ih | case8 ih | case9 ih | case11 ih | case12 ih =>
    obtain ⟨r', h', rfl⟩ := Option.map_eq_some_iff.mp h
    exact (ih h').trans (Nat.lt_succ_self _)

theorem takeFragment_append (h : closed str n e = true) (l : List Byte) :
    takeFragment str (n + 1) (e ++ l) =
      (takeFragment false 1 l).map (Prod.map (e ++ ·) id) := by
  fun_induction closed str n e
  case case1 =>
    simp only [Bool.and_eq_true, Bool.not_eq_true', beq_iff_eq] at h
    obtain ⟨rfl, rfl⟩ := h
    exact (Option.map_id' ..).symm
  case case2 | case8 => exact absurd h (by simp)
  case case3 b _ _ _ ih =>
    rw [List.cons_append, takeFragment.eq_def]
    cases b <;> simp [ih h, quote_ne_backslash.symm, Function.comp_def] <;> rfl
  case case4 ih | case5 ih | case6 ih | case7 ih | case10 ih =>
    rw [List.cons_append, takeFragment.eq_def]
    simp [ih h, Function.comp_def, *]
    rfl
  case case9 k _ _ hd _ _ _ ih =>
    have hk : k - 1 + 1 = k := Nat.sub_one_add_one hd
    rw [hk] at ih
    rw [List.cons_append, takeFragment.eq_def]
    simp [ih h, Function.comp_def, *]
    rfl

theorem closed_of_takeFragment {r : List Byte} (h : takeFragment str (n + 1) l = some (f, r)) :
    closed str n f = true := by
  generalize hk : n + 1 = k at h
  fun_induction takeFragment str k l generalizing f n
  case case1 | case3 | case6 => exact absurd h (by simp)
  case case10 =>
    obtain ⟨rfl, rfl⟩ := Prod.mk.inj (Option.some.inj h)
    simp at hk
    simp [closed, *]
  case case4 ih | case7 ih =>
    obtain ⟨⟨f', r'⟩, h', h''⟩ := Option.map_eq_some_iff.mp h
    obtain ⟨rfl, rfl⟩ := Prod.mk.inj h''
    simp [closed, ih hk h', *]
  case case2 ih | case5 ih | case8 ih | case12 ih =>
    obtain ⟨⟨f', r'⟩, h', h''⟩ := Option.map_eq_some_iff.mp h
    obtain ⟨rfl, rfl⟩ := Prod.mk.inj h''
    rw [closed.eq_def]
    simp [ih hk h', quote_ne_backslash, *]
  case case9 ih =>
    obtain ⟨⟨f', r'⟩, h', h''⟩ := Option.map_eq_some_iff.mp h
    obtain ⟨rfl, rfl⟩ := Prod.mk.inj h''
    rw [closed.eq_def]
    simp [*]
  case case11 h1 ih =>
    obtain ⟨⟨f', r'⟩, h', h''⟩ := Option.map_eq_some_iff.mp h
    obtain ⟨rfl, rfl⟩ := Prod.mk.inj h''
    rw [closed.eq_def]
    have hn : n ≠ 0 := by omega
    simp [ih (n := n - 1) (by omega) h', *]

end Fragment

section Loop

theorem scanParts_cons (hc : c ≠ dollar) :
    scanParts (n + 1) lit (c :: l) = scanParts n (lit ++ [c]) l := by
  rw [scanParts.eq_def]
  simp [hc]

theorem scanParts_dollar : scanParts (n + 1) lit [dollar] = scanParts n (lit ++ [dollar]) [] := by
  rw [scanParts.eq_def]
  simp

theorem scanParts_dollar_cons : scanParts (n + 1) lit (dollar :: d :: m) =
    if d = dollar then scanParts n (lit ++ [dollar]) m
    else if d = lbrace then
      (takeFragment false 1 m).bind fun r => (flushLit lit).bind fun ps =>
        (scanParts n [] r.2).map fun qs => ps ++ .code r.1 :: qs
    else if isIdStart d then
      (flushLit lit).bind fun ps => (scanParts n [] ((d :: m).dropWhile isIdCont)).map fun qs =>
        ps ++ .path ((d :: m).takeWhile isIdCont) :: qs
    else scanParts n (lit ++ [dollar]) (d :: m) := by
  rw [scanParts.eq_def]
  simp

/-- Every turn of the loop takes a byte, so any bound beyond the length of the text will do. -/
theorem scanParts_fuel (hn : raw.length < n) (hk : raw.length < k) :
    scanParts n lit raw = scanParts k lit raw := by
  induction n generalizing k lit raw with
  | zero => exact absurd hn (Nat.not_lt_zero _)
  | succ n ih =>
    obtain ⟨k, rfl⟩ := Nat.exists_eq_add_one_of_ne_zero (Nat.ne_of_gt (Nat.zero_lt_of_lt hk))
    cases raw with
    | nil => rfl
    | cons c l =>
      rw [List.length_cons] at hn hk
      by_cases hc : c = dollar
      · subst hc
        cases l with
        | nil =>
          rw [scanParts_dollar, scanParts_dollar]
          exact ih (by simp at hn ⊢; omega) (by simp at hk ⊢; omega)
        | cons d m =>
          rw [List.length_cons] at hn hk
          rw [scanParts_dollar_cons, scanParts_dollar_cons]
          have hdrop := (List.dropWhile_sublist isIdCont (l := d :: m)).length_le
          rw [List.length_cons] at hdrop
          have hdollars : scanParts n (lit ++ [dollar]) m = scanParts k (lit ++ [dollar]) m :=
            ih (by omega) (by omega)
          have hpath : scanParts n [] ((d :: m).dropWhile isIdCont) =
              scanParts k [] ((d :: m).dropWhile isIdCont) := ih (by omega) (by omega)
          have hlone : scanParts n (lit ++ [dollar]) (d :: m) =
              scanParts k (lit ++ [dollar]) (d :: m) := ih (by simp; omega) (by simp; omega)
          rw [hdollars, hpath, hlone]
          congr 2
          refine Option.bind_congr fun r hr => ?_
          have hlen := takeFragment_length hr
          have hcode : scanParts n [] r.2 = scanParts k [] r.2 := ih (by omega) (by omega)
          rw [hcode]
      · rw [scanParts_cons hc, scanParts_cons hc]
        exact ih (by omega) (by omega)

theorem templateParts_nil : templateParts lit [] = flushLit lit := rfl

theorem templateParts_cons (hc : c ≠ dollar) :
    templateParts lit (c :: l) = templateParts (lit ++ [c]) l := scanParts_cons hc

theorem templateParts_dollar : templateParts lit [dollar] = flushLit (lit ++ [dollar]) :=
  scanParts_dollar

theorem templateParts_dollars :
    templateParts lit (dollar :: dollar :: l) = templateParts (lit ++ [dollar]) l := by
  unfold templateParts
  rw [List.length_cons, List.length_cons, scanParts_dollar_cons, if_pos rfl]
  exact scanParts_fuel (by omega) (by omega)

/-- A dollar before anything else stands for itself. -/
theorem templateParts_lone (h : opens (d :: m) = false) :
    templateParts lit (dollar :: d :: m) = templateParts (lit ++ [dollar]) (d :: m) := by
  have hd : ¬ d = dollar ∧ ¬ d = lbrace ∧ ¬ isIdStart d = true := by
    simpa [opens, and_assoc] using h
  unfold templateParts
  rw [List.length_cons, scanParts_dollar_cons, if_neg hd.1, if_neg hd.2.1, if_neg hd.2.2]

theorem templateParts_code : templateParts lit (dollar :: lbrace :: m) =
    (takeFragment false 1 m).bind fun r => (flushLit lit).bind fun ps =>
      (templateParts [] r.2).map fun qs => ps ++ .code r.1 :: qs := by
  unfold templateParts
  rw [List.length_cons, List.length_cons, scanParts_dollar_cons, if_neg lbrace_ne_dollar,
    if_pos rfl]
  refine Option.bind_congr fun r hr => ?_
  have hlen := takeFragment_length hr
  rw [scanParts_fuel (k := r.2.length + 1) (by omega) (by omega)]

theorem templateParts_path (hd : isIdStart d = true) : templateParts lit (dollar :: d :: m) =
    (flushLit lit).bind fun ps => (templateParts [] ((d :: m).dropWhile isIdCont)).map fun qs =>
      ps ++ .path ((d :: m).takeWhile isIdCont) :: qs := by
  obtain ⟨h1, h2⟩ := ne_of_idStart hd
  have hdrop := (List.dropWhile_sublist isIdCont (l := d :: m)).length_le
  unfold templateParts
  rw [List.length_cons, scanParts_dollar_cons, if_neg h1, if_neg h2, if_pos hd]
  rw [scanParts_fuel (k := ((d :: m).dropWhile isIdCont).length + 1) (by omega) (by omega)]

end Loop

end Loxis.Frontend
