import Loxis.Lexing.Grammar

/-! # Lines and columns

The cursor counts a line and a column for each byte that it passes, which are those of the place
where it is.
-/

namespace Loxis.Lexing

open Frontend

variable {src : List Byte} {n m i : ℕ} {line col : ℕ}

/-! ## Line ends -/

theorem lineEnds_succ : lineEnds src (n + 1) =
    if EndsLineAt src n then lineEnds src n ++ [n] else lineEnds src n := by
  rw [lineEnds, List.range_succ, List.filter_append, ← lineEnds]
  by_cases h : EndsLineAt src n <;> simp [h]

theorem lineOf_succ : lineOf line src (n + 1) =
    if EndsLineAt src n then lineOf line src n + 1 else lineOf line src n := by
  rw [lineOf, lineOf, lineEnds_succ]
  split <;> simp [Nat.add_assoc]

theorem lt_of_mem_lineEnds (h : i ∈ lineEnds src n) : i < n :=
  List.mem_range.mp (List.mem_filter.mp h).1

theorem columnOf_succ : columnOf col src (n + 1) =
    if EndsLineAt src n then 1 else columnOf col src n + 1 := by
  rw [columnOf, columnOf, lineEnds_succ]
  by_cases hn : EndsLineAt src n
  · simp [hn]
  · rw [if_neg hn, if_neg hn]
    cases h : (lineEnds src n).getLast? with
    | none => rfl
    | some i =>
      have := lt_of_mem_lineEnds (List.mem_of_getLast? h)
      simp only
      omega

@[simp] theorem lineOf_zero : lineOf line src 0 = line := rfl

@[simp] theorem columnOf_zero : columnOf col src 0 = col := rfl

/-- Within a line only the column grows. -/
theorem lineOf_run (h : ∀ i, n ≤ i → i < n + m → ¬ EndsLineAt src i) :
    lineOf line src (n + m) = lineOf line src n ∧
      columnOf col src (n + m) = columnOf col src n + m := by
  induction m with
  | zero => exact ⟨rfl, rfl⟩
  | succ m ih =>
    obtain ⟨hline, hcol⟩ := ih fun i hi hlt => h i hi (by omega)
    have hno := h (n + m) (by omega) (by omega)
    rw [← Nat.add_assoc, lineOf_succ, columnOf_succ, if_neg hno, if_neg hno, hline, hcol]
    exact ⟨rfl, Nat.add_assoc ..⟩

theorem endsLineAt_iff {b : Byte} {l : List Byte} (h : src.drop n = b :: l) :
    EndsLineAt src n ↔ endsLine b l = true := by
  have h₀ : src[n]? = some b := by
    rw [← List.head?_drop, h, List.head?_cons]
  have h₁ : src[n + 1]? = l.head? := by
    rw [← List.head?_drop, ← List.drop_drop, h]
    rfl
  rw [EndsLineAt, endsLine, h₀, h₁]
  simp

/-! ## The cursor -/

/-- The cursor is at a byte, or at the end. -/
structure Cursor.At (file : String) (start : ℕ × ℕ) (src : List Byte) (c : Cursor) (n : ℕ) :
    Prop where
  file : c.file = file
  le : n ≤ src.length
  rest : c.rest = src.drop n
  line : c.line = UInt32.ofNat (lineOf start.1 src n)
  col : c.col = UInt32.ofNat (columnOf start.2 src n)

variable {file : String} {start : ℕ × ℕ} {c c' : Cursor}

namespace Cursor.At

theorem advance (h : c.At file start src n) (hn : n < src.length) :
    c.advance.At file start src (n + 1) := by
  obtain ⟨b, l, hb⟩ : ∃ b l, c.rest = b :: l := by
    rw [h.rest]
    exact ⟨_, _, List.drop_eq_getElem_cons hn⟩
  have hdrop : src.drop (n + 1) = l := by
    rw [← List.drop_drop, ← h.rest, hb, List.drop_one, List.tail_cons]
  have hend := endsLineAt_iff (h.rest ▸ hb)
  rw [Cursor.advance, hb]
  dsimp only
  split
  · next he =>
    exact ⟨h.file, hn, hdrop.symm, by
      rw [lineOf_succ, if_pos (hend.mpr he), h.line]
      exact (UInt32.ofNat_add _ 1).symm, by rw [columnOf_succ, if_pos (hend.mpr he)]; rfl⟩
  · next he =>
    have hne : ¬ EndsLineAt src n := fun hn => he (hend.mp hn)
    exact ⟨h.file, hn, hdrop.symm, by rw [lineOf_succ, if_neg hne, h.line],
      by
      rw [columnOf_succ, if_neg hne, h.col]
      exact (UInt32.ofNat_add _ 1).symm⟩

theorem advances (h : c.At file start src n) (hm : n + m ≤ src.length) :
    (Cursor.advances m c).At file start src (n + m) := by
  induction m generalizing c n with
  | zero => exact h
  | succ m ih =>
    rw [Cursor.advances, show n + (m + 1) = n + 1 + m by omega]
    exact ih (h.advance (by omega)) (by omega)

theorem length_rest (h : c.At file start src n) : c.rest.length = src.length - n := by
  rw [h.rest, List.length_drop]

/-- A cursor moves over what it reads. -/
theorem move {t : List Byte} (h : c.At file start src n) (ht : t <+: c.rest) :
    (Cursor.advances t.length c).At file start src (n + t.length) := by
  refine h.advances ?_
  have := ht.length_le
  rw [h.length_rest] at this
  have := h.le
  omega

theorem lexeme {t : List Byte} (h : c.At file start src n) (h' : c'.At file start src (n + t.length))
    (ht : t <+: c.rest) : c.lexeme c' = t := by
  have hlen := ht.length_le
  have hn := h.le
  rw [h.length_rest] at hlen
  rw [Cursor.lexeme, h.length_rest, h'.length_rest,
    show src.length - n - (src.length - (n + t.length)) = t.length by omega]
  exact (List.prefix_iff_eq_take.mp ht).symm

theorem peek (h : c.At file start src n) (k : ℕ) : c.peek k = src[n + k]? := by
  rw [Cursor.peek, h.rest, List.getElem?_drop]

/-- The location of a cursor is exact when it fits. -/
theorem isAt_iff (h : c.At file start src n) : IsAt file start src c.loc n ↔ FitsAt start src n := by
  constructor
  · rintro ⟨-, hline, hcol⟩
    refine ⟨?_, ?_⟩
    · rw [← hline]
      exact UInt32.toNat_lt _
    · rw [← hcol]
      exact UInt32.toNat_lt _
  · rintro ⟨hline, hcol⟩
    refine ⟨h.file, ?_, ?_⟩
    · rw [Cursor.loc, h.line, UInt32.toNat_ofNat_of_lt' hline]
    · rw [Cursor.loc, h.col, UInt32.toNat_ofNat_of_lt' hcol]

end Cursor.At

end Loxis.Lexing

/-! ## Longest pieces

Each way to scan a piece takes the longest text of the class at the place.
-/

namespace Loxis.Lexing

open Frontend

variable {l t u : List Byte} {b : Byte} {p : Byte → Bool}

/-! ## Runs -/

theorem all_takeWhile (b : Byte) (h : b ∈ l.takeWhile p) : p b = true := by
  induction l with
  | nil => cases h
  | cons a l ih =>
    rw [List.takeWhile_cons] at h
    split at h
    · next ha =>
      rcases List.mem_cons.mp h with rfl | h
      · exact ha
      · exact ih h
    · cases h

theorem length_le_takeWhile (hu : ∀ b ∈ u, p b = true) (h : u <+: l) :
    u.length ≤ (l.takeWhile p).length := by
  obtain ⟨r, rfl⟩ := h
  rw [List.takeWhile_append_of_pos hu, List.length_append]
  exact Nat.le_add_right ..

theorem longest_blank (hb : isBlank b = true) :
    Longest .blank (b :: l) ((b :: l).takeWhile isBlank) where
  allowed := ⟨by simp [hb], all_takeWhile⟩
  isPrefix := List.takeWhile_prefix _
  longest _ hu h := length_le_takeWhile hu.2 h

theorem isIdCont_of_isIdStart (hb : isIdStart b = true) : isIdCont b = true := by
  simp only [isIdStart, isIdCont, Bool.or_eq_true] at hb ⊢
  exact .inl hb

theorem longest_word (hb : isIdStart b = true) :
    Longest .word (b :: l) ((b :: l).takeWhile isIdCont) where
  allowed := ⟨by simp [isIdCont_of_isIdStart hb, hb], all_takeWhile⟩
  isPrefix := List.takeWhile_prefix _
  longest _ hu h := length_le_takeWhile hu.2 h

/-! ## Newlines and comments -/

theorem longest_newline (hb : isNewline b = true) :
    Longest .newline (b :: l) (if b = cr ∧ l.head? = some lf then [cr, lf] else [b]) := by
  simp only [isNewline, Bool.or_eq_true, beq_iff_eq] at hb
  by_cases h : b = cr ∧ l.head? = some lf
  · rw [if_pos h]
    obtain ⟨rfl, hl⟩ := h
    obtain ⟨r, rfl⟩ := List.head?_eq_some_iff.mp hl
    refine ⟨.inr (.inr rfl), ⟨r, rfl⟩, ?_⟩
    rintro u (rfl | rfl | rfl) - <;> decide
  · rw [if_neg h]
    refine ⟨?_, ⟨l, rfl⟩, ?_⟩
    · rcases hb with rfl | rfl
      · exact .inl rfl
      · exact .inr (.inl rfl)
    · rintro u (rfl | rfl | rfl) hu
      · exact le_rfl
      · exact le_rfl
      · obtain ⟨rfl, r, rfl⟩ := List.cons_prefix_cons.mp hu
        exact absurd ⟨rfl, rfl⟩ h

theorem longest_lineComment : Longest .comment (slash :: slash :: l)
    (slash :: slash :: l.takeWhile fun b => !isNewline b) where
  allowed := .inl ⟨_, rfl, fun b hb => by simpa using all_takeWhile b hb⟩
  isPrefix := by simpa using List.takeWhile_prefix _
  longest u hu h := by
    rcases hu with ⟨s, rfl, hs⟩ | ⟨s, rfl, -⟩
    · have hpre := (List.cons_prefix_cons.mp (List.cons_prefix_cons.mp h).2).2
      simpa using length_le_takeWhile (p := fun b => !isNewline b) (by simpa using hs) hpre
    · have := (List.cons_prefix_cons.mp (List.cons_prefix_cons.mp h).2).1
      exact absurd this (by decide)

theorem commentLength_some {n : ℕ} (h : Cursor.commentLength l = some n) :
    n ≤ l.length ∧ l.take n ++ [star, slash] <+: l ∧ ¬ [star, slash] <:+: l.take n ++ [star] := by
  induction l generalizing n with
  | nil => cases h
  | cons a l ih =>
    rw [Cursor.commentLength] at h
    split at h
    · next hend =>
      obtain ⟨rfl, hl⟩ := hend
      obtain ⟨r, rfl⟩ := List.head?_eq_some_iff.mp hl
      cases h
      rw [List.take_zero]
      exact ⟨Nat.zero_le _, ⟨r, rfl⟩, by decide⟩
    · next hend =>
      obtain ⟨m, hm, rfl⟩ := Option.map_eq_some_iff.mp h
      obtain ⟨hle, hpre, hno⟩ := ih hm
      refine ⟨Nat.succ_le_succ hle, by simpa using hpre, ?_⟩
      rw [List.take_succ_cons, List.cons_append, List.infix_cons_iff]
      rintro (hstart | hin)
      · -- the comment would close at this byte already
        obtain ⟨rfl, hslash⟩ := List.cons_prefix_cons.mp hstart
        cases m with
        | zero => exact absurd (List.cons_prefix_cons.mp hslash).1 (by decide)
        | succ m =>
          cases l with
          | nil => cases hm
          | cons a l =>
            rw [List.take_succ_cons, List.cons_append] at hslash
            obtain ⟨rfl, -⟩ := List.cons_prefix_cons.mp hslash
            exact hend ⟨rfl, rfl⟩
      · exact hno hin

theorem longest_blockComment {n : ℕ} (h : Cursor.commentLength l = some n) :
    Longest .comment (slash :: star :: l) (slash :: star :: (l.take n ++ [star, slash])) := by
  obtain ⟨hle, hpre, hno⟩ := commentLength_some h
  refine ⟨.inr ⟨_, rfl, hno⟩, ?_, ?_⟩
  · exact List.cons_prefix_cons.mpr ⟨rfl, List.cons_prefix_cons.mpr ⟨rfl, hpre⟩⟩
  · rintro u (⟨s, rfl, -⟩ | ⟨s, rfl, hs⟩) hu
    · have := (List.cons_prefix_cons.mp (List.cons_prefix_cons.mp hu).2).1
      exact absurd this (by decide)
    · have hu := (List.cons_prefix_cons.mp (List.cons_prefix_cons.mp hu).2).2
      by_contra hlt
      simp only [List.length_cons, List.length_append, List.length_take, List.length_nil,
        Nat.min_eq_left hle, not_le] at hlt
      -- a longer comment would close where the shorter one does
      have hstar : s ++ [star] <+: l :=
        ((List.prefix_append_right_inj s).mpr ⟨[slash], rfl⟩).trans hu
      have hin : l.take n ++ [star, slash] <+: s ++ [star] :=
        List.prefix_of_prefix_length_le hpre hstar (by simp [hle]; omega)
      exact hs ((List.suffix_append _ _).isInfix.trans hin.isInfix)

/-! ## Literals -/

/-- The text up to `r` closes a string, whatever follows it. -/
def Closes (str : Bool) (d : ℕ) (l r : List Byte) : Prop :=
  ∃ x, l = x ++ r ∧ ∀ y, literalEnd str d (x ++ y) = some y

/-- A step over the bytes `s` leaves the same question for the rest. -/
theorem Closes.step {str str' : Bool} {d d' : ℕ} {s r : List Byte} (h : Closes str' d' l r)
    (hs : ∀ x y, x ≠ [] → x.head? = l.head? →
      literalEnd str d (s ++ (x ++ y)) = literalEnd str' d' (x ++ y)) :
    Closes str d (s ++ l) r := by
  obtain ⟨x, rfl, hx⟩ := h
  have hne : x ≠ [] := by
    rintro rfl
    have := hx []
    rw [List.append_nil, literalEnd] at this
    cases this
  refine ⟨s ++ x, by rw [List.append_assoc], fun y => ?_⟩
  have hhead : x.head? = (x ++ r).head? := by
    cases x with
    | nil => exact absurd rfl hne
    | cons b x => rfl
  rw [List.append_assoc, hs x y hne hhead, hx]

theorem closes_of_literalEnd {str : Bool} {d : ℕ} {r : List Byte}
    (h : literalEnd str d l = some r) : Closes str d l r := by
  fun_induction literalEnd str d l
  case case1 | case2 | case5 | case9 | case15 => cases h
  case case4 hc =>
    cases h
    exact ⟨[quote], rfl, fun y => by rw [literalEnd.eq_def]; simp [hc]⟩
  case case3 b m ih | case10 _ b m _ ih | case16 _ _ b m _ _ _ ih =>
    refine (ih h).step (s := [backslash, b]) fun x y _ _ => ?_
    rw [List.cons_append, List.cons_append, List.nil_append, literalEnd.eq_def]
    simp [*]
  case case6 c _ _ b m hb ih =>
    refine (ih h).step (s := [c, b]) fun x y _ _ => ?_
    rw [List.cons_append, List.cons_append, List.nil_append, literalEnd.eq_def]
    simp_all
  case case7 c l _ _ hdollar ih =>
    refine (ih h).step (s := [c]) fun x y hx hhead => ?_
    have hhead : (x ++ y).head? = l.head? := by
      rw [← hhead]
      cases x with
      | nil => exact absurd rfl hx
      | cons b x => rfl
    rw [List.singleton_append, literalEnd.eq_def]
    simp [*]
  all_goals
    rename_i ih
    refine (ih h).step (s := [_]) fun x y _ _ => ?_
    rw [List.singleton_append, literalEnd.eq_def]
    simp [*]

theorem longest_string {r : List Byte} (h : literalEnd false 0 l = some r) :
    Longest .string (quote :: l) ((quote :: l).take ((quote :: l).length - r.length)) := by
  obtain ⟨x, rfl, hx⟩ := closes_of_literalEnd h
  have ht : (quote :: (x ++ r)).take ((quote :: (x ++ r)).length - r.length) = quote :: x := by
    rw [List.length_cons, List.length_append, show x.length + r.length + 1 - r.length = x.length + 1
      by omega, List.take_succ_cons, List.take_left]
  rw [ht]
  refine ⟨⟨x, rfl, by simpa using hx []⟩, ⟨r, rfl⟩, ?_⟩
  rintro u ⟨body, rfl, hbody⟩ hu
  obtain ⟨y, hy⟩ := (List.cons_prefix_cons.mp hu).2
  obtain ⟨z, rfl, hz⟩ := closes_of_literalEnd hbody
  have hsame : some y = some r := by
    rw [List.append_nil] at hy
    rw [← hz y, hy, hx r]
  cases hsame
  have := List.append_cancel_right hy
  simp_all

theorem longest_char (h : IsCharLiteral t) (ht : t <+: l) : Longest .char l t := by
  refine ⟨h, ht, fun u hu hpre => ?_⟩
  by_contra hlt
  have htu : t <+: u := List.prefix_of_prefix_length_le ht hpre (by omega)
  rcases h with rfl | ⟨b, rfl, hb⟩ | ⟨b, rfl⟩ <;> rcases hu with rfl | ⟨b', rfl, hb'⟩ | ⟨b', rfl⟩ <;>
    simp_all [List.cons_prefix_cons, apostrophe, backslash]

/-! ## Operators -/

theorem ascii_singleton (c : Char) : ascii (String.singleton c) = [UInt8.ofNat c.toNat] := by
  simp [ascii]

/-- No character starts two rows. -/
theorem operators_distinct :
    operators.Pairwise fun o o' => UInt8.ofNat o.1.toNat ≠ UInt8.ofNat o'.1.toNat := by
  decide

/-- Longer operators are tried first. -/
theorem operators_sorted : ∀ o ∈ operators,
    o.2.Pairwise fun s s' => (ascii s'.1).length ≤ (ascii s.1).length := by
  decide

theorem eq_of_pairwise_ne {α β : Type} {f : α → β} {l : List α}
    (h : l.Pairwise fun x y => f x ≠ f y) {x y : α} (hx : x ∈ l) (hy : y ∈ l) (he : f x = f y) :
    x = y := by
  induction h with
  | nil => cases hx
  | cons hne _ ih =>
    rcases List.mem_cons.mp hx with rfl | hx' <;> rcases List.mem_cons.mp hy with rfl | hy'
    · rfl
    · exact absurd he (hne _ hy')
    · exact absurd he.symm (hne _ hx')
    · exact ih hx' hy'

theorem longest_operator {s : String × Tk}
    (h : ((operators.find? fun o => ascii (String.singleton o.1) = [b]).bind fun o =>
      o.2.find? fun s => ascii s.1 <+: l) = some s) :
    IsOperator (b :: ascii s.1) s.2 ∧ Longest .operator (b :: l) (b :: ascii s.1) := by
  obtain ⟨o, ho, hs⟩ := Option.bind_eq_some_iff.mp h
  have hmem := List.mem_of_find?_eq_some ho
  have hb : UInt8.ofNat o.1.toNat = b := by
    have hkey := List.find?_some ho
    rw [decide_eq_true_iff, ascii_singleton] at hkey
    exact (List.cons.inj hkey).1
  have hop : IsOperator (b :: ascii s.1) s.2 :=
    ⟨o, hmem, s, List.mem_of_find?_eq_some hs, by rw [ascii_singleton, hb]; rfl, rfl⟩
  have hpre := List.find?_some hs
  rw [decide_eq_true_iff] at hpre
  refine ⟨hop, ⟨_, hop⟩, List.cons_prefix_cons.mpr ⟨rfl, hpre⟩, ?_⟩
  rintro u ⟨k, o', ho', s', hs', rfl, -⟩ hu
  rw [ascii_singleton, List.singleton_append] at hu ⊢
  obtain ⟨hb', htail⟩ := List.cons_prefix_cons.mp hu
  obtain rfl : o = o' := eq_of_pairwise_ne operators_distinct hmem ho' (hb.trans hb'.symm)
  obtain ⟨hps, before, after, heq, hbefore⟩ := List.find?_eq_some_iff_append.mp hs
  have hsorted := operators_sorted o hmem
  rw [heq, List.pairwise_append, List.pairwise_cons] at hsorted
  rw [heq] at hs'
  simp only [List.length_cons, Nat.add_le_add_iff_right]
  rcases List.mem_append.mp hs' with hs' | hs'
  · have := hbefore s' hs'
    simp [htail] at this
  · rcases List.mem_cons.mp hs' with rfl | hs'
    · exact le_rfl
    · exact hsorted.2.1.1 s' hs'

end Loxis.Lexing
