import Loxis.Lexing.Numbers

/-! # Turns of the loop

A turn that does not end in an error reads the longest piece of the class at its place.
-/

namespace Loxis.Lexing

open Frontend

variable {file : String} {start : ℕ × ℕ} {src : List Byte} {c c' c₀ : Cursor} {n n₀ m : ℕ}
  {l t x : List Byte} {b : Byte} {k : Class} {p : Byte → Bool}

/-! ## What a turn finds -/

/-- The kind of token for a piece of the source. A number counts as a float when the letter of an
exponent follows it, too. -/
def KindOf (src : List Byte) (n : ℕ) (k : Class) (t : List Byte) (kind : Tk) : Prop :=
  match k with
  | .blank | .comment => False
  | .newline => kind = .newline
  | .word => kind = if t = ascii "_" then .underscore else keyword t
  | .number =>
    kind = .floatLit ∧ (IsFloat t ∨ src[n + t.length]?.any isExponent = true) ∨
      kind = .intLit ∧ ¬ (IsFloat t ∨ src[n + t.length]?.any isExponent = true)
  | .string => kind = .stringLit
  | .char => kind = .charLit
  | .operator => IsOperator t kind

/-- A turn reads a comment or a token, or ends in an error. -/
inductive Found (file : String) (start : ℕ × ℕ) (src : List Byte) (c : Cursor) (n : ℕ) :
    Scanned → Prop
  | error (d : Diagnostic) : Found file start src c n (.error d)
  | skip {t : List Byte} {c' : Cursor} :
      classAt (src.drop n) = some .comment → Longest .comment (src.drop n) t →
      c'.At file start src (n + t.length) → Found file start src c n (.skip c')
  | token {k : Class} {t : List Byte} {tok : Token} {c' : Cursor} :
      classAt (src.drop n) = some k → k.skipped = false →
      Longest k (src.drop n) t → c'.At file start src (n + t.length) → tok.loc = c.loc →
      tok.lex = (if k = .newline then [lf] else t) → KindOf src n k t tok.kind →
      Found file start src c n (.token tok c')

theorem found_emit {kind : Tk} (h : c.At file start src n) (hk : classAt (src.drop n) = some k)
    (hs : k.skipped = false) (hn : k ≠ .newline) (hl : Longest k (src.drop n) t)
    (h' : c'.At file start src (n + t.length)) (hkind : KindOf src n k t kind) :
    Found file start src c n (.emit kind c c') := by
  refine .token hk hs hl h' rfl ?_ hkind
  rw [if_neg hn]
  exact h.lexeme h' (h.rest ▸ hl.isPrefix)

/-! ## Cursors -/

namespace Cursor.At

theorem peekIs (h : c.At file start src n) (i : ℕ) : c.peekIs i p = src[n + i]?.any p := by
  rw [Cursor.peekIs, h.peek]

theorem skipWhile (h : c.At file start src n) :
    (c.skipWhile p).At file start src (n + ((src.drop n).takeWhile p).length) := by
  rw [Cursor.skipWhile, h.rest]
  exact h.move (h.rest ▸ List.takeWhile_prefix _)

theorem lt_of_rest (h : c.At file start src n) (hb : c.rest = b :: l) : n < src.length := by
  have := h.length_rest
  rw [hb, List.length_cons] at this
  omega

theorem lt_of_peekIs (h : c.At file start src n) {i : ℕ} (hp : c.peekIs i p = true) :
    n + i < src.length := by
  rw [h.peekIs] at hp
  by_contra hlt
  rw [List.getElem?_eq_none (not_lt.mp hlt)] at hp
  cases hp

end Cursor.At

theorem getElem?_of_drop (h : src.drop n = b :: l) : src[n]? = some b ∧ src[n + 1]? = l.head? := by
  constructor
  · rw [← List.head?_drop, h, List.head?_cons]
  · rw [← List.head?_drop, ← List.drop_drop, h]
    rfl

/-- No line ends inside a text without newlines. -/
theorem not_endsLineAt (ht : t <+: src.drop n) (hno : ∀ b ∈ t, isNewline b = false) {i : ℕ}
    (hi : n ≤ i) (hlt : i < n + t.length) : ¬ EndsLineAt src i := by
  obtain ⟨r, hr⟩ := ht
  have hin : i - n < t.length := by omega
  have hget : src[i]? = t[i - n]? := by
    have hdrop : src[i]? = (src.drop n)[i - n]? := by
      rw [List.getElem?_drop, Nat.add_sub_cancel' hi]
    rw [hdrop, ← hr, List.getElem?_append_left hin]
  have hmem : t[i - n]? = some t[i - n] := List.getElem?_eq_getElem hin
  have hb := hno _ (List.getElem_mem hin)
  simp only [isNewline, Bool.or_eq_false_iff, beq_eq_false_iff_ne] at hb
  rw [EndsLineAt, hget, hmem]
  rintro (he | ⟨he, -⟩)
  · exact hb.1 (Option.some.inj he)
  · exact hb.2 (Option.some.inj he)

/-- A text without newlines lies in one line. -/
theorem same_line (start : ℕ × ℕ) (ht : t <+: src.drop n) (hno : ∀ b ∈ t, isNewline b = false) :
    lineOf start.1 src (n + t.length) = lineOf start.1 src n ∧
      columnOf start.2 src (n + t.length) = columnOf start.2 src n + t.length :=
  lineOf_run fun _ hi hlt => not_endsLineAt ht hno hi hlt

/-! ## The turns -/

section Turns

variable (h : c.At file start src n) (hb : c.rest = b :: l)

include h hb

theorem found_newline (hk : classAt (src.drop n) = some .newline) (hnl : isNewline b = true) :
    Found file start src c n c.newline := by
  have hdrop : src.drop n = b :: l := h.rest ▸ hb
  have hlong := longest_newline (l := l) hnl
  rw [← hdrop] at hlong
  have hget := getElem?_of_drop hdrop
  have h₁ := h.advance (h.lt_of_rest hb)
  refine .token hk rfl hlong ?_ rfl rfl rfl
  have hcond : (c.peekIs 0 (· == cr) && c.advance.peekIs 0 (· == lf)) = true ↔
      b = cr ∧ l.head? = some lf := by
    rw [h.peekIs, h₁.peekIs, Nat.add_zero, Nat.add_zero, hget.1, hget.2]
    cases l <;> simp
  by_cases hcr : b = cr ∧ l.head? = some lf
  · rw [if_pos (hcond.mpr hcr), if_pos hcr]
    refine h₁.advance ?_
    have := hlong.isPrefix.length_le
    rw [if_pos hcr, List.length_drop] at this
    simp at this
    omega
  · rw [if_neg (hcond.not.mpr hcr), if_neg hcr]
    exact h₁

theorem found_lineComment (hk : classAt (src.drop n) = some .comment) (hs : b = slash)
    (hs' : c.peekIs 1 (· == slash) = true) : Found file start src c n c.lineComment := by
  subst hs
  have hdrop : src.drop n = slash :: l := h.rest ▸ hb
  obtain ⟨m, rfl⟩ : ∃ m, l = slash :: m := by
    rw [h.peekIs, (getElem?_of_drop hdrop).2] at hs'
    cases l with
    | nil => cases hs'
    | cons a m => exact ⟨m, by simpa using hs'⟩
  have hlong := longest_lineComment (l := m)
  rw [← hdrop] at hlong
  refine .skip hk hlong ?_
  have h₂ := h.advances (m := 2) (h.lt_of_peekIs hs')
  have h₃ := h₂.skipWhile (p := fun b => !isNewline b)
  rw [← List.drop_drop, hdrop] at h₃
  simpa [Nat.add_assoc, Nat.add_comm 2] using h₃

theorem found_blockComment (hk : classAt (src.drop n) = some .comment) (hs : b = slash)
    (hs' : c.peekIs 1 (· == star) = true) : Found file start src c n c.blockComment := by
  subst hs
  have hdrop : src.drop n = slash :: l := h.rest ▸ hb
  obtain ⟨m, rfl⟩ : ∃ m, l = star :: m := by
    rw [h.peekIs, (getElem?_of_drop hdrop).2] at hs'
    cases l with
    | nil => cases hs'
    | cons a m => exact ⟨m, by simpa using hs'⟩
  have h₂ := h.advances (m := 2) (h.lt_of_peekIs hs')
  have hrest : (Cursor.advances 2 c).rest = m := by
    rw [h₂.rest, ← List.drop_drop, hdrop]
    rfl
  rw [Cursor.blockComment]
  cases hlen : Cursor.commentLength (Cursor.advances 2 c).rest with
  | none => exact .error _
  | some k =>
    rw [hrest] at hlen
    have hlong := longest_blockComment hlen
    rw [← hdrop] at hlong
    refine .skip hk hlong ?_
    obtain ⟨hle, hpre, -⟩ := commentLength_some hlen
    have h₃ := h₂.move (t := m.take k ++ [star, slash]) (hrest ▸ hpre)
    simpa [Nat.min_eq_left hle, Nat.add_assoc, Nat.add_comm 2] using h₃

theorem found_word (hk : classAt (src.drop n) = some .word) (hid : isIdStart b = true) :
    Found file start src c n c.word := by
  have hdrop : src.drop n = b :: l := h.rest ▸ hb
  have hlong := longest_word (l := l) hid
  rw [← hdrop] at hlong
  have h' := h.skipWhile (p := isIdCont)
  refine found_emit h hk rfl nofun hlong h' ?_
  rw [h.lexeme h' (h.rest ▸ hlong.isPrefix)]
  exact rfl

theorem found_string (hk : classAt (src.drop n) = some .string) (hq : b = quote) :
    Found file start src c n c.string := by
  subst hq
  have hdrop : src.drop n = quote :: l := h.rest ▸ hb
  rw [Cursor.string, hb]
  cases he : literalEnd false 0 l with
  | none =>
    rw [literalStr, List.tail_cons, he]
    exact .error _
  | some r =>
    rw [literalStr, List.tail_cons, he]
    have hlong := longest_string he
    have h' := h.move (t := (quote :: l).take ((quote :: l).length - r.length))
      (hb ▸ hlong.isPrefix)
    exact found_emit h hk rfl nofun (hdrop.symm ▸ hlong) h' rfl

theorem found_operator (hk : classAt (src.drop n) = some .operator) :
    Found file start src c n (c.operator b) := by
  have hdrop : src.drop n = b :: l := h.rest ▸ hb
  rw [Cursor.operator]
  split
  · next s hs =>
    rw [hb, List.tail_cons] at hs
    obtain ⟨hop, hlong⟩ := longest_operator hs
    have h' := h.move (hb ▸ hlong.isPrefix)
    rw [← hdrop] at hlong
    have hlen : (b :: ascii s.1).length = s.1.length + 1 := by
      simp [ascii, String.length_toList]
    rw [hlen] at h'
    exact found_emit h hk rfl (by decide) hlong (hlen ▸ h') hop
  · exact .error _

theorem found_char (hk : classAt (src.drop n) = some .char) (hq : b = apostrophe) :
    Found file start src c n c.char := by
  subst hq
  have hdrop : src.drop n = apostrophe :: l := h.rest ▸ hb
  have h₁ := h.advance (h.lt_of_rest hb)
  have hrest : c.advance.rest = l := by
    rw [h₁.rest, ← List.drop_drop, hdrop]
    rfl
  -- the literal is closed after one byte, after an escape, or at once
  have hclose : ∀ (t : List Byte) (c₂ : Cursor), apostrophe :: t <+: src.drop n →
      c₂.At file start src (n + 1 + t.length) →
      (c₂.peekIs 0 (· == apostrophe) = true → IsCharLiteral (apostrophe :: (t ++ [apostrophe]))) →
      Found file start src c n (if c₂.peekIs 0 (· == apostrophe) then .emit .charLit c c₂.advance
        else c.error "unterminated character literal" c₂ "character literal starts here") := by
    intro t c₂ ht h₂ hlit
    split
    · next hp =>
      have hpre : apostrophe :: (t ++ [apostrophe]) <+: src.drop n := by
        obtain ⟨r, hr⟩ := ht
        have hget : src[n + 1 + t.length]? = r.head? := by
          rw [← List.head?_drop, Nat.add_assoc, ← List.drop_drop, ← hr, Nat.add_comm 1,
            ← List.length_cons, List.drop_left]
        rw [h₂.peekIs, Nat.add_zero, hget] at hp
        cases r with
        | nil => cases hp
        | cons a r =>
          obtain rfl : a = apostrophe := by simpa using hp
          exact ⟨r, by rw [← hr]; simp⟩
      have h₃ := h₂.advance (h₂.lt_of_peekIs hp)
      refine found_emit h hk rfl nofun (longest_char (hlit hp) hpre) ?_ rfl
      simpa [Nat.add_assoc, Nat.add_comm 1, Nat.add_left_comm] using h₃
    · exact .error _
  have hpeek : ∀ p : Byte → Bool, c.advance.peekIs 0 p = l.head?.any p := fun p => by
    rw [h₁.peekIs, Nat.add_zero, (getElem?_of_drop hdrop).2]
  have hopen : [apostrophe] <+: src.drop n := ⟨l, hdrop.symm⟩
  rw [Cursor.char]
  simp only [hpeek]
  cases l with
  | nil => exact hclose [] c.advance hopen h₁ fun _ => .inl rfl
  | cons a m =>
    have hopen' : [apostrophe, a] <+: src.drop n := ⟨m, hdrop.symm⟩
    by_cases ha : a = backslash
    · subst ha
      have hback : (backslash :: m).head?.any (· == backslash) = true := by simp
      rw [if_pos hback]
      cases m with
      | nil =>
        -- the escape is cut off by the end of the source
        have h₂ := h₁.advance (h₁.lt_of_rest hrest)
        have hnil : c.advance.advance.rest = [] := by
          rw [h₂.rest, ← List.drop_drop, ← h₁.rest, hrest]
          rfl
        have hstay : Cursor.advances 2 c.advance = c.advance.advance := by
          rw [Cursor.advances, Cursor.advances, Cursor.advances, Cursor.advance, hnil]
        rw [hstay, if_neg (by simp [Cursor.peekIs, Cursor.peek, hnil])]
        exact .error _
      | cons e m =>
        have hle : n + 1 + 2 ≤ src.length := by
          have := h₁.length_rest
          rw [hrest, List.length_cons, List.length_cons] at this
          omega
        exact hclose [backslash, e] _ ⟨m, hdrop.symm⟩ (h₁.advances hle) fun _ => .inr (.inr ⟨e, rfl⟩)
    · have hback : ¬ (a :: m).head?.any (· == backslash) = true := by simpa using ha
      rw [if_neg hback]
      by_cases hin : (a :: m).head?.any (fun b => b != apostrophe && !isNewline b) = true
      · rw [if_pos hin]
        have hin : a ≠ apostrophe ∧ isNewline a = false := by simpa using hin
        exact hclose [a] _ hopen' (h₁.advance (h₁.lt_of_rest hrest)) fun _ =>
          .inr (.inl ⟨a, rfl, hin.1, ha, hin.2⟩)
      · rw [if_neg hin]
        exact hclose [] c.advance hopen h₁ fun _ => .inl rfl

end Turns

/-! ## Numbers -/

section Numbers

theorem isNewline_of_isDigit_ (hb : isDigit_ b = true) : isNewline b = false := by
  by_contra hnl
  simp only [isNewline, Bool.not_eq_false, Bool.or_eq_true, beq_iff_eq] at hnl
  obtain rfl | rfl := hnl <;> revert hb <;> decide

theorem not_newline_marks : (∀ b, isExponent b = true → isNewline b = false) ∧
    (∀ b, isSign b = true → isNewline b = false) ∧ isNewline point = false := by
  refine ⟨fun b hb => ?_, fun b hb => ?_, by decide⟩
  · simp only [isExponent, Bool.or_eq_true, beq_iff_eq] at hb
    obtain rfl | rfl := hb <;> decide
  · simp only [isSign, Bool.or_eq_true, beq_iff_eq] at hb
    obtain rfl | rfl := hb <;> decide

/-- The fraction is read when a point and a digit follow. -/
theorem fraction_at (h : c.At file start src n) :
    (c.peekIs 0 (· == point) && c.peekIs 1 isDigit) = decide (fractionOf c.rest ≠ []) ∧
      (if c.peekIs 0 (· == point) && c.peekIs 1 isDigit then c.advance.skipWhile isDigit_
        else c).At file start src (n + (fractionOf c.rest).length) := by
  have hpeek : (c.peekIs 0 (· == point) && c.peekIs 1 isDigit) =
      decide (fractionOf c.rest ≠ []) := by
    cases hl : c.rest with
    | nil => simp [Cursor.peekIs, Cursor.peek, hl, fractionOf]
    | cons b l =>
      cases l with
      | nil => simp [Cursor.peekIs, Cursor.peek, hl, fractionOf]
      | cons a l =>
        by_cases hb : b = point <;> simp [Cursor.peekIs, Cursor.peek, hl, fractionOf, hb]
  refine ⟨hpeek, ?_⟩
  rw [hpeek]
  cases hl : c.rest with
  | nil => simpa [fractionOf] using h
  | cons b l =>
    rw [fractionOf]
    split
    · have h₁ := h.advance (h.lt_of_rest hl)
      have hdrop : src.drop (n + 1) = l := by
        rw [← List.drop_drop, ← h.rest, hl]
        rfl
      have h₂ := h₁.skipWhile (p := isDigit_)
      rw [hdrop] at h₂
      simpa [Nat.add_assoc, Nat.add_comm 1] using h₂
    · simpa using h

theorem sign_at (h : c.At file start src n) :
    (if c.peekIs 0 isSign then c.advance else c).At file start src (n + (signOf c.rest).length) := by
  cases hl : c.rest with
  | nil => simpa [Cursor.peekIs, Cursor.peek, hl, signOf] using h
  | cons b l =>
    by_cases hb : isSign b = true
    · simpa [Cursor.peekIs, Cursor.peek, hl, signOf, hb] using h.advance (h.lt_of_rest hl)
    · simpa [Cursor.peekIs, Cursor.peek, hl, signOf, hb] using h

theorem suffix_at (h : c.At file start src n) :
    c.peekIs 0 isFloatSuffix = decide (suffixOf c.rest ≠ []) ∧
      (if c.peekIs 0 isFloatSuffix then c.advance else c).At file start src
        (n + (suffixOf c.rest).length) := by
  cases hl : c.rest with
  | nil => simpa [Cursor.peekIs, Cursor.peek, hl, suffixOf] using h
  | cons b l =>
    by_cases hb : isFloatSuffix b = true
    · simpa [Cursor.peekIs, Cursor.peek, hl, suffixOf, hb] using h.advance (h.lt_of_rest hl)
    · simpa [Cursor.peekIs, Cursor.peek, hl, suffixOf, hb] using h

/-- An exponent is read, or its letter is given back. -/
theorem exponent_at (h₀ : c₀.At file start src n₀) (h : c.At file start src (n₀ + t.length))
    (ht : t <+: src.drop n₀) (hno : ∀ b ∈ t, isNewline b = false) :
    (c.exponent c₀).1 = c.peekIs 0 isExponent ∧
      (c.exponent c₀).2.At file start src (n₀ + t.length + (exponentOf c.rest).length) := by
  rw [Cursor.exponent]
  dsimp only
  cases hl : c.rest with
  | nil => simpa [Cursor.peekIs, Cursor.peek, hl, exponentOf] using h
  | cons b l =>
    by_cases hb : isExponent b = true
    · have h₁ := h.advance (h.lt_of_rest hl)
      have hrest : c.advance.rest = l := by
        rw [h₁.rest, ← List.drop_drop, ← h.rest, hl]
        rfl
      have h₂ := sign_at h₁
      rw [hrest] at h₂
      set c₂ := if c.advance.peekIs 0 isSign then c.advance.advance else c.advance
      have hrest₂ : c₂.rest = l.drop (signOf l).length := by
        rw [h₂.rest, ← List.drop_drop, ← h₁.rest, hrest]
      have hpeek : c.peekIs 0 isExponent = true := by simpa [Cursor.peekIs, Cursor.peek, hl] using hb
      have hdigit : c₂.peekIs 0 isDigit = (l.drop (signOf l).length).head?.any isDigit := by
        rw [Cursor.peekIs, Cursor.peek, hrest₂, ← List.head?_eq_getElem?]
      rw [if_pos hpeek, hdigit, exponentOf]
      split
      · next hd =>
        have h₃ := h₂.skipWhile (p := isDigit_)
        rw [← h₂.rest, hrest₂] at h₃
        rw [if_pos ⟨hb, hd⟩]
        exact ⟨hpeek.symm, by simpa [Nat.add_assoc, Nat.add_comm 1] using h₃⟩
      · next hd =>
        rw [if_neg fun hh => hd hh.2]
        refine ⟨hpeek.symm, h₂.file, h.le, by rw [← hl, h.rest]; rfl, ?_, ?_⟩
        · -- the letter and the sign are on the same line
          have hmark : b :: signOf l <+: src.drop (n₀ + t.length) := by
            rw [← h.rest, hl]
            exact List.cons_prefix_cons.mpr ⟨rfl, signOf_prefix⟩
          have hline := (same_line start hmark fun a ha => ?_).1
          · rw [List.length_cons, Nat.add_comm _ 1, ← Nat.add_assoc] at hline
            rw [List.length_nil, Nat.add_zero, ← hline]
            exact h₂.line
          · obtain rfl | ha := List.mem_cons.mp ha
            · exact not_newline_marks.1 _ hb
            · obtain hs | ⟨s, hs, hsign⟩ := signOf_cases l <;> rw [hs] at ha
              · cases ha
              · rw [List.mem_singleton.mp ha]
                exact not_newline_marks.2.1 s hsign
        · have hcol := (same_line start ht hno).2
          have hlen : c₀.rest.length - (b :: l).length = t.length := by
            rw [← hl, h₀.length_rest, h.length_rest]
            have := h.le
            omega
          rw [hlen, List.length_nil, Nat.add_zero, hcol, UInt32.ofNat_add, ← h₀.col]
    · have hpeek : c.peekIs 0 isExponent = false := by
        simpa [Cursor.peekIs, Cursor.peek, hl] using hb
      have hnone : exponentOf (b :: l) = [] := by rw [exponentOf, if_neg fun hh => hb hh.1]
      rw [hpeek, hnone, if_neg Bool.false_ne_true]
      exact ⟨rfl, h⟩

theorem exponentOf_ne_nil {m : List Byte} (hm : exponentOf m ≠ []) :
    m.head?.any isExponent = true := by
  cases m with
  | nil => exact absurd rfl hm
  | cons b m =>
    by_contra hb
    rw [exponentOf, if_neg fun hh => hb (by simpa using hh.1)] at hm
    exact hm rfl

theorem suffixOf_eq_nil {m : List Byte} (hm : m.head?.any isExponent = true) : suffixOf m = [] := by
  cases m with
  | nil => rfl
  | cons b m =>
    have hb : isExponent b = true := by simpa using hm
    rw [suffixOf, if_neg]
    intro hs
    rw [suffix_not_exponent hs] at hb
    cases hb

theorem isNewline_of_mem_digits {s : List Byte} (hs : IsDigits s) (hb : b ∈ s) :
    isNewline b = false :=
  isNewline_of_isDigit_ (hs.2 b hb)

/-- The kind that the three flags tell. -/
theorem kind_of_flags (hl : l.head?.any isDigit = true ∨ fractionOf l ≠ []) :
    (decide ((decimalOf l).fraction ≠ []) ||
      (l.drop ((decimalOf l).whole.length + (decimalOf l).fraction.length)).head?.any isExponent ||
      decide ((decimalOf l).suffix ≠ [])) = true ↔
    IsFloat (decimalOf l).text ∨
      (l.drop (decimalOf l).text.length).head?.any isExponent = true := by
  rw [isFloat_iff hl, Bool.or_eq_true, Bool.or_eq_true, decide_eq_true_iff, decide_eq_true_iff]
  constructor
  · rintro ((hf | hmark) | hs)
    · exact .inl (.inl hf)
    · by_cases he : (decimalOf l).exponent = []
      · right
        have hs : (decimalOf l).suffix = [] := by
          have : (decimalOf l).suffix = suffixOf (l.drop ((decimalOf l).whole.length +
              (decimalOf l).fraction.length + (decimalOf l).exponent.length)) := rfl
          rw [this, he, List.length_nil, Nat.add_zero, suffixOf_eq_nil hmark]
        rw [Decimal.text, he, hs, List.append_nil, List.append_nil, List.length_append]
        exact hmark
      · exact .inl (.inr (.inl he))
    · exact .inl (.inr (.inr hs))
  · rintro ((hf | he | hs) | hnext)
    · exact .inl (.inl hf)
    · exact .inl (.inr (exponentOf_ne_nil he))
    · exact .inr hs
    · by_cases hf : (decimalOf l).fraction = []
      · by_cases he : (decimalOf l).exponent = []
        · by_cases hs : (decimalOf l).suffix = []
          · rw [Decimal.text, hf, he, hs, List.append_nil, List.append_nil, List.append_nil] at hnext
            rw [hf, List.length_nil, Nat.add_zero]
            exact .inl (.inr hnext)
          · exact .inr hs
        · exact .inl (.inr (exponentOf_ne_nil he))
      · exact .inl (.inl hf)

/-- The byte behind a run does not continue it. -/
theorem not_of_run_end (ht : src.drop n = x ++ l) (hb : src[n + x.length + (l.takeWhile p).length]? = some b) :
    p b = false := by
  rw [← List.head?_drop, Nat.add_assoc, ← List.drop_drop, ht, ← List.drop_drop, List.drop_left] at hb
  have hsplit := List.takeWhile_append_dropWhile (p := p) (l := l)
  have hrest : l.drop (l.takeWhile p).length = l.dropWhile p := by
    conv_lhs =>
      rhs
      rw [← hsplit]
    exact List.drop_left
  rw [hrest] at hb
  have := List.head?_dropWhile_not p l
  rw [hb] at this
  simpa using this

theorem found_based (h : c.At file start src n) {a : Byte} (hb : c.rest = 0x30 :: a :: l)
    (ha : isBase a = true) (hk : classAt (src.drop n) = some .number) :
    Found file start src c n (.emit .intLit c ((Cursor.advances 2 c).skipWhile isXDigit_)) := by
  have hdrop : src.drop n = 0x30 :: a :: l := h.rest ▸ hb
  have hlong := longest_based (l := l) ha
  rw [← hdrop] at hlong
  have h₂ : (Cursor.advances 2 c).At file start src (n + 2) := h.advances <| by
    have := h.length_rest
    rw [hb, List.length_cons, List.length_cons] at this
    omega
  have hrest : src.drop (n + 2) = l := by
    rw [← List.drop_drop, hdrop]
    rfl
  have h₃ := h₂.skipWhile (p := isXDigit_)
  rw [hrest] at h₃
  refine found_emit h hk rfl nofun hlong (by simpa [Nat.add_assoc, Nat.add_comm 2] using h₃) ?_
  refine .inr ⟨rfl, ?_⟩
  rintro (⟨d, hd, htext, -⟩ | hnext)
  · rw [hd.not_isBase (b := a) (by rw [htext]; simp)] at ha
    cases ha
  · -- the letters of an exponent are digits of the base 16
    obtain ⟨e, he, hexp⟩ := (Option.any_eq_true ..).mp hnext
    have hno : isXDigit_ e = false := by
      refine not_of_run_end (x := [0x30, a]) (n := n) (l := l) hdrop ?_
      rw [← he]
      simp [Nat.add_assoc, Nat.add_comm 2]
    simp only [isExponent, Bool.or_eq_true, beq_iff_eq] at hexp
    obtain rfl | rfl := hexp <;> revert hno <;> decide

theorem found_number (h : c.At file start src n) (hb : c.rest = b :: l)
    (hnum : isDigit b = true ∨ b = point ∧ c.peekIs 1 isDigit = true)
    (hk : classAt (src.drop n) = some .number) : Found file start src c n c.number := by
  have hdrop : src.drop n = b :: l := h.rest ▸ hb
  rw [Cursor.number]
  split
  · next hbase =>
    rw [Bool.and_eq_true, h.peekIs, h.peekIs, Nat.add_zero, (getElem?_of_drop hdrop).1,
      (getElem?_of_drop hdrop).2] at hbase
    obtain rfl : b = 0x30 := by simpa using hbase.1
    cases l with
    | nil => simp at hbase
    | cons a l => exact found_based h hb (by simpa using hbase.2) hk
  · next hbase =>
    have hdec : (src.drop n).head?.any isDigit = true ∨ fractionOf (src.drop n) ≠ [] := by
      rw [hdrop]
      refine hnum.imp (fun hd => by simpa using hd) ?_
      rintro ⟨rfl, hd⟩
      rw [h.peekIs, (getElem?_of_drop hdrop).2] at hd
      rw [fractionOf, if_pos ⟨rfl, hd⟩]
      exact List.cons_ne_nil _ _
    have hlong := longest_decimal hdec fun a s hs => by
      by_contra ha
      rw [hdrop, List.cons.injEq] at hs
      obtain ⟨rfl, rfl⟩ := hs
      rw [h.peekIs, h.peekIs, Nat.add_zero, (getElem?_of_drop hdrop).1,
        (getElem?_of_drop hdrop).2] at hbase
      simp_all
    have hpre := hlong.isPrefix
    have hwf := decimalOf_wf hdec
    have hkind := kind_of_flags hdec
    have hdrops : ∀ i, (src.drop n).drop i = src.drop (n + i) := fun i => List.drop_drop ..
    set d := decimalOf (src.drop n) with hd
    have hfraction : d.fraction = fractionOf (src.drop (n + d.whole.length)) := by
      rw [← hdrops]
      rfl
    have hexponent : d.exponent =
        exponentOf (src.drop (n + (d.whole ++ d.fraction).length)) := by
      rw [← hdrops, List.length_append]
      rfl
    have hsuffix : d.suffix = suffixOf (src.drop (n + (d.whole ++ d.fraction).length +
        d.exponent.length)) := by
      rw [Nat.add_assoc, ← hdrops, List.length_append]
      rfl
    have h₁ : (c.skipWhile isDigit_).At file start src (n + d.whole.length) := h.skipWhile
    obtain ⟨hf, h₂⟩ := fraction_at h₁
    rw [h₁.rest, ← hfraction] at hf h₂
    rw [Nat.add_assoc, ← List.length_append] at h₂
    dsimp only
    set c₂ := if (c.skipWhile isDigit_).peekIs 0 (· == point) &&
      (c.skipWhile isDigit_).peekIs 1 isDigit then
        (c.skipWhile isDigit_).advance.skipWhile isDigit_ else c.skipWhile isDigit_
    have hno : ∀ e ∈ d.whole ++ d.fraction, isNewline e = false := by
      intro e he
      obtain he | he := List.mem_append.mp he
      · exact isNewline_of_isDigit_ (hwf.digits_whole e he)
      · obtain hnil | ⟨s, hs, hdigits⟩ := hwf.fraction
        · rw [hnil] at he
          cases he
        · rw [hs] at he
          obtain rfl | he := List.mem_cons.mp he
          · exact not_newline_marks.2.2
          · exact isNewline_of_mem_digits hdigits he
    have hpre₂ : d.whole ++ d.fraction <+: src.drop n := by
      refine .trans ⟨d.exponent ++ d.suffix, ?_⟩ hpre
      rw [Decimal.text, List.append_assoc]
    obtain ⟨he, h₃⟩ := exponent_at h h₂ hpre₂ hno
    rw [h₂.rest, ← hexponent] at h₃
    set c₃ := (c₂.exponent c).2
    obtain ⟨hs, h₄⟩ := suffix_at h₃
    rw [h₃.rest, ← hsuffix] at hs h₄
    refine found_emit h hk rfl (by decide) hlong ?_ ?_
    · simpa only [Decimal.text, List.length_append, Nat.add_assoc] using h₄
    · have hhead : ∀ i, ((src.drop n).drop i).head? = src[n + i]? := fun i => by
        rw [hdrops, List.head?_drop]
      rw [hhead, hhead, ← List.length_append, ← hf] at hkind
      rw [h₂.peekIs, Nat.add_zero] at he
      rw [← he, ← hs] at hkind
      change _ ∨ _
      rw [← hkind]
      split
      · next hany => exact .inl ⟨rfl, hany⟩
      · next hany => exact .inr ⟨rfl, hany⟩

/-- A turn finds the piece at its place. -/
theorem scan_found (h : c.At file start src n) (hb : c.rest = b :: l) (hblank : isBlank b = false) :
    Found file start src c n c.scan := by
  have hdrop : src.drop n = b :: l := h.rest ▸ hb
  have hpeek : ∀ p, c.peekIs 1 p = l.head?.any p := fun p => by
    rw [h.peekIs, (getElem?_of_drop hdrop).2]
  have hnext : ∀ a, c.peekIs 1 (· == a) = true ↔ l.head? = some a := fun a => by
    rw [hpeek]
    cases l <;> simp
  rw [Cursor.scan, hb]
  dsimp only
  have hclass := congrArg classAt hdrop
  rw [classAt, if_neg (by simp [hblank])] at hclass
  by_cases hnl : isNewline b = true
  · rw [if_pos hnl] at hclass ⊢
    exact found_newline h hb hclass hnl
  rw [if_neg hnl] at hclass ⊢
  by_cases hline : b = slash ∧ c.peekIs 1 (· == slash) = true
  · rw [if_pos hline]
    rw [if_pos ⟨hline.1, .inl ((hnext _).mp hline.2)⟩] at hclass
    exact found_lineComment h hb hclass hline.1 hline.2
  rw [if_neg hline]
  by_cases hblock : b = slash ∧ c.peekIs 1 (· == star) = true
  · rw [if_pos hblock]
    rw [if_pos ⟨hblock.1, .inr ((hnext _).mp hblock.2)⟩] at hclass
    exact found_blockComment h hb hclass hblock.1 hblock.2
  rw [if_neg hblock]
  rw [if_neg fun hs => hs.2.elim (fun ha => hline ⟨hs.1, (hnext _).mpr ha⟩)
    fun ha => hblock ⟨hs.1, (hnext _).mpr ha⟩] at hclass
  by_cases hid : isIdStart b = true
  · rw [if_pos hid] at hclass ⊢
    exact found_word h hb hclass hid
  rw [if_neg hid] at hclass ⊢
  rw [hpeek]
  by_cases hnum : isDigit b = true ∨ b = point ∧ l.head?.any isDigit = true
  · rw [if_pos hnum] at hclass ⊢
    exact found_number h hb (by rwa [hpeek]) hclass
  rw [if_neg hnum] at hclass ⊢
  by_cases hq : b = quote
  · rw [if_pos hq] at hclass ⊢
    exact found_string h hb hclass hq
  rw [if_neg hq] at hclass ⊢
  by_cases ha : b = apostrophe
  · rw [if_pos ha] at hclass ⊢
    exact found_char h hb hclass ha
  rw [if_neg ha] at hclass ⊢
  exact found_operator h hb hclass

end Numbers

end Loxis.Lexing
