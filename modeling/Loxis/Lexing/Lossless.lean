import Loxis.Lexing.Steps

/-! # Lossless tokens

A source has one reading at most. The loop follows it, and the tokens are those of the reading
when all of its pieces are fine.
-/

namespace Loxis.Lexing

open Frontend

variable {file : String} {start : ℕ × ℕ} {src : List Byte} {c : Cursor} {n f g : ℕ}
  {l t u : List Byte} {k : Class} {ps qs : List Piece} {toks : List Token}

/-! ## Readings -/

theorem Longest.unique (h : Longest k l t) (h' : Longest k l u) : t = u := by
  have hle := h.longest u h'.allowed h'.isPrefix
  exact (List.prefix_of_prefix_length_le h.isPrefix h'.isPrefix
    (h'.longest t h.allowed h.isPrefix)).eq_of_length_le hle

theorem Decimal.Wf.ne_nil {d : Decimal} (h : d.Wf) : d.text ≠ [] := by
  intro hnil
  simp only [Decimal.text, List.append_eq_nil_iff] at hnil
  obtain hw | ⟨-, hf⟩ := h.whole
  · rw [hnil.1] at hw
    exact absurd hw.1 (by decide)
  · exact hf hnil.2.1

theorem Class.Allows.ne_nil (h : k.Allows t) : t ≠ [] := by
  rintro rfl
  cases k with
  | blank => exact h.1 rfl
  | comment => obtain ⟨s, hs, -⟩ | ⟨s, hs, -⟩ := h <;> cases hs
  | newline => obtain hs | hs | hs := h <;> cases hs
  | word => exact absurd h.1 (by decide)
  | number =>
    obtain ⟨b, s, hs, -⟩ | ⟨d, hd, hs⟩ := h
    · cases hs
    · exact hd.ne_nil hs
  | string =>
    obtain ⟨body, hs, -⟩ := h
    cases hs
  | char => obtain hs | ⟨b, hs, -⟩ | ⟨b, hs⟩ := h <;> cases hs
  | operator =>
    obtain ⟨kind, o, -, s, -, hs, -⟩ := h
    simp [ascii] at hs

theorem Longest.length_pos (h : Longest k l t) : 0 < t.length :=
  List.length_pos_iff.mpr h.allowed.ne_nil

theorem Longest.le_length (h : Longest k (src.drop n) t) : n + t.length ≤ src.length := by
  have := h.isPrefix.length_le
  have := h.length_pos
  rw [List.length_drop] at *
  omega

theorem Reading.unique (h : Reading src n ps) (h' : Reading src n qs) : ps = qs := by
  induction h generalizing qs with
  | done =>
    cases h' with
    | done => rfl
    | piece hk => simp [classAt] at hk
  | @piece n k t ps hk hl hr ih =>
    cases h' with
    | done => simp [classAt] at hk
    | @piece _ k' t' qs hk' hl' hr' =>
      obtain rfl : k = k' := Option.some.inj (hk.symm.trans hk')
      obtain rfl := hl.unique hl'
      rw [ih hr']

/-- The pieces are the rest of the source. -/
theorem Reading.flatMap_text (h : Reading src n ps) : ps.flatMap Piece.text = src.drop n := by
  induction h with
  | done => simp
  | @piece n k t ps hk hl hr ih =>
    obtain ⟨r, hr⟩ := hl.isPrefix
    rw [List.flatMap_cons, ih, ← List.drop_drop, ← hr, List.drop_left]

/-! ## Blanks -/

/-- What is skipped is fine, and has no token. -/
theorem fine_skipped {p : Piece} (hs : p.cls.skipped = true) : Fine start src p where
  fits hn := Bool.noConfusion (hs.symm.trans hn)
  exponent hnum := by
    rw [hnum] at hs
    cases hs

theorem tokensOf_skipped {p : Piece} (hs : p.cls.skipped = true) :
    TokensOf file start src (p :: ps) toks ↔ TokensOf file start src ps toks := by
  rw [TokensOf, if_pos hs]

/-- The tokens from a place on are exact when the rest of the source is clear. -/
def ExactFrom (file : String) (start : ℕ × ℕ) (src : List Byte) (n : ℕ) (toks : List Token) :
    Prop :=
  ∃ ps, Reading src n ps ∧ (TokensOf file start src ps toks ↔
    (∀ p ∈ ps, Fine start src p) ∧ FitsAt start src src.length)

theorem ExactFrom.skip (hk : classAt (src.drop n) = some k) (hs : k.skipped = true)
    (hl : Longest k (src.drop n) t) (h : ExactFrom file start src (n + t.length) toks) :
    ExactFrom file start src n toks := by
  obtain ⟨ps, hread, hiff⟩ := h
  refine ⟨_, .piece hk hl hread, ?_⟩
  rw [tokensOf_skipped hs, hiff, List.forall_mem_cons]
  exact and_congr_left fun _ => (and_iff_right (fine_skipped hs)).symm

theorem ExactFrom.blanks
    (h : ExactFrom file start src (n + ((src.drop n).takeWhile isBlank).length) toks) :
    ExactFrom file start src n toks := by
  cases hl : src.drop n with
  | nil => simpa [hl] using h
  | cons b l =>
    by_cases hb : isBlank b = true
    · refine h.skip (k := .blank) ?_ rfl ?_
      · rw [hl, classAt, if_pos hb]
      · rw [hl]
        exact longest_blank hb
    · simpa [hl, hb] using h

/-! ## Tokens -/

/-- The token of a turn is that of its piece exactly when the piece is fine. -/
theorem denotes_iff {tok : Token} (h : c.At file start src n) (hs : k.skipped = false)
    (hloc : tok.loc = c.loc) (hlex : tok.lex = if k = .newline then [lf] else t)
    (hkind : KindOf src n k t tok.kind) :
    Denotes file start src ⟨n, k, t⟩ tok ↔ Fine start src ⟨n, k, t⟩ := by
  have hnum : k = .number → (tok.kind = .floatLit ∧ IsFloat t ∨ tok.kind = .intLit ∧ ¬ IsFloat t ↔
      IsFloat t ∨ src[n + t.length]?.any isExponent = false) := by
    rintro rfl
    obtain ⟨hk, hor⟩ | ⟨hk, hno⟩ := hkind
    · by_cases hf : IsFloat t
      · simp [hk, hf]
      · simp [hk, hf, hor.resolve_left hf]
    · rw [not_or, Bool.not_eq_true] at hno
      simp [hk, hno]
  constructor
  · rintro ⟨hat, -, hkind'⟩
    refine ⟨fun _ => h.isAt_iff.mp (hloc ▸ hat), fun hk => ?_⟩
    obtain rfl : k = .number := hk
    exact (hnum rfl).mp hkind'
  · rintro ⟨hfits, hexp⟩
    refine ⟨hloc ▸ h.isAt_iff.mpr (hfits hs), hlex, ?_⟩
    cases k with
    | number => exact (hnum rfl).mpr (hexp rfl)
    | _ => exact hkind

theorem ExactFrom.token {tok : Token} (h : c.At file start src n)
    (hk : classAt (src.drop n) = some k) (hs : k.skipped = false) (hl : Longest k (src.drop n) t)
    (hloc : tok.loc = c.loc) (hlex : tok.lex = if k = .newline then [lf] else t)
    (hkind : KindOf src n k t tok.kind) (h' : ExactFrom file start src (n + t.length) toks) :
    ExactFrom file start src n (tok :: toks) := by
  obtain ⟨ps, hread, hiff⟩ := h'
  refine ⟨_, .piece hk hl hread, ?_⟩
  have htokens : TokensOf file start src (⟨n, k, t⟩ :: ps) (tok :: toks) ↔
      Denotes file start src ⟨n, k, t⟩ tok ∧ TokensOf file start src ps toks := by
    rw [TokensOf, if_neg (by simp [hs])]
    constructor
    · rintro ⟨_, _, heq, hd, ht⟩
      obtain ⟨rfl, rfl⟩ := List.cons.inj heq
      exact ⟨hd, ht⟩
    · rintro ⟨hd, ht⟩
      exact ⟨tok, toks, rfl, hd, ht⟩
  rw [htokens, denotes_iff h hs hloc hlex hkind, hiff, List.forall_mem_cons, and_assoc]

theorem exactFrom_end (h : c.At file start src n) (hc : c.rest = []) :
    ExactFrom file start src n [⟨.eof, [], c.loc⟩] := by
  have hn : n = src.length := by
    have := h.length_rest
    have := h.le
    rw [hc, List.length_nil] at *
    omega
  subst hn
  refine ⟨[], .done, ?_⟩
  have htokens : TokensOf file start src [] [⟨.eof, [], c.loc⟩] ↔
      IsAt file start src c.loc src.length := by
    constructor
    · rintro ⟨e, he, -, -, hat⟩
      obtain ⟨rfl, -⟩ := List.cons.inj he
      exact hat
    · exact fun hat => ⟨_, rfl, rfl, rfl, hat⟩
  rw [htokens, h.isAt_iff]
  simp

/-! ## The loop -/

/-- The blanks before a turn are passed over. -/
theorem skip_blanks (h : c.At file start src n) {b : Byte}
    (hb : (c.skipWhile isBlank).rest = b :: l) : isBlank b = false := by
  have h' := h.skipWhile (p := isBlank)
  have hget := (getElem?_of_drop (h'.rest ▸ hb)).1
  exact not_of_run_end (x := []) (n := n) rfl (by simpa using hget)

/-- The tokens of an accepted source are exact when the source is clear. -/
theorem tokens_exact (h : c.At file start src n) (htoks : c.tokens f = .ok toks) :
    ExactFrom file start src n toks := by
  induction f generalizing c n toks with
  | zero => cases htoks
  | succ f ih =>
    have h' := h.skipWhile (p := isBlank)
    refine .blanks ?_
    rw [Cursor.tokens] at htoks
    split at htoks
    · next hnil =>
      cases htoks
      exact exactFrom_end h' hnil
    · next hne =>
      obtain ⟨b, l, hb⟩ := List.exists_cons_of_ne_nil hne
      have hfound := scan_found h' hb (skip_blanks h hb)
      revert htoks
      generalize (c.skipWhile isBlank).scan = scanned at hfound
      cases hfound with
      | error d => exact nofun
      | skip hk hl hat => exact fun htoks => (ih hat htoks).skip hk rfl hl
      | @token k t tok c' hk hs hl hat hloc hlex hkind =>
        dsimp only
        cases hrest : c'.tokens f with
        | error d => exact nofun
        | ok rest =>
          rintro ⟨⟩
          exact .token h' hk hs hl hloc hlex hkind (ih hat hrest)

/-- Each turn moves on, so a bound above the length of the rest is as good as another. -/
theorem tokens_bound (h : c.At file start src n) (hf : c.rest.length < f) (hg : c.rest.length < g) :
    c.tokens f = c.tokens g := by
  induction f generalizing c n g with
  | zero => cases hf
  | succ f ih =>
    obtain ⟨g, rfl⟩ := Nat.exists_eq_add_one_of_ne_zero (Nat.ne_zero_of_lt hg)
    have h' := h.skipWhile (p := isBlank)
    rw [Cursor.tokens, Cursor.tokens]
    split
    · rfl
    · next hne =>
      obtain ⟨b, l, hb⟩ := List.exists_cons_of_ne_nil hne
      have hfound := scan_found h' hb (skip_blanks h hb)
      have hlen := h.length_rest
      have hlen' := h'.length_rest
      -- the rest is shorter behind a piece
      have hshort : ∀ {k : Class} {t : List Byte} {c' : Cursor},
          Longest k (src.drop (n + ((src.drop n).takeWhile isBlank).length)) t →
          c'.At file start src (n + ((src.drop n).takeWhile isBlank).length + t.length) →
          c'.rest.length < c.rest.length := by
        intro k t c' hl hat
        have := hl.length_pos
        have := hat.length_rest
        have := hat.le
        omega
      generalize (c.skipWhile isBlank).scan = scanned at hfound
      cases hfound with
      | error d => rfl
      | skip hk hl hat =>
        have := hshort hl hat
        exact ih hat (by omega) (by omega)
      | token hk hs hl hat =>
        have := hshort hl hat
        dsimp only
        rw [ih (g := g) hat (by omega) (by omega)]

/-! ## The whole source -/

/-- Where the count of lines and columns starts. -/
def startOf (start : UInt32 × UInt32) : ℕ × ℕ :=
  if start.1 ≠ 0 then (start.1.toNat, start.2.toNat) else (1, 1)

theorem startOf_fst (start : UInt32 × UInt32) :
    UInt32.ofNat (startOf start).1 = if start.1 ≠ 0 then start.1 else 1 := by
  rw [startOf]
  split
  · exact UInt32.ofNat_toNat
  · rfl

theorem startOf_snd (start : UInt32 × UInt32) :
    UInt32.ofNat (startOf start).2 = if start.1 ≠ 0 then start.2 else 1 := by
  rw [startOf]
  split
  · exact UInt32.ofNat_toNat
  · rfl

theorem markOf_prefix (src : List Byte) : markOf src <+: src := by
  rw [markOf]
  split
  · assumption
  · exact List.nil_prefix

/-- The loop starts behind the byte order mark. -/
theorem tokenize_at (file : String) (start : UInt32 × UInt32) (src : List Byte) :
    ∃ c : Cursor, c.At file (startOf start) src (markOf src).length ∧
      tokenize file start src = c.tokens (src.length + 1) := by
  have h : Cursor.At file (startOf start) src ⟨file, src, if start.1 ≠ 0 then start.1 else 1,
      if start.1 ≠ 0 then start.2 else 1⟩ 0 :=
    ⟨rfl, Nat.zero_le _, rfl, (startOf_fst start).symm, (startOf_snd start).symm⟩
  refine ⟨_, ?_, rfl⟩
  rw [markOf]
  split
  · next hbom =>
    have hat := h.move hbom
    rwa [Nat.zero_add] at hat
  · exact h

/-- A longer bound on the turns changes nothing. -/
theorem tokenize_bound (file : String) (start : UInt32 × UInt32) (src : List Byte) :
    ∃ c : Cursor, c.At file (startOf start) src (markOf src).length ∧
      ∀ f, src.length < f → tokenize file start src = c.tokens f := by
  obtain ⟨c, h, heq⟩ := tokenize_at file start src
  refine ⟨c, h, fun f hf => ?_⟩
  have := h.length_rest
  rw [heq]
  exact tokens_bound h (by omega) (by omega)

theorem tokenize_exact {start : UInt32 × UInt32} (h : tokenize file start src = .ok toks) :
    ExactFrom file (startOf start) src (markOf src).length toks := by
  obtain ⟨c, hat, heq⟩ := tokenize_at file start src
  exact tokens_exact hat (heq ▸ h)

/-- The pieces behind the mark are the source. -/
theorem Reading.source (h : Reading src (markOf src).length ps) :
    src = markOf src ++ ps.flatMap Piece.text := by
  rw [h.flatMap_text]
  exact (List.prefix_iff_eq_append.mp ( markOf_prefix src)).symm

/-- An accepted source is the concatenation of its pieces, and the tokens are exactly those of the
longest pieces, with their lines and columns, when the source is clear. -/
theorem exact_iff_clear {start : UInt32 × UInt32} (h : tokenize file start src = .ok toks) :
    Exact file (startOf start) src toks ↔ Clear (startOf start) src := by
  obtain ⟨ps, hread, hiff⟩ := tokenize_exact h
  constructor
  · rintro ⟨qs, -, hread', htoks⟩
    obtain rfl := hread.unique hread'
    exact ⟨ps, hread, hiff.mp htoks⟩
  · rintro ⟨qs, hread', hfine⟩
    obtain rfl := hread.unique hread'
    exact ⟨ps, hread.source, hread, hiff.mpr hfine⟩

theorem exact_one : Exact "a.lx" (startOf (0, 0)) (ascii "1") [⟨.intLit, ascii "1", "a.lx", 1, 1⟩,
      ⟨.eof, [], "a.lx", 1, 2⟩] ↔ Clear (startOf (0, 0)) (ascii "1") :=
  exact_iff_clear (by decide)

/-- A number before the letter of an exponent without digits is no float, but has the token of one. -/
theorem not_exact_false_exponent : ¬ ∀ (file : String) (start : UInt32 × UInt32) (src : List Byte)
    (toks : List Token), tokenize file start src = .ok toks →
      Exact file (startOf start) src toks := by
  intro hall
  obtain ⟨ps, -, hread, htoks⟩ := hall "a.lx" (0, 0) (ascii "1e")
    [⟨.floatLit, ascii "1", "a.lx", 1, 1⟩, ⟨.ident, ascii "e", "a.lx", 1, 2⟩,
      ⟨.eof, [], "a.lx", 1, 3⟩] (by decide +kernel)
  have hdec : (ascii "1e").head?.any isDigit = true ∨ fractionOf (ascii "1e") ≠ [] := by
    decide +kernel
  have hlong : Longest .number ((ascii "1e").drop 0) (decimalOf (ascii "1e")).text :=
    longest_decimal hdec fun b s hs => by cases hs
  have hfloat : ¬ IsFloat (decimalOf (ascii "1e")).text := by
    rw [isFloat_iff hdec]
    decide +kernel
  change Reading (ascii "1e") 0 ps at hread
  cases hread with
  | @piece _ k t ps hk hl _ =>
    obtain rfl : k = .number := Option.some.inj (hk.symm.trans (by decide +kernel))
    obtain rfl := hlong.unique hl
    obtain ⟨_, _, heq, hden, -⟩ := htoks
    obtain ⟨rfl, -⟩ := List.cons.inj heq
    obtain ⟨-, hf⟩ | ⟨hint, -⟩ := hden.kind
    · exact hfloat hf
    · cases hint

end Loxis.Lexing
