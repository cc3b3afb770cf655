import Loxis.Stdlib.JsonScan

/-! # The strings of the JSON parser

A code point is encoded only when it is a scalar, so the encoder raises nothing.
-/

namespace Loxis.Stdlib.JsonParser

open Json
open Loxis.Utf8 (encode IsScalar)

variable {source s t t' out : Str} {p : JsonParser} {n m k turns : ℕ}

/-! ## Hexadecimal digits -/

theorem hexDigit_of_jsonHex (h : 0 ≤ jsonHex n) :
    ∃ d < 16, jsonHex n = (d : ℕ) ∧ hexDigit (.ofNat n) = some d := by
  refine ⟨(jsonHex n).toNat, ?_⟩
  unfold jsonHex at h ⊢
  have hn : n < 256 := by split_ifs at h <;> omega
  rw [hexDigit, Utf8.toNat_ofNat hn]
  split_ifs at h ⊢ <;> (try omega) <;> exact ⟨by omega, by omega, by congr; omega⟩

theorem jsonHex_of_hexDigit {b : UInt8} {d : ℕ} (h : hexDigit b = some d) :
    jsonHex b.toNat = d := by
  unfold hexDigit at h
  unfold jsonHex
  split_ifs at h ⊢ <;> cases h <;> omega

theorem hexDigit_lt {b : UInt8} {d : ℕ} (h : hexDigit b = some d) : d < 16 := by
  unfold hexDigit at h
  split_ifs at h <;> cases h <;> omega

theorem hex_lt (h : Hex k n t m t') : m < (n + 1) * 16 ^ k := by
  induction h with
  | nil n t => omega
  | cons hdigit _ ih =>
    have := hexDigit_lt hdigit
    refine ih.trans_le ?_
    rw [Nat.pow_succ', ← Nat.mul_assoc]
    exact Nat.mul_le_mul_right _ (by omega)

theorem hexLoop_parses : Parses source (hexLoop source k n)
    (fun t v t' => ∃ m : ℕ, v = m ∧ Hex k n t m t') p := by
  induction k generalizing n p with
  | zero => exact Parses.pure fun t => ⟨n, rfl, .nil n t⟩
  | succ k ih =>
    refine Ends.bind (.of_eq rfl ?_)
    dsimp only
    split
    · exact Parses.fail
    · next hneg =>
      rcases peek_cases source p.position with hc | ⟨c, -, hc⟩
      · rw [hc] at hneg
        exact absurd (by decide) hneg
      · rw [hc] at hneg ⊢
        obtain ⟨d, -, hd, hdigit⟩ := hexDigit_of_jsonHex (not_lt.mp hneg)
        rw [hd, show (n : ℤ) * 16 + d = (n * 16 + d : ℕ) by push_cast; rfl]
        refine Parses.next hc (ih.mono (fun _ _ h => h.mono ?_) fun _ _ hE => hE)
        rintro t t' ⟨m, rfl, hm⟩
        exact ⟨m, rfl, .cons hdigit hm⟩

/-- The number is in range, also after an error. -/
theorem hexLoop_lt : Ends (hexLoop source k n) p
    (fun v _ => ∃ m : ℕ, v = m ∧ m < (n + 1) * 16 ^ k) fun _ _ => False := by
  induction k generalizing n p with
  | zero => exact .pure ⟨n, rfl, by omega⟩
  | succ k ih =>
    refine Ends.bind (.of_eq rfl ?_)
    dsimp only
    split
    · refine .seq (fail_ends _) (fun _ _ _ => .pure ⟨0, rfl, ?_⟩) fun _ _ hE => hE
      exact Nat.mul_pos n.succ_pos (Nat.pow_pos (by decide))
    · next hneg =>
      rcases peek_cases source p.position with hc | ⟨c, -, hc⟩
      · rw [hc] at hneg
        exact absurd (by decide) hneg
      · rw [hc] at hneg ⊢
        obtain ⟨d, hlt, hd, -⟩ := hexDigit_of_jsonHex (not_lt.mp hneg)
        rw [hd, show (n : ℤ) * 16 + d = (n * 16 + d : ℕ) by push_cast; rfl]
        refine Ends.bind (.of_eq rfl (ih.mono ?_ fun _ _ hE => hE))
        rintro v p' ⟨m, rfl, hm⟩
        refine ⟨m, rfl, hm.trans_le ?_⟩
        rw [Nat.pow_succ', ← Nat.mul_assoc]
        exact Nat.mul_le_mul_right _ (by omega)

theorem hex4_parses :
    Parses source (hex4 source) (fun t v t' => ∃ m : ℕ, v = m ∧ Hex 4 0 t m t') p :=
  hexLoop_parses

theorem hex4_lt : Ends (hex4 source) p (fun v _ => ∃ m : ℕ, v = m ∧ m < 65536)
    fun _ _ => False := hexLoop_lt

/-! ## What is read is a string -/

theorem failed_eq (h : p.failure = "") : failed p = .ok false p := by
  rw [failed, decide_eq_false (not_not.mpr h)]

theorem codeText_parses {code : ℤ} (hcode : code = n) (h : IsScalar n) :
    Parses source (codeText code) (fun t s t' => s = encode n ∧ t = t') p := by
  refine Ends.bind (.of_eq rfl ?_)
  split
  · next hf => exact Ends.pure (.of_failed (.refl p) (of_decide_eq_true hf))
  · rw [hcode, encodeCodePoint_of_isScalar h]
    exact Parses.pure fun t => ⟨rfl, rfl⟩

theorem pairCode_eq {high low : ℕ} (hh : IsHigh high) (hl : IsLow low) :
    65536 + ((high : ℤ) - 55296) * 1024 + low - 56320 = pairCode high low := by
  unfold IsHigh at hh
  unfold IsLow at hl
  unfold pairCode
  omega

theorem isScalar_pairCode {high low : ℕ} (hh : IsHigh high) (hl : IsLow low) :
    IsScalar (pairCode high low) := by
  unfold IsHigh at hh
  unfold IsLow at hl
  unfold IsScalar pairCode
  omega

theorem lowSurrogate_parses {high : ℕ} (h : IsHigh high) :
    Parses source (lowSurrogate source high) (fun t r t' => ∃ low a, t = 92 :: 117 :: a ∧
      Hex 4 0 a low t' ∧ IsLow low ∧
        r = some (encode (pairCode high low))) p := by
  refine Ends.bind (.of_eq rfl (Ends.bind (.of_eq rfl ?_)))
  split
  · exact Parses.fail
  · next hseen =>
    obtain ⟨h92, h117⟩ := not_or.mp hseen
    refine Parses.forward (s := [92, 117]) rfl (fun t ht => ?_) ?_
    · obtain ⟨r, rfl⟩ := ht.exists_cons (n := 92) (not_not.mp h92)
      obtain ⟨r', rfl⟩ := ht.next.exists_cons (n := 117) (not_not.mp h117)
      exact ⟨r', rfl⟩
    refine Parses.bind_of hex4_parses hex4_lt fun v p' hv _ => ?_
    refine Parses.ite (fun _ => Parses.fail) fun hlow => ?_
    obtain ⟨low, rfl, -⟩ := hv
    have hIsLow : IsLow low := by unfold IsLow; omega
    refine Parses.bind (codeText_parses (pairCode_eq h hIsLow) (isScalar_pairCode h hIsLow))
      fun s p₂ _ => Parses.pure ?_
    rintro _ t ⟨hs, rfl⟩ a ⟨m, hm, hhex⟩
    rw [← Int.ofNat_inj.mp hm] at hhex
    exact ⟨low, a, rfl, hhex, hIsLow, congrArg some hs⟩

theorem unicodeEscape_parses : Parses source (unicodeEscape source)
    (fun t r t' => ∃ s, r = some s ∧ Escape (117 :: t) s t') p := by
  refine Parses.bind_of hex4_parses hex4_lt fun v p' hv _ => ?_
  obtain ⟨code, rfl, hlt⟩ := hv
  split
  · next hhigh =>
    have hIsHigh : IsHigh code := by unfold IsHigh; omega
    refine (lowSurrogate_parses hIsHigh).mono (fun _ _ h => h.mono ?_) fun _ _ hE => hE
    rintro _ t' ⟨low, a, rfl, hlow, hIsLow, rfl⟩ t ⟨m, hm, hhex⟩
    rw [← Int.ofNat_inj.mp hm] at hhex
    exact ⟨_, rfl, .pair hhex hIsHigh hlow hIsLow⟩
  · next hhigh =>
    split
    · exact Parses.fail
    · next hlow =>
      have hNotHigh : ¬ IsHigh code := by unfold IsHigh; omega
      have hNotLow : ¬ IsLow code := by unfold IsLow; omega
      refine Parses.bind (codeText_parses rfl (by unfold IsScalar; omega)) fun s p₂ _ =>
        Parses.pure ?_
      rintro _ t ⟨rfl, rfl⟩ a ⟨m, hm, hhex⟩
      rw [← Int.ofNat_inj.mp hm] at hhex
      exact ⟨_, rfl, .scalar hhex hNotHigh hNotLow⟩

theorem escape_parses :
    Parses source (escape source) (fun t r t' => ∃ s, r = some s ∧ Escape t s t') p := by
  refine Ends.bind (.of_eq rfl ?_)
  rcases peek_cases source p.position with hc | ⟨e, he, hc⟩
  · rw [hc]
    exact Parses.advance_fail
  rw [hc]
  refine Parses.next hc ?_
  have hchar : ∀ b : UInt8, (.ofNat e, b) ∈ escapes →
      Parses source (pure (some [b])) (fun t r t' => ∃ s, r = some s ∧ Escape (.ofNat e :: t) s t')
        (p.forward 1) :=
    fun b hmem => Parses.pure fun t => ⟨_, rfl, .char hmem⟩
  unfold escapeOf
  split
  · next h =>
    rw [chr_natCast he]
    refine hchar _ ?_
    rcases h with h | h | h <;> rw [Int.ofNat_inj.mp h] <;> decide
  split
  · next h => exact hchar 8 (by rw [Int.ofNat_inj.mp h]; decide)
  split
  · next h => exact hchar 12 (by rw [Int.ofNat_inj.mp h]; decide)
  split
  · next h => exact hchar 10 (by rw [Int.ofNat_inj.mp h]; decide)
  split
  · next h => exact hchar 13 (by rw [Int.ofNat_inj.mp h]; decide)
  split
  · next h => exact hchar 9 (by rw [Int.ofNat_inj.mp h]; decide)
  split
  · next h =>
    rw [Int.ofNat_inj.mp h]
    exact unicodeEscape_parses
  · exact Parses.fail

theorem stringLoop_parses (h : source.length - p.position < turns) :
    Parses source (stringLoop source turns out) (fun t r t' => ∃ s, r = out ++ s ∧ Chars t s t')
      p := by
  induction turns generalizing p out with
  | zero => omega
  | succ turns ih =>
    refine Ends.bind (.of_eq rfl (Ends.bind (.of_eq rfl ?_)))
    split
    · exact Parses.fail
    next hcond =>
    have hlt : p.position < source.length := not_not.mp (not_or.mp hcond).1
    have hturns : source.length - (p.forward 1).position < turns := by
      show source.length - (p.position + 1) < turns
      omega
    refine Ends.bind (.of_eq rfl ?_)
    rcases peek_cases source p.position with hc | ⟨c, hc256, hc⟩
    · rw [strchar_natCast, List.getElem?_eq_getElem hlt, code] at hc
      omega
    rw [hc]
    refine Parses.next hc ?_
    split
    · next h34 =>
      rw [Int.ofNat_inj.mp h34]
      exact Parses.pure fun t => ⟨[], (List.append_nil out).symm, .quote t⟩
    split
    · exact Parses.fail
    split
    · next h34 h32 h92 =>
      rw [chr_natCast hc256]
      refine (ih hturns).mono (fun _ _ h => h.mono ?_) fun _ _ hE => hE
      rintro t t' ⟨s, rfl, hs⟩
      have hb : (UInt8.ofNat c).toNat = c := Utf8.toNat_ofNat hc256
      refine ⟨.ofNat c :: s, by rw [List.append_assoc, List.singleton_append], .plain ?_ ?_ ?_ hs⟩
      · omega
      · exact fun heq => h34 (by rw [← hb, heq]; rfl)
      · exact fun heq => h92 (by rw [← hb, heq]; rfl)
    · next h92 =>
      rw [Int.ofNat_inj.mp (not_not.mp h92)]
      refine Parses.bind escape_parses fun r p' hkept => ?_
      cases r with
      | none =>
        refine Parses.pure fun t m hm => ?_
        obtain ⟨s, ⟨⟩, -⟩ := hm
      | some text =>
        have hp' : source.length - p'.position < turns := by
          have := hkept.position
          omega
        refine (ih hp').mono (fun _ _ h => h.mono ?_) fun _ _ hE => hE
        rintro m t' ⟨s, rfl, hs⟩ t ⟨text', ⟨⟩, hescape⟩
        exact ⟨text ++ s, List.append_assoc .., .escape hescape hs⟩

theorem stringValue_parses :
    Parses source (stringValue source) (fun t s t' => Quoted t s t') p := by
  refine Ends.bind (.of_eq rfl ?_)
  split
  · exact Parses.fail
  · next h34 =>
    refine Parses.next (n := 34) (not_not.mp h34) ?_
    refine (stringLoop_parses (by omega)).mono (fun _ _ h => h.mono ?_) fun _ _ hE => hE
    rintro t t' ⟨s, rfl, hs⟩
    exact .mk hs

/-! ## Every string is read -/

theorem hexLoop_takes (h : At source p t) (hhex : Hex k n t m t') :
    Takes source (hexLoop source k n) p (· = (m : ℤ)) t' := by
  induction hhex generalizing p with
  | nil n t => exact Takes.pure rfl h
  | @cons k n d m b t t' hdigit _ ih =>
    refine Ends.bind (.of_eq rfl ?_)
    rw [h.peek, jsonHex_of_hexDigit hdigit]
    dsimp only
    rw [if_neg (by omega), show (n : ℤ) * 16 + d = (n * 16 + d : ℕ) by push_cast; rfl]
    exact Takes.next h fun h' => ih h'

theorem hex4_takes (h : At source p t) (hhex : Hex 4 0 t m t') :
    Takes source (hex4 source) p (· = (m : ℤ)) t' := hexLoop_takes h hhex

theorem codeText_takes {code : ℤ} (h : At source p t) (hcode : code = n) (hn : IsScalar n) :
    Takes source (codeText code) p (· = encode n) t := by
  refine Ends.bind (.of_eq (failed_eq h.failure) ?_)
  rw [if_neg Bool.false_ne_true, hcode, encodeCodePoint_of_isScalar hn]
  exact Takes.pure rfl h

theorem lowSurrogate_takes {high low : ℕ} (h : At source p (92 :: 117 :: t)) (hhigh : IsHigh high)
    (hhex : Hex 4 0 t low t') (hlow : IsLow low) :
    Takes source (lowSurrogate source high) p (· = some (encode (pairCode high low))) t' := by
  have hseen : ¬ (strchar source p.position ≠ 92 ∨ strchar source (p.position + 1 : ℕ) ≠ 117) := by
    rw [h.peek, h.next.peek]
    decide
  refine Ends.bind (.of_eq rfl (Ends.bind (.of_eq rfl ?_)))
  rw [if_neg hseen]
  have h₁ : At source (p.forward 2) t := At.of_drop (s := [92, 117]) h rfl
  refine Ends.bind (.of_eq rfl (Takes.bind (hex4_takes h₁ hhex) fun v p₂ hv h₂ => ?_))
  rw [if_neg (by unfold IsLow at hlow; omega)]
  have hcode : 65536 + ((high : ℤ) - 55296) * 1024 + v - 56320 = pairCode high low := by
    rw [hv, pairCode_eq hhigh hlow]
  refine Takes.bind (codeText_takes h₂ hcode (isScalar_pairCode hhigh hlow)) fun s p₃ hs h₃ => ?_
  exact Takes.pure (congrArg some hs) h₃

theorem unicodeEscape_takes {s : Str} (h : At source p t) (he : Escape (117 :: t) s t') :
    Takes source (unicodeEscape source) p (· = some s) t' := by
  cases he with
  | char hmem =>
    have h117 : (117 : UInt8) ∈ escapes.map Prod.fst := List.mem_map_of_mem (f := Prod.fst) hmem
    exact absurd h117 (by decide)
  | @scalar n _ _ hhex hhigh hlow =>
    refine Takes.bind (hex4_takes h hhex) fun v p₁ hv h₁ => ?_
    unfold IsHigh at hhigh
    unfold IsLow at hlow
    have hlt : n < 65536 := hex_lt hhex
    rw [if_neg (by omega), if_neg (by omega)]
    refine Takes.bind (codeText_takes h₁ hv (by unfold IsScalar; omega)) fun s p₂ hs h₂ => ?_
    exact Takes.pure (congrArg some hs) h₂
  | pair hhex hhigh hhex' hlow =>
    refine Takes.bind (hex4_takes h hhex) fun v p₁ hv h₁ => ?_
    rw [if_pos (by unfold IsHigh at hhigh; omega), hv]
    exact lowSurrogate_takes h₁ hhigh hhex' hlow

theorem escape_takes {s : Str} (h : At source p t) (he : Escape t s t') :
    Takes source (escape source) p (· = some s) t' := by
  refine Ends.bind (.of_eq rfl ?_)
  have hcons : ∃ e r, t = e :: r ∧ (e = 117 ∨ ∃ b, s = [b] ∧ t' = r ∧ (e, b) ∈ escapes) := by
    cases he with
    | char hmem => exact ⟨_, _, rfl, .inr ⟨_, rfl, rfl, hmem⟩⟩
    | scalar _ _ _ => exact ⟨_, _, rfl, .inl rfl⟩
    | pair _ _ _ _ => exact ⟨_, _, rfl, .inl rfl⟩
  obtain ⟨e, r, rfl, rfl | ⟨b, rfl, rfl, hmem⟩⟩ := hcons
  · rw [h.peek]
    exact Takes.next h fun h' => unicodeEscape_takes h' he
  · rw [h.peek]
    refine Takes.next h fun h' => ?_
    simp only [escapes, List.mem_cons, Prod.mk.injEq, List.not_mem_nil, or_false] at hmem
    rcases hmem with ⟨rfl, rfl⟩ | ⟨rfl, rfl⟩ | ⟨rfl, rfl⟩ | ⟨rfl, rfl⟩ | ⟨rfl, rfl⟩ | ⟨rfl, rfl⟩ |
      ⟨rfl, rfl⟩ | ⟨rfl, rfl⟩ <;> exact Takes.pure rfl h'

theorem hex_length (h : Hex k n t m t') : t'.length ≤ t.length := by
  induction h with
  | nil n t => exact le_rfl
  | cons _ _ ih => exact ih.trans (Nat.le_succ _)

theorem escape_length {s : Str} (h : Escape t s t') : t'.length ≤ t.length := by
  cases h with
  | char _ => exact Nat.le_succ _
  | scalar hhex _ _ => exact (hex_length hhex).trans (Nat.le_succ _)
  | pair hhex _ hhex' _ =>
    have h₁ := hex_length hhex
    have h₂ := hex_length hhex'
    simp only [List.length_cons] at h₁ ⊢
    omega

theorem toNat_ne {a b : UInt8} (h : a ≠ b) : (a.toNat : ℤ) ≠ b.toNat :=
  fun heq => h (UInt8.toNat_inj.mp (Int.ofNat_inj.mp heq))

theorem stringLoop_takes {s : Str} (h : At source p t) (hs : Chars t s t')
    (hturns : t.length < turns) :
    Takes source (stringLoop source turns out) p (· = out ++ s) t' := by
  have hcond : ∀ {b : UInt8} {r : Str} {p : JsonParser}, At source p (b :: r) →
      ¬ (¬ p.position < source.length ∨ decide (p.failure ≠ "") = true) := by
    intro b r p h
    rintro (hlt | hf)
    · exact hlt h.lt
    · exact of_decide_eq_true hf h.failure
  induction hs generalizing p turns out with
  | quote t =>
    obtain ⟨turns, rfl⟩ := Nat.exists_eq_succ_of_ne_zero (Nat.ne_zero_of_lt hturns)
    refine Ends.bind (.of_eq rfl (Ends.bind (.of_eq rfl ?_)))
    rw [if_neg (hcond h)]
    refine Ends.bind (.of_eq rfl ?_)
    rw [h.peek]
    exact Takes.next h fun h' => Takes.pure (List.append_nil out).symm h'
  | @plain b t s t' h32 h34 h92 _ ih =>
    obtain ⟨turns, rfl⟩ := Nat.exists_eq_succ_of_ne_zero (Nat.ne_zero_of_lt hturns)
    refine Ends.bind (.of_eq rfl (Ends.bind (.of_eq rfl ?_)))
    rw [if_neg (hcond h)]
    refine Ends.bind (.of_eq rfl ?_)
    rw [h.peek]
    refine Takes.next h fun h' => ?_
    have h34' : (b.toNat : ℤ) ≠ 34 := toNat_ne h34
    have h92' : (b.toNat : ℤ) ≠ 92 := toNat_ne h92
    rw [if_neg h34', if_neg (by omega), if_pos h92', chr_toNat]
    rw [List.length_cons] at hturns
    refine (ih h' (by omega)).mono ?_ fun _ _ hE => hE
    rintro r p' ⟨rfl, hp'⟩
    exact ⟨List.append_assoc .., hp'⟩
  | @escape t c a s t' he _ ih =>
    obtain ⟨turns, rfl⟩ := Nat.exists_eq_succ_of_ne_zero (Nat.ne_zero_of_lt hturns)
    refine Ends.bind (.of_eq rfl (Ends.bind (.of_eq rfl ?_)))
    rw [if_neg (hcond h)]
    refine Ends.bind (.of_eq rfl ?_)
    rw [h.peek]
    refine Takes.next h fun h' => ?_
    refine Takes.bind (escape_takes h' he) fun r p₁ hr h₁ => ?_
    rw [hr]
    have hlen := escape_length he
    rw [List.length_cons] at hturns
    refine (ih h₁ (by omega)).mono ?_ fun _ _ hE => hE
    rintro r p' ⟨rfl, hp'⟩
    exact ⟨List.append_assoc .., hp'⟩

theorem stringValue_takes {s : Str} (h : At source p t) (hs : Quoted t s t') :
    Takes source (stringValue source) p (· = s) t' := by
  obtain ⟨hs⟩ := hs
  refine Ends.bind (.of_eq rfl ?_)
  rw [h.peek, if_neg (by decide)]
  refine Takes.next h fun h' => ?_
  exact stringLoop_takes h' hs (Nat.lt_succ_of_le h'.length_le)

end Loxis.Stdlib.JsonParser
