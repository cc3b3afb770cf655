import Loxis.Lib.Utf8
import Loxis.Stdlib.Str

/-! # Code points

The library's encoder and decoder of UTF-8. The decoder takes the width and the least code
point of a character from its first byte.
-/

namespace Loxis.Stdlib

open Loxis.Utf8

def encodeCodePoint (code : ℤ) : Eval Str := do
  require (code ≥ 0 ∧ code ≤ 1114111 ∧ (code < 55296 ∨ code > 57343)) "invalid Unicode scalar"
  if code < 128 then return chr code
  if code < 2048 then return chr (192 + code.tdiv 64) ++ chr (128 + code.tmod 64)
  if code < 65536 then
    return chr (224 + code.tdiv 4096) ++ chr (128 + (code.tdiv 64).tmod 64) ++
      chr (128 + code.tmod 64)
  return chr (240 + code.tdiv 262144) ++ chr (128 + (code.tdiv 4096).tmod 64) ++
    chr (128 + (code.tdiv 64).tmod 64) ++ chr (128 + code.tmod 64)

/-- The width, the first bits and the least code point of a character with this first byte. -/
def leading (first : ℤ) : Option (ℕ × ℤ × ℤ) :=
  if first ≥ 194 ∧ first ≤ 223 then some (2, first - 192, 128)
  else if first ≥ 224 ∧ first ≤ 239 then some (3, first - 224, 2048)
  else if first ≥ 240 ∧ first ≤ 244 then some (4, first - 240, 65536)
  else if first ≥ 128 then none
  else some (1, first, 0)

/-- The loop over the continuation bytes; none where a byte is not one. -/
def continuation (value : Str) (i width j : ℕ) (code : ℤ) : Option ℤ :=
  if j < width then
    let b := strchar value (i + j : ℕ)
    if b < 128 ∨ b > 191 then none
    else continuation value i width (j + 1) (code * 64 + b - 128)
  else some code
termination_by width - j

theorem leading_pos {first code minimum : ℤ} {width : ℕ}
    (h : leading first = some (width, code, minimum)) : 0 < width := by
  unfold leading at h
  split_ifs at h <;> cases h <;> decide

/-- The loop over the characters. -/
def decodeLoop (value : Str) (i : ℕ) (out : List ℤ) : Result (List ℤ) String :=
  if i < value.length then
    match _h : leading (strchar value i) with
    | none => .failure "invalid UTF-8 leading byte"
    | some (width, first, minimum) =>
      if i + width > value.length then .failure "truncated UTF-8"
      else
        match continuation value i width 1 first with
        | none => .failure "invalid UTF-8 continuation"
        | some code =>
          if code < minimum ∨ code > 1114111 ∨ (code ≥ 55296 ∧ code ≤ 57343) then
            .failure "invalid Unicode scalar"
          else decodeLoop value (i + width) (out ++ [code])
  else .success out
termination_by value.length - i
decreasing_by
  have := leading_pos ‹_›
  omega

def decodeCodePoints (value : Str) : Result (List ℤ) String := decodeLoop value 0 []

/-! ## The encoder -/

variable {value s t tails : Str} {i j n width : ℕ} {code : ℤ} {a : UInt8} {out : List ℤ}

theorem chr_natCast (h : n < 256) : chr n = [.ofNat n] := by
  rw [chr, show ((n : ℤ) % 256).toNat = n by omega]

theorem chr_of_eq {v : ℤ} (hv : v = n) (h : n < 256) : chr v = [.ofNat n] := by
  rw [hv, chr_natCast h]

theorem encodeCodePoint_of_isScalar (h : IsScalar n) : encodeCodePoint n = .ok (encode n) := by
  obtain ⟨hmax, hsur⟩ := h
  have hreq : (n : ℤ) ≥ 0 ∧ (n : ℤ) ≤ 1114111 ∧ ((n : ℤ) < 55296 ∨ (n : ℤ) > 57343) := by omega
  unfold encodeCodePoint encode
  rw [require, if_pos hreq]
  simp (disch := omega) only [Int.tdiv_eq_ediv_of_nonneg, Int.tmod_eq_emod_of_nonneg]
  by_cases h1 : n < 128
  · rw [if_pos h1, if_pos (by omega), chr_natCast (by omega)]
    rfl
  by_cases h2 : n < 2048
  · rw [if_neg h1, if_pos h2, if_neg (by omega), if_pos (by omega),
      chr_of_eq (n := 192 + n / 64) (by omega) (by omega),
      chr_of_eq (n := 128 + n % 64) (by omega) (by omega)]
    rfl
  by_cases h3 : n < 65536
  · rw [if_neg h1, if_neg h2, if_pos h3, if_neg (by omega), if_neg (by omega), if_pos (by omega),
      chr_of_eq (n := 224 + n / 4096) (by omega) (by omega),
      chr_of_eq (n := 128 + n / 64 % 64) (by omega) (by omega),
      chr_of_eq (n := 128 + n % 64) (by omega) (by omega)]
    rfl
  · rw [if_neg h1, if_neg h2, if_neg h3, if_neg (by omega), if_neg (by omega), if_neg (by omega),
      chr_of_eq (n := 240 + n / 262144) (by omega) (by omega),
      chr_of_eq (n := 128 + n / 4096 % 64) (by omega) (by omega),
      chr_of_eq (n := 128 + n / 64 % 64) (by omega) (by omega),
      chr_of_eq (n := 128 + n % 64) (by omega) (by omega)]
    rfl

/-! ## One character -/

theorem continuation_of_tails (hdrop : value.drop (i + j) = tails ++ t)
    (htails : ∀ b ∈ tails, Tail b) (hlen : j + tails.length = width) :
    continuation value i width j n = some ((tails.foldl shift n : ℕ) : ℤ) := by
  induction tails generalizing j n with
  | nil =>
    rw [List.length_nil] at hlen
    rw [continuation, if_neg (by omega), List.foldl_nil]
  | cons b tails ih =>
    obtain ⟨hb₀, hb₁⟩ := htails b List.mem_cons_self
    rw [List.length_cons] at hlen
    have hnext : value.drop (i + (j + 1)) = tails ++ t := by
      rw [← Nat.add_assoc, ← List.tail_drop, hdrop, List.cons_append, List.tail_cons]
    have hshift : (n : ℤ) * 64 + b.toNat - 128 = (shift n b : ℕ) := by
      unfold shift
      omega
    rw [continuation, if_pos (by omega), strchar_of_drop hdrop, if_neg (by omega), hshift,
      ih hnext (fun c hc => htails c (List.mem_cons_of_mem b hc)) (by omega), List.foldl_cons]

theorem tails_of_continuation {c : ℤ} (h : continuation value i width j code = some c)
    (hj : j ≤ width) (hfit : i + width ≤ value.length) :
    ∃ tails t, value.drop (i + j) = tails ++ t ∧ (∀ b ∈ tails, Tail b) ∧
      j + tails.length = width := by
  obtain ⟨k, hk⟩ : ∃ k, k = width - j := ⟨_, rfl⟩
  induction k generalizing j code with
  | zero => exact ⟨[], _, rfl, by simp, by rw [List.length_nil]; omega⟩
  | succ k ih =>
    obtain ⟨b, rest, hrest⟩ : ∃ b rest, value.drop (i + j) = b :: rest :=
      List.exists_cons_of_length_pos (by rw [List.length_drop]; omega)
    rw [continuation, if_pos (by omega), strchar_of_drop hrest] at h
    dsimp only at h
    split at h
    · cases h
    · next hb =>
      obtain ⟨tails, t, htails, hall, hlen⟩ := ih h (by omega) (by omega)
      rw [← Nat.add_assoc, ← List.tail_drop, hrest, List.tail_cons] at htails
      refine ⟨b :: tails, t, by rw [hrest, htails, List.cons_append], fun c hc => ?_,
        by rw [List.length_cons]; omega⟩
      rcases List.mem_cons.mp hc with rfl | hc
      · unfold Tail
        omega
      · exact hall c hc

theorem leading_eq_first {lead minimum : ℤ} (h : leading a.toNat = some (width, lead, minimum)) :
    lead = (first a : ℕ) := by
  have ha := toNat_lt a
  unfold leading at h
  unfold first
  split_ifs at h <;> cases h <;> split_ifs <;> omega

/-- What the decoder checks of a code point. -/
def Refused (code minimum : ℤ) : Prop :=
  code < minimum ∨ code > 1114111 ∨ (code ≥ 55296 ∧ code ≤ 57343)

theorem checked_of_character (h : Character (a :: tails)) : (∀ b ∈ tails, Tail b) ∧
    ∃ minimum, leading a.toNat = some (1 + tails.length, ((first a : ℕ) : ℤ), minimum) ∧
      ¬ Refused (codePoint (a :: tails) : ℕ) minimum := by
  have hlead {width : ℕ} (lead : ℤ) {minimum : ℤ} (h : leading a.toNat = some (width, lead, minimum)) :
      leading a.toNat = some (width, ((first a : ℕ) : ℤ), minimum) := leading_eq_first h ▸ h
  unfold Refused
  cases h with
  | one ha =>
    refine ⟨by simp, 0, hlead a.toNat ?_, ?_⟩
    · rw [leading, if_neg (by omega), if_neg (by omega), if_neg (by omega), if_neg (by omega)]
      rfl
    · rw [codePoint_one (by omega)]
      omega
  | two ha ha' hb =>
    refine ⟨by simpa using hb, 128, hlead (a.toNat - 192) ?_, ?_⟩
    · rw [leading, if_pos (by omega)]
      rfl
    · rw [codePoint_two (by omega) ha']
      omega
  | three ha ha' hb hc he0 hed =>
    refine ⟨by simpa using ⟨hb, hc⟩, 2048, hlead (a.toNat - 224) ?_, ?_⟩
    · rw [leading, if_neg (by omega), if_pos (by omega)]
      rfl
    · obtain ⟨⟨hb₀, hb₁⟩, hc₀, hc₁⟩ := And.intro hb hc
      rw [codePoint_three ha ha']
      omega
  | four ha ha' hb hc hd hf0 hf4 =>
    refine ⟨by simpa using ⟨hb, hc, hd⟩, 65536, hlead (a.toNat - 240) ?_, ?_⟩
    · rw [leading, if_neg (by omega), if_neg (by omega), if_pos (by omega)]
      rfl
    · obtain ⟨⟨hb₀, hb₁⟩, ⟨hc₀, hc₁⟩, hd₀, hd₁⟩ := And.intro hb (And.intro hc hd)
      rw [codePoint_four ha]
      omega

theorem character_of_checked {lead minimum : ℤ}
    (hlead : leading a.toNat = some (1 + tails.length, lead, minimum))
    (htails : ∀ b ∈ tails, Tail b) (h : ¬ Refused (codePoint (a :: tails) : ℕ) minimum) :
    Character (a :: tails) := by
  unfold leading at hlead
  unfold Refused at h
  split_ifs at hlead with h2 h3 h4 h1 <;>
    obtain ⟨hlen, -, rfl⟩ := by simpa only [Option.some.injEq, Prod.mk.injEq] using hlead
  · obtain ⟨b, rfl⟩ := List.length_eq_one_iff.mp (Nat.add_left_cancel hlen.symm : tails.length = 1)
    exact .two (by omega) (by omega) (htails b (by simp))
  · obtain ⟨b, c, rfl⟩ := List.length_eq_two.mp (Nat.add_left_cancel hlen.symm : tails.length = 2)
    have hb := htails b (by simp)
    have hc := htails c (by simp)
    rw [codePoint_three (by omega) (by omega)] at h
    obtain ⟨⟨hb₀, hb₁⟩, hc₀, hc₁⟩ := And.intro hb hc
    exact .three (by omega) (by omega) hb hc (by omega) (by omega)
  · obtain ⟨b, c, d, rfl⟩ := List.length_eq_three.mp
      (Nat.add_left_cancel hlen.symm : tails.length = 3)
    have hb := htails b (by simp)
    have hc := htails c (by simp)
    have hd := htails d (by simp)
    rw [codePoint_four (by omega)] at h
    obtain ⟨⟨hb₀, hb₁⟩, ⟨hc₀, hc₁⟩, hd₀, hd₁⟩ := And.intro hb (And.intro hc hd)
    exact .four (by omega) (by omega) hb hc hd (by omega) (by omega)
  · obtain rfl := List.length_eq_zero_iff.mp (Nat.add_left_cancel hlen.symm : tails.length = 0)
    exact .one (by omega)

/-- A character is one turn of the loop. -/
theorem decodeLoop_character (h : Character s) (hdrop : value.drop i = s ++ t) :
    decodeLoop value i out = decodeLoop value (i + s.length) (out ++ [(codePoint s : ℤ)]) := by
  obtain ⟨a, tails, rfl⟩ := List.exists_cons_of_ne_nil h.ne_nil
  obtain ⟨htails, minimum, hlead, hcode⟩ := checked_of_character h
  have hlen := congrArg List.length hdrop
  simp only [List.length_drop, List.length_append, List.length_cons] at hlen
  have hnext : value.drop (i + 1) = tails ++ t := by
    rw [← List.tail_drop, hdrop, List.cons_append, List.tail_cons]
  rw [decodeLoop, if_pos (by omega)]
  split
  · next hnone =>
    rw [strchar_of_drop hdrop, hlead] at hnone
    cases hnone
  · next hsome =>
    rw [strchar_of_drop hdrop, hlead] at hsome
    cases hsome
    rw [if_neg (by omega), continuation_of_tails hnext htails rfl]
    simp only [← show codePoint (a :: tails) = tails.foldl shift (first a) from rfl]
    rw [List.length_cons, Nat.add_comm 1]
    exact if_neg hcode

/-- Where the loop does not fail there is a character. -/
theorem character_of_decodeLoop {cs : List ℤ} (hi : i < value.length)
    (h : decodeLoop value i out = .success cs) : ∃ s t, Character s ∧ value.drop i = s ++ t := by
  obtain ⟨a, rest, hrest⟩ : ∃ a rest, value.drop i = a :: rest :=
    List.exists_cons_of_length_pos (by rw [List.length_drop]; omega)
  rw [decodeLoop, if_pos hi] at h
  split at h
  · cases h
  · next width lead minimum hlead =>
    split_ifs at h with hfit
    split at h
    · cases h
    · next code hcont =>
      split_ifs at h with hcode
      rw [strchar_of_drop hrest] at hlead
      obtain ⟨tails, t, htails, hall, hlen⟩ :=
        tails_of_continuation hcont (leading_pos hlead) (by omega)
      rw [leading_eq_first hlead, continuation_of_tails htails hall hlen, Option.some.injEq] at hcont
      subst hlen hcont
      have hsplit : value.drop i = (a :: tails) ++ t := by
        rw [← List.tail_drop, hrest, List.tail_cons] at htails
        rw [hrest, htails, List.cons_append]
      exact ⟨a :: tails, t, character_of_checked hlead hall hcode, hsplit⟩

/-! ## The codec -/

variable {cs : List ℕ}

theorem decodeLoop_encode (hcs : ∀ c ∈ cs, IsScalar c) (h : value.drop i = cs.flatMap encode) :
    decodeLoop value i out = .success (out ++ cs.map (↑)) := by
  induction cs generalizing i out with
  | nil =>
    have hi : ¬ i < value.length := Nat.not_lt.mpr (List.drop_eq_nil_iff.mp h)
    rw [decodeLoop, if_neg hi, List.map_nil, List.append_nil]
  | cons c cs ih =>
    have hc := hcs c List.mem_cons_self
    rw [List.flatMap_cons] at h
    have hnext : value.drop (i + (encode c).length) = cs.flatMap encode := by
      rw [← List.drop_drop, h, List.drop_left]
    rw [decodeLoop_character (character_encode hc) h, codePoint_encode hc,
      ih (fun d hd => hcs d (List.mem_cons_of_mem c hd)) hnext, List.append_assoc, List.map_cons,
      List.singleton_append]

theorem encode_of_decodeLoop {r : List ℤ} (h : decodeLoop value i out = .success r) :
    ∃ cs : List ℕ, (∀ c ∈ cs, IsScalar c) ∧ value.drop i = cs.flatMap encode ∧
      r = out ++ cs.map (↑) := by
  obtain ⟨k, hk⟩ : ∃ k, k = value.length - i := ⟨_, rfl⟩
  induction k using Nat.strong_induction_on generalizing i out with
  | _ k ih =>
    by_cases hi : i < value.length
    · obtain ⟨s, t, hs, hdrop⟩ := character_of_decodeLoop hi h
      have hpos := List.length_pos_iff.mpr hs.ne_nil
      rw [decodeLoop_character hs hdrop] at h
      obtain ⟨cs, hcs, hrest, rfl⟩ := ih _ (by omega) h rfl
      refine ⟨codePoint s :: cs, fun d hd => ?_, ?_, by simp⟩
      · rcases List.mem_cons.mp hd with rfl | hd
        · exact isScalar_codePoint hs
        · exact hcs d hd
      · rw [← List.drop_drop, hdrop, List.drop_left] at hrest
        rw [List.flatMap_cons, encode_codePoint hs, hdrop, hrest]
    · rw [decodeLoop, if_neg hi] at h
      cases h
      exact ⟨[], by simp, List.drop_eq_nil_iff.mpr (Nat.not_lt.mp hi), by simp⟩

theorem decodeCodePoints_iff {r : List ℤ} : decodeCodePoints value = .success r ↔
    ∃ cs : List ℕ, (∀ c ∈ cs, IsScalar c) ∧ value = cs.flatMap encode ∧ r = cs.map (↑) := by
  constructor
  · exact encode_of_decodeLoop
  · rintro ⟨cs, hcs, rfl, rfl⟩
    exact decodeLoop_encode hcs List.drop_zero

theorem decodeCodePoints_isSuccess :
    (∃ r, decodeCodePoints value = .success r) ↔ WellFormed value := by
  simp only [decodeCodePoints_iff, wellFormed_iff]
  constructor
  · rintro ⟨_, cs, hcs, rfl, -⟩
    exact ⟨cs, hcs, rfl⟩
  · rintro ⟨cs, hcs, rfl⟩
    exact ⟨_, cs, hcs, rfl, rfl⟩

theorem mapM_encodeCodePoint (hcs : ∀ c ∈ cs, IsScalar c) :
    (cs.map (↑)).mapM encodeCodePoint = .ok (cs.map encode) := by
  induction cs with
  | nil => rfl
  | cons c cs ih =>
    rw [List.map_cons, List.mapM_cons, encodeCodePoint_of_isScalar (hcs c List.mem_cons_self),
      ih fun d hd => hcs d (List.mem_cons_of_mem c hd)]
    rfl

/-- The decoder accepts the well-formed strings; it and the encoder are inverse to each other. -/
theorem codec_exact :
    (∀ s : Str, ((∃ cs, decodeCodePoints s = .success cs) ↔ WellFormed s) ∧
      ∀ cs, decodeCodePoints s = .success cs →
        ∃ parts, cs.mapM encodeCodePoint = .ok parts ∧ parts.flatten = s) ∧
    ∀ cs : List ℕ, (∀ c ∈ cs, IsScalar c) →
      ∃ parts, (cs.map (↑)).mapM encodeCodePoint = .ok parts ∧
        decodeCodePoints parts.flatten = .success (cs.map (↑)) := by
  refine ⟨fun s => ⟨decodeCodePoints_isSuccess, fun r hr => ?_⟩, fun cs hcs => ?_⟩
  · obtain ⟨cs, hcs, rfl, rfl⟩ := decodeCodePoints_iff.mp hr
    exact ⟨_, mapM_encodeCodePoint hcs, rfl⟩
  · exact ⟨_, mapM_encodeCodePoint hcs, decodeCodePoints_iff.mpr ⟨cs, hcs, rfl, rfl⟩⟩

end Loxis.Stdlib
