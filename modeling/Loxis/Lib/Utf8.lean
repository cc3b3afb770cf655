import Mathlib.Data.List.Flatten
import Mathlib.Tactic.Common

/-! # UTF-8

The byte sequences of the characters in the shortest form and the sequences made of them. A
character stands for one Unicode scalar value, and every scalar value has one character.
-/

namespace Loxis.Utf8

/-- Unicode scalar values: the code points that are not surrogates. -/
def IsScalar (c : ℕ) : Prop := c ≤ 0x10FFFF ∧ ¬ (0xD800 ≤ c ∧ c ≤ 0xDFFF)

def Tail (b : UInt8) : Prop := 0x80 ≤ b.toNat ∧ b.toNat ≤ 0xBF

/-- The bytes of one character. The second byte is bounded where the form would not be the
shortest one, or its code point a surrogate or too great. -/
inductive Character : List UInt8 → Prop
  | one {a : UInt8} : a.toNat ≤ 0x7F → Character [a]
  | two {a b : UInt8} : 0xC2 ≤ a.toNat → a.toNat ≤ 0xDF → Tail b → Character [a, b]
  | three {a b c : UInt8} : 0xE0 ≤ a.toNat → a.toNat ≤ 0xEF → Tail b → Tail c →
      (a.toNat = 0xE0 → 0xA0 ≤ b.toNat) → (a.toNat = 0xED → b.toNat ≤ 0x9F) → Character [a, b, c]
  | four {a b c d : UInt8} : 0xF0 ≤ a.toNat → a.toNat ≤ 0xF4 → Tail b → Tail c → Tail d →
      (a.toNat = 0xF0 → 0x90 ≤ b.toNat) → (a.toNat = 0xF4 → b.toNat ≤ 0x8F) →
      Character [a, b, c, d]

/-- Well-formed sequences of characters. -/
inductive WellFormed : List UInt8 → Prop
  | nil : WellFormed []
  | cons {c s : List UInt8} : Character c → WellFormed s → WellFormed (c ++ s)

/-- The bits of the code point in the first byte. -/
def first (a : UInt8) : ℕ :=
  if a.toNat < 0xC0 then a.toNat
  else if a.toNat < 0xE0 then a.toNat % 32
  else if a.toNat < 0xF0 then a.toNat % 16 else a.toNat % 8

/-- The bits before a tail and those of the tail. -/
def shift (n : ℕ) (b : UInt8) : ℕ := n * 64 + b.toNat % 64

/-- The code point of the bytes of a character. -/
def codePoint : List UInt8 → ℕ
  | [] => 0
  | a :: tails => tails.foldl shift (first a)

/-- The bytes of a code point. -/
def encode (c : ℕ) : List UInt8 :=
  if c < 0x80 then [.ofNat c]
  else if c < 0x800 then [.ofNat (0xC0 + c / 64), .ofNat (0x80 + c % 64)]
  else if c < 0x10000 then
    [.ofNat (0xE0 + c / 4096), .ofNat (0x80 + c / 64 % 64), .ofNat (0x80 + c % 64)]
  else
    [.ofNat (0xF0 + c / 262144), .ofNat (0x80 + c / 4096 % 64), .ofNat (0x80 + c / 64 % 64),
      .ofNat (0x80 + c % 64)]

variable {c : ℕ} {s t : List UInt8}

theorem toNat_ofNat {n : ℕ} (h : n < 256) : (UInt8.ofNat n).toNat = n := by
  rw [UInt8.toNat_ofNat']
  omega

theorem tail_ofNat {n : ℕ} (h : n < 64) : Tail (.ofNat (0x80 + n)) := by
  rw [Tail, toNat_ofNat (by omega)]
  omega

section CodePoint

variable {a b c d : UInt8}

theorem codePoint_one (h : a.toNat < 0xC0) : codePoint [a] = a.toNat := if_pos h

theorem codePoint_two (h : 0xC0 ≤ a.toNat) (h' : a.toNat ≤ 0xDF) :
    codePoint [a, b] = a.toNat % 32 * 64 + b.toNat % 64 := by
  rw [← show first a = a.toNat % 32 by rw [first, if_neg (by omega), if_pos (by omega)]]
  rfl

theorem codePoint_three (h : 0xE0 ≤ a.toNat) (h' : a.toNat ≤ 0xEF) :
    codePoint [a, b, c] = (a.toNat % 16 * 64 + b.toNat % 64) * 64 + c.toNat % 64 := by
  rw [← show first a = a.toNat % 16 by
    rw [first, if_neg (by omega), if_neg (by omega), if_pos (by omega)]]
  rfl

theorem codePoint_four (h : 0xF0 ≤ a.toNat) : codePoint [a, b, c, d] =
    ((a.toNat % 8 * 64 + b.toNat % 64) * 64 + c.toNat % 64) * 64 + d.toNat % 64 := by
  rw [← show first a = a.toNat % 8 by
    rw [first, if_neg (by omega), if_neg (by omega), if_neg (by omega)]]
  rfl

end CodePoint

theorem character_encode (h : IsScalar c) : Character (encode c) := by
  obtain ⟨hmax, hsur⟩ := h
  have hlow {n : ℕ} : n % 64 < 64 := Nat.mod_lt _ (by decide)
  unfold encode
  split_ifs with h1 h2 h3
  · exact .one (by rw [toNat_ofNat] <;> omega)
  · exact .two (by rw [toNat_ofNat] <;> omega) (by rw [toNat_ofNat] <;> omega) (tail_ofNat hlow)
  · refine .three ?_ ?_ (tail_ofNat hlow) (tail_ofNat hlow) ?_ ?_ <;>
      simp (disch := omega) only [toNat_ofNat] <;> omega
  · refine .four ?_ ?_ (tail_ofNat hlow) (tail_ofNat hlow) (tail_ofNat hlow) ?_ ?_ <;>
      simp (disch := omega) only [toNat_ofNat] <;> omega

theorem codePoint_encode (h : IsScalar c) : codePoint (encode c) = c := by
  obtain ⟨hmax, hsur⟩ := h
  unfold encode
  split_ifs with h1 h2 h3 <;> simp only [codePoint, List.foldl, first, shift] <;>
    simp (disch := omega) only [toNat_ofNat] <;> split_ifs <;> omega

theorem encode_codePoint (h : Character s) : encode (codePoint s) = s := by
  have hbyte (b : UInt8) {n : ℕ} (hn : n = b.toNat) : UInt8.ofNat n = b := by
    rw [hn, UInt8.ofNat_toNat]
  unfold encode
  cases h with
  | one ha => rw [codePoint_one (by omega), if_pos (by omega), UInt8.ofNat_toNat]
  | @two a b ha ha' hb =>
    obtain ⟨hb₀, hb₁⟩ := hb
    rw [codePoint_two (by omega) ha', if_neg (by omega), if_pos (by omega), hbyte a (by omega),
      hbyte b (by omega)]
  | @three a b c ha ha' hb hc he0 hed =>
    obtain ⟨⟨hb₀, hb₁⟩, hc₀, hc₁⟩ := And.intro hb hc
    rw [codePoint_three ha ha', if_neg (by omega), if_neg (by omega), if_pos (by omega),
      hbyte a (by omega), hbyte b (by omega), hbyte c (by omega)]
  | @four a b c d ha ha' hb hc hd hf0 hf4 =>
    obtain ⟨⟨hb₀, hb₁⟩, ⟨hc₀, hc₁⟩, hd₀, hd₁⟩ := And.intro hb (And.intro hc hd)
    rw [codePoint_four ha, if_neg (by omega), if_neg (by omega), if_neg (by omega),
      hbyte a (by omega), hbyte b (by omega), hbyte c (by omega), hbyte d (by omega)]

theorem isScalar_codePoint (h : Character s) : IsScalar (codePoint s) := by
  unfold IsScalar
  cases h with
  | one ha =>
    rw [codePoint_one (by omega)]
    omega
  | two ha ha' hb =>
    obtain ⟨hb₀, hb₁⟩ := hb
    rw [codePoint_two (by omega) ha']
    omega
  | three ha ha' hb hc he0 hed =>
    obtain ⟨⟨hb₀, hb₁⟩, hc₀, hc₁⟩ := And.intro hb hc
    rw [codePoint_three ha ha']
    omega
  | four ha ha' hb hc hd hf0 hf4 =>
    obtain ⟨⟨hb₀, hb₁⟩, ⟨hc₀, hc₁⟩, hd₀, hd₁⟩ := And.intro hb (And.intro hc hd)
    rw [codePoint_four ha]
    omega

theorem Character.ne_nil (h : Character s) : s ≠ [] := by
  cases h <;> exact List.cons_ne_nil _ _

/-! ## Sequences -/

theorem WellFormed.append (hs : WellFormed s) (ht : WellFormed t) : WellFormed (s ++ t) := by
  induction hs with
  | nil => exact ht
  | cons hc _ ih =>
    rw [List.append_assoc]
    exact .cons hc ih

theorem Character.wellFormed (h : Character s) : WellFormed s := by
  have := WellFormed.cons h .nil
  rwa [List.append_nil] at this

theorem wellFormed_of_ascii (h : ∀ b ∈ s, b.toNat ≤ 0x7F) : WellFormed s := by
  induction s with
  | nil => exact .nil
  | cons b s ih =>
    exact .cons (.one (h b List.mem_cons_self)) (ih fun c hc => h c (List.mem_cons_of_mem b hc))

/-- The well-formed sequences are the concatenated characters of lists of scalar values. -/
theorem wellFormed_iff :
    WellFormed s ↔ ∃ cs : List ℕ, (∀ c ∈ cs, IsScalar c) ∧ s = cs.flatMap encode := by
  constructor
  · intro h
    induction h with
    | nil => exact ⟨[], by simp, rfl⟩
    | @cons c s hc _ ih =>
      obtain ⟨cs, hcs, rfl⟩ := ih
      refine ⟨codePoint c :: cs, fun d hd => ?_, ?_⟩
      · rcases List.mem_cons.mp hd with rfl | hd
        · exact isScalar_codePoint hc
        · exact hcs d hd
      · rw [List.flatMap_cons, encode_codePoint hc]
  · rintro ⟨cs, hcs, rfl⟩
    induction cs with
    | nil => exact .nil
    | cons c cs ih =>
      rw [List.flatMap_cons]
      exact .cons (character_encode (hcs c List.mem_cons_self))
        (ih fun d hd => hcs d (List.mem_cons_of_mem c hd))

end Loxis.Utf8
