import Loxis.Backend.Arithmetic
import Mathlib.Data.Nat.Digits.Defs
import Loxis.Lib.Occurrences

/-! # Strings of the standard library

A string is its bytes. The string instructions clamp what is out of range; the
library's functions return a result or raise an exception.
-/

namespace Loxis.Stdlib

open Loxis.Backend (Fits IntOp)

abbrev Str := List UInt8

/-- The result type of the library. -/
inductive Result (T E : Type*)
  | success (value : T)
  | failure (reason : E)
deriving DecidableEq

/-- Evaluation that may end with an exception. -/
abbrev Eval := Except String

def require (condition : Prop) [Decidable condition] (message : String) : Eval Unit :=
  if condition then .ok () else .error message

/-- The byte of a position, or -1 where there is none. -/
def code : Option UInt8 → ℤ
  | some b => b.toNat
  | none => -1

def strchar (s : Str) (index : ℤ) : ℤ := if 0 ≤ index then code s[index.toNat]? else -1

def strslice (s : Str) (start count : ℤ) : Str :=
  let start := if start < 0 then 0 else start
  let count := if count < 0 then 0 else count
  let start := if start.toNat > s.length then s.length else start.toNat
  let n := if start + count.toNat > s.length then s.length - start else count.toNat
  (s.drop start).take n

/-- One byte, the lowest one of the number. -/
def chr (code : ℤ) : Str := [UInt8.ofNat (code % 256).toNat]

/-- The decimal digits of a number, most significant first. -/
def decimal (n : ℕ) : Str :=
  if n = 0 then [48] else (Nat.digits 10 n).reverse.map (UInt8.ofNat <| 48 + ·)

def i2s (v : ℤ) : Str := if v < 0 then 45 :: decimal v.natAbs else decimal v.natAbs

/-! ## Reading -/

variable {s t : Str} {i n : ℕ} {b : UInt8}

@[simp] theorem strchar_natCast : strchar s i = code s[i]? := by simp [strchar]

theorem strchar_of_drop (h : s.drop i = b :: t) : strchar s i = b.toNat := by
  have : s[i]? = some b := by rw [← Nat.add_zero i, ← List.getElem?_drop, h]; rfl
  rw [strchar_natCast, this, code]

theorem strchar_of_le (h : s.length ≤ i) : strchar s i = -1 := by
  rw [strchar_natCast, List.getElem?_eq_none h, code]

@[simp] theorem strslice_natCast : strslice s i n = (s.drop i).take n := by
  simp only [strslice, Int.toNat_natCast, show ¬ (i : ℤ) < 0 by omega, show ¬ (n : ℤ) < 0 by omega,
    if_false]
  by_cases hi : i > s.length
  · rw [if_pos hi, List.drop_length, List.drop_eq_nil_of_le hi.le, List.take_nil, List.take_nil]
  · rw [if_neg hi]
    split
    · rw [List.take_of_length_le (by simp), List.take_of_length_le (by simp; omega)]
    · rfl

theorem toNat_lt (b : UInt8) : b.toNat < 256 := b.toNat_lt

@[simp] theorem chr_toNat (b : UInt8) : chr b.toNat = [b] := by
  have : ((b.toNat : ℤ) % 256).toNat = b.toNat := by have := toNat_lt b; omega
  rw [chr, this, UInt8.ofNat_toNat]

/-! ## Arithmetic -/

/-- The expression of an opcode on two numbers of the machine; none where its behaviour is
undefined. -/
def eval (op : IntOp) (a b : ℤ) : Option ℤ :=
  (op.expr (BitVec.ofInt 64 a) (BitVec.ofInt 64 b)).map BitVec.toInt

section Arithmetic

variable {a b : ℤ}

theorem bmod_of_fits (h : Fits a) : a.bmod (2 ^ 64) = a := by
  obtain ⟨h₀, h₁⟩ := h
  exact Int.bmod_eq_of_le (by omega) (by omega)

theorem toInt_ofInt (h : Fits a) : (BitVec.ofInt 64 a).toInt = a := by
  rw [BitVec.toInt_ofInt, bmod_of_fits h]

theorem eval_add (ha : Fits a) (hb : Fits b) (h : Fits (a + b)) : eval .add a b = some (a + b) := by
  rw [eval, IntOp.expr, toInt_ofInt ha, toInt_ofInt hb, if_pos h, Option.map_some,
    BitVec.toInt_add, toInt_ofInt ha, toInt_ofInt hb, bmod_of_fits h]

theorem eval_sub (ha : Fits a) (hb : Fits b) (h : Fits (a - b)) : eval .sub a b = some (a - b) := by
  rw [eval, IntOp.expr, toInt_ofInt ha, toInt_ofInt hb, if_pos h, Option.map_some,
    BitVec.toInt_sub, toInt_ofInt ha, toInt_ofInt hb, bmod_of_fits h]

theorem eval_mul (ha : Fits a) (hb : Fits b) (h : Fits (a * b)) : eval .mul a b = some (a * b) := by
  rw [eval, IntOp.expr, toInt_ofInt ha, toInt_ofInt hb, if_pos h, Option.map_some,
    BitVec.toInt_mul, toInt_ofInt ha, toInt_ofInt hb, bmod_of_fits h]

theorem eval_div (ha : Fits a) (hb : Fits b) (h0 : b ≠ 0) (h : Fits (a.tdiv b)) :
    eval .div a b = some (a.tdiv b) := by
  have hb0 : BitVec.ofInt 64 b ≠ 0 := by
    intro he
    rw [← toInt_ofInt hb, he] at h0
    exact h0 rfl
  rw [eval, IntOp.expr, toInt_ofInt ha, toInt_ofInt hb, if_pos ⟨hb0, h⟩, Option.map_some,
    BitVec.toInt_sdiv, toInt_ofInt ha, toInt_ofInt hb, bmod_of_fits h]

theorem eval_rem (ha : Fits a) (hb : Fits b) (h0 : b ≠ 0) (h : Fits (a.tdiv b)) :
    eval .rem a b = some (a.tmod b) := by
  have hb0 : BitVec.ofInt 64 b ≠ 0 := by
    intro he
    rw [← toInt_ofInt hb, he] at h0
    exact h0 rfl
  rw [eval, IntOp.expr, toInt_ofInt ha, toInt_ofInt hb, if_pos ⟨hb0, h⟩, Option.map_some,
    BitVec.toInt_srem, toInt_ofInt ha, toInt_ofInt hb]

theorem natCast_tdiv {m n : ℕ} : (m : ℤ).tdiv n = (m / n : ℕ) := (Int.ofNat_tdiv m n).symm

/-- The remainder of natural numbers. -/
theorem eval_rem_natCast {m n : ℕ} (hm : Fits m) (hn : Fits n) (h0 : n ≠ 0) :
    eval .rem m n = some ((m % n : ℕ) : ℤ) := by
  have hdiv : Fits ((m : ℤ).tdiv n) := by
    rw [natCast_tdiv]
    have hle : ((m / n : ℕ) : ℤ) ≤ m := by exact_mod_cast Nat.div_le_self m n
    exact ⟨le_trans (by decide) (Int.natCast_nonneg (m / n)), hle.trans_lt hm.2⟩
  rw [eval_rem hm hn (by exact_mod_cast h0) hdiv]
  exact congrArg some (Int.ofNat_tmod m n).symm

end Arithmetic

end Loxis.Stdlib

/-! ## Splitting and joining

A string is cut at the occurrences of a separator that the scan finds from left to right;
replacing is joining the parts with the replacement.
-/

namespace Loxis.Stdlib

/-- The scan from a position on. -/
def splitLoop (value separator : Str) (hsep : separator ≠ []) (begin i : ℕ) (out : List Str) :
    List Str :=
  if i + separator.length ≤ value.length then
    if strslice value i separator.length = separator then
      splitLoop value separator hsep (i + separator.length) (i + separator.length)
        (out ++ [strslice value begin (i - begin)])
    else splitLoop value separator hsep begin (i + 1) out
  else out ++ [strslice value begin (value.length - begin)]
termination_by value.length - i
decreasing_by
  · have := List.length_pos_iff.mpr hsep
    omega
  · have := List.length_pos_iff.mpr hsep
    omega

def splitText (value separator : Str) : Eval (List Str) :=
  if hsep : separator ≠ [] then .ok (splitLoop value separator hsep 0 0 [])
  else .error "split separator must not be empty"

def joinLoop (values : List Str) (separator : Str) (i : ℕ) (out : Str) : Str :=
  if h : i < values.length then
    joinLoop values separator (i + 1) ((if i > 0 then out ++ separator else out) ++ values[i])
  else out
termination_by values.length - i

def join (values : List Str) (separator : Str) : Str := joinLoop values separator 0 []

def replace (s needle replacement : Str) : Eval Str := do
  return join (← splitText s needle) replacement

variable {value separator s p out : Str} {values : List Str} {begin i : ℕ}

theorem joinLoop_eq (hi : 0 < i) : joinLoop values separator i out =
    out ++ ((values.drop i).map (separator ++ ·)).flatten := by
  obtain ⟨k, hk⟩ : ∃ k, k = values.length - i := ⟨_, rfl⟩
  induction k generalizing i out with
  | zero => rw [joinLoop, dif_neg (by omega), List.drop_eq_nil_of_le (by omega)]; simp
  | succ k ih =>
    have hlt : i < values.length := by omega
    rw [joinLoop, dif_pos hlt, if_pos hi, ih (Nat.succ_pos i) (by omega),
      List.drop_eq_getElem_cons hlt, List.map_cons, List.flatten_cons]
    simp only [List.append_assoc]

theorem join_eq : join values separator = separator.intercalate values := by
  cases values with
  | nil =>
    rw [join, joinLoop]
    rfl
  | cons x xs =>
    rw [intercalate_cons, join, joinLoop, dif_pos (by simp), joinLoop_eq (Nat.succ_pos 0)]
    rfl

theorem strslice_rest (h : begin ≤ value.length) :
    strslice value begin (value.length - begin) = value.drop begin := by
  rw [← Nat.cast_sub h, strslice_natCast, ← List.length_drop, List.take_length]

/-- The parts are the pieces between the leftmost occurrences from a position on. -/
theorem splitLoop_spec (hsep : separator ≠ []) (hb : begin ≤ i) (hlen : begin ≤ value.length)
    (out : List Str) :
    ∃ os, Leftmost separator value i os ∧
      splitLoop value separator hsep begin i out = out ++ pieces value separator.length begin os := by
  have hpos := List.length_pos_iff.mpr hsep
  obtain ⟨k, hk⟩ : ∃ k, k = value.length - i := ⟨_, rfl⟩
  induction k using Nat.strong_induction_on generalizing i begin out with
  | _ k ih =>
    by_cases hi : i + separator.length ≤ value.length
    · rw [splitLoop, if_pos hi, strslice_natCast]
      by_cases hocc : (value.drop i).take separator.length = separator
      · obtain ⟨os, hos, hloop⟩ := ih _ (by omega) (Nat.le_refl (i + separator.length)) hi
          (out ++ [strslice value begin (i - begin)]) rfl
        refine ⟨i :: os, hos.cons (occurs_iff_take.mpr hocc), ?_⟩
        rw [if_pos hocc, hloop, pieces, ← Nat.cast_sub hb, strslice_natCast, List.append_assoc,
          List.singleton_append]
      · obtain ⟨os, hos, hloop⟩ := ih _ (by omega) (i := i + 1) (by omega) hlen out rfl
        exact ⟨os, hos.skip (occurs_iff_take.not.mpr hocc), by rw [if_neg hocc, hloop]⟩
    · refine ⟨[], .nil fun q hq hocc => ?_, ?_⟩
      · have := hocc.le hsep
        omega
      · rw [splitLoop, if_neg hi, strslice_rest hlen]
        rfl

/-- Cutting and joining are inverse, and replacing is at the leftmost occurrences. -/
theorem split_join_replace :
    (∀ s p : Str, p ≠ [] → ∃ parts os, splitText s p = .ok parts ∧
      (∀ os', Leftmost p s 0 os' ↔ os' = os) ∧ join parts p = s ∧ parts.length = 1 + os.length ∧
      (∀ part ∈ parts, ∀ q, ¬ Occurs p part q) ∧
      ∀ r, replace s p r = .ok (splice s p.length r 0 os)) ∧
    ∀ (xs : List Str) (p : Str), xs ≠ [] → p ≠ [] →
      (∀ q, Occurs p (join xs p) q → q ∈ joints p.length 0 xs) →
      splitText (join xs p) p = .ok xs := by
  refine ⟨fun s p hp => ?_, fun xs p hxs hp hocc => ?_⟩
  · obtain ⟨os, hos, hloop⟩ := splitLoop_spec hp (Nat.le_refl 0) (Nat.zero_le s.length) []
    have hsplit : splitText s p = .ok (pieces s p.length 0 os) := by
      rw [splitText, dif_pos hp, hloop, List.nil_append]
    refine ⟨_, os, hsplit, fun os' => ⟨hos.unique, fun h => h ▸ hos⟩, ?_, length_pieces,
      not_occurs_piece hp hos, fun r => ?_⟩
    · rw [join_eq, intercalate_pieces, splice_self hos, List.drop_zero]
    · rw [replace, hsplit, ← intercalate_pieces, ← join_eq]
      rfl
  · obtain ⟨x, xs', rfl⟩ := List.exists_cons_of_ne_nil hxs
    obtain ⟨os, hos, hloop⟩ := splitLoop_spec hp (Nat.le_refl 0)
      (Nat.zero_le (join (x :: xs') p).length) []
    obtain ⟨hall, hpair, hpieces⟩ := joints_spec
      (show (join (x :: xs') p).drop 0 = p.intercalate (x :: xs') by rw [join_eq, List.drop_zero])
    have hpos := List.length_pos_iff.mpr hp
    have hjoints : Leftmost p (join (x :: xs') p) 0 (joints p.length 0 (x :: xs')) :=
      ⟨fun o ho => (hall o ho).1, fun o ho => (hall o ho).2, hpair,
        fun q _ hq => ⟨q, hocc q hq, Nat.le_refl q, by omega⟩⟩
    rw [splitText, dif_pos hp, hloop, List.nil_append, ← hos.unique hjoints, hpieces]

end Loxis.Stdlib
