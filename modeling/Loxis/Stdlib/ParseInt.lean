import Loxis.Stdlib.Str
import Mathlib.Data.Nat.Digits.Lemmas

/-! # Decimal text

Integers are read from text and written as text. The reader accumulates the negative of the
number, since there is one more negative number than positive ones, and compares with the
limit before every multiplication and subtraction.
-/

namespace Loxis.Stdlib

open Loxis.Backend (Fits)

/-- The loop over the digits; none where an expression has no value. -/
def digitsLoop (value : Str) (limit threshold : ℤ) (i : ℕ) (total : ℤ) :
    Option (Result ℤ String) :=
  if i < value.length then do
    let digit ← eval .sub (strchar value i) 48
    if digit < 0 ∨ digit > 9 then return .failure "invalid digit"
    if total < threshold then return .failure "integer overflow"
    let total ← eval .mul total 10
    let bound ← eval .add limit digit
    if total < bound then return .failure "integer overflow"
    let total ← eval .sub total digit
    let _ ← eval .add i 1
    digitsLoop value limit threshold (i + 1) total
  else return .success total
termination_by value.length - i

def tryParseInt (value : Str) : Option (Result ℤ String) := do
  let n := value.length
  if n = 0 then return .failure "empty integer"
  let first := strchar value (0 : ℕ)
  let negative := first == 45
  let i := if first = 45 ∨ first = 43 then 1 else 0
  if i = n then return .failure "missing digits"
  let limit ← eval .sub 0 9223372036854775807
  let limit ← (if negative then eval .sub limit 1 else some limit)
  let threshold ← eval .div limit 10
  match ← digitsLoop value limit threshold i 0 with
  | .failure reason => return .failure reason
  | .success total =>
    if negative then return .success total
    return .success (← eval .sub 0 total)

/-! ## Numerals -/

/-- A string that the machine can hold. -/
structure Text where
  bytes : Str
  fits : Fits bytes.length

inductive Sign
  | none | plus | minus
deriving DecidableEq

namespace Sign

def text : Sign → Str
  | none => []
  | plus => [43]
  | minus => [45]

/-- The number with the sign. -/
def apply (n : ℕ) : Sign → ℤ
  | minus => -n
  | _ => n

/-- The greatest number that can have the sign. -/
def most : Sign → ℕ
  | minus => 2 ^ 63
  | _ => 2 ^ 63 - 1

end Sign

def digitByte (d : ℕ) : UInt8 := UInt8.ofNat (48 + d)

/-- A sign or none and one or more digits, the most significant one first. -/
def IsNumeral (s : Str) (v : ℤ) : Prop :=
  ∃ (sign : Sign) (digits : List ℕ), digits ≠ [] ∧ (∀ d ∈ digits, d < 10) ∧
    s = sign.text ++ digits.map digitByte ∧ v = sign.apply (Nat.ofDigits 10 digits.reverse)

/-- The number that digits denote after the number of the digits before them. -/
def horner (n : ℕ) (digits : List ℕ) : ℕ := digits.foldl (fun a d => a * 10 + d) n

theorem horner_zero (ds : List ℕ) : horner 0 ds = Nat.ofDigits 10 ds.reverse := by
  rw [Nat.ofDigits_eq_foldr, List.foldr_reverse, horner]
  congr 1
  funext a d
  simp only [Nat.cast_id]
  ring

theorem horner_cons {n d : ℕ} {ds : List ℕ} : horner n (d :: ds) = horner (n * 10 + d) ds := rfl

theorem le_horner {n : ℕ} (ds : List ℕ) : n ≤ horner n ds := by
  induction ds generalizing n with
  | nil => exact Nat.le_refl n
  | cons d ds ih => exact Nat.le_trans (by omega) (ih (n := n * 10 + d))

theorem digitByte_toNat {d : ℕ} (hd : d < 10) : (digitByte d).toNat = 48 + d := by
  rw [digitByte, UInt8.toNat_ofNat']
  omega

theorem eq_digitByte {b : UInt8} (h : 48 ≤ b.toNat) : digitByte (b.toNat - 48) = b := by
  rw [digitByte, Nat.add_sub_cancel' h, UInt8.ofNat_toNat]

/-- The digits that text is made of. -/
def IsDigits (s : Str) (ds : List ℕ) : Prop := (∀ d ∈ ds, d < 10) ∧ s = ds.map digitByte

theorem isDigits_nil {ds : List ℕ} : IsDigits [] ds ↔ ds = [] := by
  constructor
  · rintro ⟨-, h⟩
    exact List.map_eq_nil_iff.mp h.symm
  · rintro rfl
    exact ⟨by simp, rfl⟩

theorem isDigits_cons {b : UInt8} {s : Str} {ds : List ℕ} : IsDigits (b :: s) ds ↔
    48 ≤ b.toNat ∧ b.toNat ≤ 57 ∧ ∃ ds', ds = (b.toNat - 48) :: ds' ∧ IsDigits s ds' := by
  constructor
  · rintro ⟨hds, h⟩
    obtain - | ⟨d, ds'⟩ := ds
    · cases h
    · obtain ⟨hb, hs⟩ := List.cons.inj h
      have hd := hds d List.mem_cons_self
      have hn : b.toNat = 48 + d := by rw [hb, digitByte_toNat hd]
      exact ⟨by omega, by omega, ds', by rw [hn, Nat.add_sub_cancel_left],
        fun e he => hds e (List.mem_cons_of_mem d he), hs⟩
  · rintro ⟨h₀, h₉, ds', rfl, hds, rfl⟩
    refine ⟨fun e he => ?_, ?_⟩
    · rcases List.mem_cons.mp he with rfl | he
      · omega
      · exact hds e he
    · rw [List.map_cons, eq_digitByte h₀]

/-! ## Reading -/

section Reading

variable {value : Str} {m n i : ℕ} {r : Result ℤ String}

/-- The digits from a position on are read up to a limit. -/
def Reads (value : Str) (m n i : ℕ) (r : Result ℤ String) : Prop :=
  ∀ v, r = .success v ↔
    ∃ ds, IsDigits (value.drop i) ds ∧ horner n ds ≤ m ∧ v = -(horner n ds : ℤ)

theorem reads_failure {reason : String} (h : ∀ ds, IsDigits (value.drop i) ds → m < horner n ds) :
    Reads value m n i (.failure reason) := by
  intro v
  constructor
  · rintro ⟨⟩
  · rintro ⟨ds, hds, hle, -⟩
    exact absurd hle (Nat.not_le.mpr (h ds hds))

theorem reads_end (hi : value.length ≤ i) (hn : n ≤ m) : Reads value m n i (.success (-(n : ℤ))) := by
  intro v
  rw [List.drop_eq_nil_of_le hi]
  simp only [isDigits_nil, exists_eq_left, Result.success.injEq]
  exact ⟨fun h => ⟨hn, h.symm⟩, fun h => h.2.symm⟩

theorem reads_step {d : ℕ} {b : UInt8} {rest : Str} (hrest : value.drop i = b :: rest)
    (hb : b.toNat = 48 + d) (hd : d < 10) (h : Reads value m (n * 10 + d) (i + 1) r) :
    Reads value m n i r := by
  have hnext : value.drop (i + 1) = rest := by rw [← List.tail_drop, hrest, List.tail_cons]
  intro v
  rw [h v, hrest, hnext]
  simp only [isDigits_cons]
  constructor
  · rintro ⟨ds, hds, hle, rfl⟩
    exact ⟨d :: ds, ⟨by omega, by omega, ds, by rw [hb, Nat.add_sub_cancel_left], hds⟩, hle, rfl⟩
  · rintro ⟨_, ⟨-, -, ds, rfl, hds⟩, hle, rfl⟩
    rw [hb, Nat.add_sub_cancel_left] at *
    exact ⟨ds, hds, hle, rfl⟩

/-- The loop ends without an expression that has no value. -/
theorem digitsLoop_spec (hfit : Fits value.length) (hm : m ≤ 2 ^ 63) (hn : n ≤ m) :
    ∃ r, digitsLoop value (-m) ((-m : ℤ).tdiv 10) i (-n) = some r ∧ Reads value m n i r := by
  have hthreshold : (-m : ℤ).tdiv 10 = -((m / 10 : ℕ) : ℤ) := by
    rw [Int.neg_tdiv, Int.tdiv_eq_ediv_of_nonneg (by omega)]
    omega
  rw [hthreshold]
  obtain ⟨k, hk⟩ : ∃ k, k = value.length - i := ⟨_, rfl⟩
  induction k generalizing i n with
  | zero =>
    rw [digitsLoop, if_neg (by omega)]
    exact ⟨_, rfl, reads_end (by omega) hn⟩
  | succ k ih =>
    obtain ⟨b, rest, hrest⟩ : ∃ b rest, value.drop i = b :: rest :=
      List.exists_cons_of_length_pos (by rw [List.length_drop]; omega)
    have hb := toNat_lt b
    have hdigit : eval .sub (strchar value i) 48 = some ((b.toNat : ℤ) - 48) := by
      rw [strchar_of_drop hrest]
      exact eval_sub (by unfold Fits; omega) (by decide) (by unfold Fits; omega)
    rw [digitsLoop, if_pos (by omega), hdigit]
    simp only [Option.bind_eq_bind, Option.bind_some, Option.pure_def]
    split_ifs with hrange hlow
    · refine ⟨_, rfl, reads_failure fun ds hds => ?_⟩
      rw [hrest, isDigits_cons] at hds
      omega
    · refine ⟨_, rfl, reads_failure fun ds hds => ?_⟩
      rw [hrest, isDigits_cons] at hds
      obtain ⟨-, -, ds', rfl, -⟩ := hds
      have := le_horner (n := n * 10 + (b.toNat - 48)) ds'
      rw [horner_cons]
      omega
    · obtain ⟨d, hd⟩ : ∃ d : ℕ, b.toNat = 48 + d := ⟨b.toNat - 48, by omega⟩
      rw [hd, eval_mul (by unfold Fits; omega) (by decide) (by unfold Fits; omega),
        Option.bind_some, eval_add (by unfold Fits; omega) (by unfold Fits; omega)
        (by unfold Fits; omega), Option.bind_some]
      split_ifs with hbound
      · refine ⟨_, rfl, reads_failure fun ds hds => ?_⟩
        rw [hrest, isDigits_cons] at hds
        obtain ⟨-, -, ds', rfl, -⟩ := hds
        have := le_horner (n := n * 10 + (b.toNat - 48)) ds'
        rw [horner_cons]
        omega
      · rw [eval_sub (by unfold Fits; omega) (by unfold Fits; omega) (by unfold Fits; omega),
          Option.bind_some, eval_add (by unfold Fits at *; omega) (by decide)
          (by unfold Fits at *; omega), Option.bind_some,
          show (-(n : ℤ) * 10 - (((48 + d : ℕ) : ℤ) - 48)) = -((n * 10 + d : ℕ) : ℤ) by push_cast; ring]
        obtain ⟨r, hr, hreads⟩ := ih (n := n * 10 + d) (i := i + 1) (by omega) (by omega)
        exact ⟨r, hr, reads_step hrest hd (by omega) hreads⟩

end Reading

/-! ## Signs -/

section Signs

variable {s : Str} {v : ℤ}

/-- The sign at the start of a text. -/
def signOf (s : Str) : Sign :=
  if strchar s (0 : ℕ) = 45 then .minus else if strchar s (0 : ℕ) = 43 then .plus else .none

theorem code_eq_iff {o : Option UInt8} {b : UInt8} : code o = b.toNat ↔ o = some b := by
  cases o with
  | none => simp only [code, reduceCtorEq]
  | some c => simp only [code, Nat.cast_inj, UInt8.toNat_inj, Option.some.injEq]

theorem strchar_zero_eq_iff {b : UInt8} : strchar s (0 : ℕ) = b.toNat ↔ ∃ t, s = b :: t := by
  rw [strchar_natCast, code_eq_iff]
  cases s <;> simp [eq_comm]

theorem signOf_append {sign : Sign} {ds : List ℕ} (hds : ∀ d ∈ ds, d < 10) (hne : ds ≠ []) :
    signOf (sign.text ++ ds.map digitByte) = sign := by
  obtain ⟨d, ds', rfl⟩ := List.exists_cons_of_ne_nil hne
  have hd := hds d List.mem_cons_self
  cases sign with
  | minus => rfl
  | plus => rfl
  | none =>
    have hfirst : strchar ((d :: ds').map digitByte) (0 : ℕ) = 48 + d := by
      rw [List.map_cons, strchar_of_drop List.drop_zero, digitByte_toNat hd]
      rfl
    rw [Sign.text, List.nil_append, signOf, if_neg (by rw [hfirst]; omega),
      if_neg (by rw [hfirst]; omega)]

theorem signOf_text : ∃ t, s = (signOf s).text ++ t := by
  unfold signOf
  split
  · next h => exact (strchar_zero_eq_iff (b := 45)).mp h
  · split
    · next h => exact (strchar_zero_eq_iff (b := 43)).mp h
    · exact ⟨s, rfl⟩

/-- A numeral is the sign at its start and the digits after it. -/
theorem isNumeral_iff : IsNumeral s v ↔ ∃ ds, ds ≠ [] ∧
    IsDigits (s.drop (signOf s).text.length) ds ∧ v = (signOf s).apply (horner 0 ds) := by
  constructor
  · rintro ⟨sign, ds, hne, hds, rfl, rfl⟩
    rw [signOf_append hds hne, List.drop_left]
    exact ⟨ds, hne, ⟨hds, rfl⟩, by rw [horner_zero]⟩
  · rintro ⟨ds, hne, ⟨hds, hs⟩, rfl⟩
    refine ⟨signOf s, ds, hne, hds, ?_, by rw [horner_zero]⟩
    obtain ⟨t, ht⟩ := signOf_text (s := s)
    have hdrop : s.drop (signOf s).text.length = t :=
      (congrArg (List.drop _) ht).trans List.drop_left
    rw [← hs, hdrop, ← ht]

theorem fits_apply {sign : Sign} {k : ℕ} : Fits (sign.apply k) ↔ k ≤ sign.most := by
  cases sign <;> simp only [Sign.apply, Sign.most, Fits] <;> omega

end Signs

/-! ## The parser -/

section Parser

variable {s : Str}

/-- What the parser computes from the sign. -/
theorem signOf_spec (s : Str) :
    (if strchar s (0 : ℕ) = 45 ∨ strchar s (0 : ℕ) = 43 then 1 else 0) = (signOf s).text.length ∧
    (strchar s (0 : ℕ) == 45) = decide (signOf s = .minus) ∧
    (if signOf s = .minus then eval .sub (-9223372036854775807) 1
      else some (-9223372036854775807)) = some (-((signOf s).most : ℤ)) ∧
    eval .div (-(signOf s).most) 10 = some ((-(signOf s).most : ℤ).tdiv 10) := by
  have hmin : eval .sub (-9223372036854775807) 1 = some (-9223372036854775808) :=
    eval_sub (by decide) (by decide) (by decide)
  have hdiv (k : ℤ) (hk : k = 9223372036854775807 ∨ k = 9223372036854775808) :
      eval .div (-k) 10 = some ((-k).tdiv 10) := by
    rcases hk with rfl | rfl <;> exact eval_div (by decide) (by decide) (by decide) (by decide)
  unfold signOf
  by_cases h45 : strchar s (0 : ℕ) = 45
  · simp only [h45, true_or, if_true]
    exact ⟨rfl, rfl, hmin, hdiv _ (.inr rfl)⟩
  · have hneg : (strchar s (0 : ℕ) == 45) = false := by simpa using h45
    simp only [h45, hneg, false_or, if_false]
    split <;> exact ⟨rfl, rfl, rfl, hdiv _ (.inl rfl)⟩

/-- What the parser does after the digits. -/
theorem tryParseInt_eq (hs : s ≠ []) (hi : (signOf s).text.length ≠ s.length) :
    tryParseInt s = (digitsLoop s (-(signOf s).most) ((-(signOf s).most : ℤ).tdiv 10)
      (signOf s).text.length 0).bind fun
        | .failure reason => some (.failure reason)
        | .success total => if signOf s = .minus then some (.success total)
          else (eval .sub 0 total).bind fun v => some (.success v) := by
  have hn : s.length ≠ 0 := by simpa using hs
  have hsub : eval .sub 0 9223372036854775807 = some (-9223372036854775807) :=
    eval_sub (by decide) (by decide) (by decide)
  obtain ⟨hstart, hneg, hlimit, hdiv⟩ := signOf_spec s
  unfold tryParseInt
  simp only [hn, if_false, hstart, hneg, hi, hsub, Option.bind_eq_bind, Option.bind_some,
    decide_eq_true_eq, hlimit, hdiv]
  rfl

/-- The parser reads exactly the numerals of the machine's numbers. -/
theorem tryParseInt_spec (hfit : Fits s.length) :
    ∃ r, tryParseInt s = some r ∧ ∀ v, r = .success v ↔ IsNumeral s v ∧ Fits v := by
  have hnone {reason : String} (h : ∀ ds, ds ≠ [] →
      ¬ IsDigits (s.drop (signOf s).text.length) ds) (v : ℤ) :
      Result.failure reason = .success v ↔ IsNumeral s v ∧ Fits v := by
    rw [isNumeral_iff]
    constructor
    · rintro ⟨⟩
    · rintro ⟨⟨ds, hne, hds, -⟩, -⟩
      exact absurd hds (h ds hne)
  by_cases hs : s = []
  · subst hs
    exact ⟨.failure "empty integer", rfl, hnone fun ds hne hds => hne (isDigits_nil.mp hds)⟩
  by_cases hi : (signOf s).text.length = s.length
  · refine ⟨.failure "missing digits", ?_, hnone fun ds hne hds => hne ?_⟩
    · have hn : s.length ≠ 0 := by simpa using hs
      obtain ⟨hstart, -⟩ := signOf_spec s
      unfold tryParseInt
      simp only [hn, if_false, hstart, hi, if_true]
      rfl
    · rw [hi, List.drop_length, isDigits_nil] at hds
      exact hds
  obtain ⟨r, hr, hreads⟩ := digitsLoop_spec (m := (signOf s).most) (n := 0)
    (i := (signOf s).text.length) hfit (by cases signOf s <;> decide) (Nat.zero_le _)
  rw [tryParseInt_eq hs hi, show (0 : ℤ) = -((0 : ℕ) : ℤ) from rfl, hr, Option.bind_some]
  cases r with
  | failure reason =>
    refine ⟨_, rfl, fun v => ⟨nofun, ?_⟩⟩
    rw [isNumeral_iff]
    rintro ⟨⟨ds, hne, hds, rfl⟩, hv⟩
    cases (hreads _).mpr ⟨ds, hds, fits_apply.mp hv, rfl⟩
  | success total =>
    obtain ⟨ds, hds, hle, rfl⟩ := (hreads total).mp rfl
    have hfits := fits_apply.mpr hle
    have hend : (if signOf s = .minus then some (.success (-(horner 0 ds : ℤ)))
        else (eval .sub 0 (-(horner 0 ds : ℤ))).bind fun v => some (.success v)) =
        some (Result.success (E := String) ((signOf s).apply (horner 0 ds))) := by
      cases hsign : signOf s with
      | minus => rfl
      | plus | none =>
        rw [hsign] at hfits hle
        simp only [Sign.most] at hle
        rw [if_neg (by decide), eval_sub (by decide) (by unfold Fits; omega)
          (by unfold Fits; omega), Option.bind_some, zero_sub, neg_neg]
        rfl
    refine ⟨_, hend, fun v => ?_⟩
    rw [isNumeral_iff, Result.success.injEq]
    constructor
    · rintro rfl
      refine ⟨⟨ds, ?_, hds, rfl⟩, hfits⟩
      rintro rfl
      have hlen := congrArg List.length hds.2
      obtain ⟨t, ht⟩ := signOf_text (s := s)
      have := congrArg List.length ht
      simp only [List.length_drop, List.length_map, List.length_nil, List.length_append] at hlen this
      omega
    · rintro ⟨⟨ds', -, hds', rfl⟩, hv⟩
      have hsame := (hreads _).mpr ⟨ds', hds', fits_apply.mp hv, rfl⟩
      rw [Result.success.injEq, neg_inj, Nat.cast_inj] at hsame
      rw [hsame]

/-! ## Text of numbers -/

end Parser

/-- The digits that the machine writes. -/
def digitsOf (n : ℕ) : List ℕ := if n = 0 then [0] else (Nat.digits 10 n).reverse

theorem decimal_eq (n : ℕ) : decimal n = (digitsOf n).map digitByte := by
  unfold decimal digitsOf
  split <;> rfl

theorem digitsOf_spec (n : ℕ) : digitsOf n ≠ [] ∧ (∀ d ∈ digitsOf n, d < 10) ∧
    Nat.ofDigits 10 (digitsOf n).reverse = n := by
  unfold digitsOf
  split
  · next h => exact ⟨List.cons_ne_nil 0 [], by simp, by simp [h]⟩
  · next h =>
    refine ⟨by simpa [Nat.digits_eq_nil_iff_eq_zero] using h, fun d hd => ?_, ?_⟩
    · exact Nat.digits_lt_base (by decide) (List.mem_reverse.mp hd)
    · rw [List.reverse_reverse, Nat.ofDigits_digits]

theorem isNumeral_i2s (v : ℤ) : IsNumeral (i2s v) v := by
  obtain ⟨hne, hds, hvalue⟩ := digitsOf_spec v.natAbs
  unfold i2s
  split
  · refine ⟨.minus, _, hne, hds, by rw [decimal_eq]; rfl, ?_⟩
    rw [hvalue, Sign.apply]
    omega
  · refine ⟨.none, _, hne, hds, by rw [decimal_eq]; rfl, ?_⟩
    rw [hvalue, Sign.apply]
    · omega
    · nofun

theorem length_decimal_le {n : ℕ} (h : n < 10 ^ 19) : (decimal n).length ≤ 19 := by
  unfold decimal
  split
  · decide
  · rw [List.length_map, List.length_reverse]
    exact (Nat.digits_length_le_iff (by decide) n).mpr h

theorem fits_length_i2s (v : BitVec 64) : Fits (i2s v.toInt).length := by
  have hlt : v.toInt.natAbs < 10 ^ 19 := by
    have h₀ := v.le_toInt
    have h₁ := v.toInt_lt
    omega
  have := length_decimal_le hlt
  unfold i2s Fits
  split
  · rw [List.length_cons]
    omega
  · omega

/-- Reading text is exact, and reading what was written gives the number back. -/
theorem toIntResult_exact :
    (∀ s : Text, ∃ r, tryParseInt s.bytes = some r ∧
      ∀ v, r = .success v ↔ IsNumeral s.bytes v ∧ Fits v) ∧
    ∀ v : BitVec 64, tryParseInt (i2s v.toInt) = some (.success v.toInt) := by
  refine ⟨fun s => tryParseInt_spec s.fits, fun v => ?_⟩
  obtain ⟨r, hr, hspec⟩ := tryParseInt_spec (fits_length_i2s v)
  rw [hr, (hspec v.toInt).mpr ⟨isNumeral_i2s _, by simpa using v.le_toInt, by simpa using v.toInt_lt⟩]

end Loxis.Stdlib
