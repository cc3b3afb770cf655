import Mathlib.Algebra.Order.Ring.Abs
import Mathlib.Tactic.Linarith
import Mathlib.Tactic.Positivity
import Loxis.Stdlib.Str

/-! # Integer powers

Powers by squaring. Each product is compared with the limits of the machine's integers before it
is computed, by a division that rounds towards zero.
-/

namespace Loxis.Stdlib

open Loxis.Backend (Fits IntOp)

namespace PowInt

/-- Evaluation that may end with an exception; none where an expression has no value. -/
abbrev Exec := ExceptT String Option

def arith (op : IntOp) (a b : ℤ) : Exec ℤ := ExceptT.mk ((eval op a b).map .ok)

def require (condition : Prop) [Decidable condition] (message : String) : Exec Unit :=
  if condition then pure () else throw message

/-- `result *= factor`, behind the four comparisons of its signs. -/
def multiply (result factor : ℤ) : Exec ℤ := do
  if 0 < result then
    if 0 < factor then
      require (result ≤ (← arith .div 9223372036854775807 factor)) "integer multiplication overflow"
    if factor < 0 then
      let low ← arith .sub (← arith .sub 0 9223372036854775807) 1
      require ((← arith .div low result) ≤ factor) "integer multiplication overflow"
  else if result < 0 then
    if 0 < factor then
      let low ← arith .sub (← arith .sub 0 9223372036854775807) 1
      require ((← arith .div low factor) ≤ result) "integer multiplication overflow"
    if factor < 0 then
      require ((← arith .div 9223372036854775807 factor) ≤ result) "integer multiplication overflow"
  arith .mul result factor

/-- `factor *= factor`. -/
def square (factor : ℤ) : Exec ℤ := do
  if 0 < factor then
    require (factor ≤ (← arith .div 9223372036854775807 factor)) "integer multiplication overflow"
  if factor < 0 then
    require ((← arith .div 9223372036854775807 factor) ≤ factor) "integer multiplication overflow"
  arith .mul factor factor

def loop (result factor : ℤ) (remaining : ℕ) : Exec ℤ :=
  if 0 < remaining then do
    let bit ← arith .rem remaining 2
    let result ← if bit = 1 then multiply result factor else pure result
    let _ ← arith .div remaining 2
    let factor ← if 0 < remaining / 2 then square factor else pure factor
    loop result factor (remaining / 2)
  else pure result
termination_by remaining

end PowInt

open PowInt in
def powInt (base exponent : ℤ) : Exec ℤ := do
  PowInt.require (0 ≤ exponent) "negative integer exponent"
  loop 1 base exponent.toNat

namespace PowInt

variable {a b q : ℤ} {n : ℕ}

/-- A value that the machine can hold, or the exception. -/
def checked (v : ℤ) : Exec ℤ :=
  if Fits v then pure v else throw "integer multiplication overflow"

theorem arith_of_eval {op : IntOp} {v : ℤ} (h : eval op a b = some v) : arith op a b = pure v := by
  unfold arith
  rw [h]
  rfl

/-! ## Comparisons that divide -/

theorem le_tdiv_iff (hq : 0 ≤ q) (hb : 0 < b) : a ≤ q.tdiv b ↔ a * b ≤ q := by
  rw [Int.tdiv_eq_ediv_of_nonneg hq, Int.le_ediv_iff_mul_le hb]

theorem neg_tdiv_le_iff (hq : 0 ≤ q) (hb : 0 < b) : (-q).tdiv b ≤ a ↔ -q ≤ a * b := by
  rw [Int.neg_tdiv, neg_le, le_tdiv_iff hq hb, neg_mul, neg_le]

theorem tdiv_le_iff (hq : 0 ≤ q) (hb : b < 0) : q.tdiv b ≤ a ↔ a * b ≤ q := by
  rw [← neg_neg b, Int.tdiv_neg, neg_le, le_tdiv_iff hq (neg_pos.mpr hb), neg_mul_neg, neg_neg]

theorem arith_div_high (hb : Fits b) (h0 : b ≠ 0) :
    arith .div 9223372036854775807 b = pure (Int.tdiv 9223372036854775807 b) := by
  refine arith_of_eval (eval_div (by decide) hb h0 ?_)
  have hle := Int.natAbs_tdiv_le_natAbs 9223372036854775807 b
  unfold Fits
  omega

theorem arith_div_low (hb : Fits b) (h0 : 0 < b) :
    arith .div (-2 ^ 63) b = pure (Int.tdiv (-2 ^ 63) b) := by
  refine arith_of_eval (eval_div (by decide) hb h0.ne' ?_)
  have hle := Int.natAbs_tdiv_le_natAbs (-2 ^ 63) b
  have hneg : (-2 ^ 63 : ℤ).tdiv b ≤ 0 := (neg_tdiv_le_iff (by decide) h0).mpr (by omega)
  unfold Fits
  omega

theorem arith_low : arith .sub 0 9223372036854775807 = pure (-9223372036854775807) :=
  arith_of_eval (by decide)

theorem arith_low' : arith .sub (-9223372036854775807) 1 = pure (-2 ^ 63) :=
  arith_of_eval (by decide)

/-- A comparison that decides whether a product fits, and the product. -/
theorem require_mul (ha : Fits a) (hb : Fits b) {P : Prop} [Decidable P] (hP : P ↔ Fits (a * b)) :
    (require P "integer multiplication overflow" >>= fun _ => arith .mul a b) =
      checked (a * b) := by
  unfold require checked
  by_cases h : Fits (a * b)
  · rw [if_pos (hP.mpr h), if_pos h, pure_bind, arith_of_eval (eval_mul ha hb h)]
  · rw [if_neg (mt hP.mp h), if_neg h]
    rfl

theorem le_iff_fits (h : 0 ≤ a * b) : a * b ≤ 9223372036854775807 ↔ Fits (a * b) := by
  unfold Fits
  omega

theorem ge_iff_fits (h : a * b ≤ 0) : -2 ^ 63 ≤ a * b ↔ Fits (a * b) := by
  unfold Fits
  omega

theorem multiply_eq (ha : Fits a) (hb : Fits b) : multiply a b = checked (a * b) := by
  have hab := @require_mul a b ha hb
  have hzero : ∀ {a b : ℤ}, Fits a → Fits b → a * b = 0 →
      arith .mul a b = checked (a * b) := by
    intro a b ha hb h0
    have hfits : Fits (a * b) := by
      rw [h0]
      decide
    rw [arith_of_eval (eval_mul ha hb hfits), checked, if_pos hfits]
  unfold multiply
  rcases lt_trichotomy a 0 with ha0 | rfl | ha0
  · rcases lt_trichotomy b 0 with hb0 | rfl | hb0
    · simp only [ha0, hb0, ha0.not_gt, hb0.not_gt, if_true, if_false, pure_bind,
        arith_div_high hb hb0.ne]
      have hpos := (mul_pos_of_neg_of_neg ha0 hb0).le
      exact hab ((tdiv_le_iff (by decide) hb0).trans (le_iff_fits hpos))
    · simp only [ha0, ha0.not_gt, lt_irrefl, if_true, if_false]
      exact hzero ha hb (mul_zero a)
    · simp only [ha0, hb0, ha0.not_gt, hb0.not_gt, if_true, if_false, pure_bind, arith_low,
        arith_low', arith_div_low hb hb0]
      exact hab ((neg_tdiv_le_iff (by decide) hb0).trans
        (ge_iff_fits (mul_neg_of_neg_of_pos ha0 hb0).le))
  · simp only [lt_irrefl, if_false]
    exact hzero ha hb (zero_mul b)
  · rcases lt_trichotomy b 0 with hb0 | rfl | hb0
    · simp only [ha0, hb0, hb0.not_gt, if_true, if_false, pure_bind, arith_low, arith_low',
        arith_div_low ha ha0]
      refine hab ((neg_tdiv_le_iff (by decide) ha0).trans ?_)
      rw [mul_comm b a]
      exact ge_iff_fits (mul_neg_of_pos_of_neg ha0 hb0).le
    · simp only [ha0, lt_irrefl, if_true, if_false]
      exact hzero ha hb (mul_zero a)
    · simp only [ha0, hb0, hb0.not_gt, if_true, if_false, pure_bind, arith_div_high hb hb0.ne']
      exact hab ((le_tdiv_iff (by decide) hb0).trans (le_iff_fits (mul_pos ha0 hb0).le))

theorem square_eq (ha : Fits a) : square a = checked (a * a) := by
  have haa := @require_mul a a ha ha
  unfold square
  rcases lt_trichotomy a 0 with ha0 | rfl | ha0
  · simp only [ha0, ha0.not_gt, if_true, if_false, pure_bind, arith_div_high ha ha0.ne]
    exact haa ((tdiv_le_iff (by decide) ha0).trans (le_iff_fits (mul_self_nonneg a)))
  · rfl
  · simp only [ha0, ha0.not_gt, if_true, if_false, pure_bind, arith_div_high ha ha0.ne']
    exact haa ((le_tdiv_iff (by decide) ha0).trans (le_iff_fits (mul_self_nonneg a)))

/-! ## Powers -/

/-- A product that does not fit is not made to fit by further factors. -/
theorem not_fits_mul (h : ¬ Fits a) (hq : 0 < q) : ¬ Fits (a * q) := by
  unfold Fits at h ⊢
  rintro ⟨h₀, h₁⟩
  refine h ⟨?_, ?_⟩
  · nlinarith
  · nlinarith

/-- Nor is a square that does not fit: no square is the absolute value of the least integer. -/
theorem not_fits_mul_square (h : ¬ Fits (b * b)) (ha : a ≠ 0) (hq : 0 < q) :
    ¬ Fits (a * (b * b * q)) := by
  have hsq : (2 : ℤ) ^ 63 < b * b := by
    have hle : (2 : ℤ) ^ 63 ≤ b * b := by
      have := mul_self_nonneg b
      unfold Fits at h
      omega
    refine lt_of_le_of_ne hle fun heq => ?_
    rw [← Int.natAbs_mul_self' b] at heq
    have hnat : 2 ^ 63 = b.natAbs * b.natAbs := by exact_mod_cast heq
    rcases Nat.lt_or_ge b.natAbs 3037000500 with hlt | hge
    · have := Nat.mul_self_le_mul_self (Nat.le_of_lt_succ hlt)
      omega
    · have := Nat.mul_self_le_mul_self hge
      omega
  have hbig : (2 : ℤ) ^ 63 < |a * (b * b * q)| := by
    rw [abs_mul]
    have h1 : 1 ≤ |a| := Int.one_le_abs ha
    have h2 : b * b ≤ |b * b * q| := by
      rw [abs_of_nonneg (by positivity)]
      nlinarith
    nlinarith
  rintro ⟨h₀, h₁⟩
  rcases abs_cases (a * (b * b * q)) with ⟨h, -⟩ | ⟨h, -⟩ <;> omega

theorem fits_half (hn : Fits n) : Fits ((n / 2 : ℕ) : ℤ) := by
  unfold Fits at hn ⊢
  omega

theorem arith_half (hn : Fits n) : arith .div n 2 = pure ((n / 2 : ℕ) : ℤ) :=
  arith_of_eval ((eval_div hn (by decide) (by decide) (natCast_tdiv ▸ fits_half hn)).trans
    (congrArg some natCast_tdiv))

theorem arith_rem (hn : Fits n) : arith .rem n 2 = pure ((n % 2 : ℕ) : ℤ) :=
  arith_of_eval (eval_rem_natCast hn (by decide) (by decide))

/-- The powers that are left are computed, or the exception is raised. The result so far is not a
zero that hides a factor. -/
theorem loop_eq (ha : Fits a) (hb : Fits b) (h0 : a = 0 → b = 0) (hn : Fits n) :
    loop a b n = checked (a * b ^ n) := by
  induction n using Nat.strong_induction_on generalizing a b with
  | _ n ih =>
    rw [loop]
    split
    · next hpos =>
      have hrest : ∀ {a}, Fits a → (a = 0 → b = 0) →
          (if 0 < n / 2 then square b >>= fun b => loop a b (n / 2) else loop a b (n / 2)) =
            checked (a * (b * b) ^ (n / 2)) := by
        intro a ha h0
        split
        · next hhalf =>
          rw [square_eq hb]
          by_cases hsq : Fits (b * b)
          · rw [checked, if_pos hsq, pure_bind]
            refine ih (n / 2) (by omega) ha hsq (fun h => ?_) (fits_half hn)
            rw [h0 h, mul_zero]
          · have hb0 : b ≠ 0 := by
              rintro rfl
              exact hsq (by decide)
            obtain ⟨k, hk⟩ := Nat.exists_eq_add_of_lt hhalf
            have hnot : ¬ Fits (a * (b * b) ^ (n / 2)) := by
              rw [hk, Nat.zero_add, pow_succ, mul_comm ((b * b) ^ k)]
              exact not_fits_mul_square hsq (mt h0 hb0)
                (pow_pos (mul_self_pos.mpr hb0) k)
            rw [checked, checked, if_neg hsq, if_neg hnot]
            rfl
        · next hhalf =>
          obtain hk : n / 2 = 0 := by omega
          rw [hk, loop, if_neg (lt_irrefl 0), pow_zero, mul_one, checked, if_pos ha]
      have hpow : b ^ n = b ^ (n % 2) * (b * b) ^ (n / 2) := by
        rw [← sq, ← pow_mul, ← pow_add, Nat.mod_add_div]
      simp only [arith_rem hn, arith_half hn, pure_bind]
      rcases Nat.mod_two_eq_zero_or_one n with hbit | hbit
      · rw [hbit, if_neg (by decide), hrest ha h0, hpow, hbit, pow_zero, one_mul]
      · rw [hbit, if_pos (by decide), multiply_eq ha hb, hpow, hbit, pow_one, ← mul_assoc]
        by_cases hab : Fits (a * b)
        · rw [checked, if_pos hab, pure_bind]
          refine hrest hab fun h => ?_
          rcases mul_eq_zero.mp h with h | h
          · exact h0 h
          · exact h
        · have hb0 : b ≠ 0 := by
            rintro rfl
            exact hab (by rw [mul_zero]; decide)
          have hnot : ¬ Fits (a * b * (b * b) ^ (n / 2)) := 
            not_fits_mul hab (pow_pos (mul_self_pos.mpr hb0) _)
          rw [checked, checked, if_neg hab, if_neg hnot]
          rfl
    · next hpos =>
      obtain rfl : n = 0 := by omega
      rw [pow_zero, mul_one, checked, if_pos ha]

end PowInt

open PowInt in
/-- A power is exact or raises, and no expression on the way is without a value. -/
theorem powInt_exact (base exponent : BitVec 64) :
    (powInt base.toInt exponent.toInt).run =
      some (if exponent.toInt < 0 then .error "negative integer exponent"
        else if Fits (base.toInt ^ exponent.toInt.toNat) then
          .ok (base.toInt ^ exponent.toInt.toNat)
        else .error "integer multiplication overflow") := by
  have hfits : ∀ x : BitVec 64, Fits x.toInt := fun x =>
    ⟨by simpa using x.le_toInt, by simpa using x.toInt_lt⟩
  unfold powInt PowInt.require
  split
  · next h0 =>
    have hn : Fits (exponent.toInt.toNat : ℤ) := by
      rw [Int.toNat_of_nonneg h0]
      exact hfits exponent
    rw [if_neg (not_lt.mpr h0), pure_bind,
      loop_eq (by decide) (hfits base) (fun h => absurd h one_ne_zero) hn, one_mul, checked]
    split <;> rfl
  · next h0 =>
    rw [if_pos (not_le.mp h0)]
    rfl

end Loxis.Stdlib
