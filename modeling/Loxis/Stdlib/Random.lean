import Mathlib.FieldTheory.Finite.Basic
import Mathlib.NumberTheory.LucasPrimality
import Mathlib.Data.Int.CardIntervalMod
import Mathlib.Data.Set.Card
import Mathlib.Tactic.NormNum.Prime
import Mathlib.Tactic.ReduceModChar
import Loxis.Stdlib.Str

/-! # Random numbers

A multiplicative generator with a prime modulus. Its multiplier generates all units, so that every
value comes up once in a period, and a bounded number is drawn by rejecting the values behind the
last multiple of the bound.
-/

namespace Loxis

/-! ## Multiplicative generators -/

/-- The powers of a generator of the units take a unit to every unit, each once in a period. -/
theorem existsUnique_mul_pow {p : ℕ} [Fact p.Prime] {a x y : ZMod p} (ha : orderOf a = p - 1)
    (ha0 : a ≠ 0) (hx : x ≠ 0) (hy : y ≠ 0) : ∃! k, k < p - 1 ∧ x * a ^ (k + 1) = y := by
  have hinj : ∀ i < p - 1, ∀ j < p - 1, x * a ^ (i + 1) = x * a ^ (j + 1) → i = j := by
    intro i hi j hj h
    have h := mul_left_cancel₀ hx h
    rw [pow_succ, pow_succ] at h
    exact pow_injOn_Iio_orderOf (ha ▸ hi) (ha ▸ hj) (mul_right_cancel₀ ha0 h)
  -- a period visits as many units as there are
  have himage : (Finset.range (p - 1)).image (fun k => x * a ^ (k + 1)) = Finset.univ.erase 0 := by
    refine Finset.eq_of_subset_of_card_le (fun z hz => ?_) ?_
    · obtain ⟨k, -, rfl⟩ := Finset.mem_image.mp hz
      exact Finset.mem_erase.mpr ⟨mul_ne_zero hx (pow_ne_zero _ ha0), Finset.mem_univ _⟩
    · rw [Finset.card_erase_of_mem (Finset.mem_univ _), Finset.card_univ, ZMod.card,
        Finset.card_image_of_injOn, Finset.card_range]
      intro i hi j hj h
      exact hinj i (Finset.mem_range.mp hi) j (Finset.mem_range.mp hj) h
  obtain ⟨k, hk, rfl⟩ := Finset.mem_image.mp
    (himage ▸ Finset.mem_erase.mpr ⟨hy, Finset.mem_univ y⟩)
  have hk := Finset.mem_range.mp hk
  exact ⟨k, ⟨hk, rfl⟩, fun j hj => hinj j hj.1 k hk hj.2⟩

/-- A bijection of an initial segment keeps the number of the elements with a property. -/
theorem card_filter_of_existsUnique {n : ℕ} {f : ℕ → ℕ} (hf : ∀ k < n, f k < n)
    (h : ∀ v < n, ∃! k, k < n ∧ f k = v) (P : ℕ → Prop) [DecidablePred P] :
    ((Finset.range n).filter fun k => P (f k)).card = ((Finset.range n).filter P).card := by
  refine Finset.card_bij (fun k _ => f k) (fun k hk => ?_) (fun k hk k' hk' heq => ?_)
    fun v hv => ?_
  · rw [Finset.mem_filter, Finset.mem_range] at hk ⊢
    exact ⟨hf k hk.1, hk.2⟩
  · rw [Finset.mem_filter, Finset.mem_range] at hk hk'
    exact (h (f k) (hf k hk.1)).unique ⟨hk.1, rfl⟩ ⟨hk'.1, heq.symm⟩
  · rw [Finset.mem_filter, Finset.mem_range] at hv
    obtain ⟨k, ⟨hk, rfl⟩, -⟩ := h v hv.1
    exact ⟨k, Finset.mem_filter.mpr ⟨Finset.mem_range.mpr hk, hv.2⟩, rfl⟩

/-- Below a multiple of the modulus every remainder is as frequent as every other. -/
theorem card_filter_mod {n m b r : ℕ} (hr : r < b) (hm : m ≤ n) (hdvd : b ∣ m) :
    ((Finset.range n).filter fun v => v < m ∧ v % b = r).card = m / b := by
  have hb : 0 < b := Nat.zero_lt_of_lt hr
  have hfilter : (Finset.range n).filter (fun v => v < m ∧ v % b = r) =
      (Finset.range m).filter fun v => v ≡ r [MOD b] := by
    ext v
    rw [Finset.mem_filter, Finset.mem_filter, Finset.mem_range, Finset.mem_range, Nat.ModEq,
      Nat.mod_eq_of_lt hr]
    constructor
    · rintro ⟨-, hv, hmod⟩
      exact ⟨hv, hmod⟩
    · rintro ⟨hv, hmod⟩
      exact ⟨hv.trans_le hm, hv, hmod⟩
  rw [hfilter, ← Nat.count_eq_card_filter_range, Nat.count_modEq_card _ hb,
    Nat.mod_eq_zero_of_dvd hdvd, if_neg (Nat.not_lt_zero _), Nat.add_zero]

namespace Stdlib

open Loxis.Backend (Fits)

/-! ## The generator -/

structure RandomGenerator where
  state : ℤ
deriving DecidableEq, Repr

namespace RandomGenerator

variable (g : RandomGenerator)

/-- The next value and the generator after it; none where an expression has no value. -/
def nextInt : Option (ℤ × RandomGenerator) := do
  let state ← eval .rem (← eval .mul g.state 48271) 2147483647
  return (← eval .sub state 1, ⟨state⟩)

/-- Draw until a value is below the limit; none also where the turns run out. -/
def reject (limit : ℤ) : ℕ → ℤ → RandomGenerator → Option (ℤ × RandomGenerator)
  | 0, _, _ => none
  | turns + 1, value, g =>
    if limit ≤ value then do
      let (value, g) ← g.nextInt
      reject limit turns value g
    else some (value, g)

def nextBounded (turns : ℕ) (bound : ℤ) : Option (Except String ℤ × RandomGenerator) :=
  if 0 < bound ∧ bound ≤ 2147483646 then do
    let limit ← eval .sub 2147483646 (← eval .rem 2147483646 bound)
    let (value, g) ← g.nextInt
    let (value, g) ← reject limit turns value g
    return (.ok (← eval .rem value bound), g)
  else return (.error "random bound out of range", g)

inductive Call
  | nextInt
  | nextBounded (bound : ℤ)

def call (turns : ℕ) : Call → Option (Except String ℤ × RandomGenerator)
  | .nextInt => do
    let (value, g) ← g.nextInt
    return (.ok value, g)
  | .nextBounded bound => g.nextBounded turns bound

/-- Calls one after the other, with their results. -/
def calls (turns : ℕ) : List Call → RandomGenerator →
    Option (List (Except String ℤ) × RandomGenerator)
  | [], g => some ([], g)
  | c :: cs, g => do
    let (r, g) ← g.call turns c
    let (rs, g) ← calls turns cs g
    return (r :: rs, g)

/-- The result of the last of `k + 1` calls of `nextInt`. -/
def nth : ℕ → RandomGenerator → Option ℤ
  | 0, g => g.nextInt.map Prod.fst
  | k + 1, g => g.nextInt.bind fun r => nth k r.2

end RandomGenerator

/-- A generator for a seed. -/
def Random.seeded (seed : ℤ) : Option RandomGenerator := do
  let normalized ← eval .rem seed 2147483646
  let normalized ← if normalized < 0 then eval .add normalized 2147483646 else some normalized
  return ⟨← eval .add normalized 1⟩

/-! ## The period -/

namespace RandomGenerator

theorem pow_period : (48271 : ZMod 2147483647) ^ 2147483646 = 1 := by reduce_mod_char

/-- No power with a proper divisor of the period as its exponent is one. -/
theorem pow_period_div (q : ℕ) (hq : q.Prime) (hdvd : q ∣ 2147483646) :
    (48271 : ZMod 2147483647) ^ (2147483646 / q) ≠ 1 := by
  have hfactors : 2147483646 = 2 * (3 * (3 * (7 * (11 * (31 * (151 * 331)))))) := by norm_num
  rw [hfactors] at hdvd
  simp only [hq.dvd_mul, Nat.prime_dvd_prime_iff_eq hq (show Nat.Prime 2 by norm_num),
    Nat.prime_dvd_prime_iff_eq hq (show Nat.Prime 3 by norm_num),
    Nat.prime_dvd_prime_iff_eq hq (show Nat.Prime 7 by norm_num),
    Nat.prime_dvd_prime_iff_eq hq (show Nat.Prime 11 by norm_num),
    Nat.prime_dvd_prime_iff_eq hq (show Nat.Prime 31 by norm_num),
    Nat.prime_dvd_prime_iff_eq hq (show Nat.Prime 151 by norm_num),
    Nat.prime_dvd_prime_iff_eq hq (show Nat.Prime 331 by norm_num)] at hdvd
  rcases hdvd with rfl | rfl | rfl | rfl | rfl | rfl | rfl | rfl <;>
  · norm_num only
    reduce_mod_char
    decide

theorem multiplier_ne_zero : (48271 : ZMod 2147483647) ≠ 0 := by decide

instance prime_modulus : Fact (Nat.Prime 2147483647) :=
  ⟨lucas_primality 2147483647 48271 pow_period pow_period_div⟩

theorem orderOf_multiplier : orderOf (48271 : ZMod 2147483647) = 2147483647 - 1 :=
  orderOf_eq_of_pow_and_pow_div_prime (by norm_num) pow_period pow_period_div

/-! ## Values -/

/-- The states of a generator that was made from a seed. -/
def Valid (g : RandomGenerator) : Prop := 1 ≤ g.state ∧ g.state ≤ 2147483646

variable {g : RandomGenerator} {k v b turns : ℕ}

theorem Valid.ne_zero (h : g.Valid) : (g.state : ZMod 2147483647) ≠ 0 := by
  obtain ⟨h₀, h₁⟩ := h
  rw [ne_eq, ZMod.intCast_zmod_eq_zero_iff_dvd]
  intro hdvd
  have := Int.le_of_dvd (by omega) hdvd
  omega

/-- The `k`-th value after a state. -/
def value (g : RandomGenerator) (k : ℕ) : ℕ :=
  ((g.state : ZMod 2147483647) * 48271 ^ (k + 1)).val - 1

/-- A generator moves on when its three operations have values. -/
theorem nextInt_eq {a b c : ℤ} (hmul : eval .mul g.state 48271 = some a)
    (hrem : eval .rem a 2147483647 = some b) (hsub : eval .sub b 1 = some c) :
    g.nextInt = some (c, ⟨b⟩) := by
  simp only [nextInt, hmul, hrem, hsub, Option.bind_eq_bind, Option.bind_some]
  rfl

theorem nextInt_spec (h : g.Valid) : ∃ g', g.nextInt = some ((g.value 0 : ℤ), g') ∧ g'.Valid ∧
    ∀ k, g'.value k = g.value (k + 1) := by
  obtain ⟨h₀, h₁⟩ := id h
  obtain ⟨n, hn⟩ := Int.eq_ofNat_of_zero_le (by omega : 0 ≤ g.state)
  have hmul : eval .mul g.state 48271 = some ((n * 48271 : ℕ) : ℤ) := by
    have hfits : Fits (g.state * 48271) := by
      unfold Fits
      omega
    rw [eval_mul (by unfold Fits; omega) (by decide) hfits, hn]
    push_cast
    rfl
  have hrem : eval .rem ((n * 48271 : ℕ) : ℤ) 2147483647 =
      some ((n * 48271 % 2147483647 : ℕ) : ℤ) :=
    eval_rem_natCast (by unfold Fits; omega) (by decide) (by decide)
  have hcast : ((n * 48271 % 2147483647 : ℕ) : ZMod 2147483647) = g.state * 48271 := by
    rw [ZMod.natCast_mod, hn, Nat.cast_mul, Int.cast_natCast, Nat.cast_ofNat]
  have hlt : n * 48271 % 2147483647 < 2147483647 := Nat.mod_lt _ (by decide)
  have hpos : n * 48271 % 2147483647 ≠ 0 := by
    intro h0
    rw [h0, Nat.cast_zero] at hcast
    exact mul_ne_zero h.ne_zero multiplier_ne_zero hcast.symm
  have hval : g.value 0 = n * 48271 % 2147483647 - 1 := by
    rw [value, zero_add, pow_one, ← hcast, ZMod.val_natCast_of_lt hlt]
  generalize n * 48271 % 2147483647 = s at hrem hcast hlt hpos hval
  have hsub : eval .sub (s : ℤ) 1 = some (g.value 0 : ℤ) := by
    have hfits : Fits ((s : ℤ) - 1) := by
      unfold Fits
      omega
    rw [eval_sub (by unfold Fits; omega) (by decide) hfits, hval]
    congr 1
    omega
  refine ⟨⟨s⟩, nextInt_eq hmul hrem hsub, ⟨?_, ?_⟩, fun k => ?_⟩
  · change (1 : ℤ) ≤ s
    omega
  · change (s : ℤ) ≤ 2147483646
    omega
  · rw [value, value, Int.cast_natCast, hcast, mul_assoc, ← pow_succ']

theorem nth_eq (h : g.Valid) (k : ℕ) : g.nth k = some (g.value k : ℤ) := by
  induction k generalizing g with
  | zero =>
    obtain ⟨g', hnext, -⟩ := nextInt_spec h
    rw [nth, hnext]
    rfl
  | succ k ih =>
    obtain ⟨g', hnext, hg', hvalue⟩ := nextInt_spec h
    rw [nth, hnext, Option.bind_some, ih hg', hvalue]

theorem value_lt (h : g.Valid) (k : ℕ) : g.value k < 2147483646 := by
  have hne : (g.state : ZMod 2147483647) * 48271 ^ (k + 1) ≠ 0 :=
    mul_ne_zero h.ne_zero (pow_ne_zero _ multiplier_ne_zero)
  have hlt := ZMod.val_lt ((g.state : ZMod 2147483647) * 48271 ^ (k + 1))
  have hpos := ZMod.val_pos.mpr hne
  unfold value
  omega

theorem value_eq_iff (h : g.Valid) (hv : v < 2147483646) :
    g.value k = v ↔
      (g.state : ZMod 2147483647) * 48271 ^ (k + 1) = ((v + 1 : ℕ) : ZMod 2147483647) := by
  have hne : (g.state : ZMod 2147483647) * 48271 ^ (k + 1) ≠ 0 :=
    mul_ne_zero h.ne_zero (pow_ne_zero _ multiplier_ne_zero)
  have hpos := ZMod.val_pos.mpr hne
  rw [← ZMod.val_injective 2147483647 |>.eq_iff, ZMod.val_natCast_of_lt (by omega)]
  unfold value
  omega

/-- Every value comes up once in a period. -/
theorem existsUnique_value (h : g.Valid) (hv : v < 2147483646) :
    ∃! k, k < 2147483646 ∧ g.value k = v := by
  simp only [value_eq_iff h hv]
  refine existsUnique_mul_pow orderOf_multiplier multiplier_ne_zero h.ne_zero ?_
  rw [ne_eq, ← ZMod.val_eq_zero, ZMod.val_natCast_of_lt (by omega)]
  exact Nat.succ_ne_zero v

/-! ## Bounded values -/

/-- The last multiple of a bound in the range of the generator. -/
def limit (b : ℕ) : ℕ := 2147483646 - 2147483646 % b

theorem limit_pos (hb : 0 < b) (hle : b ≤ 2147483646) : 0 < limit b := by
  have := Nat.mod_lt 2147483646 hb
  unfold limit
  omega

theorem dvd_limit (b : ℕ) : b ∣ limit b := Nat.dvd_sub_mod 2147483646

/-- Drawing stops at the first value below the limit. -/
theorem reject_spec (h : g.Valid) (hk : g.value k < limit b)
    (hbefore : ∀ j < k, limit b ≤ g.value j) (hturns : k < turns) : ∃ g', g'.Valid ∧
      (g.nextInt.bind fun r => reject (limit b) turns r.1 r.2) = some ((g.value k : ℤ), g') := by
  induction k generalizing g turns with
  | zero =>
    obtain ⟨g', hnext, hg', -⟩ := nextInt_spec h
    obtain ⟨turns, rfl⟩ := Nat.exists_eq_add_of_lt hturns
    refine ⟨g', hg', ?_⟩
    have hnot : ¬ (limit b : ℤ) ≤ (g.value 0 : ℤ) := by exact_mod_cast not_le.mpr hk
    rw [hnext, Option.bind_some, reject, if_neg hnot]
  | succ k ih =>
    obtain ⟨g', hnext, hg', hvalue⟩ := nextInt_spec h
    obtain ⟨turns, rfl⟩ := Nat.exists_eq_add_of_lt hturns
    have hlt : k < k + 1 + turns := by omega
    obtain ⟨g'', hg'', hreject⟩ := ih hg' (by rwa [hvalue])
      (fun j hj => by rw [hvalue]; exact hbefore (j + 1) (Nat.succ_lt_succ hj)) hlt
    have hle : (limit b : ℤ) ≤ (g.value 0 : ℤ) := by exact_mod_cast hbefore 0 (Nat.succ_pos k)
    refine ⟨g'', hg'', ?_⟩
    rw [hnext, Option.bind_some, reject, if_pos hle, ← hvalue]
    exact hreject

/-- A bounded value is what the first accepted value leaves modulo the bound. -/
theorem nextBounded_spec (h : g.Valid) (hb : 0 < b) (hle : b ≤ 2147483646) :
    ∃ k < 2147483646, (∀ j < k, limit b ≤ g.value j) ∧ g.value k < limit b ∧
      ∃ g', g'.Valid ∧
        g.nextBounded 2147483646 b = some (.ok ((g.value k % b : ℕ) : ℤ), g') := by
  have hexists : ∃ k, g.value k < limit b := by
    obtain ⟨k, ⟨-, hk⟩, -⟩ := existsUnique_value h (v := 0) (by decide)
    exact ⟨k, hk ▸ limit_pos hb hle⟩
  have hbound : Nat.find hexists < 2147483646 := by
    obtain ⟨k, ⟨hlt, hk⟩, -⟩ := existsUnique_value h (v := 0) (by decide)
    exact (Nat.find_min' hexists (hk ▸ limit_pos hb hle)).trans_lt hlt
  have hk := Nat.find_spec hexists
  have hbefore : ∀ j < Nat.find hexists, limit b ≤ g.value j := fun j hj =>
    not_lt.mp (Nat.find_min hexists hj)
  obtain ⟨g', hg', hreject⟩ := reject_spec h hk hbefore hbound
  refine ⟨Nat.find hexists, hbound, hbefore, hk, g', hg', ?_⟩
  have hfits : ∀ n : ℕ, n ≤ 2147483646 → Fits n := fun n hn => by
    unfold Fits
    omega
  have hmod : 2147483646 % b ≤ 2147483646 := Nat.mod_le _ _
  have hrem : eval .rem 2147483646 (b : ℤ) = some ((2147483646 % b : ℕ) : ℤ) :=
    eval_rem_natCast (hfits 2147483646 (Nat.le_refl _)) (hfits b hle) hb.ne'
  have hsub : eval .sub 2147483646 ((2147483646 % b : ℕ) : ℤ) = some (limit b : ℤ) := by
    have hcast : (2147483646 : ℤ) - ((2147483646 % b : ℕ) : ℤ) = (limit b : ℤ) := by
      unfold limit
      omega
    rw [eval_sub (by decide) (hfits _ hmod) (hcast ▸ hfits _ (Nat.sub_le _ _)), hcast]
  have hvalue : eval .rem (g.value (Nat.find hexists) : ℤ) (b : ℤ) =
      some ((g.value (Nat.find hexists) % b : ℕ) : ℤ) :=
    eval_rem_natCast (hfits _ (value_lt h _).le) (hfits b hle) hb.ne'
  have hcond : 0 < (b : ℤ) ∧ (b : ℤ) ≤ 2147483646 := by
    constructor
    · exact_mod_cast hb
    · exact_mod_cast hle
  unfold nextBounded
  rw [if_pos hcond, hrem]
  change (eval .sub 2147483646 ((2147483646 % b : ℕ) : ℤ)).bind _ = _
  rw [hsub]
  change (g.nextInt.bind fun r => (reject (limit b) 2147483646 r.1 r.2).bind _) = _
  rw [← Option.bind_assoc, hreject]
  change (eval .rem (g.value (Nat.find hexists) : ℤ) (b : ℤ)).bind _ = _
  rw [hvalue]
  rfl

theorem nextBounded_of_not {bound : ℤ} (h : ¬(0 < bound ∧ bound ≤ 2147483646)) :
    g.nextBounded turns bound = some (.error "random bound out of range", g) := by
  unfold nextBounded
  rw [if_neg h]
  rfl

/-- What a call may answer. -/
def Call.Answer : Call → Except String ℤ → Prop
  | .nextInt, r => ∃ v : ℤ, r = .ok v ∧ 0 ≤ v ∧ v ≤ 2147483645
  | .nextBounded bound, r =>
    if 0 < bound ∧ bound ≤ 2147483646 then ∃ v : ℤ, r = .ok v ∧ 0 ≤ v ∧ v < bound
    else r = .error "random bound out of range"

theorem call_spec (h : g.Valid) (c : Call) :
    ∃ r g', g.call 2147483646 c = some (r, g') ∧ c.Answer r ∧ g'.Valid := by
  cases c with
  | nextInt =>
    obtain ⟨g', hnext, hg', -⟩ := nextInt_spec h
    have hlt := value_lt h 0
    refine ⟨.ok (g.value 0), g', ?_, ⟨_, rfl, by omega, by omega⟩, hg'⟩
    unfold call
    dsimp only
    rw [hnext]
    rfl
  | nextBounded bound =>
    by_cases hb : 0 < bound ∧ bound ≤ 2147483646
    · obtain ⟨b, rfl⟩ := Int.eq_ofNat_of_zero_le hb.1.le
      have hpos : 0 < b := by exact_mod_cast hb.1
      obtain ⟨k, -, -, -, g', hg', hcall⟩ := nextBounded_spec h hpos (by exact_mod_cast hb.2)
      refine ⟨_, g', hcall, (if_pos hb).mpr ?_, hg'⟩
      exact ⟨_, rfl, Int.natCast_nonneg _, by exact_mod_cast Nat.mod_lt _ hpos⟩
    · exact ⟨_, g, nextBounded_of_not hb, (if_neg hb).mpr rfl, h⟩

theorem calls_spec (h : g.Valid) (cs : List Call) : ∃ rs g',
    calls 2147483646 cs g = some (rs, g') ∧ List.Forall₂ Call.Answer cs rs ∧ g'.Valid := by
  induction cs generalizing g with
  | nil => exact ⟨[], g, rfl, .nil, h⟩
  | cons c cs ih =>
    obtain ⟨r, g', hcall, hr, hg'⟩ := call_spec h c
    obtain ⟨rs, g'', hcalls, hrs, hg''⟩ := ih hg'
    refine ⟨r :: rs, g'', ?_, .cons hr hrs, hg''⟩
    unfold calls
    rw [hcall]
    change (calls 2147483646 cs g').bind _ = _
    rw [hcalls]
    rfl

theorem seeded_valid (seed : BitVec 64) : ∃ g, Random.seeded seed.toInt = some g ∧ g.Valid := by
  have hseed : Fits seed.toInt := ⟨by simpa using seed.le_toInt, by simpa using seed.toInt_lt⟩
  generalize seed.toInt = s at hseed
  have hlt := Int.tmod_lt_of_pos s (show (0 : ℤ) < 2147483646 by decide)
  have hgt : -2147483646 < s.tmod 2147483646 := by
    have := Int.tmod_lt_of_pos (-s) (show (0 : ℤ) < 2147483646 by decide)
    rw [Int.neg_tmod] at this
    omega
  have hdiv : Fits (s.tdiv 2147483646) := by
    have heq := Int.mul_tdiv_add_tmod s 2147483646
    unfold Fits at hseed ⊢
    omega
  have hrem : eval .rem s 2147483646 = some (s.tmod 2147483646) :=
    eval_rem hseed (by decide) (by decide) hdiv
  generalize s.tmod 2147483646 = n at hrem hlt hgt
  have hadd : ∀ x y : ℤ, -2 ^ 62 ≤ x → x < 2 ^ 62 → 0 ≤ y → y < 2 ^ 62 →
      eval .add x y = some (x + y) := fun x y _ _ _ _ =>
    eval_add (by unfold Fits; omega) (by unfold Fits; omega) (by unfold Fits; omega)
  unfold Random.seeded
  by_cases hneg : n < 0
  · refine ⟨⟨n + 2147483646 + 1⟩, ?_, ?_, ?_⟩
    · simp only [hrem, hneg, if_true, Option.bind_eq_bind, Option.bind_some,
        hadd n 2147483646 (by omega) (by omega) (by decide) (by decide),
        hadd (n + 2147483646) 1 (by omega) (by omega) (by decide) (by decide)]
      rfl
    · dsimp only
      omega
    · dsimp only
      omega
  · refine ⟨⟨n + 1⟩, ?_, ?_, ?_⟩
    · simp only [hrem, hneg, if_false, Option.bind_eq_bind, Option.bind_some,
        hadd n 1 (by omega) (by omega) (by decide) (by decide)]
      rfl
    · dsimp only
      omega
    · dsimp only
      omega

/-- What every state of a generator promises: every value comes up once in a period, a bounded
value is what the first accepted value leaves, and as many accepted values of a period leave one
result as any other. -/
structure Uniform (g : RandomGenerator) : Prop where
  state : 1 ≤ g.state ∧ g.state ≤ 2147483646
  period : ∀ v : ℕ, v < 2147483646 → ∃! k, k < 2147483646 ∧ g.nth k = some (v : ℤ)
  bounded : ∀ b : ℕ, 0 < b → b ≤ 2147483646 → ∃ k v : ℕ, k < 2147483646 ∧
    (∀ j < k, ∃ u : ℕ, g.nth j = some (u : ℤ) ∧ limit b ≤ u) ∧ g.nth k = some (v : ℤ) ∧
    v < limit b ∧ ∃ g', g.nextBounded 2147483646 b = some (.ok ((v % b : ℕ) : ℤ), g')
  unbiased : ∀ b : ℕ, b ≤ 2147483646 → ∀ r < b,
    {k | k < 2147483646 ∧ ∃ v : ℕ, g.nth k = some (v : ℤ) ∧ v < limit b ∧ v % b = r}.ncard =
      limit b / b

theorem Valid.uniform (h : g.Valid) : g.Uniform where
  state := h
  period v hv := by
    simp only [nth_eq h, Option.some.injEq, Nat.cast_inj]
    exact existsUnique_value h hv
  bounded b hb hle := by
    obtain ⟨k, hk, hbefore, hlt, g', -, hcall⟩ := nextBounded_spec h hb hle
    exact ⟨k, g.value k, hk, fun j hj => ⟨_, nth_eq h j, hbefore j hj⟩, nth_eq h k, hlt, g', hcall⟩
  unbiased b hle r hr := by
    have hset : {k | k < 2147483646 ∧ ∃ v : ℕ, g.nth k = some (v : ℤ) ∧ v < limit b ∧ v % b = r} =
        ((Finset.range 2147483646).filter fun k => g.value k < limit b ∧ g.value k % b = r) := by
      ext k
      simp [nth_eq h]
    rw [hset, Set.ncard_coe_finset, card_filter_of_existsUnique (fun k _ => value_lt h k)
      (fun v hv => existsUnique_value h hv) fun v => v < limit b ∧ v % b = r]
    exact card_filter_mod hr (Nat.sub_le _ _) (dvd_limit b)

/-- Whatever calls are made on a seeded generator, each answers in its range, and the generator
that they leave is uniform. -/
theorem seeded_uniform (seed : BitVec 64) (cs : List Call) : ∃ g rs g',
    Random.seeded seed.toInt = some g ∧ calls 2147483646 cs g = some (rs, g') ∧
      List.Forall₂ Call.Answer cs rs ∧ g'.Uniform := by
  obtain ⟨g, hseed, hg⟩ := seeded_valid seed
  obtain ⟨rs, g', hcalls, hrs, hg'⟩ := calls_spec hg cs
  exact ⟨g, rs, g', hseed, hcalls, hrs, hg'.uniform⟩

end RandomGenerator

end Stdlib

end Loxis
