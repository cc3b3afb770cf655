import Mathlib.Data.Nat.Notation
import Mathlib.Algebra.Order.BigOperators.Group.Finset
import Mathlib.Order.Interval.Finset.Nat
import Mathlib.Tactic.Common
import Mathlib.Data.List.Basic
import Mathlib.Tactic.Ring

/-! # Words in byte memory

A byte memory is a function from addresses. Words are laid out with the least
significant byte first. A family of disjoint spans of a common least length is no
larger than the room they lie in.
-/

namespace Loxis.Bytes

/-- Byte `i` of a word. -/
def byteOf (w : BitVec 64) (i : ℕ) : BitVec 8 := (w >>> (8 * i)).setWidth 8

/-- The word whose eight bytes start at an address. -/
def getWord (m : ℕ → BitVec 8) (o : ℕ) : BitVec 64 :=
  (List.range 8).foldl (fun u i => u ||| (m (o + i)).setWidth 64 <<< (8 * i)) 0

/-- Write `n` bytes from an address on. -/
def put (m : ℕ → BitVec 8) (o n : ℕ) (f : ℕ → BitVec 8) (i : ℕ) : BitVec 8 :=
  if o ≤ i ∧ i < o + n then f (i - o) else m i

section

variable {m : ℕ → BitVec 8} {o n i : ℕ} {f : ℕ → BitVec 8}

theorem put_of_mem (h₁ : o ≤ i) (h₂ : i < o + n) : put m o n f i = f (i - o) :=
  if_pos ⟨h₁, h₂⟩

theorem put_of_not_mem (h : i < o ∨ o + n ≤ i) : put m o n f i = m i :=
  if_neg fun ⟨h₁, h₂⟩ => by omega

end

theorem getWord_congr {m k : ℕ → BitVec 8} {o p : ℕ} (h : ∀ i < 8, m (o + i) = k (p + i)) :
    getWord m o = getWord k p := by
  refine List.foldl_ext _ _ _ fun u i hi => ?_
  rw [h i (List.mem_range.mp hi)]

theorem getWord_zero {m : ℕ → BitVec 8} {o : ℕ} (h : ∀ i < 8, m (o + i) = 0) :
    getWord m o = 0 := by
  rw [getWord_congr (k := fun _ => 0) (p := 0) h]
  rfl

/-- Reading the bytes of a word gives the word back. -/
theorem getWord_eq {m : ℕ → BitVec 8} {o : ℕ} (w : BitVec 64)
    (h : ∀ i < 8, m (o + i) = byteOf w i) : getWord m o = w := by
  rw [getWord_congr (k := byteOf w) (p := 0) fun i hi => by rw [h i hi, Nat.zero_add]]
  have hr : List.range 8 = [0, 1, 2, 3, 4, 5, 6, 7] := rfl
  simp only [getWord, hr, List.foldl_cons, List.foldl_nil, byteOf, Nat.zero_add]
  ext j hj
  simp only [BitVec.getElem_or, BitVec.getElem_shiftLeft, BitVec.getElem_setWidth,
    BitVec.getLsbD_setWidth, BitVec.getLsbD_ushiftRight]
  grind

/-- Disjoint spans of length at least `k` inside `[0, n)` are at most `n / k` many. -/
theorem card_mul_le {ι : Type*} [DecidableEq ι] (s : Finset ι) (start len : ι → ℕ) (k n : ℕ)
    (hlen : ∀ i ∈ s, k ≤ len i) (hin : ∀ i ∈ s, start i + len i ≤ n)
    (hd : ∀ i ∈ s, ∀ j ∈ s, i ≠ j →
      start i + len i ≤ start j ∨ start j + len j ≤ start i) :
    s.card * k ≤ n := by
  have hdis : (s : Set ι).PairwiseDisjoint fun i => Finset.Ico (start i) (start i + len i) := by
    intro i hi j hj hij
    rw [Function.onFun, Finset.disjoint_left]
    intro b hb hb'
    rw [Finset.mem_Ico] at hb hb'
    rcases hd i hi j hj hij with h | h <;> omega
  have hsub : s.biUnion (fun i => Finset.Ico (start i) (start i + len i)) ⊆ Finset.range n := by
    intro b hb
    obtain ⟨i, hi, hb⟩ := Finset.mem_biUnion.mp hb
    rw [Finset.mem_Ico] at hb
    have := hin i hi
    rw [Finset.mem_range]
    omega
  calc s.card * k = ∑ _i ∈ s, k := (Finset.sum_const_nat fun _ _ => rfl).symm
    _ ≤ ∑ i ∈ s, (Finset.Ico (start i) (start i + len i)).card := by
      refine Finset.sum_le_sum fun i hi => ?_
      rw [Nat.card_Ico]
      have := hlen i hi
      omega
    _ = (s.biUnion fun i => Finset.Ico (start i) (start i + len i)).card :=
      (Finset.card_biUnion hdis).symm
    _ ≤ (Finset.range n).card := Finset.card_le_card hsub
    _ = n := Finset.card_range n

end Loxis.Bytes

/-! ## Numbers in bytes

A number as a row of bytes, the least significant one first.
-/

namespace Loxis.LittleEndian

/-- The lowest `n` bytes of a number. -/
def toBytes : ℕ → ℕ → List UInt8
  | 0, _ => []
  | n + 1, v => UInt8.ofNat v :: toBytes n (v / 256)

/-- The number of a row of bytes. -/
def ofBytes : List UInt8 → ℕ
  | [] => 0
  | b :: bs => b.toNat + 256 * ofBytes bs

@[simp] theorem length_toBytes (n v : ℕ) : (toBytes n v).length = n := by
  induction n generalizing v with
  | zero => rfl
  | succ n ih => rw [toBytes, List.length_cons, ih]

theorem ofBytes_toBytes (n v : ℕ) : ofBytes (toBytes n v) = v % 256 ^ n := by
  induction n generalizing v with
  | zero => rw [toBytes, ofBytes, Nat.pow_zero, Nat.mod_one]
  | succ n ih =>
    have hb : (UInt8.ofNat v).toNat = v % 256 := UInt8.toNat_ofNat'
    rw [toBytes, ofBytes, ih, hb, Nat.pow_succ', Nat.mod_mul]

theorem ofBytes_toBytes_of_lt {n v : ℕ} (h : v < 256 ^ n) : ofBytes (toBytes n v) = v := by
  rw [ofBytes_toBytes, Nat.mod_eq_of_lt h]

end Loxis.LittleEndian
