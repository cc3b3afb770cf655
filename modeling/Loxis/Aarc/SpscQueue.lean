import Mathlib.Data.Int.ModEq
import Mathlib.Tactic.Common

/-! # The single-producer single-consumer ring

`core/spsc_queue.hpp`: free-running `size_t` counters over a power-of-two ring of
slots. Each operation is split at its accesses to shared memory, so that the other
side may run between them.
-/

namespace Loxis.Aarc

/-- `size_t`. -/
abbrev Size := BitVec 64

/-- `SpscQueue<T, Capacity>` with `Capacity = 2 ^ k`. -/
structure SpscQueue (α : Type*) (k : ℕ) where
  head : Size := 0
  tail : Size := 0
  slot : ℕ → α

namespace SpscQueue

variable {α : Type*} {k : ℕ} (q : SpscQueue α k)

def kCapacity (_ : SpscQueue α k) : Size := BitVec.ofNat 64 (2 ^ k)

/-- The slot of a counter: `i & (kCapacity - 1)`. -/
def index (i : Size) : ℕ := (i &&& (q.kCapacity - 1)).toNat

/-- The room test of `tryPush`, against the head it has loaded. -/
def full (head : Size) : Bool := q.kCapacity ≤ q.tail - head

/-- The payload write of `tryPush`, and of a producer writing through a span pointer. -/
def write (i : ℕ) (v : α) : SpscQueue α k := { q with slot := Function.update q.slot i v }

/-- The number of contiguous slots `beginSpan(max)` reserves, against the head it has loaded. -/
def beginSpan (head : Size) (max : Size) : Size :=
  let room := q.kCapacity - (q.tail - head)
  let contig := q.kCapacity - (q.tail &&& (q.kCapacity - 1))
  let room := if contig < room then contig else room
  if room < max then room else max

def spanPtr : ℕ := q.index q.tail

/-- The tail store of `commitSpan`; `tryPush` ends with that of `commitSpan(1)`. -/
def commitSpan (n : Size) : SpscQueue α k := { q with tail := q.tail + n }

/-- The emptiness test of `tryPop`. -/
def empty : Bool := q.head == q.tail

/-- The payload read of `tryPop`. -/
def read : α := q.slot (q.index q.head)

/-- The head store of `tryPop`. -/
def advance : SpscQueue α k := { q with head := q.head + 1 }

def tailSnapshot : Size := q.tail

variable {q} {P : List α} {H T E G n : ℕ}

/-- The ring after `H` pops and `T` published messages of the log `P`: the slots of
positions `H` to `E` hold the log, those from `T` on written ahead of the tail. -/
structure Tracks (q : SpscQueue α k) (P : List α) (H T E : ℕ) : Prop where
  head : q.head = BitVec.ofNat 64 H
  tail : q.tail = BitVec.ofNat 64 T
  popped : H ≤ T
  written : T ≤ E
  room : E ≤ H + 2 ^ k
  logged : E ≤ P.length
  slot : ∀ i, H ≤ i → i < E → P[i]? = some (q.slot (i % 2 ^ k))

section Counters

variable (hk : k < 64)

include hk

theorem two_pow_lt : 2 ^ k < 2 ^ 64 := Nat.pow_lt_pow_right (by decide) hk

theorem kCapacity_toNat : q.kCapacity.toNat = 2 ^ k := by
  rw [kCapacity, BitVec.toNat_ofNat, Nat.mod_eq_of_lt (two_pow_lt hk)]

theorem mask_toNat : (q.kCapacity - 1).toNat = 2 ^ k - 1 := by
  have hc := kCapacity_toNat (q := q) hk
  have hp : 0 < 2 ^ k := Nat.two_pow_pos k
  have h64 := two_pow_lt hk
  rw [BitVec.toNat_sub, hc]
  simp only [BitVec.ofNat_eq_ofNat, BitVec.toNat_ofNat]
  omega

/-- Masking a counter is reduction modulo the capacity, across the `2 ^ 64` wrap. -/
theorem index_ofNat (i : ℕ) : q.index (BitVec.ofNat 64 i) = i % 2 ^ k := by
  rw [index, BitVec.toNat_and, mask_toNat hk, Nat.and_two_pow_sub_one_eq_mod, BitVec.toNat_ofNat,
    Nat.mod_mod_of_dvd _ (Nat.pow_dvd_pow 2 (Nat.le_of_lt hk))]

omit hk in
/-- The difference of two counters is the true distance whenever that fits a `size_t`. -/
theorem distance (hle : G ≤ T) (hlt : T - G < 2 ^ 64) :
    (BitVec.ofNat 64 T - BitVec.ofNat 64 G).toNat = T - G := by
  rw [BitVec.toNat_sub, BitVec.toNat_ofNat, BitVec.toNat_ofNat]
  omega

/-- The room test decides whether the loaded head leaves a free slot. -/
theorem full_iff (ht : q.tail = BitVec.ofNat 64 T) (hle : G ≤ T) (hr : T ≤ G + 2 ^ k) :
    q.full (BitVec.ofNat 64 G) = true ↔ T = G + 2 ^ k := by
  have hd := distance (T := T) hle (by have := two_pow_lt hk; omega)
  simp only [full, ht, decide_eq_true_eq, BitVec.le_def, hd, kCapacity_toNat hk]
  omega

/-- What `beginSpan` reserves: a contiguous run of slots that the loaded head leaves free. -/
theorem beginSpan_toNat (ht : q.tail = BitVec.ofNat 64 T) (hle : G ≤ T) (hr : T ≤ G + 2 ^ k)
    (max : Size) :
    (q.beginSpan (BitVec.ofNat 64 G) max).toNat =
      min (min (2 ^ k - T % 2 ^ k) (2 ^ k - (T - G))) max.toNat := by
  have h64 := two_pow_lt hk
  have hd := distance (T := T) hle (by omega)
  have hc := kCapacity_toNat (q := q) hk
  have hm : (q.tail &&& (q.kCapacity - 1)).toNat = T % 2 ^ k := by
    rw [ht]; exact index_ofNat hk T
  have hmod : T % 2 ^ k < 2 ^ k := Nat.mod_lt _ (Nat.two_pow_pos k)
  have hroom : (q.kCapacity - (q.tail - BitVec.ofNat 64 G)).toNat = 2 ^ k - (T - G) := by
    rw [BitVec.toNat_sub, hc, ht, hd]
    omega
  have hcontig : (q.kCapacity - (q.tail &&& (q.kCapacity - 1))).toNat = 2 ^ k - T % 2 ^ k := by
    rw [BitVec.toNat_sub, hc, hm]
    omega
  simp only [beginSpan, BitVec.lt_def]
  split <;> split <;> simp only [hroom, hcontig] at * <;> omega

end Counters

namespace Tracks

variable (t : Tracks q P H T E)

include t

theorem append (m : α) : Tracks q (P ++ [m]) H T E where
  head := t.head
  tail := t.tail
  popped := t.popped
  written := t.written
  room := t.room
  logged := by simp only [List.length_append]; have := t.logged; omega
  slot i h₁ h₂ := by
    rw [List.getElem?_append_left (lt_of_lt_of_le h₂ t.logged)]
    exact t.slot i h₁ h₂

/-- Writing the next message of the log into the next free slot. -/
theorem write {m : α} (hE : E < H + 2 ^ k) (hm : P[E]? = some m) :
    Tracks (q.write (E % 2 ^ k) m) P H T (E + 1) where
  head := t.head
  tail := t.tail
  popped := t.popped
  written := by have := t.written; omega
  room := hE
  logged := (List.getElem?_eq_some_iff.mp hm).choose
  slot i h₁ h₂ := by
    rcases Nat.lt_succ_iff_lt_or_eq.mp h₂ with h | rfl
    · -- positions less than one revolution apart sit in different slots
      have hne : i % 2 ^ k ≠ E % 2 ^ k := fun h' => by
        have h := (Nat.modEq_iff_dvd' h.le).mp h'
        have := Nat.le_of_dvd (by omega) h
        omega
      rw [t.slot i h₁ h]
      exact congrArg some (Function.update_of_ne hne ..).symm
    · rw [hm]
      simp [SpscQueue.write]

theorem commitSpan {n : ℕ} (hn : T + n ≤ E) :
    Tracks (q.commitSpan (BitVec.ofNat 64 n)) P H (T + n) E where
  head := t.head
  tail := by simp only [SpscQueue.commitSpan, t.tail, BitVec.ofNat_add]
  popped := le_trans t.popped (Nat.le_add_right ..)
  written := hn
  room := t.room
  logged := t.logged
  slot := t.slot

theorem advance (hlt : H < T) : Tracks q.advance P (H + 1) T E where
  head := by simp [SpscQueue.advance, t.head, BitVec.ofNat_add]
  tail := t.tail
  popped := hlt
  written := t.written
  room := le_trans t.room (by omega)
  logged := t.logged
  slot i h₁ h₂ := t.slot i (by omega) h₂

theorem read_eq (hk : k < 64) (hlt : H < T) : P[H]? = some q.read := by
  rw [t.slot H le_rfl (lt_of_lt_of_le hlt t.written), SpscQueue.read, t.head, index_ofNat hk]

theorem empty_iff (hk : k < 64) : q.empty = true ↔ H = T := by
  have h64 := two_pow_lt hk
  have hd := distance (T := T) t.popped (by have := t.room; have := t.written; omega)
  rw [empty, beq_iff_eq, t.head, t.tail]
  refine ⟨fun h => ?_, fun h => by rw [h]⟩
  rw [← h, BitVec.sub_self] at hd
  have := t.popped
  simp only [BitVec.toNat_ofNat, Nat.zero_mod] at hd
  omega

theorem spanPtr_eq (hk : k < 64) : q.spanPtr = T % 2 ^ k := by
  rw [SpscQueue.spanPtr, t.tail, index_ofNat hk]

end Tracks

end SpscQueue

end Loxis.Aarc
