import Mathlib.Algebra.GroupWithZero.Nat
import Mathlib.Data.Multiset.Count
import Mathlib.Data.Multiset.AddSub
import Mathlib.Data.Finset.Card
import Mathlib.Data.Multiset.Dedup
import Loxis.Lib.Probe
import Mathlib.Data.Nat.ModEq

/-! # The root bag

The roots of a mutator as an open-addressed table of keys and counts with linear probing. A key
that is removed leaves a tombstone, which the next key on its path may take.
-/

namespace Loxis.Aarc

def kEmpty : UInt64 := 0xFFFFFFFFFFFFFFFF

def kTombstone : UInt64 := 0xFFFFFFFFFFFFFFFE

def kMinCapacity : ℕ := 128

/-- The slots hold keys other than the two marks. -/
def isKey (k : UInt64) : Bool := k != kEmpty && k != kTombstone

def mix (x : UInt64) : UInt64 :=
  let x := x ^^^ (x >>> 33)
  let x := x * 0xff51afd7ed558ccd
  x ^^^ (x >>> 33)

/-- Double `p` until it reaches `n`. -/
def doubled (n : ℕ) : ℕ → ℕ → ℕ
  | 0, p => p
  | m + 1, p => if p < n then doubled n m (2 * p) else p

def nextPow2 (n : ℕ) : ℕ := doubled n n 1

structure RootBag where
  keys : List UInt64
  vals : List UInt32
  size : ℕ
  tombstones : ℕ
deriving DecidableEq

namespace RootBag

def init : RootBag := ⟨[], [], 0, 0⟩

variable (b : RootBag)

def capacity : ℕ := b.keys.length

def mask : ℕ := b.capacity - 1

def keyAt (i : ℕ) : UInt64 := b.keys.getD i kEmpty

def valAt (i : ℕ) : UInt32 := b.vals.getD i 0

/-- Where the probe for a key starts. -/
def home (key : UInt64) : ℕ := (mix key).toNat &&& b.mask

def needsGrow : Bool :=
  b.capacity = 0 || (b.size + 1) * 2 ≥ b.capacity || b.tombstones * 2 ≥ b.capacity

/-- The slot for a key, and whether it is a tombstone that is taken. The loop has a bound on its
turns. -/
def probeInsert (key : UInt64) : ℕ → ℕ → Option ℕ → Option (ℕ × Bool)
  | 0, _, _ => none
  | n + 1, i, firstTomb =>
    let k := b.keyAt i
    if k = key ∨ k = kEmpty then
      match firstTomb with
      | some j => if k = kEmpty then some (j, true) else some (i, false)
      | none => some (i, false)
    else
      probeInsert key n ((i + 1) &&& b.mask)
        (if k = kTombstone ∧ firstTomb = none then some i else firstTomb)

/-- The slot that holds a key, if one does. The loop has a bound on its turns. -/
def probeFind (key : UInt64) : ℕ → ℕ → Option (Option ℕ)
  | 0, _ => none
  | n + 1, i =>
    let k := b.keyAt i
    if k = key then some (some i)
    else if k = kEmpty then some none
    else probeFind key n ((i + 1) &&& b.mask)

/-- Write a key and its count to a slot. -/
def write (slot : ℕ × Bool) (key : UInt64) (val : UInt32) : RootBag :=
  { b with
    keys := b.keys.set slot.1 key
    vals := b.vals.set slot.1 val
    tombstones := if slot.2 then b.tombstones - 1 else b.tombstones }

/-- Put an old entry into the new table. -/
def reinsert (e : UInt64 × UInt32) : Option RootBag :=
  if isKey e.1 then
    (b.probeInsert e.1 b.capacity (b.home e.1) none).map fun slot => b.write slot e.1 e.2
  else some b

/-- A table sized for the entries, without the tombstones. -/
def grow : Option RootBag :=
  let need := (b.size + 1) * 2 + 1
  let capacity := nextPow2 (if need < kMinCapacity then kMinCapacity else need)
  (b.keys.zip b.vals).foldlM reinsert
    ⟨List.replicate capacity kEmpty, List.replicate capacity 0, b.size, 0⟩

/-- Add a key without growing. -/
def addTo (key : UInt64) : Option RootBag :=
  (b.probeInsert key b.capacity (b.home key) none).map fun slot =>
    if b.keyAt slot.1 = key then
      { b with
        vals := b.vals.set slot.1 (b.valAt slot.1 + 1)
        tombstones := if slot.2 then b.tombstones - 1 else b.tombstones }
    else { b.write slot key 1 with size := b.size + 1 }

def add (key : UInt64) : Option RootBag :=
  (if b.needsGrow then b.grow else some b).bind fun b => b.addTo key

def removeOne (key : UInt64) : Option (Bool × RootBag) :=
  if b.keys = [] then some (false, b)
  else
    (b.probeFind key b.capacity (b.home key)).map fun
      | none => (false, b)
      | some i =>
        let b := { b with vals := b.vals.set i (b.valAt i - 1) }
        if b.valAt i = 0 then
          (true, { b with
            keys := b.keys.set i kTombstone, tombstones := b.tombstones + 1, size := b.size - 1 })
        else (true, b)

def empty : Bool := b.size = 0

/-- The entries, in the order of the slots. -/
def each : List (UInt64 × UInt32) := (b.keys.zip b.vals).filter fun e => isKey e.1

def reset : RootBag := ⟨[], [], 0, 0⟩

end RootBag

/-! ## Runs -/

inductive BagOp
  | add (key : UInt64)
  | removeOne (key : UInt64)
  | size
  | empty
  | each
  | reset

inductive BagResult
  | done
  | bool (b : Bool)
  | size (n : ℕ)
  | each (l : List (UInt64 × UInt32))

/-- One operation, or nothing when a probe does not end in time. -/
def BagOp.run (b : RootBag) : BagOp → Option (BagResult × RootBag)
  | add key => (b.add key).map fun b => (.done, b)
  | removeOne key => (b.removeOne key).map fun r => (.bool r.1, r.2)
  | size => some (.size b.size, b)
  | empty => some (.bool b.empty, b)
  | each => some (.each b.each, b)
  | reset => some (.done, .reset)

def RootBag.run : List BagOp → RootBag → Option (List BagResult × RootBag)
  | [], b => some ([], b)
  | op :: ops, b =>
    (op.run b).bind fun r => (RootBag.run ops r.2).map fun rs => (r.1 :: rs.1, rs.2)

/-! ## Multisets -/

/-- The multiset after an operation. -/
def BagOp.next (m : Multiset UInt64) : BagOp → Multiset UInt64
  | add key => key ::ₘ m
  | removeOne key => m.erase key
  | size | empty | each => m
  | reset => 0

/-- The answers of a multiset. The entries are its keys with their counts, in any order. -/
def BagOp.Answers (m : Multiset UInt64) : BagOp → BagResult → Prop
  | add _, r | reset, r => r = .done
  | removeOne key, r => r = .bool (decide (key ∈ m))
  | size, r => r = .size m.toFinset.card
  | empty, r => r = .bool (decide (m = 0))
  | each, r => ∃ l, r = .each l ∧ (l.map Prod.fst).Nodup ∧
      ∀ k v, (k, v) ∈ l ↔ k ∈ m ∧ v.toNat = m.count k

/-- Keys are no marks, and counts stay below 2^32. -/
def BagOp.Allowed (m : Multiset UInt64) : BagOp → Prop
  | add key => isKey key = true ∧ m.count key + 1 < 2 ^ 32
  | removeOne key => isKey key = true
  | size | empty | each | reset => True

def AllAllowed : Multiset UInt64 → List BagOp → Prop
  | _, [] => True
  | m, op :: ops => op.Allowed m ∧ AllAllowed (op.next m) ops

def AllAnswered : Multiset UInt64 → List BagOp → List BagResult → Prop
  | _, [], rs => rs = []
  | m, op :: ops, rs => ∃ r rs', rs = r :: rs' ∧ op.Answers m r ∧ AllAnswered (op.next m) ops rs'

end Loxis.Aarc

/-! ## The probes of a root bag

Every key of the table is where its probe stops. Writing to an empty slot or to a tombstone on a
path, and leaving a tombstone, keeps this for all keys.
-/

namespace Loxis.Aarc.RootBag

variable {b : RootBag} {key k : UInt64} {val : UInt32} {h i j m n p q : ℕ} {tomb : Option ℕ}

/-! ## Slots -/

theorem getD_set {α : Type} {l : List α} {x d : α} (hq : q < l.length) :
    (l.set q x).getD p d = if p = q then x else l.getD p d := by
  rw [List.getD_eq_getElem?_getD, List.getD_eq_getElem?_getD, List.getElem?_set]
  by_cases hp : p = q
  · subst hp
    simp [hq]
  · rw [if_neg (Ne.symm hp), if_neg hp]

theorem getElem?_keys (hp : p < b.capacity) : b.keys[p]? = some (b.keyAt p) := by
  rw [keyAt, List.getD_eq_getElem?_getD, List.getElem?_eq_getElem hp]
  rfl

theorem getElem_keys (hq : q < b.keys.length) : b.keys[q] = b.keyAt q := by
  have := getElem?_keys hq
  rwa [List.getElem?_eq_getElem hq, Option.some.injEq] at this

theorem mem_keys : k ∈ b.keys ↔ ∃ p < b.capacity, b.keyAt p = k := by
  rw [List.mem_iff_getElem?]
  constructor
  · rintro ⟨p, hp⟩
    have hlt : p < b.capacity := (List.getElem?_eq_some_iff.mp hp).1
    exact ⟨p, hlt, Option.some.inj ((getElem?_keys hlt).symm.trans hp)⟩
  · rintro ⟨p, hp, rfl⟩
    exact ⟨p, getElem?_keys hp⟩

theorem keyAt_mem (hp : p < b.capacity) : b.keyAt p ∈ b.keys := mem_keys.mpr ⟨p, hp, rfl⟩

theorem isKey_iff : isKey k = true ↔ k ≠ kEmpty ∧ k ≠ kTombstone := by
  simp [isKey]

/-- The probe for a key stops here. -/
def stops (b : RootBag) (key : UInt64) (p : ℕ) : Bool := b.keyAt p = key || b.keyAt p = kEmpty

theorem stops_iff : b.stops key p = true ↔ b.keyAt p = key ∨ b.keyAt p = kEmpty := by
  simp [stops]

theorem stops_eq_false : b.stops key p = false ↔ b.keyAt p ≠ key ∧ b.keyAt p ≠ kEmpty := by
  simp [stops]

/-- Where the probe for a key ends. -/
def slotOf (b : RootBag) (key : UInt64) : ℕ :=
  probe (b.stops key) b.capacity b.capacity (b.home key)

/-- Every key is where its probe ends, and the tombstones are counted. -/
structure Table (b : RootBag) : Prop where
  pow : ∃ e, b.capacity = 2 ^ e
  vals_length : b.vals.length = b.keys.length
  found : ∀ p < b.capacity, isKey (b.keyAt p) = true → b.slotOf (b.keyAt p) = p
  tombs : b.tombstones = b.keys.countP (· == kTombstone)

namespace Table

theorem and_mask (hT : b.Table) (x : ℕ) : x &&& b.mask = x % b.capacity := by
  obtain ⟨e, he⟩ := hT.pow
  rw [mask, he, Nat.and_two_pow_sub_one_eq_mod]

theorem capacity_pos (hT : b.Table) : 0 < b.capacity := by
  obtain ⟨e, he⟩ := hT.pow
  rw [he]
  exact Nat.two_pow_pos e

theorem home_lt (hT : b.Table) : b.home key < b.capacity := by
  rw [home, hT.and_mask]
  exact Nat.mod_lt _ hT.capacity_pos

theorem slotOf_lt (hT : b.Table) : b.slotOf key < b.capacity :=
  probe_lt hT.capacity_pos hT.home_lt

/-- The probe for a key ends where it should when there is an empty slot or the key itself. -/
theorem stops_slotOf (hT : b.Table) (hm : kEmpty ∈ b.keys ∨ key ∈ b.keys) :
    b.stops key (b.slotOf key) = true := by
  obtain ⟨p, hp, hs⟩ : ∃ p < b.capacity, b.stops key p = true := by
    obtain hm | hm := hm
    · obtain ⟨p, hp, he⟩ := mem_keys.mp hm
      exact ⟨p, hp, stops_iff.mpr (.inr he)⟩
    · obtain ⟨p, hp, he⟩ := mem_keys.mp hm
      exact ⟨p, hp, stops_iff.mpr (.inl he)⟩
  exact probe_stops hT.home_lt hp hs

/-- The path of a probe that ends is shorter than the table. -/
theorem path (hT : b.Table) (hs : b.stops key (b.slotOf key) = true) :
    ∃ i < b.capacity, b.slotOf key = (b.home key + i) % b.capacity ∧
      ∀ j < i, b.stops key ((b.home key + j) % b.capacity) = false := by
  obtain ⟨i, hi, heq, hpre⟩ := probe_path hT.home_lt hs
  refine ⟨i, Nat.lt_of_le_of_ne hi ?_, heq, hpre⟩
  rintro rfl
  have h0 := hpre 0 hT.capacity_pos
  rw [Nat.add_zero, Nat.mod_eq_of_lt hT.home_lt] at h0
  have heq : b.slotOf key = b.home key := by
    rw [slotOf, heq, Nat.add_mod_right, Nat.mod_eq_of_lt hT.home_lt]
  rw [heq, h0] at hs
  cases hs

theorem shift (hT : b.Table) (h j : ℕ) :
    (((h + 1) &&& b.mask) + j) % b.capacity = (h + (j + 1)) % b.capacity := by
  rw [hT.and_mask, Nat.mod_add_mod, show h + 1 + j = h + (j + 1) by omega]

theorem probeFind_path (hT : b.Table) (hh : h < b.capacity)
    (hpre : ∀ j < i, b.stops key ((h + j) % b.capacity) = false)
    (hs : b.stops key ((h + i) % b.capacity) = true) (hn : i < n) :
    b.probeFind key n h = some (if b.keyAt ((h + i) % b.capacity) = key then
      some ((h + i) % b.capacity) else none) := by
  induction i generalizing h n with
  | zero =>
    obtain ⟨n, rfl⟩ := Nat.exists_eq_add_one_of_ne_zero (Nat.ne_zero_of_lt hn)
    have hmod : (h + 0) % b.capacity = h := Nat.mod_eq_of_lt hh
    rw [hmod] at hs ⊢
    rw [probeFind]
    by_cases hk : b.keyAt h = key
    · simp only [if_pos hk]
    · simp only [if_neg hk, if_pos ((stops_iff.mp hs).resolve_left hk)]
  | succ i ih =>
    obtain ⟨n, rfl⟩ := Nat.exists_eq_add_one_of_ne_zero (Nat.ne_zero_of_lt hn)
    have h0 := hpre 0 (Nat.succ_pos i)
    rw [Nat.add_zero, Nat.mod_eq_of_lt hh] at h0
    obtain ⟨hk, he⟩ := stops_eq_false.mp h0
    have hlt : (h + 1) &&& b.mask < b.capacity := by
      rw [hT.and_mask]
      exact Nat.mod_lt _ hT.capacity_pos
    have hrun := ih (h := (h + 1) &&& b.mask) (n := n) hlt
      (fun j hj => by rw [hT.shift]; exact hpre (j + 1) (by omega)) (by rwa [hT.shift]) (by omega)
    rw [hT.shift] at hrun
    rw [probeFind]
    simp only [if_neg hk, if_neg he]
    exact hrun

/-- The slot for a key: where the probe ends, or the first tombstone on its path. -/
theorem probeInsert_path (hT : b.Table) (hh : h < b.capacity)
    (hpre : ∀ j < i, b.stops key ((h + j) % b.capacity) = false)
    (hs : b.stops key ((h + i) % b.capacity) = true) (hn : i < n) :
    ∃ q r, b.probeInsert key n h tomb = some (q, r) ∧
      (r = false ∧ q = (h + i) % b.capacity ∧ (b.keyAt q = key ∨ b.keyAt q = kEmpty) ∨
        r = true ∧ b.keyAt ((h + i) % b.capacity) = kEmpty ∧
          (tomb = some q ∨ ∃ j < i, q = (h + j) % b.capacity ∧ b.keyAt q = kTombstone)) := by
  induction i generalizing h n tomb with
  | zero =>
    obtain ⟨n, rfl⟩ := Nat.exists_eq_add_one_of_ne_zero (Nat.ne_zero_of_lt hn)
    have hmod : (h + 0) % b.capacity = h := Nat.mod_eq_of_lt hh
    rw [hmod] at hs ⊢
    have hs := stops_iff.mp hs
    unfold probeInsert
    simp only [if_pos hs]
    cases tomb with
    | none => exact ⟨h, false, rfl, .inl ⟨rfl, rfl, hs⟩⟩
    | some q =>
      by_cases he : b.keyAt h = kEmpty
      · exact ⟨q, true, by simp [he], .inr ⟨rfl, he, .inl rfl⟩⟩
      · exact ⟨h, false, by simp [he], .inl ⟨rfl, rfl, hs⟩⟩
  | succ i ih =>
    obtain ⟨n, rfl⟩ := Nat.exists_eq_add_one_of_ne_zero (Nat.ne_zero_of_lt hn)
    have h0 := hpre 0 (Nat.succ_pos i)
    rw [Nat.add_zero, Nat.mod_eq_of_lt hh] at h0
    have hne := not_or.mpr (stops_eq_false.mp h0)
    have hlt : (h + 1) &&& b.mask < b.capacity := by
      rw [hT.and_mask]
      exact Nat.mod_lt _ hT.capacity_pos
    unfold probeInsert
    simp only [if_neg hne]
    obtain ⟨q, r, hrun, hcases⟩ := ih hlt
      (fun j hj => by rw [hT.shift]; exact hpre (j + 1) (by omega)) (by rwa [hT.shift])
      (Nat.lt_of_succ_lt_succ hn)
    rw [hT.shift] at hcases
    refine ⟨q, r, hrun, hcases.imp_right ?_⟩
    rintro ⟨hr, he, htomb⟩
    refine ⟨hr, he, ?_⟩
    obtain htomb | ⟨j, hj, hq, hk⟩ := htomb
    · split at htomb
      · next hc =>
        obtain rfl := Option.some.inj htomb
        exact .inr ⟨0, Nat.succ_pos i, (Nat.mod_eq_of_lt hh).symm, hc.1⟩
      · exact .inl htomb
    · exact .inr ⟨j + 1, by omega, by rw [hq, hT.shift], hk⟩

/-! ## Writing -/

theorem probeFind_spec (hT : b.Table) (hm : kEmpty ∈ b.keys ∨ key ∈ b.keys) :
    b.probeFind key b.capacity (b.home key) =
      some (if b.keyAt (b.slotOf key) = key then some (b.slotOf key) else none) := by
  have hs := hT.stops_slotOf hm
  obtain ⟨i, hi, heq, hpre⟩ := hT.path hs
  rw [heq] at hs ⊢
  exact hT.probeFind_path hT.home_lt hpre hs hi

/-- A key of the table is found, and is where its probe ends. -/
theorem keyAt_slotOf (hT : b.Table) (hk : isKey key = true) (hm : key ∈ b.keys) :
    b.keyAt (b.slotOf key) = key := by
  obtain ⟨p, hp, rfl⟩ := mem_keys.mp hm
  rw [hT.found p hp hk]

theorem probeInsert_mem (hT : b.Table) (hk : isKey key = true) (hm : key ∈ b.keys) :
    b.probeInsert key b.capacity (b.home key) none = some (b.slotOf key, false) := by
  have hs := hT.stops_slotOf (.inr hm)
  obtain ⟨i, hi, heq, hpre⟩ := hT.path hs
  have hkey := hT.keyAt_slotOf hk hm
  rw [heq] at hs hkey ⊢
  obtain ⟨q, r, hrun, ⟨rfl, rfl, -⟩ | ⟨-, he, -⟩⟩ :=
    hT.probeInsert_path hT.home_lt hpre hs hi
  · exact hrun
  · rw [hkey] at he
    exact absurd he (isKey_iff.mp hk).1

/-- A slot on the path of a key that may take it. -/
structure Free (b : RootBag) (key : UInt64) (q : ℕ) (r : Bool) : Prop where
  lt : q < b.capacity
  mark : b.keyAt q = if r then kTombstone else kEmpty
  path : ∃ m < b.capacity, q = (b.home key + m) % b.capacity ∧
    ∀ j < m, b.stops key ((b.home key + j) % b.capacity) = false

/-- A key that is not in the table gets a slot that may take it. -/
theorem probeInsert_free (hT : b.Table) (hm : key ∉ b.keys) (he : kEmpty ∈ b.keys) :
    ∃ q r, b.probeInsert key b.capacity (b.home key) none = some (q, r) ∧ Free b key q r := by
  have hs : b.stops key (b.slotOf key) = true := hT.stops_slotOf (.inl he)
  obtain ⟨i, hi, heq, hpre⟩ := hT.path hs
  have hlt : b.slotOf key < b.capacity := hT.slotOf_lt
  rw [heq] at hs hlt
  obtain ⟨q, r, hrun, ⟨rfl, rfl, hor⟩ | ⟨rfl, -, hnone | ⟨j, hj, rfl, htomb⟩⟩⟩ :=
    hT.probeInsert_path hT.home_lt hpre hs hi
  · have hmark := hor.resolve_left fun hk => hm (hk ▸ keyAt_mem hlt)
    exact ⟨_, false, hrun, hlt, hmark, i, hi, rfl, hpre⟩
  · cases hnone
  · exact ⟨_, true, hrun, Nat.mod_lt _ hT.capacity_pos, htomb, j, hj.trans hi, rfl,
      fun j' hj' => hpre j' (hj'.trans hj)⟩

theorem Free.not_isKey {r : Bool} (h : Free b key q r) : isKey (b.keyAt q) = false := by
  rw [h.mark]
  cases r <;> decide

theorem mod_ne (hj : j < m) (hm : m < n) : (h + j) % n ≠ (h + m) % n := by
  intro heq
  have hmod : j ≡ m [MOD n] := Nat.ModEq.add_left_cancel' h heq
  rw [Nat.ModEq, Nat.mod_eq_of_lt (hj.trans hm), Nat.mod_eq_of_lt hm] at hmod
  omega

@[simp] theorem capacity_write (s : ℕ × Bool) : (b.write s key val).capacity = b.capacity :=
  List.length_set

@[simp] theorem home_write (s : ℕ × Bool) : (b.write s key val).home k = b.home k := by
  rw [home, home, mask, mask, capacity_write]

theorem keyAt_write {r : Bool} (hq : q < b.capacity) :
    (b.write (q, r) key val).keyAt p = if p = q then key else b.keyAt p :=
  getD_set hq

/-- Writing a new key to a slot that may take it. -/
theorem write (hT : b.Table) {r : Bool} (hk : isKey key = true) (hm : key ∉ b.keys)
    (hq : Free b key q r) : (b.write (q, r) key val).Table where
  pow := by rw [capacity_write]; exact hT.pow
  vals_length := by simp [RootBag.write, hT.vals_length]
  found p hp hkey := by
    rw [capacity_write] at hp
    rw [slotOf, capacity_write, home_write]
    by_cases hpq : p = q
    · subst hpq
      obtain ⟨m, hm', heq, hpre⟩ := hq.path
      rw [keyAt_write hq.lt, if_pos rfl]
      refine (probe_first hT.home_lt hm'.le (fun j hj => ?_) ?_).trans heq.symm
      · have hne : (b.home key + j) % b.capacity ≠ p := fun h => mod_ne hj hm' (h.trans heq)
        rw [stops_eq_false, keyAt_write hq.lt, if_neg hne]
        exact stops_eq_false.mp (hpre j hj)
      · rw [stops_iff, keyAt_write hq.lt, if_pos heq.symm]
        exact .inl rfl
    · rw [keyAt_write hq.lt, if_neg hpq] at hkey ⊢
      have hfound := hT.found p hp hkey
      have hne : b.keyAt p ≠ key := fun heq => hm (heq ▸ keyAt_mem hp)
      have hagree : ∀ x, x ≠ q →
          (b.write (q, r) key val).stops (b.keyAt p) x = b.stops (b.keyAt p) x := fun x hx => by
        rw [stops, stops, keyAt_write hq.lt, if_neg hx]
      cases r with
      | true =>
        -- a tombstone stops no probe, nor does the new key stop that of another
        have hsame : (b.write (q, true) key val).stops (b.keyAt p) = b.stops (b.keyAt p) := by
          funext x
          by_cases hx : x = q
          · subst hx
            have hold : b.stops (b.keyAt p) x = false := by
              rw [stops_eq_false, hq.mark]
              exact ⟨(isKey_iff.mp hkey).2.symm, by decide⟩
            rw [hold, stops_eq_false, keyAt_write hq.lt, if_pos rfl]
            exact ⟨hne.symm, (isKey_iff.mp hk).1⟩
          · exact hagree x hx
        rw [hsame]
        exact hfound
      | false =>
        -- a probe that ends elsewhere has not come to the empty slot
        have hstop : b.stops (b.keyAt p) q = true := stops_iff.mpr (.inr hq.mark)
        rw [slotOf] at hfound
        rw [probe_update hagree hstop (by rw [hfound]; exact hpq), hfound]
  tombs := by
    have hlt : q < b.keys.length := hq.lt
    have hget := getElem_keys hlt
    have hnew : (key == kTombstone) = false := beq_eq_false_iff_ne.mpr (isKey_iff.mp hk).2
    have hcount := List.countP_set (p := (· == kTombstone)) (a := key) hlt
    rw [hnew, hget, hq.mark] at hcount
    change (if r then b.tombstones - 1 else b.tombstones) = (b.keys.set q key).countP _
    rw [hcount, hT.tombs]
    cases r
    · simp [show (kEmpty == kTombstone) = false by decide]
    · simp

/-- Changing a count. -/
theorem setVal (hT : b.Table) : ({ b with vals := b.vals.set q val } : RootBag).Table where
  pow := hT.pow
  vals_length := by simp [hT.vals_length]
  found := hT.found
  tombs := hT.tombs

/-- Leaving a tombstone. -/
theorem bury (hT : b.Table) (hq : q < b.capacity) (hk : isKey (b.keyAt q) = true) (s : ℕ) :
    ({ b with keys := b.keys.set q kTombstone, tombstones := b.tombstones + 1, size := s } :
      RootBag).Table := by
  set b' : RootBag :=
    { b with keys := b.keys.set q kTombstone, tombstones := b.tombstones + 1, size := s }
  have hcap : b'.capacity = b.capacity := List.length_set
  have hat : ∀ x, b'.keyAt x = if x = q then kTombstone else b.keyAt x := fun x => getD_set hq
  refine ⟨hcap ▸ hT.pow, by simp [b', hT.vals_length], fun p hp hkey => ?_, ?_⟩
  · rw [hcap] at hp
    by_cases hpq : p = q
    · rw [hat, if_pos hpq] at hkey
      exact absurd hkey (by decide)
    · rw [hat, if_neg hpq] at hkey ⊢
      have hfound := hT.found p hp hkey
      have hsame : b'.stops (b.keyAt p) = b.stops (b.keyAt p) := by
        funext x
        by_cases hx : x = q
        · subst hx
          have hne : b.keyAt x ≠ b.keyAt p := fun heq => by
            have := hT.found x hq hk
            rw [heq, hfound] at this
            exact hpq this
          have hold : b.stops (b.keyAt p) x = false :=
            stops_eq_false.mpr ⟨hne, (isKey_iff.mp hk).1⟩
          rw [hold, stops_eq_false, hat, if_pos rfl]
          exact ⟨(isKey_iff.mp hkey).2.symm, by decide⟩
        · rw [stops, stops, hat, if_neg hx]
      rw [slotOf, hsame, hcap, home, mask, hcap]
      exact hfound
  · have hcount := List.countP_set (p := (· == kTombstone)) (a := kTombstone) (l := b.keys) hq
    have hold : (b.keyAt q == kTombstone) = false := beq_eq_false_iff_ne.mpr (isKey_iff.mp hk).2
    rw [getElem_keys hq, hold] at hcount
    change b.tombstones + 1 = (b.keys.set q kTombstone).countP _
    rw [hcount, hT.tombs]
    simp

end Table

end Loxis.Aarc.RootBag
