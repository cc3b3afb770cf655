import Mathlib.Data.Finset.Dedup
import Loxis.Aarc.RootBag

/-! # The root bag as a multiset

The table holds the counts of a multiset. A slot stays empty through every operation, so the
probes end, and a growth puts every entry into the new table.
-/

namespace Loxis.Aarc.RootBag

open Function

variable {b b' : RootBag} {key k : UInt64} {v val : UInt32} {c : UInt64 → ℕ} {n p q : ℕ}
  {ks : List UInt64} {m : Multiset UInt64}

/-! ## Contents -/

/-- The table holds these counts, which are positive for the keys that are in it. -/
structure Holds (b : RootBag) (c : UInt64 → ℕ) : Prop where
  val : ∀ p < b.capacity, isKey (b.keyAt p) = true →
    (b.valAt p).toNat = c (b.keyAt p) ∧ c (b.keyAt p) ≠ 0
  mem : ∀ k, c k ≠ 0 → isKey k = true ∧ k ∈ b.keys

theorem Holds.mem_iff (h : b.Holds c) (hk : isKey k = true) : k ∈ b.keys ↔ c k ≠ 0 := by
  refine ⟨fun hm => ?_, fun hc => (h.mem k hc).2⟩
  obtain ⟨p, hp, rfl⟩ := mem_keys.mp hm
  exact (h.val p hp hk).2

/-- The entries are counted by their kind. -/
theorem countP_kinds (ks : List UInt64) : ks.countP isKey + ks.countP (· == kTombstone) +
    ks.countP (· == kEmpty) = ks.length := by
  induction ks with
  | nil => rfl
  | cons k ks ih =>
    rw [List.countP_cons, List.countP_cons, List.countP_cons, List.length_cons, ← ih]
    by_cases he : k = kEmpty
    · subst he
      simp [isKey, show (kEmpty == kTombstone) = false by decide]
      omega
    · by_cases ht : k = kTombstone
      · subst ht
        simp [isKey, show (kTombstone == kEmpty) = false by decide]
        omega
      · simp [isKey, he, ht]
        omega

theorem empty_mem (hT : b.Table) (h : b.keys.countP isKey + b.tombstones < b.capacity) :
    kEmpty ∈ b.keys := by
  have hsum := countP_kinds b.keys
  rw [← hT.tombs] at hsum
  have hpos : 0 < b.keys.countP (· == kEmpty) := by
    have : b.capacity = b.keys.length := rfl
    omega
  obtain ⟨k, hk, he⟩ := List.countP_pos_iff.mp hpos
  obtain rfl : k = kEmpty := by simpa using he
  exact hk

/-- A key that is not in the table is put there. -/
theorem put_spec (hT : b.Table) (hH : b.Holds c) (hk : isKey key = true) (hm : key ∉ b.keys)
    (he : kEmpty ∈ b.keys) (hv : val ≠ 0) :
    ∃ s, b.probeInsert key b.capacity (b.home key) none = some s ∧ b.keyAt s.1 ≠ key ∧
      (b.write s key val).Table ∧ (b.write s key val).Holds (update c key val.toNat) ∧
      (b.write s key val).keys.countP isKey = b.keys.countP isKey + 1 ∧
      (b.write s key val).tombstones ≤ b.tombstones := by
  obtain ⟨q, r, hrun, hfree⟩ := hT.probeInsert_free hm he
  have hlt : q < b.keys.length := hfree.lt
  have hvals : q < b.vals.length := by
    rw [hT.vals_length]
    exact hlt
  have hval : ∀ p, (b.write (q, r) key val).valAt p = if p = q then val else b.valAt p :=
    fun p => getD_set hvals
  refine ⟨(q, r), hrun, ?_, hT.write hk hm hfree, ⟨fun p hp hkey => ?_, fun k hc => ?_⟩, ?_, ?_⟩
  · exact fun heq => hm (heq ▸ keyAt_mem hfree.lt)
  · rw [Table.capacity_write] at hp
    rw [hval]
    rw [Table.keyAt_write hfree.lt] at hkey ⊢
    by_cases hpq : p = q
    · rw [if_pos hpq, if_pos hpq, update_self]
      exact ⟨rfl, fun h0 => hv (UInt32.toNat_inj.mp h0)⟩
    · rw [if_neg hpq] at hkey ⊢
      have hne : b.keyAt p ≠ key := fun heq => hm (heq ▸ keyAt_mem hp)
      rw [if_neg hpq, update_of_ne hne]
      exact hH.val p hp hkey
  · by_cases hkk : k = key
    · subst hkk
      exact ⟨hk, List.mem_set hlt _⟩
    · rw [update_of_ne hkk] at hc
      obtain ⟨hkey, hmem⟩ := hH.mem k hc
      obtain ⟨p, hp, rfl⟩ := mem_keys.mp hmem
      have hpq : p ≠ q := by
        rintro rfl
        rw [hfree.not_isKey] at hkey
        cases hkey
      refine ⟨hkey, mem_keys.mpr ⟨p, by rwa [Table.capacity_write], ?_⟩⟩
      rw [Table.keyAt_write hfree.lt, if_neg hpq]
  · have hcount := List.countP_set (p := isKey) (a := key) hlt
    rw [getElem_keys hlt, hfree.not_isKey, hk] at hcount
    exact hcount
  · change (if r then b.tombstones - 1 else b.tombstones) ≤ _
    split <;> omega

/-! ## Entries -/

theorem mem_each (hT : b.Table) : (k, v) ∈ b.each ↔
    ∃ p < b.capacity, b.keyAt p = k ∧ b.valAt p = v ∧ isKey k = true := by
  have hlen := hT.vals_length
  rw [each, List.mem_filter, List.mem_iff_getElem?]
  constructor
  · rintro ⟨⟨p, hp⟩, hk⟩
    rw [List.getElem?_zip_eq_some] at hp
    have hlt : p < b.capacity := (List.getElem?_eq_some_iff.mp hp.1).1
    refine ⟨p, hlt, Option.some.inj ((getElem?_keys hlt).symm.trans hp.1), ?_, hk⟩
    rw [valAt, List.getD_eq_getElem?_getD, hp.2]
    rfl
  · rintro ⟨p, hp, rfl, rfl, hk⟩
    have hlt : p < b.vals.length := hlen ▸ hp
    refine ⟨⟨p, List.getElem?_zip_eq_some.mpr ⟨getElem?_keys hp, ?_⟩⟩, hk⟩
    rw [valAt, List.getD_eq_getElem?_getD, List.getElem?_eq_getElem hlt]
    rfl

theorem keys_each (hT : b.Table) : b.each.map Prod.fst = b.keys.filter isKey := by
  rw [each]
  have hzip : (b.keys.zip b.vals).map Prod.fst = b.keys :=
    List.map_fst_zip (by rw [hT.vals_length])
  nth_rewrite 2 [← hzip]
  rw [List.filter_map]
  rfl

/-- A key has one slot. -/
theorem nodup_keys (hT : b.Table) : (b.keys.filter isKey).Nodup := by
  rw [List.Nodup, List.pairwise_filter, List.pairwise_iff_getElem]
  intro p q hp hq hlt hkp hkq heq
  rw [getElem_keys hp] at hkp heq
  rw [getElem_keys hq] at hkq heq
  have hp' := hT.found p hp hkp
  rw [heq, hT.found q hq hkq] at hp'
  omega

theorem mem_each_iff (hT : b.Table) (hH : b.Holds c) :
    (k, v) ∈ b.each ↔ c k ≠ 0 ∧ v.toNat = c k := by
  rw [mem_each hT]
  constructor
  · rintro ⟨p, hp, rfl, rfl, hk⟩
    obtain ⟨hval, hne⟩ := hH.val p hp hk
    exact ⟨hne, hval⟩
  · rintro ⟨hne, hval⟩
    obtain ⟨hk, hm⟩ := hH.mem k hne
    obtain ⟨p, hp, rfl⟩ := mem_keys.mp hm
    refine ⟨p, hp, rfl, UInt32.toNat_inj.mp ?_, hk⟩
    rw [hval, (hH.val p hp hk).1]

/-! ## Growing -/

/-- The counts of some of the keys. -/
def part (c : UInt64 → ℕ) (ks : List UInt64) (k : UInt64) : ℕ := if k ∈ ks then c k else 0

theorem part_append (c : UInt64 → ℕ) (ks : List UInt64) (k : UInt64) :
    update (part c ks) k (c k) = part c (ks ++ [k]) := by
  funext x
  by_cases hx : x = k
  · subst hx
    simp [part]
  · simp [part, hx]

/-- Old entries go into the new table one after the other. -/
theorem regrow_spec {l : List (UInt64 × UInt32)} (hT : b.Table) (hH : b.Holds (part c ks))
    (ht : b.tombstones = 0) (hcount : b.keys.countP isKey = ks.length)
    (hroom : ks.length + ((l.map Prod.fst).filter isKey).length < b.capacity)
    (hl : ∀ e ∈ l, isKey e.1 = true → e.2.toNat = c e.1 ∧ c e.1 ≠ 0)
    (hnd : (ks ++ (l.map Prod.fst).filter isKey).Nodup) :
    ∃ b', l.foldlM reinsert b = some b' ∧ b'.Table ∧
      b'.Holds (part c (ks ++ (l.map Prod.fst).filter isKey)) ∧ b'.tombstones = 0 ∧
      b'.keys.countP isKey = (ks ++ (l.map Prod.fst).filter isKey).length ∧
      b'.capacity = b.capacity ∧ b'.size = b.size := by
  induction l generalizing b ks with
  | nil =>
    rw [List.map_nil, List.filter_nil, List.append_nil]
    exact ⟨b, rfl, hT, hH, ht, hcount, rfl, rfl⟩
  | cons e l ih =>
    rw [List.foldlM_cons, reinsert]
    rw [List.map_cons] at hnd hroom ⊢
    have hrest := fun x hx => hl x (List.mem_cons_of_mem e hx)
    by_cases hk : isKey e.1 = true
    · rw [List.filter_cons_of_pos hk] at hnd hroom ⊢
      rw [List.length_cons] at hroom
      obtain ⟨hval, hne⟩ := hl e List.mem_cons_self hk
      have hnew : e.1 ∉ ks := fun hm =>
        (List.nodup_append.mp hnd).2.2 e.1 hm e.1 List.mem_cons_self rfl
      have hmem : e.1 ∉ b.keys := by
        rw [hH.mem_iff hk, part, if_neg hnew]
        exact not_not.mpr rfl
      have hv : e.2 ≠ 0 := fun h0 => hne (by rw [← hval, h0]; rfl)
      obtain ⟨s, hrun, -, hT', hH', hcount', htomb'⟩ :=
        put_spec hT hH hk hmem (empty_mem hT (by omega)) hv
      rw [hval, part_append] at hH'
      have happ : ks ++ e.1 :: (l.map Prod.fst).filter isKey =
          ks ++ [e.1] ++ (l.map Prod.fst).filter isKey := by simp
      rw [happ] at hnd ⊢
      obtain ⟨b', hfold, hb⟩ := ih hT' hH' (by omega)
        (by rw [hcount', hcount, List.length_append, List.length_singleton])
        (by rw [List.length_append, List.length_singleton, Table.capacity_write]; omega) hrest hnd
      rw [Table.capacity_write] at hb
      refine ⟨b', ?_, hb⟩
      rw [if_pos hk, hrun]
      exact hfold
    · rw [List.filter_cons_of_neg hk] at hnd hroom ⊢
      rw [if_neg hk]
      exact ih hT hH ht hcount hroom hrest hnd

theorem doubled_pow {n m p : ℕ} (hp : ∃ e, p = 2 ^ e) : ∃ e, doubled n m p = 2 ^ e := by
  induction m generalizing p with
  | zero => exact hp
  | succ m ih =>
    rw [doubled]
    split
    · obtain ⟨e, rfl⟩ := hp
      exact ih ⟨e + 1, by rw [Nat.pow_succ, Nat.mul_comm]⟩
    · exact hp

theorem le_doubled {n m p : ℕ} (hp : 0 < p) (hn : n ≤ p + m) : n ≤ doubled n m p := by
  induction m generalizing p with
  | zero => exact hn
  | succ m ih =>
    rw [doubled]
    split
    · exact ih (by omega) (by omega)
    · omega

theorem nextPow2_spec (n : ℕ) : (∃ e, nextPow2 n = 2 ^ e) ∧ n ≤ nextPow2 n :=
  ⟨doubled_pow ⟨0, rfl⟩, le_doubled Nat.one_pos (Nat.le_add_left ..)⟩

section Emptied

variable {s : ℕ}

/-- A table of empty slots. -/
def emptied (n s : ℕ) : RootBag := ⟨List.replicate n kEmpty, List.replicate n 0, s, 0⟩

theorem capacity_emptied : (emptied n s).capacity = n := List.length_replicate

theorem isKey_emptied : isKey ((emptied n s).keyAt p) = false := by
  have hat : (emptied n s).keyAt p = kEmpty := by
    rw [keyAt, emptied, List.getD_eq_getElem?_getD, List.getElem?_replicate]
    split <;> rfl
  rw [hat]
  decide

theorem table_emptied (hn : ∃ e, n = 2 ^ e) : (emptied n s).Table where
  pow := by rwa [capacity_emptied]
  vals_length := by simp [emptied]
  found p _ hk := by
    rw [isKey_emptied] at hk
    cases hk
  tombs := by simp [emptied, List.countP_replicate, show (kEmpty == kTombstone) = false by decide]

theorem holds_emptied (c : UInt64 → ℕ) : (emptied n s).Holds (part c []) where
  val p _ hk := by
    rw [isKey_emptied] at hk
    cases hk
  mem k hk := absurd rfl hk

theorem countP_emptied : (emptied n s).keys.countP isKey = 0 := by
  simp [emptied, List.countP_replicate, show isKey kEmpty = false by decide]

end Emptied

/-- The table of a bag with slots. -/
structure Full (b : RootBag) (c : UInt64 → ℕ) : Prop extends b.Table, b.Holds c where
  size_eq : b.size = b.keys.countP isKey
  room : b.size + b.tombstones < b.capacity

/-- A bag holds counts: it has a table, or no slots and nothing in it. -/
def Sound (b : RootBag) (c : UInt64 → ℕ) : Prop := b.Full c ∨ b = init ∧ ∀ k, c k = 0

/-- Whatever the table, its entries are the keys that are counted. -/
theorem Sound.entries (h : b.Sound c) :
    (∀ e ∈ b.keys.zip b.vals, isKey e.1 = true → e.2.toNat = c e.1 ∧ c e.1 ≠ 0) ∧
      (((b.keys.zip b.vals).map Prod.fst).filter isKey).Nodup ∧
      (((b.keys.zip b.vals).map Prod.fst).filter isKey).length = b.size ∧
      part c (((b.keys.zip b.vals).map Prod.fst).filter isKey) = c := by
  obtain h | ⟨rfl, hc⟩ := h
  · have hzip : (b.keys.zip b.vals).map Prod.fst = b.keys :=
      List.map_fst_zip (by rw [h.vals_length])
    rw [hzip]
    refine ⟨fun e he hk => ?_, nodup_keys h.toTable, ?_, ?_⟩
    · have hm : (e.1, e.2) ∈ b.each := List.mem_filter.mpr ⟨he, hk⟩
      exact ((mem_each_iff h.toTable h.toHolds).mp hm).symm
    · rw [h.size_eq, List.countP_eq_length_filter]
    · funext k
      rw [part]
      split
      · rfl
      · next hk =>
        by_contra hne
        obtain ⟨hkey, hm⟩ := h.mem k (Ne.symm hne)
        exact hk (List.mem_filter.mpr ⟨hm, hkey⟩)
  · exact ⟨nofun, .nil, rfl, funext fun k => (hc k).symm⟩

/-- After a growth there is room for one more key. -/
theorem grow_spec (h : b.Sound c) :
    ∃ b', b.grow = some b' ∧ b'.Full c ∧ b'.size + b'.tombstones + 1 < b'.capacity := by
  set cap := nextPow2 (if (b.size + 1) * 2 + 1 < kMinCapacity then kMinCapacity
    else (b.size + 1) * 2 + 1) with hcap
  obtain ⟨hpow, hle⟩ := nextPow2_spec (if (b.size + 1) * 2 + 1 < kMinCapacity then kMinCapacity
    else (b.size + 1) * 2 + 1)
  rw [← hcap] at hpow hle
  have hneed : (b.size + 1) * 2 + 1 ≤ cap := by
    split at hle <;> omega
  obtain ⟨hentries, hnd, hlen, hpart⟩ := h.entries
  obtain ⟨b', hrun, hT, hH, ht, hcount, hcapacity, hsize⟩ :=
    regrow_spec (table_emptied (s := b.size) hpow) (holds_emptied c)
      (show 0 = 0 from rfl) countP_emptied
      (by rw [capacity_emptied, hlen, List.length_nil]; omega) hentries (by simpa using hnd)
  rw [List.nil_append, hpart] at hH
  rw [List.nil_append, hlen] at hcount
  rw [capacity_emptied] at hcapacity
  have hsize : b'.size = b.size := hsize
  exact ⟨b', hrun, ⟨hT, hH, by omega, by omega⟩, by omega⟩

/-! ## Operations -/

theorem empty_of_full (h : b.Full c) : kEmpty ∈ b.keys :=
  empty_mem h.toTable (by rw [← h.size_eq]; exact h.room)

theorem keyAt_ne (hT : b.Table) (hp : p < b.capacity) (hq : q < b.capacity)
    (hkp : isKey (b.keyAt p) = true) (hkq : isKey (b.keyAt q) = true) (hpq : p ≠ q) :
    b.keyAt p ≠ b.keyAt q := by
  intro heq
  have hp' := hT.found p hp hkp
  rw [heq, hT.found q hq hkq] at hp'
  exact hpq hp'.symm

/-- A count that changes and stays positive. -/
theorem Full.setVal (h : b.Full c) (hq : q < b.capacity) (hk : isKey (b.keyAt q) = true)
    (hv : v ≠ 0) :
    ({ b with vals := b.vals.set q v } : RootBag).Full (update c (b.keyAt q) v.toNat) := by
  have hvals : q < b.vals.length := by
    rw [h.vals_length]
    exact hq
  refine ⟨h.toTable.setVal, ⟨fun p hp hkp => ?_, fun k hc => ?_⟩, h.size_eq, h.room⟩
  · change (((b.vals.set q v).getD p 0).toNat) = update c (b.keyAt q) v.toNat (b.keyAt p) ∧ _
    change isKey (b.keyAt p) = true at hkp
    change _ ∧ update c (b.keyAt q) v.toNat (b.keyAt p) ≠ 0
    rw [getD_set hvals]
    by_cases hpq : p = q
    · subst hpq
      rw [if_pos rfl, update_self]
      exact ⟨rfl, fun h0 => hv (UInt32.toNat_inj.mp h0)⟩
    · rw [if_neg hpq, update_of_ne (keyAt_ne h.toTable hp hq hkp hk hpq)]
      exact h.val p hp hkp
  · by_cases hkk : k = b.keyAt q
    · subst hkk
      exact ⟨hk, keyAt_mem hq⟩
    · rw [update_of_ne hkk] at hc
      exact h.mem k hc

/-- A key that is gone leaves a tombstone. -/
theorem Full.bury (h : b.Full c) (hq : q < b.capacity) (hk : isKey (b.keyAt q) = true) :
    (⟨b.keys.set q kTombstone, b.vals.set q v, b.size - 1, b.tombstones + 1⟩ : RootBag).Full
      (update c (b.keyAt q) 0) := by
  set b' : RootBag := ⟨b.keys.set q kTombstone, b.vals.set q v, b.size - 1, b.tombstones + 1⟩
  have hcap : b'.capacity = b.capacity := List.length_set
  have hat : ∀ x, b'.keyAt x = if x = q then kTombstone else b.keyAt x := fun x => getD_set hq
  have hvals : q < b.vals.length := by
    rw [h.vals_length]
    exact hq
  have hval : ∀ x, b'.valAt x = if x = q then v else b.valAt x := fun x => getD_set hvals
  have hcount := List.countP_set (p := isKey) (a := kTombstone) (l := b.keys) hq
  rw [getElem_keys hq, hk, show isKey kTombstone = false by decide] at hcount
  have hpos : 0 < b.keys.countP isKey := List.countP_pos_iff.mpr ⟨_, keyAt_mem hq, hk⟩
  have hsize := h.size_eq
  have hroom := h.room
  refine ⟨h.toTable.setVal.bury hq hk _, ⟨fun p hp hkp => ?_, fun k hc => ?_⟩, ?_, ?_⟩
  · rw [hcap] at hp
    by_cases hpq : p = q
    · rw [hat, if_pos hpq] at hkp
      exact absurd hkp (by decide)
    · rw [hat, if_neg hpq] at hkp
      rw [hat, hval, if_neg hpq, if_neg hpq,
        update_of_ne (keyAt_ne h.toTable hp hq hkp hk hpq)]
      exact h.val p hp hkp
  · have hkk : k ≠ b.keyAt q := by
      rintro rfl
      exact hc (update_self ..)
    rw [update_of_ne hkk] at hc
    obtain ⟨hkey, hm⟩ := h.mem k hc
    obtain ⟨p, hp, rfl⟩ := mem_keys.mp hm
    have hpq : p ≠ q := fun hpq => hkk (by rw [hpq])
    exact ⟨hkey, mem_keys.mpr ⟨p, hcap.symm ▸ hp, by rw [hat, if_neg hpq]⟩⟩
  · change b.size - 1 = (b.keys.set q kTombstone).countP isKey
    rw [hcount, hsize]
    simp
  · rw [hcap]
    change b.size - 1 + (b.tombstones + 1) < b.capacity
    omega

/-- One more of a key, when the table has room. -/
theorem addTo_spec (h : b.Full c) (hroom : b.size + b.tombstones + 1 < b.capacity)
    (hk : isKey key = true) (hc : c key + 1 < 2 ^ 32) :
    ∃ b', b.addTo key = some b' ∧ b'.Full (update c key (c key + 1)) := by
  rw [addTo]
  by_cases hm : key ∈ b.keys
  · rw [h.toTable.probeInsert_mem hk hm]
    have hat := h.toTable.keyAt_slotOf hk hm
    have hlt : b.slotOf key < b.capacity := h.toTable.slotOf_lt
    have hval := (h.val _ hlt (by rwa [hat])).1
    rw [hat] at hval
    have hsucc : (b.valAt (b.slotOf key) + 1).toNat = c key + 1 := by
      rw [UInt32.toNat_add, hval]
      exact Nat.mod_eq_of_lt hc
    have hne : b.valAt (b.slotOf key) + 1 ≠ 0 := by
      intro h0
      rw [h0] at hsucc
      exact absurd hsucc.symm (Nat.succ_ne_zero _)
    refine ⟨_, rfl, ?_⟩
    dsimp only
    rw [if_pos hat, if_neg Bool.false_ne_true]
    have hfull := h.setVal hlt (by rwa [hat]) hne
    rwa [hat, hsucc] at hfull
  · obtain ⟨s, hrun, hne, hT, hH, hcount, htomb⟩ :=
      put_spec h.toTable h.toHolds hk hm (empty_of_full h) (show (1 : UInt32) ≠ 0 by decide)
    have h0 : c key = 0 := by
      have := (h.toHolds.mem_iff hk).not.mp hm
      exact not_not.mp this
    rw [hrun]
    refine ⟨_, rfl, ?_⟩
    dsimp only
    rw [if_neg hne, h0]
    have hcapacity : (b.write s key 1).capacity = b.capacity := Table.capacity_write s
    refine ⟨⟨hT.pow, hT.vals_length, hT.found, hT.tombs⟩, ⟨hH.val, hH.mem⟩, ?_, ?_⟩
    · change b.size + 1 = (b.write s key 1).keys.countP isKey
      rw [hcount, h.size_eq]
    · change b.size + 1 + (b.write s key 1).tombstones < (b.write s key 1).capacity
      omega

theorem add_spec (h : b.Sound c) (hk : isKey key = true) (hc : c key + 1 < 2 ^ 32) :
    ∃ b', b.add key = some b' ∧ b'.Full (update c key (c key + 1)) := by
  rw [add]
  by_cases hgrow : b.needsGrow = true
  · obtain ⟨b', hrun, hfull, hroom⟩ := grow_spec h
    rw [if_pos hgrow, hrun]
    exact addTo_spec hfull hroom hk hc
  · rw [if_neg hgrow]
    have hno : b.capacity ≠ 0 ∧ (b.size + 1) * 2 < b.capacity ∧ b.tombstones * 2 < b.capacity := by
      simpa [needsGrow, and_assoc] using hgrow
    obtain h | ⟨rfl, -⟩ := h
    · exact addTo_spec h (by omega) hk hc
    · exact absurd rfl hno.1

theorem pred_val (hv : v ≠ 0) : (v - 1).toNat = v.toNat - 1 := by
  refine UInt32.toNat_sub_of_le v 1 (UInt32.le_iff_toNat_le.mpr ?_)
  have : v.toNat ≠ 0 := fun h0 => hv (UInt32.toNat_inj.mp h0)
  exact Nat.one_le_iff_ne_zero.mpr this

/-- One fewer of a key, when there is one. -/
theorem removeOne_spec (h : b.Sound c) (hk : isKey key = true) :
    ∃ b', b.removeOne key = some (decide (c key ≠ 0), b') ∧
      b'.Sound (update c key (c key - 1)) := by
  have hzero : c key = 0 → update c key (c key - 1) = c := fun h0 => by
    rw [h0, Nat.zero_sub, ← h0, update_eq_self]
  rw [removeOne]
  obtain h | ⟨rfl, hc⟩ := h
  · have hne : b.keys ≠ [] := by
      intro hnil
      have := h.toTable.capacity_pos
      rw [capacity, hnil] at this
      cases this
    rw [if_neg hne, h.toTable.probeFind_spec (.inl (empty_of_full h))]
    by_cases hm : key ∈ b.keys
    · have hat := h.toTable.keyAt_slotOf hk hm
      have hlt : b.slotOf key < b.capacity := h.toTable.slotOf_lt
      obtain ⟨hval, hpos⟩ := h.val _ hlt (by rwa [hat])
      rw [hat] at hval hpos
      have hv : b.valAt (b.slotOf key) ≠ 0 := fun h0 => hpos (by rw [← hval, h0]; rfl)
      have hpred := pred_val hv
      have hvals : b.slotOf key < b.vals.length := by
        rw [h.vals_length]
        exact hlt
      have hafter : ({ b with
          vals := b.vals.set (b.slotOf key) (b.valAt (b.slotOf key) - 1) } : RootBag).valAt
            (b.slotOf key) = b.valAt (b.slotOf key) - 1 := by
        rw [valAt, getD_set hvals, if_pos rfl]
      rw [if_pos hat, decide_eq_true hpos, Option.map_some]
      by_cases hlast : b.valAt (b.slotOf key) - 1 = 0
      · have hone : c key - 1 = 0 := by rw [← hval, ← hpred, hlast]; rfl
        have hfull := h.bury (v := b.valAt (b.slotOf key) - 1) hlt (by rwa [hat])
        rw [hat] at hfull
        rw [hone]
        exact ⟨_, congrArg some (if_pos (hafter.trans hlast)), .inl hfull⟩
      · have hfull := h.setVal hlt (by rwa [hat]) hlast
        rw [hat, hpred, hval] at hfull
        exact ⟨_, congrArg some (if_neg fun h0 => hlast (hafter.symm.trans h0)), .inl hfull⟩
    · have h0 : c key = 0 := by
        have := (h.toHolds.mem_iff hk).not.mp hm
        exact not_not.mp this
      have hat : b.keyAt (b.slotOf key) ≠ key := fun heq =>
        hm (heq ▸ keyAt_mem h.toTable.slotOf_lt)
      rw [if_neg hat, hzero h0]
      exact ⟨b, by simp [h0], .inl h⟩
  · rw [hzero (hc key)]
    exact ⟨init, by simp [init, hc], .inr ⟨rfl, hc⟩⟩

/-! ## Runs -/

/-- A bag holds a multiset. -/
def Bag (b : RootBag) (m : Multiset UInt64) : Prop := b.Sound fun k => m.count k

theorem Bag.init : init.Bag 0 := .inr ⟨rfl, fun _ => Multiset.count_zero _⟩

theorem Bag.keys (h : b.Bag m) : ∃ ks : List UInt64, ks.Nodup ∧ ks.length = b.size ∧
    ∀ k, k ∈ ks ↔ k ∈ m := by
  obtain ⟨hentries, hnd, hlen, hpart⟩ := Sound.entries h
  refine ⟨_, hnd, hlen, fun k => ?_⟩
  rw [← Multiset.count_ne_zero]
  constructor
  · intro hk
    obtain ⟨hmem, hkey⟩ := List.mem_filter.mp hk
    obtain ⟨e, he, rfl⟩ := List.mem_map.mp hmem
    exact (hentries e he hkey).2
  · intro hne
    by_contra hk
    have := congrFun hpart k
    rw [part, if_neg hk] at this
    exact hne this.symm

theorem Bag.size_eq (h : b.Bag m) : b.size = m.toFinset.card := by
  obtain ⟨ks, hnd, hlen, hmem⟩ := h.keys
  rw [← hlen, ← List.toFinset_card_of_nodup hnd]
  congr 1
  ext k
  rw [List.mem_toFinset, Multiset.mem_toFinset, hmem]

theorem Bag.each (h : b.Bag m) : (b.each.map Prod.fst).Nodup ∧
    ∀ k v, (k, v) ∈ b.each ↔ k ∈ m ∧ v.toNat = m.count k := by
  obtain h | ⟨rfl, hc⟩ := h
  · rw [keys_each h.toTable]
    refine ⟨nodup_keys h.toTable, fun k v => ?_⟩
    rw [mem_each_iff h.toTable h.toHolds, Multiset.count_ne_zero]
  · refine ⟨.nil, fun k v => ⟨nofun, fun hk => ?_⟩⟩
    exact absurd (hc k) (Multiset.count_ne_zero.mpr hk.1)

/-- An operation gives the answer of the multiset, and its probes end. -/
theorem Bag.step (h : b.Bag m) {op : BagOp} (ha : op.Allowed m) :
    ∃ r b', op.run b = some (r, b') ∧ op.Answers m r ∧ b'.Bag (op.next m) := by
  cases op with
  | add key =>
    obtain ⟨b', hrun, hfull⟩ := add_spec h ha.1 ha.2
    refine ⟨.done, b', by rw [BagOp.run, hrun]; rfl, rfl, .inl ?_⟩
    convert hfull using 1
    funext k
    rw [BagOp.next, Multiset.count_cons, update_apply]
    split
    · next hk => rw [hk]
    · rfl
  | removeOne key =>
    obtain ⟨b', hrun, hsound⟩ := removeOne_spec h ha
    refine ⟨_, b', by rw [BagOp.run, hrun]; rfl, ?_, ?_⟩
    · simp [BagOp.Answers, Multiset.count_eq_zero]
    · change Sound _ _
      convert hsound using 1
      funext k
      rw [BagOp.next, update_apply]
      split
      · next hk => rw [hk, Multiset.count_erase_self]
      · next hk => rw [Multiset.count_erase_of_ne hk]
  | size => exact ⟨_, b, rfl, by rw [BagOp.Answers, h.size_eq], h⟩
  | empty =>
    refine ⟨_, b, rfl, ?_, h⟩
    rw [BagOp.Answers, RootBag.empty, h.size_eq]
    simp [Finset.card_eq_zero]
  | each => exact ⟨_, b, rfl, ⟨_, rfl, h.each⟩, h⟩
  | reset => exact ⟨_, _, rfl, rfl, .init⟩

/-- A bag with slots has an empty one. -/
theorem Bag.empty_slot (h : b.Bag m) : b.keys = [] ∨ kEmpty ∈ b.keys := by
  obtain h | ⟨rfl, -⟩ := h
  · exact .inr (empty_of_full h)
  · exact .inl rfl

theorem Bag.run_spec (h : b.Bag m) {ops : List BagOp} (ha : AllAllowed m ops) :
    ∃ rs b', RootBag.run ops b = some (rs, b') ∧ AllAnswered m ops rs ∧
      b'.Bag (ops.foldl BagOp.next m) := by
  induction ops generalizing b m with
  | nil => exact ⟨[], b, rfl, rfl, h⟩
  | cons op ops ih =>
    obtain ⟨r, b₁, hrun, hans, hbag⟩ := h.step ha.1
    obtain ⟨rs, b₂, hruns, hanss, hbag'⟩ := ih hbag ha.2
    refine ⟨r :: rs, b₂, ?_, ⟨r, rs, rfl, hans, hanss⟩, hbag'⟩
    rw [RootBag.run, hrun, Option.bind_some, hruns]
    rfl

/-- Every sequence of operations gives the answers of a multiset. Its probes end, and a slot stays
empty. -/
theorem run_answers (ops : List BagOp) (ha : AllAllowed 0 ops) :
    ∃ rs b, RootBag.run ops init = some (rs, b) ∧ AllAnswered 0 ops rs ∧
      (b.keys = [] ∨ kEmpty ∈ b.keys) := by
  obtain ⟨rs, b, hrun, hans, hbag⟩ := Bag.run_spec .init ha
  exact ⟨rs, b, hrun, hans, hbag.empty_slot⟩

theorem run_answers_twice : ∃ rs b,
    RootBag.run [.add 7, .add 7, .removeOne 7, .size] init = some (rs, b) ∧
      AllAnswered 0 [.add 7, .add 7, .removeOne 7, .size] rs ∧ (b.keys = [] ∨ kEmpty ∈ b.keys) :=
  run_answers [.add 7, .add 7, .removeOne 7, .size]
    ⟨⟨by decide, by decide⟩, ⟨by decide, by decide⟩, rfl, trivial, trivial⟩

end Loxis.Aarc.RootBag
