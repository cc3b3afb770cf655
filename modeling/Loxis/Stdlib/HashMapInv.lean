import Loxis.Stdlib.HashMap
import Mathlib.Data.List.Count

/-! # The invariant of a hash table

Each occupied slot has a key and a value, the keys are different, and no empty slot lies
between the home of a key and its slot. There is always room for one more key.
-/

namespace Loxis.Stdlib

/-- The key and the value of an occupied slot. -/
def Slot.entry {K V : Type} : Slot K V → Option (K × V)
  | ⟨1, some k, some v⟩ => some (k, v)
  | _ => none

namespace HashMap

variable {K V : Type} {H : Hashing K} {F : Functions K} {t t' : HashMap K V} {w : World K V}
  {i j n d e : ℕ} {k key : K} {v value : V}

/-- The slot that a search has reached after some turns. -/
def position (hash : ℤ) (n e : ℕ) : ℕ := (home hash n + e) % n

/-- The slot is occupied by a key and its value. -/
def Holds (t : HashMap K V) (i : ℕ) (k : K) (v : V) : Prop := t.slots[i]? = some ⟨1, some k, some v⟩

/-- The keys that are present, with their values. -/
def entries (t : HashMap K V) : List (K × V) := t.slots.filterMap Slot.entry

structure Inv (H : Hashing K) (t : HashMap K V) : Prop where
  filled : ∀ s ∈ t.slots, s.state = 1 → ∃ k v, s = ⟨1, some k, some v⟩
  count : t.count = t.slots.countP (·.state = 1)
  room : t.slots ≠ [] → t.count * 4 < t.slots.length * 3
  distinct : ∀ i j k k' v v', Holds t i k v → Holds t j k' v' → H.equal k k' = true → i = j
  path : ∀ i k v, Holds t i k v → ∃ d, i = position (H.hash k) t.slots.length d ∧
    ∀ e < d, ∃ s, t.slots[position (H.hash k) t.slots.length e]? = some s ∧ s.state ≠ 0

/-! ## Positions -/

theorem home_lt (hn : 0 < n) (h : ℤ) : home h n < n := by
  have h₀ := Int.lt_tmod_of_pos h (b := n) (by omega)
  have h₁ := Int.tmod_lt_of_pos h (b := n) (by omega)
  unfold home
  dsimp only
  split <;> omega

theorem position_zero (hn : 0 < n) (h : ℤ) : position h n 0 = home h n :=
  Nat.mod_eq_of_lt (home_lt hn h)

theorem position_lt (hn : 0 < n) (h : ℤ) : position h n e < n := Nat.mod_lt _ hn

theorem position_succ (h : ℤ) : (position h n e + 1) % n = position h n (e + 1) := by
  rw [position, position, Nat.mod_add_mod, Nat.add_assoc]

/-- A round reaches every slot. -/
theorem exists_position (hi : i < n) (h : ℤ) : ∃ e < n, i = position h n e := by
  have hh := home_lt (Nat.zero_lt_of_lt hi) h
  refine ⟨(i + n - home h n) % n, Nat.mod_lt _ (by omega), ?_⟩
  rw [position, Nat.add_mod_mod, show home h n + (i + n - home h n) = i + n by omega,
    Nat.add_mod_right, Nat.mod_eq_of_lt hi]

/-! ## Entries -/

theorem Holds.lt (h : Holds t i k v) : i < t.slots.length := (List.getElem?_eq_some_iff.mp h).1

theorem entry_eq_some {s : Slot K V} : s.entry = some (k, v) ↔ s = ⟨1, some k, some v⟩ := by
  unfold Slot.entry
  split
  · simp
  · next hne =>
    simp only [reduceCtorEq, false_iff]
    rintro rfl
    exact hne k v rfl

theorem entry_eq_none {s : Slot K V} (h : s.state ≠ 1) : s.entry = none := by
  cases he : s.entry with
  | none => rfl
  | some p => exact absurd (by rw [entry_eq_some.mp he]) h

theorem mem_entries : (k, v) ∈ t.entries ↔ ∃ i, Holds t i k v := by
  rw [entries, List.mem_filterMap]
  simp only [entry_eq_some, exists_eq_right]
  exact List.mem_iff_getElem?

namespace Inv

theorem holds (h : Inv H t) {s : Slot K V} (hs : t.slots[i]? = some s) (h1 : s.state = 1) :
    ∃ k v, s = ⟨1, some k, some v⟩ ∧ Holds t i k v := by
  obtain ⟨k, v, rfl⟩ := h.filled s (List.mem_of_getElem? hs) h1
  exact ⟨k, v, rfl, hs⟩

/-- Some slot is not occupied. -/
theorem exists_free (h : Inv H t) (hne : t.slots ≠ []) :
    ∃ (i : ℕ) (s : Slot K V), t.slots[i]? = some s ∧ s.state ≠ 1 := by
  by_contra hall
  push Not at hall
  have hcount : t.slots.countP (fun s => s.state = 1) = t.slots.length := by
    rw [List.countP_eq_length]
    intro s hs
    obtain ⟨i, hi⟩ := List.mem_iff_getElem?.mp hs
    exact decide_eq_true (hall i s hi)
  have := h.room hne
  rw [h.count, hcount] at this
  omega

theorem length_entries (h : Inv H t) : t.entries.length = t.count := by
  rw [entries, List.length_filterMap_eq_countP, h.count]
  refine List.countP_congr fun s hs => ?_
  rw [decide_eq_true_eq]
  constructor
  · intro hsome
    by_contra h1
    rw [entry_eq_none h1] at hsome
    cases hsome
  · intro h1
    obtain ⟨k, v, rfl⟩ := h.filled s hs h1
    rfl

/-- No two entries have equal keys. -/
theorem pairwise (h : Inv H t) : t.entries.Pairwise fun a b => H.equal a.1 b.1 = false := by
  rw [entries, List.pairwise_filterMap, List.pairwise_iff_getElem]
  rintro i j hi hj hij ⟨k, v⟩ hk ⟨k', v'⟩ hk'
  have hi' : Holds t i k v := List.getElem?_eq_some_iff.mpr ⟨hi, entry_eq_some.mp hk⟩
  have hj' : Holds t j k' v' := List.getElem?_eq_some_iff.mpr ⟨hj, entry_eq_some.mp hk'⟩
  by_contra hne
  have := h.distinct i j k k' v v' hi' hj' (by simpa using hne)
  omega

end Inv

/-! ## Changes -/

/-- The table with another slot. -/
def withSlot (t : HashMap K V) (i : ℕ) (s : Slot K V) (count : ℕ) : HashMap K V :=
  ⟨t.slots.set i s, count⟩

@[simp] theorem length_withSlot {s : Slot K V} {c : ℕ} :
    (t.withSlot i s c).slots.length = t.slots.length := List.length_set

theorem getElem?_withSlot {s : Slot K V} {c : ℕ} (hi : i < t.slots.length) :
    (t.withSlot i s c).slots[j]? = if i = j then some s else t.slots[j]? := by
  rw [withSlot, List.getElem?_set]
  split <;> rfl

theorem holds_withSlot {s : Slot K V} {c : ℕ} (hi : i < t.slots.length) :
    Holds (t.withSlot i s c) j k v ↔
      if i = j then s = ⟨1, some k, some v⟩ else Holds t j k v := by
  rw [Holds, getElem?_withSlot hi]
  split
  · rw [Option.some.injEq]
  · rfl

theorem countP_withSlot {s s' : Slot K V} {c : ℕ} (hs' : t.slots[i]? = some s') :
    (t.withSlot i s c).slots.countP (·.state = 1) + (if s'.state = 1 then 1 else 0) =
      t.slots.countP (·.state = 1) + if s.state = 1 then 1 else 0 := by
  obtain ⟨hi, rfl⟩ := List.getElem?_eq_some_iff.mp hs'
  have hpos : (if t.slots[i].state = 1 then 1 else 0) ≤ t.slots.countP (·.state = 1) := by
    split
    · next h => exact List.countP_pos_iff.mpr ⟨_, List.getElem_mem hi, decide_eq_true h⟩
    · exact Nat.zero_le _
  rw [withSlot, List.countP_set hi]
  simp only [decide_eq_true_eq]
  omega

/-- The paths stay free of empty slots where none is emptied. -/
theorem path_withSlot {s : Slot K V} {c : ℕ} {h : ℤ} (hi : i < t.slots.length) (hs : s.state ≠ 0)
    (hpath : ∀ e < d, ∃ s, t.slots[position h t.slots.length e]? = some s ∧ s.state ≠ 0) :
    ∀ e < d, ∃ s', (t.withSlot i s c).slots[position h (t.withSlot i s c).slots.length e]? =
      some s' ∧ s'.state ≠ 0 := by
  intro e he
  rw [length_withSlot, getElem?_withSlot hi]
  split
  · exact ⟨s, rfl, hs⟩
  · exact hpath e he

theorem holds_replicate {c : ℕ} : ¬ Holds (⟨List.replicate n .empty, c⟩ : HashMap K V) i k v := by
  intro h
  cases List.eq_of_mem_replicate (List.mem_of_getElem? h)

namespace Inv

/-- A key that is not present goes into a slot that is not occupied, after occupied ones. -/
theorem insert (h : Inv H t) {s : Slot K V} (hfull : ¬ t.Full)
    (habsent : ∀ j k v, Holds t j k v → H.equal k key = false)
    (hs : t.slots[position (H.hash key) t.slots.length d]? = some s) (hfree : s.state ≠ 1)
    (hpath : ∀ e < d, ∃ s, t.slots[position (H.hash key) t.slots.length e]? = some s ∧
      s.state ≠ 0) :
    Inv H (t.withSlot (position (H.hash key) t.slots.length d) ⟨1, some key, some value⟩
      (t.count + 1)) := by
  obtain ⟨hi, -⟩ := List.getElem?_eq_some_iff.mp hs
  have hcount := countP_withSlot (s := ⟨1, some key, some value⟩) (c := t.count + 1) hs
  rw [if_neg hfree, if_pos rfl, Nat.add_zero] at hcount
  refine ⟨fun s' hs' h1 => ?_, by rw [hcount, ← h.count]; rfl, fun _ => ?_, ?_, ?_⟩
  · rcases List.mem_or_eq_of_mem_set hs' with hs' | rfl
    · exact h.filled s' hs' h1
    · exact ⟨key, value, rfl⟩
  · rw [length_withSlot]
    exact Nat.not_le.mp hfull
  · intro a b k k' v v' ha hb heq
    rw [holds_withSlot hi] at ha hb
    split at ha <;> split at hb
    · next ha' hb' => rw [← ha', hb']
    · cases ha
      have := H.equiv.symm heq
      rw [habsent b k' v' hb] at this
      cases this
    · cases hb
      rw [habsent a k v ha] at heq
      cases heq
    · exact h.distinct a b k k' v v' ha hb heq
  · intro j k v hj
    rw [holds_withSlot hi] at hj
    split at hj
    · next hij =>
      cases hj
      exact ⟨d, by rw [length_withSlot, hij], path_withSlot hi Nat.one_ne_zero hpath⟩
    · obtain ⟨d', rfl, hd'⟩ := h.path j k v hj
      exact ⟨d', by rw [length_withSlot], path_withSlot hi Nat.one_ne_zero hd'⟩

/-- An occupied slot that keeps its key, or is no longer occupied. -/
theorem change (h : Inv H t) {s : Slot K V} {c : ℕ} (hi : Holds t i k v) (hs : s.state ≠ 0)
    (hkey : s.state = 1 → ∃ v', s = ⟨1, some k, some v'⟩)
    (hcount : c + 1 = t.count + if s.state = 1 then 1 else 0) : Inv H (t.withSlot i s c) := by
  have hlt := hi.lt
  have hnum := countP_withSlot (s := s) (c := c) hi
  rw [if_pos rfl, ← h.count] at hnum
  have hback : ∀ j k' v', Holds (t.withSlot i s c) j k' v' → ∃ v₀, Holds t j k' v₀ := by
    intro j k' v' hj
    rw [holds_withSlot hlt] at hj
    split at hj
    · next hij =>
      obtain ⟨v₁, hv₁⟩ := hkey (by rw [hj])
      rw [hj] at hv₁
      cases hv₁
      exact ⟨v, hij ▸ hi⟩
    · exact ⟨v', hj⟩
  refine ⟨fun s' hs' h1 => ?_, by rw [show (t.withSlot i s c).count = c from rfl]; omega,
    fun hne => ?_, fun a b k k' v v' ha hb heq => ?_, fun j k v hj => ?_⟩
  · rcases List.mem_or_eq_of_mem_set hs' with hs' | rfl
    · exact h.filled s' hs' h1
    · obtain ⟨v', rfl⟩ := hkey h1
      exact ⟨k, v', rfl⟩
  · have := h.room (List.ne_nil_of_length_pos (Nat.zero_lt_of_lt hlt))
    rw [length_withSlot, show (t.withSlot i s c).count = c from rfl]
    split at hcount <;> omega
  · obtain ⟨v₀, ha⟩ := hback a k v ha
    obtain ⟨v₀', hb⟩ := hback b k' v' hb
    exact h.distinct a b k k' v₀ v₀' ha hb heq
  · obtain ⟨v₀, hj⟩ := hback j k v hj
    obtain ⟨d', rfl, hd'⟩ := h.path j k v₀ hj
    exact ⟨d', by rw [length_withSlot], path_withSlot hlt hs hd'⟩

/-- A table of empty slots. -/
theorem replicate (H : Hashing K) (n : ℕ) : Inv H (⟨List.replicate n .empty, 0⟩ : HashMap K V) := by
  refine ⟨fun s hs h1 => ?_, ?_, fun hne => ?_, fun i j k k' v v' hi => absurd hi holds_replicate,
    fun i k v hi => absurd hi holds_replicate⟩
  · rw [List.eq_of_mem_replicate hs] at h1
    cases h1
  · rw [List.countP_replicate]
    rfl
  · exact Nat.mul_pos (List.length_pos_iff.mpr hne) (by decide)

end Inv

end HashMap

end Loxis.Stdlib
