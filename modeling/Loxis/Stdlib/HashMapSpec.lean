import Loxis.Stdlib.HashMapInv

/-! # The operations of a hash table

What each operation does to the entries, with the exceptions that the user's functions raise.
-/

namespace Loxis.Stdlib.HashMap

variable {K V : Type} {F : Functions K} {t : HashMap K V} {w : World K V} {key : K} {value : V}
  {i n e turns : ℕ}

/-- The exception of an invocation. -/
def Raises (F : Functions K) (e : Stop) : Prop := ∃ n x, F.fault n = some x ∧ e = .thrown x

/-- A user's exception, with the table unchanged. -/
def Thrown (F : Functions K) (t : HashMap K V) (e : Stop) (w : World K V) : Prop :=
  Raises F e ∧ w.map = t

/-! ## Primitives -/

theorem invoke_ends {α : Type} (r : α) :
    Ends (invoke F r : Call K V α) w (fun a w' => a = r ∧ w'.map = w.map) (Thrown F w.map) := by
  unfold Ends invoke
  cases hx : F.fault w.calls with
  | none => exact ⟨rfl, rfl⟩
  | some x => exact ⟨⟨w.calls, x, hx, rfl⟩, rfl⟩

theorem getSlot_eq {s : Slot K V} (h : w.map.slots[i]? = some s) : getSlot i w = .ok s w := by
  simp only [getSlot, table, bind, EStateM.bind, h]
  rfl

theorem setSlot_eq {s : Slot K V} (h : i < w.map.slots.length) :
    setSlot i s w = .ok () { w with map := w.map.withSlot i s w.map.count } := by
  have : (setSlot i s : Call K V _) w = (if i < w.map.slots.length then
      assign { w.map with slots := w.map.slots.set i s }
    else throw (.raised "list index out of bounds") : Call K V Unit) w := rfl
  rw [this, if_pos h]
  rfl

/-! ## Searching -/

/-- What the search for a key finds: a slot with an equal key, or that there is none. -/
def Located (F : Functions K) (t : HashMap K V) (key : K) : Option ℕ → Prop
  | some i => ∃ k v, Holds t i k v ∧ F.equal k key = true
  | none => ∀ i k v, Holds t i k v → F.equal k key = false

/-- The slots before a turn are no reason to stop. -/
def Passed (F : Functions K) (t : HashMap K V) (key : K) (e : ℕ) : Prop :=
  ∀ e' < e, ∀ s, t.slots[position (F.hash key) t.slots.length e']? = some s →
    s.state ≠ 0 ∧ ∀ k v, s = ⟨1, some k, some v⟩ → F.equal k key = false

theorem Passed.succ {s : Slot K V} (h : Passed F t key e)
    (hs : t.slots[position (F.hash key) t.slots.length e]? = some s) (h0 : s.state ≠ 0)
    (hne : ∀ k v, s = ⟨1, some k, some v⟩ → F.equal k key = false) : Passed F t key (e + 1) := by
  intro e' he' s' hs'
  rcases Nat.lt_succ_iff_lt_or_eq.mp he' with he' | rfl
  · exact h e' he' s' hs'
  · rw [hs, Option.some.injEq] at hs'
    subst hs'
    exact ⟨h0, hne⟩

/-- A key whose slot has not been passed is not after an empty slot. -/
theorem located_none (h : Inv F.toHashing t) (hp : Passed F t key e) {s : Slot K V}
    (hs : t.slots[position (F.hash key) t.slots.length e]? = some s) (h0 : s.state = 0) :
    Located F t key none := by
  intro i k v hi
  by_contra hne
  have heq : F.equal k key = true := by simpa using hne
  obtain ⟨d, rfl, hd⟩ := h.path i k v hi
  rw [F.hash_eq k key heq] at hi hd
  rcases Nat.lt_trichotomy d e with hlt | rfl | hgt
  · have := (hp d hlt _ hi).2 k v rfl
    rw [heq] at this
    cases this
  · rw [Holds, hs, Option.some.injEq] at hi
    rw [hi] at h0
    cases h0
  · obtain ⟨s', hs', hs0⟩ := hd e hgt
    rw [hs, Option.some.injEq] at hs'
    exact hs0 (hs' ▸ h0)

/-- A key that a full round has not found is not present. -/
theorem located_round (hp : Passed F t key t.slots.length) : Located F t key none := by
  intro i k v hi
  obtain ⟨e, he, rfl⟩ := exists_position hi.lt (F.hash key)
  exact (hp e he _ hi).2 k v rfl

theorem locateLoop_ends (h : Inv F.toHashing t) (hw : w.map = t) (hn : 0 < t.slots.length)
    (hturns : turns + e = t.slots.length) (hp : Passed F t key e) :
    Ends (locateLoop F t.slots.length key turns (position (F.hash key) t.slots.length e)) w
      (fun r w' => w'.map = t ∧ Located F t key r) (Thrown F t) := by
  induction turns generalizing e w with
  | zero =>
    rw [Nat.zero_add] at hturns
    exact .pure ⟨hw, located_round (hturns ▸ hp)⟩
  | succ turns ih =>
    have hlt : position (F.hash key) t.slots.length e < t.slots.length := position_lt hn _
    obtain ⟨s, hs⟩ : ∃ s, t.slots[position (F.hash key) t.slots.length e]? = some s :=
      ⟨_, List.getElem?_eq_getElem hlt⟩
    refine .bind (.of_eq (getSlot_eq (by rw [hw]; exact hs)) ?_)
    split
    · next h0 => exact .pure ⟨hw, located_none h hp hs h0⟩
    · next h0 =>
      have hnext (hne : ∀ k v, s = ⟨1, some k, some v⟩ → F.equal k key = false)
          {w' : World K V} (hw' : w'.map = t) :
          Ends (locateLoop F t.slots.length key turns
            ((position (F.hash key) t.slots.length e + 1) % t.slots.length)) w'
            (fun r w' => w'.map = t ∧ Located F t key r) (Thrown F t) := by
        rw [position_succ]
        exact ih hw' (by omega) (hp.succ hs h0 hne)
      split
      · next h1 =>
        obtain ⟨k, v, rfl, hk⟩ := h.holds hs h1
        refine .bind (.of_eq rfl (.seq (invoke_ends _) ?_ ?_))
        · rintro _ w' ⟨rfl, hw'⟩
          split
          · next heq => exact .pure ⟨hw'.trans hw, k, v, hk, heq⟩
          · next heq =>
            refine hnext (fun k' v' hkv => ?_) (hw'.trans hw)
            cases hkv
            simpa using heq
        · rintro e w' ⟨hx, hw'⟩
          exact ⟨hx, hw'.trans hw⟩
      · next h1 => exact hnext (fun k v hkv => absurd (by rw [hkv]) h1) hw

theorem storage_ne_nil : t.storage.slots ≠ [] := by
  unfold storage
  split
  · exact List.cons_ne_nil _ _
  · next h =>
    intro hnil
    rw [hnil] at h
    exact h rfl

theorem count_storage : t.storage.count = t.count := by
  unfold storage
  split <;> rfl

theorem entries_storage : t.storage.entries = t.entries := by
  unfold storage
  split
  · next h =>
    rw [entries, entries, List.isEmpty_iff.mp h]
    rfl
  · rfl

theorem Inv.storage {H : Hashing K} (h : Inv H t) : Inv H t.storage := by
  unfold HashMap.storage
  split
  · next hnil =>
    have h0 : t.count = 0 := by rw [h.count, List.isEmpty_iff.mp hnil]; rfl
    rw [h0]
    exact .replicate H 8
  · exact h

theorem locate_ends (h : Inv F.toHashing w.map) :
    Ends (locate F key) w (fun r w' => w'.map = w.map.storage ∧ Located F w.map.storage key r)
      (Thrown F w.map.storage) := by
  have hn := List.length_pos_iff.mpr (storage_ne_nil (t := w.map))
  refine .bind (.of_eq rfl (.bind (.of_eq rfl (.seq (invoke_ends _) ?_ fun e w' he => he))))
  rintro _ w' ⟨rfl, hw'⟩
  have : Ends (locateLoop F _ key w.map.storage.slots.length (position _ _ 0)) w' _ _ :=
    locateLoop_ends h.storage hw' hn rfl (fun e' he' => absurd he' (Nat.not_lt_zero e'))
  rwa [position_zero hn] at this

/-! ## Inserting -/

/-- The loop stops at a slot that is not occupied, after occupied ones. -/
theorem freeSlot_eq (turns : ℕ) (hw : w.map = t) (h : ℤ) (hn : 0 < t.slots.length) {d : ℕ}
    {s : Slot K V}
    (hs : t.slots[position h t.slots.length d]? = some s) (hfree : s.state ≠ 1)
    (hd : e ≤ d) (hturns : d < e + turns) :
    ∃ d' s', e ≤ d' ∧ freeSlot t.slots.length turns (position h t.slots.length e) w =
        .ok (position h t.slots.length d') w ∧
      t.slots[position h t.slots.length d']? = some s' ∧ s'.state ≠ 1 ∧
      ∀ e', e ≤ e' → e' < d' → ∃ s, t.slots[position h t.slots.length e']? = some s ∧ s.state = 1 := by
  induction turns generalizing e with
  | zero => omega
  | succ turns ih =>
    have hlt : position h t.slots.length e < t.slots.length := position_lt hn h
    obtain ⟨s₀, hs₀⟩ : ∃ s, t.slots[position h t.slots.length e]? = some s :=
      ⟨_, List.getElem?_eq_getElem hlt⟩
    have hget : getSlot (position h t.slots.length e) w = .ok s₀ w :=
      getSlot_eq (by rw [hw]; exact hs₀)
    rw [freeSlot, bind_ok hget]
    by_cases h1 : s₀.state = 1
    · have hed : e ≠ d := by
        rintro rfl
        rw [hs₀, Option.some.injEq] at hs
        exact hfree (hs ▸ h1)
      obtain ⟨d', s', hle, heq, hs', hfree', hpath⟩ := ih (e := e + 1) (by omega) (by omega)
      rw [if_pos h1, position_succ, heq]
      refine ⟨d', s', by omega, rfl, hs', hfree', fun e' he' hlt' => ?_⟩
      rcases Nat.eq_or_lt_of_le he' with rfl | hgt
      · exact ⟨s₀, hs₀, h1⟩
      · exact hpath e' hgt hlt'
    · rw [if_neg h1]
      exact ⟨e, s₀, Nat.le_refl e, rfl, hs₀, h1, fun e' he' hlt' => absurd he' (by omega)⟩

/-- The table with one more entry. -/
structure Inserted (H : Hashing K) (t : HashMap K V) (key : K) (value : V) (t' : HashMap K V) :
    Prop where
  inv : Inv H t'
  length : t'.slots.length = t.slots.length
  count : t'.count = t.count + 1
  entries : ∀ p, p ∈ t'.entries ↔ p = (key, value) ∨ p ∈ t.entries

theorem inserted_withSlot {H : Hashing K} (h : Inv H t) {d : ℕ} {s : Slot K V}
    (hfull : ¬ t.Full) (habsent : ∀ j k v, Holds t j k v → H.equal k key = false)
    (hs : t.slots[position (H.hash key) t.slots.length d]? = some s) (hfree : s.state ≠ 1)
    (hpath : ∀ e < d, ∃ s, t.slots[position (H.hash key) t.slots.length e]? = some s ∧
      s.state ≠ 0) :
    Inserted H t key value (t.withSlot (position (H.hash key) t.slots.length d)
      ⟨1, some key, some value⟩ (t.count + 1)) := by
  have hlt := (List.getElem?_eq_some_iff.mp hs).1
  refine ⟨h.insert hfull habsent hs hfree hpath, length_withSlot, rfl, ?_⟩
  rintro ⟨k, v⟩
  simp only [mem_entries, holds_withSlot hlt, Prod.mk.injEq]
  constructor
  · rintro ⟨j, hj⟩
    split at hj
    · cases hj
      exact .inl ⟨rfl, rfl⟩
    · exact .inr ⟨j, hj⟩
  · rintro (⟨rfl, rfl⟩ | ⟨j, hj⟩)
    · exact ⟨_, by rw [if_pos rfl]⟩
    · refine ⟨j, ?_⟩
      rw [if_neg]
      · exact hj
      · rintro rfl
        rw [Holds, hs, Option.some.injEq] at hj
        rw [hj] at hfree
        exact hfree rfl

/-- The second part of `put`, for a key that is not present. -/
def insertNew (F : Functions K) (key : K) (value : V) : Call K V (Option V) := do
  let capacity := (← table).slots.length
  let hash ← hash F key
  let index ← freeSlot capacity capacity (home hash capacity)
  setSlot index ⟨1, some key, some value⟩
  let t ← table
  assign { t with count := t.count + 1 }
  return none

theorem insertNew_ends (h : Inv F.toHashing t) (hw : w.map = t) (hne : t.slots ≠ [])
    (hfull : ¬ t.Full) (habsent : Located F t key none) :
    Ends (insertNew F key value) w
      (fun old w' => old = none ∧ Inserted F.toHashing t key value w'.map) (Thrown F t) := by
  have hn := List.length_pos_iff.mpr hne
  subst hw
  refine .bind (.of_eq rfl (.seq (invoke_ends _) ?_ fun e w' he => he))
  rintro _ w' ⟨rfl, hw'⟩
  obtain ⟨i, s, hs, hfree⟩ := h.exists_free hne
  obtain ⟨d, hd, rfl⟩ := exists_position (List.getElem?_eq_some_iff.mp hs).1 (F.hash key)
  obtain ⟨d', s', -, heq, hs', hfree', hpath⟩ := freeSlot_eq (e := 0)
    w.map.slots.length hw' (F.hash key) hn hs hfree (Nat.zero_le d) (by omega)
  have hlt := (List.getElem?_eq_some_iff.mp hs').1
  rw [position_zero hn] at heq
  refine .bind (.of_eq heq (.bind (.of_eq (setSlot_eq (by rw [hw']; exact hlt))
    (.bind (.of_eq rfl (.bind (.of_eq rfl (.pure ⟨rfl, ?_⟩))))))))
  rw [hw']
  exact inserted_withSlot h hfull habsent hs' hfree' fun e he => by
    obtain ⟨s, hs, h1⟩ := hpath e (Nat.zero_le e) he
    exact ⟨s, hs, by rw [h1]; exact Nat.one_ne_zero⟩

theorem storage_eq (h : t.slots ≠ []) : t.storage = t := by
  unfold storage
  rw [if_neg (by rwa [List.isEmpty_iff])]

theorem Located.none_of_none {r : Option ℕ} (h : Located F t key r) (hn : Located F t key none) :
    r = none := by
  cases r with
  | none => rfl
  | some i =>
    obtain ⟨k, v, hi, heq⟩ := h
    rw [hn i k v hi] at heq
    cases heq

/-- A key that is not present is inserted where the table need not grow. -/
theorem putWith_ends_room {grow : Call K V Unit} (h : Inv F.toHashing w.map)
    (hne : w.map.slots ≠ []) (hfull : ¬ w.map.Full) (habsent : Located F w.map key none) :
    Ends (putWith F grow key value) w
      (fun old w' => old = none ∧ Inserted F.toHashing w.map key value w'.map) (Thrown F w.map) := by
  have hloc : Ends (locate F key) w _ _ := locate_ends h
  rw [storage_eq hne] at hloc
  refine .seq hloc ?_ fun e w' he => he
  rintro r w' ⟨hw', hr⟩
  obtain rfl := hr.none_of_none habsent
  refine .bind (.of_eq rfl ?_)
  rw [if_neg (by rwa [hw'])]
  exact insertNew_ends h hw' hne hfull habsent

/-! ## Growing -/

/-- The entries of slots. -/
def slotEntries (slots : List (Slot K V)) : List (K × V) := slots.filterMap Slot.entry

/-- An exception while the old slots are put into a new table that is to have so many entries. -/
def Lost (F : Functions K) (count : ℕ) (e : Stop) (w : World K V) : Prop :=
  Raises F e ∧ Inv F.toHashing w.map ∧ w.map.slots ≠ [] ∧ w.map.count < count

theorem reinsert_ends {put : K → V → Call K V (Option V)}
    (hput : ∀ (w : World K V) key value, Inv F.toHashing w.map → w.map.slots ≠ [] →
      ¬ w.map.Full → Located F w.map key none → Ends (put key value) w
        (fun _ w' => Inserted F.toHashing w.map key value w'.map) (Thrown F w.map))
    {slots : List (Slot K V)} (hfilled : ∀ s ∈ slots, s.state = 1 → ∃ k v, s = ⟨1, some k, some v⟩)
    (hpair : (slotEntries slots).Pairwise fun a b => F.equal a.1 b.1 = false)
    (h : Inv F.toHashing w.map) (hne : w.map.slots ≠ [])
    (hnew : ∀ p ∈ w.map.entries, ∀ q ∈ slotEntries slots, F.equal p.1 q.1 = false)
    (hroom : (w.map.count + slots.countP (·.state = 1)) * 4 < w.map.slots.length * 3) :
    Ends (reinsert put slots) w
      (fun _ w' => Inv F.toHashing w'.map ∧ w'.map.slots.length = w.map.slots.length ∧
        w'.map.count = w.map.count + slots.countP (·.state = 1) ∧
        ∀ p, p ∈ w'.map.entries ↔ p ∈ w.map.entries ∨ p ∈ slotEntries slots)
      (Lost F (w.map.count + slots.countP (·.state = 1))) := by
  induction slots generalizing w with
  | nil => exact .pure ⟨h, rfl, rfl, fun p => by simp [slotEntries]⟩
  | cons s slots ih =>
    have hfilled' : ∀ s ∈ slots, s.state = 1 → ∃ k v, s = ⟨1, some k, some v⟩ :=
      fun s hs => hfilled s (List.mem_cons_of_mem _ hs)
    rw [reinsert]
    split
    · next h1 =>
      obtain ⟨k, v, rfl⟩ := hfilled s List.mem_cons_self h1
      have hcount : (⟨1, some k, some v⟩ :: slots : List (Slot K V)).countP (·.state = 1) =
          slots.countP (·.state = 1) + 1 := List.countP_cons_of_pos rfl
      have hentries : slotEntries (⟨1, some k, some v⟩ :: slots) = (k, v) :: slotEntries slots := rfl
      rw [hcount] at hroom ⊢
      rw [hentries] at hpair hnew ⊢
      have habsent : Located F w.map k none := fun i k' v' hi =>
        hnew (k', v') (mem_entries.mpr ⟨i, hi⟩) (k, v) List.mem_cons_self
      have hfull : ¬ w.map.Full := by unfold Full; omega
      refine .bind (.of_eq rfl (.bind (.of_eq rfl (.seq (hput w k v h hne hfull habsent) ?_ ?_))))
      · intro _ w' hins
        have hne' : w'.map.slots ≠ [] := by
          rw [← List.length_pos_iff, hins.length]
          exact List.length_pos_iff.mpr hne
        refine (ih hfilled' (List.pairwise_cons.mp hpair).2 hins.inv hne' ?_ ?_).mono ?_ ?_
        · intro p hp q hq
          rcases (hins.entries p).mp hp with rfl | hp
          · exact (List.pairwise_cons.mp hpair).1 q hq
          · exact hnew p hp q (List.mem_cons_of_mem _ hq)
        · rw [hins.count, hins.length]
          omega
        · rintro _ w'' ⟨hinv, hlen, hnum, hall⟩
          refine ⟨hinv, hlen.trans hins.length, by rw [hnum, hins.count]; omega, fun p => ?_⟩
          rw [hall, hins.entries, List.mem_cons]
          tauto
        · rintro e w'' ⟨hx, hinv, hne'', hlt⟩
          exact ⟨hx, hinv, hne'', by rw [hins.count] at hlt; omega⟩
      · rintro e w' ⟨hx, hw'⟩
        rw [← hw'] at h hne ⊢
        exact ⟨hx, h, hne, by omega⟩
    · next h1 =>
      have hcount : (s :: slots).countP (·.state = 1) = slots.countP (·.state = 1) :=
        List.countP_cons_of_neg (by simpa using h1)
      have hentries : slotEntries (s :: slots) = slotEntries slots :=
        List.filterMap_cons_none (entry_eq_none h1)
      rw [hcount] at hroom ⊢
      rw [hentries] at hpair hnew ⊢
      exact ih hfilled' hpair h hne hnew hroom

/-- The table after it has grown. -/
structure Grown (H : Hashing K) (t t' : HashMap K V) : Prop where
  inv : Inv H t'
  length : t'.slots.length = t.slots.length * 2
  count : t'.count = t.count
  entries : ∀ p, p ∈ t'.entries ↔ p ∈ t.entries

/-- The old slots are put into a table with twice as many. -/
theorem regrow_ends {put : K → V → Call K V (Option V)}
    (hput : ∀ (w : World K V) key value, Inv F.toHashing w.map → w.map.slots ≠ [] →
      ¬ w.map.Full → Located F w.map key none → Ends (put key value) w
        (fun _ w' => Inserted F.toHashing w.map key value w'.map) (Thrown F w.map))
    (h : Inv F.toHashing w.map) (hne : w.map.slots ≠ []) :
    Ends (do
      assign { slots := List.replicate (w.map.slots.length * 2) .empty, count := 0 }
      reinsert put w.map.slots) w
      (fun _ w' => Grown F.toHashing w.map w'.map) (Lost F w.map.count) := by
  refine .bind (.of_eq rfl ?_)
  have hpos := List.length_pos_iff.mpr hne
  have hroom := h.room hne
  have hempty : ∀ p, p ∉ (⟨List.replicate (w.map.slots.length * 2) .empty, 0⟩ :
      HashMap K V).entries := fun p hp => by
    obtain ⟨i, hi⟩ := mem_entries.mp hp
    exact holds_replicate hi
  refine (reinsert_ends hput h.filled h.pairwise (.replicate F.toHashing _) ?_ ?_ ?_).mono ?_ ?_
  · rw [← List.length_pos_iff, List.length_replicate]
    omega
  · exact fun p hp => absurd hp (hempty p)
  · rw [← h.count, List.length_replicate]
    change (0 + w.map.count) * 4 < w.map.slots.length * 2 * 3
    omega
  · rintro _ w' ⟨hinv, hlen, hcount, hall⟩
    rw [← h.count, Nat.zero_add] at hcount
    rw [List.length_replicate] at hlen
    refine ⟨hinv, hlen, hcount, fun p => ?_⟩
    rw [hall, or_iff_right (hempty p)]
    rfl
  · rintro e w' hlost
    rwa [← h.count, Nat.zero_add] at hlost

theorem growWith_ends {put : K → V → Call K V (Option V)} {kind : String}
    (hput : ∀ (w : World K V) key value, Inv F.toHashing w.map → w.map.slots ≠ [] →
      ¬ w.map.Full → Located F w.map key none → Ends (put key value) w
        (fun _ w' => Inserted F.toHashing w.map key value w'.map) (Thrown F w.map))
    (h : Inv F.toHashing w.map) (hne : w.map.slots ≠ []) :
    Ends (growWith kind put) w (fun _ w' => Grown F.toHashing w.map w'.map)
      (fun e w' => Lost F w.map.count e w' ∨
        (e = .raised (kind ++ " capacity overflow") ∧ maxSlots < w.map.slots.length ∧
          w'.map = w.map)) := by
  refine .bind (.of_eq rfl ?_)
  split
  · next hmax => exact .bind (.throw (.inr ⟨rfl, Nat.not_le.mp hmax, rfl⟩))
  · exact (regrow_ends hput h hne).mono (fun _ _ h => h) fun _ _ h => .inl h

end Loxis.Stdlib.HashMap
