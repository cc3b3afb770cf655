import Loxis.Stdlib.HashMapSpec
import Mathlib.Data.Set.Card

/-! # Hash tables as maps

A table stands for a map from the classes of equal keys. Each operation of a table does to it
what the operation of the same name does to the map, in any order of operations.
-/

namespace Loxis.Stdlib

namespace Hashing

variable {K V : Type} (H : Hashing K)

/-- Equal keys. -/
def setoid : Setoid K := ⟨fun a b => H.equal a b = true, H.equiv⟩

abbrev Class := Quotient H.setoid

/-- The class of a key. -/
def classOf (k : K) : H.Class := Quotient.mk H.setoid k

/-- A map has a value for a key or none. -/
abbrev Map (V : Type) := H.Class → Option V

variable {H}

theorem classOf_eq_iff {a b : K} : H.classOf a = H.classOf b ↔ H.equal a b = true :=
  ⟨fun h => Quotient.exact h, fun h => Quotient.sound h⟩

open Classical in
/-- The map with another value, or none, for a key. -/
noncomputable def update (M : H.Map V) (key : K) (value : Option V) : H.Map V :=
  fun c => if c = H.classOf key then value else M c

theorem update_self {M : H.Map V} {key : K} {o : Option V} : update M key o (H.classOf key) = o :=
  if_pos rfl

theorem update_of_ne {M : H.Map V} {key : K} {o : Option V} {c : H.Class} (h : c ≠ H.classOf key) :
    update M key o c = M c :=
  if_neg h

theorem update_eq_self {M : H.Map V} {key : K} (h : M (H.classOf key) = none) :
    update M key none = M := by
  funext c
  unfold update
  split
  · next hc => rw [hc, h]
  · rfl

end Hashing

namespace HashMap

variable {K V : Type} {H : Hashing K} {F : Functions K} {t t' : HashMap K V} {w : World K V}
  {key : K} {value : V} {M : H.Map V} {i : ℕ} {k : K} {v : V}

/-- The table has the keys and values of the map. -/
def Maps (H : Hashing K) (t : HashMap K V) (M : H.Map V) : Prop :=
  ∀ c v, M c = some v ↔ ∃ k, (k, v) ∈ t.entries ∧ H.classOf k = c

theorem Maps.congr (h : Maps H t M) (he : ∀ p, p ∈ t'.entries ↔ p ∈ t.entries) : Maps H t' M := by
  intro c v
  simp only [h c v, he]

theorem Maps.unique {M' : H.Map V} (h : Maps H t M) (h' : Maps H t M') : M = M' := by
  funext c
  refine Option.ext fun v => ?_
  rw [h c v, h' c v]

theorem maps_of_entries_nil (h : t.entries = []) : Maps H t fun _ => none := by
  intro c v
  simp [h]

/-- The value of a present key. -/
theorem Maps.of_holds (h : Maps H t M) (hi : Holds t i k v) (heq : H.equal k key = true) :
    M (H.classOf key) = some v :=
  (h _ v).mpr ⟨k, mem_entries.mpr ⟨i, hi⟩, Hashing.classOf_eq_iff.mpr heq⟩

theorem Maps.of_absent (h : Maps H t M) (ha : ∀ i k v, Holds t i k v → H.equal k key = false) :
    M (H.classOf key) = none := by
  cases hM : M (H.classOf key) with
  | none => rfl
  | some v =>
    obtain ⟨k, hk, heq⟩ := (h _ v).mp hM
    obtain ⟨i, hi⟩ := mem_entries.mp hk
    rw [Hashing.classOf_eq_iff, ha i k v hi] at heq
    cases heq

theorem Inserted.maps (hins : Inserted H t key value t') (h : Maps H t M)
    (ha : ∀ i k v, Holds t i k v → H.equal k key = false) :
    Maps H t' (Hashing.update M key (some value)) := by
  intro c v
  simp only [hins.entries, Prod.mk.injEq]
  by_cases hc : c = H.classOf key
  · subst hc
    rw [Hashing.update_self, Option.some.injEq]
    constructor
    · rintro rfl
      exact ⟨key, .inl ⟨rfl, rfl⟩, rfl⟩
    · rintro ⟨k, ⟨-, rfl⟩ | hk, heq⟩
      · rfl
      · obtain ⟨i, hi⟩ := mem_entries.mp hk
        rw [Hashing.classOf_eq_iff, ha i k v hi] at heq
        cases heq
  · rw [Hashing.update_of_ne hc, h c v]
    constructor
    · rintro ⟨k, hk, heq⟩
      exact ⟨k, .inr hk, heq⟩
    · rintro ⟨k, ⟨rfl, rfl⟩ | hk, heq⟩
      · exact absurd heq.symm hc
      · exact ⟨k, hk, heq⟩

/-- Another value in the slot of a key, or none. -/
theorem Maps.withSlot (h : Maps H t M) (hinv : Inv H t) (hi : Holds t i k v)
    (heq : H.equal k key = true) {s : Slot K V} {c : ℕ} {o : Option V}
    (hs : s.entry = o.map fun v => (k, v)) : Maps H (t.withSlot i s c) (Hashing.update M key o) := by
  have hclass : H.classOf k = H.classOf key := Hashing.classOf_eq_iff.mpr heq
  have hmem : ∀ p, p ∈ (t.withSlot i s c).entries ↔ s.entry = some p ∨
      ∃ j, i ≠ j ∧ Holds t j p.1 p.2 := by
    rintro ⟨k', v'⟩
    simp only [mem_entries, holds_withSlot hi.lt, entry_eq_some]
    constructor
    · rintro ⟨j, hj⟩
      split at hj
      · exact .inl hj
      · next hij => exact .inr ⟨j, hij, hj⟩
    · rintro (hs | ⟨j, hij, hj⟩)
      · exact ⟨i, by rwa [if_pos rfl]⟩
      · exact ⟨j, by rwa [if_neg hij]⟩
  intro d v'
  simp only [hmem]
  by_cases hd : d = H.classOf key
  · subst hd
    rw [Hashing.update_self]
    constructor
    · rintro rfl
      exact ⟨k, .inl hs, hclass⟩
    · rintro ⟨k', hk' | ⟨j, hij, hj⟩, hk⟩
      · rw [hs, Option.map_eq_some_iff] at hk'
        obtain ⟨v₀, hv₀, hp⟩ := hk'
        cases hp
        exact hv₀
      · exact absurd (hinv.distinct i j k k' v v' hi hj
          (Hashing.classOf_eq_iff.mp (hclass.trans hk.symm))) hij
  · rw [Hashing.update_of_ne hd, h d v']
    constructor
    · rintro ⟨k', hk', hk⟩
      obtain ⟨j, hj⟩ := mem_entries.mp hk'
      refine ⟨k', .inr ⟨j, ?_, hj⟩, hk⟩
      rintro rfl
      rw [Holds, hi, Option.some.injEq] at hj
      cases hj
      exact hd (hk.symm.trans hclass)
    · rintro ⟨k', hk' | ⟨j, -, hj⟩, hk⟩
      · rw [hs, Option.map_eq_some_iff] at hk'
        obtain ⟨v₀, -, hp⟩ := hk'
        cases hp
        exact absurd (hk.symm.trans hclass) hd
      · exact ⟨k', mem_entries.mpr ⟨j, hj⟩, hk⟩

/-! ## The operations -/

/-- What a search has found is the value of the key. -/
theorem Maps.of_located {M : F.toHashing.Map V} (h : Maps F.toHashing t M) {r : Option ℕ}
    (hr : Located F t key r) : (r = none ∧ M (F.classOf key) = none) ∨
      ∃ i k v, r = some i ∧ Holds t i k v ∧ F.equal k key = true ∧ M (F.classOf key) = some v := by
  cases r with
  | none => exact .inl ⟨rfl, h.of_absent hr⟩
  | some i =>
    obtain ⟨k, v, hi, heq⟩ := hr
    exact .inr ⟨i, k, v, rfl, hi, heq, h.of_holds hi heq⟩

theorem Located.of_grown (h : Located F t key none) (hg : Grown F.toHashing t t') :
    Located F t' key none := by
  intro i k v hi
  obtain ⟨j, hj⟩ := mem_entries.mp ((hg.entries (k, v)).mp (mem_entries.mpr ⟨i, hi⟩))
  exact h j k v hj

/-- A table that has grown is not full. -/
theorem Grown.room (hg : Grown H t t') (h : Inv H t) (hne : t.slots ≠ []) :
    t'.slots ≠ [] ∧ ¬ t'.Full := by
  have hpos := List.length_pos_iff.mpr hne
  have hlen := hg.length
  have hroom := h.room hne
  have hlt : t.count < t.slots.length := by omega
  rw [← List.length_pos_iff]
  unfold Full
  rw [hg.count]
  omega

section Operations

variable {M : F.toHashing.Map V} {kind : String} {depth : ℕ}

theorem put_room (w : World K V) (key : K) (value : V) (h : Inv F.toHashing w.map)
    (hne : w.map.slots ≠ []) (hfull : ¬ w.map.Full) (habsent : Located F w.map key none) :
    Ends (put F kind (depth + 1) key value) w
      (fun _ w' => Inserted F.toHashing w.map key value w'.map) (Thrown F w.map) :=
  (putWith_ends_room h hne hfull habsent).mono (fun _ _ h => h.2) fun _ _ h => h

/-- The exception of a table that cannot grow, at least three quarters of its slots taken. -/
def Overflow (kind : String) (count : ℕ) (e : Stop) : Prop :=
  e = .raised (kind ++ " capacity overflow") ∧ 3 * (maxSlots + 1) ≤ 4 * (count + 1)

/-- `put` over any function that grows a table. -/
theorem putWith_ends {grow : Call K V Unit} {E : Stop → World K V → Prop}
    (hgrow : ∀ w', w'.map = w.map.storage → w'.map.Full → Inv F.toHashing w'.map →
      w'.map.slots ≠ [] → Ends grow w' (fun _ w'' => Grown F.toHashing w'.map w''.map) E)
    (hE : ∀ e w', Raises F e → Inv F.toHashing w'.map → E e w')
    (h : Inv F.toHashing w.map) (hM : Maps F.toHashing w.map M) :
    Ends (putWith F grow key value) w
      (fun old w' => old = M (F.classOf key) ∧ Inv F.toHashing w'.map ∧
        Maps F.toHashing w'.map (Hashing.update M key (some value))) E := by
  have hst := h.storage
  have hMst : Maps F.toHashing w.map.storage M := hM.congr fun p => by rw [entries_storage]
  refine .seq (locate_ends h) ?_ ?_
  · rintro r w' ⟨hw', hr⟩
    rcases hMst.of_located hr with ⟨rfl, hnone⟩ | ⟨i, k, v, rfl, hi, heq, hsome⟩
    · refine .bind (.of_eq rfl ?_)
      have hne : w'.map.slots ≠ [] := hw' ▸ storage_ne_nil
      split
      · next hfull =>
        refine .seq (hgrow w' hw' hfull (hw' ▸ hst) hne) ?_ fun _ _ h => h
        intro _ w'' hg
        obtain ⟨hne'', hfull''⟩ := hg.room (hw' ▸ hst) hne
        have habsent := hr.of_grown (hw' ▸ hg)
        refine (insertNew_ends hg.inv rfl hne'' hfull'' habsent).mono ?_ ?_
        · rintro _ w₃ ⟨rfl, hins⟩
          exact ⟨hnone.symm, hins.inv, hins.maps (hMst.congr (hw' ▸ hg.entries)) habsent⟩
        · rintro e w₃ ⟨hx, hw₃⟩
          exact hE e w₃ hx (hw₃ ▸ hg.inv)
      · next hfull =>
        refine (insertNew_ends hst hw' storage_ne_nil (hw' ▸ hfull) hr).mono ?_ ?_
        · rintro _ w'' ⟨rfl, hins⟩
          exact ⟨hnone.symm, hins.inv, hins.maps hMst hr⟩
        · rintro e w'' ⟨hx, hw''⟩
          exact hE e w'' hx (hw'' ▸ hst)
    · refine .bind (.of_eq (getSlot_eq (hw' ▸ hi)) (.bind (.of_eq (setSlot_eq (hw' ▸ hi.lt))
        (.pure ⟨hsome.symm, ?_, ?_⟩))))
      · rw [hw']
        exact hst.change hi Nat.one_ne_zero (fun _ => ⟨value, rfl⟩) rfl
      · rw [hw']
        exact hMst.withSlot hst hi heq rfl
  · rintro e w' ⟨hx, hw'⟩
    exact hE e w' hx (hw' ▸ hst)

theorem put_ends (h : Inv F.toHashing w.map) (hM : Maps F.toHashing w.map M) :
    Ends (put F kind (depth + 2) key value) w
      (fun old w' => old = M (F.classOf key) ∧ Inv F.toHashing w'.map ∧
        Maps F.toHashing w'.map (Hashing.update M key (some value)))
      (fun e w' => Inv F.toHashing w'.map ∧ (Raises F e ∨
        (Overflow kind w.map.count e ∧ Maps F.toHashing w'.map M))) := by
  have hMst : Maps F.toHashing w.map.storage M := hM.congr fun p => by rw [entries_storage]
  refine putWith_ends (fun w' hw' hfull hinv hne => ?_) (fun e w' hx hinv => ⟨hinv, .inl hx⟩) h hM
  refine (growWith_ends put_room hinv hne).mono (fun _ _ h => h) ?_
  rintro e w'' (⟨hx, hinv', -⟩ | ⟨rfl, hmax, hw''⟩)
  · exact ⟨hinv', .inl hx⟩
  · rw [hw'', hw'] at *
    unfold Full at hfull
    rw [count_storage] at hfull
    exact ⟨hinv, .inr ⟨⟨rfl, by omega⟩, hMst⟩⟩

theorem get_ends (h : Inv F.toHashing w.map) (hM : Maps F.toHashing w.map M) :
    Ends (get F key) w (fun r w' => r = M (F.classOf key) ∧ w'.map = w.map.storage)
      (Thrown F w.map.storage) := by
  have hMst : Maps F.toHashing w.map.storage M := hM.congr fun p => by rw [entries_storage]
  refine .seq (locate_ends h) ?_ fun e w' he => he
  rintro r w' ⟨hw', hr⟩
  rcases hMst.of_located hr with ⟨rfl, hnone⟩ | ⟨i, k, v, rfl, hi, -, hsome⟩
  · exact .pure ⟨hnone.symm, hw'⟩
  · exact .bind (.of_eq (getSlot_eq (hw' ▸ hi)) (.pure ⟨hsome.symm, hw'⟩))

theorem containsKey_ends (h : Inv F.toHashing w.map) (hM : Maps F.toHashing w.map M) :
    Ends (containsKey F key) w
      (fun r w' => r = (M (F.classOf key)).isSome ∧ w'.map = w.map.storage)
      (Thrown F w.map.storage) := by
  have hMst : Maps F.toHashing w.map.storage M := hM.congr fun p => by rw [entries_storage]
  refine .seq (locate_ends h) ?_ fun e w' he => he
  rintro r w' ⟨hw', hr⟩
  rcases hMst.of_located hr with ⟨rfl, hnone⟩ | ⟨i, k, v, rfl, -, -, hsome⟩
  · exact .pure ⟨by rw [hnone]; rfl, hw'⟩
  · exact .pure ⟨by rw [hsome]; rfl, hw'⟩

theorem remove_ends (h : Inv F.toHashing w.map) (hM : Maps F.toHashing w.map M) :
    Ends (remove F key) w
      (fun old w' => old = M (F.classOf key) ∧ Inv F.toHashing w'.map ∧
        Maps F.toHashing w'.map (Hashing.update M key none))
      (Thrown F w.map.storage) := by
  have hst := h.storage
  have hMst : Maps F.toHashing w.map.storage M := hM.congr fun p => by rw [entries_storage]
  refine .seq (locate_ends h) ?_ fun e w' he => he
  rintro r w' ⟨hw', hr⟩
  rcases hMst.of_located hr with ⟨rfl, hnone⟩ | ⟨i, k, v, rfl, hi, heq, hsome⟩
  · refine .pure ⟨hnone.symm, hw' ▸ hst, ?_⟩
    rw [hw', Hashing.update_eq_self hnone]
    exact hMst
  · have hpos : 0 < w.map.storage.count := by
      rw [hst.count]
      exact List.countP_pos_iff.mpr ⟨_, List.mem_of_getElem? hi, rfl⟩
    refine .bind (.of_eq (getSlot_eq (hw' ▸ hi)) (.bind (.of_eq (setSlot_eq (hw' ▸ hi.lt))
      (.bind (.of_eq rfl (.bind (.of_eq rfl (.pure ⟨hsome.symm, ?_, ?_⟩))))))))
    · rw [hw']
      exact hst.change hi (Nat.succ_ne_zero 1) nofun (Nat.sub_add_cancel hpos)
    · rw [hw']
      exact hMst.withSlot hst hi heq rfl

/-- The keys that are listed are those of the entries. -/
theorem keysLoop_eq {slots : List (Slot K V)}
    (hfilled : ∀ s ∈ slots, s.state = 1 → ∃ k v, s = ⟨1, some k, some v⟩) :
    keysLoop slots w = .ok ((slotEntries slots).map Prod.fst) w := by
  induction slots with
  | nil => rfl
  | cons s slots ih =>
    have hrest := ih fun s hs => hfilled s (List.mem_cons_of_mem _ hs)
    rw [keysLoop]
    split
    · next h1 =>
      obtain ⟨k, v, rfl⟩ := hfilled s List.mem_cons_self h1
      have hkey : (valueOrFail (some k) : Call K V K) w = .ok k w := rfl
      exact (bind_ok hkey).trans ((bind_ok hrest).trans rfl)
    · next h1 =>
      rw [hrest]
      congr 2
      exact (List.filterMap_cons_none (entry_eq_none h1)).symm

theorem keys_eq (h : Inv F.toHashing w.map) :
    keys w = .ok (w.map.entries.map Prod.fst) w := keysLoop_eq h.filled

end Operations

section Sizes

/-- The listed keys are one for each class that has a value. -/
theorem Maps.keys (h : Inv H t) (hM : Maps H t M) :
    ((t.entries.map Prod.fst).map H.classOf).Nodup ∧
      ∀ c, c ∈ (t.entries.map Prod.fst).map H.classOf ↔ M c ≠ none := by
  constructor
  · rw [List.map_map, List.Nodup, List.pairwise_map]
    refine h.pairwise.imp fun hne heq => ?_
    rw [Hashing.classOf_eq_iff.mp heq] at hne
    cases hne
  · intro c
    rw [Option.ne_none_iff_exists']
    simp only [hM c, List.mem_map, Prod.exists, exists_and_right, exists_eq_right]
    tauto

/-- The count is the number of keys. -/
theorem Maps.count (h : Inv H t) (hM : Maps H t M) : t.count = {c | M c ≠ none}.ncard := by
  classical
  obtain ⟨hnodup, hmem⟩ := hM.keys h
  have hset : {c | M c ≠ none} = ↑((t.entries.map Prod.fst).map H.classOf).toFinset := by
    ext c
    rw [Set.mem_ofPred_eq, List.coe_toFinset, Set.mem_ofPred_eq, hmem]
  rw [hset, Set.ncard_coe_finset, List.toFinset_card_of_nodup hnodup, List.length_map,
    List.length_map, h.length_entries]

end Sizes

end HashMap

end Loxis.Stdlib
