import Mathlib.Data.Finset.Card
import Loxis.Aarc.Components

/-! # The member lists of the components

Disjoint lists of slots, one behind every header in use, with a label on each member. A fresh
slot starts a list, a merge appends one list to another, and a member that dies or a promotion
takes slots out.
-/

namespace Loxis.Aarc.ConservativeComponents

open Function

variable {L : ℕ → List ℕ} {f : ℕ → ℕ} {n id id' i j : ℕ} {l : List ℕ}

/-! ## Headers -/

/-- The headers in use are those with members; the others wait in the free list. -/
structure OwnerStore.Uses (s : OwnerStore) (n : ℕ) (L : ℕ → List ℕ) : Prop where
  in_use : ∀ id, L id ≠ [] → id < s.size
  free : ∀ id, id ∈ s.freeList ↔ id < s.size ∧ L id = []
  free_nodup : s.freeList.Nodup
  unused : ∀ id < s.size, L id = [] → s.header id = {}
  size_le : s.size ≤ n

namespace OwnerStore

variable {s : OwnerStore} {h : Header}

@[simp] theorem header_setHeader : (s.setHeader id h).header id = h := update_self ..

theorem header_setHeader_of_ne (hj : j ≠ id) : (s.setHeader id h).header j = s.header j :=
  update_of_ne hj _ _

theorem header_freeHeader_of_ne (hj : j ≠ id) : (s.freeHeader id).header j = s.header j :=
  update_of_ne hj _ _

@[simp] theorem freeHeader_setHeader : (s.setHeader id h).freeHeader id = s.freeHeader id := by
  unfold OwnerStore.freeHeader OwnerStore.setHeader
  rw [update_idem]

namespace Uses

/-- A new header has no members yet, and the others are left alone. -/
theorem newHeader (hs : s.Uses n L) (hlt : s.freeList = [] → s.size < n) (h : Header)
    (hl : l ≠ []) :
    L s.newHeader.1 = [] ∧ (∀ id, L id ≠ [] → s.newHeader.2.header id = s.header id) ∧
      (s.newHeader.2.setHeader s.newHeader.1 h).Uses n (update L s.newHeader.1 l) := by
  unfold OwnerStore.newHeader OwnerStore.setHeader
  split
  · next comp rest hf =>
    obtain ⟨hcomp, h0⟩ := (hs.free comp).mp (hf ▸ List.mem_cons_self)
    obtain ⟨hnotMem, hnd⟩ := List.nodup_cons.mp (hf ▸ hs.free_nodup)
    refine ⟨h0, fun _ _ => rfl, ?_, fun id => ?_, hnd, ?_, hs.size_le⟩
    · intro id hid
      obtain rfl | hne := eq_or_ne id comp
      · exact hcomp
      · exact hs.in_use id (by rwa [update_of_ne hne] at hid)
    · have hfree := hs.free id
      rw [hf, List.mem_cons] at hfree
      obtain rfl | hne := eq_or_ne id comp
      · simpa [hnotMem] using fun _ => hl
      · simpa [hne] using hfree
    · intro id hid hid0
      obtain rfl | hne := eq_or_ne id comp
      · exact absurd (by rwa [update_self] at hid0) hl
      · rw [update_of_ne hne] at hid0
        exact (update_of_ne hne _ _).trans (hs.unused id hid hid0)
  · next hf =>
    have h0 : L s.size = [] := by
      by_contra h0
      exact Nat.lt_irrefl _ (hs.in_use _ h0)
    have hne : ∀ id, L id ≠ [] → id ≠ s.size := by
      rintro id hid rfl
      exact hid h0
    refine ⟨h0, fun id hid => update_of_ne (hne id hid) _ _, ?_, fun id => ?_, hs.free_nodup, ?_,
      hlt hf⟩
    · intro id hid
      obtain rfl | hne := eq_or_ne id s.size
      · exact Nat.lt_succ_self _
      · exact Nat.lt_succ_of_lt (hs.in_use id (by rwa [update_of_ne hne] at hid))
    · have hfree := hs.free id
      rw [hf] at hfree ⊢
      obtain rfl | hne := eq_or_ne id s.size
      · simpa using hl
      · rw [update_of_ne hne, hfree, Nat.lt_succ_iff_lt_or_eq, or_iff_left hne]
    · intro id hid hid0
      obtain rfl | hne := eq_or_ne id s.size
      · exact absurd (by rwa [update_self] at hid0) hl
      · rw [update_of_ne hne] at hid0
        have hlt : id < s.size := lt_of_le_of_ne (Nat.le_of_lt_succ hid) hne
        exact (update_of_ne hne _ _).trans ((update_of_ne hne _ _).trans (hs.unused id hlt hid0))

theorem setHeader (hs : s.Uses n L) (hid : L id ≠ []) (h : Header) (hl : l ≠ []) :
    (s.setHeader id h).Uses n (update L id l) where
  in_use j hj := by
    obtain rfl | hne := eq_or_ne j id
    · exact hs.in_use j hid
    · exact hs.in_use j (by rwa [update_of_ne hne] at hj)
  free j := by
    obtain rfl | hne := eq_or_ne j id
    · simpa [OwnerStore.setHeader, hl, hid] using hs.free j
    · simpa [OwnerStore.setHeader, hne] using hs.free j
  free_nodup := hs.free_nodup
  unused j hj hj0 := by
    obtain rfl | hne := eq_or_ne j id
    · exact absurd (by rwa [update_self] at hj0) hl
    · rw [update_of_ne hne] at hj0
      exact (update_of_ne hne _ _).trans (hs.unused j hj hj0)
  size_le := hs.size_le

theorem freeHeader (hs : s.Uses n L) (hid : L id ≠ []) :
    (s.freeHeader id).Uses n (update L id []) where
  in_use j hj := by
    obtain rfl | hne := eq_or_ne j id
    · exact hs.in_use j hid
    · exact hs.in_use j (by rwa [update_of_ne hne] at hj)
  free j := by
    obtain rfl | hne := eq_or_ne j id
    · simpa [OwnerStore.freeHeader] using hs.in_use j hid
    · simpa [OwnerStore.freeHeader, hne] using hs.free j
  free_nodup := List.nodup_cons.mpr ⟨fun h => hid ((hs.free id).mp h).2, hs.free_nodup⟩
  unused j hj hj0 := by
    obtain rfl | hne := eq_or_ne j id
    · exact update_self ..
    · rw [update_of_ne hne] at hj0
      exact (update_of_ne hne _ _).trans (hs.unused j hj hj0)
  size_le := hs.size_le

end Uses

end OwnerStore

/-! ## Labels -/

/-- Every member of a list is labelled with it, and nothing else is labelled. -/
structure Labels (f : ℕ → ℕ) (n : ℕ) (L : ℕ → List ℕ) : Prop where
  nodup : ∀ id, (L id).Nodup
  label : ∀ id, ∀ i ∈ L id, f i = id
  unlabelled : ∀ i, (∀ id, i ∉ L id) → f i = kNoComp
  bounded : ∀ id, ∀ i ∈ L id, i < n

namespace Labels

theorem id_eq (hf : Labels f n L) (hi : i ∈ L id) (hj : i ∈ L j) : id = j :=
  (hf.label id i hi).symm.trans (hf.label j i hj)

theorem length_le (hf : Labels f n L) (id : ℕ) : (L id).length ≤ n := by
  have h := Finset.card_le_card (s := (L id).toFinset) (t := Finset.range n) fun i hi =>
    Finset.mem_range.mpr (hf.bounded id i (List.mem_toFinset.mp hi))
  rwa [List.toFinset_card_of_nodup (hf.nodup id), Finset.card_range] at h

/-- A fresh slot starts a list. -/
theorem add (hf : Labels f n L) (hid : L id = []) (hi : ∀ j, i ∉ L j) (hlt : i < n) :
    Labels (update f i id) n (update L id [i]) where
  nodup j := by
    obtain rfl | hne := eq_or_ne j id
    · rw [update_self]
      exact List.nodup_singleton i
    · rw [update_of_ne hne]
      exact hf.nodup j
  label j x hx := by
    obtain rfl | hne := eq_or_ne j id
    · rw [update_self, List.mem_singleton] at hx
      rw [hx, update_self]
    · rw [update_of_ne hne] at hx
      have hxi : x ≠ i := fun h => hi j (h ▸ hx)
      rw [update_of_ne hxi]
      exact hf.label j x hx
  unlabelled x hx := by
    have hxi : x ≠ i := by
      rintro rfl
      refine hx id ?_
      rw [update_self]
      exact List.mem_singleton_self x
    rw [update_of_ne hxi]
    refine hf.unlabelled x fun j hj => hx j ?_
    have hne : j ≠ id := by
      rintro rfl
      rw [hid] at hj
      exact List.not_mem_nil hj
    rwa [update_of_ne hne]
  bounded j x hx := by
    obtain rfl | hne := eq_or_ne j id
    · rw [update_self, List.mem_singleton] at hx
      rwa [hx]
    · rw [update_of_ne hne] at hx
      exact hf.bounded j x hx

theorem foldl_update_apply (m : List ℕ) (f : ℕ → ℕ) (x : ℕ) :
    m.foldl (fun f i => update f i id) f x = if x ∈ m then id else f x := by
  induction m generalizing f with
  | nil => simp
  | cons i m ih =>
    rw [List.foldl_cons, ih, update_apply]
    split <;> split <;> simp_all

theorem mem_append (k x : ℕ) : x ∈ update (update L id (L id ++ L j)) j [] k ↔
    k ≠ j ∧ (x ∈ L k ∨ k = id ∧ x ∈ L j) := by
  simp only [update_apply]
  split_ifs <;> simp_all

/-- One list goes behind another and takes its label. -/
theorem append (hf : Labels f n L) (hne : j ≠ id) :
    Labels ((L j).foldl (fun f i => update f i id) f) n
      (update (update L id (L id ++ L j)) j []) := by
  have hmem := @mem_append L id j
  constructor
  · intro k
    simp only [update_apply]
    split_ifs with hj hid
    · exact List.nodup_nil
    · refine (hf.nodup id).append (hf.nodup j) fun x hx hx' => hne (hf.id_eq hx' hx)
    · exact hf.nodup k
  · intro k x hx
    rw [foldl_update_apply]
    obtain ⟨hk, hxk | ⟨rfl, hxj⟩⟩ := (hmem k x).mp hx
    · rw [if_neg fun hxj => hk (hf.id_eq hxk hxj)]
      exact hf.label k x hxk
    · exact if_pos hxj
  · intro x hx
    have hxj : x ∉ L j := fun h => hx id ((hmem id x).mpr ⟨hne.symm, Or.inr ⟨rfl, h⟩⟩)
    rw [foldl_update_apply, if_neg hxj]
    refine hf.unlabelled x fun k hk => ?_
    obtain rfl | hkj := eq_or_ne k j
    · exact hxj hk
    · exact hx k ((hmem k x).mpr ⟨hkj, Or.inl hk⟩)
  · intro k x hx
    obtain ⟨-, hx | ⟨-, hx⟩⟩ := (hmem k x).mp hx
    · exact hf.bounded k x hx
    · exact hf.bounded j x hx

/-- A part of a list loses its label. -/
theorem drop (hf : Labels f n L) {m : List ℕ} (hl : l.Sublist (L id))
    (hm : ∀ x ∈ L id, x ∈ l ↔ x ∉ m) (hsub : ∀ x ∈ m, x ∈ L id) :
    Labels (m.foldl (fun f i => update f i kNoComp) f) n (update L id l) := by
  have hmem : ∀ k x, x ∈ update L id l k ↔ x ∈ L k ∧ x ∉ m := by
    intro k x
    obtain rfl | hne := eq_or_ne k id
    · rw [update_self]
      exact ⟨fun h => ⟨hl.subset h, (hm x (hl.subset h)).mp h⟩, fun h => (hm x h.1).mpr h.2⟩
    · rw [update_of_ne hne, iff_self_and]
      exact fun hx hxm => hne (hf.id_eq hx (hsub x hxm))
  constructor
  · intro k
    rw [update_apply]
    split
    · exact (hf.nodup id).sublist hl
    · exact hf.nodup k
  · intro k x hx
    obtain ⟨hx, hxm⟩ := (hmem k x).mp hx
    rw [foldl_update_apply, if_neg hxm]
    exact hf.label k x hx
  · intro x hx
    rw [foldl_update_apply]
    split
    · rfl
    · next hxm => exact hf.unlabelled x fun k hk => hx k ((hmem k x).mpr ⟨hk, hxm⟩)
  · intro k x hx
    exact hf.bounded k x ((hmem k x).mp hx).1

end Labels

/-! ## Lists -/

variable {c d : ConservativeComponents} {o : OwnerToken} {h : Header}

@[simp] theorem storeOf_setStore (s : OwnerStore) : (c.setStore o s).storeOf o = s :=
  update_self ..

/-- A header of the owner describes a list. -/
structure Header.Describes (h : Header) (c : ConservativeComponents) (o : OwnerToken)
    (l : List ℕ) : Prop where
  owner : h.owner = o
  live : h.live = l.length
  linked : Segment c.next c.prev h.head kNoComp l kNoComp h.tail

/-- Links outside the list do not matter. -/
theorem Header.Describes.congr (hh : h.Describes c o l) (hn : ∀ i ∈ l, d.next i = c.next i)
    (hp : ∀ i ∈ l, d.prev i = c.prev i) : h.Describes d o l :=
  ⟨hh.owner, hh.live, hh.linked.congr hn hp⟩

/-- The components of an owner hold the given lists. -/
structure Holds (c : ConservativeComponents) (o : OwnerToken) (L : ℕ → List ℕ) : Prop where
  uses : (c.storeOf o).Uses c.capacity L
  labels : Labels c.compOf c.capacity L
  describes : ∀ id, L id ≠ [] → ((c.storeOf o).header id).Describes c o (L id)
  capacity_le : c.capacity ≤ kNoComp

namespace Holds

theorem init {capacity : ℕ} (hcap : capacity ≤ kNoComp) :
    (init capacity).Holds o fun _ => [] where
  uses :=
    { in_use := fun _ h => absurd rfl h
      free := fun id => by simp [ConservativeComponents.init, storeOf]
      free_nodup := List.nodup_nil
      unused := fun _ _ _ => rfl
      size_le := Nat.zero_le capacity }
  labels :=
    { nodup := fun _ => List.nodup_nil
      label := fun _ _ h => absurd h List.not_mem_nil
      unlabelled := fun _ _ => rfl
      bounded := fun _ _ h => absurd h List.not_mem_nil }
  describes _ h := absurd rfl h
  capacity_le := hcap

section

variable (hL : c.Holds o L)
include hL

theorem ne_kNoComp (hi : i ∈ L id) : i ≠ kNoComp :=
  ((hL.labels.bounded id i hi).trans_le hL.capacity_le).ne

theorem kNoComp_notMem (id : ℕ) : kNoComp ∉ L id := fun h => hL.ne_kNoComp h rfl

theorem id_ne_kNoComp (hid : L id ≠ []) : id ≠ kNoComp :=
  (((hL.uses.in_use id hid).trans_le hL.uses.size_le).trans_le hL.capacity_le).ne

/-- A slot is a member of the component it is labelled with, and of no other. -/
theorem mem_iff (hid : id ≠ kNoComp) : i ∈ L id ↔ c.compOf i = id := by
  constructor
  · exact hL.labels.label id i
  · intro h
    by_contra hi
    refine hid (h.symm.trans (hL.labels.unlabelled i fun id' hi' => hi ?_))
    rwa [← h, hL.labels.label id' i hi']

theorem owns (hid : L id ≠ []) : c.owns o id = true := by
  simp [ConservativeComponents.owns, hL.uses.in_use id hid, (hL.describes id hid).owner]

/-- A member that stays in its list keeps its label. -/
theorem compOf_congr {L' : ℕ → List ℕ} (hL' : d.Holds o L') (hi : i ∈ L id) (hi' : i ∈ L' id) :
    d.compOf i = c.compOf i :=
  (hL'.labels.label id i hi').trans (hL.labels.label id i hi).symm

theorem chain (hid : L id ≠ []) :
    Chain c.next kNoComp ((c.storeOf o).header id).head (L id) :=
  (hL.describes id hid).linked.chain (hL.kNoComp_notMem id)

/-- The links of a header visit its list, and there is no more to visit. -/
theorem members_eq (hid : id < (c.storeOf o).size) : c.members o id = L id := by
  unfold members
  by_cases h0 : L id = []
  · rw [hL.uses.unused id hid h0, h0]
    exact Chain.nil.walk_eq (Nat.zero_le _)
  · exact (hL.chain h0).walk_eq (hL.labels.length_le id)

/-- There are fewer headers in use than slots while a slot is not a member. -/
theorem size_lt (hi : ∀ id, i ∉ L id) (hlt : i < c.capacity)
    (hfree : (c.storeOf o).freeList = []) : (c.storeOf o).size < c.capacity := by
  have hhead : ∀ id ∈ Finset.range (c.storeOf o).size, ((c.storeOf o).header id).head ∈ L id := by
    intro id hid
    have h0 : L id ≠ [] := fun h0 => by
      have := (hL.uses.free id).mpr ⟨Finset.mem_range.mp hid, h0⟩
      rw [hfree] at this
      exact List.not_mem_nil this
    exact (hL.describes id h0).linked.head_mem h0
  have hcard := Finset.card_le_card_of_injOn (s := Finset.range (c.storeOf o).size)
    (t := (Finset.range c.capacity).erase i) (fun id => ((c.storeOf o).header id).head)
    (fun id hid => ?_) fun id hid id' hid' heq => ?_
  · rw [Finset.card_range, Finset.card_erase_of_mem (Finset.mem_range.mpr hlt),
      Finset.card_range] at hcard
    omega
  · refine Finset.mem_erase.mpr ⟨?_, Finset.mem_range.mpr (hL.labels.bounded id _ (hhead id hid))⟩
    rintro rfl
    exact hi id (hhead id hid)
  · have heq : ((c.storeOf o).header id).head = ((c.storeOf o).header id').head := heq
    exact hL.labels.id_eq (heq ▸ hhead id hid) (hhead id' hid')

end

/-! ## Operations -/

theorem addLocal (hL : c.Holds o L) (hi : ∀ id, i ∉ L id) (hlt : i < c.capacity) :
    ∃ id, L id = [] ∧ (c.addLocal o i).Holds o (update L id [i]) := by
  obtain ⟨h0, hheader, huses⟩ := hL.uses.newHeader (hL.size_lt hi hlt) ⟨o, i, i, 1⟩
    (List.cons_ne_nil i [])
  have hstore : (c.addLocal o i).storeOf o =
    (c.storeOf o).newHeader.2.setHeader (c.storeOf o).newHeader.1 ⟨o, i, i, 1⟩ := update_self ..
  refine ⟨_, h0, ?_, hL.labels.add h0 hi hlt, fun id hid => ?_, hL.capacity_le⟩
  · rw [hstore]
    exact huses
  · rw [hstore]
    obtain rfl | hne := eq_or_ne id (c.storeOf o).newHeader.1
    · rw [update_self, OwnerStore.header_setHeader]
      exact ⟨rfl, rfl, rfl, update_self .., update_self .., rfl⟩
    · rw [update_of_ne hne] at hid ⊢
      rw [OwnerStore.header_setHeader_of_ne hne, hheader id hid]
      have hxi : ∀ x ∈ L id, x ≠ i := by
        rintro x hx rfl
        exact hi id hx
      exact (hL.describes id hid).congr (fun x hx => update_of_ne (hxi x hx) _ _)
        fun x hx => update_of_ne (hxi x hx) _ _

/-- Joining two components appends the list of the second to that of the first. -/
theorem merge (hL : c.Holds o L) (hi : i ∈ L id) (hj : j ∈ L id') (hne : id ≠ id') :
    (c.merge o i j).Holds o (update (update L id (L id ++ L id')) id' []) := by
  have h0 := List.ne_nil_of_mem hi
  have h0' := List.ne_nil_of_mem hj
  have hd := hL.describes id h0
  have hd' := hL.describes id' h0'
  have htail := hd.linked.last_mem h0
  have hhead := hd'.linked.head_mem h0'
  have hdis : ∀ k, k ≠ id' → ∀ x ∈ L k, ∀ y ∈ L id', x ≠ y := by
    rintro k hk x hx y hy rfl
    exact hk (hL.labels.id_eq hx hy)
  have hnd : (L id ++ L id').Nodup :=
    List.nodup_append.mpr ⟨hL.labels.nodup id, hL.labels.nodup id', hdis id hne⟩
  have hwalk : walk (update c.next ((c.storeOf o).header id).tail ((c.storeOf o).header id').head)
      kNoComp c.capacity ((c.storeOf o).header id').head = L id' := by
    refine ((hL.chain h0').congr fun x hx => update_of_ne ?_ _ _).walk_eq (hL.labels.length_le id')
    exact (hdis id hne _ htail x hx).symm
  have hlen : L id ++ L id' ≠ [] := List.append_ne_nil_of_left_ne_nil h0 _
  unfold ConservativeComponents.merge
  rw [hL.labels.label id i hi, hL.labels.label id' j hj,
    if_neg (by simp [hL.id_ne_kNoComp h0, hL.id_ne_kNoComp h0', hne])]
  simp only [ne_eq, hL.ne_kNoComp htail, hL.ne_kNoComp hhead, not_false_eq_true, if_true, relabel,
    hwalk]
  refine ⟨?_, hL.labels.append hne.symm, fun k hk => ?_, hL.capacity_le⟩
  · rw [storeOf_setStore]
    refine (hL.uses.setHeader h0 _ hlen).freeHeader ?_
    rwa [update_of_ne hne.symm]
  · rw [storeOf_setStore]
    have hk' : k ≠ id' := by
      rintro rfl
      exact hk (update_self ..)
    rw [update_of_ne hk'] at hk ⊢
    rw [OwnerStore.header_freeHeader_of_ne hk']
    obtain rfl | hki := eq_or_ne k id
    · rw [update_self, OwnerStore.header_setHeader]
      refine ⟨hd.owner, ?_, hd.linked.splice hd'.linked h0 h0' hnd⟩
      rw [hd.live, hd'.live, List.length_append]
    · rw [update_of_ne hki] at hk ⊢
      rw [OwnerStore.header_setHeader_of_ne hki]
      refine (hL.describes k hk).congr (fun x hx => update_of_ne ?_ _ _)
        fun x hx => update_of_ne (hdis k hk' x hx _ hhead) _ _
      rintro rfl
      exact hki (hL.labels.id_eq hx htail)

/-- A merge relabels the members of the second component. -/
theorem compOf_merge (hL : c.Holds o L) (hi : i ∈ L id) (hj : j ∈ L id') (hne : id ≠ id') {k x : ℕ}
    (hx : x ∈ L k) : (c.merge o i j).compOf x = if k = id' then id else k := by
  refine (hL.merge hi hj hne).labels.label _ x ((Labels.mem_append _ x).mpr ?_)
  split
  · next hk => exact ⟨hne, Or.inr ⟨rfl, hk ▸ hx⟩⟩
  · next hk => exact ⟨hk, Or.inl hx⟩

/-- The links after an element left its list. -/
theorem segment_unlink (hL : c.Holds o L) (hi : i ∈ L id) :
    Segment (update (if c.prev i = kNoComp then c.next else update c.next (c.prev i) (c.next i)) i
        kNoComp)
      (update (if c.next i = kNoComp then c.prev else update c.prev (c.next i) (c.prev i)) i
        kNoComp)
      (if c.prev i = kNoComp then c.next i else ((c.storeOf o).header id).head) kNoComp
      ((L id).erase i) kNoComp
      (if c.next i = kNoComp then c.prev i else ((c.storeOf o).header id).tail) := by
  obtain ⟨a, b, hab⟩ := List.append_of_mem hi
  have hnd := hL.labels.nodup id
  have hmark := hL.kNoComp_notMem id
  have hseg := (hL.describes id (List.ne_nil_of_mem hi)).linked
  have hne : ∀ x ∈ (L id).erase i, x ≠ i := by
    rintro x hx rfl
    exact hnd.not_mem_erase hx
  rw [hab] at hnd hmark hseg
  have hia : i ∉ a := fun hia => (List.nodup_append.mp hnd).2.2 i hia i List.mem_cons_self rfl
  have herase : (L id).erase i = a ++ b := by
    rw [hab, List.erase_append_right _ hia, List.erase_cons_head]
  rw [herase] at hne ⊢
  exact (hseg.erase hnd (fun h => hmark (List.mem_append_left _ h))
    fun h => hmark (List.mem_append_right _ (List.mem_cons_of_mem _ h))).congr
      (fun x hx => update_of_ne (hne x hx) _ _) fun x hx => update_of_ne (hne x hx) _ _

/-- A member that dies is taken out of its list. -/
theorem unlink (hL : c.Holds o L) (hi : i ∈ L id) :
    (c.unlink o i).Holds o (update L id ((L id).erase i)) := by
  have h0 := List.ne_nil_of_mem hi
  have hd := hL.describes id h0
  have hlen := List.length_erase_of_mem hi
  have hlabels : Labels (update c.compOf i kNoComp) c.capacity (update L id ((L id).erase i)) := by
    refine hL.labels.drop (m := [i]) List.erase_sublist (fun x hx => ?_) fun x hx => ?_
    · rw [(hL.labels.nodup id).mem_erase_iff, List.mem_singleton, and_iff_left hx]
    · rwa [List.mem_singleton.mp hx]
  unfold ConservativeComponents.unlink
  rw [hL.labels.label id i hi]
  simp only [hL.id_ne_kNoComp h0, hL.owns h0, if_false, ne_eq, ite_not, Bool.not_true,
    Bool.false_eq_true, hd.live, ← hlen, List.length_eq_zero_iff]
  refine ⟨?_, hlabels, fun k hk => ?_, hL.capacity_le⟩
  · rw [storeOf_setStore]
    split
    · next hnil =>
      rw [OwnerStore.freeHeader_setHeader, hnil]
      exact hL.uses.freeHeader h0
    · next hne => exact hL.uses.setHeader h0 _ hne
  · rw [storeOf_setStore]
    obtain rfl | hki := eq_or_ne k id
    · rw [update_self] at hk ⊢
      rw [if_neg hk, OwnerStore.header_setHeader]
      exact ⟨hd.owner, rfl, hL.segment_unlink hi⟩
    · rw [update_of_ne hki] at hk ⊢
      have hheader : ∀ s : OwnerStore, s.header k = (c.storeOf o).header k →
          (if (L id).erase i = [] then s.freeHeader id else s).header k =
            (c.storeOf o).header k := by
        intro s hs
        split
        · rw [OwnerStore.header_freeHeader_of_ne hki, hs]
        · exact hs
      rw [hheader _ (OwnerStore.header_setHeader_of_ne hki)]
      -- the links that change are those of the element and of its neighbours
      have hother : ∀ y, y ∈ L id → ∀ x ∈ L k, x ≠ y := by
        rintro y hy x hx rfl
        exact hki (hL.labels.id_eq hx hy)
      obtain ⟨hn, hp⟩ := hd.linked.neighbours hi
      refine (hL.describes k hk).congr (fun x hx => ?_) fun x hx => ?_
      · refine (update_of_ne (hother i hi x hx) _ _).trans ?_
        dsimp only
        split
        · rfl
        · next h => exact update_of_ne (hother _ (hp.resolve_left h) x hx) _ _
      · refine (update_of_ne (hother i hi x hx) _ _).trans ?_
        dsimp only
        split
        · rfl
        · next h => exact update_of_ne (hother _ (hn.resolve_left h) x hx) _ _

/-- A visit of a list resets the slots of the list, in its order. -/
theorem leaveFrom_eq (hl : Chain c.next kNoComp i l) (hn : l.length ≤ n) :
    leaveFrom n i c = (l, l.foldl reset c) := by
  induction l generalizing c i n with
  | nil =>
    obtain rfl := Chain.nil_iff.mp hl
    cases n with
    | zero => rfl
    | succ n => rw [leaveFrom, if_pos rfl, List.foldl_nil]
  | cons x l ih =>
    obtain ⟨rfl, hi, htl⟩ := Chain.cons_iff.mp hl
    obtain ⟨n, rfl⟩ := Nat.exists_eq_add_of_lt hn
    have htl' : Chain (c.reset i).next kNoComp (c.next i) l := by
      refine htl.congr fun x hx => update_of_ne ?_ _ _
      rintro rfl
      exact (List.nodup_cons.mp hl.nodup).1 hx
    rw [leaveFrom, if_neg hi]
    dsimp only
    rw [ih htl' (Nat.le_add_right ..), List.foldl_cons]

theorem foldl_reset (l : List ℕ) (c : ConservativeComponents) :
    (l.foldl reset c).stores = c.stores ∧ (l.foldl reset c).capacity = c.capacity ∧
      (l.foldl reset c).compOf = l.foldl (fun f i => update f i kNoComp) c.compOf ∧
      ∀ x ∉ l, (l.foldl reset c).next x = c.next x ∧ (l.foldl reset c).prev x = c.prev x := by
  induction l generalizing c with
  | nil => exact ⟨rfl, rfl, rfl, fun _ _ => ⟨rfl, rfl⟩⟩
  | cons i l ih =>
    obtain ⟨hs, hcap, hf, hlinks⟩ := ih (c.reset i)
    refine ⟨hs, hcap, hf, fun x hx => ?_⟩
    rw [List.mem_cons, not_or] at hx
    obtain ⟨hn, hp⟩ := hlinks x hx.2
    exact ⟨hn.trans (update_of_ne hx.1 _ _), hp.trans (update_of_ne hx.1 _ _)⟩

/-- A promotion visits the members of the component, and only that component goes. -/
theorem promoteComponent (hL : c.Holds o L) (hi : i ∈ L id) :
    (c.promoteComponent o i).1 = L id ∧
      (c.promoteComponent o i).2.Holds o (update L id []) := by
  have h0 := List.ne_nil_of_mem hi
  obtain ⟨hs, hcap, hf, hlinks⟩ := foldl_reset (L id) c
  have hlabels := hL.labels.drop (l := []) (m := L id) (List.nil_sublist _)
    (fun x hx => by simp [hx]) fun _ hx => hx
  unfold ConservativeComponents.promoteComponent
  rw [hL.labels.label id i hi]
  simp only [hL.id_ne_kNoComp h0, hL.owns h0, if_false, Bool.not_true, Bool.false_eq_true,
    leaveFrom_eq (hL.chain h0) (hL.labels.length_le id), true_and]
  refine ⟨?_, ?_, fun k hk => ?_, ?_⟩
  · rw [storeOf_setStore]
    exact hcap ▸ hL.uses.freeHeader h0
  · change Labels ((L id).foldl reset c).compOf ((L id).foldl reset c).capacity _
    rwa [hf, hcap]
  · have hk' : k ≠ id := by
      rintro rfl
      exact hk (update_self ..)
    rw [update_of_ne hk'] at hk ⊢
    rw [storeOf_setStore, OwnerStore.header_freeHeader_of_ne hk']
    have hout : ∀ x ∈ L k, x ∉ L id := fun x hx hx' => hk' (hL.labels.id_eq hx hx')
    exact (hL.describes k hk).congr (fun x hx => (hlinks x (hout x hx)).1)
      fun x hx => (hlinks x (hout x hx)).2
  · exact hcap.trans_le hL.capacity_le

theorem storeOf_promoteComponent (hL : c.Holds o L) (hi : i ∈ L id) :
    (c.promoteComponent o i).2.storeOf o = (c.storeOf o).freeHeader id := by
  have h0 := List.ne_nil_of_mem hi
  unfold ConservativeComponents.promoteComponent
  rw [hL.labels.label id i hi]
  simp only [hL.id_ne_kNoComp h0, hL.owns h0, if_false, Bool.not_true, Bool.false_eq_true,
    storeOf_setStore]

end Holds

end Loxis.Aarc.ConservativeComponents
