import Mathlib.Data.Multiset.Count
import Loxis.Lib.Cascade
import Loxis.Lib.Run
import Loxis.Vm.HeapSound

/-! # The references in a heap

The cells of the live objects refer to objects. An allocation adds an object without
references, and a store in a cell of nine aligned bytes replaces one reference.
-/

namespace Loxis.Vm

open Function

/-- The handle in a value. -/
def handleOf (v : BitVec 64) : ℕ := v.toNat % 2 ^ 32

/-- The reference in a value, if it is one. -/
def refs (c : BitVec 64 × BitVec 8) : List ℕ := if c.2 = TAG_HEAP then [handleOf c.1] else []

theorem refs_heap {c : BitVec 64 × BitVec 8} (h : c.2 = TAG_HEAP) : refs c = [handleOf c.1] :=
  if_pos h

theorem refs_scalar {c : BitVec 64 × BitVec 8} (h : c.2 ≠ TAG_HEAP) : refs c = [] := if_neg h

namespace Heap

/-- The references in cell `k` of an object. -/
def refsAt (s : Heap) (i k : ℕ) : List ℕ := ((s.cellAt i k).map refs).getD []

/-- The objects that an object refers to, in the order of its cells. -/
def children (s : Heap) (i : ℕ) : List ℕ := (List.range (s.cellCount i)).flatMap (s.refsAt i)

def objects (s : Heap) : Finset ℕ := {i ∈ Finset.range s.slotCount | s.valid i = true}

variable {s t u : Heap} {i j k n size ty byteOff : ℕ} {v : BitVec 64} {tag : BitVec 8}
  {c : BitVec 64 × BitVec 8}

@[simp] theorem mem_objects : i ∈ s.objects ↔ s.valid i = true := by
  simp only [objects, Finset.mem_filter, Finset.mem_range, and_iff_right_iff_imp]
  exact fun h => (valid_iff.mp h).1

theorem card_objects_le (s : Heap) : s.objects.card ≤ s.slotCount :=
  (Finset.card_filter_le _ _).trans (Finset.card_range _).le

theorem cellCount_eq (h : s.valid i = true) : s.cellCount i = (s.slots i).cells :=
  if_pos (valid_iff.mp h).1

theorem Sound.cells_lt (h : s.Sound) (hv : s.valid i = true) (hk : k < s.cellCount i) :
    k * SLOT_SIZE < 2 ^ 32 := by
  rw [cellCount_eq hv] at hk
  have := h.payload_le hv
  have := h.memory_lt
  unfold SLOT_SIZE at *
  omega

theorem Sound.cellAt_eq (h : s.Sound) (hv : s.valid i = true) (hk : k < s.cellCount i) :
    s.cellAt i k = s.loadCell i (k * SLOT_SIZE) := by
  rw [cellAt, Nat.mod_eq_of_lt (h.cells_lt hv hk)]

/-- A loaded cell is one of the cells of its object. -/
theorem Sound.cell_of_load (h : s.Sound) (hl : s.loadCell i byteOff = some c)
    (ha : byteOff % SLOT_SIZE = 0) : s.valid i = true ∧ byteOff / SLOT_SIZE < s.cellCount i ∧
      s.cellAt i (byteOff / SLOT_SIZE) = some c := by
  obtain ⟨hv, hb⟩ := h.loadCell_isSome.mp (Option.isSome_of_eq_some hl)
  have hk : byteOff / SLOT_SIZE < s.cellCount i := by
    have := h.size i (valid_iff.mp hv).2
    rw [cellCount_eq hv]
    unfold SLOT_SIZE at *
    omega
  refine ⟨hv, hk, ?_⟩
  rw [h.cellAt_eq hv hk, Nat.div_mul_cancel (Nat.dvd_of_mod_eq_zero ha), hl]

theorem Sound.mem_children (h : s.Sound) (hl : s.loadCell i byteOff = some c)
    (ha : byteOff % SLOT_SIZE = 0) (hc : c.2 = TAG_HEAP) : handleOf c.1 ∈ s.children i := by
  obtain ⟨-, hk, he⟩ := h.cell_of_load hl ha
  refine List.mem_flatMap.mpr ⟨_, List.mem_range.mpr hk, ?_⟩
  simp [refsAt, he, refs_heap hc]

/-- What keeps the slot and the cells of an object keeps its references. -/
theorem children_congr (hc : t.cellCount i = s.cellCount i)
    (hl : ∀ off, t.loadCell i off = s.loadCell i off) : t.children i = s.children i := by
  have he : t.refsAt i = s.refsAt i := by
    funext k
    rw [refsAt, refsAt, cellAt, cellAt, hl]
  rw [children, children, hc, he]

section Alloc

variable (h : s.Sound) (ht : (s.alloc size ty).2.Sound)

include h ht

theorem Sound.children_alloc (hv : s.valid i = true) :
    (s.alloc size ty).2.children i = s.children i := by
  obtain ⟨hv', hs, -⟩ := h.loadCell_alloc ht hv 0
  refine children_congr ?_ fun off => (h.loadCell_alloc ht hv off).2.2
  rw [cellCount_eq hv, cellCount_eq hv', hs]

theorem Sound.fresh_alloc (hne : (s.alloc size ty).1 ≠ INVALID) :
    s.valid (s.alloc size ty).1 = false ∧ (s.alloc size ty).2.valid (s.alloc size ty).1 = true ∧
      ∀ j, j ≠ (s.alloc size ty).1 → (s.alloc size ty).2.valid j = s.valid j := by
  rcases h.alloc_cases size ty ht.memory_lt with he | ⟨hp, -⟩
  · rw [he] at hne
    exact absurd rfl hne
  · refine ⟨by rw [valid, hp.dead, Bool.and_false], ht.valid_of_live (by rw [hp.slot]), ?_⟩
    intro j hj
    rw [Bool.eq_iff_iff, valid_iff, valid_iff, hp.other j hj]
    constructor
    · exact fun hl => ⟨(h.range j hl.2).2, hl.2⟩
    · exact fun hl => ⟨hl.1.trans_le hp.count, hl.2⟩

theorem Sound.objects_alloc (hne : (s.alloc size ty).1 ≠ INVALID) :
    (s.alloc size ty).2.objects = insert (s.alloc size ty).1 s.objects := by
  obtain ⟨-, hv, ho⟩ := h.fresh_alloc ht hne
  ext j
  rw [Finset.mem_insert, mem_objects, mem_objects]
  by_cases hj : j = (s.alloc size ty).1
  · simp [hj, hv]
  · rw [ho j hj, or_iff_right hj]

/-- A fresh object refers to nothing. -/
theorem Sound.children_fresh (hne : (s.alloc size ty).1 ≠ INVALID) :
    (s.alloc size ty).2.children (s.alloc size ty).1 = [] := by
  obtain ⟨-, hv, -⟩ := h.fresh_alloc ht hne
  refine List.flatMap_eq_nil_iff.mpr fun k hk => ?_
  rw [List.mem_range] at hk
  rw [refsAt, ht.cellAt_eq hv hk]
  cases hl : (s.alloc size ty).2.loadCell (s.alloc size ty).1 (k * SLOT_SIZE) with
  | none => rfl
  | some c =>
    have hb := (ht.loadCell_isSome.mp (Option.isSome_of_eq_some hl)).2
    rcases h.alloc_cases size ty ht.memory_lt with he | ⟨hp, -⟩
    · rw [he] at hne
      exact absurd rfl hne
    · rw [hp.slot] at hb
      rw [h.loadCell_alloc_self ht hne hb] at hl
      obtain rfl := Option.some.inj hl
      rfl

/-- Without a handle nothing but the arena changes. -/
theorem Sound.objects_alloc_failed (he : (s.alloc size ty).1 = INVALID) :
    (s.alloc size ty).2.objects = s.objects := by
  rcases h.alloc_cases size ty ht.memory_lt with hf | ⟨hp, -⟩
  · ext j
    rw [mem_objects, mem_objects, hf, valid_iff, valid_iff, takePayload_slots,
      takePayload_slotCount]
  · have := hp.lt
    have := ht.count_lt
    rw [he] at *
    unfold INVALID at *
    omega

end Alloc

theorem objects_free (hv : s.valid j = true) : (s.freePayload j).objects = s.objects.erase j := by
  ext i
  rw [Finset.mem_erase, mem_objects, mem_objects, valid_iff, valid_iff, slotCount_freePayload]
  by_cases hi : i = j
  · subst hi
    simp [live_freePayload hv]
  · simp [slots_freePayload_of_ne hi, hi]

/-- Nothing happened but that objects were freed. -/
structure Frees (s t : Heap) : Prop where
  memorySize : t.memorySize = s.memorySize
  valid : ∀ i, t.valid i = true → s.valid i = true
  cellCount : ∀ i, t.valid i = true → t.cellCount i = s.cellCount i
  loadCell : ∀ i off, t.valid i = true → t.loadCell i off = s.loadCell i off

theorem Frees.refl (s : Heap) : s.Frees s := ⟨rfl, fun _ => id, fun _ _ => rfl, fun _ _ _ => rfl⟩

theorem Frees.trans (h : s.Frees t) (h' : t.Frees u) : s.Frees u where
  memorySize := h'.memorySize.trans h.memorySize
  valid i hi := h.valid i (h'.valid i hi)
  cellCount i hi := (h'.cellCount i hi).trans (h.cellCount i (h'.valid i hi))
  loadCell i off hi := (h'.loadCell i off hi).trans (h.loadCell i off (h'.valid i hi))

theorem Frees.children (h : s.Frees t) (hi : t.valid i = true) : t.children i = s.children i :=
  children_congr (h.cellCount i hi) fun off => h.loadCell i off hi

/-- What could be read can be overwritten, if the object is left. -/
theorem Frees.storeCell_isSome (h : s.Frees t) (hl : s.loadCell i byteOff = some c)
    (hi : t.valid i = true) (v : BitVec 64) (tag : BitVec 8) :
    (t.storeCell i byteOff v tag).isSome = true := by
  have hsome : (t.loadCell i byteOff).isSome = true := by
    rw [h.loadCell i byteOff hi, hl]
    rfl
  rw [Heap.loadCell, Option.isSome_map] at hsome
  rwa [Heap.storeCell, Option.isSome_map]

theorem frees_freePayload (hv : s.valid i = true) : s.Frees (s.freePayload i) := by
  have hmem : ∀ j, (s.freePayload i).valid j = true → s.valid j = true ∧ j ≠ i := by
    intro j hj
    rw [← mem_objects, objects_free hv, Finset.mem_erase, mem_objects] at hj
    exact ⟨hj.2, hj.1⟩
  constructor
  · exact memorySize_freePayload
  · exact fun j hj => (hmem j hj).1
  · intro j hj
    rw [cellCount, cellCount, slotCount_freePayload, slots_freePayload_of_ne (hmem j hj).2]
  · exact fun j off hj => loadCell_free s (hmem j hj).2 off

section Store

variable (h : s.Sound) (hs : s.storeCell i byteOff v tag = some t)

include hs in
theorem store_frame : t.objects = s.objects ∧ t.cellCount = s.cellCount := by
  obtain ⟨o, -, rfl⟩ := Option.map_eq_some_iff.mp hs
  exact ⟨rfl, rfl⟩

include h hs

theorem Sound.children_store_of_ne (hj : j ≠ i) : t.children j = s.children j :=
  children_congr (congrFun (store_frame hs).2 j) fun _ => h.loadCell_store hs (Or.inl hj)

end Store

/-- Lists that differ in one place at most have the rest in common. -/
theorem flatMap_range_split (f : ℕ → List ℕ) (hk : k < n) : ∃ l l', ∀ g : ℕ → List ℕ,
    (∀ m < n, m ≠ k → g m = f m) → (List.range n).flatMap g = l ++ g k ++ l' := by
  have happ := List.range'_append_1 (s := 0) (m := k) (n := n - (k + 1) + 1)
  rw [show k + (n - (k + 1) + 1) = n by omega, zero_add, List.range'_succ] at happ
  refine ⟨(List.range' 0 k).flatMap f, (List.range' (k + 1) (n - (k + 1))).flatMap f, fun g hg => ?_⟩
  rw [List.range_eq_range', ← happ, List.flatMap_append, List.flatMap_cons, List.append_assoc]
  refine congrArg₂ _ (List.flatMap_congr fun m hm => ?_)
    (congrArg₂ _ rfl (List.flatMap_congr fun m hm => ?_))
  · rw [List.mem_range'_1] at hm
    exact hg m (by omega) (by omega)
  · rw [List.mem_range'_1] at hm
    exact hg m (by omega) (by omega)

/-- An aligned cell has a place among the references of its object, where a store changes it, also
after a cascade. -/
theorem Sound.children_split (h : s.Sound) (hl : s.loadCell i byteOff = some c)
    (ha : byteOff % SLOT_SIZE = 0) : ∃ l l', s.children i = l ++ refs c ++ l' ∧
      ∀ u t v tag, s.Frees u → u.Sound → u.storeCell i byteOff v tag = some t →
        t.children i = l ++ refs (v, tag) ++ l' := by
  obtain ⟨hv, hk, hc⟩ := h.cell_of_load hl ha
  obtain ⟨l, l', hsplit⟩ := flatMap_range_split (s.refsAt i) hk
  refine ⟨l, l', ?_, fun u t v tag hf hu hs => ?_⟩
  · rw [children, hsplit _ fun _ _ _ => rfl, refsAt, hc]
    rfl
  · have ht := hu.storeCell hs
    obtain ⟨hvt, -, hct⟩ := ht.cell_of_load (hu.loadCell_store_self hs) ha
    have hvu : u.valid i = true := by rwa [← mem_objects, ← (store_frame hs).1, mem_objects]
    have hcount : t.cellCount i = s.cellCount i := by
      rw [(store_frame hs).2, hf.cellCount i hvu]
    rw [children, hcount, hsplit (t.refsAt i) fun m hm hmk => ?_, refsAt, hct]
    · rfl
    · rw [refsAt, refsAt, h.cellAt_eq hv hm, ht.cellAt_eq hvt (by rwa [hcount]),
        hu.loadCell_store hs (Or.inr ?_), hf.loadCell i _ hvu]
      unfold SLOT_SIZE at *
      omega

/-- Every cell of every object can be read. -/
def Readable (s : Heap) : Prop :=
  ∀ i, s.valid i = true → ∀ k < s.cellCount i, (s.cellAt i k).isSome = true

theorem Readable.frees (h : s.Readable) (hf : s.Frees t) : t.Readable := by
  intro i hi k hk
  rw [hf.cellCount i hi] at hk
  rw [cellAt, hf.loadCell i _ hi]
  exact h i (hf.valid i hi) k hk

theorem Readable.store (h : s.Readable) (hsound : s.Sound)
    (hs : s.storeCell i byteOff v tag = some t) : t.Readable := by
  obtain ⟨o, -, rfl⟩ := Option.map_eq_some_iff.mp hs
  intro j hj k hk
  rw [cellAt, (hsound.put _).loadCell_isSome]
  exact hsound.loadCell_isSome.mp (h j hj k hk)

/-- A request of whole cells leaves no cell that cannot be read. -/
theorem Readable.alloc (h : s.Readable) (hs : s.Sound) (ht : (s.alloc size ty).2.Sound)
    (hpos : 0 < size) (hwhole : size % SLOT_SIZE = 0) (hsize : size + 8 < 2 ^ 32) :
    (s.alloc size ty).2.Readable := by
  have hold : ∀ i, s.valid i = true → ∀ k < (s.alloc size ty).2.cellCount i,
      ((s.alloc size ty).2.cellAt i k).isSome = true := by
    intro i hi k hk
    obtain ⟨hv, hslot, hload⟩ := hs.loadCell_alloc ht hi (k * SLOT_SIZE % 2 ^ 32)
    rw [cellCount_eq hv, hslot, ← cellCount_eq hi] at hk
    rw [cellAt, hload]
    exact h i hi k hk
  intro i hi k hk
  by_cases hne : (s.alloc size ty).1 = INVALID
  · rw [← mem_objects, hs.objects_alloc_failed ht hne, mem_objects] at hi
    exact hold i hi k hk
  · by_cases he : i = (s.alloc size ty).1
    · subst he
      rcases hs.alloc_cases size ty ht.memory_lt with hf | ⟨hp, -⟩
      · rw [hf] at hne
        exact absurd rfl hne
      · have hcells : cellsFor size * SLOT_SIZE = size := by
          unfold cellsFor SLOT_SIZE at *
          simp only
          rw [Nat.mod_eq_of_lt (by omega)]
          split
          · omega
          · omega
        rw [ht.cellAt_eq hi hk, ht.loadCell_isSome]
        refine ⟨hi, ?_⟩
        rw [cellCount_eq hi, hp.slot] at hk
        rw [hp.slot]
        simp only at hk ⊢
        unfold SLOT_SIZE at *
        omega
    · rw [(hs.fresh_alloc ht hne).2.2 i he] at hi
      exact hold i hi k hk

end Heap

end Loxis.Vm

/-! ## Collectors

The machine tells its collector of every reference it takes and drops. What the machine
relies on is a contract: objects that are referred to stay, and their references with
them.
-/

namespace Loxis.Vm

open Heap

structure GCMetrics where
  allocations : ℕ
  reclaimedObjects : ℕ
  rootAdds : ℕ
  rootRemoves : ℕ
  edgeAdds : ℕ
  edgeRemoves : ℕ
  explicitFreesIgnored : ℕ
  invalidHandleOps : ℕ

def GCMetrics.zero : GCMetrics := ⟨0, 0, 0, 0, 0, 0, 0, 0⟩

/-- The panics of the heap's own checks: in the scan of a collector, and in a write that was found
to be in bounds. -/
inductive Failure
  | scan
  | write

def Failure.message : Failure → String
  | scan => "collector accessed an invalid heap cell"
  | write => "validated heap write failed"

/-- The barriers of a collector. -/
structure GCBackend (G : Type) where
  onAlloc : ℕ → G → G
  rootAdd : ℕ → G → Heap → Except Failure (G × Heap)
  rootRemove : ℕ → G → Heap → Except Failure (G × Heap)
  edgeAdd : ℕ → ℕ → G → Heap → Except Failure (G × Heap)
  edgeRemove : ℕ → ℕ → G → Heap → Except Failure (G × Heap)
  onExplicitFree : ℕ → G → G

namespace GCBackend

variable {G : Type} (B : GCBackend G)

/-- Store a value in a cell, and tell the collector of the reference in it. -/
def install (base off : ℕ) (new : BitVec 64 × BitVec 8) (p : G × Heap) :
    Except Failure (G × Heap) :=
  match p.2.storeCell base off new.1 new.2 with
  | none => .error .write
  | some t => if new.2 = TAG_HEAP then B.edgeAdd base (handleOf new.1) p.1 t else .ok (p.1, t)

/-- Overwrite a cell that reads `old`, with the barriers around the store. -/
def overwrite (base off : ℕ) (old new : BitVec 64 × BitVec 8) (g : G) (s : Heap) :
    Except Failure (G × Heap) :=
  if old.2 = TAG_HEAP ∧ new.2 = TAG_HEAP ∧ old.1 = new.1 then .ok (g, s)
  else
    (if old.2 = TAG_HEAP then B.edgeRemove base (handleOf old.1) g s else .ok (g, s)).bind
      (B.install base off new)

end GCBackend

/-- A barrier call succeeds with a property, or fails where failures may happen. -/
def Upholds {G : Type} (r : Except Failure (G × Heap)) (fails : Prop) (Q : G → Heap → Prop) : Prop :=
  match r with
  | .ok p => Q p.1 p.2
  | .error _ => fails

theorem Upholds.mono {G : Type} {r : Except Failure (G × Heap)} {fails fails' : Prop}
    {Q Q' : G → Heap → Prop} (h : Upholds r fails Q) (hf : fails → fails')
    (hQ : ∀ g t, Q g t → Q' g t) : Upholds r fails' Q' := by
  unfold Upholds at h ⊢
  split
  · exact hQ _ _ h
  · exact hf h

theorem Upholds.bind {G : Type} {r : Except Failure (G × Heap)} {fails : Prop}
    {f : G × Heap → Except Failure (G × Heap)} {Q Q' : G → Heap → Prop} (h : Upholds r fails Q)
    (hf : ∀ g t, Q g t → Upholds (f (g, t)) fails Q') : Upholds (r.bind f) fails Q' := by
  cases r with
  | ok p => exact hf p.1 p.2 h
  | error e => exact h

/-- What programs keep to: the sizes they allocate, and whether they store through references
only. -/
structure Discipline where
  size : ℕ → Prop
  bases : Prop
  size_cell : size SLOT_SIZE

/-- The contract: an invariant of the collector, the heap, the references from outside and the
objects just handed out, to which nothing refers yet. -/
structure GCBackend.Lawful {G : Type} (B : GCBackend G) (D : Discipline) where
  Fails : Prop
  Inv : G → Heap → Multiset ℕ → List ℕ → Prop
  sound : ∀ {g s E l}, Inv g s E l → s.Sound
  root_valid : ∀ {g s E l i}, Inv g s E l → i ∈ E → s.valid i = true
  child_valid : ∀ {g s E l i j}, Inv g s E l → s.valid i = true → j ∈ s.children i →
    s.valid j = true
  alloc : ∀ {g s E size ty}, Inv g s E [] → D.size size → size + 8 < 2 ^ 32 →
    (s.alloc size ty).2.Sound → (s.alloc size ty).1 ≠ INVALID →
      Inv (B.onAlloc (s.alloc size ty).1 g) (s.alloc size ty).2 E [(s.alloc size ty).1]
  alloc_failed : ∀ {g s E size ty}, Inv g s E [] → D.size size → size + 8 < 2 ^ 32 →
    (s.alloc size ty).2.Sound → (s.alloc size ty).1 = INVALID → Inv g (s.alloc size ty).2 E []
  firstStore : ∀ {g s t E i v tag}, Inv g s E [i] → s.children i = [] →
    s.storeCell i 0 v tag = some t → tag ≠ TAG_HEAP → Inv g t E [i]
  rootAdd : ∀ {g s E l i}, Inv g s E l → s.valid i = true →
    Upholds (B.rootAdd i g s) Fails fun g' t => Inv g' t (i ::ₘ E) (l.erase i) ∧ t = s
  rootRemove : ∀ {g s E i}, Inv g s (i ::ₘ E) [] →
    Upholds (B.rootRemove i g s) Fails fun g' t => Inv g' t E []
  overwrite : ∀ {g s E i off old new}, Inv g s E [] → s.loadCell i off = some old →
    off % SLOT_SIZE = 0 → (D.bases → i ∈ E) → (new.2 = TAG_HEAP → handleOf new.1 ∈ E) →
      Upholds (B.overwrite i off old new g s) Fails fun g' t => Inv g' t E []
  explicitFree : ∀ {g s E i}, Inv g s E [] → Inv (B.onExplicitFree i g) s E []


/-- The baseline: nothing is ever reclaimed. -/
def noGC : GCBackend GCMetrics where
  onAlloc _ m := { m with allocations := m.allocations + 1 }
  rootAdd _ m s := .ok ({ m with rootAdds := m.rootAdds + 1 }, s)
  rootRemove _ m s := .ok ({ m with rootRemoves := m.rootRemoves + 1 }, s)
  edgeAdd _ _ m s := .ok ({ m with edgeAdds := m.edgeAdds + 1 }, s)
  edgeRemove _ _ m s := .ok ({ m with edgeRemoves := m.edgeRemoves + 1 }, s)
  onExplicitFree _ m := { m with explicitFreesIgnored := m.explicitFreesIgnored + 1 }

/-- Reference counting. The counts are zero beyond the end of the table. -/
structure ArcBackend where
  rc : ℕ → ℕ
  metrics : GCMetrics

namespace ArcBackend

def new : ArcBackend := ⟨fun _ => 0, .zero⟩

/-- The reclaim loop between two objects. -/
structure Reclaiming where
  counts : Counts ℕ
  heap : Heap
  reclaimed : ℕ

/-- Release the references in the cells of an object. -/
def scan (s : Heap) (handle : ℕ) (c : Counts ℕ) : Option (Counts ℕ) :=
  (List.range (s.cellCount handle)).foldlM
    (fun c i => (s.cellAt handle i).map fun cell =>
      if cell.2 = TAG_HEAP then c.release (handleOf cell.1) else c) c

/-- Reclaim the newest object on the list. The loop breaks off at a cell that cannot be read. -/
def turn : Option Reclaiming → Option Reclaiming × Bool
  | some ⟨⟨rc, handle :: rest⟩, s, n⟩ =>
    match scan s handle ⟨rc, rest⟩ with
    | none => (none, false)
    | some c => (some ⟨c, s.freePayload handle, n + 1⟩, !c.work.isEmpty)
  | r => (r, false)

/-- Reclaim an object and what only it holds. A turn frees a slot, which bounds the turns. -/
def reclaim (root : ℕ) (b : ArcBackend) (s : Heap) : Except Failure (ArcBackend × Heap) :=
  match iterUntil turn (s.slotCount + 1)
    (some ⟨⟨b.rc, [root]⟩, s, b.metrics.reclaimedObjects⟩) with
  | none => .error .scan
  | some r => .ok (⟨r.counts.rc, { b.metrics with reclaimedObjects := r.reclaimed }⟩, r.heap)

variable (b : ArcBackend) (handle : ℕ) (s : Heap)

def retain : ArcBackend := { b with rc := Function.update b.rc handle (b.rc handle + 1) }

def release : Except Failure (ArcBackend × Heap) :=
  if b.rc handle = 0 then
    .ok ({ b with metrics := { b.metrics with
      invalidHandleOps := b.metrics.invalidHandleOps + 1 } }, s)
  else
    let b' := { b with rc := Function.update b.rc handle (b.rc handle - 1) }
    if b'.rc handle = 0 then b'.reclaim handle s else .ok (b', s)

def countRootAdd : ArcBackend :=
  { b with metrics := { b.metrics with rootAdds := b.metrics.rootAdds + 1 } }

def countRootRemove : ArcBackend :=
  { b with metrics := { b.metrics with rootRemoves := b.metrics.rootRemoves + 1 } }

def countEdgeAdd : ArcBackend :=
  { b with metrics := { b.metrics with edgeAdds := b.metrics.edgeAdds + 1 } }

def countEdgeRemove : ArcBackend :=
  { b with metrics := { b.metrics with edgeRemoves := b.metrics.edgeRemoves + 1 } }

end ArcBackend

def arc : GCBackend ArcBackend where
  onAlloc i b :=
    { rc := Function.update b.rc i 0
      metrics := { b.metrics with allocations := b.metrics.allocations + 1 } }
  rootAdd i b s := .ok (b.countRootAdd.retain i, s)
  rootRemove i b s := b.countRootRemove.release i s
  edgeAdd _ j b s := .ok (b.countEdgeAdd.retain j, s)
  edgeRemove _ j b s := b.countEdgeRemove.release j s
  onExplicitFree _ b :=
    { b with metrics := { b.metrics with
      explicitFreesIgnored := b.metrics.explicitFreesIgnored + 1 } }

end Loxis.Vm

/-! ## Reference counting keeps the contract

The cascade of a release keeps the counts exact for the objects that are left. While a
reference is overwritten its cell still shows it; when the cascade runs, the object it
shows has a count of zero, and the scan passes over it.
-/

namespace Loxis.Vm

open Heap Counts

namespace ArcBackend

variable {s t : Heap} {i j : ℕ} {c c' : Counts ℕ} {held : ℕ → List ℕ} {ext : ℕ → ℕ}
  {b b' : ArcBackend} {rc rc' : ℕ → ℕ} {cells ghost : List ℕ}

theorem scan_eq (h : scan s i c = some c') : c' = (s.children i).foldl Counts.release c := by
  unfold scan at h
  unfold children
  generalize List.range (s.cellCount i) = ks at h
  induction ks generalizing c with
  | nil => exact (Option.some.inj h).symm
  | cons k ks ih =>
    rw [List.foldlM_cons, Option.bind_eq_bind, Option.bind_eq_some_iff] at h
    obtain ⟨c₁, hc, h⟩ := h
    obtain ⟨cell, hcell, rfl⟩ := Option.map_eq_some_iff.mp hc
    rw [ih h, List.flatMap_cons, List.foldl_append, refsAt, hcell]
    refine congrArg (List.foldl _ · _) ?_
    simp only [refs, Option.map_some, Option.getD_some]
    split
    · rfl
    · rfl

theorem scan_some (h : ∀ k < s.cellCount i, (s.cellAt i k).isSome = true) :
    (scan s i c).isSome = true := by
  have hl : ∀ k ∈ List.range (s.cellCount i), (s.cellAt i k).isSome = true :=
    fun k hk => h k (List.mem_range.mp hk)
  unfold scan
  generalize List.range (s.cellCount i) = ks at hl
  induction ks generalizing c with
  | nil => rfl
  | cons k ks ih =>
    obtain ⟨cell, hcell⟩ := Option.isSome_iff_exists.mp (hl k (.head _))
    rw [List.foldlM_cons, Option.bind_eq_bind, hcell, Option.map_some, Option.bind_some]
    exact ih fun m hm => hl m (.tail _ hm)

/-- The cells show the references, and perhaps one more to an object with a count of zero. -/
def Shows (rc : ℕ → ℕ) (cells ghost : List ℕ) : Prop :=
  cells = ghost ∨ ∃ l x l', cells = l ++ x :: l' ∧ ghost = l ++ l' ∧ rc x = 0

theorem Shows.foldl_release (h : Shows rc cells ghost) (work : List ℕ) :
    cells.foldl Counts.release ⟨rc, work⟩ = ghost.foldl Counts.release ⟨rc, work⟩ := by
  rcases h with rfl | ⟨l, x, l', rfl, rfl, hx⟩
  · rfl
  · exact foldl_release_skip hx

theorem Shows.mono (h : Shows rc cells ghost) (hle : ∀ x, rc' x ≤ rc x) :
    Shows rc' cells ghost := by
  rcases h with h | ⟨l, x, l', h, h', hx⟩
  · exact Or.inl h
  · exact Or.inr ⟨l, x, l', h, h', Nat.eq_zero_of_le_zero (hx ▸ hle x)⟩

/-- The invariant of the cascade that started in `s`. -/
structure Cascading (s : Heap) (held : ℕ → List ℕ) (ext : ℕ → ℕ) (r : Reclaiming) : Prop where
  sound : r.heap.Sound
  frees : s.Frees r.heap
  balanced : Balanced (references held ext r.heap.objects) r.heap.objects r.counts
  shown : ∀ i ∈ r.heap.objects, Shows r.counts.rc (s.children i) (held i)

theorem Cascading.turn {r r' : Reclaiming} {more : Bool} (h : Cascading s held ext r)
    (ht : ArcBackend.turn (some r) = (some r', more)) : Cascading s held ext r' ∧
      (more = true → r'.heap.objects.card < r.heap.objects.card) ∧
        (more = false → r'.counts.work = []) := by
  obtain ⟨⟨rc, work⟩, u, n⟩ := r
  cases work with
  | nil =>
    obtain ⟨he, rfl⟩ := Prod.mk.inj ht
    obtain rfl := Option.some.inj he
    exact ⟨h, fun hm => absurd hm (by decide), fun _ => rfl⟩
  | cons x rest =>
    cases hs : scan u x ⟨rc, rest⟩ with
    | none =>
      simp only [ArcBackend.turn, hs] at ht
      cases ht
    | some c =>
      simp only [ArcBackend.turn, hs] at ht
      obtain ⟨he, rfl⟩ := Prod.mk.inj ht
      obtain rfl := Option.some.inj he
      have hx : x ∈ u.objects := ((h.balanced.mem_work x).mp (.head _)).1
      have hv := mem_objects.mp hx
      have hc : c = (held x).foldl Counts.release ⟨rc, rest⟩ := by
        rw [scan_eq hs, h.frees.children hv]
        exact (h.shown x hx).foldl_release rest
      have hobj : (u.freePayload x).objects = u.objects.erase x := objects_free hv
      refine ⟨⟨h.sound.freePayload x, h.frees.trans (frees_freePayload hv), ?_, ?_⟩, ?_, ?_⟩
      · simp only [hobj, hc]
        exact h.balanced.turn
      · intro i hi
        refine (h.shown i ?_).mono fun y => ?_
        · rw [hobj] at hi
          exact Finset.mem_of_mem_erase hi
        · rw [hc]
          exact rc_foldl_release_le
      · intro _
        rw [hobj]
        exact Finset.card_erase_lt_of_mem hx
      · intro hm
        simpa using hm

/-- The loop goes on only with an object on the list. -/
theorem turn_more {o : Option Reclaiming} (h : (ArcBackend.turn o).2 = true) :
    ∃ r r', o = some r ∧ ArcBackend.turn o = (some r', true) := by
  unfold ArcBackend.turn at h ⊢
  split
  · next rc x rest u n =>
    cases hs : scan u x ⟨rc, rest⟩ with
    | none =>
      simp only [hs] at h
      cases h
    | some c =>
      simp only [hs] at h ⊢
      exact ⟨_, _, rfl, Prod.ext rfl h⟩
  · next hr =>
    split at h
    · next rc x rest u n => exact absurd rfl (hr rc x rest u n)
    · cases h

theorem Cascading.turn_some {r : Reclaiming} (h : Cascading s held ext r) (hread : s.Readable) :
    (ArcBackend.turn (some r)).1.isSome = true := by
  obtain ⟨⟨rc, work⟩, u, n⟩ := r
  cases work with
  | nil => rfl
  | cons x rest =>
    have hx := mem_objects.mp ((h.balanced.mem_work x).mp (.head _)).1
    have hsome : (scan u x ⟨rc, rest⟩).isSome = true := scan_some ((hread.frees h.frees) x hx)
    obtain ⟨c', hc'⟩ := Option.isSome_iff_exists.mp hsome
    simp only [ArcBackend.turn, hc', Option.isSome_some]

/-- The cascade ends by itself, with exact counts for the objects that are left. It breaks off only
at a cell that cannot be read. -/
theorem reclaim_spec (hs : s.Sound)
    (hb : Balanced (references held ext s.objects) s.objects ⟨b.rc, [i]⟩)
    (hk : ∀ j ∈ s.objects, Shows b.rc (s.children j) (held j)) :
    Upholds (b.reclaim i s) (¬ s.Readable) fun b' t => t.Sound ∧ s.Frees t ∧
      Balanced (references held ext t.objects) t.objects ⟨b'.rc, []⟩ ∧
        b'.metrics.invalidHandleOps = b.metrics.invalidHandleOps := by
  obtain ⟨o, ⟨ho, hsome⟩, hmore, he⟩ := iterUntil_stop (f := ArcBackend.turn)
    (P := fun o => (∀ r, o = some r → Cascading s held ext r) ∧ (s.Readable → o.isSome = true))
    (μ := fun o => (o.map fun r => r.heap.objects.card).getD 0)
    (fun o ⟨ho, hsome⟩ => by
      cases o with
      | none => exact ⟨fun r hr => (by cases hr), hsome⟩
      | some r₀ =>
        exact ⟨fun r hr => ((ho r₀ rfl).turn (Prod.ext hr rfl)).1, (ho r₀ rfl).turn_some⟩)
    (fun o ⟨ho, _⟩ hmore => by
      obtain ⟨r, r', rfl, ht⟩ := turn_more hmore
      rw [ht]
      exact ((ho r rfl).turn ht).2.1 rfl)
    (s.slotCount + 1) (s := some ⟨⟨b.rc, [i]⟩, s, b.metrics.reclaimedObjects⟩)
    ⟨fun r hr => Option.some.inj hr ▸ ⟨hs, .refl s, hb, hk⟩, fun _ => rfl⟩
    (Nat.lt_succ_of_le (card_objects_le s))
  unfold reclaim Upholds
  rw [he]
  cases o with
  | none => exact fun hread => by cases hsome hread
  | some r₀ =>
    cases ht : ArcBackend.turn (some r₀) with
    | mk o' more =>
      rw [ht] at hmore
      obtain rfl : more = false := hmore
      cases o' with
      | none =>
        intro hread
        have := (ho r₀ rfl).turn_some hread
        rw [ht] at this
        cases this
      | some r =>
        obtain ⟨hc, -, hw⟩ := (ho r₀ rfl).turn ht
        have hbal := hc.balanced
        rw [show r.counts = ⟨r.counts.rc, []⟩ from congrArg (Counts.mk _) (hw rfl)] at hbal
        exact ⟨hc.sound, hc.frees, hbal, rfl⟩

/-- The counts are exact. Only objects just handed out are referred to by nothing. -/
structure Inv (b : ArcBackend) (s : Heap) (E : Multiset ℕ) (l : List ℕ) : Prop where
  sound : s.Sound
  balanced : Balanced (references s.children (E.count ·) s.objects) s.objects ⟨b.rc, l⟩
  ops : b.metrics.invalidHandleOps = 0

theorem references_congr {held' : ℕ → List ℕ} {objs : Finset ℕ}
    (h : ∀ o ∈ objs, held o = held' o) (x : ℕ) :
    references held ext objs x = references held' ext objs x := by
  unfold references
  rw [Finset.sum_congr rfl fun o ho => by rw [h o ho]]

theorem references_cons {E : Multiset ℕ} (objs : Finset ℕ) (x : ℕ) :
    references held ((i ::ₘ E).count ·) objs x =
      references held (E.count ·) objs x + [i].count x := by
  simp only [references, Multiset.count_cons, List.count_singleton, beq_iff_eq, eq_comm (a := x)]
  omega

/-- A release keeps the counts exact. `held` is what the cells show, less one reference that is
being given up. -/
theorem release_spec {total : ℕ → ℕ} (hs : s.Sound) (hb : Balanced total s.objects ⟨b.rc, []⟩)
    (ht : ∀ y, total y = references held ext s.objects y + [i].count y)
    (hk : b.rc i = 1 → ∀ j ∈ s.objects,
      Shows (Function.update b.rc i 0) (s.children j) (held j)) :
    Upholds (b.release i s) (¬ s.Readable) fun b' t => t.Sound ∧ s.Frees t ∧
      Balanced (references held ext t.objects) t.objects ⟨b'.rc, []⟩ ∧
        b'.metrics.invalidHandleOps = b.metrics.invalidHandleOps := by
  have hpos : b.rc i ≠ 0 := by
    have := hb.count i
    rw [ht, List.count_singleton_self] at this
    simp only at this
    omega
  have hbal := hb.release ht
  rw [Counts.release, if_neg hpos] at hbal
  unfold release
  rw [if_neg hpos]
  simp only [Function.update_self]
  split
  · next h1 =>
    have hone : b.rc i = 1 := by omega
    refine reclaim_spec (b := { b with rc := Function.update b.rc i (b.rc i - 1) }) hs ?_ ?_
    · simpa only [if_pos hone] using hbal
    · simpa only [h1] using hk hone
  · next h1 =>
    exact ⟨hs, .refl _, by simpa only [if_neg (show b.rc i ≠ 1 by omega)] using hbal, rfl⟩

theorem Inv.alloc {E : Multiset ℕ} {size ty : ℕ} (h : b.Inv s E [])
    (ht : (s.alloc size ty).2.Sound) (hne : (s.alloc size ty).1 ≠ INVALID) :
    (arc.onAlloc (s.alloc size ty).1 b).Inv (s.alloc size ty).2 E [(s.alloc size ty).1] := by
  have hnot := (h.sound.fresh_alloc ht hne).1
  have hobj := h.sound.objects_alloc ht hne
  have hmem : (s.alloc size ty).1 ∉ s.objects := by simp [hnot]
  have hzero : b.rc (s.alloc size ty).1 = 0 := by
    by_contra hp
    exact hmem (h.balanced.alive _ (Nat.pos_of_ne_zero hp))
  have hrc : Function.update b.rc (s.alloc size ty).1 0 = b.rc := by
    rw [Function.update_eq_self_iff, hzero]
  refine ⟨ht, ⟨fun x => ?_, fun x hx => ?_, fun x => ?_, List.nodup_singleton _⟩, h.ops⟩
  · have hc := h.balanced.count x
    simp only [arc, hrc]
    refine hc.trans ?_
    rw [references, references, hobj, Finset.sum_insert hmem,
      h.sound.children_fresh ht hne, List.count_nil, zero_add]
    congr 1
    refine Finset.sum_congr rfl fun o ho => ?_
    rw [h.sound.children_alloc ht (mem_objects.mp ho)]
  · simp only [arc, hrc] at hx
    rw [hobj]
    exact Finset.mem_insert_of_mem (h.balanced.alive x hx)
  · simp only [arc, hrc, List.mem_singleton, hobj, Finset.mem_insert]
    constructor
    · rintro rfl
      exact ⟨Or.inl rfl, hzero⟩
    · rintro ⟨hx | hx, hz⟩
      · exact hx
      · exact absurd hz (h.balanced.mem_iff rfl |>.mp hx).ne'

theorem Inv.alloc_failed {E : Multiset ℕ} {size ty : ℕ} (h : b.Inv s E [])
    (ht : (s.alloc size ty).2.Sound) (he : (s.alloc size ty).1 = INVALID) :
    b.Inv (s.alloc size ty).2 E [] := by
  have hobj := h.sound.objects_alloc_failed ht he
  refine ⟨ht, ?_, h.ops⟩
  rw [hobj]
  refine h.balanced.congr fun x => references_congr (fun o ho => ?_) x
  exact (h.sound.children_alloc ht (mem_objects.mp ho)).symm

theorem Inv.firstStore {E : Multiset ℕ} {v : BitVec 64} {tag : BitVec 8} (h : b.Inv s E [i])
    (hnil : s.children i = []) (hs : s.storeCell i 0 v tag = some t) (htag : tag ≠ TAG_HEAP) :
    b.Inv t E [i] := by
  have hload : ∃ c, s.loadCell i 0 = some c := by
    obtain ⟨o, ho, -⟩ := Option.map_eq_some_iff.mp hs
    exact ⟨_, Option.map_eq_some_iff.mpr ⟨o, ho, rfl⟩⟩
  obtain ⟨c, hc⟩ := hload
  obtain ⟨l, l', hl, hstore⟩ := h.sound.children_split hc rfl
  refine ⟨h.sound.storeCell hs, ?_, h.ops⟩
  rw [(store_frame hs).1]
  refine h.balanced.congr fun x => references_congr (fun o _ => ?_) x
  by_cases ho : o = i
  · subst ho
    have ht := hstore s t v tag (.refl s) h.sound hs
    rw [hnil] at hl
    simp only [List.nil_eq, List.append_eq_nil_iff] at hl
    rw [ht, hnil, hl.1.1, hl.2, refs_scalar htag]
    rfl
  · exact (h.sound.children_store_of_ne hs ho).symm

theorem Inv.retain {E : Multiset ℕ} {l : List ℕ} (h : b.Inv s E l) (hi : s.valid i = true) :
    (b.retain i).Inv s (i ::ₘ E) (l.erase i) := by
  refine ⟨h.sound, (h.balanced.retain (mem_objects.mpr hi)).congr fun x => ?_, h.ops⟩
  exact (references_cons _ x).symm

theorem Inv.rootRemove {E : Multiset ℕ} (h : b.Inv s (i ::ₘ E) []) :
    Upholds (b.release i s) (¬ s.Readable) fun b' t => b'.Inv t E [] ∧ s.Frees t := by
  refine (release_spec h.sound h.balanced (references_cons _) fun _ j _ => Or.inl rfl).mono id ?_
  rintro b' t ⟨ht, hf, hbal, hops⟩
  refine ⟨⟨ht, hbal.congr fun x => references_congr (fun o ho => ?_) x, ?_⟩, hf⟩
  · exact (hf.children (mem_objects.mp ho)).symm
  · rw [hops, h.ops]

section Overwrite

variable {E : Multiset ℕ} {off : ℕ} {old new : BitVec 64 × BitVec 8} {l l' : List ℕ}

/-- The reference in a cell is given up while the cell still shows it. -/
theorem Inv.giveUp (h : b.Inv s E []) (hi : s.valid i = true)
    (hl : s.children i = l ++ refs old ++ l') :
    Upholds (if old.2 = TAG_HEAP then arc.edgeRemove i (handleOf old.1) b s else .ok (b, s))
      (¬ s.Readable) fun b' t => t.Sound ∧ s.Frees t ∧
        Balanced (references (Function.update s.children i (l ++ l')) (E.count ·) t.objects)
          t.objects ⟨b'.rc, []⟩ ∧ b'.metrics.invalidHandleOps = 0 := by
  have hgiven : ∀ y, references s.children (E.count ·) s.objects y =
      references (Function.update s.children i (l ++ l')) (E.count ·) s.objects y +
        (refs old).count y := by
    intro y
    refine references_update (mem_objects.mpr hi) ?_
    rw [hl, List.count_append, List.count_append, List.count_append]
    omega
  split
  · next hheap =>
    rw [refs_heap hheap] at hgiven hl
    have hshows : ∀ j ∈ s.objects, Shows (Function.update b.rc (handleOf old.1) 0)
        (s.children j) (Function.update s.children i (l ++ l') j) := by
      intro j _
      by_cases hj : j = i
      · subst hj
        rw [Function.update_self]
        exact Or.inr ⟨l, _, l', by rw [hl, List.append_assoc]; rfl, rfl, Function.update_self ..⟩
      · rw [Function.update_of_ne hj]
        exact Or.inl rfl
    refine (release_spec (b := b.countEdgeRemove) h.sound h.balanced hgiven
      fun _ => hshows).mono id ?_
    rintro b' t ⟨ht, hf, hbal, hops⟩
    exact ⟨ht, hf, hbal, hops.trans h.ops⟩
  · next hscalar =>
    rw [refs_scalar hscalar] at hgiven
    exact ⟨h.sound, .refl s, h.balanced.congr hgiven, h.ops⟩

/-- A write fails only where the cascade meets a cell that it cannot read, or frees the object that
is written to, which nothing outside refers to then. -/
theorem Inv.overwrite (h : b.Inv s E []) (hload : s.loadCell i off = some old)
    (ha : off % SLOT_SIZE = 0) (hnew : new.2 = TAG_HEAP → handleOf new.1 ∈ E) :
    Upholds (arc.overwrite i off old new b s) (¬ (s.Readable ∧ i ∈ E)) fun b' t =>
      b'.Inv t E [] ∧ (s.Readable → t.Readable) := by
  unfold GCBackend.overwrite
  split
  · exact ⟨h, id⟩
  obtain ⟨l, l', hl, hstore⟩ := h.sound.children_split hload ha
  have hi := (h.sound.cell_of_load hload ha).1
  refine ((h.giveUp hi hl).mono (fun hr => fun hc => hr hc.1) fun _ _ => id).bind ?_
  rintro b₁ s₁ ⟨hs₁, hf, hbal, hops⟩
  have hroot : ∀ x ∈ E, x ∈ s₁.objects := by
    intro x hx
    refine hbal.alive _ ?_
    rw [hbal.count, references]
    exact Nat.add_pos_left (Multiset.count_pos.mpr hx) _
  unfold GCBackend.install Upholds
  cases hu : s₁.storeCell i off new.1 new.2 with
  | none =>
    rintro ⟨-, hiE⟩
    have := hf.storeCell_isSome hload (mem_objects.mp (hroot i hiE)) new.1 new.2
    rw [hu] at this
    cases this
  | some u =>
    obtain ⟨hobj, -⟩ := store_frame hu
    have hiu : i ∈ s₁.objects := by
      obtain ⟨o, ho, -⟩ := Option.map_eq_some_iff.mp hu
      exact mem_objects.mpr (hs₁.cellOffset_eq_some.mp ho).1.1
    -- the store adds what the cell shows now
    have hadd : ∀ y, references (Function.update s.children i (l ++ l')) (E.count ·) s₁.objects y +
        (refs new).count y = references u.children (E.count ·) u.objects y := by
      intro y
      have hnow : u.children i = l ++ refs new ++ l' := hstore s₁ u _ _ hf hs₁ hu
      have hcount : (u.children i).count y = (l ++ l').count y + (refs new).count y := by
        rw [hnow, List.count_append, List.count_append, List.count_append]
        omega
      rw [hobj, references_update hiu hcount]
      congr 1
      refine references_congr (fun o ho => ?_) y
      by_cases hoi : o = i
      · rw [hoi, Function.update_self, Function.update_self]
      · rw [Function.update_of_ne hoi, Function.update_of_ne hoi,
          hs₁.children_store_of_ne hu hoi, hf.children (mem_objects.mp ho)]
    have hread : s.Readable → u.Readable := fun hr => (hr.frees hf).store hs₁ hu
    rw [hobj] at hadd
    simp only
    split
    · next p hp =>
      split at hp
      · next hheap =>
        obtain rfl := Except.ok.inj hp
        rw [refs_heap hheap] at hadd
        refine ⟨⟨hs₁.storeCell hu, ?_, hops⟩, hread⟩
        rw [hobj]
        exact (hbal.retain (hroot _ (hnew hheap))).congr hadd
      · next hscalar =>
        obtain rfl := Except.ok.inj hp
        rw [refs_scalar hscalar] at hadd
        refine ⟨⟨hs₁.storeCell hu, ?_, hops⟩, hread⟩
        rw [hobj]
        exact hbal.congr hadd
    · next e he =>
      split at he
      · cases he
      · cases he

theorem Inv.valid_of_pos (h : b.Inv s E l)
    (hpos : 0 < references s.children (E.count ·) s.objects i) : s.valid i = true := by
  refine mem_objects.mp (h.balanced.alive i ?_)
  rwa [h.balanced.count]

end Overwrite

end ArcBackend

/-- Requests are whole cells. -/
def Discipline.Whole (D : Discipline) : Prop := ∀ n, D.size n → 0 < n ∧ n % SLOT_SIZE = 0

/-- Reference counting keeps the contract. Where requests are whole cells and stores go through
references no barrier fails. -/
def arcLawful (D : Discipline) : arc.Lawful D where
  Fails := ¬ (D.Whole ∧ D.bases)
  Inv b s E l := b.Inv s E l ∧ (D.Whole → s.Readable)
  sound h := h.1.sound
  root_valid h hi := h.1.valid_of_pos (Nat.add_pos_left (Multiset.count_pos.mpr hi) _)
  child_valid h hv hj := by
    refine h.1.valid_of_pos (Nat.add_pos_right _ ?_)
    refine (List.count_pos_iff.mpr hj).trans_le ?_
    exact Finset.single_le_sum (f := fun o => (children _ o).count _) (fun _ _ => Nat.zero_le _)
      (mem_objects.mpr hv)
  alloc h hsize hlt ht hne := by
    refine ⟨h.1.alloc ht hne, fun hw => ?_⟩
    obtain ⟨hpos, hmod⟩ := hw _ hsize
    exact (h.2 hw).alloc h.1.sound ht hpos hmod hlt
  alloc_failed h hsize hlt ht he := by
    refine ⟨h.1.alloc_failed ht he, fun hw => ?_⟩
    obtain ⟨hpos, hmod⟩ := hw _ hsize
    exact (h.2 hw).alloc h.1.sound ht hpos hmod hlt
  firstStore h hnil hs htag :=
    ⟨h.1.firstStore hnil hs htag, fun hw => (h.2 hw).store h.1.sound hs⟩
  rootAdd h hv :=
    ⟨⟨ArcBackend.Inv.retain ⟨h.1.sound, h.1.balanced, h.1.ops⟩ hv, h.2⟩, rfl⟩
  rootRemove h := by
    refine (ArcBackend.Inv.rootRemove (b := ArcBackend.countRootRemove _)
      ⟨h.1.sound, h.1.balanced, h.1.ops⟩).mono (fun hr hd => hr (h.2 hd.1)) ?_
    rintro b' t ⟨hb, hf⟩
    exact ⟨hb, fun hw => (h.2 hw).frees hf⟩
  overwrite h hl ha hbase hnew := by
    refine (h.1.overwrite hl ha hnew).mono (fun hr hd => hr ⟨h.2 hd.1, hbase hd.2⟩) ?_
    rintro b' t ⟨hb, hread⟩
    exact ⟨hb, fun hw => hread (h.2 hw)⟩
  explicitFree h := ⟨⟨h.1.sound, h.1.balanced, h.1.ops⟩, h.2⟩

/-- Without reclamation every object stays. -/
structure Closed (s : Heap) (E : Multiset ℕ) : Prop where
  sound : s.Sound
  root : ∀ i ∈ E, s.valid i = true
  child : ∀ i j, s.valid i = true → j ∈ s.children i → s.valid j = true

namespace Closed

variable {s t : Heap} {E : Multiset ℕ} {i j off size ty : ℕ} {v : BitVec 64} {tag : BitVec 8}

theorem alloc (h : Closed s E) (ht : (s.alloc size ty).2.Sound) :
    Closed (s.alloc size ty).2 E := by
  have hkeep : ∀ j, s.valid j = true → (s.alloc size ty).2.valid j = true :=
    fun j hj => (h.sound.loadCell_alloc ht hj 0).1
  refine ⟨ht, fun j hj => hkeep j (h.root j hj), fun i j hi hj => ?_⟩
  by_cases hold : s.valid i = true
  · rw [h.sound.children_alloc ht hold] at hj
    exact hkeep j (h.child i j hold hj)
  · by_cases hne : (s.alloc size ty).1 = INVALID
    · rw [← mem_objects, h.sound.objects_alloc_failed ht hne, mem_objects] at hi
      exact absurd hi hold
    · rw [← mem_objects, h.sound.objects_alloc ht hne, Finset.mem_insert, mem_objects] at hi
      rcases hi with rfl | hi
      · rw [h.sound.children_fresh ht hne] at hj
        cases hj
      · exact absurd hi hold

theorem store (h : Closed s E) (hs : s.storeCell i off v tag = some t)
    (ha : off % SLOT_SIZE = 0) (hv : tag = TAG_HEAP → s.valid (handleOf v) = true) :
    Closed t E := by
  have hval : t.valid = s.valid := by
    funext j
    rw [Bool.eq_iff_iff, ← mem_objects, (store_frame hs).1, mem_objects]
  obtain ⟨o, ho, -⟩ := Option.map_eq_some_iff.mp hs
  have hload : s.loadCell i off = some (Bytes.getWord s.memory o, s.memory (o + 8)) :=
    Option.map_eq_some_iff.mpr ⟨o, ho, rfl⟩
  obtain ⟨l, l', hl, hstore⟩ := h.sound.children_split hload ha
  refine ⟨h.sound.storeCell hs, fun j hj => hval ▸ h.root j hj, fun j k hj hk => ?_⟩
  rw [hval] at hj ⊢
  by_cases hji : j = i
  · subst hji
    rw [hstore s t v tag (.refl s) h.sound hs] at hk
    have hold := h.child j k hj
    rw [hl] at hold
    simp only [List.mem_append] at hk hold
    rcases hk with (hk | hk) | hk
    · exact hold (Or.inl (Or.inl hk))
    · unfold refs at hk
      split at hk
      · next htag =>
        rw [List.mem_singleton.mp hk]
        exact hv htag
      · cases hk
    · exact hold (Or.inr hk)
  · rw [h.sound.children_store_of_ne hs hji] at hk
    exact h.child j k hj hk

theorem overwrite {g : GCMetrics} {old new : BitVec 64 × BitVec 8} (h : Closed s E)
    (hload : s.loadCell i off = some old) (ha : off % SLOT_SIZE = 0)
    (hnew : new.2 = TAG_HEAP → handleOf new.1 ∈ E) :
    Upholds (noGC.overwrite i off old new g s) False fun _ t => Closed t E := by
  unfold GCBackend.overwrite
  split
  · exact h
  have hgive : Upholds (if old.2 = TAG_HEAP then noGC.edgeRemove i (handleOf old.1) g s
      else .ok (g, s)) False fun _ t => t = s := by
    split
    · rfl
    · rfl
  refine hgive.bind ?_
  rintro g₁ s₁ rfl
  unfold GCBackend.install
  have hi := (h.sound.cell_of_load hload ha).1
  obtain ⟨u, hu⟩ := Option.isSome_iff_exists.mp
    ((Frees.refl s₁).storeCell_isSome hload hi new.1 new.2)
  have hclosed := h.store hu ha fun he => h.root _ (hnew he)
  simp only [hu]
  split
  · exact hclosed
  · exact hclosed

end Closed

/-- The baseline keeps the contract, and no barrier fails. -/
def noGCLawful (D : Discipline) : noGC.Lawful D where
  Fails := False
  Inv _ s E _ := Closed s E
  sound h := h.sound
  root_valid h hi := h.root _ hi
  child_valid h hv hj := h.child _ _ hv hj
  alloc h _ _ ht _ := h.alloc ht
  alloc_failed h _ _ ht _ := h.alloc ht
  firstStore h _ hs htag := h.store hs rfl fun he => absurd he htag
  rootAdd h hv := by
    refine ⟨⟨h.sound, fun j hj => ?_, h.child⟩, rfl⟩
    rcases Multiset.mem_cons.mp hj with rfl | hj
    · exact hv
    · exact h.root j hj
  rootRemove h := ⟨h.sound, fun j hj => h.root j (Multiset.mem_cons_of_mem hj), h.child⟩
  overwrite h hl ha _ hnew := h.overwrite hl ha hnew
  explicitFree h := h

/-! ### Before a run -/

theorem Heap.objects_new : Heap.new.objects = ∅ := rfl

/-- Programs that allocate whole cells and store through references. -/
def wholeCells : Discipline := ⟨fun n => 0 < n ∧ n % SLOT_SIZE = 0, True, by decide⟩

instance : DecidablePred wholeCells.size := fun n =>
  inferInstanceAs (Decidable (0 < n ∧ n % SLOT_SIZE = 0))

instance : Decidable wholeCells.bases := .isTrue trivial

theorem ArcBackend.inv_new (D : Discipline) : (arcLawful D).Inv ArcBackend.new Heap.new 0 [] := by
  refine ⟨⟨new_sound, ⟨fun i => ?_, fun i hi => absurd hi (lt_irrefl 0), fun i => ?_, .nil⟩, rfl⟩,
    fun _ i hi => ?_⟩
  · simp [Counts.references, objects_new, ArcBackend.new]
  · simp [objects_new]
  · rw [← mem_objects, objects_new] at hi
    cases hi

theorem inv_new_noGC (D : Discipline) : (noGCLawful D).Inv GCMetrics.zero Heap.new 0 [] := by
  have hdead : ∀ i, Heap.new.valid i = false := fun i => by
    rw [← Bool.not_eq_true, ← mem_objects, objects_new]
    exact Finset.notMem_empty i
  exact ⟨new_sound, fun _ hi => absurd hi (Multiset.notMem_zero _),
    fun i _ hi => by rw [hdead i] at hi; cases hi⟩

end Loxis.Vm
