import Loxis.Aarc.Engine
import Loxis.Aarc.TableSound

/-! # Reclaiming cells

What it means to free a set of cells, and that freeing a cell without references and
freeing an isolated component both do exactly that: the rest of the table stays, and
every target of a freed cell is examined again.
-/

namespace Loxis.Aarc

open Function

namespace AarcEngine

variable {e e' e'' : AarcEngine} {i j : ℕ}

/-- The candidate stack lists the marked cells, each once. -/
def ZeroOk (e : AarcEngine) : Prop :=
  (∀ i, e.zeroMark i = true ↔ i ∈ e.zeroStack) ∧ e.zeroStack.Nodup

section Marks

variable {t : RefTable}

@[simp] theorem setTab_pool : (e.setTab t).pool = e.pool := rfl
@[simp] theorem setTab_tab : (e.setTab t).tab = t := rfl
@[simp] theorem setTab_detector : (e.setTab t).detector = e.detector := rfl
@[simp] theorem setTab_zeroStack : (e.setTab t).zeroStack = e.zeroStack := rfl
@[simp] theorem setTab_suspectMark : (e.setTab t).suspectMark = e.suspectMark := rfl
@[simp] theorem setTab_suspectStack : (e.setTab t).suspectStack = e.suspectStack := rfl
@[simp] theorem markZero_pool : (e.markZero i).pool = e.pool := by unfold markZero; split <;> rfl
@[simp] theorem markZero_tab : (e.markZero i).tab = e.tab := by unfold markZero; split <;> rfl
@[simp] theorem markZero_suspectMark : (e.markZero i).suspectMark = e.suspectMark := by
  unfold markZero; split <;> rfl
@[simp] theorem markZero_suspectStack : (e.markZero i).suspectStack = e.suspectStack := by
  unfold markZero; split <;> rfl
@[simp] theorem setSuspect_pool : (e.setSuspect i).pool = e.pool := by
  unfold setSuspect; split <;> rfl
@[simp] theorem setSuspect_tab : (e.setSuspect i).tab = e.tab := by
  unfold setSuspect; split <;> rfl
@[simp] theorem setSuspect_zeroStack : (e.setSuspect i).zeroStack = e.zeroStack := by
  unfold setSuspect; split <;> rfl
@[simp] theorem setSuspect_zeroMark : (e.setSuspect i).zeroMark = e.zeroMark := by
  unfold setSuspect; split <;> rfl
@[simp] theorem clearSuspect_pool : (e.clearSuspect i).pool = e.pool := by
  unfold clearSuspect; split <;> rfl
@[simp] theorem clearSuspect_tab : (e.clearSuspect i).tab = e.tab := by
  unfold clearSuspect; split <;> rfl
@[simp] theorem clearSuspect_zeroStack : (e.clearSuspect i).zeroStack = e.zeroStack := by
  unfold clearSuspect; split <;> rfl
@[simp] theorem clearSuspect_zeroMark : (e.clearSuspect i).zeroMark = e.zeroMark := by
  unfold clearSuspect; split <;> rfl
@[simp] theorem clearSuspect_suspectStack : (e.clearSuspect i).suspectStack = e.suspectStack := by
  unfold clearSuspect; split <;> rfl
@[simp] theorem clearSuspect_detector : (e.clearSuspect i).detector = e.detector := by
  unfold clearSuspect; split <;> rfl

theorem setSuspect_suspectMark (j : ℕ) :
    (e.setSuspect i).suspectMark j = true ↔ e.suspectMark j = true ∨ j = i := by
  unfold setSuspect
  split
  · next h => exact ⟨Or.inl, fun hj => hj.elim id (fun hj => hj ▸ h)⟩
  · simp only [update_apply]; grind

theorem clearSuspect_suspectMark (j : ℕ) :
    (e.clearSuspect i).suspectMark j = true ↔ e.suspectMark j = true ∧ j ≠ i := by
  unfold clearSuspect
  split
  · simp only [update_apply]; grind
  · next h => grind

theorem mem_markZero (hz : e.ZeroOk) (j : ℕ) :
    j ∈ (e.markZero i).zeroStack ↔ j ∈ e.zeroStack ∨ j = i := by
  unfold markZero
  split
  · next h => exact ⟨Or.inl, fun hj => hj.elim id (fun hj => hj ▸ (hz.1 i).mp h)⟩
  · simp [or_comm]

theorem ZeroOk.markZero (hz : e.ZeroOk) : (e.markZero i).ZeroOk := by
  unfold AarcEngine.markZero
  split
  · exact hz
  · next h =>
    refine ⟨fun j => ?_, List.nodup_cons.mpr ⟨fun hi => h ((hz.1 i).mpr hi), hz.2⟩⟩
    simp only [update_apply, List.mem_cons]
    split
    · next hj => simp [hj]
    · next hj => simp [hj, hz.1 j]

theorem ZeroOk.of_eq (hz : e.ZeroOk) (h1 : e'.zeroMark = e.zeroMark)
    (h2 : e'.zeroStack = e.zeroStack) : e'.ZeroOk := by
  unfold ZeroOk
  rw [h1, h2]
  exact hz

end Marks

/-- `e'` arises from `e` by giving back the edges into the targets `L` (with multiplicity) and
examining each target. Edge records may be unlinked on the way. -/
structure Released (e e' : AarcEngine) (L : List ℕ) : Prop where
  pool : e'.pool = e.pool
  kind : e'.kind = e.kind
  owner : e'.owner = e.owner
  detector : e'.detector = e.detector
  root : e'.tab.root = e.tab.root
  edge : ∀ i, e'.tab.edge i = e.tab.edge i - L.count i
  bound : ∀ i ∈ L, (L.count i : ℤ) ≤ e.tab.edge i
  outs : ∀ i, e'.tab.hasOutgoing i = true → e.tab.hasOutgoing i = true
  zeroOk : e'.ZeroOk
  zeros : ∀ i, i ∈ e'.zeroStack ↔ i ∈ e.zeroStack ∨ (i ∈ L ∧ e'.tab.total i = 0)
  kept : ∀ i, e.suspectMark i = true → e'.suspectMark i = true
  new : ∀ i, e'.suspectMark i = true → e.suspectMark i = true ∨ (i ∈ L ∧ i ∈ e'.suspectStack)
  stack : ∀ i ∈ e.suspectStack, i ∈ e'.suspectStack
  hit : ∀ i ∈ L, e'.tab.total i ≠ 0 → e'.tab.hasOutgoing i = true → e'.suspectMark i = true

section Released

variable {L L' : List ℕ}

/-- Unlinking records releases nothing. -/
theorem Released.setTab (hz : e.ZeroOk) {t : RefTable} (hr : t.root = e.tab.root)
    (he : t.edge = e.tab.edge) (ho : ∀ i, t.hasOutgoing i = true → e.tab.hasOutgoing i = true) :
    Released e (e.setTab t) [] := by
  refine
    { pool := rfl, kind := rfl, owner := rfl, detector := rfl, root := hr, edge := ?_,
      bound := by simp, outs := ho, zeroOk := hz, zeros := ?_, kept := ?_, new := ?_, stack := ?_,
      hit := by simp } <;>
    simp_all [AarcEngine.setTab]

theorem Released.refl (hz : e.ZeroOk) : Released e e [] :=
  Released.setTab (t := e.tab) hz rfl rfl fun _ h => h

theorem Released.total (h : Released e e' L) (i : ℕ) :
    e'.tab.total i = e.tab.total i - L.count i := by
  simp only [RefTable.total, h.root, h.edge]
  omega

theorem Released.trans (hr : ∀ i, 0 ≤ e.tab.root i) (h : Released e e' L)
    (h' : Released e' e'' L') : Released e e'' (L ++ L') := by
  have hzero : ∀ i ∈ L', e'.tab.total i ≠ 0 := fun i hi h0 => by
    have hb := h'.bound i hi
    have hc := List.count_pos_iff.mpr hi
    have := hr i
    rw [← congrFun h.root i] at this
    simp only [RefTable.total] at h0
    omega
  have hdown : ∀ i, e'.tab.total i = 0 → e''.tab.total i = 0 := fun i h0 => by
    rw [h'.total, h0, List.count_eq_zero.mpr fun hi => hzero i hi h0]
    simp
  refine
    { pool := h'.pool.trans h.pool, kind := h'.kind.trans h.kind, owner := h'.owner.trans h.owner,
      detector := h'.detector.trans h.detector, root := h'.root.trans h.root, edge := ?_,
      bound := ?_, outs := fun i hi => h.outs i (h'.outs i hi), zeroOk := h'.zeroOk, zeros := ?_,
      kept := fun i hi => h'.kept i (h.kept i hi), new := ?_,
      stack := fun i hi => h'.stack i (h.stack i hi), hit := ?_ }
  · intro i
    rw [h'.edge, h.edge, List.count_append]
    push_cast
    omega
  · intro i hi
    rw [List.count_append]
    push_cast
    by_cases hi' : i ∈ L'
    · have := h'.bound i hi'
      rw [h.edge] at this
      omega
    · rw [List.count_eq_zero.mpr hi']
      simpa using h.bound i ((List.mem_append.mp hi).resolve_right hi')
  · intro i
    rw [h'.zeros, h.zeros, List.mem_append]
    constructor
    · rintro ((hi | ⟨hi, h0⟩) | ⟨hi, h0⟩)
      · exact Or.inl hi
      · exact Or.inr ⟨Or.inl hi, hdown i h0⟩
      · exact Or.inr ⟨Or.inr hi, h0⟩
    · rintro (hi | ⟨hi, h0⟩)
      · exact Or.inl (Or.inl hi)
      · by_cases hi' : i ∈ L'
        · exact Or.inr ⟨hi', h0⟩
        · refine Or.inl (Or.inr ⟨hi.resolve_right hi', ?_⟩)
          rw [h'.total, List.count_eq_zero.mpr hi'] at h0
          simpa using h0
  · intro i hi
    rcases h'.new i hi with hi | ⟨hL, hs⟩
    · exact (h.new i hi).imp id fun ⟨hL, hs⟩ => ⟨List.mem_append_left _ hL, h'.stack i hs⟩
    · exact Or.inr ⟨List.mem_append_right _ hL, hs⟩
  · intro i hi h0 ho
    by_cases hi' : i ∈ L'
    · exact h'.hit i hi' h0 ho
    · exact h'.kept i (h.hit i ((List.mem_append.mp hi).resolve_right hi')
        (fun h0' => h0 (hdown i h0')) (h'.outs i ho))

theorem releaseEdge_released (hz : e.ZeroOk) (h0 : 0 < e.tab.edge i) :
    Released e (e.releaseEdge i) [i] := by
  have htab : (e.tab.subEdgeTo i).1 =
      { e.tab with edge := update e.tab.edge i (e.tab.edge i - 1) } := by
    simp [RefTable.subEdgeTo, not_le.mpr h0]
  have hzs : (e.setTab (e.tab.subEdgeTo i).1).ZeroOk := hz
  have hedge : ∀ j, update e.tab.edge i (e.tab.edge i - 1) j = e.tab.edge j - [i].count j := by
    intro j
    rw [update_apply]
    split
    · next hj => simp [hj]
    · next hj => simp [Ne.symm hj]
  unfold releaseEdge mark
  split
  · next ht =>
    refine
      { pool := by simp [setTab], kind := ?_, owner := ?_, detector := ?_
        root := by simp [setTab, htab], edge := by simpa [setTab, htab] using hedge
        bound := by simp; omega, outs := by simp [setTab, htab, RefTable.hasOutgoing]
        zeroOk := hzs.markZero, zeros := fun j => ?_, kept := by simp [setTab]
        new := by simp +contextual [setTab], stack := by simp [setTab], hit := ?_ }
    · unfold markZero; split <;> rfl
    · unfold markZero; split <;> rfl
    · unfold markZero; split <;> rfl
    · rw [mem_markZero hzs, markZero_tab, List.mem_singleton]
      refine or_congr Iff.rfl ⟨fun hj => ⟨hj, hj ▸ ht⟩, And.left⟩
    · intro j hj h0
      obtain rfl := List.mem_singleton.mp hj
      rw [markZero_tab] at h0
      exact absurd ht h0
  · next ht =>
    split
    · next ho =>
      refine
        { pool := by simp [markSuspect, setTab], kind := ?_, owner := ?_, detector := ?_
          root := by simp [markSuspect, setTab, htab]
          edge := by simpa [markSuspect, setTab, htab] using hedge
          bound := by simp; omega
          outs := by simp [markSuspect, setTab, htab, RefTable.hasOutgoing]
          zeroOk := hzs.of_eq (by simp [markSuspect]) (by simp [markSuspect])
          zeros := fun j => ?_, kept := fun j hj => ?_
          new := fun j hj => ?_, stack := fun j hj => ?_, hit := fun j hj _ _ => ?_ }
      · unfold markSuspect setSuspect; split <;> rfl
      · unfold markSuspect setSuspect; split <;> rfl
      · unfold markSuspect setSuspect; split <;> rfl
      · simp only [markSuspect, setSuspect_zeroStack, setSuspect_tab, List.mem_singleton]
        refine ⟨Or.inl, fun hj => hj.elim id ?_⟩
        rintro ⟨rfl, h0⟩
        exact absurd h0 ht
      · exact (setSuspect_suspectMark j).mpr (Or.inl hj)
      · by_cases hm : e.suspectMark j = true
        · exact Or.inl hm
        obtain rfl := ((setSuspect_suspectMark j).mp hj).resolve_left hm
        refine Or.inr ⟨List.mem_singleton_self j, ?_⟩
        have hm' : (e.setTab (e.tab.subEdgeTo j).1).suspectMark j ≠ true := hm
        unfold markSuspect setSuspect
        rw [if_neg hm']
        exact List.mem_cons_self
      · unfold markSuspect setSuspect
        split
        · exact hj
        · exact List.mem_cons_of_mem _ hj
      · exact (setSuspect_suspectMark j).mpr (Or.inr (List.mem_singleton.mp hj))
    · next ho =>
      refine
        { pool := rfl, kind := rfl, owner := rfl, detector := rfl, root := by simp [setTab, htab]
          edge := by simpa [setTab, htab] using hedge
          bound := by simp; omega, outs := by simp [setTab, htab, RefTable.hasOutgoing]
          zeroOk := hzs, zeros := fun j => ?_, kept := fun _ h => h, new := fun _ h => Or.inl h
          stack := fun _ h => h, hit := fun j hj _ ho' => ?_ }
      · rw [List.mem_singleton]
        refine ⟨Or.inl, fun hj => hj.elim id ?_⟩
        rintro ⟨rfl, h0⟩
        exact absurd h0 ht
      · obtain rfl := List.mem_singleton.mp hj
        exact absurd ho' ho

theorem releaseEdge_recs (i : ℕ) : (e.releaseEdge i).tab.outRecs = e.tab.outRecs ∧
    (e.releaseEdge i).tab.inRecs = e.tab.inRecs := by
  have h : ∀ t : RefTable, (t.subEdgeTo i).1.outRecs = t.outRecs ∧
      (t.subEdgeTo i).1.inRecs = t.inRecs := fun t => by
    unfold RefTable.subEdgeTo
    split <;> exact ⟨rfl, rfl⟩
  unfold releaseEdge mark
  split
  · simpa [setTab] using h e.tab
  · split
    · simpa [setTab, markSuspect] using h e.tab
    · simpa [setTab] using h e.tab

variable {p : ObjHandle → Bool}

theorem releaseOuts_recs (p : ObjHandle → Bool) (ts : List ObjHandle) (e : AarcEngine) :
    (e.releaseOuts p ts).tab.outRecs = e.tab.outRecs ∧
    (e.releaseOuts p ts).tab.inRecs = e.tab.inRecs := by
  induction ts generalizing e with
  | nil => exact ⟨rfl, rfl⟩
  | cons t ts ih =>
    simp only [releaseOuts, List.foldl_cons]
    obtain ⟨h1, h2⟩ := ih (if p t then e.releaseEdge t.index else e)
    simp only [releaseOuts] at h1 h2
    rw [h1, h2]
    split
    · exact releaseEdge_recs t.index
    · exact ⟨rfl, rfl⟩

/-- Releasing a list of edges gives back exactly the selected targets. -/
theorem releaseOuts_released (hr : ∀ i, 0 ≤ e.tab.root i) (hz : e.ZeroOk) (ts : List ObjHandle)
    (hb : ∀ i ∈ (ts.filter p).map ObjHandle.index,
      (((ts.filter p).map ObjHandle.index).count i : ℤ) ≤ e.tab.edge i) :
    Released e (e.releaseOuts p ts) ((ts.filter p).map ObjHandle.index) := by
  induction ts generalizing e with
  | nil => exact .refl hz
  | cons t ts ih =>
    simp only [releaseOuts, List.foldl_cons] at ih ⊢
    by_cases ht : p t = true
    · rw [List.filter_cons_of_pos ht, List.map_cons] at hb ⊢
      have h0 : 0 < e.tab.edge t.index := by
        have := hb t.index List.mem_cons_self
        rw [List.count_cons_self] at this
        omega
      have h1 := releaseEdge_released hz h0
      rw [if_pos ht]
      refine Released.trans hr h1 (ih (by rw [h1.root]; exact hr) h1.zeroOk fun i hi => ?_)
      have := hb i (List.mem_cons_of_mem _ hi)
      rw [← List.singleton_append, List.count_append] at this
      rw [h1.edge]
      push_cast at this
      omega
    · rw [List.filter_cons_of_neg ht] at hb ⊢
      rw [if_neg ht]
      exact ih hr hz hb

end Released

section Freed

variable {F F' : Finset ℕ}

/-- `e'` arises from `e` by freeing the cells of the slots `F` and nothing else. -/
structure Freed (e e' : AarcEngine) (F : Finset ℕ) : Prop where
  capacity : e'.pool.capacity = e.pool.capacity
  isLiveAt : ∀ i, e'.pool.isLiveAt i = (e.pool.isLiveAt i && decide (i ∉ F))
  gen : ∀ i, i ∉ F → e'.pool.gen i = e.pool.gen i
  avail : ∀ i, i ∉ F → e'.pool.avail i = e.pool.avail i
  gen_le : ∀ i, e.pool.gen i ≤ e'.pool.gen i
  recycle : e.pool.Sound → ∀ i ∈ F, e'.pool.avail i = true → e.pool.gen i < e'.pool.gen i
  regime : e'.pool.regime = e.pool.regime
  tokens : e'.pool.owner = e.pool.owner
  poolSound : e.pool.Sound → e'.pool.Sound
  kind : e'.kind = e.kind
  owner : e'.owner = e.owner
  was : ∀ i ∈ F, e.pool.isLiveAt i = true
  root : ∀ i, i ∉ F → e'.tab.root i = e.tab.root i
  outRecs : ∀ i, i ∉ F → e'.tab.outRecs i = e.tab.outRecs i
  inRecs : ∀ i, i ∉ F → e'.tab.inRecs i = (e.tab.inRecs i).filter (·.src.index ∉ F)

theorem Freed.refl (e : AarcEngine) : Freed e e ∅ := by
  refine ⟨rfl, ?_, ?_, ?_, ?_, ?_, rfl, rfl, id, rfl, rfl, ?_, ?_, ?_, ?_⟩ <;> simp

/-- Changes of the scratch state free nothing. -/
theorem Freed.of_eq (hp : e'.pool = e.pool) (ht : e'.tab = e.tab) (hk : e'.kind = e.kind)
    (ho : e'.owner = e.owner) : Freed e e' ∅ := by
  refine ⟨by rw [hp], ?_, ?_, ?_, ?_, ?_, by rw [hp], by rw [hp], by rw [hp]; exact id, hk, ho,
    ?_, ?_, ?_, ?_⟩ <;> simp [hp, ht]

theorem Freed.trans (h : Freed e e' F) (h' : Freed e' e'' F') : Freed e e'' (F ∪ F') := by
  refine
    { capacity := h'.capacity.trans h.capacity, isLiveAt := fun i => ?_, gen := fun i hi => ?_,
      avail := fun i hi => ?_, gen_le := fun i => (h.gen_le i).trans (h'.gen_le i),
      recycle := fun hs i hi ha => ?_, regime := h'.regime.trans h.regime,
      tokens := h'.tokens.trans h.tokens, poolSound := fun hs => h'.poolSound (h.poolSound hs),
      kind := h'.kind.trans h.kind, owner := h'.owner.trans h.owner, was := fun i hi => ?_,
      root := fun i hi => ?_, outRecs := fun i hi => ?_, inRecs := fun i hi => ?_ }
  · rw [h'.isLiveAt, h.isLiveAt, Bool.and_assoc, ← Bool.decide_and]
    simp [not_or]
  · rw [Finset.mem_union, not_or] at hi
    rw [h'.gen i hi.2, h.gen i hi.1]
  · rw [Finset.mem_union, not_or] at hi
    rw [h'.avail i hi.2, h.avail i hi.1]
  · by_cases hi' : i ∈ F'
    · exact (h.gen_le i).trans_lt (h'.recycle (h.poolSound hs) i hi' ha)
    · rw [h'.avail i hi'] at ha
      rw [h'.gen i hi']
      exact h.recycle hs i ((Finset.mem_union.mp hi).resolve_right hi') ha
  · rcases Finset.mem_union.mp hi with hi | hi
    · exact h.was i hi
    · have := h'.was i hi
      rw [h.isLiveAt, Bool.and_eq_true] at this
      exact this.1
  · rw [Finset.mem_union, not_or] at hi
    rw [h'.root i hi.2, h.root i hi.1]
  · rw [Finset.mem_union, not_or] at hi
    rw [h'.outRecs i hi.2, h.outRecs i hi.1]
  · rw [Finset.mem_union, not_or] at hi
    rw [h'.inRecs i hi.2, h.inRecs i hi.1, List.filter_filter]
    refine List.filter_congr fun r _ => ?_
    simp [Bool.and_comm]

theorem Freed.edge_iff (h : Freed e e' F) (hs' : e'.tab.Sound e'.pool) (i j : ℕ) :
    e'.tab.Edge i j ↔ e.tab.Edge i j ∧ i ∉ F := by
  by_cases hi : i ∈ F
  · have hd : e'.pool.isLiveAt i = false := by simp [h.isLiveAt, hi]
    simp [RefTable.Edge, hs'.dead_out hd, hi]
  · simp [RefTable.Edge, h.outRecs i hi, hi]

theorem Freed.used_eq (h : Freed e e' F) : e'.pool.used =
    (((List.range e.pool.capacity).filter e.pool.isLiveAt).filter (· ∉ F)).length := by
  unfold CellPool.used
  rw [h.capacity, List.filter_filter]
  refine congrArg List.length (List.filter_congr fun i _ => ?_)
  rw [h.isLiveAt, Bool.and_comm]

theorem Freed.used_le (h : Freed e e' F) : e'.pool.used ≤ e.pool.used := by
  rw [h.used_eq]
  exact List.length_filter_le _ _

theorem Freed.used_lt (h : Freed e e' F) (hF : F.Nonempty) : e'.pool.used < e.pool.used := by
  obtain ⟨i, hi⟩ := hF
  have hl := h.was i hi
  rw [h.used_eq]
  refine List.length_filter_lt_length_iff_exists.mpr ⟨i, List.mem_filter.mpr ⟨?_, hl⟩, by simpa⟩
  exact List.mem_range.mpr (CellPool.isLiveAt_iff.mp hl).1

/-- A freed set must own all references to it, and the others are counted from the records. -/
theorem Freed.sound (h : Freed e e' F) (hs : e.tab.Sound e.pool)
    (hroot : ∀ i ∈ F, e'.tab.root i = 0) (hout : ∀ i ∈ F, e'.tab.outRecs i = [])
    (hin : ∀ i ∈ F, e'.tab.inRecs i = []) (hedge : ∀ i, e'.tab.edge i = (e'.tab.inRecs i).length)
    (hF : ∀ i, ∀ j ∈ F, e.tab.Edge i j → i ∈ F) : e'.tab.Sound e'.pool := by
  have hvalid : ∀ x : ObjHandle, x.index ∉ F → e.pool.valid x = true → e'.pool.valid x = true := by
    intro x hx hv
    obtain ⟨hl, hg⟩ := CellPool.valid_iff.mp hv
    exact CellPool.valid_iff.mpr ⟨by simp [h.isLiveAt, hl, hx], by rw [h.gen _ hx, hg]⟩
  have hmem : ∀ i, ∀ r ∈ e'.tab.outRecs i, i ∉ F ∧ r ∈ e.tab.outRecs i := by
    intro i r hr
    by_cases hi : i ∈ F
    · simp [hout i hi] at hr
    · exact ⟨hi, h.outRecs i hi ▸ hr⟩
  have hdst : ∀ i, i ∉ F → ∀ r ∈ e.tab.outRecs i, r.dst.index ∉ F := fun i hi r hr hd =>
    hi (hF i _ hd ⟨r, hr, rfl⟩)
  refine
    { out_src := fun i r hr => hs.out_src i r (hmem i r hr).2, in_dst := fun i r hr => ?_,
      count_eq := fun r => ?_, dead_root := fun i hi => ?_, root_nonneg := fun i => ?_,
      valid_src := fun i r hr => ?_, valid_dst := fun i r hr => ?_, edge_eq := hedge }
  · by_cases hi : i ∈ F
    · simp [hin i hi] at hr
    · rw [h.inRecs i hi] at hr
      exact hs.in_dst i r (List.mem_of_mem_filter hr)
  · by_cases hd : r.dst.index ∈ F
    · rw [hin _ hd, List.count_nil, List.count_eq_zero]
      intro hr
      obtain ⟨hi, hr⟩ := hmem _ r hr
      exact hdst _ hi r hr hd
    · rw [h.inRecs _ hd]
      by_cases hsrc : r.src.index ∈ F
      · rw [hout _ hsrc, List.count_nil, eq_comm, List.count_eq_zero]
        simp [hsrc]
      · rw [List.count_filter (by simpa using hsrc), h.outRecs _ hsrc, hs.count_eq]
  · by_cases hF : i ∈ F
    · exact hroot i hF
    · rw [h.root i hF]
      exact hs.dead_root i (by simpa [h.isLiveAt, hF] using hi)
  · by_cases hF : i ∈ F
    · rw [hroot i hF]
    · rw [h.root i hF]; exact hs.root_nonneg i
  · obtain ⟨hi, hr⟩ := hmem i r hr
    exact hvalid _ (by rwa [hs.out_src i r hr]) (hs.valid_src i r hr)
  · obtain ⟨hi, hr⟩ := hmem i r hr
    exact hvalid _ (hdst i hi r hr) (hs.valid_dst i r hr)

/-- A slot outside a freed set keeps its count, or lost an edge from the set. -/
theorem Freed.total_eq_or (h : Freed e e' F) (hs : e.tab.Sound e.pool)
    (hs' : e'.tab.Sound e'.pool) (hi : i ∉ F) :
    e'.tab.total i = e.tab.total i ∨ ∃ f ∈ F, e.tab.Edge f i := by
  by_cases hf : ∃ f ∈ F, e.tab.Edge f i
  · exact Or.inr hf
  · left
    unfold RefTable.total
    rw [h.root i hi, hs'.edge_eq, hs.edge_eq, h.inRecs i hi, List.filter_eq_self.mpr]
    intro r hr
    simp only [decide_eq_true_eq]
    exact fun hF => hf ⟨_, hF, hs.edge_iff_in.mpr ⟨r, hr, rfl⟩⟩

theorem Freed.total_le (h : Freed e e' F) (hs : e.tab.Sound e.pool)
    (hs' : e'.tab.Sound e'.pool) (hi : i ∉ F) : e'.tab.total i ≤ e.tab.total i := by
  unfold RefTable.total
  rw [h.root i hi, hs'.edge_eq, hs.edge_eq, h.inRecs i hi]
  have := List.length_filter_le (fun r : EdgeRec => decide (r.src.index ∉ F)) (e.tab.inRecs i)
  omega

theorem Freed.live_off (h : Freed e e' F) (hi : e'.pool.isLiveAt i = true) :
    e.pool.isLiveAt i = true ∧ i ∉ F := by
  simpa [h.isLiveAt] using hi

end Freed

section Remarked

variable {F F' : Finset ℕ}

/-- What becomes of the marks when `F` is freed: the marks outside stay, and every target of a
freed cell is examined. Only a candidate that has been revived may be dropped. -/
structure Remarked (e e' : AarcEngine) (F : Finset ℕ) : Prop where
  detector : e'.detector = e.detector
  zeroOk : e'.ZeroOk
  zero_kept : ∀ i ∈ e.zeroStack, e.tab.total i = 0 → i ∉ F → i ∈ e'.zeroStack
  zero_new : ∀ i ∈ e'.zeroStack,
    i ∈ e.zeroStack ∨ (e'.tab.total i = 0 ∧ ∃ f ∈ F, e.tab.Edge f i)
  zero_out : ∀ i ∈ e'.zeroStack, i ∉ F
  kept : ∀ i, e.suspectMark i = true → i ∉ F → e'.suspectMark i = true
  gone : ∀ i ∈ F, e'.suspectMark i = false
  new : ∀ i, e'.suspectMark i = true →
    e.suspectMark i = true ∨ (i ∈ e'.suspectStack ∧ ∃ f ∈ F, e.tab.Edge f i)
  stack : ∀ i ∈ e.suspectStack, i ∈ e'.suspectStack
  hit_zero : ∀ i, ∀ f ∈ F, e.tab.Edge f i → i ∉ F → e'.tab.total i = 0 → i ∈ e'.zeroStack
  hit_suspect : ∀ i, ∀ f ∈ F, e.tab.Edge f i → i ∉ F → e'.tab.total i ≠ 0 →
    e'.tab.hasOutgoing i = true → e'.suspectMark i = true

theorem Remarked.refl (hz : e.ZeroOk) : Remarked e e ∅ := by
  refine ⟨rfl, hz, ?_, ?_, ?_, ?_, ?_, ?_, ?_, ?_, ?_⟩ <;> simp +contextual

theorem Remarked.trans (hf : Freed e e' F) (hf' : Freed e' e'' F') (hs : e.tab.Sound e.pool)
    (hs' : e'.tab.Sound e'.pool) (hs'' : e''.tab.Sound e''.pool) (h : Remarked e e' F)
    (h' : Remarked e' e'' F') : Remarked e e'' (F ∪ F') := by
  have hedge : ∀ i, (∃ f ∈ F', e'.tab.Edge f i) → i ∉ F ∧ ∃ f ∈ F ∪ F', e.tab.Edge f i := by
    rintro i ⟨f, hfF, hfi⟩
    refine ⟨(hf.live_off (hs'.edge_live hfi).2).2, f, Finset.mem_union_right _ hfF, ?_⟩
    exact ((hf.edge_iff hs' f i).mp hfi).1
  have hzero : ∀ i ∉ F', e'.tab.total i = 0 → e''.tab.total i = 0 := fun i hi h0 =>
    le_antisymm (h0 ▸ hf'.total_le hs' hs'' hi) (hs''.total_nonneg i)
  have hF : ∀ i, (∃ f ∈ F, e.tab.Edge f i) → ∃ f ∈ F ∪ F', e.tab.Edge f i :=
    fun i ⟨f, hfF, hfi⟩ => ⟨f, Finset.mem_union_left _ hfF, hfi⟩
  refine
    { detector := h'.detector.trans h.detector, zeroOk := h'.zeroOk
      zero_kept := fun i hi h0 hn => ?_, zero_new := fun i hi => ?_, zero_out := fun i hi => ?_,
      kept := fun i hi hn => ?_, gone := fun i hi => ?_, new := fun i hi => ?_,
      stack := fun i hi => h'.stack i (h.stack i hi), hit_zero := fun i f hfF hfi hn h0 => ?_,
      hit_suspect := fun i f hfF hfi hn h0 ho => ?_ }
  · rw [Finset.mem_union, not_or] at hn
    refine h'.zero_kept i (h.zero_kept i hi h0 hn.1) ?_ hn.2
    exact le_antisymm (h0 ▸ hf.total_le hs hs' hn.1) (hs'.total_nonneg i)
  · have hout := h'.zero_out i hi
    rcases h'.zero_new i hi with hi | ⟨h0, hE⟩
    · exact (h.zero_new i hi).imp id fun ⟨h0, hE⟩ => ⟨hzero i hout h0, hF i hE⟩
    · exact Or.inr ⟨h0, (hedge i hE).2⟩
  · rw [Finset.mem_union, not_or]
    refine ⟨?_, h'.zero_out i hi⟩
    rcases h'.zero_new i hi with hi | ⟨-, hE⟩
    · exact h.zero_out i hi
    · exact (hedge i hE).1
  · rw [Finset.mem_union, not_or] at hn
    exact h'.kept i (h.kept i hi hn.1) hn.2
  · by_cases hi' : i ∈ F'
    · exact h'.gone i hi'
    · have hiF := (Finset.mem_union.mp hi).resolve_right hi'
      refine Bool.eq_false_iff.mpr fun hm => ?_
      rcases h'.new i hm with hm | ⟨-, hE⟩
      · rw [h.gone i hiF] at hm
        simp at hm
      · exact (hedge i hE).1 hiF
  · rcases h'.new i hi with hi | ⟨hst, hE⟩
    · exact (h.new i hi).imp id fun ⟨hst, hE⟩ => ⟨h'.stack i hst, hF i hE⟩
    · exact Or.inr ⟨hst, (hedge i hE).2⟩
  · rw [Finset.mem_union, not_or] at hn
    by_cases hE : ∃ f ∈ F', e'.tab.Edge f i
    · obtain ⟨f', hf'F, hf'i⟩ := hE
      exact h'.hit_zero i f' hf'F hf'i hn.2 h0
    · have ht := (hf'.total_eq_or hs' hs'' hn.2).resolve_right hE
      have hfF : f ∈ F := by
        by_contra hn'
        have hf' := (Finset.mem_union.mp hfF).resolve_left hn'
        exact hE ⟨f, hf', (hf.edge_iff hs' f i).mpr ⟨hfi, hn'⟩⟩
      exact h'.zero_kept i (h.hit_zero i f hfF hfi hn.1 (ht ▸ h0)) (ht ▸ h0) hn.2
  · rw [Finset.mem_union, not_or] at hn
    by_cases hE : ∃ f ∈ F', e'.tab.Edge f i
    · obtain ⟨f', hf'F, hf'i⟩ := hE
      exact h'.hit_suspect i f' hf'F hf'i hn.2 h0 ho
    · have hfF : f ∈ F := by
        by_contra hn'
        have hf' := (Finset.mem_union.mp hfF).resolve_left hn'
        exact hE ⟨f, hf', (hf.edge_iff hs' f i).mpr ⟨hfi, hn'⟩⟩
      have ho' : e'.tab.hasOutgoing i = true := by
        rw [RefTable.hasOutgoing_iff] at ho ⊢
        rwa [← hf'.outRecs i hn.2]
      exact h'.kept i (h.hit_suspect i f hfF hfi hn.1 (fun h0' => h0 (hzero i hn.2 h0')) ho') hn.2

end Remarked

end AarcEngine

end Loxis.Aarc
