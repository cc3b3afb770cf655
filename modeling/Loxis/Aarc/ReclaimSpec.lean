import Loxis.Aarc.Reclaim

/-! # Freeing a cell and freeing a component

Both ways of reclaiming free exactly their cells and re-examine what they referred to.
-/

namespace Loxis.Aarc

open Function

namespace AarcEngine

variable {e e' : AarcEngine} {i j : ℕ}

theorem valid_self (hl : e.pool.isLiveAt i = true) :
    e.pool.valid ⟨i, e.pool.generationOf i⟩ = true := by
  refine CellPool.valid_iff.mpr ⟨hl, ?_⟩
  simp [CellPool.generationOf, (CellPool.isLiveAt_iff.mp hl).1]

/-- A release followed by the reset of the freed rows examines every target of the freed set. -/
theorem Released.remarked {e₁ e₂ e₃ : AarcEngine} {L : List ℕ} {F : Finset ℕ}
    (hrel : Released e₁ e₂ L) (hd : e₁.detector = e.detector) (hz : e₁.zeroStack = e.zeroStack)
    (hss : e₁.suspectStack = e.suspectStack)
    (hm : ∀ j, e₁.suspectMark j = true → e.suspectMark j = true)
    (hm' : ∀ j ∉ F, e.suspectMark j = true → e₁.suspectMark j = true)
    (hL : ∀ j, j ∈ L ↔ j ∉ F ∧ ∃ f ∈ F, e.tab.Edge f j) (hout : ∀ j ∈ e.zeroStack, j ∉ F)
    (hd₃ : e₃.detector = e₂.detector) (hzm₃ : e₃.zeroMark = e₂.zeroMark)
    (hzs₃ : e₃.zeroStack = e₂.zeroStack) (hss₃ : e₃.suspectStack = e₂.suspectStack)
    (hm₃ : ∀ j, e₃.suspectMark j = true ↔ e₂.suspectMark j = true ∧ j ∉ F)
    (ht : ∀ j ∉ F, e₃.tab.total j = e₂.tab.total j)
    (ho : ∀ j ∉ F, e₃.tab.hasOutgoing j = e₂.tab.hasOutgoing j) : Remarked e e₃ F := by
  have hzeros : ∀ j, j ∈ e₃.zeroStack ↔ j ∈ e.zeroStack ∨ (j ∈ L ∧ e₂.tab.total j = 0) := by
    intro j
    rw [hzs₃, hrel.zeros, hz]
  refine
    { detector := hd₃.trans (hrel.detector.trans hd), zeroOk := hrel.zeroOk.of_eq hzm₃ hzs₃
      zero_kept := fun j hj _ _ => (hzeros j).mpr (Or.inl hj), zero_new := fun j hj => ?_,
      zero_out := fun j hj => ?_, kept := fun j hj hn => ?_, gone := fun j hj => ?_,
      new := fun j hj => ?_, stack := fun j hj => ?_, hit_zero := fun j f hf hfj hn h0 => ?_,
      hit_suspect := fun j f hf hfj hn h0 ho' => ?_ }
  · refine ((hzeros j).mp hj).imp_right fun ⟨hjL, h0⟩ => ?_
    obtain ⟨hjF, hE⟩ := (hL j).mp hjL
    exact ⟨by rw [ht j hjF, h0], hE⟩
  · exact ((hzeros j).mp hj).elim (hout j) fun h => ((hL j).mp h.1).1
  · exact (hm₃ j).mpr ⟨hrel.kept j (hm' j hn hj), hn⟩
  · exact Bool.eq_false_iff.mpr fun hmj => ((hm₃ j).mp hmj).2 hj
  · rw [hss₃]
    exact (hrel.new j ((hm₃ j).mp hj).1).imp (hm j) fun ⟨hjL, hst⟩ => ⟨hst, ((hL j).mp hjL).2⟩
  · rw [hss₃]
    exact hrel.stack j (hss ▸ hj)
  · exact (hzeros j).mpr (Or.inr ⟨(hL j).mpr ⟨hn, f, hf, hfj⟩, ht j hn ▸ h0⟩)
  · rw [ht j hn] at h0
    rw [ho j hn] at ho'
    exact (hm₃ j).mpr ⟨hrel.hit j ((hL j).mpr ⟨hn, f, hf, hfj⟩) h0 ho', hn⟩

section Cell

/-- A cell gives back one edge into each of its targets before its row is reset. -/
theorem reclaimCell_released (hs : e.tab.Sound e.pool) (hz : e.ZeroOk) (i : ℕ) : ∃ e₂ L,
    Released (e.clearSuspect i) e₂ L ∧ (∀ j, j ∈ L ↔ e.tab.Edge i j) ∧
    (∀ j, L.count j = (e.tab.outRecs i).countP (·.dst.index = j)) ∧
    e₂.tab.outRecs = e.tab.outRecs ∧ e₂.tab.inRecs = e.tab.inRecs ∧
    e.reclaimCell i =
      { e₂ with tab := e₂.tab.resetSlot i, pool := e₂.pool.free ⟨i, e.pool.generationOf i⟩ } := by
  have hlive : ∀ t ∈ e.tab.outs i, e.pool.isLiveAt t.index = true := by
    intro t ht
    obtain ⟨r, hr, rfl⟩ := List.mem_map.mp ht
    exact (hs.edge_live ⟨r, hr, rfl⟩).2
  have hcount : ∀ j, (((e.tab.outs i).filter fun t => e.pool.isLiveAt t.index).map
      ObjHandle.index).count j = (e.tab.outRecs i).countP (·.dst.index = j) := by
    intro j
    rw [RefTable.count_outs]
    refine List.countP_congr fun r hr => ?_
    simp [hlive r.dst (List.mem_map_of_mem hr)]
  have hlen := hs.toLinked.length_inRecs i
  have hrel : Released (e.clearSuspect i) ((e.clearSuspect i).releaseOuts
      (fun t => (e.clearSuspect i).pool.isLiveAt t.index) ((e.clearSuspect i).tab.outs i))
      (((e.tab.outs i).filter fun t => e.pool.isLiveAt t.index).map ObjHandle.index) := by
    simp only [clearSuspect_pool, clearSuspect_tab]
    refine releaseOuts_released (by simpa using hs.root_nonneg) (hz.of_eq (by simp) (by simp)) _
      fun j _ => ?_
    rw [hcount, clearSuspect_tab, hs.edge_eq, hlen j]
    push_cast
    omega
  obtain ⟨ho, hin⟩ := releaseOuts_recs
    (fun t => (e.clearSuspect i).pool.isLiveAt t.index) ((e.clearSuspect i).tab.outs i)
    (e.clearSuspect i)
  refine ⟨_, _, hrel, fun j => ?_, hcount, ho.trans (by rw [clearSuspect_tab]),
    hin.trans (by rw [clearSuspect_tab]), rfl⟩
  rw [List.filter_eq_self.mpr hlive]
  simp only [RefTable.outs, List.map_map, List.mem_map, Function.comp_apply, RefTable.Edge]

/-- What any reclaim does: it frees cells and keeps the table and the candidates in order. -/
structure Reclaimed (e e' : AarcEngine) (F : Finset ℕ) : Prop where
  freed : Freed e e' F
  sound : e'.tab.Sound e'.pool
  zeroOk : e'.ZeroOk
  detector : e'.detector = e.detector

theorem Reclaimed.refl (hs : e.tab.Sound e.pool) (hz : e.ZeroOk) : Reclaimed e e ∅ :=
  ⟨.refl e, hs, hz, rfl⟩

theorem Reclaimed.trans {e'' : AarcEngine} {F F' : Finset ℕ} (h : Reclaimed e e' F)
    (h' : Reclaimed e' e'' F') : Reclaimed e e'' (F ∪ F') :=
  ⟨h.freed.trans h'.freed, h'.sound, h'.zeroOk, h'.detector.trans h.detector⟩

/-- A cell that nothing refers to can be freed, whatever the candidates are. -/
theorem reclaimCell_reclaimed (hs : e.tab.Sound e.pool) (hz : e.ZeroOk)
    (hl : e.pool.isLiveAt i = true) (h0 : e.tab.total i = 0) :
    Reclaimed e (e.reclaimCell i) {i} := by
  obtain ⟨e₂, L, hrel, -, hcount, ho, hin, hdef⟩ := reclaimCell_released hs hz i
  have hlen := hs.toLinked.length_inRecs i
  have hp : e₂.pool = e.pool := by rw [hrel.pool, clearSuspect_pool]
  have hlink : e₂.tab.Linked := by
    refine ⟨?_, ?_, ?_⟩
    · rw [ho]; exact hs.out_src
    · rw [hin]; exact hs.in_dst
    · rw [ho, hin]; exact hs.count_eq
  have hv := valid_self hl
  have hedge₂ : ∀ j, e₂.tab.edge j = e.tab.edge j - L.count j := by
    simpa using hrel.edge
  have hfreed : Freed e (e.reclaimCell i) {i} := by
    rw [hdef]
    refine
      { capacity := by simp [hp], isLiveAt := fun j => ?_, gen := fun j hj => ?_,
        avail := fun j hj => ?_, gen_le := fun j => by simpa [hp] using CellPool.gen_le_free j
        recycle := fun h j hj => ?_, regime := by simp [hp], tokens := by simp [hp],
        poolSound := fun h => ?_, kind := ?_, owner := ?_, was := by simpa using hl,
        root := fun j hj => ?_, outRecs := fun j hj => ?_, inRecs := fun j hj => ?_ }
    · rw [hp, CellPool.isLiveAt_free hv]; simp
    · rw [hp]; exact CellPool.gen_free_of_ne (by simpa using hj)
    · rw [hp]; exact CellPool.avail_free_of_ne (by simpa using hj)
    · obtain rfl := Finset.mem_singleton.mp hj
      rw [hp]
      exact CellPool.gen_lt_free h hv
    · rw [hp]; exact h.free
    · rw [show ∀ (a : AarcEngine) b c, ({ a with tab := b, pool := c } : AarcEngine).kind = a.kind
        from fun _ _ _ => rfl, hrel.kind]
      unfold clearSuspect; split <;> rfl
    · rw [show ∀ (a : AarcEngine) b c, ({ a with tab := b, pool := c } : AarcEngine).owner = a.owner
        from fun _ _ _ => rfl, hrel.owner]
      unfold clearSuspect; split <;> rfl
    · have hj : j ≠ i := by simpa using hj
      simp [RefTable.resetSlot, update_of_ne hj, RefTable.root_clearOuts, hrel.root]
    · have hj : j ≠ i := by simpa using hj
      simp [RefTable.resetSlot, hlink.outRecs_clearOuts, hj, ho]
    · have hj : j ≠ i := by simpa using hj
      simp [RefTable.resetSlot, update_of_ne hj, hlink.inRecs_clearOuts, hin]
  refine ⟨hfreed, hfreed.sound hs ?_ ?_ ?_ (fun j => ?_) fun k j hj hk => ?_, ?_, ?_⟩
  · simp [hdef, RefTable.resetSlot]
  · simp [hdef, RefTable.resetSlot]
  · simp [hdef, RefTable.resetSlot]
  · by_cases hj : j = i
    · simp [hdef, RefTable.resetSlot, hj]
    · have hout : (e.tab.inRecs j).filter (·.src.index ∉ ({i} : Finset ℕ)) =
          (e.tab.inRecs j).filter (·.src.index ≠ i) := List.filter_congr (by simp)
      rw [hfreed.inRecs j (by simpa using hj), hout, hdef]
      simp only [RefTable.resetSlot, update_of_ne hj, RefTable.edge_clearOuts, hedge₂, hcount,
        hs.edge_eq, hlen j]
      push_cast
      omega
  · rw [Finset.mem_singleton] at hj
    exact absurd (hj ▸ hk) (hs.no_edge_of_total h0)
  · rw [hdef]
    exact hrel.zeroOk
  · rw [hdef]
    exact hrel.detector.trans clearSuspect_detector

/-- Freeing a cell that nothing refers to. -/
theorem reclaimCell_spec (hs : e.tab.Sound e.pool) (hz : e.ZeroOk) (hl : e.pool.isLiveAt i = true)
    (h0 : e.tab.total i = 0) (hi : i ∉ e.zeroStack) :
    Freed e (e.reclaimCell i) {i} ∧ (e.reclaimCell i).tab.Sound (e.reclaimCell i).pool ∧
      Remarked e (e.reclaimCell i) {i} := by
  obtain ⟨hfreed, hsound, -, -⟩ := reclaimCell_reclaimed hs hz hl h0
  obtain ⟨e₂, L, hrel, hL, -, ho, -, hdef⟩ := reclaimCell_released hs hz i
  have htot : ∀ j, j ≠ i → (e.reclaimCell i).tab.total j = e₂.tab.total j := by
    intro j hj
    rw [hdef]
    simp [RefTable.total, RefTable.resetSlot, update_of_ne hj, RefTable.root_clearOuts,
      RefTable.edge_clearOuts]
  have hne : ∀ j, e.tab.Edge i j → j ≠ i := fun j hE hj => hs.no_edge_of_total h0 (hj ▸ hE)
  refine ⟨hfreed, hsound, hrel.remarked clearSuspect_detector clearSuspect_zeroStack
    clearSuspect_suspectStack (fun j hj => ((clearSuspect_suspectMark j).mp hj).1)
    (fun j hj hm => (clearSuspect_suspectMark j).mpr ⟨hm, by simpa using hj⟩) (fun j => ?_)
    (fun j hj => ?_) (by rw [hdef]) (by rw [hdef]) (by rw [hdef]) (by rw [hdef]) (fun j => ?_)
    (fun j hj => htot j (by simpa using hj)) (fun j hj => ?_)⟩
  · rw [hL]
    simpa using hne j
  · rw [Finset.mem_singleton]
    rintro rfl
    exact hi hj
  · rw [show (e.reclaimCell i).suspectMark = e₂.suspectMark by rw [hdef]]
    refine ⟨fun hm => ⟨hm, ?_⟩, And.left⟩
    rw [Finset.mem_singleton]
    rintro rfl
    rcases hrel.new _ hm with hm | ⟨hjL, -⟩
    · exact ((clearSuspect_suspectMark _).mp hm).2 rfl
    · exact hne _ ((hL _).mp hjL) rfl
  · unfold RefTable.hasOutgoing
    rw [hfreed.outRecs j hj, ho]

end Cell

section Component

variable {s : ℕ} {F D : Finset ℕ}

/-- The first phase of a component reclaim, once the members `D` of `F` are detached. -/
structure Detached (e e' : AarcEngine) (F D : Finset ℕ) : Prop where
  released : ∃ L, Released e e' L ∧ ∀ j, j ∈ L ↔ j ∉ F ∧ ∃ i ∈ D, e.tab.Edge i j
  linked : e'.tab.Linked
  outRecs : ∀ j, e'.tab.outRecs j = if j ∈ D then [] else e.tab.outRecs j
  inRecs : ∀ j, e'.tab.inRecs j = (e.tab.inRecs j).filter (·.src.index ∉ D)
  edge : ∀ j, j ∉ F → e'.tab.edge j = (e'.tab.inRecs j).length

theorem Detached.start (hs : e.tab.Sound e.pool) (hz : e.ZeroOk) (F : Finset ℕ) :
    Detached e e F ∅ :=
  ⟨⟨[], .refl hz, by simp⟩, hs.toLinked, by simp, by simp, fun j _ => hs.edge_eq j⟩

theorem Detached.detachMember (h : Detached e e' F D) (hs : e.tab.Sound e.pool) (hi : i ∉ D)
    (hscc : ∀ r ∈ e.tab.outRecs i, e.sccOf r.dst.index = some s ↔ r.dst.index ∈ F) :
    Detached e (detachMember s e' i) F (insert i D) := by
  obtain ⟨L, hrel, hL⟩ := h.released
  have hout : e'.tab.outRecs i = e.tab.outRecs i := by simp [h.outRecs, hi]
  have hp : ∀ r ∈ e.tab.outRecs i, (e'.pool.valid r.dst &&
      decide (e'.sccOf r.dst.index ≠ some s)) = decide (r.dst.index ∉ F) := by
    intro r hr
    rw [hrel.pool, hs.valid_dst i r hr, Bool.true_and]
    simp only [sccOf, hrel.detector] at hscc ⊢
    simp [hscc r hr]
  have hcount : ∀ j, (((e'.tab.outs i).filter fun t => e'.pool.valid t &&
      decide (e'.sccOf t.index ≠ some s)).map ObjHandle.index).count j =
      if j ∈ F then 0 else (e'.tab.outRecs i).countP (·.dst.index = j) := by
    intro j
    rw [RefTable.count_outs, hout]
    split
    · next hj =>
      refine List.countP_eq_zero.mpr fun r hr => ?_
      rw [hp r hr]
      simp only [Bool.and_eq_true, decide_eq_true_eq, not_and, not_not]
      rintro rfl
      exact hj
    · next hj =>
      refine List.countP_congr fun r hr => ?_
      rw [hp r hr]
      simp only [Bool.and_eq_true, decide_eq_true_eq, and_iff_left_iff_imp]
      rintro rfl
      exact hj
  have hlen := h.linked.length_inRecs i
  have hmem : ∀ j, j ∈ ((e'.tab.outs i).filter fun t => e'.pool.valid t &&
      decide (e'.sccOf t.index ≠ some s)).map ObjHandle.index ↔ j ∉ F ∧ e.tab.Edge i j := by
    intro j
    rw [← List.count_pos_iff, hcount, hout]
    split
    · next hj => simp [hj]
    · next hj => simp [hj, List.countP_pos_iff, RefTable.Edge]
  have hrel' : Released e' (e'.releaseOuts (fun t => e'.pool.valid t &&
      decide (e'.sccOf t.index ≠ some s)) (e'.tab.outs i)) (((e'.tab.outs i).filter
      fun t => e'.pool.valid t && decide (e'.sccOf t.index ≠ some s)).map ObjHandle.index) := by
    refine releaseOuts_released (by rw [hrel.root]; exact hs.root_nonneg) hrel.zeroOk _
      fun j hj => ?_
    have hjF := ((hmem j).mp hj).1
    rw [hcount, if_neg hjF, h.edge j hjF, hlen j]
    push_cast
    omega
  obtain ⟨ho₂, hin₂⟩ := releaseOuts_recs (fun t => e'.pool.valid t &&
    decide (e'.sccOf t.index ≠ some s)) (e'.tab.outs i) e'
  have hdef : AarcEngine.detachMember s e' i = (e'.releaseOuts (fun t => e'.pool.valid t &&
      decide (e'.sccOf t.index ≠ some s)) (e'.tab.outs i)).setTab ((e'.releaseOuts
      (fun t => e'.pool.valid t && decide (e'.sccOf t.index ≠ some s))
      (e'.tab.outs i)).tab.clearOuts i) := by
    unfold AarcEngine.detachMember
    rw [show (e'.releaseOuts _ _).tab.clearOuts i = _ from rfl]
  generalize e'.releaseOuts (fun t => e'.pool.valid t && decide (e'.sccOf t.index ≠ some s))
    (e'.tab.outs i) = e₂ at *
  generalize ((e'.tab.outs i).filter fun t => e'.pool.valid t &&
    decide (e'.sccOf t.index ≠ some s)).map ObjHandle.index = L' at *
  have hlink : e₂.tab.Linked := by
    refine ⟨?_, ?_, ?_⟩
    · rw [ho₂]; exact h.linked.out_src
    · rw [hin₂]; exact h.linked.in_dst
    · rw [ho₂, hin₂]; exact h.linked.count_eq
  have hclear : Released e₂ (e₂.setTab (e₂.tab.clearOuts i)) [] := by
    refine Released.setTab hrel'.zeroOk RefTable.root_clearOuts RefTable.edge_clearOuts
      fun j hj => ?_
    rw [RefTable.hasOutgoing_iff] at hj ⊢
    rw [hlink.outRecs_clearOuts] at hj
    split at hj
    · exact absurd rfl hj
    · exact hj
  rw [hdef]
  refine
    { released := ⟨L ++ (L' ++ []), hrel.trans hs.root_nonneg (hrel'.trans
        (by rw [hrel.root]; exact hs.root_nonneg) hclear), fun j => ?_⟩
      linked := hlink.clearOuts i, outRecs := fun j => ?_, inRecs := fun j => ?_,
      edge := fun j hj => ?_ }
  · rw [List.append_nil, List.mem_append, hL, hmem]
    simp only [Finset.mem_insert, exists_eq_or_imp]
    rw [or_comm, ← and_or_left]
  · simp only [setTab, hlink.outRecs_clearOuts, ho₂, h.outRecs, Finset.mem_insert]
    by_cases hj : j = i <;> simp [hj]
  · simp only [setTab, hlink.inRecs_clearOuts, hin₂, h.inRecs, List.filter_filter]
    refine List.filter_congr fun r _ => ?_
    simp [Finset.mem_insert]
  · simp only [setTab, hlink.inRecs_clearOuts, RefTable.edge_clearOuts, hin₂]
    rw [hrel'.edge, hcount, if_neg hj, h.edge j hj, hlen j]
    push_cast
    omega

/-- Both phases of a reclaim for cells of several components, each with its component number. -/
def reclaimMembers (c : ℕ → ℕ) (ms : List ℕ) (e : AarcEngine) : AarcEngine :=
  ms.foldl freeMember (ms.foldl (fun e i => detachMember (c i) e i) e)

/-- All members are detached. -/
theorem detachMembers_spec {c : ℕ → ℕ} (hs : e.tab.Sound e.pool) {ms : List ℕ} (hnd : ms.Nodup)
    (h : Detached e e' F D) (hD : ∀ i ∈ ms, i ∉ D)
    (hscc : ∀ i ∈ ms, ∀ r ∈ e.tab.outRecs i,
      e.sccOf r.dst.index = some (c i) ↔ r.dst.index ∈ F) :
    Detached e (ms.foldl (fun e i => AarcEngine.detachMember (c i) e i) e') F
      (D ∪ ms.toFinset) := by
  induction ms generalizing e' D with
  | nil => simpa using h
  | cons i ms ih =>
    obtain ⟨hi, hnd⟩ := List.nodup_cons.mp hnd
    rw [List.foldl_cons]
    have h1 := h.detachMember hs (hD i List.mem_cons_self) (hscc i List.mem_cons_self)
    have h2 := ih hnd h1 (fun j hj => ?_) fun j hj => hscc j (List.mem_cons_of_mem _ hj)
    · convert h2 using 1
      ext j
      simp only [Finset.mem_union, List.mem_toFinset, List.mem_cons, Finset.mem_insert]
      tauto
    · rw [Finset.mem_insert, not_or]
      refine ⟨?_, hD j (List.mem_cons_of_mem _ hj)⟩
      rintro rfl
      exact hi hj

/-- The second phase of a component reclaim: rows reset, marks cleared, cells freed. -/
theorem freeMembers_spec {ms : List ℕ} (hnd : ms.Nodup)
    (hl : ∀ i ∈ ms, e.pool.isLiveAt i = true) (hout : ∀ i ∈ ms, e.tab.outRecs i = []) :
    let e' := ms.foldl freeMember e
    (e'.pool.capacity = e.pool.capacity ∧ e'.pool.regime = e.pool.regime ∧
      e'.pool.owner = e.pool.owner ∧ (e.pool.Sound → e'.pool.Sound) ∧
      (∀ j, e'.pool.isLiveAt j = (e.pool.isLiveAt j && decide (j ∉ ms))) ∧
      (∀ j ∉ ms, e'.pool.gen j = e.pool.gen j ∧ e'.pool.avail j = e.pool.avail j) ∧
      (∀ j, e.pool.gen j ≤ e'.pool.gen j) ∧
      (e.pool.Sound → ∀ j ∈ ms, e'.pool.avail j = true → e.pool.gen j < e'.pool.gen j)) ∧
    (e'.kind = e.kind ∧ e'.owner = e.owner ∧ e'.detector = e.detector ∧
      e'.zeroMark = e.zeroMark ∧ e'.zeroStack = e.zeroStack ∧
      e'.suspectStack = e.suspectStack ∧
      ∀ j, e'.suspectMark j = true ↔ e.suspectMark j = true ∧ j ∉ ms) ∧
    (∀ j ∈ ms, e'.tab.root j = 0 ∧ e'.tab.edge j = 0 ∧ e'.tab.outRecs j = [] ∧
      e'.tab.inRecs j = []) ∧
    ∀ j ∉ ms, e'.tab.root j = e.tab.root j ∧ e'.tab.edge j = e.tab.edge j ∧
      e'.tab.outRecs j = e.tab.outRecs j ∧ e'.tab.inRecs j = e.tab.inRecs j := by
  induction ms generalizing e with
  | nil => simp
  | cons i ms ih =>
    obtain ⟨hi, hnd⟩ := List.nodup_cons.mp hnd
    have hv := valid_self (hl i List.mem_cons_self)
    have hreset : e.tab.resetSlot i =
        { root := update e.tab.root i 0, edge := update e.tab.edge i 0,
          outRecs := update e.tab.outRecs i [], inRecs := update e.tab.inRecs i [] } := by
      simp [RefTable.resetSlot, RefTable.clearOuts, hout i List.mem_cons_self]
    have htab : (freeMember e i).tab = e.tab.resetSlot i := by
      simp [freeMember, setTab]
    have hpool : (freeMember e i).pool = e.pool.free ⟨i, e.pool.generationOf i⟩ := by
      simp [freeMember, setTab]
    have hsame : (freeMember e i).kind = e.kind ∧ (freeMember e i).owner = e.owner ∧
        (freeMember e i).detector = e.detector ∧ (freeMember e i).zeroMark = e.zeroMark ∧
        (freeMember e i).zeroStack = e.zeroStack ∧
        (freeMember e i).suspectStack = e.suspectStack := by
      unfold freeMember clearSuspect
      split <;> exact ⟨rfl, rfl, rfl, rfl, rfl, rfl⟩
    have hmark : ∀ j, (freeMember e i).suspectMark j = true ↔ e.suspectMark j = true ∧ j ≠ i :=
      clearSuspect_suspectMark (e := e.setTab (e.tab.resetSlot i)) (i := i)
    have hlive : ∀ j, (freeMember e i).pool.isLiveAt j =
        (e.pool.isLiveAt j && decide (j ≠ i)) := by
      intro j
      rw [hpool, CellPool.isLiveAt_free hv]
    have hne : ∀ j ∈ ms, j ≠ i := fun j hj h => hi (h ▸ hj)
    obtain ⟨⟨h1, h2, h3, h4, h5, h6, h7, h8⟩, ⟨k1, k2, k3, k4, k5, k6, k7⟩, hin, hoff⟩ :=
      ih (e := freeMember e i) hnd
        (fun j hj => by rw [hlive, hl j (List.mem_cons_of_mem _ hj)]; simpa using hne j hj)
        (fun j hj => by
          rw [htab, hreset]
          simpa [update_of_ne (hne j hj)] using hout j (List.mem_cons_of_mem _ hj))
    obtain ⟨s1, s2, s3, s4, s5, s6⟩ := hsame
    rw [List.foldl_cons]
    refine ⟨⟨?_, ?_, ?_, fun h => ?_, fun j => ?_, fun j hj => ?_, fun j => ?_,
      fun h j hj ha => ?_⟩, ⟨k1.trans s1, k2.trans s2,
      k3.trans s3, k4.trans s4, k5.trans s5, k6.trans s6, fun j => ?_⟩, fun j hj => ?_,
      fun j hj => ?_⟩
    · rw [h1, hpool, CellPool.free_capacity]
    · rw [h2, hpool, CellPool.free_regime]
    · rw [h3, hpool, CellPool.free_owner]
    · exact h4 (by rw [hpool]; exact h.free)
    · rw [h5, hlive, Bool.and_assoc, ← Bool.decide_and]
      simp
    · rw [List.mem_cons, not_or] at hj
      rw [(h6 j hj.2).1, (h6 j hj.2).2, hpool]
      exact ⟨CellPool.gen_free_of_ne hj.1, CellPool.avail_free_of_ne hj.1⟩
    · refine le_trans ?_ (h7 j)
      rw [hpool]
      exact CellPool.gen_le_free j
    · by_cases hjm : j ∈ ms
      · refine lt_of_le_of_lt ?_ (h8 (by rw [hpool]; exact h.free) j hjm ha)
        rw [hpool]
        exact CellPool.gen_le_free j
      · obtain rfl := (List.mem_cons.mp hj).resolve_right hjm
        rw [(h6 j hjm).2, hpool] at ha
        rw [(h6 j hjm).1, hpool]
        exact CellPool.gen_lt_free h hv ha
    · rw [k7, hmark, List.mem_cons, not_or, and_assoc]
    · by_cases hjm : j ∈ ms
      · exact hin j hjm
      · obtain rfl := (List.mem_cons.mp hj).resolve_right hjm
        rw [(hoff j hjm).1, (hoff j hjm).2.1, (hoff j hjm).2.2.1, (hoff j hjm).2.2.2, htab, hreset]
        simp
    · rw [List.mem_cons, not_or] at hj
      rw [(hoff j hj.2).1, (hoff j hj.2).2.1, (hoff j hj.2).2.2.1, (hoff j hj.2).2.2.2, htab,
        hreset]
      simp [hj.1]

/-- What the first phase of a reclaim leaves, row by row. -/
theorem reclaimMembers_phases {c : ℕ → ℕ} (hs : e.tab.Sound e.pool) (hz : e.ZeroOk)
    {ms : List ℕ} (hnd : ms.Nodup)
    (hscc : ∀ i ∈ ms, ∀ r ∈ e.tab.outRecs i,
      e.sccOf r.dst.index = some (c i) ↔ r.dst.index ∈ ms) :
    Detached e (ms.foldl (fun e i => detachMember (c i) e i) e) ms.toFinset ms.toFinset := by
  have hdet := detachMembers_spec hs hnd (Detached.start hs hz ms.toFinset) (by simp)
    (fun i hi r hr => by rw [hscc i hi r hr, List.mem_toFinset])
  rwa [Finset.empty_union] at hdet

theorem reclaimCycleComponent_phases (hs : e.tab.Sound e.pool) (hz : e.ZeroOk) {ms : List ℕ}
    (hnd : ms.Nodup)
    (hscc : ∀ i ∈ ms, ∀ r ∈ e.tab.outRecs i, e.sccOf r.dst.index = some s ↔ r.dst.index ∈ ms) :
    Detached e (ms.foldl (detachMember s) e) ms.toFinset ms.toFinset :=
  reclaimMembers_phases (c := fun _ => s) hs hz hnd hscc

/-- Components into which no edge leads from outside can be freed, whatever the candidates are. -/
theorem reclaimMembers_reclaimed {c : ℕ → ℕ} (hs : e.tab.Sound e.pool) (hz : e.ZeroOk)
    {ms : List ℕ} (hnd : ms.Nodup) (hl : ∀ i ∈ ms, e.pool.isLiveAt i = true)
    (hin : ∀ i, ∀ j ∈ ms, e.tab.Edge i j → i ∈ ms)
    (hscc : ∀ i ∈ ms, ∀ r ∈ e.tab.outRecs i,
      e.sccOf r.dst.index = some (c i) ↔ r.dst.index ∈ ms) :
    Reclaimed e (e.reclaimMembers c ms) ms.toFinset := by
  have hdet := reclaimMembers_phases hs hz hnd hscc
  have hdef : e.reclaimMembers c ms =
    ms.foldl freeMember (ms.foldl (fun e i => detachMember (c i) e i) e) := rfl
  generalize ms.foldl (fun e i => detachMember (c i) e i) e = e₁ at *
  obtain ⟨L, hrel, -⟩ := hdet.released
  obtain ⟨⟨h1, h2, h3, h4, h5, h6, h7, h8⟩, ⟨k1, k2, k3, k4, k5, -, -⟩, hclr, hoff⟩ :=
    freeMembers_spec (e := e₁) hnd (by rw [hrel.pool]; exact hl)
      (fun i hi => by rw [hdet.outRecs, if_pos (List.mem_toFinset.mpr hi)])
  rw [← hdef] at h1 h2 h3 h4 h5 h6 h7 h8 k1 k2 k3 k4 k5 hclr hoff
  generalize e.reclaimMembers c ms = e₂ at *
  rw [hrel.pool] at h1 h2 h3 h4 h5 h6 h7 h8
  have hoff' : ∀ j, j ∉ ms.toFinset → j ∉ ms := fun j hj hm => hj (List.mem_toFinset.mpr hm)
  have hfreed : Freed e e₂ ms.toFinset := by
    refine
      { capacity := h1, isLiveAt := fun j => by rw [h5]; simp
        gen := fun j hj => (h6 j (hoff' j hj)).1, avail := fun j hj => (h6 j (hoff' j hj)).2
        gen_le := h7, recycle := fun h j hj => h8 h j (List.mem_toFinset.mp hj)
        regime := h2, tokens := h3, poolSound := h4, kind := k1.trans hrel.kind
        owner := k2.trans hrel.owner, was := fun j hj => hl j (List.mem_toFinset.mp hj)
        root := fun j hj => ?_, outRecs := fun j hj => ?_, inRecs := fun j hj => ?_ }
    · rw [(hoff j (hoff' j hj)).1, hrel.root]
    · rw [(hoff j (hoff' j hj)).2.2.1, hdet.outRecs, if_neg hj]
    · rw [(hoff j (hoff' j hj)).2.2.2, hdet.inRecs]
  refine ⟨hfreed, hfreed.sound hs (fun j hj => (hclr j (List.mem_toFinset.mp hj)).1)
    (fun j hj => (hclr j (List.mem_toFinset.mp hj)).2.2.1)
    (fun j hj => (hclr j (List.mem_toFinset.mp hj)).2.2.2) (fun j => ?_) (fun i j hj hij => ?_),
    hrel.zeroOk.of_eq k4 k5, k3.trans hrel.detector⟩
  · by_cases hj : j ∈ ms
    · rw [(hclr j hj).2.1, (hclr j hj).2.2.2]
      rfl
    · rw [(hoff j hj).2.1, (hoff j hj).2.2.2, hdet.edge j (by simpa using hj)]
  · exact List.mem_toFinset.mpr (hin i j (List.mem_toFinset.mp hj) hij)

theorem reclaimCycleComponent_reclaimed (hs : e.tab.Sound e.pool) (hz : e.ZeroOk) {ms : List ℕ}
    (hnd : ms.Nodup) (hl : ∀ i ∈ ms, e.pool.isLiveAt i = true)
    (hin : ∀ i, ∀ j ∈ ms, e.tab.Edge i j → i ∈ ms)
    (hscc : ∀ i ∈ ms, ∀ r ∈ e.tab.outRecs i, e.sccOf r.dst.index = some s ↔ r.dst.index ∈ ms) :
    Reclaimed e (e.reclaimCycleComponent s ms) ms.toFinset :=
  reclaimMembers_reclaimed (c := fun _ => s) hs hz hnd hl hin hscc

/-- Freeing components into which no edge leads from outside. -/
theorem reclaimMembers_spec {c : ℕ → ℕ} (hs : e.tab.Sound e.pool) (hz : e.ZeroOk) {ms : List ℕ}
    (hnd : ms.Nodup) (hl : ∀ i ∈ ms, e.pool.isLiveAt i = true)
    (hin : ∀ i, ∀ j ∈ ms, e.tab.Edge i j → i ∈ ms) (hout : ∀ i ∈ e.zeroStack, i ∉ ms)
    (hscc : ∀ i ∈ ms, ∀ r ∈ e.tab.outRecs i,
      e.sccOf r.dst.index = some (c i) ↔ r.dst.index ∈ ms) :
    Freed e (e.reclaimMembers c ms) ms.toFinset ∧
      (e.reclaimMembers c ms).tab.Sound (e.reclaimMembers c ms).pool ∧
      Remarked e (e.reclaimMembers c ms) ms.toFinset := by
  obtain ⟨hfreed, hsound, -, -⟩ := reclaimMembers_reclaimed hs hz hnd hl hin hscc
  have hdet := reclaimMembers_phases hs hz hnd hscc
  obtain ⟨L, hrel, hL⟩ := hdet.released
  obtain ⟨-, ⟨-, -, k3, k4, k5, k6, k7⟩, -, hoff⟩ :=
    freeMembers_spec (e := ms.foldl (fun e i => detachMember (c i) e i) e) hnd
      (by rw [hrel.pool]; exact hl)
      (fun i hi => by rw [hdet.outRecs, if_pos (List.mem_toFinset.mpr hi)])
  have hoff' : ∀ j, j ∉ ms.toFinset → j ∉ ms := fun j hj hm => hj (List.mem_toFinset.mpr hm)
  refine ⟨hfreed, hsound, hrel.remarked rfl rfl rfl (fun _ h => h) (fun _ _ h => h) hL
    (fun j hj => by simpa using hout j hj) k3 k4 k5 k6
    (fun j => by rw [List.mem_toFinset]; exact k7 j)
    (fun j hj => ?_) fun j hj => ?_⟩
  · unfold RefTable.total reclaimMembers
    rw [(hoff j (hoff' j hj)).1, (hoff j (hoff' j hj)).2.1]
  · unfold RefTable.hasOutgoing reclaimMembers
    rw [(hoff j (hoff' j hj)).2.2.1]

/-- Freeing a component into which no edge leads from outside. -/
theorem reclaimCycleComponent_spec (hs : e.tab.Sound e.pool) (hz : e.ZeroOk) {ms : List ℕ}
    (hnd : ms.Nodup) (hl : ∀ i ∈ ms, e.pool.isLiveAt i = true)
    (hin : ∀ i, ∀ j ∈ ms, e.tab.Edge i j → i ∈ ms) (hout : ∀ i ∈ e.zeroStack, i ∉ ms)
    (hscc : ∀ i ∈ ms, ∀ r ∈ e.tab.outRecs i, e.sccOf r.dst.index = some s ↔ r.dst.index ∈ ms) :
    Freed e (e.reclaimCycleComponent s ms) ms.toFinset ∧
      (e.reclaimCycleComponent s ms).tab.Sound (e.reclaimCycleComponent s ms).pool ∧
      Remarked e (e.reclaimCycleComponent s ms) ms.toFinset :=
  reclaimMembers_spec (c := fun _ => s) hs hz hnd hl hin hout hscc

end Component

end AarcEngine

end Loxis.Aarc
