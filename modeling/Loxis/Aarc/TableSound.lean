import Mathlib.Data.Finset.Range
import Loxis.Aarc.RefTable

/-! # Table invariants

Every edge is one record in two lists, so a record occurs equally often in the
out-list of its source and in the in-list of its target. A sound table also agrees
with the pool: only live cells have roots or edges, and the edge count of a slot is
the length of its in-list.
-/

namespace Loxis.Aarc

open Function

namespace RefTable

variable {t : RefTable} {p : CellPool} {i j : ℕ}

/-- Records are linked into the out-list of their source and the in-list of their target. -/
structure Linked (t : RefTable) : Prop where
  out_src : ∀ i, ∀ r ∈ t.outRecs i, r.src.index = i
  in_dst : ∀ i, ∀ r ∈ t.inRecs i, r.dst.index = i
  count_eq : ∀ r, (t.outRecs r.src.index).count r = (t.inRecs r.dst.index).count r

theorem Linked.mem_iff (h : t.Linked) (r : EdgeRec) :
    r ∈ t.outRecs r.src.index ↔ r ∈ t.inRecs r.dst.index := by
  rw [← List.count_pos_iff, ← List.count_pos_iff, h.count_eq]

theorem Linked.mem_in (h : t.Linked) {r : EdgeRec} (hr : r ∈ t.outRecs i) :
    r ∈ t.inRecs r.dst.index := by
  obtain rfl := h.out_src i r hr
  exact (h.mem_iff r).mp hr

theorem Linked.mem_out (h : t.Linked) {r : EdgeRec} (hr : r ∈ t.inRecs i) :
    r ∈ t.outRecs r.src.index := by
  obtain rfl := h.in_dst i r hr
  exact (h.mem_iff r).mpr hr

theorem Linked.count_out_of_ne (h : t.Linked) {r : EdgeRec} (hr : r.src.index ≠ i) :
    (t.outRecs i).count r = 0 :=
  List.count_eq_zero.mpr fun hm => hr (h.out_src i r hm)

theorem Linked.count_in_of_ne (h : t.Linked) {r : EdgeRec} (hr : r.dst.index ≠ i) :
    (t.inRecs i).count r = 0 :=
  List.count_eq_zero.mpr fun hm => hr (h.in_dst i r hm)

theorem Linked.edge_iff_in (h : t.Linked) :
    t.Edge i j ↔ ∃ r ∈ t.inRecs j, r.src.index = i := by
  constructor
  · rintro ⟨r, hr, rfl⟩
    exact ⟨r, h.mem_in hr, h.out_src i r hr⟩
  · rintro ⟨r, hr, rfl⟩
    exact ⟨r, h.mem_out hr, h.in_dst j r hr⟩

/-- The edges between two slots are counted alike from both ends. -/
theorem Linked.count_between (h : t.Linked) (i j : ℕ) :
    (t.outRecs i).countP (·.dst.index = j) = (t.inRecs j).countP (·.src.index = i) := by
  rw [List.countP_eq_length_filter, List.countP_eq_length_filter]
  refine (List.perm_iff_count.mpr fun r => ?_).length_eq
  by_cases hi : r.src.index = i
  · by_cases hj : r.dst.index = j
    · rw [List.count_filter (by simp [hj]), List.count_filter (by simp [hi]), ← hi, ← hj, h.count_eq]
    · rw [List.count_eq_zero.mpr, h.count_in_of_ne hj |> fun hc => List.count_eq_zero.mpr fun hm =>
        List.count_eq_zero.mp hc (List.mem_filter.mp hm).1]
      simp [hj]
  · rw [List.count_eq_zero.mpr fun hm => List.count_eq_zero.mp (h.count_out_of_ne hi)
      (List.mem_filter.mp hm).1, List.count_eq_zero.mpr]
    simp [hi]

/-- The edges into `j` are those from `i` and the others. -/
theorem Linked.length_inRecs (h : t.Linked) (i j : ℕ) :
    (t.inRecs j).length =
      (t.outRecs i).countP (·.dst.index = j) + ((t.inRecs j).filter (·.src.index ≠ i)).length := by
  rw [h.count_between, List.length_eq_countP_add_countP (·.src.index = i),
    ← List.countP_eq_length_filter]
  congr 2
  funext r
  simp

theorem count_outs (p : ObjHandle → Bool) (i j : ℕ) :
    (((t.outs i).filter p).map ObjHandle.index).count j =
      (t.outRecs i).countP fun r => decide (r.dst.index = j) && p r.dst := by
  unfold outs
  rw [List.filter_map, List.map_map, List.count_eq_countP, List.countP_map, List.countP_filter]
  refine List.countP_congr fun r _ => ?_
  simp

section ClearOuts

theorem root_clearOuts : (t.clearOuts i).root = t.root := (root_foldl_unlink _ t).1

theorem edge_clearOuts : (t.clearOuts i).edge = t.edge := (root_foldl_unlink _ t).2

theorem Linked.outRecs_clearOuts (h : t.Linked) (j : ℕ) :
    (t.clearOuts i).outRecs j = if j = i then [] else t.outRecs j := by
  unfold clearOuts
  rw [outRecs_foldl_unlink]
  split
  · next hj =>
    subst hj
    rw [List.filter_eq_self.mpr fun r hr => by simpa using h.out_src j r hr,
      diff_eq_filter fun _ _ => rfl]
    simp
  · next hj =>
    rw [List.filter_eq_nil_iff.mpr fun r hr => by simpa [h.out_src i r hr] using Ne.symm hj,
      List.diff_nil]

theorem Linked.inRecs_clearOuts (h : t.Linked) (j : ℕ) :
    (t.clearOuts i).inRecs j = (t.inRecs j).filter (·.src.index ≠ i) := by
  unfold clearOuts
  rw [inRecs_foldl_unlink, diff_eq_filter]
  · refine List.filter_congr fun r hr => ?_
    have hd := h.in_dst j r hr
    have : r ∈ t.outRecs i ↔ r.src.index = i := by
      constructor
      · exact h.out_src i r
      · rintro rfl; exact h.mem_out hr
    simp [hd, this]
  · intro r hr
    obtain ⟨hr, hd⟩ := List.mem_filter.mp hr
    have hd : r.dst.index = j := by simpa using hd
    rw [List.count_filter (by simpa using hd), ← h.out_src i r hr, h.count_eq, hd]

theorem Linked.clearOuts (h : t.Linked) (i : ℕ) : (t.clearOuts i).Linked := by
  refine ⟨fun j r hr => ?_, fun j r hr => ?_, fun r => ?_⟩
  · rw [h.outRecs_clearOuts] at hr
    split at hr
    · simp at hr
    · exact h.out_src j r hr
  · rw [h.inRecs_clearOuts] at hr
    exact h.in_dst j r (List.mem_of_mem_filter hr)
  · rw [h.outRecs_clearOuts, h.inRecs_clearOuts]
    split
    · next hs =>
      rw [List.count_nil, eq_comm, List.count_eq_zero]
      simp [hs]
    · next hs => rw [List.count_filter (by simpa using hs), h.count_eq]

end ClearOuts

section Updates

theorem Linked.addOut (h : t.Linked) (a b : ObjHandle) : (t.addOut a b).Linked := by
  refine ⟨fun j r hr => ?_, fun j r hr => ?_, fun r => ?_⟩
  · simp only [RefTable.addOut, update_apply] at hr
    split at hr
    · next hj =>
      rcases List.mem_cons.mp hr with rfl | hr
      · exact hj.symm
      · exact (h.out_src _ r hr).trans hj.symm
    · exact h.out_src j r hr
  · simp only [RefTable.addOut, update_apply] at hr
    split at hr
    · next hj =>
      rcases List.mem_cons.mp hr with rfl | hr
      · exact hj.symm
      · exact (h.in_dst _ r hr).trans hj.symm
    · exact h.in_dst j r hr
  · simp only [RefTable.addOut, update_apply]
    by_cases hr : r = ⟨a, b⟩
    · subst hr
      simp [h.count_eq ⟨a, b⟩]
    · have h1 : (if r.src.index = a.index then ⟨a, b⟩ :: t.outRecs a.index
          else t.outRecs r.src.index).count r = (t.outRecs r.src.index).count r := by
        split
        · next he => rw [List.count_cons_of_ne (Ne.symm hr), he]
        · rfl
      have h2 : (if r.dst.index = b.index then ⟨a, b⟩ :: t.inRecs b.index
          else t.inRecs r.dst.index).count r = (t.inRecs r.dst.index).count r := by
        split
        · next he => rw [List.count_cons_of_ne (Ne.symm hr), he]
        · rfl
      rw [h1, h2, h.count_eq]

theorem Linked.unlink (h : t.Linked) (q : EdgeRec) : (t.unlink q).Linked := by
  refine ⟨fun j r hr => ?_, fun j r hr => ?_, fun r => ?_⟩
  · simp only [RefTable.unlink, update_apply] at hr
    split at hr
    · next hj => exact (h.out_src _ r (List.mem_of_mem_erase hr)).trans hj.symm
    · exact h.out_src j r hr
  · simp only [RefTable.unlink, update_apply] at hr
    split at hr
    · next hj => exact (h.in_dst _ r (List.mem_of_mem_erase hr)).trans hj.symm
    · exact h.in_dst j r hr
  · simp only [RefTable.unlink, update_apply]
    by_cases hr : r = q
    · subst hr
      simp [h.count_eq r]
    · have h1 : (if r.src.index = q.src.index then (t.outRecs q.src.index).erase q
          else t.outRecs r.src.index).count r = (t.outRecs r.src.index).count r := by
        split
        · next he => rw [List.count_erase_of_ne hr, he]
        · rfl
      have h2 : (if r.dst.index = q.dst.index then (t.inRecs q.dst.index).erase q
          else t.inRecs r.dst.index).count r = (t.inRecs r.dst.index).count r := by
        split
        · next he => rw [List.count_erase_of_ne hr, he]
        · rfl
      rw [h1, h2, h.count_eq]

end Updates

/-- The table agrees with the pool. -/
structure Sound (p : CellPool) (t : RefTable) : Prop extends Linked t where
  dead_root : ∀ i, p.isLiveAt i = false → t.root i = 0
  root_nonneg : ∀ i, 0 ≤ t.root i
  valid_src : ∀ i, ∀ r ∈ t.outRecs i, p.valid r.src = true
  valid_dst : ∀ i, ∀ r ∈ t.outRecs i, p.valid r.dst = true
  edge_eq : ∀ i, t.edge i = (t.inRecs i).length

theorem init_sound (p : CellPool) : Sound p init := by
  refine { out_src := ?_, in_dst := ?_, count_eq := ?_, dead_root := ?_, root_nonneg := ?_,
           valid_src := ?_, valid_dst := ?_, edge_eq := ?_ } <;> simp [init]

theorem Sound.edge_live (h : Sound p t) (hij : t.Edge i j) :
    p.isLiveAt i = true ∧ p.isLiveAt j = true := by
  obtain ⟨r, hr, rfl⟩ := hij
  rw [← h.out_src i r hr]
  exact ⟨(CellPool.valid_iff.mp (h.valid_src i r hr)).1,
    (CellPool.valid_iff.mp (h.valid_dst i r hr)).1⟩

theorem Sound.edge_lt (h : Sound p t) (hij : t.Edge i j) :
    i ∈ Finset.range p.capacity ∧ j ∈ Finset.range p.capacity := by
  obtain ⟨hi, hj⟩ := h.edge_live hij
  simp only [Finset.mem_range]
  exact ⟨(CellPool.isLiveAt_iff.mp hi).1, (CellPool.isLiveAt_iff.mp hj).1⟩

theorem Sound.edge_nonneg (h : Sound p t) (i : ℕ) : 0 ≤ t.edge i := by
  rw [h.edge_eq]; exact Int.natCast_nonneg _

theorem Sound.edge_pos_iff (h : Sound p t) : 0 < t.edge j ↔ ∃ i, t.Edge i j := by
  rw [h.edge_eq, Int.natCast_pos, List.length_pos_iff_exists_mem]
  simp only [h.edge_iff_in]
  exact ⟨fun ⟨r, hr⟩ => ⟨_, r, hr, rfl⟩, fun ⟨_, r, hr, _⟩ => ⟨r, hr⟩⟩

theorem Sound.total_eq_zero (h : Sound p t) :
    t.total i = 0 ↔ t.root i = 0 ∧ t.edge i = 0 := by
  have h1 := h.root_nonneg i
  have h2 := h.edge_nonneg i
  unfold total
  omega

theorem Sound.total_nonneg (h : Sound p t) (i : ℕ) : 0 ≤ t.total i :=
  add_nonneg (h.root_nonneg i) (h.edge_nonneg i)

theorem Sound.no_edge_of_total (h : Sound p t) (h0 : t.total j = 0) : ¬ t.Edge i j := fun hij =>
  absurd (h.total_eq_zero.mp h0).2 (h.edge_pos_iff.mpr ⟨i, hij⟩).ne'

theorem Sound.dead_out (h : Sound p t) (hd : p.isLiveAt i = false) : t.outRecs i = [] := by
  by_contra hn
  obtain ⟨r, hr⟩ := List.exists_mem_of_ne_nil _ hn
  have := (h.edge_live ⟨r, hr, rfl⟩).1
  rw [hd] at this
  simp at this

theorem Sound.dead_edge (h : Sound p t) (hd : p.isLiveAt i = false) : t.edge i = 0 := by
  by_contra hn
  obtain ⟨j, hj⟩ := h.edge_pos_iff.mp (lt_of_le_of_ne (h.edge_nonneg i) (Ne.symm hn))
  have := (h.edge_live hj).2
  rw [hd] at this
  simp at this

section Applied

variable {m : GCMessage}

theorem root_nonneg_subRoot (h : ∀ i, 0 ≤ t.root i) (n : ℕ) (j : ℕ) :
    0 ≤ (t.subRoot i n).1.root j := by
  unfold subRoot
  split <;> simp only [update_apply] <;> split
  · exact le_rfl
  · exact h j
  · omega
  · exact h j

theorem Sound.setRoot (h : Sound p t) {f : ℕ → ℤ} (h0 : ∀ i, 0 ≤ f i)
    (hd : ∀ i, p.isLiveAt i = false → f i = 0) : Sound p { t with root := f } :=
  { h with dead_root := hd, root_nonneg := h0 }

/-- A removal of roots that are there takes exactly these. -/
theorem subRoot_eq {n : ℕ} (hn : (n : ℤ) ≤ t.root i) :
    t.subRoot i n = ({ t with root := update t.root i (t.root i - n) }, true) := by
  unfold subRoot
  rw [if_neg (not_lt.mpr hn)]

theorem removeOut_eq {a b : ObjHandle} (hm : ⟨a, b⟩ ∈ t.outRecs a.index) :
    t.removeOut a b = (t.unlink ⟨a, b⟩, true) := if_pos hm

theorem removeOut_eq_none {a b : ObjHandle} (hm : ⟨a, b⟩ ∉ t.outRecs a.index) :
    t.removeOut a b = (t, false) := if_neg hm

/-- In a sound table the removal of a recorded edge succeeds and takes one reference. -/
theorem Sound.subEdge_unlink (h : Sound p t) {r : EdgeRec} (hm : r ∈ t.outRecs r.src.index) :
    (t.unlink r).subEdgeTo r.dst.index = ({ t.unlink r with
      edge := update t.edge r.dst.index (t.edge r.dst.index - 1) }, true) := by
  have h0 : 0 < t.edge r.dst.index := h.edge_pos_iff.mpr ⟨_, r, hm, rfl⟩
  unfold subEdgeTo
  rw [if_neg (by simpa using h0)]
  rfl

theorem Sound.addEdge (h : Sound p t) {a b : ObjHandle} (ha : p.valid a = true)
    (hb : p.valid b = true) : Sound p ((t.addEdgeTo b.index).addOut a b) := by
  refine
    { toLinked := (⟨h.out_src, h.in_dst, h.count_eq⟩ : (t.addEdgeTo b.index).Linked).addOut a b
      dead_root := h.dead_root, root_nonneg := h.root_nonneg, valid_src := fun i r hr => ?_,
      valid_dst := fun i r hr => ?_, edge_eq := fun i => ?_ }
  · simp only [addOut, addEdgeTo, update_apply] at hr
    split at hr
    · rcases List.mem_cons.mp hr with rfl | hr
      · exact ha
      · exact h.valid_src _ r hr
    · exact h.valid_src i r hr
  · simp only [addOut, addEdgeTo, update_apply] at hr
    split at hr
    · rcases List.mem_cons.mp hr with rfl | hr
      · exact hb
      · exact h.valid_dst _ r hr
    · exact h.valid_dst i r hr
  · simp only [addOut, addEdgeTo, update_apply]
    split
    · rw [List.length_cons, h.edge_eq]; push_cast; rfl
    · exact h.edge_eq i

theorem Sound.removeEdge (h : Sound p t) {r : EdgeRec} (hm : r ∈ t.outRecs r.src.index) :
    Sound p { t.unlink r with
      edge := update t.edge r.dst.index (t.edge r.dst.index - 1) } := by
  have hl := h.toLinked.unlink r
  refine
    { out_src := hl.out_src, in_dst := hl.in_dst, count_eq := hl.count_eq
      dead_root := h.dead_root, root_nonneg := h.root_nonneg, valid_src := fun i q hq => ?_,
      valid_dst := fun i q hq => ?_, edge_eq := fun i => ?_ }
  · simp only [unlink, update_apply] at hq
    split at hq
    · exact h.valid_src _ q (List.mem_of_mem_erase hq)
    · exact h.valid_src i q hq
  · simp only [unlink, update_apply] at hq
    split at hq
    · exact h.valid_dst _ q (List.mem_of_mem_erase hq)
    · exact h.valid_dst i q hq
  · simp only [unlink, update_apply]
    split
    · have hin := h.mem_in hm
      have hpos := List.length_pos_of_mem hin
      rw [List.length_erase_of_mem hin, h.edge_eq]
      omega
    · exact h.edge_eq i

/-- Every message keeps the table sound. -/
theorem Sound.applied (h : Sound p t) (m : GCMessage) : Sound p (t.applied p m) := by
  have hdead : ∀ {x : ObjHandle}, p.valid x = true → ∀ i, p.isLiveAt i = false → i ≠ x.index := by
    rintro x hx i hi rfl
    rw [(CellPool.valid_iff.mp hx).1] at hi
    simp at hi
  unfold RefTable.applied
  split
  · split
    · next hv =>
      refine h.setRoot (fun i => ?_) fun i hi => ?_
      · rw [update_apply]
        have := h.root_nonneg
        split
        · have := h.root_nonneg m.b.index; omega
        · exact h.root_nonneg i
      · rw [update_of_ne (hdead hv i hi), h.dead_root i hi]
    · exact h
  · split
    · next hv =>
      have h0 := root_nonneg_subRoot (i := m.b.index) h.root_nonneg m.count
      unfold subRoot at h0 ⊢
      split at h0
      · next hc =>
        rw [if_pos hc]
        exact h.setRoot h0 fun i hi => by
          rw [update_of_ne (hdead hv i hi), h.dead_root i hi]
      · next hc =>
        rw [if_neg hc]
        exact h.setRoot h0 fun i hi => by
          rw [update_of_ne (hdead hv i hi), h.dead_root i hi]
    · exact h
  · split
    · next hv =>
      rw [Bool.and_eq_true] at hv
      exact h.addEdge hv.1 hv.2
    · exact h
  · by_cases hm : ⟨m.a, m.b⟩ ∈ t.outRecs m.a.index
    · have hb : p.valid m.b = true := h.valid_dst _ _ hm
      rw [removeOut_eq hm, hb, h.subEdge_unlink hm]
      split
      · exact h.removeEdge hm
      · exact h
    · rw [removeOut_eq_none hm]
      simpa using h
  · exact h
  · exact h

end Applied

end RefTable

end Loxis.Aarc
