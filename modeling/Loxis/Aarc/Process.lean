import Loxis.Aarc.Sweep

/-! # What a message does to the marks

A message either takes a reference away and examines its target, or takes nothing
away and marks nothing. Either way it keeps the engine ready for a sweep, and every
live cell watched, as long as it does not revive a candidate behind the marks.
-/

namespace Loxis.Aarc

open Function Loxis.Graph

namespace AarcEngine

variable {e : AarcEngine} {m : GCMessage} {i j : ℕ}

section Frame

@[simp] theorem mark_pool : (e.mark i).pool = e.pool := by
  unfold mark markSuspect; split <;> (try split) <;> simp
@[simp] theorem mark_tab : (e.mark i).tab = e.tab := by
  unfold mark markSuspect; split <;> (try split) <;> simp
@[simp] theorem mark_detector : (e.mark i).detector = e.detector := by
  unfold mark markSuspect markZero setSuspect; split <;> (try split) <;> (try split) <;> rfl
@[simp] theorem mark_kind : (e.mark i).kind = e.kind := by
  unfold mark markSuspect markZero setSuspect; split <;> (try split) <;> (try split) <;> rfl
@[simp] theorem mark_owner : (e.mark i).owner = e.owner := by
  unfold mark markSuspect markZero setSuspect; split <;> (try split) <;> (try split) <;> rfl

theorem process_frame : (e.process m).pool = e.pool ∧ (e.process m).kind = e.kind ∧
    (e.process m).owner = e.owner ∧ (e.process m).detector = e.detector := by
  unfold process
  cases m.op <;> simp only <;> (try split_ifs) <;> simp [setTab, dropStale]

theorem process_pool : (e.process m).pool = e.pool := process_frame.1

theorem subEdgeTo_of_fail {t : RefTable} (h : (t.subEdgeTo i).2 = false) :
    (t.subEdgeTo i).1 = t := by
  unfold RefTable.subEdgeTo at h ⊢
  split_ifs with h0
  · rfl
  · simp [h0] at h

/-- The table after a message does not depend on the scratch state. -/
theorem process_tab : (e.process m).tab = e.tab.applied e.pool m := by
  unfold process RefTable.applied live
  cases m.op with
  | rootAdd => simp only; split_ifs <;> rfl
  | rootRemove => simp only; split_ifs <;> simp_all [setTab, dropStale]
  | rootCheck => simp only; split_ifs <;> simp [dropStale]
  | edgeAdd => simp only; split_ifs <;> simp_all [setTab, dropStale]
  | edgeRemove =>
    simp only
    split_ifs <;> simp_all [setTab, dropStale, subEdgeTo_of_fail]
  | terminate => rfl

end Frame

section Loss

/-- The message takes a reference to `m.b` away, or asks for it to be examined. -/
def Loses (e : AarcEngine) (m : GCMessage) : Prop :=
  match m.op with
  | .rootRemove => e.live m.b = true ∧ (m.count : ℤ) ≤ e.tab.root m.b.index
  | .rootCheck => e.live m.b = true
  | .edgeRemove => e.live m.a = true ∧ ⟨m.a, m.b⟩ ∈ e.tab.outRecs m.a.index
  | _ => False

/-- A root removal takes no more roots than there are. -/
def Fits (e : AarcEngine) (m : GCMessage) : Prop :=
  m.op = .rootRemove → e.live m.b = true → (m.count : ℤ) ≤ e.tab.root m.b.index

/-- A message that takes a reference away is the table update and the examination. -/
theorem process_of_loses (hs : e.tab.Sound e.pool) (h : e.Loses m) :
    e.process m = (e.setTab (e.tab.applied e.pool m)).mark m.b.index := by
  unfold Loses at h
  unfold process RefTable.applied
  split at h
  · next hop =>
    have hv : e.pool.valid m.b = true := h.1
    simp only [hop, live, hv, RefTable.subRoot_eq h.2]
    simp
  · next hop =>
    have hv : e.pool.valid m.b = true := h
    simp only [hop, live, hv]
    simp [setTab]
  · next hop =>
    have hv : e.pool.valid m.a = true := h.1
    have hb : e.pool.valid m.b = true := hs.valid_dst _ _ h.2
    simp only [hop, live, hv, RefTable.removeOut_eq h.2, hb, setTab, hs.subEdge_unlink h.2]
    simp
  · exact h.elim

/-- Any other message leaves the marks alone. -/
theorem process_of_not_loses (hf : e.Fits m) (h : ¬ e.Loses m) :
    (e.process m).zeroMark = e.zeroMark ∧ (e.process m).zeroStack = e.zeroStack ∧
    (e.process m).suspectMark = e.suspectMark ∧
    (e.process m).suspectStack = e.suspectStack := by
  unfold Loses at h
  unfold process
  cases hop : m.op with
  | rootAdd =>
    simp only
    split <;> exact ⟨rfl, rfl, rfl, rfl⟩
  | rootRemove =>
    rw [hop] at h
    simp only
    split
    · exact ⟨rfl, rfl, rfl, rfl⟩
    · next hv =>
      simp only [Bool.not_eq_true', Bool.not_eq_false] at hv
      exact absurd ⟨hv, hf hop hv⟩ h
  | rootCheck =>
    rw [hop] at h
    simp only
    split
    · exact ⟨rfl, rfl, rfl, rfl⟩
    · next hv =>
      simp only [Bool.not_eq_true', Bool.not_eq_false] at hv
      exact absurd hv h
  | edgeAdd =>
    simp only
    split <;> exact ⟨rfl, rfl, rfl, rfl⟩
  | edgeRemove =>
    rw [hop] at h
    simp only
    split
    · exact ⟨rfl, rfl, rfl, rfl⟩
    · next hv =>
      simp only [Bool.not_eq_true', Bool.not_eq_false] at hv
      have hm : ⟨m.a, m.b⟩ ∉ e.tab.outRecs m.a.index := fun hm => h ⟨hv, hm⟩
      simp only [RefTable.removeOut_eq_none hm]
      exact ⟨rfl, rfl, rfl, rfl⟩
  | terminate => exact ⟨rfl, rfl, rfl, rfl⟩

end Loss

section Table

/-- A message touches the counts of its target only. -/
theorem applied_of_ne (hs : e.tab.Sound e.pool) (hj : j ≠ m.b.index) :
    (e.tab.applied e.pool m).root j = e.tab.root j ∧
    (e.tab.applied e.pool m).edge j = e.tab.edge j := by
  unfold RefTable.applied
  cases m.op with
  | rootAdd => simp only; split_ifs <;> simp [RefTable.addRoot, hj]
  | rootRemove =>
    simp only
    unfold RefTable.subRoot
    split_ifs <;> simp [hj]
  | rootCheck => exact ⟨rfl, rfl⟩
  | edgeAdd => simp only; split_ifs <;> simp [RefTable.addOut, RefTable.addEdgeTo, hj]
  | edgeRemove =>
    simp only
    by_cases hm : ⟨m.a, m.b⟩ ∈ e.tab.outRecs m.a.index
    · rw [RefTable.removeOut_eq hm, hs.valid_dst _ _ hm, hs.subEdge_unlink hm]
      split_ifs <;> simp [hj]
    · rw [RefTable.removeOut_eq_none hm]
      simp
  | terminate => exact ⟨rfl, rfl⟩

theorem total_applied_of_ne (hs : e.tab.Sound e.pool) (hj : j ≠ m.b.index) :
    (e.tab.applied e.pool m).total j = e.tab.total j := by
  unfold RefTable.total
  rw [(applied_of_ne hs hj).1, (applied_of_ne hs hj).2]

/-- A message that takes a reference away adds no edge and only loses edges into its target. -/
theorem edge_of_loses (hs : e.tab.Sound e.pool) (h : e.Loses m) (x y : ℕ) :
    ((e.tab.applied e.pool m).Edge x y → e.tab.Edge x y) ∧
    (e.tab.Edge x y → (e.tab.applied e.pool m).Edge x y ∨ y = m.b.index) := by
  unfold Loses at h
  unfold RefTable.applied
  cases hop : m.op <;> rw [hop] at h <;> simp only at h ⊢
  · have hv : e.pool.valid m.b = true := h.1
    rw [if_pos hv, RefTable.subRoot_eq h.2]
    exact ⟨id, Or.inl⟩
  · exact ⟨id, Or.inl⟩
  · have hv : e.pool.valid m.a = true := h.1
    rw [RefTable.removeOut_eq h.2, hv, hs.valid_dst _ _ h.2, hs.subEdge_unlink h.2]
    simp only [Bool.and_self, if_true]
    refine ⟨fun ⟨r, hr, hy⟩ => ⟨r, ?_, hy⟩, fun ⟨r, hr, hy⟩ => ?_⟩
    · simp only [RefTable.unlink, update_apply] at hr
      split at hr
      · next hx => rw [hx]; exact List.mem_of_mem_erase hr
      · exact hr
    · by_cases hrm : r = ⟨m.a, m.b⟩
      · exact Or.inr (by rw [← hy, hrm])
      · refine Or.inl ⟨r, ?_, hy⟩
        simp only [RefTable.unlink, update_apply]
        split
        · next hx => exact (List.mem_erase_of_ne hrm).mpr (hx ▸ hr)
        · exact hr

/-- Any other message loses no edge, root or reference. -/
theorem edge_of_not_loses (hf : e.Fits m) (h : ¬ e.Loses m) :
    (∀ x y, e.tab.Edge x y → (e.tab.applied e.pool m).Edge x y) ∧
    (∀ x, e.tab.root x ≤ (e.tab.applied e.pool m).root x) ∧
    (∀ x, e.tab.edge x ≤ (e.tab.applied e.pool m).edge x) ∧
    ∀ x, e.tab.edge x < (e.tab.applied e.pool m).edge x →
      m.op = .edgeAdd ∧ e.live m.b = true := by
  unfold Loses at h
  unfold RefTable.applied
  cases hop : m.op <;> rw [hop] at h <;> simp only at h ⊢
  · split_ifs
    · refine ⟨fun _ _ h => h, fun x => ?_, fun _ => le_rfl, fun _ hx => absurd hx (lt_irrefl _)⟩
      simp only [RefTable.addRoot, update_apply]
      split
      · next hx => rw [hx]; omega
      · exact le_rfl
    · simp
  · have hv : e.pool.valid m.b = false := Bool.eq_false_iff.mpr fun hv => h ⟨hv, hf hop hv⟩
    simp [hv]
  · simp
  · split_ifs with hv
    · refine ⟨fun x y ⟨r, hr, hy⟩ => ⟨r, ?_, hy⟩, fun _ => le_rfl, fun x => ?_, fun _ _ =>
        ⟨trivial, ((Bool.and_eq_true _ _).mp hv).2⟩⟩
      · simp only [RefTable.addOut, RefTable.addEdgeTo, update_apply]
        split
        · next hx => exact List.mem_cons_of_mem _ (hx ▸ hr)
        · exact hr
      · simp only [RefTable.addOut, RefTable.addEdgeTo, update_apply]
        split
        · next hx => rw [hx]; omega
        · exact le_rfl
    · simp
  · have : ¬ (e.pool.valid m.a = true ∧ ⟨m.a, m.b⟩ ∈ e.tab.outRecs m.a.index) := h
    by_cases hm : ⟨m.a, m.b⟩ ∈ e.tab.outRecs m.a.index
    · rw [Bool.eq_false_iff.mpr fun hv => this ⟨hv, hm⟩]
      simp
    · rw [RefTable.removeOut_eq_none hm]
      simp
  · simp

end Table

section Ready

/-- An engine between messages: its invariant holds and every suspect is listed. -/
structure Ready (e : AarcEngine) : Prop extends Inv e where
  listed : ∀ i, e.suspectMark i = true → i ∈ e.suspectStack

theorem init_ready (capacity : ℕ) (kind : Regime) (owner : OwnerToken) :
    (init capacity kind owner).Ready := by
  refine ⟨⟨RefTable.init_sound _, ⟨⟨?_, ?_⟩, ?_, ?_, ?_, ?_⟩, ?_⟩, ?_⟩ <;>
    simp [init, Scratch.init, Tarjan.Clean]

theorem Settled.ready (h : e.Settled) : e.Ready :=
  ⟨h.inv, fun i hi => by rw [h.suspectMark] at hi; simp at hi⟩

theorem mem_setSuspect (h : ∀ i, e.suspectMark i = true → i ∈ e.suspectStack) (j : ℕ)
    (hj : (e.setSuspect i).suspectMark j = true) : j ∈ (e.setSuspect i).suspectStack := by
  rw [setSuspect_suspectMark] at hj
  unfold setSuspect
  split
  · next hm => exact hj.elim (h j) fun hj => hj ▸ h i hm
  · exact hj.elim (fun hj => List.mem_cons_of_mem _ (h j hj)) fun hj =>
      hj ▸ List.mem_cons_self

/-- What the examination of a slot does to the marks. -/
theorem mark_marks (hz : e.ZeroOk) (j : ℕ) :
    (j ∈ (e.mark i).zeroStack ↔ j ∈ e.zeroStack ∨ (j = i ∧ e.tab.total i = 0)) ∧
    ((e.mark i).suspectMark j = true ↔ e.suspectMark j = true ∨
      (j = i ∧ e.tab.total i ≠ 0 ∧ e.tab.hasOutgoing i = true)) := by
  unfold mark
  split
  · next h0 => simp [mem_markZero hz, h0]
  · next h0 =>
    split
    · next ho => simp [markSuspect, setSuspect_suspectMark, h0, ho]
    · next ho => simp [h0, ho]

theorem mark_zeroOk (hz : e.ZeroOk) : (e.mark i).ZeroOk := by
  unfold mark
  split
  · exact hz.markZero
  · split
    · exact hz.of_eq (by simp [markSuspect]) (by simp [markSuspect])
    · exact hz

/-- The messages that keep the engine ready are those that take no root that is not there. -/
theorem Ready.process (h : e.Ready) (hf : e.Fits m) : (e.process m).Ready := by
  have hs' := h.sound.applied m
  have hmarks := h.marksOk
  by_cases hl : e.Loses m
  · rw [process_of_loses h.sound hl]
    set e₁ := e.setTab (e.tab.applied e.pool m) with he₁
    have hz : e₁.ZeroOk := hmarks.zeroOk
    have hbl : e.pool.isLiveAt m.b.index = true := by
      unfold Loses at hl
      split at hl
      · exact (CellPool.valid_iff.mp hl.1).1
      · exact (CellPool.valid_iff.mp hl).1
      · exact (CellPool.valid_iff.mp (h.sound.valid_dst _ _ hl.2)).1
      · exact hl.elim
    have htot : ∀ j, j ≠ m.b.index → e₁.tab.total j = e.tab.total j := fun j hj =>
      total_applied_of_ne h.sound hj
    have hlist : ∀ j, (e₁.mark m.b.index).suspectMark j = true →
        j ∈ (e₁.mark m.b.index).suspectStack := by
      intro j
      unfold mark
      split
      · simpa [he₁] using h.listed j
      · split
        · exact mem_setSuspect (e := e₁) h.listed j
        · exact h.listed j
    refine ⟨⟨by simpa [he₁] using hs', ⟨mark_zeroOk hz, fun j hj => ?_, fun j hj => ?_,
      fun j hj => Or.inl (hlist j hj), fun j hj h0 => ?_⟩, by simpa [he₁] using h.clean⟩, hlist⟩
    · rw [mark_pool]
      rcases (mark_marks hz j).1.mp hj with hj | ⟨rfl, -⟩
      · exact hmarks.zero_live j hj
      · exact hbl
    · rw [mark_pool]
      rcases (mark_marks hz j).2.mp hj with hj | ⟨rfl, -, -⟩
      · exact hmarks.suspect_live j hj
      · exact hbl
    · rw [mark_tab] at h0
      refine (mark_marks hz j).1.mpr ?_
      by_cases hj' : j = m.b.index
      · exact Or.inr ⟨hj', hj' ▸ h0⟩
      · rw [htot j hj'] at h0
        rcases (mark_marks hz j).2.mp hj with hj | ⟨rfl, -, -⟩
        · exact Or.inl (hmarks.suspect_zero j hj h0)
        · exact absurd rfl hj'
  · obtain ⟨hzm, hzs, hsm, hss⟩ := process_of_not_loses hf hl
    obtain ⟨-, hroot, hedge, -⟩ := edge_of_not_loses hf hl
    obtain ⟨hp, -, -, hd⟩ := process_frame (e := e) (m := m)
    refine ⟨⟨by rw [process_tab, hp]; exact hs', ⟨hmarks.zeroOk.of_eq hzm hzs, ?_, ?_, ?_,
      fun j hj h0 => ?_⟩, by rw [hd]; exact h.clean⟩, by rw [hsm, hss]; exact h.listed⟩
    · rw [hzs, hp]; exact hmarks.zero_live
    · rw [hsm, hp]; exact hmarks.suspect_live
    · rw [hsm, hss]; exact fun j hj => Or.inl (h.listed j hj)
    · rw [hzs]
      rw [hsm] at hj
      refine hmarks.suspect_zero j hj (le_antisymm ?_ (h.sound.total_nonneg j))
      rw [process_tab] at h0
      unfold RefTable.total at h0 ⊢
      have := hroot j
      have := hedge j
      omega

/-- A message keeps the cells watched, unless it adds a reference to a candidate that nothing
refers to. Cells without references and marks, such as new ones, are left out by `N`. -/
theorem watched_process (h : e.Ready) (hf : e.Fits m) {N : ℕ → Prop}
    (hN : ∀ i, N i → ∀ j, ¬ e.tab.Edge i j)
    (hw : ∀ i, e.pool.isLiveAt i = true → ¬ N i → e.marks.Watched i)
    (hadd : m.op = .edgeAdd → e.live m.b = true → e.tab.total m.b.index = 0 →
      m.b.index ∉ e.zeroStack)
    (hi : e.pool.isLiveAt i = true) (hiN : ¬ N i) : (e.process m).marks.Watched i := by
  have hs' := h.sound.applied m
  have hpend_ne : ∀ x, x ≠ m.b.index → e.Pending x → (e.process m).Pending x := by
    intro x hx hp
    unfold Pending at hp ⊢
    rw [process_tab, total_applied_of_ne h.sound hx]
    by_cases hl : e.Loses m
    · rw [process_of_loses h.sound hl]
      refine hp.imp (And.imp_left fun hz => ?_) (And.imp_left fun hm => ?_)
      · exact (mark_marks (e := e.setTab (e.tab.applied e.pool m)) h.marksOk.zeroOk x).1.mpr
          (Or.inl hz)
      · exact (mark_marks (e := e.setTab (e.tab.applied e.pool m)) h.marksOk.zeroOk x).2.mpr
          (Or.inl hm)
    · obtain ⟨-, hzs, hsm, -⟩ := process_of_not_loses hf hl
      rw [hzs, hsm]
      exact hp
  by_cases hl : e.Loses m
  · refine Marked.Watched.lose (b := m.b.index) (G := e.marks) (fun x y hxy => ?_)
      (fun x hx hr => ?_) (fun x hx hp => hpend_ne x hx hp) ?_ (hw i hi hiN)
    · simp only [marks, process_tab]
      exact (edge_of_loses h.sound hl x y).2 hxy
    · simp only [marks, process_tab, (applied_of_ne h.sound hx).1] at hr ⊢
      exact hr
    · -- the target is rooted, marked, or below a watched cell
      simp only [marks, process_tab]
      have hmm := mark_marks (e := e.setTab (e.tab.applied e.pool m)) (i := m.b.index)
        h.marksOk.zeroOk m.b.index
      rw [← process_of_loses h.sound hl] at hmm
      by_cases h0 : (e.tab.applied e.pool m).total m.b.index = 0
      · refine Or.inr (Or.inl (Or.inl ⟨hmm.1.mpr (Or.inr ⟨rfl, h0⟩), ?_⟩))
        rw [process_tab, h0]
      · have hpos := lt_of_le_of_ne (hs'.total_nonneg m.b.index) (Ne.symm h0)
        by_cases ho : (e.tab.applied e.pool m).hasOutgoing m.b.index = true
        · refine Or.inr (Or.inl (Or.inr ⟨hmm.2.mpr (Or.inr ⟨rfl, h0, ho⟩), ?_⟩))
          rw [process_tab]
          exact hpos
        · have hno : ∀ y, ¬ (e.tab.applied e.pool m).Edge m.b.index y := fun y hy =>
            ho (RefTable.hasOutgoing_of_edge hy)
          by_cases hr : 0 < (e.tab.applied e.pool m).root m.b.index
          · exact Or.inl hr
          · have he : 0 < (e.tab.applied e.pool m).edge m.b.index := by
              unfold RefTable.total at hpos
              omega
            obtain ⟨c, hc⟩ := hs'.edge_pos_iff.mp he
            have hce := (edge_of_loses h.sound hl c m.b.index).1 hc
            refine Or.inr (Or.inr ⟨hno, c, ?_, hc, hw c (h.sound.edge_live hce).1 fun hcN =>
              hN c hcN _ hce⟩)
            rintro rfl
            exact hno _ hc
  · obtain ⟨hedge, hroot, hcnt, hgrow⟩ := edge_of_not_loses hf hl
    obtain ⟨-, hzs, hsm, -⟩ := process_of_not_loses hf hl
    refine Marked.Watched.gain (G := e.marks) (fun x y hxy => ?_) (fun x hx => ?_) (hw i hi hiN)
    · simp only [marks, process_tab]
      exact hedge x y hxy
    · simp only [marks] at hx ⊢
      rcases hx with hr | hp
      · left
        rw [process_tab]
        exact hr.trans_le (hroot x)
      · by_cases hx : x = m.b.index
        · subst hx
          have hr0 := h.sound.root_nonneg m.b.index
          have hle := hroot m.b.index
          have hce := hcnt m.b.index
          rw [process_tab]
          unfold Pending
          rw [hzs, hsm, process_tab]
          rcases hp with ⟨hz, h0⟩ | ⟨hm, h0⟩
          · -- a candidate is rooted now, or it still lacks references
            by_cases hroot' : 0 < (e.tab.applied e.pool m).root m.b.index
            · exact Or.inl hroot'
            · refine Or.inr (Or.inl ⟨hz, by_contra fun h0' => ?_⟩)
              have he : e.tab.edge m.b.index < (e.tab.applied e.pool m).edge m.b.index := by
                unfold RefTable.total at h0 h0'
                omega
              exact hadd (hgrow _ he).1 (hgrow _ he).2 h0 hz
          · refine Or.inr (Or.inr ⟨hm, ?_⟩)
            unfold RefTable.total at h0 ⊢
            omega
        · exact Or.inr (hpend_ne x hx hp)

end Ready

section Alloc

variable {h : ObjHandle} {o : OwnerToken} {r : Regime} {p : CellPool}

def setPool (e : AarcEngine) (p : CellPool) : AarcEngine := { e with pool := p }

/-- A slot that is free has a clear row and no marks. -/
theorem Inv.clear (he : e.Inv) (hd : e.pool.isLiveAt i = false) :
    e.tab.total i = 0 ∧ e.tab.outRecs i = [] ∧ i ∉ e.zeroStack ∧ e.suspectMark i = false := by
  refine ⟨?_, he.sound.dead_out hd, fun hi => ?_, Bool.eq_false_iff.mpr fun hi => ?_⟩
  · rw [he.sound.total_eq_zero]
    exact ⟨he.sound.dead_root i hd, he.sound.dead_edge hd⟩
  · rw [he.marksOk.zero_live i hi] at hd
    simp at hd
  · rw [he.marksOk.suspect_live i hi] at hd
    simp at hd

/-- What an allocation does to a pool. -/
theorem alloc_pool (hp : e.pool.Sound) (ha : e.pool.allocInto i o r = some (h, p)) :
    h = e.pool.handleAt i ∧ e.pool.isLiveAt i = false ∧ p.Sound ∧ p.gen = e.pool.gen ∧
    p.capacity = e.pool.capacity ∧
    (∀ j, p.isLiveAt j = (e.pool.isLiveAt j || decide (j = i))) ∧
    (∀ j, j ≠ i → p.avail j = e.pool.avail j ∧ p.regime j = e.pool.regime j ∧
      p.owner j = e.pool.owner j) ∧
    (p.avail i = false ∧ p.regime i = r ∧ p.owner i = o) := by
  obtain ⟨hi, hav, rfl, rfl⟩ := CellPool.allocInto_eq_some ha
  refine ⟨rfl, ?_, hp.activate o r, CellPool.activate_handleAt_gen o r, rfl,
    CellPool.isLiveAt_activate hi o r, fun j hj => ?_, ?_⟩
  · simp [CellPool.isLiveAt, hp i hav]
  · simp [CellPool.activate, hj]
  · simp [CellPool.activate]

theorem valid_alloc (hp : e.pool.Sound) (ha : e.pool.allocInto i o r = some (h, p))
    (x : ObjHandle) : p.valid x = true ↔ e.pool.valid x = true ∨ x = h := by
  obtain ⟨rfl, hd, -, hg, -, hl, -, -⟩ := alloc_pool hp ha
  rw [CellPool.valid_iff, CellPool.valid_iff, hl, hg]
  constructor
  · rintro ⟨hx, hgx⟩
    rw [Bool.or_eq_true, decide_eq_true_eq] at hx
    rcases hx with hx | hx
    · exact Or.inl ⟨hx, hgx⟩
    · right
      rw [← hx, CellPool.handleAt, hgx]
  · rintro (⟨hx, hgx⟩ | rfl)
    · exact ⟨by simp [hx], hgx⟩
    · exact ⟨by simp, rfl⟩

/-- The row of a new cell is clear, so the table agrees with the larger pool. -/
theorem sound_alloc (hs : e.tab.Sound e.pool) (hp : e.pool.Sound)
    (ha : e.pool.allocInto i o r = some (h, p)) : e.tab.Sound p := by
  have hv := valid_alloc hp ha
  obtain ⟨rfl, -, -, -, -, hl, -, -⟩ := alloc_pool hp ha
  refine { hs with dead_root := fun j hj => ?_, valid_src := ?_, valid_dst := ?_ }
  · refine hs.dead_root j (Bool.eq_false_iff.mpr fun h => ?_)
    rw [hl, h] at hj
    simp at hj
  · exact fun j q hq => (hv _).mpr (Or.inl (hs.valid_src j q hq))
  · exact fun j q hq => (hv _).mpr (Or.inl (hs.valid_dst j q hq))

/-- An allocation keeps the engine ready; the new cell has a clear row and no marks. -/
theorem Ready.alloc (he : e.Ready) (hp : e.pool.Sound)
    (ha : e.pool.allocInto i o r = some (h, p)) : (e.setPool p).Ready := by
  have hs' := sound_alloc he.sound hp ha
  obtain ⟨rfl, -, -, -, -, hl, -, -⟩ := alloc_pool hp ha
  have hlive : ∀ j, e.pool.isLiveAt j = true → p.isLiveAt j = true := fun j hj => by
    rw [hl, hj]; rfl
  refine ⟨⟨hs', { he.marksOk with zero_live := ?_, suspect_live := ?_ }, he.clean⟩, he.listed⟩
  · exact fun j hj => hlive j (he.marksOk.zero_live j hj)
  · exact fun j hj => hlive j (he.marksOk.suspect_live j hj)

end Alloc

section Exact

/-- A cell that nothing refers to and that is no candidate survives. -/
theorem survives_of_clear (hs : e.tab.Sound e.pool) (h0 : e.tab.total i = 0)
    (hz : i ∉ e.zeroStack) : e.marks.Survives i := by
  refine ⟨i, .refl, Or.inr fun b hb hp => ?_⟩
  rcases hb.cases_tail with rfl | ⟨c, -, hci⟩
  · rcases hp with ⟨hz', -⟩ | ⟨-, hpos⟩
    · exact hz hz'
    · omega
  · exact hs.no_edge_of_total h0 hci

/-- Where all cells but the new ones `N` are watched, a sweep keeps the new cells and the cells
below a root, and these are the cells below a root afterwards. -/
theorem sweep_exact (h : e.Ready) {N : ℕ → Prop} (hN : ∀ i, N i → ∀ j, ¬ e.tab.Edge i j)
    (hN' : ∀ i, N i → e.tab.total i = 0 ∧ i ∉ e.zeroStack)
    (hw : ∀ i, e.pool.isLiveAt i = true → ¬ N i → e.marks.Watched i) :
    (∀ i, e.sweep.pool.isLiveAt i = true ↔
      e.pool.isLiveAt i = true ∧ (N i ∨ e.marks.Rooted i)) ∧
    ∀ i, e.sweep.marks.Rooted i ↔ e.marks.Rooted i := by
  obtain ⟨hf, hset⟩ := sweep_spec h.toInv
  have hs := h.sound
  have hs' := hset.inv.sound
  have hsurv : ∀ i, e.pool.isLiveAt i = true → ¬ N i →
      (e.marks.Survives i ↔ e.marks.Rooted i) := fun i hi hn =>
    Marked.survives_iff_rooted fun a hai => by
      rcases hai.head_cases with rfl | ⟨b, hab, -⟩
      · exact hw a hi hn
      · exact hw a (hs.edge_live hab).1 fun ha => hN a ha b hab
  have hnew : ∀ i, N i → e.marks.Survives i := fun i hi =>
    survives_of_clear hs (hN' i hi).1 (hN' i hi).2
  have hout : ∀ i, e.marks.Rooted i → i ∉ e.dead := fun i hi hd => (mem_dead.mp hd).2 hi.survives
  have hrooted : ∀ i, e.sweep.marks.Rooted i ↔ e.marks.Rooted i := by
    intro i
    constructor
    · rintro ⟨a, hai, hr⟩
      have ha : a ∉ e.dead := fun hd => by
        have hl : e.sweep.pool.isLiveAt a = false := by simp [hf.isLiveAt, hd]
        have : 0 < e.sweep.tab.root a := hr
        rw [hs'.dead_root a hl] at this
        exact lt_irrefl _ this
      refine ⟨a, hai.mono fun x y hxy => ((hf.edge_iff hs' x y).mp hxy).1, ?_⟩
      have : 0 < e.sweep.tab.root a := hr
      rwa [hf.root a ha] at this
    · rintro ⟨a, hai, hr⟩
      have hra : e.marks.Rooted a := ⟨a, .refl, hr⟩
      refine ⟨a, hai.transfer (P := fun x => e.marks.Rooted x) (fun x y hx _ hxy => ?_)
        (fun x y hx hxy => hx.of_reach (.single hxy)) hra, ?_⟩
      · exact (hf.edge_iff hs' x y).mpr ⟨hxy, hout x hx⟩
      · have : 0 < e.tab.root a := hr
        rwa [← hf.root a (hout a hra)] at this
  refine ⟨fun i => ?_, hrooted⟩
  rw [hf.isLiveAt, Bool.and_eq_true, decide_eq_true_eq, mem_dead, not_and, not_not]
  refine and_congr_right fun hl => ?_
  by_cases hn : N i
  · simp [hn, hnew i hn, hl]
  · simp [hn, hl, hsurv i hl hn]

end Exact

end AarcEngine

end Loxis.Aarc
