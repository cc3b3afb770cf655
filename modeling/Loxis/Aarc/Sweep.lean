import Mathlib.Algebra.BigOperators.Ring.Finset
import Loxis.Lib.Graph
import Loxis.Aarc.ReclaimSpec

/-! # What a sweep collects

A sweep frees exactly the cells that do not survive: those with no rooted cell above
them and a pending mark above every cell above them. Each turn of its loops is a
collection step of the marked graph of the engine.
-/

namespace Loxis.Aarc

open Function Loxis.Graph

namespace AarcEngine

variable {e e' e'' : AarcEngine} {i j : ℕ} {F F' : Finset ℕ}

/-- A mark that a sweep acts on: a candidate without references, or a referenced suspect. -/
def Pending (e : AarcEngine) (i : ℕ) : Prop :=
  (i ∈ e.zeroStack ∧ e.tab.total i = 0) ∨ (e.suspectMark i = true ∧ 0 < e.tab.total i)

/-- The marked graph of an engine. -/
def marks (e : AarcEngine) : Marked ℕ where
  edge := e.tab.Edge
  root i := 0 < e.tab.root i
  pend := e.Pending

/-- The marks and the stacks fit together. A suspect that the suspect stack no longer lists is
one without references, which waits among the candidates. -/
structure MarksOk (e : AarcEngine) : Prop where
  zeroOk : e.ZeroOk
  zero_live : ∀ i ∈ e.zeroStack, e.pool.isLiveAt i = true
  suspect_live : ∀ i, e.suspectMark i = true → e.pool.isLiveAt i = true
  suspect_listed : ∀ i, e.suspectMark i = true → i ∈ e.suspectStack ∨ e.tab.total i = 0
  suspect_zero : ∀ i, e.suspectMark i = true → e.tab.total i = 0 → i ∈ e.zeroStack

/-- What holds of an engine between the turns of a sweep. -/
structure Inv (e : AarcEngine) : Prop where
  sound : e.tab.Sound e.pool
  marksOk : e.MarksOk
  clean : Tarjan.Clean e.detector

/-- What any messages leave of it. A root removal that asks for too much clears a count without
a mark, so a suspect without references need not wait among the candidates. -/
structure MarksFit (e : AarcEngine) : Prop where
  zeroOk : e.ZeroOk
  zero_live : ∀ i ∈ e.zeroStack, e.pool.isLiveAt i = true
  suspect_live : ∀ i, e.suspectMark i = true → e.pool.isLiveAt i = true
  suspect_listed : ∀ i, e.suspectMark i = true → i ∈ e.suspectStack ∨ e.tab.total i = 0

/-- What holds between the turns of a sweep after any messages. -/
structure Core (e : AarcEngine) : Prop where
  sound : e.tab.Sound e.pool
  marksFit : e.MarksFit
  clean : Tarjan.Clean e.detector

/-- The suspects without references wait among the candidates. -/
def Parked (e : AarcEngine) : Prop :=
  ∀ i, e.suspectMark i = true → e.tab.total i = 0 → i ∈ e.zeroStack

theorem Inv.core (h : e.Inv) : e.Core := ⟨h.sound, { h.marksOk with }, h.clean⟩

theorem Core.inv (h : e.Core) (hp : e.Parked) : e.Inv :=
  ⟨h.sound, { h.marksFit with suspect_zero := hp }, h.clean⟩

theorem MarksFit.step (h : e.MarksFit) (hs : e.tab.Sound e.pool) (hs' : e'.tab.Sound e'.pool)
    (hf : Freed e e' F) (hr : Remarked e e' F) : e'.MarksFit := by
  have hlive : ∀ i, i ∉ F → (e.pool.isLiveAt i = true ∨ ∃ f ∈ F, e.tab.Edge f i) →
      e'.pool.isLiveAt i = true := by
    rintro i hi (hl | ⟨f, -, hfi⟩)
    · simp [hf.isLiveAt, hl, hi]
    · simp [hf.isLiveAt, (hs.edge_live hfi).2, hi]
  have hgone : ∀ i, e'.suspectMark i = true → i ∉ F := fun i hi hF => by
    rw [hr.gone i hF] at hi
    simp at hi
  refine
    { zeroOk := hr.zeroOk, zero_live := fun i hi => hlive i (hr.zero_out i hi) ?_,
      suspect_live := fun i hi => hlive i (hgone i hi) ?_, suspect_listed := fun i hi => ?_ }
  · exact (hr.zero_new i hi).imp (h.zero_live i) And.right
  · exact (hr.new i hi).imp (h.suspect_live i) And.right
  · rcases hr.new i hi with hm | ⟨hst, -⟩
    · refine (h.suspect_listed i hm).imp (hr.stack i) fun h0 => ?_
      exact le_antisymm (h0 ▸ hf.total_le hs hs' (hgone i hi)) (hs'.total_nonneg i)
    · exact Or.inl hst

theorem Parked.step (h : e.Parked) (hs : e.tab.Sound e.pool) (hs' : e'.tab.Sound e'.pool)
    (hf : Freed e e' F) (hr : Remarked e e' F) : e'.Parked := by
  intro i hi h0
  have hout : i ∉ F := fun hF => by
    rw [hr.gone i hF] at hi
    simp at hi
  rcases hf.total_eq_or hs hs' hout with ht | ⟨f, hfF, hfi⟩
  · rw [ht] at h0
    rcases hr.new i hi with hm | ⟨-, f, -, hfi⟩
    · exact hr.zero_kept i (h i hm h0) h0 hout
    · exact absurd hfi (hs.no_edge_of_total h0)
  · exact hr.hit_zero i f hfF hfi hout h0

/-- `e'` arises from `e` by collection steps that freed `F` and decided no other fate. -/
structure Collected (e e' : AarcEngine) (F : Finset ℕ) : Prop where
  freed : Freed e e' F
  inv : e'.Inv
  survives : ∀ c, e.pool.isLiveAt c = true →
    (e.marks.Survives c ↔ c ∉ F ∧ e'.marks.Survives c)

theorem Collected.refl (h : e.Inv) : Collected e e ∅ := ⟨.refl e, h, by simp⟩

theorem Collected.trans (h : Collected e e' F) (h' : Collected e' e'' F') :
    Collected e e'' (F ∪ F') := by
  refine ⟨h.freed.trans h'.freed, h'.inv, fun c hc => ?_⟩
  rw [h.survives c hc, Finset.mem_union, not_or, and_assoc]
  refine and_congr_right fun hn => h'.survives c ?_
  simp [h.freed.isLiveAt, hc, hn]

/-- The same after any messages; the suspects stay parked if they were. -/
structure Swept (e e' : AarcEngine) (F : Finset ℕ) : Prop where
  freed : Freed e e' F
  core : e'.Core
  parked : e.Parked → e'.Parked
  survives : ∀ c, e.pool.isLiveAt c = true →
    (e.marks.Survives c ↔ c ∉ F ∧ e'.marks.Survives c)

theorem Swept.refl (h : e.Core) : Swept e e ∅ := ⟨.refl e, h, id, by simp⟩

theorem Swept.trans (h : Swept e e' F) (h' : Swept e' e'' F') : Swept e e'' (F ∪ F') := by
  refine ⟨h.freed.trans h'.freed, h'.core, h'.parked ∘ h.parked, fun c hc => ?_⟩
  rw [h.survives c hc, Finset.mem_union, not_or, and_assoc]
  refine and_congr_right fun hn => h'.survives c ?_
  simp [h.freed.isLiveAt, hc, hn]

theorem Collected.of_swept (h : e.Inv) (hs : Swept e e' F) : Collected e e' F :=
  ⟨hs.freed, hs.core.inv (hs.parked h.marksOk.suspect_zero), hs.survives⟩

/-- The steps of a sweep are collection steps of the marked graph. -/
theorem Swept.of_collects (h : e.Core) (hf : Freed e e' F) (h' : e'.Core)
    (hp : e.Parked → e'.Parked) (hc : Marked.Collects e.marks e'.marks (· ∈ F)) :
    Swept e e' F := by
  refine ⟨hf, h', hp, fun c hl => hc.survives_iff (Finset.range e.pool.capacity) ?_ ?_⟩
  · exact fun a b hab => h.sound.edge_lt hab
  · exact Finset.mem_range.mpr (CellPool.isLiveAt_iff.mp hl).1

/-- The collection step of a freed set, where `hkept` covers the marks that were consumed. -/
theorem collects_of (hs' : e'.tab.Sound e'.pool) (hf : Freed e e' F)
    (hclosed : ∀ a b, b ∈ F → e.tab.Edge a b → a ∈ F) (hroot : ∀ a ∈ F, e.tab.root a = 0)
    (hdoomed : ∀ c ∈ F, ∃ b, Reach e.tab.Edge b c ∧ e.Pending b)
    (hnew : ∀ b, e'.Pending b → e.Pending b ∨ ∃ a ∈ F, e.tab.Edge a b)
    (hkept : ∀ w ∉ F, e.Pending w → e.marks.Source w → e'.Pending w)
    (hzero : ∀ b, ∀ f ∈ F, e.tab.Edge f b → b ∉ F → e'.tab.total b = 0 → b ∈ e'.zeroStack)
    (hsus : ∀ b, ∀ f ∈ F, e.tab.Edge f b → b ∉ F → e'.tab.total b ≠ 0 →
      e'.tab.hasOutgoing b = true → e'.suspectMark b = true) :
    Marked.Collects e.marks e'.marks (· ∈ F) := by
  refine
    { closed := hclosed, unrooted := fun a ha => ?_, doomed := hdoomed,
      edge_iff := hf.edge_iff hs', root_iff := fun a ha => ?_, pend_new := hnew,
      pend_kept := hkept, orphan := fun f b hfF hb hfb hsrc => ?_ }
  · simp [marks, hroot a ha]
  · simp [marks, hf.root a ha]
  · by_cases h0 : e'.tab.total b = 0
    · exact Or.inl ⟨hzero b f hfF hfb hb h0, h0⟩
    · -- an unrooted source with references refers to itself, so it has outgoing edges
      refine Or.inr ⟨hsus b f hfF hfb hb h0 ?_, lt_of_le_of_ne (hs'.total_nonneg b) (Ne.symm h0)⟩
      have hr0 : e'.tab.root b = 0 :=
        le_antisymm (not_lt.mp (hsrc b .refl).1) (hs'.root_nonneg b)
      have he : 0 < e'.tab.edge b := by
        refine lt_of_le_of_ne (hs'.edge_nonneg b) fun he => h0 ?_
        simp [RefTable.total, hr0, ← he]
      obtain ⟨a, hab⟩ := hs'.edge_pos_iff.mp he
      rcases (hsrc a (.single hab)).2.head_cases with rfl | ⟨c, hbc, -⟩
      · exact RefTable.hasOutgoing_of_edge hab
      · exact RefTable.hasOutgoing_of_edge hbc

section ZeroSweep

/-- The engine with its newest candidate popped. -/
def popZero (e : AarcEngine) (i : ℕ) (rest : List ℕ) : AarcEngine :=
  { e with zeroStack := rest, zeroMark := update e.zeroMark i false }

theorem popZero_zeroOk (hz : e.ZeroOk) {rest : List ℕ} (hst : e.zeroStack = i :: rest) :
    (e.popZero i rest).ZeroOk ∧ i ∉ rest := by
  obtain ⟨h1, h2⟩ := hz
  rw [hst] at h1 h2
  obtain ⟨hi, hnd⟩ := List.nodup_cons.mp h2
  refine ⟨⟨fun j => ?_, hnd⟩, hi⟩
  simp only [popZero, update_apply]
  split
  · next hj => simp [hj, hi]
  · next hj => simp [h1 j, hj]

/-- A popped candidate that was revived is dropped. -/
theorem Swept.drop (h : e.Core) {rest : List ℕ} (hst : e.zeroStack = i :: rest)
    (h0 : e.tab.total i ≠ 0) : Swept e (e.popZero i rest) ∅ := by
  obtain ⟨hz, hi⟩ := popZero_zeroOk h.marksFit.zeroOk hst
  have hmem : ∀ j, e.tab.total j = 0 → (j ∈ e.zeroStack ↔ j ∈ rest) := by
    intro j hj
    rw [hst, List.mem_cons]
    refine ⟨fun hj' => hj'.resolve_left ?_, Or.inr⟩
    rintro rfl
    exact h0 hj
  have hp : (e.popZero i rest).marks = e.marks := by
    unfold marks
    congr 1
    funext j
    refine propext (or_congr (and_congr_left fun hj => ?_) Iff.rfl)
    exact (hmem j hj).symm
  refine ⟨.of_eq rfl rfl rfl rfl, ⟨h.sound, ⟨hz, fun j hj => ?_, h.marksFit.suspect_live,
    h.marksFit.suspect_listed⟩, h.clean⟩, fun hpark j hj hj0 => ?_, by simp [hp]⟩
  · exact h.marksFit.zero_live j (by rw [hst]; exact List.mem_cons_of_mem _ hj)
  · exact (hmem j hj0).mp (hpark j hj hj0)

/-- A popped candidate without references is freed. -/
theorem Swept.reclaim (h : e.Core) {rest : List ℕ} (hst : e.zeroStack = i :: rest)
    (h0 : e.tab.total i = 0) : Swept e ((e.popZero i rest).reclaimCell i) {i} := by
  obtain ⟨hz, hi⟩ := popZero_zeroOk h.marksFit.zeroOk hst
  have hl := h.marksFit.zero_live i (by rw [hst]; exact List.mem_cons_self)
  obtain ⟨hf, hs', hr⟩ := reclaimCell_spec (e := e.popZero i rest) h.sound hz hl h0 hi
  have hf : Freed e ((e.popZero i rest).reclaimCell i) {i} := { hf with }
  have hr : Remarked e ((e.popZero i rest).reclaimCell i) {i} := by
    refine { hr with zero_kept := fun j hj hj0 hn => hr.zero_kept j ?_ hj0 hn, zero_new := ?_ }
    · rw [hst, List.mem_cons] at hj
      exact hj.resolve_left (by simpa using hn)
    · exact fun j hj => (hr.zero_new j hj).imp_left fun hj' => by
        rw [hst]; exact List.mem_cons_of_mem _ hj'
  generalize (e.popZero i rest).reclaimCell i = e' at *
  have hnE : ∀ a, ¬ e.tab.Edge a i := fun a => h.sound.no_edge_of_total h0
  have hzero : ∀ j, j ∉ ({i} : Finset ℕ) → e.tab.total j = 0 → e'.tab.total j = 0 :=
    fun j hj hj0 => le_antisymm (hj0 ▸ hf.total_le h.sound hs' hj) (hs'.total_nonneg j)
  refine .of_collects h hf ⟨hs', h.marksFit.step h.sound hs' hf hr, hr.detector ▸ h.clean⟩
    (fun hp => hp.step h.sound hs' hf hr)
    (collects_of hs' hf ?_ ?_ ?_ ?_ ?_ hr.hit_zero hr.hit_suspect)
  · intro a b hb hab
    exact absurd (Finset.mem_singleton.mp hb ▸ hab) (hnE a)
  · intro a ha
    rw [Finset.mem_singleton.mp ha]
    exact (h.sound.total_eq_zero.mp h0).1
  · intro c hc
    obtain rfl := Finset.mem_singleton.mp hc
    exact ⟨c, .refl, Or.inl ⟨by rw [hst]; exact List.mem_cons_self, h0⟩⟩
  · rintro b (⟨hb, hb0⟩ | ⟨hb, hb0⟩)
    · rcases hr.zero_new b hb with hb' | ⟨-, hE⟩
      · rcases hf.total_eq_or h.sound hs' (hr.zero_out b hb) with ht | hE
        · exact Or.inl (Or.inl ⟨hb', ht ▸ hb0⟩)
        · exact Or.inr hE
      · exact Or.inr hE
    · rcases hr.new b hb with hb' | ⟨-, hE⟩
      · refine Or.inl (Or.inr ⟨hb', hb0.trans_le (hf.total_le h.sound hs' fun hF => ?_)⟩)
        rw [hr.gone b hF] at hb
        simp at hb
      · exact Or.inr hE
  · rintro w hw (⟨hz', hw0⟩ | ⟨hm, hw0⟩) -
    · exact Or.inl ⟨hr.zero_kept w hz' hw0 hw, hzero w hw hw0⟩
    · have hm' := hr.kept w hm hw
      by_cases h0' : e'.tab.total w = 0
      · rcases hf.total_eq_or h.sound hs' hw with ht | ⟨f, hfF, hfw⟩
        · omega
        · exact Or.inl ⟨hr.hit_zero w f hfF hfw hw h0', h0'⟩
      · exact Or.inr ⟨hm', lt_of_le_of_ne (hs'.total_nonneg w) (Ne.symm h0')⟩

/-- A list of distinct live slots is no longer than the pool. -/
theorem length_le_capacity {l : List ℕ} (hnd : l.Nodup)
    (hl : ∀ i ∈ l, e.pool.isLiveAt i = true) : l.length ≤ e.pool.capacity := by
  rw [← List.toFinset_card_of_nodup hnd, ← Finset.card_range e.pool.capacity]
  refine Finset.card_le_card fun i hi => Finset.mem_range.mpr ?_
  exact (CellPool.isLiveAt_iff.mp (hl i (List.mem_toFinset.mp hi))).1

/-- One turn of the zero sweep is a collection step; a turn that frees nothing leaves the
suspects alone and shortens the candidate stack. -/
theorem sweepZeroTurn_spec (h : e.Core) (hst : e.zeroStack ≠ []) :
    e.sweepZeroTurn.2 = true ∧ ∃ F, Swept e e.sweepZeroTurn.1 F ∧
      (F = ∅ → e.sweepZeroTurn.1.suspectStack = e.suspectStack ∧
        e.sweepZeroTurn.1.zeroStack.length < e.zeroStack.length) := by
  cases hz : e.zeroStack with
  | nil => exact absurd hz hst
  | cons i rest =>
    have hl := h.marksFit.zero_live i (by rw [hz]; exact List.mem_cons_self)
    unfold sweepZeroTurn
    split
    · next hz' => simp [hz] at hz'
    · next i' rest' hz' =>
      obtain ⟨rfl, rfl⟩ := List.cons.inj (hz.symm.trans hz')
      simp only [hl, Bool.not_true, Bool.false_eq_true, if_false]
      split
      · next h0 => exact ⟨rfl, ∅, .drop h hz h0, by simp⟩
      · next h0 => exact ⟨rfl, {i}, .reclaim h hz (not_not.mp h0), by simp⟩

/-- The zero sweep ends with no candidate left. -/
theorem sweepZero_swept (h : e.Core) : ∃ F, Swept e e.sweepZero F ∧ e.sweepZero.zeroStack = [] ∧
    (F = ∅ → e.sweepZero.suspectStack = e.suspectStack) := by
  have hstep : ∀ t, (∃ F, Swept e t F ∧ (F = ∅ → t.suspectStack = e.suspectStack)) →
      ∃ F, Swept e t.sweepZeroTurn.1 F ∧
        (F = ∅ → t.sweepZeroTurn.1.suspectStack = e.suspectStack) := by
    rintro t ⟨F, hF, hss⟩
    by_cases hz : t.zeroStack = []
    · rw [show t.sweepZeroTurn.1 = t by unfold sweepZeroTurn; rw [hz]]
      exact ⟨F, hF, hss⟩
    · obtain ⟨-, F', hF', hss'⟩ := sweepZeroTurn_spec hF.core hz
      refine ⟨F ∪ F', hF.trans hF', fun hE => ?_⟩
      obtain ⟨h1, h2⟩ := Finset.union_eq_empty.mp hE
      rw [(hss' h2).1, hss h1]
  -- a turn frees a cell or shortens the stack, which is never longer than the pool
  have hmeasure : ∀ t, (∃ F, Swept e t F ∧ (F = ∅ → t.suspectStack = e.suspectStack)) →
      t.sweepZeroTurn.2 = true →
      t.sweepZeroTurn.1.pool.used * (e.pool.capacity + 1) + t.sweepZeroTurn.1.zeroStack.length <
        t.pool.used * (e.pool.capacity + 1) + t.zeroStack.length := by
    rintro t ⟨F, hF, -⟩ hflag
    have hz : t.zeroStack ≠ [] := fun hz => by
      unfold sweepZeroTurn at hflag
      rw [hz] at hflag
      simp at hflag
    obtain ⟨-, F', hF', hss'⟩ := sweepZeroTurn_spec hF.core hz
    rcases F'.eq_empty_or_nonempty with hE | hne
    · have := (hss' hE).2
      have := Nat.mul_le_mul_right (e.pool.capacity + 1) hF'.freed.used_le
      omega
    · have hlt := hF'.freed.used_lt hne
      have hlen := length_le_capacity (e := t.sweepZeroTurn.1) hF'.core.marksFit.zeroOk.2
        hF'.core.marksFit.zero_live
      rw [hF'.freed.capacity, hF.freed.capacity] at hlen
      have := Nat.mul_le_mul_right (e.pool.capacity + 1) (Nat.succ_le_of_lt hlt)
      rw [Nat.succ_mul] at this
      omega
  obtain ⟨t, ⟨F, hF, hss⟩, hstop, heq⟩ := iterUntil_stop
    (μ := fun t => t.pool.used * (e.pool.capacity + 1) + t.zeroStack.length) hstep hmeasure
    (e.pool.used * (e.pool.capacity + 1) + e.zeroStack.length + 1) ⟨∅, .refl h, fun _ => rfl⟩
    (Nat.lt_succ_self _)
  have ht : t.zeroStack = [] := by
    by_contra hn
    rw [(sweepZeroTurn_spec hF.core hn).1] at hstop
    simp at hstop
  have heq' : e.sweepZero = t := by
    unfold sweepZero
    rw [heq]
    unfold sweepZeroTurn
    rw [ht]
  exact ⟨F, heq' ▸ hF, heq' ▸ ht, heq' ▸ hss⟩

theorem sweepZero_spec (h : e.Inv) : ∃ F, Collected e e.sweepZero F ∧ e.sweepZero.zeroStack = [] ∧
    (F = ∅ → e.sweepZero.suspectStack = e.suspectStack) :=
  let ⟨F, hF, hz⟩ := sweepZero_swept h.core
  ⟨F, .of_swept h hF, hz⟩

end ZeroSweep

section Scan

variable {g : AarcEngine} {R : ℕ → Prop} {s : ℕ}

/-- The detector walks exactly the edges of the table. -/
theorem edge_succ (hs : g.tab.Sound g.pool) : Tarjan.Edge g.succ = g.tab.Edge := by
  funext i j
  refine propext ?_
  unfold Tarjan.Edge succ RefTable.outs RefTable.Edge
  simp only [List.mem_map, List.mem_filter]
  constructor
  · rintro ⟨t, ⟨⟨r, hr, rfl⟩, -⟩, rfl⟩
    exact ⟨r, hr, rfl⟩
  · rintro ⟨r, hr, rfl⟩
    exact ⟨r.dst, ⟨⟨r, hr, rfl⟩, hs.valid_dst i r hr⟩, rfl⟩

theorem findComponents_spec (hs : e.tab.Sound e.pool) (hc : Tarjan.Clean e.detector)
    (roots : List ℕ) : Tarjan.Found e.succ (fun r => r ∈ roots ∧ e.pool.isLiveAt r = true)
      (e.findComponents roots).detector := by
  refine Tarjan.findComponents_found hc (U := Finset.range e.pool.capacity) ?_ ?_ le_rfl
  · intro v _ w hw
    have : Tarjan.Edge e.succ v w := hw
    rw [edge_succ hs] at this
    exact (hs.edge_lt this).2
  · exact fun r _ hl => Finset.mem_range.mpr (CellPool.isLiveAt_iff.mp hl).1

theorem mem_visitedOf (hF : Tarjan.Found g.succ R g.detector) :
    i ∈ g.visitedOf s ↔ g.sccOf i = some s := by
  unfold visitedOf
  rw [List.mem_filter, decide_eq_true_eq]
  refine ⟨And.right, fun hi => ⟨?_, hi⟩⟩
  by_contra hn
  have := (hF.scc_unvisited i hn).2.2.2
  unfold sccOf at hi
  rw [this] at hi
  simp at hi

theorem visited_live (hs : g.tab.Sound g.pool) (hF : Tarjan.Found g.succ R g.detector)
    (hR : ∀ r, R r → g.pool.isLiveAt r = true) (hi : i ∈ g.detector.visited) :
    g.pool.isLiveAt i = true := by
  obtain ⟨r, hr, hri⟩ := (hF.mem_visited i).mp hi
  rw [edge_succ hs] at hri
  exact hri.mem_of_closed (P := fun i => g.pool.isLiveAt i = true)
    (fun a b _ hab => (hs.edge_live hab).2) (hR r hr)

theorem membersOf_eq (hs : g.tab.Sound g.pool) (hF : Tarjan.Found g.succ R g.detector)
    (hR : ∀ r, R r → g.pool.isLiveAt r = true) (s : ℕ) : g.membersOf s = g.visitedOf s :=
  List.filter_eq_self.mpr fun _ hi => visited_live hs hF hR (List.mem_of_mem_filter hi)

theorem visitedOf_nodup (hF : Tarjan.Found g.succ R g.detector) : (g.visitedOf s).Nodup :=
  hF.visited_nodup.filter _

/-- The members of a component are the slots that reach each other. -/
theorem mem_visitedOf_iff (hs : g.tab.Sound g.pool) (hF : Tarjan.Found g.succ R g.detector)
    (hi : i ∈ g.visitedOf s) : j ∈ g.visitedOf s ↔ Reach g.tab.Edge i j ∧ Reach g.tab.Edge j i := by
  have hv : i ∈ g.detector.visited := List.mem_of_mem_filter hi
  rw [mem_visitedOf hF] at hi ⊢
  rw [← edge_succ hs, ← hF.same_comp i j hv]
  unfold sccOf at hi ⊢
  rw [hi, eq_comm]

theorem countP_mem {α : Type*} (f : α → ℕ) (F : Finset ℕ) (l : List α) :
    l.countP (fun x => decide (f x ∈ F)) = ∑ j ∈ F, l.countP (fun x => decide (f x = j)) := by
  induction l with
  | nil => simp
  | cons x l ih =>
    simp only [List.countP_cons, ih, Finset.sum_add_distrib, decide_eq_true_eq]
    rw [Finset.sum_ite_eq F (f x) fun _ => 1]

/-- The edges inside a set of slots, counted from both ends. -/
theorem sum_countP_comm {t : RefTable} (ht : t.Linked) (F : Finset ℕ) :
    ∑ i ∈ F, (t.outRecs i).countP (fun r => decide (r.dst.index ∈ F)) =
      ∑ j ∈ F, (t.inRecs j).countP (fun r => decide (r.src.index ∈ F)) := by
  simp only [countP_mem]
  rw [Finset.sum_comm]
  exact Finset.sum_congr rfl fun j _ => Finset.sum_congr rfl fun i _ => ht.count_between i j

/-- The counts of a component say that it has no root and no edge from outside. -/
theorem reclaimable_iff (hs : g.tab.Sound g.pool) (hF : Tarjan.Found g.succ R g.detector) :
    g.reclaimable s = true ↔ ∀ j ∈ g.visitedOf s, g.tab.root j = 0 ∧
      ∀ i, g.tab.Edge i j → i ∈ g.visitedOf s := by
  have hnd := visitedOf_nodup (s := s) hF
  have hroot : g.sumRoot s = 0 ↔ ∀ j ∈ g.visitedOf s, g.tab.root j = 0 := by
    unfold sumRoot
    rw [← List.sum_toFinset _ hnd, Finset.sum_eq_zero_iff_of_nonneg fun i _ => hs.root_nonneg i]
    simp
  have hint : g.internal s = ∑ i ∈ (g.visitedOf s).toFinset,
      (g.tab.inRecs i).countP fun r => decide (r.src.index ∈ (g.visitedOf s).toFinset) := by
    unfold internal
    rw [← List.sum_toFinset _ hnd, ← sum_countP_comm hs.toLinked]
    refine Finset.sum_congr rfl fun i _ => ?_
    unfold RefTable.outs
    rw [List.countP_map]
    refine List.countP_congr fun r hr => ?_
    simp only [Function.comp_apply, hs.valid_dst i r hr, Bool.true_and, List.mem_toFinset,
      mem_visitedOf hF]
  have hedge : g.sumEdge s = ((∑ i ∈ (g.visitedOf s).toFinset, (g.tab.inRecs i).length : ℕ) : ℤ) := by
    unfold sumEdge
    rw [← List.sum_toFinset _ hnd, Nat.cast_sum]
    exact Finset.sum_congr rfl fun i _ => hs.edge_eq i
  unfold reclaimable
  rw [Bool.and_eq_true, decide_eq_true_eq, decide_eq_true_eq, hroot, hedge, hint, Nat.cast_inj,
    eq_comm, Finset.sum_eq_sum_iff_of_le fun i _ => List.countP_le_length]
  simp only [List.mem_toFinset, List.countP_eq_length, decide_eq_true_eq, hs.edge_iff_in]
  constructor
  · rintro ⟨h1, h2⟩ j hj
    refine ⟨h1 j hj, ?_⟩
    rintro i ⟨r, hr, rfl⟩
    exact h2 j hj r hr
  · intro h
    exact ⟨fun j hj => (h j hj).1, fun j hj r hr => (h j hj).2 _ ⟨r, hr, rfl⟩⟩

end Scan

section CyclePass

variable {g : AarcEngine} {R : ℕ → Prop} {s : ℕ}

/-- The candidates all lack references, as they do after a zero sweep. -/
def Tight (e : AarcEngine) : Prop := ∀ i ∈ e.zeroStack, e.tab.total i = 0

theorem Tight.of_nil (h : e.zeroStack = []) : e.Tight := by
  unfold Tight
  rw [h]
  simp

theorem Tight.step (h : e.Tight) (hs : e.tab.Sound e.pool) (hs' : e'.tab.Sound e'.pool)
    (hf : Freed e e' F) (hr : Remarked e e' F) : e'.Tight := by
  intro i hi
  rcases hr.zero_new i hi with hi' | ⟨h0, -⟩
  · exact le_antisymm (h i hi' ▸ hf.total_le hs hs' (hr.zero_out i hi)) (hs'.total_nonneg i)
  · exact h0

/-- A component to be reclaimed: distinct referenced live cells that own all references to them,
told apart by their component number. -/
structure Doomed (e : AarcEngine) (c : ℕ × List ℕ) : Prop where
  nodup : c.2.Nodup
  nonempty : c.2 ≠ []
  live : ∀ i ∈ c.2, e.pool.isLiveAt i = true
  total : ∀ i ∈ c.2, e.tab.total i ≠ 0
  unrooted : ∀ i ∈ c.2, e.tab.root i = 0
  closed : ∀ i, ∀ j ∈ c.2, e.tab.Edge i j → i ∈ c.2
  scc : ∀ i ∈ c.2, ∀ r ∈ e.tab.outRecs i, e.sccOf r.dst.index = some c.1 ↔ r.dst.index ∈ c.2

/-- The slots of a list of components. -/
def slots (cs : List (ℕ × List ℕ)) : Finset ℕ := (cs.flatMap Prod.snd).toFinset

theorem mem_slots {cs : List (ℕ × List ℕ)} : i ∈ slots cs ↔ ∃ c ∈ cs, i ∈ c.2 := by
  simp [slots]

/-- Reclaiming disjoint garbage components one after the other frees them all. -/
theorem reclaimComponents_spec (hs : e.tab.Sound e.pool) (ht : e.Tight)
    {cs : List (ℕ × List ℕ)} (hcs : ∀ c ∈ cs, e.Doomed c)
    (hdisj : cs.Pairwise fun c d => ∀ i ∈ c.2, i ∉ d.2) {D : Finset ℕ}
    (hD : ∀ c ∈ cs, ∀ i ∈ c.2, i ∉ D) (hf : Freed e e' D) (hs' : e'.tab.Sound e'.pool)
    (hr : Remarked e e' D) :
    Freed e (e'.reclaimComponents cs) (D ∪ slots cs) ∧
      (e'.reclaimComponents cs).tab.Sound (e'.reclaimComponents cs).pool ∧
      Remarked e (e'.reclaimComponents cs) (D ∪ slots cs) := by
  induction cs generalizing e' D with
  | nil => simpa [reclaimComponents, slots] using ⟨hf, hs', hr⟩
  | cons c cs ih =>
    have hc := hcs c List.mem_cons_self
    obtain ⟨hdisj, hpw⟩ := List.pairwise_cons.mp hdisj
    have hcD := hD c List.mem_cons_self
    have hzero : ∀ i ∈ e'.zeroStack, i ∉ c.2 := by
      intro i hi him
      rcases hr.zero_new i hi with hi' | ⟨-, f, hfD, hfi⟩
      · exact hc.total i him (ht i hi')
      · exact hcD f (hc.closed f i him hfi) hfD
    have hscc : ∀ i ∈ c.2, ∀ r ∈ e'.tab.outRecs i,
        e'.sccOf r.dst.index = some c.1 ↔ r.dst.index ∈ c.2 := by
      intro i hi r hrec
      rw [hf.outRecs i (hcD i hi)] at hrec
      have := hc.scc i hi r hrec
      unfold sccOf at this ⊢
      rwa [hr.detector]
    obtain ⟨hf1, hs1, hr1⟩ := reclaimCycleComponent_spec hs' hr.zeroOk
      hc.nodup (fun i hi => by simp [hf.isLiveAt, hc.live i hi, hcD i hi])
      (fun i j hj hij => hc.closed i j hj ((hf.edge_iff hs' i j).mp hij).1) hzero hscc
    have hE : D ∪ slots (c :: cs) = D ∪ c.2.toFinset ∪ slots cs := by
      simp only [slots, List.flatMap_cons, List.toFinset_append, Finset.union_assoc]
    have hout : ∀ d ∈ cs, ∀ i ∈ d.2, i ∉ D ∪ c.2.toFinset := by
      intro d hd i hi
      rw [Finset.mem_union, not_or, List.mem_toFinset]
      exact ⟨hD d (List.mem_cons_of_mem _ hd) i hi, fun hic => hdisj d hd i hic hi⟩
    rw [hE]
    exact ih (fun d hd => hcs d (List.mem_cons_of_mem _ hd)) hpw hout (hf.trans hf1) hs1
      (hr.trans hf hf1 hs hs' hs1 hr1)

/-- What a scan visits is referenced, if what it starts from is. -/
theorem total_visited (hs : g.tab.Sound g.pool) (hF : Tarjan.Found g.succ R g.detector)
    (hR : ∀ r, R r → g.pool.isLiveAt r = true ∧ g.tab.total r ≠ 0)
    (hi : i ∈ g.detector.visited) : g.tab.total i ≠ 0 := by
  intro h0
  obtain ⟨r, hr, hri⟩ := (hF.mem_visited i).mp hi
  rw [edge_succ hs] at hri
  rcases hri.cases_tail with rfl | ⟨a, -, hai⟩
  · exact (hR _ hr).2 h0
  · exact hs.no_edge_of_total h0 hai

/-- The garbage components of a scan. -/
theorem garbage_spec (hs : g.tab.Sound g.pool) (hF : Tarjan.Found g.succ R g.detector)
    (hR : ∀ r, R r → g.pool.isLiveAt r = true ∧ g.tab.total r ≠ 0) :
    (∀ c ∈ g.garbage, g.Doomed c) ∧
    (g.garbage.Pairwise fun c d => ∀ i ∈ c.2, i ∉ d.2) ∧
    ∀ i, i ∈ slots g.garbage ↔ ∃ s, g.sccOf i = some s ∧ g.reclaimable s = true := by
  have hmem : ∀ s, g.membersOf s = g.visitedOf s := membersOf_eq hs hF fun r hr => (hR r hr).1
  have hgar : ∀ c, c ∈ g.garbage ↔ c.1 < g.detector.comps ∧ g.reclaimable c.1 = true ∧
      c.2 = g.visitedOf c.1 ∧ c.2 ≠ [] := by
    rintro ⟨s, ms⟩
    unfold garbage
    simp only [List.mem_filter, List.mem_map, List.mem_range, Prod.mk.injEq, Bool.not_eq_true',
      List.isEmpty_eq_false_iff, hmem]
    constructor
    · rintro ⟨⟨s', ⟨h1, h2⟩, rfl, rfl⟩, h3⟩
      exact ⟨h1, h2, rfl, h3⟩
    · rintro ⟨h1, h2, rfl, h3⟩
      exact ⟨⟨s, ⟨h1, h2⟩, rfl, rfl⟩, h3⟩
  refine ⟨fun c hc => ?_, ?_, fun i => ?_⟩
  · obtain ⟨-, hrec, hms, hne⟩ := (hgar c).mp hc
    have hiso := (reclaimable_iff hs hF).mp hrec
    rw [← hms] at hiso
    have hvis : ∀ i ∈ c.2, i ∈ g.detector.visited := fun i hi => by
      rw [hms] at hi; exact List.mem_of_mem_filter hi
    exact
      { nodup := hms ▸ visitedOf_nodup hF, nonempty := hne
        live := fun i hi => visited_live hs hF (fun r hr => (hR r hr).1) (hvis i hi)
        total := fun i hi => total_visited hs hF hR (hvis i hi), unrooted := fun i hi => (hiso i hi).1
        closed := fun i j hj hij => (hiso j hj).2 i hij
        scc := fun i hi r hr => by rw [hms, mem_visitedOf hF] }
  · have hnd : ((List.range g.detector.comps).filter g.reclaimable).Pairwise (· ≠ ·) :=
      List.nodup_range.filter _
    unfold garbage
    refine (List.Pairwise.map _ (fun s s' hss i hi hi' => ?_) hnd).filter _
    simp only [hmem, mem_visitedOf hF] at hi hi'
    exact hss (Option.some.inj (hi.symm.trans hi'))
  · rw [mem_slots]
    constructor
    · rintro ⟨c, hc, hi⟩
      obtain ⟨-, hrec, hms, -⟩ := (hgar c).mp hc
      exact ⟨c.1, (mem_visitedOf hF).mp (hms ▸ hi), hrec⟩
    · rintro ⟨s, hs', hrec⟩
      have hv := (mem_visitedOf hF).mpr hs'
      obtain ⟨c, hlt, hc⟩ := hF.scc_visited i (List.mem_of_mem_filter hv)
      have hsc : s = c := Option.some.inj (hs'.symm.trans hc)
      exact ⟨(s, g.visitedOf s), (hgar _).mpr ⟨hsc ▸ hlt, hrec, rfl, List.ne_nil_of_mem hv⟩, hv⟩

theorem clearSuspects_spec (l : List ℕ) (e : AarcEngine) :
    let e' := l.foldl clearSuspect e
    (e'.pool = e.pool ∧ e'.tab = e.tab ∧ e'.kind = e.kind ∧ e'.owner = e.owner) ∧
    (e'.zeroMark = e.zeroMark ∧ e'.zeroStack = e.zeroStack ∧ e'.suspectStack = e.suspectStack ∧
      e'.detector = e.detector) ∧
    ∀ j, e'.suspectMark j = true ↔ e.suspectMark j = true ∧ j ∉ l := by
  induction l generalizing e with
  | nil => simp
  | cons i l ih =>
    obtain ⟨⟨h1, h2, h3, h4⟩, ⟨k1, k2, k3, k4⟩, hm⟩ := ih (e.clearSuspect i)
    have hko : (e.clearSuspect i).kind = e.kind ∧ (e.clearSuspect i).owner = e.owner := by
      unfold clearSuspect; split <;> exact ⟨rfl, rfl⟩
    rw [List.foldl_cons]
    refine ⟨⟨h1.trans clearSuspect_pool, h2.trans clearSuspect_tab, h3.trans hko.1,
      h4.trans hko.2⟩, ⟨k1.trans clearSuspect_zeroMark, k2.trans clearSuspect_zeroStack,
      k3.trans clearSuspect_suspectStack, k4.trans clearSuspect_detector⟩, fun j => ?_⟩
    rw [hm, clearSuspect_suspectMark, List.mem_cons, not_or, and_assoc]

/-- Garbage stays garbage when the marks of a scan are consumed. -/
theorem Doomed.clearSuspects {c : ℕ × List ℕ} (h : g.Doomed c) (l : List ℕ) :
    (l.foldl clearSuspect g).Doomed c := by
  obtain ⟨⟨hp, htab, -, -⟩, ⟨-, -, -, hdet⟩, -⟩ := clearSuspects_spec l g
  refine { h with live := ?_, total := ?_, unrooted := ?_, closed := ?_, scc := ?_ }
  · rw [hp]; exact h.live
  · rw [htab]; exact h.total
  · rw [htab]; exact h.unrooted
  · rw [htab]; exact h.closed
  · rw [htab]; unfold sccOf; rw [hdet]; exact h.scc

theorem mem_scanRoots : i ∈ e.scanRoots ↔ i ∈ e.suspectStack ∧ e.suspectMark i = true ∧
    e.pool.isLiveAt i = true ∧ 0 < e.tab.total i := by
  simp [scanRoots, and_assoc]

/-- A pass that finds no suspect only forgets its stack. -/
theorem Swept.noSuspects (h : e.Core) (hr : e.scanRoots = []) :
    Swept e { e with suspectStack := [] } ∅ := by
  refine ⟨.of_eq rfl rfl rfl rfl, ⟨h.sound, { h.marksFit with suspect_listed := fun i hi => ?_ },
    h.clean⟩, id, fun c _ => ?_⟩
  swap
  · exact ⟨fun hs => ⟨Finset.notMem_empty c, hs⟩, And.right⟩
  refine Or.inr (by_contra fun h0 => ?_)
  have hst := (h.marksFit.suspect_listed i hi).resolve_right h0
  have : i ∈ e.scanRoots := mem_scanRoots.mpr ⟨hst, hi, h.marksFit.suspect_live i hi,
    lt_of_le_of_ne (h.sound.total_nonneg i) (Ne.symm h0)⟩
  rw [hr] at this
  simp at this

/-- The engine once a scan has found its components. -/
def scanned (e : AarcEngine) : AarcEngine :=
  ({ e with suspectStack := [] } : AarcEngine).findComponents e.scanRoots

/-- The engine once a scan has also consumed the marks of what it visited. -/
def consumed (e : AarcEngine) : AarcEngine :=
  e.scanned.detector.visited.foldl clearSuspect e.scanned

theorem scanned_found (h : e.Core) :
    Tarjan.Found e.scanned.succ (fun r => r ∈ e.scanRoots ∧ e.pool.isLiveAt r = true)
      e.scanned.detector :=
  findComponents_spec (e := { e with suspectStack := [] }) h.sound h.clean e.scanRoots

theorem visited_of_mem_scanRoots (h : e.Core) (hi : i ∈ e.scanRoots) :
    i ∈ e.scanned.detector.visited :=
  ((scanned_found h).mem_visited i).mpr ⟨i, ⟨hi, (mem_scanRoots.mp hi).2.2.1⟩, .refl⟩

theorem comps_scanned (h : e.Core) (hre : e.scanRoots ≠ []) : e.scanned.detector.comps ≠ 0 := by
  obtain ⟨r, hr⟩ := List.exists_mem_of_ne_nil _ hre
  obtain ⟨c, hc, -⟩ := (scanned_found h).scc_visited r (visited_of_mem_scanRoots h hr)
  omega

/-- Every scan starts from live referenced cells. -/
theorem scanned_roots : ∀ r, (r ∈ e.scanRoots ∧ e.pool.isLiveAt r = true) →
    e.scanned.pool.isLiveAt r = true ∧ e.scanned.tab.total r ≠ 0 :=
  fun _ hr => ⟨hr.2, (mem_scanRoots.mp hr.1).2.2.2.ne'⟩

theorem mem_scanRoots_of_suspect (h : e.Core) (hm : e.suspectMark i = true)
    (h0 : e.tab.total i ≠ 0) : i ∈ e.scanRoots :=
  mem_scanRoots.mpr ⟨(h.marksFit.suspect_listed i hm).resolve_right h0, hm,
    h.marksFit.suspect_live i hm, lt_of_le_of_ne (h.sound.total_nonneg i) (Ne.symm h0)⟩

/-- A scan looks at every suspect that is referenced, so only others keep their marks. -/
theorem consumed_marksFit (h : e.Core) : e.consumed.MarksFit := by
  obtain ⟨⟨hp, htab, -, -⟩, ⟨hzm, hzs, hss, -⟩, hsm⟩ :=
    clearSuspects_spec e.scanned.detector.visited e.scanned
  refine { zeroOk := h.marksFit.zeroOk.of_eq hzm hzs, zero_live := ?_
           suspect_live := fun i hi => ?_
           suspect_listed := fun i hi => Or.inr (by_contra fun h0 => ?_) }
  · unfold consumed
    rw [hzs, hp]
    exact h.marksFit.zero_live
  · unfold consumed
    rw [hp]
    exact h.marksFit.suspect_live i ((hsm i).mp hi).1
  · unfold consumed at h0
    rw [htab] at h0
    obtain ⟨hi, hv⟩ := (hsm i).mp hi
    exact hv (visited_of_mem_scanRoots h (mem_scanRoots_of_suspect h hi h0))

theorem consumed_parked (hp : e.Parked) : e.consumed.Parked := by
  obtain ⟨⟨-, htab, -, -⟩, ⟨-, hzs, -, -⟩, hsm⟩ :=
    clearSuspects_spec e.scanned.detector.visited e.scanned
  intro i hi h0
  unfold consumed at h0 ⊢
  rw [htab] at h0
  rw [hzs]
  exact hp i ((hsm i).mp hi).1 h0

/-- One pass of a cycle collection: it frees cells on cycles only, and without them it only
forgets the suspects. -/
structure Pass (e e' : AarcEngine) (more : Bool) (F : Finset ℕ) : Prop where
  swept : Swept e e' F
  tight : e'.Tight
  more_iff : more = true ↔ F.Nonempty
  spent : F = ∅ → e'.suspectStack = []
  cyclic : ∀ i ∈ F, Relation.TransGen e.tab.Edge i i

theorem Pass.noSuspects (h : e.Core) (ht : e.Tight) (hr : e.scanRoots = []) :
    Pass e { e with suspectStack := [] } false ∅ :=
  ⟨.noSuspects h hr, ht, by simp, by simp, by simp⟩

/-- However a scan reclaims its garbage, the pass frees just that. -/
theorem Pass.of_reclaim {r : AarcEngine} {more : Bool} (h : e.Core) (ht : e.Tight)
    (hf : Freed e.consumed r F) (hs' : r.tab.Sound r.pool) (hr : Remarked e.consumed r F)
    (hF : ∀ i, i ∈ F ↔ ∃ s, e.scanned.sccOf i = some s ∧ e.scanned.reclaimable s = true)
    (hmore : more = true ↔ F.Nonempty) (hss : F = ∅ → r.suspectStack = []) :
    Pass e { r with detector := Tarjan.release e.scanned.detector.visited r.detector } more F := by
  have hfound := scanned_found h
  have hs : e.scanned.tab.Sound e.scanned.pool := h.sound
  obtain ⟨⟨hp, htab, hk, ho⟩, ⟨-, hzs, -, hdet⟩, hsm⟩ :=
    clearSuspects_spec e.scanned.detector.visited e.scanned
  change e.consumed.pool = e.pool at hp
  change e.consumed.tab = e.tab at htab
  change e.consumed.zeroStack = e.zeroStack at hzs
  have hsb : e.consumed.tab.Sound e.consumed.pool := by
    rw [hp, htab]
    exact h.sound
  have htb : e.consumed.Tight := by
    unfold Tight
    rw [hzs, htab]
    exact ht
  have hclean : Tarjan.Clean (Tarjan.release e.scanned.detector.visited r.detector) := by
    rw [hr.detector.trans hdet]
    exact hfound.release_clean
  set f : AarcEngine :=
    { r with detector := Tarjan.release e.scanned.detector.visited r.detector } with hfd
  have hfe : Freed e f F := by
    have := (Freed.of_eq (e := e) hp htab hk ho).trans hf
    rw [Finset.empty_union] at this
    exact { this with }
  have hcomp : ∀ i s, e.scanned.sccOf i = some s → e.scanned.reclaimable s = true →
      e.tab.root i = 0 ∧ ∀ a, e.tab.Edge a i → a ∈ F := by
    intro i s hi hrec
    obtain ⟨h1, h2⟩ := (reclaimable_iff hs hfound).mp hrec i ((mem_visitedOf hfound).mpr hi)
    exact ⟨h1, fun a ha => (hF a).mpr ⟨s, (mem_visitedOf hfound).mp (h2 a ha), hrec⟩⟩
  have hEb : ∀ a i, e.consumed.tab.Edge a i ↔ e.tab.Edge a i := by
    rw [htab]
    exact fun _ _ => Iff.rfl
  have hout : ∀ i, f.suspectMark i = true → i ∉ F := fun i hi hF => by
    rw [hr.gone i hF] at hi
    simp at hi
  have hmarks : f.MarksFit := { (consumed_marksFit h).step hsb hs' hf hr with }
  have hparked : e.Parked → r.Parked := fun hpark => (consumed_parked hpark).step hsb hs' hf hr
  have htight : r.Tight := htb.step hsb hs' hf hr
  refine ⟨.of_collects h hfe ⟨hs', hmarks, hclean⟩ hparked
    (collects_of hs' hfe (fun a i hi hai => ?_) (fun i hi => ?_) (fun c hc => ?_) (fun i hi => ?_)
      (fun w hw hp hsrc => ?_) (fun i a ha hai => ?_) fun i a ha hai => ?_),
    htight, hmore, hss, fun i hi => ?_⟩
  · obtain ⟨s, hi, hrec⟩ := (hF i).mp hi
    exact (hcomp i s hi hrec).2 a hai
  · obtain ⟨s, hi, hrec⟩ := (hF i).mp hi
    exact (hcomp i s hi hrec).1
  · obtain ⟨s, hc, -⟩ := (hF c).mp hc
    obtain ⟨r, ⟨hr, hrl⟩, hrc⟩ := (hfound.mem_visited c).mp
      (List.mem_of_mem_filter ((mem_visitedOf hfound).mpr hc))
    rw [edge_succ hs] at hrc
    obtain ⟨-, hm, -, h0⟩ := mem_scanRoots.mp hr
    exact ⟨r, hrc, Or.inr ⟨hm, h0⟩⟩
  · rcases hi with ⟨hz, h0⟩ | ⟨hm, h0⟩
    · rcases hr.zero_new i hz with hz' | ⟨-, a, ha, hai⟩
      · rw [hzs] at hz'
        exact Or.inl (Or.inl ⟨hz', ht i hz'⟩)
      · exact Or.inr ⟨a, ha, (hEb a i).mp hai⟩
    · rcases hr.new i hm with hm' | ⟨-, a, ha, hai⟩
      · exact Or.inl (Or.inr ⟨((hsm i).mp hm').1,
          h0.trans_le (hfe.total_le h.sound hs' (hout i hm))⟩)
      · exact Or.inr ⟨a, ha, (hEb a i).mp hai⟩
  · rcases hp with ⟨hz, h0⟩ | ⟨hm, h0⟩
    · refine Or.inl ⟨hr.zero_kept w (by rw [hzs]; exact hz) (by rw [htab]; exact h0) hw, ?_⟩
      exact le_antisymm (h0 ▸ hfe.total_le h.sound hs' hw) (hs'.total_nonneg w)
    · -- the component of an unrooted source is garbage, so its mark leads to a freed cell
      have hroot := mem_scanRoots_of_suspect h hm h0.ne'
      obtain ⟨s, -, hsw⟩ := hfound.scc_visited w (visited_of_mem_scanRoots h hroot)
      have hv := (mem_visitedOf hfound).mpr hsw
      refine absurd ((hF w).mpr ⟨s, hsw, (reclaimable_iff hs hfound).mpr fun j hj => ?_⟩) hw
      obtain ⟨hwj, hjw⟩ := (mem_visitedOf_iff hs hfound hv).mp hj
      refine ⟨le_antisymm (not_lt.mp (hsrc j hjw).1) (hs.root_nonneg j), fun i hij => ?_⟩
      have hiw : Reach e.tab.Edge i w := Relation.ReflTransGen.head hij hjw
      exact (mem_visitedOf_iff hs hfound hv).mpr ⟨(hsrc i hiw).2, hiw⟩
  · exact hr.hit_zero i a ha ((hEb a i).mpr hai)
  · exact hr.hit_suspect i a ha ((hEb a i).mpr hai)
  · -- a referenced member of an isolated component is referenced from a member
    obtain ⟨s, his, hrec⟩ := (hF i).mp hi
    have hv := (mem_visitedOf hfound).mpr his
    obtain ⟨hr0, hin⟩ := (reclaimable_iff hs hfound).mp hrec i hv
    have h0 := total_visited hs hfound scanned_roots (List.mem_of_mem_filter hv)
    have hpos : 0 < e.scanned.tab.edge i := by
      have := hs.edge_nonneg i
      unfold RefTable.total at h0
      omega
    obtain ⟨a, hai⟩ := hs.edge_pos_iff.mp hpos
    have hia := ((mem_visitedOf_iff hs hfound hv).mp (hin a hai)).1
    exact Relation.TransGen.tail' hia hai

theorem garbage_isEmpty (h : e.Core) :
    (!e.scanned.garbage.isEmpty) = true ↔ (slots e.scanned.garbage).Nonempty := by
  obtain ⟨hdoom, -⟩ := garbage_spec (g := e.scanned) h.sound (scanned_found h) scanned_roots
  rw [Bool.not_eq_true', List.isEmpty_eq_false_iff]
  constructor
  · intro hE
    obtain ⟨c, hc⟩ := List.exists_mem_of_ne_nil _ hE
    obtain ⟨i, hi⟩ := List.exists_mem_of_ne_nil _ (hdoom c hc).nonempty
    exact ⟨i, mem_slots.mpr ⟨c, hc, hi⟩⟩
  · rintro ⟨i, hi⟩
    obtain ⟨c, hc, -⟩ := mem_slots.mp hi
    exact List.ne_nil_of_mem hc

/-- A pass reclaims the garbage among what its suspects reach and consumes their marks. -/
theorem collectCyclePass_spec (h : e.Core) (ht : e.Tight) :
    ∃ F, Pass e e.collectCyclePass.1 e.collectCyclePass.2 F := by
  unfold collectCyclePass
  by_cases hre : e.scanRoots = []
  · simp only [hre, List.isEmpty_nil, if_true]
    exact ⟨∅, .noSuspects h ht hre⟩
  simp only [List.isEmpty_iff, hre, if_false]
  have hc : (({ e with suspectStack := [] } : AarcEngine).findComponents
      e.scanRoots).detector.comps ≠ 0 := comps_scanned h hre
  rw [if_neg hc]
  obtain ⟨hdoom, hdisj, hslots⟩ :=
    garbage_spec (g := e.scanned) h.sound (scanned_found h) scanned_roots
  obtain ⟨⟨hp, htab, -, -⟩, ⟨hzm, hzs, hss, -⟩, -⟩ :=
    clearSuspects_spec e.scanned.detector.visited e.scanned
  have hsb : e.consumed.tab.Sound e.consumed.pool := by
    unfold consumed
    rw [hp, htab]
    exact h.sound
  have htb : e.consumed.Tight := by
    unfold Tight consumed
    rw [hzs, htab]
    exact ht
  have hdoom' : ∀ c ∈ e.scanned.garbage, e.consumed.Doomed c := fun c hc =>
    (hdoom c hc).clearSuspects _
  obtain ⟨hf, hs', hr⟩ := reclaimComponents_spec hsb htb hdoom' hdisj (D := ∅) (by simp)
    (.refl _) hsb (.refl (consumed_marksFit h).zeroOk)
  rw [Finset.empty_union] at hf hr
  refine ⟨slots e.scanned.garbage,
    .of_reclaim h ht hf hs' hr hslots (garbage_isEmpty h) fun h0 => ?_⟩
  have hE : e.scanned.garbage = [] := by
    by_contra hn
    refine ((garbage_isEmpty h).mp ?_).ne_empty h0
    rw [Bool.not_eq_true', List.isEmpty_eq_false_iff]
    exact hn
  change (e.consumed.reclaimComponents e.scanned.garbage).suspectStack = []
  rw [hE]
  exact hss

end CyclePass

section Loops

variable {σ : Type*} {R : σ → AarcEngine → Prop} {pool : σ → CellPool} {stack : σ → List ℕ}
  {f : σ → σ × Bool} {s : σ}

/-- An engine that stands for another one, whose passes are passes of the other, frees cells on
cycles only until no suspect is left. -/
theorem passes_swept (hpool : ∀ {s e}, R s e → pool s = e.pool)
    (hpass : ∀ {s e}, R s e → e.Core → e.Tight →
      ∃ e' F, R (f s).1 e' ∧ Pass e e' (f s).2 F)
    (hR : R s e) (h : e.Core) (ht : e.Tight) :
    ∃ e' F, R (iterUntil f (e.pool.used + 1) s) e' ∧ Swept e e' F ∧ e'.Tight ∧
      e'.suspectStack = [] ∧ ∀ i ∈ F, Relation.TransGen e.tab.Edge i i := by
  have hcyc : ∀ {t t' b F F'}, Swept e t F → Pass t t' b F' →
      ∀ i ∈ F', Relation.TransGen e.tab.Edge i i := fun hF hP i hi =>
    Relation.TransGen.mono
      (fun x y hxy => ((hF.freed.edge_iff hF.core.sound x y).mp hxy).1) _ _ (hP.cyclic i hi)
  have hstep : ∀ u, (∃ t F, R u t ∧ Swept e t F ∧ t.Tight ∧
        ∀ i ∈ F, Relation.TransGen e.tab.Edge i i) →
      ∃ t F, R (f u).1 t ∧ Swept e t F ∧ t.Tight ∧
        ∀ i ∈ F, Relation.TransGen e.tab.Edge i i := by
    rintro u ⟨t, F, hu, hF, ht, hc⟩
    obtain ⟨t', F', hu', hP⟩ := hpass hu hF.core ht
    refine ⟨t', F ∪ F', hu', hF.trans hP.swept, hP.tight, fun i hi => ?_⟩
    exact (Finset.mem_union.mp hi).elim (hc i) (hcyc hF hP i)
  have hmeasure : ∀ u, (∃ t F, R u t ∧ Swept e t F ∧ t.Tight ∧
        ∀ i ∈ F, Relation.TransGen e.tab.Edge i i) →
      (f u).2 = true → (pool (f u).1).used < (pool u).used := by
    rintro u ⟨t, F, hu, hF, ht, -⟩ hflag
    obtain ⟨t', F', hu', hP⟩ := hpass hu hF.core ht
    rw [hpool hu, hpool hu']
    exact hP.swept.freed.used_lt (hP.more_iff.mp hflag)
  obtain ⟨u, ⟨t, F, hu, hF, ht, hc⟩, hstop, heq⟩ := iterUntil_stop (μ := fun u => (pool u).used)
    hstep hmeasure (e.pool.used + 1) ⟨e, ∅, hR, .refl h, ht, by simp⟩
    (by rw [hpool hR]; exact Nat.lt_succ_self _)
  obtain ⟨t', F', hu', hP⟩ := hpass hu hF.core ht
  have hE : F' = ∅ := by
    rw [← Finset.not_nonempty_iff_eq_empty, ← hP.more_iff, hstop]
    simp
  rw [heq]
  refine ⟨t', F ∪ F', hu', hF.trans hP.swept, hP.tight, hP.spent hE, fun i hi => ?_⟩
  exact (Finset.mem_union.mp hi).elim (hc i) (hcyc hF hP i)

/-- One round of a sweep: it ends without suspects, and another round follows only where it freed
a cell or found suspects. -/
structure Round (e e' : AarcEngine) (more : Bool) (F : Finset ℕ) : Prop where
  swept : Swept e e' F
  drained : more = false → e'.zeroStack = []
  spent : e'.suspectStack = []
  progress : more = true → F.Nonempty ∨ e.suspectStack ≠ []

/-- An engine that stands for another one, whose rounds are rounds of the other, reaches a state
with no mark left. -/
theorem rounds_swept (hpool : ∀ {s e}, R s e → pool s = e.pool)
    (hstack : ∀ {s e}, R s e → stack s = e.suspectStack)
    (hround : ∀ {s e}, R s e → e.Core → ∃ e' F, R (f s).1 e' ∧ Round e e' (f s).2 F)
    (hR : R s e) (h : e.Core) :
    ∃ e' F, R (iterUntil f (2 * e.pool.used + 2) s) e' ∧ Swept e e' F ∧ e'.zeroStack = [] ∧
      e'.suspectStack = [] := by
  have hstep : ∀ u, (∃ t F, R u t ∧ Swept e t F) → ∃ t F, R (f u).1 t ∧ Swept e t F := by
    rintro u ⟨t, F, hu, hF⟩
    obtain ⟨t', F', hu', hP⟩ := hround hu hF.core
    exact ⟨t', F ∪ F', hu', hF.trans hP.swept⟩
  have hmeasure : ∀ u, (∃ t F, R u t ∧ Swept e t F) → (f u).2 = true →
      2 * (pool (f u).1).used + (if stack (f u).1 = [] then 0 else 1) <
        2 * (pool u).used + (if stack u = [] then 0 else 1) := by
    rintro u ⟨t, F, hu, hF⟩ hflag
    obtain ⟨t', F', hu', hP⟩ := hround hu hF.core
    rw [hpool hu, hpool hu', hstack hu, hstack hu', if_pos hP.spent]
    rcases hP.progress hflag with hne | hs
    · have := hP.swept.freed.used_lt hne
      omega
    · have := hP.swept.freed.used_le
      rw [if_neg hs]
      omega
  obtain ⟨u, ⟨t, F, hu, hF⟩, hstop, heq⟩ := iterUntil_stop
    (μ := fun u => 2 * (pool u).used + if stack u = [] then 0 else 1) hstep hmeasure
    (2 * e.pool.used + 2) ⟨e, ∅, hR, .refl h⟩ (by rw [hpool hR]; split <;> omega)
  obtain ⟨t', F', hu', hP⟩ := hround hu hF.core
  rw [heq]
  exact ⟨t', F ∪ F', hu', hF.trans hP.swept, hP.drained hstop, hP.spent⟩

end Loops

section Sweep

theorem collectCycles_swept (h : e.Core) (ht : e.Tight) : ∃ F, Swept e e.collectCycles F ∧
    e.collectCycles.Tight ∧ e.collectCycles.suspectStack = [] ∧
    ∀ i ∈ F, Relation.TransGen e.tab.Edge i i := by
  have hpass : ∀ {s t : AarcEngine}, s = t → t.Core → t.Tight →
      ∃ t' F, s.collectCyclePass.1 = t' ∧ Pass t t' s.collectCyclePass.2 F := by
    rintro s _ rfl hc ht
    obtain ⟨F, hF⟩ := collectCyclePass_spec hc ht
    exact ⟨_, F, rfl, hF⟩
  obtain ⟨_, F, rfl, hF⟩ :=
    passes_swept (R := Eq) (f := collectCyclePass) (congrArg AarcEngine.pool) hpass rfl h ht
  exact ⟨F, hF⟩

/-- The cycle collection frees cells on cycles only, and ends with no suspect left. -/
theorem collectCycles_spec (h : e.Inv) (ht : e.Tight) : ∃ F, Collected e e.collectCycles F ∧
    e.collectCycles.Tight ∧ e.collectCycles.suspectStack = [] ∧
    ∀ i ∈ F, Relation.TransGen e.tab.Edge i i :=
  let ⟨F, hF, hrest⟩ := collectCycles_swept h.core ht
  ⟨F, .of_swept h hF, hrest⟩

theorem sweepTurn_spec (h : e.Core) : ∃ F, Round e e.sweepTurn.1 e.sweepTurn.2 F := by
  obtain ⟨F, hF, hz, hss⟩ := sweepZero_swept h
  unfold sweepTurn
  by_cases hs : e.sweepZero.suspectStack = []
  · simp only [hs, List.isEmpty_nil, if_true]
    exact ⟨F, hF, fun _ => hz, hs, by simp⟩
  · simp only [List.isEmpty_iff, hs, if_false]
    obtain ⟨F', hF', -, hss', -⟩ := collectCycles_swept hF.core (.of_nil hz)
    refine ⟨F ∪ F', hF.trans hF', by simp, hss', fun _ => ?_⟩
    rcases F.eq_empty_or_nonempty with hE | hne
    · exact Or.inr (hss hE ▸ hs)
    · exact Or.inl (hne.mono Finset.subset_union_left)

/-- No mark and no candidate is left behind. -/
structure Settled (e : AarcEngine) : Prop where
  inv : e.Inv
  zeroStack : e.zeroStack = []
  suspectStack : e.suspectStack = []

theorem Settled.suspectMark (h : e.Settled) (i : ℕ) : e.suspectMark i = false := by
  refine Bool.eq_false_iff.mpr fun hi => ?_
  rcases h.inv.marksOk.suspect_listed i hi with hl | h0
  · rw [h.suspectStack] at hl
    simp at hl
  · have := h.inv.marksOk.suspect_zero i hi h0
    rw [h.zeroStack] at this
    simp at this

theorem Core.not_pending (h : e.Core) (hz : e.zeroStack = []) (hs : e.suspectStack = []) (i : ℕ) :
    ¬ e.Pending i := by
  rintro (⟨hi, -⟩ | ⟨hi, h0⟩)
  · rw [hz] at hi
    cases hi
  · rcases h.marksFit.suspect_listed i hi with hl | h0'
    · rw [hs] at hl
      cases hl
    · omega

/-- A sweep reaches the common fixed point of its two passes. -/
theorem sweep_swept (h : e.Core) :
    ∃ F, Swept e e.sweep F ∧ e.sweep.zeroStack = [] ∧ e.sweep.suspectStack = [] := by
  have hround : ∀ {s t : AarcEngine}, s = t → t.Core →
      ∃ t' F, s.sweepTurn.1 = t' ∧ Round t t' s.sweepTurn.2 F := by
    rintro s _ rfl hc
    obtain ⟨F, hF⟩ := sweepTurn_spec hc
    exact ⟨_, F, rfl, hF⟩
  have hstack : ∀ {s t : AarcEngine}, s = t → s.suspectStack = t.suspectStack :=
    fun hst => by rw [hst]
  obtain ⟨_, F, rfl, hF⟩ :=
    rounds_swept (R := Eq) (f := sweepTurn) (congrArg AarcEngine.pool) hstack hround rfl h
  exact ⟨F, hF⟩

open scoped Classical in
/-- The live cells that do not survive a sweep. -/
noncomputable def dead (e : AarcEngine) : Finset ℕ :=
  (Finset.range e.pool.capacity).filter fun i => e.pool.isLiveAt i = true ∧ ¬ e.marks.Survives i

open scoped Classical in
theorem mem_dead : i ∈ e.dead ↔ e.pool.isLiveAt i = true ∧ ¬ e.marks.Survives i := by
  unfold dead
  rw [Finset.mem_filter, Finset.mem_range]
  exact ⟨And.right, fun h => ⟨(CellPool.isLiveAt_iff.mp h.1).1, h⟩⟩

/-- Collection steps that leave no mark free exactly the cells that do not survive. -/
theorem Swept.eq_dead (h : Swept e e' F) (hz : e'.zeroStack = []) (hs : e'.suspectStack = []) :
    F = e.dead := by
  ext i
  rw [mem_dead]
  constructor
  · intro hi
    have hl := h.freed.was i hi
    exact ⟨hl, fun hsv => ((h.survives i hl).mp hsv).1 hi⟩
  · rintro ⟨hl, hn⟩
    by_contra hi
    refine hn ((h.survives i hl).mpr ⟨hi, ?_⟩)
    exact Marked.survives_of_no_pend (h.core.not_pending hz hs) i

/-- A sweep frees exactly the cells that do not survive, whatever the messages were. -/
theorem sweep_dead (h : e.Core) : Swept e e.sweep e.dead := by
  obtain ⟨F, hF, hz, hs⟩ := sweep_swept h
  exact hF.eq_dead hz hs ▸ hF

/-- A sweep frees exactly the cells that do not survive. -/
theorem sweep_spec (h : e.Inv) : Freed e e.sweep e.dead ∧ e.sweep.Settled := by
  obtain ⟨F, hF, hz, hs⟩ := sweep_swept h.core
  exact ⟨(sweep_dead h.core).freed, (Collected.of_swept h hF).inv, hz, hs⟩

end Sweep

end AarcEngine

end Loxis.Aarc
