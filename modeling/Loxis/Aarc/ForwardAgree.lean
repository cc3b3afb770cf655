import Loxis.Aarc.ForwardSim
import Loxis.Aarc.LinkedSafe

/-! # Both edge stores collect alike

A sweep over a forward table frees garbage in another order than one over the linked lists, and
scans the targets of a cell in another order. The cells that survive depend on the marks and the
edges alone, so the two stores end with the same cells, counts and edges.
-/

namespace Loxis.Aarc

open Function

/-- The counts of messages that could not be applied as they were meant. -/
def Scratch.errors (s : Scratch) : ℕ × ℕ × ℕ := (s.staleDropped, s.rootUnderflow, s.edgeUnderflow)

namespace AarcEngine

variable {e : AarcEngine} {i : ℕ}

/-! A sweep reports no error. -/

@[simp] theorem markZero_errors : (e.markZero i).errors = e.errors := by
  unfold markZero
  split <;> rfl

@[simp] theorem setSuspect_errors : (e.setSuspect i).errors = e.errors := by
  unfold setSuspect
  split <;> rfl

@[simp] theorem clearSuspect_errors : (e.clearSuspect i).errors = e.errors := by
  unfold clearSuspect
  split <;> rfl

@[simp] theorem mark_errors : (e.mark i).errors = e.errors := by
  unfold mark markSuspect
  split_ifs <;> simp

theorem foldl_errors {α : Type*} {g : AarcEngine → α → AarcEngine} {l : List α}
    (hg : ∀ e a, (g e a).errors = e.errors) (e : AarcEngine) : (l.foldl g e).errors = e.errors := by
  induction l generalizing e with
  | nil => rfl
  | cons a l ih => exact (ih (g e a)).trans (hg e a)

@[simp] theorem releaseOuts_errors (p : ObjHandle → Bool) (ts : List ObjHandle) :
    (e.releaseOuts p ts).errors = e.errors := by
  refine foldl_errors (fun e t => ?_) e
  split
  · exact mark_errors
  · rfl

@[simp] theorem reclaimCell_errors : (e.reclaimCell i).errors = e.errors :=
  (releaseOuts_errors _ _).trans clearSuspect_errors

theorem iterUntil_errors {g : AarcEngine → AarcEngine × Bool}
    (hg : ∀ e, (g e).1.errors = e.errors) (n : ℕ) (e : AarcEngine) :
    (iterUntil g n e).errors = e.errors :=
  iterUntil_inv (P := fun t => t.errors = e.errors) (fun t ht => (hg t).trans ht) n rfl

theorem sweepZero_errors (e : AarcEngine) : e.sweepZero.errors = e.errors := by
  refine iterUntil_errors (fun e => ?_) _ e
  cases hst : e.zeroStack with
  | nil =>
    unfold sweepZeroTurn
    rw [hst]
  | cons i rest =>
    rw [sweepZeroTurn_cons hst]
    split
    · rfl
    · split
      · rfl
      · exact reclaimCell_errors (e := e.popZero i rest)

theorem detachMember_errors (s : ℕ) (e : AarcEngine) (i : ℕ) :
    (detachMember s e i).errors = e.errors := releaseOuts_errors _ _

theorem freeMember_errors (e : AarcEngine) (i : ℕ) : (e.freeMember i).errors = e.errors :=
  clearSuspect_errors (e := e.setTab (e.tab.resetSlot i))

theorem reclaimMembers_errors (c : ℕ → ℕ) (ms : List ℕ) :
    (e.reclaimMembers c ms).errors = e.errors :=
  (foldl_errors freeMember_errors _).trans
    (foldl_errors (fun e i => detachMember_errors (c i) e i) e)

theorem consumed_errors : e.consumed.errors = e.errors :=
  foldl_errors (fun _ _ => clearSuspect_errors) e.scanned

theorem collectCyclePass_errors (e : AarcEngine) : e.collectCyclePass.1.errors = e.errors := by
  unfold collectCyclePass
  simp only
  split
  · rfl
  · split
    · rfl
    · refine Eq.trans (b := (e.consumed.reclaimComponents e.scanned.garbage).errors) rfl ?_
      refine (foldl_errors (fun e c => ?_) _).trans consumed_errors
      exact reclaimMembers_errors (fun _ => c.1) c.2

theorem sweep_errors (e : AarcEngine) : e.sweep.errors = e.errors := by
  refine iterUntil_errors (fun e => ?_) _ e
  unfold sweepTurn
  simp only
  split
  · exact sweepZero_errors e
  · exact (iterUntil_errors collectCyclePass_errors _ _).trans (sweepZero_errors e)

end AarcEngine

namespace ForwardEngine

variable {S : List ObjHandle → List ObjHandle → Prop} {D : List ℕ} {f : ForwardEngine}
  {e : AarcEngine} {i : ℕ}

section Sweep

/-- The components of a scan that nothing outside refers to. -/
def isolated (e : AarcEngine) (s : ℕ) : Bool :=
  decide (s < e.scanned.detector.comps) && e.scanned.reclaimable s

/-- What a pass over a forward table reclaims, in its order. -/
def doomed (e : AarcEngine) : List ℕ :=
  e.scanned.detector.visited.filter (selected e.consumed (isolated e))

/-- A full table after the pass, its doomed cells freed in two phases. -/
def passed (e : AarcEngine) : AarcEngine :=
  let r := e.consumed.reclaimMembers (compOf e.consumed) (doomed e)
  { r with detector := Tarjan.release e.scanned.detector.visited r.detector }

theorem sccOf_consumed (e : AarcEngine) (j : ℕ) : e.consumed.sccOf j = e.scanned.sccOf j := by
  obtain ⟨-, ⟨-, -, -, hdet⟩, -⟩ :=
    AarcEngine.clearSuspects_spec e.scanned.detector.visited e.scanned
  unfold AarcEngine.sccOf AarcEngine.consumed
  rw [hdet]

theorem consumed_tab (e : AarcEngine) : e.consumed.pool = e.pool ∧ e.consumed.tab = e.tab := by
  obtain ⟨⟨hp, ht, -, -⟩, -, -⟩ :=
    AarcEngine.clearSuspects_spec e.scanned.detector.visited e.scanned
  exact ⟨hp, ht⟩

section Doomed

variable (hc : e.Core)

include hc

theorem mem_doomed : i ∈ doomed e ↔
    ∃ s, e.scanned.sccOf i = some s ∧ e.scanned.reclaimable s = true := by
  have hfound := AarcEngine.scanned_found hc
  unfold doomed selected isolated
  rw [List.mem_filter, sccOf_consumed, Option.any_eq_true]
  constructor
  · rintro ⟨-, s, hs, hg⟩
    exact ⟨s, hs, (Bool.and_eq_true_iff.mp hg).2⟩
  · rintro ⟨s, hs, hrec⟩
    have hv := List.mem_of_mem_filter ((AarcEngine.mem_visitedOf hfound).mpr hs)
    obtain ⟨c, hlt, hc⟩ := hfound.scc_visited i hv
    obtain rfl : s = c := Option.some.inj (hs.symm.trans hc)
    exact ⟨hv, s, hs, by simp [hlt, hrec]⟩

/-- Every edge into an isolated component comes from it. -/
theorem scc_of_edge {j s : ℕ} (hj : e.scanned.sccOf j = some s)
    (hrec : e.scanned.reclaimable s = true) (hij : e.tab.Edge i j) :
    e.scanned.sccOf i = some s := by
  have hfound := AarcEngine.scanned_found hc
  have hs : e.scanned.tab.Sound e.scanned.pool := hc.sound
  exact (AarcEngine.mem_visitedOf hfound).mp (((AarcEngine.reclaimable_iff hs hfound).mp hrec j
    ((AarcEngine.mem_visitedOf hfound).mpr hj)).2 i hij)

theorem doomed_closed (i j : ℕ) (hj : j ∈ doomed e) (hij : e.tab.Edge i j) : i ∈ doomed e := by
  obtain ⟨s, hj, hrec⟩ := (mem_doomed hc).mp hj
  exact (mem_doomed hc).mpr ⟨s, scc_of_edge hc hj hrec hij, hrec⟩

theorem doomed_scc (hi : i ∈ doomed e) {r : EdgeRec} (hr : r ∈ e.tab.outRecs i) :
    e.consumed.sccOf r.dst.index = some (compOf e.consumed i) ↔ r.dst.index ∈ doomed e := by
  obtain ⟨s, his, hrec⟩ := (mem_doomed hc).mp hi
  have hci : compOf e.consumed i = s := by
    unfold compOf
    rw [sccOf_consumed, his]
    rfl
  rw [sccOf_consumed, hci]
  constructor
  · exact fun hd => (mem_doomed hc).mpr ⟨s, hd, hrec⟩
  · intro hd
    obtain ⟨s', hd, hrec'⟩ := (mem_doomed hc).mp hd
    have := scc_of_edge hc hd hrec' ⟨r, hr, rfl⟩
    rw [hd, ← this, his]

theorem doomed_nodup : (doomed e).Nodup := (AarcEngine.scanned_found hc).visited_nodup.filter _

/-- What a scan visits is live and has no mark left. -/
theorem visited_consumed (hi : i ∈ e.scanned.detector.visited) :
    e.consumed.pool.isLiveAt i = true ∧ e.consumed.suspectMark i = false := by
  obtain ⟨-, -, hsm⟩ := AarcEngine.clearSuspects_spec e.scanned.detector.visited e.scanned
  have hl := AarcEngine.visited_live (g := e.scanned) hc.sound (AarcEngine.scanned_found hc)
    (fun r hr => hr.2) hi
  refine ⟨?_, Bool.eq_false_iff.mpr fun h => ((hsm i).mp h).2 hi⟩
  rw [(consumed_tab e).1]
  exact hl

theorem passed_pass (ht : e.Tight) :
    AarcEngine.Pass e (passed e) (!(doomed e).isEmpty) (doomed e).toFinset := by
  obtain ⟨-, ⟨-, hzs, hss, -⟩, -⟩ :=
    AarcEngine.clearSuspects_spec e.scanned.detector.visited e.scanned
  obtain ⟨hp, htab⟩ := consumed_tab e
  have hvis : ∀ i ∈ doomed e, i ∈ e.scanned.detector.visited := fun i hi =>
    List.mem_of_mem_filter hi
  have hsb : e.consumed.tab.Sound e.consumed.pool := by
    rw [hp, htab]
    exact hc.sound
  have hout : ∀ i ∈ e.consumed.zeroStack, i ∉ doomed e := fun i hi him => by
    have h0 := AarcEngine.total_visited (g := e.scanned) hc.sound (AarcEngine.scanned_found hc)
      AarcEngine.scanned_roots (hvis i him)
    exact h0 (ht i (hzs ▸ hi))
  obtain ⟨hf, hs', hr⟩ := AarcEngine.reclaimMembers_spec (c := compOf e.consumed) hsb
    (AarcEngine.consumed_marksFit hc).zeroOk (doomed_nodup hc)
    (fun i hi => (visited_consumed hc (hvis i hi)).1)
    (fun i j hj hij => doomed_closed hc i j hj (htab ▸ hij)) hout
    fun i hi r hr => doomed_scc hc hi (htab ▸ hr)
  refine .of_reclaim hc ht hf hs' hr (fun i => by rw [List.mem_toFinset, mem_doomed hc]) ?_
    fun hE => ?_
  · simp [List.toFinset_nonempty_iff]
  · rw [List.toFinset_eq_empty_iff] at hE
    unfold AarcEngine.reclaimMembers
    rw [hE]
    exact hss

end Doomed

/-- A pass over a forward table frees what a pass over a full one frees. -/
theorem Trails.collectCyclePass (h : Trails Eq [] f e) (hc : e.Core) (ht : e.Tight) :
    ∃ e' F, (Trails Eq [] f.collectCyclePass.1 e' ∧ e'.errors = e.errors) ∧
      AarcEngine.Pass e e' f.collectCyclePass.2 F := by
  have h0 : Trails Eq [] ({ f with suspectStack := [] } : ForwardEngine)
      { e with suspectStack := [] } := { h with scratch := by simp [h.scratch] }
  unfold ForwardEngine.collectCyclePass
  rw [h.scanRoots_eq]
  by_cases hre : e.scanRoots = []
  · simp only [hre, List.isEmpty_nil, if_true]
    exact ⟨_, ∅, ⟨h0, rfl⟩, .noSuspects hc ht hre⟩
  simp only [List.isEmpty_iff, hre, if_false]
  have h1 : Trails Eq [] (({ f with suspectStack := [] } : ForwardEngine).findComponents
      e.scanRoots) e.scanned := h0.findComponents _
  generalize ({ f with suspectStack := [] } : ForwardEngine).findComponents e.scanRoots = f₁ at h1 ⊢
  have hdet : f₁.detector = e.scanned.detector := congrArg Scratch.detector h1.scratch
  simp only [hdet, h1.reclaimable_eq]
  rw [if_neg (AarcEngine.comps_scanned hc hre)]
  have h2 : Trails Eq [] (e.scanned.detector.visited.foldl ForwardEngine.clearSuspect f₁)
      e.consumed := h1.clearSuspects _
  obtain ⟨hp, htab⟩ := consumed_tab e
  have hsb : e.consumed.tab.Sound e.consumed.pool := by
    rw [hp, htab]
    exact hc.sound
  have hzb := (AarcEngine.consumed_marksFit hc).zeroOk
  have hscc : ∀ i ∈ doomed e, ∀ r ∈ e.consumed.tab.outRecs i,
      e.consumed.sccOf r.dst.index = some (compOf e.consumed i) ↔ r.dst.index ∈ doomed e :=
    fun i hi r hr => doomed_scc hc hi (htab ▸ hr)
  have hsel : ∀ i ∈ e.scanned.detector.visited,
      selected e.consumed (isolated e) i = true → i ∈ doomed e := fun i hi hsel =>
    List.mem_filter.mpr ⟨hi, hsel⟩
  obtain ⟨h3, hmore⟩ := reclaimVisited_trails (F := (doomed e).toFinset) h2 hsb hzb
    (AarcEngine.scanned_found hc).visited_nodup (fun i hi => (visited_consumed hc hi).1)
    (fun i hi => (visited_consumed hc hi).2)
    (fun i hi hs => List.mem_toFinset.mpr (hsel i hi hs))
    fun i hi hs r hr => by rw [hscc i (hsel i hi hs) r hr, List.mem_toFinset]
  have hdef : e.scanned.detector.visited.filter (selected e.consumed (isolated e)) = doomed e := rfl
  rw [hdef] at h3 hmore
  -- the detached members are unmarked and live, so freeing them ends in the same state
  have hphase := AarcEngine.reclaimMembers_phases hsb hzb (doomed_nodup hc) hscc
  obtain ⟨L, hrel, hL⟩ := hphase.released
  have hvis : ∀ i ∈ doomed e, i ∈ e.scanned.detector.visited := fun i hi =>
    List.mem_of_mem_filter hi
  have h4 := h3.freeMembers (doomed_nodup hc)
    (fun i hi => by rw [hrel.pool]; exact (visited_consumed hc (hvis i hi)).1)
    (fun i hi => by rw [hphase.outRecs, if_pos (List.mem_toFinset.mpr hi)])
    fun i hi => Bool.eq_false_iff.mpr fun h => by
      rcases hrel.new i h with h | ⟨h, -⟩
      · rw [(visited_consumed hc (hvis i hi)).2] at h
        simp at h
      · exact ((hL i).mp h).1 (List.mem_toFinset.mpr hi)
  have hP := passed_pass hc ht
  rw [← hmore] at hP
  refine ⟨passed e, _, ⟨{ h4 with scratch := ?_ }, ?_⟩, hP⟩
  · exact congrArg (fun s : Scratch =>
      { s with detector := Tarjan.release e.scanned.detector.visited s.detector }) h4.scratch
  · exact (AarcEngine.reclaimMembers_errors _ _).trans AarcEngine.consumed_errors

theorem Trails.collectCycles (h : Trails Eq [] f e) (hc : e.Core) (ht : e.Tight) :
    ∃ e' F, (Trails Eq [] f.collectCycles e' ∧ e'.errors = e.errors) ∧
      AarcEngine.Swept e e' F ∧ e'.suspectStack = [] := by
  have hp : f.pool = e.pool := h.pool
  have hpool : ∀ {s : ForwardEngine} {t : AarcEngine},
      (Trails Eq [] s t ∧ t.errors = e.errors) → s.pool = t.pool := fun h => h.1.pool
  have hpass : ∀ {s : ForwardEngine} {t : AarcEngine},
      (Trails Eq [] s t ∧ t.errors = e.errors) → t.Core → t.Tight →
        ∃ t' F, (Trails Eq [] s.collectCyclePass.1 t' ∧ t'.errors = e.errors) ∧
          AarcEngine.Pass t t' s.collectCyclePass.2 F := fun h hc ht => by
    obtain ⟨t', F, ⟨h1, h2⟩, hP⟩ := h.1.collectCyclePass hc ht
    exact ⟨t', F, ⟨h1, h2.trans h.2⟩, hP⟩
  obtain ⟨e', F, h', hF, -, hs, -⟩ := AarcEngine.passes_swept
    (R := fun f e' => Trails Eq [] f e' ∧ e'.errors = e.errors) hpool hpass ⟨h, rfl⟩ hc ht
  unfold ForwardEngine.collectCycles
  rw [hp]
  exact ⟨e', F, h', hF, hs⟩

/-- The engine with its newest candidate popped. -/
def popZero (f : ForwardEngine) (i : ℕ) (rest : List ℕ) : ForwardEngine :=
  { f with zeroStack := rest, zeroMark := update f.zeroMark i false }

theorem sweepZeroTurn_cons {rest : List ℕ} (hst : f.zeroStack = i :: rest) :
    f.sweepZeroTurn =
      if !f.pool.isLiveAt i then (f.popZero i rest, true)
      else if f.tab.total i ≠ 0 then (f.popZero i rest, true)
      else ((f.popZero i rest).reclaimCell i, true) := by
  unfold sweepZeroTurn
  rw [hst]
  rfl

namespace Trails

theorem sweepZeroTurn (h : Trails Eq [] f e) (hc : e.Core) :
    Trails Eq [] f.sweepZeroTurn.1 e.sweepZeroTurn.1 ∧
      f.sweepZeroTurn.2 = e.sweepZeroTurn.2 := by
  have hz : f.zeroStack = e.zeroStack := congrArg Scratch.zeroStack h.scratch
  have hp : f.pool = e.pool := h.pool
  cases hst : e.zeroStack with
  | nil =>
    unfold ForwardEngine.sweepZeroTurn AarcEngine.sweepZeroTurn
    rw [hz, hst]
    exact ⟨h, rfl⟩
  | cons i rest =>
    have hpop : Trails Eq [] (f.popZero i rest) (e.popZero i rest) :=
      { h with scratch := congrArg (fun s : Scratch =>
          { s with zeroStack := rest, zeroMark := update s.zeroMark i false }) h.scratch }
    rw [ForwardEngine.sweepZeroTurn_cons (hz.trans hst), AarcEngine.sweepZeroTurn_cons hst, hp,
      h.total_eq List.not_mem_nil]
    split
    · exact ⟨hpop, rfl⟩
    · split
      · exact ⟨hpop, rfl⟩
      · exact ⟨hpop.reclaimCell hc.sound.toLinked i, rfl⟩

theorem sweepZero (h : Trails Eq [] f e) (hc : e.Core) : Trails Eq [] f.sweepZero e.sweepZero := by
  have hz : f.zeroStack = e.zeroStack := congrArg Scratch.zeroStack h.scratch
  have hp : f.pool = e.pool := h.pool
  have hstep : ∀ (f : ForwardEngine) (e : AarcEngine), Trails Eq [] f e ∧ e.Core →
      (Trails Eq [] f.sweepZeroTurn.1 e.sweepZeroTurn.1 ∧ e.sweepZeroTurn.1.Core) ∧
        f.sweepZeroTurn.2 = e.sweepZeroTurn.2 := by
    rintro f e ⟨h, hc⟩
    obtain ⟨h1, h2⟩ := h.sweepZeroTurn hc
    refine ⟨⟨h1, ?_⟩, h2⟩
    by_cases hst : e.zeroStack = []
    · unfold AarcEngine.sweepZeroTurn
      rw [hst]
      exact hc
    · obtain ⟨-, F, hF, -⟩ := AarcEngine.sweepZeroTurn_spec hc hst
      exact hF.core
  unfold ForwardEngine.sweepZero AarcEngine.sweepZero
  rw [hp, hz]
  exact (iterUntil_sim hstep _ ⟨h, hc⟩).1

theorem sweepTurn (h : Trails Eq [] f e) (hc : e.Core) : ∃ e' F,
    (Trails Eq [] f.sweepTurn.1 e' ∧ e'.errors = e.errors) ∧
      AarcEngine.Round e e' f.sweepTurn.2 F := by
  obtain ⟨F, hF, hz, hss⟩ := AarcEngine.sweepZero_swept hc
  have h1 := h.sweepZero hc
  have hst : f.sweepZero.suspectStack = e.sweepZero.suspectStack :=
    congrArg Scratch.suspectStack h1.scratch
  unfold ForwardEngine.sweepTurn
  by_cases hs : e.sweepZero.suspectStack = []
  · simp only [hst, hs, List.isEmpty_nil, if_true]
    exact ⟨_, F, ⟨h1, AarcEngine.sweepZero_errors e⟩, hF, fun _ => hz, hs, by simp⟩
  · simp only [hst, List.isEmpty_iff, hs, if_false]
    obtain ⟨e', F', ⟨h', he⟩, hF', hss'⟩ := h1.collectCycles hF.core (.of_nil hz)
    refine ⟨e', F ∪ F', ⟨h', he.trans (AarcEngine.sweepZero_errors e)⟩, hF.trans hF', by simp,
      hss', fun _ => ?_⟩
    rcases F.eq_empty_or_nonempty with hE | hne
    · exact Or.inr (hss hE ▸ hs)
    · exact Or.inl (hne.mono Finset.subset_union_left)

/-- A sweep over a forward table frees exactly the cells that do not survive. -/
theorem sweep (h : Trails Eq [] f e) (hc : e.Core) :
    ∃ e', (Trails Eq [] f.sweep e' ∧ e'.errors = e.errors) ∧ AarcEngine.Swept e e' e.dead := by
  have hp : f.pool = e.pool := h.pool
  have hpool : ∀ {s : ForwardEngine} {t : AarcEngine},
      (Trails Eq [] s t ∧ t.errors = e.errors) → s.pool = t.pool := fun h => h.1.pool
  have hstack : ∀ {s : ForwardEngine} {t : AarcEngine},
      (Trails Eq [] s t ∧ t.errors = e.errors) → s.suspectStack = t.suspectStack :=
    fun h => congrArg Scratch.suspectStack h.1.scratch
  have hround : ∀ {s : ForwardEngine} {t : AarcEngine},
      (Trails Eq [] s t ∧ t.errors = e.errors) → t.Core →
        ∃ t' F, (Trails Eq [] s.sweepTurn.1 t' ∧ t'.errors = e.errors) ∧
          AarcEngine.Round t t' s.sweepTurn.2 F := fun h hc => by
    obtain ⟨t', F, ⟨h1, h2⟩, hR⟩ := h.1.sweepTurn hc
    exact ⟨t', F, ⟨h1, h2.trans h.2⟩, hR⟩
  obtain ⟨e', F, h', hF, hz, hs⟩ := AarcEngine.rounds_swept
    (R := fun f e' => Trails Eq [] f e' ∧ e'.errors = e.errors) hpool hstack hround ⟨h, rfl⟩ hc
  unfold ForwardEngine.sweep
  rw [hp]
  exact ⟨e', h', hF.eq_dead hz hs ▸ hF⟩

end Trails

end Sweep

end ForwardEngine

namespace AarcEngine

variable {e : AarcEngine} {i : ℕ}

/-- The marks of an engine that has only been given messages: they are on live cells, and no
suspect has been dropped from the stack. -/
structure Alert (e : AarcEngine) : Prop where
  zero_live : ∀ i ∈ e.zeroStack, e.pool.isLiveAt i = true
  suspect_live : ∀ i, e.suspectMark i = true → e.pool.isLiveAt i = true
  listed : ∀ i, e.suspectMark i = true → i ∈ e.suspectStack

theorem Alert.markZero (h : e.Alert) (hl : e.pool.isLiveAt i = true) : (e.markZero i).Alert := by
  unfold AarcEngine.markZero
  split
  · exact h
  · refine { h with zero_live := fun j hj => ?_ }
    rcases List.mem_cons.mp hj with rfl | hj
    · exact hl
    · exact h.zero_live j hj

theorem Alert.setSuspect (h : e.Alert) (hl : e.pool.isLiveAt i = true) :
    (e.setSuspect i).Alert := by
  unfold AarcEngine.setSuspect
  split
  · exact h
  · refine { h with suspect_live := fun j hj => ?_, listed := fun j hj => ?_ }
    all_goals
      simp only [update_apply] at hj
      split at hj
      · next hji => simp [hji, hl]
    · exact h.suspect_live j hj
    · exact List.mem_cons_of_mem _ (h.listed j hj)

theorem Alert.mark (h : e.Alert) (hl : e.pool.isLiveAt i = true) : (e.mark i).Alert := by
  unfold AarcEngine.mark markSuspect
  split_ifs
  · exact h.markZero hl
  · exact h.setSuspect hl
  · exact h

theorem Alert.process (h : e.Alert) (m : GCMessage) : (e.process m).Alert := by
  have hset : ∀ t, (e.setTab t).Alert := fun _ => { h with }
  have hset' : ∀ t u, ((e.setTab t).setTab u).Alert := fun _ _ => { h with }
  have hlive : ∀ {b : ObjHandle}, ¬ (!e.live b) = true → e.pool.isLiveAt b.index = true :=
    fun hb => (CellPool.valid_iff.mp (by simpa [live] using hb)).1
  unfold AarcEngine.process
  cases m.op with
  | rootAdd => simp only; split_ifs <;> exact { h with }
  | rootRemove =>
    simp only
    split_ifs with hb
    · exact { h with }
    · exact { h with }
    · exact (hset _).mark (hlive hb)
  | rootCheck =>
    simp only
    split_ifs with hb
    · exact { h with }
    · exact h.mark (hlive hb)
  | edgeAdd => simp only; split_ifs <;> exact { h with }
  | edgeRemove =>
    simp only
    split_ifs with ha h1 hb h2
    · exact { h with }
    · exact { h with }
    · exact { h with }
    · exact { h with }
    · exact (hset' _ _).mark (hlive hb)
  | terminate => exact h

theorem Stable.core (hs : e.Stable) (h : e.Alert) : e.Core where
  sound := hs.sound
  marksFit :=
    { zeroOk := hs.zeroOk, zero_live := h.zero_live, suspect_live := h.suspect_live
      suspect_listed := fun i hi => Or.inl (h.listed i hi) }
  clean := hs.clean

end AarcEngine

section Aligned

variable {f : ForwardEngine} {e : AarcEngine}

/-- A full table with the out-lists of a forward table. -/
def ForwardEngine.aligned (f : ForwardEngine) (e : AarcEngine) : AarcEngine :=
  e.setTab { e.tab with outRecs := fun i => (f.tab.outs i).map fun d => ⟨e.pool.handleAt i, d⟩ }

namespace ForwardEngine.Trails

variable (h : Trails List.Perm [] f e) (hs : e.tab.Sound e.pool)

include h hs

theorem perm_aligned (i : ℕ) : ((f.aligned e).tab.outRecs i).Perm (e.tab.outRecs i) := by
  rw [hs.outRecs_eq i]
  exact (h.outs i List.not_mem_nil).map _

theorem sound_aligned : (f.aligned e).tab.Sound (f.aligned e).pool := by
  have hp := h.perm_aligned hs
  exact
    { out_src := fun i r hr => hs.out_src i r ((hp i).mem_iff.mp hr), in_dst := hs.in_dst
      count_eq := fun r => ((hp _).count_eq r).trans (hs.count_eq r), dead_root := hs.dead_root
      root_nonneg := hs.root_nonneg
      valid_src := fun i r hr => hs.valid_src i r ((hp i).mem_iff.mp hr)
      valid_dst := fun i r hr => hs.valid_dst i r ((hp i).mem_iff.mp hr), edge_eq := hs.edge_eq }

omit hs in
theorem aligned : Trails Eq [] f (f.aligned e) where
  scratch := h.scratch
  pool := h.pool
  gone := h.gone
  root := h.root
  edge := h.edge
  outs i _ := by
    unfold RefTable.outs ForwardEngine.aligned AarcEngine.setTab
    rw [List.map_map]
    exact (List.map_id _).symm

omit h hs in
theorem core_aligned (h : Trails List.Perm [] f e) (hc : e.Core) : (f.aligned e).Core where
  sound := h.sound_aligned hc.sound
  marksFit := { hc.marksFit with }
  clean := hc.clean

/-- What survives does not depend on the order of the lists. -/
theorem dead_aligned : (f.aligned e).dead = e.dead := by
  have hedge : (f.aligned e).tab.Edge = e.tab.Edge := by
    funext i j
    unfold RefTable.Edge
    simp only [(h.perm_aligned hs i).mem_iff]
  have hmarks : (f.aligned e).marks = e.marks := by
    unfold AarcEngine.marks
    rw [hedge]
    rfl
  ext i
  rw [AarcEngine.mem_dead, AarcEngine.mem_dead, hmarks]
  rfl

end ForwardEngine.Trails

end Aligned

/-- The two engines have the same live cells, with the same counts, the same targets in some
order, and as many errors of each kind. -/
structure Agree (f : ForwardEngine) (l : LinkedEngine) : Prop where
  live : ∀ x, f.live x = l.live x
  root : ∀ i, f.tab.root i = l.tab.root i
  edge : ∀ i, f.tab.edge i = l.tab.edge i
  outs : ∀ i, (f.tab.outs i).Perm (l.tab.outs i)
  errors : f.errors = l.errors

theorem AarcEngine.Freed.valid_eq {e g e' g' : AarcEngine} {F : Finset ℕ} (h : Freed e e' F)
    (h' : Freed g g' F) (hp : g.pool = e.pool) (x : ObjHandle) :
    g'.pool.valid x = e'.pool.valid x := by
  unfold CellPool.valid
  rw [h.isLiveAt, h'.isLiveAt, hp]
  by_cases hx : x.index ∈ F
  · simp [hx]
  · rw [h.gen _ hx, h'.gen _ hx, hp]

/-- Engines that stand alike before a sweep agree after it. -/
theorem ForwardEngine.Trails.agree {f : ForwardEngine} {l : LinkedEngine} {e : AarcEngine}
    (h : Trails List.Perm [] f e) (hl : l.Tracks e) (ha : e.Alert) : Agree f.sweep l.sweep := by
  have hc := hl.stable.core ha
  obtain ⟨g, ⟨ht, herr⟩, hF⟩ := h.aligned.sweep (h.core_aligned hc)
  rw [h.dead_aligned hc.sound] at hF
  have hE := AarcEngine.sweep_dead hc
  obtain ⟨t, O, I, _, hlt, hr⟩ := id hl.sweep.follows
  have hpool : l.sweep.pool = e.sweep.pool := hl.sweep.follows.pool
  have hscr : l.sweep.toScratch = e.sweep.toScratch := hl.sweep.follows.toScratch
  have hroot : l.sweep.tab.root = e.sweep.tab.root := by
    rw [hlt]
    exact hr.root
  have hedge : l.sweep.tab.edge = e.sweep.tab.edge := by
    rw [hlt]
    exact hr.edge
  have hlive : ∀ i ∈ e.dead, g.pool.isLiveAt i = false ∧ e.sweep.pool.isLiveAt i = false :=
    fun i hi => by simp [hF.freed.isLiveAt, hE.freed.isLiveAt, hi]
  refine ⟨fun x => ?_, fun i => ?_, fun i => ?_, fun i => ?_, ?_⟩
  · unfold ForwardEngine.live LinkedEngine.live
    rw [hpool, ht.pool]
    exact hE.freed.valid_eq hF.freed rfl x
  · rw [hroot, ht.root_eq]
    by_cases hi : i ∈ e.dead
    · rw [hF.core.sound.dead_root i (hlive i hi).1, hE.core.sound.dead_root i (hlive i hi).2]
    · rw [hF.freed.root i hi, hE.freed.root i hi]
      rfl
  · rw [hedge, ht.edge_eq, hF.core.sound.edge_eq, hE.core.sound.edge_eq]
    by_cases hi : i ∈ e.dead
    · rw [← hF.core.sound.edge_eq, ← hE.core.sound.edge_eq,
        hF.core.sound.dead_edge (hlive i hi).1, hE.core.sound.dead_edge (hlive i hi).2]
    · rw [hF.freed.inRecs i hi, hE.freed.inRecs i hi]
      rfl
  · rw [hl.sweep.follows.outs_eq, ht.outs i List.not_mem_nil]
    unfold RefTable.outs
    by_cases hi : i ∈ e.dead
    · rw [hF.core.sound.dead_out (hlive i hi).1, hE.core.sound.dead_out (hlive i hi).2]
    · rw [hF.freed.outRecs i hi, hE.freed.outRecs i hi]
      exact (h.perm_aligned hc.sound i).map _
  · rw [ht.scratch, hscr, herr, AarcEngine.sweep_errors]
    rfl

/-- What is fed to an engine: a mutator takes a cell from the pool, or a message arrives. -/
inductive Feed
  | alloc (i : ℕ) (o : OwnerToken) (r : Regime)
  | message (m : GCMessage)

/-- The pool after a cell was asked for. -/
def CellPool.take (p : CellPool) (i : ℕ) (o : OwnerToken) (r : Regime) : CellPool :=
  match p.allocInto i o r with
  | some (_, q) => q
  | none => p

namespace ForwardEngine

def feed (f : ForwardEngine) : Feed → ForwardEngine
  | .alloc i o r => { f with pool := f.pool.take i o r }
  | .message m => f.process m

def feedAll (f : ForwardEngine) (ms : List Feed) : ForwardEngine := ms.foldl feed f

end ForwardEngine

namespace LinkedEngine

/-- A fresh engine over a fresh pool. -/
def init (capacity : ℕ) (kind : Regime) (owner : OwnerToken) : LinkedEngine :=
  { Scratch.init with
    pool := CellPool.init capacity kind, tab := LinkedTable.init, kind := kind, owner := owner }

def feed (l : LinkedEngine) : Feed → Option LinkedEngine
  | .alloc i o r => some { l with pool := l.pool.take i o r }
  | .message m => l.process m

/-- A message that throws ends the run. -/
def feedAll (l : LinkedEngine) (ms : List Feed) : Option LinkedEngine := ms.foldlM feed l

variable {l l' : LinkedEngine} {t : LinkedTable} {O I : ℕ → List EdgeId} {F : List EdgeId}

/-- No record is left when every id is that of a live edge. -/
theorem allocateEdge_none (h : t.Adjacency O I F) (ha : t.allocateEdge = none) :
    t.liveEdges = kNoEdge := by
  have hhead : t.freeHead = kNoEdge := by
    by_contra h0
    unfold LinkedTable.allocateEdge LinkedTable.popFree at ha
    rw [if_neg h0] at ha
    simp [h0] at ha
  have hnext : t.nextId = kNoEdge := by
    by_contra h0
    unfold LinkedTable.allocateEdge LinkedTable.popFree at ha
    rw [if_pos hhead] at ha
    simp [h0] at ha
  have hF : F = [] := by
    have hfree := h.free
    rw [hhead] at hfree
    exact hfree.eq .nil
  have hall : (Finset.range t.nextId).filter (fun x => t.live x = true) =
      Finset.range t.nextId := by
    refine Finset.filter_true_of_mem fun x hx => ?_
    by_contra hd
    have := (h.mem_free x).mpr ⟨Finset.mem_range.mp hx, by simpa using hd⟩
    rw [hF] at this
    exact List.not_mem_nil this
  rw [h.liveEdges_eq, hall, Finset.card_range, hnext]

/-- A message only throws when every edge id is in use. -/
theorem process_none {e : AarcEngine} (h : l.Follows e) {m : GCMessage}
    (hm : l.process m = none) : l.tab.liveEdges = kNoEdge := by
  obtain ⟨t, O, I, F, rfl, ht⟩ := h
  unfold LinkedEngine.process at hm
  cases hop : m.op <;> simp only [hop] at hm
  case edgeAdd =>
    split at hm
    · cases hm
    · rw [Option.map_eq_none_iff] at hm
      unfold LinkedTable.addOut at hm
      rw [Option.map_eq_none_iff] at hm
      exact allocateEdge_none (t := t.addEdgeTo m.b.index)
        (ht.addEdgeTo m.b.index).toAdjacency hm
  case terminate => cases hm
  all_goals split_ifs at hm

end LinkedEngine

/-- Both engines have been fed the same. -/
structure Fed (f : ForwardEngine) (l : LinkedEngine) (e : AarcEngine) : Prop where
  trails : ForwardEngine.Trails List.Perm [] f e
  tracks : l.Tracks e
  alert : e.Alert

namespace Fed

variable {f : ForwardEngine} {l l' : LinkedEngine} {e : AarcEngine}

theorem init (capacity : ℕ) (kind : Regime) (owner : OwnerToken)
    (comps : Option ConservativeComponents) :
    Fed (.init capacity kind owner comps) (.init capacity kind owner)
      (.init capacity kind owner) where
  trails := ⟨rfl, rfl, fun i hi => absurd hi List.not_mem_nil, fun _ _ => rfl, fun _ _ => rfl,
    fun _ _ => .nil⟩
  tracks :=
    { follows := ⟨LinkedTable.init, fun _ => [], fun _ => [], [], rfl,
        { LinkedTable.Adjacency.init with
          root := rfl, edge := rfl, outRecs := fun _ => rfl, inRecs := fun _ => .nil }⟩
      stable :=
        ⟨RefTable.init_sound _, (AarcEngine.init_ready capacity kind owner).marksOk.zeroOk,
          (AarcEngine.init_ready capacity kind owner).clean⟩
      pool := CellPool.init_sound capacity kind }
  alert :=
    { zero_live := fun i hi => by simp [AarcEngine.init, Scratch.init] at hi
      suspect_live := fun i hi => by simp [AarcEngine.init, Scratch.init] at hi
      listed := fun i hi => by simp [AarcEngine.init, Scratch.init] at hi }

theorem alloc (h : Fed f l e) (i : ℕ) (o : OwnerToken) (r : Regime) :
    Fed { f with pool := f.pool.take i o r } { l with pool := l.pool.take i o r }
      (e.setPool (e.pool.take i o r)) := by
  have hpf : f.pool = e.pool := h.trails.pool
  rw [hpf, h.tracks.follows.pool]
  have hs := h.tracks.stable.sound
  have hp := h.tracks.pool
  have htake : e.tab.Sound (e.pool.take i o r) ∧ (e.pool.take i o r).Sound ∧
      ∀ j, e.pool.isLiveAt j = true → (e.pool.take i o r).isLiveAt j = true := by
    unfold CellPool.take
    cases ha : e.pool.allocInto i o r with
    | none => exact ⟨hs, hp, fun _ hj => hj⟩
    | some a =>
      obtain ⟨-, -, hq, -, -, hlive, -, -⟩ := AarcEngine.alloc_pool hp ha
      exact ⟨AarcEngine.sound_alloc hs hp ha, hq, fun j hj => by rw [hlive, hj, Bool.true_or]⟩
  obtain ⟨h1, h2, hmono⟩ := htake
  have htracks : LinkedEngine.Tracks { l with pool := e.pool.take i o r }
      (e.setPool (e.pool.take i o r)) :=
    ⟨h.tracks.follows.setPool _, { h.tracks.stable with sound := h1 }, h2⟩
  exact ⟨{ h.trails with pool := rfl }, htracks, { h.alert with
    zero_live := fun j hj => hmono j (h.alert.zero_live j hj)
    suspect_live := fun j hj => hmono j (h.alert.suspect_live j hj) }⟩

theorem process (h : Fed f l e) {m : GCMessage} (hm : l.process m = some l') :
    Fed (f.process m) l' (e.process m) :=
  ⟨h.trails.process h.tracks.stable.sound m, h.tracks.process hm, h.alert.process m⟩

/-- A run of both engines, up to the point where no edge id is left. -/
theorem feedAll (h : Fed f l e) (ms : List Feed) :
    (∃ l' e', l.feedAll ms = some l' ∧ Fed (f.feedAll ms) l' e') ∨
      ∃ pre l', pre <+: ms ∧ l.feedAll pre = some l' ∧ l'.tab.liveEdges = kNoEdge := by
  induction ms generalizing f l e with
  | nil => exact Or.inl ⟨l, e, rfl, h⟩
  | cons m ms ih =>
    have hcons : ∀ {l₁ : LinkedEngine} {ms}, l.feed m = some l₁ →
        l.feedAll (m :: ms) = l₁.feedAll ms := fun hm => by
      unfold LinkedEngine.feedAll
      rw [List.foldlM_cons, hm]
      rfl
    have hstep : (∃ l₁ e₁, l.feed m = some l₁ ∧ Fed (f.feed m) l₁ e₁) ∨
        l.tab.liveEdges = kNoEdge := by
      cases m with
      | alloc i o r => exact Or.inl ⟨_, _, rfl, h.alloc i o r⟩
      | message m =>
        cases hm : l.process m with
        | none => exact Or.inr (LinkedEngine.process_none h.tracks.follows hm)
        | some l₁ => exact Or.inl ⟨l₁, _, hm, h.process hm⟩
    rcases hstep with ⟨l₁, e₁, hm, h₁⟩ | hfull
    · rcases ih h₁ with ⟨l', e', hl', h'⟩ | ⟨pre, l', hpre, hl', hfull⟩
      · exact Or.inl ⟨l', e', (hcons hm).trans hl', h'⟩
      · exact Or.inr ⟨m :: pre, l', List.cons_prefix_cons.mpr ⟨rfl, hpre⟩,
          (hcons hm).trans hl', hfull⟩
    · exact Or.inr ⟨[], l, List.nil_prefix, rfl, hfull⟩

end Fed

/-- Fed the same allocations and messages from the empty state and swept once, an engine over a
forward table and one over the linked lists agree, unless on the way every edge id of the linked
lists has come into use at once. -/
theorem schemes_agree (capacity : ℕ) (kind : Regime) (owner : OwnerToken)
    (comps : Option ConservativeComponents) (ms : List Feed) :
    (∃ l, (LinkedEngine.init capacity kind owner).feedAll ms = some l ∧
        Agree ((ForwardEngine.init capacity kind owner comps).feedAll ms).sweep l.sweep) ∨
      ∃ pre l, pre <+: ms ∧ (LinkedEngine.init capacity kind owner).feedAll pre = some l ∧
        l.tab.liveEdges = kNoEdge := by
  rcases (Fed.init capacity kind owner comps).feedAll ms with ⟨l, e, hl, h⟩ | hfull
  · exact Or.inl ⟨l, hl, h.trails.agree h.tracks h.alert⟩
  · exact Or.inr hfull

end Loxis.Aarc
