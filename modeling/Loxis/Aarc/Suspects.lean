import Loxis.Aarc.Drained

/-! # Suspects between calls

The suspect stack is meant to list every suspect, and more. A cycle pass clears it and looks at
the suspects that something refers to; one without references keeps its mark and loses its entry.
A reference that revives it later leaves a suspect that no pass examines.
-/

namespace Loxis.Aarc

open Function

namespace RefTable

variable {t : RefTable} {i n : ℕ}

theorem subEdgeTo_nonneg (he : ∀ j, 0 ≤ t.edge j) (i j : ℕ) : 0 ≤ (t.subEdgeTo i).1.edge j := by
  unfold subEdgeTo
  split
  · exact he j
  · simp only [update_apply]
    split
    · omega
    · exact he j

theorem root_subEdgeTo (t : RefTable) (i : ℕ) : (t.subEdgeTo i).1.root = t.root := by
  unfold subEdgeTo
  split <;> rfl

theorem total_subEdgeTo_le (t : RefTable) (i j : ℕ) :
    (t.subEdgeTo i).1.total j ≤ t.total j := by
  unfold subEdgeTo total
  split
  · exact le_rfl
  · simp only [update_apply]
    split
    · next hj => subst hj; omega
    · exact le_rfl

theorem total_clearOuts (t : RefTable) (i j : ℕ) : (t.clearOuts i).total j = t.total j := by
  obtain ⟨hr, he⟩ := root_foldl_unlink (t.outRecs i) t
  unfold total clearOuts
  rw [hr, he]

end RefTable

namespace AarcEngine

variable (e : AarcEngine) {e' : AarcEngine} {t : RefTable} {p : ObjHandle → Bool} {i j : ℕ}
  {m : GCMessage} {D : Tarjan.State ℕ → Prop}

/-- Remove the slots of promoted cells from the candidates and the suspects. -/
def forgetPromoted (indexes : List ℕ) : AarcEngine :=
  let e := indexes.foldl
    (fun e i => { e with zeroMark := update e.zeroMark i false }.clearSuspect i) e
  { e with
    zeroStack := e.zeroStack.filter e.zeroMark
    suspectStack := e.suspectStack.filter e.suspectMark }

/-- The calls on an engine. Between them its client allocates cells. -/
inductive Call
  | alloc (i : ℕ) (o : OwnerToken) (r : Regime)
  | process (m : GCMessage)
  | sweepZero
  | collectCycles
  | forgetPromoted (indexes : List ℕ)

def call : Call → AarcEngine
  | .alloc i o r =>
    match e.pool.allocInto i o r with
    | some (_, p) => e.setPool p
    | none => e
  | .process m => e.process m
  | .sweepZero => e.sweepZero
  | .collectCycles => e.collectCycles
  | .forgetPromoted indexes => e.forgetPromoted indexes

def calls (cs : List Call) : AarcEngine := cs.foldl call e

/-- Every live suspect that something refers to has an entry in the suspect stack. -/
def Listed : Prop :=
  ∀ i, e.pool.isLiveAt i = true → e.suspectMark i = true → 0 < e.tab.total i → i ∈ e.suspectStack

/-- A suspect without references that has no entry in the suspect stack. -/
def dropped (i : ℕ) : Bool :=
  e.suspectMark i && decide (e.tab.total i = 0) && decide (i ∉ e.suspectStack)

/-- Whether a message refers to a dropped suspect again. -/
def revives (m : GCMessage) : Bool :=
  match m.op with
  | .rootAdd => e.live m.b && decide (0 < m.count) && e.dropped m.b.index
  | .edgeAdd => e.live m.a && e.live m.b && e.dropped m.b.index
  | _ => false

/-- Whether a call refers to a dropped suspect again. -/
def callRevives : Call → Bool
  | .process m => e.revives m
  | _ => false

/-- What the calls maintain as long as none of them revives a dropped suspect, with a detector in
some state. -/
structure Watching (D : Tarjan.State ℕ → Prop) : Prop where
  root_nonneg : ∀ i, 0 ≤ e.tab.root i
  edge_nonneg : ∀ i, 0 ≤ e.tab.edge i
  suspect_live : ∀ i, e.suspectMark i = true → e.pool.isLiveAt i = true
  suspect_listed : ∀ i, e.suspectMark i = true → i ∈ e.suspectStack ∨ e.tab.total i = 0
  detector : D e.detector
  pool : e.pool.Sound

variable {e}

theorem Watching.total_nonneg (h : e.Watching D) (i : ℕ) : 0 ≤ e.tab.total i :=
  add_nonneg (h.root_nonneg i) (h.edge_nonneg i)

theorem Watching.listed (h : e.Watching D) : e.Listed := fun i _ hm h0 =>
  (h.suspect_listed i hm).resolve_right h0.ne'

/-- Steps that neither mark nor count anything up keep the invariant. -/
theorem Watching.of_le (h : e.Watching D) (hd : e'.detector = e.detector) (hp : e'.pool = e.pool)
    (hr : ∀ i, 0 ≤ e'.tab.root i) (he : ∀ i, 0 ≤ e'.tab.edge i)
    (ht : ∀ i, e'.tab.total i ≤ e.tab.total i)
    (hm : ∀ i, e'.suspectMark i = true → e.suspectMark i = true ∧
      (i ∈ e.suspectStack → i ∈ e'.suspectStack)) : e'.Watching D where
  root_nonneg := hr
  edge_nonneg := he
  suspect_live i hi := by
    rw [hp]
    exact h.suspect_live i (hm i hi).1
  suspect_listed i hi := by
    refine (h.suspect_listed i (hm i hi).1).imp (hm i hi).2 fun h0 => ?_
    exact le_antisymm (h0 ▸ ht i) (add_nonneg (hr i) (he i))
  detector := by
    rw [hd]
    exact h.detector
  pool := by
    rw [hp]
    exact h.pool

theorem Watching.setTab (h : e.Watching D) (hr : ∀ i, 0 ≤ t.root i) (he : ∀ i, 0 ≤ t.edge i)
    (ht : ∀ i, t.total i ≤ e.tab.total i) : (e.setTab t).Watching D :=
  h.of_le rfl rfl hr he ht fun _ hi => ⟨hi, id⟩

theorem Watching.clearSuspect (h : e.Watching D) (i : ℕ) : (e.clearSuspect i).Watching D := by
  refine h.of_le clearSuspect_detector clearSuspect_pool ?_ ?_ (fun j => ?_) fun j hj => ?_
  · rw [clearSuspect_tab]
    exact h.root_nonneg
  · rw [clearSuspect_tab]
    exact h.edge_nonneg
  · rw [clearSuspect_tab]
  · rw [clearSuspect_suspectStack]
    exact ⟨((clearSuspect_suspectMark j).mp hj).1, id⟩

theorem Watching.setSuspect (h : e.Watching D) (hl : e.pool.isLiveAt i = true) :
    (e.setSuspect i).Watching D := by
  unfold AarcEngine.setSuspect
  split
  · exact h
  · refine { h with suspect_live := fun j hj => ?_, suspect_listed := fun j hj => ?_ }
    · simp only [update_apply] at hj
      split at hj
      · next hji => exact hji ▸ hl
      · exact h.suspect_live j hj
    · simp only [update_apply] at hj
      split at hj
      · next hji => exact Or.inl (hji ▸ List.mem_cons_self)
      · exact (h.suspect_listed j hj).imp_left (List.mem_cons_of_mem _)

theorem Watching.markZero (h : e.Watching D) (i : ℕ) : (e.markZero i).Watching D := by
  unfold AarcEngine.markZero
  split
  · exact h
  · exact { h with }

theorem Watching.mark (h : e.Watching D) (hl : e.pool.isLiveAt i = true) :
    (e.mark i).Watching D := by
  unfold AarcEngine.mark
  split
  · exact h.markZero i
  · split
    · exact h.setSuspect hl
    · exact h

/-- A slot whose mark is clear and which nothing refers to. -/
def Idle (e : AarcEngine) (i : ℕ) : Prop := e.suspectMark i = false ∧ e.tab.total i = 0

theorem Idle.mark (h : e.Idle i) (j : ℕ) : (e.mark j).Idle i := by
  unfold AarcEngine.mark
  split
  · exact ⟨by rw [markZero_suspectMark]; exact h.1, by rw [markZero_tab]; exact h.2⟩
  · next hj =>
    split
    · refine ⟨Bool.eq_false_iff.mpr fun hi => ?_, ?_⟩
      swap
      · unfold markSuspect
        rw [setSuspect_tab]
        exact h.2
      rcases (setSuspect_suspectMark i).mp hi with hi | rfl
      · rw [h.1] at hi
        cases hi
      · exact hj h.2
    · exact h

/-- What giving back edges leaves: the invariant, the pool and every idle slot. -/
structure Lowered (e e' : AarcEngine) : Prop where
  watching : ∀ {D}, e.Watching D → e'.Watching D
  pool : e'.pool = e.pool
  idle : ∀ {D} i, e.Idle i → e.Watching D → e'.Idle i

theorem Lowered.refl (e : AarcEngine) : Lowered e e := ⟨id, rfl, fun _ h _ => h⟩

theorem Lowered.trans {e'' : AarcEngine} (h : Lowered e e') (h' : Lowered e' e'') :
    Lowered e e'' :=
  ⟨fun hw => h'.watching (h.watching hw), h'.pool.trans h.pool,
    fun i hi hw => h'.idle i (h.idle i hi hw) (h.watching hw)⟩

theorem releaseEdge_lowered (hl : e.pool.isLiveAt i = true) : Lowered e (e.releaseEdge i) := by
  have hset : ∀ {D}, e.Watching D → (e.setTab (e.tab.subEdgeTo i).1).Watching D := fun h =>
    h.setTab (by rw [RefTable.root_subEdgeTo]; exact h.root_nonneg)
      (RefTable.subEdgeTo_nonneg h.edge_nonneg i) (e.tab.total_subEdgeTo_le i)
  refine ⟨fun h => (hset h).mark hl, by unfold releaseEdge; rw [mark_pool]; rfl, ?_⟩
  intro _ j hj h
  have h0 : (e.tab.subEdgeTo i).1.total j = 0 :=
    le_antisymm (hj.2 ▸ e.tab.total_subEdgeTo_le i j) ((hset h).total_nonneg j)
  have hidle : (e.setTab (e.tab.subEdgeTo i).1).Idle j := ⟨hj.1, h0⟩
  exact hidle.mark i

theorem releaseOuts_lowered (ts : List ObjHandle)
    (hp : ∀ t ∈ ts, p t = true → e.pool.isLiveAt t.index = true) :
    Lowered e (e.releaseOuts p ts) := by
  unfold releaseOuts
  induction ts generalizing e with
  | nil => exact .refl e
  | cons t ts ih =>
    rw [List.foldl_cons]
    have hstep : Lowered e (if p t then e.releaseEdge t.index else e) := by
      split
      · next ht => exact releaseEdge_lowered (hp t List.mem_cons_self ht)
      · exact .refl e
    refine hstep.trans (ih fun u hu hpu => ?_)
    rw [hstep.pool]
    exact hp u (List.mem_cons_of_mem _ hu) hpu

theorem Watching.resetSlot (h : e.Watching D) (i : ℕ) :
    (e.setTab (e.tab.resetSlot i)).Watching D := by
  obtain ⟨hr, he⟩ := RefTable.root_foldl_unlink (e.tab.outRecs i) e.tab
  have hroot : ∀ j, 0 ≤ (e.tab.resetSlot i).root j ∧ (e.tab.resetSlot i).root j ≤ e.tab.root j := by
    intro j
    have := h.root_nonneg j
    simp only [RefTable.resetSlot, RefTable.clearOuts, hr, update_apply]
    split <;> omega
  have hedge : ∀ j, 0 ≤ (e.tab.resetSlot i).edge j ∧ (e.tab.resetSlot i).edge j ≤ e.tab.edge j := by
    intro j
    have := h.edge_nonneg j
    simp only [RefTable.resetSlot, RefTable.clearOuts, he, update_apply]
    split <;> omega
  exact h.setTab (fun j => (hroot j).1) (fun j => (hedge j).1) fun j =>
    add_le_add (hroot j).2 (hedge j).2

/-- Only a slot whose mark is clear is freed. -/
theorem Watching.free (h : e.Watching D) {x : ObjHandle} (hm : e.suspectMark x.index = false) :
    (e.setPool (e.pool.free x)).Watching D := by
  refine { h with suspect_live := fun j hj => ?_, pool := h.pool.free }
  have hl := h.suspect_live j hj
  change (e.pool.free x).isLiveAt j = true
  by_cases hv : e.pool.valid x = true
  · rw [CellPool.isLiveAt_free hv, hl, Bool.true_and, decide_eq_true_eq]
    rintro rfl
    rw [show e.suspectMark x.index = true from hj] at hm
    cases hm
  · unfold CellPool.free
    rw [if_pos (Bool.eq_false_iff.mpr hv)]
    exact hl

theorem clearSuspect_self : (e.clearSuspect i).suspectMark i = false :=
  Bool.eq_false_iff.mpr fun h => ((clearSuspect_suspectMark i).mp h).2 rfl

theorem Watching.reclaimCell (h : e.Watching D) (h0 : e.tab.total i = 0) :
    (e.reclaimCell i).Watching D := by
  have hc := h.clearSuspect i
  have hout : Lowered (e.clearSuspect i) ((e.clearSuspect i).releaseOuts
      (fun t => (e.clearSuspect i).pool.isLiveAt t.index) ((e.clearSuspect i).tab.outs i)) :=
    releaseOuts_lowered _ fun _ _ ht => ht
  have hidle := hout.idle i ⟨clearSuspect_self, by rw [clearSuspect_tab]; exact h0⟩ hc
  exact ((hout.watching hc).resetSlot i).free hidle.1

theorem Watching.sweepZero (h : e.Watching D) : e.sweepZero.Watching D := by
  refine iterUntil_inv (P := (Watching · D)) (fun e h => ?_) _ h
  unfold sweepZeroTurn
  split
  · exact h
  · next i rest _ =>
    have h' : Watching { e with zeroStack := rest, zeroMark := update e.zeroMark i false } D :=
      { h with }
    simp only
    split
    · exact h'
    · split
      · exact h'
      · next h0 => exact h'.reclaimCell (not_not.mp h0)

theorem Watching.detachMember (h : e.Watching D) (s i : ℕ) : (e.detachMember s i).Watching D := by
  have hout := (releaseOuts_lowered (e := e)
    (p := fun t => e.pool.valid t && decide (e.sccOf t.index ≠ some s)) (e.tab.outs i)
    fun t _ ht => (CellPool.valid_iff.mp (Bool.and_eq_true_iff.mp ht).1).1).watching h
  unfold AarcEngine.detachMember
  generalize e.releaseOuts _ _ = e₁ at hout ⊢
  obtain ⟨hr, he⟩ := RefTable.root_foldl_unlink (e₁.tab.outRecs i) e₁.tab
  refine hout.setTab ?_ ?_ fun j => (e₁.tab.total_clearOuts i j).le
  · unfold RefTable.clearOuts
    rw [hr]
    exact hout.root_nonneg
  · unfold RefTable.clearOuts
    rw [he]
    exact hout.edge_nonneg

theorem Watching.freeMember (h : e.Watching D) (i : ℕ) : (e.freeMember i).Watching D :=
  ((h.resetSlot i).clearSuspect i).free clearSuspect_self

theorem Watching.foldl {α : Type*} {f : AarcEngine → α → AarcEngine}
    (hf : ∀ e a, e.Watching D → (f e a).Watching D) (l : List α) (h : e.Watching D) :
    (l.foldl f e).Watching D := by
  induction l generalizing e with
  | nil => exact h
  | cons a l ih => exact ih (hf e a h)

theorem Watching.reclaimComponents (h : e.Watching D) (cs : List (ℕ × List ℕ)) :
    (e.reclaimComponents cs).Watching D :=
  Watching.foldl (fun _ c h => Watching.foldl (fun _ i h => h.freeMember i) c.2
    (Watching.foldl (fun _ i h => h.detachMember c.1 i) c.2 h)) cs h

/-- The detector reaches every suspect a pass starts from. -/
theorem scanned_found_clean (hc : Tarjan.Clean e.detector) :
    Tarjan.Found e.scanned.succ (fun r => r ∈ e.scanRoots ∧ e.pool.isLiveAt r = true)
      e.scanned.detector := by
  refine Tarjan.findComponents_found hc (U := Finset.range e.pool.capacity) ?_ ?_ le_rfl
  · intro v _ w hw
    obtain ⟨t, ht, rfl⟩ := List.mem_map.mp hw
    have hv := (CellPool.valid_iff.mp (List.mem_filter.mp ht).2).1
    exact Finset.mem_range.mpr (CellPool.isLiveAt_iff.mp hv).1
  · exact fun r _ hl => Finset.mem_range.mpr (CellPool.isLiveAt_iff.mp hl).1

/-- Nothing refers to a suspect whose mark a pass keeps. -/
theorem Watching.unscanned (h : e.Watching D) (hm : e.suspectMark i = true)
    (hi : i ∉ e.scanRoots) : e.tab.total i = 0 := by
  by_contra h0
  refine hi (mem_scanRoots.mpr ⟨(h.suspect_listed i hm).resolve_right h0, hm,
    h.suspect_live i hm, ?_⟩)
  exact lt_of_le_of_ne (h.total_nonneg i) (Ne.symm h0)

theorem Watching.consumed (h : e.Watching Tarjan.Clean) :
    e.consumed.Watching (· = e.scanned.detector) := by
  have hfound := scanned_found_clean h.detector
  obtain ⟨⟨hp, htab, -, -⟩, ⟨-, -, -, hdet⟩, hsm⟩ :=
    clearSuspects_spec e.scanned.detector.visited e.scanned
  have htab' : e.consumed.tab = e.tab := htab
  have hpool' : e.consumed.pool = e.pool := hp
  refine ⟨?_, ?_, fun i hi => ?_, fun i hi => Or.inr ?_, hdet, ?_⟩
  · rw [htab']
    exact h.root_nonneg
  · rw [htab']
    exact h.edge_nonneg
  · rw [hpool']
    exact h.suspect_live i ((hsm i).mp hi).1
  · obtain ⟨hm, hv⟩ := (hsm i).mp hi
    rw [htab']
    refine h.unscanned hm fun hr => hv ((hfound.mem_visited i).mpr ⟨i, ⟨hr, ?_⟩, .refl⟩)
    exact (mem_scanRoots.mp hr).2.2.1
  · rw [hpool']
    exact h.pool

theorem Watching.collectCyclePass (h : e.Watching Tarjan.Clean) :
    e.collectCyclePass.1.Watching Tarjan.Clean := by
  have hfound := scanned_found_clean h.detector
  unfold AarcEngine.collectCyclePass
  by_cases hre : e.scanRoots = []
  · simp only [hre, List.isEmpty_nil, if_true]
    refine { h with suspect_listed := fun i hi => Or.inr (h.unscanned hi ?_) }
    rw [hre]
    exact List.not_mem_nil
  · simp only [List.isEmpty_iff, hre, if_false]
    -- the first root is visited, so there is a component
    obtain ⟨r, hr⟩ := List.exists_mem_of_ne_nil _ hre
    obtain ⟨c, hc, -⟩ := hfound.scc_visited r
      ((hfound.mem_visited r).mpr ⟨r, ⟨hr, (mem_scanRoots.mp hr).2.2.1⟩, .refl⟩)
    have hcomps : (({ e with suspectStack := [] } : AarcEngine).findComponents
        e.scanRoots).detector.comps ≠ 0 := Nat.ne_of_gt (Nat.zero_lt_of_lt hc)
    rw [if_neg hcomps]
    have hw := h.consumed.reclaimComponents e.scanned.garbage
    refine { hw with detector := ?_ }
    change Tarjan.Clean (Tarjan.release e.scanned.detector.visited
      (e.consumed.reclaimComponents e.scanned.garbage).detector)
    rw [hw.detector]
    exact hfound.release_clean

theorem Watching.collectCycles (h : e.Watching Tarjan.Clean) :
    e.collectCycles.Watching Tarjan.Clean :=
  iterUntil_inv (P := (Watching · Tarjan.Clean)) (fun _ h => h.collectCyclePass) _ h

theorem Watching.forgetPromoted (h : e.Watching D) (l : List ℕ) :
    (e.forgetPromoted l).Watching D := by
  have hw : (l.foldl (fun e i =>
      { e with zeroMark := update e.zeroMark i false }.clearSuspect i) e).Watching D :=
    Watching.foldl (fun e i h => ({ h with } : Watching
      { e with zeroMark := update e.zeroMark i false } D).clearSuspect i) l h
  refine { hw with suspect_listed := fun i hi => (hw.suspect_listed i hi).imp_left fun hs => ?_ }
  exact List.mem_filter.mpr ⟨hs, hi⟩

theorem Watching.alloc (h : e.Watching D) {o : OwnerToken} {r : Regime} {x : ObjHandle}
    {q : CellPool} (ha : e.pool.allocInto i o r = some (x, q)) : (e.setPool q).Watching D := by
  obtain ⟨-, -, hq, -, -, hl, -, -⟩ := alloc_pool h.pool ha
  refine { h with suspect_live := fun j hj => ?_, pool := hq }
  change q.isLiveAt j = true
  rw [hl, h.suspect_live j hj, Bool.true_or]

/-- A table that counts more keeps the invariant when no dropped suspect gains a reference. -/
theorem Watching.raise (h : e.Watching D) (hr : ∀ j, 0 ≤ t.root j) (he : ∀ j, 0 ≤ t.edge j)
    (ht : ∀ j, e.tab.total j = 0 → t.total j = 0 ∨ e.dropped j = false) :
    (e.setTab t).Watching D := by
  refine { h with root_nonneg := hr, edge_nonneg := he, suspect_listed := fun j hj => ?_ }
  rcases h.suspect_listed j hj with hs | h0
  · exact Or.inl hs
  · refine (ht j h0).symm.imp_left fun hd => ?_
    have hj : e.suspectMark j = true := hj
    simpa [dropped, hj, h0] using hd

theorem Watching.subRoot (h : e.Watching D) (i n : ℕ) :
    (e.setTab (e.tab.subRoot i n).1).Watching D := by
  have hroot : ∀ j, 0 ≤ (e.tab.subRoot i n).1.root j ∧
      (e.tab.subRoot i n).1.root j ≤ e.tab.root j := by
    intro j
    have hj := h.root_nonneg j
    unfold RefTable.subRoot
    split <;> simp only [update_apply] <;> split
    · exact ⟨le_rfl, hj⟩
    · exact ⟨hj, le_rfl⟩
    · next hji => subst hji; omega
    · exact ⟨hj, le_rfl⟩
  have hedge : (e.tab.subRoot i n).1.edge = e.tab.edge := by
    unfold RefTable.subRoot
    split <;> rfl
  refine h.setTab (fun j => (hroot j).1) (by rw [hedge]; exact h.edge_nonneg) fun j => ?_
  unfold RefTable.total
  rw [hedge]
  exact Int.add_le_add_right (hroot j).2 _

theorem Watching.removeOut (h : e.Watching D) (x y : ObjHandle) :
    (e.setTab (e.tab.removeOut x y).1).Watching D := by
  unfold RefTable.removeOut
  split
  · exact h.setTab h.root_nonneg h.edge_nonneg fun _ => le_rfl
  · exact h

theorem Watching.subEdgeTo (h : e.Watching D) (i : ℕ) :
    (e.setTab (e.tab.subEdgeTo i).1).Watching D :=
  h.setTab (by rw [RefTable.root_subEdgeTo]; exact h.root_nonneg)
    (RefTable.subEdgeTo_nonneg h.edge_nonneg i) (e.tab.total_subEdgeTo_le i)

/-- A message that revives no dropped suspect keeps every suspect watched. -/
theorem Watching.process (h : e.Watching D) (hm : e.revives m = false) :
    (e.process m).Watching D := by
  have hlive : ∀ {x}, e.live x = true → e.pool.isLiveAt x.index = true := fun hx =>
    (CellPool.valid_iff.mp hx).1
  unfold AarcEngine.process
  split
  · next hop =>
    split
    · next hb =>
      refine h.raise (fun j => ?_) h.edge_nonneg fun j h0 => ?_
      · simp only [RefTable.addRoot, update_apply]
        split
        · have := h.root_nonneg m.b.index
          omega
        · exact h.root_nonneg j
      · by_cases hj : j = m.b.index
        · subst hj
          simp only [revives, hop, hb, Bool.true_and, Bool.and_eq_false_iff,
            decide_eq_false_iff_not, not_lt, Nat.le_zero] at hm
          refine hm.imp_left fun hc => ?_
          simpa [RefTable.addRoot, RefTable.total, hc] using h0
        · exact Or.inl (by simpa [RefTable.addRoot, RefTable.total, hj] using h0)
    · exact { h with }
  · split
    · exact { h with }
    · next hb =>
      have hw := h.subRoot m.b.index m.count
      simp only
      split
      · exact { hw with }
      · exact hw.mark (hlive (by simpa using hb))
  · split
    · exact { h with }
    · next hb => exact h.mark (hlive (by simpa using hb))
  · next hop =>
    split
    · exact { h with }
    · next hab =>
      obtain ⟨ha, hb⟩ : e.live m.a = true ∧ e.live m.b = true := by simpa using hab
      refine h.raise h.root_nonneg (fun j => ?_) fun j h0 => ?_
      · simp only [RefTable.addOut, RefTable.addEdgeTo, update_apply]
        split
        · have := h.edge_nonneg m.b.index
          omega
        · exact h.edge_nonneg j
      · by_cases hj : j = m.b.index
        · subst hj
          simp only [revives, hop, ha, hb, Bool.true_and] at hm
          exact Or.inr hm
        · exact Or.inl (by
            simpa [RefTable.addOut, RefTable.addEdgeTo, RefTable.total, hj] using h0)
  · split
    · exact { h with }
    · have hw := h.removeOut m.a m.b
      simp only
      split
      · exact { h with }
      · split
        · exact { hw with }
        · next hb =>
          have hw' := hw.subEdgeTo m.b.index
          split
          · exact { hw with }
          · exact hw'.mark (hlive (by simpa [AarcEngine.live, AarcEngine.setTab] using hb))
  · exact h

/-- A dropped suspect is lost as soon as it gains a reference. -/
theorem not_listed_setTab (hl : e.pool.isLiveAt i = true) (hd : e.dropped i = true)
    (ht : e.tab.total i < t.total i) : ¬ (e.setTab t).Listed := by
  obtain ⟨⟨hs, h0⟩, hn⟩ : (e.suspectMark i = true ∧ e.tab.total i = 0) ∧ i ∉ e.suspectStack := by
    simpa [dropped] using hd
  exact fun h => hn (h i hl hs (by rwa [h0] at ht))

/-- A message that revives a dropped suspect loses it. -/
theorem not_listed_process (hm : e.revives m = true) : ¬ (e.process m).Listed := by
  unfold revives at hm
  split at hm
  · next hop =>
    obtain ⟨⟨hb, hc⟩, hd⟩ : (e.live m.b = true ∧ 0 < m.count) ∧ e.dropped m.b.index = true := by
      simpa using hm
    have hp : e.process m = e.setTab (e.tab.addRoot m.b.index m.count) := by
      simp only [process, hop, hb, if_true]
    rw [hp]
    refine not_listed_setTab (CellPool.valid_iff.mp hb).1 hd ?_
    simp only [RefTable.addRoot, RefTable.total, update_self]
    omega
  · next hop =>
    obtain ⟨⟨ha, hb⟩, hd⟩ : (e.live m.a = true ∧ e.live m.b = true) ∧
      e.dropped m.b.index = true := by simpa using hm
    have hp : e.process m = e.setTab ((e.tab.addEdgeTo m.b.index).addOut m.a m.b) := by
      simp only [process, hop, ha, hb, Bool.not_true, Bool.or_self, Bool.false_eq_true, if_false]
    rw [hp]
    refine not_listed_setTab (CellPool.valid_iff.mp hb).1 hd ?_
    simp only [RefTable.addOut, RefTable.addEdgeTo, RefTable.total, update_self]
    omega
  · cases hm

variable {c : Call} {cs : List Call}

theorem Watching.call (h : e.Watching Tarjan.Clean) (hc : e.callRevives c = false) :
    (e.call c).Watching Tarjan.Clean := by
  cases c with
  | alloc i o r =>
    unfold AarcEngine.call
    simp only
    split
    · next ha => exact h.alloc ha
    · exact h
  | process m => exact h.process hc
  | sweepZero => exact h.sweepZero
  | collectCycles => exact h.collectCycles
  | forgetPromoted l => exact h.forgetPromoted l

theorem not_listed_call (hc : e.callRevives c = true) : ¬ (e.call c).Listed := by
  cases c with
  | process m => exact not_listed_process hc
  | _ => cases hc

theorem Counted.forgetPromoted (h : e.Counted) (l : List ℕ) : (e.forgetPromoted l).Counted := by
  have hw := Counted.foldl (f := fun e i =>
    { e with zeroMark := update e.zeroMark i false }.clearSuspect i) (fun e i h =>
      Counted.clearSuspect (e := { e with zeroMark := update e.zeroMark i false })
        (h.of_eq rfl rfl) i) l h
  exact hw.of_eq rfl rfl

theorem Counted.call (h : e.Counted) (c : Call) : (e.call c).Counted := by
  cases c with
  | alloc i o r =>
    unfold AarcEngine.call
    simp only
    split
    · exact h.of_eq rfl rfl
    · exact h
  | process m => exact h.process m
  | sweepZero => exact h.sweepZero
  | collectCycles => exact h.collectCycles
  | forgetPromoted l => exact h.forgetPromoted l

theorem Counted.calls (h : e.Counted) (cs : List Call) : (e.calls cs).Counted := by
  unfold AarcEngine.calls
  induction cs generalizing e with
  | nil => exact h
  | cons c cs ih => exact ih (h.call c)

theorem init_counted (capacity : ℕ) (kind : Regime) (owner : OwnerToken) :
    (init capacity kind owner).Counted := ⟨∅, by simp [init, Scratch.init], rfl⟩

theorem init_watching (capacity : ℕ) (kind : Regime) (owner : OwnerToken) :
    (init capacity kind owner).Watching Tarjan.Clean where
  root_nonneg _ := le_rfl
  edge_nonneg _ := le_rfl
  suspect_live i hi := by simp [init, Scratch.init] at hi
  suspect_listed i hi := by simp [init, Scratch.init] at hi
  detector := (init_ready capacity kind owner).clean
  pool := CellPool.init_sound capacity kind

theorem calls_append_singleton (e : AarcEngine) (cs : List Call) (c : Call) :
    e.calls (cs ++ [c]) = (e.calls cs).call c := by
  unfold calls
  rw [List.foldl_append]
  rfl

theorem Watching.calls (h : e.Watching Tarjan.Clean) (cs : List Call)
    (hc : ∀ ds d, ds ++ [d] <+: cs → (e.calls ds).callRevives d = false) :
    (e.calls cs).Watching Tarjan.Clean := by
  induction cs using List.reverseRecOn with
  | nil => exact h
  | append_singleton cs c ih =>
    rw [calls_append_singleton]
    exact (ih fun ds d hd => hc ds d (hd.trans (List.prefix_append _ _))).call
      (hc cs c List.prefix_rfl)

/-- After any calls on a fresh engine, the number of active suspects is that of the suspect marks.
Every live suspect with references has an entry in the suspect stack after each of the calls if
and only if no call refers again to a suspect whose entry a cycle pass has dropped. -/
theorem suspects_listed_iff (capacity : ℕ) (kind : Regime) (owner : OwnerToken) (cs : List Call) :
    (∀ ds, ds <+: cs → ((init capacity kind owner).calls ds).Counted) ∧
      ((∀ ds, ds <+: cs → ((init capacity kind owner).calls ds).Listed) ↔
        ∀ ds d, ds ++ [d] <+: cs →
          ((init capacity kind owner).calls ds).callRevives d = false) := by
  refine ⟨fun ds _ => (init_counted capacity kind owner).calls ds, fun h ds d hd => ?_,
    fun h ds hds => ?_⟩
  · by_contra hr
    refine not_listed_call (Bool.not_eq_false _ ▸ hr) ?_
    rw [← calls_append_singleton]
    exact h _ hd
  · have hw := init_watching capacity kind owner
    exact (hw.calls ds fun ds' d hd => h ds' d (hd.trans hds)).listed

/-- A suspect loses its last root, a cycle pass drops its entry, and a new root revives it. -/
def revival : List Call :=
  let a : ObjHandle := ⟨0, 1⟩
  let b : ObjHandle := ⟨1, 1⟩
  [.alloc 0 kNoOwnerToken .shared, .alloc 1 kNoOwnerToken .shared,
    .process { op := .rootAdd, b := a }, .process { op := .rootAdd, b := a },
    .process { op := .edgeAdd, a := a, b := b }, .process { op := .rootRemove, b := a },
    .process { op := .rootRemove, b := a }, .collectCycles,
    .process { op := .rootAdd, b := a }]

theorem revival_unlisted :
    ¬ (∀ cs : List Call, ((init 2 .shared kNoOwnerToken).calls cs).Listed) ∧
      ¬ ((init 2 .shared kNoOwnerToken).calls revival).Listed ∧
      ((init 2 .shared kNoOwnerToken).calls revival).suspectStack = [] ∧
      ((init 2 .shared kNoOwnerToken).calls revival).activeSuspects = 1 := by
  have hl : ¬ ((init 2 .shared kNoOwnerToken).calls revival).Listed := fun h => by
    have := h 0 (by decide) (by decide) (by decide)
    revert this
    decide
  exact ⟨fun h => hl (h revival), hl, by decide, by decide⟩

/-- No sweep finds the cycle that such a suspect closes before its last root goes. -/
example : let e := ((init 2 .shared kNoOwnerToken).calls (revival ++
      [.process { op := .edgeAdd, a := ⟨1, 1⟩, b := ⟨0, 1⟩ },
        .process { op := .rootRemove, b := ⟨0, 1⟩ }])).sweep
    e.pool.isLiveAt 0 = true ∧ e.pool.isLiveAt 1 = true ∧ e.tab.root 0 = 0 ∧
      e.tab.root 1 = 0 := by decide

end AarcEngine

end Loxis.Aarc
