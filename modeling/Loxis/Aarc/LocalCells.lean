import Loxis.Lib.Run
import Loxis.Aarc.ForwardEngine
import Loxis.Aarc.ComponentLists

/-! # The local cells of an owner

An owner keeps cells to itself until another authority may refer to them; then the whole component
of such a cell is promoted, so that no edge joins the two sides. The operations of one owner, with
the steps of everyone else, who never touch its local cells.
-/

namespace Loxis.Aarc

open Function ConservativeComponents

inductive Authority | myLocal | sharedWorker | foreign
  deriving DecidableEq, Repr

namespace ForwardEngine

variable (e : ForwardEngine)

/-- A live local cell of the owner. -/
def mine (i : ℕ) : Bool :=
  e.pool.isLiveAt i && decide (e.pool.regimeAt i = .loc) &&
    decide (e.pool.ownerTokenAt i = e.owner)

def classify (h : ObjHandle) : Authority :=
  if e.pool.regimeOf h = .shared then .sharedWorker
  else if e.pool.regimeOf h = .loc ∧ e.pool.ownerTokenAt h.index = e.owner then .myLocal
  else .foreign

/-- Allocate the free slot `i` as a local cell, with a root and a component of its own. -/
def allocLocal (i : ℕ) : ForwardEngine :=
  match e.pool.allocInto i e.owner .loc with
  | none => e
  | some (h, p) =>
    let e := { e with pool := p }.process { op := .rootAdd, b := h }
    { e with comps := e.comps.map (·.addLocal e.owner h.index) }

/-- Allocate the free slot `i` as a shared cell. -/
def allocShared (i : ℕ) : ForwardEngine :=
  match e.pool.allocInto i e.owner .shared with
  | none => e
  | some (_, p) => { e with pool := p }

/-- The handles that still name local cells of the owner. -/
def seeds (roots : List ObjHandle) : List ObjHandle :=
  roots.filter fun h => e.pool.valid h && decide (e.pool.regimeOf h = .loc) &&
    decide (e.pool.ownerTokenAt h.index = e.owner)

/-- Retire the components of the given cells; reports the members in the order of the visits. -/
def promoteList (seeds : List ObjHandle) (c : ConservativeComponents) :
    List ℕ × ConservativeComponents :=
  seeds.foldl (fun r s =>
    let q := r.2.promoteComponent e.owner s.index
    (r.1 ++ q.1, q.2)) ([], c)

def setRegimes (r : Regime) (l : List ℕ) (p : CellPool) : CellPool :=
  l.foldl (fun p i => p.setRegime ⟨i, p.generationOf i⟩ r) p

/-- Hand the components of the given cells over: settle, freeze, commit. -/
def promoteLocalComponent (roots : List ObjHandle) : ForwardEngine :=
  let seeds := e.seeds roots
  if seeds.isEmpty then e
  else
    let e := e.sweep
    let live := e.seeds seeds
    if live.isEmpty then e
    else
      match e.comps with
      | none => e
      | some c =>
        let r := e.promoteList live c
        let e := { e with comps := some r.2 }
        if r.1.isEmpty then e
        else
          let p := setRegimes .shared r.1 (setRegimes .promoting r.1 e.pool)
          { e with pool := p }.forgetPromoted r.1

/-- Make a cell shared; reports whether it is. What another owner is asked for is left to that
owner's own steps. -/
def promoteHandle (h : ObjHandle) : ℕ → ForwardEngine → Bool × ForwardEngine
  | 0, e => (false, e)
  | n + 1, e =>
    if !e.pool.valid h then (false, e)
    else if e.pool.regimeOf h = .shared then (true, e)
    else if e.pool.regimeOf h = .promoting then promoteHandle h n e
    else if e.pool.ownerTokenAt h.index = e.owner then
      promoteHandle h n (e.promoteLocalComponent [h])
    else (false, e)

/-- A root operation, once the authority over the cell is settled. -/
def adaptiveRootOp (op : GCOp) (h : ObjHandle) : ℕ → ForwardEngine → Bool × ForwardEngine
  | 0, e => (false, e)
  | n + 1, e =>
    if !e.pool.valid h then (false, e)
    else
      match e.classify h with
      | .myLocal => (true, e.process { op := op, b := h })
      | .sharedWorker => (true, e)
      | .foreign =>
        let r := promoteHandle h 16 e
        if r.1 then adaptiveRootOp op h n r.2 else r

/-- The end of an edge that has to be promoted before the edge can be recorded. -/
def pick (src dst : ObjHandle) : ObjHandle :=
  let sa := e.classify src
  let da := e.classify dst
  if da = .sharedWorker then src
  else if sa = .sharedWorker then dst
  else if sa = .myLocal ∧ da = .foreign then dst
  else if da = .myLocal then dst
  else src

/-- An edge operation, once both ends have one authority. An edge between local cells joins their
components. -/
def adaptiveEdgeOp (op : GCOp) (src dst : ObjHandle) : ℕ → ForwardEngine → Bool × ForwardEngine
  | 0, e => (false, e)
  | n + 1, e =>
    if !e.pool.valid src || !e.pool.valid dst then (false, e)
    else if e.classify src = .myLocal ∧ e.classify dst = .myLocal then
      let e := e.process { op := op, a := src, b := dst }
      if op = .edgeAdd then
        (true, { e with comps := e.comps.map (·.merge e.owner src.index dst.index) })
      else (true, e)
    else if e.classify src = .sharedWorker ∧ e.classify dst = .sharedWorker then (true, e)
    else
      let r := promoteHandle (e.pick src dst) 16 e
      if r.1 then adaptiveEdgeOp op src dst n r.2 else r

/-- The operations of the owner, and what the worker and the other owners may do to cells that are
not local cells of the owner: allocate, free, change a row or a regime. -/
inductive Op
  | allocLocal (i : ℕ)
  | allocShared (i : ℕ)
  | rootAdd (h : ObjHandle)
  | rootRemove (h : ObjHandle)
  | edgeAdd (src dst : ObjHandle)
  | edgeRemove (src dst : ObjHandle)
  | collectLocal
  | promote (roots : List ObjHandle)
  | othersAlloc (i : ℕ) (o : OwnerToken) (r : Regime)
  | othersFree (i : ℕ)
  | othersRow (i : ℕ) (root edge : ℤ) (outs : List ObjHandle)
  | othersRegime (i : ℕ) (r : Regime)

def step (e : ForwardEngine) : Op → ForwardEngine
  | .allocLocal i => e.allocLocal i
  | .allocShared i => e.allocShared i
  | .rootAdd h => (adaptiveRootOp .rootAdd h 8 e).2
  | .rootRemove h => (adaptiveRootOp .rootRemove h 8 e).2
  | .edgeAdd src dst => (adaptiveEdgeOp .edgeAdd src dst 8 e).2
  | .edgeRemove src dst => (adaptiveEdgeOp .edgeRemove src dst 8 e).2
  | .collectLocal => e.sweep
  | .promote roots => e.promoteLocalComponent roots
  | .othersAlloc i o r =>
    if r = .loc ∧ o = e.owner then e
    else
      match e.pool.allocInto i o r with
      | none => e
      | some (_, p) => { e with pool := p }
  | .othersFree i =>
    if !e.pool.isLiveAt i || e.mine i then e
    else { e with tab := e.tab.resetSlot i, pool := e.pool.free (e.pool.handleAt i) }
  | .othersRow i root edge outs =>
    if !e.pool.isLiveAt i || e.mine i then e
    else
      { e with
        tab :=
          { e.tab with
            root := update e.tab.root i root
            edge := update e.tab.edge i edge
            outs := update e.tab.outs i outs
            liveEdges := e.tab.liveEdges - (e.tab.outs i).length + outs.length } }
  | .othersRegime i r =>
    if e.mine i || (decide (r = .loc) && decide (e.pool.ownerTokenAt i = e.owner)) then e
    else { e with pool := e.pool.setRegime (e.pool.handleAt i) r }

/-- A fresh pool whose local cells one owner allocates. -/
def fresh (capacity : ℕ) (owner : OwnerToken) : ForwardEngine :=
  { init capacity .shared owner (some (ConservativeComponents.init capacity)) with kind := .loc }

variable {e e' : ForwardEngine} {i j : ℕ} {p : CellPool}

theorem mine_iff : e.mine i = true ↔
    e.pool.isLiveAt i = true ∧ e.pool.regimeAt i = .loc ∧ e.pool.ownerTokenAt i = e.owner := by
  simp [mine, and_assoc]

/-! ## Steps that record no edge -/

/-- The same cells and components, and at most the same edges. -/
structure Narrows (e e' : ForwardEngine) : Prop where
  pool : e'.pool = e.pool
  comps : e'.comps = e.comps
  owner : e'.owner = e.owner
  outs : ∀ i, e'.tab.outs i ⊆ e.tab.outs i

namespace Narrows

theorem of_outs_eq (hp : e'.pool = e.pool) (hc : e'.comps = e.comps) (ho : e'.owner = e.owner)
    (h : e'.tab.outs = e.tab.outs) : Narrows e e' :=
  ⟨hp, hc, ho, fun _ => h ▸ List.Subset.refl _⟩

theorem refl (e : ForwardEngine) : Narrows e e := .of_outs_eq rfl rfl rfl rfl

theorem trans {e'' : ForwardEngine} (h : Narrows e e') (h' : Narrows e' e'') : Narrows e e'' :=
  ⟨h'.pool.trans h.pool, h'.comps.trans h.comps, h'.owner.trans h.owner,
    fun i => List.Subset.trans (h'.outs i) (h.outs i)⟩

theorem foldl {α : Type*} {f : ForwardEngine → α → ForwardEngine}
    (hf : ∀ e a, Narrows e (f e a)) (l : List α) (e : ForwardEngine) : Narrows e (l.foldl f e) := by
  induction l generalizing e with
  | nil => exact refl e
  | cons a l ih => exact (hf e a).trans (ih (f e a))

theorem markZero (e : ForwardEngine) (i : ℕ) : Narrows e (e.markZero i) := by
  unfold ForwardEngine.markZero
  split
  · exact refl e
  · exact of_outs_eq rfl rfl rfl rfl

theorem setSuspect (e : ForwardEngine) (i : ℕ) : Narrows e (e.setSuspect i) := by
  unfold ForwardEngine.setSuspect
  split
  · exact refl e
  · exact of_outs_eq rfl rfl rfl rfl

theorem clearSuspect (e : ForwardEngine) (i : ℕ) : Narrows e (e.clearSuspect i) := by
  unfold ForwardEngine.clearSuspect
  split
  · exact of_outs_eq rfl rfl rfl rfl
  · exact refl e

theorem tab_clearSuspect (e : ForwardEngine) (i : ℕ) : (e.clearSuspect i).tab = e.tab := by
  unfold ForwardEngine.clearSuspect
  split <;> rfl

theorem mark (e : ForwardEngine) (i : ℕ) : Narrows e (e.mark i) := by
  unfold ForwardEngine.mark
  split
  · exact markZero e i
  · split
    · exact setSuspect e i
    · exact refl e

theorem outs_subEdgeTo (t : ForwardTable) (i : ℕ) : (t.subEdgeTo i).1.outs = t.outs := by
  unfold ForwardTable.subEdgeTo
  split <;> rfl

theorem outs_subRoot (t : ForwardTable) (i n : ℕ) : (t.subRoot i n).1.outs = t.outs := by
  unfold ForwardTable.subRoot
  split <;> rfl

theorem outs_removeOut (t : ForwardTable) (a b : ObjHandle) (i : ℕ) :
    (t.removeOut a b).1.outs i ⊆ t.outs i := by
  unfold ForwardTable.removeOut
  split
  · dsimp only
    rw [update_apply]
    split
    · next h => exact h ▸ List.erase_subset
    · exact List.Subset.refl _
  · exact List.Subset.refl _

theorem setTab {t : ForwardTable} (h : ∀ i, t.outs i ⊆ e.tab.outs i) : Narrows e (e.setTab t) :=
  ⟨rfl, rfl, rfl, h⟩

theorem setTab_eq {t : ForwardTable} (h : t.outs = e.tab.outs) : Narrows e (e.setTab t) :=
  .of_outs_eq rfl rfl rfl h

theorem releaseOuts (e : ForwardEngine) (p : ObjHandle → Bool) (ts : List ObjHandle) :
    Narrows e (e.releaseOuts p ts) := by
  refine foldl (fun e t => ?_) ts e
  split
  · exact (setTab_eq (outs_subEdgeTo e.tab t.index)).trans (mark _ _)
  · exact refl e

/-- Only a new edge goes beyond the recorded ones. -/
theorem process (e : ForwardEngine) {m : GCMessage} (hm : m.op ≠ .edgeAdd) :
    Narrows e (e.process m) := by
  have hdrop : ∀ e : ForwardEngine, Narrows e e.dropStale := fun e => of_outs_eq rfl rfl rfl rfl
  unfold ForwardEngine.process
  cases hop : m.op with
  | rootAdd =>
    dsimp only
    split
    · exact setTab_eq rfl
    · exact hdrop e
  | rootRemove =>
    have hsub := setTab_eq (outs_subRoot e.tab m.b.index m.count)
    dsimp only
    split
    · exact hdrop e
    · split
      · exact hsub.trans (of_outs_eq rfl rfl rfl rfl)
      · exact hsub.trans (mark _ _)
  | rootCheck =>
    dsimp only
    split
    · exact hdrop e
    · exact mark _ _
  | edgeAdd => exact absurd hop hm
  | edgeRemove =>
    have hrem := setTab (outs_removeOut e.tab m.a m.b)
    dsimp only
    split
    · exact hdrop e
    · split
      · exact of_outs_eq rfl rfl rfl rfl
      · split
        · exact hrem.trans (hdrop _)
        · split
          · exact hrem.trans (of_outs_eq rfl rfl rfl rfl)
          · exact hrem.trans ((setTab_eq (outs_subEdgeTo _ _)).trans (mark _ _))
  | terminate => exact refl e

theorem forgetPromoted (e : ForwardEngine) (l : List ℕ) : Narrows e (e.forgetPromoted l) := by
  refine Narrows.trans (foldl (fun e i => ?_) l e) (of_outs_eq rfl rfl rfl rfl)
  have hz : Narrows e { e with zeroMark := update e.zeroMark i false } :=
    of_outs_eq rfl rfl rfl rfl
  exact hz.trans (clearSuspect _ i)

end Narrows

/-! ## The invariant -/

variable {c : ConservativeComponents} {L : ℕ → List ℕ} {m : GCMessage} {l : List ℕ} {id : ℕ}

/-- The components hold the local cells of the owner, and no edge joins two of them. -/
structure Tracks (e : ForwardEngine) (c : ConservativeComponents) (L : ℕ → List ℕ) : Prop where
  comps : e.comps = some c
  holds : c.Holds e.owner L
  capacity : c.capacity = e.pool.capacity
  sound : e.pool.Sound
  mem : ∀ i, e.mine i = true ↔ ∃ id, i ∈ L id
  joined : ∀ i t, e.mine i = true → t ∈ e.tab.outs i → e.pool.valid t = true →
    e.mine t.index = true → c.compOf i = c.compOf t.index
  dead : ∀ i, e.pool.isLiveAt i = false → e.tab.outs i = []
  -- a recorded target is not one that a later allocation of its slot will be
  known : ∀ i t, e.mine i = true → t ∈ e.tab.outs i → t.gen ≤ e.pool.gen t.index ∧
    (e.pool.avail t.index = true → t.gen < e.pool.gen t.index)

def Inv (e : ForwardEngine) : Prop := ∃ c L, Tracks e c L

namespace Tracks

theorem fresh {capacity : ℕ} (hcap : capacity ≤ kNoComp) (o : OwnerToken) :
    Tracks (ForwardEngine.fresh capacity o) (ConservativeComponents.init capacity) fun _ => [] where
  comps := rfl
  holds := .init hcap
  capacity := rfl
  sound := CellPool.init_sound capacity .shared
  mem i := by simp [mine, ForwardEngine.fresh, ForwardEngine.init, CellPool.init, CellPool.isLiveAt]
  joined _ _ _ ht := absurd ht List.not_mem_nil
  dead _ _ := rfl
  known _ _ _ ht := absurd ht List.not_mem_nil

theorem narrows (h : Tracks e c L) (hn : Narrows e e') : Tracks e' c L := by
  obtain ⟨hp, hc, ho, hs⟩ := hn
  have hmine : ∀ i, e'.mine i = e.mine i := fun i => by unfold mine; rw [hp, ho]
  refine ⟨hc.trans h.comps, ho ▸ h.holds, hp ▸ h.capacity, hp ▸ h.sound, fun i => ?_,
    fun i t hi ht hv hj => ?_, fun i hi => ?_, fun i t hi ht => ?_⟩
  · rw [hmine, h.mem]
  · rw [hmine] at hi hj
    exact h.joined i t hi (hs i ht) (hp ▸ hv) hj
  · have := hs i
    rwa [h.dead i (hp ▸ hi), List.subset_nil] at this
  · rw [hp]
    exact h.known i t (hmine i ▸ hi) (hs i ht)

/-- Taking a cell out of the components takes out nothing else. -/
theorem unlink (h : Tracks e c L) (i : ℕ) : ∃ L', (c.unlink e.owner i).Holds e.owner L' ∧
    ∀ j k, j ∈ L' k ↔ j ∈ L k ∧ j ≠ i := by
  by_cases hi : e.mine i = true
  · obtain ⟨id, hid⟩ := (h.mem i).mp hi
    refine ⟨_, h.holds.unlink hid, fun j k => ?_⟩
    obtain rfl | hne := eq_or_ne k id
    · rw [update_self, (h.holds.labels.nodup k).mem_erase_iff, and_comm]
    · rw [update_of_ne hne, iff_self_and]
      rintro hj rfl
      exact hne (h.holds.labels.id_eq hj hid)
  · have hnot : ∀ id, i ∉ L id := fun id hid => hi ((h.mem i).mpr ⟨id, hid⟩)
    refine ⟨L, ?_, fun j k => ?_⟩
    · unfold ConservativeComponents.unlink
      rw [if_pos (h.holds.labels.unlabelled i hnot)]
      exact h.holds
    · rw [iff_self_and]
      rintro hj rfl
      exact hnot k hj

/-- A cell that dies leaves its component, and its edges go. -/
theorem free (h : Tracks e c L) (hi : e.pool.isLiveAt i = true)
    (hp : e'.pool = e.pool.free (e.pool.handleAt i)) (hc : e'.comps = some (c.unlink e.owner i))
    (ho : e'.owner = e.owner) (hs : ∀ j, e'.tab.outs j ⊆ e.tab.outs j)
    (h0 : e'.tab.outs i = []) : e'.Inv := by
  obtain ⟨L', hL', hmem⟩ := h.unlink i
  have hv : e.pool.valid (e.pool.handleAt i) = true := CellPool.valid_handleAt.trans hi
  have hmine : ∀ j, e'.mine j = true ↔ e.mine j = true ∧ j ≠ i := by
    intro j
    rw [mine_iff, mine_iff, hp, ho, CellPool.isLiveAt_free hv, Bool.and_eq_true,
      decide_eq_true_iff]
    simp only [CellPool.regimeAt, CellPool.ownerTokenAt, CellPool.free_capacity,
      CellPool.free_regime, CellPool.free_owner, CellPool.handleAt_index]
    tauto
  have hcomp : ∀ j, e'.mine j = true → (c.unlink e.owner i).compOf j = c.compOf j := by
    intro j hj
    obtain ⟨hj, hji⟩ := (hmine j).mp hj
    obtain ⟨id, hid⟩ := (h.mem j).mp hj
    exact h.holds.compOf_congr hL' hid ((hmem j id).mpr ⟨hid, hji⟩)
  refine ⟨c.unlink e.owner i, L', hc, ho ▸ hL', ?_, hp ▸ h.sound.free, fun j => ?_,
    fun j t hj ht hv' hj' => ?_, fun j hj => ?_, fun j t hj ht => ?_⟩
  · rw [capacity_unlink, h.capacity, hp, CellPool.free_capacity]
  · rw [hmine, h.mem]
    simp only [hmem, exists_and_right]
  · rw [hcomp j hj, hcomp _ hj']
    obtain ⟨hj', hne⟩ := (hmine t.index).mp hj'
    have hg := (CellPool.valid_iff.mp hv').2
    rw [hp, CellPool.gen_free_of_ne hne] at hg
    exact h.joined j t ((hmine j).mp hj).1 (hs j ht)
      (CellPool.valid_iff.mpr ⟨(mine_iff.mp hj').1, hg⟩) hj'
  · obtain rfl | hne := eq_or_ne j i
    · exact h0
    · rw [hp, CellPool.isLiveAt_free hv] at hj
      have := hs j
      rwa [h.dead j (by simpa [hne] using hj), List.subset_nil] at this
  · obtain ⟨hg, ha⟩ := h.known j t ((hmine j).mp hj).1 (hs j ht)
    rw [hp]
    refine ⟨hg.trans (CellPool.gen_le_free _), fun ha' => ?_⟩
    obtain hti | hne := eq_or_ne t.index i
    · rw [hti] at hg ha' ⊢
      exact hg.trans_lt (CellPool.gen_lt_free h.sound hv ha')
    · rw [CellPool.avail_free_of_ne hne] at ha'
      rw [CellPool.gen_free_of_ne hne]
      exact ha ha'

end Tracks

namespace Inv

theorem narrows (h : e.Inv) (hn : Narrows e e') : e'.Inv :=
  let ⟨c, L, h⟩ := h
  ⟨c, L, h.narrows hn⟩

theorem outs_resetSlot_subset (t : ForwardTable) (i j : ℕ) : (t.resetSlot i).outs j ⊆ t.outs j := by
  unfold ForwardTable.resetSlot
  dsimp only
  rw [update_apply]
  split
  · exact List.nil_subset _
  · exact List.Subset.refl _

/-- A live cell is reset, taken out of its component and freed. -/
theorem reset (h : e.Inv) (hi : e.pool.isLiveAt i = true)
    (hp : e'.pool = e.pool.free ⟨i, e.pool.generationOf i⟩)
    (hc : e'.comps = e.comps.map (·.unlink e.owner i)) (ho : e'.owner = e.owner)
    (ht : e'.tab.outs = (e.tab.resetSlot i).outs) : e'.Inv := by
  obtain ⟨c, L, h⟩ := h
  have hgen : e.pool.generationOf i = e.pool.gen i := if_pos (CellPool.isLiveAt_iff.mp hi).1
  rw [hgen] at hp
  rw [h.comps] at hc
  refine h.free hi hp hc ho (fun j => ?_) ?_
  · rw [ht]
    exact outs_resetSlot_subset e.tab i j
  · rw [ht]
    exact update_self ..

theorem reclaimCell (h : e.Inv) (hi : e.pool.isLiveAt i = true) : (e.reclaimCell i).Inv := by
  have hn := (Narrows.clearSuspect e i).trans (Narrows.releaseOuts (e.clearSuspect i)
    (fun t => (e.clearSuspect i).pool.isLiveAt t.index) ((e.clearSuspect i).tab.outs i))
  refine (h.narrows hn).reset (hn.pool ▸ hi) ?_ rfl rfl rfl
  rw [hn.pool]
  exact congrArg (CellPool.free · _) hn.pool

theorem reclaimCycleMember (h : e.Inv) (hi : e.pool.isLiveAt i = true) (s : ℕ) :
    (e.reclaimCycleMember s i).Inv := by
  have hn := Narrows.releaseOuts e
    (fun t => e.pool.valid t && decide (e.sccOf t.index ≠ some s)) (e.tab.outs i)
  have hc := fun e : ForwardEngine => Narrows.clearSuspect e i
  unfold ForwardEngine.reclaimCycleMember
  generalize e.releaseOuts _ _ = e₁ at hn
  refine (h.narrows hn).reset (i := i) (hn.pool ▸ hi) ?_ ?_ ?_ ?_
  · dsimp only
    rw [(hc _).pool]
    rfl
  · exact (hc _).comps
  · exact (hc _).owner
  · exact congrArg ForwardTable.outs (Narrows.tab_clearSuspect _ i)

/-- A loop over candidates, each of which is freed or dropped. -/
theorem sweepZero (h : e.Inv) : e.sweepZero.Inv := by
  refine iterUntil_inv (fun e he => ?_) _ h
  unfold sweepZeroTurn
  split
  · exact he
  · next i rest hz =>
    have hn : Narrows e
        { e with zeroStack := rest, zeroMark := update e.zeroMark i false } :=
      .of_outs_eq rfl rfl rfl rfl
    have he := he.narrows hn
    dsimp only
    split
    · exact he
    · next hl =>
      split
      · exact he
      · exact he.reclaimCell (by simpa using hl)

theorem reclaimVisited (h : e.Inv) (p : ℕ → Bool) (l : List ℕ) : (e.reclaimVisited p l).1.Inv := by
  unfold ForwardEngine.reclaimVisited
  suffices ∀ r : ForwardEngine × Bool, r.1.Inv → (l.foldl _ r).1.Inv from this _ h
  induction l with
  | nil => exact fun _ hr => hr
  | cons i l ih =>
    intro r hr
    refine ih _ ?_
    dsimp only
    split
    · split
      · next hi =>
        exact hr.reclaimCycleMember (Bool.and_eq_true_iff.mp hi).2 _
      · exact hr
    · exact hr

theorem collectCyclePass (h : e.Inv) : e.collectCyclePass.1.Inv := by
  have hscratch : ∀ {e e' : ForwardEngine}, e'.pool = e.pool → e'.comps = e.comps →
      e'.owner = e.owner → e'.tab = e.tab → e.Inv → e'.Inv :=
    fun hp hc ho ht h => h.narrows (.of_outs_eq hp hc ho (congrArg _ ht))
  unfold ForwardEngine.collectCyclePass
  dsimp only
  split
  · exact hscratch (e := e) rfl rfl rfl rfl h
  · split
    · exact hscratch (e := e) rfl rfl rfl rfl h
    · have h' : ({ e with suspectStack := [] }.findComponents e.scanRoots).Inv :=
        hscratch (e := e) rfl rfl rfl rfl h
      generalize { e with suspectStack := [] }.findComponents e.scanRoots = e₁ at h'
      have hc := h'.narrows (Narrows.foldl Narrows.clearSuspect e₁.detector.visited e₁)
      have hr := hc.reclaimVisited
        (fun s => decide (s < e₁.detector.comps) && e₁.reclaimable s) e₁.detector.visited
      exact hscratch (e := ((e₁.detector.visited.foldl clearSuspect e₁).reclaimVisited _ _).1)
        rfl rfl rfl rfl hr

theorem sweep (h : e.Inv) : e.sweep.Inv := by
  refine iterUntil_inv (fun e he => ?_) _ h
  have hz := he.sweepZero
  unfold sweepTurn
  dsimp only
  split
  · exact hz
  · exact iterUntil_inv (fun _ he => he.collectCyclePass) _ hz

theorem process (h : e.Inv) (hm : m.op ≠ .edgeAdd) : (e.process m).Inv :=
  h.narrows (.process e hm)

end Inv

/-! ## Steps of the owner -/

/-- What an allocation of the slot `i` leaves alone. -/
structure Allocated (e : ForwardEngine) (p : CellPool) (i : ℕ) : Prop where
  notMine : e.mine i = false
  empty : e.tab.outs i = []
  bounded : i < e.pool.capacity
  capacity : p.capacity = e.pool.capacity
  sound : p.Sound
  dead : ∀ j, p.isLiveAt j = false → e.tab.outs j = []
  known : ∀ j t, e.mine j = true → t ∈ e.tab.outs j → t.gen ≤ p.gen t.index ∧
    (p.avail t.index = true → t.gen < p.gen t.index)
  -- no edge of a local cell names the new cell
  valid : ∀ j t, e.mine j = true → t ∈ e.tab.outs j → p.valid t = true →
    t.index ≠ i ∧ e.pool.valid t = true

namespace Tracks

theorem allocInto (h : Tracks e c L) {x : ObjHandle} {o : OwnerToken} {r : Regime}
    (ha : e.pool.allocInto i o r = some (x, p)) : Allocated e p i ∧ x = e.pool.handleAt i ∧
      p.valid x = true ∧ ∀ j, { e with pool := p }.mine j =
        if j = i then decide (r = .loc) && decide (o = e.owner) else e.mine j := by
  obtain ⟨hi, hav, rfl, rfl⟩ := CellPool.allocInto_eq_some ha
  have hlive : e.pool.isLiveAt i = false := by simp [CellPool.isLiveAt, h.sound i hav]
  have hlive' := CellPool.isLiveAt_activate hi o r
  have hgen := CellPool.activate_handleAt_gen (p := e.pool) (i := i) o r
  refine ⟨⟨by simp [mine, hlive], h.dead i hlive, hi, rfl, h.sound.activate o r, fun j hj => ?_,
    fun j t hj ht => ?_, fun j t hj ht hv => ?_⟩, rfl, ?_, fun j => ?_⟩
  · rw [hlive', Bool.or_eq_false_iff] at hj
    exact h.dead j hj.1
  · rw [hgen]
    refine ⟨(h.known j t hj ht).1, fun hav' => (h.known j t hj ht).2 ?_⟩
    simp only [CellPool.activate, CellPool.handleAt_index, update_apply] at hav'
    split at hav'
    · exact absurd hav' Bool.false_ne_true
    · exact hav'
  · obtain ⟨hl, hg⟩ := CellPool.valid_iff.mp hv
    rw [hgen] at hg
    have hne : t.index ≠ i := by
      intro hti
      have := (h.known j t hj ht).2 (hti ▸ hav)
      omega
    rw [hlive'] at hl
    exact ⟨hne, CellPool.valid_iff.mpr ⟨by simpa [hne] using hl, hg⟩⟩
  · refine CellPool.valid_iff.mpr ⟨?_, congrFun hgen i⟩
    rw [hlive']
    simp
  · unfold mine
    dsimp only
    rw [hlive']
    split
    · next hji => simp [hji, CellPool.activate, CellPool.regimeAt, CellPool.ownerTokenAt, hi]
    · next hji =>
      have hr : (e.pool.activate (e.pool.handleAt i) o r).regimeAt j = e.pool.regimeAt j := by
        simp [CellPool.activate, CellPool.regimeAt, hji]
      have ho : (e.pool.activate (e.pool.handleAt i) o r).ownerTokenAt j =
          e.pool.ownerTokenAt j := by
        simp [CellPool.activate, CellPool.ownerTokenAt, hji]
      rw [hr, ho]
      simp [hji]

/-- A cell for anyone else changes nothing for the owner. -/
theorem allocOthers (h : Tracks e c L) {x : ObjHandle} {o : OwnerToken} {r : Regime}
    (ha : e.pool.allocInto i o r = some (x, p)) (hr : ¬(r = .loc ∧ o = e.owner)) :
    Tracks { e with pool := p } c L := by
  obtain ⟨hal, -, -, hmine⟩ := h.allocInto ha
  have hmine' : ∀ j, { e with pool := p }.mine j = e.mine j := by
    intro j
    rw [hmine]
    split
    · next hji =>
      rw [hji, hal.notMine]
      simpa using hr
    · rfl
  refine ⟨h.comps, h.holds, h.capacity.trans hal.capacity.symm, hal.sound, fun j => ?_,
    fun j t hj ht hv hj' => ?_, hal.dead, fun j t hj ht => hal.known j t (hmine' j ▸ hj) ht⟩
  · rw [hmine', h.mem]
  · rw [hmine'] at hj hj'
    exact h.joined j t hj ht (hal.valid j t hj ht hv).2 hj'

/-- A local cell starts a component of its own. -/
theorem allocLocal (h : Tracks e c L) {x : ObjHandle}
    (ha : e.pool.allocInto i e.owner .loc = some (x, p)) :
    ∃ L', Tracks { e with pool := p, comps := some (c.addLocal e.owner i) }
      (c.addLocal e.owner i) L' := by
  obtain ⟨hal, -, -, hmine⟩ := h.allocInto ha
  have hnot : ∀ id, i ∉ L id := by
    intro id hid
    have := (h.mem i).mpr ⟨id, hid⟩
    rw [hal.notMine] at this
    exact Bool.noConfusion this
  obtain ⟨id, h0, hL'⟩ := h.holds.addLocal hnot (h.capacity ▸ hal.bounded)
  have hmem : ∀ j k, j ∈ update L id [i] k ↔ j ∈ L k ∨ k = id ∧ j = i := by
    intro j k
    obtain rfl | hne := eq_or_ne k id
    · simp [h0]
    · simp [hne]
  have hcomp : ∀ j, e.mine j = true → (c.addLocal e.owner i).compOf j = c.compOf j := by
    intro j hj
    obtain ⟨k, hk⟩ := (h.mem j).mp hj
    exact h.holds.compOf_congr hL' hk ((hmem j k).mpr (Or.inl hk))
  have hmine' : ∀ j, { e with pool := p }.mine j = true ↔ j = i ∨ e.mine j = true := by
    intro j
    rw [hmine]
    split <;> simp_all
  refine ⟨_, rfl, hL', ?_, hal.sound, fun j => ?_, fun j t hj ht hv hj' => ?_, hal.dead,
    fun j t hj ht => ?_⟩
  · exact (capacity_addLocal c e.owner i).trans (h.capacity.trans hal.capacity.symm)
  · refine (hmine' j).trans ?_
    rw [h.mem]
    constructor
    · rintro (rfl | ⟨k, hk⟩)
      · exact ⟨id, (hmem j id).mpr (Or.inr ⟨rfl, rfl⟩)⟩
      · exact ⟨k, (hmem j k).mpr (Or.inl hk)⟩
    · rintro ⟨k, hk⟩
      obtain hk | ⟨-, rfl⟩ := (hmem j k).mp hk
      · exact Or.inr ⟨k, hk⟩
      · exact Or.inl rfl
  · obtain rfl | hj := (hmine' j).mp hj
    · exact absurd (hal.empty ▸ ht) List.not_mem_nil
    · obtain ⟨hne, hv⟩ := hal.valid j t hj ht hv
      have hj' := ((hmine' _).mp hj').resolve_left hne
      rw [hcomp j hj, hcomp _ hj']
      exact h.joined j t hj ht hv hj'
  · obtain rfl | hj := (hmine' j).mp hj
    · exact absurd (hal.empty ▸ ht) List.not_mem_nil
    · exact hal.known j t hj ht

end Tracks

theorem Inv.allocLocal (h : e.Inv) (i : ℕ) : (e.allocLocal i).Inv := by
  unfold ForwardEngine.allocLocal
  split
  · exact h
  · next x q ha =>
    obtain ⟨c, L, h⟩ := h
    obtain ⟨L', h'⟩ := h.allocLocal ha
    obtain ⟨-, rfl, -⟩ := h.allocInto ha
    have hn := Narrows.process { e with pool := q }
      (m := { op := .rootAdd, b := e.pool.handleAt i }) GCOp.noConfusion
    refine ⟨_, L', h'.narrows ⟨hn.pool, ?_, hn.owner, hn.outs⟩⟩
    dsimp only
    rw [hn.comps, hn.owner, h.comps]
    rfl

/-- A merge keeps together what was together, and joins the components of the two slots. -/
theorem Tracks.merge (h : Tracks e c L) (hi : e.mine i = true) (hj : e.mine j = true) :
    ∃ L', (c.merge e.owner i j).Holds e.owner L' ∧ (∀ x, (∃ id, x ∈ L' id) ↔ ∃ id, x ∈ L id) ∧
      ∀ x y, e.mine x = true → e.mine y = true → (c.compOf x = c.compOf y ∨ x = i ∧ y = j) →
        (c.merge e.owner i j).compOf x = (c.merge e.owner i j).compOf y := by
  obtain ⟨ca, hca⟩ := (h.mem i).mp hi
  obtain ⟨cb, hcb⟩ := (h.mem j).mp hj
  have hlabel := h.holds.labels.label
  obtain rfl | hne := eq_or_ne ca cb
  · have hmerge : c.merge e.owner i j = c := by
      unfold ConservativeComponents.merge
      rw [hlabel ca i hca, hlabel ca j hcb]
      exact if_pos (Or.inr (Or.inr rfl))
    rw [hmerge]
    refine ⟨L, h.holds, fun _ => Iff.rfl, ?_⟩
    rintro x y - - (hxy | ⟨rfl, rfl⟩)
    · exact hxy
    · rw [hlabel ca x hca, hlabel ca y hcb]
  · refine ⟨_, h.holds.merge hca hcb hne, fun x => ?_, fun x y hx hy hxy => ?_⟩
    · simp only [Labels.mem_append]
      constructor
      · rintro ⟨k, -, hx | ⟨-, hx⟩⟩
        · exact ⟨k, hx⟩
        · exact ⟨cb, hx⟩
      · rintro ⟨k, hx⟩
        obtain rfl | hk := eq_or_ne k cb
        · exact ⟨ca, hne, Or.inr ⟨rfl, hx⟩⟩
        · exact ⟨k, hk, Or.inl hx⟩
    · obtain ⟨k, hk⟩ := (h.mem x).mp hx
      obtain ⟨k', hk'⟩ := (h.mem y).mp hy
      have hlab := @Holds.compOf_merge L ca cb i j c e.owner h.holds hca hcb hne
      rw [hlab hk, hlab hk']
      rcases hxy with hxy | ⟨rfl, rfl⟩
      · rw [← hlabel k x hk, ← hlabel k' y hk', hxy]
      · rw [h.holds.labels.id_eq hk hca, h.holds.labels.id_eq hk' hcb, if_neg hne, if_pos rfl]

/-- A new edge between local cells joins their components. -/
theorem Inv.edgeAdd (h : e.Inv) {a b : ObjHandle} (ha : e.pool.valid a = true)
    (hb : e.pool.valid b = true) (hma : e.mine a.index = true) (hmb : e.mine b.index = true) :
    ({ e.process { op := .edgeAdd, a := a, b := b } with
        comps := (e.process { op := .edgeAdd, a := a, b := b }).comps.map
          (·.merge (e.process { op := .edgeAdd, a := a, b := b }).owner a.index b.index) } :
      ForwardEngine).Inv := by
  obtain ⟨c, L, h⟩ := h
  obtain ⟨L', hL', hmem, hcomp⟩ := h.merge hma hmb
  have hproc : e.process { op := .edgeAdd, a := a, b := b } =
      e.setTab ((e.tab.addEdgeTo b.index).addOut a b) := by
    simp [ForwardEngine.process, live, ha, hb]
  have houts : ∀ i t, t ∈ ((e.tab.addEdgeTo b.index).addOut a b).outs i →
      t ∈ e.tab.outs i ∨ i = a.index ∧ t = b := by
    intro i t ht
    simp only [ForwardTable.addOut, ForwardTable.addEdgeTo, update_apply] at ht
    split at ht
    · next hi =>
      rw [List.mem_append, List.mem_singleton] at ht
      exact ht.imp (hi ▸ ·) fun ht => ⟨hi, ht⟩
    · exact Or.inl ht
  rw [hproc]
  refine ⟨c.merge e.owner a.index b.index, L', ?_, hL', ?_, h.sound, fun i => ?_,
    fun i t hi ht hv hj => ?_, fun i hi => ?_, fun i t hi ht => ?_⟩
  · exact congrArg (Option.map _) h.comps
  · exact (capacity_merge c e.owner _ _).trans h.capacity
  · exact (h.mem i).trans (hmem i).symm
  · refine hcomp i t.index hi hj ?_
    rcases houts i t ht with ht | ⟨rfl, rfl⟩
    · exact Or.inl (h.joined i t hi ht hv hj)
    · exact Or.inr ⟨rfl, rfl⟩
  · have hi : e.pool.isLiveAt i = false := hi
    have hne : i ≠ a.index := by
      rintro rfl
      rw [(CellPool.valid_iff.mp ha).1] at hi
      exact Bool.noConfusion hi
    exact (update_of_ne hne _ _).trans (h.dead i hi)
  · rcases houts i t ht with ht | ⟨-, rfl⟩
    · exact h.known i t hi ht
    · obtain ⟨hl, hg⟩ := CellPool.valid_iff.mp hb
      refine ⟨hg.ge, fun hav => ?_⟩
      have hlive := (CellPool.isLiveAt_iff.mp hl).2
      rw [h.sound _ hav] at hlive
      exact Bool.noConfusion hlive

/-! ## Promotion -/

/-- Components that have gone as a whole, with the members in the order of the visits. -/
structure Retired (c d : ConservativeComponents) (o : OwnerToken) (L L' : ℕ → List ℕ)
    (l : List ℕ) : Prop where
  holds : d.Holds o L'
  capacity : d.capacity = c.capacity
  whole : ∀ id, L' id = L id ∨ L' id = []
  mem : ∀ i, i ∈ l ↔ ∃ id, i ∈ L id ∧ L' id = []

/-- A seed retires its component, unless an earlier one did. -/
theorem Retired.promoteComponent {d : ConservativeComponents} {o : OwnerToken} {L' : ℕ → List ℕ}
    (h : Retired c d o L L' l) (i : ℕ) : ∃ L'', Retired c (d.promoteComponent o i).2 o L L''
      (l ++ (d.promoteComponent o i).1) := by
  by_cases hi : d.compOf i = kNoComp
  · have hnil : d.promoteComponent o i = ([], d) := by
      unfold ConservativeComponents.promoteComponent
      exact if_pos hi
    rw [hnil, List.append_nil]
    exact ⟨L', h⟩
  · obtain ⟨hvisit, hholds⟩ := h.holds.promoteComponent ((h.holds.mem_iff hi).mpr rfl)
    have hne : L' (d.compOf i) ≠ [] := List.ne_nil_of_mem ((h.holds.mem_iff hi).mpr rfl)
    have hsame := (h.whole (d.compOf i)).resolve_right hne
    refine ⟨_, hholds, (capacity_promoteComponent d o i).trans h.capacity, fun id => ?_,
      fun j => ?_⟩
    · rw [update_apply]
      split
      · exact Or.inr rfl
      · exact h.whole id
    · rw [hvisit, List.mem_append, h.mem, hsame]
      constructor
      · rintro (⟨id, hj, hid⟩ | hj)
        · refine ⟨id, hj, ?_⟩
          rw [update_apply, hid, ite_self]
        · exact ⟨_, hj, update_self ..⟩
      · rintro ⟨id, hj, hid⟩
        obtain rfl | hid' := eq_or_ne id (d.compOf i)
        · exact Or.inr hj
        · rw [update_of_ne hid'] at hid
          exact Or.inl ⟨id, hj, hid⟩

theorem promoteList_retired (hL : c.Holds e.owner L) (seeds : List ObjHandle) :
    ∃ L', Retired c (e.promoteList seeds c).2 e.owner L L' (e.promoteList seeds c).1 := by
  unfold promoteList
  suffices ∀ r : List ℕ × ConservativeComponents, (∃ L', Retired c r.2 e.owner L L' r.1) →
      ∃ L', Retired c (seeds.foldl (fun r s =>
        let q := r.2.promoteComponent e.owner s.index
        (r.1 ++ q.1, q.2)) r).2 e.owner L L' (seeds.foldl (fun r s =>
        let q := r.2.promoteComponent e.owner s.index
        (r.1 ++ q.1, q.2)) r).1 by
    refine this ([], c) ⟨L, hL, rfl, fun _ => Or.inl rfl, fun i => ?_⟩
    constructor
    · intro hi
      exact absurd hi List.not_mem_nil
    · rintro ⟨id, hi, hid⟩
      exact absurd hi (hid ▸ List.not_mem_nil)
  induction seeds with
  | nil => exact fun _ hr => hr
  | cons s seeds ih =>
    rintro r ⟨L', hr⟩
    exact ih _ (hr.promoteComponent s.index)

theorem setRegimes_spec (r : Regime) (l : List ℕ) (p : CellPool) :
    (setRegimes r l p).capacity = p.capacity ∧ (setRegimes r l p).gen = p.gen ∧
      (setRegimes r l p).live = p.live ∧ (setRegimes r l p).avail = p.avail ∧
      (setRegimes r l p).owner = p.owner ∧
      ∀ i < p.capacity, (setRegimes r l p).regime i = if i ∈ l then r else p.regime i := by
  unfold setRegimes
  induction l generalizing p with
  | nil => exact ⟨rfl, rfl, rfl, rfl, rfl, fun i _ => by simp⟩
  | cons x l ih =>
    obtain ⟨hcap, hgen, hlive, hav, hown, hreg⟩ := ih (p.setRegime ⟨x, p.generationOf x⟩ r)
    have hset : (p.setRegime ⟨x, p.generationOf x⟩ r).capacity = p.capacity ∧
        (p.setRegime ⟨x, p.generationOf x⟩ r).gen = p.gen ∧
        (p.setRegime ⟨x, p.generationOf x⟩ r).live = p.live ∧
        (p.setRegime ⟨x, p.generationOf x⟩ r).avail = p.avail ∧
        (p.setRegime ⟨x, p.generationOf x⟩ r).owner = p.owner ∧
        ∀ i < p.capacity, (p.setRegime ⟨x, p.generationOf x⟩ r).regime i =
          if i = x then r else p.regime i := by
      unfold CellPool.setRegime
      split
      · exact ⟨rfl, rfl, rfl, rfl, rfl, fun i _ => update_apply ..⟩
      · next hx =>
        refine ⟨rfl, rfl, rfl, rfl, rfl, fun i hi => (if_neg ?_).symm⟩
        rintro rfl
        exact hx hi
    obtain ⟨hcap', hgen', hlive', hav', hown', hreg'⟩ := hset
    refine ⟨hcap.trans hcap', hgen.trans hgen', hlive.trans hlive', hav.trans hav',
      hown.trans hown', fun i hi => ?_⟩
    rw [List.foldl_cons, hreg i (hcap' ▸ hi), hreg' i hi]
    split <;> split <;> simp_all

/-- The members of retired components that become shared leave the owner, and nothing else does. -/
theorem Tracks.promoted (h : Tracks e c L) {d : ConservativeComponents} {L' : ℕ → List ℕ}
    (hr : Retired c d e.owner L L' l) (hcap : p.capacity = e.pool.capacity)
    (hgen : p.gen = e.pool.gen) (hlive : p.live = e.pool.live) (hav : p.avail = e.pool.avail)
    (hown : p.owner = e.pool.owner)
    (hreg : ∀ i < e.pool.capacity, p.regime i = if i ∈ l then .shared else e.pool.regime i) :
    Tracks { e with pool := p, comps := some d } d L' := by
  have hliveAt : ∀ i, p.isLiveAt i = e.pool.isLiveAt i := fun i => by
    simp only [CellPool.isLiveAt, hcap, hlive]
  have hvalid : ∀ t, p.valid t = e.pool.valid t := fun t => by
    simp only [CellPool.valid, hliveAt, hgen]
  have hmine : ∀ i, { e with pool := p, comps := some d }.mine i = true ↔
      e.mine i = true ∧ i ∉ l := by
    intro i
    rw [mine_iff, mine_iff]
    dsimp only
    rw [hliveAt]
    by_cases hi : i < e.pool.capacity
    · simp only [CellPool.regimeAt, CellPool.ownerTokenAt, hcap, hown, hi, if_true, hreg i hi]
      split <;> simp_all
    · simp [CellPool.isLiveAt, hi]
  have hmem : ∀ i, e.mine i = true → i ∉ l → ∃ id, i ∈ L id ∧ i ∈ L' id := by
    intro i hi hil
    obtain ⟨id, hid⟩ := (h.mem i).mp hi
    refine ⟨id, hid, ?_⟩
    obtain hw | hw := hr.whole id
    · exact hw ▸ hid
    · exact absurd ((hr.mem i).mpr ⟨id, hid, hw⟩) hil
  have hcomp : ∀ i, e.mine i = true → i ∉ l → d.compOf i = c.compOf i := by
    intro i hi hil
    obtain ⟨id, hid, hid'⟩ := hmem i hi hil
    exact h.holds.compOf_congr hr.holds hid hid'
  refine ⟨rfl, hr.holds, hr.capacity.trans (h.capacity.trans hcap.symm), fun i hi => ?_,
    fun i => ?_, fun i t hi ht hv hj => ?_, fun i hi => h.dead i (hliveAt i ▸ hi),
    fun i t hi ht => ?_⟩
  · change p.live i = false
    rw [hlive]
    exact h.sound i (hav ▸ hi)
  · rw [hmine]
    constructor
    · rintro ⟨hi, hil⟩
      obtain ⟨id, -, hid⟩ := hmem i hi hil
      exact ⟨id, hid⟩
    · rintro ⟨id, hid⟩
      have hw := (hr.whole id).resolve_right (List.ne_nil_of_mem hid)
      have hid' : i ∈ L id := hw ▸ hid
      refine ⟨(h.mem i).mpr ⟨id, hid'⟩, fun hil => ?_⟩
      obtain ⟨id', hi', hnil⟩ := (hr.mem i).mp hil
      rw [h.holds.labels.id_eq hi' hid'] at hnil
      exact absurd hid (hnil ▸ List.not_mem_nil)
  · obtain ⟨hi, hil⟩ := (hmine i).mp hi
    obtain ⟨hj, hjl⟩ := (hmine _).mp hj
    rw [hcomp i hi hil, hcomp _ hj hjl]
    exact h.joined i t hi ht (hvalid t ▸ hv) hj
  · dsimp only
    rw [hgen, hav]
    exact h.known i t ((hmine i).mp hi).1 ht

namespace Inv

theorem promoteLocalComponent (h : e.Inv) (roots : List ObjHandle) :
    (e.promoteLocalComponent roots).Inv := by
  unfold ForwardEngine.promoteLocalComponent
  dsimp only
  split
  · exact h
  · have hs := h.sweep
    generalize e.sweep = e₁ at hs
    split
    · exact hs
    · obtain ⟨c, L, hs⟩ := hs
      rw [hs.comps]
      dsimp only
      obtain ⟨L', hr⟩ := promoteList_retired hs.holds (e₁.seeds (e.seeds roots))
      generalize e₁.promoteList (e₁.seeds (e.seeds roots)) c = r at hr
      obtain ⟨l, d⟩ := r
      split
      · next hnil =>
        rw [List.isEmpty_iff] at hnil
        dsimp only at hnil hr
        subst hnil
        exact ⟨d, L', hs.promoted hr rfl rfl rfl rfl rfl fun i _ => by simp⟩
      · refine narrows ?_ (Narrows.forgetPromoted _ _)
        obtain ⟨hcap, hgen, hlive, hav, hown, hreg⟩ := setRegimes_spec .promoting l e₁.pool
        obtain ⟨hcap', hgen', hlive', hav', hown', hreg'⟩ :=
          setRegimes_spec .shared l (setRegimes .promoting l e₁.pool)
        refine ⟨d, L', hs.promoted hr (hcap'.trans hcap) (hgen'.trans hgen) (hlive'.trans hlive)
          (hav'.trans hav) (hown'.trans hown) fun i hi => ?_⟩
        rw [hreg' i (hcap ▸ hi), hreg i hi]
        split <;> rfl

theorem promoteHandle (h : e.Inv) (x : ObjHandle) (n : ℕ) : (promoteHandle x n e).2.Inv := by
  induction n generalizing e with
  | zero => exact h
  | succ n ih =>
    unfold ForwardEngine.promoteHandle
    split
    · exact h
    · split
      · exact h
      · split
        · exact ih h
        · split
          · exact ih (h.promoteLocalComponent [x])
          · exact h

theorem adaptiveRootOp (h : e.Inv) {op : GCOp} (hop : op ≠ .edgeAdd) (x : ObjHandle) (n : ℕ) :
    (adaptiveRootOp op x n e).2.Inv := by
  induction n generalizing e with
  | zero => exact h
  | succ n ih =>
    unfold ForwardEngine.adaptiveRootOp
    split
    · exact h
    · split
      · exact h.process hop
      · exact h
      · dsimp only
        split
        · exact ih (h.promoteHandle x 16)
        · exact h.promoteHandle x 16

theorem mine_of_classify {x : ObjHandle} (hv : e.pool.valid x = true)
    (hx : e.classify x = .myLocal) : e.mine x.index = true := by
  unfold classify at hx
  split at hx
  · exact Authority.noConfusion hx
  · split at hx
    · next hloc => exact mine_iff.mpr ⟨(CellPool.valid_iff.mp hv).1, hloc.1, hloc.2⟩
    · exact Authority.noConfusion hx

theorem adaptiveEdgeOp (h : e.Inv) (op : GCOp) (a b : ObjHandle) (n : ℕ) :
    (adaptiveEdgeOp op a b n e).2.Inv := by
  induction n generalizing e with
  | zero => exact h
  | succ n ih =>
    unfold ForwardEngine.adaptiveEdgeOp
    split
    · exact h
    · next hv =>
      rw [Bool.or_eq_true, Bool.not_eq_true', Bool.not_eq_true', not_or, Bool.not_eq_false,
        Bool.not_eq_false] at hv
      split
      · next hc =>
        dsimp only
        split
        · next hop =>
          subst hop
          exact h.edgeAdd hv.1 hv.2 (mine_of_classify hv.1 hc.1) (mine_of_classify hv.2 hc.2)
        · next hop => exact h.process hop
      · split
        · exact h
        · dsimp only
          split
          · exact ih (h.promoteHandle _ 16)
          · exact h.promoteHandle _ 16

end Inv

/-! ## Runs -/

namespace Tracks

theorem othersFree (h : Tracks e c L) (hi : e.pool.isLiveAt i = true) (hm : e.mine i = false) :
    Inv { e with tab := e.tab.resetSlot i, pool := e.pool.free (e.pool.handleAt i) } := by
  have hc : c.unlink e.owner i = c := by
    unfold ConservativeComponents.unlink
    refine if_pos (h.holds.labels.unlabelled i fun id hid => ?_)
    rw [(h.mem i).mpr ⟨id, hid⟩] at hm
    exact Bool.noConfusion hm
  refine h.free hi rfl (h.comps.trans (congrArg some hc.symm)) rfl (fun j => ?_) (update_self ..)
  exact Inv.outs_resetSlot_subset e.tab i j

theorem othersRow (h : Tracks e c L) (hi : e.pool.isLiveAt i = true) (hm : e.mine i = false)
    {t : ForwardTable} (ht : ∀ j, j ≠ i → t.outs j = e.tab.outs j) :
    Tracks { e with tab := t } c L := by
  have hne : ∀ j, e.mine j = true → j ≠ i := by
    rintro j hj rfl
    rw [hm] at hj
    exact Bool.noConfusion hj
  refine ⟨h.comps, h.holds, h.capacity, h.sound, h.mem, fun j x hj hx => ?_, fun j hj => ?_,
    fun j x hj hx => ?_⟩
  · exact h.joined j x hj (ht j (hne j hj) ▸ hx)
  · have hji : j ≠ i := by
      rintro rfl
      have hj : e.pool.isLiveAt j = false := hj
      rw [hi] at hj
      exact Bool.noConfusion hj
    exact (ht j hji).trans (h.dead j hj)
  · exact h.known j x hj (ht j (hne j hj) ▸ hx)

theorem othersRegime (h : Tracks e c L) {r : Regime} (hm : e.mine i = false)
    (hr : ¬(r = .loc ∧ e.pool.ownerTokenAt i = e.owner)) :
    Tracks { e with pool := e.pool.setRegime (e.pool.handleAt i) r } c L := by
  unfold CellPool.setRegime
  split
  · next hi =>
    have hmine : ∀ j, ({ e with pool := { e.pool with regime := update e.pool.regime i r } } :
        ForwardEngine).mine j = e.mine j := by
      intro j
      obtain rfl | hj := eq_or_ne j i
      · rw [hm, Bool.eq_false_iff, ne_eq, mine_iff]
        rintro ⟨-, hloc, hown⟩
        refine hr ⟨?_, hown⟩
        simpa [CellPool.regimeAt, show j < e.pool.capacity from hi] using hloc
      · have hreg : ({ e.pool with regime := update e.pool.regime i r } : CellPool).regimeAt j =
            e.pool.regimeAt j := by simp [CellPool.regimeAt, hj]
        unfold mine
        dsimp only
        rw [hreg]
        rfl
    refine ⟨h.comps, h.holds, h.capacity, h.sound, fun j => ?_, fun j t hj ht hv hj' => ?_, h.dead,
      fun j t hj ht => h.known j t (hmine j ▸ hj) ht⟩
    · exact (congrArg (· = true) (hmine j)).to_iff.trans (h.mem j)
    · exact h.joined j t (hmine j ▸ hj) ht hv (hmine _ ▸ hj')
  · exact h

end Tracks

theorem Inv.step (h : e.Inv) (op : Op) : (e.step op).Inv := by
  cases op with
  | allocLocal i => exact h.allocLocal i
  | allocShared i =>
    unfold ForwardEngine.step ForwardEngine.allocShared
    dsimp only
    split
    · exact h
    · next x q ha =>
      obtain ⟨c, L, h⟩ := h
      exact ⟨c, L, h.allocOthers ha fun hr => Regime.noConfusion hr.1⟩
  | rootAdd x => exact h.adaptiveRootOp GCOp.noConfusion x 8
  | rootRemove x => exact h.adaptiveRootOp GCOp.noConfusion x 8
  | edgeAdd a b => exact h.adaptiveEdgeOp .edgeAdd a b 8
  | edgeRemove a b => exact h.adaptiveEdgeOp .edgeRemove a b 8
  | collectLocal => exact h.sweep
  | promote roots => exact h.promoteLocalComponent roots
  | othersAlloc i o r =>
    unfold ForwardEngine.step
    dsimp only
    split
    · exact h
    · next hr =>
      split
      · exact h
      · next x q ha =>
        obtain ⟨c, L, h⟩ := h
        exact ⟨c, L, h.allocOthers ha hr⟩
  | othersFree i =>
    unfold ForwardEngine.step
    dsimp only
    split
    · exact h
    · next hi =>
      obtain ⟨c, L, h⟩ := h
      exact h.othersFree (by simp_all) (by simp_all)
  | othersRow i root edge outs =>
    unfold ForwardEngine.step
    dsimp only
    split
    · exact h
    · next hi =>
      obtain ⟨c, L, h⟩ := h
      exact ⟨c, L, h.othersRow (by simp_all) (by simp_all) fun j hj => update_of_ne hj _ _⟩
  | othersRegime i r =>
    unfold ForwardEngine.step
    dsimp only
    split
    · exact h
    · next hi =>
      obtain ⟨c, L, h⟩ := h
      exact ⟨c, L, h.othersRegime (by simp_all) (by simp_all)⟩

/-- What the components say about the cells. -/
structure Consistent (e : ForwardEngine) (c : ConservativeComponents) : Prop where
  /-- An edge never joins two components. -/
  joined : ∀ i t, e.mine i = true → t ∈ e.tab.outs i → e.pool.valid t = true →
    e.mine t.index = true → c.compOf i = c.compOf t.index
  /-- Every local cell belongs to a component of the owner. -/
  labelled : ∀ i, e.mine i = true → c.compOf i < (c.storeOf e.owner).size
  /-- The list of a component has its live members, each once. -/
  members : ∀ id < (c.storeOf e.owner).size, (c.members e.owner id).Nodup ∧
    ((c.storeOf e.owner).header id).live = (c.members e.owner id).length ∧
    ∀ i, i ∈ c.members e.owner id ↔ e.mine i = true ∧ c.compOf i = id
  /-- A promotion visits the members of one component and leaves the others as they are. -/
  promote : ∀ i, e.mine i = true →
    (c.promoteComponent e.owner i).1 = c.members e.owner (c.compOf i) ∧
    ∀ id < (c.storeOf e.owner).size, id ≠ c.compOf i →
      (c.promoteComponent e.owner i).2.members e.owner id = c.members e.owner id ∧
      ((c.promoteComponent e.owner i).2.storeOf e.owner).header id =
        (c.storeOf e.owner).header id ∧
      ∀ j ∈ c.members e.owner id, (c.promoteComponent e.owner i).2.compOf j = id

theorem Tracks.consistent (h : Tracks e c L) : Consistent e c := by
  have hmem : ∀ i, e.mine i = true → i ∈ L (c.compOf i) := fun i hi => by
    obtain ⟨id, hid⟩ := (h.mem i).mp hi
    rwa [h.holds.labels.label id i hid]
  refine ⟨h.joined, fun i hi => ?_, fun id hid => ?_, fun i hi => ?_⟩
  · exact h.holds.uses.in_use _ (List.ne_nil_of_mem (hmem i hi))
  · rw [h.holds.members_eq hid]
    refine ⟨h.holds.labels.nodup id, ?_, fun i => ?_⟩
    · by_cases h0 : L id = []
      · rw [h.holds.uses.unused id hid h0, h0]
        rfl
      · exact (h.holds.describes id h0).live
    · constructor
      · intro hi
        exact ⟨(h.mem i).mpr ⟨id, hi⟩, h.holds.labels.label id i hi⟩
      · rintro ⟨hi, rfl⟩
        exact hmem i hi
  · obtain ⟨hvisit, hholds⟩ := h.holds.promoteComponent (hmem i hi)
    have hstore := h.holds.storeOf_promoteComponent (hmem i hi)
    have hin := h.holds.uses.in_use _ (List.ne_nil_of_mem (hmem i hi))
    refine ⟨by rw [hvisit, h.holds.members_eq hin], fun id hid hne => ?_⟩
    have hlist : update L (c.compOf i) [] id = L id := update_of_ne hne _ _
    refine ⟨?_, ?_, fun j hj => ?_⟩
    · rw [hholds.members_eq (by rw [hstore]; exact hid), hlist, h.holds.members_eq hid]
    · rw [hstore, OwnerStore.header_freeHeader_of_ne hne]
    · rw [h.holds.members_eq hid] at hj
      exact hholds.labels.label id j (hlist ▸ hj)

/-- Whatever an owner does, with whatever the others do, its components hold its live local cells:
no edge joins two of them, their lists are complete, and a promotion takes exactly one. -/
theorem components_consistent (capacity : UInt32) (owner : OwnerToken) (ops : List Op) :
    ∃ c, (ops.foldl step (fresh capacity.toNat owner)).comps = some c ∧
      Consistent (ops.foldl step (fresh capacity.toNat owner)) c := by
  have hinv : (ops.foldl step (fresh capacity.toNat owner)).Inv := by
    suffices ∀ e : ForwardEngine, e.Inv → (ops.foldl ForwardEngine.step e).Inv from
      this _ ⟨_, _, Tracks.fresh (Nat.le_of_lt_succ capacity.toNat_lt) owner⟩
    induction ops with
    | nil => exact fun _ he => he
    | cons op ops ih => exact fun e he => ih _ (he.step op)
  obtain ⟨c, L, h⟩ := hinv
  exact ⟨c, h.comps, h.consistent⟩

end ForwardEngine

end Loxis.Aarc
