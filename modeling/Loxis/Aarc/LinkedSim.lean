import Loxis.Aarc.Process
import Loxis.Aarc.LinkedLists
import Loxis.Aarc.LinkedTable

/-! # The arena follows the table

An engine over the arena and an engine over the table that it represents take the same steps, as
long as a row is only reset when nothing refers to it. That holds for any messages, also for
those that take away more than was added.
-/

namespace Loxis.Aarc

open Function

namespace RefTable

variable {s : RefTable} {i j : ℕ}

theorem inRecs_clearOuts_nil (h : s.inRecs j = []) (i : ℕ) : (s.clearOuts i).inRecs j = [] := by
  unfold clearOuts
  rw [inRecs_foldl_unlink, h, List.nil_diff]

theorem inRecs_resetSlot_nil (h : s.inRecs j = []) (i : ℕ) : (s.resetSlot i).inRecs j = [] := by
  change update (s.clearOuts i).inRecs i [] j = []
  rw [update_apply]
  split
  · rfl
  · exact inRecs_clearOuts_nil h i

end RefTable

namespace LinkedTable.Represents

variable {t : LinkedTable} {s : RefTable} {O I : ℕ → List EdgeId} {F : List EdgeId}

theorem total_eq (h : t.Represents s O I F) (i : ℕ) : t.total i = s.total i := by
  unfold LinkedTable.total RefTable.total
  rw [h.root, h.edge]

theorem hasOutgoing_eq (h : t.Represents s O I F) (i : ℕ) : t.hasOutgoing i = s.hasOutgoing i := by
  unfold LinkedTable.hasOutgoing RefTable.hasOutgoing
  rw [h.out.count_eq, h.outRecs]
  cases O i <;> simp

theorem outRecs_eq (h : t.Represents s O I F) : t.outRecs = s.outRecs := by
  funext i
  rw [h.toAdjacency.outRecs_eq, h.outRecs]

theorem outs_eq (h : t.Represents s O I F) (i : ℕ) : t.outs i = s.outs i := by
  unfold LinkedTable.outs RefTable.outs
  rw [h.outRecs_eq]

theorem addRoot (h : t.Represents s O I F) (i n : ℕ) :
    (t.addRoot i n).Represents (s.addRoot i n) O I F := by
  refine { h with root := ?_ }
  change update t.root i (t.root i + n) = _
  rw [h.root]
  rfl

theorem subRoot (h : t.Represents s O I F) (i n : ℕ) :
    (t.subRoot i n).2 = (s.subRoot i n).2 ∧
      (t.subRoot i n).1.Represents (s.subRoot i n).1 O I F := by
  unfold LinkedTable.subRoot RefTable.subRoot
  rw [h.root]
  split
  · exact ⟨rfl, { h with root := rfl }⟩
  · exact ⟨rfl, { h with root := rfl }⟩

theorem addEdgeTo (h : t.Represents s O I F) (i : ℕ) :
    (t.addEdgeTo i).Represents (s.addEdgeTo i) O I F := by
  refine { h with edge := ?_ }
  change update t.edge i (t.edge i + 1) = _
  rw [h.edge]
  rfl

theorem subEdgeTo (h : t.Represents s O I F) (i : ℕ) :
    (t.subEdgeTo i).2 = (s.subEdgeTo i).2 ∧
      (t.subEdgeTo i).1.Represents (s.subEdgeTo i).1 O I F := by
  unfold LinkedTable.subEdgeTo RefTable.subEdgeTo
  rw [h.edge]
  split
  · exact ⟨rfl, h⟩
  · exact ⟨rfl, { h with edge := rfl }⟩

end LinkedTable.Represents

/-- The engine with an arena in place of its table. -/
def AarcEngine.over (e : AarcEngine) (t : LinkedTable) : LinkedEngine :=
  { e.toScratch with pool := e.pool, tab := t, kind := e.kind, owner := e.owner }

namespace LinkedEngine

/-- The two engines agree, and the arena of the one represents the table of the other. -/
def Follows (l : LinkedEngine) (e : AarcEngine) : Prop :=
  ∃ t O I F, l = e.over t ∧ t.Represents e.tab O I F

variable {l : LinkedEngine} {e : AarcEngine} {i : ℕ}

namespace Follows

theorem pool (h : l.Follows e) : l.pool = e.pool := by
  obtain ⟨t, O, I, F, rfl, -⟩ := h
  rfl

theorem toScratch (h : l.Follows e) : l.toScratch = e.toScratch := by
  obtain ⟨t, O, I, F, rfl, -⟩ := h
  rfl

/-- A change of the scratch state that does not look at the table is made alike. -/
theorem scratch (h : l.Follows e) {f : LinkedEngine → LinkedEngine} {g : AarcEngine → AarcEngine}
    (hf : ∀ t, f (e.over t) = (g e).over t) (hg : (g e).tab = e.tab) : (f l).Follows (g e) := by
  obtain ⟨t, O, I, F, rfl, ht⟩ := h
  exact ⟨t, O, I, F, hf t, hg ▸ ht⟩

theorem markZero (h : l.Follows e) (i : ℕ) : (l.markZero i).Follows (e.markZero i) := by
  refine h.scratch (f := (·.markZero i)) (g := (·.markZero i)) (fun t => ?_)
    AarcEngine.markZero_tab
  unfold LinkedEngine.markZero AarcEngine.markZero
  split
  · next hm => rw [if_pos (show e.zeroMark i = true from hm)]
  · next hm => rw [if_neg (show ¬ e.zeroMark i = true from hm)]; rfl

theorem setSuspect (h : l.Follows e) (i : ℕ) : (l.setSuspect i).Follows (e.setSuspect i) := by
  refine h.scratch (f := (·.setSuspect i)) (g := (·.setSuspect i)) (fun t => ?_)
    AarcEngine.setSuspect_tab
  unfold LinkedEngine.setSuspect AarcEngine.setSuspect
  split
  · next hm => rw [if_pos (show e.suspectMark i = true from hm)]
  · next hm => rw [if_neg (show ¬ e.suspectMark i = true from hm)]; rfl

theorem clearSuspect (h : l.Follows e) (i : ℕ) : (l.clearSuspect i).Follows (e.clearSuspect i) := by
  refine h.scratch (f := (·.clearSuspect i)) (g := (·.clearSuspect i)) (fun t => ?_)
    AarcEngine.clearSuspect_tab
  unfold LinkedEngine.clearSuspect AarcEngine.clearSuspect
  split
  · next hm => rw [if_pos (show e.suspectMark i = true from hm)]; rfl
  · next hm => rw [if_neg (show ¬ e.suspectMark i = true from hm)]

theorem clearSuspects (h : l.Follows e) (is : List ℕ) :
    (is.foldl LinkedEngine.clearSuspect l).Follows (is.foldl AarcEngine.clearSuspect e) := by
  induction is generalizing l e with
  | nil => exact h
  | cons i is ih => exact ih (h.clearSuspect i)

theorem dropStale (h : l.Follows e) : l.dropStale.Follows e.dropStale :=
  h.scratch (f := (·.dropStale)) (g := (·.dropStale)) (fun _ => rfl) rfl

/-- A cell is examined alike. -/
theorem mark (h : l.Follows e) (i : ℕ) : (l.mark i).Follows (e.mark i) := by
  unfold LinkedEngine.mark AarcEngine.mark
  have hz := h.markZero i
  have hs := h.setSuspect i
  obtain ⟨t, O, I, F, rfl, ht⟩ := h
  have h1 : (e.over t).tab.total i = e.tab.total i := ht.total_eq i
  have h2 : (e.over t).tab.hasOutgoing i = e.tab.hasOutgoing i := ht.hasOutgoing_eq i
  rw [h1, h2]
  split
  · exact hz
  · split
    · exact hs
    · exact ⟨t, O, I, F, rfl, ht⟩

theorem releaseEdge (h : l.Follows e) (i : ℕ) : (l.releaseEdge i).Follows (e.releaseEdge i) := by
  obtain ⟨t, O, I, F, rfl, ht⟩ := h
  have h1 : ((e.over t).setTab (t.subEdgeTo i).1).Follows (e.setTab (e.tab.subEdgeTo i).1) :=
    ⟨_, O, I, F, rfl, (ht.subEdgeTo i).2⟩
  exact h1.mark i

theorem releaseOuts (h : l.Follows e) (p : ObjHandle → Bool) (ts : List ObjHandle) :
    (l.releaseOuts p ts).Follows (e.releaseOuts p ts) := by
  induction ts generalizing l e with
  | nil => exact h
  | cons x ts ih =>
    refine ih (l := if p x then l.releaseEdge x.index else l)
      (e := if p x then e.releaseEdge x.index else e) ?_
    split
    · exact h.releaseEdge x.index
    · exact h

/-- A message is applied alike, unless it throws. -/
theorem process (h : l.Follows e) {m : GCMessage} {l' : LinkedEngine}
    (hm : l.process m = some l') : l'.Follows (e.process m) := by
  obtain ⟨t, O, I, F, rfl, ht⟩ := id h
  have hlive : ∀ x, (e.over t).live x = e.live x := fun _ => rfl
  unfold LinkedEngine.process at hm
  unfold AarcEngine.process
  cases hop : m.op with
  | rootAdd =>
    simp only [hop, hlive] at hm ⊢
    split at hm
    · next hb =>
      obtain rfl := Option.some.inj hm
      rw [if_pos hb]
      exact ⟨_, O, I, F, rfl, ht.addRoot _ _⟩
    · next hb =>
      obtain rfl := Option.some.inj hm
      rw [if_neg hb]
      exact h.dropStale
  | rootRemove =>
    obtain ⟨h1, h2⟩ := ht.subRoot m.b.index m.count
    have h3 : ((e.over t).setTab (t.subRoot m.b.index m.count).1).Follows
        (e.setTab (e.tab.subRoot m.b.index m.count).1) := ⟨_, O, I, F, rfl, h2⟩
    have h1 : ((e.over t).tab.subRoot m.b.index m.count).2 =
      (e.tab.subRoot m.b.index m.count).2 := h1
    simp only [hop, hlive, h1] at hm ⊢
    split at hm
    · next hb =>
      obtain rfl := Option.some.inj hm
      rw [if_pos hb]
      exact h.dropStale
    · next hb =>
      rw [if_neg hb]
      split at hm
      · next hr =>
        obtain rfl := Option.some.inj hm
        rw [if_pos hr]
        exact ⟨_, O, I, F, rfl, h2⟩
      · next hr =>
        obtain rfl := Option.some.inj hm
        rw [if_neg hr]
        exact h3.mark _
  | rootCheck =>
    simp only [hop, hlive] at hm ⊢
    split at hm
    · next hb =>
      obtain rfl := Option.some.inj hm
      rw [if_pos hb]
      exact h.dropStale
    · next hb =>
      obtain rfl := Option.some.inj hm
      rw [if_neg hb]
      exact h.mark _
  | edgeAdd =>
    simp only [hop, hlive] at hm ⊢
    split at hm
    · next hb =>
      obtain rfl := Option.some.inj hm
      rw [if_pos hb]
      exact h.dropStale
    · next hb =>
      rw [if_neg hb]
      obtain ⟨u, hu, rfl⟩ := Option.map_eq_some_iff.mp hm
      obtain ⟨O', I', F', h'⟩ := (ht.addEdgeTo m.b.index).addOut hu
      exact ⟨u, O', I', F', rfl, h'⟩
  | edgeRemove =>
    obtain ⟨h1, O', I', F', h2⟩ := ht.removeOut m.a m.b
    have h3 : ((e.over t).setTab (t.removeOut m.a m.b).1).Follows
        (e.setTab (e.tab.removeOut m.a m.b).1) := ⟨_, O', I', F', rfl, h2⟩
    obtain ⟨h4, h5⟩ := h2.subEdgeTo m.b.index
    have h6 : (((e.over t).setTab (t.removeOut m.a m.b).1).setTab
        ((t.removeOut m.a m.b).1.subEdgeTo m.b.index).1).Follows
        ((e.setTab (e.tab.removeOut m.a m.b).1).setTab
        ((e.tab.removeOut m.a m.b).1.subEdgeTo m.b.index).1) := ⟨_, O', I', F', rfl, h5⟩
    have h1 : ((e.over t).tab.removeOut m.a m.b).2 = (e.tab.removeOut m.a m.b).2 := h1
    have h4 : (((e.over t).setTab ((e.over t).tab.removeOut m.a m.b).1).tab.subEdgeTo m.b.index).2 =
      ((e.setTab (e.tab.removeOut m.a m.b).1).tab.subEdgeTo m.b.index).2 := h4
    have h7 : ((e.over t).setTab ((e.over t).tab.removeOut m.a m.b).1).live m.b =
      (e.setTab (e.tab.removeOut m.a m.b).1).live m.b := rfl
    simp only [hop, hlive, h1, h4, h7] at hm ⊢
    split at hm
    · next hb =>
      obtain rfl := Option.some.inj hm
      rw [if_pos hb]
      exact h.dropStale
    · next hb =>
      rw [if_neg hb]
      split at hm
      · next hr =>
        obtain rfl := Option.some.inj hm
        rw [if_pos hr]
        exact ⟨t, O, I, F, rfl, ht⟩
      · next hr =>
        rw [if_neg hr]
        split at hm
        · next hv =>
          obtain rfl := Option.some.inj hm
          rw [if_pos hv]
          exact h3.dropStale
        · next hv =>
          rw [if_neg hv]
          split at hm
          · next hs =>
            obtain rfl := Option.some.inj hm
            rw [if_pos hs]
            exact ⟨_, O', I', F', rfl, h2⟩
          · next hs =>
            obtain rfl := Option.some.inj hm
            rw [if_neg hs]
            exact h6.mark _
  | terminate =>
    simp only [hop] at hm ⊢
    obtain rfl := Option.some.inj hm
    exact h

/-- A row into which no edge leads is reset alike. -/
theorem reset (h : l.Follows e) (hin : e.tab.inRecs i = []) :
    (l.setTab (l.tab.resetSlot i)).Follows (e.setTab (e.tab.resetSlot i)) := by
  obtain ⟨t, O, I, F, rfl, ht⟩ := h
  obtain ⟨O', I', F', h'⟩ := ht.resetSlot (RefTable.inRecs_clearOuts_nil hin i)
  exact ⟨_, O', I', F', rfl, h'⟩

theorem setPool (h : l.Follows e) (p : CellPool) :
    ({ l with pool := p } : LinkedEngine).Follows { e with pool := p } := by
  obtain ⟨t, O, I, F, rfl, ht⟩ := h
  exact ⟨t, O, I, F, rfl, ht⟩

theorem outs_eq (h : l.Follows e) (i : ℕ) : l.tab.outs i = e.tab.outs i := by
  obtain ⟨t, O, I, F, rfl, ht⟩ := h
  exact ht.outs_eq i

theorem total_eq (h : l.Follows e) (i : ℕ) : l.tab.total i = e.tab.total i := by
  obtain ⟨t, O, I, F, rfl, ht⟩ := h
  exact ht.total_eq i

/-- A cell into which no edge leads is freed alike. -/
theorem reclaimCell (h : l.Follows e) (hin : e.tab.inRecs i = []) :
    (l.reclaimCell i).Follows (e.reclaimCell i) := by
  have h1 := h.clearSuspect i
  have h2 := h1.releaseOuts (fun t => (e.clearSuspect i).pool.isLiveAt t.index)
    ((e.clearSuspect i).tab.outs i)
  have hin2 : ((e.clearSuspect i).releaseOuts
      (fun t => (e.clearSuspect i).pool.isLiveAt t.index)
      ((e.clearSuspect i).tab.outs i)).tab.inRecs i = [] := by
    rw [(AarcEngine.releaseOuts_recs _ _ _).2, AarcEngine.clearSuspect_tab, hin]
  have h3 := h2.reset hin2
  unfold LinkedEngine.reclaimCell AarcEngine.reclaimCell
  simp only [h.pool, h1.pool, h1.outs_eq]
  rw [← h2.pool]
  have h4 := h3.setPool (((l.clearSuspect i).releaseOuts
    (fun t => (e.clearSuspect i).pool.isLiveAt t.index) ((e.clearSuspect i).tab.outs i)).pool.free
      ⟨i, e.pool.generationOf i⟩)
  exact h4

theorem detachMember (h : l.Follows e) (c i : ℕ) :
    (LinkedEngine.detachMember c l i).Follows (AarcEngine.detachMember c e i) := by
  have h1 := h.releaseOuts (fun t => e.pool.valid t && decide (e.sccOf t.index ≠ some c))
    (e.tab.outs i)
  have hdet : l.detector = e.detector := congrArg Scratch.detector h.toScratch
  unfold LinkedEngine.detachMember AarcEngine.detachMember
  simp only [h.pool, h.outs_eq, hdet]
  obtain ⟨t, O, I, F, ht, hr⟩ := h1
  obtain ⟨I', F', h2⟩ := hr.clearOuts i
  unfold AarcEngine.sccOf at ht h2 ⊢
  rw [ht]
  exact ⟨_, _, I', F', rfl, h2⟩

theorem freeMember (h : l.Follows e) (hin : e.tab.inRecs i = []) :
    (l.freeMember i).Follows (e.freeMember i) := by
  have h1 := (h.reset hin).clearSuspect i
  have h2 := h1.setPool (((e.setTab (e.tab.resetSlot i)).clearSuspect i).pool.free
    ⟨i, ((e.setTab (e.tab.resetSlot i)).clearSuspect i).pool.generationOf i⟩)
  unfold LinkedEngine.freeMember
  simp only [h1.pool]
  exact h2

/-- A component is freed alike when its members are detached from each other and from all else. -/
theorem reclaimCycleComponent (h : l.Follows e) {c : ℕ} {ms : List ℕ}
    (hin : ∀ i ∈ ms, (ms.foldl (AarcEngine.detachMember c) e).tab.inRecs i = []) :
    (l.reclaimCycleComponent c ms).Follows (e.reclaimCycleComponent c ms) := by
  have hdetach : ∀ {l : LinkedEngine} {e : AarcEngine} (is : List ℕ), l.Follows e →
      (is.foldl (LinkedEngine.detachMember c) l).Follows
        (is.foldl (AarcEngine.detachMember c) e) := by
    intro l e is
    induction is generalizing l e with
    | nil => exact id
    | cons i is ih => exact fun h => ih (h.detachMember c i)
  have hfree : ∀ {l : LinkedEngine} {e : AarcEngine} (is : List ℕ), l.Follows e →
      (∀ i ∈ is, e.tab.inRecs i = []) →
      (is.foldl LinkedEngine.freeMember l).Follows (is.foldl AarcEngine.freeMember e) := by
    intro l e is
    induction is generalizing l e with
    | nil => exact fun h _ => h
    | cons i is ih =>
      intro h hin
      refine ih (h.freeMember (hin i List.mem_cons_self)) fun j hj => ?_
      have htab : (e.freeMember i).tab = e.tab.resetSlot i := by
        simp [AarcEngine.freeMember]
      rw [htab]
      exact RefTable.inRecs_resetSlot_nil (hin j (List.mem_cons_of_mem _ hj)) i
  exact hfree ms (hdetach ms h) hin

/-- What a scan reads of the arena is what it reads of the table. -/
theorem view_eq (h : l.Follows e) :
    l.view = { e with tab := { e.tab with inRecs := l.tab.inRecs } } := by
  obtain ⟨t, O, I, F, rfl, ht⟩ := h
  unfold LinkedEngine.view AarcEngine.over
  simp only [ht.root, ht.edge, ht.outRecs_eq]

theorem scanRoots_eq (h : l.Follows e) : l.view.scanRoots = e.scanRoots := by
  rw [h.view_eq]
  rfl

theorem findComponents_eq (h : l.Follows e) (roots : List ℕ) :
    (l.view.findComponents roots).detector = (e.findComponents roots).detector := by
  rw [h.view_eq]
  rfl

theorem garbage_eq (h : l.Follows e) : l.view.garbage = e.garbage := by
  rw [h.view_eq]
  rfl

end Follows

end LinkedEngine

end Loxis.Aarc
