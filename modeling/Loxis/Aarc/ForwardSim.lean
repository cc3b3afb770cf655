import Loxis.Aarc.ForwardEngine
import Loxis.Aarc.Process

/-! # The forward table follows the full one

An engine over a forward table marks the cells that an engine over a full one marks, for any
messages. It gives back the members of a garbage component one by one, where the other detaches
them all before it frees the first; nothing but members sees the difference.
-/

namespace Loxis.Aarc

open Function

namespace CellPool

variable {p : CellPool} {h : ObjHandle} {i : ℕ} {D : List ℕ}

/-- Free the cells of some slots one after the other. -/
def freeAll (p : CellPool) (D : List ℕ) : CellPool :=
  D.foldl (fun p i => p.free ⟨i, p.generationOf i⟩) p

theorem freeAll_concat : p.freeAll (D ++ [i]) =
    (p.freeAll D).free ⟨i, (p.freeAll D).generationOf i⟩ := by
  simp [freeAll]

theorem valid_free_of_ne {x : ObjHandle} (hx : h.index ≠ x.index) :
    (p.free x).valid h = p.valid h := by
  unfold free
  split
  · rfl
  · split <;> simp [valid, isLiveAt, hx]

theorem valid_freeAll (hi : h.index ∉ D) : (p.freeAll D).valid h = p.valid h := by
  unfold freeAll
  induction D generalizing p with
  | nil => rfl
  | cons i D ih =>
    rw [List.mem_cons, not_or] at hi
    rw [List.foldl_cons, ih hi.2, valid_free_of_ne hi.1]

theorem isLiveAt_free_of_ne {x : ObjHandle} (hx : i ≠ x.index) :
    (p.free x).isLiveAt i = p.isLiveAt i := by
  unfold free
  split
  · rfl
  · split <;> simp [isLiveAt, hx]

theorem isLiveAt_freeAll (hi : i ∉ D) : (p.freeAll D).isLiveAt i = p.isLiveAt i := by
  unfold freeAll
  induction D generalizing p with
  | nil => rfl
  | cons j D ih =>
    rw [List.mem_cons, not_or] at hi
    rw [List.foldl_cons, ih hi.2, isLiveAt_free_of_ne hi.1]

end CellPool

namespace RefTable

variable {t : RefTable} {p : CellPool}

/-- A record names the cell in whose list it is. -/
theorem Sound.outRecs_eq (h : t.Sound p) (i : ℕ) :
    t.outRecs i = (t.outs i).map fun d => ⟨p.handleAt i, d⟩ := by
  unfold outs
  rw [List.map_map]
  refine (List.map_id _).symm.trans (List.map_congr_left fun r hr => ?_)
  have hsrc := CellPool.handleAt_of_valid (h.valid_src i r hr)
  rw [h.out_src i r hr] at hsrc
  simp [hsrc]

theorem outs_addOut (t : RefTable) (a b : ObjHandle) (j : ℕ) :
    (t.addOut a b).outs j = if j = a.index then b :: t.outs j else t.outs j := by
  unfold outs addOut
  simp only [update_apply]
  split
  · next hj => rw [hj, List.map_cons]
  · rfl

/-- Removing an edge of a live cell takes one occurrence of its target. -/
theorem Sound.removeOut (h : t.Sound p) {a : ObjHandle} (ha : p.valid a = true) (b : ObjHandle) :
    (t.removeOut a b).2 = decide (b ∈ t.outs a.index) ∧
      ∀ j, (t.removeOut a b).1.outs j =
        if j = a.index then (t.outs j).erase b else t.outs j := by
  have hinj : Injective fun d => (⟨p.handleAt a.index, d⟩ : EdgeRec) := fun d d' hd =>
    (EdgeRec.mk.inj hd).2
  have hself := CellPool.handleAt_of_valid ha
  have hmem : (⟨a, b⟩ : EdgeRec) ∈ t.outRecs a.index ↔ b ∈ t.outs a.index := by
    have := List.mem_map_of_injective hinj (a := b) (l := t.outs a.index)
    rwa [← h.outRecs_eq, hself] at this
  have herase : ((t.outRecs a.index).erase ⟨a, b⟩).map EdgeRec.dst =
      (t.outs a.index).erase b := by
    have hm := List.map_erase hinj (t.outs a.index) (a := b)
    rw [← h.outRecs_eq, hself] at hm
    rw [← hm, List.map_map]
    exact List.map_id _
  unfold RefTable.removeOut
  split
  · next hr =>
    refine ⟨by simp [hmem.mp hr], fun j => ?_⟩
    change (update t.outRecs a.index _ j).map EdgeRec.dst = _
    rw [update_apply]
    split
    · next hj => rw [hj, herase]
    · rfl
  · next hr =>
    have hb : b ∉ t.outs a.index := fun hb => hr (hmem.mpr hb)
    refine ⟨by simp [hb], fun j => ?_⟩
    split
    · next hj => rw [hj, List.erase_of_not_mem hb]
    · rfl

end RefTable

namespace ForwardTable

theorem outs_removeOut (t : ForwardTable) (a b : ObjHandle) (j : ℕ) :
    (t.removeOut a b).1.outs j = if j = a.index then (t.outs j).erase b else t.outs j := by
  unfold removeOut
  split
  · simp only [update_apply]
    split
    · next hj => rw [hj]
    · rfl
  · next hb =>
    split
    · next hj => rw [hj, List.erase_of_not_mem hb]
    · rfl

end ForwardTable

namespace ForwardEngine

/-- Outside of some slots, whose cells it has already given back, an engine over a forward table
is as an engine over a full one. Their out-lists are in a relation. -/
structure Trails (S : List ObjHandle → List ObjHandle → Prop) (D : List ℕ) (f : ForwardEngine)
    (e : AarcEngine) : Prop where
  scratch : f.toScratch = e.toScratch
  pool : f.pool = e.pool.freeAll D
  gone : ∀ i ∈ D, f.tab.root i = 0 ∧ f.tab.edge i = 0 ∧ f.tab.outs i = []
  root : ∀ i ∉ D, f.tab.root i = e.tab.root i
  edge : ∀ i ∉ D, f.tab.edge i = e.tab.edge i
  outs : ∀ i ∉ D, S (f.tab.outs i) (e.tab.outs i)

variable {S : List ObjHandle → List ObjHandle → Prop} {D : List ℕ} {f : ForwardEngine}
  {e : AarcEngine} {i : ℕ}

namespace Trails

theorem total_eq (h : Trails S D f e) (hi : i ∉ D) : f.tab.total i = e.tab.total i := by
  unfold ForwardTable.total RefTable.total
  rw [h.root i hi, h.edge i hi]

theorem hasOutgoing_eq (hS : ∀ l l', S l l' → (l = [] ↔ l' = [])) (h : Trails S D f e)
    (hi : i ∉ D) : f.tab.hasOutgoing i = e.tab.hasOutgoing i := by
  have ho := hS _ _ (h.outs i hi)
  unfold RefTable.outs at ho
  rw [List.map_eq_nil_iff] at ho
  rw [Bool.eq_iff_iff, RefTable.hasOutgoing_iff]
  unfold ForwardTable.hasOutgoing
  rw [Bool.not_eq_true', List.isEmpty_eq_false_iff]
  exact not_congr ho

theorem markZero (h : Trails S D f e) (i : ℕ) : Trails S D (f.markZero i) (e.markZero i) := by
  have hm : f.zeroMark i = e.zeroMark i := congrFun (congrArg Scratch.zeroMark h.scratch) i
  unfold ForwardEngine.markZero AarcEngine.markZero
  rw [hm]
  split
  · exact h
  · exact { h with scratch := by simp [h.scratch] }

theorem setSuspect (h : Trails S D f e) (i : ℕ) :
    Trails S D (f.setSuspect i) (e.setSuspect i) := by
  have hm : f.suspectMark i = e.suspectMark i := congrFun (congrArg Scratch.suspectMark h.scratch) i
  unfold ForwardEngine.setSuspect AarcEngine.setSuspect
  rw [hm]
  split
  · exact h
  · exact { h with scratch := by simp [h.scratch] }

theorem clearSuspect (h : Trails S D f e) (i : ℕ) :
    Trails S D (f.clearSuspect i) (e.clearSuspect i) := by
  have hm : f.suspectMark i = e.suspectMark i := congrFun (congrArg Scratch.suspectMark h.scratch) i
  unfold ForwardEngine.clearSuspect AarcEngine.clearSuspect
  rw [hm]
  split
  · exact { h with scratch := by simp [h.scratch] }
  · exact h

theorem clearSuspects (h : Trails S D f e) (is : List ℕ) :
    Trails S D (is.foldl ForwardEngine.clearSuspect f) (is.foldl AarcEngine.clearSuspect e) := by
  induction is generalizing f e with
  | nil => exact h
  | cons i is ih => exact ih (h.clearSuspect i)

theorem dropStale (h : Trails S D f e) : Trails S D f.dropStale e.dropStale :=
  { h with scratch := by simp [ForwardEngine.dropStale, AarcEngine.dropStale, h.scratch] }

/-- A cell is examined alike. -/
theorem mark (hS : ∀ l l', S l l' → (l = [] ↔ l' = [])) (h : Trails S D f e) (hi : i ∉ D) :
    Trails S D (f.mark i) (e.mark i) := by
  unfold ForwardEngine.mark AarcEngine.mark
  rw [h.total_eq hi, h.hasOutgoing_eq hS hi]
  split
  · exact h.markZero i
  · split
    · exact h.setSuspect i
    · exact h

/-- The rows stay alike when one count is given the same value. -/
theorem subEdgeTo (h : Trails S D f e) (hi : i ∉ D) :
    (f.tab.subEdgeTo i).2 = (e.tab.subEdgeTo i).2 ∧
      Trails S D (f.setTab (f.tab.subEdgeTo i).1) (e.setTab (e.tab.subEdgeTo i).1) := by
  unfold ForwardTable.subEdgeTo RefTable.subEdgeTo
  rw [h.edge i hi]
  split
  · exact ⟨rfl, { h with }⟩
  · refine ⟨rfl, { h with gone := fun j hj => ?_, edge := fun j hj => ?_ }⟩
    · have hji : j ≠ i := fun hji => hi (hji ▸ hj)
      exact ⟨(h.gone j hj).1, (update_of_ne hji ..).trans (h.gone j hj).2.1, (h.gone j hj).2.2⟩
    · change update f.tab.edge i _ j = update e.tab.edge i _ j
      rw [update_apply, update_apply, h.edge j hj]

theorem releaseEdge (hS : ∀ l l', S l l' → (l = [] ↔ l' = [])) (h : Trails S D f e)
    (hi : i ∉ D) : Trails S D (f.releaseEdge i) (e.releaseEdge i) :=
  (h.subEdgeTo hi).2.mark hS hi

/-- Edges into the same cells are given back alike. -/
theorem releaseOuts (hS : ∀ l l', S l l' → (l = [] ↔ l' = [])) {p q : ObjHandle → Bool}
    {ts : List ObjHandle} (hpq : ∀ t ∈ ts, p t = q t) (hD : ∀ t ∈ ts, q t = true → t.index ∉ D)
    (h : Trails S D f e) : Trails S D (f.releaseOuts p ts) (e.releaseOuts q ts) := by
  induction ts generalizing f e with
  | nil => exact h
  | cons t ts ih =>
    refine ih (f := if p t then f.releaseEdge t.index else f)
      (e := if q t then e.releaseEdge t.index else e)
      (fun x hx => hpq x (List.mem_cons_of_mem _ hx))
      (fun x hx => hD x (List.mem_cons_of_mem _ hx)) ?_
    rw [hpq t List.mem_cons_self]
    split
    · next hq => exact h.releaseEdge hS (hD t List.mem_cons_self hq)
    · exact h

section Process

variable {t : ForwardTable} {s : RefTable}

theorem root_eq (h : Trails S [] f e) : f.tab.root = e.tab.root :=
  funext fun i => h.root i List.not_mem_nil

theorem edge_eq (h : Trails S [] f e) : f.tab.edge = e.tab.edge :=
  funext fun i => h.edge i List.not_mem_nil

theorem setTab (h : Trails S [] f e) (hr : t.root = s.root) (he : t.edge = s.edge)
    (ho : ∀ i, S (t.outs i) (s.outs i)) : Trails S [] (f.setTab t) (e.setTab s) where
  scratch := h.scratch
  pool := h.pool
  gone _ hi := absurd hi List.not_mem_nil
  root i _ := congrFun hr i
  edge i _ := congrFun he i
  outs i _ := ho i

theorem subRoot (h : Trails S [] f e) (i n : ℕ) :
    (f.tab.subRoot i n).2 = (e.tab.subRoot i n).2 ∧
      Trails S [] (f.setTab (f.tab.subRoot i n).1) (e.setTab (e.tab.subRoot i n).1) := by
  unfold ForwardTable.subRoot RefTable.subRoot
  rw [h.root_eq]
  split
  · exact ⟨rfl, h.setTab rfl h.edge_eq fun j => h.outs j List.not_mem_nil⟩
  · exact ⟨rfl, h.setTab rfl h.edge_eq fun j => h.outs j List.not_mem_nil⟩

theorem perm_nil (l l' : List ObjHandle) (h : l.Perm l') : l = [] ↔ l' = [] := by
  rw [← List.length_eq_zero_iff, h.length_eq, List.length_eq_zero_iff]

theorem removeOut (h : Trails List.Perm [] f e) (hs : e.tab.Sound e.pool) {a : ObjHandle}
    (ha : e.pool.valid a = true) (b : ObjHandle) :
    (f.tab.removeOut a b).2 = (e.tab.removeOut a b).2 ∧
      Trails List.Perm [] (f.setTab (f.tab.removeOut a b).1)
        (e.setTab (e.tab.removeOut a b).1) := by
  obtain ⟨h1, h2⟩ := hs.removeOut ha b
  have hflag : (f.tab.removeOut a b).2 = decide (b ∈ f.tab.outs a.index) := by
    unfold ForwardTable.removeOut
    split
    · next hb => simp [hb]
    · next hb => simp [hb]
  have hrows : (f.tab.removeOut a b).1.root = f.tab.root ∧
      (f.tab.removeOut a b).1.edge = f.tab.edge := by
    unfold ForwardTable.removeOut
    split <;> exact ⟨rfl, rfl⟩
  have hrows' : (e.tab.removeOut a b).1.root = e.tab.root ∧
      (e.tab.removeOut a b).1.edge = e.tab.edge := by
    unfold RefTable.removeOut
    split <;> exact ⟨rfl, rfl⟩
  refine ⟨?_, h.setTab ?_ ?_ fun j => ?_⟩
  · rw [hflag, h1, decide_eq_decide]
    exact (h.outs _ List.not_mem_nil).mem_iff
  · rw [hrows.1, hrows'.1, h.root_eq]
  · rw [hrows.2, hrows'.2, h.edge_eq]
  · rw [ForwardTable.outs_removeOut, h2]
    split
    · exact (h.outs j List.not_mem_nil).erase b
    · exact h.outs j List.not_mem_nil

/-- A message is applied alike. -/
theorem process (h : Trails List.Perm [] f e) (hs : e.tab.Sound e.pool) (m : GCMessage) :
    Trails List.Perm [] (f.process m) (e.process m) := by
  have hp : f.pool = e.pool := h.pool
  have hlive : ∀ x, f.live x = e.live x := fun x => by
    unfold ForwardEngine.live AarcEngine.live
    rw [hp]
  have hn : ∀ {i : ℕ}, i ∉ ([] : List ℕ) := List.not_mem_nil
  have hout := fun i => h.outs i hn
  unfold ForwardEngine.process AarcEngine.process
  cases m.op with
  | rootAdd =>
    simp only [hlive]
    split
    · refine h.setTab ?_ h.edge_eq hout
      unfold ForwardTable.addRoot RefTable.addRoot
      rw [h.root_eq]
    · exact h.dropStale
  | rootRemove =>
    obtain ⟨h1, h2⟩ := h.subRoot m.b.index m.count
    simp only [hlive, h1]
    split
    · exact h.dropStale
    · split
      · exact { h2 with scratch := by simp [ForwardEngine.setTab, AarcEngine.setTab, h.scratch] }
      · exact h2.mark perm_nil hn
  | rootCheck =>
    simp only [hlive]
    split
    · exact h.dropStale
    · exact h.mark perm_nil hn
  | edgeAdd =>
    simp only [hlive]
    split
    · exact h.dropStale
    · refine h.setTab h.root_eq ?_ fun j => ?_
      · change update f.tab.edge m.b.index _ = update e.tab.edge m.b.index _
        rw [h.edge_eq]
      · rw [RefTable.outs_addOut]
        change (update f.tab.outs m.a.index _ j).Perm (if j = m.a.index then m.b :: e.tab.outs j
          else e.tab.outs j)
        rw [update_apply]
        split
        · next hj =>
          subst hj
          exact (List.perm_append_singleton m.b _).trans ((hout m.a.index).cons m.b)
        · exact hout j
  | edgeRemove =>
    simp only [hlive]
    split
    · exact h.dropStale
    · next ha =>
      have ha : e.pool.valid m.a = true := by simpa [AarcEngine.live] using ha
      obtain ⟨h1, h2⟩ := h.removeOut hs ha m.b
      obtain ⟨h3, h4⟩ := h2.subEdgeTo (hn (i := m.b.index))
      have hlive' : (f.setTab (f.tab.removeOut m.a m.b).1).live m.b =
          (e.setTab (e.tab.removeOut m.a m.b).1).live m.b := hlive m.b
      rw [h1, hlive', h3]
      split
      · exact { h with scratch := by simp [h.scratch] }
      · split
        · exact h2.dropStale
        · split
          · exact { h2 with
              scratch := by simp [ForwardEngine.setTab, AarcEngine.setTab, h.scratch] }
          · exact h4.mark perm_nil hn
  | terminate => exact h

end Process

section Rows

theorem leave (h : Trails S D f e) (i : ℕ) : Trails S D (f.leave i) e := { h with }

theorem reset (h : Trails Eq [] f e) (hl : e.tab.Linked) (i : ℕ) :
    Trails Eq [] (f.setTab (f.tab.resetSlot i)) (e.setTab (e.tab.resetSlot i)) := by
  refine h.setTab ?_ ?_ fun j => ?_
  · change update f.tab.root i 0 = update (e.tab.clearOuts i).root i 0
    rw [RefTable.root_clearOuts, h.root_eq]
  · change update f.tab.edge i 0 = update (e.tab.clearOuts i).edge i 0
    rw [RefTable.edge_clearOuts, h.edge_eq]
  · change update f.tab.outs i [] j = (update (e.tab.clearOuts i).outRecs i [] j).map EdgeRec.dst
    rw [update_apply, update_apply, hl.outRecs_clearOuts]
    split
    · rfl
    · exact h.outs j List.not_mem_nil

theorem linked_releaseOuts (hl : e.tab.Linked) (p : ObjHandle → Bool) (ts : List ObjHandle) :
    (e.releaseOuts p ts).tab.Linked := by
  obtain ⟨ho, hi⟩ := AarcEngine.releaseOuts_recs p ts e
  refine ⟨fun i r hr => ?_, fun i r hr => ?_, fun r => ?_⟩
  · exact hl.out_src i r (ho ▸ hr)
  · exact hl.in_dst i r (hi ▸ hr)
  · rw [ho, hi, hl.count_eq]

theorem eq_nil_iff (l l' : List ObjHandle) (h : l = l') : l = [] ↔ l' = [] := by rw [h]

/-- A cell that nothing refers to is freed alike. -/
theorem reclaimCell (h : Trails Eq [] f e) (hl : e.tab.Linked) (i : ℕ) :
    Trails Eq [] (f.reclaimCell i) (e.reclaimCell i) := by
  have h1 := h.clearSuspect i
  have hp : f.pool = e.pool := h.pool
  have hp1 : (f.clearSuspect i).pool = (e.clearSuspect i).pool := h1.pool
  have ho : (f.clearSuspect i).tab.outs i = (e.clearSuspect i).tab.outs i :=
    h1.outs i List.not_mem_nil
  have h2 := h1.releaseOuts eq_nil_iff
    (p := fun t => (f.clearSuspect i).pool.isLiveAt t.index)
    (q := fun t => (e.clearSuspect i).pool.isLiveAt t.index)
    (fun t (_ : t ∈ (e.clearSuspect i).tab.outs i) => by rw [hp1])
    fun t _ _ => List.not_mem_nil
  have hl1 : (e.clearSuspect i).tab.Linked := by rwa [AarcEngine.clearSuspect_tab]
  have h3 := (h2.leave i).reset (linked_releaseOuts hl1 _ _) i
  have hp3 := h3.pool
  unfold ForwardEngine.reclaimCell AarcEngine.reclaimCell
  simp only [ho, hp]
  exact { h3 with pool := congrArg (·.free ⟨i, e.pool.generationOf i⟩) hp3 }

/-- A member of a garbage component is given back whole where the two phases only detach it. -/
theorem reclaimCycleMember (h : Trails Eq D f e) (hl : e.tab.Linked) {s : ℕ} (hi : i ∉ D)
    (hD : ∀ t ∈ e.tab.outs i, e.sccOf t.index ≠ some s → t.index ∉ D)
    (hm : (AarcEngine.detachMember s e i).suspectMark i = false) :
    Trails Eq (D ++ [i]) (f.reclaimCycleMember s i) (AarcEngine.detachMember s e i) := by
  have ho : f.tab.outs i = e.tab.outs i := h.outs i hi
  have hscc : ∀ j, f.sccOf j = e.sccOf j := fun j =>
    congrFun (congrArg (fun s => s.detector.scc) h.scratch) j
  have h1 := h.releaseOuts eq_nil_iff
    (p := fun t => f.pool.valid t && decide (f.sccOf t.index ≠ some s))
    (q := fun t => e.pool.valid t && decide (e.sccOf t.index ≠ some s))
    (fun t (ht : t ∈ e.tab.outs i) => by
      rw [hscc]
      by_cases hs : e.sccOf t.index = some s
      · simp [hs]
      · rw [h.pool, CellPool.valid_freeAll (hD t ht hs)])
    fun t ht hq => hD t ht (of_decide_eq_true (Bool.and_eq_true_iff.mp hq).2)
  have hl1 := linked_releaseOuts hl
    (fun t => e.pool.valid t && decide (e.sccOf t.index ≠ some s)) (e.tab.outs i)
  unfold AarcEngine.detachMember at hm
  unfold ForwardEngine.reclaimCycleMember AarcEngine.detachMember
  simp only [ho]
  generalize f.releaseOuts _ _ = f₁ at h1 ⊢
  generalize e.releaseOuts _ _ = e₁ at h1 hl1 hm ⊢
  have hm1 : f₁.suspectMark i = false :=
    (congrFun (congrArg Scratch.suspectMark h1.scratch) i).trans hm
  have hclear : ((f₁.leave i).setTab ((f₁.leave i).tab.resetSlot i)).clearSuspect i =
      (f₁.leave i).setTab (f₁.tab.resetSlot i) := by
    unfold ForwardEngine.clearSuspect
    exact if_neg (Bool.eq_false_iff.mp hm1)
  rw [hclear]
  refine
    { scratch := h1.scratch, pool := ?_, gone := fun j hj => ?_, root := fun j hj => ?_
      edge := fun j hj => ?_, outs := fun j hj => ?_ }
  · change f₁.pool.free ⟨i, f₁.pool.generationOf i⟩ = e₁.pool.freeAll (D ++ [i])
    rw [CellPool.freeAll_concat, h1.pool]
  · change update f₁.tab.root i 0 j = 0 ∧ update f₁.tab.edge i 0 j = 0 ∧
      update f₁.tab.outs i [] j = []
    by_cases hji : j = i
    · simp [hji]
    · have hjD : j ∈ D := by simpa [hji] using hj
      simpa [hji] using h1.gone j hjD
  · rw [List.mem_append, not_or, List.mem_singleton] at hj
    change update f₁.tab.root i 0 j = (e₁.tab.clearOuts i).root j
    rw [update_of_ne hj.2, RefTable.root_clearOuts, h1.root j hj.1]
  · rw [List.mem_append, not_or, List.mem_singleton] at hj
    change update f₁.tab.edge i 0 j = (e₁.tab.clearOuts i).edge j
    rw [update_of_ne hj.2, RefTable.edge_clearOuts, h1.edge j hj.1]
  · rw [List.mem_append, not_or, List.mem_singleton] at hj
    change update f₁.tab.outs i [] j = ((e₁.tab.clearOuts i).outRecs j).map EdgeRec.dst
    rw [update_of_ne hj.2, hl1.outRecs_clearOuts, if_neg hj.2]
    exact h1.outs j hj.1

end Rows

section Scan

/-- The engine with a forward table that has the rows of its own. -/
theorem eq_forward (h : Trails Eq [] f e) : ∃ n k o c, f =
    { e.toScratch with
      pool := e.pool, tab := ⟨e.tab.root, e.tab.edge, e.tab.outs, n⟩, kind := k, owner := o
      comps := c } := by
  have hs := h.scratch
  have hp : f.pool = e.pool := h.pool
  have hr := h.root_eq
  have he := h.edge_eq
  have ho : f.tab.outs = e.tab.outs := funext fun i => h.outs i List.not_mem_nil
  refine ⟨f.tab.liveEdges, f.kind, f.owner, f.comps, ?_⟩
  rw [← hs, ← hp, ← hr, ← he, ← ho]

theorem scanRoots_eq (h : Trails Eq [] f e) : f.scanRoots = e.scanRoots := by
  obtain ⟨n, k, o, c, rfl⟩ := h.eq_forward
  rfl

theorem findComponents (h : Trails Eq [] f e) (roots : List ℕ) :
    Trails Eq [] (f.findComponents roots) (e.findComponents roots) := by
  obtain ⟨n, k, o, c, rfl⟩ := h.eq_forward
  exact ⟨rfl, rfl, fun i hi => absurd hi List.not_mem_nil, fun _ _ => rfl, fun _ _ => rfl,
    fun _ _ => rfl⟩

theorem reclaimable_eq (h : Trails Eq [] f e) (s : ℕ) : f.reclaimable s = e.reclaimable s := by
  obtain ⟨n, k, o, c, rfl⟩ := h.eq_forward
  rfl

end Scan

end Trails

section Reclaim

variable {b : AarcEngine} {F : Finset ℕ} {ms : List ℕ}

/-- Cells without marks are freed without a change of the marks. -/
theorem freeMembers_frame (hm : ∀ i ∈ ms, e.suspectMark i = false) :
    (ms.foldl AarcEngine.freeMember e).toScratch = e.toScratch ∧
      (ms.foldl AarcEngine.freeMember e).pool = e.pool.freeAll ms := by
  induction ms generalizing e with
  | nil => exact ⟨rfl, rfl⟩
  | cons i ms ih =>
    have hfree : e.freeMember i =
        { e with tab := e.tab.resetSlot i, pool := e.pool.free ⟨i, e.pool.generationOf i⟩ } := by
      have hc : (e.setTab (e.tab.resetSlot i)).clearSuspect i = e.setTab (e.tab.resetSlot i) := by
        unfold AarcEngine.clearSuspect
        exact if_neg (Bool.eq_false_iff.mp (hm i List.mem_cons_self))
      unfold AarcEngine.freeMember
      rw [hc]
      rfl
    rw [List.foldl_cons, hfree]
    exact ih fun j hj => hm j (List.mem_cons_of_mem _ hj)

/-- Once its members are freed the two engines agree on every row again. -/
theorem Trails.freeMembers (h : Trails Eq ms f e) (hnd : ms.Nodup)
    (hl : ∀ i ∈ ms, e.pool.isLiveAt i = true) (hout : ∀ i ∈ ms, e.tab.outRecs i = [])
    (hm : ∀ i ∈ ms, e.suspectMark i = false) :
    Trails Eq [] f (ms.foldl AarcEngine.freeMember e) := by
  obtain ⟨hscr, hpool⟩ := freeMembers_frame hm
  obtain ⟨-, -, hin, hoff⟩ := AarcEngine.freeMembers_spec hnd hl hout
  refine ⟨h.scratch.trans hscr.symm, h.pool.trans hpool.symm,
    fun i hi => absurd hi List.not_mem_nil, fun i _ => ?_, fun i _ => ?_, fun i _ => ?_⟩
  all_goals by_cases hi : i ∈ ms
  · rw [(h.gone i hi).1, (hin i hi).1]
  · rw [h.root i hi, (hoff i hi).1]
  · rw [(h.gone i hi).2.1, (hin i hi).2.1]
  · rw [h.edge i hi, (hoff i hi).2.1]
  · rw [(h.gone i hi).2.2, RefTable.outs, (hin i hi).2.2.1, List.map_nil]
  · rw [h.outs i hi, RefTable.outs, RefTable.outs, (hoff i hi).2.2.1]

/-- The slot is in a component that is to be reclaimed. -/
def selected (b : AarcEngine) (reclaim : ℕ → Bool) (i : ℕ) : Bool := (b.sccOf i).any reclaim

/-- The component of a slot that is in one. -/
def compOf (b : AarcEngine) (i : ℕ) : ℕ := (b.sccOf i).getD 0

theorem reclaimVisited_concat (reclaim : ℕ → Bool) (l : List ℕ) :
    f.reclaimVisited reclaim (l ++ [i]) =
      match (f.reclaimVisited reclaim l).1.sccOf i with
      | some s =>
        if reclaim s && (f.reclaimVisited reclaim l).1.pool.isLiveAt i then
          ((f.reclaimVisited reclaim l).1.reclaimCycleMember s i, true)
        else f.reclaimVisited reclaim l
      | none => f.reclaimVisited reclaim l := by
  unfold reclaimVisited
  rw [List.foldl_append]
  rfl

/-- Reclaiming member by member does what detaching the members does, and frees them besides. -/
theorem reclaimVisited_trails {reclaim : ℕ → Bool} (h : Trails Eq [] f b)
    (hs : b.tab.Sound b.pool) (hz : b.ZeroOk) {l : List ℕ} (hnd : l.Nodup)
    (hl : ∀ i ∈ l, b.pool.isLiveAt i = true) (hm : ∀ i ∈ l, b.suspectMark i = false)
    (hF : ∀ i ∈ l, selected b reclaim i = true → i ∈ F)
    (hscc : ∀ i ∈ l, selected b reclaim i = true → ∀ r ∈ b.tab.outRecs i,
      b.sccOf r.dst.index = some (compOf b i) ↔ r.dst.index ∈ F) :
    Trails Eq (l.filter (selected b reclaim)) (f.reclaimVisited reclaim l).1
        ((l.filter (selected b reclaim)).foldl
          (fun e i => AarcEngine.detachMember (compOf b i) e i) b) ∧
      (f.reclaimVisited reclaim l).2 = !(l.filter (selected b reclaim)).isEmpty := by
  induction l using List.reverseRecOn with
  | nil => exact ⟨h, rfl⟩
  | append_singleton l i ih =>
    obtain ⟨hnd, -, hdisj⟩ := List.nodup_append.mp hnd
    have hi : i ∉ l := fun hi => hdisj i hi i (by simp) rfl
    obtain ⟨ih, ihb⟩ := ih hnd (fun j hj => hl j (List.mem_append_left _ hj))
      (fun j hj => hm j (List.mem_append_left _ hj))
      (fun j hj => hF j (List.mem_append_left _ hj))
      fun j hj => hscc j (List.mem_append_left _ hj)
    set D := l.filter (selected b reclaim) with hDdef
    have hDl : ∀ j ∈ D, j ∈ l ∧ selected b reclaim j = true := fun j hj => List.mem_filter.mp hj
    have hiD : i ∉ D := fun h => hi (hDl i h).1
    -- what the members so far have left of the engine
    have hdet := AarcEngine.detachMembers_spec hs (hnd.filter _) (AarcEngine.Detached.start hs hz F)
      (D := ∅) (by simp) fun j hj => hscc j (List.mem_append_left _ (hDl j hj).1) (hDl j hj).2
    rw [← hDdef, Finset.empty_union] at hdet
    set e' := D.foldl (fun e i => AarcEngine.detachMember (compOf b i) e i) b with he'
    obtain ⟨L, hrel, hL⟩ := hdet.released
    have hsccOf : (f.reclaimVisited reclaim l).1.sccOf i = b.sccOf i := by
      unfold ForwardEngine.sccOf AarcEngine.sccOf
      rw [show (f.reclaimVisited reclaim l).1.detector = e'.detector from
        congrArg Scratch.detector ih.scratch, hrel.detector]
    have hlive : (f.reclaimVisited reclaim l).1.pool.isLiveAt i = true := by
      rw [ih.pool, CellPool.isLiveAt_freeAll hiD, hrel.pool]
      exact hl i (by simp)
    rw [reclaimVisited_concat, hsccOf, hlive, List.filter_append, ← hDdef]
    simp only [Bool.and_true]
    cases hc : b.sccOf i with
    | none =>
      have hsel : selected b reclaim i = false := by simp [selected, hc]
      simpa [hsel] using ⟨ih, ihb⟩
    | some s =>
      have hsel : selected b reclaim i = reclaim s := by simp [selected, hc]
      have hcomp : compOf b i = s := by simp [compOf, hc]
      cases hr : reclaim s with
      | false => simpa [hsel, hr] using ⟨ih, ihb⟩
      | true =>
        have hsel := hsel.trans hr
        have hscci := hscc i (by simp) hsel
        have hmark : (AarcEngine.detachMember s e' i).suspectMark i = false := by
          have hdet' := hdet.detachMember hs (i := i) (s := s) (by simpa using hiD)
            (fun r hrec => by rw [← hcomp]; exact hscci r hrec)
          obtain ⟨L', hrel', hL'⟩ := hdet'.released
          refine Bool.eq_false_iff.mpr fun h => ?_
          rcases hrel'.new i h with h | ⟨h, -⟩
          · rw [hm i (by simp)] at h
            simp at h
          · exact ((hL' i).mp h).1 (hF i (by simp) hsel)
        have hout : e'.tab.outs i = b.tab.outs i := by
          unfold RefTable.outs
          rw [hdet.outRecs, if_neg (by simpa using hiD)]
        have hstep := ih.reclaimCycleMember hdet.linked (s := s) hiD (fun t ht hts htD => hts ?_)
          hmark
        · have hsing : [i].filter (selected b reclaim) = [i] := by simp [hsel]
          rw [hsing]
          simp only [hr, if_true]
          refine ⟨?_, by simp⟩
          rw [List.foldl_append, List.foldl_cons, List.foldl_nil, hcomp]
          exact hstep
        · rw [hout] at ht
          obtain ⟨r, hrec, rfl⟩ := List.mem_map.mp ht
          have hmem := (hscci r hrec).mpr
            (hF _ (List.mem_append_left _ (hDl _ htD).1) (hDl _ htD).2)
          unfold AarcEngine.sccOf at hmem ⊢
          rw [hrel.detector, hmem, hcomp]

end Reclaim

end ForwardEngine

end Loxis.Aarc
