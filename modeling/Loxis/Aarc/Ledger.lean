import Loxis.Aarc.Process

/-! # Outstanding references

What a history of messages leaves outstanding, and that a table to which every
message applied as its sender meant it holds exactly that.
-/

namespace Loxis.Aarc

open Function

namespace AarcEngine

variable {e : AarcEngine} {m : GCMessage} {j : ℕ}

/-- A message about a dead target changes nothing. -/
theorem applied_of_dead (hs : e.tab.Sound e.pool) (hb : e.live m.b = false) :
    e.tab.applied e.pool m = e.tab := by
  have hb : e.pool.valid m.b = false := hb
  unfold RefTable.applied
  cases m.op with
  | rootAdd => simp [hb]
  | rootRemove => simp [hb]
  | rootCheck => rfl
  | edgeAdd => simp [hb]
  | edgeRemove =>
    have hm : ⟨m.a, m.b⟩ ∉ e.tab.outRecs m.a.index := fun hm => by
      have := hs.valid_dst _ _ hm
      rw [hb] at this
      simp at this
    simp [RefTable.removeOut_eq_none hm]
  | terminate => rfl

theorem not_loses_of_dead (hs : e.tab.Sound e.pool) (hb : e.live m.b = false) : ¬ e.Loses m := by
  unfold Loses
  split
  · simp [hb]
  · simp [hb]
  · rintro ⟨-, hm⟩
    have := hs.valid_dst _ _ hm
    rw [show e.pool.valid m.b = false from hb] at this
    simp at this
  · exact id

/-- Only an edge message with a live source in that slot touches an out-list. -/
theorem outRecs_applied (hs : e.tab.Sound e.pool)
    (h : m.a.index = j → m.op = .edgeAdd ∨ m.op = .edgeRemove → e.live m.a = false) :
    (e.tab.applied e.pool m).outRecs j = e.tab.outRecs j := by
  unfold RefTable.applied
  cases hop : m.op with
  | rootAdd => simp only; split_ifs <;> rfl
  | rootRemove => simp only; unfold RefTable.subRoot; split_ifs <;> rfl
  | rootCheck => rfl
  | edgeAdd =>
    simp only
    split_ifs with hv
    · have hne : j ≠ m.a.index := fun hj => by
        have := h hj.symm (Or.inl hop)
        rw [show e.pool.valid m.a = false from this] at hv
        simp at hv
      simp [RefTable.addOut, RefTable.addEdgeTo, hne]
    · rfl
  | edgeRemove =>
    simp only
    by_cases hm : ⟨m.a, m.b⟩ ∈ e.tab.outRecs m.a.index
    · have hne : j ≠ m.a.index := fun hj => by
        have h1 := h hj.symm (Or.inr hop)
        have h2 := hs.valid_src _ _ hm
        rw [show e.pool.valid m.a = false from h1] at h2
        simp at h2
      rw [RefTable.removeOut_eq hm, hs.valid_dst _ _ hm, hs.subEdge_unlink hm]
      split_ifs <;> simp [RefTable.unlink, hne]
    · simp [RefTable.removeOut_eq_none hm]
  | terminate => rfl

/-- The candidates change at the live target of a message only. -/
theorem mem_zeroStack_process (h : e.Ready) (hf : e.Fits m)
    (hb : m.b.index = j → e.live m.b = false) :
    j ∈ (e.process m).zeroStack ↔ j ∈ e.zeroStack := by
  by_cases hl : e.Loses m
  · rw [process_of_loses h.sound hl]
    have := mark_marks (e := e.setTab (e.tab.applied e.pool m)) (i := m.b.index)
      h.marksOk.zeroOk j
    rw [this.1]
    refine ⟨fun hj => hj.resolve_right ?_, Or.inl⟩
    rintro ⟨rfl, -⟩
    exact not_loses_of_dead h.sound (hb rfl) hl
  · rw [(process_of_not_loses hf hl).2.1]

end AarcEngine

namespace GCMessage

/-- The outstanding root additions after a message. -/
def rootsAfter (m : GCMessage) (f : ObjHandle → ℕ) : ObjHandle → ℕ :=
  match m.op with
  | .rootAdd => update f m.b (f m.b + m.count)
  | .rootRemove => update f m.b (f m.b - m.count)
  | _ => f

/-- The outstanding edge additions after a message. -/
def edgesAfter (m : GCMessage) (f : EdgeRec → ℕ) : EdgeRec → ℕ :=
  match m.op with
  | .edgeAdd => update f ⟨m.a, m.b⟩ (f ⟨m.a, m.b⟩ + 1)
  | .edgeRemove => update f ⟨m.a, m.b⟩ (f ⟨m.a, m.b⟩ - 1)
  | _ => f

/-- The handles that a message is about. -/
def Names (m : GCMessage) (h : ObjHandle) : Prop :=
  match m.op with
  | .rootAdd | .rootRemove | .rootCheck => h = m.b
  | .edgeAdd | .edgeRemove => h = m.a ∨ h = m.b
  | .terminate => False

variable {e : AarcEngine} {m : GCMessage} {f : ObjHandle → ℕ} {g : EdgeRec → ℕ}

theorem rootsAfter_eq_zero {h : ObjHandle} (h0 : f h = 0) (hne : m.op = .rootAdd → m.b ≠ h) :
    m.rootsAfter f h = 0 := by
  unfold rootsAfter
  cases hop : m.op with
  | rootAdd => simp [update_of_ne (hne hop).symm, h0]
  | rootRemove =>
    simp only [update_apply]
    split
    · next hh => rw [← hh, h0, Nat.zero_sub]
    · exact h0
  | _ => exact h0

theorem edgesAfter_eq_zero {r : EdgeRec} (h0 : g r = 0)
    (hne : m.op = .edgeAdd → ⟨m.a, m.b⟩ ≠ r) : m.edgesAfter g r = 0 := by
  unfold edgesAfter
  cases hop : m.op with
  | edgeAdd => simp [update_of_ne (hne hop).symm, h0]
  | edgeRemove =>
    simp only [update_apply]
    split
    · next hh => rw [← hh, h0, Nat.zero_sub]
    · exact h0
  | _ => exact h0

/-- The root counts of the live cells follow the outstanding additions. -/
theorem root_applied (hrem : m.op = .rootRemove → m.count ≤ f m.b)
    (hadd : m.op = .rootAdd → e.live m.b = true)
    (hf : ∀ h, e.live h = true → e.tab.root h.index = f h) (h : ObjHandle)
    (hl : e.live h = true) : (e.tab.applied e.pool m).root h.index = m.rootsAfter f h := by
  have hne : h ≠ m.b → e.live m.b = true → h.index ≠ m.b.index := fun hne hb hi =>
    hne (CellPool.eq_of_valid hl hb hi)
  unfold RefTable.applied rootsAfter
  cases hop : m.op with
  | rootAdd =>
    have hb := hadd hop
    simp only
    rw [if_pos (show e.pool.valid m.b = true from hb)]
    by_cases hh : h = m.b
    · subst hh
      simp [RefTable.addRoot, hf _ hl]
    · simp [RefTable.addRoot, hne hh hb, hh, hf h hl]
  | rootRemove =>
    simp only
    by_cases hb : e.live m.b = true
    · have hc : (m.count : ℤ) ≤ e.tab.root m.b.index := by
        rw [hf _ hb]; exact_mod_cast hrem hop
      rw [if_pos (show e.pool.valid m.b = true from hb), RefTable.subRoot_eq hc]
      by_cases hh : h = m.b
      · subst hh
        have := hrem hop
        simp only [update_self, hf _ hl]
        omega
      · simp [hne hh hb, hh, hf h hl]
    · have hh : h ≠ m.b := by rintro rfl; exact hb hl
      rw [if_neg (show ¬ e.pool.valid m.b = true from hb), update_of_ne hh, hf h hl]
  | rootCheck => exact hf h hl
  | edgeAdd =>
    simp only
    split_ifs <;> exact hf h hl
  | edgeRemove =>
    simp only
    have h1 : (e.tab.removeOut m.a m.b).1.root = e.tab.root := by
      unfold RefTable.removeOut; split <;> rfl
    have h2 : ((e.tab.removeOut m.a m.b).1.subEdgeTo m.b.index).1.root = e.tab.root := by
      unfold RefTable.subEdgeTo; split <;> exact h1
    split_ifs
    · rw [h2]; exact hf h hl
    · rw [h1]; exact hf h hl
    · exact hf h hl
  | terminate => exact hf h hl

/-- The edges out of the live cells follow the outstanding additions. -/
theorem count_applied (hs : e.tab.Sound e.pool) (hrem : m.op = .edgeRemove → 0 < g ⟨m.a, m.b⟩)
    (hadd : m.op = .edgeAdd → e.live m.a = true ∧ e.live m.b = true)
    (hg : ∀ r, e.live r.src = true → (e.tab.outRecs r.src.index).count r = g r) (r : EdgeRec)
    (hl : e.live r.src = true) :
    ((e.tab.applied e.pool m).outRecs r.src.index).count r = m.edgesAfter g r := by
  cases hop : m.op with
  | edgeAdd =>
    obtain ⟨ha, hb⟩ := hadd hop
    have ha : e.pool.valid m.a = true := ha
    have hb : e.pool.valid m.b = true := hb
    simp only [RefTable.applied, edgesAfter, hop, ha, hb, Bool.and_self, if_true]
    simp only [RefTable.addOut, RefTable.addEdgeTo, update_apply]
    by_cases hr : r = ⟨m.a, m.b⟩
    · subst hr
      simp [hg ⟨m.a, m.b⟩ hl]
    · rw [if_neg hr]
      split
      · next hi => rw [List.count_cons_of_ne (Ne.symm hr), ← hi, hg r hl]
      · exact hg r hl
  | edgeRemove =>
    by_cases ha : e.pool.valid m.a = true
    · have hm : ⟨m.a, m.b⟩ ∈ e.tab.outRecs m.a.index := by
        rw [← List.count_pos_iff, hg ⟨m.a, m.b⟩ ha]
        exact hrem hop
      simp only [RefTable.applied, edgesAfter, hop, ha, RefTable.removeOut_eq hm,
        hs.valid_dst _ _ hm, hs.subEdge_unlink hm, Bool.and_self, if_true]
      simp only [RefTable.unlink, update_apply]
      by_cases hr : r = ⟨m.a, m.b⟩
      · subst hr
        simp [hg ⟨m.a, m.b⟩ hl]
      · rw [if_neg hr]
        split
        · next hi => rw [List.count_erase_of_ne hr, ← hi, hg r hl]
        · exact hg r hl
    · have hr : r ≠ ⟨m.a, m.b⟩ := by
        rintro rfl
        exact ha hl
      simp only [RefTable.applied, edgesAfter, hop, ha, Bool.false_and]
      rw [update_of_ne hr]
      exact hg r hl
  | rootAdd | rootRemove | rootCheck | terminate =>
    rw [AarcEngine.outRecs_applied hs fun _ h => by simp [hop] at h, hg r hl]
    simp [edgesAfter, hop]

end GCMessage

end Loxis.Aarc
