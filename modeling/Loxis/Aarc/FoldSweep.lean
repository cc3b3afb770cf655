import Loxis.Aarc.Fold
import Loxis.Aarc.Ledger

/-! # Folding against the collection

A folded batch leaves the same counts and edges as the batch it stands for, but it asks
about a handle where its first root operation stood. Whether the sweep then collects the
same cells depends on the suspects the two orders leave.
-/

namespace Loxis.Aarc

open Function Loxis.Graph

/-- Somewhere in a list an element stands after a prefix so that `P` holds. -/
def Somewhere {α : Type*} (l : List α) (P : List α → α → Prop) : Prop :=
  ∃ pre x post, l = pre ++ x :: post ∧ P pre x

section Somewhere

variable {α : Type*} {l : List α} {x : α} {P Q : List α → α → Prop}

@[simp] theorem somewhere_nil : ¬ Somewhere [] P := by
  rintro ⟨pre, x, post, h, -⟩
  simp at h

theorem somewhere_append : Somewhere (l ++ [x]) P ↔ Somewhere l P ∨ P l x := by
  constructor
  · rintro ⟨pre, y, post, h, hP⟩
    rcases List.eq_nil_or_concat post with rfl | ⟨post', z, rfl⟩
    · obtain ⟨rfl, rfl⟩ := List.append_inj' h rfl |>.imp id (by simpa using ·)
      exact Or.inr hP
    · rw [List.concat_eq_append, ← List.cons_append, ← List.append_assoc] at h
      exact Or.inl ⟨pre, y, post', (List.append_inj' h rfl).1, hP⟩
  · rintro (⟨pre, y, post, rfl, hP⟩ | hP)
    · exact ⟨pre, y, post ++ [x], by simp, hP⟩
    · exact ⟨l, x, [], rfl, hP⟩

theorem somewhere_congr (h : ∀ pre x, x ∈ l → (P pre x ↔ Q pre x)) :
    Somewhere l P ↔ Somewhere l Q :=
  ⟨fun ⟨pre, x, post, hl, hP⟩ => ⟨pre, x, post, hl, (h pre x (by simp [hl])).mp hP⟩,
    fun ⟨pre, x, post, hl, hQ⟩ => ⟨pre, x, post, hl, (h pre x (by simp [hl])).mpr hQ⟩⟩

end Somewhere

namespace RefTable

variable (p : CellPool) (t : RefTable) {ms : List GCMessage} {m : GCMessage} {i : ℕ}

/-- The table after the reference changes of a list of messages. -/
def replay (ms : List GCMessage) : RefTable := ms.foldl (fun t m => t.applied p m) t

/-- A message takes a reference to `m.b` away, or asks for it to be examined. -/
def Takes (m : GCMessage) : Prop :=
  match m.op with
  | .rootRemove => p.valid m.b = true ∧ (m.count : ℤ) ≤ t.root m.b.index
  | .rootCheck => p.valid m.b = true
  | .edgeRemove => p.valid m.a = true ∧ ⟨m.a, m.b⟩ ∈ t.outRecs m.a.index
  | _ => False

/-- Every root removal is backed by a root that is there. -/
def Backed (ms : List GCMessage) : Prop :=
  ∀ pre m post, ms = pre ++ m :: post → m.op = .rootRemove → p.valid m.b = true →
    (m.count : ℤ) ≤ (t.replay p pre).root m.b.index

variable {p t}

@[simp] theorem replay_nil : t.replay p [] = t := rfl

theorem replay_append : t.replay p (ms ++ [m]) = (t.replay p ms).applied p m := by
  simp [replay]

theorem Sound.replay (h : t.Sound p) (ms : List GCMessage) : (t.replay p ms).Sound p := by
  induction ms using List.reverseRecOn with
  | nil => exact h
  | append_singleton ms m ih =>
    rw [replay_append]
    exact ih.applied m

theorem Backed.init (h : t.Backed p (ms ++ [m])) : t.Backed p ms := fun pre x post hms =>
  h pre x (post ++ [m]) (by simp [hms])

theorem Backed.last (h : t.Backed p (ms ++ [m])) (hop : m.op = .rootRemove)
    (hv : p.valid m.b = true) : (m.count : ℤ) ≤ (t.replay p ms).root m.b.index :=
  h ms m [] rfl hop hv

end RefTable

namespace RefTable

variable {p : CellPool} {t t' : RefTable} {batch pre : List GCMessage} {m : GCMessage}
  {h : ObjHandle} {d : ℤ}

section Edges

/-- The same edges. -/
structure SameEdges (t t' : RefTable) : Prop where
  edge : t.edge = t'.edge
  outRecs : t.outRecs = t'.outRecs
  inRecs : t.inRecs = t'.inRecs

theorem SameEdges.trans {t'' : RefTable} (h : t.SameEdges t') (h' : t'.SameEdges t'') :
    t.SameEdges t'' :=
  ⟨h.edge.trans h'.edge, h.outRecs.trans h'.outRecs, h.inRecs.trans h'.inRecs⟩

theorem SameEdges.symm (h : t.SameEdges t') : t'.SameEdges t :=
  ⟨h.edge.symm, h.outRecs.symm, h.inRecs.symm⟩

theorem SameEdges.eq_of_root (h : t.SameEdges t') (hr : t.root = t'.root) : t = t' := by
  obtain ⟨root, edge, outRecs, inRecs⟩ := t
  obtain ⟨root', edge', outRecs', inRecs'⟩ := t'
  obtain ⟨rfl, rfl, rfl⟩ := h
  obtain rfl := hr
  rfl

theorem SameEdges.hasOutgoing (h : t.SameEdges t') (i : ℕ) : t.hasOutgoing i = t'.hasOutgoing i := by
  rw [RefTable.hasOutgoing, h.outRecs, RefTable.hasOutgoing]

/-- Edge operations do not depend on the root counts. -/
theorem SameEdges.applied (h : t.SameEdges t') (m : GCMessage) :
    (t.applied p m).SameEdges (t'.applied p m) := by
  obtain ⟨root, edge, outRecs, inRecs⟩ := t
  obtain ⟨root', edge', outRecs', inRecs'⟩ := t'
  obtain ⟨rfl, rfl, rfl⟩ := h
  unfold RefTable.applied
  cases m.op <;>
    simp only [addRoot, subRoot, addEdgeTo, addOut, removeOut, subEdgeTo, unlink] <;>
    (try split_ifs) <;> exact ⟨rfl, rfl, rfl⟩

/-- Root operations keep the edges. -/
theorem sameEdges_applied (hadd : m.op ≠ .edgeAdd) (hrem : m.op ≠ .edgeRemove) :
    (t.applied p m).SameEdges t := by
  unfold RefTable.applied
  cases hop : m.op <;> simp only [addRoot, subRoot] <;> (try split_ifs) <;>
    first | exact ⟨rfl, rfl, rfl⟩ | exact absurd hop hadd | exact absurd hop hrem

end Edges

section Roots

theorem root_applied_other (hm : m.isRoot = false) : (t.applied p m).root = t.root := by
  unfold RefTable.applied
  cases hop : m.op <;>
    simp only [addEdgeTo, addOut, removeOut, subEdgeTo, unlink] <;> (try split_ifs) <;>
    simp_all [GCMessage.isRoot]

/-- What a net delta does to the root counts. -/
theorem root_setDelta (hv : p.valid h = true) (hd : m.b = h → 0 ≤ t.root h.index + d) :
    (t.applied p (m.setDelta d)).root h.index = t.root h.index + if m.b = h then d else 0 := by
  have hne : ∀ {n : ℤ}, m.b ≠ h → p.valid m.b = true →
      update t.root m.b.index n h.index = t.root h.index := fun hne hb =>
    update_of_ne (fun hi => hne (CellPool.eq_of_valid hv hb hi).symm) ..
  rcases lt_trichotomy d 0 with hd0 | rfl | hd0
  · rw [GCMessage.setDelta, if_neg (by omega), if_pos hd0]
    simp only [applied]
    by_cases hb : m.b = h
    · subst hb
      have := hd rfl
      rw [if_pos hv, if_pos rfl, subRoot_eq (by omega)]
      simp only [update_self]
      omega
    · rw [if_neg hb, add_zero]
      split
      · next hbv => unfold subRoot; split <;> exact hne hb hbv
      · rfl
  · simp [GCMessage.setDelta, applied]
  · rw [GCMessage.setDelta, if_pos hd0]
    simp only [applied]
    by_cases hb : m.b = h
    · subst hb
      rw [if_pos hv, if_pos rfl]
      simp only [addRoot, update_self]
      omega
    · rw [if_neg hb, add_zero]
      split
      · next hbv => exact hne hb hbv
      · rfl

variable (hs : t.Sound p)

include hs

/-- A batch changes the root count of a cell by its net delta. -/
theorem root_replay (hone : ∀ m ∈ batch, m.isRoot = true → m.count = 1) (hb : t.Backed p batch)
    (hv : p.valid h = true) : (t.replay p batch).root h.index = t.root h.index + net batch h := by
  induction batch using List.reverseRecOn with
  | nil => simp [net]
  | append_singleton ms m ih =>
    have ih := ih (fun x hx => hone x (List.mem_append_left _ hx)) hb.init
    rw [replay_append, net_append]
    by_cases hm : m.isRoot = true
    · have hc := hone m (by simp) hm
      have hsign : m.b = h → 0 ≤ (t.replay p ms).root h.index + m.sign := by
        rintro rfl
        have h0 := (hs.replay ms).root_nonneg m.b.index
        rw [GCMessage.sign]
        split
        · omega
        · next hop =>
          have hop' : m.op = .rootRemove := by simpa [GCMessage.isRoot, hop] using hm
          have := hb.last hop' hv
          omega
      conv_lhs => rw [← setDelta_sign hm hc]
      rw [root_setDelta hv hsign, ih]
      simp only [hm, true_and, add_assoc]
    · rw [root_applied_other (by simpa using hm), ih, if_neg fun h => hm h.1, add_zero]

omit hs in
/-- The folded batch has applied the net delta of a handle as soon as the batch has touched it. -/
theorem root_folded (pre : List GCMessage)
    (hend : ∀ h, p.valid h = true → 0 ≤ t.root h.index + net batch h)
    (hv : p.valid h = true) : (t.replay p (foldedUpTo batch pre)).root h.index =
      t.root h.index + if touched pre h then net batch h else 0 := by
  induction pre using List.reverseRecOn with
  | nil => simp [foldedUpTo, keptAfter, touched]
  | append_singleton ms m ih =>
    rw [foldedUpTo_append, touched_append]
    by_cases hm : m.isRoot = true
    · by_cases ht : touched ms m.b = true
      · have : (touched ms h || (m.isRoot && decide (m.b = h))) = touched ms h := by
          by_cases hbh : m.b = h
          · simp [← hbh, ht]
          · simp [hbh]
        rw [this]
        simpa [hm, ht] using ih
      · have hsettle : settle batch m = m.setDelta (net batch m.b) := by simp [settle, hm]
        simp only [hm, ht, Bool.and_false, Bool.false_eq_true, if_false, replay_append, hsettle]
        rw [root_setDelta hv (fun hbh => ?_), ih]
        · by_cases hbh : m.b = h
          · subst hbh
            simp [ht]
          · simp [hbh]
        · subst hbh
          rw [ih]
          simpa [ht] using hend m.b hv
    · have hm : m.isRoot = false := by simpa using hm
      simp only [hm, Bool.false_and, Bool.false_eq_true, if_false, Bool.or_false, replay_append,
        settle]
      rw [root_applied_other hm, ih]

end Roots

/-- The folded batch has made the edge changes of the batch. -/
theorem sameEdges_folded : (t.replay p (foldedUpTo batch pre)).SameEdges (t.replay p pre) := by
  induction pre using List.reverseRecOn with
  | nil => exact ⟨rfl, rfl, rfl⟩
  | append_singleton ms m ih =>
    rw [foldedUpTo_append, replay_append]
    by_cases hm : m.isRoot = true
    · have hop : m.op ≠ .edgeAdd ∧ m.op ≠ .edgeRemove := by
        constructor <;> intro h <;> simp [GCMessage.isRoot, h] at hm
      have h2 := sameEdges_applied (p := p) (t := t.replay p ms) hop.1 hop.2
      by_cases ht : touched ms m.b = true
      · simp only [hm, ht, Bool.and_self, if_true, List.append_nil]
        exact ih.trans h2.symm
      · simp only [hm, ht, Bool.and_false, Bool.false_eq_true, if_false, replay_append]
        refine (sameEdges_applied ?_ ?_).trans (ih.trans h2.symm) <;>
          simp only [settle, hm, if_true, GCMessage.setDelta] <;> split_ifs <;> simp
    · have hm : m.isRoot = false := by simpa using hm
      simp only [hm, Bool.false_and, Bool.false_eq_true, if_false, replay_append, settle]
      exact ih.applied m

/-- A place of the folded batch is the place of a message that opened an entry. -/
theorem somewhere_folded {P : List GCMessage → GCMessage → Prop} :
    Somewhere (foldedUpTo batch pre) P ↔ Somewhere pre fun q m =>
      (m.isRoot && touched q m.b) = false ∧ P (foldedUpTo batch q) (settle batch m) := by
  induction pre using List.reverseRecOn with
  | nil => simp [foldedUpTo, keptAfter]
  | append_singleton ms m ih =>
    rw [foldedUpTo_append, somewhere_append, ← ih]
    cases hk : m.isRoot && touched ms m.b
    · simp [somewhere_append]
    · simp

theorem takes_setDelta (hd : 0 ≤ t.root m.b.index + d) :
    t.Takes p (m.setDelta d) ↔ p.valid m.b = true ∧ d ≤ 0 := by
  rcases lt_trichotomy d 0 with hd0 | rfl | hd0
  · rw [GCMessage.setDelta, if_neg (by omega), if_pos hd0]
    simp only [Takes]
    exact and_congr_right fun _ => by omega
  · simp [GCMessage.setDelta, Takes]
  · rw [GCMessage.setDelta, if_pos hd0]
    simp only [Takes, false_iff, not_and, not_le]
    exact fun _ => hd0

/-- A message that takes a reference is about a live target. -/
theorem Takes.valid (hs : t.Sound p) (h : t.Takes p m) : p.valid m.b = true := by
  unfold Takes at h
  split at h
  · exact h.1
  · exact h
  · exact hs.valid_dst _ _ h.2
  · exact h.elim

/-- A handle that a batch touches without gaining roots has a root removed. -/
theorem exists_remove (ht : touched batch h = true) (hn : net batch h ≤ 0) :
    ∃ m ∈ batch, m.op = .rootRemove ∧ m.b = h := by
  by_contra hno
  push Not at hno
  suffices 0 ≤ net batch h ∧ (touched batch h = true → 0 < net batch h) by
    have := this.2 ht
    omega
  clear ht hn
  induction batch using List.reverseRecOn with
  | nil => simp [net, touched]
  | append_singleton ms m ih =>
    obtain ⟨ih0, ih1⟩ := ih fun x hx => hno x (List.mem_append_left _ hx)
    rw [net_append, touched_append]
    by_cases hm : m.isRoot = true ∧ m.b = h
    · have hop : m.op = .rootAdd := by
        have hne : m.op ≠ .rootRemove := fun hop => hno m (by simp) hop hm.2
        simpa [GCMessage.isRoot, hne] using hm.1
      rw [if_pos hm, GCMessage.sign, if_pos hop]
      exact ⟨by omega, fun _ => by omega⟩
    · rw [if_neg hm, add_zero]
      refine ⟨ih0, fun h' => ih1 ?_⟩
      simpa [hm] using h'

/-- A touched handle has a first root operation. -/
theorem somewhere_first (ht : touched batch h = true) :
    Somewhere batch fun q m => m.isRoot = true ∧ m.b = h ∧ touched q h = false := by
  induction batch using List.reverseRecOn with
  | nil => simp [touched] at ht
  | append_singleton ms m ih =>
    rw [somewhere_append]
    by_cases h' : touched ms h = true
    · exact Or.inl (ih h')
    · rw [touched_append] at ht
      simp only [h', Bool.false_or, Bool.and_eq_true, decide_eq_true_eq] at ht
      exact Or.inr ⟨ht.1, ht.2, by simpa using h'⟩

section Batch

variable (hs : t.Sound p) (hst : Staged batch) (hb : t.Backed p batch)

include hs hst hb

theorem net_nonneg (h : ObjHandle) (hv : p.valid h = true) :
    0 ≤ t.root h.index + net batch h := by
  rw [← root_replay hs hst.count_one hb hv]
  exact (hs.replay batch).root_nonneg _

/-- Folding changes no count and no edge. -/
theorem replay_folded : t.replay p (folded batch) = t.replay p batch := by
  refine sameEdges_folded.eq_of_root (funext fun i => ?_)
  by_cases hl : p.isLiveAt i = true
  · have hv : p.valid (p.handleAt i) = true := CellPool.valid_iff.mpr ⟨hl, rfl⟩
    have h1 := root_folded batch (net_nonneg hs hst hb) hv
    have hif : (if touched batch (p.handleAt i) then net batch (p.handleAt i) else 0) =
        net batch (p.handleAt i) := by
      split
      · rfl
      · next ht => rw [net_of_not_touched (by simpa using ht)]
    rw [hif] at h1
    exact h1.trans (root_replay hs hst.count_one hb hv).symm
  · have hd : p.isLiveAt i = false := by simpa using hl
    rw [(hs.replay _).dead_root i hd, (hs.replay _).dead_root i hd]

/-- The folded removals are backed. -/
theorem backed_folded : t.Backed p (folded batch) := by
  intro pre x post hx hop hv
  by_contra hlt
  have hS : Somewhere (foldedUpTo batch batch) fun pre x => x.op = .rootRemove ∧
      p.valid x.b = true ∧ ¬ (x.count : ℤ) ≤ (t.replay p pre).root x.b.index :=
    ⟨pre, x, post, hx, hop, hv, hlt⟩
  obtain ⟨q, m, -, -, hk, hop, hv, hlt⟩ := somewhere_folded.mp hS
  by_cases hm : m.isRoot = true
  · have hnt : touched q m.b = false := by simpa [hm] using hk
    have hsettle : settle batch m = m.setDelta (net batch m.b) := by simp [settle, hm]
    rw [hsettle] at hop hv hlt
    rw [GCMessage.setDelta_b] at hv hlt
    have h0 := net_nonneg hs hst hb m.b hv
    rw [root_folded _ (net_nonneg hs hst hb) hv, hnt] at hlt
    simp only [Bool.false_eq_true, if_false, add_zero] at hlt
    unfold GCMessage.setDelta at hop hlt
    split_ifs at hop hlt with h1 h2
    simp only at hlt
    omega
  · simp only [settle, hm] at hop
    exact hm (by simp at hop; simp [GCMessage.isRoot, hop])

/-- Somewhere the batch takes a reference to a cell that stays referenced and refers on. -/
def Leaves (p : CellPool) (t : RefTable) (batch : List GCMessage) (i : ℕ) : Prop :=
  Somewhere batch fun pre m => m.b.index = i ∧ (t.replay p pre).Takes p m ∧
    0 < (t.replay p (pre ++ [m])).total i ∧ (t.replay p (pre ++ [m])).hasOutgoing i = true

/-- The same in the folded order: a cell is asked about at its first root operation and at each
of its edge removals, and from that first operation on it has no roots. -/
def FoldLeaves (p : CellPool) (t : RefTable) (batch : List GCMessage) (i : ℕ) : Prop :=
  Somewhere batch fun pre m => m.b.index = i ∧
    (m.isRoot = true ∧ p.valid m.b = true ∧ touched pre m.b = false ∨
      m.op = .edgeRemove ∧ (t.replay p pre).Takes p m) ∧
    0 < (t.replay p (pre ++ [m])).edge i + (if touched (pre ++ [m]) m.b then 0 else t.root i) ∧
    (t.replay p (pre ++ [m])).hasOutgoing i = true

/-- What the folded batch asks about, for a cell that ends without roots. -/
theorem takes_folded {q : List GCMessage} (hmem : m ∈ batch)
    (hk : (m.isRoot && touched q m.b) = false)
    (h0 : p.valid m.b = true → t.root m.b.index + net batch m.b = 0) :
    (t.replay p (foldedUpTo batch q)).Takes p (settle batch m) ↔
      m.isRoot = true ∧ p.valid m.b = true ∧ touched q m.b = false ∨
        m.op = .edgeRemove ∧ (t.replay p q).Takes p m := by
  by_cases hm : m.isRoot = true
  · have hnt : touched q m.b = false := by simpa [hm] using hk
    have hop : m.op ≠ .edgeRemove := fun h => by simp [GCMessage.isRoot, h] at hm
    simp only [settle, hm, if_true, hnt, true_and, and_true, hop, false_and, or_false]
    by_cases hv : p.valid m.b = true
    · have hroot := root_folded q (net_nonneg hs hst hb) hv
      have := hs.root_nonneg m.b.index
      have := h0 hv
      simp only [hnt, Bool.false_eq_true, if_false, add_zero] at hroot
      rw [takes_setDelta (by omega)]
      exact ⟨And.left, fun h => ⟨h, by omega⟩⟩
    · exact iff_of_false (fun h => hv (by simpa using h.valid (hs.replay _))) hv
  · have hm : m.isRoot = false := by simpa using hm
    have hck := hst.no_check m hmem
    simp only [settle, hm, Bool.false_eq_true, if_false, false_and, false_or]
    unfold Takes
    rw [sameEdges_folded.outRecs]
    cases hop : m.op <;> simp_all [GCMessage.isRoot]

variable {i : ℕ} (h0 : (t.replay p batch).root i = 0)

include h0

/-- The handle of an unrooted cell nets its roots away. -/
theorem net_of_unrooted (hi : m.b.index = i) (hv : p.valid m.b = true) :
    t.root m.b.index + net batch m.b = 0 := by
  rw [← root_replay hs hst.count_one hb hv, hi, h0]

/-- The suspects that the folded batch leaves among the cells that end without roots. -/
theorem leaves_folded : (Somewhere (folded batch) fun pre m =>
    m.b.index = i ∧ (t.replay p pre).Takes p m ∧ (t.replay p (pre ++ [m])).total i ≠ 0 ∧
      (t.replay p (pre ++ [m])).hasOutgoing i = true) ↔ t.FoldLeaves p batch i := by
  rw [folded, somewhere_folded]
  refine somewhere_congr fun q m hm => ?_
  rw [settle_b]
  have key : (m.isRoot && touched q m.b) = false → m.b.index = i →
      ((t.replay p (foldedUpTo batch q)).Takes p (settle batch m) ∧
        (t.replay p (foldedUpTo batch q ++ [settle batch m])).total i ≠ 0 ∧
        (t.replay p (foldedUpTo batch q ++ [settle batch m])).hasOutgoing i = true ↔
      (m.isRoot = true ∧ p.valid m.b = true ∧ touched q m.b = false ∨
        m.op = .edgeRemove ∧ (t.replay p q).Takes p m) ∧
      0 < (t.replay p (q ++ [m])).edge i + (if touched (q ++ [m]) m.b then 0 else t.root i) ∧
      (t.replay p (q ++ [m])).hasOutgoing i = true) := by
    intro hk hi
    have hF : foldedUpTo batch q ++ [settle batch m] = foldedUpTo batch (q ++ [m]) := by
      rw [foldedUpTo_append, hk]
      rfl
    have hE : (t.replay p (foldedUpTo batch (q ++ [m]))).SameEdges (t.replay p (q ++ [m])) :=
      sameEdges_folded
    rw [hF, takes_folded hs hst hb hm hk (net_of_unrooted hs hst hb h0 hi), hE.hasOutgoing]
    refine and_congr_right fun hT => and_congr_left fun _ => ?_
    have hv : p.valid m.b = true := by
      rcases hT with hT | hT
      · exact hT.2.1
      · exact hT.2.valid (hs.replay _)
    have hroot := root_folded (q ++ [m]) (net_nonneg hs hst hb) hv
    have hnet := net_of_unrooted hs hst hb h0 hi hv
    have hnn := (hs.replay (foldedUpTo batch (q ++ [m]))).total_nonneg i
    rw [hi] at hroot hnet
    rw [total, hroot, hE.edge] at hnn ⊢
    by_cases ht : touched (q ++ [m]) m.b = true <;>
      simp only [ht, if_true, Bool.false_eq_true, if_false] at hnn ⊢ <;> omega
  constructor
  · rintro ⟨hk, hi, hT⟩
    exact ⟨hi, (key hk hi).mp hT⟩
  · rintro ⟨hi, hT⟩
    have hk : (m.isRoot && touched q m.b) = false := by
      rcases hT.1 with h | h
      · simp [h.2.2]
      · simp [GCMessage.isRoot, h.1]
    exact ⟨hk, hi, (key hk hi).mpr hT⟩

/-- Either order examines the same cells among those that end without roots. -/
theorem somewhere_takes_folded :
    (Somewhere (folded batch) fun pre m => m.b.index = i ∧ (t.replay p pre).Takes p m) ↔
      Somewhere batch fun pre m => m.b.index = i ∧ (t.replay p pre).Takes p m := by
  rw [folded, somewhere_folded]
  constructor
  · rintro ⟨q, m, post, hq, hk, hi, hT⟩
    rw [settle_b] at hi
    have hm : m ∈ batch := by simp [hq]
    rw [takes_folded hs hst hb hm hk (net_of_unrooted hs hst hb h0 hi)] at hT
    rcases hT with ⟨hr, hv, -⟩ | ⟨-, hT⟩
    · -- without roots in the end, the handle has a root removed somewhere
      have hnet := net_of_unrooted hs hst hb h0 hi hv
      have := hs.root_nonneg m.b.index
      obtain ⟨x, hx, hop, hxb⟩ := exists_remove
        (List.any_eq_true.mpr ⟨m, hm, by simp [hr]⟩) (show net batch m.b ≤ 0 by omega)
      obtain ⟨pre, post', hx⟩ := List.append_of_mem hx
      refine ⟨pre, x, post', hx, by rw [hxb, hi], ?_⟩
      have := hb pre x post' hx hop (by rwa [hxb])
      unfold Takes
      rw [hop]
      exact ⟨by rwa [hxb], this⟩
    · exact ⟨q, m, post, hq, hi, hT⟩
  · rintro ⟨q, m, post, hq, hi, hT⟩
    have hv := hT.valid (hs.replay _)
    have hm : m ∈ batch := by simp [hq]
    by_cases hr : m.isRoot = true
    · obtain ⟨q', x, post', hq', hxr, hxb, hnt⟩ :=
        somewhere_first (h := m.b) (List.any_eq_true.mpr ⟨m, hm, by simp [hr]⟩)
      have hk : (x.isRoot && touched q' x.b) = false := by simp [hxb, hnt]
      refine ⟨q', x, post', hq', hk, by rw [settle_b, hxb, hi], ?_⟩
      rw [takes_folded hs hst hb (by simp [hq']) hk
        (net_of_unrooted hs hst hb h0 (by rw [hxb, hi]))]
      exact Or.inl ⟨hxr, by rwa [hxb], by rwa [hxb]⟩
    · have hk : (m.isRoot && touched q m.b) = false := by simp [hr]
      refine ⟨q, m, post, hq, hk, by rw [settle_b]; exact hi, ?_⟩
      rw [takes_folded hs hst hb hm hk (net_of_unrooted hs hst hb h0 hi)]
      refine Or.inr ⟨?_, hT⟩
      have := hst.no_check m hm
      unfold Takes at hT
      cases hop : m.op <;> simp_all [GCMessage.isRoot]

end Batch

end RefTable

namespace AarcEngine

variable {e : AarcEngine} {ms : List GCMessage} {m : GCMessage} {i : ℕ}

def processAll (e : AarcEngine) (ms : List GCMessage) : AarcEngine := ms.foldl process e

theorem processAll_append : e.processAll (ms ++ [m]) = (e.processAll ms).process m := by
  simp [processAll]

theorem processAll_pool : (e.processAll ms).pool = e.pool := by
  induction ms using List.reverseRecOn with
  | nil => rfl
  | append_singleton ms m ih => rw [processAll_append, process_pool, ih]

theorem processAll_tab : (e.processAll ms).tab = e.tab.replay e.pool ms := by
  induction ms using List.reverseRecOn with
  | nil => rfl
  | append_singleton ms m ih =>
    rw [processAll_append, process_tab, processAll_pool, ih, RefTable.replay_append]

theorem loses_iff : (e.processAll ms).Loses m ↔ (e.tab.replay e.pool ms).Takes e.pool m := by
  cases hop : m.op <;>
    simp only [Loses, RefTable.Takes, live, hop, processAll_pool, processAll_tab]

theorem fits_processAll (h : e.tab.Backed e.pool (ms ++ [m])) : (e.processAll ms).Fits m := by
  intro hop hv
  rw [processAll_tab]
  exact h.last hop (by rwa [live, processAll_pool] at hv)

theorem Ready.processAll (h : e.Ready) (hb : e.tab.Backed e.pool ms) :
    (e.processAll ms).Ready := by
  induction ms using List.reverseRecOn with
  | nil => exact h
  | append_singleton ms m ih =>
    rw [processAll_append]
    exact (ih hb.init).process (fits_processAll hb)

/-- The marks after a batch: those before it, and those of the targets that its messages
examined when they were unreferenced, or referenced and with an outgoing edge. -/
theorem processAll_marks (h : e.Ready) (hb : e.tab.Backed e.pool ms) :
    (i ∈ (e.processAll ms).zeroStack ↔ i ∈ e.zeroStack ∨ Somewhere ms fun pre m =>
      m.b.index = i ∧ (e.tab.replay e.pool pre).Takes e.pool m ∧
        (e.tab.replay e.pool (pre ++ [m])).total i = 0) ∧
    ((e.processAll ms).suspectMark i = true ↔ e.suspectMark i = true ∨ Somewhere ms fun pre m =>
      m.b.index = i ∧ (e.tab.replay e.pool pre).Takes e.pool m ∧
        (e.tab.replay e.pool (pre ++ [m])).total i ≠ 0 ∧
          (e.tab.replay e.pool (pre ++ [m])).hasOutgoing i = true) := by
  induction ms using List.reverseRecOn with
  | nil => simp [processAll]
  | append_singleton ms m ih =>
    obtain ⟨ihz, ihs⟩ := ih hb.init
    have hr := h.processAll hb.init
    have hf := fits_processAll hb
    rw [somewhere_append, somewhere_append, ← or_assoc, ← or_assoc, ← ihz, ← ihs,
      processAll_append]
    by_cases hl : (e.processAll ms).Loses m
    · rw [process_of_loses hr.sound hl, ← loses_iff]
      have htab : (e.processAll ms).tab.applied (e.processAll ms).pool m =
          e.tab.replay e.pool (ms ++ [m]) := by
        rw [processAll_pool, processAll_tab, RefTable.replay_append]
      have hmm := mark_marks (e := (e.processAll ms).setTab ((e.processAll ms).tab.applied
        (e.processAll ms).pool m)) (i := m.b.index) hr.marksOk.zeroOk i
      rw [hmm.1, hmm.2]
      simp only [setTab, htab, hl, true_and]
      constructor
      · refine or_congr_right ⟨fun h' => ⟨h'.1.symm, h'.1 ▸ h'.2⟩, fun h' => ⟨h'.1.symm, ?_⟩⟩
        rw [h'.1]; exact h'.2
      · refine or_congr_right ⟨fun h' => ⟨h'.1.symm, h'.1 ▸ h'.2⟩, fun h' => ⟨h'.1.symm, ?_⟩⟩
        rw [h'.1]; exact h'.2
    · obtain ⟨-, hzs, hsm, -⟩ := process_of_not_loses hf hl
      rw [hzs, hsm, ← loses_iff]
      simp [hl]

/-- A cell that ends without references is a candidate iff it was one before or some message
took a reference to it. -/
theorem zeroStack_of_total_zero (h : e.Ready) (hb : e.tab.Backed e.pool ms)
    (h0 : (e.tab.replay e.pool ms).total i = 0) :
    i ∈ (e.processAll ms).zeroStack ↔ i ∈ e.zeroStack ∨ Somewhere ms fun pre m =>
      m.b.index = i ∧ (e.tab.replay e.pool pre).Takes e.pool m := by
  induction ms using List.reverseRecOn with
  | nil => simp [processAll]
  | append_singleton ms m ih =>
    have hr := h.processAll hb.init
    have hf := fits_processAll hb
    by_cases hT : m.b.index = i ∧ (e.tab.replay e.pool ms).Takes e.pool m
    · refine iff_of_true ((processAll_marks h hb).1.mpr (Or.inr ?_))
        (Or.inr (somewhere_append.mpr (Or.inr hT)))
      exact somewhere_append.mpr (Or.inr ⟨hT.1, hT.2, h0⟩)
    · have h0' : (e.tab.replay e.pool ms).total i = 0 := by
        have hnn := (h.sound.replay ms).total_nonneg i
        rw [RefTable.replay_append] at h0
        by_cases hi : m.b.index = i
        · have hl : ¬ (e.processAll ms).Loses m := fun hl => hT ⟨hi, loses_iff.mp hl⟩
          obtain ⟨-, hroot, hedge, -⟩ := edge_of_not_loses hf hl
          rw [processAll_pool, processAll_tab] at hroot hedge
          have := hroot i
          have := hedge i
          unfold RefTable.total at *
          omega
        · have := total_applied_of_ne (m := m) hr.sound (Ne.symm hi)
          rw [processAll_pool, processAll_tab] at this
          rwa [this] at h0
      rw [somewhere_append, or_iff_left hT, ← ih hb.init h0', (processAll_marks h hb).1,
        (processAll_marks h hb.init).1, somewhere_append]
      refine or_congr_right (or_iff_left fun h' => hT ⟨h'.1, h'.2.1⟩)

section Fold

variable {batch : List GCMessage}

/-- The same live cells with the same counts and out-edges. -/
def SameCells (e e' : AarcEngine) : Prop :=
  ∀ i, e.pool.isLiveAt i = e'.pool.isLiveAt i ∧ e.tab.root i = e'.tab.root i ∧
    e.tab.edge i = e'.tab.edge i ∧ e.tab.outs i = e'.tab.outs i

/-- The graph a batch leaves, with its rooted cells. -/
def graphAfter (e : AarcEngine) (batch : List GCMessage) : Marked ℕ where
  edge := (e.tab.replay e.pool batch).Edge
  root i := 0 < (e.tab.replay e.pool batch).root i
  pend _ := False

/-- For every unrooted cyclic component that nothing outside refers to after the batch, both
orders leave a suspect in it or neither does. -/
def FoldSafe (e : AarcEngine) (batch : List GCMessage) : Prop :=
  ∀ i, e.pool.isLiveAt i = true → (e.graphAfter batch).Source i →
    0 < (e.tab.replay e.pool batch).total i →
      ((∃ b, Reach (e.graphAfter batch).edge b i ∧
          (e.suspectMark b = true ∨ e.tab.Leaves e.pool batch b)) ↔
        ∃ b, Reach (e.graphAfter batch).edge b i ∧
          (e.suspectMark b = true ∨ e.tab.FoldLeaves e.pool batch b))

/-- Sweeps of engines over the same pool and table agree when they free the same slots. -/
theorem sameCells_sweep_iff {e e' : AarcEngine} (h : e.Inv) (h' : e'.Inv)
    (hp : e.pool = e'.pool) (ht : e.tab = e'.tab) :
    SameCells e.sweep e'.sweep ↔ e.dead = e'.dead := by
  obtain ⟨hf, hset⟩ := sweep_spec h
  obtain ⟨hf', hset'⟩ := sweep_spec h'
  have hs := hset.inv.sound
  have hs' := hset'.inv.sound
  constructor
  · intro hc
    ext i
    have hl := (hc i).1
    rw [hf.isLiveAt, hf'.isLiveAt, hp] at hl
    constructor
    · intro hi
      have hli := hf.was i hi
      rw [hp] at hli
      simpa [hli, hi] using hl
    · intro hi
      have hli := hf'.was i hi
      simpa [hli, hi] using hl
  · intro hd i
    have hlive : e.sweep.pool.isLiveAt i = e'.sweep.pool.isLiveAt i := by
      rw [hf.isLiveAt, hf'.isLiveAt, hp, hd]
    refine ⟨hlive, ?_⟩
    by_cases hi : i ∈ e.dead
    · have hl : e.sweep.pool.isLiveAt i = false := by simp [hf.isLiveAt, hi]
      have hl' : e'.sweep.pool.isLiveAt i = false := hlive ▸ hl
      rw [hs.dead_root i hl, hs'.dead_root i hl', hs.dead_edge hl, hs'.dead_edge hl',
        RefTable.outs, RefTable.outs, hs.dead_out hl, hs'.dead_out hl']
      exact ⟨rfl, rfl, rfl⟩
    · have hi' : i ∉ e'.dead := hd ▸ hi
      rw [hf.root i hi, hf'.root i hi', hs.edge_eq, hs'.edge_eq, hf.inRecs i hi, hf'.inRecs i hi',
        RefTable.outs, RefTable.outs, hf.outRecs i hi, hf'.outRecs i hi', ht, hd]
      exact ⟨rfl, rfl, rfl⟩

/-- Engines over the same pool and table free the same slots when they have marks above the same
unrooted sources. -/
theorem dead_eq_iff {e e' : AarcEngine} (h : e.Inv) (hp : e.pool = e'.pool)
    (ht : e.tab = e'.tab) : e.dead = e'.dead ↔
      ∀ i, e.pool.isLiveAt i = true → e.marks.Source i →
        ((∃ b, Reach e.tab.Edge b i ∧ e.Pending b) ↔ ∃ b, Reach e.tab.Edge b i ∧ e'.Pending b) := by
  have hsrc : ∀ i, e'.marks.Source i ↔ e.marks.Source i := fun i => by
    simp only [Marked.Source, marks, ht]
  have hsurv : ∀ {g : AarcEngine} {i}, g.marks.Source i →
      (g.marks.Survives i ↔ ¬ ∃ b, Reach g.tab.Edge b i ∧ g.Pending b) := fun hi => by
    rw [hi.survives_iff]
    push Not
    rfl
  constructor
  · intro hd i hl hi
    have h1 := hsurv hi
    have h2 := hsurv ((hsrc i).mpr hi)
    have hl' : e'.pool.isLiveAt i = true := hp ▸ hl
    have h3 : i ∈ e.dead ↔ i ∈ e'.dead := by rw [hd]
    rw [mem_dead, mem_dead, and_iff_right hl, and_iff_right hl', h1, h2, not_not, not_not, ← ht] at h3
    exact h3
  · intro hpend
    ext i
    rw [mem_dead, mem_dead, ← hp]
    refine and_congr_right fun hl => not_congr ?_
    have hS := fun a b => h.sound.edge_lt (i := a) (j := b)
    have hiS : i ∈ Finset.range e.pool.capacity :=
      Finset.mem_range.mpr (CellPool.isLiveAt_iff.mp hl).1
    rw [Marked.survives_iff_source (G := e.marks) _ hS hiS,
      Marked.survives_iff_source (G := e'.marks) (Finset.range e.pool.capacity)
        (fun a b hab => hS a b (by rw [ht]; exact hab)) hiS]
    have hroot : e'.marks.Rooted i ↔ e.marks.Rooted i := by
      simp only [Marked.Rooted, marks, ht]
    rw [hroot]
    refine or_congr_right (exists_congr fun u => ?_)
    have hreach : Reach e'.marks.edge u i ↔ Reach e.marks.edge u i := by simp only [marks, ht]
    rw [hreach, hsrc]
    refine and_congr_right fun hui => and_congr_right fun hu => ?_
    have hul : e.pool.isLiveAt u = true := by
      rcases hui.head_cases with rfl | ⟨b, hub, -⟩
      · exact hl
      · exact (h.sound.edge_live hub).1
    have := not_congr (hpend u hul hu)
    push Not at this
    simpa only [marks, ht] using this

variable {tab : ℕ → FoldEntry}

/-- Something is pending above an unrooted source when it is itself a candidate or, being
referenced, has a suspect above it. -/
theorem exists_pending_iff (h : e.Inv) (hi : e.marks.Source i) :
    (∃ b, Reach e.tab.Edge b i ∧ e.Pending b) ↔
      if e.tab.total i = 0 then i ∈ e.zeroStack
      else ∃ b, Reach e.tab.Edge b i ∧ e.suspectMark b = true := by
  have hnn := h.sound.total_nonneg i
  unfold Pending
  split
  · next h0 =>
    constructor
    · rintro ⟨b, hbi, hp⟩
      obtain rfl : b = i := by
        rcases hbi.cases_tail with hb | ⟨c, -, hci⟩
        · exact hb.symm
        · exact absurd hci (h.sound.no_edge_of_total h0)
      exact hp.elim And.left fun hp => absurd hp.2 (by omega)
    · exact fun hz => ⟨i, .refl, Or.inl ⟨hz, h0⟩⟩
  · next h0 =>
    refine exists_congr fun b => and_congr_right fun hbi => ?_
    have hb : 0 < e.tab.total b := by
      rcases (hi b hbi).2.cases_tail with rfl | ⟨c, -, hcb⟩
      · omega
      · have := h.sound.edge_pos_iff.mpr ⟨c, hcb⟩
        have := h.sound.root_nonneg b
        unfold RefTable.total
        omega
    simp [hb, hb.ne']

/-- A fresh engine over a pool in which two cells have been allocated. -/
def twoCells : AarcEngine :=
  ((init 2 .shared kNoOwnerToken).setPool
    ((CellPool.init 2 .shared).activate ⟨0, 1⟩ kNoOwnerToken .shared)).setPool
    (((CellPool.init 2 .shared).activate ⟨0, 1⟩ kNoOwnerToken .shared).activate ⟨1, 1⟩
      kNoOwnerToken .shared)

/-- Two cells announced, tied into a cycle and dropped within one batch. -/
def dropCycle : List GCMessage :=
  [⟨.rootAdd, kNullHandle, ⟨0, 1⟩, 1⟩, ⟨.rootAdd, kNullHandle, ⟨1, 1⟩, 1⟩,
    ⟨.edgeAdd, ⟨0, 1⟩, ⟨1, 1⟩, 1⟩, ⟨.edgeAdd, ⟨1, 1⟩, ⟨0, 1⟩, 1⟩,
    ⟨.rootRemove, kNullHandle, ⟨0, 1⟩, 1⟩, ⟨.rootRemove, kNullHandle, ⟨1, 1⟩, 1⟩]

theorem twoCells_ready : twoCells.Ready := by
  have h0 := CellPool.init_sound 2 .shared
  refine Ready.alloc (Ready.alloc (init_ready 2 .shared kNoOwnerToken) h0 (i := 0) (h := ⟨0, 1⟩)
    (o := kNoOwnerToken) (r := .shared) rfl) (h0.activate kNoOwnerToken .shared) (i := 1)
    (h := ⟨1, 1⟩) (o := kNoOwnerToken) (r := .shared) rfl

theorem staged_dropCycle : Staged dropCycle where
  length_le := by decide
  no_check := by decide
  slot m hm _ := by
    have : ∀ m ∈ dropCycle, m.b.index < kNullIndex ∧ m.b.gen ≤ kGenMax := by decide
    exact this m hm
  count_one := by decide

/-- Backedness is decided prefix by prefix. -/
theorem backed_of_forall {p : CellPool} {t : RefTable}
    (h : ∀ k < ms.length, ∀ m ∈ ms[k]?, m.op = .rootRemove → p.valid m.b = true →
      (m.count : ℤ) ≤ (t.replay p (ms.take k)).root m.b.index) : t.Backed p ms := by
  rintro pre m post rfl hop hv
  have := h pre.length (by simp) m (by simp) hop hv
  rwa [List.take_left'] at this
  rfl

theorem backed_dropCycle : twoCells.tab.Backed twoCells.pool dropCycle :=
  backed_of_forall (by decide +kernel)

end Fold

end AarcEngine

end Loxis.Aarc
