import Loxis.Aarc.TableSound
import Loxis.Aarc.LinkedTable

/-! # Operations on the adjacency lists

Adding, removing and clearing edges keeps the lists linked, and does to the records they hold what
the table does with its own.
-/

namespace Loxis.Aarc

open Function

namespace LinkedTable

variable {t u : LinkedTable} {s : RefTable} {O I : ℕ → List EdgeId} {F : List EdgeId} {i : ℕ}
  {x y : EdgeId} {a b : ObjHandle}

section Sorted

variable {L : ℕ → List EdgeId} {live live' : EdgeId → Bool} {f g : EdgeId → ℕ}
  {r r' : EdgeId → EdgeRec}

/-- Pushing a new live record on the list of its key keeps the lists sorted by key. -/
theorem mem_push (hL : ∀ i y, y ∈ L i ↔ live y = true ∧ f y = i)
    (hlive : ∀ y, live' y = true ↔ y = x ∨ live y = true) (hdead : live x = false)
    (hf : ∀ y, y ≠ x → g y = f y) (i : ℕ) (y : EdgeId) :
    y ∈ update L (g x) (x :: L (g x)) i ↔ live' y = true ∧ g y = i := by
  rw [hlive, update_apply]
  by_cases hy : y = x
  · subst hy
    split
    · next hi => simp [hi]
    · next hi => simpa [hL, hdead] using Ne.symm hi
  · rw [hf y hy]
    simp only [hy, false_or]
    rw [← hL]
    split
    · next hi => simp [hi, hy]
    · exact Iff.rfl

/-- Erasing a record from the list of its key keeps the lists sorted by key. -/
theorem mem_erase (hnd : (L (f x)).Nodup) (hL : ∀ i y, y ∈ L i ↔ live y = true ∧ f y = i)
    (hlive : ∀ y, live' y = true ↔ y ≠ x ∧ live y = true) (i : ℕ) (y : EdgeId) :
    y ∈ update L (f x) ((L (f x)).erase x) i ↔ live' y = true ∧ f y = i := by
  rw [hlive, update_apply, and_assoc, ← hL]
  split
  · next hi => rw [hnd.mem_erase_iff, hi]
  · next hi =>
    refine ⟨fun hy => ⟨?_, hy⟩, And.right⟩
    rintro rfl
    exact hi ((hL i y).mp hy).2.symm

/-- What a push does to the records of the lists. -/
theorem map_push (hx : ∀ i, x ∉ L i) (hr : ∀ y, y ≠ x → r' y = r y) (i j : ℕ) :
    (update L i (x :: L i) j).map r' =
      if j = i then r' x :: (L i).map r else (L j).map r := by
  have hmap : ∀ i, (L i).map r' = (L i).map r := by
    refine fun i => List.map_congr_left fun y hy => hr y ?_
    rintro rfl
    exact hx i hy
  rw [update_apply]
  split
  · rw [List.map_cons, hmap]
  · exact hmap j

end Sorted

section Allocate

/-- A new edge gets a record that is in no list, and the free list stays exact. -/
theorem Adjacency.allocateEdge (h : t.Adjacency O I F) (ha : t.allocateEdge = some (x, u)) :
    ∃ head n F',
      u = { t.fresh x with freeHead := head, nextId := n, liveEdges := t.liveEdges + 1 } ∧
      x ≠ kNoEdge ∧ t.live x = false ∧ x < n ∧ t.nextId ≤ n ∧ n ≤ kNoEdge ∧
      Chain (update t.nextFree x kNoEdge) kNoEdge head F' ∧
      ∀ y, y ∈ F' ↔ y < n ∧ t.live y = false ∧ y ≠ x := by
  unfold LinkedTable.allocateEdge popFree at ha
  have hfree := h.free
  by_cases h0 : t.freeHead = kNoEdge
  · rw [if_pos h0] at ha
    simp only [if_true] at ha
    split at ha
    · exact absurd ha (by simp)
    · next hn =>
      obtain ⟨rfl, rfl⟩ := Prod.mk.inj (Option.some.inj ha)
      have hF : F = [] := by
        rw [h0] at hfree
        exact hfree.eq .nil
      have hdead : ∀ y, y < t.nextId → t.live y = true := by
        intro y hy
        by_contra hl
        have := (h.mem_free y).mpr ⟨hy, by simpa using hl⟩
        rw [hF] at this
        exact List.not_mem_nil this
      have hle := h.nextId_le
      refine ⟨kNoEdge, t.nextId + 1, [], by rw [← h0]; rfl, hn, ?_, Nat.lt_succ_self _,
        Nat.le_succ _, Nat.lt_of_le_of_ne h.nextId_le hn, .nil, fun y => ?_⟩
      · exact Bool.eq_false_iff.mpr fun hl => Nat.lt_irrefl _ (h.live_lt _ hl)
      · refine ⟨fun hy => absurd hy List.not_mem_nil, ?_⟩
        rintro ⟨hy, hl, hne⟩
        rw [hdead y (Nat.lt_of_le_of_ne (Nat.le_of_lt_succ hy) hne)] at hl
        exact Bool.noConfusion hl
  · rw [if_neg h0] at ha
    simp only [if_neg h0] at ha
    obtain ⟨rfl, rfl⟩ := Prod.mk.inj (Option.some.inj ha)
    cases F with
    | nil => exact absurd (Chain.nil_iff.mp hfree) h0
    | cons y F =>
      have hnd := hfree.nodup
      obtain ⟨rfl, -, htail⟩ := Chain.cons_iff.mp hfree
      obtain ⟨hy, hnd⟩ := List.nodup_cons.mp hnd
      obtain ⟨hlt, hdead⟩ := (h.mem_free _).mp List.mem_cons_self
      refine ⟨t.nextFree t.freeHead, t.nextId, F, rfl, h0, hdead, hlt, le_rfl, h.nextId_le,
        htail.congr fun z hz => update_of_ne ?_ _ _, fun z => ?_⟩
      · rintro rfl
        exact hy hz
      · have hz := h.mem_free z
        rw [List.mem_cons] at hz
        constructor
        · intro hm
          obtain ⟨h1, h2⟩ := hz.mp (Or.inr hm)
          refine ⟨h1, h2, ?_⟩
          rintro rfl
          exact hy hm
        · rintro ⟨h1, h2, hne⟩
          exact (hz.mpr ⟨h1, h2⟩).resolve_left hne

/-- Adding an edge puts its record in front of two lists. -/
theorem Represents.addOut (h : t.Represents s O I F) (ha : t.addOut a b = some u) :
    ∃ O' I' F', u.Represents (s.addOut a b) O' I' F' := by
  obtain ⟨⟨x, v⟩, hv, rfl⟩ := Option.map_eq_some_iff.mp ha
  obtain ⟨head, n, F', rfl, hx, hdead, hxn, hn, hle, hfree, hF'⟩ := h.toAdjacency.allocateEdge hv
  have hnot := h.toAdjacency.notMem_of_dead hdead
  have hlive : ∀ y, update (update t.live x false) x true y = true ↔ y = x ∨ t.live y = true := by
    intro y
    rw [update_idem, update_apply]
    split
    · next hy => simp [hy]
    · next hy => simp [hy]
  have hrec : ∀ y, y ≠ x → update (update t.record x ⟨kNullHandle, kNullHandle⟩) x ⟨a, b⟩ y =
      t.record y := fun y hy => by rw [update_of_ne hy, update_of_ne hy]
  have hrx : update (update t.record x ⟨kNullHandle, kNullHandle⟩) x ⟨a, b⟩ x = ⟨a, b⟩ :=
    update_self ..
  refine ⟨update O a.index (x :: O a.index), update I b.index (x :: I b.index), F', ?_⟩
  refine
    { out := (h.out.reset fun i => (hnot i).1).push (fun i => (hnot i).1) hx (update_self ..) _
      inc := (h.inc.reset fun i => (hnot i).2).push (fun i => (hnot i).2) hx (update_self ..) _
      mem_out := fun i y => ?_, mem_inc := fun i y => ?_, live_lt := fun y hy => ?_
      nextId_le := hle, free := hfree, mem_free := fun y => ?_
      liveEdges_eq := ?_, root := h.root, edge := h.edge, outRecs := fun i => ?_
      inRecs := fun i => ?_ }
  · have := mem_push (g := fun y => (update (update t.record x ⟨kNullHandle, kNullHandle⟩) x
      ⟨a, b⟩ y).src.index) h.mem_out hlive hdead (fun y hy => by rw [hrec y hy]) i y
    simp only [hrx] at this
    exact this
  · have := mem_push (g := fun y => (update (update t.record x ⟨kNullHandle, kNullHandle⟩) x
      ⟨a, b⟩ y).dst.index) h.mem_inc hlive hdead (fun y hy => by rw [hrec y hy]) i y
    simp only [hrx] at this
    exact this
  · rcases (hlive y).mp hy with rfl | hy
    · exact hxn
    · exact (h.live_lt y hy).trans_le hn
  · have hl := (hlive y).not
    rw [hF', and_comm (a := t.live y = false), ← Bool.not_eq_true, ← not_or, ← hl,
      Bool.not_eq_true]
    rfl
  · rw [h.liveEdges_eq]
    refine (card_live hdead h.live_lt (fun y hy => ?_) hlive).symm
    rcases (hlive y).mp hy with rfl | hy
    · exact hxn
    · exact (h.live_lt y hy).trans_le hn
  · refine Eq.trans ?_ (map_push (fun i => (hnot i).1) hrec a.index i).symm
    rw [hrx]
    simp only [RefTable.addOut, update_apply, h.outRecs]
  · refine List.Perm.trans ?_ (List.Perm.of_eq (map_push (fun i => (hnot i).2) hrec b.index i).symm)
    rw [hrx]
    simp only [RefTable.addOut, update_apply]
    split
    · exact (h.inRecs _).cons _
    · exact h.inRecs i

end Allocate

section Unlink

/-- Taking out one of several elements that map alike takes out one of their images. -/
theorem perm_map_erase {α β : Type*} [DecidableEq α] [DecidableEq β] {l : List α} {z : α}
    (f : α → β) (hz : z ∈ l) : ((l.map f).erase (f z)).Perm ((l.erase z).map f) := by
  have h := ((List.perm_cons_erase hz).map f).erase (f z)
  rwa [List.map_cons, List.erase_cons_head] at h

/-- Unlinking the first record of an edge in its out-list removes the edge. -/
theorem Represents.unlink (h : t.Represents s O I F) (hx : t.live x = true) {l m : List EdgeId}
    (hO : O (t.record x).src.index = l ++ x :: m)
    (hl : ∀ y ∈ l, t.record y ≠ t.record x) :
    (t.unlink x).Represents (s.unlink (t.record x))
      (update O (t.record x).src.index ((O (t.record x).src.index).erase x))
      (update I (t.record x).dst.index ((I (t.record x).dst.index).erase x)) (x :: F) := by
  have hxO : x ∈ O (t.record x).src.index := (h.mem_out _ x).mpr ⟨hx, rfl⟩
  have hxI : x ∈ I (t.record x).dst.index := (h.mem_inc _ x).mpr ⟨hx, rfl⟩
  have hxF : x ∉ F := fun hm => by
    rw [((h.mem_free x).mp hm).2] at hx
    exact Bool.noConfusion hx
  have hlive : ∀ y, update t.live x false y = true ↔ y ≠ x ∧ t.live y = true := by
    intro y
    rw [update_apply]
    split
    · next hy => simp [hy]
    · next hy => simp [hy]
  have hxl : x ∉ l := fun hm => hl x hm rfl
  unfold LinkedTable.unlink
  rw [if_neg (by simp [hx])]
  refine
    { out := h.out.unlink hxO, inc := h.inc.unlink hxI
      mem_out := mem_erase (f := fun y => (t.record y).src.index) (h.out.nodup _) h.mem_out hlive
      mem_inc := mem_erase (f := fun y => (t.record y).dst.index) (h.inc.nodup _) h.mem_inc hlive
      live_lt := fun y hy => h.live_lt y ((hlive y).mp hy).2, nextId_le := h.nextId_le
      free := h.free.push hxF (h.ne_noEdge hx), mem_free := fun y => ?_, liveEdges_eq := ?_
      root := h.root, edge := h.edge, outRecs := fun i => ?_, inRecs := fun i => ?_ }
  · have hl := (hlive y).not
    rw [Bool.not_eq_true, not_and_or, not_not, Bool.not_eq_true] at hl
    rw [show (pushFree _ x).live y = update t.live x false y from rfl, hl, List.mem_cons,
      h.mem_free]
    refine ⟨?_, ?_⟩
    · rintro (rfl | ⟨hy, hd⟩)
      · exact ⟨h.live_lt y hx, Or.inl rfl⟩
      · exact ⟨hy, Or.inr hd⟩
    · rintro ⟨hy, rfl | hd⟩
      · exact Or.inl rfl
      · exact Or.inr ⟨hy, hd⟩
  · have hcard := card_live (x := x) (f := update t.live x false) (g := t.live)
      (update_self ..) (fun y hy => h.live_lt y ((hlive y).mp hy).2) h.live_lt fun y => by
        rw [hlive]
        refine ⟨fun hy => or_iff_not_imp_left.mpr fun hne => ⟨hne, hy⟩, ?_⟩
        rintro (rfl | ⟨-, hy⟩)
        · exact hx
        · exact hy
    refine Nat.sub_eq_of_eq_add ?_
    rw [h.liveEdges_eq, hcard]
    rfl
  · simp only [RefTable.unlink, update_apply]
    split
    · rw [h.outRecs, hO, List.erase_append_right _ hxl, List.erase_cons_head, List.map_append,
        List.map_cons, List.erase_append_right _ (fun hm => ?_), List.erase_cons_head,
        ← List.map_append]
      · rfl
      · obtain ⟨y, hy, hr⟩ := List.mem_map.mp hm
        exact hl y hy hr
    · exact h.outRecs i
  · simp only [RefTable.unlink, update_apply]
    split
    · exact ((h.inRecs _).erase _).trans (perm_map_erase t.record hxI)
    · exact h.inRecs i

theorem findOut_eq {n : ℕ} {l : List EdgeId} (hl : Chain t.out.next kNoEdge x l)
    (hn : l.length ≤ n) :
    t.findOut a b n x = l.find? fun y => decide (t.record y = ⟨a, b⟩) := by
  induction n generalizing x l with
  | zero => rw [List.eq_nil_of_length_eq_zero (Nat.le_zero.mp hn), findOut, List.find?_nil]
  | succ n ih =>
    cases hl with
    | nil => rw [findOut, if_pos rfl, List.find?_nil]
    | @cons _ l hx hl =>
      rw [findOut, if_neg hx]
      split
      · next hr => rw [List.find?_cons_of_pos (by simpa using hr)]
      · next hr =>
        rw [List.find?_cons_of_neg (by simpa using hr), ih hl (Nat.le_of_succ_le_succ hn)]

/-- The removal of an edge finds a record if and only if there is one, and unlinks it. -/
theorem Represents.removeOut (h : t.Represents s O I F) (a b : ObjHandle) :
    (t.removeOut a b).2 = (s.removeOut a b).2 ∧
      ∃ O' I' F', (t.removeOut a b).1.Represents (s.removeOut a b).1 O' I' F' := by
  have hfind := findOut_eq (a := a) (b := b) (h.out.chain a.index) (h.length_le a.index)
  unfold LinkedTable.removeOut RefTable.removeOut
  rw [hfind]
  cases hx : (O a.index).find? fun y => decide (t.record y = ⟨a, b⟩) with
  | none =>
    have hm : ⟨a, b⟩ ∉ s.outRecs a.index := by
      rw [h.outRecs, List.mem_map]
      rintro ⟨y, hy, hr⟩
      exact List.find?_eq_none.mp hx y hy (by simpa using hr)
    rw [if_neg hm]
    exact ⟨rfl, O, I, F, h⟩
  | some x =>
    obtain ⟨hr, l, m, hO, hl⟩ := List.find?_eq_some_iff_append.mp hx
    have hr : t.record x = ⟨a, b⟩ := by simpa using hr
    have hxO : x ∈ O a.index := by
      rw [hO]
      exact List.mem_append_right _ List.mem_cons_self
    have hm : ⟨a, b⟩ ∈ s.outRecs a.index := by
      rw [h.outRecs, ← hr]
      exact List.mem_map_of_mem hxO
    rw [if_pos hm]
    refine ⟨rfl, _, _, _, hr ▸ h.unlink ((h.mem_out _ x).mp hxO).1 (l := l) (m := m) ?_
      fun y hy => ?_⟩
    · rw [hr, hO]
    · have := hl y hy
      rw [hr]
      simpa using this

/-- Clearing an out-list unlinks its records from the first to the last. -/
theorem Represents.clearFrom {n : ℕ} (h : t.Represents s O I F) (hn : (O i).length ≤ n) :
    ∃ I' F', (clearFrom n (t.out.head i) t).Represents ((s.outRecs i).foldl RefTable.unlink s)
      (update O i []) I' F' := by
  induction n generalizing t s O I F with
  | zero =>
    have hO := List.eq_nil_of_length_eq_zero (Nat.le_zero.mp hn)
    rw [h.outRecs, hO, LinkedTable.clearFrom, List.map_nil, List.foldl_nil, ← hO, update_eq_self]
    exact ⟨I, F, h⟩
  | succ n ih =>
    have hchain := h.out.chain i
    cases hO : O i with
    | nil =>
      rw [hO, Chain.nil_iff] at hchain
      rw [h.outRecs, hO, LinkedTable.clearFrom, if_pos hchain, List.map_nil, List.foldl_nil, ← hO,
        update_eq_self]
      exact ⟨I, F, h⟩
    | cons x m =>
      rw [hO] at hchain hn
      obtain ⟨hhead, hx, htail⟩ := Chain.cons_iff.mp hchain
      have hxO : x ∈ O i := by
        rw [hO]
        exact List.mem_cons_self
      obtain ⟨hl, hsrc⟩ := (h.mem_out i x).mp hxO
      have h1 := h.unlink hl (l := []) (m := m) (by rw [hsrc, hO]; rfl)
        fun y hy => absurd hy List.not_mem_nil
      rw [hsrc, hO, List.erase_cons_head] at h1
      have hm : update O i m i = m := update_self ..
      have hnext : (t.unlink x).out.head i = t.out.next x := by
        have h2 := h1.out.chain i
        rw [hm] at h2
        exact h2.head_eq htail
      obtain ⟨I', F', h3⟩ := ih h1 (by rw [hm]; exact Nat.le_of_succ_le_succ hn)
      rw [LinkedTable.clearFrom, hhead, if_neg hx, ← hnext]
      rw [update_idem] at h3
      refine ⟨I', F', ?_⟩
      rw [h.outRecs, hO, List.map_cons, List.foldl_cons]
      rw [h1.outRecs, hm] at h3
      have hrec : (t.unlink x).record = t.record := by
        unfold LinkedTable.unlink
        split <;> rfl
      rw [hrec] at h3
      exact h3

theorem Represents.clearOuts (h : t.Represents s O I F) (i : ℕ) :
    ∃ I' F', (t.clearOuts i).Represents (s.clearOuts i) (update O i []) I' F' :=
  h.clearFrom (h.length_le i)

/-- The row of a slot is reset once no list refers to it any more. -/
theorem Represents.resetSlot (h : t.Represents s O I F) (hin : (s.clearOuts i).inRecs i = []) :
    ∃ O' I' F', (t.resetSlot i).Represents (s.resetSlot i) O' I' F' := by
  obtain ⟨I', F', hc⟩ := h.clearOuts i
  have hO : update O i [] i = [] := update_self ..
  have hI : I' i = [] := by
    have := hc.inRecs i
    rw [hin] at this
    exact List.map_eq_nil_iff.mp this.nil_eq.symm
  have hdef : t.resetSlot i = { t.clearOuts i with
      root := update (t.clearOuts i).root i 0, edge := update (t.clearOuts i).edge i 0 } := by
    change { t.clearOuts i with
      root := update (t.clearOuts i).root i 0, edge := update (t.clearOuts i).edge i 0
      out := (t.clearOuts i).out.clear kNoEdge i, inc := (t.clearOuts i).inc.clear kNoEdge i } = _
    rw [hc.out.clear hO, hc.inc.clear hI]
  refine ⟨update O i [], I', F', ?_⟩
  rw [hdef]
  refine
    { hc with root := ?_, edge := ?_, outRecs := fun j => ?_, inRecs := fun j => ?_ }
  · change update (t.clearOuts i).root i 0 = _
    rw [hc.root]
    rfl
  · change update (t.clearOuts i).edge i 0 = _
    rw [hc.edge]
    rfl
  · change update (s.clearOuts i).outRecs i [] j = _
    rw [update_apply]
    split
    · next hj => rw [hj, hO]; rfl
    · exact hc.outRecs j
  · change (update (s.clearOuts i).inRecs i [] j).Perm _
    rw [update_apply]
    split
    · next hj => rw [hj, hI]; exact List.Perm.refl _
    · exact hc.inRecs j

end Unlink

end LinkedTable

end Loxis.Aarc
