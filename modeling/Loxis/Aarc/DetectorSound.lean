import Loxis.Aarc.Engine
import Loxis.Aarc.Detector

/-! # The components a detector finds

A turn of the detector passes over a stale edge or is a turn of the search over the edges with
valid targets. Every call therefore finds the components of the cells that its roots reach, and
leaves the scratch arrays to be cleared for the next one.
-/

namespace Loxis.Aarc

open Function

namespace CycleDetector

variable {P : Type*} {d d' : CycleDetector P} {t : OutTable P} {w : EdgeWalk P} {pool : CellPool}
  {F G : List (ℕ × List ObjHandle)} {fs : List (ℕ × P)} {u : ℕ} {p : P} {l : List ObjHandle}

/-! ## Turns -/

/-- A frame has the targets of a list ahead. -/
def Frame (w : EdgeWalk P) (f : ℕ × P) (g : ℕ × List ObjHandle) : Prop :=
  f.1 = g.1 ∧ w.Meets f.1 f.2 g.2

/-- The frames have the lists of `F` ahead. Only the frame on top may wait for its number. -/
inductive Ahead (w : EdgeWalk P) (disc : ℕ → ℕ) :
    List (ℕ × P) → List (ℕ × List ObjHandle) → Prop
  | nil : Ahead w disc [] []
  | cons {u : ℕ} {p : P} {l : List ObjHandle} {fs : List (ℕ × P)}
      {F : List (ℕ × List ObjHandle)} : (disc u ≠ 0 → w.Meets u p l) →
      List.Forall₂ (Frame w) fs F → Ahead w disc ((u, p) :: fs) ((u, l) :: F)

theorem Ahead.of_frames {disc : ℕ → ℕ} (h : List.Forall₂ (Frame w) fs F) : Ahead w disc fs F := by
  cases h with
  | nil => exact .nil
  | @cons f g fs F hfg hrest =>
    obtain ⟨u, p⟩ := f
    obtain ⟨v, l⟩ := g
    obtain ⟨rfl, hm⟩ : u = v ∧ w.Meets u p l := hfg
    exact .cons (fun _ => hm) hrest

/-- The turns that the frames are good for. -/
def weight (F : List (ℕ × List ObjHandle)) : ℕ := 2 * (F.map fun f => f.2.length).sum + F.length

@[simp] theorem weight_nil : weight [] = 0 := rfl

@[simp] theorem weight_cons {f : ℕ × List ObjHandle} :
    weight (f :: F) = 2 * f.2.length + 1 + weight F := by
  simp only [weight, List.map_cons, List.sum_cons, List.length_cons]
  omega

@[simp] theorem disc_foldLow : (d.foldLow u).disc = d.disc := by
  rw [foldLow]
  split
  · rfl
  · split <;> rfl

@[simp] theorem frames_foldLow : (d.foldLow u).frames = d.frames := by
  rw [foldLow]
  split
  · rfl
  · split <;> rfl

@[simp] theorem disc_finishNode : (d.finishNode u fs).disc = d.disc := by
  rw [finishNode, disc_foldLow]
  split <;> rfl

@[simp] theorem frames_finishNode : (d.finishNode u fs).frames = fs := by
  rw [finishNode, frames_foldLow]
  split <;> rfl

theorem state_foldLow (h : List.Forall₂ (Frame w) d.frames F) :
    (d.foldLow u).state pool F = Tarjan.foldLow u (d.state pool F) := by
  rw [foldLow, Tarjan.foldLow]
  generalize hfs : d.frames = fs at h
  cases h with
  | nil => rfl
  | @cons f g fs F hfg =>
    have hu : f.1 = g.1 := hfg.1
    simp only [state, List.map_cons, hu]
    split <;> rfl

/-- Leaving a slot is what the library does. -/
theorem state_finishNode (h : List.Forall₂ (Frame w) fs F) :
    (d.finishNode u fs).state pool F =
      Tarjan.finishNode u (F.map fun f => (f.1, targets pool f.2)) (d.state pool G) := by
  have hframes : (if d.low u = d.disc u then ({ d with frames := fs } : CycleDetector P).close u
      else { d with frames := fs }).frames = fs := by
    split <;> rfl
  rw [finishNode, Tarjan.finishNode]
  dsimp only
  rw [state_foldLow (w := w) (by rwa [hframes])]
  congr 1
  change _ = if d.low u = d.disc u then _ else _
  split <;> rfl

@[simp] theorem targets_nil : targets pool [] = [] := rfl

theorem targets_cons_valid {h : ObjHandle} (hv : pool.valid h = true) :
    targets pool (h :: l) = h.index :: targets pool l := by
  rw [targets, List.filter_cons_of_pos hv]
  rfl

theorem targets_cons_stale {h : ObjHandle} (hv : pool.valid h = false) :
    targets pool (h :: l) = targets pool l := by
  rw [targets, List.filter_cons_of_neg (by simp [hv])]
  rfl

/-- The slots of the frames are slots of the pool. -/
def Below (pool : CellPool) (F : List (ℕ × List ObjHandle)) : Prop :=
  ∀ f ∈ F, f.1 < pool.capacity

theorem lt_of_valid {h : ObjHandle} (hv : pool.valid h = true) : h.index < pool.capacity :=
  (CellPool.isLiveAt_iff.mp (CellPool.valid_iff.mp hv).1).1

/-- What a frame on top does: it passes over a stale edge, or does what the library does with the
valid targets. -/
theorem look_spec (hm : w.Meets u p l) (hfs : List.Forall₂ (Frame w) fs F)
    (hb : Below pool ((u, l) :: F)) :
    (∃ q l', d.look w pool u p fs = { d with frames := (u, q) :: fs } ∧ w.Meets u q l' ∧
      targets pool l' = targets pool l ∧ l'.length < l.length) ∨
    ∃ G, Ahead w (d.look w pool u p fs).disc (d.look w pool u p fs).frames G ∧ Below pool G ∧
      (d.look w pool u p fs).disc = d.disc ∧ weight G < weight ((u, l) :: F) ∧
      (d.look w pool u p fs).state pool G =
        Tarjan.advance u (F.map fun f => (f.1, targets pool f.2)) (d.state pool F)
          (targets pool l) := by
  rw [look]
  cases hm with
  | done hn =>
    rw [hn]
    refine .inr ⟨F, ?_, fun f hf => hb f (List.mem_cons_of_mem _ hf), disc_finishNode, ?_, ?_⟩
    · rw [frames_finishNode]
      exact .of_frames hfs
    · simp
    · exact state_finishNode hfs
  | @edge _ q h l hn hrest =>
    rw [hn]
    dsimp only
    by_cases hv : pool.valid h = true
    · right
      rw [if_neg (by simp [hv]), targets_cons_valid hv, Tarjan.advance, Tarjan.scanEdge]
      have hb' : Below pool ((u, l) :: F) := by
        rintro f hf
        obtain rfl | hf := List.mem_cons.mp hf
        · exact hb (u, h :: l) List.mem_cons_self
        · exact hb f (List.mem_cons_of_mem _ hf)
      have htop : List.Forall₂ (Frame w) ((u, q) :: fs) ((u, l) :: F) := .cons ⟨rfl, hrest⟩ hfs
      change ∃ G, _ ∧ _ ∧ _ ∧ _ ∧ _ = if d.disc h.index = 0 then _ else
        if d.onStack h.index = true ∧ d.disc h.index < d.low u then _ else _
      by_cases hnew : d.disc h.index = 0
      · simp only [if_pos hnew]
        refine ⟨(h.index, []) :: (u, l) :: F, .cons (absurd hnew) htop, ?_, trivial, by simp; omega, rfl⟩
        intro f hf
        obtain rfl | hf := List.mem_cons.mp hf
        · exact lt_of_valid hv
        · exact hb' f hf
      · simp only [if_neg hnew]
        refine ⟨(u, l) :: F, ?_, hb', ?_, by simp, ?_⟩
        · split <;> exact .of_frames htop
        · split <;> rfl
        · split <;> rfl
    · have hv : pool.valid h = false := by simpa using hv
      rw [if_pos hv]
      exact .inl ⟨q, l, rfl, hrest, (targets_cons_stale hv).symm, Nat.lt_succ_self _⟩

/-! ## A search -/

/-- The slots behind the edges of a slot that have valid targets. -/
def succ (t : OutTable P) (pool : CellPool) (u : ℕ) : List ℕ := targets pool (t.outs u)

/-- The turns that are left. -/
def work (t : OutTable P) (pool : CellPool) (F : List (ℕ × List ObjHandle))
    (d : CycleDetector P) : ℕ :=
  2 * ∑ v ∈ Finset.range pool.capacity with d.disc v = 0, (t.outs v).length + weight F

theorem work_number (hu : d.disc u = 0) (hlt : u < pool.capacity) :
    work t pool ((u, t.outs u) :: F) (d.number u) = work t pool ((u, []) :: F) d := by
  have hset : (Finset.range pool.capacity).filter ((d.number u).disc · = 0) =
      ((Finset.range pool.capacity).filter (d.disc · = 0)).erase u := by
    ext x
    simp only [number, Finset.mem_filter, Finset.mem_erase, update_apply]
    by_cases hx : x = u <;> simp [hx]
  have hmem : u ∈ (Finset.range pool.capacity).filter (d.disc · = 0) :=
    Finset.mem_filter.mpr ⟨Finset.mem_range.mpr hlt, hu⟩
  have hsum := Finset.add_sum_erase _ (fun x => (t.outs x).length) hmem
  rw [work, work, hset, weight_cons, weight_cons, List.length_nil]
  dsimp only at hsum ⊢
  omega

theorem weight_le {l' : List ObjHandle} (h : l'.length < l.length) :
    weight ((u, l') :: F) < weight ((u, l) :: F) := by
  rw [weight_cons, weight_cons]
  dsimp only
  omega

theorem advance_frames {g : List (ℕ × List ℕ)} (s : Tarjan.State ℕ) (f : List (ℕ × List ℕ))
    (r : List ℕ) : Tarjan.advance u f { s with frames := g } r = Tarjan.advance u f s r := by
  cases r <;> rfl

/-- The turn of the library on a frame that is numbered. -/
theorem body_numbered (hd : d.disc u ≠ 0) :
    Tarjan.body (succ t pool) (d.state pool ((u, l) :: F)) =
      (Tarjan.advance u (F.map fun f => (f.1, targets pool f.2)) (d.state pool F) (targets pool l),
        true) := by
  rw [← advance_frames (g := ((u, l) :: F).map fun f => (f.1, targets pool f.2))]
  exact if_neg hd

/-- The turn of the library on a frame that waits for its number. -/
theorem body_pending (hd : d.disc u = 0) :
    Tarjan.body (succ t pool) (d.state pool ((u, l) :: F)) =
      (Tarjan.advance u (F.map fun f => (f.1, targets pool f.2)) ((d.number u).state pool F)
        (succ t pool u), true) := by
  rw [← advance_frames (g := (u, succ t pool u) :: F.map fun f => (f.1, targets pool f.2))]
  exact if_pos hd

theorem look_turn (hm : t.Meets u p l) (hd : d.disc u ≠ 0)
    (hfs : List.Forall₂ (Frame t.toEdgeWalk) fs F) (hb : Below pool ((u, l) :: F)) :
    ∃ G, Ahead t.toEdgeWalk (d.look t.toEdgeWalk pool u p fs).disc
        (d.look t.toEdgeWalk pool u p fs).frames G ∧ Below pool G ∧
      work t pool G (d.look t.toEdgeWalk pool u p fs) < work t pool ((u, l) :: F) d ∧
      ((d.look t.toEdgeWalk pool u p fs).state pool G =
          Tarjan.advance u (F.map fun f => (f.1, targets pool f.2)) (d.state pool F)
            (targets pool l) ∨
        Tarjan.body (succ t pool) ((d.look t.toEdgeWalk pool u p fs).state pool G) =
          (Tarjan.advance u (F.map fun f => (f.1, targets pool f.2)) (d.state pool F)
            (targets pool l), true)) := by
  obtain ⟨q, l', heq, hm', htargets, hlt⟩ | ⟨G, ha, hb', hdisc, hlt, hstate⟩ :=
    look_spec (d := d) hm hfs hb
  · rw [heq]
    refine ⟨(u, l') :: F, .of_frames (.cons ⟨rfl, hm'⟩ hfs), ?_, ?_, .inr ?_⟩
    · rintro f hf
      obtain rfl | hf := List.mem_cons.mp hf
      · exact hb (u, l) List.mem_cons_self
      · exact hb f (List.mem_cons_of_mem _ hf)
    · exact Nat.add_lt_add_left (weight_le hlt) _
    · rw [← htargets]
      exact body_numbered (d := { d with frames := (u, q) :: fs }) hd
  · refine ⟨G, ha, hb', ?_, .inl hstate⟩
    rw [work, work, hdisc]
    exact Nat.add_lt_add_left hlt _

/-- A turn is a turn of the library, or leaves the turn of the library as it is. -/
theorem turn_spec (ha : Ahead t.toEdgeWalk d.disc d.frames F) (hb : Below pool F)
    (hne : d.frames ≠ []) :
    (d.turn t.toEdgeWalk pool).2 = true ∧
    (Tarjan.body (succ t pool) (d.state pool F)).2 = true ∧
    ∃ G, Ahead t.toEdgeWalk (d.turn t.toEdgeWalk pool).1.disc
        (d.turn t.toEdgeWalk pool).1.frames G ∧ Below pool G ∧
      work t pool G (d.turn t.toEdgeWalk pool).1 < work t pool F d ∧
      ((d.turn t.toEdgeWalk pool).1.state pool G =
          (Tarjan.body (succ t pool) (d.state pool F)).1 ∨
        Tarjan.body (succ t pool) ((d.turn t.toEdgeWalk pool).1.state pool G) =
          Tarjan.body (succ t pool) (d.state pool F)) := by
  rw [turn]
  generalize hfs : d.frames = fs at ha hne
  cases ha with
  | nil => exact absurd rfl hne
  | @cons u p l fs F hm hrest =>
    by_cases hd : d.disc u = 0
    · simp only [if_pos hd]
      rw [body_pending hd]
      refine ⟨trivial, rfl, ?_⟩
      have hu : u < pool.capacity := hb (u, l) List.mem_cons_self
      have hb' : Below pool ((u, t.outs u) :: F) := by
        rintro f hf
        obtain rfl | hf := List.mem_cons.mp hf
        · exact hu
        · exact hb f (List.mem_cons_of_mem _ hf)
      obtain ⟨G, ha, hbG, hlt, hcases⟩ :=
        look_turn (d := d.number u) (t.meets u) (by simp [number]) hrest hb'
      refine ⟨G, ha, hbG, hlt.trans_le ?_, hcases⟩
      rw [work_number hd hu, work, work, weight_cons, weight_cons, List.length_nil]
      omega
    · simp only [if_neg hd]
      rw [body_numbered hd]
      exact ⟨trivial, rfl, look_turn (hm hd) hd hrest hb⟩

/-- A search that the library finishes ends as the search of the library. -/
theorem loop_spec {n m : ℕ} (ha : Ahead t.toEdgeWalk d.disc d.frames F) (hb : Below pool F)
    (hn : work t pool F d < n)
    (hm : (iterUntil (Tarjan.body (succ t pool)) m (d.state pool F)).frames = []) :
    (iterUntil (turn · t.toEdgeWalk pool) n d).frames = [] ∧
      (iterUntil (turn · t.toEdgeWalk pool) n d).state pool [] =
        iterUntil (Tarjan.body (succ t pool)) m (d.state pool F) := by
  induction n generalizing d F m with
  | zero => cases hn
  | succ n ih =>
    rw [iterUntil]
    by_cases hne : d.frames = []
    · have hturn : d.turn t.toEdgeWalk pool = (d, false) := by rw [turn, hne]
      rw [hturn, if_neg Bool.false_ne_true]
      rw [hne] at ha
      cases ha
      refine ⟨hne, ?_⟩
      cases m with
      | zero => rfl
      | succ m => rfl
    · obtain ⟨h₁, h₂, G, ha', hb', hlt, hcases⟩ := turn_spec ha hb hne
      rw [if_pos h₁]
      cases m with
      | zero =>
        have hnil : F = [] := by simpa [iterUntil, state] using hm
        subst hnil
        generalize d.frames = fs at ha hne
        cases ha
        exact absurd rfl hne
      | succ m =>
        rw [iterUntil, if_pos h₂] at hm ⊢
        obtain hstate | hbody := hcases
        · rw [← hstate] at hm ⊢
          exact ih ha' hb' (by omega) hm
        · rw [← hbody] at hm h₂ ⊢
          have hrun := ih (m := m + 1) ha' hb' (by omega)
          rw [iterUntil, if_pos h₂] at hrun
          exact hrun hm

/-! ## The roots -/

theorem succ_lt : ∀ v ∈ Finset.range pool.capacity, ∀ x ∈ succ t pool v,
    x ∈ Finset.range pool.capacity := by
  intro v _ x hx
  obtain ⟨h, hh, rfl⟩ := List.mem_map.mp hx
  exact Finset.mem_range.mpr (lt_of_valid (List.mem_filter.mp hh).2)

/-- The bound on the turns of the library. -/
def bound (t : OutTable P) (pool : CellPool) : ℕ :=
  Tarjan.searchBound (succ t pool) (Finset.range pool.capacity)

section Roots

variable {R : ℕ → Prop} {root : ℕ} {roots : List ℕ}
  (hi : Tarjan.Inv (succ t pool) R none (d.state pool [])) (hf : d.frames = [])
  (hR : ∀ r, R r → r ∈ Finset.range pool.capacity)

include hi hf hR

theorem visitFrom_spec (hroot : R root) (hd : d.disc root = 0) :
    (d.visitFrom t.toEdgeWalk pool (searchFuel t pool) root).frames = [] ∧
      (d.visitFrom t.toEdgeWalk pool (searchFuel t pool) root).state pool [] =
        Tarjan.visitFrom (succ t pool) (bound t pool) root (d.state pool []) := by
  have hdone := (hi.visitFrom rfl hroot hd succ_lt hR le_rfl).2.1
  rw [visitFrom, hf]
  refine loop_spec (F := [(root, [])]) ?_ ?_ ?_ hdone
  · exact .cons (absurd hd) .nil
  · rintro f hf
    obtain rfl := List.mem_singleton.mp hf
    exact Finset.mem_range.mp (hR root hroot)
  · have hle : ∑ v ∈ Finset.range pool.capacity with d.disc v = 0, (t.outs v).length ≤
        ∑ v ∈ Finset.range pool.capacity, (t.outs v).length :=
      Finset.sum_le_sum_of_subset (Finset.filter_subset _ _)
    simp only [work, searchFuel, weight_cons, weight_nil, List.length_nil]
    omega

theorem visitRoots_spec (hroots : ∀ r ∈ roots, pool.isLiveAt r = true → R r) :
    (roots.foldl (visitRoot t.toEdgeWalk pool (searchFuel t pool)) d).frames = [] ∧
      (roots.foldl (visitRoot t.toEdgeWalk pool (searchFuel t pool)) d).state pool [] =
        Tarjan.visitRoots (succ t pool) pool.isLiveAt (bound t pool) roots (d.state pool []) := by
  induction roots generalizing d with
  | nil => exact ⟨hf, rfl⟩
  | cons root roots ih =>
    have hrest := fun r hr => hroots r (List.mem_cons_of_mem root hr)
    rw [List.foldl_cons, visitRoot, Tarjan.visitRoots]
    by_cases hd : d.disc root = 0
    · have hd' : (d.state pool []).disc root = 0 := hd
      rw [if_neg (not_not.mpr hd), if_neg (not_not.mpr hd')]
      by_cases hl : pool.isLiveAt root = false
      · rw [if_pos hl, if_pos hl]
        exact ih hi hf hrest
      · rw [if_neg hl, if_neg hl]
        have hroot := hroots root List.mem_cons_self (by simpa using hl)
        obtain ⟨hframes, hstate⟩ := visitFrom_spec hi hf hR hroot hd
        rw [← hstate]
        refine ih ?_ hframes hrest
        rw [hstate]
        exact (hi.visitFrom rfl hroot hd succ_lt hR le_rfl).1
    · have hd' : (d.state pool []).disc root ≠ 0 := hd
      rw [if_pos hd, if_pos hd']
      exact ih hi hf hrest

end Roots

/-! ## The calls -/

/-- The scratch arrays are in their initial state. -/
def Clean (d : CycleDetector P) : Prop :=
  ∀ i, d.disc i = 0 ∧ d.low i = 0 ∧ d.onStack i = false ∧ d.scc i = none

/-- A call finds what the search of the library finds. -/
theorem findComponents_state (h : d.Clean) (roots : List ℕ) :
    (d.findComponents pool t roots).frames = [] ∧
      (d.findComponents pool t roots).state pool [] =
        Tarjan.findComponents (succ t pool) pool.isLiveAt (bound t pool) roots
          (d.state pool []) := by
  have hclean : Tarjan.Clean (d.state pool []) := h
  refine visitRoots_spec (R := fun r => pool.isLiveAt r = true) hclean.inv rfl ?_ fun _ _ => id
  exact fun r hr => Finset.mem_range.mpr (CellPool.isLiveAt_iff.mp hr).1

theorem state_release (visited : List ℕ) :
    (d.release visited).state pool F = Tarjan.release visited (d.state pool F) := by
  induction visited generalizing d with
  | nil => rfl
  | cons i visited ih => exact ih

/-- An edge with a valid target. -/
def Edge (t : OutTable P) (pool : CellPool) (i j : ℕ) : Prop :=
  ∃ h ∈ t.outs i, pool.valid h = true ∧ h.index = j

theorem edge_succ : Tarjan.Edge (succ t pool) = Edge t pool := by
  funext i j
  simp [Tarjan.Edge, Edge, succ, targets, and_assoc]

/-- The visited slots are those that the live roots reach, each once, and their numbers tell the
components. -/
structure Components (t : OutTable P) (pool : CellPool) (roots : List ℕ) (d : CycleDetector P) :
    Prop where
  once : d.visited.Nodup
  mem_visited : ∀ i, i ∈ d.visited ↔
    ∃ r ∈ roots, pool.isLiveAt r = true ∧ Graph.Reach (Edge t pool) r i
  live : ∀ i ∈ d.visited, pool.isLiveAt i = true
  same : ∀ i ∈ d.visited, ∀ j ∈ d.visited, d.sccOf i = d.sccOf j ↔
    Graph.Reach (Edge t pool) i j ∧ Graph.Reach (Edge t pool) j i
  numbered : ∀ i, i ∈ d.visited ↔ d.sccOf i ≠ none
  numbers : ∀ k, k < d.comps ↔ ∃ i ∈ d.visited, d.sccOf i = some k

theorem findComponents_found (h : d.Clean) (roots : List ℕ) :
    Tarjan.Found (succ t pool) (fun r => r ∈ roots ∧ pool.isLiveAt r = true)
      ((d.findComponents pool t roots).state pool []) := by
  have hclean : Tarjan.Clean (d.state pool []) := h
  rw [(findComponents_state h roots).2]
  refine Tarjan.findComponents_found (U := Finset.range pool.capacity) hclean succ_lt ?_ le_rfl
  exact fun r _ hr => Finset.mem_range.mpr (CellPool.isLiveAt_iff.mp hr).1

theorem findComponents_components (h : d.Clean) (roots : List ℕ) :
    Components t pool roots (d.findComponents pool t roots) := by
  have hF : Tarjan.Found (succ t pool) (fun r => r ∈ roots ∧ pool.isLiveAt r = true)
      ((d.findComponents pool t roots).state pool []) := findComponents_found h roots
  generalize hg : d.findComponents pool t roots = g at hF
  have hmem := hF.mem_visited
  have hsame := hF.same_comp
  rw [edge_succ] at hmem hsame
  refine ⟨hF.visited_nodup, fun i => ?_, fun i hi => ?_, fun i hi j _ => hsame i j hi, fun i => ?_,
    fun k => ⟨hF.scc_used k, ?_⟩⟩
  · exact (hmem i).trans (by simp [and_assoc])
  · obtain ⟨r, ⟨-, hr⟩, hri⟩ := (hmem i).mp hi
    refine hri.mem_of_closed (P := fun i => pool.isLiveAt i = true) ?_ hr
    rintro a b - ⟨x, -, hx, rfl⟩
    exact (CellPool.valid_iff.mp hx).1
  · constructor
    · intro hi
      obtain ⟨c, -, hc⟩ := hF.scc_visited i hi
      exact Option.ne_none_iff_exists'.mpr ⟨c, hc⟩
    · intro hi
      by_contra hn
      exact hi (hF.scc_unvisited i hn).2.2.2
  · rintro ⟨i, hi, hk⟩
    obtain ⟨c, hc, hc'⟩ := hF.scc_visited i hi
    obtain rfl : k = c := Option.some.inj (hk.symm.trans hc')
    exact hc

/-- The components are no more than the slots, so 32 bits hold their numbers. -/
theorem Components.comps_le {roots : List ℕ} (h : Components t pool roots d) :
    d.comps ≤ pool.capacity := by
  have hsub : Finset.range d.comps ⊆
      (Finset.range pool.capacity).image fun i => (d.sccOf i).getD 0 := by
    intro k hk
    obtain ⟨i, hi, hnum⟩ := (h.numbers k).mp (Finset.mem_range.mp hk)
    refine Finset.mem_image.mpr ⟨i, ?_, by rw [hnum]; rfl⟩
    exact Finset.mem_range.mpr (CellPool.isLiveAt_iff.mp (h.live i hi)).1
  have hcard := (Finset.card_le_card hsub).trans Finset.card_image_le
  rwa [Finset.card_range, Finset.card_range] at hcard

/-- The clock counts the slots that are visited. -/
def Counted (d : CycleDetector P) : Prop := d.time = d.visited.length

theorem Counted.foldLow (h : d.Counted) : (d.foldLow u).Counted := by
  rw [CycleDetector.foldLow]
  split
  · exact h
  · split <;> exact h

theorem Counted.finishNode (h : d.Counted) : (d.finishNode u fs).Counted := by
  refine Counted.foldLow ?_
  dsimp only
  split <;> exact h

theorem Counted.look (h : d.Counted) : (d.look w pool u p fs).Counted := by
  rw [CycleDetector.look]
  split
  · dsimp only
    split
    · exact h
    · split
      · exact h
      · split <;> exact h
  · exact h.finishNode

theorem Counted.turn (h : d.Counted) : (d.turn w pool).1.Counted := by
  rw [CycleDetector.turn]
  split
  · exact h
  · split
    · refine Counted.look ?_
      rw [Counted, number, List.length_append, h]
      rfl
    · exact h.look

theorem Counted.visitRoot {fuel root : ℕ} (h : d.Counted) :
    (visitRoot w pool fuel d root).Counted := by
  rw [CycleDetector.visitRoot]
  split
  · exact h
  · split
    · exact h
    · exact iterUntil_inv (P := Counted) (fun _ => Counted.turn) fuel h

/-- So 32 bits hold the clock, too. -/
theorem time_le (h : d.Clean) (roots : List ℕ) :
    (d.findComponents pool t roots).time ≤ pool.capacity := by
  have hc : (d.findComponents pool t roots).Counted :=
    List.foldlRecOn (motive := Counted) roots _ rfl fun _ hc _ _ => hc.visitRoot
  have hcomp : Components t pool roots (d.findComponents pool t roots) :=
    findComponents_components h roots
  rw [hc, ← List.toFinset_card_of_nodup hcomp.once, ← Finset.card_range pool.capacity]
  refine Finset.card_le_card fun i hi => ?_
  have hlive := hcomp.live i (List.mem_toFinset.mp hi)
  exact Finset.mem_range.mpr (CellPool.isLiveAt_iff.mp hlive).1

/-- What an engine finds is what its detector finds. -/
theorem findComponents_engine (e : AarcEngine) (h : d.Clean) (ht : t.outs = e.tab.outs)
    (hd : d.state e.pool [] = e.detector) (roots : List ℕ) :
    (d.findComponents e.pool t roots).state e.pool [] = (e.findComponents roots).detector := by
  have hsucc : succ t e.pool = e.succ := by
    funext i
    rw [succ, ht]
    rfl
  rw [(findComponents_state h roots).2, hd, bound, hsucc]
  rfl

theorem release_clean (h : d.Clean) (roots : List ℕ) :
    ((d.findComponents pool t roots).release (d.findComponents pool t roots).visited).Clean := by
  have hF : Tarjan.Found (succ t pool) (fun r => r ∈ roots ∧ pool.isLiveAt r = true)
      ((d.findComponents pool t roots).state pool []) := findComponents_found h roots
  have hclean := hF.release_clean
  rw [← state_release (F := [])] at hclean
  exact hclean

/-- A call depends on nothing that is left from earlier calls. -/
theorem findComponents_fresh (h : d.Clean) (roots : List ℕ) :
    d.findComponents pool t roots = init.findComponents pool t roots := by
  have hdisc : d.disc = init.disc (P := P) := funext fun i => (h i).1
  have hlow : d.low = init.low (P := P) := funext fun i => (h i).2.1
  have hon : d.onStack = init.onStack (P := P) := funext fun i => (h i).2.2.1
  have hscc : d.scc = init.scc (P := P) := funext fun i => (h i).2.2.2
  rw [findComponents, findComponents, hdisc, hlow, hon, hscc]

/-! ## Sequences of calls -/

/-- What a call is given. -/
structure Call (P : Type*) where
  pool : CellPool
  table : OutTable P
  roots : List ℕ

namespace Call

variable (c : Call P)

def find (d : CycleDetector P) : CycleDetector P := d.findComponents c.pool c.table c.roots

/-- A call, and the release when its numbers have been read. -/
def run (d : CycleDetector P) : CycleDetector P := (c.find d).release (c.find d).visited

end Call

def runs (calls : List (Call P)) : CycleDetector P := calls.foldl (fun d c => c.run d) init

theorem runs_clean (calls : List (Call P)) : (runs calls).Clean := by
  induction calls using List.reverseRecOn with
  | nil => exact fun _ => ⟨rfl, rfl, rfl, rfl⟩
  | append_singleton calls c ih =>
    rw [runs, List.foldl_append]
    exact release_clean ih c.roots

/-- After any calls, the next one finds the components of its own pool, table and roots, as a fresh
detector does, and its release clears the scratch arrays. -/
theorem runs_components (calls : List (Call P)) (c : Call P) :
    Components c.table c.pool c.roots (c.find (runs calls)) ∧
      c.find (runs calls) = c.find init ∧ (c.run (runs calls)).Clean :=
  ⟨findComponents_components (runs_clean calls) c.roots,
    findComponents_fresh (runs_clean calls) c.roots, release_clean (runs_clean calls) c.roots⟩

end CycleDetector

end Loxis.Aarc
