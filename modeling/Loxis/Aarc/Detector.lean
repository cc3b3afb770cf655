import Loxis.Lib.TarjanCorrect
import Loxis.Aarc.LinkedTable

/-! # The cycle detector

The search for components as it runs over a pool and a table. A frame holds a slot and a place in
the list of its outgoing edges. Edges to cells that are gone are passed over when the frame comes
to them.
-/

namespace Loxis.Aarc

open Function

variable {P : Type*}

/-! ## Outgoing edges -/

/-- How a search walks the outgoing edges: the place in a frame that is pushed, the first place of
a slot, and the target at a place with the place behind it. -/
structure EdgeWalk (P : Type*) where
  pushed : P
  first : ℕ → P
  next : ℕ → P → Option (ObjHandle × P)

/-- From a place on, the walk meets these targets. -/
inductive EdgeWalk.Meets (w : EdgeWalk P) (u : ℕ) : P → List ObjHandle → Prop
  | done {p : P} : w.next u p = none → Meets w u p []
  | edge {p q : P} {h : ObjHandle} {l : List ObjHandle} :
      w.next u p = some (h, q) → Meets w u q l → Meets w u p (h :: l)

/-- A table with lists of outgoing edges that end. -/
structure OutTable (P : Type*) extends EdgeWalk P where
  outs : ℕ → List ObjHandle
  meets : ∀ u, toEdgeWalk.Meets u (first u) (outs u)

theorem meets_drop {outs : ℕ → List ObjHandle} {w : EdgeWalk ℕ}
    (hw : ∀ u k, w.next u k = (outs u)[k]?.map (·, k + 1)) (u k : ℕ) :
    w.Meets u k ((outs u).drop k) := by
  generalize hl : (outs u).drop k = l
  induction l generalizing k with
  | nil => exact .done (by rw [hw, List.getElem?_eq_none (List.drop_eq_nil_iff.mp hl)]; rfl)
  | cons h l ih =>
    have hk : (outs u)[k]? = some h := by rw [← List.head?_drop, hl, List.head?_cons]
    exact .edge (by rw [hw, hk]; rfl) (ih (k + 1) (by rw [← List.drop_drop, hl]; rfl))

/-- The forward-only table keeps the targets of a slot in a vector. -/
def forwardOuts (outs : ℕ → List ObjHandle) : OutTable ℕ where
  pushed := 0
  first _ := 0
  next u k := (outs u)[k]?.map (·, k + 1)
  outs := outs
  meets u := meets_drop (fun _ _ => rfl) u 0

namespace LinkedTable

variable {t : LinkedTable} {O I : ℕ → List EdgeId} {F : List EdgeId}

theorem meets_chain {w : EdgeWalk EdgeId}
    (hw : ∀ u x, w.next u x = if x = kNoEdge then none else some ((t.record x).dst, t.out.next x))
    {x : EdgeId} {l : List EdgeId} (h : Chain t.out.next kNoEdge x l) (u : ℕ) :
    w.Meets u x (l.map fun x => (t.record x).dst) := by
  induction h with
  | nil => exact .done (by rw [hw, if_pos rfl])
  | cons hi _ ih => exact .edge (by rw [hw, if_neg hi]) ih

/-- The reverse table links the edges of a slot. -/
def outTable (t : LinkedTable) (h : t.Adjacency O I F) : OutTable EdgeId where
  pushed := kNoEdge
  first u := t.out.head u
  next _ x := if x = kNoEdge then none else some ((t.record x).dst, t.out.next x)
  outs := t.outs
  meets u := by
    rw [outs, h.outRecs_eq, List.map_map]
    exact meets_chain (fun _ _ => rfl) (h.out.chain u) u

end LinkedTable

/-! ## The search -/

/-- The scratch arrays, the stacks and the counters of a detector. An entry of `scc` without a
number is unvisited. -/
structure CycleDetector (P : Type*) where
  disc : ℕ → ℕ
  low : ℕ → ℕ
  onStack : ℕ → Bool
  scc : ℕ → Option ℕ
  tarjan : List ℕ
  frames : List (ℕ × P)
  time : ℕ
  comps : ℕ
  skippedDisc : ℕ
  skippedDead : ℕ
  visited : List ℕ

namespace CycleDetector

def init : CycleDetector P where
  disc _ := 0
  low _ := 0
  onStack _ := false
  scc _ := none
  tarjan := []
  frames := []
  time := 0
  comps := 0
  skippedDisc := 0
  skippedDead := 0
  visited := []

variable (d : CycleDetector P)

def number (u : ℕ) : CycleDetector P :=
  { d with
    time := d.time + 1
    disc := update d.disc u (d.time + 1)
    low := update d.low u (d.time + 1)
    onStack := update d.onStack u true
    tarjan := u :: d.tarjan
    visited := d.visited ++ [u] }

/-- Pop the stack up to a slot that closes a component. -/
def close (u : ℕ) : CycleDetector P :=
  let r := Tarjan.popLoop u d.comps d.tarjan d.onStack d.scc
  { d with tarjan := r.1, onStack := r.2.1, scc := r.2.2, comps := d.comps + 1 }

/-- Fold the link of a slot into the frame on top. -/
def foldLow (u : ℕ) : CycleDetector P :=
  match d.frames with
  | [] => d
  | (p, _) :: _ => if d.low u < d.low p then { d with low := update d.low p (d.low u) } else d

/-- Pop a frame, and with it the component that its slot closes. -/
def finishNode (u : ℕ) (fs : List (ℕ × P)) : CycleDetector P :=
  let d := { d with frames := fs }
  (if d.low u = d.disc u then d.close u else d).foldLow u

variable (w : EdgeWalk P) (pool : CellPool)

/-- Look at the next edge of the slot on top. -/
def look (u : ℕ) (p : P) (fs : List (ℕ × P)) : CycleDetector P :=
  match w.next u p with
  | some (vh, q) =>
    let d := { d with frames := (u, q) :: fs }
    if pool.valid vh = false then d
    else
      let v := vh.index
      if d.disc v = 0 then { d with frames := (v, w.pushed) :: d.frames }
      else if d.onStack v = true ∧ d.disc v < d.low u then { d with low := update d.low u (d.disc v) }
      else d
  | none => d.finishNode u fs

/-- One turn of the search. -/
def turn : CycleDetector P × Bool :=
  match d.frames with
  | [] => (d, false)
  | (u, p) :: fs =>
    if d.disc u = 0 then ((d.number u).look w pool u (w.first u) fs, true)
    else (d.look w pool u p fs, true)

def visitFrom (fuel root : ℕ) : CycleDetector P :=
  iterUntil (turn · w pool) fuel { d with frames := (root, w.pushed) :: d.frames }

def visitRoot (fuel : ℕ) (d : CycleDetector P) (root : ℕ) : CycleDetector P :=
  if d.disc root ≠ 0 then { d with skippedDisc := d.skippedDisc + 1 }
  else if pool.isLiveAt root = false then { d with skippedDead := d.skippedDead + 1 }
  else d.visitFrom w pool fuel root

/-- Every edge is looked at once, and every slot is numbered and left once. -/
def searchFuel (t : OutTable P) (pool : CellPool) : ℕ :=
  2 * ∑ v ∈ Finset.range pool.capacity, (t.outs v).length + pool.capacity + 2

def findComponents (t : OutTable P) (roots : List ℕ) : CycleDetector P :=
  roots.foldl (visitRoot t.toEdgeWalk pool (searchFuel t pool))
    { d with
      visited := [], time := 0, comps := 0, tarjan := [], frames := [], skippedDisc := 0
      skippedDead := 0 }

def clear (i : ℕ) : CycleDetector P :=
  { d with
    disc := update d.disc i 0, low := update d.low i 0, onStack := update d.onStack i false
    scc := update d.scc i none }

def release (visited : List ℕ) : CycleDetector P := visited.foldl clear d

def sccOf (i : ℕ) : Option ℕ := d.scc i

/-! ## The search as the library has it -/

/-- The targets that are not gone, by their slots. -/
def targets (pool : CellPool) (l : List ObjHandle) : List ℕ :=
  (l.filter pool.valid).map ObjHandle.index

/-- The state of a search when `F` is what the frames have ahead. -/
def state (pool : CellPool) (F : List (ℕ × List ObjHandle)) (d : CycleDetector P) :
    Tarjan.State ℕ where
  disc := d.disc
  low := d.low
  onStack := d.onStack
  scc := d.scc
  stack := d.tarjan
  frames := F.map fun f => (f.1, targets pool f.2)
  time := d.time
  comps := d.comps
  visited := d.visited

end CycleDetector

end Loxis.Aarc
