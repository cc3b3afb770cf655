import Loxis.Lib.TarjanCorrect
import Loxis.Aarc.RefTable

/-! # The collection engine

The engine applies messages to the shared pool and table and only marks the cells
that lost a reference. A sweep, run at a drain point, frees the cells whose count
is zero and then, by components, the cells that only their own cycle refers to.
Several engines may work on one pool and table; their scratch state is private.
-/

namespace Loxis.Aarc

open Function

/-- The private scratch state of an engine: marks, candidate stacks (newest first), the
detector's maps and the error counters. -/
structure Scratch where
  zeroMark : ℕ → Bool
  suspectMark : ℕ → Bool
  zeroStack : List ℕ
  suspectStack : List ℕ
  detector : Tarjan.State ℕ
  activeSuspects : ℕ
  staleDropped : ℕ
  rootUnderflow : ℕ
  edgeUnderflow : ℕ

def Scratch.init : Scratch where
  zeroMark _ := false
  suspectMark _ := false
  zeroStack := []
  suspectStack := []
  detector :=
    { disc := fun _ => 0, low := fun _ => 0, onStack := fun _ => false, scc := fun _ => none
      stack := [], frames := [], time := 0, comps := 0, visited := [] }
  activeSuspects := 0
  staleDropped := 0
  rootUnderflow := 0
  edgeUnderflow := 0

/-- An engine with the pool and the table it accounts over. -/
structure AarcEngine extends Scratch where
  pool : CellPool
  tab : RefTable
  kind : Regime
  owner : OwnerToken

namespace AarcEngine

/-- A fresh engine over a fresh pool. -/
def init (capacity : ℕ) (kind : Regime) (owner : OwnerToken) : AarcEngine :=
  { Scratch.init with
    pool := CellPool.init capacity kind, tab := RefTable.init, kind := kind, owner := owner }

variable (e : AarcEngine)

def live (h : ObjHandle) : Bool := e.pool.valid h

/-- The authority of an engine over a cell. -/
def canTouch (h : ObjHandle) : Bool :=
  if e.pool.valid h = false then false
  else if e.pool.regimeOf h = .promoting then false
  else if e.kind = .shared then decide (e.pool.regimeOf h = .shared)
  else decide (e.pool.regimeOf h = .loc) && decide (e.pool.ownerTokenAt h.index = e.owner)

def markZero (i : ℕ) : AarcEngine :=
  if e.zeroMark i then e
  else { e with zeroMark := update e.zeroMark i true, zeroStack := i :: e.zeroStack }

def setSuspect (i : ℕ) : AarcEngine :=
  if e.suspectMark i then e
  else
    { e with
      suspectMark := update e.suspectMark i true
      activeSuspects := e.activeSuspects + 1
      suspectStack := i :: e.suspectStack }

def clearSuspect (i : ℕ) : AarcEngine :=
  if e.suspectMark i then
    { e with
      suspectMark := update e.suspectMark i false
      activeSuspects := e.activeSuspects - 1 }
  else e

def markSuspect (i : ℕ) : AarcEngine := e.setSuspect i

/-- The check behind every lost reference: a cell is a candidate when nothing refers to it, and
a suspect when it may be part of a cycle. -/
def mark (i : ℕ) : AarcEngine :=
  if e.tab.total i = 0 then e.markZero i
  else if e.tab.hasOutgoing i then e.markSuspect i
  else e

def dropStale : AarcEngine := { e with staleDropped := e.staleDropped + 1 }

def setTab (t : RefTable) : AarcEngine := { e with tab := t }

/-- Apply one message. -/
def process (m : GCMessage) : AarcEngine :=
  match m.op with
  | .rootAdd =>
    if e.live m.b then e.setTab (e.tab.addRoot m.b.index m.count) else e.dropStale
  | .rootRemove =>
    if !e.live m.b then e.dropStale
    else
      let r := e.tab.subRoot m.b.index m.count
      if !r.2 then { e.setTab r.1 with rootUnderflow := e.rootUnderflow + 1 }
      else (e.setTab r.1).mark m.b.index
  | .rootCheck => if !e.live m.b then e.dropStale else e.mark m.b.index
  | .edgeAdd =>
    if !e.live m.a || !e.live m.b then e.dropStale
    else e.setTab ((e.tab.addEdgeTo m.b.index).addOut m.a m.b)
  | .edgeRemove =>
    if !e.live m.a then e.dropStale
    else
      let r := e.tab.removeOut m.a m.b
      if !r.2 then { e with edgeUnderflow := e.edgeUnderflow + 1 }
      else
        let e := e.setTab r.1
        if !e.live m.b then e.dropStale
        else
          let s := e.tab.subEdgeTo m.b.index
          if !s.2 then { e with edgeUnderflow := e.edgeUnderflow + 1 }
          else (e.setTab s.1).mark m.b.index
  | .terminate => e

/-- Give back one incoming edge of a target. -/
def releaseEdge (i : ℕ) : AarcEngine := (e.setTab (e.tab.subEdgeTo i).1).mark i

/-- Give back the edges into the targets that `p` selects. -/
def releaseOuts (p : ObjHandle → Bool) (ts : List ObjHandle) : AarcEngine :=
  ts.foldl (fun e t => if p t then e.releaseEdge t.index else e) e

/-- Free a cell that nothing refers to, after its outgoing edges. -/
def reclaimCell (i : ℕ) : AarcEngine :=
  let self : ObjHandle := ⟨i, e.pool.generationOf i⟩
  let e := e.clearSuspect i
  let e := e.releaseOuts (fun t => e.pool.isLiveAt t.index) (e.tab.outs i)
  { e with tab := e.tab.resetSlot i, pool := e.pool.free self }

/-- One turn of the zero sweep: a candidate that was revived is dropped. -/
def sweepZeroTurn : AarcEngine × Bool :=
  match e.zeroStack with
  | [] => (e, false)
  | i :: rest =>
    let e := { e with zeroStack := rest, zeroMark := update e.zeroMark i false }
    if !e.pool.isLiveAt i then (e, true)
    else if e.tab.total i ≠ 0 then (e, true)
    else (e.reclaimCell i, true)

/-- Reclaim every candidate whose count is still zero, with all that follows from it. -/
def sweepZero : AarcEngine :=
  iterUntil sweepZeroTurn
    (e.pool.used * (e.pool.capacity + 1) + e.zeroStack.length + 1) e

/-- The live targets of a slot, as the detector walks them. -/
def succ (i : ℕ) : List ℕ := ((e.tab.outs i).filter e.pool.valid).map ObjHandle.index

/-- The suspects a cycle scan starts from, oldest first. -/
def scanRoots : List ℕ :=
  e.suspectStack.reverse.filter
    fun i => e.suspectMark i && e.pool.isLiveAt i && decide (0 < e.tab.total i)

/-- Find the components below the given roots. -/
def findComponents (roots : List ℕ) : AarcEngine :=
  { e with
    detector := Tarjan.findComponents e.succ e.pool.isLiveAt
      (Tarjan.searchBound e.succ (Finset.range e.pool.capacity)) roots e.detector }

def sccOf (i : ℕ) : Option ℕ := e.detector.scc i

/-- The visited slots of a component, in the order of the visit. -/
def visitedOf (s : ℕ) : List ℕ := e.detector.visited.filter fun i => e.sccOf i = some s

def sumRoot (s : ℕ) : ℤ := ((e.visitedOf s).map e.tab.root).sum

def sumEdge (s : ℕ) : ℤ := ((e.visitedOf s).map e.tab.edge).sum

/-- The number of edges that stay inside a component. -/
def internal (s : ℕ) : ℕ :=
  ((e.visitedOf s).map fun i =>
    (e.tab.outs i).countP fun t => e.pool.valid t && decide (e.sccOf t.index = some s)).sum

/-- A component is garbage when no root and no edge from outside refers to it. -/
def reclaimable (s : ℕ) : Bool :=
  decide (e.sumRoot s = 0) && decide (e.sumEdge s = e.internal s)

/-- The live members of a component. -/
def membersOf (s : ℕ) : List ℕ := (e.visitedOf s).filter e.pool.isLiveAt

/-- Detach a member of a garbage component: release its external targets, unlink its edges. -/
def detachMember (s : ℕ) (e : AarcEngine) (i : ℕ) : AarcEngine :=
  let e := e.releaseOuts (fun t => e.pool.valid t && decide (e.sccOf t.index ≠ some s))
    (e.tab.outs i)
  e.setTab (e.tab.clearOuts i)

/-- Reset the row of a detached member and free its cell. -/
def freeMember (e : AarcEngine) (i : ℕ) : AarcEngine :=
  let e := (e.setTab (e.tab.resetSlot i)).clearSuspect i
  { e with pool := e.pool.free ⟨i, e.pool.generationOf i⟩ }

/-- Reclaim a garbage component in two phases, so that no row is reset while an edge record
still links it. -/
def reclaimCycleComponent (s : ℕ) (members : List ℕ) : AarcEngine :=
  members.foldl freeMember (members.foldl (detachMember s) e)

/-- Reclaim the garbage components, given the members of each. -/
def reclaimComponents (cs : List (ℕ × List ℕ)) : AarcEngine :=
  cs.foldl (fun e c => e.reclaimCycleComponent c.1 c.2) e

/-- The garbage components of a scan that still have live members. -/
def garbage : List (ℕ × List ℕ) :=
  ((List.range e.detector.comps).filter e.reclaimable).map (fun s => (s, e.membersOf s))
    |>.filter fun c => !c.2.isEmpty

/-- One scan and reclaim pass; reports whether a cell was reclaimed. -/
def collectCyclePass : AarcEngine × Bool :=
  let roots := e.scanRoots
  let e := { e with suspectStack := [] }
  if roots.isEmpty then (e, false)
  else
    let e := e.findComponents roots
    let visited := e.detector.visited
    if e.detector.comps = 0 then (e, false)
    else
      let cs := e.garbage
      let e := (visited.foldl clearSuspect e).reclaimComponents cs
      ({ e with detector := Tarjan.release visited e.detector }, !cs.isEmpty)

/-- Scan until a pass reclaims nothing. -/
def collectCycles : AarcEngine := iterUntil collectCyclePass (e.pool.used + 1) e

/-- One round of a sweep: candidates first, then the suspects they leave. -/
def sweepTurn : AarcEngine × Bool :=
  let e := e.sweepZero
  if e.suspectStack.isEmpty then (e, false) else (e.collectCycles, true)

/-- Drive both passes to their common fixed point. Only called at a drain point. -/
def sweep : AarcEngine := iterUntil sweepTurn (2 * e.pool.used + 2) e

end AarcEngine

end Loxis.Aarc
