import Loxis.Aarc.Engine
import Loxis.Aarc.Components

/-! # The engine over a forward table

A table that keeps only outgoing edges, and the collection engine over it. A garbage component is
reclaimed member by member, and an engine for local cells takes a cell that dies out of its
component.
-/

namespace Loxis.Aarc

open Function

/-- Counts and outgoing multisets, oldest edge first. -/
structure ForwardTable where
  root : ℕ → ℤ
  edge : ℕ → ℤ
  outs : ℕ → List ObjHandle
  liveEdges : ℕ

namespace ForwardTable

def init : ForwardTable := ⟨fun _ => 0, fun _ => 0, fun _ => [], 0⟩

variable (t : ForwardTable)

def total (i : ℕ) : ℤ := t.root i + t.edge i

def hasOutgoing (i : ℕ) : Bool := !(t.outs i).isEmpty

def addRoot (i n : ℕ) : ForwardTable := { t with root := update t.root i (t.root i + n) }

/-- Never drives the count negative; reports failure when the row held fewer roots. -/
def subRoot (i n : ℕ) : ForwardTable × Bool :=
  if t.root i < n then ({ t with root := update t.root i 0 }, false)
  else ({ t with root := update t.root i (t.root i - n) }, true)

def addEdgeTo (i : ℕ) : ForwardTable := { t with edge := update t.edge i (t.edge i + 1) }

def subEdgeTo (i : ℕ) : ForwardTable × Bool :=
  if t.edge i ≤ 0 then (t, false)
  else ({ t with edge := update t.edge i (t.edge i - 1) }, true)

def addOut (src dst : ObjHandle) : ForwardTable :=
  { t with
    outs := update t.outs src.index (t.outs src.index ++ [dst])
    liveEdges := t.liveEdges + 1 }

/-- Remove one occurrence of a target from a source's multiset. -/
def removeOut (src dst : ObjHandle) : ForwardTable × Bool :=
  if dst ∈ t.outs src.index then
    ({ t with
       outs := update t.outs src.index ((t.outs src.index).erase dst)
       liveEdges := t.liveEdges - 1 }, true)
  else (t, false)

def resetSlot (i : ℕ) : ForwardTable :=
  { root := update t.root i 0
    edge := update t.edge i 0
    outs := update t.outs i []
    liveEdges := t.liveEdges - (t.outs i).length }

end ForwardTable

/-- An engine with the pool and the table it accounts over, and the components of its cells. -/
structure ForwardEngine extends Scratch where
  pool : CellPool
  tab : ForwardTable
  kind : Regime
  owner : OwnerToken
  comps : Option ConservativeComponents

namespace ForwardEngine

/-- A fresh engine over a fresh pool. -/
def init (capacity : ℕ) (kind : Regime) (owner : OwnerToken)
    (comps : Option ConservativeComponents) : ForwardEngine :=
  { Scratch.init with
    pool := CellPool.init capacity kind, tab := ForwardTable.init, kind := kind, owner := owner
    comps := comps }

variable (e : ForwardEngine)

def live (h : ObjHandle) : Bool := e.pool.valid h

def markZero (i : ℕ) : ForwardEngine :=
  if e.zeroMark i then e
  else { e with zeroMark := update e.zeroMark i true, zeroStack := i :: e.zeroStack }

def setSuspect (i : ℕ) : ForwardEngine :=
  if e.suspectMark i then e
  else
    { e with
      suspectMark := update e.suspectMark i true
      activeSuspects := e.activeSuspects + 1
      suspectStack := i :: e.suspectStack }

def clearSuspect (i : ℕ) : ForwardEngine :=
  if e.suspectMark i then
    { e with
      suspectMark := update e.suspectMark i false
      activeSuspects := e.activeSuspects - 1 }
  else e

def markSuspect (i : ℕ) : ForwardEngine := e.setSuspect i

/-- The check behind every lost reference. -/
def mark (i : ℕ) : ForwardEngine :=
  if e.tab.total i = 0 then e.markZero i
  else if e.tab.hasOutgoing i then e.markSuspect i
  else e

def dropStale : ForwardEngine := { e with staleDropped := e.staleDropped + 1 }

def setTab (t : ForwardTable) : ForwardEngine := { e with tab := t }

/-- Apply one message. -/
def process (m : GCMessage) : ForwardEngine :=
  match m.op with
  | .rootAdd =>
    if e.live m.b then e.setTab (e.tab.addRoot m.b.index m.count) else e.dropStale
  | .rootRemove =>
    if !e.live m.b then e.dropStale
    else
      let r := e.tab.subRoot m.b.index m.count
      if !r.2 then { e.setTab r.1 with rootUnderflow := e.rootUnderflow + 1 }
      else (e.setTab r.1).mark m.b.index
  | .rootCheck => if !e.live m.b then e.dropStale else e.mark m.b.index
  | .edgeAdd =>
    if !e.live m.a || !e.live m.b then e.dropStale
    else e.setTab ((e.tab.addEdgeTo m.b.index).addOut m.a m.b)
  | .edgeRemove =>
    if !e.live m.a then e.dropStale
    else
      let r := e.tab.removeOut m.a m.b
      if !r.2 then { e with edgeUnderflow := e.edgeUnderflow + 1 }
      else
        let e := e.setTab r.1
        if !e.live m.b then e.dropStale
        else
          let s := e.tab.subEdgeTo m.b.index
          if !s.2 then { e with edgeUnderflow := e.edgeUnderflow + 1 }
          else (e.setTab s.1).mark m.b.index
  | .terminate => e

/-- Give back one incoming edge of a target. -/
def releaseEdge (i : ℕ) : ForwardEngine := (e.setTab (e.tab.subEdgeTo i).1).mark i

/-- Give back the edges into the targets that `p` selects. -/
def releaseOuts (p : ObjHandle → Bool) (ts : List ObjHandle) : ForwardEngine :=
  ts.foldl (fun e t => if p t then e.releaseEdge t.index else e) e

/-- Take a slot out of its component. -/
def leave (i : ℕ) : ForwardEngine := { e with comps := e.comps.map (·.unlink e.owner i) }

/-- Free a cell that nothing refers to, after its outgoing edges. -/
def reclaimCell (i : ℕ) : ForwardEngine :=
  let self : ObjHandle := ⟨i, e.pool.generationOf i⟩
  let e := e.clearSuspect i
  let e := e.releaseOuts (fun t => e.pool.isLiveAt t.index) (e.tab.outs i)
  let e := e.leave i
  { e with tab := e.tab.resetSlot i, pool := e.pool.free self }

/-- One turn of the zero sweep: a candidate that was revived is dropped. -/
def sweepZeroTurn : ForwardEngine × Bool :=
  match e.zeroStack with
  | [] => (e, false)
  | i :: rest =>
    let e := { e with zeroStack := rest, zeroMark := update e.zeroMark i false }
    if !e.pool.isLiveAt i then (e, true)
    else if e.tab.total i ≠ 0 then (e, true)
    else (e.reclaimCell i, true)

/-- Reclaim every candidate whose count is still zero, with all that follows from it. -/
def sweepZero : ForwardEngine :=
  iterUntil sweepZeroTurn
    (e.pool.used * (e.pool.capacity + 1) + e.zeroStack.length + 1) e

/-- The live targets of a slot, as the detector walks them. -/
def succ (i : ℕ) : List ℕ := ((e.tab.outs i).filter e.pool.valid).map ObjHandle.index

/-- The suspects a cycle scan starts from, oldest first. -/
def scanRoots : List ℕ :=
  e.suspectStack.reverse.filter
    fun i => e.suspectMark i && e.pool.isLiveAt i && decide (0 < e.tab.total i)

/-- Find the components below the given roots. -/
def findComponents (roots : List ℕ) : ForwardEngine :=
  { e with
    detector := Tarjan.findComponents e.succ e.pool.isLiveAt
      (Tarjan.searchBound e.succ (Finset.range e.pool.capacity)) roots e.detector }

def sccOf (i : ℕ) : Option ℕ := e.detector.scc i

/-- The visited slots of a component, in the order of the visit. -/
def visitedOf (s : ℕ) : List ℕ := e.detector.visited.filter fun i => e.sccOf i = some s

def sumRoot (s : ℕ) : ℤ := ((e.visitedOf s).map e.tab.root).sum

def sumEdge (s : ℕ) : ℤ := ((e.visitedOf s).map e.tab.edge).sum

/-- The number of edges that stay inside a component. -/
def internal (s : ℕ) : ℕ :=
  ((e.visitedOf s).map fun i =>
    (e.tab.outs i).countP fun t => e.pool.valid t && decide (e.sccOf t.index = some s)).sum

/-- A component is garbage when no root and no edge from outside refers to it. -/
def reclaimable (s : ℕ) : Bool :=
  decide (e.sumRoot s = 0) && decide (e.sumEdge s = e.internal s)

/-- Reclaim one member of a garbage component, after its external targets. -/
def reclaimCycleMember (s i : ℕ) : ForwardEngine :=
  let e := e.releaseOuts (fun t => e.pool.valid t && decide (e.sccOf t.index ≠ some s))
    (e.tab.outs i)
  let e := e.leave i
  let e := (e.setTab (e.tab.resetSlot i)).clearSuspect i
  { e with pool := e.pool.free ⟨i, e.pool.generationOf i⟩ }

/-- Reclaim the visited members of the components that `reclaim` selects; reports whether there
were any. -/
def reclaimVisited (reclaim : ℕ → Bool) (visited : List ℕ) : ForwardEngine × Bool :=
  visited.foldl (fun r i =>
    match r.1.sccOf i with
    | some s => if reclaim s && r.1.pool.isLiveAt i then (r.1.reclaimCycleMember s i, true) else r
    | none => r) (e, false)

/-- One scan and reclaim pass; reports whether a cell was reclaimed. -/
def collectCyclePass : ForwardEngine × Bool :=
  let roots := e.scanRoots
  let e := { e with suspectStack := [] }
  if roots.isEmpty then (e, false)
  else
    let e := e.findComponents roots
    let visited := e.detector.visited
    if e.detector.comps = 0 then (e, false)
    else
      let reclaim := fun s => decide (s < e.detector.comps) && e.reclaimable s
      let r := (visited.foldl clearSuspect e).reclaimVisited reclaim visited
      ({ r.1 with detector := Tarjan.release visited r.1.detector }, r.2)

/-- Scan until a pass reclaims nothing. -/
def collectCycles : ForwardEngine := iterUntil collectCyclePass (e.pool.used + 1) e

/-- One round of a sweep: candidates first, then the suspects they leave. -/
def sweepTurn : ForwardEngine × Bool :=
  let e := e.sweepZero
  if e.suspectStack.isEmpty then (e, false) else (e.collectCycles, true)

/-- Drive both passes to their common fixed point. Only called at a drain point. -/
def sweep : ForwardEngine := iterUntil sweepTurn (2 * e.pool.used + 2) e

/-- Forget cells that another authority takes over. -/
def forgetPromoted (indexes : List ℕ) : ForwardEngine :=
  let e := indexes.foldl
    (fun e i => { e with zeroMark := update e.zeroMark i false }.clearSuspect i) e
  { e with
    zeroStack := e.zeroStack.filter e.zeroMark
    suspectStack := e.suspectStack.filter e.suspectMark }

end ForwardEngine

end Loxis.Aarc
