import Mathlib.Data.Finset.Card
import Mathlib.Data.Finset.Range
import Loxis.Lib.Links
import Loxis.Aarc.RefTable
import Loxis.Aarc.Engine

/-! # The adjacency lists in memory

Every edge is one record of an arena, linked into the out-list of its source and the in-list of
its target. Records that are taken out of both lists wait in a free list for the next edge.
-/

namespace Loxis.Aarc

open Function

abbrev EdgeId := ℕ

def kNoEdge : EdgeId := 0xFFFFFFFF

/-- The rows and the arena, field by field. The tag of the free list is left out: it only tells
apart the states of the list that concurrent allocators see. -/
structure LinkedTable where
  root : ℕ → ℤ
  edge : ℕ → ℤ
  out : Links ℕ EdgeId
  inc : Links ℕ EdgeId
  record : EdgeId → EdgeRec
  live : EdgeId → Bool
  nextFree : EdgeId → EdgeId
  freeHead : EdgeId
  nextId : ℕ
  liveEdges : ℕ

namespace LinkedTable

def init : LinkedTable where
  root _ := 0
  edge _ := 0
  out := ⟨fun _ => kNoEdge, fun _ => kNoEdge, fun _ => kNoEdge, fun _ => 0⟩
  inc := ⟨fun _ => kNoEdge, fun _ => kNoEdge, fun _ => kNoEdge, fun _ => 0⟩
  record _ := ⟨kNullHandle, kNullHandle⟩
  live _ := false
  nextFree _ := kNoEdge
  freeHead := kNoEdge
  nextId := 0
  liveEdges := 0

variable (t : LinkedTable)

def total (i : ℕ) : ℤ := t.root i + t.edge i

def hasOutgoing (i : ℕ) : Bool := decide (t.out.count i ≠ 0)

/-- The records of a slot's outgoing edges, in the order of its out-list. -/
def outRecs (i : ℕ) : List EdgeRec := (walk t.out.next kNoEdge t.nextId (t.out.head i)).map t.record

/-- The records of a slot's incoming edges, in the order of its in-list. -/
def inRecs (i : ℕ) : List EdgeRec := (walk t.inc.next kNoEdge t.nextId (t.inc.head i)).map t.record

def outs (i : ℕ) : List ObjHandle := (t.outRecs i).map EdgeRec.dst

def addRoot (i n : ℕ) : LinkedTable := { t with root := update t.root i (t.root i + n) }

def subRoot (i n : ℕ) : LinkedTable × Bool :=
  if t.root i < n then ({ t with root := update t.root i 0 }, false)
  else ({ t with root := update t.root i (t.root i - n) }, true)

def addEdgeTo (i : ℕ) : LinkedTable := { t with edge := update t.edge i (t.edge i + 1) }

def subEdgeTo (i : ℕ) : LinkedTable × Bool :=
  if t.edge i ≤ 0 then (t, false)
  else ({ t with edge := update t.edge i (t.edge i - 1) }, true)

def popFree : EdgeId × LinkedTable :=
  if t.freeHead = kNoEdge then (kNoEdge, t)
  else (t.freeHead, { t with freeHead := t.nextFree t.freeHead })

def pushFree (id : EdgeId) : LinkedTable :=
  { t with nextFree := update t.nextFree id t.freeHead, freeHead := id }

/-- A record as it was first made. -/
def fresh (id : EdgeId) : LinkedTable :=
  { t with
    record := update t.record id ⟨kNullHandle, kNullHandle⟩
    live := update t.live id false
    out := t.out.reset kNoEdge id
    inc := t.inc.reset kNoEdge id
    nextFree := update t.nextFree id kNoEdge }

/-- A record for a new edge: a recycled one, or the next of the arena. It throws when every id is
in use. -/
def allocateEdge : Option (EdgeId × LinkedTable) :=
  let r := t.popFree
  if r.1 = kNoEdge then
    if r.2.nextId = kNoEdge then none
    else
      let u := { r.2 with nextId := r.2.nextId + 1 }.fresh r.2.nextId
      some (r.2.nextId, { u with liveEdges := u.liveEdges + 1 })
  else
    let u := r.2.fresh r.1
    some (r.1, { u with liveEdges := u.liveEdges + 1 })

def addOut (src dst : ObjHandle) : Option LinkedTable :=
  t.allocateEdge.map fun (id, u) =>
    { u with
      record := update u.record id ⟨src, dst⟩
      live := update u.live id true
      out := u.out.push kNoEdge src.index id
      inc := u.inc.push kNoEdge dst.index id }

/-- Take a record out of both its lists and recycle it. -/
def unlink (id : EdgeId) : LinkedTable :=
  if t.live id = false then t
  else
    { t with
      out := t.out.unlink kNoEdge (t.record id).src.index id
      inc := t.inc.unlink kNoEdge (t.record id).dst.index id
      live := update t.live id false
      liveEdges := t.liveEdges - 1 }.pushFree id

/-- The first record of an edge from here on along an out-list. -/
def findOut (src dst : ObjHandle) : ℕ → EdgeId → Option EdgeId
  | 0, _ => none
  | n + 1, id =>
    if id = kNoEdge then none
    else if t.record id = ⟨src, dst⟩ then some id
    else findOut src dst n (t.out.next id)

/-- Remove one matching occurrence from the source's multiset. -/
def removeOut (src dst : ObjHandle) : LinkedTable × Bool :=
  match t.findOut src dst t.nextId (t.out.head src.index) with
  | some id => (t.unlink id, true)
  | none => (t, false)

/-- Unlink the records from here on along an out-list. -/
def clearFrom : ℕ → EdgeId → LinkedTable → LinkedTable
  | 0, _, t => t
  | n + 1, id, t => if id = kNoEdge then t else clearFrom n (t.out.next id) (t.unlink id)

/-- Remove every outgoing edge of a dying source. -/
def clearOuts (i : ℕ) : LinkedTable := clearFrom t.nextId (t.out.head i) t

/-- Give a slot a row as it was first made. -/
def resetSlot (i : ℕ) : LinkedTable :=
  let u := t.clearOuts i
  { u with
    root := update u.root i 0
    edge := update u.edge i 0
    out := u.out.clear kNoEdge i
    inc := u.inc.clear kNoEdge i }

/-- The lists are as they should be: `O` and `I` are the out-lists and the in-lists of the slots,
doubly linked and of the recorded lengths, a live record is in one of each, those of its source and
its target, and `F` is the free list, of the ids that have been given out and are not live. -/
structure Adjacency (O I : ℕ → List EdgeId) (F : List EdgeId) : Prop where
  out : t.out.Lists kNoEdge O
  inc : t.inc.Lists kNoEdge I
  mem_out : ∀ i x, x ∈ O i ↔ t.live x = true ∧ (t.record x).src.index = i
  mem_inc : ∀ i x, x ∈ I i ↔ t.live x = true ∧ (t.record x).dst.index = i
  live_lt : ∀ x, t.live x = true → x < t.nextId
  nextId_le : t.nextId ≤ kNoEdge
  free : Chain t.nextFree kNoEdge t.freeHead F
  mem_free : ∀ x, x ∈ F ↔ x < t.nextId ∧ t.live x = false
  liveEdges_eq : t.liveEdges = ((Finset.range t.nextId).filter fun x => t.live x = true).card

/-- The lists hold the records of a table. A record that occurs twice in an in-list may be taken
out at another place than in the table, so in-lists agree up to their order. -/
structure Represents (s : RefTable) (O I : ℕ → List EdgeId) (F : List EdgeId) : Prop
    extends Adjacency t O I F where
  root : t.root = s.root
  edge : t.edge = s.edge
  outRecs : ∀ i, s.outRecs i = (O i).map t.record
  inRecs : ∀ i, (s.inRecs i).Perm ((I i).map t.record)

variable {t} {O I : ℕ → List EdgeId} {F : List EdgeId} {i : ℕ} {x : EdgeId}

/-- Distinct ids below a bound are no more than the bound. -/
theorem length_le_of_lt {l : List EdgeId} {n : ℕ} (hnd : l.Nodup) (hl : ∀ x ∈ l, x < n) :
    l.length ≤ n := by
  rw [← List.toFinset_card_of_nodup hnd, ← Finset.card_range n]
  exact Finset.card_le_card fun x hx => Finset.mem_range.mpr (hl x (List.mem_toFinset.mp hx))

namespace Adjacency

theorem init : init.Adjacency (fun _ => []) (fun _ => []) [] where
  out := .init
  inc := .init
  mem_out i x := by simp [LinkedTable.init]
  mem_inc i x := by simp [LinkedTable.init]
  live_lt x hx := absurd hx (by simp [LinkedTable.init])
  nextId_le := Nat.zero_le _
  free := .nil
  mem_free x := by simp [LinkedTable.init]
  liveEdges_eq := by simp [LinkedTable.init]

/-- The records of a list are distinct ids that have been given out. -/
theorem length_le (h : t.Adjacency O I F) (i : ℕ) : (O i).length ≤ t.nextId :=
  length_le_of_lt (h.out.nodup i) fun x hx => h.live_lt x ((h.mem_out i x).mp hx).1

theorem length_inc_le (h : t.Adjacency O I F) (i : ℕ) : (I i).length ≤ t.nextId :=
  length_le_of_lt (h.inc.nodup i) fun x hx => h.live_lt x ((h.mem_inc i x).mp hx).1

theorem outRecs_eq (h : t.Adjacency O I F) (i : ℕ) : t.outRecs i = (O i).map t.record := by
  unfold outRecs
  rw [(h.out.chain i).walk_eq (h.length_le i)]

/-- The lengths of the lists fit in a machine word. -/
theorem count_le (h : t.Adjacency O I F) (i : ℕ) :
    t.out.count i ≤ kNoEdge ∧ t.inc.count i ≤ kNoEdge := by
  rw [h.out.count_eq, h.inc.count_eq]
  exact ⟨(h.length_le i).trans h.nextId_le, (h.length_inc_le i).trans h.nextId_le⟩

theorem ne_noEdge (h : t.Adjacency O I F) (hx : t.live x = true) : x ≠ kNoEdge :=
  ((h.live_lt x hx).trans_le h.nextId_le).ne

theorem notMem_of_dead (h : t.Adjacency O I F) (hx : t.live x = false) (i : ℕ) :
    x ∉ O i ∧ x ∉ I i := by
  constructor
  · intro hm
    rw [((h.mem_out i x).mp hm).1] at hx
    exact Bool.noConfusion hx
  · intro hm
    rw [((h.mem_inc i x).mp hm).1] at hx
    exact Bool.noConfusion hx

end Adjacency

/-- One record more that is live. -/
theorem card_live {f g : EdgeId → Bool} {n n' : ℕ} (hx : f x = false)
    (hl : ∀ y, f y = true → y < n) (hl' : ∀ y, g y = true → y < n')
    (h : ∀ y, g y = true ↔ y = x ∨ f y = true) :
    ((Finset.range n').filter fun y => g y = true).card =
      ((Finset.range n).filter fun y => f y = true).card + 1 := by
  have hins : ((Finset.range n').filter fun y => g y = true) =
      insert x ((Finset.range n).filter fun y => f y = true) := by
    ext y
    rw [Finset.mem_insert, Finset.mem_filter, Finset.mem_filter, Finset.mem_range, Finset.mem_range,
      h]
    constructor
    · rintro ⟨-, rfl | hy⟩
      · exact Or.inl rfl
      · exact Or.inr ⟨hl y hy, hy⟩
    · rintro (rfl | ⟨-, hy⟩)
      · exact ⟨hl' y ((h y).mpr (Or.inl rfl)), Or.inl rfl⟩
      · exact ⟨hl' y ((h y).mpr (Or.inr hy)), Or.inr hy⟩
  rw [hins, Finset.card_insert_of_notMem]
  rw [Finset.mem_filter, hx]
  exact fun hm => Bool.noConfusion hm.2

end LinkedTable

end Loxis.Aarc

/-! ## The engine over the linked table

The collection engine with the adjacency lists in memory. Every operation that changes the table
is spelled out over the arena; a scan only reads it and sees the lists written out.
-/

namespace Loxis.Aarc

open Function

/-- An engine with the pool and the arena it accounts over. -/
structure LinkedEngine extends Scratch where
  pool : CellPool
  tab : LinkedTable
  kind : Regime
  owner : OwnerToken

namespace LinkedEngine

variable (e : LinkedEngine)

/-- The engine as a scan reads it, with the lists of every row written out. -/
def view : AarcEngine :=
  { e.toScratch with
    pool := e.pool, tab := ⟨e.tab.root, e.tab.edge, e.tab.outRecs, e.tab.inRecs⟩, kind := e.kind
    owner := e.owner }

def live (h : ObjHandle) : Bool := e.pool.valid h

def markZero (i : ℕ) : LinkedEngine :=
  if e.zeroMark i then e
  else { e with zeroMark := update e.zeroMark i true, zeroStack := i :: e.zeroStack }

def setSuspect (i : ℕ) : LinkedEngine :=
  if e.suspectMark i then e
  else
    { e with
      suspectMark := update e.suspectMark i true
      activeSuspects := e.activeSuspects + 1
      suspectStack := i :: e.suspectStack }

def clearSuspect (i : ℕ) : LinkedEngine :=
  if e.suspectMark i then
    { e with
      suspectMark := update e.suspectMark i false
      activeSuspects := e.activeSuspects - 1 }
  else e

def markSuspect (i : ℕ) : LinkedEngine := e.setSuspect i

def mark (i : ℕ) : LinkedEngine :=
  if e.tab.total i = 0 then e.markZero i
  else if e.tab.hasOutgoing i then e.markSuspect i
  else e

def dropStale : LinkedEngine := { e with staleDropped := e.staleDropped + 1 }

def setTab (t : LinkedTable) : LinkedEngine := { e with tab := t }

/-- Apply one message. A new edge for which no record is left throws. -/
def process (m : GCMessage) : Option LinkedEngine :=
  match m.op with
  | .rootAdd =>
    if e.live m.b then some (e.setTab (e.tab.addRoot m.b.index m.count)) else some e.dropStale
  | .rootRemove =>
    if !e.live m.b then some e.dropStale
    else
      let r := e.tab.subRoot m.b.index m.count
      if !r.2 then some { e.setTab r.1 with rootUnderflow := e.rootUnderflow + 1 }
      else some ((e.setTab r.1).mark m.b.index)
  | .rootCheck => if !e.live m.b then some e.dropStale else some (e.mark m.b.index)
  | .edgeAdd =>
    if !e.live m.a || !e.live m.b then some e.dropStale
    else ((e.tab.addEdgeTo m.b.index).addOut m.a m.b).map e.setTab
  | .edgeRemove =>
    if !e.live m.a then some e.dropStale
    else
      let r := e.tab.removeOut m.a m.b
      if !r.2 then some { e with edgeUnderflow := e.edgeUnderflow + 1 }
      else
        let e := e.setTab r.1
        if !e.live m.b then some e.dropStale
        else
          let s := e.tab.subEdgeTo m.b.index
          if !s.2 then some { e with edgeUnderflow := e.edgeUnderflow + 1 }
          else some ((e.setTab s.1).mark m.b.index)
  | .terminate => some e

/-- Give back one incoming edge of a target. -/
def releaseEdge (i : ℕ) : LinkedEngine := (e.setTab (e.tab.subEdgeTo i).1).mark i

/-- Give back the edges into the targets that `p` selects. -/
def releaseOuts (p : ObjHandle → Bool) (ts : List ObjHandle) : LinkedEngine :=
  ts.foldl (fun e t => if p t then e.releaseEdge t.index else e) e

/-- Free a cell that nothing refers to, after its outgoing edges. -/
def reclaimCell (i : ℕ) : LinkedEngine :=
  let self : ObjHandle := ⟨i, e.pool.generationOf i⟩
  let e := e.clearSuspect i
  let e := e.releaseOuts (fun t => e.pool.isLiveAt t.index) (e.tab.outs i)
  { e with tab := e.tab.resetSlot i, pool := e.pool.free self }

def sweepZeroTurn : LinkedEngine × Bool :=
  match e.zeroStack with
  | [] => (e, false)
  | i :: rest =>
    let e := { e with zeroStack := rest, zeroMark := update e.zeroMark i false }
    if !e.pool.isLiveAt i then (e, true)
    else if e.tab.total i ≠ 0 then (e, true)
    else (e.reclaimCell i, true)

def sweepZero : LinkedEngine :=
  iterUntil sweepZeroTurn (e.pool.used * (e.pool.capacity + 1) + e.zeroStack.length + 1) e

/-- Detach a member of a garbage component: release its external targets, unlink its edges. -/
def detachMember (s : ℕ) (e : LinkedEngine) (i : ℕ) : LinkedEngine :=
  let e := e.releaseOuts (fun t => e.pool.valid t && decide (e.detector.scc t.index ≠ some s))
    (e.tab.outs i)
  e.setTab (e.tab.clearOuts i)

/-- Reset the row of a detached member and free its cell. -/
def freeMember (e : LinkedEngine) (i : ℕ) : LinkedEngine :=
  let e := (e.setTab (e.tab.resetSlot i)).clearSuspect i
  { e with pool := e.pool.free ⟨i, e.pool.generationOf i⟩ }

def reclaimCycleComponent (s : ℕ) (members : List ℕ) : LinkedEngine :=
  members.foldl freeMember (members.foldl (detachMember s) e)

def reclaimComponents (cs : List (ℕ × List ℕ)) : LinkedEngine :=
  cs.foldl (fun e c => e.reclaimCycleComponent c.1 c.2) e

/-- One scan and reclaim pass; reports whether a cell was reclaimed. -/
def collectCyclePass : LinkedEngine × Bool :=
  let roots := e.view.scanRoots
  let e := { e with suspectStack := [] }
  if roots.isEmpty then (e, false)
  else
    let e := { e with detector := (e.view.findComponents roots).detector }
    let visited := e.detector.visited
    if e.detector.comps = 0 then (e, false)
    else
      let cs := e.view.garbage
      let e := (visited.foldl clearSuspect e).reclaimComponents cs
      ({ e with detector := Tarjan.release visited e.detector }, !cs.isEmpty)

def collectCycles : LinkedEngine := iterUntil collectCyclePass (e.pool.used + 1) e

def sweepTurn : LinkedEngine × Bool :=
  let e := e.sweepZero
  if e.suspectStack.isEmpty then (e, false) else (e.collectCycles, true)

def sweep : LinkedEngine := iterUntil sweepTurn (2 * e.pool.used + 2) e

end LinkedEngine

end Loxis.Aarc
