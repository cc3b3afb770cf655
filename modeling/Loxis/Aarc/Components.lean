import Loxis.Lib.Links
import Loxis.Aarc.Cell

/-! # Components of local cells

An over-approximation of which local cells are connected: a cell starts alone, an edge joins the
components of its ends, and nothing splits a component. Its members are linked through their
slots, so that one which dies is taken out and a promotion finds all the others.
-/

namespace Loxis.Aarc

open Function

/-- No component, and the end of a member list. -/
def kNoComp : ℕ := 0xFFFFFFFF

namespace ConservativeComponents

/-- The ends of a member list and its length. -/
structure Header where
  owner : OwnerToken := kNoOwnerToken
  head : ℕ := kNoComp
  tail : ℕ := kNoComp
  live : ℕ := 0
  deriving DecidableEq, Repr

/-- The headers of one owner; those in the free list, newest first, are not in use. -/
structure OwnerStore where
  header : ℕ → Header
  size : ℕ
  freeList : List ℕ

namespace OwnerStore

variable (s : OwnerStore)

def newHeader : ℕ × OwnerStore :=
  match s.freeList with
  | id :: rest => (id, { s with freeList := rest })
  | [] => (s.size, { s with header := update s.header s.size {}, size := s.size + 1 })

def setHeader (id : ℕ) (h : Header) : OwnerStore := { s with header := update s.header id h }

def freeHeader (id : ℕ) : OwnerStore :=
  { s with header := update s.header id {}, freeList := id :: s.freeList }

end OwnerStore

end ConservativeComponents

open ConservativeComponents

structure ConservativeComponents where
  capacity : ℕ
  compOf : ℕ → ℕ
  prev : ℕ → ℕ
  next : ℕ → ℕ
  stores : ℕ → OwnerStore

namespace ConservativeComponents

def init (capacity : ℕ) : ConservativeComponents where
  capacity := capacity
  compOf _ := kNoComp
  prev _ := kNoComp
  next _ := kNoComp
  stores _ := ⟨fun _ => {}, 0, []⟩

variable (c : ConservativeComponents) (owner : OwnerToken)

def storeOf : OwnerStore := c.stores owner.id

def setStore (s : OwnerStore) : ConservativeComponents :=
  { c with stores := update c.stores owner.id s }

/-- A slot that leaves the components. -/
def reset (slot : ℕ) : ConservativeComponents :=
  { c with
    compOf := update c.compOf slot kNoComp
    prev := update c.prev slot kNoComp
    next := update c.next slot kNoComp }

/-- A fresh component for one slot. -/
def addLocal (slot : ℕ) : ConservativeComponents :=
  let (comp, s) := (c.storeOf owner).newHeader
  { c.setStore owner (s.setHeader comp ⟨owner, slot, slot, 1⟩) with
    compOf := update c.compOf slot comp
    prev := update c.prev slot kNoComp
    next := update c.next slot kNoComp }

/-- Label the slots from one on. -/
def relabel (slot comp : ℕ) : ConservativeComponents :=
  { c with
    compOf := (walk c.next kNoComp c.capacity slot).foldl (fun f m => update f m comp) c.compOf }

/-- Join the components of two slots: the list of the second goes behind that of the first. -/
def merge (a b : ℕ) : ConservativeComponents :=
  let ca := c.compOf a
  let cb := c.compOf b
  if ca = kNoComp ∨ cb = kNoComp ∨ ca = cb then c
  else
    let s := c.storeOf owner
    let ha := s.header ca
    let hb := s.header cb
    let c :=
      { c with
        next := if ha.tail ≠ kNoComp then update c.next ha.tail hb.head else c.next
        prev := if hb.head ≠ kNoComp then update c.prev hb.head ha.tail else c.prev }
    let s := s.setHeader ca { ha with tail := hb.tail, live := ha.live + hb.live }
    (c.relabel hb.head ca).setStore owner (s.freeHeader cb)

/-- Whether a component is one of the owner's. -/
def owns (comp : ℕ) : Bool :=
  decide (comp < (c.storeOf owner).size) && decide (((c.storeOf owner).header comp).owner = owner)

/-- Take a slot out of its component; a component without members is given back. -/
def unlink (slot : ℕ) : ConservativeComponents :=
  let comp := c.compOf slot
  if comp = kNoComp then c
  else
    let p := c.prev slot
    let n := c.next slot
    if !c.owns owner comp then c
    else
      let s := c.storeOf owner
      let hdr := s.header comp
      let hdr :=
        { hdr with
          head := if p ≠ kNoComp then hdr.head else n
          tail := if n ≠ kNoComp then hdr.tail else p
          live := hdr.live - 1 }
      let s := s.setHeader comp hdr
      let c :=
        { c with
          next := if p ≠ kNoComp then update c.next p n else c.next
          prev := if n ≠ kNoComp then update c.prev n p else c.prev }
      (c.reset slot).setStore owner (if hdr.live = 0 then s.freeHeader comp else s)

/-- Empty a member list from a slot on; reports the slots in the order of the visit. -/
def leaveFrom : ℕ → ℕ → ConservativeComponents → List ℕ × ConservativeComponents
  | 0, _, c => ([], c)
  | n + 1, m, c =>
    if m = kNoComp then ([], c)
    else
      let next := c.next m
      let r := leaveFrom n next (c.reset m)
      (m :: r.1, r.2)

/-- Retire the component of a slot; reports its members, which are to be promoted. -/
def promoteComponent (seed : ℕ) : List ℕ × ConservativeComponents :=
  let comp := c.compOf seed
  if comp = kNoComp then ([], c)
  else if !c.owns owner comp then ([], c)
  else
    let s := c.storeOf owner
    let r := leaveFrom c.capacity (s.header comp).head c
    (r.1, r.2.setStore owner (s.freeHeader comp))

/-- The members of a component, as its list links them. -/
def members (comp : ℕ) : List ℕ :=
  walk c.next kNoComp c.capacity ((c.storeOf owner).header comp).head

@[simp] theorem capacity_addLocal (slot : ℕ) : (c.addLocal owner slot).capacity = c.capacity := rfl

@[simp] theorem capacity_merge (a b : ℕ) : (c.merge owner a b).capacity = c.capacity := by
  unfold merge
  dsimp only
  split <;> rfl

@[simp] theorem capacity_unlink (slot : ℕ) : (c.unlink owner slot).capacity = c.capacity := by
  unfold unlink
  dsimp only
  split
  · rfl
  · split <;> rfl

theorem capacity_leaveFrom (n m : ℕ) : (leaveFrom n m c).2.capacity = c.capacity := by
  induction n generalizing m c with
  | zero => rfl
  | succ n ih =>
    unfold leaveFrom
    split
    · rfl
    · exact ih (c.reset m) (c.next m)

@[simp] theorem capacity_promoteComponent (seed : ℕ) :
    (c.promoteComponent owner seed).2.capacity = c.capacity := by
  unfold promoteComponent
  dsimp only
  split
  · rfl
  · split
    · rfl
    · exact capacity_leaveFrom c _ _

end ConservativeComponents

end Loxis.Aarc
