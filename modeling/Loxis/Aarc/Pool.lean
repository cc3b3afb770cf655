import Mathlib.Algebra.GroupWithZero.Nat
import Mathlib.Data.List.Range
import Loxis.Aarc.Cell
import Loxis.Lib.Links

/-! # The holders of free slots

The pool with the places where its free slots wait: a linked list for each shard, and for each
producer a recycle pile, which the collector fills, and a local cache, which the producer
refills from the others.
-/

namespace Loxis.Aarc

open Function

def kMaxOwners : ℕ := 64

/-- The room of a recycle pile. -/
def kRecycleCap : ℕ := 1024

/-- The room of a local cache. -/
def kRefill : ℕ := 64

def kShards : ℕ := 16

/-- The end of a shard's list. -/
def kFreeEnd : ℕ := 0xFFFFFFFF

/-- The pool. Piles are oldest first, caches newest first; `errs` counts refused frees. -/
structure SlotPool where
  capacity : ℕ
  gen : ℕ → ℕ
  live : ℕ → Bool
  owner : ℕ → OwnerToken
  regime : ℕ → Regime
  next : ℕ → ℕ
  heads : ℕ → ℕ
  recycle : ℕ → List ObjHandle
  cached : ℕ → List ObjHandle
  errs : ℕ
  useLocalCache : Bool
  defaultRegime : Regime

namespace SlotPool

variable (p : SlotPool)

/-- The shard of a slot, in 32-bit arithmetic. -/
def shardOf (i : ℕ) : ℕ :=
  let per := (p.capacity + kShards - 1) % 2 ^ 32 / kShards
  let s := i / if per = 0 then 1 else per
  if s < kShards then s else kShards - 1

/-- Put a slot in front of the list of its shard. -/
def pushShard (i : ℕ) : SlotPool :=
  { p with
    next := update p.next i (p.heads (p.shardOf i))
    heads := update p.heads (p.shardOf i) i }

/-- A pool in which no slot is in a list yet. -/
def blank (capacity : ℕ) (defaultRegime : Regime) : SlotPool where
  capacity := if capacity = 0 then 1 else capacity
  gen _ := 1
  live _ := false
  owner _ := kNoOwnerToken
  regime _ := defaultRegime
  next _ := 0
  heads _ := kFreeEnd
  recycle _ := []
  cached _ := []
  errs := 0
  useLocalCache := true
  defaultRegime := defaultRegime

/-- A fresh pool: the slots are put in their lists from the last to the first. -/
def new (capacity : ℕ) (defaultRegime : Regime) : SlotPool :=
  let p := blank capacity defaultRegime
  (List.range p.capacity).reverse.foldl pushShard p

def valid (h : ObjHandle) : Bool :=
  decide (h.index < p.capacity) && p.live h.index && decide (p.gen h.index = h.gen)

def popFrom (s : ℕ) : Option (ObjHandle × SlotPool) :=
  if p.heads s = kFreeEnd then none
  else
    some (⟨p.heads s, p.gen (p.heads s)⟩, { p with heads := update p.heads s (p.next (p.heads s)) })

/-- Take the oldest slot of a recycle pile. -/
def tryPop (o : ℕ) : Option (ObjHandle × SlotPool) :=
  match p.recycle o with
  | [] => none
  | h :: rest => some (h, { p with recycle := update p.recycle o rest })

/-- Move slots into a cache while there are any, at most `room` of them. -/
def fill (take : SlotPool → Option (ObjHandle × SlotPool)) (o : ℕ) : ℕ → SlotPool → SlotPool
  | 0, p => p
  | room + 1, p =>
    match take p with
    | none => p
    | some (h, q) => fill take o room { q with cached := update q.cached o (h :: q.cached o) }

/-- The room left in a cache. -/
def room (o : ℕ) : ℕ := kRefill - (p.cached o).length

/-- Top a cache up from its recycle pile, then from the shards, beginning with the thread's. -/
def refillLocal (tlsShard o : ℕ) : SlotPool :=
  let p := fill (·.tryPop o) o (p.room o) p
  if (p.cached o).length = kRefill then p
  else
    (List.range kShards).foldl
      (fun p k => fill (·.popFrom ((tlsShard + k) % kShards)) o (p.room o) p) p

/-- Claim a free slot: record owner and regime, then publish it live. -/
def activate (h : ObjHandle) (owner : OwnerToken) (r : Regime) : SlotPool :=
  { p with
    gen := update p.gen h.index h.gen
    live := update p.live h.index true
    owner := update p.owner h.index owner
    regime := update p.regime h.index r }

/-- The first slot that a shard has, beginning with the thread's. -/
def popShards (tlsShard : ℕ) : Option (ObjHandle × SlotPool) :=
  (List.range kShards).findSome? fun k => p.popFrom ((tlsShard + k) % kShards)

/-- A shard's slot for an allocation that found none in a cache. -/
def allocShared (tlsShard : ℕ) (owner : OwnerToken) (r : Regime) : Option ObjHandle × SlotPool :=
  match p.popShards tlsShard with
  | none => (none, p)
  | some (h, q) => (some h, q.activate h owner r)

/-- The shared allocation core: the cache of the owner, refilled when empty, then the shards. -/
def allocInto (tlsShard : ℕ) (owner : OwnerToken) (r : Regime) : Option ObjHandle × SlotPool :=
  if p.useLocalCache && decide (owner.id < kMaxOwners) then
    let p := if p.cached owner.id = [] then p.refillLocal tlsShard owner.id else p
    match p.cached owner.id with
    | h :: rest =>
      (some h, { p with cached := update p.cached owner.id rest }.activate h owner r)
    | [] => p.allocShared tlsShard owner r
  else p.allocShared tlsShard owner r

def alloc (tlsShard : ℕ) : Option ObjHandle × SlotPool :=
  p.allocInto tlsShard kNoOwnerToken p.defaultRegime

def allocOwned (tlsShard : ℕ) (owner : OwnerToken) : Option ObjHandle × SlotPool :=
  p.allocInto tlsShard owner p.defaultRegime

def allocLocalRegime (tlsShard : ℕ) (owner : OwnerToken) : Option ObjHandle × SlotPool :=
  p.allocInto tlsShard owner .loc

def allocSharedRegime (tlsShard : ℕ) (owner : OwnerToken) : Option ObjHandle × SlotPool :=
  p.allocInto tlsShard owner .shared

/-- Refuse a free. -/
def refuse : Bool × SlotPool := (false, { p with errs := p.errs + 1 })

/-- Recycle a cell, unless the handle is stale: into the pile of its owner when the collector
frees it and there is room, else into its shard. A slot at the last generation is retired. -/
def free (h : ObjHandle) : Bool × SlotPool :=
  if p.capacity ≤ h.index then p.refuse
  else if p.live h.index = false then p.refuse
  else if p.gen h.index ≠ h.gen then p.refuse
  else if p.gen h.index = kGenMax then (true, { p with live := update p.live h.index false })
  else
    let o := (p.owner h.index).id
    let freed : ObjHandle := ⟨h.index, p.gen h.index + 1⟩
    let q :=
      { p with
        gen := update p.gen h.index (p.gen h.index + 1)
        live := update p.live h.index false }
    if p.regime h.index = .shared ∧ o < kMaxOwners ∧ (p.recycle o).length < kRecycleCap then
      (true, { q with recycle := update q.recycle o (q.recycle o ++ [freed]) })
    else (true, q.pushShard h.index)

/-- Empty a recycle pile into the shards. -/
def drainPile (o : ℕ) : SlotPool :=
  (p.recycle o).foldl (fun p h => p.pushShard h.index) { p with recycle := update p.recycle o [] }

def drainRecycleAll : SlotPool := (List.range kMaxOwners).foldl drainPile p

def setRegime (h : ObjHandle) (r : Regime) : SlotPool :=
  if h.index < p.capacity then { p with regime := update p.regime h.index r } else p

def setLocalCache (v : Bool) : SlotPool := { p with useLocalCache := v }

end SlotPool

end Loxis.Aarc
