import Mathlib.Data.Nat.Notation
import Mathlib.Logic.Function.Basic
import Mathlib.Tactic.Common

/-! # Cells, handles and messages

A cell is a pool slot together with a generation that is bumped whenever the slot
is recycled. Mutators name cells by versioned handles, also in the messages they
send to a collector, so a stale handle never names a later object.
-/

namespace Loxis.Aarc

open Function

/-- A versioned handle: slot index and the generation of the slot at creation time. -/
structure ObjHandle where
  index : ℕ
  gen : ℕ
  deriving DecidableEq, Repr

def kNullIndex : ℕ := 0xFFFFFFFF

def kNullHandle : ObjHandle := ⟨kNullIndex, 0⟩

/-- Owner identity: a reusable slot id plus a generation. -/
structure OwnerToken where
  id : ℕ
  generation : ℕ
  deriving DecidableEq, Repr

def kNoOwnerToken : OwnerToken := ⟨0xFFFF, 0⟩

inductive Regime | loc | promoting | shared
  deriving DecidableEq, Repr

/-- The largest generation; a slot freed at it is retired. -/
def kGenMax : ℕ := 0xFFFFFFFF

/-- The metadata of the pool. A slot is `avail` while it waits in a free list, a recycle
pile or an owner cache; retired slots are neither live nor available. -/
structure CellPool where
  capacity : ℕ
  gen : ℕ → ℕ
  live : ℕ → Bool
  avail : ℕ → Bool
  owner : ℕ → OwnerToken
  regime : ℕ → Regime

namespace CellPool

/-- A fresh pool: every slot is free at generation one. -/
def init (capacity : ℕ) (r : Regime) : CellPool where
  capacity := capacity
  gen _ := 1
  live _ := false
  avail _ := true
  owner _ := kNoOwnerToken
  regime _ := r

variable (p : CellPool)

def isLiveAt (i : ℕ) : Bool := decide (i < p.capacity) && p.live i

def valid (h : ObjHandle) : Bool := p.isLiveAt h.index && decide (p.gen h.index = h.gen)

def generationOf (i : ℕ) : ℕ := if i < p.capacity then p.gen i else 0

def regimeAt (i : ℕ) : Regime := if i < p.capacity then p.regime i else .shared

def regimeOf (h : ObjHandle) : Regime := p.regimeAt h.index

def ownerTokenAt (i : ℕ) : OwnerToken := if i < p.capacity then p.owner i else kNoOwnerToken

def setRegime (h : ObjHandle) (r : Regime) : CellPool :=
  if h.index < p.capacity then { p with regime := update p.regime h.index r } else p

/-- The handle of the object that occupies a slot, or would occupy it next. -/
def handleAt (i : ℕ) : ObjHandle := ⟨i, p.gen i⟩

/-- Claim a free slot: record owner and regime, then publish it live. -/
def activate (h : ObjHandle) (owner : OwnerToken) (r : Regime) : CellPool :=
  { p with
    gen := update p.gen h.index h.gen
    live := update p.live h.index true
    avail := update p.avail h.index false
    owner := update p.owner h.index owner
    regime := update p.regime h.index r }

/-- Allocate the free slot `i`. Which slot the caches and lists yield is left open. -/
def allocInto (i : ℕ) (owner : OwnerToken) (r : Regime) : Option (ObjHandle × CellPool) :=
  if i < p.capacity ∧ p.avail i = true then
    some (p.handleAt i, p.activate (p.handleAt i) owner r)
  else none

/-- Recycle a cell; a dead or stale handle changes nothing. -/
def free (h : ObjHandle) : CellPool :=
  if p.valid h = false then p
  else if h.gen = kGenMax then { p with live := update p.live h.index false }
  else
    { p with
      gen := update p.gen h.index (h.gen + 1)
      live := update p.live h.index false
      avail := update p.avail h.index true }

/-- The number of live cells. -/
def used : ℕ := ((List.range p.capacity).filter p.isLiveAt).length

/-- Available slots are not live. -/
def Sound : Prop := ∀ i, p.avail i = true → p.live i = false

variable {p} {h : ObjHandle} {i : ℕ}

theorem isLiveAt_iff : p.isLiveAt i = true ↔ i < p.capacity ∧ p.live i = true := by
  simp [isLiveAt]

theorem valid_iff : p.valid h = true ↔ p.isLiveAt h.index = true ∧ p.gen h.index = h.gen := by
  simp [valid]

theorem valid_handleAt : p.valid (p.handleAt i) = p.isLiveAt i := by
  simp [valid, handleAt]

theorem handleAt_of_valid (hv : p.valid h = true) : p.handleAt h.index = h := by
  obtain ⟨-, hg⟩ := valid_iff.mp hv
  simp [handleAt, hg]

@[simp] theorem handleAt_index (p : CellPool) (i : ℕ) : (p.handleAt i).index = i := rfl

theorem eq_of_valid {h' : ObjHandle} (hv : p.valid h = true) (hv' : p.valid h' = true)
    (hi : h.index = h'.index) : h = h' := by
  rw [← handleAt_of_valid hv, ← handleAt_of_valid hv', hi]

@[simp] theorem free_capacity : (p.free h).capacity = p.capacity := by
  unfold free; split <;> (try split) <;> rfl

@[simp] theorem free_owner : (p.free h).owner = p.owner := by
  unfold free; split <;> (try split) <;> rfl

@[simp] theorem free_regime : (p.free h).regime = p.regime := by
  unfold free; split <;> (try split) <;> rfl

theorem isLiveAt_free (hv : p.valid h = true) (j : ℕ) :
    (p.free h).isLiveAt j = (p.isLiveAt j && decide (j ≠ h.index)) := by
  unfold free
  rw [if_neg (by simp [hv])]
  split <;> simp only [isLiveAt, update_apply] <;> grind

theorem gen_free_of_ne {j : ℕ} (hj : j ≠ h.index) : (p.free h).gen j = p.gen j := by
  unfold free; split <;> (try split) <;> simp [hj]

theorem avail_free_of_ne {j : ℕ} (hj : j ≠ h.index) : (p.free h).avail j = p.avail j := by
  unfold free; split <;> (try split) <;> simp [hj]

theorem gen_le_free (j : ℕ) : p.gen j ≤ (p.free h).gen j := by
  unfold free
  split
  · exact Nat.le_refl _
  · next hv =>
    have hg := (valid_iff.mp (by simpa using hv)).2
    split
    · exact Nat.le_refl _
    · simp only [update_apply]
      split
      · next hj => rw [hj, hg]; omega
      · exact Nat.le_refl _

/-- A recycled slot is handed out again only under a later generation. -/
theorem gen_lt_free (hp : p.Sound) (hv : p.valid h = true)
    (ha : (p.free h).avail h.index = true) : p.gen h.index < (p.free h).gen h.index := by
  obtain ⟨hl, hg⟩ := valid_iff.mp hv
  unfold free at ha ⊢
  rw [if_neg (by simp [hv])] at ha ⊢
  split at ha
  · have := hp _ ha
    rw [(isLiveAt_iff.mp hl).2] at this
    simp at this
  · next hne => rw [if_neg hne]; simp [hg]

theorem Sound.free (hp : p.Sound) : (p.free h).Sound := by
  intro j hj
  unfold CellPool.free at hj ⊢
  split at hj
  · next h1 => rw [if_pos h1]; exact hp j hj
  · next h1 =>
    rw [if_neg h1]
    split at hj
    · next h2 =>
      rw [if_pos h2]
      simp only [update_apply]
      split
      · rfl
      · exact hp j hj
    · next h2 =>
      rw [if_neg h2]
      simp only [update_apply] at hj ⊢
      split
      · rfl
      · next hne => exact hp j (by simpa [hne] using hj)

theorem Sound.activate (hp : p.Sound) (o : OwnerToken) (r : Regime) :
    (p.activate h o r).Sound := by
  intro j hj
  simp only [CellPool.activate, update_apply] at hj ⊢
  split at hj
  · simp at hj
  · next hne => rw [if_neg hne]; exact hp j hj

theorem init_sound (n : ℕ) (r : Regime) : (init n r).Sound := fun _ _ => rfl

theorem allocInto_eq_some {o : OwnerToken} {r : Regime} {q : CellPool}
    (ha : p.allocInto i o r = some (h, q)) :
    i < p.capacity ∧ p.avail i = true ∧ h = p.handleAt i ∧ q = p.activate h o r := by
  unfold allocInto at ha
  split at ha
  · next hc =>
    obtain ⟨rfl, rfl⟩ := Prod.mk.inj (Option.some.inj ha)
    exact ⟨hc.1, hc.2, rfl, rfl⟩
  · simp at ha

@[simp] theorem activate_handleAt_gen (o : OwnerToken) (r : Regime) :
    (p.activate (p.handleAt i) o r).gen = p.gen := update_eq_self i p.gen

theorem isLiveAt_activate (hi : i < p.capacity) (o : OwnerToken) (r : Regime) (j : ℕ) :
    (p.activate (p.handleAt i) o r).isLiveAt j = (p.isLiveAt j || decide (j = i)) := by
  simp only [isLiveAt, activate, handleAt, update_apply]
  grind

end CellPool

/-- Reference mutations a mutator reports, and the re-evaluation a folded pair leaves behind. -/
inductive GCOp | rootAdd | rootRemove | rootCheck | edgeAdd | edgeRemove | terminate
  deriving DecidableEq, Repr

/-- A message: `a` is the edge source, `b` the root or edge target, `count` the folded
multiplicity of a root operation. -/
structure GCMessage where
  op : GCOp
  a : ObjHandle := kNullHandle
  b : ObjHandle
  count : ℕ := 1
  deriving DecidableEq, Repr

end Loxis.Aarc
