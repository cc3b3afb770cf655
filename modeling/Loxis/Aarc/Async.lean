import Loxis.Lib.Run
import Loxis.Aarc.Worker

/-! # The asynchronous runtime

Any number of mutators report their root and edge operations through channels to one
worker. An operation is one step up to the message it stages, as is each step of a
flush, of `close` and of the worker's round. Beside the state of the runtime stand
the references that the operations add up to in real time, and the scene at the cut.
-/

namespace Loxis.Aarc

open Function

/-- The switches of an asynchronous runtime. -/
structure Config where
  fold : Bool
  fastRootValid : Bool
  batchLimit : ℕ
  one_le : 1 ≤ batchLimit
  le_max : batchLimit ≤ kMaxBatch

/-- A mutator session: its root bag, and the roots that a running `close` has yet to report. -/
structure Mutator where
  owner : OwnerToken := kNoOwnerToken
  bag : List ObjHandle := []
  owed : Option (List ObjHandle) := none
  isClosed : Bool := false

/-- A runtime with its mutators. `roots` and `edges` are what the operations performed so far
add up to when they are applied in the order in which they happened. -/
structure Scene extends World where
  muts : ℕ → Mutator := fun _ => {}
  roots : ObjHandle → ℕ := fun _ => 0
  edges : EdgeRec → ℕ := fun _ => 0

/-- A running scene, and the scene at the cut of the latest round. -/
structure Async extends Scene where
  cut : Scene

inductive Async.Action
  | join (o : OwnerToken)
  | alloc (i k : ℕ)
  | rootAdd (i : ℕ) (h : ObjHandle)
  | rootRemove (i : ℕ) (h : ObjHandle)
  | edgeAdd (i : ℕ) (a b : ObjHandle)
  | edgeRemove (i : ℕ) (a b : ObjHandle)
  | beginFlush (i : ℕ)
  | commit (i n : ℕ)
  | endFlush (i : ℕ)
  | close (i : ℕ) (order : List ObjHandle)
  | closeRoot (i : ℕ)
  | closed (i : ℕ)
  | work
  deriving DecidableEq

namespace Scene

variable (c : Config) (s : Scene)

def init (capacity : ℕ) : Scene := { eng := .init capacity .shared kNoOwnerToken }

/-- The mutator is not inside a flush, and its batch has room. -/
def CanStage (i : ℕ) : Prop :=
  i < s.slots ∧ (s.chan i).flushing = false ∧ (s.chan i).batchN < c.batchLimit

/-- The mutator can start an operation. -/
def CanRun (i : ℕ) : Prop := s.CanStage c i ∧ (s.muts i).owed = none

instance (i : ℕ) : Decidable (s.CanStage c i) := inferInstanceAs (Decidable (_ ∧ _ ∧ _))
instance (i : ℕ) : Decidable (s.CanRun c i) := inferInstanceAs (Decidable (_ ∧ _))

/-- Stage a message; the reference it reports counts from now on. -/
def submit (i : ℕ) (m : GCMessage) : Scene :=
  { s with
    chan := update s.chan i ((s.chan i).publish m)
    roots := m.rootsAfter s.roots
    edges := m.edgesAfter s.edges }

def setChan (i : ℕ) (d : Channel) : Scene := { s with chan := update s.chan i d }

def setMut (i : ℕ) (μ : Mutator) : Scene := { s with muts := update s.muts i μ }

/-- The root bag of a mutator after it gained a root. -/
def addBag (i : ℕ) (h : ObjHandle) : Scene :=
  s.setMut i { s.muts i with bag := h :: (s.muts i).bag }

def removeBag (i : ℕ) (h : ObjHandle) : Scene :=
  s.setMut i { s.muts i with bag := (s.muts i).bag.erase h }

/-- One step of a mutator. An operation that the runtime refuses is no step. -/
def act : Async.Action → Option Scene
  | .join o => some { s with toWorld := s.toWorld.join, muts := update s.muts s.slots { owner := o } }
  | .alloc i k =>
    if s.CanRun c i then
      (s.eng.pool.allocInto k (s.muts i).owner .shared).map fun hp =>
        ({ s with eng := s.eng.setPool hp.2 }.submit i { op := .rootAdd, b := hp.1 }).addBag i hp.1
    else none
  | .rootAdd i h =>
    if s.CanRun c i ∧ (s.muts i).isClosed = false ∧ s.eng.live h = true then
      some ((s.submit i { op := .rootAdd, b := h }).addBag i h)
    else none
  | .rootRemove i h =>
    if s.CanRun c i ∧ (s.muts i).isClosed = false ∧
        (c.fastRootValid = true ∨ s.eng.live h = true) ∧ h ∈ (s.muts i).bag then
      some ((s.submit i { op := .rootRemove, b := h }).removeBag i h)
    else none
  | .edgeAdd i a b =>
    if s.CanRun c i ∧ s.eng.live a = true ∧ s.eng.live b = true then
      some (s.submit i { op := .edgeAdd, a := a, b := b })
    else none
  | .edgeRemove i a b =>
    if s.CanRun c i ∧ s.eng.live a = true ∧ s.eng.live b = true then
      some (s.submit i { op := .edgeRemove, a := a, b := b })
    else none
  | .beginFlush i =>
    if i < s.slots ∧ (s.chan i).flushing = false ∧ (s.chan i).batchN ≠ 0 then
      some (s.setChan i ((s.chan i).beginFlush c.fold))
    else none
  | .commit i n =>
    -- without folding a full run of the ring is made visible before the flush
    if i < s.slots ∧ (c.fold = true → (s.chan i).flushing = true) then
      some (s.setChan i ((s.chan i).commit n))
    else none
  | .endFlush i =>
    if i < s.slots ∧ (s.chan i).flushing = true ∧ (s.chan i).staged = [] then
      some (s.setChan i (s.chan i).endFlush)
    else none
  | .close i order =>
    if s.CanRun c i ∧ (s.muts i).isClosed = false ∧ (s.chan i).batchN = 0 ∧
        order.Perm (s.muts i).bag then
      some (s.setMut i { s.muts i with owed := some order, isClosed := true })
    else none
  | .closeRoot i =>
    match (s.muts i).owed with
    | some (h :: rest) =>
      if s.CanStage c i then
        some ((s.submit i { op := .rootRemove, b := h }).setMut i
          { s.muts i with owed := some rest })
      else none
    | _ => none
  | .closed i =>
    if i < s.slots ∧ (s.muts i).owed = some [] ∧ (s.chan i).flushing = false then
      some (s.setMut i { s.muts i with owed := none, bag := [] })
    else none
  | .work => some { s with toWorld := s.toWorld.work }

end Scene

namespace Async

variable (c : Config)

def init (capacity : ℕ) : Async := { toScene := .init capacity, cut := .init capacity }

/-- One step. The cut is taken when a round turns to the tails. -/
def step (s : Async) (a : Action) : Option Async :=
  (s.toScene.act c a).map fun t =>
    { toScene := t, cut := if a = .work ∧ t.round.phase = .tails 0 then s.toScene else s.cut }

/-- The runs in which every operation obeys a discipline. -/
def system (capacity : ℕ) (allowed : Async → Action → Prop) : System Async Action where
  init s := s = init capacity
  next s a t := allowed s a ∧ s.step c a = some t

end Async

end Loxis.Aarc
