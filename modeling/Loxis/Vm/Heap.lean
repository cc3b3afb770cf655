import Mathlib.Logic.Function.Basic
import Loxis.Lib.Bytes

/-! # The heap

Objects are named by handles, indices into a slot table. A payload is a run of
nine-byte cells in one byte arena: a 64-bit value and a tag. Freed payloads wait in
a list per size class for a later object, freed handles in a list of their own.
-/

namespace Loxis.Vm

open Function

/-- The tag byte of an object reference. -/
def TAG_HEAP : BitVec 8 := 2

structure ObjectSlot where
  payloadOffset : ℕ
  cells : ℕ
  logicalSize : ℕ
  typeId : ℕ
  generation : ℕ
  live : Bool

/-- The heap. The free lists are newest first; `memory` is only meaningful below `memorySize`. -/
structure Heap where
  memory : ℕ → BitVec 8
  memorySize : ℕ
  slots : ℕ → ObjectSlot
  slotCount : ℕ
  freeHandles : List ℕ
  slotCap : ℕ
  freeSmall : ℕ → List ℕ
  freeLarge : ℕ → List ℕ

namespace Heap

def INVALID : ℕ := 0xFFFFFFFF
def SLOT_SIZE : ℕ := 9
def SMALL_CLASSES : ℕ := 65

def emptySlot : ObjectSlot := ⟨INVALID, 0, 0, 0, 0, false⟩

/-- A fresh heap; slot zero is never handed out. -/
def new : Heap where
  memory _ := 0
  memorySize := 0
  slots _ := emptySlot
  slotCount := 1
  freeHandles := []
  slotCap := 0
  freeSmall _ := []
  freeLarge _ := []

variable (s : Heap)

/-- Fix the handle space at `n` slots. -/
def reserveSlots (n : ℕ) : Heap :=
  { s with
    slotCount := max s.slotCount n
    freeHandles := (List.range' s.slotCount (n - s.slotCount)).reverse ++ s.freeHandles
    slotCap := n }

def valid (i : ℕ) : Bool := decide (i < s.slotCount) && (s.slots i).live

def getTypeId (i : ℕ) : ℕ := if i < s.slotCount then (s.slots i).typeId else 0

def cellCount (i : ℕ) : ℕ := if i < s.slotCount then (s.slots i).cells else 0

/-- The number of cells of a request, in 32-bit arithmetic. -/
def cellsFor (sizeBytes : ℕ) : ℕ :=
  let cells := (sizeBytes + SLOT_SIZE - 1) % 2 ^ 32 / SLOT_SIZE
  if cells = 0 then 1 else cells

/-- The waiting payloads of a size class. -/
def freeList (cells : ℕ) : List ℕ :=
  if cells < SMALL_CLASSES then s.freeSmall cells else s.freeLarge cells

def setFreeList (cells : ℕ) (l : List ℕ) : Heap :=
  if cells < SMALL_CLASSES then { s with freeSmall := update s.freeSmall cells l }
  else { s with freeLarge := update s.freeLarge cells l }

/-- A zeroed payload: the newest waiting one of the class, else new room at the end. -/
def takePayload (cells : ℕ) : ℕ × Heap :=
  match s.freeList cells with
  | [] =>
    (s.memorySize % 2 ^ 32,
      { s with
        memory := Bytes.put s.memory s.memorySize (cells * SLOT_SIZE) fun _ => 0
        memorySize := s.memorySize + cells * SLOT_SIZE })
  | o :: rest =>
    let t := s.setFreeList cells rest
    (o, { t with memory := Bytes.put t.memory o (cells * SLOT_SIZE) fun _ => 0 })

/-- A handle that is not in use, unless the handle space is exhausted. -/
def takeHandle : Option (ℕ × Heap) :=
  match s.freeHandles with
  | i :: rest => some (i, { s with freeHandles := rest })
  | [] =>
    if s.slotCap ≠ 0 ∧ s.slotCap ≤ s.slotCount then none
    else some (s.slotCount % 2 ^ 32, { s with slotCount := s.slotCount + 1 })

/-- Allocate `sizeBytes` of type `typeId`. Without a handle the payload is lost. -/
def alloc (sizeBytes typeId : ℕ) : ℕ × Heap :=
  let cells := cellsFor sizeBytes
  let p := s.takePayload cells
  match p.2.takeHandle with
  | none => (INVALID, p.2)
  | some (i, t) =>
    (i, { t with
      slots := update t.slots i
        { t.slots i with
          payloadOffset := p.1, cells := cells, logicalSize := sizeBytes, typeId := typeId
          live := true } })

/-- Give the payload back and invalidate the handle. -/
def freePayload (i : ℕ) : Heap :=
  if s.valid i then
    let o := s.slots i
    let t := s.setFreeList o.cells (o.payloadOffset :: s.freeList o.cells)
    { t with
      slots := update t.slots i
        ⟨INVALID, 0, 0, 0, (o.generation + 1) % 2 ^ 32, false⟩
      freeHandles := i :: t.freeHandles }
  else s

/-- Where a cell lies in the arena. The bounds are those of the request. -/
def cellOffset (i byteOff : ℕ) : Option ℕ :=
  let o := s.slots i
  if s.slotCount ≤ i ∨ o.live = false ∨ o.payloadOffset = INVALID then none
  else if o.logicalSize < byteOff ∨ o.logicalSize - byteOff < SLOT_SIZE then none
  else some ((o.payloadOffset + byteOff) % 2 ^ 32)

/-- The bytes of a cell: the value, then the tag. -/
def cellByte (val : BitVec 64) (tag : BitVec 8) (k : ℕ) : BitVec 8 :=
  if k < 8 then Bytes.byteOf val k else tag

def storeCell (i byteOff : ℕ) (val : BitVec 64) (tag : BitVec 8) : Option Heap :=
  (s.cellOffset i byteOff).map fun o =>
    { s with memory := Bytes.put s.memory o SLOT_SIZE (cellByte val tag) }

def loadCell (i byteOff : ℕ) : Option (BitVec 64 × BitVec 8) :=
  (s.cellOffset i byteOff).map fun o => (Bytes.getWord s.memory o, s.memory (o + 8))

/-- Cell `k` of a payload, as the collectors read it. -/
def cellAt (i k : ℕ) : Option (BitVec 64 × BitVec 8) := s.loadCell i (k * SLOT_SIZE % 2 ^ 32)

end Heap

end Loxis.Vm
