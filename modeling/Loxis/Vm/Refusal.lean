import Loxis.Lib.Run
import Loxis.Vm.HeapSound

/-! # Refused allocations

The heap with its statistics. A payload is taken, and counted when it is a recycled one, before
a handle is: without a handle the payload is gone.
-/

namespace Loxis.Vm

open Function Heap

/-- The counters of a heap. -/
structure Stats where
  allocations : BitVec 64
  reuses : BitVec 64
  frees : BitVec 64
  liveObjects : BitVec 64
  peakLiveObjects : BitVec 64
  bytesCommitted : BitVec 64
  bytesLive : BitVec 64
  bytesReused : BitVec 64

/-- The bytes of a payload. -/
def payloadBytes (cells : ℕ) : BitVec 64 := BitVec.ofNat 64 (cells * SLOT_SIZE)

namespace Stats

variable (stats : Stats)

/-- A recycled payload is taken. -/
def countReuse (cells : ℕ) : Stats :=
  { stats with
    reuses := stats.reuses + 1
    bytesReused := stats.bytesReused + payloadBytes cells }

/-- An object is made, in an arena of the given size. -/
def countObject (cells memorySize : ℕ) : Stats :=
  let liveObjects := stats.liveObjects + 1
  { stats with
    allocations := stats.allocations + 1
    liveObjects := liveObjects
    bytesLive := stats.bytesLive + payloadBytes cells
    peakLiveObjects :=
      if stats.peakLiveObjects < liveObjects then liveObjects else stats.peakLiveObjects
    bytesCommitted := BitVec.ofNat 64 memorySize }

def countFree (cells : ℕ) : Stats :=
  { stats with
    bytesLive := stats.bytesLive - payloadBytes cells
    frees := stats.frees + 1
    liveObjects := stats.liveObjects - 1 }

end Stats

structure CountedHeap where
  heap : Heap
  stats : Stats

namespace CountedHeap

def new : CountedHeap := ⟨Heap.new, ⟨0, 0, 0, 0, 0, 0, 0, 0⟩⟩

section Calls

variable (s : CountedHeap)

def reserveSlots (n : ℕ) : CountedHeap := { s with heap := s.heap.reserveSlots n }

def alloc (sizeBytes typeId : ℕ) : ℕ × CountedHeap :=
  let cells := cellsFor sizeBytes
  let stats := if s.heap.freeList cells = [] then s.stats else s.stats.countReuse cells
  let (i, heap) := s.heap.alloc sizeBytes typeId
  match (s.heap.takePayload cells).2.takeHandle with
  | none => (i, ⟨heap, stats⟩)
  | some _ => (i, ⟨heap, stats.countObject cells heap.memorySize⟩)

def freePayload (i : ℕ) : CountedHeap :=
  if s.heap.valid i then
    ⟨s.heap.freePayload i, s.stats.countFree (s.heap.slots i).cells⟩
  else s

end Calls

inductive Call
  | reserveSlots (n : ℕ)
  | alloc (sizeBytes typeId : ℕ)
  | freePayload (i : ℕ)

/-- The arguments are 32-bit values. -/
def Call.InRange : Call → Prop
  | .reserveSlots n => n < 2 ^ 32
  | .alloc sizeBytes typeId => sizeBytes < 2 ^ 32 ∧ typeId < 2 ^ 32
  | .freePayload i => i < 2 ^ 32

def step (s : CountedHeap) : Call → CountedHeap
  | .reserveSlots n => s.reserveSlots n
  | .alloc sizeBytes typeId => (s.alloc sizeBytes typeId).2
  | .freePayload i => s.freePayload i

def system : System CountedHeap Call where
  init s := s = new
  next s a t := a.InRange ∧ t = s.step a

/-- The same arena, free lists, slots and statistics. -/
structure Unchanged (s t : CountedHeap) : Prop where
  memorySize : t.heap.memorySize = s.heap.memorySize
  memory : ∀ k < s.heap.memorySize, t.heap.memory k = s.heap.memory k
  freeLists : t.heap.freeSmall = s.heap.freeSmall ∧ t.heap.freeLarge = s.heap.freeLarge
  freeHandles : t.heap.freeHandles = s.heap.freeHandles
  slotCount : t.heap.slotCount = s.heap.slotCount
  slots : ∀ i < s.heap.slotCount, t.heap.slots i = s.heap.slots i
  stats : t.stats = s.stats

/-- A refused request changes nothing. -/
def RefusalSafe (s : CountedHeap) (sizeBytes typeId : ℕ) : Prop :=
  (s.alloc sizeBytes typeId).1 = INVALID → s.Unchanged (s.alloc sizeBytes typeId).2

/-- A handle waits, or the slot table may grow by one, and the handle is not the invalid one. -/
def HandleReady (s : CountedHeap) : Prop :=
  match s.heap.freeHandles with
  | i :: _ => i ≠ INVALID
  | [] => (s.heap.slotCap = 0 ∨ s.heap.slotCount < s.heap.slotCap) ∧
      s.heap.slotCount % 2 ^ 32 ≠ INVALID

variable {s : CountedHeap} {sizeBytes typeId : ℕ}

/-! ## The handle of an allocation -/

theorem handleReady_iff (cells : ℕ) : s.HandleReady ↔
    ∃ i t, (s.heap.takePayload cells).2.takeHandle = some (i, t) ∧ i ≠ INVALID := by
  rw [HandleReady, takeHandle, takePayload_freeHandles, takePayload_slotCap,
    takePayload_slotCount]
  cases s.heap.freeHandles with
  | cons i rest => simp
  | nil =>
    by_cases hfull : s.heap.slotCap ≠ 0 ∧ s.heap.slotCap ≤ s.heap.slotCount
    · simp only [if_pos hfull, reduceCtorEq, false_and, exists_false, iff_false]
      omega
    · simp only [if_neg hfull, Option.some.injEq, Prod.mk.injEq, exists_and_right]
      have hroom : s.heap.slotCap = 0 ∨ s.heap.slotCount < s.heap.slotCap := by omega
      simp [hroom]

theorem alloc_invalid_iff :
    (s.alloc sizeBytes typeId).1 = INVALID ↔ ¬ s.HandleReady := by
  rw [handleReady_iff (cellsFor sizeBytes)]
  cases ht : (s.heap.takePayload (cellsFor sizeBytes)).2.takeHandle with
  | none => simp [alloc, Heap.alloc, ht]
  | some r =>
    obtain ⟨i, t⟩ := r
    simp [alloc, Heap.alloc, ht]

/-! ## The payload of a refused request -/

/-- The arena has grown, or a free list has lost its head. -/
theorem takePayload_changes (h : Heap) (cells : ℕ) (hcells : 1 ≤ cells) :
    (h.takePayload cells).2.memorySize ≠ h.memorySize ∨
      (h.takePayload cells).2.freeList cells ≠ h.freeList cells := by
  obtain ⟨o, rest, hlist, -, -, hfree⟩ | ⟨-, -, hsize, -⟩ := takePayload_cases h cells
  · right
    rw [hfree, if_pos rfl, hlist]
    exact (List.cons_ne_self o rest).symm
  · left
    rw [hsize, SLOT_SIZE]
    omega

theorem alloc_freeList (h : Heap) (d : ℕ) :
    (h.alloc sizeBytes typeId).2.freeList d =
      (h.takePayload (cellsFor sizeBytes)).2.freeList d := by
  cases ht : (h.takePayload (cellsFor sizeBytes)).2.takeHandle with
  | none => simp only [Heap.alloc, ht]
  | some r =>
    obtain ⟨i, t⟩ := r
    have hlists : t.freeList d = (h.takePayload (cellsFor sizeBytes)).2.freeList d := by
      unfold takeHandle at ht
      split at ht
      · cases ht
        rfl
      · split at ht
        · cases ht
        · cases ht
          rfl
    simp only [Heap.alloc, ht]
    exact hlists

theorem alloc_heap : (s.alloc sizeBytes typeId).2.heap = (s.heap.alloc sizeBytes typeId).2 := by
  rw [alloc]
  cases (s.heap.takePayload (cellsFor sizeBytes)).2.takeHandle <;> rfl

theorem alloc_changes : ¬ s.Unchanged (s.alloc sizeBytes typeId).2 := by
  intro h
  have hchanges := takePayload_changes s.heap (cellsFor sizeBytes) (cellsFor_pos sizeBytes)
  have hsize := h.memorySize
  have hlists := h.freeLists
  rw [alloc_heap] at hsize hlists
  obtain hgrown | htaken := hchanges
  · exact hgrown ((alloc_memorySize _ _ _).symm.trans hsize)
  · apply htaken
    rw [← alloc_freeList, freeList, freeList, hlists.1, hlists.2]

/-- A refused request always takes a payload along. -/
theorem refusalSafe_iff (s : CountedHeap) (sizeBytes typeId : ℕ) :
    s.RefusalSafe sizeBytes typeId ↔ s.HandleReady := by
  rw [RefusalSafe, alloc_invalid_iff]
  constructor
  · intro h
    by_contra hready
    exact alloc_changes (h hready)
  · exact fun hready hnot => absurd hready hnot

theorem reachable_calls (as : List Call) (h : ∀ a ∈ as, a.InRange) :
    system.Reachable (as.foldl step new) := by
  induction as using List.reverseRecOn with
  | nil => exact .start rfl
  | append_singleton as a ih =>
    rw [List.foldl_append]
    exact (ih fun b hb => h b (List.mem_append_left _ hb)).next
      ⟨h a (List.mem_append_right _ (.head _)), rfl⟩

/-- Two slots, of which one is reserved: the second request grows the arena and is refused. -/
theorem refused_grows : ¬ ∀ s, system.Reachable s → ∀ sizeBytes < 2 ^ 32, ∀ typeId < 2 ^ 32,
    s.RefusalSafe sizeBytes typeId := by
  intro h
  have hsafe := h _ (reachable_calls [.reserveSlots 2, .alloc 9 0] (by simp [Call.InRange]))
    9 (by decide) 0 (by decide) (by decide)
  exact absurd hsafe.memorySize (by decide)

end CountedHeap

end Loxis.Vm
