import Loxis.Lib.Run
import Loxis.Vm.HeapSound

/-! # Runs of the heap

A run of heap calls, with a log of what was stored in each object since its
allocation. As long as no request is so large that its cell count wraps, objects
keep to their payloads and a load returns what the log says.
-/

namespace Loxis.Vm

open Function

inductive HeapOp
  | alloc (sizeBytes typeId : ℕ)
  | freePayload (i : ℕ)
  | storeCell (i byteOff : ℕ) (val : BitVec 64) (tag : BitVec 8)
  | loadCell (i byteOff : ℕ)

/-- The arguments are 32-bit values. -/
def HeapOp.InRange : HeapOp → Prop
  | .alloc sizeBytes typeId => sizeBytes < 2 ^ 32 ∧ typeId < 2 ^ 32
  | .freePayload i => i < 2 ^ 32
  | .storeCell i byteOff _ _ => i < 2 ^ 32 ∧ byteOff < 2 ^ 32
  | .loadCell i byteOff => i < 2 ^ 32 ∧ byteOff < 2 ^ 32

/-- No request is so large that rounding it up to cells wraps. -/
def HeapOp.Fits : HeapOp → Prop
  | .alloc sizeBytes _ => sizeBytes ≤ 2 ^ 32 - 9
  | _ => True

/-- A heap with the stores into each object since its allocation, newest first. -/
structure Traced where
  heap : Heap
  log : ℕ → List (ℕ × BitVec 64 × BitVec 8)

namespace Traced

open Heap

def step (s : Traced) : HeapOp → Traced
  | .alloc sizeBytes typeId =>
    let r := s.heap.alloc sizeBytes typeId
    { heap := r.2, log := if r.1 = INVALID then s.log else update s.log r.1 [] }
  | .freePayload i => { s with heap := s.heap.freePayload i }
  | .storeCell i byteOff val tag =>
    match s.heap.storeCell i byteOff val tag with
    | none => s
    | some t => { heap := t, log := update s.log i ((byteOff, val, tag) :: s.log i) }
  | .loadCell _ _ => s

/-- Calls on a fresh heap, with or without a fixed handle space, whose arena stays below
`2 ^ 32` bytes. -/
def system (allowed : HeapOp → Prop) : System Traced HeapOp where
  init s := (s.heap = new ∨ ∃ n < 2 ^ 32, s.heap = new.reserveSlots n) ∧ s.log = fun _ => []
  next s a t := a.InRange ∧ allowed a ∧ t = s.step a ∧ t.heap.memorySize < 2 ^ 32

/-- What the stores say is in a cell: nothing certain where the last one that touches the cell
is at another offset. -/
def recorded : List (ℕ × BitVec 64 × BitVec 8) → ℕ → Option (BitVec 64 × BitVec 8)
  | [], _ => some (0, 0)
  | (o, c) :: l, byteOff =>
    if o = byteOff then some c
    else if byteOff + SLOT_SIZE ≤ o ∨ o + SLOT_SIZE ≤ byteOff then recorded l byteOff
    else none

/-- Objects keep to payloads of their own, and a handle is handed out only while not live. -/
structure Isolated (s : Traced) : Prop where
  inside : ∀ i, s.heap.valid i = true →
    (s.heap.slots i).payloadOffset + (s.heap.slots i).cells * SLOT_SIZE ≤ s.heap.memorySize
  apart : ∀ i j, s.heap.valid i = true → s.heap.valid j = true → i ≠ j →
    Apart (s.heap.slots i).payloadOffset ((s.heap.slots i).cells * SLOT_SIZE)
      (s.heap.slots j).payloadOffset ((s.heap.slots j).cells * SLOT_SIZE)
  touches : ∀ i byteOff o, s.heap.cellOffset i byteOff = some o →
    (s.heap.slots i).payloadOffset ≤ o ∧
      o + SLOT_SIZE ≤ (s.heap.slots i).payloadOffset + (s.heap.slots i).cells * SLOT_SIZE
  loads : ∀ i byteOff c, s.heap.valid i = true →
    byteOff + SLOT_SIZE ≤ (s.heap.slots i).logicalSize → recorded (s.log i) byteOff = some c →
      s.heap.loadCell i byteOff = some c
  fresh : ∀ size ty, (s.heap.alloc size ty).2.memorySize < 2 ^ 32 →
    (s.heap.alloc size ty).1 = INVALID ∨ s.heap.valid (s.heap.alloc size ty).1 = false

/-- The invariant of a run. -/
structure Ok (s : Traced) : Prop where
  sound : s.heap.Sound
  loads : ∀ i byteOff c, s.heap.valid i = true →
    byteOff + SLOT_SIZE ≤ (s.heap.slots i).logicalSize → recorded (s.log i) byteOff = some c →
      s.heap.loadCell i byteOff = some c

variable {s t : Traced} {a : HeapOp}

theorem init_ok (h : s.heap = new ∨ ∃ n < 2 ^ 32, s.heap = new.reserveSlots n) : s.Ok := by
  have hdead : ∀ i, (s.heap.slots i).live = false := by
    rcases h with h | ⟨n, -, h⟩ <;> rw [h] <;> exact fun _ => rfl
  refine ⟨?_, fun i byteOff c hv => ?_⟩
  · rcases h with h | ⟨n, hn, h⟩ <;> rw [h]
    · exact new_sound
    · exact new_sound.reserveSlots hn fun _ _ => rfl
  · rw [valid_iff, hdead i] at hv
    exact absurd hv.2 (by decide)

theorem Ok.alloc (h : s.Ok) {size ty : ℕ} (hsize : size + 8 < 2 ^ 32)
    (hm : (s.heap.alloc size ty).2.memorySize < 2 ^ 32) : (s.step (.alloc size ty)).Ok := by
  have ht := h.sound.alloc ty hsize hm
  refine ⟨ht, fun i byteOff c hv hb hr => ?_⟩
  simp only [step] at hv hb hr ⊢
  by_cases hi : s.heap.valid i = true
  · obtain ⟨-, hslot, hload⟩ := h.sound.loadCell_alloc ht hi byteOff
    rw [hload]
    refine h.loads i byteOff c hi (hslot ▸ hb) ?_
    split at hr
    · exact hr
    · next hne =>
      rw [update_of_ne] at hr
      · exact hr
      · rintro rfl
        rcases h.sound.alloc_cases size ty hm with he | ⟨hp, -⟩
        · exact hne (by rw [he])
        · have := (valid_iff.mp hi).2
          rw [hp.dead] at this
          cases this
  · rcases h.sound.alloc_cases size ty hm with he | ⟨hp, -⟩
    · rw [he, valid_iff, takePayload_slots, takePayload_slotCount] at hv
      exact absurd (valid_iff.mpr hv) hi
    · have he : i = (s.heap.alloc size ty).1 := by
        by_contra hne
        refine hi (h.sound.valid_of_live ?_)
        rw [← hp.other i hne]
        exact (valid_iff.mp hv).2
      have hne : (s.heap.alloc size ty).1 ≠ INVALID := by
        have := valid_lt ht hv
        unfold INVALID
        omega
      subst he
      rw [if_neg hne, update_self] at hr
      rw [hp.slot] at hb
      rw [← Option.some.inj hr]
      exact h.sound.loadCell_alloc_self ht hne hb

theorem Ok.freePayload (h : s.Ok) (i : ℕ) : (s.step (.freePayload i)).Ok := by
  refine ⟨h.sound.freePayload i, fun j byteOff c hv hb hr => ?_⟩
  simp only [step] at hv hb hr ⊢
  cases hi : s.heap.valid i with
  | false =>
    have he : s.heap.freePayload i = s.heap := by simp [Heap.freePayload, hi]
    rw [he] at hv hb ⊢
    exact h.loads j byteOff c hv hb hr
  | true =>
    have hj : j ≠ i := by
      rintro rfl
      rw [valid_iff, live_freePayload hi] at hv
      exact absurd hv.2 (by decide)
    have hslot : (s.heap.freePayload i).slots j = s.heap.slots j := slots_freePayload_of_ne hj
    rw [loadCell_free s.heap hj]
    rw [valid_iff, slotCount_freePayload, hslot] at hv
    exact h.loads j byteOff c (valid_iff.mpr hv) (hslot ▸ hb) hr

theorem Ok.storeCell (h : s.Ok) (i byteOff : ℕ) (val : BitVec 64) (tag : BitVec 8) :
    (s.step (.storeCell i byteOff val tag)).Ok := by
  simp only [step]
  split
  · exact h
  · next t ht =>
    refine ⟨h.sound.storeCell ht, fun j off c hv hb hr => ?_⟩
    obtain ⟨o, hoff, rfl⟩ := Option.map_eq_some_iff.mp ht
    by_cases hj : j = i
    · subst hj
      simp only [update_self, recorded] at hr
      split at hr
      · next ho =>
        subst ho
        rw [← Option.some.inj hr]
        exact h.sound.loadCell_store_self ht
      · split at hr
        · next hapart =>
          rw [h.sound.loadCell_store ht (Or.inr hapart)]
          exact h.loads j off c hv hb hr
        · cases hr
    · rw [h.sound.loadCell_store ht (Or.inl hj)]
      simp only [update_of_ne hj] at hr
      exact h.loads j off c hv hb hr

theorem Ok.isolated (h : s.Ok) : s.Isolated where
  inside _ := h.sound.payload_le
  apart _ _ := h.sound.payload_apart
  touches i byteOff o ho := by
    obtain ⟨⟨hv, hb⟩, rfl⟩ := h.sound.cellOffset_eq_some.mp ho
    have := h.sound.size i (valid_iff.mp hv).2
    omega
  loads := h.loads
  fresh size ty hm := by
    rcases h.sound.alloc_cases size ty hm with he | ⟨hp, -⟩
    · exact Or.inl (by rw [he])
    · refine Or.inr ?_
      rw [valid, hp.dead, Bool.and_false]

theorem reachable_ok (h : (system HeapOp.Fits).Reachable s) : s.Ok := by
  refine h.inv (fun s hs => init_ok hs.1) fun s a t hs hn => ?_
  obtain ⟨-, hfit, rfl, hm⟩ := hn
  cases a with
  | alloc size ty =>
    simp only [HeapOp.Fits] at hfit
    exact hs.alloc (by omega) hm
  | freePayload i => exact hs.freePayload i
  | storeCell i byteOff val tag => exact hs.storeCell i byteOff val tag
  | loadCell i byteOff => exact hs

/-- Every object keeps to its own payload in a run whose requests do not wrap. -/
theorem reachable_isolated (h : (system HeapOp.Fits).Reachable s) : s.Isolated :=
  (reachable_ok h).isolated

theorem memorySize_le_step (s : Traced) (a : HeapOp) :
    s.heap.memorySize ≤ (s.step a).heap.memorySize := by
  cases a with
  | alloc size ty => exact (memorySize_le_take _ _).trans (alloc_memorySize _ _ _).ge
  | freePayload i => exact memorySize_freePayload.ge
  | storeCell i byteOff val tag =>
    simp only [step]
    split
    · exact le_rfl
    · next t ht =>
      obtain ⟨o, -, rfl⟩ := Option.map_eq_some_iff.mp ht
      exact le_rfl
  | loadCell i byteOff => exact le_rfl

/-- A run given by its calls. -/
theorem reachable_calls {allowed : HeapOp → Prop} (as : List HeapOp)
    (h : ∀ a ∈ as, a.InRange ∧ allowed a)
    (hm : (as.foldl step ⟨new, fun _ => []⟩).heap.memorySize < 2 ^ 32) :
    (system allowed).Reachable (as.foldl step ⟨new, fun _ => []⟩) := by
  induction as using List.reverseRecOn with
  | nil => exact .start ⟨Or.inl rfl, rfl⟩
  | append_singleton as a ih =>
    rw [List.foldl_append] at hm ⊢
    have hr := ih (fun b hb => h b (List.mem_append_left _ hb))
      ((memorySize_le_step _ a).trans_lt hm)
    obtain ⟨h₁, h₂⟩ := h a (List.mem_append_right _ (List.mem_singleton_self a))
    exact hr.next ⟨h₁, h₂, rfl, hm⟩

/-- Two cells of 18 bytes, and a load of the second. -/
theorem reachable_isolated_store :
    Isolated ([.alloc 18 0, .storeCell 1 9 7 TAG_HEAP].foldl step ⟨new, fun _ => []⟩) :=
  reachable_isolated (reachable_calls _ (by simp [HeapOp.InRange, HeapOp.Fits]) (by decide))

/-- A request of `2 ^ 32 - 1` bytes gets a single cell, and a store to its second cell lands in
the next object. -/
theorem wrapped_store : ¬ ∀ s, (system fun _ => True).Reachable s → s.Isolated := by
  intro hall
  have hr : (system fun _ => True).Reachable
      ([.alloc (2 ^ 32 - 1) 0, .alloc 9 0, .storeCell 1 9 7 TAG_HEAP].foldl step
        ⟨new, fun _ => []⟩) :=
    reachable_calls _ (by simp [HeapOp.InRange]) (by decide)
  have hl := (hall _ hr).loads 2 0 (0, 0) (by decide) (by decide) (by decide)
  revert hl
  decide

end Traced

end Loxis.Vm
