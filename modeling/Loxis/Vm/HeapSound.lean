import Loxis.Vm.Heap

/-! # Payload isolation

Every payload, in use or waiting, is a span of the arena, and the spans are apart.
The invariant holds as long as the arena is addressed by 32-bit offsets and no
request is so large that its cell count wraps.
-/

namespace Loxis.Vm

open Function

namespace Heap

/-- What holds a payload: a live slot, or the waiting list of a size class. -/
inductive Place
  | slot (i : ℕ)
  | free (cells o : ℕ)
  deriving DecidableEq

/-- The place holds the payload of `n` bytes at `o`. -/
def Holds (s : Heap) : Place → ℕ → ℕ → Prop
  | .slot i, o, n =>
    (s.slots i).live = true ∧ o = (s.slots i).payloadOffset ∧ n = (s.slots i).cells * SLOT_SIZE
  | .free c o', o, n => o' ∈ s.freeList c ∧ o = o' ∧ n = c * SLOT_SIZE

/-- Two spans without a common byte. -/
def Apart (o n o' n' : ℕ) : Prop := o + n ≤ o' ∨ o' + n' ≤ o

structure Sound (s : Heap) : Prop where
  least : ∀ p o n, s.Holds p o n → SLOT_SIZE ≤ n
  inside : ∀ p o n, s.Holds p o n → o + n ≤ s.memorySize
  apart : ∀ p o n p' o' n', s.Holds p o n → s.Holds p' o' n' → p ≠ p' → Apart o n o' n'
  nodup : ∀ c, (s.freeList c).Nodup
  size : ∀ i, (s.slots i).live = true → (s.slots i).logicalSize ≤ (s.slots i).cells * SLOT_SIZE
  range : ∀ i, (s.slots i).live = true → 0 < i ∧ i < s.slotCount
  handles : ∀ i ∈ s.freeHandles, 0 < i ∧ i < s.slotCount ∧ (s.slots i).live = false
  handles_nodup : s.freeHandles.Nodup
  every : ∀ i, 0 < i → i < s.slotCount → (s.slots i).live = true ∨ i ∈ s.freeHandles
  memory_lt : s.memorySize < 2 ^ 32
  count_pos : 0 < s.slotCount
  count_lt : s.slotCount < 2 ^ 32

variable {s t : Heap} {i j c o n size ty : ℕ}

theorem Apart.symm {o n o' n' : ℕ} (h : Apart o n o' n') : Apart o' n' o n := Or.symm h

theorem valid_iff : s.valid i = true ↔ i < s.slotCount ∧ (s.slots i).live = true := by
  simp [valid]

theorem Sound.valid_of_live (h : s.Sound) (hl : (s.slots i).live = true) : s.valid i = true :=
  valid_iff.mpr ⟨(h.range i hl).2, hl⟩

theorem valid_lt (h : s.Sound) (hv : s.valid i = true) : i < 2 ^ 32 - 1 := by
  have := (valid_iff.mp hv).1
  have := h.count_lt
  omega

@[simp] theorem slots_setFreeList (l : List ℕ) : (s.setFreeList c l).slots = s.slots := by
  unfold setFreeList; split <;> rfl

@[simp] theorem slotCount_setFreeList (l : List ℕ) :
    (s.setFreeList c l).slotCount = s.slotCount := by
  unfold setFreeList; split <;> rfl

@[simp] theorem slotCap_setFreeList (l : List ℕ) : (s.setFreeList c l).slotCap = s.slotCap := by
  unfold setFreeList; split <;> rfl

@[simp] theorem freeHandles_setFreeList (l : List ℕ) :
    (s.setFreeList c l).freeHandles = s.freeHandles := by
  unfold setFreeList; split <;> rfl

@[simp] theorem memory_setFreeList (l : List ℕ) : (s.setFreeList c l).memory = s.memory := by
  unfold setFreeList; split <;> rfl

@[simp] theorem memorySize_setFreeList (l : List ℕ) :
    (s.setFreeList c l).memorySize = s.memorySize := by
  unfold setFreeList; split <;> rfl

theorem freeList_setFreeList (l : List ℕ) (d : ℕ) :
    (s.setFreeList c l).freeList d = if d = c then l else s.freeList d := by
  simp only [setFreeList, freeList]
  by_cases hdc : d = c
  · subst hdc
    split <;> simp [*]
  · split <;> split <;> simp [*]

theorem cellsFor_pos (n : ℕ) : 1 ≤ cellsFor n := by
  unfold cellsFor
  simp only
  split
  · exact le_rfl
  · next h => exact Nat.one_le_iff_ne_zero.mpr h

/-- A request whose rounding does not wrap fits its cells. -/
theorem le_cellsFor (h : n + 8 < 2 ^ 32) : n ≤ cellsFor n * SLOT_SIZE := by
  unfold cellsFor
  simp only
  split
  · next hc => unfold SLOT_SIZE at hc ⊢; omega
  · unfold SLOT_SIZE; omega

theorem cellsFor_le (h : n + 8 < 2 ^ 32) : cellsFor n * SLOT_SIZE ≤ n + 9 := by
  unfold cellsFor
  simp only
  split
  · unfold SLOT_SIZE; omega
  · unfold SLOT_SIZE; omega

section Init

theorem new_sound : new.Sound where
  least p o n h := by cases p <;> simp [Holds, new, emptySlot, freeList] at h
  inside p o n h := by cases p <;> simp [Holds, new, emptySlot, freeList] at h
  apart p o n _ _ _ h := by cases p <;> simp [Holds, new, emptySlot, freeList] at h
  nodup c := by simp [new, freeList]
  size i h := by simp [new, emptySlot] at h
  range i h := by simp [new, emptySlot] at h
  handles i h := by simp [new] at h
  handles_nodup := List.nodup_nil
  every i h₁ h₂ := absurd h₂ (by simp only [new]; omega)
  memory_lt := by decide
  count_pos := Nat.one_pos
  count_lt := by decide

theorem Sound.reserveSlots (h : s.Sound) (hn : n < 2 ^ 32)
    (hlive : ∀ i, s.slotCount ≤ i → (s.slots i).live = false) : (s.reserveSlots n).Sound where
  least := h.least
  inside := h.inside
  apart := h.apart
  nodup := h.nodup
  size := h.size
  range i hi := ⟨(h.range i hi).1, lt_of_lt_of_le (h.range i hi).2 (le_max_left _ _)⟩
  handles i hi := by
    simp only [Heap.reserveSlots, List.mem_append, List.mem_reverse, List.mem_range'_1] at hi ⊢
    rcases hi with hi | hi
    · have := h.count_pos
      exact ⟨by omega, by omega, hlive i hi.1⟩
    · obtain ⟨h₁, h₂, h₃⟩ := h.handles i hi
      exact ⟨h₁, by omega, h₃⟩
  handles_nodup := by
    refine List.Nodup.append (List.nodup_reverse.mpr List.nodup_range') h.handles_nodup ?_
    intro i hi hi'
    simp only [List.mem_reverse, List.mem_range'_1] at hi
    have := (h.handles i hi').2.1
    omega
  every i h₁ h₂ := by
    simp only [Heap.reserveSlots, List.mem_append, List.mem_reverse, List.mem_range'_1] at h₂ ⊢
    by_cases hi : i < s.slotCount
    · rcases h.every i h₁ hi with hl | hf
      · exact Or.inl hl
      · exact Or.inr (Or.inr hf)
    · exact Or.inr (Or.inl ⟨by omega, by omega⟩)
  memory_lt := h.memory_lt
  count_pos := lt_of_lt_of_le h.count_pos (le_max_left _ _)
  count_lt := max_lt h.count_lt hn

end Init

section Alloc

/-- Taking a payload moves one span out of the waiting lists, or adds one at the end. -/
theorem takePayload_cases (s : Heap) (c : ℕ) :
    (∃ o rest, s.freeList c = o :: rest ∧ (s.takePayload c).1 = o ∧
      (s.takePayload c).2.memorySize = s.memorySize ∧
      ∀ d, (s.takePayload c).2.freeList d = if d = c then rest else s.freeList d) ∨
    s.freeList c = [] ∧ (s.takePayload c).1 = s.memorySize % 2 ^ 32 ∧
      (s.takePayload c).2.memorySize = s.memorySize + c * SLOT_SIZE ∧
      ∀ d, (s.takePayload c).2.freeList d = s.freeList d := by
  unfold takePayload
  split
  · next hf => exact Or.inr ⟨hf, rfl, rfl, fun _ => rfl⟩
  · next o rest hf =>
    refine Or.inl ⟨o, rest, hf, rfl, memorySize_setFreeList _, fun d => ?_⟩
    exact freeList_setFreeList rest d

@[simp] theorem takePayload_slots (s : Heap) (c : ℕ) : (s.takePayload c).2.slots = s.slots := by
  unfold takePayload; split <;> simp

@[simp] theorem takePayload_slotCount (s : Heap) (c : ℕ) :
    (s.takePayload c).2.slotCount = s.slotCount := by
  unfold takePayload; split <;> simp

@[simp] theorem takePayload_slotCap (s : Heap) (c : ℕ) :
    (s.takePayload c).2.slotCap = s.slotCap := by
  unfold takePayload; split <;> simp

@[simp] theorem takePayload_freeHandles (s : Heap) (c : ℕ) :
    (s.takePayload c).2.freeHandles = s.freeHandles := by
  unfold takePayload; split <;> simp

/-- The taken payload is zeroed and no other byte of the arena changes. -/
theorem takePayload_memory (s : Heap) (c : ℕ) (hs : s.memorySize < 2 ^ 32) :
    (s.takePayload c).2.memory =
      Bytes.put s.memory (s.takePayload c).1 (c * SLOT_SIZE) fun _ => 0 := by
  unfold takePayload
  split
  · simp only [Nat.mod_eq_of_lt hs]
  · simp

/-- What holds a payload after another one was taken held it before. -/
theorem Holds.of_take {p : Place} {o' n' : ℕ} (h : (s.takePayload c).2.Holds p o' n') :
    s.Holds p o' n' := by
  cases p with
  | slot i => simpa only [Holds, takePayload_slots] using h
  | free d o'' =>
    obtain ⟨hm, rfl, rfl⟩ := h
    refine ⟨?_, rfl, rfl⟩
    rcases takePayload_cases s c with ⟨o, rest, hf, -, -, hfree⟩ | ⟨-, -, -, hfree⟩
    · rw [hfree d] at hm
      split at hm
      · next hd => rw [hd, hf]; exact List.mem_cons_of_mem _ hm
      · exact hm
    · exact hfree d ▸ hm

/-- The taken payload lies in the arena, apart from every payload that is still held. -/
theorem Sound.take_apart (h : s.Sound) (c : ℕ) :
    (s.takePayload c).1 + c * SLOT_SIZE ≤ (s.takePayload c).2.memorySize ∧
    ∀ p o n, (s.takePayload c).2.Holds p o n → Apart o n (s.takePayload c).1 (c * SLOT_SIZE) := by
  rcases takePayload_cases s c with ⟨o, rest, hf, ho, hsize, hfree⟩ | ⟨hf, ho, hsize, hfree⟩
  · have hin : s.Holds (.free c o) o (c * SLOT_SIZE) :=
      ⟨hf ▸ List.mem_cons_self, rfl, rfl⟩
    rw [ho, hsize]
    refine ⟨h.inside _ _ _ hin, fun p o' n' hp => h.apart _ _ _ _ _ _ hp.of_take hin ?_⟩
    rintro rfl
    have hm := hp.1
    rw [hfree c, if_pos rfl] at hm
    have := h.nodup c
    rw [hf, List.nodup_cons] at this
    exact this.1 hm
  · rw [ho, hsize, Nat.mod_eq_of_lt h.memory_lt]
    exact ⟨le_rfl, fun p o' n' hp => Or.inl (h.inside _ _ _ hp.of_take)⟩

theorem memorySize_le_take (s : Heap) (c : ℕ) : s.memorySize ≤ (s.takePayload c).2.memorySize := by
  rcases takePayload_cases s c with ⟨_, _, _, _, hsize, _⟩ | ⟨_, _, hsize, _⟩
  · exact hsize.ge
  · rw [hsize]; exact Nat.le_add_right _ _

theorem Sound.take (h : s.Sound) (hm : (s.takePayload c).2.memorySize < 2 ^ 32) :
    (s.takePayload c).2.Sound where
  least p o n hp := h.least p o n hp.of_take
  inside p o n hp := (h.inside p o n hp.of_take).trans (memorySize_le_take s c)
  apart p o n p' o' n' hp hp' := h.apart _ _ _ _ _ _ hp.of_take hp'.of_take
  nodup d := by
    rcases takePayload_cases s c with ⟨o, rest, hf, -, -, hfree⟩ | ⟨-, -, -, hfree⟩
    · rw [hfree d]
      split
      · have := h.nodup c
        rw [hf] at this
        exact this.of_cons
      · exact h.nodup d
    · exact hfree d ▸ h.nodup d
  size := by simpa using h.size
  range := by simpa using h.range
  handles := by simpa using h.handles
  handles_nodup := by simpa using h.handles_nodup
  every := by simpa using h.every
  memory_lt := hm
  count_pos := by simpa using h.count_pos
  count_lt := by simpa using h.count_lt

/-- While no handle waits, every slot in use holds room of its own. -/
theorem Sound.count_le (h : s.Sound) (hf : s.freeHandles = []) :
    (s.slotCount - 1) * SLOT_SIZE ≤ s.memorySize := by
  have hlive : ∀ i ∈ Finset.Ioo 0 s.slotCount, (s.slots i).live = true := by
    intro i hi
    rw [Finset.mem_Ioo] at hi
    rcases h.every i hi.1 hi.2 with hl | hm
    · exact hl
    · simp [hf] at hm
  have hheld : ∀ i ∈ Finset.Ioo 0 s.slotCount,
      s.Holds (.slot i) (s.slots i).payloadOffset ((s.slots i).cells * SLOT_SIZE) :=
    fun i hi => ⟨hlive i hi, rfl, rfl⟩
  have := Bytes.card_mul_le (Finset.Ioo 0 s.slotCount) (fun i => (s.slots i).payloadOffset)
    (fun i => (s.slots i).cells * SLOT_SIZE) SLOT_SIZE s.memorySize
    (fun i hi => h.least _ _ _ (hheld i hi)) (fun i hi => h.inside _ _ _ (hheld i hi))
    fun i hi j hj hij => h.apart _ _ _ _ _ _ (hheld i hi) (hheld j hj) (by simpa using hij)
  simpa using this

/-- The handle that is handed out names a slot of its own that is not live. -/
structure Fresh (s : Heap) (i : ℕ) (t : Heap) : Prop where
  pos : 0 < i
  lt : i < t.slotCount
  dead : (s.slots i).live = false
  count : s.slotCount ≤ t.slotCount
  count_lt : t.slotCount < 2 ^ 32
  not_mem : i ∉ t.freeHandles
  sub : ∀ j ∈ t.freeHandles, j ∈ s.freeHandles
  nodup : t.freeHandles.Nodup
  every : ∀ j, j ≠ i → 0 < j → j < t.slotCount → (s.slots j).live = true ∨ j ∈ t.freeHandles
  frame : t = { s with slotCount := t.slotCount, freeHandles := t.freeHandles }

theorem Sound.takeHandle_spec (h : s.Sound) (ht : s.takeHandle = some (i, t)) : s.Fresh i t := by
  unfold takeHandle at ht
  split at ht
  · next j rest hf =>
    obtain ⟨rfl, rfl⟩ := Prod.mk.inj (Option.some.inj ht)
    have hnd := h.handles_nodup
    rw [hf, List.nodup_cons] at hnd
    obtain ⟨h₁, h₂, h₃⟩ := h.handles j (hf ▸ List.mem_cons_self)
    refine ⟨h₁, h₂, h₃, le_rfl, h.count_lt, hnd.1, fun k hk => hf ▸ List.mem_cons_of_mem _ hk,
      hnd.2, fun k hkj hk hlt => ?_, rfl⟩
    rcases h.every k hk hlt with hl | hm
    · exact Or.inl hl
    · rw [hf] at hm
      exact Or.inr ((List.mem_cons.mp hm).resolve_left hkj)
  · next hf =>
    split at ht
    · cases ht
    · obtain ⟨rfl, rfl⟩ := Prod.mk.inj (Option.some.inj ht)
      have hle := h.count_le hf
      have hm := h.memory_lt
      have hpos := h.count_pos
      have hbig : s.slotCount + 1 < 2 ^ 32 := by unfold SLOT_SIZE at hle; omega
      simp only [Nat.mod_eq_of_lt h.count_lt]
      refine ⟨h.count_pos, Nat.lt_succ_self _, ?_, Nat.le_succ _, hbig, by simp [hf],
        fun j hj => hj, h.handles_nodup, fun j hne hj hlt => ?_, rfl⟩
      · by_contra hl
        rw [Bool.not_eq_false] at hl
        exact lt_irrefl _ (h.range _ hl).2
      · exact h.every j hj (by simp only at hlt; omega)

/-- What an allocation that finds a handle does. -/
structure Placed (s : Heap) (size ty i : ℕ) (t : Heap) : Prop where
  pos : 0 < i
  lt : i < t.slotCount
  dead : (s.slots i).live = false
  slot : t.slots i = { s.slots i with
    payloadOffset := (s.takePayload (cellsFor size)).1, cells := cellsFor size
    logicalSize := size, typeId := ty, live := true }
  other : ∀ j, j ≠ i → t.slots j = s.slots j
  count : s.slotCount ≤ t.slotCount
  memory : t.memory = (s.takePayload (cellsFor size)).2.memory

theorem takeHandle_memorySize (h : s.takeHandle = some (i, t)) : t.memorySize = s.memorySize := by
  unfold takeHandle at h
  split at h
  · obtain ⟨-, rfl⟩ := Prod.mk.inj (Option.some.inj h)
    rfl
  · split at h
    · cases h
    · obtain ⟨-, rfl⟩ := Prod.mk.inj (Option.some.inj h)
      rfl

theorem alloc_memorySize (s : Heap) (size ty : ℕ) :
    (s.alloc size ty).2.memorySize = (s.takePayload (cellsFor size)).2.memorySize := by
  cases ht : (s.takePayload (cellsFor size)).2.takeHandle with
  | none => simp only [alloc, ht]
  | some r => simp only [alloc, ht, takeHandle_memorySize (show _ = some (r.1, r.2) from ht)]

/-- An allocation finds no handle and loses the payload, or places the object in a slot that was
not live. -/
theorem Sound.alloc_cases (h : s.Sound) (size ty : ℕ)
    (hm : (s.alloc size ty).2.memorySize < 2 ^ 32) :
    s.alloc size ty = (INVALID, (s.takePayload (cellsFor size)).2) ∨
    Placed s size ty (s.alloc size ty).1 (s.alloc size ty).2 ∧
      ∃ u, (s.takePayload (cellsFor size)).2.Fresh (s.alloc size ty).1 u ∧
        (s.alloc size ty).2 = { u with slots := (s.alloc size ty).2.slots } := by
  rw [alloc_memorySize] at hm
  cases ht : (s.takePayload (cellsFor size)).2.takeHandle with
  | none => exact Or.inl (by simp only [alloc, ht])
  | some r =>
    obtain ⟨i, u⟩ := r
    have hf := (h.take hm).takeHandle_spec ht
    have hslots : u.slots = s.slots := by rw [hf.frame]; exact takePayload_slots s _
    right
    simp only [alloc, ht]
    refine ⟨⟨hf.pos, hf.lt, by simpa using hf.dead, by simp [hslots], fun j hj => ?_, ?_, ?_⟩,
      u, hf, rfl⟩
    · simp [hj, hslots]
    · simpa using hf.count
    · rw [hf.frame]

theorem Placed.holds (h : Placed s size ty i t) {p : Place} (hp : t.Holds p o n)
    (hfree : ∀ c, t.freeList c = (s.takePayload (cellsFor size)).2.freeList c) :
    (s.takePayload (cellsFor size)).2.Holds p o n ∧ p ≠ .slot i ∨
      p = .slot i ∧ o = (s.takePayload (cellsFor size)).1 ∧ n = cellsFor size * SLOT_SIZE := by
  cases p with
  | slot j =>
    by_cases hj : j = i
    · subst hj
      obtain ⟨-, rfl, rfl⟩ := hp
      exact Or.inr ⟨rfl, by rw [h.slot], by rw [h.slot]⟩
    · simp only [Holds, h.other j hj] at hp
      exact Or.inl ⟨by simpa only [Holds, takePayload_slots] using hp, by simpa using hj⟩
  | free d o' =>
    obtain ⟨hm, rfl, rfl⟩ := hp
    exact Or.inl ⟨⟨hfree d ▸ hm, rfl, rfl⟩, by simp⟩

/-- An allocation whose rounding does not wrap keeps the payloads apart. -/
theorem Sound.alloc (h : s.Sound) {size : ℕ} (ty : ℕ) (hsize : size + 8 < 2 ^ 32)
    (hm : (s.alloc size ty).2.memorySize < 2 ^ 32) : (s.alloc size ty).2.Sound := by
  have hm' := hm
  rw [alloc_memorySize] at hm'
  have ht := h.take hm'
  rcases h.alloc_cases size ty hm with he | ⟨hp, u, hf, he⟩
  · rw [he]; exact ht
  · set t := (s.alloc size ty).2
    set i := (s.alloc size ty).1
    set s' := (s.takePayload (cellsFor size)).2 with hs'
    have hfree : ∀ c, t.freeList c = s'.freeList c := fun c => by
      rw [he, hf.frame]; rfl
    have hms : t.memorySize = s'.memorySize := alloc_memorySize s size ty
    have hhandles : t.freeHandles = u.freeHandles := by rw [he]
    have hcount : t.slotCount = u.slotCount := by rw [he]
    obtain ⟨hin, hapart⟩ := h.take_apart (cellsFor size)
    have hslots : ∀ j, j ≠ i → t.slots j = s'.slots j := fun j hj => by
      rw [hp.other j hj, hs', takePayload_slots]
    have hle : ∀ j, j < s'.slotCount → j < t.slotCount := fun j hj =>
      hcount ▸ lt_of_lt_of_le hj hf.count
    exact
      { least := fun p o n hp' => by
          rcases hp.holds hp' hfree with ⟨hq, -⟩ | ⟨-, -, rfl⟩
          · exact ht.least p o n hq
          · exact Nat.le_mul_of_pos_left _ (cellsFor_pos size)
        inside := fun p o n hp' => by
          rw [hms]
          rcases hp.holds hp' hfree with ⟨hq, -⟩ | ⟨-, rfl, rfl⟩
          · exact ht.inside p o n hq
          · exact hin
        apart := fun p o n p' o' n' hp₁ hp₂ hne => by
          rcases hp.holds hp₁ hfree with ⟨hq₁, -⟩ | ⟨rfl, rfl, rfl⟩ <;>
            rcases hp.holds hp₂ hfree with ⟨hq₂, -⟩ | ⟨rfl, rfl, rfl⟩
          · exact ht.apart _ _ _ _ _ _ hq₁ hq₂ hne
          · exact hapart _ _ _ hq₁
          · exact (hapart _ _ _ hq₂).symm
          · exact absurd rfl hne
        nodup := fun c => hfree c ▸ ht.nodup c
        size := fun j hl => by
          by_cases hj : j = i
          · subst hj
            rw [hp.slot]
            exact le_cellsFor hsize
          · rw [hslots j hj] at hl ⊢
            exact ht.size j hl
        range := fun j hl => by
          by_cases hj : j = i
          · exact hj ▸ ⟨hp.pos, hp.lt⟩
          · rw [hslots j hj] at hl
            exact ⟨(ht.range j hl).1, hle j (ht.range j hl).2⟩
        handles := fun j hj => by
          rw [hhandles] at hj
          have hne : j ≠ i := fun e => hf.not_mem (e ▸ hj)
          obtain ⟨h₁, h₂, h₃⟩ := ht.handles j (hf.sub j hj)
          exact ⟨h₁, hle j h₂, by rw [hslots j hne]; exact h₃⟩
        handles_nodup := hhandles ▸ hf.nodup
        every := fun j h₁ h₂ => by
          by_cases hj : j = i
          · subst hj
            exact Or.inl (by rw [hp.slot])
          · rw [hslots j hj, hhandles]
            exact hf.every j hj h₁ (hcount ▸ h₂)
        memory_lt := hm
        count_pos := lt_of_le_of_lt (Nat.zero_le i) hp.lt
        count_lt := hcount ▸ hf.count_lt }

end Alloc

section Free

theorem slots_freePayload (hv : s.valid i = true) :
    (s.freePayload i).slots =
      update s.slots i ⟨INVALID, 0, 0, 0, ((s.slots i).generation + 1) % 2 ^ 32, false⟩ := by
  simp [freePayload, hv]

theorem freeList_freePayload (hv : s.valid i = true) (d : ℕ) :
    (s.freePayload i).freeList d =
      if d = (s.slots i).cells then (s.slots i).payloadOffset :: s.freeList d
      else s.freeList d := by
  simp only [freePayload, hv, if_true]
  refine (freeList_setFreeList _ d).trans ?_
  split
  · next hd => rw [hd]
  · rfl

@[simp] theorem memory_freePayload : (s.freePayload i).memory = s.memory := by
  unfold freePayload; split <;> simp

@[simp] theorem memorySize_freePayload : (s.freePayload i).memorySize = s.memorySize := by
  unfold freePayload; split <;> simp

@[simp] theorem slotCount_freePayload : (s.freePayload i).slotCount = s.slotCount := by
  unfold freePayload; split <;> simp

theorem freeHandles_freePayload (hv : s.valid i = true) :
    (s.freePayload i).freeHandles = i :: s.freeHandles := by
  simp [freePayload, hv]

theorem slots_freePayload_of_ne (hj : j ≠ i) : (s.freePayload i).slots j = s.slots j := by
  cases hv : s.valid i with
  | false => simp [freePayload, hv]
  | true => rw [slots_freePayload hv, update_of_ne hj]

theorem live_freePayload (hv : s.valid i = true) :
    ((s.freePayload i).slots i).live = false := by
  rw [slots_freePayload hv, update_self]

/-- Freeing an object passes its payload from the slot to the waiting list, and no other. -/
theorem Holds.of_free {p : Place} (hv : s.valid i = true) (hp : (s.freePayload i).Holds p o n) :
    ∃ q, s.Holds q o n ∧ (q = p ∧ p ≠ .slot i ∨
      q = .slot i ∧ p = .free (s.slots i).cells (s.slots i).payloadOffset) := by
  have hl := (valid_iff.mp hv).2
  cases p with
  | slot j =>
    have hj : j ≠ i := by
      rintro rfl
      have := hp.1
      rw [live_freePayload hv] at this
      cases this
    refine ⟨.slot j, ?_, Or.inl ⟨rfl, by simpa using hj⟩⟩
    simpa only [Holds, slots_freePayload_of_ne hj] using hp
  | free d o' =>
    obtain ⟨hm, rfl, rfl⟩ := hp
    rw [freeList_freePayload hv] at hm
    by_cases hd : d = (s.slots i).cells
    · rw [if_pos hd] at hm
      rcases List.mem_cons.mp hm with rfl | hm
      · exact ⟨.slot i, ⟨hl, rfl, by rw [hd]⟩, Or.inr ⟨rfl, by rw [hd]⟩⟩
      · exact ⟨.free d o, ⟨hm, rfl, rfl⟩, Or.inl ⟨rfl, by simp⟩⟩
    · rw [if_neg hd] at hm
      exact ⟨.free d o, ⟨hm, rfl, rfl⟩, Or.inl ⟨rfl, by simp⟩⟩

theorem Sound.freePayload (h : s.Sound) (i : ℕ) : (s.freePayload i).Sound := by
  cases hv : s.valid i with
  | false => simpa [Heap.freePayload, hv] using h
  | true =>
    have hl := (valid_iff.mp hv).2
    have hself : s.Holds (.slot i) (s.slots i).payloadOffset ((s.slots i).cells * SLOT_SIZE) :=
      ⟨hl, rfl, rfl⟩
    have hnot : (s.slots i).payloadOffset ∉ s.freeList (s.slots i).cells := fun hm => by
      have hn := h.least _ _ _ hself
      have := h.apart _ _ _ (.free (s.slots i).cells (s.slots i).payloadOffset) _ _ hself
        ⟨hm, rfl, rfl⟩ (by simp)
      unfold Apart SLOT_SIZE at *
      omega
    have hlive : ∀ j, ((s.freePayload i).slots j).live = true → j ≠ i := by
      rintro j hj rfl
      rw [live_freePayload hv] at hj
      cases hj
    exact
      { least := fun p o n hp => by
          obtain ⟨q, hq, -⟩ := hp.of_free hv
          exact h.least q o n hq
        inside := fun p o n hp => by
          obtain ⟨q, hq, -⟩ := hp.of_free hv
          rw [memorySize_freePayload]
          exact h.inside q o n hq
        apart := fun p o n p' o' n' hp hp' hne => by
          obtain ⟨q, hq, hpq⟩ := hp.of_free hv
          obtain ⟨q', hq', hpq'⟩ := hp'.of_free hv
          refine h.apart _ _ _ _ _ _ hq hq' ?_
          rcases hpq with ⟨rfl, h₁⟩ | ⟨rfl, rfl⟩ <;> rcases hpq' with ⟨rfl, h₂⟩ | ⟨rfl, rfl⟩
          · exact hne
          · exact h₁
          · exact Ne.symm h₂
          · exact absurd rfl hne
        nodup := fun c => by
          rw [freeList_freePayload hv]
          split
          · next hc => exact List.nodup_cons.mpr ⟨hc ▸ hnot, h.nodup c⟩
          · exact h.nodup c
        size := fun j hj => by
          have hs := slots_freePayload_of_ne (s := s) (hlive j hj)
          rw [hs] at hj ⊢
          exact h.size j hj
        range := fun j hj => by
          rw [slots_freePayload_of_ne (hlive j hj)] at hj
          simpa using h.range j hj
        handles := fun j hj => by
          rw [freeHandles_freePayload hv] at hj
          rw [slotCount_freePayload]
          rcases List.mem_cons.mp hj with rfl | hj
          · exact ⟨(h.range j hl).1, (h.range j hl).2, live_freePayload hv⟩
          · obtain ⟨h₁, h₂, h₃⟩ := h.handles j hj
            have hne : j ≠ i := by rintro rfl; rw [hl] at h₃; cases h₃
            exact ⟨h₁, h₂, by rw [slots_freePayload_of_ne hne]; exact h₃⟩
        handles_nodup := by
          rw [freeHandles_freePayload hv, List.nodup_cons]
          refine ⟨fun hm => ?_, h.handles_nodup⟩
          rw [(h.handles i hm).2.2] at hl
          cases hl
        every := fun j h₁ h₂ => by
          rw [freeHandles_freePayload hv]
          by_cases hj : j = i
          · exact Or.inr (hj ▸ List.mem_cons_self)
          · rw [slotCount_freePayload] at h₂
            rw [slots_freePayload_of_ne hj]
            rcases h.every j h₁ h₂ with hl | hm
            · exact Or.inl hl
            · exact Or.inr (List.mem_cons_of_mem _ hm)
        memory_lt := by simpa using h.memory_lt
        count_pos := by simpa using h.count_pos
        count_lt := by simpa using h.count_lt }

end Free

section Cells

variable {v : BitVec 64} {tag : BitVec 8} {byteOff : ℕ}

theorem Sound.put (h : s.Sound) (m : ℕ → BitVec 8) : { s with memory := m }.Sound :=
  ⟨h.least, h.inside, h.apart, h.nodup, h.size, h.range, h.handles, h.handles_nodup, h.every,
    h.memory_lt, h.count_pos, h.count_lt⟩

theorem Sound.storeCell (h : s.Sound) (hs : s.storeCell i byteOff v tag = some t) : t.Sound := by
  obtain ⟨o, -, rfl⟩ := Option.map_eq_some_iff.mp hs
  exact h.put _

/-- The payload of a live object in the arena. -/
theorem Sound.payload_le (h : s.Sound) (hv : s.valid i = true) :
    (s.slots i).payloadOffset + (s.slots i).cells * SLOT_SIZE ≤ s.memorySize :=
  h.inside (.slot i) _ _ ⟨(valid_iff.mp hv).2, rfl, rfl⟩

theorem Sound.payload_apart (h : s.Sound) (hi : s.valid i = true) (hj : s.valid j = true)
    (hne : i ≠ j) : Apart (s.slots i).payloadOffset ((s.slots i).cells * SLOT_SIZE)
      (s.slots j).payloadOffset ((s.slots j).cells * SLOT_SIZE) :=
  h.apart (.slot i) _ _ (.slot j) _ _ ⟨(valid_iff.mp hi).2, rfl, rfl⟩
    ⟨(valid_iff.mp hj).2, rfl, rfl⟩ (by simpa using hne)

/-- An access is granted exactly inside the requested bytes of a live object, which lie in its
payload. -/
theorem Sound.cellOffset_eq (h : s.Sound) : s.cellOffset i byteOff =
    if s.valid i = true ∧ byteOff + SLOT_SIZE ≤ (s.slots i).logicalSize then
      some ((s.slots i).payloadOffset + byteOff) else none := by
  unfold cellOffset
  simp only
  split
  · next hc =>
    rw [if_neg]
    rintro ⟨hv, hb⟩
    obtain ⟨hlt, hl⟩ := valid_iff.mp hv
    rcases hc with hc | hc | hc
    · omega
    · rw [hl] at hc; cases hc
    · have := h.payload_le hv
      have := h.least (.slot i) _ _ ⟨hl, rfl, rfl⟩
      have := h.memory_lt
      unfold INVALID at hc
      unfold SLOT_SIZE at *
      omega
  · next hc =>
    push Not at hc
    have hv : s.valid i = true := valid_iff.mpr ⟨hc.1, by simpa using hc.2.1⟩
    have := h.payload_le hv
    have hs := h.size i (valid_iff.mp hv).2
    have := h.memory_lt
    split
    · next hb => rw [if_neg]; omega
    · next hb =>
      have hb' : byteOff + SLOT_SIZE ≤ (s.slots i).logicalSize := by omega
      rw [if_pos ⟨hv, hb'⟩, Nat.mod_eq_of_lt (by unfold SLOT_SIZE at *; omega)]

theorem Sound.cellOffset_eq_some (h : s.Sound) : s.cellOffset i byteOff = some o ↔
    (s.valid i = true ∧ byteOff + SLOT_SIZE ≤ (s.slots i).logicalSize) ∧
      (s.slots i).payloadOffset + byteOff = o := by
  rw [h.cellOffset_eq, Option.ite_none_right_eq_some, Option.some_inj]

theorem loadCell_eq (h : s.Sound) (hv : s.valid i = true)
    (hb : byteOff + SLOT_SIZE ≤ (s.slots i).logicalSize) :
    s.loadCell i byteOff =
      some (Bytes.getWord s.memory ((s.slots i).payloadOffset + byteOff),
        s.memory ((s.slots i).payloadOffset + byteOff + 8)) := by
  rw [loadCell, h.cellOffset_eq, if_pos ⟨hv, hb⟩, Option.map_some]

/-- A load is granted where a store is. -/
theorem Sound.loadCell_isSome (h : s.Sound) : (s.loadCell i byteOff).isSome = true ↔
    s.valid i = true ∧ byteOff + SLOT_SIZE ≤ (s.slots i).logicalSize := by
  rw [loadCell, Option.isSome_map, Option.isSome_iff_exists]
  simp only [h.cellOffset_eq_some, exists_and_left, exists_eq', and_true]

/-- The same bytes in the same slot load the same. -/
theorem Sound.loadCell_congr (h : s.Sound) (ht : t.Sound) (hv : s.valid i = true)
    (hv' : t.valid i = true) (hs : t.slots i = s.slots i)
    (hb : byteOff + SLOT_SIZE ≤ (s.slots i).logicalSize)
    (hm : ∀ k < SLOT_SIZE, t.memory ((s.slots i).payloadOffset + byteOff + k) =
      s.memory ((s.slots i).payloadOffset + byteOff + k)) :
    t.loadCell i byteOff = s.loadCell i byteOff := by
  rw [loadCell_eq h hv hb, loadCell_eq ht hv' (by rw [hs]; exact hb), hs,
    hm 8 (by decide), Bytes.getWord_congr fun k hk => hm k (by unfold SLOT_SIZE; omega)]

/-- An allocation leaves the other objects alone. -/
theorem Sound.loadCell_alloc (h : s.Sound) (ht : (s.alloc size ty).2.Sound)
    (hv : s.valid i = true) (byteOff : ℕ) :
    (s.alloc size ty).2.valid i = true ∧ (s.alloc size ty).2.slots i = s.slots i ∧
      (s.alloc size ty).2.loadCell i byteOff = s.loadCell i byteOff := by
  have hm := ht.memory_lt
  have hl := (valid_iff.mp hv).2
  have hmem : (s.alloc size ty).2.memory = (s.takePayload (cellsFor size)).2.memory := by
    rcases h.alloc_cases size ty hm with he | ⟨hp, -⟩
    · rw [he]
    · exact hp.memory
  have hslot : (s.alloc size ty).2.slots i = s.slots i := by
    rcases h.alloc_cases size ty hm with he | ⟨hp, -⟩
    · rw [he]; exact congrFun (takePayload_slots s _) i
    · refine hp.other i ?_
      rintro rfl
      rw [hp.dead] at hl
      cases hl
  have hv' : (s.alloc size ty).2.valid i = true := ht.valid_of_live (by rw [hslot]; exact hl)
  refine ⟨hv', hslot, ?_⟩
  by_cases hb : byteOff + SLOT_SIZE ≤ (s.slots i).logicalSize
  · refine h.loadCell_congr ht hv hv' hslot hb fun k hk => ?_
    have hsz := h.size i hl
    have happ := (h.take_apart (cellsFor size)).2 (.slot i) (s.slots i).payloadOffset
      ((s.slots i).cells * SLOT_SIZE) (by simpa [Holds] using hl)
    rw [hmem, takePayload_memory s _ h.memory_lt, Bytes.put_of_not_mem]
    rcases happ with happ | happ
    · exact Or.inl (by omega)
    · exact Or.inr (by omega)
  · have hn : ∀ u : Heap, u.Sound → u.slots i = s.slots i → u.loadCell i byteOff = none := by
      intro u hu he
      rw [← Option.not_isSome_iff_eq_none, hu.loadCell_isSome, he]
      exact fun hc => hb hc.2
    rw [hn s h rfl, hn _ ht hslot]

/-- A fresh object reads zero. -/
theorem Sound.loadCell_alloc_self (h : s.Sound) (ht : (s.alloc size ty).2.Sound)
    (hne : (s.alloc size ty).1 ≠ INVALID) (hb : byteOff + SLOT_SIZE ≤ size) :
    (s.alloc size ty).2.loadCell (s.alloc size ty).1 byteOff = some (0, 0) := by
  rcases h.alloc_cases size ty ht.memory_lt with he | ⟨hp, -⟩
  · rw [he] at hne; exact absurd rfl hne
  · have hl : ((s.alloc size ty).2.slots (s.alloc size ty).1).live = true := by rw [hp.slot]
    have hsz := ht.size _ hl
    have hz : ∀ k < SLOT_SIZE, (s.alloc size ty).2.memory
        (((s.alloc size ty).2.slots (s.alloc size ty).1).payloadOffset + byteOff + k) = 0 := by
      intro k hk
      rw [hp.slot] at hsz ⊢
      rw [hp.memory, takePayload_memory s _ h.memory_lt, Bytes.put_of_mem]
      · simp only; omega
      · simp only at hsz ⊢; omega
    rw [loadCell_eq ht (ht.valid_of_live hl) (by rw [hp.slot]; exact hb), hz 8 (by decide),
      Bytes.getWord_zero fun k hk => hz k (by unfold SLOT_SIZE; omega)]

theorem loadCell_free (s : Heap) (hj : i ≠ j) (byteOff : ℕ) :
    (s.freePayload j).loadCell i byteOff = s.loadCell i byteOff := by
  have hs : (s.freePayload j).slots i = s.slots i := slots_freePayload_of_ne hj
  simp only [loadCell, cellOffset, hs, slotCount_freePayload, memory_freePayload]

/-- What a load finds after a store: the stored value in the same cell, the old value where the
cells do not overlap or belong to different objects. -/
theorem Sound.loadCell_store (h : s.Sound) (hs : s.storeCell i byteOff v tag = some t)
    {off : ℕ} (ho : j ≠ i ∨ off + SLOT_SIZE ≤ byteOff ∨ byteOff + SLOT_SIZE ≤ off) :
    t.loadCell j off = s.loadCell j off := by
  have ht := h.storeCell hs
  obtain ⟨o, hoff, rfl⟩ := Option.map_eq_some_iff.mp hs
  obtain ⟨⟨hv, hb⟩, rfl⟩ := h.cellOffset_eq_some.mp hoff
  by_cases hj : s.valid j = true ∧ off + SLOT_SIZE ≤ (s.slots j).logicalSize
  · refine h.loadCell_congr ht hj.1 hj.1 rfl hj.2 fun k hk => Bytes.put_of_not_mem ?_
    have hsi := h.size i (valid_iff.mp hv).2
    have hsj := h.size j (valid_iff.mp hj.1).2
    rcases ho with hne | ho
    · rcases h.payload_apart hv hj.1 (Ne.symm hne) with ha | ha
      · exact Or.inr (by omega)
      · exact Or.inl (by omega)
    · by_cases hij : j = i
      · subst hij
        omega
      · rcases h.payload_apart hv hj.1 (Ne.symm hij) with ha | ha
        · exact Or.inr (by omega)
        · exact Or.inl (by omega)
  · have hn : ∀ u : Heap, u.Sound → u.slots = s.slots → u.slotCount = s.slotCount →
        u.loadCell j off = none := by
      intro u hu he hc
      rw [← Option.not_isSome_iff_eq_none, hu.loadCell_isSome, he]
      rw [valid, hc, he]
      exact hj
    rw [hn s h rfl rfl, hn _ ht rfl rfl]

theorem Sound.loadCell_store_self (h : s.Sound) (hs : s.storeCell i byteOff v tag = some t) :
    t.loadCell i byteOff = some (v, tag) := by
  have ht := h.storeCell hs
  obtain ⟨o, hoff, rfl⟩ := Option.map_eq_some_iff.mp hs
  obtain ⟨⟨hv, hb⟩, rfl⟩ := h.cellOffset_eq_some.mp hoff
  have hput : ∀ k < SLOT_SIZE,
      Bytes.put s.memory ((s.slots i).payloadOffset + byteOff) SLOT_SIZE (cellByte v tag)
        ((s.slots i).payloadOffset + byteOff + k) = cellByte v tag k := by
    intro k hk
    rw [Bytes.put_of_mem (by omega) (by omega), Nat.add_sub_cancel_left]
  refine (loadCell_eq ht hv hb).trans (congrArg some (Prod.ext ?_ (hput 8 (by decide))))
  refine Bytes.getWord_eq v fun k hk => (hput k (by unfold SLOT_SIZE; omega)).trans ?_
  rw [cellByte, if_pos hk]

end Cells

end Heap

end Loxis.Vm
