import Loxis.Backend.Straight
import Loxis.Vm.HeapRun
import Loxis.Vm.Refusal

/-! # Array elements

An array of `n` elements is an object of `n + 1` cells, its length and its elements. The code of
an access computes the byte offset of the element with 64 bits, of which the machine keeps 32,
and the heap checks that a cell of the object starts there.
-/

namespace Loxis.Backend

open Function
open Loxis.Vm (Heap TAG_HEAP)

/-- The instructions of an access. -/
inductive ElementInstr
  | plain (i : Instr String)
  | mul (src val dst : ℕ)
  | add (dst src val : ℕ)
  | hload (base off result : ℕ)
  | hstore (base off value : ℕ)

section Emit

variable (g : Surroundings) (b : MirBody)

/-- Put the offset of an element into register 251. -/
def emitOffset (idx : Operand) : Except String (List ElementInstr) := do
  let cs ← emitOperandToReg g b 250 idx
  .ok (cs.map .plain ++ [.plain (.push 252 ⟨9, TAG_INT⟩), .mul 250 252 251, .add 251 252 251])

def emitIndex (place l : ℕ) (idx : Operand) : Except String (List ElementInstr) := do
  let placeReg ← localToReg b place
  let baseReg ← localToReg b l
  let offset ← emitOffset g b idx
  .ok (offset ++ [.hload baseReg 251 placeReg])

def emitIndexStore (place : ℕ) (idx value : Operand) : Except String (List ElementInstr) := do
  let baseReg ← localToReg b place
  let offset ← emitOffset g b idx
  let cs ← emitOperandToReg g b 253 value
  .ok (offset ++ cs.map .plain ++ [.hstore baseReg 251 253])

end Emit

/-- What the machine looks up besides registers and objects: the names of the types, and the
entries of new strings in the string pool. -/
structure Metadata where
  typeNames : List String
  internRuntimeString : String → BitVec 64
  concat : BitVec 64 → BitVec 64 → BitVec 64

/-- How an instruction ends: it goes on, throws an object, or the machine panics. -/
inductive Outcome
  | next (m : Machine)
  | raise (heap : Heap) (exception : ℕ)
  | panic

section Exec

variable (x : Metadata) (A : String → ℕ)

/-- Throw a new exception with a message. -/
def raiseRuntime (heap : Heap) (message : String) : Outcome :=
  match x.typeNames.findIdx? (· = "RuntimeException") with
  | none => .panic
  | some typeId =>
    let (handle, heap) := heap.alloc Heap.SLOT_SIZE typeId
    if handle = Heap.INVALID then .panic
    else match heap.storeCell handle 0 (x.internRuntimeString message) TAG_STR with
      | none => .panic
      | some heap => .raise heap handle

def ElementInstr.exec (m : Machine) : ElementInstr → Outcome
  | .plain i => .next { m with regs := (i.map A).effect m.regs, ip := m.ip + 1 }
  | .mul src val dst =>
    .next (m.setReg dst ⟨(m.regs src).val * (m.regs val).val, TAG_INT⟩).next
  | .add dst src val =>
    if (m.regs src).tag = TAG_STR ∧ (m.regs val).tag = TAG_STR then
      .next (m.setReg dst ⟨x.concat (m.regs src).val (m.regs val).val, TAG_STR⟩).next
    else .next (m.setReg dst ⟨(m.regs src).val + (m.regs val).val, TAG_INT⟩).next
  | .hload base off result =>
    match m.heap.loadCell (m.handle base) ((m.regs off).val.toNat % 2 ^ 32) with
    | none => raiseRuntime x m.heap "heap read out of bounds or through an invalid handle"
    | some (val, tag) => .next (m.setReg result ⟨val, tag⟩).next
  | .hstore base off value =>
    match m.heap.loadCell (m.handle base) ((m.regs off).val.toNat % 2 ^ 32) with
    | none => raiseRuntime x m.heap "heap write out of bounds or through an invalid handle"
    | some old =>
      if old.2 = TAG_HEAP ∧ (m.regs value).tag = TAG_HEAP ∧ old.1 = (m.regs value).val then
        .next m.next
      else match m.heap.storeCell (m.handle base) ((m.regs off).val.toNat % 2 ^ 32)
          (m.regs value).val (m.regs value).tag with
        | none => .panic
        | some heap => .next { m with heap := heap, ip := m.ip + 1 }

/-- Run the instructions until one does not go on. -/
def run : Machine → List ElementInstr → Outcome
  | m, [] => .next m
  | m, i :: is =>
    match i.exec x A m with
    | .next m' => run m' is
    | o => o

end Exec

/-- The object has room for a length and `n` elements. -/
structure IsArray (s : Heap) (a n : ℕ) : Prop where
  valid : s.valid a = true
  size : (s.slots a).logicalSize = Heap.SLOT_SIZE * (n + 1)

def InBounds (n : ℕ) (i : BitVec 64) : Prop := 0 ≤ i.toInt ∧ i.toInt < n

/-- The objects are all there with the same contents. -/
def Kept (s t : Heap) : Prop :=
  ∀ j, s.valid j = true →
    t.valid j = true ∧ t.slots j = s.slots j ∧ ∀ off, t.loadCell j off = s.loadCell j off

/-- A new object is thrown and the others are kept. -/
def Outcome.Raises (s : Heap) (o : Outcome) : Prop :=
  ∃ t e, o = .raise t e ∧ s.valid e = false ∧ Kept s t

/-- Where element `i` of an array lies. -/
def elementCell (i : BitVec 64) : ℕ := Heap.SLOT_SIZE * (i.toNat + 1)

/-- The offset that an access uses. -/
def elementOffset (i : BitVec 64) : ℕ := (9 + i * 9).toNat % 2 ^ 32

/-- A read of element `i` of the array `a` into register `r`. -/
def ReadSafe (m : Machine) (a n : ℕ) (i : BitVec 64) (r : ℕ) (o : Outcome) : Prop :=
  (InBounds n i → ∃ m', o = .next m' ∧ m'.heap = m.heap ∧
    m.heap.loadCell a (elementCell i) = some ((m'.regs r).val, (m'.regs r).tag)) ∧
  (¬ InBounds n i → o.Raises m.heap)

/-- A store of `v` into element `i` of the array `a`. -/
def WriteSafe (m : Machine) (a n : ℕ) (i : BitVec 64) (v : Value) (o : Outcome) : Prop :=
  (InBounds n i → ∃ m', o = .next m' ∧ m'.heap.slots = m.heap.slots ∧
    m'.heap.loadCell a (elementCell i) = some (v.val, v.tag) ∧
    ∀ j off, (j ≠ a ∨ off + Heap.SLOT_SIZE ≤ elementCell i ∨
      elementCell i + Heap.SLOT_SIZE ≤ off) → m'.heap.loadCell j off = m.heap.loadCell j off) ∧
  (¬ InBounds n i → o.Raises m.heap)

/-- An exception can be made: its type is known and a handle is left. -/
def ExceptionReady (x : Metadata) (s : Heap) : Prop :=
  "RuntimeException" ∈ x.typeNames ∧ Vm.CountedHeap.HandleReady ⟨s, Vm.CountedHeap.new.stats⟩

variable {g : Surroundings} {b : MirBody} {x : Metadata} {A : String → ℕ} {m m' : Machine}
  {s t : Heap} {place l a n : ℕ} {idx value : Operand} {i : BitVec 64}
  {cs is js : List ElementInstr}

/-! ## The code of an access -/

theorem run_cons {i : ElementInstr} (h : i.exec x A m = .next m') :
    run x A m (i :: is) = run x A m' is := by
  rw [run, h]

theorem run_append (h : run x A m is = .next m') : run x A m (is ++ js) = run x A m' js := by
  induction is generalizing m with
  | nil =>
    cases h
    rfl
  | cons i is ih =>
    rw [run] at h
    split at h
    · next m₁ hm₁ =>
      rw [List.cons_append, run_cons hm₁]
      exact ih h
    · next hstop => exact absurd h (hstop _)

theorem run_plain (xs : List (Instr String)) (m : Machine) :
    run x A m (xs.map .plain) =
      .next { m with regs := effects (xs.map (Instr.map A)) m.regs, ip := m.ip + xs.length } := by
  induction xs generalizing m with
  | nil => rfl
  | cons i xs ih =>
    rw [List.map_cons, run_cons (show ElementInstr.exec x A m (.plain i) = .next _ from rfl), ih]
    simp only [List.map_cons, effects_cons, List.length_cons, Nat.add_assoc, Nat.add_comm 1]

/-- Only staging registers differ. -/
structure Staged (m m' : Machine) : Prop where
  heap : m'.heap = m.heap
  regs : ∀ k, k < 240 ∨ 256 ≤ k → m'.regs k = m.regs k

theorem staged_operand {cs : List (Instr String)} {op : Operand} {r : ℕ}
    (h : emitOperandToReg g b r op = .ok cs) (hr : 240 ≤ r ∧ r < 256) (m : Machine) :
    ∃ m', run x A m (cs.map .plain) = .next m' ∧ Staged m m' ∧
      m'.regs = update m.regs r (op.value g A m.regs) := by
  obtain ⟨-, heffects, -⟩ := emitOperandToReg_spec (A := A) h (by omega)
  refine ⟨_, run_plain cs m, ⟨rfl, fun k hk => ?_⟩, heffects m.regs⟩
  simp only [heffects]
  exact update_of_ne (by omega) _ _

theorem emitOffset_spec (h : emitOffset g b idx = .ok cs) (m : Machine) :
    ∃ m', run x A m cs = .next m' ∧ Staged m m' ∧
      (m'.regs 251).val = 9 + (idx.value g A m.regs).val * 9 := by
  simp only [emitOffset, bind, Except.bind] at h
  split at h
  · cases h
  · next ci hci =>
    cases h
    obtain ⟨m₁, hrun, hstaged, hregs⟩ := staged_operand (x := x) (A := A) hci (by omega) m
    have hidx : m₁.regs 250 = idx.value g A m.regs := by rw [hregs, update_self]
    have htail : run x A m₁ [.plain (.push 252 ⟨9, TAG_INT⟩), .mul 250 252 251, .add 251 252 251] =
        .next { m₁ with
          regs := update (update (update m₁.regs 252 ⟨9, TAG_INT⟩)
            251 ⟨(m₁.regs 250).val * 9, TAG_INT⟩) 251 ⟨9 + (m₁.regs 250).val * 9, TAG_INT⟩
          ip := m₁.ip + 3 } := by
      simp [run, ElementInstr.exec, Instr.map, Instr.effect, Machine.setReg, Machine.next, TAG_INT,
        TAG_STR]
    refine ⟨_, (run_append hrun).trans htail, ⟨hstaged.heap, fun k hk => ?_⟩, ?_⟩
    · refine .trans ?_ (hstaged.regs k hk)
      simp only [update_of_ne (show k ≠ 251 by omega), update_of_ne (show k ≠ 252 by omega)]
    · simp only [update_self, hidx]

theorem localToReg_ok {r : ℕ} (h : localToReg b l = .ok r) : r = regOf l ∧ (r < 240 ∨ 256 ≤ r) := by
  obtain ⟨hlt, rfl⟩ := localToReg_eq_ok.mp h
  exact ⟨rfl, (regOf_range hlt).2⟩

theorem Staged.handle (h : Staged m m') {r : ℕ} (hr : r < 240 ∨ 256 ≤ r) :
    m'.handle r = m.handle r := by
  rw [Machine.handle, Machine.handle, h.regs r hr]

theorem run_singleton (i : ElementInstr) (m : Machine) : run x A m [i] = i.exec x A m := by
  rw [run]
  split
  · next m' hm => exact hm.symm
  · rfl

/-- A read loads the cell at the offset. -/
theorem emitIndex_spec (h : emitIndex g b place l idx = .ok cs) (m : Machine) :
    (∃ c m', m.heap.loadCell (m.handle (regOf l)) (elementOffset (idx.value g A m.regs).val) =
        some c ∧ run x A m cs = .next m' ∧ m'.heap = m.heap ∧
        m'.regs (regOf place) = ⟨c.1, c.2⟩) ∨
      (m.heap.loadCell (m.handle (regOf l)) (elementOffset (idx.value g A m.regs).val) = none ∧
        run x A m cs =
          raiseRuntime x m.heap "heap read out of bounds or through an invalid handle") := by
  simp only [emitIndex, bind, Except.bind] at h
  split at h
  · cases h
  · next pr hpr =>
    split at h
    · cases h
    · next br hbr =>
      split at h
      · cases h
      · next offset hoffset =>
        cases h
        obtain ⟨rfl, -⟩ := localToReg_ok hpr
        obtain ⟨rfl, hbase⟩ := localToReg_ok hbr
        obtain ⟨m₁, hrun, hstaged, hval⟩ := emitOffset_spec (x := x) (A := A) hoffset m
        rw [run_append hrun, run_singleton, ElementInstr.exec, ← hstaged.heap,
          ← hstaged.handle hbase, elementOffset, ← hval]
        cases m₁.heap.loadCell (m₁.handle (regOf l)) ((m₁.regs 251).val.toNat % 2 ^ 32) with
        | none => exact Or.inr ⟨rfl, rfl⟩
        | some c => exact Or.inl ⟨c, _, rfl, rfl, rfl, update_self ..⟩

theorem storeCell_of_load {s : Heap} {c : BitVec 64 × BitVec 8} {off : ℕ}
    (h : s.loadCell a off = some c) (v : BitVec 64) (tag : BitVec 8) :
    ∃ t, s.storeCell a off v tag = some t := by
  obtain ⟨o, ho, -⟩ := Option.map_eq_some_iff.mp h
  exact ⟨_, by rw [Heap.storeCell, ho, Option.map_some]⟩

/-- A store replaces the cell at the offset, unless it holds the value already. -/
theorem emitIndexStore_spec (h : emitIndexStore g b l idx value = .ok cs) (m : Machine) :
    (∃ m', run x A m cs = .next m' ∧
        (m.heap.storeCell (m.handle (regOf l)) (elementOffset (idx.value g A m.regs).val)
            (value.value g A m.regs).val (value.value g A m.regs).tag = some m'.heap ∨
          m.heap.loadCell (m.handle (regOf l)) (elementOffset (idx.value g A m.regs).val) =
            some ((value.value g A m.regs).val, (value.value g A m.regs).tag) ∧
          m'.heap = m.heap)) ∨
      (m.heap.loadCell (m.handle (regOf l)) (elementOffset (idx.value g A m.regs).val) = none ∧
        run x A m cs =
          raiseRuntime x m.heap "heap write out of bounds or through an invalid handle") := by
  simp only [emitIndexStore, bind, Except.bind] at h
  split at h
  · cases h
  · next br hbr =>
    split at h
    · cases h
    · next offset hoffset =>
      split at h
      · cases h
      · next cv hcv =>
        cases h
        obtain ⟨rfl, hbase⟩ := localToReg_ok hbr
        obtain ⟨m₁, hrun, hstaged, hval⟩ := emitOffset_spec (x := x) (A := A) hoffset m
        obtain ⟨m₂, hrun₂, hstaged₂, hregs⟩ :=
          staged_operand (x := x) (A := A) hcv (by omega) m₁
        have hsteady := (emitOperandToReg_spec (A := A) hcv (by omega)).2.2
        have hv : m₂.regs 253 = value.value g A m.regs := by
          rw [hregs, update_self]
          exact hsteady _ _ hstaged.regs
        have hoff : m₂.regs 251 = m₁.regs 251 := by rw [hregs, update_of_ne (by decide)]
        rw [List.append_assoc, run_append hrun, run_append hrun₂, run_singleton,
          ElementInstr.exec, hv, hoff, hstaged₂.heap, hstaged₂.handle hbase, hstaged.heap,
          hstaged.handle hbase, elementOffset, ← hval]
        cases hload : m.heap.loadCell (m.handle (regOf l)) ((m₁.regs 251).val.toNat % 2 ^ 32) with
        | none => exact Or.inr ⟨rfl, rfl⟩
        | some c =>
          left
          dsimp only
          split
          · next hsame =>
            refine ⟨_, rfl, Or.inr ⟨?_, hstaged₂.heap.trans hstaged.heap⟩⟩
            rw [← hsame.2.2, hsame.2.1, ← hsame.1]
          · obtain ⟨t, ht⟩ := storeCell_of_load hload (value.value g A m.regs).val
              (value.value g A m.regs).tag
            rw [ht]
            exact ⟨_, rfl, Or.inl rfl⟩

/-! ## Exceptions -/

theorem handleReady_alloc (s : Heap) (size ty : ℕ) :
    Vm.CountedHeap.HandleReady ⟨s, Vm.CountedHeap.new.stats⟩ ↔
      (s.alloc size ty).1 ≠ Heap.INVALID := by
  have halloc : (Vm.CountedHeap.alloc ⟨s, Vm.CountedHeap.new.stats⟩ size ty).1 =
      (s.alloc size ty).1 := by
    rw [Vm.CountedHeap.alloc]
    cases (s.takePayload (Heap.cellsFor size)).2.takeHandle <;> rfl
  rw [← halloc, ne_eq, Vm.CountedHeap.alloc_invalid_iff, not_not]

/-- An object that carries a message. -/
structure IsException (x : Metadata) (s : Heap) (message : String) (e : ℕ) : Prop where
  valid : s.valid e = true
  type : x.typeNames[s.getTypeId e]? = some "RuntimeException"
  message : s.loadCell e 0 = some (x.internRuntimeString message, TAG_STR)

/-- The exception is an object of its own. -/
theorem raiseRuntime_spec (hs : s.Sound) (hroom : (s.takePayload 1).2.memorySize < 2 ^ 32)
    (hready : ExceptionReady x s) (message : String) :
    ∃ t e, raiseRuntime x s message = .raise t e ∧ s.valid e = false ∧ Kept s t ∧
      IsException x t message e := by
  obtain ⟨hname, hhandle⟩ := hready
  obtain ⟨ty, hty⟩ : ∃ ty, x.typeNames.findIdx? (· = "RuntimeException") = some ty := by
    rw [← Option.isSome_iff_exists, List.findIdx?_isSome, List.any_eq_true]
    exact ⟨_, hname, by simp⟩
  have hm : (s.alloc Heap.SLOT_SIZE ty).2.memorySize < 2 ^ 32 := by
    rw [Heap.alloc_memorySize]
    exact hroom
  have hne := (handleReady_alloc s Heap.SLOT_SIZE ty).mp hhandle
  have ht := hs.alloc ty (show Heap.SLOT_SIZE + 8 < 2 ^ 32 by decide) hm
  have hother := fun j => hs.loadCell_alloc (i := j) ht
  have hcases := hs.alloc_cases Heap.SLOT_SIZE ty hm
  obtain ⟨e, u, halloc⟩ : ∃ e u, s.alloc Heap.SLOT_SIZE ty = (e, u) := ⟨_, _, rfl⟩
  rw [halloc] at hne ht hother hcases
  obtain he | ⟨hplaced, -⟩ := hcases
  · exact absurd (congrArg Prod.fst he) hne
  · have hlive : (u.slots e).live = true := by rw [hplaced.slot]
    have hcell : (u.loadCell e 0).isSome = true := by
      rw [ht.loadCell_isSome, hplaced.slot]
      exact ⟨ht.valid_of_live hlive, (Nat.zero_add _).le⟩
    obtain ⟨c, hc⟩ := Option.isSome_iff_exists.mp hcell
    obtain ⟨t, hstore⟩ := storeCell_of_load hc (x.internRuntimeString message) TAG_STR
    obtain ⟨hslots, hcount⟩ : t.slots = u.slots ∧ t.slotCount = u.slotCount := by
      obtain ⟨o, -, rfl⟩ := Option.map_eq_some_iff.mp hstore
      exact ⟨rfl, rfl⟩
    have hvalid : t.valid e = true :=
      (ht.storeCell hstore).valid_of_live (by rw [hslots]; exact hlive)
    refine ⟨t, e, ?_, ?_, fun j hj => ?_, hvalid, ?_, ht.loadCell_store_self hstore⟩
    · simp only [raiseRuntime, hty, halloc, if_neg hne, hstore]
    · rw [Heap.valid, hplaced.dead, Bool.and_false]
    · obtain ⟨hvalid, hslot, -⟩ := hother j hj 0
      have hje : j ≠ e := by
        rintro rfl
        rw [Heap.valid, hplaced.dead, Bool.and_false] at hj
        cases hj
      refine ⟨(ht.storeCell hstore).valid_of_live ?_, by rw [hslots, hslot], fun off => ?_⟩
      · rw [hslots]
        exact (Heap.valid_iff.mp hvalid).2
      · rw [ht.loadCell_store hstore (Or.inl hje)]
        exact (hother j hj off).2.2
    · rw [Heap.getTypeId, if_pos (hcount ▸ hplaced.lt), hslots, hplaced.slot]
      obtain ⟨hlt, hat, -⟩ := List.findIdx?_eq_some_iff_getElem.mp hty
      exact List.getElem?_eq_some_iff.mpr ⟨hlt, of_decide_eq_true hat⟩

theorem raiseRuntime_raises (hs : s.Sound) (hroom : (s.takePayload 1).2.memorySize < 2 ^ 32)
    (hready : ExceptionReady x s) (message : String) : (raiseRuntime x s message).Raises s := by
  obtain ⟨t, e, hraise, hnew, hkept, -⟩ := raiseRuntime_spec hs hroom hready message
  exact ⟨t, e, hraise, hnew, hkept⟩

theorem raiseRuntime_panic (hready : ¬ ExceptionReady x s) (message : String) :
    raiseRuntime x s message = .panic := by
  rw [raiseRuntime]
  split
  · rfl
  · next ty hty =>
    have hname : "RuntimeException" ∈ x.typeNames := by
      have hsome : (x.typeNames.findIdx? (· = "RuntimeException")).isSome = true := by rw [hty]; rfl
      rw [List.findIdx?_isSome, List.any_eq_true] at hsome
      obtain ⟨n, hn, he⟩ := hsome
      rwa [of_decide_eq_true he] at hn
    have hnone : (s.alloc Heap.SLOT_SIZE ty).1 = Heap.INVALID := by
      by_contra hne
      exact hready ⟨hname, (handleReady_alloc s _ _).mpr hne⟩
    exact if_pos hnone

theorem raises_iff (hs : s.Sound) (hroom : (s.takePayload 1).2.memorySize < 2 ^ 32)
    (message : String) : (raiseRuntime x s message).Raises s ↔ ExceptionReady x s := by
  constructor
  · intro h
    by_contra hready
    obtain ⟨t, e, he, -⟩ := h
    rw [raiseRuntime_panic hready] at he
    cases he
  · exact fun hready => raiseRuntime_raises hs hroom hready message

/-! ## Offsets -/

/-- A cell is granted up to the last element, whatever its alignment. -/
theorem loadCell_array (hs : s.Sound) (ha : IsArray s a n) {off : ℕ} :
    (s.loadCell a off).isSome = true ↔ off ≤ Heap.SLOT_SIZE * n := by
  rw [hs.loadCell_isSome, ha.size, Nat.mul_succ, Nat.add_le_add_iff_right]
  exact and_iff_right ha.valid

theorem IsArray.size_lt (hs : s.Sound) (ha : IsArray s a n) :
    Heap.SLOT_SIZE * (n + 1) < 2 ^ 32 := by
  have hsize := hs.size a (Heap.valid_iff.mp ha.valid).2
  rw [ha.size] at hsize
  have hpayload := hs.payload_le ha.valid
  have hmemory := hs.memory_lt
  omega

theorem InBounds.toNat_lt (hi : InBounds n i) : i.toNat < n := by
  obtain ⟨h₀, h₁⟩ := hi
  rw [BitVec.toInt_eq_toNat_cond] at h₀ h₁
  split at h₀
  · next hlt =>
    rw [if_pos hlt] at h₁
    exact_mod_cast h₁
  · have := i.isLt
    omega

theorem elementOffset_eq (hn : Heap.SLOT_SIZE * (n + 1) < 2 ^ 32) (hi : i.toNat < n) :
    elementOffset i = elementCell i := by
  have h9 : (9 : BitVec 64).toNat = 9 := rfl
  rw [elementOffset, elementCell, BitVec.toNat_add, BitVec.toNat_mul, h9]
  unfold Heap.SLOT_SIZE at hn ⊢
  omega

/-- Inside the array, or caught by the check of the heap. -/
def Checked (x : Metadata) (s : Heap) (n : ℕ) (i : BitVec 64) : Prop :=
  InBounds n i ∨ Heap.SLOT_SIZE * n < elementOffset i ∧ ExceptionReady x s

/-! ## Accesses -/

/-- An access inside the array finds the element. -/
theorem InBounds.loadCell (hi : InBounds n i) (hs : s.Sound) (ha : IsArray s a n) :
    elementOffset i = elementCell i ∧ ∃ c, s.loadCell a (elementCell i) = some c := by
  have hlt := hi.toNat_lt
  refine ⟨elementOffset_eq (ha.size_lt hs) hlt, Option.isSome_iff_exists.mp ?_⟩
  exact (loadCell_array hs ha).mpr (Nat.mul_le_mul_left _ hlt)

theorem loadCell_eq_none (hs : s.Sound) (ha : IsArray s a n) {off : ℕ} :
    s.loadCell a off = none ↔ Heap.SLOT_SIZE * n < off := by
  rw [← Option.not_isSome_iff_eq_none, loadCell_array hs ha, not_le]

section Access

variable (hs : m.heap.Sound) (hroom : (m.heap.takePayload 1).2.memorySize < 2 ^ 32)
  (ha : IsArray m.heap (m.handle (regOf l)) n)

include hs hroom ha

theorem readSafe_iff (h : emitIndex g b place l idx = .ok cs) :
    ReadSafe m (m.handle (regOf l)) n (idx.value g A m.regs).val (regOf place) (run x A m cs) ↔
      Checked x m.heap n (idx.value g A m.regs).val := by
  by_cases hi : InBounds n (idx.value g A m.regs).val
  · obtain ⟨heq, c₀, hc₀⟩ := hi.loadCell hs ha
    refine iff_of_true ⟨fun _ => ?_, fun hn => absurd hi hn⟩ (Or.inl hi)
    obtain ⟨c, m', hload, hrun, hheap, hreg⟩ | ⟨hload, -⟩ :=
      emitIndex_spec (x := x) (A := A) h m
    · refine ⟨m', hrun, hheap, ?_⟩
      rw [← heq, hload, hreg]
    · rw [heq, hc₀] at hload
      cases hload
  · have hchecked : Checked x m.heap n (idx.value g A m.regs).val ↔
        Heap.SLOT_SIZE * n < elementOffset (idx.value g A m.regs).val ∧ ExceptionReady x m.heap :=
      or_iff_right hi
    rw [hchecked, ReadSafe, and_iff_right fun hin => absurd hin hi, forall_prop_of_true hi,
      ← loadCell_eq_none hs ha]
    obtain ⟨c, m', hload, hrun, -⟩ | ⟨hload, hrun⟩ := emitIndex_spec (x := x) (A := A) h m
    · refine iff_of_false ?_ ?_
      · rintro ⟨t, e, he, -⟩
        rw [hrun] at he
        cases he
      · rw [hload]
        exact fun hnone => nomatch hnone.1
    · rw [hrun, raises_iff hs hroom]
      exact (and_iff_right hload).symm

theorem writeSafe_of_checked (h : emitIndexStore g b l idx value = .ok cs)
    (hc : Checked x m.heap n (idx.value g A m.regs).val) :
    WriteSafe m (m.handle (regOf l)) n (idx.value g A m.regs).val (value.value g A m.regs)
      (run x A m cs) := by
  constructor
  · intro hi
    obtain ⟨heq, c₀, hc₀⟩ := hi.loadCell hs ha
    obtain ⟨m', hrun, hstore | ⟨hload, hheap⟩⟩ | ⟨hload, -⟩ :=
      emitIndexStore_spec (x := x) (A := A) h m
    · rw [heq] at hstore
      refine ⟨m', hrun, ?_, hs.loadCell_store_self hstore, fun j off hj =>
        hs.loadCell_store hstore hj⟩
      obtain ⟨o, -, ho⟩ := Option.map_eq_some_iff.mp hstore
      rw [← ho]
    · rw [heq] at hload
      exact ⟨m', hrun, by rw [hheap], by rw [hheap, hload], fun j off _ => by rw [hheap]⟩
    · rw [heq, hc₀] at hload
      cases hload
  · intro hi
    obtain ⟨hoff, hready⟩ := hc.resolve_left hi
    rw [← loadCell_eq_none hs ha] at hoff
    obtain ⟨m', -, hstore | ⟨hload, -⟩⟩ | ⟨-, hrun⟩ :=
      emitIndexStore_spec (x := x) (A := A) h m
    · obtain ⟨o, ho, -⟩ := Option.map_eq_some_iff.mp hstore
      rw [Heap.loadCell, ho] at hoff
      cases hoff
    · rw [hoff] at hload
      cases hload
    · rw [hrun]
      exact raiseRuntime_raises hs hroom hready _

end Access

section Two

/-- The heap of an array of two elements. -/
def twoElements : Vm.Traced :=
  [.alloc 27 0, .storeCell 1 0 2 TAG_INT, .storeCell 1 9 7 TAG_INT, .storeCell 1 18 8 TAG_INT].foldl
    Vm.Traced.step ⟨Heap.new, fun _ => []⟩

theorem twoElements_sound : twoElements.heap.Sound :=
  (Vm.Traced.reachable_ok (Vm.Traced.reachable_calls _
    (by simp [Vm.HeapOp.InRange, Vm.HeapOp.Fits]) (by decide))).sound

/-- The first local is the array, the second an index. -/
def atIndex (i : BitVec 64) : Machine where
  regs r := if r = 16 then ⟨1, TAG_HEAP⟩ else if r = 17 then ⟨i, TAG_INT⟩ else ⟨0, TAG_INT⟩
  frames := []
  ip := 0
  heap := twoElements.heap

def threeLocals : MirBody := ⟨"f", 2, 4, []⟩

def noSurroundings : Surroundings := ⟨fun _ => 0, fun _ _ _ => .error ""⟩

def exceptionMetadata : Metadata := ⟨["RuntimeException"], fun _ => 0, fun _ _ => 0⟩

theorem isArray_twoElements : IsArray twoElements.heap 1 2 := ⟨by decide, by decide⟩

def offsetCode : List ElementInstr :=
  [.plain (.mov 250 17), .plain (.push 252 ⟨9, TAG_INT⟩), .mul 250 252 251, .add 251 252 251]

def readCode : List ElementInstr := offsetCode ++ [.hload 16 251 18]

def writeCode : List ElementInstr :=
  offsetCode ++ [.plain (.push 253 ⟨5, TAG_INT⟩), .hstore 16 251 253]

theorem emitIndex_two : emitIndex noSurroundings threeLocals 3 1 (.copy 2) = .ok readCode := rfl

theorem emitIndexStore_two :
    emitIndexStore noSurroundings threeLocals 1 (.copy 2) (.const (.int 5)) = .ok writeCode := rfl

end Two

end Loxis.Backend
