import Loxis.Aarc.Drained
import Loxis.Vm.Heap
import Loxis.Aarc.Tally
import Loxis.Vm.HeapSound

/-! # The local collector

The single-owner collector of the machine: every barrier call is a message that its
engine applies at once, followed by a sweep of the candidates and, when the trigger
policy asks for it, by a look for cycles. Storage belongs to the heap: a freed cell
is a freed payload.
-/

namespace Loxis.Vm

open Function
open Loxis.Aarc

/-- The only owner of the machine's heap. -/
def kOwner : OwnerToken := ⟨0, 1⟩

/-- The heap as the pool of an engine. -/
def Heap.cells (s : Heap) : CellPool where
  capacity := s.slotCount
  gen i := (s.slots i).generation
  live i := (s.slots i).live
  avail i := !(s.slots i).live
  owner _ := kOwner
  regime _ := .loc

/-- The tuning of the cycle trigger. -/
structure CyclePolicy where
  adaptive : Bool
  fixedInterval : ℕ
  suspectThresholdMin : ℕ
  suspectThresholdMax : ℕ
  heapTargetBytes : ℕ
  allocThresholdBytes : ℕ
  maxInterval : ℕ
  maxInterval_lt : maxInterval < 2 ^ 64

/-- The counters that the cycle trigger reads. -/
structure Meter where
  suspectThreshold : ℕ
  opsSinceCycle : ℕ
  allocBytesSinceCycle : ℕ

/-- One more barrier call. -/
def Meter.tick (m : Meter) : Meter := { m with opsSinceCycle := (m.opsSinceCycle + 1) % 2 ^ 64 }

inductive CycleTrigger | none | suspectPressure | heapPressure | starvation | fixedInterval
  deriving DecidableEq

/-- Why cycles should be looked for now, from the number of suspects and the size of the
arena. -/
def CyclePolicy.cycleTrigger (p : CyclePolicy) (m : Meter) (suspects bytesCommitted : ℕ) :
    CycleTrigger :=
  if suspects = 0 then .none
  else if p.adaptive = false then
    if p.fixedInterval ≤ m.opsSinceCycle then .fixedInterval else .none
  else if m.suspectThreshold ≤ suspects then .suspectPressure
  else if p.heapTargetBytes ≤ bytesCommitted ∧ p.allocThresholdBytes ≤ m.allocBytesSinceCycle then
    .heapPressure
  else if p.maxInterval ≤ m.opsSinceCycle then .starvation
  else .none

/-- The slots a cycle pass visits. -/
def passVisited (e : AarcEngine) : ℕ :=
  if e.scanRoots.isEmpty then 0
  else (({ e with suspectStack := [] } : AarcEngine).findComponents e.scanRoots).detector.visited.length

/-- The slots that the passes of a cycle collection visit. -/
def cyclesVisited (e : AarcEngine) : ℕ :=
  (iterUntil
    (fun r : AarcEngine × ℕ =>
      ((r.1.collectCyclePass.1, r.2 + passVisited r.1), r.1.collectCyclePass.2))
    (e.pool.used + 1) (e, 0)).2

/-- Below this many visited slots a scan does not change the threshold. -/
def kYieldMinVisited : ℕ := 256

/-- The threshold after a scan: raised when it found nothing, lowered when it found a lot. -/
def CyclePolicy.nextThreshold (p : CyclePolicy) (threshold visited reclaimed : ℕ) : ℕ :=
  if p.adaptive = true ∧ kYieldMinVisited ≤ visited then
    if reclaimed = 0 then min (threshold * 2 % 2 ^ 32) p.suspectThresholdMax
    else if visited ≤ reclaimed * 4 then max (threshold / 2) p.suspectThresholdMin
    else threshold
  else threshold

/-- Look for cycles: one cycle collection, and one sweep of the candidates it leaves. -/
def CyclePolicy.collectCyclesNow (p : CyclePolicy) (m : Meter) (e : AarcEngine) :
    Meter × AarcEngine :=
  let reclaimed := e.pool.used - e.collectCycles.pool.used
  ({ suspectThreshold := p.nextThreshold m.suspectThreshold (cyclesVisited e) reclaimed
     opsSinceCycle := 0
     allocBytesSinceCycle := 0 },
    e.collectCycles.sweepZero)

/-- The engine when the trigger is consulted: the candidates are swept. -/
def swept (e : AarcEngine) : AarcEngine := if e.zeroStack.isEmpty then e else e.sweepZero

/-- What follows every barrier call. -/
def CyclePolicy.afterOp (p : CyclePolicy) (bytesCommitted : ℕ) (m : Meter) (e : AarcEngine) :
    Meter × AarcEngine :=
  if p.cycleTrigger m.tick (swept e).activeSuspects bytesCommitted = .none then (m.tick, swept e)
  else p.collectCyclesNow m.tick (swept e)

/-- The collector with the heap it collects. -/
structure LocalAarc extends Scratch where
  heap : Heap
  tab : RefTable
  meter : Meter

namespace LocalAarc

/-- The collector of a fresh heap with `n` slots. -/
def new (n suspectThreshold : ℕ) : LocalAarc :=
  { Scratch.init with
    heap := Heap.new.reserveSlots n, tab := RefTable.init, meter := ⟨suspectThreshold, 0, 0⟩ }

variable (b : LocalAarc)

def engine : AarcEngine :=
  { b.toScratch with pool := b.heap.cells, tab := b.tab, kind := .loc, owner := kOwner }

/-- The versioned handle of the object in a slot. -/
def current (i : ℕ) : ObjHandle := ⟨i, b.heap.cells.generationOf i⟩

/-- Apply a message and drain. -/
def apply (p : CyclePolicy) (m : GCMessage) : Meter × AarcEngine :=
  p.afterOp b.heap.memorySize b.meter (b.engine.process m)

/-- The collector after the engine ran. The payloads it freed go back to the heap; the order in
which they do is left open. -/
def Absorbs (r : Meter × AarcEngine) (b' : LocalAarc) : Prop :=
  b'.toScratch = r.2.toScratch ∧ b'.tab = r.2.tab ∧ b'.meter = r.1 ∧
    ∃ order : List ℕ, order.Nodup ∧
      (∀ i, i ∈ order ↔ b.heap.valid i = true ∧ r.2.pool.isLiveAt i = false) ∧
      b'.heap = order.foldl Heap.freePayload b.heap

def onAlloc (i : ℕ) : LocalAarc :=
  { b with
    meter :=
      { b.meter with
        allocBytesSinceCycle := if i < b.heap.slotCount then
          (b.meter.allocBytesSinceCycle + (b.heap.slots i).cells * Heap.SLOT_SIZE) % 2 ^ 64
          else b.meter.allocBytesSinceCycle } }

def rootAdd (i : ℕ) : GCMessage := ⟨.rootAdd, kNullHandle, b.current i, 1⟩
def rootRemove (i : ℕ) : GCMessage := ⟨.rootRemove, kNullHandle, b.current i, 1⟩
def edgeAdd (i j : ℕ) : GCMessage := ⟨.edgeAdd, b.current i, b.current j, 1⟩
def edgeRemove (i j : ℕ) : GCMessage := ⟨.edgeRemove, b.current i, b.current j, 1⟩

end LocalAarc

end Loxis.Vm

/-! ## The local collector between calls

Between two barrier calls the engine of the local collector is drained, and its pool
is the slot table of the heap. A call is a message, a sweep of the candidates and
perhaps a look for cycles; what these free goes back to the heap.
-/

namespace Loxis.Vm

open Function
open Loxis.Aarc

namespace Heap

/-- The handles of a heap whose handle space is fixed. -/
structure Reserved (s : Heap) : Prop where
  cap : s.slotCap ≠ 0 ∧ s.slotCap ≤ s.slotCount
  count_lt : s.slotCount < 2 ^ 32
  live_lt : ∀ i, (s.slots i).live = true → i < s.slotCount
  free : ∀ i ∈ s.freeHandles, i < s.slotCount ∧ (s.slots i).live = false
  nodup : s.freeHandles.Nodup

variable {s t : Heap} {i j n size ty : ℕ}

theorem Reserved.new (hn : 0 < n) (hlt : n < 2 ^ 32) : (Heap.new.reserveSlots n).Reserved where
  cap := ⟨Nat.pos_iff_ne_zero.mp hn, le_max_right 1 n⟩
  count_lt := max_lt (by decide) hlt
  live_lt i h := by cases h
  free i hi := by
    simp only [reserveSlots, Heap.new, List.append_nil, List.mem_reverse, List.mem_range'_1] at hi
    refine ⟨?_, rfl⟩
    simp only [reserveSlots, Heap.new]
    omega
  nodup := by simp [reserveSlots, Heap.new, List.nodup_range']

/-- What an allocation does to the handles. -/
structure Takes (s : Heap) (i : ℕ) (t : Heap) : Prop where
  lt : i < s.slotCount
  dead : (s.slots i).live = false
  live : (t.slots i).live = true
  generation : (t.slots i).generation = (s.slots i).generation
  other : ∀ j, j ≠ i → t.slots j = s.slots j
  slotCount : t.slotCount = s.slotCount
  reserved : t.Reserved

theorem Reserved.alloc (h : s.Reserved) (hi : (s.alloc size ty).1 ≠ INVALID) :
    s.Takes (s.alloc size ty).1 (s.alloc size ty).2 := by
  set u := (s.takePayload (cellsFor size)).2 with hu
  have hslots : u.slots = s.slots := takePayload_slots s _
  have hcount : u.slotCount = s.slotCount := takePayload_slotCount s _
  have hcap : u.slotCap = s.slotCap := takePayload_slotCap s _
  have hfree : u.freeHandles = s.freeHandles := takePayload_freeHandles s _
  cases hf : s.freeHandles with
  | nil =>
    have hnone : u.takeHandle = none := by
      simp [takeHandle, hfree, hf, hcap, hcount, h.cap.1, h.cap.2]
    have he : s.alloc size ty = (INVALID, u) := by simp only [Heap.alloc, ← hu, hnone]
    exact absurd (by rw [he]) hi
  | cons i rest =>
    have hsome : u.takeHandle = some (i, { u with freeHandles := rest }) := by
      simp [takeHandle, hfree, hf]
    obtain ⟨hlt, hd⟩ := h.free i (hf ▸ List.mem_cons_self)
    have hnd := h.nodup
    rw [hf, List.nodup_cons] at hnd
    simp only [Heap.alloc, ← hu, hsome, hslots]
    refine ⟨hlt, hd, by simp, by simp, fun j hj => by simp [hj], hcount, ?_⟩
    refine ⟨by simpa [hcap, hcount] using h.cap, by simpa [hcount] using h.count_lt,
      fun j hj => ?_, fun j hj => ?_, hnd.2⟩
    · simp only [hcount]
      by_cases hji : j = i
      · exact hji ▸ hlt
      · simp only [update_of_ne hji] at hj
        exact h.live_lt j hj
    · have hji : j ≠ i := fun he => hnd.1 (he ▸ hj)
      simp only [hcount, update_of_ne hji]
      exact h.free j (hf ▸ List.mem_cons_of_mem i hj)

theorem Reserved.freePayload (h : s.Reserved) (i : ℕ) : (s.freePayload i).Reserved := by
  cases hv : s.valid i with
  | false => simpa [Heap.freePayload, hv] using h
  | true =>
    have hi : i ∉ s.freeHandles := fun hi => by
      have := (valid_iff.mp hv).2
      rw [(h.free i hi).2] at this
      cases this
    refine ⟨?_, by simpa using h.count_lt, fun j hj => ?_, fun j hj => ?_, ?_⟩
    · have hcap : (s.freePayload i).slotCap = s.slotCap := by simp [Heap.freePayload, hv]
      simpa [hcap] using h.cap
    · rw [slotCount_freePayload]
      by_cases hji : j = i
      · subst hji
        rw [live_freePayload hv] at hj
        cases hj
      · rw [slots_freePayload_of_ne hji] at hj
        exact h.live_lt j hj
    · rw [slotCount_freePayload]
      rw [freeHandles_freePayload hv] at hj
      rcases List.mem_cons.mp hj with rfl | hj
      · exact ⟨(valid_iff.mp hv).1, live_freePayload hv⟩
      · have hji : j ≠ i := fun he => hi (he ▸ hj)
        rw [slots_freePayload_of_ne hji]
        exact h.free j hj
    · rw [freeHandles_freePayload hv]
      exact List.nodup_cons.mpr ⟨hi, h.nodup⟩

theorem valid_of_free (h : (s.freePayload i).valid j = true) : s.valid j = true := by
  cases hv : s.valid i with
  | false => simpa [Heap.freePayload, hv] using h
  | true =>
    have hji : j ≠ i := by
      rintro rfl
      simp [valid_iff, live_freePayload hv] at h
    rw [valid_iff, slotCount_freePayload, slots_freePayload_of_ne hji] at h
    exact valid_iff.mpr h

/-- Objects that are freed one after the other. -/
theorem Reserved.foldl_free (h : s.Reserved) (order : List ℕ) :
    (order.foldl Heap.freePayload s).Reserved ∧
    (order.foldl Heap.freePayload s).slotCount = s.slotCount ∧
    (∀ j, (order.foldl Heap.freePayload s).valid j = true ↔ s.valid j = true ∧ j ∉ order) ∧
    ∀ j, j ∉ order → (order.foldl Heap.freePayload s).slots j = s.slots j := by
  induction order generalizing s with
  | nil => exact ⟨h, rfl, fun j => by simp, fun j _ => rfl⟩
  | cons i order ih =>
    obtain ⟨h₁, h₂, h₃, h₄⟩ := ih (h.freePayload i)
    rw [List.foldl_cons]
    refine ⟨h₁, h₂.trans slotCount_freePayload, fun j => ?_, fun j hj => ?_⟩
    · rw [h₃, List.mem_cons, not_or]
      constructor
      · rintro ⟨hv, hj⟩
        have hvs := valid_of_free hv
        refine ⟨hvs, ?_, hj⟩
        rintro rfl
        simp [valid_iff, live_freePayload hvs] at hv
      · rintro ⟨hv, hji, hj⟩
        refine ⟨?_, hj⟩
        rw [valid_iff, slotCount_freePayload, slots_freePayload_of_ne hji]
        exact valid_iff.mp hv
    · rw [List.mem_cons, not_or] at hj
      rw [h₄ j hj.2, slots_freePayload_of_ne hj.1]

@[simp] theorem isLiveAt_cells : s.cells.isLiveAt i = s.valid i := rfl

end Heap

open AarcEngine (Collected)

section AfterOp

variable {e : AarcEngine} {p : CyclePolicy} {m : Meter} {bytes : ℕ}

theorem swept_spec (h : e.Inv) (hc : e.Counted) : ∃ F, Collected e (swept e) F ∧
    (swept e).Drained := by
  unfold swept
  split
  · next hz => exact ⟨∅, .refl h, h, List.isEmpty_iff.mp hz, hc⟩
  · obtain ⟨F, hF, hz, -⟩ := AarcEngine.sweepZero_spec h
    exact ⟨F, hF, hF.inv, hz, hc.sweepZero⟩

/-- A look leaves nothing unrooted behind. -/
theorem look_spec (h : e.Drained) (hw : e.AllWatched) (hsh : e.Shallow) :
    ∃ F, Collected e (p.collectCyclesNow m e).2 F ∧ (p.collectCyclesNow m e).2.Drained ∧
      ∀ i, (p.collectCyclesNow m e).2.pool.isLiveAt i = true →
        (p.collectCyclesNow m e).2.marks.Rooted i := by
  obtain ⟨F, hF, hz, hr⟩ := AarcEngine.look_exact h.toInv h.zeroStack hw hsh
  exact ⟨F, hF, ⟨hF.inv, hz, h.counted.collectCycles.sweepZero⟩, fun i hi =>
    hF.rooted_iff.mpr (hr i hi)⟩

theorem cycleTrigger_none (hp : p.adaptive = true) {suspects : ℕ}
    (h : p.cycleTrigger m suspects bytes = .none) :
    suspects = 0 ∨ m.opsSinceCycle < p.maxInterval := by
  unfold CyclePolicy.cycleTrigger at h
  simp only [hp, Bool.true_eq_false, if_false] at h
  split_ifs at h with h₁ h₂ h₃ h₄
  · exact Or.inl h₁
  · exact Or.inr (Nat.lt_of_not_le h₄)

/-- After a call nothing is garbage, or the next look is less than `maxInterval` calls away. -/
theorem afterOp_spec (hp : p.adaptive = true) (h : e.Inv) (hc : e.Counted) (hw : e.AllWatched)
    (hsh : p.cycleTrigger m.tick (swept e).activeSuspects bytes ≠ .none → (swept e).Shallow) :
    ∃ F, Collected e (p.afterOp bytes m e).2 F ∧ (p.afterOp bytes m e).2.Drained ∧
      (p.afterOp bytes m e).2.AllWatched ∧
      ((∀ i, (p.afterOp bytes m e).2.pool.isLiveAt i = true →
          (p.afterOp bytes m e).2.marks.Rooted i) ∨
        (p.afterOp bytes m e).1.opsSinceCycle = (m.opsSinceCycle + 1) % 2 ^ 64 ∧
          (p.afterOp bytes m e).1.opsSinceCycle < p.maxInterval) := by
  obtain ⟨F, hF, hd⟩ := swept_spec h hc
  have hw' := hF.allWatched h.sound hw
  unfold CyclePolicy.afterOp
  split
  · next ht =>
    refine ⟨F, hF, hd, hw', ?_⟩
    rcases cycleTrigger_none hp ht with h0 | hlt
    · exact Or.inl fun i hi => hd.rooted hw' h0 hi
    · exact Or.inr ⟨rfl, hlt⟩
  · next ht =>
    obtain ⟨F', hF', hd', hr⟩ := look_spec (p := p) (m := m.tick) hd hw' (hsh ht)
    exact ⟨F ∪ F', hF.trans hF', hd', hF'.allWatched hd.sound hw', Or.inl hr⟩

end AfterOp

namespace LocalAarc

variable {b b' : LocalAarc} {i j : ℕ}

theorem valid_current (hi : b.heap.valid i = true) : b.engine.live (b.current i) = true := by
  rw [AarcEngine.live, CellPool.valid_iff]
  exact ⟨hi, (if_pos (Heap.valid_iff.mp hi).1).symm⟩

/-- A handle of a live object is the one that the slot has now. -/
theorem current_eq_iff {h : ObjHandle} (hl : b.engine.live h = true) :
    b.current i = h ↔ i = h.index := by
  constructor
  · rintro rfl
    rfl
  · rintro rfl
    have hi : b.heap.valid h.index = true := (CellPool.valid_iff.mp hl).1
    exact CellPool.eq_of_valid (valid_current hi) hl rfl

@[simp] theorem current_inj : b.current i = b.current j ↔ i = j :=
  ⟨fun h => congrArg ObjHandle.index h, fun h => h ▸ rfl⟩

/-- What the collector keeps between calls. -/
structure Sound (b : LocalAarc) : Prop where
  reserved : b.heap.Reserved
  drained : b.engine.Drained
  watched : b.engine.AllWatched

/-- The new collector after the engine freed the cells `F`. -/
structure Settles (b : LocalAarc) (F : Finset ℕ) (b' : LocalAarc) : Prop where
  sound : b'.Sound
  valid : ∀ i, b'.heap.valid i = true ↔ b.heap.valid i = true ∧ i ∉ F
  current : ∀ i, i ∉ F → b'.current i = b.current i

theorem Absorbs.settles {r : Meter × AarcEngine} {e : AarcEngine} {F : Finset ℕ}
    (h : b.Absorbs r b') (hb : b.heap.Reserved) (he : e.pool = b.heap.cells) (hk : e.kind = .loc)
    (ho : e.owner = kOwner) (hF : e.Freed r.2 F) (hd : r.2.Drained) (hw : r.2.AllWatched) :
    b.Settles F b' ∧ b'.engine = r.2.setPool b'.heap.cells := by
  obtain ⟨hscr, htab, -, order, -, hmem, hheap⟩ := h
  obtain ⟨hres, hcount, hvalid, hslots⟩ := hb.foldl_free order
  rw [← hheap] at hres hcount hvalid hslots
  have hlive : ∀ i, r.2.pool.isLiveAt i = true ↔ b.heap.valid i = true ∧ i ∉ F := fun i => by
    rw [hF.isLiveAt, he, Heap.isLiveAt_cells, Bool.and_eq_true, decide_eq_true_eq]
  have hin : ∀ i, b.heap.valid i = true → (i ∈ order ↔ i ∈ F) := fun i hi => by
    rw [hmem, Bool.eq_false_iff, ne_eq, hlive, not_and, not_not]
    exact ⟨fun h => h.2 hi, fun h => ⟨hi, fun _ => h⟩⟩
  have hnot : ∀ i, i ∉ F → i ∉ order := fun i hi ho =>
    hi ((hin i ((hmem i).mp ho).1).mp ho)
  have hval : ∀ i, b'.heap.valid i = true ↔ b.heap.valid i = true ∧ i ∉ F := fun i => by
    rw [hvalid]
    exact and_congr_right fun hi => not_congr (hin i hi)
  have heng : b'.engine = r.2.setPool b'.heap.cells := by
    have hk' := hF.kind.trans hk
    have ho' := hF.owner.trans ho
    unfold engine AarcEngine.setPool
    rw [hscr, htab, ← hk', ← ho']
  have hpool : ∀ i, r.2.pool.isLiveAt i = true →
      b'.heap.cells.isLiveAt i = true ∧ b'.heap.cells.gen i = r.2.pool.gen i := fun i hi => by
    obtain ⟨hv, hiF⟩ := (hlive i).mp hi
    refine ⟨(hval i).mpr ⟨hv, hiF⟩, ?_⟩
    rw [hF.gen i hiF, he]
    simp only [Heap.cells, hslots i (hnot i hiF)]
  refine ⟨⟨⟨hres, heng ▸ hd.setPool hpool, fun i hi => ?_⟩, hval, fun i hi => ?_⟩, heng⟩
  · rw [heng]
    exact hw i ((hlive i).mpr ((hval i).mp hi))
  · unfold current CellPool.generationOf Heap.cells
    simp only [hcount, hslots i (hnot i hi)]

/-- A call at a collector in which all objects but the new ones `N` are watched. -/
theorem apply_spec {p : CyclePolicy} {m : GCMessage} {N : ℕ → Prop} (hp : p.adaptive = true)
    (hb : b.heap.Reserved) (hd : b.engine.Drained) (hN : ∀ i, N i → ∀ j, ¬ b.tab.Edge i j)
    (hw : ∀ i, b.heap.valid i = true → ¬ N i → b.engine.marks.Watched i)
    (hf : b.engine.Fits m) (hnew : ∀ i, N i → (b.engine.process m).marks.Watched i)
    (hsh : p.cycleTrigger b.meter.tick (swept (b.engine.process m)).activeSuspects
      b.heap.memorySize ≠ .none → (swept (b.engine.process m)).Shallow)
    (ha : b.Absorbs (b.apply p m) b') :
    ∃ F, b.Settles F b' ∧ Collected (b.engine.process m) (b.apply p m).2 F ∧
      b'.engine = (b.apply p m).2.setPool b'.heap.cells ∧
      ((∀ i, b'.heap.valid i = true → b'.engine.marks.Rooted i) ∨
        b'.meter.opsSinceCycle = (b.meter.opsSinceCycle + 1) % 2 ^ 64 ∧
          b'.meter.opsSinceCycle < p.maxInterval) := by
  have hr : (b.engine.process m).Ready := hd.ready.process hf
  have hpool : (b.engine.process m).pool = b.heap.cells := AarcEngine.process_pool
  have hw₁ : (b.engine.process m).AllWatched := fun i hi => by
    by_cases hiN : N i
    · exact hnew i hiN
    · refine AarcEngine.watched_process hd.ready hf hN hw (fun _ _ _ hz => ?_) ?_ hiN
      · rw [hd.zeroStack] at hz
        cases hz
      · rw [hpool] at hi
        exact hi
  obtain ⟨F, hF, hd', hw', hops⟩ := afterOp_spec (m := b.meter) hp hr.toInv
    (hd.counted.process m) hw₁ hsh
  obtain ⟨-, hk, ho, -⟩ := AarcEngine.process_frame (e := b.engine) (m := m)
  obtain ⟨hset, heng⟩ := ha.settles hb hpool hk ho hF.freed hd' hw'
  have hlive : ∀ i, b'.heap.valid i = true ↔ (b.apply p m).2.pool.isLiveAt i = true := fun i => by
    rw [hset.valid, apply, hF.freed.isLiveAt, hpool, Heap.isLiveAt_cells, Bool.and_eq_true,
      decide_eq_true_eq]
  refine ⟨F, hset, hF, heng, ?_⟩
  rw [ha.2.2.1, heng]
  exact hops.imp_left fun h i hi => h i ((hlive i).mp hi)

end LocalAarc

end Loxis.Vm
