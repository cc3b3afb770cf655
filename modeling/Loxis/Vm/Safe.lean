import Mathlib.Algebra.Order.BigOperators.Group.Finset
import Loxis.Vm.Machine

/-! # The roots of the machine

The machine holds references in registers, globals, spilled registers and the locals of
calls in progress. Its collector knows of every one of them, as often as it is held, and
of those that the running instruction holds in between.
-/

namespace Loxis.Vm

open Heap Function
open Loxis.Backend (TAG_INT TAG_STR TAG_FLOAT TAG_NULL)

theorem handleOf_ofNat {n : ℕ} (h : n < 2 ^ 32) : handleOf (BitVec.ofNat 64 n) = n := by
  rw [handleOf, BitVec.toNat_ofNat, Nat.mod_eq_of_lt (h.trans (by decide)), Nat.mod_eq_of_lt h]

theorem Heap.alloc_memorySize_le (s : Heap) {size : ℕ} (ty : ℕ) (h : size + 8 < 2 ^ 32) :
    (s.alloc size ty).2.memorySize ≤ s.memorySize + size + 9 := by
  have hc := cellsFor_le h
  rw [alloc_memorySize]
  unfold takePayload
  split
  · simp only
    omega
  · simp only [memorySize_setFreeList]
    omega

namespace VM

variable {G W : Type} {B : GCBackend G} {N : Natives W} {P : Chunk} {D : Discipline}

/-- The references in saved registers. -/
def savedRefs (l : List (Reg × Cell)) : Multiset ℕ := ↑(l.flatMap fun p => refs p.2)

/-- The references in registers, globals, spilled registers and the locals of calls. -/
@[irreducible] def rootsOf (regs : Reg → Cell) (globals : Fin 256 → Cell)
    (dataStack : List (Reg × Cell)) (callStack : List CallFrame) : Multiset ℕ :=
  ∑ r, (refs (regs r) : Multiset ℕ) + ∑ g, (refs (globals g) : Multiset ℕ) +
    savedRefs dataStack + (callStack.map fun f => savedRefs f.locals).sum

/-- The references that the machine holds. -/
def roots (s : VM G W) : Multiset ℕ := rootsOf s.regs s.globals s.dataStack s.callStack

/-- The collector knows the roots, and `X` besides, which the running instruction holds. -/
def Held (L : B.Lawful D) (X : Multiset ℕ) (s : VM G W) : Prop :=
  L.Inv s.gc s.heap (s.roots + X) []

/-- An instruction that is given up for an exception leaves nothing held in between. -/
def Faults (L : B.Lawful D) : Signal → VM G W → Prop
  | .unwind, s => Held L 0 s
  | .failure _, _ => L.Fails
  | _, _ => True

theorem savedRefs_cons (p : Reg × Cell) (l : List (Reg × Cell)) :
    savedRefs (p :: l) = (refs p.2 : Multiset ℕ) + savedRefs l := by
  rw [savedRefs, List.flatMap_cons, ← Multiset.coe_add, savedRefs]

theorem sum_update {ι : Type} [Fintype ι] [DecidableEq ι] (f : ι → Cell) (k : ι) (c : Cell) :
    ∑ i, (refs (update f k c i) : Multiset ℕ) + (refs (f k) : Multiset ℕ) =
      ∑ i, (refs (f i) : Multiset ℕ) + (refs c : Multiset ℕ) := by
  rw [← Finset.add_sum_erase _ _ (Finset.mem_univ k),
    ← Finset.add_sum_erase (a := k) Finset.univ (fun i => (refs (f i) : Multiset ℕ))
      (Finset.mem_univ k), update_self]
  have hsum : ∑ i ∈ Finset.univ.erase k, (refs (update f k c i) : Multiset ℕ) =
      ∑ i ∈ Finset.univ.erase k, (refs (f i) : Multiset ℕ) :=
    Finset.sum_congr rfl fun i hi => by rw [update_of_ne (Finset.ne_of_mem_erase hi)]
  rw [hsum]
  ac_rfl

section Roots

variable {regs : Reg → Cell} {globals : Fin 256 → Cell} {dataStack : List (Reg × Cell)}
  {callStack : List CallFrame}

theorem rootsOf_setReg (r : Reg) (c : Cell) :
    rootsOf (update regs r c) globals dataStack callStack + refs (regs r) =
      rootsOf regs globals dataStack callStack + refs c := by
  have h := sum_update regs r c
  unfold rootsOf
  generalize ∑ i, (refs (update regs r c i) : Multiset ℕ) = new at h ⊢
  generalize ∑ i, (refs (regs i) : Multiset ℕ) = old at h ⊢
  generalize ∑ g, (refs (globals g) : Multiset ℕ) = rest
  rw [add_assoc new, add_assoc new, add_right_comm new, h]
  ac_rfl

theorem rootsOf_setGlobal (g : Fin 256) (c : Cell) :
    rootsOf regs (update globals g c) dataStack callStack + refs (globals g) =
      rootsOf regs globals dataStack callStack + refs c := by
  have h := sum_update globals g c
  unfold rootsOf
  generalize ∑ i, (refs (update globals g c i) : Multiset ℕ) = new at h ⊢
  generalize ∑ i, (refs (globals i) : Multiset ℕ) = old at h ⊢
  generalize ∑ r, (refs (regs r) : Multiset ℕ) = rest
  rw [add_comm rest, add_assoc new, add_assoc new, add_right_comm new, h]
  ac_rfl

theorem rootsOf_spill (p : Reg × Cell) :
    rootsOf regs globals (p :: dataStack) callStack =
      rootsOf regs globals dataStack callStack + refs p.2 := by
  unfold rootsOf
  rw [savedRefs_cons, add_comm (refs p.2 : Multiset ℕ), ← add_assoc, add_right_comm]

theorem rootsOf_frame (f : CallFrame) :
    rootsOf regs globals dataStack (f :: callStack) =
      rootsOf regs globals dataStack callStack + savedRefs f.locals := by
  unfold rootsOf
  rw [List.map_cons, List.sum_cons, add_comm (savedRefs f.locals), ← add_assoc]

theorem mem_rootsOf {i : ℕ} (h : i ∈ savedRefs dataStack ∨
    i ∈ (callStack.map fun f => savedRefs f.locals).sum) :
    i ∈ rootsOf regs globals dataStack callStack := by
  unfold rootsOf
  generalize ∑ r, (refs (regs r) : Multiset ℕ) = a
  generalize ∑ g, (refs (globals g) : Multiset ℕ) = b
  rw [Multiset.mem_add, Multiset.mem_add, or_assoc]
  exact Or.inr h

end Roots

variable {L : B.Lawful D} {s : VM G W} {X : Multiset ℕ} {c old : Cell} {l : List ℕ}

theorem ends_barrier {f : G → Heap → Except Failure (G × Heap)} {Q : Unit → VM G W → Prop}
    (h : Upholds (f s.gc s.heap) L.Fails fun g t => Q () { s with gc := g, heap := t }) :
    Ends (barrier f) s Q (Faults L) := by
  unfold Ends barrier
  unfold Upholds at h
  cases hf : f s.gc s.heap with
  | ok p =>
    rw [hf] at h
    exact h
  | error e =>
    rw [hf] at h
    exact h

theorem ends_panic {α : Type} {Q : α → VM G W → Prop} {message : String} :
    Ends (panic message) s Q (Faults L) := trivial

theorem ends_addRoot (h : L.Inv s.gc s.heap (s.roots + X) l)
    (hc : c.2 = TAG_HEAP → s.heap.valid (handleOf c.1) = true)
    (hl : l.diff (refs c) = []) :
    Ends (addRoot B c) s
      (fun _ t => (∃ g, t = { s with gc := g }) ∧ Held L (refs c + X) t) (Faults L) := by
  unfold addRoot
  split
  · next hheap =>
    refine ends_barrier ((L.rootAdd h (hc hheap)).mono id ?_)
    rintro g t ⟨hinv, rfl⟩
    refine ⟨⟨g, rfl⟩, ?_⟩
    rw [refs_heap hheap] at hl ⊢
    rw [List.diff_cons, List.diff_nil] at hl
    rw [hl] at hinv
    unfold Held
    rw [← Multiset.cons_coe, Multiset.coe_nil, Multiset.cons_add, zero_add, Multiset.add_cons]
    exact hinv
  · next hscalar =>
    refine ⟨⟨_, rfl⟩, ?_⟩
    rw [refs_scalar hscalar] at hl ⊢
    rw [List.diff_nil] at hl
    rw [hl] at h
    unfold Held
    rwa [Multiset.coe_nil, zero_add]

theorem ends_dropRoot (h : Held L (refs c + X) s) :
    Ends (dropRoot B c) s (fun _ t => Held L X t) (Faults L) := by
  unfold dropRoot
  unfold Held at h
  split
  · next hheap =>
    rw [refs_heap hheap, ← Multiset.cons_coe, Multiset.coe_nil, Multiset.cons_add, zero_add,
      Multiset.add_cons] at h
    exact ends_barrier (L.rootRemove h)
  · next hscalar =>
    rw [refs_scalar hscalar, Multiset.coe_nil, zero_add] at h
    exact h

/-- A place gets a new value. The new reference is taken before the old one is dropped. -/
theorem ends_replace {place : VM G W → VM G W} (h : L.Inv s.gc s.heap (s.roots + X) l)
    (hc : c.2 = TAG_HEAP → s.heap.valid (handleOf c.1) = true) (hl : l.diff (refs c) = [])
    (hplace : ∀ g, place { s with gc := g } = { place s with gc := g })
    (hheap : (place s).heap = s.heap)
    (hroots : (place s).roots + refs old = s.roots + refs c) :
    Ends (addRoot B c >>= fun _ => modify place >>= fun _ => dropRoot B old) s
      (fun _ t => Held L X t) (Faults L) := by
  refine ends_seq (ends_addRoot h hc hl) ?_
  rintro - t ⟨⟨g, rfl⟩, ht⟩
  refine ends_modify (ends_dropRoot ?_)
  unfold Held at ht ⊢
  have he : ({ place s with gc := g } : VM G W).roots + (refs old + X) =
      ({ s with gc := g } : VM G W).roots + (refs c + X) := by
    rw [← add_assoc, ← add_assoc]
    exact congrArg (· + X) hroots
  rw [hplace, he]
  change L.Inv g (place s).heap _ _
  rwa [hheap]

theorem ends_setReg' {r : Reg} (h : L.Inv s.gc s.heap (s.roots + X) l)
    (hc : c.2 = TAG_HEAP → s.heap.valid (handleOf c.1) = true) (hl : l.diff (refs c) = [])
    (hsame : sameRef (s.regs r) c = true → l = []) :
    Ends (setReg B r c) s (fun _ t => Held L X t) (Faults L) := by
  refine ends_get ?_
  cases hb : sameRef (s.regs r) c with
  | true =>
    rw [hsame hb] at h
    exact h
  | false =>
    exact ends_replace h hc hl (fun _ => rfl) rfl (rootsOf_setReg r c)

theorem ends_setReg {r : Reg} (h : Held L X s)
    (hc : c.2 = TAG_HEAP → s.heap.valid (handleOf c.1) = true) :
    Ends (setReg B r c) s (fun _ t => Held L X t) (Faults L) :=
  ends_setReg' h hc (List.nil_diff _) fun _ => rfl

theorem ends_setInt {r : Reg} {v : BitVec 64} (h : Held L X s) :
    Ends (setReg B r (v, TAG_INT)) s (fun _ t => Held L X t) (Faults L) :=
  ends_setReg h fun hc => absurd hc (show TAG_INT ≠ TAG_HEAP by decide)

theorem ends_setGlobal {g : Fin 256} (h : Held L X s)
    (hc : c.2 = TAG_HEAP → s.heap.valid (handleOf c.1) = true) :
    Ends (setGlobal B g c) s (fun _ t => Held L X t) (Faults L) := by
  refine ends_get ?_
  cases hb : sameRef (s.globals g) c with
  | true => exact h
  | false =>
    exact ends_replace h hc (List.nil_diff _) (fun _ => rfl) rfl (rootsOf_setGlobal g c)

/-! ### Places -/

theorem mem_refs {c : Cell} (h : c.2 = TAG_HEAP) : handleOf c.1 ∈ (refs c : Multiset ℕ) := by
  rw [refs_heap h]
  exact List.mem_singleton_self _

theorem reg_mem (s : VM G W) (r : Reg) (h : (s.regs r).2 = TAG_HEAP) :
    handleOf (s.regs r).1 ∈ s.roots := by
  have hsum : rootsOf (update s.regs r (0, TAG_INT)) s.globals s.dataStack s.callStack +
      refs (s.regs r) = s.roots + refs (0, TAG_INT) := rootsOf_setReg r _
  rw [refs_scalar (c := (0, TAG_INT)) (by decide), Multiset.coe_nil, add_zero] at hsum
  rw [← hsum]
  exact Multiset.mem_add.mpr (Or.inr (mem_refs h))

theorem global_mem (s : VM G W) (g : Fin 256) (h : (s.globals g).2 = TAG_HEAP) :
    handleOf (s.globals g).1 ∈ s.roots := by
  have hsum : rootsOf s.regs (update s.globals g (0, TAG_INT)) s.dataStack s.callStack +
      refs (s.globals g) = s.roots + refs (0, TAG_INT) := rootsOf_setGlobal g _
  rw [refs_scalar (c := (0, TAG_INT)) (by decide), Multiset.coe_nil, add_zero] at hsum
  rw [← hsum]
  exact Multiset.mem_add.mpr (Or.inr (mem_refs h))

theorem reg_valid (h : Held L X s) (r : Reg) (hr : (s.regs r).2 = TAG_HEAP) :
    s.heap.valid (handleOf (s.regs r).1) = true :=
  L.root_valid h (Multiset.mem_add.mpr (Or.inl (reg_mem s r hr)))

theorem global_valid (h : Held L X s) (g : Fin 256) (hg : (s.globals g).2 = TAG_HEAP) :
    s.heap.valid (handleOf (s.globals g).1) = true :=
  L.root_valid h (Multiset.mem_add.mpr (Or.inl (global_mem s g hg)))

theorem extra_valid (h : Held L (refs c + X) s) (hc : c.2 = TAG_HEAP) :
    s.heap.valid (handleOf c.1) = true :=
  L.root_valid h (Multiset.mem_add.mpr (Or.inr (Multiset.mem_add.mpr (Or.inl (mem_refs hc)))))

/-! ### Calls and exceptions -/

theorem ends_restore {p : Reg × Cell} (h : Held L (refs p.2 + X) s) :
    Ends (restore B p) s (fun _ t => Held L X t) (Faults L) :=
  ends_seq (ends_setReg h (extra_valid h)) fun _ _ ht => ends_dropRoot ht

theorem ends_restoreAll (ps : List (Reg × Cell)) (h : Held L (savedRefs ps + X) s) :
    Ends (ps.forM (restore B)) s (fun _ t => Held L X t) (Faults L) := by
  induction ps generalizing s with
  | nil =>
    change L.Inv _ _ _ _ at h
    rwa [savedRefs, List.flatMap_nil, Multiset.coe_nil, zero_add] at h
  | cons p ps ih =>
    rw [savedRefs_cons, add_assoc] at h
    exact ends_seq (ends_restore h) fun _ _ ht => ih ht

theorem ends_restoreCallFrame (h : Held L X s) :
    Ends (restoreCallFrame B) s (fun _ t => Held L X t) (Faults L) := by
  refine ends_get ?_
  split
  · exact ends_panic
  · next frame rest hcs =>
    refine ends_modify (ends_seq (ends_forM (I := Held L (savedRefs frame.locals + X))
      (fun r t ht => ends_setInt ht) scratchRegs ?_) fun _ t ht => ends_restoreAll _ ht)
    unfold Held roots at h ⊢
    rw [hcs, rootsOf_frame, add_assoc] at h
    exact h

theorem ends_pushCallFrame {returnIp callIp : ℕ} (h : Held L X s) :
    Ends (pushCallFrame B P returnIp callIp) s (fun _ t => Held L X t) (Faults L) := by
  refine ends_get ?_
  simp only
  have hadd : ∀ (rs : List Reg) (Y : Multiset ℕ) (t : VM G W), (∃ g, t = { s with gc := g }) →
      Held L Y t → Ends ((rs.map fun r => (r, s.regs r)).forM fun p => addRoot B p.2) t
        (fun _ u => (∃ g, u = { s with gc := g }) ∧
          Held L (savedRefs (rs.map fun r => (r, s.regs r)) + Y) u) (Faults L) := by
    intro rs
    induction rs with
    | nil =>
      intro Y t hg ht
      refine ⟨hg, ?_⟩
      rwa [List.map_nil, savedRefs, List.flatMap_nil, Multiset.coe_nil, zero_add]
    | cons r rs ih =>
      rintro Y t ⟨g, rfl⟩ ht
      refine ends_seq (ends_addRoot (l := []) ht (reg_valid (s := { s with gc := g }) ht r)
        (List.nil_diff _)) ?_
      rintro - u ⟨⟨g', rfl⟩, hu⟩
      refine (ih _ _ ⟨g', rfl⟩ hu).mono ?_ fun _ _ => id
      rintro - v ⟨hv, hheld⟩
      refine ⟨hv, ?_⟩
      rw [List.map_cons, savedRefs_cons, add_assoc, add_left_comm]
      exact hheld
  refine ends_seq (hadd _ X s ⟨s.gc, rfl⟩ h) ?_
  rintro - t ⟨⟨g, rfl⟩, ht⟩
  unfold Held roots at ht
  change L.Inv g s.heap (rootsOf s.regs s.globals s.dataStack (_ :: s.callStack) + X) []
  rw [rootsOf_frame, add_assoc]
  exact ht

theorem ends_unwindCalls (depth n : ℕ) (h : Held L X s) :
    Ends (unwindCalls B depth n) s (fun _ t => Held L X t) (Faults L) := by
  induction n generalizing s with
  | zero => exact h
  | succ n ih =>
    refine ends_get ?_
    split
    · exact ends_seq (ends_restoreCallFrame h) fun _ _ ht => ih ht
    · exact h

theorem ends_unwindData (depth n : ℕ) (h : Held L X s) :
    Ends (unwindData B depth n) s (fun _ t => Held L X t) (Faults L) := by
  induction n generalizing s with
  | zero => exact h
  | succ n ih =>
    refine ends_get ?_
    split
    · exact h
    · next p rest hds =>
      split
      · refine ends_modify (ends_seq (ends_restore ?_) fun _ _ ht => ih ht)
        unfold Held roots at h ⊢
        rw [hds, rootsOf_spill, add_assoc] at h
        exact h
      · exact h

theorem ends_reportUncaught {Q : Unit → VM G W → Prop} :
    Ends (reportUncaught c) s Q (Faults L) := by
  refine ends_get ?_
  split
  · split
    · exact ends_panic
    · split
      · exact ends_panic
      · trivial
  · trivial

theorem ends_throwValue (h : L.Inv s.gc s.heap (s.roots + 0) l)
    (hc : c.2 = TAG_HEAP → s.heap.valid (handleOf c.1) = true) (hl : l.diff (refs c) = []) :
    Ends (throwValue B c) s (fun _ t => Held L 0 t) (Faults L) := by
  refine ends_get ?_
  split
  · exact ends_reportUncaught
  · next handler rest hhs =>
    refine ends_modify (ends_seq
      (ends_addRoot (s := { s with exceptionHandlers := rest }) (X := 0) h hc hl) ?_)
    rintro - t ⟨-, ht⟩
    refine ends_seq (ends_unwindCalls _ _ ht) ?_
    intro _ t ht
    refine ends_get (ends_seq (ends_unwindData _ _ ht) ?_)
    intro _ t ht
    refine ends_seq (ends_setReg ht (extra_valid ht)) ?_
    intro _ t ht
    exact ends_seq (ends_dropRoot ht) fun _ _ hu => hu

/-! ### The heap -/

/-- The arena has room for an exception. -/
def Room (s : VM G W) : Prop := s.heap.memorySize + 2 * SLOT_SIZE < 2 ^ 32

theorem alloc_sound (h : Held L X s) {size ty : ℕ}
    (hroom : s.heap.memorySize + size + SLOT_SIZE < 2 ^ 32) : (s.heap.alloc size ty).2.Sound := by
  unfold SLOT_SIZE at hroom
  have hlt : size + 8 < 2 ^ 32 := by omega
  have hle := s.heap.alloc_memorySize_le ty hlt
  exact (L.sound h).alloc ty (by omega) (by omega)

theorem fresh_lt (h : Heap.Sound (s.heap.alloc size ty).2)
    (hv : (s.heap.alloc size ty).2.valid (s.heap.alloc size ty).1 = true) :
    handleOf (heapRef (s.heap.alloc size ty).1).1 = (s.heap.alloc size ty).1 := by
  have := valid_lt h hv
  exact handleOf_ofNat (by omega)

theorem ends_raiseRuntime {α : Type} {Q : α → VM G W → Prop} {message : String} (h : Held L 0 s)
    (hroom : s.Room) : Ends (raiseRuntime B N P message) s Q (Faults L) := by
  unfold raiseRuntime
  split
  · exact ends_panic
  · next typeId _ =>
    refine ends_get (ends_modify ?_)
    have ht : (s.heap.alloc SLOT_SIZE typeId).2.Sound := by
      refine alloc_sound h ?_
      unfold Room SLOT_SIZE at *
      omega
    split
    · exact ends_panic
    · next hne =>
      refine ends_modify ?_
      split
      · exact ends_panic
      · next t hs =>
        obtain ⟨-, hv, -⟩ := (L.sound h).fresh_alloc ht hne
        have hinv := L.firstStore (L.alloc h D.size_cell (by decide) ht hne)
          ((L.sound h).children_fresh ht hne) hs (by decide)
        have hval : t.valid (s.heap.alloc SLOT_SIZE typeId).1 = true := by
          rwa [← mem_objects, (store_frame hs).1, mem_objects]
        refine ends_modify (ends_seq (ends_throwValue hinv (fun _ => ?_) ?_) fun _ u hu => hu)
        · rw [fresh_lt ht hv]
          exact hval
        · rw [refs_heap rfl, fresh_lt ht hv, List.diff_cons, List.erase_cons_head]
          rfl

theorem ends_allocate {size typeId : ℕ} {r : Reg} (h : Held L 0 s) (hsize : D.size size)
    (hroom : s.heap.memorySize + size + 3 * SLOT_SIZE < 2 ^ 32) :
    Ends (allocate B N P size typeId r) s (fun _ t => Held L 0 t) (Faults L) := by
  refine ends_get (ends_modify ?_)
  have hlt : size + 8 < 2 ^ 32 := by
    unfold SLOT_SIZE at hroom
    omega
  have ht : (s.heap.alloc size typeId).2.Sound := by
    refine alloc_sound h ?_
    unfold SLOT_SIZE at *
    omega
  split
  · next he =>
    refine ends_raiseRuntime (L.alloc_failed h hsize hlt ht he) ?_
    have hle := s.heap.alloc_memorySize_le typeId hlt
    unfold Room SLOT_SIZE at *
    simp only
    omega
  · next hne =>
    obtain ⟨hdead, hv, -⟩ := (L.sound h).fresh_alloc ht hne
    refine ends_modify (ends_setReg' (L.alloc h hsize hlt ht hne) (fun _ => ?_) ?_ fun hsame => ?_)
    · rw [fresh_lt ht hv]
      exact hv
    · rw [refs_heap rfl, fresh_lt ht hv, List.diff_cons, List.erase_cons_head]
      rfl
    · -- no register can hold the handle already
      obtain ⟨hold, -, heq⟩ := of_decide_eq_true hsame
      have hlive := reg_valid h r hold
      rw [heq, fresh_lt ht hv, hdead] at hlive
      cases hlive

theorem ends_readHeap {base off : ℕ} {r : Reg} (h : Held L 0 s) (hroom : s.Room)
    (ha : off % SLOT_SIZE = 0) :
    Ends (readHeap B N P base off r) s (fun _ t => Held L 0 t) (Faults L) := by
  refine ends_get ?_
  split
  · exact ends_raiseRuntime h hroom
  · next c hc =>
    refine ends_setReg h fun hheap => ?_
    exact L.child_valid h ((L.sound h).cell_of_load hc ha).1
      ((L.sound h).mem_children hc ha hheap)

theorem ends_writeHeap {base off : ℕ} (h : Held L 0 s) (hroom : s.Room)
    (ha : off % SLOT_SIZE = 0) (hbase : D.bases → base ∈ s.roots)
    (hc : c.2 = TAG_HEAP → handleOf c.1 ∈ s.roots) :
    Ends (writeHeap B N P base off c) s (fun _ t => Held L 0 t) (Faults L) := by
  refine ends_get ?_
  split
  · exact ends_raiseRuntime h hroom
  · next old hold =>
    refine ends_barrier (L.overwrite h hold ha (fun hb => ?_) fun hheap => ?_)
    · rw [add_zero]
      exact hbase hb
    · rw [add_zero]
      exact hc hheap

theorem ends_perform {e : Computed} (h : Held L 0 s) (hroom : s.Room) :
    Ends (perform B N P e) s (fun _ t => Held L 0 t) (Faults L) := by
  cases e with
  | value dst v => exact ends_setReg h fun hheap => absurd hheap v.2
  | flags z n => exact h
  | done => exact h
  | raise message => exact ends_raiseRuntime h hroom
  | panic message => exact ends_panic

/-! ### Instructions -/

def intOperand (s : VM G W) : Operand → ℕ
  | .reg r => handleOf (s.regs r).1
  | .imm v => handleOf v
  | _ => 0

def syscallNumber (s : VM G W) (num : Reg) : ℕ := (s.regs num).1.toNat % 256

/-- The bytes that an instruction allocates. -/
def request (s : VM G W) : Instr → Option ℕ
  | .alloc _ size _ => some (s.intOperand size)
  | .syscall num => if s.syscallNumber num = 20 then some (handleOf s.firstArgument.1) else none
  | _ => none

/-- Where in its object an instruction reads or writes. -/
def offset (s : VM G W) : Instr → Option ℕ
  | .hstore _ off _ | .hload _ off _ => some (handleOf (s.regs off).1)
  | .syscall num =>
    if s.syscallNumber num = 21 ∨ s.syscallNumber num = 22 then some (handleOf s.secondArgument.1)
    else none
  | _ => none

/-- The value through which an instruction writes to an object. -/
def written (s : VM G W) : Instr → Option Cell
  | .hstore base _ _ => some (s.regs base)
  | .syscall num => if s.syscallNumber num = 22 then some s.firstArgument else none
  | _ => none

/-- The arena has room for what the instruction allocates, and objects are read and written at
cells. The sizes and the objects written to are those that the discipline allows. -/
structure Allowed (D : Discipline) (s : VM G W) (i : Instr) : Prop where
  room : s.heap.memorySize + (s.request i).getD 0 + 3 * SLOT_SIZE < 2 ^ 32
  size : ∀ n ∈ s.request i, D.size n
  aligned : ∀ o ∈ s.offset i, o % SLOT_SIZE = 0
  base : D.bases → ∀ c ∈ s.written i, c.2 = TAG_HEAP

instance (o : Option Cell) : Decidable (∀ c ∈ o, c.2 = TAG_HEAP) :=
  Option.decidableForallMem o

instance {i : Instr} [DecidablePred D.size] [Decidable D.bases] : Decidable (Allowed D s i) :=
  decidable_of_iff (s.heap.memorySize + (s.request i).getD 0 + 3 * SLOT_SIZE < 2 ^ 32 ∧
    (∀ n ∈ s.request i, D.size n) ∧ (∀ o ∈ s.offset i, o % SLOT_SIZE = 0) ∧
      (D.bases → ∀ c ∈ s.written i, c.2 = TAG_HEAP))
    ⟨fun h => ⟨h.1, h.2.1, h.2.2.1, h.2.2.2⟩, fun h => ⟨h.room, h.size, h.aligned, h.base⟩⟩

theorem Allowed.toRoom {i : Instr} (h : Allowed D s i) : s.Room := by
  have := h.room
  unfold Room SLOT_SIZE at *
  omega

theorem operandCell_valid (h : Held L X s) (o : Operand)
    (hc : (operandCell s.regs o).2 = TAG_HEAP) :
    s.heap.valid (handleOf (operandCell s.regs o).1) = true := by
  cases o with
  | reg r => exact reg_valid h r hc
  | imm v => exact absurd hc (show TAG_INT ≠ TAG_HEAP by decide)
  | null => exact absurd hc (show TAG_NULL ≠ TAG_HEAP by decide)
  | float bits => exact absurd hc (show TAG_FLOAT ≠ TAG_HEAP by decide)
  | str idx => exact absurd hc (show TAG_STR ≠ TAG_HEAP by decide)
  | addr a => exact absurd hc (show TAG_INT ≠ TAG_HEAP by decide)

theorem ends_target {addr : ℕ} {message : String} {Q : ℕ → VM G W → Prop}
    (h : ∀ ip, Q ip s) : Ends (target P addr message) s Q (Faults L) := by
  unfold target
  split
  · exact h _
  · exact ends_panic

theorem ends_readIntOperand {o : Operand} {Q : BitVec 64 → VM G W → Prop}
    (h : ∀ v, handleOf v = s.intOperand o → Q v s) :
    Ends (readIntOperand o) s Q (Faults L) := by
  cases o with
  | reg r => exact h _ rfl
  | imm v => exact h _ rfl
  | null => exact ends_panic
  | float bits => exact ends_panic
  | str idx => exact ends_panic
  | addr a => exact ends_panic

theorem ends_branch {taken : Bool} {addr : ℕ} {message : String} (h : Held L 0 s) :
    Ends (branch P taken addr message) s (fun _ t => Held L 0 t) (Faults L) := by
  cases taken with
  | true => exact .bind (ends_target fun _ => h)
  | false => exact h

theorem ends_isA {targetType : ℕ} {Q : Bool → VM G W → Prop} (h : ∀ b, Q b s) :
    Ends (isA P c targetType) s Q (Faults L) := by
  refine ends_get ?_
  split
  · split
    · exact ends_panic
    · split
      · trivial
      · exact h _
  · exact h _

theorem ends_shiftArgs (n : ℕ) (h : Held L 0 s) :
    Ends (shiftArgs B n) s (fun _ t => Held L 0 t) (Faults L) := by
  induction n generalizing s with
  | zero => exact h
  | succ n ih =>
    exact ends_get (ends_seq (ends_setReg h (reg_valid h _)) fun _ _ ht => ih ht)

theorem ends_indirect {func : Reg} {nargs : ℕ} (h : Held L 0 s) :
    Ends (indirect B func nargs) s (fun _ t => Held L 0 t) (Faults L) := by
  refine ends_get ?_
  split
  · split
    · exact ends_panic
    · refine ends_seq (ends_shiftArgs _ h) fun _ t ht => ends_get ?_
      exact ends_seq (ends_setReg ht (reg_valid ht _)) fun _ _ hu => hu
  · exact h

theorem ends_enter {returnIp ip : ℕ} (h : Held L 0 s) :
    Ends (enter B P returnIp ip) s (fun _ t => Held L 0 t) (Faults L) :=
  ends_get (ends_seq (ends_pushCallFrame h) fun _ _ ht => ht)

theorem ends_invokeSyscall {num : Reg} (h : Held L 0 s) (ha : Allowed D s (.syscall num)) :
    Ends (invokeSyscall B N P (s.syscallNumber num)) s (fun _ t => Held L 0 t) (Faults L) := by
  have hroom := ha.toRoom
  refine ends_get ?_
  split
  · exact ends_setInt h
  · next hn =>
    have hreq : s.request (.syscall num) = some (handleOf s.firstArgument.1) := if_pos hn
    have := ha.room
    rw [hreq] at this
    exact ends_allocate h (ha.size _ hreq) this
  · next hn => exact ends_readHeap h hroom (ha.aligned _ (if_pos (Or.inl hn)))
  · next hn =>
    refine ends_writeHeap h hroom (ha.aligned _ (if_pos (Or.inr hn))) (fun hb => ?_)
      (reg_mem s 3)
    exact reg_mem s 1 (ha.base hb _ (if_pos hn))
  · exact L.explicitFree h
  · exact ends_modify (ends_perform h hroom)

/-- One instruction keeps what the collector knows in step with what the machine holds. -/
theorem ends_exec {i : Instr} (h : Held L 0 s) (ha : Allowed D s i) :
    Ends (execJitInstruction B N P i) s (fun _ t => Held L 0 t) (Faults L) := by
  have hroom := ha.toRoom
  cases i with
  | nop => exact h
  | tryPush addr exceptionReg => exact .bind (ends_target fun _ => h)
  | tryPop =>
    refine ends_get ?_
    split
    · exact ends_panic
    · exact h
  | throw source =>
    exact ends_get (ends_seq (ends_throwValue (l := []) h (reg_valid h source) (List.nil_diff _))
      fun _ _ ht => ht)
  | isA source targetType result =>
    refine .bind (ends_readIntOperand fun v _ => ends_get (.bind (ends_isA fun b => ?_)))
    exact ends_seq (ends_setInt h) fun _ _ ht => ht
  | push dst val =>
    exact ends_get (ends_seq (ends_setReg h (operandCell_valid h val)) fun _ _ ht => ht)
  | pop => exact h
  | pushR r =>
    refine ends_get (ends_seq (ends_addRoot (l := []) h (reg_valid h r) (List.nil_diff _)) ?_)
    rintro - t ⟨⟨g, rfl⟩, ht⟩
    change L.Inv g s.heap (rootsOf s.regs s.globals ((r, s.regs r) :: s.dataStack) s.callStack + 0)
      []
    rw [rootsOf_spill, add_assoc]
    exact ht
  | popR r =>
    refine ends_get ?_
    split
    · exact h
    · next p rest hds =>
      refine ends_modify ?_
      split
      · exact ends_panic
      · refine ends_seq (ends_restore (X := 0) ?_) fun _ _ ht => ht
        unfold Held roots at h ⊢
        rw [hds, rootsOf_spill, add_assoc] at h
        exact h
  | alloc typeId size result =>
    refine .bind (ends_readIntOperand fun v hv => ?_)
    have hreq : s.request (.alloc typeId size result) = some (handleOf v) := by rw [request, hv]
    have hmem := ha.room
    rw [hreq] at hmem
    exact ends_seq (ends_allocate h (ha.size _ hreq) hmem) fun _ _ ht => ht
  | hfree base => exact L.explicitFree h
  | hstore base off val =>
    refine ends_get (ends_seq (ends_writeHeap h hroom (ha.aligned _ rfl) (fun hb => ?_)
      (reg_mem s val)) fun _ _ ht => ht)
    exact reg_mem s base (ha.base hb _ rfl)
  | hload base off result =>
    exact ends_get (ends_seq (ends_readHeap h hroom (ha.aligned _ rfl)) fun _ _ ht => ht)
  | mov dst val =>
    refine ends_get (ends_seq (Q := fun _ t => Held L 0 t) ?_ fun _ _ ht => ht)
    split
    · exact ends_setReg h (operandCell_valid h _)
    · exact ends_setReg h (operandCell_valid h _)
    · exact ends_setReg h (operandCell_valid h _)
    · exact h
  | gload slot dst =>
    refine .bind (ends_readIntOperand fun v _ => ends_get ?_)
    split
    · exact ends_seq (ends_setReg h (global_valid h _)) fun _ _ ht => ht
    · exact ends_panic
  | gstore slot src =>
    refine .bind (ends_readIntOperand fun v _ => ends_get ?_)
    split
    · exact ends_seq (ends_setGlobal h (reg_valid h _)) fun _ _ ht => ht
    · exact ends_panic
  | compute op operands =>
    exact ends_get (ends_modify (ends_seq
      (ends_perform (s := { s with world := (N.compute op operands s.regs s.world).2 }) h hroom)
        fun _ _ ht => ht))
  | jmp addr => exact ends_seq (ends_branch h) fun _ _ ht => ht
  | jnz addr => exact ends_get (ends_seq (ends_branch h) fun _ _ ht => ht)
  | jz addr => exact ends_get (ends_seq (ends_branch h) fun _ _ ht => ht)
  | jn addr => exact ends_get (ends_seq (ends_branch h) fun _ _ ht => ht)
  | skip addr =>
    cases addr with
    | none => exact h
    | some addr => exact ends_seq (ends_branch h) fun _ _ ht => ht
  | call addr =>
    exact .bind (ends_target fun ip => ends_get (ends_seq (ends_enter h) fun _ _ ht => ht))
  | nullChk val addr =>
    exact ends_get (ends_seq (ends_branch h) fun _ _ ht => ht)
  | callInd func nargs =>
    refine ends_seq (ends_indirect h) fun addr t ht => ?_
    exact .bind (ends_target fun ip => ends_get (ends_seq (ends_enter ht) fun _ _ hu => hu))
  | ret =>
    refine ends_modify (ends_get ?_)
    split
    · exact h
    · refine ends_seq (ends_restoreCallFrame (X := 0) ?_) fun _ _ ht => ht
      exact h
  | vcall obj slot resume =>
    refine ends_get ?_
    simp only
    split
    · exact ends_panic
    · exact .bind (ends_target fun back => ends_seq (ends_enter h) fun _ _ ht => ht)
  | icall obj iface method resume =>
    refine ends_get ?_
    simp only
    split
    · exact ends_panic
    · exact .bind (ends_target fun back => ends_seq (ends_enter h) fun _ _ ht => ht)
  | typeOf obj result =>
    exact ends_get (ends_seq (ends_setInt h) fun _ _ ht => ht)
  | syscall num =>
    exact ends_get (ends_seq (ends_invokeSyscall h ha) fun _ _ ht => ht)
  | halt => exact h

end VM

end Loxis.Vm

/-! ## Runs of the machine

At every instruction of a run the machine and the live objects refer to live objects
only. Under reference counting the counts are exact, and what stays although nothing
outside refers to it is held by a cycle.
-/

namespace Loxis.Vm

open Heap Function
open Loxis.Backend (TAG_INT)

namespace VM

variable {G W : Type} {B : GCBackend G} {N : Natives W} {P : Chunk} {D : Discipline} {g : G} {w : W}
  {s t : VM G W}

/-- The runs of a chunk that keep to a discipline. -/
def system (B : GCBackend G) (N : Natives W) (P : Chunk) (D : Discipline) (g : G) (w : W) :
    System (VM G W) Instr where
  init s := s = init g w
  next s i t :=
    (P.code[s.ip]?.map JitInstruction.op = some i ∧ Allowed D s i) ∧ step B N P s = some t

/-- A place of the machine holds a value. -/
inductive Holds (s : VM G W) : Cell → Prop
  | reg (r : Reg) : Holds s (s.regs r)
  | global (g : Fin 256) : Holds s (s.globals g)
  | spilled {p : Reg × Cell} : p ∈ s.dataStack → Holds s p.2
  | saved {f : CallFrame} {p : Reg × Cell} : f ∈ s.callStack → p ∈ f.locals → Holds s p.2

/-- Every reference of the machine and of a live object is to a live object. -/
structure MemorySafe (s : VM G W) : Prop where
  places : ∀ c, s.Holds c → c.2 = TAG_HEAP → s.heap.valid (handleOf c.1) = true
  cells : ∀ i off c, s.heap.loadCell i off = some c → off % SLOT_SIZE = 0 → c.2 = TAG_HEAP →
    s.heap.valid (handleOf c.1) = true

theorem mem_savedRefs {l : List (Reg × Cell)} {p : Reg × Cell} (hp : p ∈ l)
    (hc : p.2.2 = TAG_HEAP) : handleOf p.2.1 ∈ savedRefs l :=
  List.mem_flatMap.mpr ⟨p, hp, mem_refs hc⟩

theorem Holds.mem_roots {c : Cell} (h : s.Holds c) (hc : c.2 = TAG_HEAP) :
    handleOf c.1 ∈ s.roots := by
  cases h with
  | reg r => exact reg_mem s r hc
  | global g => exact global_mem s g hc
  | spilled hp => exact mem_rootsOf (Or.inl (mem_savedRefs hp hc))
  | saved hf hp =>
    refine mem_rootsOf (Or.inr (Multiset.mem_of_le ?_ (mem_savedRefs hp hc)))
    exact List.single_le_sum (fun _ _ => Multiset.zero_le _) _
      (List.mem_map_of_mem (f := fun f : CallFrame => savedRefs f.locals) hf)

theorem roots_init (g : G) (w : W) : (init g w).roots = 0 := by
  have hzero : (refs ((0, TAG_INT) : Cell) : Multiset ℕ) = 0 := rfl
  unfold roots rootsOf
  simp only [init, hzero, Finset.sum_const_zero, List.map_nil, List.sum_nil]
  rfl

variable {L : B.Lawful D}

theorem held_init (hg : L.Inv g Heap.new 0 []) : Held L 0 (init g w) := by
  unfold Held
  rw [roots_init]
  exact hg

theorem held_step {i : Instr} (h : Held L 0 s) (hn : (system B N P D g w).next s i t) :
    Held L 0 t := by
  obtain ⟨⟨hi, ha⟩, hstep⟩ := hn
  obtain ⟨j, hj, rfl⟩ := Option.map_eq_some_iff.mp hi
  have hends := ends_exec (N := N) (P := P) h ha
  unfold step at hstep
  simp only [hj] at hstep
  unfold Ends at hends
  cases he : execJitInstruction B N P j.op s with
  | ok halted u =>
    rw [he] at hends
    simp only [he] at hstep
    cases halted with
    | true => cases hstep
    | false => exact Option.some.inj hstep ▸ hends
  | error e u =>
    rw [he] at hends
    simp only [he] at hstep
    cases e with
    | unwind => exact Option.some.inj hstep ▸ hends
    | panic message => cases hstep
    | failure f => cases hstep
    | uncaught c => cases hstep
    | hang => cases hstep

theorem reachable_held (hg : L.Inv g Heap.new 0 []) (h : (system B N P D g w).Reachable s) :
    Held L 0 s :=
  h.inv (fun _ hs => hs ▸ held_init hg) fun _ _ _ => held_step

/-- Under every collector that keeps the contract runs are memory safe. -/
theorem reachable_memorySafe (L : B.Lawful D) (hg : L.Inv g Heap.new 0 [])
    (h : (system B N P D g w).Reachable s) : s.MemorySafe := by
  have hheld := reachable_held hg h
  constructor
  · intro c hc hheap
    exact L.root_valid hheld (Multiset.mem_add.mpr (Or.inl (hc.mem_roots hheap)))
  · intro i off c hl ha hheap
    have hs := L.sound hheld
    exact L.child_valid hheld (hs.cell_of_load hl ha).1 (hs.mem_children hl ha hheap)

/-! ### A ring of two objects -/

/-- Two objects refer to each other, and the registers let go of them. -/
def ring : Chunk where
  code := [⟨.alloc 7 (.imm 9) 1, 0⟩, ⟨.alloc 7 (.imm 9) 2, 1⟩, ⟨.hstore 1 3 2, 2⟩,
    ⟨.hstore 2 3 1, 3⟩, ⟨.mov 2 (.imm 0), 4⟩, ⟨.mov 1 (.imm 0), 5⟩]
  functions := []
  vtables := []
  typeNames := []
  typeParents := []

def permitted (P : Chunk) (s : VM G W) (i : Instr) : Bool :=
  decide (P.code[s.ip]?.map JitInstruction.op = some i ∧ Allowed wholeCells s i)

theorem ring_reaches {B : GCBackend G} {g : G} (p : VM G Unit → Bool)
    (h : (System.exec (System.guarded (permitted ring) fun s _ => step B noNatives ring s)
      (init g ()) (ring.code.map JitInstruction.op)).any p = true) :
    ∃ t, (system B noNatives ring wholeCells g ()).Reachable t ∧ p t = true :=
  System.reachable_of_guarded (fun s => s = init g ()) (fun s _ => step B noNatives ring s)
    (permitted ring) (fun _ _ => of_decide_eq_true) (init g ()) _ p rfl h

set_option maxRecDepth 10000 in
theorem ring_run : ∃ t : VM ArcBackend Unit,
    (system arc noNatives ring wholeCells ArcBackend.new ()).Reachable t ∧
      decide (t.gc.rc 1 = 1 ∧ t.heap.valid 1 = true ∧ t.callStack.length = 0 ∧
        Allowed wholeCells t (.alloc 7 (.imm 9) 1)) = true :=
  ring_reaches (fun t : VM ArcBackend Unit => decide (t.gc.rc 1 = 1 ∧ t.heap.valid 1 = true ∧
    t.callStack.length = 0 ∧ Allowed wholeCells t (.alloc 7 (.imm 9) 1))) (by decide +kernel)

set_option maxRecDepth 10000 in
theorem ring_run_noGC : ∃ t : VM GCMetrics Unit,
    (system noGC noNatives ring wholeCells GCMetrics.zero ()).Reachable t ∧
      t.heap.valid 1 = true :=
  ring_reaches (fun t : VM GCMetrics Unit => t.heap.valid 1) (by decide +kernel)

theorem reachable_memorySafe_ring :
    (∃ t : VM ArcBackend Unit, t.heap.valid 1 = true ∧ t.MemorySafe) ∧
      ∃ t : VM GCMetrics Unit, t.heap.valid 1 = true ∧ t.MemorySafe := by
  constructor
  · obtain ⟨t, ht, hp⟩ := ring_run
    exact ⟨t, (of_decide_eq_true hp).2.1,
      reachable_memorySafe (arcLawful wholeCells) (ArcBackend.inv_new _) ht⟩
  · obtain ⟨t, ht, hp⟩ := ring_run_noGC
    exact ⟨t, hp, reachable_memorySafe (noGCLawful wholeCells) (inv_new_noGC _) ht⟩

end VM

end Loxis.Vm
