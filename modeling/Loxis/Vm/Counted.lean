import Loxis.Vm.Safe

/-! # Runs under reference counting

Along a run every count is the number of references to its object, so an object is freed
when its last reference goes. What stays although nothing outside refers to it is held
by a cycle.
-/

namespace Loxis.Vm

open Heap Function
open Loxis.Backend (TAG_INT)

namespace Heap

/-- A live object refers to another one. -/
def RefersTo (s : Heap) (i j : ℕ) : Prop := i ∈ s.objects ∧ j ∈ s.children i

end Heap

namespace VM

variable {W : Type} {N : Natives W} {P : Chunk} {D : Discipline} {w : W} {s t : VM ArcBackend W}

/-- The counts are the numbers of references, and an object lives as long as it has one. -/
structure Counted (s : VM ArcBackend W) : Prop where
  rc : ∀ i, s.gc.rc i = s.roots.count i + ∑ o ∈ s.heap.objects, (s.heap.children o).count i
  live : ∀ i, s.heap.valid i = true ↔ 0 < s.gc.rc i
  ops : s.gc.metrics.invalidHandleOps = 0

theorem Held.counted (h : Held (arcLawful D) 0 s) : s.Counted := by
  obtain ⟨⟨-, hbal, hops⟩, -⟩ := h
  refine ⟨fun i => ?_, fun i => ?_, hops⟩
  · have := hbal.count i
    rw [Counts.references, add_zero] at this
    exact this
  · rw [← mem_objects]
    exact hbal.mem_iff rfl

theorem Held.below (h : Held (arcLawful D) 0 s) {i : ℕ} (hi : s.heap.valid i = true) :
    ∃ j, s.heap.valid j = true ∧ Graph.Reach s.heap.RefersTo j i ∧
      (j ∈ s.roots ∨ Relation.TransGen s.heap.RefersTo j j) := by
  obtain ⟨⟨-, hbal, -⟩, -⟩ := h
  obtain ⟨j, hj, hreach, hroot⟩ := hbal.below rfl (mem_objects.mpr hi)
  refine ⟨j, mem_objects.mp hj, hreach, hroot.imp_left fun hpos => ?_⟩
  rw [add_zero] at hpos
  exact Multiset.count_pos.mp hpos

/-- Under reference counting every count is the number of references to its object in the machine
and in the live objects; the objects that are live are those that are referred to, and no release
ever finds a count of zero. -/
theorem reachable_counted (h : (system arc N P D ArcBackend.new w).Reachable s) : s.Counted :=
  (reachable_held (ArcBackend.inv_new D) h).counted

theorem reachable_counted_ring : ∃ t : VM ArcBackend Unit, t.gc.rc 1 = 1 ∧ t.Counted := by
  obtain ⟨t, ht, hp⟩ := ring_run
  exact ⟨t, (of_decide_eq_true hp).1, reachable_counted ht⟩

/-- Garbage that stays is held by a cycle. -/
theorem reachable_below (h : (system arc N P D ArcBackend.new w).Reachable s) {i : ℕ}
    (hi : s.heap.valid i = true) : ∃ j, s.heap.valid j = true ∧
      Graph.Reach s.heap.RefersTo j i ∧
        (j ∈ s.roots ∨ Relation.TransGen s.heap.RefersTo j j) :=
  (reachable_held (ArcBackend.inv_new D) h).below hi

theorem reachable_below_ring : ∃ t : VM ArcBackend Unit, t.heap.valid 1 = true ∧
    ∃ j, t.heap.valid j = true ∧ Graph.Reach t.heap.RefersTo j 1 ∧
      (j ∈ t.roots ∨ Relation.TransGen t.heap.RefersTo j j) := by
  obtain ⟨t, ht, hp⟩ := ring_run
  have hv := (of_decide_eq_true hp).2.1
  exact ⟨t, hv, reachable_below ht hv⟩

/-- Where requests are whole cells and stores go through references, the heap's own checks never
fail. -/
theorem reachable_no_failure (h : (system arc N P wholeCells ArcBackend.new w).Reachable s)
    {i : Instr} (ha : Allowed wholeCells s i) (f : Failure) :
    execJitInstruction arc N P i s ≠ .error (.failure f) t := by
  intro he
  have hends := ends_exec (N := N) (P := P) (reachable_held (ArcBackend.inv_new wholeCells) h) ha
  exact hends.of_error he ⟨fun n hn => hn, trivial⟩

theorem reachable_no_failure_ring : ∃ s : VM ArcBackend Unit, s.heap.valid 1 = true ∧
    ∀ f t, execJitInstruction arc noNatives ring (.alloc 7 (.imm 9) 1) s ≠
      .error (.failure f) t := by
  obtain ⟨s, hs, hp⟩ := ring_run
  obtain ⟨-, hv, -, ha⟩ := of_decide_eq_true hp
  exact ⟨s, hv, fun f _ => reachable_no_failure hs ha f⟩

end VM

end Loxis.Vm

/-! ## The end of a run

When a run has ended the machine drops its roots. Under reference counting this frees all
objects but those that cycles hold.
-/

namespace Loxis.Vm

open Function
open Loxis.Backend (TAG_INT)

namespace VM

section Finish

variable {G W : Type} {B : GCBackend G} {D : Discipline} {L : B.Lawful D} {s : VM G W}

/-- Only the heap's own checks end the program early. -/
def FailsOnly (L : B.Lawful D) (e : Signal) (_ : VM G W) : Prop :=
  (∃ f, e = .failure f) ∧ L.Fails

theorem ends_failsOnly {x : Exec G W Unit} {Q Q' : VM G W → Prop}
    (h : Ends x s (fun _ => Q) (Faults L)) (h' : Calm x s Q') :
    Ends x s (fun _ t => Q t ∧ Q' t) (FailsOnly L) := by
  refine (h.and h').mono (fun _ _ => id) ?_
  rintro - t ⟨hf, f, rfl⟩
  exact ⟨⟨f, rfl⟩, hf⟩

theorem ends_clearEach (l : List Reg)
    (h : Held L 0 s) :
    Ends (l.forM fun r => setReg B r (0, TAG_INT)) s
      (fun _ t => Held L 0 t ∧ (∀ r, r ∈ l ∨ s.regs r = (0, TAG_INT) → t.regs r = (0, TAG_INT)) ∧
        t.globals = s.globals ∧ t.dataStack = s.dataStack ∧ t.callStack = s.callStack)
      (FailsOnly L) := by
  induction l generalizing s with
  | nil => exact ⟨h, fun r hr => hr.resolve_left List.not_mem_nil, rfl, rfl, rfl⟩
  | cons k l ih =>
    refine ends_seq (ends_failsOnly (ends_setInt h) (calm_setReg k _)) ?_
    rintro - t ⟨ht, g, m, rfl⟩
    refine (ih ht).mono ?_ fun _ _ => id
    rintro - u ⟨hu, hregs, hrest⟩
    refine ⟨hu, fun r hr => hregs r ?_, hrest⟩
    rcases eq_or_ne r k with rfl | hne
    · exact Or.inr (update_self ..)
    · refine hr.imp (fun hmem => (List.mem_cons.mp hmem).resolve_left hne) fun hold => ?_
      exact (update_of_ne hne ..).trans hold

theorem ends_clearEachGlobal (l : List (Fin 256))
    (h : Held L 0 s) :
    Ends (l.forM fun k => setGlobal B k (0, TAG_INT)) s
      (fun _ t => Held L 0 t ∧
        (∀ k, k ∈ l ∨ s.globals k = (0, TAG_INT) → t.globals k = (0, TAG_INT)) ∧
        t.regs = s.regs ∧ t.dataStack = s.dataStack ∧ t.callStack = s.callStack)
      (FailsOnly L) := by
  induction l generalizing s with
  | nil => exact ⟨h, fun k hk => hk.resolve_left List.not_mem_nil, rfl, rfl, rfl⟩
  | cons k l ih =>
    have hscalar : ((0, TAG_INT) : Cell).2 = TAG_HEAP →
        s.heap.valid (handleOf ((0, TAG_INT) : Cell).1) = true := fun hc => absurd hc (by decide)
    refine ends_seq (ends_failsOnly (ends_setGlobal h hscalar) (calm_setGlobal k _)) ?_
    rintro - t ⟨ht, g, m, rfl⟩
    refine (ih ht).mono ?_ fun _ _ => id
    rintro - u ⟨hu, hglobals, hrest⟩
    refine ⟨hu, fun j hj => hglobals j ?_, hrest⟩
    rcases eq_or_ne j k with rfl | hne
    · exact Or.inr (update_self ..)
    · refine hj.imp (fun hmem => (List.mem_cons.mp hmem).resolve_left hne) fun hold => ?_
      exact (update_of_ne hne ..).trans hold

theorem ends_clearRegs (h : Held L 0 s) :
    Ends (clearRegs B) s (fun _ t => Held L 0 t ∧ (∀ r, t.regs r = (0, TAG_INT)) ∧
      t.globals = s.globals ∧ t.dataStack = s.dataStack ∧ t.callStack = s.callStack)
      (FailsOnly L) := by
  have hall : ∀ r : Reg, r ∈ List.finRange 4096 := List.mem_finRange
  unfold clearRegs
  revert hall
  generalize List.finRange 4096 = l
  intro hall
  refine (ends_clearEach l h).mono ?_ fun _ _ => id
  rintro - t ⟨ht, hregs, hrest⟩
  exact ⟨ht, fun r => hregs r (Or.inl (hall r)), hrest⟩

theorem ends_clearGlobals (h : Held L 0 s) :
    Ends (clearGlobals B) s (fun _ t => Held L 0 t ∧ (∀ k, t.globals k = (0, TAG_INT)) ∧
      t.regs = s.regs ∧ t.dataStack = s.dataStack ∧ t.callStack = s.callStack)
      (FailsOnly L) := by
  have hall : ∀ k : Fin 256, k ∈ List.finRange 256 := List.mem_finRange
  unfold clearGlobals
  revert hall
  generalize List.finRange 256 = l
  intro hall
  refine (ends_clearEachGlobal l h).mono ?_ fun _ _ => id
  rintro - t ⟨ht, hglobals, hrest⟩
  exact ⟨ht, fun k => hglobals k (Or.inl (hall k)), hrest⟩

theorem ends_dropData {n : ℕ} (h : Held L 0 s) (hn : s.dataStack.length ≤ n) :
    Ends (dropData B n) s (fun _ t => Held L 0 t ∧ t.dataStack = [] ∧ t.regs = s.regs ∧
      t.globals = s.globals ∧ t.callStack = s.callStack) (FailsOnly L) := by
  induction n generalizing s with
  | zero =>
    exact ⟨h, List.length_eq_zero_iff.mp (Nat.le_zero.mp hn), rfl, rfl, rfl⟩
  | succ n ih =>
    refine ends_get ?_
    split
    · next hnil => exact ⟨h, hnil, rfl, rfl, rfl⟩
    · next p rest hds =>
      have hheld : Held L (refs p.2 + 0) { s with dataStack := rest } := by
        unfold Held roots at h ⊢
        rwa [hds, rootsOf_spill, add_assoc] at h
      refine ends_modify (ends_seq (ends_failsOnly (ends_dropRoot hheld) (calm_dropRoot _)) ?_)
      rintro - t ⟨ht, g, m, rfl⟩
      rw [hds] at hn
      exact ih ht (Nat.le_of_succ_le_succ hn)

theorem ends_finishGC (h : Held L 0 s) (hcalls : s.callStack = []) :
    Ends (finishGC B) s (fun _ t => Held L 0 t ∧ t.roots = 0) (FailsOnly L) := by
  refine ends_seq (ends_clearRegs h) ?_
  rintro - t ⟨ht, hregs, -, -, hcalls₁⟩
  refine ends_seq (ends_clearGlobals ht) ?_
  rintro - u ⟨hu, hglobals, hregs₂, -, hcalls₂⟩
  refine ends_get ((ends_dropData hu le_rfl).mono ?_ fun _ _ => id)
  rintro - v ⟨hv, hnil, hregs₃, hglobals₃, hcalls₃⟩
  refine ⟨hv, ?_⟩
  unfold roots
  rw [hnil, hregs₃, hregs₂, funext hregs, hglobals₃, funext hglobals, hcalls₃, hcalls₂, hcalls₁,
    hcalls]
  exact roots_init v.gc v.world

end Finish

/-- After a run the machine lets go of every object, and those that stay are held by cycles. -/
theorem finishGC_leaves_cycles {W : Type} {N : Natives W} {P : Chunk} {D : Discipline} {w : W}
    {s : VM ArcBackend W} (h : (system arc N P D ArcBackend.new w).Reachable s)
    (hcalls : s.callStack = []) :
    Ends (finishGC arc) s
      (fun _ t => t.Counted ∧ t.roots = 0 ∧ ∀ i, t.heap.valid i = true →
        ∃ j, t.heap.valid j = true ∧ Graph.Reach t.heap.RefersTo j i ∧
          Relation.TransGen t.heap.RefersTo j j)
      fun e _ => (∃ f, e = .failure f) ∧ ¬ (D.Whole ∧ D.bases) := by
  have hheld := reachable_held (ArcBackend.inv_new D) h
  refine (ends_finishGC hheld hcalls).mono ?_ fun _ _ => id
  rintro - t ⟨ht, hzero⟩
  refine ⟨ht.counted, hzero, fun i hi => ?_⟩
  obtain ⟨j, hj, hreach, hroot | hcycle⟩ := ht.below hi
  · rw [hzero] at hroot
    exact absurd hroot (Multiset.notMem_zero j)
  · exact ⟨j, hj, hreach, hcycle⟩

theorem finishGC_leaves_cycles_ring : ∃ s : VM ArcBackend Unit, s.heap.valid 1 = true ∧
    Ends (finishGC arc) s
      (fun _ t => t.Counted ∧ t.roots = 0 ∧ ∀ i, t.heap.valid i = true →
        ∃ j, t.heap.valid j = true ∧ Graph.Reach t.heap.RefersTo j i ∧
          Relation.TransGen t.heap.RefersTo j j)
      fun e _ => (∃ f, e = .failure f) ∧ ¬ (wholeCells.Whole ∧ wholeCells.bases) := by
  obtain ⟨s, hs, hp⟩ := ring_run
  obtain ⟨-, hv, hcalls, -⟩ := of_decide_eq_true hp
  exact ⟨s, hv, finishGC_leaves_cycles hs (List.length_eq_zero_iff.mp hcalls)⟩

end VM

end Loxis.Vm
