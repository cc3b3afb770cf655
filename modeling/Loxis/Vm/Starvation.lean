import Loxis.Lib.Run
import Loxis.Vm.LocalAarc

/-! # How long garbage stays

Runs of the local collector under the barrier calls of a program, with the references
that the program holds. A look is at most `maxInterval` calls away, and where no
acyclic garbage stands between two cycles it frees all garbage there is.
-/

namespace Loxis.Vm

open Function
open Loxis.Aarc Loxis.Graph

inductive Barrier
  | alloc (sizeBytes typeId : ℕ)
  | rootAdd (i : ℕ)
  | rootRemove (i : ℕ)
  | edgeAdd (i j : ℕ)
  | edgeRemove (i j : ℕ)

/-- The collector with the references that its program holds. -/
structure Client where
  gc : LocalAarc
  roots : ℕ → ℕ
  edges : ℕ → ℕ → ℕ

namespace Client

open LocalAarc

/-- The program can get at the object. -/
def Refers (s : Client) (i : ℕ) : Prop :=
  ∃ r, 0 < s.roots r ∧ Reach (fun a b => 0 < s.edges a b) r i

/-- The calls that the program can make: it adds references between objects that it can get at,
and removes those that it added. It does not go on without a handle. -/
def Legal (s : Client) : Barrier → Prop
  | .alloc sizeBytes typeId => (s.gc.heap.alloc sizeBytes typeId).1 ≠ Heap.INVALID
  | .rootAdd i => s.Refers i
  | .rootRemove i => 0 < s.roots i
  | .edgeAdd i j => s.Refers i ∧ s.Refers j
  | .edgeRemove i j => s.Refers i ∧ 0 < s.edges i j

/-- The collector that a call finds; an allocation has taken its handle. -/
def before (s : Client) : Barrier → LocalAarc
  | .alloc sizeBytes typeId =>
    let r := s.gc.heap.alloc sizeBytes typeId
    ({ s.gc with heap := r.2 } : LocalAarc).onAlloc r.1
  | _ => s.gc

/-- The message of a call. A new object is stored in a register, which roots it. -/
def message (s : Client) : Barrier → GCMessage
  | .alloc sizeBytes typeId =>
    (s.before (.alloc sizeBytes typeId)).rootAdd (s.gc.heap.alloc sizeBytes typeId).1
  | .rootAdd i => s.gc.rootAdd i
  | .rootRemove i => s.gc.rootRemove i
  | .edgeAdd i j => s.gc.edgeAdd i j
  | .edgeRemove i j => s.gc.edgeRemove i j

def rootsAfter (s : Client) : Barrier → ℕ → ℕ
  | .alloc sizeBytes typeId => update s.roots (s.gc.heap.alloc sizeBytes typeId).1 1
  | .rootAdd i => update s.roots i (s.roots i + 1)
  | .rootRemove i => update s.roots i (s.roots i - 1)
  | _ => s.roots

/-- The references from object to object; a new object holds none. -/
def edgesAfter (s : Client) : Barrier → ℕ → ℕ → ℕ
  | .alloc sizeBytes typeId => update s.edges (s.gc.heap.alloc sizeBytes typeId).1 fun _ => 0
  | .edgeAdd i j => update s.edges i (update (s.edges i) j (s.edges i j + 1))
  | .edgeRemove i j => update s.edges i (update (s.edges i) j (s.edges i j - 1))
  | _ => s.edges

theorem edgesAfter_edgeAdd (s : Client) (x y i j : ℕ) : s.edgesAfter (.edgeAdd x y) i j =
    if i = x ∧ j = y then s.edges i j + 1 else s.edges i j := by
  by_cases hi : i = x
  · subst hi
    by_cases hj : j = y
    · subst hj
      simp [edgesAfter]
    · simp [edgesAfter, hj]
  · simp [edgesAfter, hi]

theorem edgesAfter_edgeRemove (s : Client) (x y i j : ℕ) : s.edgesAfter (.edgeRemove x y) i j =
    if i = x ∧ j = y then s.edges i j - 1 else s.edges i j := by
  by_cases hi : i = x
  · subst hi
    by_cases hj : j = y
    · subst hj
      simp [edgesAfter]
    · simp [edgesAfter, hj]
  · simp [edgesAfter, hi]

/-- The engine of a call when the trigger is consulted. -/
def consulted (s : Client) (a : Barrier) : AarcEngine :=
  swept ((s.before a).engine.process (s.message a))

/-- The call starts a look for cycles. -/
def Looks (p : CyclePolicy) (s : Client) (a : Barrier) : Prop :=
  p.cycleTrigger (s.before a).meter.tick (s.consulted a).activeSuspects
    (s.before a).heap.memorySize ≠ .none

/-- Calls of a program on a collector with a fresh heap, all of which satisfy `allowed`. -/
def system (p : CyclePolicy) (allowed : Client → Barrier → Prop) : System Client Barrier where
  init s := (∃ n threshold, 0 < n ∧ n < 2 ^ 32 ∧ s.gc = LocalAarc.new n threshold) ∧
    s.roots = (fun _ => 0) ∧ s.edges = fun _ _ => 0
  next s a t := s.Legal a ∧ allowed s a ∧
    (s.before a).Absorbs ((s.before a).apply p (s.message a)) t.gc ∧
    t.roots = s.rootsAfter a ∧ t.edges = s.edgesAfter a

/-- When a look starts, no garbage outside all cycles leads from a cycle to another. -/
def LooksShallow (p : CyclePolicy) (s : Client) (a : Barrier) : Prop :=
  s.Looks p a → (s.consulted a).Shallow

/-- The collector accounts for what the program holds. -/
structure Accounted (s : Client) : Prop where
  sound : s.gc.Sound
  roots : ∀ i, s.gc.tab.root i = s.roots i
  edges : ∀ i j, s.gc.heap.valid i = true → s.gc.heap.valid j = true →
    ((s.gc.tab.outRecs i).count ⟨s.gc.current i, s.gc.current j⟩ : ℤ) = s.edges i j
  edge_valid : ∀ i j, s.gc.heap.valid i = true → 0 < s.edges i j → s.gc.heap.valid j = true

variable {s t : Client} {i j : ℕ}

section Refers

theorem Accounted.edge_iff (h : s.Accounted) (hi : s.gc.heap.valid i = true) :
    s.gc.tab.Edge i j ↔ 0 < s.edges i j := by
  have hs := h.sound.drained.sound
  constructor
  · rintro ⟨r, hr, rfl⟩
    have hsrc := hs.valid_src i r hr
    have hdst := hs.valid_dst i r hr
    have hj : s.gc.heap.valid r.dst.index = true := (CellPool.valid_iff.mp hdst).1
    have he : (⟨s.gc.current i, s.gc.current r.dst.index⟩ : EdgeRec) = r := by
      rw [(current_eq_iff hsrc).mpr (hs.out_src i r hr).symm, (current_eq_iff hdst).mpr rfl]
    have hc := h.edges i r.dst.index hi hj
    rw [he] at hc
    have := List.count_pos_iff.mpr hr
    omega
  · intro hpos
    have hj := h.edge_valid i j hi hpos
    have hc := h.edges i j hi hj
    exact ⟨⟨s.gc.current i, s.gc.current j⟩, List.count_pos_iff.mp (by omega), rfl⟩

theorem Accounted.root_valid (h : s.Accounted) (hr : 0 < s.roots i) :
    s.gc.heap.valid i = true := by
  by_contra hv
  have := h.sound.drained.sound.dead_root i (Bool.not_eq_true _ ▸ hv)
  rw [show s.gc.engine.tab = s.gc.tab from rfl, h.roots i] at this
  omega

/-- The program can get at what the collector holds to be rooted. -/
theorem Accounted.refers_iff (h : s.Accounted) : s.Refers i ↔ s.gc.engine.marks.Rooted i := by
  have hs := h.sound.drained.sound
  constructor
  · rintro ⟨r, hr, hri⟩
    refine ⟨r, ?_, show 0 < s.gc.tab.root r by rw [h.roots r]; exact_mod_cast hr⟩
    refine hri.transfer (P := fun x => s.gc.heap.valid x = true) (fun x y hx _ hxy => ?_)
      (fun x y hx hxy => h.edge_valid x y hx hxy) (h.root_valid hr)
    exact (h.edge_iff hx).mpr hxy
  · rintro ⟨r, hri, hr⟩
    have hr : 0 < s.gc.tab.root r := hr
    rw [h.roots r] at hr
    refine ⟨r, by exact_mod_cast hr, hri.mono fun x y hxy => ?_⟩
    exact (h.edge_iff (hs.edge_live hxy).1).mp hxy

theorem Accounted.valid_of_refers (h : s.Accounted) (hi : s.Refers i) :
    s.gc.heap.valid i = true := by
  obtain ⟨r, hr, hri⟩ := hi
  exact hri.mem_of_closed (P := fun x => s.gc.heap.valid x = true) h.edge_valid (h.root_valid hr)

end Refers

section Before

variable {a : Barrier}

/-- The object that a call brings in. -/
def IsNew (s : Client) (i : ℕ) : Barrier → Prop
  | .alloc sizeBytes typeId => i = (s.gc.heap.alloc sizeBytes typeId).1
  | _ => False

instance : Decidable (s.IsNew i a) :=
  match a with
  | .alloc _ _ => inferInstanceAs (Decidable (i = _))
  | .rootAdd _ | .rootRemove _ | .edgeAdd _ _ | .edgeRemove _ _ => inferInstanceAs (Decidable False)

/-- A call finds the collector as it was left, but for a new object. -/
structure Found (s : Client) (a : Barrier) : Prop where
  reserved : (s.before a).heap.Reserved
  drained : (s.before a).engine.Drained
  tab : (s.before a).tab = s.gc.tab
  ops : (s.before a).meter.opsSinceCycle = s.gc.meter.opsSinceCycle
  current : (s.before a).current = s.gc.current
  valid : ∀ i, (s.before a).heap.valid i = true ↔ s.gc.heap.valid i = true ∨ s.IsNew i a
  fresh : ∀ i, s.IsNew i a → s.gc.heap.valid i = false
  watched : ∀ i, s.gc.heap.valid i = true → (s.before a).engine.marks.Watched i

theorem Accounted.found (h : s.Accounted) (hl : s.Legal a) : s.Found a := by
  cases a with
  | alloc size ty =>
    have ht := h.sound.reserved.alloc hl
    set i := (s.gc.heap.alloc size ty).1
    set t := (s.gc.heap.alloc size ty).2
    have hgen : ∀ j, (t.slots j).generation = (s.gc.heap.slots j).generation := fun j => by
      by_cases hj : j = i
      · rw [hj, ht.generation]
      · rw [ht.other j hj]
    have hval : ∀ j, t.valid j = true ↔ s.gc.heap.valid j = true ∨ j = i := fun j => by
      rw [Heap.valid_iff, Heap.valid_iff, ht.slotCount]
      by_cases hj : j = i
      · subst hj
        simp [ht.lt, ht.live]
      · simp [ht.other j hj, hj]
    refine ⟨ht.reserved, ?_, rfl, rfl, ?_, hval, ?_, h.sound.watched⟩
    · exact h.sound.drained.setPool fun j hj => ⟨(hval j).mpr (Or.inl hj), hgen j⟩
    · funext j
      show (⟨j, t.cells.generationOf j⟩ : ObjHandle) = ⟨j, s.gc.heap.cells.generationOf j⟩
      simp only [CellPool.generationOf, Heap.cells, ht.slotCount, hgen]
      rfl
    · rintro j rfl
      exact Bool.eq_false_iff.mpr fun hv => by
        have := (Heap.valid_iff.mp hv).2
        rw [ht.dead] at this
        cases this
  | rootAdd | rootRemove | edgeAdd | edgeRemove =>
    refine ⟨h.sound.reserved, h.sound.drained, rfl, rfl, rfl, fun j => ?_, fun j hj => hj.elim,
      h.sound.watched⟩
    exact ⟨Or.inl, fun h => h.elim id False.elim⟩

/-- The slot that a call is about. -/
def target (s : Client) : Barrier → ℕ
  | .alloc sizeBytes typeId => (s.gc.heap.alloc sizeBytes typeId).1
  | .rootAdd i | .rootRemove i => i
  | .edgeAdd _ j | .edgeRemove _ j => j

theorem Accounted.target_valid (h : s.Accounted) (hl : s.Legal a) :
    (s.before a).heap.valid (s.target a) = true := by
  rw [(h.found hl).valid]
  cases a with
  | alloc size ty => exact Or.inr rfl
  | rootAdd i => exact Or.inl (h.valid_of_refers hl)
  | rootRemove i => exact Or.inl (h.root_valid hl)
  | edgeAdd i j => exact Or.inl (h.valid_of_refers hl.2)
  | edgeRemove i j => exact Or.inl (h.edge_valid i j (h.valid_of_refers hl.1) hl.2)

theorem Accounted.fits (h : s.Accounted) (hl : s.Legal a) :
    (s.before a).engine.Fits (s.message a) := by
  intro hop _
  cases a with
  | rootRemove i =>
    have hi : 0 < s.roots i := hl
    show ((1 : ℕ) : ℤ) ≤ s.gc.tab.root i
    rw [h.roots i]
    exact_mod_cast hi
  | alloc | rootAdd | edgeAdd | edgeRemove => cases hop

/-- The table after a call. -/
def tabAfter (s : Client) (a : Barrier) : RefTable :=
  (s.before a).tab.applied (s.before a).heap.cells (s.message a)

theorem Accounted.tabAfter_sound (h : s.Accounted) (hl : s.Legal a) :
    (s.tabAfter a).Sound (s.before a).heap.cells :=
  (h.found hl).drained.sound.applied _

theorem Accounted.root_after (h : s.Accounted) (hl : s.Legal a) (i : ℕ) :
    (s.tabAfter a).root i = s.rootsAfter a i := by
  have hf := h.found hl
  by_cases hi : (s.before a).heap.valid i = true
  · have hg := AarcEngine.root_applied_gain (h.fits hl) (valid_current hi)
    have hg : (s.tabAfter a).root i = (s.before a).tab.root i +
      (s.message a).gain ((s.before a).current i) := hg
    rw [hg, hf.tab, h.roots i]
    cases a with
    | alloc size ty =>
      by_cases he : i = (s.gc.heap.alloc size ty).1
      · have h0 : s.roots i = 0 := by
          have := hf.fresh i he
          by_contra hne
          rw [h.root_valid (Nat.pos_of_ne_zero hne)] at this
          cases this
        subst he
        simp [GCMessage.gain, message, LocalAarc.rootAdd, rootsAfter, h0]
      · simp [GCMessage.gain, message, LocalAarc.rootAdd, rootsAfter, he, Ne.symm he]
    | rootAdd k =>
      by_cases he : i = k
      · subst he
        simp [GCMessage.gain, message, LocalAarc.rootAdd, rootsAfter, before]
      · simp [GCMessage.gain, message, LocalAarc.rootAdd, rootsAfter, before, he, Ne.symm he]
    | rootRemove k =>
      by_cases he : i = k
      · subst he
        have : 0 < s.roots i := hl
        simp [GCMessage.gain, message, LocalAarc.rootRemove, rootsAfter, before]
        omega
      · simp [GCMessage.gain, message, LocalAarc.rootRemove, rootsAfter, before, he, Ne.symm he]
    | edgeAdd | edgeRemove =>
      simp [GCMessage.gain, message, LocalAarc.edgeAdd, LocalAarc.edgeRemove, rootsAfter]
  · have hne : i ≠ s.target a := fun he => hi (he ▸ h.target_valid hl)
    have h0 : s.roots i = 0 := by
      by_contra h0
      exact hi ((hf.valid i).mpr (Or.inl (h.root_valid (Nat.pos_of_ne_zero h0))))
    rw [(h.tabAfter_sound hl).dead_root i (Bool.eq_false_iff.mpr hi)]
    cases a <;> simp_all [rootsAfter, target]

/-- The records between two slots that a call finds are the references that the program holds,
where a new object holds none. -/
theorem Accounted.count_before (h : s.Accounted) (hl : s.Legal a)
    (hi : (s.before a).heap.valid i = true) :
    (((s.before a).tab.outRecs i).count ⟨(s.before a).current i, (s.before a).current j⟩ : ℤ) =
      if s.IsNew i a then 0 else s.edges i j := by
  have hf := h.found hl
  have hs := h.sound.drained.sound
  rw [hf.tab, hf.current]
  split
  · next hn =>
    have h0 : s.gc.tab.outRecs i = [] := hs.dead_out (hf.fresh i hn)
    rw [h0]
    rfl
  · next hn =>
    have hi := ((hf.valid i).mp hi).resolve_right hn
    by_cases hvj : s.gc.heap.valid j = true
    · exact h.edges i j hi hvj
    · have h0 : s.edges i j = 0 := by
        by_contra h0
        exact hvj (h.edge_valid i j hi (Nat.pos_of_ne_zero h0))
      rw [h0, Nat.cast_zero, Int.natCast_eq_zero, List.count_eq_zero]
      intro hr
      exact hvj (CellPool.valid_iff.mp (hs.valid_dst i _ hr)).1

theorem Accounted.count_after (h : s.Accounted) (hl : s.Legal a)
    (hi : (s.before a).heap.valid i = true) (hj : (s.before a).heap.valid j = true) :
    (((s.tabAfter a).outRecs i).count ⟨(s.before a).current i, (s.before a).current j⟩ : ℤ) =
      s.edgesAfter a i j := by
  have hf := h.found hl
  have hm : (s.message a).op = .edgeRemove → (s.before a).engine.live (s.message a).a = true →
      ⟨(s.message a).a, (s.message a).b⟩ ∈ (s.before a).tab.outRecs (s.message a).a.index := by
    intro hop _
    cases a with
    | edgeRemove x y =>
      have hx := h.valid_of_refers hl.1
      have hc := h.edges x y hx (h.edge_valid x y hx hl.2)
      have hpos : (0 : ℤ) < s.edges x y := by exact_mod_cast hl.2
      rw [← hc, Int.natCast_pos] at hpos
      exact List.count_pos_iff.mp hpos
    | alloc | rootAdd | rootRemove | edgeAdd => cases hop
  have hg := AarcEngine.count_applied_gain hf.drained.sound hm
    (r := ⟨(s.before a).current i, (s.before a).current j⟩) (valid_current hi) (valid_current hj)
  have hg : (((s.tabAfter a).outRecs i).count
      ⟨(s.before a).current i, (s.before a).current j⟩ : ℤ) = _ := hg
  have hc := h.count_before (j := j) hl hi
  rw [hg]
  refine (congrArg (· + _) hc).trans ?_
  cases a with
  | alloc size ty =>
    by_cases he : i = (s.gc.heap.alloc size ty).1
    · simp [IsNew, he, GCMessage.edgeGain, message, LocalAarc.rootAdd, edgesAfter]
    · simp [IsNew, he, GCMessage.edgeGain, message, LocalAarc.rootAdd, edgesAfter]
  | rootAdd | rootRemove =>
    simp [IsNew, GCMessage.edgeGain, message, LocalAarc.rootAdd, LocalAarc.rootRemove, edgesAfter]
  | edgeAdd x y =>
    have hnew : ¬ s.IsNew i (.edgeAdd x y) := id
    rw [if_neg hnew, edgesAfter_edgeAdd]
    simp only [GCMessage.edgeGain, message, LocalAarc.edgeAdd, before, EdgeRec.mk.injEq,
      current_inj, eq_comm (a := x), eq_comm (a := y)]
    split <;> simp
  | edgeRemove x y =>
    have hnew : ¬ s.IsNew i (.edgeRemove x y) := id
    have hpos : 0 < s.edges x y := hl.2
    rw [if_neg hnew, edgesAfter_edgeRemove]
    simp only [GCMessage.edgeGain, message, LocalAarc.edgeRemove, before, EdgeRec.mk.injEq,
      current_inj, eq_comm (a := x), eq_comm (a := y)]
    split
    · next hij =>
      rw [hij.1, hij.2]
      omega
    · simp

theorem Accounted.edge_valid_after (h : s.Accounted) (hl : s.Legal a)
    (hi : (s.before a).heap.valid i = true) (he : 0 < s.edgesAfter a i j) :
    (s.before a).heap.valid j = true := by
  have hf := h.found hl
  have hold : ¬ s.IsNew i a → 0 < s.edges i j → (s.before a).heap.valid j = true :=
    fun hn hpos => (hf.valid j).mpr
      (Or.inl (h.edge_valid i j (((hf.valid i).mp hi).resolve_right hn) hpos))
  cases a with
  | alloc size ty =>
    by_cases hn : i = (s.gc.heap.alloc size ty).1
    · simp [edgesAfter, hn] at he
    · simp only [edgesAfter, update_of_ne hn] at he
      exact hold hn he
  | rootAdd | rootRemove => exact hold id he
  | edgeAdd x y =>
    rw [edgesAfter_edgeAdd] at he
    split at he
    · next hij => exact (hf.valid j).mpr (Or.inl (hij.2 ▸ h.valid_of_refers hl.2))
    · exact hold id he
  | edgeRemove x y =>
    refine hold id ?_
    rw [edgesAfter_edgeRemove] at he
    split at he <;> omega

end Before

section Step

variable {p : CyclePolicy} {a : Barrier} {F : Finset ℕ} {e : AarcEngine}

/-- What the engine frees after a call is nothing that the program refers to. -/
theorem Accounted.settles (h : s.Accounted) (hl : s.Legal a)
    (hset : (s.before a).Settles F t.gc)
    (hF : AarcEngine.Collected ((s.before a).engine.process (s.message a)) e F)
    (heng : t.gc.engine = e.setPool t.gc.heap.cells) (hr : t.roots = s.rootsAfter a)
    (he : t.edges = s.edgesAfter a) : t.Accounted := by
  have hf := h.found hl
  have htab : ((s.before a).engine.process (s.message a)).tab = s.tabAfter a :=
    AarcEngine.process_tab
  have htab' : t.gc.tab = e.tab := congrArg AarcEngine.tab heng
  have hroot := h.root_after hl
  refine ⟨hset.sound, fun i => ?_, fun i j hi hj => ?_, fun i j hi hpos => ?_⟩
  · rw [hr]
    by_cases hi : i ∈ F
    · have hd : t.gc.heap.valid i = false :=
        Bool.eq_false_iff.mpr fun hv => ((hset.valid i).mp hv).2 hi
      have h0 := hset.sound.drained.sound.dead_root i hd
      have h1 : ¬ 0 < (s.tabAfter a).root i := fun hpos =>
        hF.not_rooted hi ⟨i, .refl, show 0 < _ by rw [htab]; exact hpos⟩
      rw [show t.gc.tab.root i = 0 from h0]
      rw [hroot i] at h1
      omega
    · rw [htab', hF.freed.root i hi, htab, hroot i]
  · obtain ⟨hi, hiF⟩ := (hset.valid i).mp hi
    obtain ⟨hj, hjF⟩ := (hset.valid j).mp hj
    rw [he, htab', hF.freed.outRecs i hiF, htab, hset.current i hiF, hset.current j hjF]
    exact h.count_after hl hi hj
  · obtain ⟨hi, hiF⟩ := (hset.valid i).mp hi
    rw [he] at hpos
    have hj := h.edge_valid_after hl hi hpos
    refine (hset.valid j).mpr ⟨hj, fun hjF => hiF (hF.coclosed hjF ?_)⟩
    have hpos : (0 : ℤ) < s.edgesAfter a i j := by exact_mod_cast hpos
    rw [← h.count_after hl hi hj, Int.natCast_pos] at hpos
    rw [htab]
    exact ⟨_, List.count_pos_iff.mp hpos, rfl⟩

/-- After a call the program can get at every object, or the next look has come one call nearer
and is less than `maxInterval` calls away. -/
theorem Accounted.step (hp : p.adaptive = true) (h : s.Accounted)
    (hn : (system p (LooksShallow p)).next s a t) : t.Accounted ∧
      ((∀ i, t.gc.heap.valid i = true → t.Refers i) ∨
        t.gc.meter.opsSinceCycle = (s.gc.meter.opsSinceCycle + 1) % 2 ^ 64 ∧
          t.gc.meter.opsSinceCycle < p.maxInterval) := by
  obtain ⟨hl, hsh, ha, hr, he⟩ := hn
  have hf := h.found hl
  have hnew : ∀ i, s.IsNew i a → ((s.before a).engine.process (s.message a)).marks.Watched i := by
    intro i hi
    refine ⟨i, .refl, Or.inl ?_⟩
    show 0 < ((s.before a).engine.process (s.message a)).tab.root i
    rw [AarcEngine.process_tab]
    refine (h.root_after hl i).symm ▸ ?_
    cases a with
    | alloc size ty => simp [rootsAfter, show i = (s.gc.heap.alloc size ty).1 from hi]
    | rootAdd | rootRemove | edgeAdd | edgeRemove => exact hi.elim
  have hleaf : ∀ i, s.IsNew i a → ∀ j, ¬ (s.before a).tab.Edge i j := fun i hi j hij => by
    rw [hf.tab] at hij
    have := (h.sound.drained.sound.edge_live hij).1
    rw [show s.gc.engine.pool.isLiveAt i = s.gc.heap.valid i from rfl, hf.fresh i hi] at this
    cases this
  obtain ⟨F, hset, hF, heng, hops⟩ := LocalAarc.apply_spec (N := fun i => s.IsNew i a) hp
    hf.reserved hf.drained hleaf (fun i hi hn => hf.watched i (((hf.valid i).mp hi).resolve_right
    hn)) (h.fits hl) hnew hsh ha
  have ht := h.settles hl hset hF heng hr he
  refine ⟨ht, hops.imp (fun hall i hi => ht.refers_iff.mpr (hall i hi)) ?_⟩
  rw [hf.ops]
  exact id

/-- A call gives the program no way back to an object that it could not get at. -/
theorem refers_of_next {allowed : Client → Barrier → Prop} (hn : (system p allowed).next s a t)
    (hs : s.Accounted) (hi : s.gc.heap.valid i = true) (ht : t.Refers i) : s.Refers i := by
  obtain ⟨hl, -, -, hr, he⟩ := hn
  obtain ⟨r, hpos, hri⟩ := ht
  rw [hr] at hpos
  rw [he] at hri
  cases a with
  | alloc size ty =>
    set k := (s.gc.heap.alloc size ty).1 with hk
    have hki : i ≠ k := fun hik => by
      have := (hs.found hl).fresh i hik
      rw [hi] at this
      cases this
    have hstep : ∀ x y, 0 < s.edgesAfter (.alloc size ty) x y → 0 < s.edges x y := fun x y hxy => by
      by_cases hx : x = k
      · simp [edgesAfter, hx, ← hk] at hxy
      · simpa [edgesAfter, ← hk, hx] using hxy
    by_cases hrk : r = k
    · rcases hri.head_cases with rfl | ⟨c, hc, -⟩
      · exact absurd hrk hki
      · simp [edgesAfter, hrk, ← hk] at hc
    · simp only [rootsAfter, ← hk, update_of_ne hrk] at hpos
      exact ⟨r, hpos, hri.mono hstep⟩
  | rootAdd k =>
    by_cases hrk : r = k
    · obtain ⟨r', hr', hk⟩ := hl
      exact ⟨r', hr', hk.trans (hrk ▸ hri)⟩
    · simp only [rootsAfter, update_of_ne hrk] at hpos
      exact ⟨r, hpos, hri⟩
  | rootRemove k =>
    refine ⟨r, ?_, hri⟩
    simp only [rootsAfter, update_apply] at hpos
    split at hpos
    · next hrk => rw [hrk]; omega
    · exact hpos
  | edgeAdd x y =>
    refine hri.mem_of_closed (P := s.Refers) (fun u v hu huv => ?_) ⟨r, hpos, .refl⟩
    rw [edgesAfter_edgeAdd] at huv
    split at huv
    · next huv' => exact huv'.2 ▸ hl.2
    · obtain ⟨r', hr', hu⟩ := hu
      exact ⟨r', hr', hu.tail huv⟩
  | edgeRemove x y =>
    refine ⟨r, hpos, hri.mono fun u v huv => ?_⟩
    rw [edgesAfter_edgeRemove] at huv
    split at huv <;> omega

end Step

section Run

variable {p : CyclePolicy} {as : List Barrier}

/-- The invariant of a run: where there is garbage, the next look is less than `maxInterval`
calls away. -/
structure Calm (p : CyclePolicy) (s : Client) : Prop extends Accounted s where
  near : (∀ i, s.gc.heap.valid i = true → s.Refers i) ∨
    s.gc.meter.opsSinceCycle < p.maxInterval

theorem init_calm (h : (system p (LooksShallow p)).init s) : s.Calm p := by
  obtain ⟨⟨n, threshold, hn, hlt, hgc⟩, hr, he⟩ := h
  have hdead : ∀ i, s.gc.heap.valid i = false := fun i => by
    rw [hgc]
    exact Bool.and_false _
  have hd : (AarcEngine.init n .loc kOwner).Drained :=
    ⟨(AarcEngine.init_ready n .loc kOwner).toInv, rfl, ∅, fun i => by
      simp [AarcEngine.init, Scratch.init], rfl⟩
  refine ⟨⟨⟨?_, ?_, fun i hi => ?_⟩, fun i => ?_, fun i _ hi => ?_, fun i _ hi => ?_⟩,
    Or.inl fun i hi => ?_⟩
  · rw [hgc]
    exact Heap.Reserved.new hn hlt
  · rw [hgc]
    refine hd.setPool (p := (LocalAarc.new n threshold).heap.cells) fun i hi => ?_
    have := (CellPool.isLiveAt_iff.mp hi).2
    cases this
  · rw [show s.gc.engine.pool.isLiveAt i = s.gc.heap.valid i from rfl, hdead i] at hi
    cases hi
  · rw [hgc, hr]
    rfl
  all_goals
    rw [hdead i] at hi
    cases hi

theorem reachable_calm (hp : p.adaptive = true) (h : (system p (LooksShallow p)).Reachable s) :
    s.Calm p := by
  refine h.inv (fun s hs => init_calm hs) fun s a t hs hn => ?_
  obtain ⟨ht, hops⟩ := hs.toAccounted.step hp hn
  exact ⟨ht, hops.imp_right And.right⟩

/-- An object is reclaimed on the way: some state of the run has no object in the slot. -/
def Reclaimed (S : System Client Barrier) (i : ℕ) (s : Client) (as : List Barrier) (t : Client) :
    Prop :=
  ∃ bs cs u, as = bs ++ cs ∧ S.Run s bs u ∧ S.Run u cs t ∧ u.gc.heap.valid i = false

theorem Calm.run (hp : p.adaptive = true) (hs : s.Calm p) (hi : s.gc.heap.valid i = true)
    (hg : ¬ s.Refers i) (hr : (system p (LooksShallow p)).Run s as t) :
    Reclaimed (system p (LooksShallow p)) i s as t ∨
      (t.Calm p ∧ t.gc.heap.valid i = true ∧ ¬ t.Refers i ∧
        t.gc.meter.opsSinceCycle = s.gc.meter.opsSinceCycle + as.length) := by
  induction hr with
  | nil => exact Or.inr ⟨hs, hi, hg, rfl⟩
  | @snoc t u as a hr hn ih =>
    rcases ih with ⟨bs, cs, v, rfl, hb, hc, hv⟩ | ⟨ht, hvt, hgt, hops⟩
    · exact Or.inl ⟨bs, cs ++ [a], v, List.append_assoc _ _ _, hb, hc.snoc hn, hv⟩
    · cases hu : u.gc.heap.valid i with
      | false =>
        exact Or.inl ⟨as ++ [a], [], u, (List.append_nil _).symm, hr.snoc hn, .nil u, hu⟩
      | true =>
        have hgu : ¬ u.Refers i := fun h => hgt (refers_of_next hn ht.toAccounted hvt h)
        obtain ⟨hacc, hnear⟩ := ht.toAccounted.step hp hn
        obtain ⟨hopsu, hlt⟩ := hnear.resolve_left fun hall => hgu (hall i hu)
        have hlt' := ht.near.resolve_left fun hall => hgt (hall i hvt)
        have := p.maxInterval_lt
        refine Or.inr ⟨⟨hacc, Or.inr hlt⟩, rfl, hgu, ?_⟩
        rw [hopsu, Nat.mod_eq_of_lt (by omega), hops, List.length_append, List.length_singleton,
          Nat.add_assoc]

end Run

section Exec

variable {p : CyclePolicy} {as : List Barrier} {a : Barrier}

/-- A call, with the payloads freed in the order of their slots. -/
def step (p : CyclePolicy) (s : Client) (a : Barrier) : Client :=
  let b := s.before a
  let r := b.apply p (s.message a)
  let order :=
    (List.range b.heap.slotCount).filter fun i => b.heap.valid i && !r.2.pool.isLiveAt i
  { gc :=
      { r.2.toScratch with
        heap := order.foldl Heap.freePayload b.heap, tab := r.2.tab, meter := r.1 }
    roots := s.rootsAfter a
    edges := s.edgesAfter a }

theorem next_step {allowed : Client → Barrier → Prop} (hl : s.Legal a) (ha : allowed s a) :
    (system p allowed).next s a (s.step p a) := by
  refine ⟨hl, ha, ⟨rfl, rfl, rfl, _, List.nodup_range.filter _, fun i => ?_, rfl⟩, rfl, rfl⟩
  simp only [List.mem_filter, List.mem_range, Bool.and_eq_true, Bool.not_eq_true']
  refine ⟨fun h => h.2, fun h => ⟨(Heap.valid_iff.mp h.1).1, h⟩⟩

/-- A sufficient check that a call is legal: what it is about is rooted. -/
def legal (s : Client) : Barrier → Bool
  | .alloc sizeBytes typeId => decide ((s.gc.heap.alloc sizeBytes typeId).1 ≠ Heap.INVALID)
  | .rootAdd i | .rootRemove i => decide (0 < s.roots i)
  | .edgeAdd i j => decide (0 < s.roots i) && decide (0 < s.roots j)
  | .edgeRemove i j => decide (0 < s.roots i) && decide (0 < s.edges i j)

theorem legal_sound (h : s.legal a = true) : s.Legal a := by
  have hroot : ∀ {i}, 0 < s.roots i → s.Refers i := fun {i} h => ⟨i, h, .refl⟩
  cases a <;> simp only [legal, Bool.and_eq_true, decide_eq_true_eq] at h
  · exact h
  · exact hroot h
  · exact h
  · exact ⟨hroot h.1, hroot h.2⟩
  · exact ⟨hroot h.1, h.2⟩

/-- Check every call of a run against the state that it finds. -/
def checks (p : CyclePolicy) (ok : Client → Barrier → Bool) : Client → List Barrier → Bool
  | _, [] => true
  | s, a :: as => s.legal a && ok s a && checks p ok (s.step p a) as

theorem run_of_checks {allowed : Client → Barrier → Prop} {ok : Client → Barrier → Bool}
    {P : Client → Prop} (hs : P s) (hc : checks p ok s as = true)
    (hok : ∀ s a, P s → s.Legal a → ok s a = true → allowed s a)
    (hP : ∀ s a t, P s → (system p allowed).next s a t → P t) :
    (system p allowed).Run s as (as.foldl (step p) s) := by
  induction as generalizing s with
  | nil => exact .nil s
  | cons a as ih =>
    simp only [checks, Bool.and_eq_true] at hc
    obtain ⟨⟨hl, ha⟩, hc⟩ := hc
    have hl := legal_sound hl
    have hn : (system p allowed).next s a (s.step p a) := next_step hl (hok s a hs hl ha)
    exact System.Run.cons hn (ih (hP _ _ _ hs hn) hc)

/-- All references out of an object are to itself. -/
def loopsOnly (e : AarcEngine) : Bool :=
  (List.range e.pool.capacity).all fun i => (e.tab.outRecs i).all fun r => decide (r.dst.index = i)

theorem shallow_of_loops {e : AarcEngine} (hs : e.tab.Sound e.pool) (h : loopsOnly e = true) :
    e.Shallow := by
  have hloop : ∀ x y, e.tab.Edge x y → x = y := fun x y hxy => by
    have hx := Finset.mem_range.mp (hs.edge_lt hxy).1
    obtain ⟨r, hr, rfl⟩ := hxy
    simp only [loopsOnly, List.all_eq_true, List.mem_range, decide_eq_true_eq] at h
    exact (h x hx r hr).symm
  have hreach : ∀ x y, Reach e.tab.Edge x y → x = y := fun x y hxy => by
    induction hxy with
    | refl => rfl
    | tail _ hbc ih => rw [ih, hloop _ _ hbc]
  intro x y z _ hxx hxy _ _
  exact hreach x y hxy ▸ hxx

theorem Accounted.consulted_sound (h : s.Accounted) (hl : s.Legal a) :
    (s.consulted a).tab.Sound (s.consulted a).pool := by
  have hd := (h.found hl).drained
  obtain ⟨F, -, hd'⟩ := swept_spec (hd.ready.process (h.fits hl)).toInv
    (hd.counted.process (s.message a))
  exact hd'.sound

/-- The call starts no look, or one among objects that refer to themselves only. -/
def lookOk (p : CyclePolicy) (s : Client) (a : Barrier) : Bool :=
  decide (p.cycleTrigger (s.before a).meter.tick (s.consulted a).activeSuspects
    (s.before a).heap.memorySize = .none) || loopsOnly (s.consulted a)

theorem run_of_lookOk (as : List Barrier) (hp : p.adaptive = true) (hs : s.Calm p)
    (hc : checks p (lookOk p) s as = true) :
    (system p (LooksShallow p)).Run s as (as.foldl (step p) s) := by
  refine run_of_checks (P := Calm p) hs hc (fun s a hs hl ha hlook => ?_) fun s a t hs hn => ?_
  · rw [lookOk, Bool.or_eq_true, decide_eq_true_eq] at ha
    exact shallow_of_loops (hs.toAccounted.consulted_sound hl) (ha.resolve_left hlook)
  · obtain ⟨ht, hops⟩ := hs.toAccounted.step hp hn
    exact ⟨ht, hops.imp_right And.right⟩

/-- Where all roots are leaves, nothing else can be got at. -/
theorem Accounted.not_refers (h : s.Accounted) (hc : ∀ r < s.gc.heap.slotCount, 0 < s.roots r →
    r ≠ i ∧ ∀ j < s.gc.heap.slotCount, s.edges r j = 0) : ¬ s.Refers i := by
  rintro ⟨r, hr, hri⟩
  have hv := h.root_valid hr
  obtain ⟨hne, hleaf⟩ := hc r (Heap.valid_iff.mp hv).1 hr
  rcases hri.head_cases with rfl | ⟨j, hj, -⟩
  · exact hne rfl
  · have := hleaf j (Heap.valid_iff.mp (h.edge_valid r j hv hj)).1
    omega

end Exec

section Reclaim

variable {p : CyclePolicy} {as : List Barrier}

/-- Where every look finds no garbage outside all cycles that leads from a cycle to another, every
object that the program cannot get at is reclaimed within `maxInterval + 1` calls. -/
theorem garbage_reclaimed (hp : p.adaptive = true)
    (hs : (system p (LooksShallow p)).Reachable s) (hi : s.gc.heap.valid i = true)
    (hg : ¬ s.Refers i) (hr : (system p (LooksShallow p)).Run s as t)
    (hlen : as.length = p.maxInterval + 1) :
    Reclaimed (system p (LooksShallow p)) i s as t := by
  rcases (reachable_calm hp hs).run hp hi hg hr with h | ⟨ht, hvt, hgt, hops⟩
  · exact h
  · have := ht.near.resolve_left fun hall => hgt (hall i hvt)
    omega

/-- A policy that looks for cycles every eight calls. -/
def everyEight : CyclePolicy := ⟨true, 64, 1000, 1000, 2 ^ 20, 2 ^ 20, 8, by decide⟩

def fresh (n threshold : ℕ) : Client := ⟨LocalAarc.new n threshold, fun _ => 0, fun _ _ => 0⟩

theorem fresh_init (p : CyclePolicy) (allowed : Client → Barrier → Prop) :
    (system p allowed).init (fresh 8 1000) := ⟨⟨8, 1000, by decide, by decide, rfl⟩, rfl, rfl⟩

/-- An object that refers to itself is dropped, and nine calls follow. -/
theorem garbage_reclaimed_loop : Reclaimed (system everyEight (LooksShallow everyEight)) 6
    ([.alloc 9 0, .alloc 9 0, .edgeAdd 6 6, .rootRemove 6].foldl (step everyEight) (fresh 8 1000))
    (List.replicate 9 (.rootAdd 7))
    ((List.replicate 9 (Barrier.rootAdd 7)).foldl (step everyEight)
      ([.alloc 9 0, .alloc 9 0, .edgeAdd 6 6, .rootRemove 6].foldl (step everyEight)
        (fresh 8 1000))) := by
  have hs := (System.Reachable.start (fresh_init everyEight _)).run (run_of_lookOk
    [.alloc 9 0, .alloc 9 0, .edgeAdd 6 6, .rootRemove 6] rfl
    (init_calm (fresh_init everyEight _)) (by decide +kernel))
  have hc := reachable_calm rfl hs
  exact garbage_reclaimed rfl hs (by decide +kernel)
    (hc.toAccounted.not_refers (by decide +kernel)) (run_of_lookOk _ rfl hc (by decide +kernel)) rfl

/-- Only an allocation makes a slot valid. -/
theorem valid_of_rootAdd {allowed : Client → Barrier → Prop} {k : ℕ}
    (hn : (system p allowed).next s (.rootAdd k) t) (h : t.gc.heap.valid i = true) :
    s.gc.heap.valid i = true := by
  obtain ⟨-, -, ⟨-, -, -, order, -, -, hheap⟩, -⟩ := hn
  rw [hheap] at h
  have hfold : ∀ (l : List ℕ) (u : Heap), (l.foldl Heap.freePayload u).valid i = true →
      u.valid i = true := fun l => by
    induction l with
    | nil => exact fun u h => h
    | cons j l ih => exact fun u h => Heap.valid_of_free (ih _ h)
  exact hfold order _ h

theorem not_reclaimed {allowed : Client → Barrier → Prop} (has : ∀ a ∈ as, ∃ k, a = .rootAdd k)
    (h : t.gc.heap.valid i = true) : ¬ Reclaimed (system p allowed) i s as t := by
  rintro ⟨bs, cs, u, rfl, -, hr, hu⟩
  have hback : ∀ {v w : Client} {cs : List Barrier}, (system p allowed).Run v cs w →
      (∀ a ∈ cs, ∃ k, a = .rootAdd k) → w.gc.heap.valid i = true → v.gc.heap.valid i = true := by
    intro v w cs hr
    induction hr with
    | nil => exact fun _ h => h
    | snoc _ hn ih =>
      intro hcs h
      obtain ⟨k, rfl⟩ := hcs _ (List.mem_append_right _ (List.mem_singleton_self _))
      exact ih (fun a ha => hcs a (List.mem_append_left _ ha)) (valid_of_rootAdd hn h)
  rw [hback hr (fun a ha => has a (List.mem_append_right _ ha)) h] at hu
  cases hu

/-- A policy that looks for cycles every sixteen calls. -/
def everySixteen : CyclePolicy := ⟨true, 64, 1000, 1000, 2 ^ 20, 2 ^ 20, 16, by decide⟩

/-- The calls that make garbage of a cycle, an object that it refers to, and a cycle that this one
refers to. -/
def chainOfCycles : List Barrier :=
  [.alloc 9 0, .alloc 18 0, .alloc 9 0, .alloc 9 0, .edgeAdd 6 6, .edgeAdd 6 5, .edgeAdd 5 4,
    .edgeAdd 4 4, .rootRemove 5, .rootRemove 4, .rootRemove 6]

/-- The look that frees the first cycle leaves the second to the next look. Adding a root makes
no garbage. -/
theorem second_cycle_stays : ¬ ∀ (p : CyclePolicy) (s t : Client) (as : List Barrier) (i : ℕ),
    p.adaptive = true → 0 < p.suspectThresholdMin → 0 < p.suspectThresholdMax →
    0 < p.heapTargetBytes → 0 < p.allocThresholdBytes → 0 < p.maxInterval →
    (system p fun _ _ => True).Reachable s → s.gc.heap.valid i = true → ¬ s.Refers i →
    (system p fun _ _ => True).Run s as t → (∀ a ∈ as, ∃ k, a = .rootAdd k) →
    as.length = p.maxInterval + 1 → Reclaimed (system p fun _ _ => True) i s as t := by
  intro hall
  have hrun : ∀ s as, checks everySixteen (fun _ _ => true) s as = true →
      (system everySixteen fun _ _ => True).Run s as (as.foldl (step everySixteen) s) :=
    fun s as hc => run_of_checks (P := fun _ => True) trivial hc (fun _ _ _ _ _ => trivial)
      fun _ _ _ _ _ => trivial
  have hs := (System.Reachable.start (fresh_init everySixteen fun _ _ => True)).run
    (hrun _ chainOfCycles (by decide +kernel))
  have hc := reachable_calm (p := everySixteen) rfl <|
    (System.Reachable.start (fresh_init everySixteen _)).run (run_of_lookOk
      chainOfCycles rfl (init_calm (fresh_init everySixteen _)) (by decide +kernel))
  have hadds : ∀ a ∈ List.replicate 17 (Barrier.rootAdd 7), ∃ k, a = .rootAdd k := fun a ha =>
    ⟨7, List.eq_of_mem_replicate ha⟩
  refine not_reclaimed hadds (i := 4) (by decide +kernel) (hall everySixteen _ _ _ 4 rfl (by decide)
    (by decide) (by decide) (by decide) (by decide) hs (by decide +kernel)
    (hc.toAccounted.not_refers (by decide +kernel)) (hrun _ _ (by decide +kernel)) hadds rfl)

end Reclaim

end Client

end Loxis.Vm
