import Loxis.Aarc.Process

/-! # Engines drained after every message

A single-owner engine sweeps its candidates after every message and looks for
cycles only now and then. One look collects the cycles and then sweeps once more,
which leaves garbage behind exactly when the last sweep orphans a further cycle.
-/

namespace Loxis.Aarc

open Function
open Loxis.Graph
open Relation (TransGen)

namespace AarcEngine

variable {e e' : AarcEngine} {i j : ℕ} {F : Finset ℕ} {m : GCMessage}

section Count

/-- The number of active suspects is the number of suspect marks. -/
def Counted (e : AarcEngine) : Prop :=
  ∃ S : Finset ℕ, (∀ i, i ∈ S ↔ e.suspectMark i = true) ∧ e.activeSuspects = S.card

theorem Counted.of_eq (h : e.Counted) (hm : e'.suspectMark = e.suspectMark)
    (ha : e'.activeSuspects = e.activeSuspects) : e'.Counted := by
  obtain ⟨S, hS, hc⟩ := h
  exact ⟨S, by rw [hm]; exact hS, by rw [ha]; exact hc⟩

theorem Counted.setTab (h : e.Counted) (t : RefTable) : (e.setTab t).Counted := h.of_eq rfl rfl

theorem Counted.setSuspect (h : e.Counted) (i : ℕ) : (e.setSuspect i).Counted := by
  unfold AarcEngine.setSuspect
  split
  · exact h
  · next hi =>
    obtain ⟨S, hS, hc⟩ := h
    refine ⟨insert i S, fun j => ?_, ?_⟩
    · simp only [Finset.mem_insert, update_apply, hS]
      split <;> simp [*]
    · rw [Finset.card_insert_of_notMem (by rw [hS]; exact hi), hc]

theorem Counted.clearSuspect (h : e.Counted) (i : ℕ) : (e.clearSuspect i).Counted := by
  unfold AarcEngine.clearSuspect
  split
  · next hi =>
    obtain ⟨S, hS, hc⟩ := h
    refine ⟨S.erase i, fun j => ?_, ?_⟩
    · simp only [Finset.mem_erase, update_apply, hS]
      split <;> simp [*]
    · rw [Finset.card_erase_of_mem ((hS i).mpr hi), hc]
  · exact h

theorem Counted.markZero (h : e.Counted) (i : ℕ) : (e.markZero i).Counted := by
  unfold AarcEngine.markZero
  split
  · exact h
  · exact h.of_eq rfl rfl

theorem Counted.mark (h : e.Counted) (i : ℕ) : (e.mark i).Counted := by
  unfold AarcEngine.mark
  split
  · exact h.markZero i
  · split
    · exact h.setSuspect i
    · exact h

theorem Counted.process (h : e.Counted) (m : GCMessage) : (e.process m).Counted := by
  unfold AarcEngine.process
  split
  · split
    · exact h.setTab _
    · exact h.of_eq rfl rfl
  · split
    · exact h.of_eq rfl rfl
    · simp only
      split
      · exact h.of_eq rfl rfl
      · exact (h.setTab _).mark _
  · split
    · exact h.of_eq rfl rfl
    · exact h.mark _
  · split
    · exact h.of_eq rfl rfl
    · exact h.setTab _
  · split
    · exact h.of_eq rfl rfl
    · simp only
      split
      · exact h.of_eq rfl rfl
      · split
        · exact h.of_eq rfl rfl
        · split
          · exact h.of_eq rfl rfl
          · exact ((h.setTab _).setTab _).mark _
  · exact h

theorem Counted.releaseOuts (h : e.Counted) (p : ObjHandle → Bool) (ts : List ObjHandle) :
    (e.releaseOuts p ts).Counted := by
  unfold AarcEngine.releaseOuts
  induction ts generalizing e with
  | nil => exact h
  | cons t ts ih =>
    rw [List.foldl_cons]
    refine ih ?_
    split
    · exact (h.setTab _).mark _
    · exact h

theorem Counted.reclaimCell (h : e.Counted) (i : ℕ) : (e.reclaimCell i).Counted :=
  ((h.clearSuspect i).releaseOuts _ _).of_eq rfl rfl

theorem Counted.sweepZero (h : e.Counted) : e.sweepZero.Counted := by
  refine iterUntil_inv (P := Counted) (fun e h => ?_) _ h
  unfold sweepZeroTurn
  split
  · exact h
  · next i rest _ =>
    have h' : Counted { e with zeroStack := rest, zeroMark := update e.zeroMark i false } :=
      h.of_eq rfl rfl
    simp only
    split
    · exact h'
    · split
      · exact h'
      · exact h'.reclaimCell i

theorem Counted.foldl {α : Type*} {f : AarcEngine → α → AarcEngine}
    (hf : ∀ e a, e.Counted → (f e a).Counted) (l : List α) (h : e.Counted) :
    (l.foldl f e).Counted := by
  induction l generalizing e with
  | nil => exact h
  | cons a l ih => exact ih (hf e a h)

theorem Counted.reclaimCycleComponent (h : e.Counted) (s : ℕ) (ms : List ℕ) :
    (e.reclaimCycleComponent s ms).Counted := by
  refine Counted.foldl (fun e i h => ?_) ms (Counted.foldl (fun e i h => ?_) ms h)
  · exact ((h.setTab _).clearSuspect i).of_eq rfl rfl
  · exact (h.releaseOuts _ _).of_eq rfl rfl

theorem Counted.collectCycles (h : e.Counted) : e.collectCycles.Counted := by
  refine iterUntil_inv (P := Counted) (fun e h => ?_) _ h
  unfold collectCyclePass
  simp only
  split
  · exact h.of_eq rfl rfl
  · split
    · exact h.of_eq rfl rfl
    · refine Counted.of_eq (e := AarcEngine.reclaimComponents _ _) ?_ rfl rfl
      refine Counted.foldl (fun e c h => h.reclaimCycleComponent _ _) _ ?_
      exact Counted.foldl (fun e i h => h.clearSuspect i) _ (h.of_eq rfl rfl)

/-- Without active suspects no slot is marked. -/
theorem Counted.none (h : e.Counted) (h0 : e.activeSuspects = 0) (i : ℕ) :
    e.suspectMark i = false := by
  obtain ⟨S, hS, hc⟩ := h
  rw [h0, eq_comm, Finset.card_eq_zero] at hc
  refine Bool.eq_false_iff.mpr fun hi => Finset.notMem_empty i ?_
  rw [← hc]
  exact (hS i).mpr hi

end Count

section Look

/-- Every live cell is rooted from above or carries a mark above it. -/
def AllWatched (e : AarcEngine) : Prop := ∀ i, e.pool.isLiveAt i = true → e.marks.Watched i

theorem AllWatched.survives_iff (h : e.AllWatched) (hs : e.tab.Sound e.pool)
    (hi : e.pool.isLiveAt i = true) : e.marks.Survives i ↔ e.marks.Rooted i :=
  Marked.survives_iff_rooted fun a hai => by
    rcases hai.head_cases with rfl | ⟨b, hab, -⟩
    · exact h a hi
    · exact h a (hs.edge_live hab).1

/-- Collection frees a set that nothing outside refers to. -/
theorem Collected.coclosed (h : Collected e e' F) {a b : ℕ} (hb : b ∈ F) (hab : e.tab.Edge a b) :
    a ∈ F := by
  by_contra ha
  have hab' := (h.freed.edge_iff h.inv.sound a b).mpr ⟨hab, ha⟩
  have := (h.inv.sound.edge_live hab').2
  rw [h.freed.isLiveAt, Bool.and_eq_true, decide_eq_true_eq] at this
  exact this.2 hb

theorem Collected.not_rooted (h : Collected e e' F) (hi : i ∈ F) : ¬ e.marks.Rooted i := fun hr =>
  ((h.survives i (h.freed.was i hi)).mp hr.survives).1 hi

/-- A collection keeps what is rooted as it is. -/
theorem Collected.rooted_iff (h : Collected e e' F) :
    e'.marks.Rooted i ↔ e.marks.Rooted i := by
  have hs' := h.inv.sound
  have hout : ∀ x, e.marks.Rooted x → x ∉ F := fun x hx hxF => h.not_rooted hxF hx
  constructor
  · rintro ⟨a, hai, hr⟩
    have hr : 0 < e'.tab.root a := hr
    have ha : a ∉ F := fun haF => by
      rw [hs'.dead_root a (by simp [h.freed.isLiveAt, haF])] at hr
      exact lt_irrefl _ hr
    refine ⟨a, hai.mono fun x y hxy => ((h.freed.edge_iff hs' x y).mp hxy).1, ?_⟩
    rw [h.freed.root a ha] at hr
    exact hr
  · rintro ⟨a, hai, hr⟩
    have hra : e.marks.Rooted a := ⟨a, .refl, hr⟩
    refine ⟨a, hai.transfer (P := e.marks.Rooted) (fun x y hx _ hxy => ?_)
      (fun x y hx hxy => hx.of_reach (.single hxy)) hra, ?_⟩
    · exact (h.freed.edge_iff hs' x y).mpr ⟨hxy, hout x hx⟩
    · have hr : 0 < e.tab.root a := hr
      rw [← h.freed.root a (hout a hra)] at hr
      exact hr

theorem Collected.allWatched (h : Collected e e' F) (hs : e.tab.Sound e.pool)
    (hw : e.AllWatched) : e'.AllWatched := by
  intro i hi
  obtain ⟨hl, hiF⟩ := h.freed.live_off hi
  by_cases hr : e.marks.Rooted i
  · obtain ⟨a, hai, hra⟩ := h.rooted_iff.mpr hr
    exact ⟨a, hai, Or.inl hra⟩
  · have hns : ¬ e'.marks.Survives i := fun hs' =>
      hr ((hw.survives_iff hs hl).mp ((h.survives i hl).mpr ⟨hiF, hs'⟩))
    obtain ⟨-, b, hbi, hb⟩ := Marked.not_survives.mp hns i .refl
    exact ⟨b, hbi, Or.inr hb⟩

/-- Among the unrooted cells, what lies between two cycles lies on a cycle itself. -/
def Shallow (e : AarcEngine) : Prop :=
  ∀ x y z, ¬ e.marks.Rooted z → TransGen e.tab.Edge x x → Reach e.tab.Edge x y →
    Reach e.tab.Edge y z → TransGen e.tab.Edge z z → TransGen e.tab.Edge y y

/-- A referenced unrooted cell whose ancestors are its descendants lies on a cycle. -/
theorem cyclic_of_source (hs : e.tab.Sound e.pool) (hpos : 0 < e.tab.total i)
    (hr : ¬ 0 < e.tab.root i) (hsrc : ∀ w, Reach e.tab.Edge w i → Reach e.tab.Edge i w) :
    TransGen e.tab.Edge i i := by
  have he : 0 < e.tab.edge i := by
    unfold RefTable.total at hpos
    omega
  obtain ⟨a, hai⟩ := hs.edge_pos_iff.mp he
  exact TransGen.tail' (hsrc a (.single hai)) hai

/-- One look at a drained engine frees all garbage, where no unrooted cell on no cycle leads from
a cycle to another. -/
theorem look_exact (h : e.Inv) (hz : e.zeroStack = []) (hw : e.AllWatched) (hsh : e.Shallow) :
    ∃ F, Collected e e.collectCycles.sweepZero F ∧ e.collectCycles.sweepZero.zeroStack = [] ∧
      ∀ i, e.collectCycles.sweepZero.pool.isLiveAt i = true → e.marks.Rooted i := by
  obtain ⟨F₁, h₁, -, hss, hcyc⟩ := collectCycles_spec h (.of_nil hz)
  obtain ⟨F₂, h₂, hz₂, -⟩ := sweepZero_spec h₁.inv
  set e₁ := e.collectCycles
  set e₂ := e₁.sweepZero
  have h₁₂ := h₁.trans h₂
  have hup₁ : ∀ {x y}, Reach e₁.tab.Edge x y → Reach e.tab.Edge x y := fun hxy =>
    hxy.mono fun a b hab => ((h₁.freed.edge_iff h₁.inv.sound a b).mp hab).1
  have hup₂ : ∀ x y, e₂.tab.Edge x y → e₁.tab.Edge x y := fun x y hxy =>
    ((h₂.freed.edge_iff h₂.inv.sound x y).mp hxy).1
  refine ⟨F₁ ∪ F₂, h₁₂, hz₂, fun c hc => by_contra fun hrc => ?_⟩
  obtain ⟨hcl, hcF⟩ := h₁₂.freed.live_off hc
  -- a source above a leftover cell is a cycle that carries a mark
  have hns : ¬ e₂.marks.Survives c := fun hsv =>
    hrc ((hw.survives_iff h.sound hcl).mp ((h₁₂.survives c hcl).mpr ⟨hcF, hsv⟩))
  obtain ⟨u, -, huc, hsrc⟩ := exists_source (r := e₂.tab.Edge) (Finset.range e₂.pool.capacity)
    (fun a b hab => h₂.inv.sound.edge_lt hab)
    (Finset.mem_range.mpr (CellPool.isLiveAt_iff.mp hc).1)
  obtain ⟨-, b, hbu, hb⟩ := Marked.not_survives.mp hns u huc
  have hb₂ : 0 < e₂.tab.total b := by
    rcases hb with ⟨hb, -⟩ | ⟨-, hb⟩
    · rw [hz₂] at hb
      cases hb
    · exact hb
  have hbc : Reach e₂.tab.Edge b c := hbu.trans huc
  have hrb : ¬ e.marks.Rooted b := fun hr =>
    hrc (hr.of_reach (hup₁ (hbc.mono hup₂)))
  have hbsrc : ∀ w, Reach e₂.tab.Edge w b → Reach e₂.tab.Edge b w := fun w hwb =>
    hbu.trans (hsrc w (hwb.trans hbu))
  have hbb := cyclic_of_source h₂.inv.sound hb₂ (fun hr => hrb (h₁₂.rooted_iff.mp ⟨b, .refl, hr⟩))
    hbsrc
  have hbb₁ : TransGen e₁.tab.Edge b b := TransGen.mono hup₂ _ _ hbb
  have hbb₀ : TransGen e.tab.Edge b b :=
    TransGen.mono (fun x y hxy => ((h₁.freed.edge_iff h₁.inv.sound x y).mp hxy).1) _ _ hbb₁
  -- only a candidate that the cycle collection left can have led the last sweep to it
  have hlive₁ : ∀ x, e₂.pool.isLiveAt x = true → e₁.pool.isLiveAt x = true := fun x hx =>
    (h₂.freed.live_off hx).1
  have hbl₂ : e₂.pool.isLiveAt b = true := by
    obtain ⟨y, hby, -⟩ := TransGen.head'_iff.mp hbb
    exact (h₂.inv.sound.edge_live hby).1
  have hw₁ := h₁.allWatched h.sound hw
  have hns₁ : ¬ e₁.marks.Survives b := fun hsv => hrb (h₁.rooted_iff.mp
    ((hw₁.survives_iff h₁.inv.sound (hlive₁ b hbl₂)).mp hsv))
  obtain ⟨-, z, hzb, hz'⟩ := Marked.not_survives.mp hns₁ b .refl
  have hz₁ : z ∈ e₁.zeroStack ∧ e₁.tab.total z = 0 := by
    rcases hz' with hz' | ⟨hm, hpos⟩
    · exact hz'
    · rcases h₁.inv.marksOk.suspect_listed z hm with hl | h0
      · rw [hss] at hl
        cases hl
      · omega
  -- the candidate lost its last reference to the collected cycles
  have hzl := h₁.freed.live_off (h₁.inv.marksOk.zero_live z hz₁.1)
  have hrz : ¬ e.marks.Rooted z := fun hr => hrb (hr.of_reach (hup₁ hzb))
  have hpreds : ∀ f, e.tab.Edge f z → f ∈ F₁ := fun f hfz => by_contra fun hf =>
    h₁.inv.sound.no_edge_of_total hz₁.2 ((h₁.freed.edge_iff h₁.inv.sound f z).mpr ⟨hfz, hf⟩)
  have hpos : e.tab.total z ≠ 0 := fun h0 => by
    obtain ⟨w, hwz, hw⟩ := hw z hzl.1
    rcases hwz.cases_tail with rfl | ⟨a, -, haz⟩
    · rcases hw with hr | ⟨hzs, -⟩ | ⟨-, hp⟩
      · exact hrz ⟨z, .refl, hr⟩
      · rw [hz] at hzs
        cases hzs
      · omega
    · exact h.sound.no_edge_of_total h0 haz
  have hedge : 0 < e.tab.edge z := by
    have h0 := h.sound.root_nonneg z
    have h1 := h.sound.edge_nonneg z
    have hr0 : ¬ 0 < e.tab.root z := fun hr => hrz ⟨z, .refl, hr⟩
    unfold RefTable.total at hpos
    omega
  obtain ⟨f, hfz⟩ := h.sound.edge_pos_iff.mp hedge
  have hzz := hsh f z b hrb (hcyc f (hpreds f hfz)) (.single hfz) (hup₁ hzb) hbb₀
  obtain ⟨p, hzp, hpz⟩ := TransGen.tail'_iff.mp hzz
  exact hzl.2 (Reach.mem_of_coclosed (P := (· ∈ F₁)) (fun a b hb hab => h₁.coclosed hb hab)
    hzp (hpreds p hpz))

end Look

section Drain

/-- What holds of an engine that is drained after every message. -/
structure Drained (e : AarcEngine) : Prop extends Inv e where
  zeroStack : e.zeroStack = []
  counted : e.Counted

theorem Drained.ready (h : e.Drained) : e.Ready where
  toInv := h.toInv
  listed i hi := by
    rcases h.marksOk.suspect_listed i hi with hl | h0
    · exact hl
    · have := h.marksOk.suspect_zero i hi h0
      rw [h.zeroStack] at this
      cases this

/-- Without active suspects nothing of a drained engine is garbage. -/
theorem Drained.rooted (h : e.Drained) (hw : e.AllWatched) (h0 : e.activeSuspects = 0)
    (hi : e.pool.isLiveAt i = true) : e.marks.Rooted i := by
  obtain ⟨w, hwi, hr | ⟨hz, -⟩ | ⟨hm, -⟩⟩ := hw i hi
  · exact ⟨w, hwi, hr⟩
  · rw [h.zeroStack] at hz
    cases hz
  · rw [h.counted.none h0] at hm
    cases hm

/-- A pool in which everything live is still live will do as well. -/
theorem Drained.setPool (h : e.Drained) {p : CellPool}
    (hl : ∀ i, e.pool.isLiveAt i = true → p.isLiveAt i = true ∧ p.gen i = e.pool.gen i) :
    (e.setPool p).Drained := by
  have hv : ∀ x, e.pool.valid x = true → p.valid x = true := fun x hx => by
    rw [CellPool.valid_iff] at hx ⊢
    rw [(hl _ hx.1).2]
    exact ⟨(hl _ hx.1).1, hx.2⟩
  have hs : e.tab.Sound p :=
    { h.sound with
      dead_root := fun i hi => h.sound.dead_root i <| Bool.eq_false_iff.mpr fun hle => by
        rw [(hl i hle).1] at hi
        cases hi
      valid_src := fun i r hr => hv _ (h.sound.valid_src i r hr)
      valid_dst := fun i r hr => hv _ (h.sound.valid_dst i r hr) }
  have hm : (e.setPool p).MarksOk :=
    { h.marksOk with
      zero_live := fun i hi => (hl i (h.marksOk.zero_live i hi)).1
      suspect_live := fun i hi => (hl i (h.marksOk.suspect_live i hi)).1 }
  exact ⟨⟨hs, hm, h.clean⟩, h.zeroStack, h.counted⟩

end Drain

end AarcEngine

end Loxis.Aarc
