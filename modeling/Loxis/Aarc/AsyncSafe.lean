import Loxis.Aarc.AsyncInv

/-! # Safety of asynchronous reclamation

As long as roots and edges are taken on reachable cells and an edge is only removed
where there is one, the worker frees no cell that was reachable at the cut. The cells
reachable now are those that were reachable at the cut or are newer than it.
-/

namespace Loxis.Aarc

open Function Loxis.Graph

namespace Scene

/-- An edge stands between two cells, by the operations performed so far. -/
def Refers (s : Scene) (x y : ObjHandle) : Prop := 0 < s.edges ⟨x, y⟩

/-- The cell is reachable from the root bag of some mutator. -/
def Held (s : Scene) (h : ObjHandle) : Prop :=
  ∃ i, ∃ b ∈ (s.muts i).bag, Reach s.Refers b h

/-- The cell is reachable from the root bag of a mutator that is not closing. -/
def Reaches (s : Scene) (h : ObjHandle) : Prop :=
  ∃ i, (s.muts i).owed = none ∧ ∃ b ∈ (s.muts i).bag, Reach s.Refers b h

/-- The edges that the published messages add up to are those of the operations. -/
def Tidy (s : Scene) : Prop :=
  ∀ r, (s.edges r : ℤ) = ∑ i ∈ Finset.range s.slots, edgeGain (s.chan i).published r

end Scene

namespace Async

/-- A mutator takes its own root while another one holds the cell. -/
def Handoff (s : Async) : Action → Prop
  | .rootAdd i h => ∃ j, j ≠ i ∧ h ∈ (s.muts j).bag
  | _ => True

/-- Roots are taken on reachable cells. -/
def RootsReachable (s : Async) : Action → Prop
  | .rootAdd _ h => s.toScene.Reaches h
  | _ => True

/-- Edges are added to reachable cells. -/
def EdgesReachable (s : Async) : Action → Prop
  | .edgeAdd _ _ b => s.toScene.Reaches b
  | _ => True

/-- Edges are removed only where they are. -/
def EdgesThere (s : Async) : Action → Prop
  | .edgeRemove _ a b => 0 < s.edges ⟨a, b⟩
  | _ => True

def Orderly (s : Async) (a : Action) : Prop :=
  s.RootsReachable a ∧ s.EdgesReachable a ∧ s.EdgesThere a

end Async

namespace Scene

variable {c : Config} {s t : Scene} {h x y : ObjHandle} {i k : ℕ} {a : Async.Action}

/-- What holds of the open bags and follows the edges holds of every reachable cell. -/
theorem Reaches.induct {P : ObjHandle → Prop} (h : t.Reaches x)
    (hb : ∀ i, (t.muts i).owed = none → ∀ b ∈ (t.muts i).bag, P b)
    (he : ∀ x y, P x → t.Refers x y → P y) : P x := by
  obtain ⟨i, ho, b, hbag, hr⟩ := h
  exact hr.mem_of_closed he (hb i ho b hbag)

theorem Reaches.tail (h : s.Reaches x) (he : s.Refers x y) : s.Reaches y :=
  let ⟨i, ho, b, hb, hr⟩ := h
  ⟨i, ho, b, hb, hr.tail he⟩

theorem reaches_of_bag (ho : (s.muts i).owed = none) (hb : h ∈ (s.muts i).bag) : s.Reaches h :=
  ⟨i, ho, h, hb, .refl⟩

/-- Fewer roots and edges reach less. -/
theorem Reaches.mono (hx : t.Reaches x)
    (hb : ∀ i, (t.muts i).owed = none → ∀ b ∈ (t.muts i).bag, s.Reaches b)
    (he : ∀ x y, t.Refers x y → s.Refers x y) : s.Reaches x :=
  hx.induct hb fun _ _ hx hxy => hx.tail (he _ _ hxy)

section Tidy

theorem init_tidy (capacity : ℕ) : (init capacity).Tidy := fun r => by simp [init]

/-- A step that touches one channel and counts its edges. -/
theorem Tidy.change {d : Channel} (h : s.Tidy) (hi : i < s.slots) (hn : t.slots = s.slots)
    (hc : t.chan = update s.chan i d)
    (he : ∀ r, (t.edges r : ℤ) =
      s.edges r + (edgeGain d.published r - edgeGain (s.chan i).published r)) : t.Tidy := by
  intro r
  rw [he r, h r, hn, hc, sum_update hi (fun d : Channel => edgeGain d.published r)]

theorem Tidy.submit {m : GCMessage} (h : s.Tidy) (hi : i < s.slots) (hn : t.slots = s.slots)
    (hc : t.chan = update s.chan i ((s.chan i).publish m)) (he : t.edges = m.edgesAfter s.edges)
    (hm : m.op = .edgeRemove → 0 < s.edges ⟨m.a, m.b⟩) : t.Tidy := by
  refine h.change hi hn hc fun r => ?_
  rw [he, GCMessage.edgesAfter_eq hm, Channel.published_publish, edgeGain_append,
    edgeGain_singleton]
  omega

/-- Whatever is removed is there, so the edges stay those of the messages. -/
theorem Tidy.act (h : s.Tidy) (hs : s.Inv) (ha : s.act c a = some t) (hw : a ≠ .work)
    (hthere : ∀ i x y, a = .edgeRemove i x y → 0 < s.edges ⟨x, y⟩) : t.Tidy := by
  cases a with
  | join o =>
    obtain rfl := Option.some.inj ha
    intro r
    have h0 := hs.ok.unused s.slots le_rfl
    simp only [World.join]
    rw [Finset.sum_range_succ, h0, h r]
    simp [Channel.published]
  | alloc i k =>
    simp only [Scene.act] at ha
    split at ha
    · next hr =>
      obtain ⟨⟨x, p⟩, -, rfl⟩ := Option.map_eq_some_iff.mp ha
      exact h.submit hr.1.1 rfl rfl rfl (by simp)
    · cases ha
  | rootAdd i x =>
    simp only [Scene.act, Option.ite_none_right_eq_some] at ha
    obtain ⟨⟨hr, -⟩, ⟨⟩⟩ := ha
    exact h.submit hr.1.1 rfl rfl rfl (by simp)
  | rootRemove i x =>
    simp only [Scene.act, Option.ite_none_right_eq_some] at ha
    obtain ⟨⟨hr, -⟩, ⟨⟩⟩ := ha
    exact h.submit hr.1.1 rfl rfl rfl (by simp)
  | edgeAdd i x y =>
    simp only [Scene.act, Option.ite_none_right_eq_some] at ha
    obtain ⟨⟨hr, -⟩, ⟨⟩⟩ := ha
    exact h.submit hr.1.1 rfl rfl rfl (by simp)
  | edgeRemove i x y =>
    simp only [Scene.act, Option.ite_none_right_eq_some] at ha
    obtain ⟨⟨hr, -⟩, ⟨⟩⟩ := ha
    exact h.submit hr.1.1 rfl rfl rfl fun _ => hthere i x y rfl
  | beginFlush i =>
    simp only [Scene.act, Option.ite_none_right_eq_some] at ha
    obtain ⟨⟨hi, -⟩, ⟨⟩⟩ := ha
    refine h.change hi rfl rfl fun r => ?_
    have : edgeGain ((s.chan i).beginFlush c.fold).published r =
        edgeGain (s.chan i).published r := by
      cases hf : c.fold with
      | false => rfl
      | true =>
        simp only [Channel.beginFlush, Channel.published, if_true, edgeGain_append,
          edgeGain_folded]
    rw [this, sub_self, add_zero]
    rfl
  | commit i n =>
    simp only [Scene.act, Option.ite_none_right_eq_some] at ha
    obtain ⟨⟨hi, -⟩, ⟨⟩⟩ := ha
    refine h.change hi rfl rfl fun r => ?_
    rw [Channel.published_commit, sub_self, add_zero]
    rfl
  | endFlush i =>
    simp only [Scene.act, Option.ite_none_right_eq_some] at ha
    obtain ⟨⟨hi, -⟩, ⟨⟩⟩ := ha
    refine h.change hi rfl rfl fun r => ?_
    rw [Channel.published_endFlush, sub_self, add_zero]
    rfl
  | close i order =>
    simp only [Scene.act, Option.ite_none_right_eq_some] at ha
    obtain ⟨-, ⟨⟩⟩ := ha
    exact h
  | closeRoot i =>
    simp only [Scene.act] at ha
    split at ha
    · simp only [Option.ite_none_right_eq_some] at ha
      obtain ⟨hr, ⟨⟩⟩ := ha
      exact h.submit hr.1 rfl rfl rfl (by simp)
    · cases ha
  | closed i =>
    simp only [Scene.act, Option.ite_none_right_eq_some] at ha
    obtain ⟨-, ⟨⟩⟩ := ha
    exact h
  | work => exact absurd rfl hw

/-- An edge joins handles that were given out. -/
theorem Tidy.past (h : s.Tidy) (hs : s.Inv) (hxy : s.Refers x y) : s.eng.pool.Past x := by
  by_contra hno
  have hsum := h ⟨x, y⟩
  rw [Finset.sum_eq_zero fun i _ => AarcEngine.edgeGain_of_not_named fun m hm =>
    Or.inl fun hn => hno (hs.past i m hm x hn)] at hsum
  unfold Refers at hxy
  omega

end Tidy

section Reaches

/-- Taking roots and edges on reachable cells makes nothing reachable but a new cell. -/
theorem reaches_act (hs : s.Inv) (ht : s.Tidy) (ha : s.act c a = some t) (hw : a ≠ .work)
    (hroot : ∀ i x, a = .rootAdd i x → s.Reaches x)
    (hedge : ∀ i x y, a = .edgeAdd i x y → s.Reaches y) (hx : t.Reaches x) :
    s.Reaches x ∨ ¬ s.eng.pool.Past x ∧ t.eng.live x = true := by
  have hself : ∀ {u : Scene}, u.muts = s.muts → u.edges = s.edges → u.Reaches x → s.Reaches x := by
    intro u hm he hu
    refine hu.mono (fun i ho b hb => ?_) fun x y hxy => ?_
    · rw [hm] at ho hb
      exact reaches_of_bag ho hb
    · unfold Refers at *
      rwa [he] at hxy
  cases a with
  | join o =>
    obtain rfl := Option.some.inj ha
    refine Or.inl (hx.mono (fun i ho b hb => ?_) fun _ _ => id)
    by_cases hi : i = s.slots
    · subst hi
      simp at hb
    · simp only [update_of_ne hi] at ho hb
      exact reaches_of_bag ho hb
  | alloc i k =>
    simp only [Scene.act] at ha
    split at ha
    · next hr =>
      obtain ⟨⟨z, p⟩, hal, rfl⟩ := Option.map_eq_some_iff.mp ha
      have hnew := AarcEngine.not_past_alloc hal
      have hlive : p.valid z = true :=
        (AarcEngine.valid_alloc hs.follows.pool hal z).mpr (Or.inr rfl)
      have hcase : s.Reaches x ∨ x = z := by
        refine hx.induct (P := fun x => s.Reaches x ∨ x = z) (fun j ho b hb => ?_) fun u v hu huv => ?_
        · by_cases hj : j = i
          · subst hj
            simp only [addBag, setMut, update_self, submit] at ho hb
            rcases List.mem_cons.mp hb with rfl | hb
            · exact Or.inr rfl
            · exact Or.inl (reaches_of_bag ho hb)
          · simp only [addBag, setMut, update_of_ne hj, submit] at ho hb
            exact Or.inl (reaches_of_bag ho hb)
        · have huv : s.Refers u v := huv
          rcases hu with hu | rfl
          · exact Or.inl (hu.tail huv)
          · exact absurd (ht.past hs huv) hnew
      rcases hcase with hx | rfl
      · exact Or.inl hx
      · exact Or.inr ⟨hnew, hlive⟩
    · cases ha
  | rootAdd i z =>
    simp only [Scene.act, Option.ite_none_right_eq_some] at ha
    obtain ⟨⟨hr, -⟩, ⟨⟩⟩ := ha
    refine Or.inl (hx.mono (fun j ho b hb => ?_) fun _ _ => id)
    by_cases hj : j = i
    · subst hj
      simp only [addBag, setMut, update_self, submit] at ho hb
      rcases List.mem_cons.mp hb with rfl | hb
      · exact hroot j b rfl
      · exact reaches_of_bag ho hb
    · simp only [addBag, setMut, update_of_ne hj, submit] at ho hb
      exact reaches_of_bag ho hb
  | rootRemove i z =>
    simp only [Scene.act, Option.ite_none_right_eq_some] at ha
    obtain ⟨⟨hr, -⟩, ⟨⟩⟩ := ha
    refine Or.inl (hx.mono (fun j ho b hb => ?_) fun _ _ => id)
    by_cases hj : j = i
    · subst hj
      simp only [removeBag, setMut, update_self, submit] at ho hb
      exact reaches_of_bag ho (List.mem_of_mem_erase hb)
    · simp only [removeBag, setMut, update_of_ne hj, submit] at ho hb
      exact reaches_of_bag ho hb
  | edgeAdd i z w =>
    simp only [Scene.act, Option.ite_none_right_eq_some] at ha
    obtain ⟨-, ⟨⟩⟩ := ha
    refine Or.inl (hx.induct (fun j ho b hb => reaches_of_bag ho hb) fun u v hu huv => ?_)
    by_cases huv' : (⟨u, v⟩ : EdgeRec) = ⟨z, w⟩
    · obtain ⟨rfl, rfl⟩ := EdgeRec.mk.inj huv'
      exact hedge i u v rfl
    · refine hu.tail ?_
      simpa [Refers, submit, GCMessage.edgesAfter, huv'] using huv
  | edgeRemove i z w =>
    simp only [Scene.act, Option.ite_none_right_eq_some] at ha
    obtain ⟨-, ⟨⟩⟩ := ha
    refine Or.inl (hx.mono (fun j ho b hb => reaches_of_bag ho hb) fun u v huv => ?_)
    simp only [Refers, submit, GCMessage.edgesAfter, update_apply] at huv ⊢
    split at huv
    · next he =>
      rw [he]
      omega
    · exact huv
  | beginFlush i | commit i n | endFlush i =>
    simp only [Scene.act, Option.ite_none_right_eq_some] at ha
    obtain ⟨-, ⟨⟩⟩ := ha
    exact Or.inl (hself rfl rfl hx)
  | close i order =>
    simp only [Scene.act, Option.ite_none_right_eq_some] at ha
    obtain ⟨-, ⟨⟩⟩ := ha
    refine Or.inl (hx.mono (fun j ho b hb => ?_) fun _ _ => id)
    by_cases hj : j = i
    · subst hj
      simp [setMut] at ho
    · simp only [setMut, update_of_ne hj] at ho hb
      exact reaches_of_bag ho hb
  | closeRoot i =>
    simp only [Scene.act] at ha
    split at ha
    · simp only [Option.ite_none_right_eq_some] at ha
      obtain ⟨-, ⟨⟩⟩ := ha
      refine Or.inl (hx.mono (fun j ho b hb => ?_) fun _ _ => id)
      by_cases hj : j = i
      · subst hj
        simp [setMut] at ho
      · simp only [setMut, update_of_ne hj, submit] at ho hb
        exact reaches_of_bag ho hb
    · cases ha
  | closed i =>
    simp only [Scene.act, Option.ite_none_right_eq_some] at ha
    obtain ⟨-, ⟨⟩⟩ := ha
    refine Or.inl (hx.mono (fun j ho b hb => ?_) fun _ _ => id)
    by_cases hj : j = i
    · subst hj
      simp [setMut] at hb
    · simp only [setMut, update_of_ne hj] at ho hb
      exact reaches_of_bag ho hb
  | work => exact absurd rfl hw

end Reaches

end Scene

namespace Async

variable {c : Config} {s t : Async} {a : Action} {x : ObjHandle} {capacity : ℕ}

/-- What orderly runs keep. -/
structure Safe (s : Async) : Prop where
  inv : s.Inv
  tidy : s.toScene.Tidy
  cutTidy : s.cut.Tidy
  live : ∀ x, s.toScene.Reaches x → s.eng.live x = true
  cutLive : ∀ x, s.cut.Reaches x → s.cut.eng.live x = true
  back : s.round.phase.AfterCut → ∀ x, s.toScene.Reaches x →
    s.cut.Reaches x ∨ ¬ s.cut.eng.pool.Past x

/-- At a stable sweep the messages processed are those published at the cut. -/
theorem sum_popped (h : s.Inv) (hp : s.round.phase = .reclaim) (hs : s.round.stable = true)
    (f : List GCMessage → ℤ) (hf : f [] = 0) :
    ∑ i ∈ Finset.range s.slots, f (s.chan i).popped =
      ∑ i ∈ Finset.range s.cut.slots, f (s.cut.chan i).published := by
  have hle : s.cut.slots ≤ s.slots := by
    have := h.round
    simp only [World.RoundOk, hp] at this
    exact this.1.slots_le
  rw [← Finset.eventually_constant_sum (fun i hi => ?_) hle]
  · exact Finset.sum_congr rfl fun i _ => by rw [h.round.popped_eq hp hs i]
  · rw [h.cut.ok.unused i hi]
    exact hf

/-- A cell reachable at the cut is rooted when the round sweeps. -/
theorem Safe.rooted (h : s.Safe) (hp : s.round.phase = .reclaim) (hs : s.round.stable = true)
    (hx : s.cut.Reaches x) : s.eng.live x = true ∧ s.eng.marks.Rooted x.index := by
  have hgrown := h.inv.grown (by rw [hp]; trivial)
  have hlive : ∀ y, s.cut.Reaches y → s.eng.live y = true := fun y hy =>
    hgrown.valid y (h.cutLive y hy)
  have hfol := h.inv.now.follows
  obtain ⟨i, ho, b, hb, hr⟩ := hx
  have hbreach : s.cut.Reaches b := Scene.reaches_of_bag ho hb
  -- the holder's root has been processed
  have hroot : 0 < s.eng.tab.root b.index := by
    rw [hfol.root b (hlive b hbreach)]
    have hseen : gain s.seen b = ∑ i ∈ Finset.range s.cut.slots, gain (s.cut.chan i).published b :=
      (h.inv.now.seen_sum (·.gain b)).trans (sum_popped h.inv hp hs (gain · b) rfl)
    have hcount : 0 < gain (s.cut.chan i).published b := by
      rw [h.inv.cut.holds i b, Scene.Holds, ho, Option.getD_none]
      exact_mod_cast List.count_pos_iff.mpr hb
    have hi : i < s.cut.slots := by
      by_contra hi
      rw [h.inv.cut.ok.unused i (not_lt.mp hi)] at hcount
      exact lt_irrefl _ hcount
    rw [hseen]
    refine hcount.trans_le (Finset.single_le_sum (f := fun i => gain (s.cut.chan i).published b)
      (fun j _ => h.inv.cut.backed j _ _ List.prefix_rfl) (Finset.mem_range.mpr hi))
  have hedge : ∀ u v, s.cut.Reaches u → s.cut.Refers u v → s.eng.tab.Edge u.index v.index := by
    intro u v hu huv
    have hv := hu.tail huv
    have hseen : edgeGain s.seen ⟨u, v⟩ =
        ∑ i ∈ Finset.range s.cut.slots, edgeGain (s.cut.chan i).published ⟨u, v⟩ :=
      (h.inv.now.seen_sum (·.edgeGain ⟨u, v⟩)).trans
        (sum_popped h.inv hp hs (edgeGain · ⟨u, v⟩) rfl)
    have hle := hfol.edges ⟨u, v⟩ (hlive u hu) (hlive v hv)
    rw [hseen, ← h.cutTidy ⟨u, v⟩] at hle
    have hpos : 0 < s.cut.edges ⟨u, v⟩ := huv
    exact ⟨⟨u, v⟩, List.count_pos_iff.mp (by exact_mod_cast (by omega : (0 : ℤ) < _).trans_le hle), rfl⟩
  have hpath : ∀ y, Reach s.cut.Refers b y →
      s.cut.Reaches y ∧ Reach s.eng.tab.Edge b.index y.index := by
    intro y hy
    induction hy with
    | refl => exact ⟨hbreach, .refl⟩
    | tail _ huv ih => exact ⟨ih.1.tail huv, ih.2.tail (hedge _ _ ih.1 huv)⟩
  exact ⟨hlive x (hpath x hr).1, b.index, (hpath x hr).2, hroot⟩

/-- A cell newer than the cut is untouched when the round sweeps. -/
theorem Safe.fresh (h : s.Safe) (hp : s.round.phase = .reclaim) (hs : s.round.stable = true)
    (hl : s.eng.live x = true) (hx : ¬ s.cut.eng.pool.Past x) : s.eng.marks.Survives x.index := by
  have hfol := h.inv.now.follows
  obtain ⟨h0, -, hz⟩ := hfol.clear x hl fun m hm hn => by
    obtain ⟨i, hi⟩ := (h.inv.now.seen_mem m).mp hm
    rw [h.inv.round.popped_eq hp hs i] at hi
    exact hx (h.inv.cut.past i m hi x hn)
  exact AarcEngine.survives_of_clear hfol.ready.sound h0 hz

/-- A sweep keeps every cell that was reachable at the cut, or is newer. -/
theorem Safe.kept (h : s.Safe) (hp : s.round.phase = .reclaim) (hs : s.round.stable = true)
    (hl : s.eng.live x = true) (hx : s.cut.Reaches x ∨ ¬ s.cut.eng.pool.Past x) :
    s.eng.sweep.live x = true := by
  obtain ⟨hf, -⟩ := AarcEngine.sweep_spec h.inv.now.follows.ready.toInv
  have hn : x.index ∉ s.eng.dead := fun hd => by
    refine (AarcEngine.mem_dead.mp hd).2 ?_
    rcases hx with hx | hx
    · exact (h.rooted hp hs hx).2.survives
    · exact h.fresh hp hs hl hx
  obtain ⟨hi, hg⟩ := CellPool.valid_iff.mp hl
  refine CellPool.valid_iff.mpr ⟨?_, (hf.gen _ hn).trans hg⟩
  rw [hf.isLiveAt, hi]
  simpa using hn

theorem init_safe (capacity : ℕ) : (init capacity).Safe := by
  have hno : ∀ x, ¬ (Scene.init capacity).Reaches x := by
    rintro x ⟨i, -, b, hb, -⟩
    simp [Scene.init] at hb
  exact ⟨init_inv _, Scene.init_tidy _, Scene.init_tidy _, fun x hx => absurd hx (hno x),
    fun x hx => absurd hx (hno x), False.elim⟩

theorem Safe.work (h : s.Safe) (ha : s.step c .work = some t) : t.Safe := by
  have hinv := h.inv.step ha
  obtain ⟨hact, hcut⟩ := step_eq ha
  have hw : t.toScene = { s.toScene with toWorld := s.toWorld.work } := (Option.some.inj hact).symm
  have hreach : ∀ x, t.toScene.Reaches x → s.toScene.Reaches x := fun x hx => by
    rw [hw] at hx
    exact hx
  have hpub : ∀ i, (t.chan i).published = (s.chan i).published := fun i => by
    rw [hw]
    obtain ⟨h1, h2, -⟩ := s.toWorld.work_chan i
    simp only [Channel.published, h1, h2]
  have htidy : t.toScene.Tidy := fun r => by
    have hsum := h.tidy r
    rw [Finset.sum_congr rfl fun i _ => by rw [hpub i], show t.slots = s.slots by
      rw [hw]; exact s.toWorld.work_slots.1]
    rw [hw]
    exact hsum
  have hlive : ∀ x, t.toScene.Reaches x → t.eng.live x = true := by
    intro x hx
    have hl := h.live x (hreach x hx)
    rw [hw]
    rcases s.toWorld.work_cases with ⟨r, hw', -⟩ | ⟨i, m, -, -, -, -, hw'⟩ | ⟨hp, hs, hw'⟩
    · simp only [hw']
      exact hl
    · simp only [hw', World.drain, AarcEngine.live, AarcEngine.process_pool]
      exact hl
    · simp only [hw']
      exact h.kept hp hs hl (h.back (by rw [hp]; trivial) x (hreach x hx))
  by_cases h0 : t.round.phase = .tails 0
  · rw [if_pos ⟨rfl, h0⟩] at hcut
    refine ⟨hinv, htidy, ?_, hlive, ?_, fun _ x hx => Or.inl ?_⟩
    · rw [hcut]
      exact h.tidy
    · rw [hcut]
      exact h.live
    · rw [hcut]
      exact hreach x hx
  · rw [if_neg fun hh => h0 hh.2] at hcut
    refine ⟨hinv, htidy, ?_, hlive, ?_, fun hp x hx => ?_⟩
    · rw [hcut]
      exact h.cutTidy
    · rw [hcut]
      exact h.cutLive
    · rw [hcut]
      rw [hw] at hp h0
      exact h.back (World.afterCut_of_work hp h0) x (hreach x hx)

theorem Safe.step (h : s.Safe) (ho : s.Orderly a) (ha : s.step c a = some t) : t.Safe := by
  by_cases hw : a = .work
  · subst hw
    exact h.work ha
  have hinv := h.inv.step ha
  obtain ⟨hact, hcut⟩ := step_eq ha
  simp only [hw, false_and, if_false] at hcut
  obtain ⟨hroot, hedge, hthere⟩ := ho
  have hreach : ∀ x, t.toScene.Reaches x → s.toScene.Reaches x ∨
      ¬ s.eng.pool.Past x ∧ t.eng.live x = true := fun x hx =>
    Scene.reaches_act h.inv.now h.tidy hact hw (fun i y he => by rw [he] at hroot; exact hroot)
      (fun i y z he => by rw [he] at hedge; exact hedge) hx
  have hgrown : s.eng.pool.Grown t.eng.pool := grown_act h.inv.now hact hw (.refl _)
  refine ⟨hinv, h.tidy.act h.inv.now hact hw fun i y z he => by rw [he] at hthere; exact hthere,
    hcut ▸ h.cutTidy, fun x hx => ?_, hcut ▸ h.cutLive, fun hp x hx => ?_⟩
  · rcases hreach x hx with hx | hx
    · exact hgrown.valid x (h.live x hx)
    · exact hx.2
  · rw [(h.inv.now.calm hact hw).round] at hp
    rw [hcut]
    rcases hreach x hx with hx | hx
    · exact h.back hp x hx
    · exact Or.inr fun hpast => hx.1 ((h.inv.grown hp).past x hpast)

theorem reachable_safe (h : (system c capacity Orderly).Reachable s) : s.Safe := by
  refine h.inv (fun s hs => ?_) fun s a t hs hn => hs.step hn.1 hn.2
  obtain rfl : s = init capacity := hs
  exact init_safe capacity

/-- In an orderly run no step frees a cell that was reachable at the cut from the root bag of a
mutator that was not closing. -/
theorem reachable_kept (h : (system c capacity Orderly).Reachable s)
    (hn : (system c capacity Orderly).next s a t) (hx : s.cut.Reaches x)
    (hl : s.eng.live x = true) : t.eng.live x = true := by
  have hsafe := reachable_safe h
  obtain ⟨hact, -⟩ := step_eq hn.2
  by_cases hw : a = .work
  · subst hw
    have hw : t.toScene = { s.toScene with toWorld := s.toWorld.work } :=
      (Option.some.inj hact).symm
    rw [hw]
    rcases s.toWorld.work_cases with ⟨r, hw', -⟩ | ⟨i, m, -, -, -, -, hw'⟩ | ⟨hp, hs, hw'⟩
    · simp only [hw']
      exact hl
    · simp only [hw', World.drain, AarcEngine.live, AarcEngine.process_pool]
      exact hl
    · simp only [hw']
      exact hsafe.kept hp hs hl (Or.inl hx)
  · exact (grown_act hsafe.inv.now hact hw (.refl _)).valid x hl

section Runs

/-- A flush of `n` messages. -/
def flushAll (i n : ℕ) : List Action := [.beginFlush i, .commit i n, .endFlush i]

/-- No folding, and room for eight messages in a batch. -/
def plainConfig : Config := ⟨false, false, 8, by decide, by decide⟩

/-- Hand-offs are safe. Edges are taken on reachable cells unless `adds`, and removed where they
are unless `removes`. -/
def Loose (adds removes : Bool) (s : Async) (a : Action) : Prop :=
  s.Handoff a ∧ (adds = false → s.EdgesReachable a) ∧ (removes = false → s.EdgesThere a)

/-- A check for runs without hand-offs. -/
def admits (adds removes : Bool) (s : Async) : Action → Bool
  | .rootAdd _ _ => false
  | .edgeAdd i _ y => adds || decide ((s.muts i).owed = none ∧ y ∈ (s.muts i).bag)
  | .edgeRemove _ x y => removes || decide (0 < s.edges ⟨x, y⟩)
  | _ => true

theorem admits_loose (adds removes : Bool) (s : Async) (a : Action)
    (h : s.admits adds removes a = true) : s.Loose adds removes a := by
  cases a with
  | rootAdd i x => cases h
  | edgeAdd i x y =>
    refine ⟨trivial, fun hf => ?_, fun _ => trivial⟩
    simp only [admits, hf, Bool.false_or, decide_eq_true_eq] at h
    exact Scene.reaches_of_bag h.1 h.2
  | edgeRemove i x y =>
    refine ⟨trivial, fun _ => trivial, fun hf => ?_⟩
    have hthere : 0 < s.edges ⟨x, y⟩ := by simpa [admits, hf] using h
    exact hthere
  | _ => exact ⟨trivial, fun _ => trivial, fun _ => trivial⟩

theorem admits_orderly (s : Async) (a : Action) (h : s.admits false false a = true) :
    s.Orderly a := by
  obtain ⟨-, hadd, hrem⟩ := admits_loose false false s a h
  refine ⟨?_, hadd rfl, hrem rfl⟩
  cases a with
  | rootAdd i x => cases h
  | _ => trivial

/-- An execution that ends before a sweep, as a run of a discipline. -/
theorem exists_run (capacity : ℕ) {allowed : Async → Action → Prop} {ok : Async → Action → Bool}
    (hok : ∀ s a, ok s a = true → allowed s a) (as : List Action) (p : Async → Bool)
    (h : (System.exec (System.guarded ok (step plainConfig)) (init capacity) as).any p = true) :
    ∃ s, (system plainConfig capacity allowed).Reachable s ∧ p s = true :=
  System.reachable_of_guarded (· = init capacity) (step plainConfig) ok hok _ as p rfl h

/-- The worker's next step frees a cell. -/
def frees (s : Async) (x : ObjHandle) : Bool :=
  s.eng.live x && (s.step plainConfig .work).any fun t => !t.eng.live x

/-- A mutator that allocates a cell and closes, up to the sweep. -/
def closing : List Action :=
  [.join kNoOwnerToken, .alloc 0 0] ++ flushAll 0 1 ++ List.replicate 13 .work ++
    [.close 0 [⟨0, 1⟩], .closeRoot 0] ++ flushAll 0 1 ++ List.replicate 12 .work

/-- A cell that is unreachable when it gets an edge has passed its own edge on by then. -/
def revived : List Action :=
  [.join kNoOwnerToken, .alloc 0 0, .alloc 0 1, .alloc 0 2, .edgeAdd 0 ⟨1, 1⟩ ⟨2, 1⟩] ++
    flushAll 0 4 ++ List.replicate 16 .work ++ [.rootRemove 0 ⟨1, 1⟩] ++ flushAll 0 1 ++
    List.replicate 12 .work ++ [.edgeAdd 0 ⟨0, 1⟩ ⟨1, 1⟩, .work, .rootRemove 0 ⟨2, 1⟩] ++
    flushAll 0 2 ++ List.replicate 13 .work

/-- A removal of an edge that is not there meets the edge added later, in another queue. -/
def strayRemoval : List Action :=
  [.join kNoOwnerToken, .join kNoOwnerToken, .alloc 0 0, .alloc 0 1] ++ flushAll 0 2 ++
    List.replicate 18 .work ++ [.edgeRemove 1 ⟨0, 1⟩ ⟨1, 1⟩] ++ flushAll 1 1 ++
    [.edgeAdd 0 ⟨0, 1⟩ ⟨1, 1⟩, .rootRemove 0 ⟨1, 1⟩] ++ flushAll 0 2 ++ List.replicate 18 .work

/-- Safe hand-offs alone do not save the cells reachable at the cut: not those of a closing
mutator, not those behind an edge to an unreachable cell, and not where an edge is removed that
is not there. -/
theorem handoff_frees :
    (∃ s, (system plainConfig 1 (Loose false false)).Reachable s ∧
      ∃ x, s.cut.Held x ∧ s.frees x = true) ∧
    (∃ s, (system plainConfig 3 (Loose true false)).Reachable s ∧
      ∃ x, s.cut.Reaches x ∧ s.frees x = true) ∧
    ∃ s, (system plainConfig 2 (Loose false true)).Reachable s ∧
      ∃ x, s.cut.Reaches x ∧ s.frees x = true := by
  refine ⟨?_, ?_, ?_⟩
  · obtain ⟨s, hr, hp⟩ := exists_run 1 (admits_loose false false) closing
      (fun s => decide (⟨0, 1⟩ ∈ (s.cut.muts 0).bag) && s.frees ⟨0, 1⟩) (by decide +kernel)
    rw [Bool.and_eq_true, decide_eq_true_eq] at hp
    exact ⟨s, hr, _, ⟨0, _, hp.1, .refl⟩, hp.2⟩
  · obtain ⟨s, hr, hp⟩ := exists_run 3 (admits_loose true false) revived
      (fun s => decide ((s.cut.muts 0).owed = none ∧ ⟨0, 1⟩ ∈ (s.cut.muts 0).bag ∧
        0 < s.cut.edges ⟨⟨0, 1⟩, ⟨1, 1⟩⟩ ∧ 0 < s.cut.edges ⟨⟨1, 1⟩, ⟨2, 1⟩⟩) && s.frees ⟨2, 1⟩)
      (by decide +kernel)
    rw [Bool.and_eq_true, decide_eq_true_eq] at hp
    obtain ⟨⟨ho, hb, h1, h2⟩, hf⟩ := hp
    exact ⟨s, hr, _, ((Scene.reaches_of_bag ho hb).tail h1).tail h2, hf⟩
  · obtain ⟨s, hr, hp⟩ := exists_run 2 (admits_loose false true) strayRemoval
      (fun s => decide ((s.cut.muts 0).owed = none ∧ ⟨0, 1⟩ ∈ (s.cut.muts 0).bag ∧
        0 < s.cut.edges ⟨⟨0, 1⟩, ⟨1, 1⟩⟩) && s.frees ⟨1, 1⟩) (by decide +kernel)
    rw [Bool.and_eq_true, decide_eq_true_eq] at hp
    obtain ⟨⟨ho, hb, h1⟩, hf⟩ := hp
    exact ⟨s, hr, _, (Scene.reaches_of_bag ho hb).tail h1, hf⟩

/-- A held cell at the sweep after its allocation. -/
theorem reachable_kept_alloc : ∃ s t, (system plainConfig 1 Orderly).Reachable s ∧
    (system plainConfig 1 Orderly).next s .work t ∧ s.round.phase = .reclaim ∧
    s.round.stable = true ∧ t.eng.live ⟨0, 1⟩ = true := by
  obtain ⟨s, hr, hp⟩ := exists_run 1 admits_orderly
    ([.join kNoOwnerToken, .alloc 0 0] ++ flushAll 0 1 ++ List.replicate 12 .work)
    (fun s => decide (s.round.phase = .reclaim ∧ s.round.stable = true ∧ s.eng.live ⟨0, 1⟩ = true ∧
      (s.cut.muts 0).owed = none ∧ ⟨0, 1⟩ ∈ (s.cut.muts 0).bag)) (by decide +kernel)
  obtain ⟨hph, hst, hl, ho, hb⟩ := of_decide_eq_true hp
  have hn : (system plainConfig 1 Orderly).next s .work _ :=
    ⟨⟨trivial, trivial, trivial⟩, rfl⟩
  exact ⟨s, _, hr, hn, hph, hst, reachable_kept hr hn (Scene.reaches_of_bag ho hb) hl⟩

end Runs

end Async

end Loxis.Aarc
