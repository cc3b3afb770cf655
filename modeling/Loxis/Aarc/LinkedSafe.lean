import Loxis.Lib.Run
import Loxis.Aarc.LinkedSim

/-! # The adjacency lists stay linked

Whatever messages the engines over one table are given, and whenever they sweep, the lists of the
table stay doubly linked, hold every live record once from each side, and refer to live cells.
-/

namespace Loxis.Aarc

open Function

namespace AarcEngine

variable {e e' : AarcEngine} {i : ℕ} {F D : Finset ℕ}

/-- What holds of an engine under any messages at all. -/
structure Stable (e : AarcEngine) : Prop where
  sound : e.tab.Sound e.pool
  zeroOk : e.ZeroOk
  clean : Tarjan.Clean e.detector

theorem Stable.of_reclaimed (h : e.Stable) (hr : Reclaimed e e' F) : e'.Stable :=
  ⟨hr.sound, hr.zeroOk, hr.detector ▸ h.clean⟩

theorem process_zeroOk (hz : e.ZeroOk) (m : GCMessage) : (e.process m).ZeroOk := by
  have hset : ∀ t, (e.setTab t).ZeroOk := fun _ => hz
  have hset' : ∀ t u, ((e.setTab t).setTab u).ZeroOk := fun _ _ => hz
  unfold process
  cases m.op with
  | rootAdd => simp only; split_ifs <;> exact hz
  | rootRemove =>
    simp only
    split_ifs
    · exact hz
    · exact hz
    · exact mark_zeroOk (hset _)
  | rootCheck =>
    simp only
    split_ifs
    · exact hz
    · exact mark_zeroOk hz
  | edgeAdd => simp only; split_ifs <;> exact hz
  | edgeRemove =>
    simp only
    split_ifs
    · exact hz
    · exact hz
    · exact hz
    · exact hz
    · exact mark_zeroOk (hset' _ _)
  | terminate => exact hz

theorem Stable.process (h : e.Stable) (m : GCMessage) : (e.process m).Stable := by
  obtain ⟨hp, -, -, hd⟩ := process_frame (e := e) (m := m)
  refine ⟨?_, process_zeroOk h.zeroOk m, hd ▸ h.clean⟩
  rw [process_tab, hp]
  exact h.sound.applied m

theorem sweepZeroTurn_cons {rest : List ℕ} (hst : e.zeroStack = i :: rest) :
    e.sweepZeroTurn =
      if !e.pool.isLiveAt i then (e.popZero i rest, true)
      else if e.tab.total i ≠ 0 then (e.popZero i rest, true)
      else ((e.popZero i rest).reclaimCell i, true) := by
  unfold sweepZeroTurn
  rw [hst]
  rfl

/-- Nothing refers to a cell whose count is zero. -/
theorem Stable.inRecs_nil (h : e.Stable) (h0 : e.tab.total i = 0) : e.tab.inRecs i = [] := by
  have hedge := (h.sound.total_eq_zero.mp h0).2
  rw [h.sound.edge_eq] at hedge
  exact List.eq_nil_of_length_eq_zero (by exact_mod_cast hedge)

end AarcEngine

namespace LinkedEngine

variable {l : LinkedEngine} {e e' : AarcEngine} {D : Finset ℕ}

/-- The engine with its newest candidate popped. -/
def popZero (l : LinkedEngine) (i : ℕ) (rest : List ℕ) : LinkedEngine :=
  { l with zeroStack := rest, zeroMark := update l.zeroMark i false }

theorem sweepZeroTurn_cons {i : ℕ} {rest : List ℕ} (hst : l.zeroStack = i :: rest) :
    l.sweepZeroTurn =
      if !l.pool.isLiveAt i then (l.popZero i rest, true)
      else if l.tab.total i ≠ 0 then (l.popZero i rest, true)
      else ((l.popZero i rest).reclaimCell i, true) := by
  unfold sweepZeroTurn
  rw [hst]
  rfl

/-- An engine over the arena that follows a stable one, whose pool is the given one or what is left
of it. -/
structure Tracks (l : LinkedEngine) (e : AarcEngine) : Prop where
  follows : l.Follows e
  stable : e.Stable
  pool : e.pool.Sound

namespace Tracks

theorem process (h : l.Tracks e) {m : GCMessage} {l' : LinkedEngine} (hm : l.process m = some l') :
    l'.Tracks (e.process m) := by
  refine ⟨h.follows.process hm, h.stable.process m, ?_⟩
  rw [AarcEngine.process_pool]
  exact h.pool

theorem sweepZeroTurn (h : l.Tracks e) :
    l.sweepZeroTurn.1.Tracks e.sweepZeroTurn.1 ∧ l.sweepZeroTurn.2 = e.sweepZeroTurn.2 := by
  have hz : l.zeroStack = e.zeroStack := congrArg Scratch.zeroStack h.follows.toScratch
  cases hst : e.zeroStack with
  | nil =>
    unfold LinkedEngine.sweepZeroTurn AarcEngine.sweepZeroTurn
    rw [hz, hst]
    exact ⟨h, rfl⟩
  | cons i rest =>
    have hf : (l.popZero i rest).Follows (e.popZero i rest) :=
      h.follows.scratch (f := (·.popZero i rest)) (g := (·.popZero i rest)) (fun _ => rfl) rfl
    have hs : (e.popZero i rest).Stable :=
      ⟨h.stable.sound, (AarcEngine.popZero_zeroOk h.stable.zeroOk hst).1, h.stable.clean⟩
    rw [LinkedEngine.sweepZeroTurn_cons (hz.trans hst), AarcEngine.sweepZeroTurn_cons hst,
      h.follows.pool, h.follows.total_eq]
    split
    · exact ⟨⟨hf, hs, h.pool⟩, rfl⟩
    · next hl =>
      split
      · exact ⟨⟨hf, hs, h.pool⟩, rfl⟩
      · next h0 =>
        have h0 : (e.popZero i rest).tab.total i = 0 := not_not.mp h0
        have hl : (e.popZero i rest).pool.isLiveAt i = true := by
          change e.pool.isLiveAt i = true
          simpa using hl
        have hr := AarcEngine.reclaimCell_reclaimed hs.sound hs.zeroOk hl h0
        exact ⟨⟨hf.reclaimCell (hs.inRecs_nil h0), hs.of_reclaimed hr, hr.freed.poolSound h.pool⟩,
          rfl⟩

theorem sweepZero (h : l.Tracks e) : l.sweepZero.Tracks e.sweepZero := by
  have hz : l.zeroStack = e.zeroStack := congrArg Scratch.zeroStack h.follows.toScratch
  unfold LinkedEngine.sweepZero AarcEngine.sweepZero
  rw [h.follows.pool, hz]
  exact iterUntil_sim (fun _ _ => sweepZeroTurn) _ h

/-- Reclaiming disjoint garbage components one after the other. -/
theorem reclaimComponents {cs : List (ℕ × List ℕ)} (hcs : ∀ c ∈ cs, e.Doomed c)
    (hdisj : cs.Pairwise fun c d => ∀ i ∈ c.2, i ∉ d.2) (hD : ∀ c ∈ cs, ∀ i ∈ c.2, i ∉ D)
    (hr : AarcEngine.Reclaimed e e' D) (hf : l.Follows e') :
    (l.reclaimComponents cs).Follows (e'.reclaimComponents cs) ∧
      AarcEngine.Reclaimed e (e'.reclaimComponents cs) (D ∪ AarcEngine.slots cs) := by
  induction cs generalizing l e' D with
  | nil =>
    have hE : D ∪ AarcEngine.slots [] = D := by simp [AarcEngine.slots]
    rw [hE]
    exact ⟨hf, hr⟩
  | cons c cs ih =>
    have hc := hcs c List.mem_cons_self
    obtain ⟨hdisj, hpw⟩ := List.pairwise_cons.mp hdisj
    have hcD := hD c List.mem_cons_self
    have hscc : ∀ i ∈ c.2, ∀ r ∈ e'.tab.outRecs i,
        e'.sccOf r.dst.index = some c.1 ↔ r.dst.index ∈ c.2 := by
      intro i hi r hrec
      rw [hr.freed.outRecs i (hcD i hi)] at hrec
      have := hc.scc i hi r hrec
      unfold AarcEngine.sccOf at this ⊢
      rwa [hr.detector]
    have hclosed : ∀ i, ∀ j ∈ c.2, e'.tab.Edge i j → i ∈ c.2 := fun i j hj hij =>
      hc.closed i j hj ((hr.freed.edge_iff hr.sound i j).mp hij).1
    have h1 := AarcEngine.reclaimCycleComponent_reclaimed hr.sound hr.zeroOk hc.nodup
      (fun i hi => by simp [hr.freed.isLiveAt, hc.live i hi, hcD i hi]) hclosed hscc
    -- once its members are detached, no edge leads into the component
    have hdet := AarcEngine.reclaimCycleComponent_phases hr.sound hr.zeroOk hc.nodup hscc
    have hin : ∀ i ∈ c.2, (c.2.foldl (AarcEngine.detachMember c.1) e').tab.inRecs i = [] := by
      intro i hi
      rw [hdet.inRecs, List.filter_eq_nil_iff]
      intro r hrec
      have hsrc := hclosed r.src.index i hi (hr.sound.edge_iff_in.mpr ⟨r, hrec, rfl⟩)
      simpa using hsrc
    have h2 := hf.reclaimCycleComponent (c := c.1) hin
    have hE : D ∪ AarcEngine.slots (c :: cs) = D ∪ c.2.toFinset ∪ AarcEngine.slots cs := by
      simp only [AarcEngine.slots, List.flatMap_cons, List.toFinset_append, Finset.union_assoc]
    have hout : ∀ d ∈ cs, ∀ i ∈ d.2, i ∉ D ∪ c.2.toFinset := by
      intro d hd i hi
      rw [Finset.mem_union, not_or, List.mem_toFinset]
      exact ⟨hD d (List.mem_cons_of_mem _ hd) i hi, fun hic => hdisj d hd i hic hi⟩
    rw [hE]
    exact ih (fun d hd => hcs d (List.mem_cons_of_mem _ hd)) hpw hout
      (hr.trans h1) h2

theorem collectCyclePass (h : l.Tracks e) :
    l.collectCyclePass.1.Tracks e.collectCyclePass.1 ∧
      l.collectCyclePass.2 = e.collectCyclePass.2 := by
  have h0 : ({ l with suspectStack := [] } : LinkedEngine).Follows { e with suspectStack := [] } :=
    h.follows.scratch (f := fun l => { l with suspectStack := [] })
      (g := fun e => { e with suspectStack := [] }) (fun _ => rfl) rfl
  have hs0 : ({ e with suspectStack := [] } : AarcEngine).Stable :=
    ⟨h.stable.sound, h.stable.zeroOk, h.stable.clean⟩
  unfold LinkedEngine.collectCyclePass AarcEngine.collectCyclePass
  simp only [h.follows.scanRoots_eq]
  by_cases hre : e.scanRoots = []
  · simp only [hre, List.isEmpty_nil, if_true]
    exact ⟨⟨h0, hs0, h.pool⟩, trivial⟩
  simp only [List.isEmpty_iff, hre, if_false, h0.findComponents_eq]
  have hF := AarcEngine.findComponents_spec hs0.sound hs0.clean e.scanRoots
  set g := ({ e with suspectStack := [] } : AarcEngine).findComponents e.scanRoots with hg
  have h1 : ({ l with suspectStack := [], detector := g.detector } : LinkedEngine).Follows g :=
    h0.scratch (f := fun l => { l with detector := g.detector })
      (g := fun e' => { e' with detector := g.detector }) (fun _ => rfl) rfl
  split
  · next hc =>
    -- every scan that starts from a live root finds its component
    obtain ⟨r, hr⟩ := List.exists_mem_of_ne_nil _ hre
    have hv := (hF.mem_visited r).mpr ⟨r, ⟨hr, (AarcEngine.mem_scanRoots.mp hr).2.2.1⟩, .refl⟩
    obtain ⟨c, hlt, -⟩ := hF.scc_visited r hv
    have hlt : c < g.detector.comps := hlt
    omega
  · next hc =>
    obtain ⟨hdoom, hdisj, -⟩ := AarcEngine.garbage_spec (g := g) h.stable.sound hF fun r hr =>
      ⟨hr.2, (AarcEngine.mem_scanRoots.mp hr.1).2.2.2.ne'⟩
    obtain ⟨⟨hp, htab, -, -⟩, ⟨hzm, hzs, -, hdet⟩, -⟩ :=
      AarcEngine.clearSuspects_spec g.detector.visited g
    have h2 := h1.clearSuspects g.detector.visited
    set b := g.detector.visited.foldl AarcEngine.clearSuspect g with hb
    have hsb : b.tab.Sound b.pool := by
      rw [hp, htab]
      exact h.stable.sound
    have hzb : b.ZeroOk := hs0.zeroOk.of_eq hzm hzs
    obtain ⟨h3, hr⟩ := reclaimComponents (fun c hc => (hdoom c hc).clearSuspects _) hdisj
      (D := ∅) (by simp) (.refl hsb hzb) h2
    have hd : (b.reclaimComponents g.garbage).detector = g.detector := hr.detector.trans hdet
    rw [show (LinkedEngine.view _).garbage = g.garbage from h1.garbage_eq]
    refine ⟨⟨?_, ⟨hr.sound, hr.zeroOk, ?_⟩, hr.freed.poolSound (hp ▸ h.pool)⟩, rfl⟩
    · exact h3.scratch
        (f := fun l => { l with detector := Tarjan.release g.detector.visited l.detector })
        (g := fun e => { e with detector := Tarjan.release g.detector.visited e.detector })
        (fun _ => rfl) rfl
    · rw [hd]
      exact hF.release_clean

theorem collectCycles (h : l.Tracks e) : l.collectCycles.Tracks e.collectCycles := by
  unfold LinkedEngine.collectCycles AarcEngine.collectCycles
  rw [h.follows.pool]
  exact iterUntil_sim (fun _ _ => collectCyclePass) _ h

theorem sweepTurn (h : l.Tracks e) :
    l.sweepTurn.1.Tracks e.sweepTurn.1 ∧ l.sweepTurn.2 = e.sweepTurn.2 := by
  have hs : l.sweepZero.suspectStack = e.sweepZero.suspectStack :=
    congrArg Scratch.suspectStack h.sweepZero.follows.toScratch
  unfold LinkedEngine.sweepTurn AarcEngine.sweepTurn
  simp only [hs]
  split
  · exact ⟨h.sweepZero, rfl⟩
  · exact ⟨h.sweepZero.collectCycles, rfl⟩

theorem sweep (h : l.Tracks e) : l.sweep.Tracks e.sweep := by
  unfold LinkedEngine.sweep AarcEngine.sweep
  rw [h.follows.pool]
  exact iterUntil_sim (fun _ _ => sweepTurn) _ h

end Tracks

end LinkedEngine

/-- The private part of an engine. -/
structure Seat extends Scratch where
  kind : Regime
  owner : OwnerToken

/-- Engines over one pool and one arena. -/
structure Seats (κ : Type*) where
  pool : CellPool
  tab : LinkedTable
  seat : κ → Seat

/-- What is asked of an engine. -/
inductive Seats.Call
  | process (m : GCMessage)
  | sweepZero
  | collectCycles
  | sweep

/-- An engine is called, or a mutator takes a cell from the pool. -/
inductive Seats.Event (κ : Type*)
  | call (k : κ) (c : Seats.Call)
  | alloc (i : ℕ) (o : OwnerToken) (r : Regime)

namespace Seats

variable {κ : Type*} [DecidableEq κ]

/-- Fresh engines over a pool and an empty table. -/
def init (p : CellPool) (kind : κ → Regime) (owner : κ → OwnerToken) : Seats κ where
  pool := p
  tab := LinkedTable.init
  seat k := { Scratch.init with kind := kind k, owner := owner k }

/-- One engine of several. -/
def engine (s : Seats κ) (k : κ) : LinkedEngine :=
  { (s.seat k).toScratch with
    pool := s.pool, tab := s.tab, kind := (s.seat k).kind, owner := (s.seat k).owner }

/-- What an engine leaves behind for the others. -/
def put (s : Seats κ) (k : κ) (e : LinkedEngine) : Seats κ where
  pool := e.pool
  tab := e.tab
  seat := update s.seat k { e.toScratch with kind := e.kind, owner := e.owner }

/-- Call an engine. A call that throws ends the run. -/
def call (e : LinkedEngine) : Call → Option LinkedEngine
  | .process m => e.process m
  | .sweepZero => some e.sweepZero
  | .collectCycles => some e.collectCycles
  | .sweep => some e.sweep

def step (s : Seats κ) : Event κ → Option (Seats κ)
  | .call k c => (call (s.engine k) c).map (s.put k)
  | .alloc i o r => (s.pool.allocInto i o r).map fun a => { s with pool := a.2 }

/-- The engines over one pool and table, called in any order with any messages. -/
def system (kind : κ → Regime) (owner : κ → OwnerToken) : System (Seats κ) (Event κ) :=
  System.ofStep (fun s => ∃ p : CellPool, p.Sound ∧ s = init p kind owner) step

/-- An engine of several, with a table in place of the arena. -/
def under (s : Seats κ) (t : RefTable) (k : κ) : AarcEngine :=
  { (s.seat k).toScratch with
    pool := s.pool, tab := t, kind := (s.seat k).kind, owner := (s.seat k).owner }

/-- The arena represents a table that agrees with the pool, and every engine is in order. -/
structure Inv (s : Seats κ) : Prop where
  table : ∃ t O I F, s.tab.Represents t O I F ∧ t.Sound s.pool
  pool : s.pool.Sound
  zeroOk : ∀ k, (s.under RefTable.init k).ZeroOk
  clean : ∀ k, Tarjan.Clean (s.seat k).detector

variable {kind : κ → Regime} {owner : κ → OwnerToken} {s s' : Seats κ}

theorem Inv.call (h : s.Inv) {k : κ} {c : Call} {e : LinkedEngine}
    (he : Seats.call (s.engine k) c = some e) : (s.put k e).Inv := by
  obtain ⟨t, O, I, F, ht, hs⟩ := h.table
  have htr : (s.engine k).Tracks (s.under t k) :=
    ⟨⟨s.tab, O, I, F, rfl, ht⟩, ⟨hs, h.zeroOk k, h.clean k⟩, h.pool⟩
  have hcall : ∃ e', e.Tracks e' := by
    cases c with
    | process m => exact ⟨_, htr.process he⟩
    | sweepZero =>
      obtain rfl := Option.some.inj he
      exact ⟨_, htr.sweepZero⟩
    | collectCycles =>
      obtain rfl := Option.some.inj he
      exact ⟨_, htr.collectCycles⟩
    | sweep =>
      obtain rfl := Option.some.inj he
      exact ⟨_, htr.sweep⟩
  obtain ⟨e', ⟨u, O', I', F', rfl, hu⟩, hst, hp⟩ := hcall
  refine ⟨⟨e'.tab, O', I', F', hu, hst.sound⟩, hp, fun k' => ?_, fun k' => ?_⟩
  · by_cases hk : k' = k
    · subst hk
      exact hst.zeroOk.of_eq (by simp [under, put, AarcEngine.over])
        (by simp [under, put, AarcEngine.over])
    · exact (h.zeroOk k').of_eq (by simp [under, put, hk]) (by simp [under, put, hk])
  · by_cases hk : k' = k
    · subst hk
      simpa [put, AarcEngine.over] using hst.clean
    · simpa [put, hk] using h.clean k'

theorem Inv.step (h : s.Inv) {a : Event κ} (ha : s.step a = some s') : s'.Inv := by
  cases a with
  | call k c =>
    obtain ⟨e, he, rfl⟩ := Option.map_eq_some_iff.mp ha
    exact h.call he
  | alloc i o r =>
    obtain ⟨⟨x, p⟩, hp, rfl⟩ := Option.map_eq_some_iff.mp ha
    obtain ⟨t, O, I, F, ht, hs⟩ := h.table
    let e : AarcEngine := { Scratch.init with pool := s.pool, tab := t, kind := r, owner := o }
    exact ⟨⟨t, O, I, F, ht, AarcEngine.sound_alloc (e := e) hs h.pool hp⟩,
      (AarcEngine.alloc_pool (e := e) h.pool hp).2.2.1, h.zeroOk, h.clean⟩

omit [DecidableEq κ] in
theorem init_inv {p : CellPool} (hp : p.Sound) : (init p kind owner : Seats κ).Inv where
  table := ⟨RefTable.init, fun _ => [], fun _ => [], [], { LinkedTable.Adjacency.init with
    root := rfl, edge := rfl, outRecs := fun _ => rfl, inRecs := fun _ => List.Perm.refl _ },
    RefTable.init_sound p⟩
  pool := hp
  zeroOk _ := ⟨fun i => by simp [under, init, Scratch.init], List.nodup_nil⟩
  clean _ := (AarcEngine.init_ready 0 .loc kNoOwnerToken).clean

theorem system_inv (h : (system kind owner).Reachable s) : s.Inv := by
  refine h.inv ?_ fun s a s' hs ha => hs.step ha
  rintro _ ⟨p, hp, rfl⟩
  exact init_inv hp

/-- After any calls of engines over one table, the out-list and the in-list of every slot are
doubly linked lists without repetitions, as long as the row says, every live record is in the two
lists of its source and its target and in no other, and both are live cells of the generation that
it names. The count of a slot is the length of its in-list, and the free list holds each id that
has been given out and is not live once. -/
theorem adjacency_of_reachable (h : (system kind owner).Reachable s) :
    ∃ O I F, s.tab.Adjacency O I F ∧ (∀ i, (O i).Nodup ∧ (I i).Nodup) ∧ F.Nodup ∧
      (∀ x, s.tab.live x = true →
        s.pool.valid (s.tab.record x).src = true ∧ s.pool.valid (s.tab.record x).dst = true) ∧
      ∀ i, s.tab.edge i = s.tab.inc.count i := by
  obtain ⟨t, O, I, F, ht, hs⟩ := (system_inv h).table
  refine ⟨O, I, F, ht.toAdjacency, fun i => ⟨ht.out.nodup i, ht.inc.nodup i⟩, ht.free.nodup,
    fun x hx => ?_, fun i => ?_⟩
  · have hr : s.tab.record x ∈ t.outRecs (s.tab.record x).src.index := by
      rw [ht.outRecs]
      exact List.mem_map_of_mem ((ht.mem_out _ x).mpr ⟨hx, rfl⟩)
    exact ⟨hs.valid_src _ _ hr, hs.valid_dst _ _ hr⟩
  · rw [ht.edge, hs.edge_eq, (ht.inRecs i).length_eq, List.length_map, ht.inc.count_eq]

/-- Two engines over three cells: edges are added from both, one of two parallel edges is removed
twice, a cycle is reclaimed and its records are used again. -/
def exercise (n : ℕ) : List (Event Bool) :=
  let c (i : ℕ) : ObjHandle := ⟨i, 1⟩
  let send (k : Bool) (op : GCOp) (a b : ObjHandle) : Event Bool :=
    .call k (.process { op := op, a := a, b := b })
  [.alloc 0 kNoOwnerToken .shared, .alloc 1 kNoOwnerToken .shared, .alloc 2 kNoOwnerToken .shared,
    send true .rootAdd (c 0) (c 0), send true .rootAdd (c 2) (c 2), send true .edgeAdd (c 0) (c 1),
    send false .edgeAdd (c 1) (c 0), send false .edgeAdd (c 0) (c 1),
    send true .edgeAdd (c 0) (c 0), send true .edgeRemove (c 0) (c 1),
    send true .rootRemove (c 0) (c 0), .call true .sweep, send false .edgeAdd (c 2) (c 2)].take n

theorem adjacency_of_reachable_exercise : ∃ s : Seats Bool,
    (s.tab.liveEdges = 1 ∧ s.tab.nextId = 4 ∧ s.pool.isLiveAt 1 = false) ∧
      ∃ O I F, s.tab.Adjacency O I F ∧ (∀ i, (O i).Nodup ∧ (I i).Nodup) ∧ F.Nodup ∧
        (∀ x, s.tab.live x = true →
          s.pool.valid (s.tab.record x).src = true ∧ s.pool.valid (s.tab.record x).dst = true) ∧
        ∀ i, s.tab.edge i = s.tab.inc.count i := by
  obtain ⟨s, hs, hp⟩ := System.reachable_of_exec
    (fun s => ∃ p : CellPool, p.Sound ∧ s = init p (fun _ => .shared) fun _ => kNoOwnerToken) step
    (init (CellPool.init 3 .shared) (fun _ => .shared) fun _ => kNoOwnerToken) (exercise 13)
    (fun s => decide (s.tab.liveEdges = 1 ∧ s.tab.nextId = 4 ∧ s.pool.isLiveAt 1 = false))
    ⟨_, CellPool.init_sound 3 .shared, rfl⟩ (by decide +kernel)
  exact ⟨s, of_decide_eq_true hp, adjacency_of_reachable hs⟩

end Seats

end Loxis.Aarc
