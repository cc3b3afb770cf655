import Loxis.Lib.Run
import Loxis.Aarc.Ledger

/-! # Collection of a single stream

One engine is fed one disciplined stream of allocations, messages and sweeps. Every
garbage source stays watched by a mark, so each sweep leaves exactly the cells that a
root reaches, and the new cells that the stream has not announced yet.
-/

namespace Loxis.Aarc

open Function Loxis.Graph

/-- Some root reaches the slot along the edges of the table. -/
def RefTable.Rooted (t : RefTable) (i : ℕ) : Prop := ∃ a, Reach t.Edge a i ∧ 0 < t.root a

/-- An engine under a stream of messages. `fresh` holds the cells whose first message is still to
come, `roots` and `edges` count the additions that no removal has undone. -/
structure Stream where
  eng : AarcEngine
  fresh : List ObjHandle
  roots : ObjHandle → ℕ
  edges : EdgeRec → ℕ

inductive Stream.Event
  | alloc (i : ℕ) (o : OwnerToken) (r : Regime)
  | message (m : GCMessage)
  | sweep

namespace Stream

/-- A stream over a fresh engine. -/
def init (capacity : ℕ) (kind : Regime) (owner : OwnerToken) : Stream :=
  ⟨AarcEngine.init capacity kind owner, [], fun _ => 0, fun _ => 0⟩

def step (s : Stream) : Event → Stream
  | .alloc i o r =>
    match s.eng.pool.allocInto i o r with
    | some (h, p) => { s with eng := s.eng.setPool p, fresh := h :: s.fresh }
    | none => s
  | .message m =>
    { eng := s.eng.process m
      fresh := if m.op = .rootAdd then s.fresh.filter (· ≠ m.b) else s.fresh
      roots := m.rootsAfter s.roots
      edges := m.edgesAfter s.edges }
  | .sweep => { s with eng := s.eng.sweep }

/-- A live cell that a root reaches. -/
def Reachable (s : Stream) (h : ObjHandle) : Prop :=
  s.eng.live h = true ∧ s.eng.tab.Rooted h.index

/-- The discipline of a stream: a cell is announced by its first message, additions name
reachable cells, and removals undo outstanding additions. -/
structure Disciplined (s : Stream) (m : GCMessage) : Prop where
  first : ∀ h ∈ s.fresh, m.Names h → m.op = .rootAdd ∧ 0 < m.count
  root_add : m.op = .rootAdd → m.b ∈ s.fresh ∨ s.Reachable m.b
  edge_add : m.op = .edgeAdd → s.Reachable m.a ∧ s.Reachable m.b
  root_remove : m.op = .rootRemove → m.count ≤ s.roots m.b
  edge_remove : m.op = .edgeRemove → 0 < s.edges ⟨m.a, m.b⟩

def Allowed (s : Stream) : Event → Prop
  | .alloc i _ _ => i < s.eng.pool.capacity ∧ s.eng.pool.avail i = true
  | .message m => s.Disciplined m
  | .sweep => True

/-- The disciplined streams of one engine. -/
def system (capacity : ℕ) (kind : Regime) (owner : OwnerToken) : System Stream Event where
  init s := s = init capacity kind owner
  next s a t := s.Allowed a ∧ t = s.step a

/-- The new cells of a stream, by slot. -/
def New (s : Stream) (i : ℕ) : Prop := ∃ h ∈ s.fresh, h.index = i

/-- What a disciplined stream maintains. -/
structure Inv (s : Stream) : Prop where
  ready : s.eng.Ready
  pool : s.eng.pool.Sound
  fresh_live : ∀ h ∈ s.fresh, s.eng.live h = true
  fresh_total : ∀ h ∈ s.fresh, s.eng.tab.total h.index = 0
  fresh_out : ∀ h ∈ s.fresh, s.eng.tab.outRecs h.index = []
  fresh_unmarked : ∀ h ∈ s.fresh, h.index ∉ s.eng.zeroStack
  watched : ∀ i, s.eng.pool.isLiveAt i = true → ¬ s.New i → s.eng.marks.Watched i
  roots_eq : ∀ h, s.eng.live h = true → s.eng.tab.root h.index = s.roots h
  edges_eq : ∀ r, s.eng.live r.src = true →
    (s.eng.tab.outRecs r.src.index).count r = s.edges r
  future : ∀ h, s.eng.pool.gen h.index < h.gen ∨
      (h.gen = s.eng.pool.gen h.index ∧ s.eng.pool.avail h.index = true) →
    s.roots h = 0 ∧ ∀ r, r.src = h → s.edges r = 0

variable {s : Stream} {m : GCMessage} {i : ℕ}

theorem init_inv (capacity : ℕ) (kind : Regime) (owner : OwnerToken) :
    (init capacity kind owner).Inv := by
  have hdead : ∀ i, (CellPool.init capacity kind).isLiveAt i = false := fun i => by
    simp [CellPool.isLiveAt, CellPool.init]
  refine
    { ready := AarcEngine.init_ready _ _ _
      pool := CellPool.init_sound _ _, fresh_live := ?_, fresh_total := ?_, fresh_out := ?_
      fresh_unmarked := ?_, roots_eq := ?_, edges_eq := ?_, future := ?_
      watched := fun i hi => absurd hi (by simp [init, AarcEngine.init, hdead]) } <;>
    simp [init, AarcEngine.init, Scratch.init, RefTable.init]

theorem Inv.new_out (h : s.Inv) {i : ℕ} (hi : s.New i) (j : ℕ) : ¬ s.eng.tab.Edge i j := by
  obtain ⟨x, hx, rfl⟩ := hi
  rintro ⟨r, hr, -⟩
  rw [h.fresh_out x hx] at hr
  simp at hr

theorem Inv.new_clear (h : s.Inv) {i : ℕ} (hi : s.New i) :
    s.eng.tab.total i = 0 ∧ i ∉ s.eng.zeroStack := by
  obtain ⟨x, hx, rfl⟩ := hi
  exact ⟨h.fresh_total x hx, h.fresh_unmarked x hx⟩

/-- A live handle is no longer to come. -/
theorem Inv.not_future (h : s.Inv) {x : ObjHandle} (hx : s.eng.live x = true) :
    ¬ (s.eng.pool.gen x.index < x.gen ∨
      (x.gen = s.eng.pool.gen x.index ∧ s.eng.pool.avail x.index = true)) := by
  obtain ⟨hl, hg⟩ := CellPool.valid_iff.mp hx
  rintro (hlt | ⟨-, ha⟩)
  · omega
  · have := h.pool _ ha
    rw [(CellPool.isLiveAt_iff.mp hl).2] at this
    simp at this

theorem Inv.alloc (h : s.Inv) {o : OwnerToken} {r : Regime}
    (ha : s.Allowed (.alloc i o r)) : (s.step (.alloc i o r)).Inv := by
  cases hal : s.eng.pool.allocInto i o r with
  | none => simp [CellPool.allocInto, ha.1, ha.2] at hal
  | some q =>
    obtain ⟨x, p⟩ := q
    have hready := h.ready.alloc h.pool hal
    have hv := AarcEngine.valid_alloc h.pool hal
    obtain ⟨rfl, hd, hp, hg, -, hl, hne, hi, -⟩ := AarcEngine.alloc_pool h.pool hal
    obtain ⟨h0, hout, hz, -⟩ := h.ready.toInv.clear hd
    have hstep : s.step (.alloc i o r) = { s with
        eng := s.eng.setPool p, fresh := s.eng.pool.handleAt i :: s.fresh } := by
      simp only [step, hal]
    have hfut : s.roots (s.eng.pool.handleAt i) = 0 ∧
        ∀ r, r.src = s.eng.pool.handleAt i → s.edges r = 0 :=
      h.future _ (Or.inr ⟨rfl, ha.2⟩)
    rw [hstep]
    refine
      { ready := hready, pool := hp, fresh_live := fun y hy => ?_, fresh_total := fun y hy => ?_
        fresh_out := fun y hy => ?_, fresh_unmarked := fun y hy => ?_, watched := fun j hj hn => ?_
        roots_eq := fun y hy => ?_, edges_eq := fun q hq => ?_, future := fun y hy => ?_ }
    · refine (hv y).mpr ((List.mem_cons.mp hy).symm.imp_left fun hy => h.fresh_live y hy)
    · rcases List.mem_cons.mp hy with rfl | hy
      · exact h0
      · exact h.fresh_total y hy
    · rcases List.mem_cons.mp hy with rfl | hy
      · exact hout
      · exact h.fresh_out y hy
    · rcases List.mem_cons.mp hy with rfl | hy
      · exact hz
      · exact h.fresh_unmarked y hy
    · have hj : p.isLiveAt j = true := hj
      rw [hl, Bool.or_eq_true, decide_eq_true_eq] at hj
      rcases hj with hj | rfl
      · exact h.watched j hj fun ⟨y, hy, hyj⟩ => hn ⟨y, List.mem_cons_of_mem _ hy, hyj⟩
      · exact absurd ⟨_, List.mem_cons_self, rfl⟩ hn
    · rcases (hv y).mp hy with hy | rfl
      · exact h.roots_eq y hy
      · have : s.eng.tab.root i = s.roots (s.eng.pool.handleAt i) := by
          rw [hfut.1, (h.ready.sound.total_eq_zero.mp h0).1]
          rfl
        exact this
    · rcases (hv q.src).mp hq with hq | hq
      · exact h.edges_eq q hq
      · have hqi : q.src.index = i := by rw [hq]; rfl
        simp [AarcEngine.setPool, hqi, hout, hfut.2 q hq]
    · refine h.future y ?_
      simp only [AarcEngine.setPool, hg] at hy
      refine hy.imp_right fun ⟨h1, h2⟩ => ⟨h1, ?_⟩
      by_cases hyi : y.index = i
      · rw [hyi, hi] at h2
        simp at h2
      · rwa [(hne _ hyi).1] at h2

theorem Inv.sweep (h : s.Inv) : (s.step .sweep).Inv := by
  obtain ⟨hlive, hroot⟩ := AarcEngine.sweep_exact h.ready (fun i hi => h.new_out hi)
    (fun i hi => h.new_clear hi) h.watched
  obtain ⟨hf, hset⟩ := AarcEngine.sweep_spec h.ready.toInv
  have hs := h.ready.sound
  have hs' := hset.inv.sound
  have hback : ∀ x, s.eng.sweep.live x = true → s.eng.live x = true ∧ x.index ∉ s.eng.dead := by
    intro x hx
    obtain ⟨hl, hg⟩ := CellPool.valid_iff.mp hx
    obtain ⟨hl, hn⟩ := hf.live_off hl
    exact ⟨CellPool.valid_iff.mpr ⟨hl, by rw [← hg, hf.gen _ hn]⟩, hn⟩
  have hkeep : ∀ x ∈ s.fresh, s.eng.sweep.pool.isLiveAt x.index = true ∧
      x.index ∉ s.eng.dead := by
    intro x hx
    obtain ⟨hl, -⟩ := CellPool.valid_iff.mp (h.fresh_live x hx)
    have hl' := (hlive x.index).mpr ⟨hl, Or.inl ⟨x, hx, rfl⟩⟩
    exact ⟨hl', (hf.live_off hl').2⟩
  refine
    { ready := hset.ready, pool := hf.poolSound h.pool, fresh_live := fun x hx => ?_
      fresh_total := fun x hx => ?_, fresh_out := fun x hx => ?_, fresh_unmarked := fun x hx => ?_
      watched := fun i hi hn => ?_, roots_eq := fun x hx => ?_, edges_eq := fun r hr => ?_
      future := fun x hx => ?_ }
  · obtain ⟨hl, hn⟩ := hkeep x hx
    obtain ⟨-, hg⟩ := CellPool.valid_iff.mp (h.fresh_live x hx)
    exact CellPool.valid_iff.mpr ⟨hl, by rw [← hg]; exact hf.gen _ hn⟩
  · exact le_antisymm (h.fresh_total x hx ▸ hf.total_le hs hs' (hkeep x hx).2)
      (hs'.total_nonneg _)
  · exact (hf.outRecs _ (hkeep x hx).2).trans (h.fresh_out x hx)
  · have := hset.zeroStack
    simp [step, this]
  · obtain ⟨a, ha, hr⟩ := (hroot i).mpr (((hlive i).mp hi).2.resolve_left hn)
    exact ⟨a, ha, Or.inl hr⟩
  · obtain ⟨hl, hn⟩ := hback x hx
    exact (hf.root _ hn).trans (h.roots_eq x hl)
  · obtain ⟨hl, hn⟩ := hback _ hr
    have := hf.outRecs _ hn
    simp only [step, this]
    exact h.edges_eq r hl
  · refine h.future x ?_
    by_cases hd : x.index ∈ s.eng.dead
    · left
      rcases hx with hx | ⟨hx, ha⟩
      · exact (hf.gen_le _).trans_lt hx
      · have := hf.recycle h.pool _ hd ha
        simp only [step] at hx
        omega
    · simpa only [step, hf.gen _ hd, hf.avail _ hd] using hx

theorem Inv.message (h : s.Inv) (hm : s.Disciplined m) : (s.step (.message m)).Inv := by
  have hs := h.ready.sound
  have hfits : s.eng.Fits m := fun hop hl => by
    rw [h.roots_eq _ hl]
    exact_mod_cast hm.root_remove hop
  have hready := h.ready.process hfits
  have hp : (s.eng.process m).pool = s.eng.pool := AarcEngine.process_pool
  by_cases hterm : m.op = .terminate
  · have : s.step (.message m) = s := by
      simp [Stream.step, AarcEngine.process, GCMessage.rootsAfter, GCMessage.edgesAfter, hterm]
    rwa [this]
  have hmem : ∀ x ∈ (s.step (.message m)).fresh, x ∈ s.fresh ∧ x ≠ m.b := by
    intro x hx
    simp only [Stream.step] at hx
    split at hx
    · rwa [List.mem_filter, decide_eq_true_eq] at hx
    · next hop =>
      refine ⟨hx, ?_⟩
      rintro rfl
      refine hop (hm.first m.b hx ?_).1
      unfold GCMessage.Names
      cases hop' : m.op <;> simp_all
  have hlive : ∀ x, (s.eng.process m).live x = s.eng.live x := fun x => by
    unfold AarcEngine.live; rw [hp]
  -- a cell that stays new is named by the message neither as target nor as source
  have hnew : ∀ x ∈ s.fresh, x ≠ m.b → m.b.index = x.index → s.eng.live m.b = false := by
    intro x hx hne hi
    refine Bool.eq_false_iff.mpr fun hl => hne ?_
    exact CellPool.eq_of_valid (h.fresh_live x hx) hl hi.symm
  have hsrc : ∀ x ∈ s.fresh, x ≠ m.b → m.a.index = x.index →
      m.op = .edgeAdd ∨ m.op = .edgeRemove → s.eng.live m.a = false := by
    intro x hx hne hi hop
    refine Bool.eq_false_iff.mpr fun hl => ?_
    have hxa : x = m.a := CellPool.eq_of_valid (h.fresh_live x hx) hl hi.symm
    have := (hm.first x hx (by rcases hop with hop | hop <;> simp [GCMessage.Names, hop, hxa])).1
    rcases hop with hop | hop <;> simp [this] at hop
  have hreach : ∀ x, s.Reachable x → s.eng.tab.total x.index ≠ 0 := by
    rintro x ⟨-, a, hax, hr⟩ h0
    rcases hax.cases_tail with rfl | ⟨c, -, hc⟩
    · exact hr.ne' (hs.total_eq_zero.mp h0).1
    · exact hs.no_edge_of_total h0 hc
  have hadd : m.op = .rootAdd → s.eng.live m.b = true := fun hop =>
    (hm.root_add hop).elim (h.fresh_live m.b) And.left
  refine
    { ready := hready, pool := by simpa only [step, hp] using h.pool, fresh_live := fun x hx => ?_
      fresh_total := fun x hx => ?_, fresh_out := fun x hx => ?_, fresh_unmarked := fun x hx => ?_
      watched := fun i hi hn => ?_, roots_eq := fun x hx => ?_, edges_eq := fun r hr => ?_
      future := fun x hx => ?_ }
  · exact (hlive x).trans (h.fresh_live x (hmem x hx).1)
  · obtain ⟨hx, hne⟩ := hmem x hx
    simp only [step, AarcEngine.process_tab]
    by_cases hi : m.b.index = x.index
    · rw [AarcEngine.applied_of_dead hs (hnew x hx hne hi)]
      exact h.fresh_total x hx
    · rw [AarcEngine.total_applied_of_ne hs (Ne.symm hi)]
      exact h.fresh_total x hx
  · obtain ⟨hx, hne⟩ := hmem x hx
    simp only [step, AarcEngine.process_tab]
    rw [AarcEngine.outRecs_applied hs (hsrc x hx hne)]
    exact h.fresh_out x hx
  · obtain ⟨hx, hne⟩ := hmem x hx
    simp only [step]
    rw [AarcEngine.mem_zeroStack_process h.ready hfits (hnew x hx hne)]
    exact h.fresh_unmarked x hx
  · simp only [step, hp] at hi
    by_cases hnew' : s.New i
    · -- the cell was announced by this message, so it is rooted
      obtain ⟨x, hx, rfl⟩ := hnew'
      have hop : m.op = .rootAdd ∧ 0 < m.count ∧ x = m.b := by
        by_contra hne
        refine hn ⟨x, ?_, rfl⟩
        simp only [Stream.step]
        split
        · next hop =>
          rw [List.mem_filter, decide_eq_true_eq]
          refine ⟨hx, ?_⟩
          rintro rfl
          exact hne ⟨hop, (hm.first _ hx (by simp [GCMessage.Names, hop])).2, rfl⟩
        · exact hx
      obtain ⟨hop, hc, rfl⟩ := hop
      refine ⟨_, .refl, Or.inl ?_⟩
      have hl : s.eng.pool.valid m.b = true := h.fresh_live m.b hx
      have := hs.root_nonneg m.b.index
      simp only [AarcEngine.marks, Stream.step, AarcEngine.process_tab, RefTable.applied, hop, hl,
        if_true, RefTable.addRoot, update_self]
      omega
    · exact AarcEngine.watched_process h.ready hfits (fun i hi => h.new_out hi) h.watched
        (fun hop hl h0 hz => hreach m.b (hm.edge_add hop).2 h0) hi hnew'
  · simp only [step, AarcEngine.process_tab]
    exact GCMessage.root_applied hm.root_remove hadd h.roots_eq x ((hlive x).symm.trans hx)
  · simp only [step, AarcEngine.process_tab]
    exact GCMessage.count_applied hs hm.edge_remove
      (fun hop => ⟨(hm.edge_add hop).1.1, (hm.edge_add hop).2.1⟩) h.edges_eq r
      ((hlive r.src).symm.trans hr)
  · simp only [step, hp] at hx ⊢
    have hx0 := h.future x hx
    refine ⟨?_, fun r hr => ?_⟩
    · rw [GCMessage.rootsAfter_eq_zero hx0.1]
      rintro hop rfl
      exact h.not_future (hadd hop) hx
    · rw [GCMessage.edgesAfter_eq_zero (hx0.2 r hr)]
      rintro hop rfl
      obtain rfl : m.a = x := hr
      exact h.not_future (hm.edge_add hop).1.1 hx

/-- Every step of a disciplined stream keeps the invariant. -/
theorem Inv.step {a : Event} (h : s.Inv) (ha : s.Allowed a) : (s.step a).Inv := by
  cases a with
  | alloc i o r => exact h.alloc ha
  | message m => exact h.message ha
  | sweep => exact h.sweep

theorem system_inv {capacity : ℕ} {kind : Regime} {owner : OwnerToken}
    (h : (system capacity kind owner).Reachable s) : s.Inv := by
  refine h.inv (P := Inv) (fun s hs => ?_) fun s a t hs hn => ?_
  · obtain rfl : s = init capacity kind owner := hs
    exact init_inv capacity kind owner
  · obtain ⟨ha, rfl⟩ := hn
    exact hs.step ha

/-- In a disciplined stream the cells that are live right after a sweep are those that a root
reaches, and those that the stream has allocated but not announced yet. -/
theorem live_after_sweep {capacity : ℕ} {kind : Regime} {owner : OwnerToken} {t : Stream}
    (h : (system capacity kind owner).Reachable s)
    (hn : (system capacity kind owner).next s .sweep t) (i : ℕ) :
    t.eng.pool.isLiveAt i = true ↔ t.eng.tab.Rooted i ∨ t.New i := by
  have hs := system_inv h
  obtain ⟨-, rfl⟩ := hn
  obtain ⟨hlive, hroot⟩ := AarcEngine.sweep_exact hs.ready (fun i hi => hs.new_out hi)
    (fun i hi => hs.new_clear hi) hs.watched
  have hl : ∀ i, s.New i ∨ s.eng.marks.Rooted i → s.eng.pool.isLiveAt i = true := by
    rintro i (⟨x, hx, rfl⟩ | ⟨a, hai, hr⟩)
    · exact (CellPool.valid_iff.mp (hs.fresh_live x hx)).1
    · rcases hai.cases_tail with rfl | ⟨c, -, hci⟩
      · by_contra hd
        have h0 := hs.ready.sound.dead_root _ (Bool.eq_false_iff.mpr hd)
        exact hr.ne' h0
      · exact (hs.ready.sound.edge_live hci).2
  have hr : (s.step .sweep).eng.tab.Rooted i ↔ s.eng.marks.Rooted i := hroot i
  have ht : (s.step .sweep).eng.pool.isLiveAt i = true ↔
      s.eng.pool.isLiveAt i = true ∧ (s.New i ∨ s.eng.marks.Rooted i) := hlive i
  rw [hr, ht, and_iff_right_of_imp (hl i), or_comm]
  rfl

section Example

theorem reachable_step {capacity : ℕ} {kind : Regime} {owner : OwnerToken} {a : Event}
    (h : (system capacity kind owner).Reachable s) (ha : s.Allowed a) :
    (system capacity kind owner).Reachable (s.step a) := h.next ⟨ha, rfl⟩

/-- A stream that allocates and announces two cells, links them and drops the target's root. -/
def linked (n : ℕ) : Stream :=
  ([.alloc 0 kNoOwnerToken .loc, .message ⟨.rootAdd, kNullHandle, ⟨0, 1⟩, 1⟩,
    .alloc 1 kNoOwnerToken .loc, .message ⟨.rootAdd, kNullHandle, ⟨1, 1⟩, 1⟩,
    .message ⟨.edgeAdd, ⟨0, 1⟩, ⟨1, 1⟩, 1⟩,
    .message ⟨.rootRemove, kNullHandle, ⟨1, 1⟩, 1⟩].take n).foldl step (init 2 .loc kNoOwnerToken)

theorem linked_reachable : (system 2 .loc kNoOwnerToken).Reachable (linked 6) := by
  have hrooted : ∀ (s : Stream) (h : ObjHandle), s.eng.live h = true →
      0 < s.eng.tab.root h.index → s.Reachable h := fun s h hl hr => ⟨hl, h.index, .refl, hr⟩
  have hnone : ∀ {l : List ObjHandle} {P : ObjHandle → Prop}, l = [] → ∀ h ∈ l, P h :=
    fun hl h hh => by simp [hl] at hh
  have h0 : (system 2 .loc kNoOwnerToken).Reachable (linked 0) := .start rfl
  have h1 := reachable_step h0 (a := .alloc 0 kNoOwnerToken .loc) ⟨by decide, by decide⟩
  have h2 := reachable_step h1 (a := .message ⟨.rootAdd, kNullHandle, ⟨0, 1⟩, 1⟩)
    { first := fun _ _ _ => by decide, root_add := fun _ => Or.inl (by decide)
      edge_add := by simp, root_remove := by simp, edge_remove := by simp }
  have h3 := reachable_step h2 (a := .alloc 1 kNoOwnerToken .loc) ⟨by decide, by decide⟩
  have h4 := reachable_step h3 (a := .message ⟨.rootAdd, kNullHandle, ⟨1, 1⟩, 1⟩)
    { first := fun _ _ _ => by decide, root_add := fun _ => Or.inl (by decide)
      edge_add := by simp, root_remove := by simp, edge_remove := by simp }
  have h5 := reachable_step h4 (a := .message ⟨.edgeAdd, ⟨0, 1⟩, ⟨1, 1⟩, 1⟩)
    { first := hnone (by decide), root_add := by simp
      edge_add := fun _ => ⟨hrooted _ _ (by decide) (by decide), hrooted _ _ (by decide) (by decide)⟩
      root_remove := by simp, edge_remove := by simp }
  exact reachable_step h5 (a := .message ⟨.rootRemove, kNullHandle, ⟨1, 1⟩, 1⟩)
    { first := hnone (by decide), root_add := by simp
      edge_add := by simp, root_remove := fun _ => by decide, edge_remove := by simp }

theorem live_after_sweep_linked : ((linked 6).step .sweep).eng.pool.isLiveAt 1 = true ↔
    ((linked 6).step .sweep).eng.tab.Rooted 1 ∨ ((linked 6).step .sweep).New 1 :=
  live_after_sweep linked_reachable ⟨trivial, rfl⟩ 1

end Example

end Stream

end Loxis.Aarc
