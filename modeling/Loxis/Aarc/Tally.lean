import Loxis.Aarc.Fold
import Loxis.Aarc.Ledger

/-! # Tallies

What a list of messages adds up to: roots for a handle, copies for an edge record.
Folding a batch keeps both sums. An engine follows a list of messages when its table
holds what they add up to, whatever it has swept in between.
-/

namespace Loxis.Aarc

open Function

namespace GCMessage

/-- The roots that a message gives to a handle. -/
def gain (h : ObjHandle) (m : GCMessage) : ℤ :=
  match m.op with
  | .rootAdd => if m.b = h then m.count else 0
  | .rootRemove => if m.b = h then -m.count else 0
  | _ => 0

/-- The copies that a message gives to an edge record. -/
def edgeGain (r : EdgeRec) (m : GCMessage) : ℤ :=
  match m.op with
  | .edgeAdd => if ⟨m.a, m.b⟩ = r then 1 else 0
  | .edgeRemove => if ⟨m.a, m.b⟩ = r then -1 else 0
  | _ => 0

/-- A message as mutators submit it: one root, and no `RootCheck`. -/
def Plain (m : GCMessage) : Prop := m.op ≠ .rootCheck ∧ (m.isRoot = true → m.count = 1)

end GCMessage

def gain (ms : List GCMessage) (h : ObjHandle) : ℤ := (ms.map (·.gain h)).sum

def edgeGain (ms : List GCMessage) (r : EdgeRec) : ℤ := (ms.map (·.edgeGain r)).sum

section Sums

variable {ms ns batch pre q : List GCMessage} {m : GCMessage} {h : ObjHandle} {r : EdgeRec}

@[simp] theorem gain_nil : gain [] h = 0 := rfl
@[simp] theorem edgeGain_nil : edgeGain [] r = 0 := rfl

@[simp] theorem gain_append : gain (ms ++ ns) h = gain ms h + gain ns h := by simp [gain]
@[simp] theorem edgeGain_append : edgeGain (ms ++ ns) r = edgeGain ms r + edgeGain ns r := by
  simp [edgeGain]

@[simp] theorem gain_singleton : gain [m] h = m.gain h := by simp [gain]
@[simp] theorem edgeGain_singleton : edgeGain [m] r = m.edgeGain r := by simp [edgeGain]

theorem GCMessage.gain_of_not_root (hm : m.isRoot = false) : m.gain h = 0 := by
  unfold GCMessage.gain
  cases hop : m.op <;> simp_all [GCMessage.isRoot]

theorem GCMessage.edgeGain_of_root (hm : m.isRoot = true) : m.edgeGain r = 0 := by
  unfold GCMessage.edgeGain
  cases hop : m.op <;> simp_all [GCMessage.isRoot]

theorem GCMessage.gain_of_one (hm : m.isRoot = true) (hc : m.count = 1) :
    m.gain h = if m.b = h then m.sign else 0 := by
  unfold GCMessage.gain GCMessage.sign
  cases hop : m.op <;> simp_all [GCMessage.isRoot]

theorem GCMessage.gain_setDelta (d : ℤ) : (m.setDelta d).gain h = if m.b = h then d else 0 := by
  unfold GCMessage.setDelta GCMessage.gain
  split_ifs <;> simp_all <;> omega

theorem GCMessage.edgeGain_setDelta (d : ℤ) : (m.setDelta d).edgeGain r = 0 := by
  unfold GCMessage.setDelta GCMessage.edgeGain
  split_ifs <;> rfl

theorem gain_eq_net (hp : ∀ m ∈ batch, m.Plain) : gain batch h = net batch h := by
  induction batch using List.reverseRecOn with
  | nil => rfl
  | append_singleton ms m ih =>
    rw [gain_append, gain_singleton, net_append, ih fun x hx => hp x (by simp [hx])]
    cases hr : m.isRoot with
    | false => simp [GCMessage.gain_of_not_root hr]
    | true => simp [GCMessage.gain_of_one hr ((hp m (by simp)).2 hr)]

/-- The part of a folded batch that a prefix accounts for gives each touched handle its net. -/
theorem gain_foldedUpTo :
    gain (foldedUpTo batch pre) h = if touched pre h then net batch h else 0 := by
  induction pre using List.reverseRecOn with
  | nil => rfl
  | append_singleton ms m ih =>
    rw [foldedUpTo_append, gain_append, ih, touched_append]
    cases hr : m.isRoot with
    | false => simp [settle, hr, GCMessage.gain_of_not_root hr]
    | true =>
      by_cases hb : m.b = h
      · subst hb
        by_cases ht : touched ms m.b = true <;> simp [ht, settle, hr, GCMessage.gain_setDelta]
      · by_cases ht : touched ms m.b = true <;> simp [ht, hb, settle, hr, GCMessage.gain_setDelta]

theorem edgeGain_foldedUpTo : edgeGain (foldedUpTo batch pre) r = edgeGain pre r := by
  induction pre using List.reverseRecOn with
  | nil => rfl
  | append_singleton ms m ih =>
    rw [foldedUpTo_append, edgeGain_append, edgeGain_append, ih, edgeGain_singleton]
    cases hr : m.isRoot with
    | false => simp [settle, hr]
    | true =>
      by_cases ht : touched ms m.b = true <;>
        simp [ht, settle, hr, GCMessage.edgeGain_setDelta, GCMessage.edgeGain_of_root hr]

theorem gain_folded (hp : ∀ m ∈ batch, m.Plain) : gain (folded batch) h = gain batch h := by
  rw [folded, gain_foldedUpTo, gain_eq_net hp]
  split
  · rfl
  · next ht => rw [net_of_not_touched (by simpa using ht)]

theorem edgeGain_folded : edgeGain (folded batch) r = edgeGain batch r := edgeGain_foldedUpTo

/-- Every prefix of the folded messages is what some prefix of the batch accounts for. -/
theorem prefix_foldedUpTo (hq : q <+: foldedUpTo batch pre) :
    ∃ p, p <+: pre ∧ q = foldedUpTo batch p := by
  induction pre using List.reverseRecOn with
  | nil =>
    obtain rfl := List.prefix_nil.mp hq
    exact ⟨[], List.prefix_rfl, rfl⟩
  | append_singleton ms m ih =>
    rw [foldedUpTo_append] at hq
    have hcase : q <+: foldedUpTo batch ms ∨ q = foldedUpTo batch (ms ++ [m]) := by
      rw [foldedUpTo_append]
      split at hq
      · exact Or.inl (by simpa using hq)
      · next hk =>
        rw [if_neg hk]
        exact (List.prefix_concat_iff.mp hq).symm
    rcases hcase with hq | rfl
    · obtain ⟨p, hp, rfl⟩ := ih hq
      exact ⟨p, hp.trans (List.prefix_append _ _), rfl⟩
    · exact ⟨_, List.prefix_rfl, rfl⟩

/-- A folded message names what the message it replaces did. -/
theorem names_settle : (settle batch m).Names h ↔ m.Names h := by
  unfold settle
  cases hr : m.isRoot with
  | false => rfl
  | true =>
    simp only [if_true, GCMessage.setDelta]
    cases hop : m.op <;> simp_all [GCMessage.isRoot] <;> split_ifs <;>
      simp [GCMessage.Names, hop]

theorem exists_of_mem_folded (hm : m ∈ folded batch) : ∃ x ∈ batch, m = settle batch x := by
  obtain ⟨x, hx, rfl⟩ := List.mem_map.mp hm
  exact ⟨x, mem_keptAfter hx, rfl⟩

end Sums

section Ledger

variable {m : GCMessage} {f : ObjHandle → ℕ} {g : EdgeRec → ℕ}

theorem GCMessage.rootsAfter_eq (hm : m.op = .rootRemove → m.count ≤ f m.b) (h : ObjHandle) :
    (m.rootsAfter f h : ℤ) = f h + m.gain h := by
  unfold GCMessage.rootsAfter GCMessage.gain
  cases hop : m.op with
  | rootAdd =>
    by_cases hb : m.b = h
    · simp [hb]
    · simp [Ne.symm hb, hb]
  | rootRemove =>
    have := hm hop
    by_cases hb : m.b = h
    · subst hb
      simp only [update_self, if_true]
      omega
    · simp [Ne.symm hb, hb]
  | _ => simp

theorem GCMessage.edgesAfter_eq (hm : m.op = .edgeRemove → 0 < g ⟨m.a, m.b⟩) (r : EdgeRec) :
    (m.edgesAfter g r : ℤ) = g r + m.edgeGain r := by
  unfold GCMessage.edgesAfter GCMessage.edgeGain
  cases hop : m.op with
  | edgeAdd =>
    by_cases hr : ⟨m.a, m.b⟩ = r
    · simp [hr]
    · simp [Ne.symm hr, hr]
  | edgeRemove =>
    have := hm hop
    by_cases hr : ⟨m.a, m.b⟩ = r
    · subst hr
      simp only [update_self, if_true]
      omega
    · simp [Ne.symm hr, hr]
  | _ => simp

end Ledger

/-- A handle that was given out: its slot is past that generation, or holds the cell. -/
def CellPool.Past (p : CellPool) (h : ObjHandle) : Prop :=
  h.gen < p.gen h.index ∨ h.gen = p.gen h.index ∧ p.avail h.index = false

namespace AarcEngine

variable {e : AarcEngine} {m : GCMessage} {h : ObjHandle} {r : EdgeRec}

theorem past_of_live (hp : e.pool.Sound) (hl : e.live h = true) : e.pool.Past h := by
  obtain ⟨hl, hg⟩ := CellPool.valid_iff.mp hl
  refine Or.inr ⟨hg.symm, Bool.eq_false_iff.mpr fun ha => ?_⟩
  have := hp _ ha
  rw [(CellPool.isLiveAt_iff.mp hl).2] at this
  cases this

/-- The root counts of the live cells follow the messages. -/
theorem root_applied_gain (hf : e.Fits m) (hl : e.live h = true) :
    (e.tab.applied e.pool m).root h.index = e.tab.root h.index + m.gain h := by
  have hne : m.b ≠ h → e.pool.valid m.b = true → h.index ≠ m.b.index := fun hne hb hi =>
    hne (CellPool.eq_of_valid hb hl hi.symm)
  unfold RefTable.applied GCMessage.gain
  cases hop : m.op with
  | rootAdd =>
    simp only
    by_cases hb : m.b = h
    · subst hb
      simp [show e.pool.valid m.b = true from hl, RefTable.addRoot]
    · split
      · next hv => simp [RefTable.addRoot, hne hb hv]
      · simp
  | rootRemove =>
    simp only
    by_cases hb : m.b = h
    · subst hb
      rw [if_pos (show e.pool.valid m.b = true from hl), RefTable.subRoot_eq (hf hop hl)]
      simp
      omega
    · split
      · next hv => simp [RefTable.subRoot_eq (hf hop hv), hne hb hv]
      · simp
  | edgeAdd =>
    simp only
    split_ifs <;> simp [RefTable.addOut, RefTable.addEdgeTo]
  | edgeRemove =>
    have h1 : (e.tab.removeOut m.a m.b).1.root = e.tab.root := by
      unfold RefTable.removeOut; split <;> rfl
    have h2 : ((e.tab.removeOut m.a m.b).1.subEdgeTo m.b.index).1.root = e.tab.root := by
      unfold RefTable.subEdgeTo; split <;> exact h1
    simp only
    split_ifs <;> simp [h1, h2]
  | rootCheck => simp
  | terminate => simp

/-- The edges between live cells follow the messages, as long as a removal finds its edge. -/
theorem count_applied_gain (hs : e.tab.Sound e.pool)
    (hm : m.op = .edgeRemove → e.live m.a = true → ⟨m.a, m.b⟩ ∈ e.tab.outRecs m.a.index)
    (ha : e.live r.src = true) (hb : e.live r.dst = true) :
    (((e.tab.applied e.pool m).outRecs r.src.index).count r : ℤ) =
      (e.tab.outRecs r.src.index).count r + m.edgeGain r := by
  cases hop : m.op with
  | edgeAdd =>
    simp only [RefTable.applied, GCMessage.edgeGain, hop]
    by_cases hr : ⟨m.a, m.b⟩ = r
    · subst hr
      simp only [show e.pool.valid m.a = true from ha, show e.pool.valid m.b = true from hb]
      simp [RefTable.addOut, RefTable.addEdgeTo]
    · rw [if_neg hr, add_zero]
      split
      · simp only [RefTable.addOut, RefTable.addEdgeTo, update_apply]
        split
        · next hi => rw [List.count_cons_of_ne hr, ← hi]
        · rfl
      · rfl
  | edgeRemove =>
    simp only [RefTable.applied, GCMessage.edgeGain, hop]
    by_cases hv : e.pool.valid m.a = true
    · have hmem := hm hop hv
      simp only [hv, RefTable.removeOut_eq hmem, hs.valid_dst _ _ hmem, hs.subEdge_unlink hmem,
        Bool.and_self, if_true]
      simp only [RefTable.unlink, update_apply]
      by_cases hr : ⟨m.a, m.b⟩ = r
      · subst hr
        have := List.count_pos_iff.mpr hmem
        simp only [if_true, List.count_erase_self]
        omega
      · rw [if_neg hr, add_zero]
        split
        · next hi => rw [List.count_erase_of_ne (Ne.symm hr), ← hi]
        · rfl
    · have hr : ⟨m.a, m.b⟩ ≠ r := by
        rintro rfl
        exact hv ha
      simp [hv, hr]
  | rootAdd | rootRemove | rootCheck | terminate =>
    rw [outRecs_applied hs fun _ h => by simp [hop] at h]
    simp [GCMessage.edgeGain, hop]

/-- A removal that finds no edge leaves the table alone. -/
theorem applied_of_missing (hop : m.op = .edgeRemove)
    (hm : ⟨m.a, m.b⟩ ∉ e.tab.outRecs m.a.index) : e.tab.applied e.pool m = e.tab := by
  simp [RefTable.applied, hop, RefTable.removeOut_eq_none hm]

theorem count_applied_le (hs : e.tab.Sound e.pool) (ha : e.live r.src = true)
    (hb : e.live r.dst = true) : ((e.tab.outRecs r.src.index).count r : ℤ) + m.edgeGain r ≤
      ((e.tab.applied e.pool m).outRecs r.src.index).count r := by
  by_cases hm : m.op = .edgeRemove → e.live m.a = true → ⟨m.a, m.b⟩ ∈ e.tab.outRecs m.a.index
  · exact (count_applied_gain hs hm ha hb).ge
  · push Not at hm
    obtain ⟨hop, -, hm⟩ := hm
    rw [applied_of_missing hop hm]
    have : m.edgeGain r ≤ 0 := by
      unfold GCMessage.edgeGain
      rw [hop]
      simp only
      split <;> omega
    omega

/-- The engine has followed the messages: its table holds the roots they add up to and at
least the edges, and a cell that none of them names is clear. -/
structure Follows (e : AarcEngine) (ms : List GCMessage) : Prop where
  ready : e.Ready
  pool : e.pool.Sound
  root : ∀ h, e.live h = true → e.tab.root h.index = gain ms h
  edges : ∀ r, e.live r.src = true → e.live r.dst = true →
    edgeGain ms r ≤ (e.tab.outRecs r.src.index).count r
  past : ∀ m ∈ ms, ∀ h, m.Names h → e.pool.Past h
  clear : ∀ h, e.live h = true → (∀ m ∈ ms, ¬ m.Names h) →
    e.tab.total h.index = 0 ∧ e.tab.outRecs h.index = [] ∧ h.index ∉ e.zeroStack

variable {ms : List GCMessage}

theorem Follows.fits (hfol : e.Follows ms) (hg : ∀ h, 0 ≤ gain (ms ++ [m]) h) : e.Fits m := by
  intro hop hl
  have h0 := hg m.b
  rw [hfol.root m.b hl]
  simp only [gain_append, gain_singleton, GCMessage.gain, hop, if_true] at h0
  omega

theorem init_follows (capacity : ℕ) (kind : Regime) (owner : OwnerToken) :
    (init capacity kind owner).Follows [] := by
  have hdead : ∀ h, (init capacity kind owner).live h = false := fun h => by
    simp [init, live, CellPool.valid, CellPool.isLiveAt, CellPool.init]
  constructor
  · exact init_ready _ _ _
  · exact CellPool.init_sound _ _
  · intro h hl
    simp [hdead] at hl
  · intro r hl
    simp [hdead] at hl
  · simp
  · intro h hl
    simp [hdead] at hl

/-- A message that fits and names given-out handles is followed. -/
theorem Follows.process (hfol : e.Follows ms) (hf : e.Fits m)
    (hpast : ∀ h, m.Names h → e.pool.Past h) : (e.process m).Follows (ms ++ [m]) := by
  have hp : (e.process m).pool = e.pool := process_pool
  have hlive : ∀ x, (e.process m).live x = e.live x := fun x => by unfold live; rw [hp]
  have hs := hfol.ready.sound
  constructor
  · exact hfol.ready.process hf
  · rw [hp]
    exact hfol.pool
  · intro h hl
    rw [hlive] at hl
    rw [process_tab, root_applied_gain hf hl, hfol.root h hl, gain_append, gain_singleton]
  · intro r ha hb
    rw [hlive] at ha hb
    have := hfol.edges r ha hb
    rw [process_tab, edgeGain_append, edgeGain_singleton]
    exact le_trans (by omega) (count_applied_le hs ha hb)
  · intro x hx h hn
    rw [hp]
    rcases List.mem_append.mp hx with hx | hx
    · exact hfol.past x hx h hn
    · obtain rfl := List.mem_singleton.mp hx
      exact hpast h hn
  · intro h hl hno
    rw [hlive] at hl
    obtain ⟨h0, hout, hz⟩ := hfol.clear h hl fun x hx => hno x (List.mem_append_left _ hx)
    have hm : ¬ m.Names h := hno m (by simp)
    by_cases hterm : m.op = .terminate
    · have : e.process m = e := by simp [AarcEngine.process, hterm]
      rw [this]
      exact ⟨h0, hout, hz⟩
    · have hb : m.b.index = h.index → e.live m.b = false := fun hi => by
        refine Bool.eq_false_iff.mpr fun hv => hm ?_
        have := CellPool.eq_of_valid hl hv hi.symm
        unfold GCMessage.Names
        cases hop : m.op <;> simp_all
      have ha : m.a.index = h.index → m.op = .edgeAdd ∨ m.op = .edgeRemove →
          e.live m.a = false := fun hi hop => by
        refine Bool.eq_false_iff.mpr fun hv => hm ?_
        have := CellPool.eq_of_valid hl hv hi.symm
        unfold GCMessage.Names
        rcases hop with hop | hop <;> simp [hop, this]
      rw [process_tab, outRecs_applied hs ha, mem_zeroStack_process hfol.ready hf hb]
      refine ⟨?_, hout, hz⟩
      by_cases hi : m.b.index = h.index
      · rw [applied_of_dead hs (hb hi), h0]
      · rw [total_applied_of_ne hs (Ne.symm hi), h0]

/-- What is live after a sweep was live before, in a slot that the sweep left alone. -/
theorem Freed.live_back {e' : AarcEngine} {F : Finset ℕ} (hf : Freed e e' F)
    (hl : e'.live h = true) : e.live h = true ∧ h.index ∉ F := by
  obtain ⟨hl, hg⟩ := CellPool.valid_iff.mp hl
  obtain ⟨hl, hn⟩ := hf.live_off hl
  exact ⟨CellPool.valid_iff.mpr ⟨hl, by rw [← hg, hf.gen _ hn]⟩, hn⟩

theorem Freed.past {e' : AarcEngine} {F : Finset ℕ} (hf : Freed e e' F) (hp : e.pool.Sound)
    (h0 : e.pool.Past h) : e'.pool.Past h := by
  unfold CellPool.Past at *
  by_cases hF : h.index ∈ F
  · have hle := hf.gen_le h.index
    have hge : h.gen ≤ e.pool.gen h.index := h0.elim le_of_lt fun h0 => h0.1.le
    cases ha : e'.pool.avail h.index with
    | false => exact (hge.trans hle).lt_or_eq.imp id fun he => ⟨he, rfl⟩
    | true => exact Or.inl (hge.trans_lt (hf.recycle hp _ hF ha))
  · rwa [hf.gen _ hF, hf.avail _ hF]

theorem Follows.sweep (hfol : e.Follows ms) : e.sweep.Follows ms := by
  obtain ⟨hf, hset⟩ := sweep_spec hfol.ready.toInv
  constructor
  · exact hset.ready
  · exact hf.poolSound hfol.pool
  · intro h hl
    obtain ⟨hl, hn⟩ := hf.live_back hl
    rw [hf.root _ hn, hfol.root h hl]
  · intro r ha hb
    obtain ⟨ha, hn⟩ := hf.live_back ha
    rw [hf.outRecs _ hn]
    exact hfol.edges r ha (hf.live_back hb).1
  · exact fun m hm h hn => hf.past hfol.pool (hfol.past m hm h hn)
  · intro h hl hno
    obtain ⟨hl, hn⟩ := hf.live_back hl
    obtain ⟨h0, hout, -⟩ := hfol.clear h hl hno
    refine ⟨?_, by rw [hf.outRecs _ hn, hout], by simp [hset.zeroStack]⟩
    exact le_antisymm (h0 ▸ hf.total_le hfol.ready.sound hset.inv.sound hn)
      (hset.inv.sound.total_nonneg _)

variable {i : ℕ} {o : OwnerToken} {k : Regime} {p : CellPool}

theorem past_alloc (hp : e.pool.Sound) (ha : e.pool.allocInto i o k = some (h, p))
    {x : ObjHandle} (hx : e.pool.Past x) : p.Past x := by
  obtain ⟨rfl, -, -, hg, -, -, hne, hi, -⟩ := alloc_pool hp ha
  unfold CellPool.Past at *
  rw [hg]
  refine hx.imp_right fun ⟨h1, h2⟩ => ⟨h1, ?_⟩
  by_cases hxi : x.index = i
  · rw [hxi, hi]
  · rw [(hne _ hxi).1, h2]

/-- A handle that an allocation yields has not been given out before. -/
theorem not_past_alloc (ha : e.pool.allocInto i o k = some (h, p)) :
    ¬ e.pool.Past h := by
  obtain ⟨-, hav, rfl, -⟩ := CellPool.allocInto_eq_some ha
  rintro (hlt | ⟨-, h2⟩)
  · exact absurd hlt (lt_irrefl _)
  · rw [CellPool.handleAt_index, hav] at h2
    cases h2

theorem gain_of_not_named (hn : ∀ m ∈ ms, ¬ m.Names h) : gain ms h = 0 := by
  induction ms with
  | nil => rfl
  | cons m ms ih =>
    have hm := hn m (by simp)
    have h0 : m.gain h = 0 := by
      unfold GCMessage.gain GCMessage.Names at *
      cases hop : m.op <;> simp_all [eq_comm]
    have := ih fun x hx => hn x (by simp [hx])
    unfold gain at *
    simp [h0, this]

theorem edgeGain_of_not_named (hn : ∀ m ∈ ms, ¬ m.Names r.src ∨ ¬ m.Names r.dst) :
    edgeGain ms r = 0 := by
  induction ms with
  | nil => rfl
  | cons m ms ih =>
    have hm := hn m (by simp)
    have h0 : m.edgeGain r = 0 := by
      unfold GCMessage.edgeGain
      cases hop : m.op <;> simp only
      all_goals
        split
        · next hr =>
          subst hr
          simp [GCMessage.Names, hop] at hm
        · rfl
    have := ih fun x hx => hn x (by simp [hx])
    unfold edgeGain at *
    simp [h0, this]

theorem Follows.alloc (hfol : e.Follows ms) (ha : e.pool.allocInto i o k = some (h, p)) :
    (e.setPool p).Follows ms := by
  have hv := valid_alloc hfol.pool ha
  have hnp := not_past_alloc ha
  have hno : ∀ m ∈ ms, ¬ m.Names h := fun m hm hn => hnp (hfol.past m hm h hn)
  obtain ⟨hh, hd, hp, -⟩ := alloc_pool hfol.pool ha
  have hi : h.index = i := by rw [hh]; rfl
  obtain ⟨h0, hout, hz, -⟩ := hfol.ready.toInv.clear hd
  have hroot : e.tab.root i = 0 := (hfol.ready.sound.total_eq_zero.mp h0).1
  constructor
  · exact hfol.ready.alloc hfol.pool ha
  · exact hp
  · intro x hx
    rcases (hv x).mp hx with hx | rfl
    · exact hfol.root x hx
    · rw [gain_of_not_named hno, hi]
      exact hroot
  · intro r hra hrb
    rcases (hv r.src).mp hra with hra | hra
    · rcases (hv r.dst).mp hrb with hrb | hrb
      · exact hfol.edges r hra hrb
      · rw [edgeGain_of_not_named fun m hm => Or.inr (hrb ▸ hno m hm)]
        exact Int.natCast_nonneg _
    · rw [edgeGain_of_not_named fun m hm => Or.inl (hra ▸ hno m hm)]
      exact Int.natCast_nonneg _
  · exact fun m hm x hx => past_alloc hfol.pool ha (hfol.past m hm x hx)
  · intro x hx hn
    rcases (hv x).mp hx with hx | rfl
    · exact hfol.clear x hx hn
    · rw [hi]
      exact ⟨h0, hout, hz⟩

end AarcEngine

end Loxis.Aarc
