import Mathlib.Algebra.BigOperators.Group.Finset.Basic
import Loxis.Aarc.Async

/-! # What asynchronous runs keep

The engine follows the messages it has processed, every channel gives each handle as
many roots as its mutator holds, and the round stands where its phase says. None of it
depends on how the mutators use the operations.
-/

namespace Loxis.Aarc

open Function

section Inv

/-- Changing one channel changes a sum over the channels by the difference. -/
theorem sum_update {β : Type*} {n i : ℕ} (hi : i < n) (g : β → ℤ) (f : ℕ → β) (d : β) :
    ∑ j ∈ Finset.range n, g (update f i d j) =
      ∑ j ∈ Finset.range n, g (f j) + (g d - g (f i)) := by
  have h1 : (fun j => g (update f i d j)) = update (fun j => g (f j)) i (g d) := by
    ext j
    simp only [update_apply]
    split <;> rfl
  have hmem := Finset.mem_range.mpr hi
  rw [h1, Finset.sum_update_of_mem hmem, Finset.sum_eq_add_sum_sdiff_singleton_of_mem hmem]
  omega

namespace Scene

variable {c : Config} {s : Scene} {m : GCMessage} {h : ObjHandle} {i k : ℕ} {d : Channel}

/-- The roots that a mutator still has to give up. -/
def Holds (s : Scene) (i : ℕ) : List ObjHandle := (s.muts i).owed.getD (s.muts i).bag

/-- What every scene keeps. -/
structure Inv (s : Scene) : Prop where
  ok : s.toWorld.Ok
  follows : s.eng.Follows s.seen
  seen_sum : ∀ f : GCMessage → ℤ, (s.seen.map f).sum =
    ∑ i ∈ Finset.range s.slots, ((s.chan i).popped.map f).sum
  seen_mem : ∀ m, m ∈ s.seen ↔ ∃ i, m ∈ (s.chan i).popped
  past : ∀ i, ∀ m ∈ (s.chan i).published, ∀ h, m.Names h → s.eng.pool.Past h
  backed : ∀ i q h, q <+: (s.chan i).published → 0 ≤ gain q h
  holds : ∀ i h, gain (s.chan i).published h = ((s.Holds i).count h : ℤ)
  plain : ∀ i, (s.chan i).flushing = false → ∀ m ∈ (s.chan i).staged, m.Plain
  roots : ∀ h, (s.roots h : ℤ) = ∑ i ∈ Finset.range s.slots, gain (s.chan i).published h

theorem init_inv (capacity : ℕ) : (init capacity).Inv := by
  constructor
  · constructor
    · exact fun _ => Channel.init_ok
    · exact fun _ _ => rfl
    · rfl
    · rfl
    · exact le_rfl
  · exact AarcEngine.init_follows _ _ _
  · exact fun f => rfl
  · simp [init, Channel.popped]
  · simp [init, Channel.published]
  · intro i q h hq
    obtain rfl := List.prefix_nil.mp (hq.trans (by simp [init, Channel.published]))
    exact le_rfl
  · simp [init, Channel.published, Holds]
  · simp [init]
  · simp [init]

/-- The messages processed give no handle fewer roots than none, and one more popped message
keeps it so. -/
theorem Inv.fits (hs : s.Inv) (hi : i < s.slots) (hn : (s.chan i).next = some m) :
    s.eng.Fits m := by
  refine hs.follows.fits fun h => ?_
  have hpre : (s.chan i).popped ++ [m] <+: (s.chan i).published := by
    rw [← Channel.popped_pop hn]
    exact Channel.popped_prefix
  have hsum := hs.seen_sum (·.gain h)
  have hrest : ∑ j ∈ Finset.range s.slots, gain (s.chan j).popped h =
      gain (s.chan i).popped h + ∑ j ∈ Finset.range s.slots \ {i}, gain (s.chan j).popped h :=
    Finset.sum_eq_add_sum_sdiff_singleton_of_mem (Finset.mem_range.mpr hi) _
  have hnn : 0 ≤ ∑ j ∈ Finset.range s.slots \ {i}, gain (s.chan j).popped h :=
    Finset.sum_nonneg fun j _ => hs.backed j _ h Channel.popped_prefix
  have hm := hs.backed i _ h hpre
  rw [gain_append] at hm ⊢
  have hseen : gain s.seen h = ∑ j ∈ Finset.range s.slots, gain (s.chan j).popped h := hsum
  omega

theorem Inv.drain (hs : s.Inv) (hi : i < s.slots) (hn : (s.chan i).next = some m) :
    ({ s with toWorld := s.toWorld.drain i m } : Scene).Inv := by
  have hpop := Channel.popped_pop hn
  have hmem : m ∈ (s.chan i).published := by
    refine (Channel.popped_prefix (c := (s.chan i).pop)).subset ?_
    rw [hpop]
    simp
  have hpub : ∀ j, (update s.chan i (s.chan i).pop j).published = (s.chan j).published := by
    intro j
    by_cases hj : j = i
    · subst hj
      simp
    · simp [hj]
  constructor
  · exact hs.ok.drain hi hn
  · exact hs.follows.process (hs.fits hi hn) (hs.past i m hmem)
  · intro f
    have := sum_update hi (fun d : Channel => (d.popped.map f).sum) s.chan (s.chan i).pop
    simp only [World.drain, List.map_append, List.sum_append, hs.seen_sum f]
    rw [this, hpop]
    simp
  · intro x
    simp only [World.drain, List.mem_append, List.mem_singleton, hs.seen_mem]
    constructor
    · rintro (⟨j, hj⟩ | rfl)
      · by_cases hji : j = i
        · subst hji
          exact ⟨j, by rw [update_self, hpop]; exact List.mem_append_left _ hj⟩
        · exact ⟨j, by rwa [update_of_ne hji]⟩
      · exact ⟨i, by rw [update_self, hpop]; simp⟩
    · rintro ⟨j, hj⟩
      by_cases hji : j = i
      · subst hji
        rw [update_self, hpop, List.mem_append, List.mem_singleton] at hj
        exact hj.imp_left fun hj => ⟨j, hj⟩
      · rw [update_of_ne hji] at hj
        exact Or.inl ⟨j, hj⟩
  · intro j x hx h hx'
    simp only [World.drain, hpub] at hx ⊢
    rw [AarcEngine.process_pool]
    exact hs.past j x hx h hx'
  · intro j q h hq
    simp only [World.drain, hpub] at hq
    exact hs.backed j q h hq
  · intro j h
    simp only [World.drain, hpub]
    exact hs.holds j h
  · intro j hf
    by_cases hji : j = i
    · subst hji
      simp only [World.drain, update_self] at hf ⊢
      exact hs.plain j hf
    · simp only [World.drain, update_of_ne hji] at hf ⊢
      exact hs.plain j hf
  · intro h
    simp only [World.drain, hpub]
    exact hs.roots h

theorem Inv.sweep (hs : s.Inv) : ({ s with eng := s.eng.sweep } : Scene).Inv := by
  obtain ⟨hf, -⟩ := AarcEngine.sweep_spec hs.follows.ready.toInv
  exact
    { hs with
      ok := ⟨hs.ok.chan, hs.ok.unused, hs.ok.epoch, hs.ok.round, hs.ok.round_le⟩
      follows := hs.follows.sweep
      past := fun j x hx h hn => hf.past hs.follows.pool (hs.past j x hx h hn) }

/-- The round is no concern of the invariant, apart from how far its slot list may reach. -/
theorem Inv.setRound (hs : s.Inv) {r : Round} (h1 : r.slots = r.slotsEpoch)
    (h2 : r.slotsEpoch ≤ s.slots) : ({ s with round := r } : Scene).Inv :=
  { hs with ok := ⟨hs.ok.chan, hs.ok.unused, hs.ok.epoch, h1, h2⟩ }

/-- A step of the worker keeps the scene. -/
theorem Inv.work (hs : s.Inv) : ({ s with toWorld := s.toWorld.work } : Scene).Inv := by
  have hok := hs.ok.work
  have hround : s.toWorld.work.round.slots = s.toWorld.work.round.slotsEpoch ∧
      s.toWorld.work.round.slotsEpoch ≤ s.slots :=
    ⟨hok.round, hok.round_le.trans (World.work_slots _).1.le⟩
  rcases s.toWorld.work_cases with ⟨r, hw, -⟩ | ⟨i, m, -, hi, -, hn, hw⟩ | ⟨-, -, hw⟩
  · rw [hw] at hround ⊢
    exact hs.setRound hround.1 hround.2
  · rw [hw]
    exact hs.drain (hi.trans_le (hs.ok.round.le.trans hs.ok.round_le)) hn
  · rw [hw] at hround ⊢
    exact hs.sweep.setRound hround.1 hround.2

/-- A step that touches one channel, the roots its mutator holds, and the ledgers. -/
theorem Inv.change (hs : s.Inv) {μ : Mutator} {f : ObjHandle → ℕ} {g : EdgeRec → ℕ}
    (hi : i < s.slots) (hok : d.Ok) (hpop : d.popped = (s.chan i).popped)
    (hback : ∀ q h, q <+: d.published → 0 ≤ gain q h)
    (hpast : ∀ m ∈ d.published, ∀ h, m.Names h → s.eng.pool.Past h)
    (hplain : d.flushing = false → ∀ m ∈ d.staged, m.Plain)
    (hholds : ∀ h, gain d.published h = ((μ.owed.getD μ.bag).count h : ℤ))
    (hroots : ∀ h, (f h : ℤ) = s.roots h + (gain d.published h - gain (s.chan i).published h)) :
    ({ s with chan := update s.chan i d, muts := update s.muts i μ,
              roots := f, edges := g } : Scene).Inv := by
  have hpopped : ∀ j, (update s.chan i d j).popped = (s.chan j).popped := by
    intro j
    by_cases hj : j = i
    · subst hj
      rw [update_self, hpop]
    · rw [update_of_ne hj]
  constructor
  · constructor
    · intro j
      by_cases hj : j = i
      · subst hj
        simpa using hok
      · simpa [hj] using hs.ok.chan j
    · intro j hj
      have : j ≠ i := by rintro rfl; exact absurd hi (not_lt.mpr hj)
      simpa [this] using hs.ok.unused j hj
    · exact hs.ok.epoch
    · exact hs.ok.round
    · exact hs.ok.round_le
  · exact hs.follows
  · intro f
    simp only [hpopped]
    exact hs.seen_sum f
  · simpa only [hpopped] using hs.seen_mem
  · intro j x hx
    by_cases hj : j = i
    · subst hj
      exact hpast x (by simpa using hx)
    · exact hs.past j x (by simpa [hj] using hx)
  · intro j q h hq
    by_cases hj : j = i
    · subst hj
      exact hback q h (by simpa using hq)
    · exact hs.backed j q h (by simpa [hj] using hq)
  · intro j h
    unfold Holds
    by_cases hj : j = i
    · subst hj
      simpa using hholds h
    · simp only [update_of_ne hj]
      exact hs.holds j h
  · intro j hf x hx
    by_cases hj : j = i
    · subst hj
      exact hplain (by simpa using hf) x (by simpa using hx)
    · exact hs.plain j (by simpa [hj] using hf) x (by simpa [hj] using hx)
  · intro h
    have := sum_update hi (fun d : Channel => gain d.published h) s.chan d
    rw [this, hroots h, hs.roots h]

/-- Moves inside the channel that publish nothing new. -/
theorem Inv.setChan (hs : s.Inv) (hi : i < s.slots) (hok : d.Ok)
    (hpop : d.popped = (s.chan i).popped) (hpub : d.published = (s.chan i).published)
    (hplain : d.flushing = false → ∀ m ∈ d.staged, m.Plain) : (s.setChan i d).Inv := by
  have := hs.change (μ := s.muts i) (f := s.roots) (g := s.edges) hi hok hpop
    (fun q h hq => hs.backed i q h (hpub ▸ hq)) (fun m hm => hs.past i m (hpub ▸ hm)) hplain
    (fun h => by rw [hpub]; exact hs.holds i h) (fun h => by rw [hpub]; omega)
  rw [update_eq_self] at this
  exact this

/-- Staging a plain message about handles that were given out. -/
theorem Inv.submit (hs : s.Inv) {μ : Mutator} (hi : i < s.slots) (hm : m.Plain)
    (hc : (s.chan i).flushing = false) (hpast : ∀ h, m.Names h → s.eng.pool.Past h)
    (hμ : ∀ h, ((μ.owed.getD μ.bag).count h : ℤ) = (s.Holds i).count h + m.gain h) :
    ((s.submit i m).setMut i μ).Inv := by
  have hg : ∀ h, gain ((s.chan i).publish m).published h =
      ((μ.owed.getD μ.bag).count h : ℤ) := fun h => by
    rw [Channel.published_publish, gain_append, gain_singleton, hs.holds i h, hμ h]
  refine hs.change hi (hs.ok.chan i).publish rfl (fun q h hq => ?_) (fun x hx => ?_)
    (fun _ x hx => ?_) hg fun h => ?_
  · rw [Channel.published_publish] at hq
    rcases List.prefix_concat_iff.mp hq with rfl | hq
    · rw [← Channel.published_publish, hg]
      exact Int.natCast_nonneg _
    · exact hs.backed i q h hq
  · rw [Channel.published_publish, List.mem_append, List.mem_singleton] at hx
    rcases hx with hx | rfl
    · exact hs.past i x hx
    · exact hpast
  · simp only [Channel.publish, List.mem_append, List.mem_singleton] at hx
    rcases hx with hx | rfl
    · exact hs.plain i hc x hx
    · exact hm
  · have hsub : m.op = .rootRemove → m.count ≤ s.roots m.b := by
      intro hop
      have h1 := hμ m.b
      have h2 := hs.roots m.b
      have h3 := hs.holds i m.b
      have h4 : gain (s.chan i).published m.b ≤
          ∑ j ∈ Finset.range s.slots, gain (s.chan j).published m.b :=
        Finset.single_le_sum (f := fun j => gain (s.chan j).published m.b)
          (fun j _ => hs.backed j _ _ List.prefix_rfl) (Finset.mem_range.mpr hi)
      simp only [GCMessage.gain, hop, if_true] at h1
      omega
    change ((m.rootsAfter s.roots h : ℕ) : ℤ) = _
    rw [GCMessage.rootsAfter_eq hsub, hg, hμ, hs.holds i h]
    omega

theorem Inv.edge (hs : s.Inv) (hi : i < s.slots) (hm : m.Plain)
    (hc : (s.chan i).flushing = false) (hpast : ∀ h, m.Names h → s.eng.pool.Past h)
    (hg : ∀ h, m.gain h = 0) : (s.submit i m).Inv := by
  have := hs.submit (μ := s.muts i) hi hm hc hpast fun h => by rw [hg h, add_zero]; rfl
  unfold setMut at this
  rwa [show update (s.submit i m).muts i (s.muts i) = (s.submit i m).muts from
    update_eq_self _ _] at this

theorem Inv.setMut (hs : s.Inv) {μ : Mutator}
    (hμ : ∀ h, (μ.owed.getD μ.bag).count h = (s.Holds i).count h) : (s.setMut i μ).Inv := by
  refine { hs with ok := ⟨hs.ok.chan, hs.ok.unused, hs.ok.epoch, hs.ok.round, hs.ok.round_le⟩
                   holds := fun j h => ?_ }
  unfold Holds Scene.setMut
  by_cases hj : j = i
  · subst hj
    simp only [update_self]
    rw [hμ h]
    exact hs.holds j h
  · simp only [update_of_ne hj]
    exact hs.holds j h

theorem Inv.beginFlush (hs : s.Inv) (hi : i < s.slots) (h0 : (s.chan i).batchN ≠ 0)
    (hc : (s.chan i).flushing = false) : (s.setChan i ((s.chan i).beginFlush c.fold)).Inv := by
  have hok := (hs.ok.chan i).beginFlush (f := c.fold) h0
  cases hf : c.fold with
  | false => exact hs.setChan hi (hf ▸ hok) rfl rfl fun h => by cases h
  | true =>
    rw [hf] at hok
    have hpub : ((s.chan i).beginFlush true).published =
        (s.chan i).log ++ folded (s.chan i).staged := rfl
    have hpl := hs.plain i hc
    have hg : ∀ h, gain ((s.chan i).beginFlush true).published h =
        gain (s.chan i).published h := fun h => by
      rw [hpub, Channel.published, gain_append, gain_append, gain_folded hpl]
    have hback : ∀ q h, q <+: ((s.chan i).beginFlush true).published → 0 ≤ gain q h := by
      intro q h hq
      rw [hpub] at hq
      rcases List.prefix_or_prefix_of_prefix hq (List.prefix_append _ _) with hq' | ⟨q', rfl⟩
      · exact hs.backed i q h (hq'.trans (List.prefix_append _ _))
      · -- a folded message carries the net of the whole batch for its handle
        obtain ⟨p, -, rfl⟩ := prefix_foldedUpTo ((List.prefix_append_right_inj _).mp hq)
        rw [gain_append, gain_foldedUpTo]
        split
        · rw [← gain_eq_net hpl, ← gain_append]
          exact hs.backed i _ h List.prefix_rfl
        · rw [add_zero]
          exact hs.backed i _ h (List.prefix_append _ _)
    have := hs.change (μ := s.muts i) (f := s.roots) (g := s.edges) hi hok rfl hback
      (fun m hm h hn => by
        rw [hpub, List.mem_append] at hm
        rcases hm with hm | hm
        · exact hs.past i m (List.mem_append_left _ hm) h hn
        · obtain ⟨x, hx, rfl⟩ := exists_of_mem_folded hm
          exact hs.past i x (List.mem_append_right _ hx) h (names_settle.mp hn))
      (fun h => by cases h) (fun h => by rw [hg]; exact hs.holds i h)
      (fun h => by rw [hg]; omega)
    rw [update_eq_self] at this
    exact this

theorem Inv.alloc (hs : s.Inv) {o : OwnerToken} {r : Regime} {p : CellPool}
    (ha : s.eng.pool.allocInto k o r = some (h, p)) :
    ({ s with eng := s.eng.setPool p } : Scene).Inv :=
  { hs with
    ok := ⟨hs.ok.chan, hs.ok.unused, hs.ok.epoch, hs.ok.round, hs.ok.round_le⟩
    follows := hs.follows.alloc ha
    past := fun j x hx y hy => AarcEngine.past_alloc hs.follows.pool ha (hs.past j x hx y hy) }

/-- Every step of a mutator or of the worker keeps the scene. -/
theorem Inv.act {t : Scene} {a : Async.Action} (hs : s.Inv) (ha : s.act c a = some t) : t.Inv := by
  have hpast : ∀ {x}, s.eng.live x = true → s.eng.pool.Past x := fun hx =>
    AarcEngine.past_of_live hs.follows.pool hx
  cases a with
  | join o =>
    obtain rfl := Option.some.inj ha
    have h0 := hs.ok.unused s.slots le_rfl
    refine { hs with ok := ⟨hs.ok.chan, ?_, ?_, hs.ok.round, ?_⟩, seen_sum := ?_, holds := ?_
                     roots := ?_ }
    · exact fun j hj => hs.ok.unused j (Nat.le_of_succ_le hj)
    · exact congrArg (· + 1) hs.ok.epoch
    · exact hs.ok.round_le.trans (Nat.le_succ _)
    · intro f
      simp only [World.join]
      rw [Finset.sum_range_succ, h0, hs.seen_sum f]
      simp [Channel.popped]
    · intro j h
      unfold Holds
      simp only [World.join]
      by_cases hj : j = s.slots
      · subst hj
        simp [h0, Channel.published]
      · rw [update_of_ne hj]
        exact hs.holds j h
    · intro h
      simp only [World.join]
      rw [Finset.sum_range_succ, h0, hs.roots h]
      simp [Channel.published]
  | alloc i k =>
    simp only [Scene.act] at ha
    split at ha
    · next hr =>
      obtain ⟨⟨h, p⟩, hal, rfl⟩ := Option.map_eq_some_iff.mp ha
      have hs' := hs.alloc hal
      have hlive : (s.eng.setPool p).live h = true :=
        (AarcEngine.valid_alloc hs.follows.pool hal h).mpr (Or.inr rfl)
      refine hs'.submit hr.1.1 ⟨by simp, fun _ => rfl⟩ hr.1.2.1 (fun x hx => ?_) fun x => ?_
      · obtain rfl : x = h := hx
        exact AarcEngine.past_of_live hs'.follows.pool hlive
      · simp [Holds, Scene.submit, hr.2, GCMessage.gain, List.count_cons, apply_ite]
    · cases ha
  | rootAdd i h =>
    simp only [Scene.act, Option.ite_none_right_eq_some] at ha
    obtain ⟨⟨hr, -, hl⟩, ⟨⟩⟩ := ha
    refine hs.submit hr.1.1 ⟨by simp, fun _ => rfl⟩ hr.1.2.1 (fun x hx => ?_) fun x => ?_
    · obtain rfl : x = h := hx
      exact hpast hl
    · simp [Holds, Scene.submit, hr.2, GCMessage.gain, List.count_cons, apply_ite]
  | rootRemove i h =>
    simp only [Scene.act, Option.ite_none_right_eq_some] at ha
    obtain ⟨⟨hr, -, -, hb⟩, ⟨⟩⟩ := ha
    have hpos := List.count_pos_iff.mpr hb
    have hcount : ∀ x, (((s.muts i).bag.erase h).count x : ℤ) =
        (s.muts i).bag.count x + if h = x then -1 else 0 := fun x => by
      rw [List.count_erase]
      split
      · simp_all
        omega
      · simp_all
    refine hs.submit hr.1.1 ⟨by simp, fun _ => rfl⟩ hr.1.2.1 (fun x hx => ?_) fun x => ?_
    · -- a root that is held was reported, so its handle was given out
      obtain rfl : x = h := hx
      have hg : gain (s.chan i).published x ≠ 0 := by
        rw [hs.holds i x]
        simp only [Holds, hr.2, Option.getD_none]
        omega
      by_contra hno
      exact hg (AarcEngine.gain_of_not_named fun m hm hn => hno (hs.past i m hm x hn))
    · simpa [Holds, Scene.submit, hr.2, GCMessage.gain] using hcount x
  | edgeAdd i a b =>
    simp only [Scene.act, Option.ite_none_right_eq_some] at ha
    obtain ⟨⟨hr, hla, hlb⟩, ⟨⟩⟩ := ha
    refine hs.edge hr.1.1 ⟨by simp, by simp [GCMessage.isRoot]⟩ hr.1.2.1 (fun x hx => ?_) fun x => rfl
    rcases hx with rfl | rfl
    · exact hpast hla
    · exact hpast hlb
  | edgeRemove i a b =>
    simp only [Scene.act, Option.ite_none_right_eq_some] at ha
    obtain ⟨⟨hr, hla, hlb⟩, ⟨⟩⟩ := ha
    refine hs.edge hr.1.1 ⟨by simp, by simp [GCMessage.isRoot]⟩ hr.1.2.1 (fun x hx => ?_) fun x => rfl
    rcases hx with rfl | rfl
    · exact hpast hla
    · exact hpast hlb
  | beginFlush i =>
    simp only [Scene.act, Option.ite_none_right_eq_some] at ha
    obtain ⟨⟨hi, hc, h0⟩, ⟨⟩⟩ := ha
    exact hs.beginFlush hi h0 hc
  | commit i n =>
    simp only [Scene.act, Option.ite_none_right_eq_some] at ha
    obtain ⟨⟨hi, -⟩, ⟨⟩⟩ := ha
    exact hs.setChan hi (hs.ok.chan i).commit (hs.ok.chan i).popped_commit Channel.published_commit
      fun hf m hm => hs.plain i hf m (List.mem_of_mem_drop hm)
  | endFlush i =>
    simp only [Scene.act, Option.ite_none_right_eq_some] at ha
    obtain ⟨⟨hi, hf, h0⟩, ⟨⟩⟩ := ha
    exact hs.setChan hi ((hs.ok.chan i).endFlush hf h0) rfl rfl fun _ m hm => by
      rw [show ((s.chan i).endFlush).staged = [] from h0] at hm
      cases hm
  | close i order =>
    simp only [Scene.act, Option.ite_none_right_eq_some] at ha
    obtain ⟨⟨hr, -, -, hperm⟩, ⟨⟩⟩ := ha
    refine hs.setMut fun h => ?_
    simpa [Holds, hr.2] using hperm.count_eq h
  | closeRoot i =>
    simp only [Scene.act] at ha
    split at ha
    · next h rest ho =>
      simp only [Option.ite_none_right_eq_some] at ha
      obtain ⟨hr, ⟨⟩⟩ := ha
      refine hs.submit hr.1 ⟨by simp, fun _ => rfl⟩ hr.2.1 (fun x hx => ?_) fun x => ?_
      · obtain rfl : x = h := hx
        have hg : gain (s.chan i).published x ≠ 0 := by
          rw [hs.holds i x]
          simp only [Holds, ho, Option.getD_some, List.count_cons_self]
          omega
        by_contra hno
        exact hg (AarcEngine.gain_of_not_named fun m hm hn => hno (hs.past i m hm x hn))
      · simp only [Holds, ho, Option.getD_some, GCMessage.gain, List.count_cons]
        by_cases hx : h = x <;> simp [hx]
    · cases ha
  | closed i =>
    simp only [Scene.act, Option.ite_none_right_eq_some] at ha
    obtain ⟨⟨-, ho, -⟩, ⟨⟩⟩ := ha
    refine hs.setMut fun h => ?_
    simp [Holds, ho]
  | work =>
    obtain rfl := Option.some.inj ha
    exact hs.work

/-- The producers leave the round and the heads of the queues alone. -/
theorem Inv.calm {t : Scene} {a : Async.Action} (hs : s.Inv) (ha : s.act c a = some t)
    (hw : a ≠ .work) : s.toWorld.Calm t.toWorld := by
  have hchan : ∀ {t : Scene} {i : ℕ} {d : Channel}, t.round = s.round → s.slots ≤ t.slots →
      t.chan = update s.chan i d → d.head = (s.chan i).head →
      (∀ x, Channel.Later x (s.chan i) → Channel.Later x d) → s.toWorld.Calm t.toWorld := by
    intro t i d hr hn hd hh hl
    refine ⟨hr, hn, fun j => ?_, fun j x hx => ?_⟩
    · rw [hd]
      by_cases hj : j = i
      · subst hj
        rw [update_self, hh]
      · rw [update_of_ne hj]
    · rw [hd]
      by_cases hj : j = i
      · subst hj
        rw [update_self]
        exact hl x hx
      · rwa [update_of_ne hj]
  have hsame : ∀ {t : Scene}, t.round = s.round → s.slots ≤ t.slots → t.chan = s.chan →
      s.toWorld.Calm t.toWorld := by
    intro t hr hn hd
    exact ⟨hr, hn, fun j => by rw [hd], fun j x hx => by rwa [hd]⟩
  cases a with
  | join o =>
    obtain rfl := Option.some.inj ha
    exact hsame rfl (Nat.le_succ _) rfl
  | alloc i k =>
    simp only [Scene.act] at ha
    split at ha
    · obtain ⟨⟨h, p⟩, -, rfl⟩ := Option.map_eq_some_iff.mp ha
      exact hchan rfl le_rfl rfl rfl fun x hx => hx.publish
    · cases ha
  | rootAdd i h | rootRemove i h | edgeAdd i h | edgeRemove i h =>
    simp only [Scene.act, Option.ite_none_right_eq_some] at ha
    obtain ⟨-, ⟨⟩⟩ := ha
    exact hchan rfl le_rfl rfl rfl fun x hx => hx.publish
  | beginFlush i =>
    simp only [Scene.act, Option.ite_none_right_eq_some] at ha
    obtain ⟨-, ⟨⟩⟩ := ha
    exact hchan rfl le_rfl rfl rfl fun x hx => hx.beginFlush
  | commit i n =>
    simp only [Scene.act, Option.ite_none_right_eq_some] at ha
    obtain ⟨-, ⟨⟩⟩ := ha
    exact hchan rfl le_rfl rfl rfl fun x hx => hx.commit (hs.ok.chan i)
  | endFlush i =>
    simp only [Scene.act, Option.ite_none_right_eq_some] at ha
    obtain ⟨-, ⟨⟩⟩ := ha
    exact hchan rfl le_rfl rfl rfl fun x hx => hx.endFlush
  | close i order | closed i =>
    simp only [Scene.act, Option.ite_none_right_eq_some] at ha
    obtain ⟨-, ⟨⟩⟩ := ha
    exact hsame rfl le_rfl rfl
  | closeRoot i =>
    simp only [Scene.act] at ha
    split at ha
    · simp only [Option.ite_none_right_eq_some] at ha
      obtain ⟨-, ⟨⟩⟩ := ha
      exact hchan rfl le_rfl rfl rfl fun x hx => hx.publish
    · cases ha
  | work => exact absurd rfl hw

end Scene

end Inv

/-- `q` arises from `p` by allocations alone. -/
structure CellPool.Grown (p q : CellPool) : Prop where
  valid : ∀ h, p.valid h = true → q.valid h = true
  past : ∀ h, p.Past h → q.Past h
  fresh : ∀ h, q.valid h = true → p.valid h = true ∨ ¬ p.Past h

theorem CellPool.Grown.refl (p : CellPool) : p.Grown p :=
  ⟨fun _ => id, fun _ => id, fun _ => Or.inl⟩

theorem CellPool.Grown.alloc {p : CellPool} {e : AarcEngine} {q : CellPool} {h : ObjHandle}
    {k : ℕ} {o : OwnerToken} {r : Regime} (hg : p.Grown e.pool) (hp : e.pool.Sound)
    (ha : e.pool.allocInto k o r = some (h, q)) : p.Grown q := by
  have hv := AarcEngine.valid_alloc hp ha
  constructor
  · exact fun x hx => (hv x).mpr (Or.inl (hg.valid x hx))
  · exact fun x hx => AarcEngine.past_alloc hp ha (hg.past x hx)
  · intro x hx
    rcases (hv x).mp hx with hx | rfl
    · exact hg.fresh x hx
    · exact Or.inr fun hx => AarcEngine.not_past_alloc ha (hg.past x hx)

namespace Async

variable {c : Config} {s t : Async} {a : Action} {capacity : ℕ}

/-- What every run keeps. -/
structure Inv (s : Async) : Prop where
  now : s.toScene.Inv
  cut : s.cut.Inv
  round : s.toWorld.RoundOk s.cut.toWorld
  grown : s.round.phase.AfterCut → s.cut.eng.pool.Grown s.eng.pool

theorem init_inv (capacity : ℕ) : (init capacity).Inv :=
  ⟨Scene.init_inv _, Scene.init_inv _, trivial, False.elim⟩

theorem step_eq (h : s.step c a = some t) : s.toScene.act c a = some t.toScene ∧
    t.cut = if a = .work ∧ t.round.phase = .tails 0 then s.toScene else s.cut := by
  obtain ⟨u, hu, rfl⟩ := Option.map_eq_some_iff.mp h
  exact ⟨hu, rfl⟩

/-- Only an allocation changes the pool outside the worker's own steps. -/
theorem grown_act {s t : Scene} {p : CellPool} (hs : s.Inv) (ha : s.act c a = some t)
    (hw : a ≠ .work) (hg : p.Grown s.eng.pool) : p.Grown t.eng.pool := by
  cases a with
  | join o =>
    obtain rfl := Option.some.inj ha
    exact hg
  | alloc i k =>
    simp only [Scene.act] at ha
    split at ha
    · obtain ⟨⟨h, q⟩, hal, rfl⟩ := Option.map_eq_some_iff.mp ha
      exact hg.alloc hs.follows.pool hal
    · cases ha
  | closeRoot i =>
    simp only [Scene.act] at ha
    split at ha
    · simp only [Option.ite_none_right_eq_some] at ha
      obtain ⟨-, ⟨⟩⟩ := ha
      exact hg
    · cases ha
  | work => exact absurd rfl hw
  | _ =>
    simp only [Scene.act, Option.ite_none_right_eq_some] at ha
    obtain ⟨-, ⟨⟩⟩ := ha
    exact hg

/-- A step of the worker either leaves the pool alone or sweeps and ends the round. -/
theorem grown_work {s : Scene} {p : CellPool} (hg : s.round.phase.AfterCut → p.Grown s.eng.pool)
    (ht : s.toWorld.work.round.phase.AfterCut) (h0 : s.toWorld.work.round.phase ≠ .tails 0) :
    p.Grown s.toWorld.work.eng.pool := by
  have hback := World.afterCut_of_work ht h0
  rcases s.toWorld.work_cases with ⟨r, hw, -⟩ | ⟨i, m, -, -, -, -, hw⟩ | ⟨-, -, hw⟩
  · rw [hw]
    exact hg hback
  · rw [hw]
    change p.Grown (s.eng.process m).pool
    rw [AarcEngine.process_pool]
    exact hg hback
  · rw [hw] at ht
    exact ht.elim

theorem Inv.step (h : s.Inv) (ha : s.step c a = some t) : t.Inv := by
  obtain ⟨hact, hcut⟩ := step_eq ha
  have hnow := h.now.act hact
  by_cases hw : a = .work
  · subst hw
    have hwork : t.toWorld = s.toWorld.work := by
      have := Option.some.inj hact
      rw [← this]
    have hround := h.round.work h.now.ok h.cut.ok
    simp only [true_and] at hcut
    rw [← hwork] at hround
    by_cases h0 : t.round.phase = .tails 0
    · rw [if_pos h0] at hcut hround
      refine ⟨hnow, hcut ▸ h.now, hcut ▸ hround, fun _ => ?_⟩
      have hpool : t.eng.pool = s.eng.pool := by
        rcases s.toWorld.work_cases with ⟨r, hw, -⟩ | ⟨i, m, -, -, -, -, hw⟩ | ⟨-, -, hw⟩
        · rw [hwork, hw]
        · rw [hwork, hw]
          exact AarcEngine.process_pool
        · rw [hwork, hw] at h0
          cases h0
      rw [hcut, hpool]
      exact .refl _
    · rw [if_neg h0] at hcut hround
      refine ⟨hnow, hcut ▸ h.cut, hcut ▸ hround, fun hp => ?_⟩
      rw [hcut, hwork]
      rw [hwork] at hp h0
      exact grown_work h.grown hp h0
  · have hcalm := h.now.calm hact hw
    simp only [hw, false_and, if_false] at hcut
    refine ⟨hnow, hcut ▸ h.cut, hcut ▸ h.round.calm h.now.ok hcalm, fun hp => ?_⟩
    rw [hcalm.round] at hp
    rw [hcut]
    exact grown_act h.now hact hw (h.grown hp)

theorem reachable_inv {allowed : Async → Action → Prop}
    (h : (system c capacity allowed).Reachable s) : s.Inv := by
  refine h.inv (fun s hs => ?_) fun s a t hs hn => hs.step hn.2
  obtain rfl : s = init capacity := hs
  exact init_inv capacity

end Async

end Loxis.Aarc
