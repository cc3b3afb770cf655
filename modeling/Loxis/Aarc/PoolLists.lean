import Mathlib.Data.List.Nodup
import Loxis.Aarc.Pool

/-! # The lists of the pool

All slots that wait in the lists, piles and caches, as one list without repetition. Taking a
slot removes it from this list, putting it back adds it, and a refill only permutes it.
-/

namespace Loxis.Aarc

open Function

/-- Where a slot can be. -/
inductive Holder
  | live
  | shard (s : ℕ)
  | pile (o : ℕ)
  | cache (o : ℕ)
  | retired
  deriving DecidableEq

/-- The holders of free slots. -/
def holders : List Holder :=
  (List.range kShards).map .shard ++ (List.range kMaxOwners).map .pile ++
    (List.range kMaxOwners).map .cache

theorem holders_nodup : holders.Nodup := by
  have hs : ((List.range kShards).map Holder.shard).Nodup :=
    List.nodup_range.map fun _ _ h => Holder.shard.inj h
  have hp : ((List.range kMaxOwners).map Holder.pile).Nodup :=
    List.nodup_range.map fun _ _ h => Holder.pile.inj h
  have hc : ((List.range kMaxOwners).map Holder.cache).Nodup :=
    List.nodup_range.map fun _ _ h => Holder.cache.inj h
  have hsp : ((List.range kShards).map Holder.shard).Disjoint
      ((List.range kMaxOwners).map Holder.pile) := by
    intro h h₁ h₂
    obtain ⟨_, -, rfl⟩ := List.mem_map.mp h₁
    obtain ⟨_, -, hne⟩ := List.mem_map.mp h₂
    cases hne
  refine (hs.append hp hsp).append hc fun h h₁ h₂ => ?_
  obtain ⟨_, -, rfl⟩ := List.mem_map.mp h₂
  obtain h₁ | h₁ := List.mem_append.mp h₁
  · obtain ⟨_, -, hne⟩ := List.mem_map.mp h₁
    cases hne
  · obtain ⟨_, -, hne⟩ := List.mem_map.mp h₁
    cases hne

@[simp] theorem shard_mem_holders {s : ℕ} : .shard s ∈ holders ↔ s < kShards := by
  simp [holders]

@[simp] theorem pile_mem_holders {o : ℕ} : .pile o ∈ holders ↔ o < kMaxOwners := by
  simp [holders]

@[simp] theorem cache_mem_holders {o : ℕ} : .cache o ∈ holders ↔ o < kMaxOwners := by
  simp [holders]

namespace SlotPool

/-- The slots of a holder, given the lists of the shards. -/
def slots (p : SlotPool) (L : ℕ → List ℕ) : Holder → List ℕ
  | .shard s => L s
  | .pile o => (p.recycle o).map ObjHandle.index
  | .cache o => (p.cached o).map ObjHandle.index
  | .live | .retired => []

/-- All slots that wait. -/
def held (p : SlotPool) (L : ℕ → List ℕ) : List ℕ := holders.flatMap (p.slots L)

/-- The shards hold the lists `L`, handles carry the generation of their slot, and no slot that
waits is live or waits twice. -/
structure Lists (p : SlotPool) (L : ℕ → List ℕ) : Prop where
  chain : ∀ s < kShards, Chain p.next kFreeEnd (p.heads s) (L s)
  pile : ∀ o < kMaxOwners, ∀ h ∈ p.recycle o, h.gen = p.gen h.index
  cache : ∀ o < kMaxOwners, ∀ h ∈ p.cached o, h.gen = p.gen h.index
  nodup : (p.held L).Nodup
  idle : ∀ i ∈ p.held L, i < p.capacity ∧ p.live i = false

/-- Slots were moved between holders, nothing else changed. -/
structure Moved (p q : SlotPool) : Prop where
  capacity : q.capacity = p.capacity
  gen : q.gen = p.gen
  live : q.live = p.live
  owner : q.owner = p.owner
  regime : q.regime = p.regime
  errs : q.errs = p.errs
  useLocalCache : q.useLocalCache = p.useLocalCache
  defaultRegime : q.defaultRegime = p.defaultRegime

variable {p q q' : SlotPool} {L L' : ℕ → List ℕ} {s o i : ℕ} {h : ObjHandle}

theorem Moved.refl (p : SlotPool) : Moved p p := ⟨rfl, rfl, rfl, rfl, rfl, rfl, rfl, rfl⟩

theorem Moved.trans (h : Moved p q) (h' : Moved q q') : Moved p q' :=
  ⟨h'.capacity.trans h.capacity, h'.gen.trans h.gen, h'.live.trans h.live,
    h'.owner.trans h.owner, h'.regime.trans h.regime, h'.errs.trans h.errs,
    h'.useLocalCache.trans h.useLocalCache, h'.defaultRegime.trans h.defaultRegime⟩

/-- One holder got the slot `i`. -/
theorem held_cons {x : Holder} (hx : x ∈ holders)
    (hne : ∀ y ∈ holders, y ≠ x → q.slots L' y = p.slots L y)
    (hself : (q.slots L' x).Perm (i :: p.slots L x)) : (q.held L').Perm (i :: p.held L) :=
  perm_flatMap_cons holders_nodup hx hne hself

/-- The slot `h` was taken from a holder. -/
structure Taken (p : SlotPool) (L : ℕ → List ℕ) (h : ObjHandle) (q : SlotPool)
    (L' : ℕ → List ℕ) : Prop where
  moved : Moved p q
  lists : q.Lists L'
  perm : (p.held L).Perm (h.index :: q.held L')
  gen : h.gen = p.gen h.index

theorem Taken.notMem (ht : p.Taken L h q L') (hp : p.Lists L) : h.index ∉ q.held L' :=
  (List.nodup_cons.mp (ht.perm.nodup_iff.mp hp.nodup)).1

theorem Taken.idle (ht : p.Taken L h q L') (hp : p.Lists L) :
    h.index < p.capacity ∧ p.live h.index = false :=
  hp.idle _ (ht.perm.mem_iff.mpr List.mem_cons_self)

/-! ## Taking -/

theorem update_tail_subset {f : ℕ → List ObjHandle} {rest : List ObjHandle} (hf : f o = h :: rest)
    (t : ℕ) : update f o rest t ⊆ f t := by
  by_cases ht : t = o
  · subst ht
    rw [update_self, hf]
    exact List.subset_cons_self _ _
  · rw [update_of_ne ht]
    exact List.Subset.refl _

theorem Lists.take (hp : p.Lists L) (hm : Moved p q)
    (hperm : (p.held L).Perm (h.index :: q.held L')) (hgen : h.gen = p.gen h.index)
    (hchain : ∀ s < kShards, Chain q.next kFreeEnd (q.heads s) (L' s))
    (hpile : ∀ o, q.recycle o ⊆ p.recycle o) (hcache : ∀ o, q.cached o ⊆ p.cached o) :
    p.Taken L h q L' := by
  refine ⟨hm, ⟨hchain, fun o ho g hg => ?_, fun o ho g hg => ?_, ?_, fun j hj => ?_⟩, hperm, hgen⟩
  · rw [hm.gen]
    exact hp.pile o ho g (hpile o hg)
  · rw [hm.gen]
    exact hp.cache o ho g (hcache o hg)
  · exact (List.nodup_cons.mp (hperm.nodup_iff.mp hp.nodup)).2
  · rw [hm.capacity, hm.live]
    exact hp.idle j (hperm.symm.subset (List.mem_cons_of_mem _ hj))

theorem popFrom_taken (hp : p.Lists L) (hs : s < kShards) (h0 : p.popFrom s = some (h, q)) :
    ∃ L', p.Taken L h q L' := by
  unfold popFrom at h0
  split at h0
  · cases h0
  · next hne =>
    obtain ⟨rfl, rfl⟩ := Prod.mk.inj (Option.some.inj h0)
    have hchain := hp.chain s hs
    obtain ⟨rest, hrest⟩ : ∃ rest, L s = p.heads s :: rest := by
      cases hL : L s with
      | nil =>
        rw [hL, Chain.nil_iff] at hchain
        exact absurd hchain hne
      | cons j rest =>
        rw [hL, Chain.cons_iff] at hchain
        exact ⟨rest, by rw [hchain.1]⟩
    rw [hrest, Chain.cons_iff] at hchain
    refine ⟨update L s rest, hp.take ⟨rfl, rfl, rfl, rfl, rfl, rfl, rfl, rfl⟩ ?_ rfl
      (fun t ht => ?_) (fun _ => List.Subset.refl _) (fun _ => List.Subset.refl _)⟩
    · refine held_cons (shard_mem_holders.mpr hs) (fun y _ hy => ?_) ?_
      · cases y with
        | shard t =>
          have ht : t ≠ s := fun he => hy (he ▸ rfl)
          simp [slots, update_of_ne ht]
        | pile | cache | live | retired => rfl
      · simp [slots, hrest]
    · by_cases hts : t = s
      · subst hts
        simpa using hchain.2.2
      · simpa [update_of_ne hts] using hp.chain t ht

theorem tryPop_taken (hp : p.Lists L) (ho : o < kMaxOwners) (h0 : p.tryPop o = some (h, q)) :
    p.Taken L h q L := by
  unfold tryPop at h0
  split at h0
  · cases h0
  · next g rest hrest =>
    obtain ⟨rfl, rfl⟩ := Prod.mk.inj (Option.some.inj h0)
    refine hp.take ⟨rfl, rfl, rfl, rfl, rfl, rfl, rfl, rfl⟩ ?_
      (hp.pile o ho g (hrest ▸ List.mem_cons_self)) hp.chain (fun t => ?_)
      (fun _ => List.Subset.refl _)
    · refine held_cons (pile_mem_holders.mpr ho) (fun y _ hy => ?_) ?_
      · cases y with
        | pile t =>
          have ht : t ≠ o := fun he => hy (he ▸ rfl)
          simp [slots, update_of_ne ht]
        | shard | cache | live | retired => rfl
      · simp [slots, hrest]
    · exact update_tail_subset hrest t

theorem popCache_taken (hp : p.Lists L) (ho : o < kMaxOwners) {rest : List ObjHandle}
    (hrest : p.cached o = h :: rest) :
    p.Taken L h { p with cached := update p.cached o rest } L := by
  refine hp.take ⟨rfl, rfl, rfl, rfl, rfl, rfl, rfl, rfl⟩ ?_
    (hp.cache o ho h (hrest ▸ List.mem_cons_self)) hp.chain (fun _ => List.Subset.refl _)
    (fun t => ?_)
  · refine held_cons (cache_mem_holders.mpr ho) (fun y _ hy => ?_) ?_
    · cases y with
      | cache t =>
        have ht : t ≠ o := fun he => hy (he ▸ rfl)
        simp [slots, update_of_ne ht]
      | shard | pile | live | retired => rfl
    · simp [slots, hrest]
  · exact update_tail_subset hrest t

theorem popShards_taken (hp : p.Lists L) {tlsShard : ℕ} (h0 : p.popShards tlsShard = some (h, q)) :
    ∃ L', p.Taken L h q L' := by
  obtain ⟨k, -, hk⟩ := List.exists_of_findSome?_eq_some h0
  exact popFrom_taken hp (Nat.mod_lt _ (by decide)) hk

/-! ## Putting back -/

theorem mem_update_put {f : ℕ → List ObjHandle} {l : List ObjHandle} {k g : ObjHandle} {t : ℕ}
    (hl : ∀ g ∈ l, g ∈ f o ∨ g = k) (hg : g ∈ update f o l t) : g ∈ f t ∨ g = k := by
  by_cases ht : t = o
  · subst ht
    rw [update_self] at hg
    exact hl g hg
  · rw [update_of_ne ht] at hg
    exact Or.inl hg

theorem Lists.put (hp : p.Lists L) (hn : i ∉ p.held L) (hi : i < p.capacity ∧ p.live i = false)
    (hcap : q.capacity = p.capacity) (hlive : q.live = p.live) (hgen : q.gen = p.gen)
    (hperm : (q.held L').Perm (i :: p.held L))
    (hchain : ∀ s < kShards, Chain q.next kFreeEnd (q.heads s) (L' s))
    (hpile : ∀ o < kMaxOwners, ∀ g ∈ q.recycle o, g ∈ p.recycle o ∨ g = ⟨i, p.gen i⟩)
    (hcache : ∀ o < kMaxOwners, ∀ g ∈ q.cached o, g ∈ p.cached o ∨ g = ⟨i, p.gen i⟩) :
    q.Lists L' := by
  refine ⟨hchain, fun o ho g hg => ?_, fun o ho g hg => ?_, ?_, fun j hj => ?_⟩
  · rw [hgen]
    obtain hg | rfl := hpile o ho g hg
    · exact hp.pile o ho g hg
    · rfl
  · rw [hgen]
    obtain hg | rfl := hcache o ho g hg
    · exact hp.cache o ho g hg
    · rfl
  · exact hperm.nodup_iff.mpr (List.nodup_cons.mpr ⟨hn, hp.nodup⟩)
  · rw [hcap, hlive]
    obtain rfl | hj := List.mem_cons.mp (hperm.subset hj)
    · exact hi
    · exact hp.idle j hj

theorem shardOf_lt : p.shardOf i < kShards := by
  have hlt : ∀ s : ℕ, (if s < kShards then s else kShards - 1) < kShards := by
    intro s
    split
    · assumption
    · decide
  exact hlt _

theorem pushShard_put (hp : p.Lists L) (hcap : p.capacity ≤ kFreeEnd) (hn : i ∉ p.held L)
    (hi : i < p.capacity ∧ p.live i = false) :
    ∃ L', (p.pushShard i).Lists L' ∧ ((p.pushShard i).held L').Perm (i :: p.held L) := by
  have hs := shardOf_lt (p := p) (i := i)
  have hperm : ((p.pushShard i).held (update L (p.shardOf i) (i :: L (p.shardOf i)))).Perm
      (i :: p.held L) := by
    refine held_cons (shard_mem_holders.mpr hs) (fun y _ hy => ?_) ?_
    · cases y with
      | shard t =>
        have ht : t ≠ p.shardOf i := fun he => hy (he ▸ rfl)
        simp [slots, update_of_ne ht]
      | pile | cache | live | retired => rfl
    · simp [slots]
  have hnot : ∀ t < kShards, i ∉ L t := fun t ht hmem =>
    hn (List.mem_flatMap.mpr ⟨.shard t, shard_mem_holders.mpr ht, hmem⟩)
  refine ⟨_, hp.put hn hi rfl rfl rfl hperm (fun t ht => ?_) (fun _ _ g hg => Or.inl hg)
    (fun _ _ g hg => Or.inl hg), hperm⟩
  have hne : i ≠ kFreeEnd := by omega
  simp only [pushShard]
  by_cases hts : t = p.shardOf i
  · subst hts
    rw [update_self, update_self]
    exact (hp.chain _ ht).push (hnot _ ht) hne
  · rw [update_of_ne hts, update_of_ne hts]
    refine (hp.chain t ht).congr fun j hj => update_of_ne ?_ _ _
    rintro rfl
    exact hnot t ht hj

theorem pushCache_put (hp : p.Lists L) (ho : o < kMaxOwners) (hn : h.index ∉ p.held L)
    (hi : h.index < p.capacity ∧ p.live h.index = false) (hgen : h.gen = p.gen h.index) :
    Lists { p with cached := update p.cached o (h :: p.cached o) } L ∧
      (held { p with cached := update p.cached o (h :: p.cached o) } L).Perm
        (h.index :: p.held L) := by
  have hperm : (held { p with cached := update p.cached o (h :: p.cached o) } L).Perm
      (h.index :: p.held L) := by
    refine held_cons (cache_mem_holders.mpr ho) (fun y _ hy => ?_) ?_
    · cases y with
      | cache t =>
        have ht : t ≠ o := fun he => hy (he ▸ rfl)
        simp [slots, update_of_ne ht]
      | shard | pile | live | retired => rfl
    · simp [slots]
  refine ⟨hp.put hn hi rfl rfl rfl hperm hp.chain (fun _ _ g hg => Or.inl hg)
    (fun t _ g hg => mem_update_put (fun g hg => ?_) hg), hperm⟩
  obtain rfl | hg := List.mem_cons.mp hg
  · exact Or.inr (by rw [← hgen])
  · exact Or.inl hg

theorem pushPile_put (hp : p.Lists L) (ho : o < kMaxOwners) (hn : i ∉ p.held L)
    (hi : i < p.capacity ∧ p.live i = false) :
    Lists { p with recycle := update p.recycle o (p.recycle o ++ [⟨i, p.gen i⟩]) } L ∧
      (held { p with recycle := update p.recycle o (p.recycle o ++ [⟨i, p.gen i⟩]) } L).Perm
        (i :: p.held L) := by
  have hperm : (held { p with recycle := update p.recycle o (p.recycle o ++ [⟨i, p.gen i⟩]) }
      L).Perm (i :: p.held L) := by
    refine held_cons (pile_mem_holders.mpr ho) (fun y _ hy => ?_) ?_
    · cases y with
      | pile t =>
        have ht : t ≠ o := fun he => hy (he ▸ rfl)
        simp [slots, update_of_ne ht]
      | shard | cache | live | retired => rfl
    · simp only [slots, update_self, List.map_append, List.map_cons, List.map_nil]
      exact List.perm_append_singleton _ _
  refine ⟨hp.put hn hi rfl rfl rfl hperm hp.chain
    (fun t _ g hg => mem_update_put (fun g hg => ?_) hg) (fun _ _ g hg => Or.inl hg), hperm⟩
  rwa [List.mem_append, List.mem_singleton] at hg

/-! ## Refills and drains -/

/-- Slots were moved between the holders. -/
structure Shuffled (p : SlotPool) (L : ℕ → List ℕ) (q : SlotPool) (L' : ℕ → List ℕ) : Prop where
  moved : Moved p q
  lists : q.Lists L'
  perm : (q.held L').Perm (p.held L)

theorem Lists.shuffled (hp : p.Lists L) : p.Shuffled L p L := ⟨.refl p, hp, .refl _⟩

theorem Shuffled.trans {L'' : ℕ → List ℕ} (h : p.Shuffled L q L') (h' : q.Shuffled L' q' L'') :
    p.Shuffled L q' L'' :=
  ⟨h.moved.trans h'.moved, h'.lists, h'.perm.trans h.perm⟩

theorem fill_shuffled {take : SlotPool → Option (ObjHandle × SlotPool)}
    (htake : ∀ {p L h q}, p.Lists L → take p = some (h, q) → ∃ L', p.Taken L h q L')
    (ho : o < kMaxOwners) (room : ℕ) (hp : p.Lists L) :
    ∃ L', p.Shuffled L (fill take o room p) L' := by
  induction room generalizing p L with
  | zero => exact ⟨L, hp.shuffled⟩
  | succ room ih =>
    rw [fill]
    split
    · exact ⟨L, hp.shuffled⟩
    · next h q hq =>
      obtain ⟨L₁, ht⟩ := htake hp hq
      have hidle : h.index < q.capacity ∧ q.live h.index = false := by
        rw [ht.moved.capacity, ht.moved.live]
        exact ht.idle hp
      have hgen : h.gen = q.gen h.index := by rw [ht.gen, ht.moved.gen]
      obtain ⟨hput, hperm⟩ := pushCache_put ht.lists ho (ht.notMem hp) hidle hgen
      obtain ⟨L', hrest⟩ := ih hput
      have hfirst : p.Shuffled L { q with cached := update q.cached o (h :: q.cached o) } L₁ :=
        ⟨ht.moved.trans ⟨rfl, rfl, rfl, rfl, rfl, rfl, rfl, rfl⟩, hput, hperm.trans ht.perm.symm⟩
      exact ⟨L', hfirst.trans hrest⟩

theorem foldl_shuffled {β : Type*} (f : SlotPool → β → SlotPool) (bs : List β)
    (hf : ∀ {p : SlotPool} {L : ℕ → List ℕ}, ∀ b ∈ bs, p.capacity ≤ kFreeEnd → p.Lists L →
      ∃ L', p.Shuffled L (f p b) L') (hcap : p.capacity ≤ kFreeEnd)
    (hp : p.Lists L) : ∃ L', p.Shuffled L (bs.foldl f p) L' := by
  induction bs generalizing p L with
  | nil => exact ⟨L, hp.shuffled⟩
  | cons b bs ih =>
    obtain ⟨L₁, hfirst⟩ := hf b List.mem_cons_self hcap hp
    obtain ⟨L', hrest⟩ := ih (fun b hb => hf b (List.mem_cons_of_mem _ hb))
      (hfirst.moved.capacity.trans_le hcap) hfirst.lists
    exact ⟨L', hfirst.trans hrest⟩

theorem refillLocal_shuffled (hcap : p.capacity ≤ kFreeEnd) (hp : p.Lists L) (ho : o < kMaxOwners)
    (tlsShard : ℕ) : ∃ L', p.Shuffled L (p.refillLocal tlsShard o) L' := by
  obtain ⟨L₁, hpile⟩ := fill_shuffled (fun hp hq => ⟨_, tryPop_taken hp ho hq⟩) ho (p.room o) hp
  rw [refillLocal]
  split
  · exact ⟨L₁, hpile⟩
  · obtain ⟨L', hshards⟩ := foldl_shuffled
      (fun p k => fill (·.popFrom ((tlsShard + k) % kShards)) o (p.room o) p) (List.range kShards)
      (fun k _ _ hp => fill_shuffled
        (fun hp hq => popFrom_taken hp (Nat.mod_lt _ (by decide)) hq) ho _ hp)
      (hpile.moved.capacity.trans_le hcap) hpile.lists
    exact ⟨L', hpile.trans hshards⟩

/-- The first turn of the loop that empties a pile. -/
theorem drainPile_cons {rest : List ObjHandle} (h0 : p.recycle o = h :: rest) :
    p.drainPile o =
      (pushShard { p with recycle := update p.recycle o rest } h.index).drainPile o := by
  simp only [drainPile, h0, List.foldl_cons, pushShard, update_self, update_idem]
  rfl

theorem drainPile_shuffled (ho : o < kMaxOwners) (hcap : p.capacity ≤ kFreeEnd) (hp : p.Lists L) :
    ∃ L', p.Shuffled L (p.drainPile o) L' := by
  obtain ⟨l, hl⟩ : ∃ l, p.recycle o = l := ⟨_, rfl⟩
  induction l generalizing p L with
  | nil =>
    have heq : p.drainPile o = p := by
      rw [drainPile, hl, List.foldl_nil, ← hl, update_eq_self]
    rw [heq]
    exact ⟨L, hp.shuffled⟩
  | cons h rest ih =>
    have hpop : p.tryPop o = some (h, { p with recycle := update p.recycle o rest }) := by
      rw [tryPop, hl]
    have ht := tryPop_taken hp ho hpop
    obtain ⟨L₁, hlists, hperm⟩ := pushShard_put ht.lists hcap (ht.notMem hp) (ht.idle hp)
    have hfirst : p.Shuffled L
        (pushShard { p with recycle := update p.recycle o rest } h.index) L₁ :=
      ⟨ht.moved.trans ⟨rfl, rfl, rfl, rfl, rfl, rfl, rfl, rfl⟩, hlists, hperm.trans ht.perm.symm⟩
    obtain ⟨L', hrest⟩ :=
      ih (p := pushShard { p with recycle := update p.recycle o rest } h.index) hcap hlists
        (update_self ..)
    rw [drainPile_cons hl]
    exact ⟨L', hfirst.trans hrest⟩

theorem drainRecycleAll_shuffled (hcap : p.capacity ≤ kFreeEnd) (hp : p.Lists L) :
    ∃ L', p.Shuffled L p.drainRecycleAll L' :=
  foldl_shuffled _ _ (fun _ ho hcap hp => drainPile_shuffled (List.mem_range.mp ho) hcap hp) hcap hp

end SlotPool

end Loxis.Aarc
