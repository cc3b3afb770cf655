import Loxis.Lib.Run
import Loxis.Aarc.PoolLists

/-! # Runs of the pool

In every run each slot has one holder, no handle is handed out twice, a freed handle stays
invalid, and a refused free only counts an error.
-/

namespace Loxis.Aarc

open Function

namespace SlotPool

variable {p q : SlotPool} {L L' : ℕ → List ℕ} {i : ℕ} {h : ObjHandle} {owner : OwnerToken}
  {r : Regime} {tlsShard : ℕ}

theorem valid_iff :
    p.valid h = true ↔ h.index < p.capacity ∧ p.live h.index = true ∧ p.gen h.index = h.gen := by
  simp [valid, and_assoc]

/-! ## Allocations -/

/-- Nothing was found, or a slot was taken and activated. -/
def Allocated (p : SlotPool) (L : ℕ → List ℕ) (owner : OwnerToken) (r : Regime)
    (a : Option ObjHandle × SlotPool) : Prop :=
  (∃ L', a.1 = none ∧ p.Shuffled L a.2 L') ∨
    ∃ h q L', p.Taken L h q L' ∧ a = (some h, q.activate h owner r)

theorem Shuffled.taken {q' : SlotPool} {L'' : ℕ → List ℕ} (hs : p.Shuffled L q L')
    (ht : q.Taken L' h q' L'') : p.Taken L h q' L'' :=
  ⟨hs.moved.trans ht.moved, ht.lists, hs.perm.symm.trans ht.perm, by rw [ht.gen, hs.moved.gen]⟩

theorem allocShared_spec (hp : p.Lists L) :
    p.Allocated L owner r (p.allocShared tlsShard owner r) := by
  rw [allocShared]
  split
  · exact Or.inl ⟨L, rfl, hp.shuffled⟩
  · next h q hq =>
    obtain ⟨L', ht⟩ := popShards_taken hp hq
    exact Or.inr ⟨h, q, L', ht, rfl⟩

theorem Shuffled.allocated {a : Option ObjHandle × SlotPool} (hs : p.Shuffled L q L')
    (ha : q.Allocated L' owner r a) : p.Allocated L owner r a := by
  obtain ⟨L'', hn, hq⟩ | ⟨h, q', L'', ht, he⟩ := ha
  · exact Or.inl ⟨L'', hn, hs.trans hq⟩
  · exact Or.inr ⟨h, q', L'', hs.taken ht, he⟩

theorem allocInto_spec (hcap : p.capacity ≤ kFreeEnd) (hp : p.Lists L) :
    p.Allocated L owner r (p.allocInto tlsShard owner r) := by
  rw [allocInto]
  split
  · next hcache =>
    have ho : owner.id < kMaxOwners := by
      rw [Bool.and_eq_true, decide_eq_true_eq] at hcache
      exact hcache.2
    obtain ⟨L₁, hfilled⟩ : ∃ L₁, p.Shuffled L
        (if p.cached owner.id = [] then p.refillLocal tlsShard owner.id else p) L₁ := by
      split
      · exact refillLocal_shuffled hcap hp ho tlsShard
      · exact ⟨L, hp.shuffled⟩
    dsimp only
    split
    · next h rest hrest =>
      exact Or.inr ⟨h, _, L₁, hfilled.taken (popCache_taken hfilled.lists ho hrest), rfl⟩
    · exact hfilled.allocated (allocShared_spec hfilled.lists)
  · exact allocShared_spec hp

/-! ## Frees -/

theorem free_invalid (hv : p.valid h = false) : p.free h = p.refuse := by
  rw [free]
  split
  · rfl
  · next hlt =>
    split
    · rfl
    · next hlive =>
      split
      · rfl
      · next hgen =>
        have : p.valid h = true :=
          valid_iff.mpr ⟨not_le.mp hlt, Bool.not_eq_false _ ▸ hlive, not_not.mp hgen⟩
        rw [hv] at this
        cases this

/-- The slot is retired. -/
def retire (p : SlotPool) (i : ℕ) : SlotPool := { p with live := update p.live i false }

/-- The slot has the next generation. -/
def bump (p : SlotPool) (i : ℕ) : SlotPool :=
  { p with gen := update p.gen i (p.gen i + 1), live := update p.live i false }

theorem Lists.retire (hp : p.Lists L) : (p.retire i).Lists L := by
  refine ⟨hp.chain, hp.pile, hp.cache, hp.nodup, fun j hj => ⟨(hp.idle j hj).1, ?_⟩⟩
  simp only [SlotPool.retire, update_apply]
  split
  · rfl
  · exact (hp.idle j hj).2

/-- The generation of a slot that is not in the lists may change. -/
theorem Lists.bump (hp : p.Lists L) (hi : i ∉ p.held L) : (p.bump i).Lists L := by
  have hgen : ∀ h : ObjHandle, h.index ∈ p.held L → (p.bump i).gen h.index = p.gen h.index := by
    intro h hh
    refine update_of_ne ?_ _ _
    rintro rfl
    exact hi hh
  have hlists := hp.retire (i := i)
  refine ⟨hp.chain, fun o ho h hh => ?_, fun o ho h hh => ?_, hp.nodup, hlists.idle⟩
  · rw [hgen]
    · exact hp.pile o ho h hh
    · exact List.mem_flatMap.mpr
        ⟨.pile o, pile_mem_holders.mpr ho, List.mem_map_of_mem hh⟩
  · rw [hgen]
    · exact hp.cache o ho h hh
    · exact List.mem_flatMap.mpr
        ⟨.cache o, cache_mem_holders.mpr ho, List.mem_map_of_mem hh⟩

/-- A valid handle retires its slot, or gives it the next generation and puts it back. -/
theorem free_valid (hcap : p.capacity ≤ kFreeEnd) (hp : p.Lists L) (hv : p.valid h = true) :
    p.gen h.index = kGenMax ∧ p.free h = (true, p.retire h.index) ∨
      p.gen h.index ≠ kGenMax ∧ ∃ q L', p.free h = (true, q) ∧ Moved (p.bump h.index) q ∧
        q.Lists L' ∧ (q.held L').Perm (h.index :: p.held L) := by
  obtain ⟨hlt, hlive, hgen⟩ := valid_iff.mp hv
  have hi : h.index ∉ p.held L := by
    intro hmem
    have hidle := (hp.idle _ hmem).2
    rw [hlive] at hidle
    cases hidle
  have hbump := hp.bump hi
  have hidle : h.index < (p.bump h.index).capacity ∧ (p.bump h.index).live h.index = false :=
    ⟨hlt, update_self ..⟩
  rw [free, if_neg (not_le.mpr hlt), if_neg (by rw [hlive]; decide), if_neg (not_not.mpr hgen)]
  split
  · next hmax => exact Or.inl ⟨hmax, rfl⟩
  · next hmax =>
    refine Or.inr ⟨hmax, ?_⟩
    dsimp only
    split
    · next hpile =>
      obtain ⟨hlists, hperm⟩ := pushPile_put hbump hpile.2.1 hi hidle
      refine ⟨_, L, rfl, ⟨rfl, rfl, rfl, rfl, rfl, rfl, rfl, rfl⟩, ?_, ?_⟩
      · simpa only [SlotPool.bump, update_self] using hlists
      · have hperm : (held _ L).Perm (h.index :: p.held L) := hperm
        simpa only [SlotPool.bump, update_self] using hperm
    · obtain ⟨L', hlists, hperm⟩ := pushShard_put hbump hcap hi hidle
      exact ⟨_, L', rfl, ⟨rfl, rfl, rfl, rfl, rfl, rfl, rfl, rfl⟩, hlists, hperm⟩

/-! ## The abstract pool -/

/-- The pool without its lists: the slots that wait are available. -/
def abs (p : SlotPool) (L : ℕ → List ℕ) : CellPool where
  capacity := p.capacity
  gen := p.gen
  live := p.live
  avail i := decide (i ∈ p.held L)
  owner := p.owner
  regime := p.regime

theorem abs_valid (h : ObjHandle) : (p.abs L).valid h = p.valid h := rfl

/-- An allocation hands out an available slot. -/
theorem allocInto_refines (hcap : p.capacity ≤ kFreeEnd) (hp : p.Lists L)
    (ha : p.allocInto tlsShard owner r = (some h, q)) :
    ∃ L', (p.abs L).allocInto h.index owner r = some (h, q.abs L') := by
  obtain ⟨L', hn, -⟩ | ⟨h', q', L', ht, he⟩ := allocInto_spec hcap hp
  · rw [ha] at hn
    cases hn
  · rw [ha] at he
    obtain ⟨hsome, rfl⟩ := Prod.mk.inj he
    obtain rfl := Option.some.inj hsome
    have hmem : ∀ j, j ∈ p.held L ↔ j = h.index ∨ j ∈ q'.held L' := fun j => by
      rw [ht.perm.mem_iff, List.mem_cons]
    have hself : (p.abs L).handleAt h.index = h := congrArg (ObjHandle.mk h.index) ht.gen.symm
    refine ⟨L', ?_⟩
    rw [CellPool.allocInto, if_pos, hself]
    · congr 2
      simp only [CellPool.activate, SlotPool.activate, abs, ht.moved.capacity, ht.moved.gen,
        ht.moved.live, ht.moved.owner, ht.moved.regime]
      congr 1
      funext j
      by_cases hj : j = h.index
      · subst hj
        rw [update_self]
        exact (decide_eq_false (ht.notMem hp)).symm
      · rw [update_of_ne hj]
        exact decide_eq_decide.mpr ((hmem j).trans (or_iff_right hj))
    · exact ⟨(ht.idle hp).1, decide_eq_true ((hmem _).mpr (Or.inl rfl))⟩

/-- A free makes the slot available again, or retires it. -/
theorem free_refines (hcap : p.capacity ≤ kFreeEnd) (hp : p.Lists L) (h : ObjHandle) :
    ∃ L', (p.abs L).free h = (p.free h).2.abs L' := by
  cases hv : p.valid h with
  | false =>
    refine ⟨L, ?_⟩
    rw [free_invalid hv, CellPool.free, abs_valid, if_pos hv]
    rfl
  | true =>
    have hgen := (valid_iff.mp hv).2.2
    have hlive : p.live h.index = true := (valid_iff.mp hv).2.1
    rw [CellPool.free, abs_valid, if_neg (by rw [hv]; decide)]
    obtain ⟨hmax, he⟩ | ⟨hmax, q, L', he, hm, -, hperm⟩ := free_valid hcap hp hv
    · rw [if_pos (hgen ▸ hmax), he]
      exact ⟨L, rfl⟩
    · refine ⟨L', ?_⟩
      rw [if_neg (hgen ▸ hmax), he]
      simp only [abs, hm.capacity, hm.gen, hm.live, hm.owner, hm.regime, SlotPool.bump, hgen]
      congr 1
      funext j
      by_cases hj : j = h.index
      · subst hj
        rw [update_self]
        exact (decide_eq_true (hperm.mem_iff.mpr List.mem_cons_self)).symm
      · rw [update_of_ne hj]
        refine decide_eq_decide.mpr ?_
        rw [hperm.mem_iff, List.mem_cons, or_iff_right hj]

/-! ## Fresh pools -/

theorem foldl_pushShard (l : List ℕ) (hl : l.Nodup) (hcap : p.capacity ≤ kFreeEnd)
    (hp : p.Lists L) (hn : ∀ i ∈ l, i ∉ p.held L)
    (hi : ∀ i ∈ l, i < p.capacity ∧ p.live i = false) :
    ∃ L', Moved p (l.foldl pushShard p) ∧ (l.foldl pushShard p).Lists L' ∧
      ∀ i ∈ l, i ∈ (l.foldl pushShard p).held L' := by
  suffices hall : ∃ L', Moved p (l.foldl pushShard p) ∧ (l.foldl pushShard p).Lists L' ∧
      ∀ i, i ∈ l ∨ i ∈ p.held L → i ∈ (l.foldl pushShard p).held L' by
    obtain ⟨L', hm, hlists, hmem⟩ := hall
    exact ⟨L', hm, hlists, fun i hi => hmem i (Or.inl hi)⟩
  induction l generalizing p L with
  | nil => exact ⟨L, .refl p, hp, fun i hi => hi.resolve_left List.not_mem_nil⟩
  | cons j l ih =>
    rw [List.nodup_cons] at hl
    obtain ⟨L₁, hlists, hperm⟩ :=
      pushShard_put hp hcap (hn j List.mem_cons_self) (hi j List.mem_cons_self)
    obtain ⟨L', hm, hlists', hmem⟩ := ih (p := p.pushShard j) hl.2 hcap hlists
      (fun i hil hheld => by
        obtain rfl | hheld := List.mem_cons.mp (hperm.subset hheld)
        · exact hl.1 hil
        · exact hn i (List.mem_cons_of_mem _ hil) hheld)
      (fun i hil => hi i (List.mem_cons_of_mem _ hil))
    have hfirst : Moved p (p.pushShard j) := ⟨rfl, rfl, rfl, rfl, rfl, rfl, rfl, rfl⟩
    refine ⟨L', hfirst.trans hm, hlists', fun i hil => hmem i ?_⟩
    obtain hil | hheld := hil
    · obtain rfl | hil := List.mem_cons.mp hil
      · exact Or.inr (hperm.symm.subset List.mem_cons_self)
      · exact Or.inl hil
    · exact Or.inr (hperm.symm.subset (List.mem_cons_of_mem _ hheld))

theorem held_blank (capacity : ℕ) : (blank capacity r).held (fun _ => []) = [] := by
  refine List.flatMap_eq_nil_iff.mpr fun x _ => ?_
  cases x <;> rfl

theorem blank_lists (capacity : ℕ) : (blank capacity r).Lists fun _ => [] := by
  refine ⟨fun _ _ => .nil, fun _ _ _ h => (nomatch h), fun _ _ _ h => (nomatch h), ?_, ?_⟩
  · rw [held_blank]
    exact .nil
  · rw [held_blank]
    exact fun i hi => nomatch hi

theorem new_spec (capacity : ℕ) (hcap : capacity ≤ kFreeEnd) :
    ∃ L, Moved (blank capacity r) (new capacity r) ∧ (new capacity r).Lists L ∧
      ∀ i < (new capacity r).capacity, i ∈ (new capacity r).held L := by
  have hblank : (blank capacity r).capacity ≤ kFreeEnd := by
    simp only [blank]
    split
    · decide
    · exact hcap
  obtain ⟨L, hm, hlists, hmem⟩ := foldl_pushShard
    (List.range (blank capacity r).capacity).reverse (List.nodup_reverse.mpr List.nodup_range)
    hblank (blank_lists capacity) (fun i _ => by rw [held_blank]; exact List.not_mem_nil)
    (fun i hi => ⟨List.mem_range.mp (List.mem_reverse.mp hi), rfl⟩)
  refine ⟨L, hm, hlists, fun i hi => hmem i (List.mem_reverse.mpr (List.mem_range.mpr ?_))⟩
  rw [← hm.capacity]
  exact hi

end SlotPool

/-! ## Runs -/

/-- The pool, the handles that were handed out and those that were freed. -/
structure History where
  pool : SlotPool
  handed : List ObjHandle
  freed : List ObjHandle

/-- The calls of the pool. The thread of an allocation or a refill shows in its shard. -/
inductive PoolCall
  | alloc (tlsShard : ℕ)
  | allocOwned (tlsShard : ℕ) (owner : OwnerToken)
  | allocLocalRegime (tlsShard : ℕ) (owner : OwnerToken)
  | allocSharedRegime (tlsShard : ℕ) (owner : OwnerToken)
  | free (h : ObjHandle)
  | refillLocal (tlsShard o : ℕ)
  | drainRecycleAll
  | setRegime (h : ObjHandle) (r : Regime)
  | setLocalCache (v : Bool)

/-- A refill is made for a producer. -/
def PoolCall.Proper : PoolCall → Prop
  | .refillLocal _ o => o < kMaxOwners
  | _ => True

namespace History

def new (capacity : ℕ) (r : Regime) : History := ⟨.new capacity r, [], []⟩

/-- Note the handle of an allocation. -/
def allocated (s : History) (a : Option ObjHandle × SlotPool) : History :=
  { s with pool := a.2, handed := a.1.toList ++ s.handed }

def step (s : History) : PoolCall → History
  | .alloc t => s.allocated (s.pool.alloc t)
  | .allocOwned t o => s.allocated (s.pool.allocOwned t o)
  | .allocLocalRegime t o => s.allocated (s.pool.allocLocalRegime t o)
  | .allocSharedRegime t o => s.allocated (s.pool.allocSharedRegime t o)
  | .free h =>
    let (done, pool) := s.pool.free h
    { s with pool := pool, freed := if done then h :: s.freed else s.freed }
  | .refillLocal t o => { s with pool := s.pool.refillLocal t o }
  | .drainRecycleAll => { s with pool := s.pool.drainRecycleAll }
  | .setRegime h r => { s with pool := s.pool.setRegime h r }
  | .setLocalCache v => { s with pool := s.pool.setLocalCache v }

def system (capacity : ℕ) (r : Regime) : System History PoolCall where
  init s := s = new capacity r
  next s a t := a.Proper ∧ t = s.step a

/-- The slot `i` is with the holder. A retired slot was handed out at the last generation. -/
def Holds (s : History) (i : ℕ) : Holder → Prop
  | .live => s.pool.live i = true
  | .shard t => t < kShards ∧ ∃ l, Chain s.pool.next kFreeEnd (s.pool.heads t) l ∧ i ∈ l
  | .pile o => o < kMaxOwners ∧ i ∈ (s.pool.recycle o).map ObjHandle.index
  | .cache o => o < kMaxOwners ∧ i ∈ (s.pool.cached o).map ObjHandle.index
  | .retired =>
    s.pool.live i = false ∧ s.pool.gen i = kGenMax ∧ ⟨i, kGenMax⟩ ∈ s.handed

/-- Every slot has one holder, in which it is once; handles are handed out once and stay invalid
after they are freed. -/
structure Partitioned (s : History) : Prop where
  holder : ∀ i < s.pool.capacity, ∃! x, s.Holds i x
  pile : ∀ o < kMaxOwners, ((s.pool.recycle o).map ObjHandle.index).Nodup
  cache : ∀ o < kMaxOwners, ((s.pool.cached o).map ObjHandle.index).Nodup
  handed : s.handed.Nodup
  freed : ∀ h ∈ s.freed, s.pool.valid h = false

/-- The invariant, with the lists of the shards. -/
structure Inv (s : History) (L : ℕ → List ℕ) : Prop where
  lists : s.pool.Lists L
  capacity : s.pool.capacity ≤ kFreeEnd
  handed_le : ∀ h ∈ s.handed, h.index < s.pool.capacity ∧ h.gen ≤ s.pool.gen h.index ∧
    (h.gen = s.pool.gen h.index → h.index ∉ s.pool.held L)
  handed_nodup : s.handed.Nodup
  out : ∀ i < s.pool.capacity, i ∉ s.pool.held L → ⟨i, s.pool.gen i⟩ ∈ s.handed ∧
    (s.pool.live i = false → s.pool.gen i = kGenMax)
  freed : ∀ h ∈ s.freed, h.gen < s.pool.gen h.index ∨
    h.gen = s.pool.gen h.index ∧ s.pool.live h.index = false ∧ h.index ∉ s.pool.held L

variable {s : History} {L L' : ℕ → List ℕ} {q : SlotPool} {h : ObjHandle} {i : ℕ}

/-! ### Steps -/

theorem Inv.shuffled (hs : s.Inv L) (hq : s.pool.Shuffled L q L') :
    Inv { s with pool := q } L' := by
  obtain ⟨hm, hlists, hperm⟩ := hq
  have hmem : ∀ i, i ∈ q.held L' ↔ i ∈ s.pool.held L := fun i => hperm.mem_iff
  refine ⟨hlists, hm.capacity.trans_le hs.capacity, ?_, hs.handed_nodup, ?_, ?_⟩
  · simpa only [hm.capacity, hm.gen, hmem] using hs.handed_le
  · simpa only [hm.capacity, hm.gen, hm.live, hmem] using hs.out
  · simpa only [hm.gen, hm.live, hmem] using hs.freed

theorem Inv.taken (hs : s.Inv L) (ht : s.pool.Taken L h q L') (owner : OwnerToken) (r : Regime) :
    Inv { s with pool := q.activate h owner r, handed := h :: s.handed } L' := by
  have hn := ht.notMem hs.lists
  have hidle := ht.idle hs.lists
  have hi : h.index ∈ s.pool.held L := ht.perm.mem_iff.mpr List.mem_cons_self
  have hgen : (q.activate h owner r).gen = s.pool.gen := by
    simp only [SlotPool.activate, ht.gen, ht.moved.gen, update_eq_self]
  have hcap : (q.activate h owner r).capacity = s.pool.capacity := ht.moved.capacity
  have hlive : ∀ j, j ≠ h.index → (q.activate h owner r).live j = s.pool.live j := by
    intro j hj
    simp only [SlotPool.activate, ht.moved.live, update_of_ne hj]
  have hheld : ∀ j, j ∈ s.pool.held L ↔ j = h.index ∨ j ∈ q.held L' := fun j => by
    rw [ht.perm.mem_iff, List.mem_cons]
  have hsame : (q.activate h owner r).held L' = q.held L' := rfl
  refine ⟨⟨ht.lists.chain, fun o ho g hg => ?_, fun o ho g hg => ?_, ht.lists.nodup,
    fun j hj => ?_⟩, hcap.trans_le hs.capacity, fun g hg => ?_, ?_, fun j hj hout => ?_,
    fun g hg => ?_⟩
  · rw [hgen, ← ht.moved.gen]
    exact ht.lists.pile o ho g hg
  · rw [hgen, ← ht.moved.gen]
    exact ht.lists.cache o ho g hg
  · have hne : j ≠ h.index := by
      rintro rfl
      exact hn hj
    rw [hcap, hlive j hne]
    exact hs.lists.idle j ((hheld j).mpr (Or.inr hj))
  · rw [hgen, hcap, hsame]
    obtain rfl | hg := List.mem_cons.mp hg
    · exact ⟨hidle.1, ht.gen.le, fun _ => hn⟩
    · obtain ⟨hlt, hle, hnot⟩ := hs.handed_le g hg
      exact ⟨hlt, hle, fun he hmem => hnot he ((hheld _).mpr (Or.inr hmem))⟩
  · refine List.nodup_cons.mpr ⟨fun hmem => ?_, hs.handed_nodup⟩
    exact (hs.handed_le h hmem).2.2 ht.gen hi
  · rw [hcap] at hj
    rw [hsame] at hout
    rw [hgen]
    by_cases hji : j = h.index
    · subst hji
      refine ⟨?_, fun hl => ?_⟩
      · rw [← ht.gen]
        exact List.mem_cons_self
      · simp only [SlotPool.activate, update_self] at hl
        cases hl
    · have hnot : j ∉ s.pool.held L := by
        rw [hheld]
        exact not_or.mpr ⟨hji, hout⟩
      rw [hlive j hji]
      exact ⟨List.mem_cons_of_mem _ (hs.out j hj hnot).1, (hs.out j hj hnot).2⟩
  · rw [hgen]
    obtain hlt | ⟨he, hl, hnot⟩ := hs.freed g hg
    · exact Or.inl hlt
    · refine Or.inr ⟨he, ?_, fun hmem => hnot ((hheld _).mpr (Or.inr hmem))⟩
      rw [hlive]
      · exact hl
      · intro hgi
        exact hnot (hgi ▸ hi)

theorem Inv.allocated (hs : s.Inv L) {owner : OwnerToken} {r : Regime}
    {a : Option ObjHandle × SlotPool} (ha : s.pool.Allocated L owner r a) :
    ∃ L', (s.allocated a).Inv L' := by
  obtain ⟨L', hn, hq⟩ | ⟨h, q, L', ht, rfl⟩ := ha
  · refine ⟨L', ?_⟩
    simp only [History.allocated, hn, Option.toList_none, List.nil_append]
    exact hs.shuffled hq
  · exact ⟨L', hs.taken ht owner r⟩

/-- What the lists do not depend on may change. -/
theorem Inv.frame (hs : s.Inv L) (regime : ℕ → Regime) (errs : ℕ) (v : Bool) :
    Inv { s with
      pool := { s.pool with regime := regime, errs := errs, useLocalCache := v } } L :=
  ⟨⟨hs.lists.chain, hs.lists.pile, hs.lists.cache, hs.lists.nodup, hs.lists.idle⟩, hs.capacity,
    hs.handed_le, hs.handed_nodup, hs.out, hs.freed⟩

theorem Inv.notMem_held (hs : s.Inv L) (hv : s.pool.valid h = true) :
    h.index ∉ s.pool.held L := by
  intro hmem
  have hidle := (hs.lists.idle _ hmem).2
  rw [(SlotPool.valid_iff.mp hv).2.1] at hidle
  cases hidle

theorem Inv.retire (hs : s.Inv L) (hv : s.pool.valid h = true)
    (hmax : s.pool.gen h.index = kGenMax) :
    Inv { s with pool := s.pool.retire h.index, freed := h :: s.freed } L := by
  have hnot := hs.notMem_held hv
  obtain ⟨-, -, hgen⟩ := SlotPool.valid_iff.mp hv
  refine ⟨hs.lists.retire, hs.capacity, hs.handed_le, hs.handed_nodup, fun j hj hout => ?_,
    fun g hg => ?_⟩
  · refine ⟨(hs.out j hj hout).1, fun hl => ?_⟩
    by_cases hji : j = h.index
    · rw [hji]
      exact hmax
    · simp only [SlotPool.retire, update_of_ne hji] at hl
      exact (hs.out j hj hout).2 hl
  · have hdead : ∀ j, s.pool.live j = false → (s.pool.retire h.index).live j = false := by
      intro j hl
      simp only [SlotPool.retire, update_apply, hl, ite_self]
    obtain rfl | hg := List.mem_cons.mp hg
    · exact Or.inr ⟨hgen.symm, update_self .., hnot⟩
    · obtain hlt | ⟨he, hl, hn⟩ := hs.freed g hg
      · exact Or.inl hlt
      · exact Or.inr ⟨he, hdead _ hl, hn⟩

theorem Inv.recycled (hs : s.Inv L) (hv : s.pool.valid h = true)
    (hm : SlotPool.Moved (s.pool.bump h.index) q) (hlists : q.Lists L')
    (hperm : (q.held L').Perm (h.index :: s.pool.held L)) :
    Inv { s with pool := q, freed := h :: s.freed } L' := by
  obtain ⟨-, hlive, hgen⟩ := SlotPool.valid_iff.mp hv
  have hnot := hs.notMem_held hv
  have hheld : ∀ j, j ∈ q.held L' ↔ j = h.index ∨ j ∈ s.pool.held L := fun j => by
    rw [hperm.mem_iff, List.mem_cons]
  have hcap : q.capacity = s.pool.capacity := hm.capacity
  have hself : q.gen h.index = s.pool.gen h.index + 1 := by
    rw [hm.gen]
    exact update_self ..
  have hother : ∀ j, j ≠ h.index → q.gen j = s.pool.gen j ∧ q.live j = s.pool.live j := by
    intro j hj
    rw [hm.gen, hm.live]
    exact ⟨update_of_ne hj _ _, update_of_ne hj _ _⟩
  refine ⟨hlists, hcap.trans_le hs.capacity, fun g hg => ?_, hs.handed_nodup, fun j hj hout => ?_,
    fun g hg => ?_⟩
  · obtain ⟨hlt, hle, hn⟩ := hs.handed_le g hg
    rw [hcap]
    by_cases hgi : g.index = h.index
    · rw [hgi] at hle hlt ⊢
      rw [hself]
      exact ⟨hlt, by omega, fun he => by omega⟩
    · rw [(hother _ hgi).1, hheld]
      exact ⟨hlt, hle, fun he => not_or.mpr ⟨hgi, hn he⟩⟩
  · rw [hcap] at hj
    rw [hheld, not_or] at hout
    rw [(hother j hout.1).1, (hother j hout.1).2]
    exact hs.out j hj hout.2
  · obtain rfl | hg := List.mem_cons.mp hg
    · left
      rw [hself, hgen]
      exact Nat.lt_succ_self _
    · by_cases hgi : g.index = h.index
      · left
        rw [hgi, hself]
        obtain hlt | ⟨he, -⟩ := hs.freed g hg
        · rw [hgi] at hlt
          omega
        · rw [hgi] at he
          omega
      · rw [(hother _ hgi).1, (hother _ hgi).2, hheld, not_or]
        obtain hlt | ⟨he, hl, hn⟩ := hs.freed g hg
        · exact Or.inl hlt
        · exact Or.inr ⟨he, hl, hgi, hn⟩

theorem Inv.free (hs : s.Inv L) (h : ObjHandle) : ∃ L', (s.step (.free h)).Inv L' := by
  simp only [step]
  cases hv : s.pool.valid h with
  | false =>
    rw [SlotPool.free_invalid hv]
    exact ⟨L, hs.frame s.pool.regime (s.pool.errs + 1) s.pool.useLocalCache⟩
  | true =>
    obtain ⟨hmax, he⟩ | ⟨-, q, L', he, hm, hlists, hperm⟩ :=
      SlotPool.free_valid hs.capacity hs.lists hv
    · rw [he]
      exact ⟨L, hs.retire hv hmax⟩
    · rw [he]
      exact ⟨L', hs.recycled hv hm hlists hperm⟩

theorem Inv.step (hs : s.Inv L) {a : PoolCall} (ha : a.Proper) : ∃ L', (s.step a).Inv L' := by
  cases a with
  | alloc t | allocOwned t o | allocLocalRegime t o | allocSharedRegime t o =>
    exact hs.allocated (SlotPool.allocInto_spec hs.capacity hs.lists)
  | free h => exact hs.free h
  | refillLocal t o =>
    obtain ⟨L', hq⟩ := SlotPool.refillLocal_shuffled hs.capacity hs.lists ha t
    exact ⟨L', hs.shuffled hq⟩
  | drainRecycleAll =>
    obtain ⟨L', hq⟩ := SlotPool.drainRecycleAll_shuffled hs.capacity hs.lists
    exact ⟨L', hs.shuffled hq⟩
  | setRegime h r =>
    simp only [History.step, SlotPool.setRegime]
    split
    · exact ⟨L, hs.frame _ s.pool.errs s.pool.useLocalCache⟩
    · exact ⟨L, hs⟩
  | setLocalCache v => exact ⟨L, hs.frame s.pool.regime s.pool.errs v⟩

theorem init_inv {capacity : ℕ} (r : Regime) (hcap : capacity ≤ kFreeEnd) :
    ∃ L, (new capacity r).Inv L := by
  obtain ⟨L, hm, hlists, hall⟩ := SlotPool.new_spec (r := r) capacity hcap
  refine ⟨L, hlists, ?_, fun h hh => (nomatch hh), .nil, fun i hi hout => ?_,
    fun h hh => (nomatch hh)⟩
  · rw [new, hm.capacity]
    simp only [SlotPool.blank]
    split
    · decide
    · exact hcap
  · exact absurd (hall i hi) hout

theorem reachable_inv {capacity : ℕ} {r : Regime} (hcap : capacity < kFreeEnd)
    (h : (system capacity r).Reachable s) : ∃ L, s.Inv L := by
  refine h.inv (P := fun s => ∃ L, s.Inv L) (fun s hs => ?_) fun s a t hs hn => ?_
  · rw [hs]
    exact init_inv r hcap.le
  · obtain ⟨L, hs⟩ := hs
    obtain ⟨ha, rfl⟩ := hn
    exact hs.step ha

/-! ### Holders -/

theorem Inv.holds_iff (hs : s.Inv L) {x : Holder} (hx : x ∈ holders) :
    s.Holds i x ↔ i ∈ s.pool.slots L x := by
  cases x with
  | shard t =>
    have ht := shard_mem_holders.mp hx
    constructor
    · rintro ⟨-, l, hl, hi⟩
      rwa [hl.eq (hs.lists.chain t ht)] at hi
    · exact fun hi => ⟨ht, L t, hs.lists.chain t ht, hi⟩
  | pile o => exact and_iff_right (pile_mem_holders.mp hx)
  | cache o => exact and_iff_right (cache_mem_holders.mp hx)
  | live | retired => simp [holders] at hx

theorem Inv.slots_nodup (hs : s.Inv L) {x : Holder} (hx : x ∈ holders) :
    (s.pool.slots L x).Nodup :=
  (List.nodup_flatMap.mp hs.lists.nodup).1 x hx

/-- A slot that waits is with one holder. -/
theorem Inv.holder_unique (hs : s.Inv L) {x y : Holder} (hx : x ∈ holders) (hy : y ∈ holders)
    (hix : i ∈ s.pool.slots L x) (hiy : i ∈ s.pool.slots L y) : x = y := by
  by_contra hne
  have hdisjoint := (List.nodup_flatMap.mp hs.lists.nodup).2
  have : Std.Symm (Function.onFun List.Disjoint (s.pool.slots L)) :=
    ⟨fun _ _ h _ hx hy => h hy hx⟩
  exact hdisjoint.forall hx hy hne hix hiy

theorem mem_holders_of_holds {x : Holder} (hx : s.Holds i x) (hlive : x ≠ .live)
    (hretired : x ≠ .retired) : x ∈ holders := by
  cases x with
  | live => exact absurd rfl hlive
  | retired => exact absurd rfl hretired
  | shard t => exact shard_mem_holders.mpr hx.1
  | pile o => exact pile_mem_holders.mpr hx.1
  | cache o => exact cache_mem_holders.mpr hx.1

/-- A slot with one of the holders of free slots waits. -/
theorem Inv.mem_held (hs : s.Inv L) {x : Holder} (hx : x ∈ holders) (hi : s.Holds i x) :
    i ∈ s.pool.held L :=
  List.mem_flatMap.mpr ⟨x, hx, (hs.holds_iff hx).mp hi⟩

theorem Inv.holder (hs : s.Inv L) (hi : i < s.pool.capacity) : ∃! x, s.Holds i x := by
  by_cases hheld : i ∈ s.pool.held L
  · have hdead := (hs.lists.idle i hheld).2
    obtain ⟨x, hx, hix⟩ := List.mem_flatMap.mp hheld
    refine ⟨x, (hs.holds_iff hx).mpr hix, fun y hy => ?_⟩
    have hlive : y ≠ .live := by
      rintro rfl
      rw [Holds, hdead] at hy
      cases hy
    have hretired : y ≠ .retired := by
      rintro rfl
      obtain ⟨-, hmax, hhanded⟩ := hy
      exact (hs.handed_le _ hhanded).2.2 hmax.symm hheld
    have hyh := mem_holders_of_holds hy hlive hretired
    exact hs.holder_unique hyh hx ((hs.holds_iff hyh).mp hy) hix
  · have hnot : ∀ x, s.Holds i x → x = .live ∨ x = .retired := by
      intro x hx
      by_contra hne
      rw [not_or] at hne
      exact hheld (hs.mem_held (mem_holders_of_holds hx hne.1 hne.2) hx)
    obtain ⟨hhanded, hmax⟩ := hs.out i hi hheld
    cases hlive : s.pool.live i with
    | true =>
      refine ⟨.live, hlive, fun x hx => ?_⟩
      obtain rfl | rfl := hnot x hx
      · rfl
      · have hdead := hx.1
        rw [hlive] at hdead
        cases hdead
    | false =>
      refine ⟨.retired, ⟨hlive, hmax hlive, ?_⟩, fun x hx => ?_⟩
      · rw [← hmax hlive]
        exact hhanded
      · obtain rfl | rfl := hnot x hx
        · rw [Holds, hlive] at hx
          cases hx
        · rfl

theorem Inv.partitioned (hs : s.Inv L) : s.Partitioned where
  holder _ hi := hs.holder hi
  pile o ho := hs.slots_nodup (pile_mem_holders.mpr ho)
  cache o ho := hs.slots_nodup (cache_mem_holders.mpr ho)
  handed := hs.handed_nodup
  freed h hh := by
    by_contra hv
    obtain ⟨-, hlive, hgen⟩ := SlotPool.valid_iff.mp (Bool.not_eq_false _ ▸ hv)
    obtain hlt | ⟨-, hdead, -⟩ := hs.freed h hh
    · omega
    · rw [hlive] at hdead
      cases hdead

/-- In every run each slot has one holder, and a refused free only counts an error. -/
theorem reachable_partitioned {capacity : ℕ} {r : Regime} (hcap : capacity < kFreeEnd)
    (h : (system capacity r).Reachable s) :
    s.Partitioned ∧ ∀ h, s.pool.valid h = false →
      s.pool.free h = (false, { s.pool with errs := s.pool.errs + 1 }) := by
  obtain ⟨L, hs⟩ := reachable_inv hcap h
  exact ⟨hs.partitioned, fun h hv => SlotPool.free_invalid hv⟩

theorem reachable_calls {capacity : ℕ} {r : Regime} (as : List PoolCall)
    (h : ∀ a ∈ as, a.Proper) : (system capacity r).Reachable (as.foldl step (new capacity r)) := by
  induction as using List.reverseRecOn with
  | nil => exact .start rfl
  | append_singleton as a ih =>
    rw [List.foldl_append]
    exact (ih fun b hb => h b (List.mem_append_left _ hb)).next
      ⟨h a (List.mem_append_right _ (.head _)), rfl⟩

/-- A cell is handed out and freed. -/
theorem reachable_partitioned_freed :
    Partitioned ([.alloc 0, .free ⟨0, 1⟩].foldl step (new 2 .shared)) :=
  (reachable_partitioned (by decide) (reachable_calls _ (by simp [PoolCall.Proper]))).1

/-- A refused free counts an error. -/
theorem refused_free_counts : ¬ ∀ (capacity : ℕ) (r : Regime) (s : History), capacity < kFreeEnd →
    (system capacity r).Reachable s →
      ∀ h, s.pool.valid h = false → (s.pool.free h).2 = s.pool := by
  intro hall
  have heq := hall 1 .shared _ (by decide) (reachable_calls [] (by simp)) ⟨0, 1⟩ (by decide)
  exact absurd (congrArg SlotPool.errs heq) (by decide)

end History

end Loxis.Aarc
