import Mathlib.Data.List.Nodup
import Mathlib.Data.List.Perm.Basic
import Mathlib.Logic.Function.Basic

/-! # Linked lists in arrays

The list that starts at a head and follows a link array up to an end mark, and the back links
of a doubly linked one. What stays of a list when links outside it change, and how a list grows
and shrinks.
-/

namespace Loxis

open Function

variable {α β : Type*} {next next' prev prev' : α → α} {mark h i j p : α} {l l' : List α}

/-- From `h`, the links visit the elements of the list and then reach the end mark. -/
inductive Chain (next : α → α) (mark : α) : α → List α → Prop
  | nil : Chain next mark mark []
  | cons {i : α} {l : List α} : i ≠ mark → Chain next mark (next i) l → Chain next mark i (i :: l)

namespace Chain

@[simp] theorem nil_iff : Chain next mark h [] ↔ h = mark := by
  constructor
  · rintro ⟨⟩
    rfl
  · rintro rfl
    exact .nil

@[simp] theorem cons_iff :
    Chain next mark h (i :: l) ↔ h = i ∧ i ≠ mark ∧ Chain next mark (next i) l := by
  constructor
  · rintro (_ | ⟨hi, hl⟩)
    exact ⟨rfl, hi, hl⟩
  · rintro ⟨rfl, hi, hl⟩
    exact .cons hi hl

/-- A head has one list. -/
theorem eq (hl : Chain next mark h l) (hl' : Chain next mark h l') : l = l' := by
  induction hl generalizing l' with
  | nil =>
    cases hl' with
    | nil => rfl
    | cons hi => exact absurd rfl hi
  | cons hi _ ih =>
    cases hl' with
    | nil => exact absurd rfl hi
    | cons _ ht => rw [ih ht]

/-- A list has one head. -/
theorem head_eq (hl : Chain next mark h l) (hl' : Chain next' mark p l) : h = p := by
  cases hl with
  | nil => exact (nil_iff.mp hl').symm
  | cons => exact (cons_iff.mp hl').1.symm

/-- What follows an element of a list is a list. -/
theorem drop (hl : Chain next mark h l) (hi : i ∈ l) :
    ∃ t, Chain next mark i (i :: t) ∧ t.length < l.length := by
  induction hl with
  | nil => exact absurd hi List.not_mem_nil
  | @cons j t hj ht ih =>
    obtain rfl | hi := List.mem_cons.mp hi
    · exact ⟨t, .cons hj ht, Nat.lt_succ_self _⟩
    · obtain ⟨u, hu, hlt⟩ := ih hi
      exact ⟨u, hu, Nat.lt_succ_of_lt hlt⟩

/-- No element occurs twice: the list after it would be shorter than itself. -/
theorem nodup (hl : Chain next mark h l) : l.Nodup := by
  induction hl with
  | nil => exact List.nodup_nil
  | @cons i t hi ht ih =>
    refine List.nodup_cons.mpr ⟨fun hmem => ?_, ih⟩
    obtain ⟨u, hu, hlt⟩ := ht.drop hmem
    rw [List.cons.inj (hu.eq (.cons hi ht)) |>.2] at hlt
    exact Nat.lt_irrefl _ hlt

/-- Links outside the list do not matter. -/
theorem congr (hl : Chain next mark h l) (hn : ∀ i ∈ l, next' i = next i) :
    Chain next' mark h l := by
  induction hl with
  | nil => exact .nil
  | @cons i t hi _ ih =>
    refine .cons hi ?_
    rw [hn i List.mem_cons_self]
    exact ih fun j hj => hn j (List.mem_cons_of_mem _ hj)

variable [DecidableEq α]

theorem push (hl : Chain next mark h l) (hi : i ∉ l) (hm : i ≠ mark) :
    Chain (update next i h) mark i (i :: l) := by
  refine .cons hm ?_
  rw [update_self]
  refine hl.congr fun j hj => update_of_ne ?_ _ _
  rintro rfl
  exact hi hj

end Chain

/-- Replacing the part of one key by a longer one adds an element to the whole. -/
theorem perm_flatMap_cons {ks : List α} {f g : α → List β} {k : α} {b : β} (hks : ks.Nodup)
    (hk : k ∈ ks) (hne : ∀ j ∈ ks, j ≠ k → g j = f j) (hg : (g k).Perm (b :: f k)) :
    (ks.flatMap g).Perm (b :: ks.flatMap f) := by
  induction ks with
  | nil => exact absurd hk List.not_mem_nil
  | cons j ks ih =>
    rw [List.nodup_cons] at hks
    rw [List.flatMap_cons, List.flatMap_cons]
    obtain rfl | hk := List.mem_cons.mp hk
    · have hrest : ks.flatMap g = ks.flatMap f := by
        refine List.flatMap_congr fun i hi => hne i (List.mem_cons_of_mem _ hi) ?_
        rintro rfl
        exact hks.1 hi
      rw [hrest]
      exact hg.append_right _
    · have hjk : j ≠ k := by
        rintro rfl
        exact hks.1 hk
      rw [hne j List.mem_cons_self hjk]
      refine ((ih hks.2 hk fun i hi => hne i (List.mem_cons_of_mem _ hi)).append_left _).trans ?_
      exact List.perm_middle

end Loxis

/-! ## Doubly linked lists in arrays

Disjoint lists whose elements are linked in both directions, with a head and a length for each
list. Pushing at the front and unlinking anywhere change one list and leave the others alone.
-/

namespace Loxis

open Function

variable {ι α : Type*} {next prev next' prev' : α → α} {mark h p t q x y : α} {a b l : List α}

/-- From `h`, with `p` before it, the links visit the list and arrive at `t`, with `q` before it. -/
def Segment (next prev : α → α) : α → α → List α → α → α → Prop
  | h, p, [], t, q => h = t ∧ p = q
  | h, p, x :: l, t, q => h = x ∧ prev x = p ∧ Segment next prev (next x) x l t q

namespace Segment

theorem append_iff : Segment next prev h p (a ++ b) t q ↔
    ∃ u v, Segment next prev h p a u v ∧ Segment next prev u v b t q := by
  induction a generalizing h p with
  | nil =>
    constructor
    · intro hb
      exact ⟨h, p, ⟨rfl, rfl⟩, hb⟩
    · rintro ⟨u, v, ⟨rfl, rfl⟩, hb⟩
      exact hb
  | cons x a ih =>
    constructor
    · rintro ⟨rfl, hp, hab⟩
      obtain ⟨u, v, ha, hb⟩ := ih.mp hab
      exact ⟨u, v, ⟨rfl, hp, ha⟩, hb⟩
    · rintro ⟨u, v, ⟨rfl, hp, ha⟩, hb⟩
      exact ⟨rfl, hp, ih.mpr ⟨u, v, ha, hb⟩⟩

/-- Links outside the list do not matter. -/
theorem congr (hl : Segment next prev h p l t q) (hn : ∀ x ∈ l, next' x = next x)
    (hv : ∀ x ∈ l, prev' x = prev x) : Segment next' prev' h p l t q := by
  induction l generalizing h p with
  | nil => exact hl
  | cons x l ih =>
    obtain ⟨rfl, hp, hl⟩ := hl
    refine ⟨rfl, (hv h List.mem_cons_self).trans hp, ?_⟩
    rw [hn h List.mem_cons_self]
    exact ih hl (fun y hy => hn y (List.mem_cons_of_mem _ hy))
      fun y hy => hv y (List.mem_cons_of_mem _ hy)

theorem chain (hl : Segment next prev h p l mark q) (hm : mark ∉ l) : Chain next mark h l := by
  induction l generalizing h p with
  | nil =>
    obtain ⟨rfl, -⟩ := hl
    exact .nil
  | cons x l ih =>
    obtain ⟨rfl, -, hl⟩ := hl
    rw [List.mem_cons, not_or] at hm
    exact .cons (Ne.symm hm.1) (ih hl hm.2)

theorem head_mem (hl : Segment next prev h p l t q) (hn : l ≠ []) : h ∈ l := by
  cases l with
  | nil => exact absurd rfl hn
  | cons x l =>
    obtain ⟨rfl, -⟩ := hl
    exact List.mem_cons_self

theorem last_mem (hl : Segment next prev h p l t q) (hn : l ≠ []) : q ∈ l := by
  induction l generalizing h p with
  | nil => exact absurd rfl hn
  | cons x l ih =>
    obtain ⟨rfl, -, hl⟩ := hl
    by_cases hl0 : l = []
    · subst hl0
      rw [← hl.2]
      exact List.mem_cons_self
    · exact List.mem_cons_of_mem _ (ih hl hl0)

/-- The neighbours of an element belong to the list, but for those of its ends. -/
theorem neighbours (hl : Segment next prev h p l t q) (hx : x ∈ l) :
    (next x = t ∨ next x ∈ l) ∧ (prev x = p ∨ prev x ∈ l) := by
  obtain ⟨a, b, rfl⟩ := List.append_of_mem hx
  obtain ⟨u, v, ha, rfl, rfl, hb⟩ := append_iff.mp hl
  constructor
  · by_cases hb0 : b = []
    · subst hb0
      exact Or.inl hb.1
    · exact Or.inr (List.mem_append_right _ (List.mem_cons_of_mem _ (hb.head_mem hb0)))
  · by_cases ha0 : a = []
    · subst ha0
      exact Or.inl ha.2.symm
    · exact Or.inr (List.mem_append_left _ (ha.last_mem ha0))

variable [DecidableEq α]

/-- The last element can be linked to another successor. -/
theorem redirect (hl : Segment next prev h p l t q) (hn : l ≠ []) (hnd : l.Nodup) (t' : α) :
    Segment (update next q t') prev h p l t' q := by
  induction l generalizing h p with
  | nil => exact absurd rfl hn
  | cons x l ih =>
    obtain ⟨rfl, hp, hl⟩ := hl
    refine ⟨rfl, hp, ?_⟩
    by_cases hl0 : l = []
    · subst hl0
      obtain ⟨-, rfl⟩ := hl
      rw [update_self]
      exact ⟨rfl, rfl⟩
    · obtain ⟨hx, hnd⟩ := List.nodup_cons.mp hnd
      have hq : h ≠ q := by
        rintro rfl
        exact hx (hl.last_mem hl0)
      rw [update_of_ne hq]
      exact ih hl hl0 hnd

/-- The first element can be linked to another predecessor. -/
theorem repoint (hl : Segment next prev h p l t q) (hn : l ≠ []) (hnd : l.Nodup) (p' : α) :
    Segment next (update prev h p') h p' l t q := by
  cases l with
  | nil => exact absurd rfl hn
  | cons x l =>
    obtain ⟨rfl, -, hl⟩ := hl
    refine ⟨rfl, update_self .., hl.congr (fun _ _ => rfl) fun y hy => update_of_ne ?_ _ _⟩
    rintro rfl
    exact (List.nodup_cons.mp hnd).1 hy

/-- A list can be linked behind another one. -/
theorem splice {h' p' t' q' : α} (ha : Segment next prev h p a t q)
    (hb : Segment next prev h' p' b t' q') (ha0 : a ≠ []) (hb0 : b ≠ []) (hnd : (a ++ b).Nodup) :
    Segment (update next q h') (update prev h' q) h p (a ++ b) t' q' := by
  obtain ⟨hnda, hndb, hdis⟩ := List.nodup_append.mp hnd
  refine append_iff.mpr ⟨h', q, ?_, ?_⟩
  · refine (ha.redirect ha0 hnda h').congr (fun _ _ => rfl) fun y hy => update_of_ne ?_ _ _
    exact hdis y hy h' (hb.head_mem hb0)
  · refine (hb.repoint hb0 hndb q).congr (fun y hy => update_of_ne ?_ _ _) fun _ _ => rfl
    exact (hdis q (ha.last_mem ha0) y hy).symm

/-- A list closes around an element that is taken out. -/
theorem erase (hl : Segment next prev h p (a ++ x :: b) t q) (hnd : (a ++ x :: b).Nodup)
    (hp : p ∉ a) (ht : t ∉ b) :
    Segment (if prev x = p then next else update next (prev x) (next x))
      (if next x = t then prev else update prev (next x) (prev x))
      (if prev x = p then next x else h) p (a ++ b) t (if next x = t then prev x else q) := by
  obtain ⟨u, v, ha, rfl, rfl, hb⟩ := append_iff.mp hl
  obtain ⟨hnda, hndb, hdis⟩ := List.nodup_append.mp hnd
  have hndb := (List.nodup_cons.mp hndb).2
  have hab : ∀ y ∈ a, ∀ z ∈ b, y ≠ z := fun y hy z hz => hdis y hy z (List.mem_cons_of_mem _ hz)
  have hpa : prev u = p ↔ a = [] := by
    constructor
    · intro h0
      by_contra ha0
      exact hp (h0 ▸ ha.last_mem ha0)
    · rintro rfl
      exact ha.2.symm
  have htb : next u = t ↔ b = [] := by
    constructor
    · intro h0
      by_contra hb0
      exact ht (h0 ▸ hb.head_mem hb0)
    · rintro rfl
      exact hb.1
  simp only [hpa, htb]
  -- the part before the element ends at its successor, the part after it starts from its
  -- predecessor
  refine append_iff.mpr ⟨next u, prev u, ?_, ?_⟩
  · by_cases ha0 : a = []
    · subst ha0
      rw [if_pos rfl]
      exact ⟨rfl, ha.2⟩
    · rw [if_neg ha0, if_neg ha0]
      refine (ha.redirect ha0 hnda (next u)).congr (fun _ _ => rfl) fun y hy => ?_
      split
      · rfl
      · next hb0 => exact update_of_ne (hab y hy _ (hb.head_mem hb0)) _ _
  · by_cases hb0 : b = []
    · subst hb0
      rw [if_pos rfl, if_pos rfl]
      exact ⟨hb.1, rfl⟩
    · rw [if_neg hb0, if_neg hb0]
      refine (hb.repoint hb0 hndb (prev u)).congr (fun y hy => ?_) fun _ _ => rfl
      split
      · rfl
      · next ha0 => exact update_of_ne (hab _ (ha.last_mem ha0) y hy).symm _ _

end Segment

/-- Follow the links, for at most the given number of elements. -/
def walk [DecidableEq α] (next : α → α) (mark : α) : ℕ → α → List α
  | 0, _ => []
  | n + 1, x => if x = mark then [] else x :: walk next mark n (next x)

theorem Chain.walk_eq [DecidableEq α] {n : ℕ} (hl : Chain next mark h l) (hn : l.length ≤ n) :
    walk next mark n h = l := by
  induction n generalizing h l with
  | zero => rw [List.eq_nil_of_length_eq_zero (Nat.le_zero.mp hn), walk]
  | succ n ih =>
    cases hl with
    | nil => rw [walk, if_pos rfl]
    | @cons _ l hx hl => rw [walk, if_neg hx, ih hl (Nat.le_of_succ_le_succ hn)]

/-- Lists linked through their elements: the links of an element, the head and length of a list. -/
structure Links (ι α : Type*) where
  next : α → α
  prev : α → α
  head : ι → α
  count : ι → ℕ

namespace Links

variable (k : Links ι α) (mark : α)

/-- The links hold the given lists: doubly linked, disjoint, and of the recorded lengths. -/
structure Lists (L : ι → List α) : Prop where
  linked : ∀ i, ∃ q, Segment k.next k.prev (k.head i) mark (L i) mark q
  mark_notMem : ∀ i, mark ∉ L i
  disjoint : ∀ i j x, x ∈ L i → x ∈ L j → i = j
  count_eq : ∀ i, k.count i = (L i).length

namespace Lists

variable {k : Links ι α} {mark : α} {L : ι → List α} {i j : ι}

theorem chain (hL : k.Lists mark L) (i : ι) : Chain k.next mark (k.head i) (L i) :=
  let ⟨_, hs⟩ := hL.linked i
  hs.chain (hL.mark_notMem i)

theorem nodup (hL : k.Lists mark L) (i : ι) : (L i).Nodup := (hL.chain i).nodup

theorem notMem_of_ne (hL : k.Lists mark L) (hj : j ≠ i) (hx : x ∈ L i) : x ∉ L j := fun hx' =>
  hj (hL.disjoint j i x hx' hx)

theorem init : (⟨fun _ => mark, fun _ => mark, fun _ => mark, fun _ => 0⟩ : Links ι α).Lists mark
    fun _ => [] where
  linked _ := ⟨mark, rfl, rfl⟩
  mark_notMem _ := List.not_mem_nil
  disjoint _ _ _ hx := absurd hx List.not_mem_nil
  count_eq _ := rfl

/-- The neighbours of an element of a list belong to the list. -/
theorem neighbours (hL : k.Lists mark L) (hx : x ∈ L i) :
    (k.next x = mark ∨ k.next x ∈ L i) ∧ (k.prev x = mark ∨ k.prev x ∈ L i) :=
  let ⟨_, hs⟩ := hL.linked i
  hs.neighbours hx

end Lists

variable [DecidableEq α]

/-- Give an element no neighbours. -/
def reset (x : α) : Links ι α :=
  { k with next := update k.next x mark, prev := update k.prev x mark }

variable [DecidableEq ι]

/-- Link an element in front of a list. -/
def push (i : ι) (x : α) : Links ι α where
  next := update k.next x (k.head i)
  prev := if k.head i = mark then k.prev else update k.prev (k.head i) x
  head := update k.head i x
  count := update k.count i (k.count i + 1)

/-- Take an element out of a list. -/
def unlink (i : ι) (x : α) : Links ι α where
  next := if k.prev x = mark then k.next else update k.next (k.prev x) (k.next x)
  prev := if k.next x = mark then k.prev else update k.prev (k.next x) (k.prev x)
  head := if k.prev x = mark then update k.head i (k.next x) else k.head
  count := update k.count i (k.count i - 1)

/-- Forget a list whose elements have been taken out. -/
def clear (i : ι) : Links ι α :=
  { k with head := update k.head i mark, count := update k.count i 0 }

variable {k mark} {i : ι}

theorem unlink_next (hy : k.prev x ≠ mark → y ≠ k.prev x) :
    (k.unlink mark i x).next y = k.next y := by
  change (if k.prev x = mark then k.next else update k.next (k.prev x) (k.next x)) y = _
  split
  · rfl
  · next h0 => exact update_of_ne (hy h0) _ _

theorem unlink_prev (hy : k.next x ≠ mark → y ≠ k.next x) :
    (k.unlink mark i x).prev y = k.prev y := by
  change (if k.next x = mark then k.prev else update k.prev (k.next x) (k.prev x)) y = _
  split
  · rfl
  · next h0 => exact update_of_ne (hy h0) _ _

namespace Lists

variable {L : ι → List α} {i j : ι}

omit [DecidableEq ι] in
/-- Elements outside the lists are free to change. -/
theorem reset (hL : k.Lists mark L) (hx : ∀ i, x ∉ L i) : (k.reset mark x).Lists mark L where
  linked i := by
    obtain ⟨q, hs⟩ := hL.linked i
    have hne : ∀ y ∈ L i, y ≠ x := by
      rintro y hy rfl
      exact hx i hy
    exact ⟨q, hs.congr (fun y hy => update_of_ne (hne y hy) _ _)
      fun y hy => update_of_ne (hne y hy) _ _⟩
  mark_notMem := hL.mark_notMem
  disjoint := hL.disjoint
  count_eq := hL.count_eq

theorem push (hL : k.Lists mark L) (hx : ∀ i, x ∉ L i) (hm : x ≠ mark) (hp : k.prev x = mark)
    (i : ι) : (k.push mark i x).Lists mark (update L i (x :: L i)) where
  linked j := by
    obtain ⟨q, hs⟩ := hL.linked i
    have hh : k.head i ≠ mark → k.head i ∈ L i := fun h0 => hs.head_mem fun hn => by
      rw [hn] at hs
      exact h0 hs.1
    have hne : ∀ j, ∀ y ∈ L j, y ≠ x := by
      rintro j y hy rfl
      exact hx j hy
    have hnext : ∀ j, ∀ y ∈ L j, (k.push mark i x).next y = k.next y := fun j y hy =>
      update_of_ne (hne j y hy) _ _
    by_cases hj : j = i
    · subst hj
      rw [update_self, show (k.push mark j x).head j = x from update_self ..]
      have hpx : (k.push mark j x).prev x = mark := by
        change (if k.head j = mark then k.prev else update k.prev (k.head j) x) x = mark
        split
        · exact hp
        · next h0 => rw [update_of_ne (hne j _ (hh h0)).symm, hp]
      rw [show Segment (k.push mark j x).next (k.push mark j x).prev x mark (x :: L j) mark =
        fun q => x = x ∧ (k.push mark j x).prev x = mark ∧ Segment (k.push mark j x).next
          (k.push mark j x).prev ((k.push mark j x).next x) x (L j) mark q from rfl,
        show (k.push mark j x).next x = k.head j from update_self ..]
      by_cases hl : L j = []
      · rw [hl] at hs ⊢
        exact ⟨x, rfl, hpx, hs.1, rfl⟩
      · have h0 : k.head j ≠ mark := fun h0 => hL.mark_notMem j (h0 ▸ hs.head_mem hl)
        refine ⟨q, rfl, hpx, (hs.repoint hl (hL.nodup j) x).congr (hnext j) fun y _ => ?_⟩
        unfold Links.push
        rw [if_neg h0]
    · obtain ⟨q, hs⟩ := hL.linked j
      rw [update_of_ne hj, show (k.push mark i x).head j = k.head j from update_of_ne hj ..]
      refine ⟨q, hs.congr (hnext j) fun y hy => ?_⟩
      unfold Links.push
      split
      · rfl
      · next h0 =>
        refine update_of_ne ?_ _ _
        rintro rfl
        exact hL.notMem_of_ne hj (hh h0) hy
  mark_notMem j := by
    rw [update_apply]
    split
    · rw [List.mem_cons, not_or]
      exact ⟨hm.symm, hL.mark_notMem i⟩
    · exact hL.mark_notMem j
  disjoint j j' y hy hy' := by
    rw [update_apply] at hy hy'
    split at hy <;> split at hy' <;> try rw [List.mem_cons] at hy
    all_goals try rw [List.mem_cons] at hy'
    · next h1 h2 => rw [h1, h2]
    · next h1 h2 =>
      rcases hy with rfl | hy
      · exact absurd hy' (hx j')
      · exact h1.trans (hL.disjoint i j' y hy hy')
    · next h1 h2 =>
      rcases hy' with rfl | hy'
      · exact absurd hy (hx j)
      · exact (hL.disjoint j i y hy hy').trans h2.symm
    · exact hL.disjoint j j' y hy hy'
  count_eq j := by
    unfold Links.push
    simp only [update_apply]
    split
    · rw [hL.count_eq, List.length_cons]
    · exact hL.count_eq j

/-- The list of an unlinked element closes around it. -/
theorem segment_unlink (hL : k.Lists mark L) (hx : x ∈ L i) : ∃ q,
    Segment (k.unlink mark i x).next (k.unlink mark i x).prev ((k.unlink mark i x).head i) mark
      ((L i).erase x) mark q := by
  obtain ⟨a, b, hab⟩ := List.append_of_mem hx
  obtain ⟨q, hs⟩ := hL.linked i
  have hnd := hL.nodup i
  have hmark := hL.mark_notMem i
  rw [hab] at hs hnd hmark ⊢
  have hxa : x ∉ a := fun hxa =>
    (List.nodup_append.mp hnd).2.2 x hxa x List.mem_cons_self rfl
  rw [List.erase_append_right _ hxa, List.erase_cons_head]
  have hh : (k.unlink mark i x).head i = if k.prev x = mark then k.next x else k.head i := by
    unfold Links.unlink
    dsimp only
    split
    · exact update_self ..
    · rfl
  rw [hh]
  exact ⟨_, hs.erase hnd (fun h0 => hmark (List.mem_append_left _ h0))
    fun h0 => hmark (List.mem_append_right _ (List.mem_cons_of_mem _ h0))⟩

theorem unlink (hL : k.Lists mark L) (hx : x ∈ L i) :
    (k.unlink mark i x).Lists mark (update L i ((L i).erase x)) where
  linked j := by
    by_cases hj : j = i
    · subst hj
      rw [update_self]
      exact hL.segment_unlink hx
    · obtain ⟨q, hs⟩ := hL.linked j
      obtain ⟨hn, hv⟩ := hL.neighbours hx
      have hh : (k.unlink mark i x).head j = k.head j := by
        unfold Links.unlink
        simp only
        split
        · exact update_of_ne hj _ _
        · rfl
      rw [update_of_ne hj, hh]
      refine ⟨q, hs.congr (fun y hy => unlink_next fun h0 => ?_)
        fun y hy => unlink_prev fun h0 => ?_⟩
      · rintro rfl
        exact hL.notMem_of_ne hj (hv.resolve_left h0) hy
      · rintro rfl
        exact hL.notMem_of_ne hj (hn.resolve_left h0) hy
  mark_notMem j hm := by
    rw [update_apply] at hm
    split at hm
    · exact hL.mark_notMem i (List.mem_of_mem_erase hm)
    · exact hL.mark_notMem j hm
  disjoint j j' y hy hy' := by
    have hsub : ∀ j, y ∈ update L i ((L i).erase x) j → y ∈ L j := by
      intro j hy
      rw [update_apply] at hy
      split at hy
      · next hj => exact hj ▸ List.mem_of_mem_erase hy
      · exact hy
    exact hL.disjoint j j' y (hsub j hy) (hsub j' hy')
  count_eq j := by
    unfold Links.unlink
    simp only [update_apply]
    split
    · rw [hL.count_eq, List.length_erase_of_mem hx]
    · exact hL.count_eq j

omit [DecidableEq α] in
/-- Clearing an empty list changes nothing. -/
theorem clear (hL : k.Lists mark L) (hi : L i = []) : k.clear mark i = k := by
  have hh : update k.head i mark = k.head := by
    obtain ⟨q, hs⟩ := hL.linked i
    rw [hi] at hs
    exact (congrArg (update k.head i) hs.1.symm).trans (update_eq_self i k.head)
  have hc : update k.count i 0 = k.count := by
    have h0 : 0 = k.count i := by rw [hL.count_eq, hi, List.length_nil]
    exact (congrArg (update k.count i) h0).trans (update_eq_self i k.count)
  unfold Links.clear
  rw [hh, hc]

end Lists

end Links

end Loxis
