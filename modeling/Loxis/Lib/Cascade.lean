import Mathlib.Algebra.Order.BigOperators.Group.Finset
import Loxis.Lib.Graph

/-! # Reference counts

Objects refer to objects, several times perhaps, and are referred to from outside. A
count says how often an object is referred to. An object that loses its last reference
is dropped, which gives up the references it holds.
-/

namespace Loxis

open Function

/-- Counts, with the objects that wait to be dropped, the next one first. -/
structure Counts (α : Type*) where
  rc : α → ℕ
  work : List α

namespace Counts

variable {α : Type*} [DecidableEq α]

/-- Give up a reference. A count of zero is left alone. -/
def release (c : Counts α) (x : α) : Counts α :=
  if c.rc x = 0 then c
  else
    { rc := update c.rc x (c.rc x - 1)
      work := if c.rc x = 1 then x :: c.work else c.work }

/-- Take a reference. An object that waits is saved. -/
def retain (c : Counts α) (x : α) : Counts α where
  rc := update c.rc x (c.rc x + 1)
  work := c.work.erase x

/-- How often `x` is referred to: from outside, and by the objects. -/
def references (held : α → List α) (ext : α → ℕ) (objs : Finset α) (x : α) : ℕ :=
  ext x + ∑ o ∈ objs, (held o).count x

/-- The counts are exact, and the objects that wait are those with a count of zero. -/
structure Balanced (total : α → ℕ) (objs : Finset α) (c : Counts α) : Prop where
  count : ∀ x, c.rc x = total x
  alive : ∀ x, 0 < c.rc x → x ∈ objs
  mem_work : ∀ x, x ∈ c.work ↔ x ∈ objs ∧ c.rc x = 0
  nodup : c.work.Nodup

variable {c : Counts α} {total total' ext : α → ℕ} {objs : Finset α} {held : α → List α}
  {rc : α → ℕ} {rest l l' : List α} {x y : α}

theorem release_of_zero (h : c.rc x = 0) : c.release x = c := if_pos h

theorem rc_release : (c.release x).rc = update c.rc x (c.rc x - 1) := by
  unfold release
  split
  · next h => rw [h, eq_comm, update_eq_self_iff, h]
  · rfl

theorem work_release : (c.release x).work = if c.rc x = 1 then x :: c.work else c.work := by
  unfold release
  split
  · next h => rw [h]; rfl
  · rfl

theorem rc_release_le : (c.release y).rc x ≤ c.rc x := by
  rw [rc_release, update_apply]
  split
  · next h =>
    subst h
    exact Nat.sub_le _ _
  · exact le_rfl

theorem rc_foldl_release_le : (l.foldl release c).rc x ≤ c.rc x := by
  induction l generalizing c with
  | nil => exact le_rfl
  | cons y l ih => exact ih.trans rc_release_le

/-- An object whose count is zero already may be released any number of times. -/
theorem foldl_release_skip (h : c.rc x = 0) :
    (l ++ x :: l').foldl release c = (l ++ l').foldl release c := by
  have hl : (l.foldl release c).rc x = 0 := Nat.eq_zero_of_le_zero (h ▸ rc_foldl_release_le)
  rw [List.foldl_append, List.foldl_append, List.foldl_cons, release_of_zero hl]

omit [DecidableEq α] in
theorem Balanced.congr (h : Balanced total objs c) (ht : ∀ x, total x = total' x) :
    Balanced total' objs c := by
  rwa [← funext ht]

/-- References given up by one object. -/
theorem references_update (hx : x ∈ objs)
    (h : (held x).count y = l.count y + l'.count y) :
    references held ext objs y = references (update held x l) ext objs y + l'.count y := by
  unfold references
  rw [← Finset.add_sum_erase _ _ hx, ← Finset.add_sum_erase objs _ hx, update_self, h]
  have hsum : ∑ o ∈ objs.erase x, (update held x l o).count y =
      ∑ o ∈ objs.erase x, (held o).count y :=
    Finset.sum_congr rfl fun o ho => by rw [update_of_ne (Finset.ne_of_mem_erase ho)]
  rw [hsum]
  omega

theorem Balanced.release (h : Balanced total objs c)
    (ht : ∀ y, total y = total' y + [x].count y) : Balanced total' objs (c.release x) := by
  have hx : c.rc x = total' x + 1 := by
    rw [h.count, ht, List.count_singleton_self]
  have ho : x ∈ objs := h.alive x (by omega)
  have hw : x ∉ c.work := fun hm => by
    have := ((h.mem_work x).mp hm).2
    omega
  have hne : ∀ y, y ≠ x → c.rc y = total' y := by
    intro y hy
    rw [h.count, ht, List.count_singleton, beq_false_of_ne (Ne.symm hy)]
    rfl
  constructor
  · intro y
    rw [rc_release]
    by_cases hy : y = x
    · subst hy
      rw [update_self]
      omega
    · rw [update_of_ne hy, hne y hy]
  · intro y hpos
    rw [rc_release] at hpos
    by_cases hy : y = x
    · exact hy ▸ ho
    · rw [update_of_ne hy] at hpos
      exact h.alive y hpos
  · intro y
    rw [rc_release, work_release]
    by_cases hy : y = x
    · subst hy
      rw [update_self]
      split
      · next h1 => simp [ho, h1]
      · next h1 =>
        simp only [hw, ho, true_and, false_iff]
        omega
    · rw [update_of_ne hy]
      split
      · rw [List.mem_cons, or_iff_right hy]
        exact h.mem_work y
      · exact h.mem_work y
  · rw [work_release]
    split
    · exact List.nodup_cons.mpr ⟨hw, h.nodup⟩
    · exact h.nodup

theorem Balanced.foldl_release (h : Balanced total objs c)
    (ht : ∀ y, total y = total' y + l.count y) : Balanced total' objs (l.foldl Counts.release c) := by
  induction l generalizing c total with
  | nil => exact h.congr ht
  | cons x l ih =>
    have hx : ∀ y, total y = total' y + l.count y + [x].count y := fun y => by
      rw [ht, List.count_cons, List.count_singleton, add_assoc]
    exact ih (h.release hx) fun y => rfl

theorem Balanced.retain (h : Balanced total objs c) (hx : x ∈ objs) :
    Balanced (fun y => total y + [x].count y) objs (c.retain x) := by
  constructor
  · intro y
    by_cases hy : y = x
    · subst hy
      simp [Counts.retain, h.count]
    · simp [Counts.retain, h.count, hy, Ne.symm hy]
  · intro y hpos
    by_cases hy : y = x
    · exact hy ▸ hx
    · simp only [Counts.retain, update_of_ne hy] at hpos
      exact h.alive y hpos
  · intro y
    by_cases hy : y = x
    · subst hy
      simp [Counts.retain, h.nodup.not_mem_erase]
    · simp only [Counts.retain, update_of_ne hy, List.mem_erase_of_ne hy]
      exact h.mem_work y
  · exact h.nodup.erase x

theorem Balanced.pop (h : Balanced total objs ⟨rc, x :: rest⟩) :
    Balanced total (objs.erase x) ⟨rc, rest⟩ := by
  have hzero : rc x = 0 := ((h.mem_work x).mp (.head _)).2
  have hnd := List.nodup_cons.mp h.nodup
  constructor
  · exact h.count
  · intro y hpos
    have hne : y ≠ x := by
      rintro rfl
      exact absurd hzero hpos.ne'
    exact Finset.mem_erase.mpr ⟨hne, h.alive y hpos⟩
  · intro y
    by_cases hy : y = x
    · subst hy
      simp [hnd.1]
    · have := h.mem_work y
      rw [List.mem_cons, or_iff_right hy] at this
      rw [Finset.mem_erase, and_iff_right hy]
      exact this
  · exact hnd.2

/-- One turn of the cascade: the next object that waits is dropped. -/
theorem Balanced.turn (h : Balanced (references held ext objs) objs ⟨rc, x :: rest⟩) :
    Balanced (references held ext (objs.erase x)) (objs.erase x)
      ((held x).foldl Counts.release ⟨rc, rest⟩) := by
  have hx : x ∈ objs := ((h.mem_work x).mp (.head _)).1
  refine h.pop.foldl_release fun y => ?_
  unfold references
  rw [← Finset.add_sum_erase _ _ hx]
  omega

section Ended

variable (h : Balanced (references held ext objs) objs c) (hw : c.work = [])

include h hw

/-- Nothing waits: the objects are those that are referred to. -/
theorem Balanced.mem_iff : x ∈ objs ↔ 0 < c.rc x := by
  constructor
  · intro hx
    by_contra hz
    have := (h.mem_work x).mpr ⟨hx, by omega⟩
    rw [hw] at this
    cases this
  · exact h.alive x

/-- Every object is below one that is referred to from outside or below one on a cycle. -/
theorem Balanced.below (hx : x ∈ objs) : ∃ y ∈ objs,
    Graph.Reach (fun a b => a ∈ objs ∧ b ∈ held a) y x ∧
      (0 < ext y ∨ Relation.TransGen (fun a b => a ∈ objs ∧ b ∈ held a) y y) := by
  have hmem : ∀ a b, a ∈ objs ∧ b ∈ held a → a ∈ objs ∧ b ∈ objs := by
    intro a b ⟨ha, hb⟩
    refine ⟨ha, h.alive b ?_⟩
    rw [h.count]
    have : 0 < (held a).count b := List.count_pos_iff.mpr hb
    have := Finset.single_le_sum (f := fun o => (held o).count b) (fun _ _ => Nat.zero_le _) ha
    unfold references
    omega
  obtain ⟨y, hy, hyx, hsrc⟩ := Graph.exists_source objs hmem hx
  refine ⟨y, hy, hyx, ?_⟩
  have hpos := (h.mem_iff hw).mp hy
  rw [h.count, references] at hpos
  rcases Nat.eq_zero_or_pos (ext y) with hz | hz
  · right
    rw [hz, zero_add, Finset.sum_pos_iff] at hpos
    obtain ⟨a, ha, hc⟩ := hpos
    have hay := And.intro ha (List.count_pos_iff.mp hc)
    -- what refers to `y` is below `y`, since nothing outside its component does
    exact Relation.TransGen.tail' (hsrc a (.single hay)) hay
  · exact Or.inl hz

end Ended

end Counts

end Loxis
