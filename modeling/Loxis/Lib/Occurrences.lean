import Mathlib.Data.List.Nodup
import Mathlib.Data.List.Infix
import Mathlib.Data.List.Pairwise
import Mathlib.Tactic.Common

/-! # Tables that are filled item by item

A pass goes through items with distinct keys and writes, for each, the entry of its key only. So
an entry is what the step for its item made of it, in the table that the items in front left.
-/

namespace Loxis

variable {K V D : Type*} {key : D → K} {step : (K → V) → D → K → V} {table : K → V} {k : K} {d : D}
  {ds pre post : List D}

/-- The step for an item leaves the other entries as they are. -/
def OwnEntries (key : D → K) (step : (K → V) → D → K → V) : Prop :=
  ∀ table d k, key d ≠ k → step table d k = table k

namespace OwnEntries

variable (h : OwnEntries key step)

include h

theorem foldl_ne (hk : ∀ d ∈ ds, key d ≠ k) : ds.foldl step table k = table k := by
  induction ds generalizing table with
  | nil => rfl
  | cons d ds ih => rw [List.foldl_cons, ih fun e he => hk e (.tail _ he), h _ _ _ (hk d (.head _))]

section Nodup

variable (hkeys : (ds.map key).Nodup)

include hkeys

/-- Items to come have their entries as they were. -/
theorem foldl_todo (hds : ds = pre ++ post) (hd : d ∈ post) :
    pre.foldl step table (key d) = table (key d) := by
  subst hds
  rw [List.map_append, List.nodup_append] at hkeys
  apply h.foldl_ne
  intro e he
  exact hkeys.2.2 _ (List.mem_map_of_mem he) _ (List.mem_map_of_mem hd)

/-- The entries of items that are done stay. -/
theorem foldl_done (hds : ds = pre ++ post) (hd : d ∈ pre) :
    pre.foldl step table (key d) = ds.foldl step table (key d) := by
  subst hds
  rw [List.map_append, List.nodup_append] at hkeys
  rw [List.foldl_append]
  symm
  apply h.foldl_ne
  intro e he
  exact (hkeys.2.2 _ (List.mem_map_of_mem hd) _ (List.mem_map_of_mem he)).symm

theorem foldl_at (hds : ds = pre ++ d :: post) :
    ds.foldl step table (key d) = step (pre.foldl step table) d (key d) := by
  have hsplit : ds = (pre ++ [d]) ++ post := by rw [hds, List.append_cons]
  rw [← h.foldl_done hkeys hsplit (List.mem_append_right pre (.head [])), List.foldl_append]
  rfl

/-- A step that only looks at the item leaves the same entry wherever the item stands. -/
theorem foldl_mem {f : D → V} (hf : ∀ table d, step table d (key d) = f d) (hd : d ∈ ds) :
    ds.foldl step table (key d) = f d := by
  obtain ⟨pre, post, hds⟩ := List.append_of_mem hd
  rw [h.foldl_at hkeys hds, hf]

end Nodup

end OwnEntries

end Loxis

/-! ## Occurrences of a word

The positions at which a word occurs in a sequence, the leftmost ones that do not overlap, and
the sequence cut at them.
-/

namespace Loxis

variable {α : Type*} {p s : List α} {b i o q : ℕ} {os os' : List ℕ}

def Occurs (p s : List α) (q : ℕ) : Prop := p <+: s.drop q

/-- The leftmost occurrences from a position on that do not overlap: every other one overlaps
an occurrence before it. -/
structure Leftmost (p s : List α) (i : ℕ) (os : List ℕ) : Prop where
  occurs : ∀ o ∈ os, Occurs p s o
  from_start : ∀ o ∈ os, i ≤ o
  apart : os.Pairwise (· + p.length ≤ ·)
  covers : ∀ q, i ≤ q → Occurs p s q → ∃ o ∈ os, o ≤ q ∧ q < o + p.length

/-- What is left of a sequence, from a position on, between occurrences of this width. -/
def pieces (s : List α) (width b : ℕ) : List ℕ → List (List α)
  | [] => [s.drop b]
  | o :: os => (s.drop b).take (o - b) :: pieces s width (o + width) os

/-- A sequence, from a position on, with a replacement for occurrences of this width. -/
def splice (s : List α) (width : ℕ) (r : List α) (b : ℕ) : List ℕ → List α
  | [] => s.drop b
  | o :: os => (s.drop b).take (o - b) ++ r ++ splice s width r (o + width) os

/-- Where the separators of this width stand between joined sequences. -/
def joints (width b : ℕ) : List (List α) → List ℕ
  | [] | [_] => []
  | x :: y :: ys => (b + x.length) :: joints width (b + x.length + width) (y :: ys)

theorem Occurs.le (h : Occurs p s q) (hp : p ≠ []) : q + p.length ≤ s.length := by
  have hlen := h.length_le
  have hpos := List.length_pos_iff.mpr hp
  rw [List.length_drop] at hlen
  omega

theorem occurs_iff_take : Occurs p s q ↔ (s.drop q).take p.length = p := by
  rw [Occurs, List.prefix_iff_eq_take, eq_comm]

theorem occurs_drop : Occurs p (s.drop b) q ↔ Occurs p s (b + q) := by
  rw [Occurs, Occurs, List.drop_drop]

/-! ## Leftmost occurrences -/

namespace Leftmost

theorem nil (h : ∀ q, i ≤ q → ¬ Occurs p s q) : Leftmost p s i [] :=
  ⟨by simp, by simp, .nil, fun q hq hocc => absurd hocc (h q hq)⟩

theorem skip (hi : ¬ Occurs p s i) (h : Leftmost p s (i + 1) os) : Leftmost p s i os := by
  refine ⟨h.occurs, fun o ho => Nat.le_of_succ_le (h.from_start o ho), h.apart, fun q hq hocc => ?_⟩
  rcases Nat.eq_or_lt_of_le hq with rfl | hlt
  · exact absurd hocc hi
  · exact h.covers q hlt hocc

theorem cons (hi : Occurs p s i) (h : Leftmost p s (i + p.length) os) : Leftmost p s i (i :: os) where
  occurs := List.forall_mem_cons.mpr ⟨hi, h.occurs⟩
  from_start := List.forall_mem_cons.mpr
    ⟨Nat.le_refl i, fun o ho => Nat.le_of_add_right_le (h.from_start o ho)⟩
  apart := .cons h.from_start h.apart
  covers q hq hocc := by
    by_cases hlt : q < i + p.length
    · exact ⟨i, List.mem_cons_self, hq, hlt⟩
    · obtain ⟨o, ho, hcov⟩ := h.covers q (Nat.not_lt.mp hlt) hocc
      exact ⟨o, List.mem_cons_of_mem i ho, hcov⟩

theorem tail (h : Leftmost p s i (o :: os)) : Leftmost p s (o + p.length) os where
  occurs := (List.forall_mem_cons.mp h.occurs).2
  from_start := (List.pairwise_cons.mp h.apart).1
  apart := (List.pairwise_cons.mp h.apart).2
  covers q hq hocc := by
    have hi := h.from_start o List.mem_cons_self
    obtain ⟨o', ho', hle, hlt⟩ := h.covers q (by omega) hocc
    rcases List.mem_cons.mp ho' with rfl | ho'
    · omega
    · exact ⟨o', ho', hle, hlt⟩

/-- The first one is the first occurrence. -/
theorem head_le (h : Leftmost p s i (o :: os)) (hq : i ≤ q) (hocc : Occurs p s q) : o ≤ q := by
  obtain ⟨o', ho', hle, -⟩ := h.covers q hq hocc
  rcases List.mem_cons.mp ho' with rfl | ho'
  · exact hle
  · have := (List.pairwise_cons.mp h.apart).1 o' ho'
    omega

theorem not_nil (h : Leftmost p s i []) : ¬ Leftmost p s i (o :: os) := by
  intro h'
  obtain ⟨o', ho', -⟩ := h.covers o (h'.from_start o List.mem_cons_self)
    (h'.occurs o List.mem_cons_self)
  cases ho'

theorem unique (h : Leftmost p s i os) (h' : Leftmost p s i os') : os' = os := by
  induction os generalizing os' i with
  | nil =>
    cases os' with
    | nil => rfl
    | cons o' os' => exact absurd h' h.not_nil
  | cons o os ih =>
    cases os' with
    | nil => exact absurd h h'.not_nil
    | cons o' os' =>
      obtain rfl : o' = o := Nat.le_antisymm
        (h'.head_le (h.from_start o List.mem_cons_self) (h.occurs o List.mem_cons_self))
        (h.head_le (h'.from_start o' List.mem_cons_self) (h'.occurs o' List.mem_cons_self))
      rw [ih h.tail h'.tail]

end Leftmost

/-! ## Pieces -/

theorem length_pieces {w : ℕ} : (pieces s w b os).length = 1 + os.length := by
  induction os generalizing b with
  | nil => rfl
  | cons o os ih => rw [pieces, List.length_cons, ih, List.length_cons, Nat.add_assoc]

theorem intercalate_cons (r x : List α) (xs : List (List α)) :
    r.intercalate (x :: xs) = x ++ (xs.map (r ++ ·)).flatten := by
  induction xs generalizing x with
  | nil => simp [List.intercalate]
  | cons y ys ih =>
    rw [List.map_cons, List.flatten_cons, List.append_assoc, ← ih]
    simp [List.intercalate]

theorem intercalate_cons_cons (r x y : List α) (ys : List (List α)) :
    r.intercalate (x :: y :: ys) = x ++ r ++ r.intercalate (y :: ys) := by
  simp [List.intercalate]

/-- The pieces put together again with a replacement between them. -/
theorem intercalate_pieces {w : ℕ} (r : List α) :
    r.intercalate (pieces s w b os) = splice s w r b os := by
  induction os generalizing b with
  | nil => simp [pieces, splice, List.intercalate]
  | cons o os ih =>
    rw [pieces, splice, ← ih]
    obtain ⟨x, xs, hx⟩ : ∃ x xs, pieces s w (o + w) os = x :: xs :=
      List.exists_cons_of_length_pos (by rw [length_pieces]; omega)
    rw [hx, intercalate_cons_cons]

/-- Replacing a word by itself changes nothing. -/
theorem splice_self (h : Leftmost p s b os) : splice s p.length p b os = s.drop b := by
  induction os generalizing b with
  | nil => rfl
  | cons o os ih =>
    have hle := h.from_start o List.mem_cons_self
    have hocc := occurs_iff_take.mp (h.occurs o List.mem_cons_self)
    have ho : s.drop o = (s.drop b).drop (o - b) := by
      rw [List.drop_drop, Nat.add_sub_cancel' hle]
    have hrest : s.drop (o + p.length) = (s.drop o).drop p.length := by rw [List.drop_drop]
    conv_lhs => rw [splice, ih h.tail, hrest, List.append_assoc]
    nth_rewrite 1 [← hocc]
    rw [List.take_append_drop, ho, List.take_append_drop]

/-- The word does not occur within a piece. -/
theorem not_occurs_piece (hp : p ≠ []) (h : Leftmost p s b os) :
    ∀ x ∈ pieces s p.length b os, ∀ q, ¬ Occurs p x q := by
  induction os generalizing b with
  | nil =>
    intro x hx q hocc
    rw [pieces, List.mem_singleton] at hx
    rw [hx, occurs_drop] at hocc
    obtain ⟨o, ho, -⟩ := h.covers _ (Nat.le_add_right b q) hocc
    cases ho
  | cons o os ih =>
    intro x hx q hocc
    rcases List.mem_cons.mp hx with rfl | hx
    · have hle := hocc.le hp
      rw [List.length_take] at hle
      have hpos := List.length_pos_iff.mpr hp
      have hwhole : Occurs p s (b + q) := by
        rw [← occurs_drop]
        exact hocc.trans ((List.take_prefix _ _).drop q)
      have := h.head_le (Nat.le_add_right b q) hwhole
      omega
    · exact ih h.tail x hx q hocc

/-! ## Joined sequences -/

/-- Where the word occurs only between the joined sequences, the pieces are these. -/
theorem joints_spec {x : List α} {xs : List (List α)} (h : s.drop b = p.intercalate (x :: xs)) :
    (∀ o ∈ joints p.length b (x :: xs), Occurs p s o ∧ b ≤ o) ∧
    (joints p.length b (x :: xs)).Pairwise (· + p.length ≤ ·) ∧
    pieces s p.length b (joints p.length b (x :: xs)) = x :: xs := by
  induction xs generalizing x b with
  | nil =>
    refine ⟨by simp [joints], .nil, ?_⟩
    rw [joints, pieces, h, List.intercalate_singleton]
  | cons y ys ih =>
    rw [intercalate_cons_cons, List.append_assoc] at h
    have hx : s.drop (b + x.length) = p ++ p.intercalate (y :: ys) := by
      rw [← List.drop_drop, h, List.drop_left]
    have hy : s.drop (b + x.length + p.length) = p.intercalate (y :: ys) := by
      rw [← List.drop_drop, hx, List.drop_left]
    obtain ⟨hall, hpair, hpieces⟩ := ih hy
    refine ⟨fun o ho => ?_, ?_, ?_⟩
    · rcases List.mem_cons.mp ho with rfl | ho
      · exact ⟨by rw [Occurs, hx]; exact List.prefix_append p _, Nat.le_add_right b _⟩
      · exact ⟨(hall o ho).1, by have := (hall o ho).2; omega⟩
    · exact .cons (fun o ho => (hall o ho).2) hpair
    · rw [joints, pieces, hpieces, h, Nat.add_sub_cancel_left, List.take_left]

end Loxis
