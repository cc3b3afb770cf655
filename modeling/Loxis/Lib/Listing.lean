import Mathlib.Algebra.GroupWithZero.Nat
import Mathlib.Data.List.Basic
import Mathlib.Data.Nat.Notation
import Mathlib.Data.List.Pairwise
import Mathlib.Tactic.Common

/-! # Listings

Instructions of some sizes in a row, with marks between them. Where each of them lies when the
row starts at a position, and what the last mark of a name says.
-/

namespace Loxis.Listing

/-- An entry of a listing. -/
inductive Item (L I : Type*)
  | mark (l : L)
  | ins (i : I)
  deriving DecidableEq

variable {L I : Type*} (size : I → ℕ) {xs ys : List (Item L I)} {p q : ℕ} {l : L} {i : I}

/-- The instructions of a listing. -/
def code : List (Item L I) → List I
  | [] => []
  | .mark _ :: xs => code xs
  | .ins i :: xs => i :: code xs

/-- The marked names. -/
def names : List (Item L I) → List L
  | [] => []
  | .mark l :: xs => l :: names xs
  | .ins _ :: xs => names xs

/-- The size of all instructions. -/
def total (xs : List (Item L I)) : ℕ := ((code xs).map size).sum

/-- The marks with their positions, if the row starts at a position. -/
def marks : ℕ → List (Item L I) → List (L × ℕ)
  | _, [] => []
  | p, .mark l :: xs => (l, p) :: marks p xs
  | p, .ins i :: xs => marks (p + size i) xs

@[simp] theorem code_append (xs ys : List (Item L I)) : code (xs ++ ys) = code xs ++ code ys := by
  induction xs with
  | nil => rfl
  | cons x xs ih =>
    cases x with
    | mark l => exact ih
    | ins i => exact congrArg (i :: ·) ih

@[simp] theorem names_append (xs ys : List (Item L I)) :
    names (xs ++ ys) = names xs ++ names ys := by
  induction xs with
  | nil => rfl
  | cons x xs ih =>
    cases x with
    | mark l => exact congrArg (l :: ·) ih
    | ins i => exact ih

theorem mem_code : i ∈ code xs ↔ .ins i ∈ xs := by
  induction xs with
  | nil => simp [code]
  | cons x xs ih => cases x <;> simp [code, ih]

theorem mem_names : l ∈ names xs ↔ .mark l ∈ xs := by
  induction xs with
  | nil => simp [names]
  | cons x xs ih => cases x <;> simp [names, ih]

@[simp] theorem total_nil : total size ([] : List (Item L I)) = 0 := rfl

@[simp] theorem total_mark : total size (.mark l :: xs) = total size xs := rfl

@[simp] theorem total_ins : total size (.ins i :: xs) = size i + total size xs := by
  simp [total, code]

@[simp] theorem total_append (xs ys : List (Item L I)) :
    total size (xs ++ ys) = total size xs + total size ys := by
  simp [total]

theorem marks_append (p : ℕ) (xs ys : List (Item L I)) :
    marks size p (xs ++ ys) = marks size p xs ++ marks size (p + total size xs) ys := by
  induction xs generalizing p with
  | nil => rfl
  | cons x xs ih =>
    cases x with
    | mark l => exact congrArg ((l, p) :: ·) (ih p)
    | ins i =>
      rw [List.cons_append, marks, marks, ih, total_ins, Nat.add_assoc]

/-- A mark lies between what comes before it and what comes after it. -/
theorem mem_marks : (l, q) ∈ marks size p xs ↔
    ∃ ys zs, xs = ys ++ .mark l :: zs ∧ q = p + total size ys := by
  constructor
  · intro h
    induction xs generalizing p with
    | nil => cases h
    | cons x xs ih =>
      cases x with
      | mark m =>
        rcases List.mem_cons.mp h with h | h
        · obtain ⟨rfl, rfl⟩ := Prod.mk.inj h
          exact ⟨[], xs, rfl, rfl⟩
        · obtain ⟨ys, zs, rfl, rfl⟩ := ih h
          exact ⟨.mark m :: ys, zs, rfl, rfl⟩
      | ins i =>
        obtain ⟨ys, zs, rfl, rfl⟩ := ih h
        exact ⟨.ins i :: ys, zs, rfl, by rw [total_ins, Nat.add_assoc]⟩
  · rintro ⟨ys, zs, rfl, rfl⟩
    rw [marks_append]
    exact List.mem_append_right _ List.mem_cons_self

theorem le_of_mem_marks (h : (l, q) ∈ marks size p xs) : p ≤ q := by
  obtain ⟨ys, zs, -, rfl⟩ := (mem_marks size).mp h
  exact Nat.le_add_right _ _

theorem mem_marks_le (h : (l, q) ∈ marks size p xs) : q ≤ p + total size xs := by
  obtain ⟨ys, zs, rfl, rfl⟩ := (mem_marks size).mp h
  rw [total_append]
  omega

/-- Marks come in the order of their positions. -/
theorem marks_pairwise (p : ℕ) (xs : List (Item L I)) :
    (marks size p xs).Pairwise fun m n => m.2 ≤ n.2 := by
  induction xs generalizing p with
  | nil => exact List.Pairwise.nil
  | cons x xs ih =>
    cases x with
    | mark l => exact List.pairwise_cons.mpr ⟨fun _ h => le_of_mem_marks size h, ih p⟩
    | ins i => exact ih _

end Loxis.Listing

/-! ## Texts with holes

A text whose holes stand for symbols. Written with blanks and patched hole by hole, it is the text
with every hole filled in.
-/

namespace Loxis.Holes

/-- A piece of a text: letters, or a hole for a symbol. -/
inductive Piece (S α : Type*)
  | raw (xs : List α)
  | hole (s : S)

variable {S α : Type*} {f : S → List α} {blank pre post : List α} {k : ℕ}

def Piece.fill (f : S → List α) : Piece S α → List α
  | .raw xs => xs
  | .hole s => f s

/-- The text, its holes filled. -/
def fill (f : S → List α) (ps : List (Piece S α)) : List α := ps.flatMap (Piece.fill f)

/-- The holes with their places, each as wide as `k` letters, if the text starts at a place. -/
def sites (k : ℕ) : ℕ → List (Piece S α) → List (ℕ × S)
  | _, [] => []
  | p, .raw xs :: ps => sites k (p + xs.length) ps
  | p, .hole s :: ps => (p, s) :: sites k (p + k) ps

/-- Overwrite the letters at a place. -/
def patch (text : List α) (p : ℕ) (xs : List α) : List α :=
  text.take p ++ xs ++ text.drop (p + xs.length)

theorem fill_append (f : S → List α) (ps qs : List (Piece S α)) :
    fill f (ps ++ qs) = fill f ps ++ fill f qs := List.flatMap_append

theorem length_fill (hf : ∀ s, (f s).length = k) (hb : blank.length = k)
    (ps : List (Piece S α)) : (fill f ps).length = (fill (fun _ => blank) ps).length := by
  induction ps with
  | nil => rfl
  | cons p ps ih =>
    have hp : (p.fill f).length = (p.fill fun _ => blank).length := by
      cases p with
      | raw => rfl
      | hole s => rw [Piece.fill, Piece.fill, hf, hb]
    have ih : (ps.flatMap (Piece.fill f)).length =
      (ps.flatMap (Piece.fill fun _ => blank)).length := ih
    rw [fill, fill, List.flatMap_cons, List.flatMap_cons, List.length_append, List.length_append,
      hp, ih]

theorem sites_append (hb : blank.length = k) (p : ℕ) (ps qs : List (Piece S α)) :
    sites k p (ps ++ qs) = sites k p ps ++ sites k (p + (fill (fun _ => blank) ps).length) qs := by
  induction ps generalizing p with
  | nil => rfl
  | cons x ps ih =>
    cases x with
    | raw xs =>
      rw [List.cons_append, sites, sites, ih, fill, fill, List.flatMap_cons, List.length_append,
        Piece.fill, Nat.add_assoc]
    | hole s =>
      rw [List.cons_append, sites, sites, ih, fill, fill, List.flatMap_cons, List.length_append,
        Piece.fill, hb, Nat.add_assoc, List.cons_append]

/-- Patching every hole fills the text. -/
theorem patch_sites (hf : ∀ s, (f s).length = k) (hb : blank.length = k)
    (ps : List (Piece S α)) (pre post : List α) :
    (sites k pre.length ps).foldl (fun text site => patch text site.1 (f site.2))
      (pre ++ fill (fun _ => blank) ps ++ post) = pre ++ fill f ps ++ post := by
  induction ps generalizing pre with
  | nil => rfl
  | cons x ps ih =>
    cases x with
    | raw xs =>
      have h := ih (pre ++ xs)
      rw [List.length_append] at h
      simpa [sites, fill, Piece.fill] using h
    | hole s =>
      have h := ih (pre ++ f s)
      rw [List.length_append, hf] at h
      have hpatch : patch (pre ++ (blank ++ (fill (fun _ => blank) ps ++ post))) pre.length (f s) =
          pre ++ (f s ++ (fill (fun _ => blank) ps ++ post)) := by
        rw [patch, List.take_left, List.drop_append, hf, ← hb]
        simp
      simp only [sites, fill, List.flatMap_cons, Piece.fill, List.foldl_cons, List.append_assoc]
        at h hpatch ⊢
      rw [hpatch]
      exact h

end Loxis.Holes
