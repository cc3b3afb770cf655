import Mathlib.Data.List.Count
import Mathlib.Algebra.Order.Ring.Int
import Loxis.Aarc.Cell

/-! # Reference counts and adjacency

One row per slot: root count, incoming edge count and the two lists of edge records
in which every edge is linked, newest first. Duplicate edges are distinct records.
-/

namespace Loxis.Aarc

open Function

/-- An edge record, linked into the source's out-list and the target's in-list. -/
structure EdgeRec where
  src : ObjHandle
  dst : ObjHandle
  deriving DecidableEq, Repr

structure RefTable where
  root : ℕ → ℤ
  edge : ℕ → ℤ
  outRecs : ℕ → List EdgeRec
  inRecs : ℕ → List EdgeRec

namespace RefTable

def init : RefTable := ⟨fun _ => 0, fun _ => 0, fun _ => [], fun _ => []⟩

variable (t : RefTable)

def total (i : ℕ) : ℤ := t.root i + t.edge i

def hasOutgoing (i : ℕ) : Bool := !(t.outRecs i).isEmpty

/-- The targets of a slot's outgoing edges. -/
def outs (i : ℕ) : List ObjHandle := (t.outRecs i).map EdgeRec.dst

/-- The sources of a slot's incoming edges. -/
def ins (i : ℕ) : List ObjHandle := (t.inRecs i).map EdgeRec.src

def addRoot (i n : ℕ) : RefTable := { t with root := update t.root i (t.root i + n) }

/-- Never drives the count negative; reports failure when the row held fewer roots. -/
def subRoot (i n : ℕ) : RefTable × Bool :=
  if t.root i < n then ({ t with root := update t.root i 0 }, false)
  else ({ t with root := update t.root i (t.root i - n) }, true)

def addEdgeTo (i : ℕ) : RefTable := { t with edge := update t.edge i (t.edge i + 1) }

def subEdgeTo (i : ℕ) : RefTable × Bool :=
  if t.edge i ≤ 0 then (t, false)
  else ({ t with edge := update t.edge i (t.edge i - 1) }, true)

def addOut (src dst : ObjHandle) : RefTable :=
  { t with
    outRecs := update t.outRecs src.index (⟨src, dst⟩ :: t.outRecs src.index)
    inRecs := update t.inRecs dst.index (⟨src, dst⟩ :: t.inRecs dst.index) }

/-- Unlink one record from both its lists. -/
def unlink (r : EdgeRec) : RefTable :=
  { t with
    outRecs := update t.outRecs r.src.index ((t.outRecs r.src.index).erase r)
    inRecs := update t.inRecs r.dst.index ((t.inRecs r.dst.index).erase r) }

/-- Remove one matching record from the source's multiset. -/
def removeOut (src dst : ObjHandle) : RefTable × Bool :=
  if ⟨src, dst⟩ ∈ t.outRecs src.index then (t.unlink ⟨src, dst⟩, true) else (t, false)

/-- Remove every outgoing record of a dying source. -/
def clearOuts (i : ℕ) : RefTable := (t.outRecs i).foldl unlink t

def resetSlot (i : ℕ) : RefTable :=
  let t := t.clearOuts i
  { root := update t.root i 0
    edge := update t.edge i 0
    outRecs := update t.outRecs i []
    inRecs := update t.inRecs i [] }

/-- What a message does to the table. Messages about dead cells do nothing. -/
def applied (p : CellPool) (m : GCMessage) : RefTable :=
  match m.op with
  | .rootAdd => if p.valid m.b then t.addRoot m.b.index m.count else t
  | .rootRemove => if p.valid m.b then (t.subRoot m.b.index m.count).1 else t
  | .edgeAdd => if p.valid m.a && p.valid m.b then (t.addEdgeTo m.b.index).addOut m.a m.b else t
  | .edgeRemove =>
    if p.valid m.a && (t.removeOut m.a m.b).2 then
      if p.valid m.b then ((t.removeOut m.a m.b).1.subEdgeTo m.b.index).1
      else (t.removeOut m.a m.b).1
    else t
  | .rootCheck | .terminate => t

/-- The edge relation on slots. -/
def Edge (i j : ℕ) : Prop := ∃ r ∈ t.outRecs i, r.dst.index = j

variable {t} {i j : ℕ}

theorem hasOutgoing_iff : t.hasOutgoing i = true ↔ t.outRecs i ≠ [] := by
  simp [hasOutgoing]

theorem hasOutgoing_of_edge (h : t.Edge i j) : t.hasOutgoing i = true := by
  obtain ⟨r, hr, -⟩ := h
  exact hasOutgoing_iff.mpr (List.ne_nil_of_mem hr)

@[simp] theorem root_unlink (r : EdgeRec) : (t.unlink r).root = t.root := rfl
@[simp] theorem edge_unlink (r : EdgeRec) : (t.unlink r).edge = t.edge := rfl

theorem root_foldl_unlink (l : List EdgeRec) (t : RefTable) :
    (l.foldl unlink t).root = t.root ∧ (l.foldl unlink t).edge = t.edge := by
  induction l generalizing t with
  | nil => exact ⟨rfl, rfl⟩
  | cons r l ih => simpa using ih (t.unlink r)

theorem outRecs_foldl_unlink (l : List EdgeRec) (t : RefTable) (j : ℕ) :
    (l.foldl unlink t).outRecs j = (t.outRecs j).diff (l.filter (·.src.index = j)) := by
  induction l generalizing t with
  | nil => simp
  | cons r l ih =>
    rw [List.foldl_cons, ih, List.filter_cons]
    by_cases h : r.src.index = j
    · simp [unlink, h, List.diff_cons]
    · simp [unlink, h, update_of_ne (Ne.symm h)]

theorem inRecs_foldl_unlink (l : List EdgeRec) (t : RefTable) (j : ℕ) :
    (l.foldl unlink t).inRecs j = (t.inRecs j).diff (l.filter (·.dst.index = j)) := by
  induction l generalizing t with
  | nil => simp
  | cons r l ih =>
    rw [List.foldl_cons, ih, List.filter_cons]
    by_cases h : r.dst.index = j
    · simp [unlink, h, List.diff_cons]
    · simp [unlink, h, update_of_ne (Ne.symm h)]

/-- Removing every occurrence of the elements of `m` filters them out. -/
theorem diff_eq_filter {α : Type*} [DecidableEq α] :
    ∀ {l m : List α}, (∀ a ∈ m, m.count a = l.count a) → l.diff m = l.filter (· ∉ m)
  | [], m, _ => by simp
  | x :: l, m, h => by
    rw [List.cons_diff]
    by_cases hx : x ∈ m
    · rw [if_pos hx, List.filter_cons_of_neg (by simpa using hx)]
      have hxc := h x hx
      rw [List.count_cons_self] at hxc
      have hc : ∀ a ∈ m.erase x, (m.erase x).count a = l.count a := by
        intro a ha
        have := h a (List.mem_of_mem_erase ha)
        by_cases hax : a = x
        · subst hax; rw [List.count_erase_self]; omega
        · rw [List.count_erase_of_ne hax, this, List.count_cons_of_ne (Ne.symm hax)]
      rw [diff_eq_filter hc]
      refine List.filter_congr fun y hy => ?_
      by_cases hyx : y = x
      · subst hyx
        have hpos := List.count_pos_iff.mpr hy
        have : y ∈ m.erase y := by
          rw [← List.count_pos_iff, List.count_erase_self]; omega
        simp [this, hx]
      · simp [List.mem_erase_of_ne hyx]
    · rw [if_neg hx, List.filter_cons_of_pos (by simpa using hx)]
      congr 1
      refine diff_eq_filter fun a ha => ?_
      rw [h a ha, List.count_cons_of_ne]
      rintro rfl
      exact hx ha

end RefTable

end Loxis.Aarc
