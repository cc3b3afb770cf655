import Mathlib.Algebra.GroupWithZero.Nat
import Mathlib.Algebra.BigOperators.Group.Finset.Basic
import Mathlib.Algebra.Order.BigOperators.Group.Finset
import Mathlib.Logic.Function.Basic
import Mathlib.Data.List.Pairwise
import Loxis.Lib.Graph
import Loxis.Lib.Run

/-! # Iterative Tarjan

Strongly connected components by one depth-first search with an explicit frame
stack. A frame holds a vertex and the successors it has yet to look at; a vertex
is numbered when its frame is first on top. The scratch maps outlive a search and
are cleared vertex by vertex.
-/

namespace Loxis.Tarjan

open Loxis.Graph Function

variable {V : Type*} [DecidableEq V]

/-- The scratch maps (`disc`, `low`, `onStack`, `scc`) and the working stacks of a search. -/
structure State (V : Type*) where
  disc : V → ℕ
  low : V → ℕ
  onStack : V → Bool
  scc : V → Option ℕ
  stack : List V
  frames : List (V × List V)
  time : ℕ
  comps : ℕ
  visited : List V

/-- Number a vertex, push it on the component stack and load its successors. -/
def enter (succ : V → List V) (u : V) (fs : List (V × List V)) (s : State V) : State V :=
  { s with
    time := s.time + 1
    disc := update s.disc u (s.time + 1)
    low := update s.low u (s.time + 1)
    onStack := update s.onStack u true
    stack := u :: s.stack
    visited := s.visited ++ [u]
    frames := (u, succ u) :: fs }

/-- Look at one successor: descend into a new vertex, or lower the link of the frame. -/
def scanEdge (u v : V) (rest : List V) (fs : List (V × List V)) (s : State V) : State V :=
  if s.disc v = 0 then { s with frames := (v, []) :: (u, rest) :: fs }
  else if s.onStack v = true ∧ s.disc v < s.low u then
    { s with low := update s.low u (s.disc v), frames := (u, rest) :: fs }
  else { s with frames := (u, rest) :: fs }

/-- Pop the component stack down to `u`, giving every popped vertex the number `c`. -/
def popLoop (u : V) (c : ℕ) :
    List V → (V → Bool) → (V → Option ℕ) → List V × (V → Bool) × (V → Option ℕ)
  | [], onStack, scc => ([], onStack, scc)
  | w :: st, onStack, scc =>
    if w = u then (st, update onStack w false, update scc w (some c))
    else popLoop u c st (update onStack w false) (update scc w (some c))

/-- Close the component of `u`. -/
def closeComponent (u : V) (s : State V) : State V :=
  let r := popLoop u s.comps s.stack s.onStack s.scc
  { s with stack := r.1, onStack := r.2.1, scc := r.2.2, comps := s.comps + 1 }

/-- Fold the link of `u` into the frame below it. -/
def foldLow (u : V) (s : State V) : State V :=
  match s.frames with
  | [] => s
  | (p, _) :: _ => if s.low u < s.low p then { s with low := update s.low p (s.low u) } else s

/-- Leave `u`: close its component when it is the root of one, then fold its link. -/
def finishNode (u : V) (fs : List (V × List V)) (s : State V) : State V :=
  let s := { s with frames := fs }
  foldLow u (if s.low u = s.disc u then closeComponent u s else s)

/-- One turn of the search with `u` on top, once `u` is numbered. -/
def advance (u : V) (fs : List (V × List V)) (s : State V) : List V → State V
  | v :: rest => scanEdge u v rest fs s
  | [] => finishNode u fs s

/-- One turn of the search loop. -/
def body (succ : V → List V) (s : State V) : State V × Bool :=
  match s.frames with
  | [] => (s, false)
  | (u, next) :: fs =>
    if s.disc u = 0 then (advance u fs (enter succ u fs s) (succ u), true)
    else (advance u fs s next, true)

/-- Search from one root. -/
def visitFrom (succ : V → List V) (fuel : ℕ) (root : V) (s : State V) : State V :=
  iterUntil (body succ) fuel { s with frames := [(root, [])] }

/-- Search from every root that is not numbered yet and that `live` admits. -/
def visitRoots (succ : V → List V) (live : V → Bool) (fuel : ℕ) :
    List V → State V → State V
  | [], s => s
  | root :: roots, s =>
    if s.disc root ≠ 0 then visitRoots succ live fuel roots s
    else if live root = false then visitRoots succ live fuel roots s
    else visitRoots succ live fuel roots (visitFrom succ fuel root s)

/-- Clear the scratch maps of the given vertices. -/
def release : List V → State V → State V
  | [], s => s
  | v :: vs, s => release vs
      { s with
        disc := update s.disc v 0
        low := update s.low v 0
        onStack := update s.onStack v false
        scc := update s.scc v none }

/-- An edge out of `x` is examined when no frame of `x` has it ahead. -/
def Examined (succ : V → List V) (s : State V) (x w : V) : Prop :=
  w ∈ succ x ∧ ∀ rest, (x, rest) ∈ s.frames → w ∉ rest

/-- The edge relation of a successor function. -/
def Edge (succ : V → List V) (u v : V) : Prop := v ∈ succ u

/-- What holds of the search between turns. `R` holds the roots; `pend` is the vertex on top
of the frames when it is not numbered yet, and `frames` then lists the frames below it. -/
structure Inv (succ : V → List V) (R : V → Prop) (pend : Option V) (s : State V) : Prop where
  disc_le : ∀ v, s.disc v ≤ s.time
  disc_inj : ∀ u v, s.disc u ≠ 0 → s.disc u = s.disc v → u = v
  clean : ∀ v, s.disc v = 0 → s.low v = 0 ∧ s.onStack v = false ∧ s.scc v = none
  on_iff : ∀ v, s.onStack v = true ↔ v ∈ s.stack
  stack_sorted : s.stack.Pairwise fun a b => s.disc b < s.disc a
  stack_disc : ∀ v ∈ s.stack, s.disc v ≠ 0
  stack_scc : ∀ v, s.disc v ≠ 0 → (v ∈ s.stack ↔ s.scc v = none)
  scc_lt : ∀ v c, s.scc v = some c → c < s.comps
  scc_used : ∀ c < s.comps, ∃ v, s.scc v = some c
  visited_nodup : s.visited.Nodup
  visited_iff : ∀ v, v ∈ s.visited ↔ s.disc v ≠ 0
  frames_sorted : (s.frames.map Prod.fst).Pairwise fun a b => s.disc b < s.disc a
  frames_stack : ∀ f ∈ s.frames, f.1 ∈ s.stack
  frames_rest : ∀ f ∈ s.frames, ∀ v ∈ f.2, v ∈ succ f.1
  closed : ∀ v w, s.scc v ≠ none → w ∈ succ v → s.scc w ≠ none
  examined : ∀ x w, s.disc x ≠ 0 → Examined succ s x w → s.disc w ≠ 0 ∨ pend = some w
  low_le : ∀ v ∈ s.stack, s.low v ≤ s.disc v
  low_reach : ∀ v ∈ s.stack, ∃ y ∈ s.stack, s.disc y = s.low v ∧ Reach (Edge succ) v y
  low_lt : ∀ v ∈ s.stack, v ∉ s.frames.map Prod.fst → s.low v < s.disc v
  low_bound : ∀ f ∈ s.frames, ∀ x ∈ s.stack, s.disc f.1 ≤ s.disc x →
    (∀ g ∈ s.frames, s.disc g.1 ≤ s.disc x → s.disc g.1 ≤ s.disc f.1) →
    ∀ w ∈ s.stack, Examined succ s x w → s.low f.1 ≤ s.disc w
  frame_reach : ∀ f ∈ s.frames, ∀ x ∈ s.stack, s.disc f.1 ≤ s.disc x → Reach (Edge succ) f.1 x
  bottom : ∀ x ∈ s.stack, ∃ f ∈ s.frames, s.disc f.1 ≤ s.disc x
  same_comp : ∀ u v c, s.scc u = some c →
    (s.scc v = some c ↔ Reach (Edge succ) u v ∧ Reach (Edge succ) v u)
  from_root : ∀ v, s.disc v ≠ 0 ∨ pend = some v → ∃ r, R r ∧ Reach (Edge succ) r v
  pend_new : ∀ v, pend = some v → s.disc v = 0
  pend_edge : ∀ v p rest fs, pend = some v → s.frames = (p, rest) :: fs → v ∈ succ p

end Loxis.Tarjan
