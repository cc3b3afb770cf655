import Loxis.Stdlib.Str

/-! # Iterators

The stages are objects that pull elements from one another. A callback is a program of any
monad, so that it may have side effects. An element that is pulled leaves an iterator with
fewer of them, so the loops end.
-/

namespace Loxis.Stdlib

/-- What `next` returns, and the iterator after it. -/
structure Pull {σ : Type} (bound : σ → ℕ) (T : Type) (s : σ) where
  item : Option T
  rest : σ
  shrinks : item.isSome = true → bound rest < bound s

/-- An object with a method `next`, and a bound on the elements that it has left. -/
structure Iterator (m : Type → Type) (T : Type) where
  State : Type
  start : State
  bound : State → ℕ
  next : (s : State) → m (Pull bound T s)

variable {m : Type → Type} [Monad m] {T U A B : Type}

def emptyIterator : Iterator m T where
  State := Unit
  start := ()
  bound _ := 0
  next _ := return ⟨none, (), nofun⟩

/-- The state is the index. -/
def listIterator (items : List T) : Iterator m T where
  State := ℕ
  start := 0
  bound index := items.length - index
  next index :=
    if h : index ≥ items.length then return ⟨none, index, nofun⟩
    else return ⟨some items[index], index + 1, fun _ => by omega⟩

def mapIterator (source : Iterator m T) (transform : T → m U) : Iterator m U where
  State := source.State
  start := source.start
  bound := source.bound
  next s := do
    let r ← source.next s
    match h : r.item with
    | none => return ⟨none, r.rest, nofun⟩
    | some x => return ⟨some (← transform x), r.rest, fun _ => r.shrinks (by rw [h]; rfl)⟩

/-- The loop to the next element that satisfies the predicate. -/
def filterNext (source : Iterator m T) (predicate : T → m Bool) (s : source.State) :
    m (Pull source.bound T s) := do
  let r ← source.next s
  match h : r.item with
  | none => return ⟨none, r.rest, nofun⟩
  | some x =>
    have hlt : source.bound r.rest < source.bound s := r.shrinks (by rw [h]; rfl)
    if ← predicate x then return ⟨some x, r.rest, fun _ => hlt⟩
    else
      let r' ← filterNext source predicate r.rest
      return ⟨r'.item, r'.rest, fun hs => Nat.lt_trans (r'.shrinks hs) hlt⟩
termination_by source.bound s

def filterIterator (source : Iterator m T) (predicate : T → m Bool) : Iterator m T where
  State := source.State
  start := source.start
  bound := source.bound
  next s := filterNext source predicate s

/-- The state is the source and `remaining`. -/
def takeIterator (source : Iterator m T) (remaining : ℤ) : Iterator m T where
  State := source.State × ℤ
  start := (source.start, remaining)
  bound s := source.bound s.1
  next s :=
    if s.2 = 0 then return ⟨none, s, nofun⟩
    else do
      let r ← source.next s.1
      match h : r.item with
      | none => return ⟨none, (r.rest, 0), nofun⟩
      | some x => return ⟨some x, (r.rest, s.2 - 1), fun _ => r.shrinks (by rw [h]; rfl)⟩

/-- The loop over the elements that are dropped, and the one after them. -/
def dropNext (source : Iterator m T) (s : source.State) (remaining : ℤ) :
    m (Pull (fun s : source.State × ℤ => source.bound s.1) T (s, remaining)) :=
  if h0 : remaining > 0 then do
    let r ← source.next s
    match h : r.item with
    | none => return ⟨none, (r.rest, 0), nofun⟩
    | some _ =>
      have hlt : source.bound r.rest < source.bound s := r.shrinks (by rw [h]; rfl)
      let r' ← dropNext source r.rest (remaining - 1)
      return ⟨r'.item, r'.rest, fun hs => Nat.lt_trans (r'.shrinks hs) hlt⟩
  else do
    let r ← source.next s
    return ⟨r.item, (r.rest, remaining), r.shrinks⟩
termination_by remaining.toNat

def dropIterator (source : Iterator m T) (remaining : ℤ) : Iterator m T where
  State := source.State × ℤ
  start := (source.start, remaining)
  bound s := source.bound s.1
  next s := dropNext source s.1 s.2

/-- The state is the two sources and `done`. -/
def zipIterator (left : Iterator m A) (right : Iterator m B) : Iterator m (A × B) where
  State := left.State × right.State × Bool
  start := (left.start, right.start, false)
  bound s := left.bound s.1
  next s :=
    if s.2.2 then return ⟨none, s, nofun⟩
    else do
      let a ← left.next s.1
      match ha : a.item with
      | none => return ⟨none, (a.rest, s.2.1, true), nofun⟩
      | some x => do
        let b ← right.next s.2.1
        match b.item with
        | none => return ⟨none, (a.rest, b.rest, true), nofun⟩
        | some y =>
          return ⟨some (x, y), (a.rest, b.rest, false), fun _ => a.shrinks (by rw [ha]; rfl)⟩

def iterTake (source : Iterator m T) (count : ℤ) : Except String (Iterator m T) :=
  if count ≥ 0 then .ok (takeIterator source count) else .error "negative iterator count"

def iterDrop (source : Iterator m T) (count : ℤ) : Except String (Iterator m T) :=
  if count ≥ 0 then .ok (dropIterator source count) else .error "negative iterator count"

/-! ## Terminal operations -/

namespace Iterator

variable (iter : Iterator m T)

def forEach (f : T → m Unit) (s : iter.State) : m Unit := do
  let r ← iter.next s
  match h : r.item with
  | none => return ()
  | some x =>
    have : iter.bound r.rest < iter.bound s := r.shrinks (by rw [h]; rfl)
    f x
    forEach f r.rest
termination_by iter.bound s

def count (s : iter.State) (total : ℕ) : m ℕ := do
  let r ← iter.next s
  match h : r.item with
  | none => return total
  | some _ =>
    have : iter.bound r.rest < iter.bound s := r.shrinks (by rw [h]; rfl)
    count r.rest (total + 1)
termination_by iter.bound s

def any (pred : T → m Bool) (s : iter.State) : m Bool := do
  let r ← iter.next s
  match h : r.item with
  | none => return false
  | some x =>
    have : iter.bound r.rest < iter.bound s := r.shrinks (by rw [h]; rfl)
    if ← pred x then return true
    else any pred r.rest
termination_by iter.bound s

def all (pred : T → m Bool) (s : iter.State) : m Bool := do
  let r ← iter.next s
  match h : r.item with
  | none => return true
  | some x =>
    have : iter.bound r.rest < iter.bound s := r.shrinks (by rw [h]; rfl)
    if !(← pred x) then return false
    else all pred r.rest
termination_by iter.bound s

def find (pred : T → m Bool) (s : iter.State) : m (Option T) := do
  let r ← iter.next s
  match h : r.item with
  | none => return none
  | some x =>
    have : iter.bound r.rest < iter.bound s := r.shrinks (by rw [h]; rfl)
    if ← pred x then return some x
    else find pred r.rest
termination_by iter.bound s

def fold (f : U → T → m U) (s : iter.State) (total : U) : m U := do
  let r ← iter.next s
  match h : r.item with
  | none => return total
  | some x =>
    have : iter.bound r.rest < iter.bound s := r.shrinks (by rw [h]; rfl)
    fold f r.rest (← f total x)
termination_by iter.bound s

def toList (s : iter.State) (out : List T) : m (List T) := do
  let r ← iter.next s
  match h : r.item with
  | none => return out
  | some x =>
    have : iter.bound r.rest < iter.bound s := r.shrinks (by rw [h]; rfl)
    toList r.rest (out ++ [x])
termination_by iter.bound s

end Iterator

/-! ## Pipelines

A stream is one of these iterators, and its methods are the stages and the terminal operations.
-/

/-- Compositions of stages over source lists. -/
inductive Pipeline (m : Type → Type) : Type → Type 1
  | empty {T : Type} : Pipeline m T
  | list {T : Type} (items : List T) : Pipeline m T
  | map {T U : Type} (source : Pipeline m T) (transform : T → m U) : Pipeline m U
  | filter {T : Type} (source : Pipeline m T) (predicate : T → m Bool) : Pipeline m T
  | take {T : Type} (source : Pipeline m T) (count : ℤ) : Pipeline m T
  | drop {T : Type} (source : Pipeline m T) (count : ℤ) : Pipeline m T
  | zip {A B : Type} (left : Pipeline m A) (right : Pipeline m B) : Pipeline m (A × B)

/-- The iterator of a composition, or the exception of a negative count. -/
def Pipeline.build {T : Type} : Pipeline m T → Except String (Iterator m T)
  | empty => .ok emptyIterator
  | list items => .ok (listIterator items)
  | map source transform => do return mapIterator (← source.build) transform
  | filter source predicate => do return filterIterator (← source.build) predicate
  | take source count => do iterTake (← source.build) count
  | drop source count => do iterDrop (← source.build) count
  | zip left right => do return zipIterator (← left.build) (← right.build)

end Loxis.Stdlib
