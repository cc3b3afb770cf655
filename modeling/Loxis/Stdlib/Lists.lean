import Mathlib.Logic.Function.Basic
import Loxis.Lib.Outcome
import Loxis.Stdlib.Str

/-! # Lists

A list keeps its elements in an array of the heap, behind a cell for the array's length. Cells
take nine bytes and are named by byte offsets. A block that is freed is never handed out again,
so that each use of it would be an invalid access.
-/

namespace Loxis.Stdlib.Lists

open Loxis.Backend (Fits)

/-- What a cell holds. -/
inductive Value (T : Type)
  | int (n : ℤ)
  | null
  | elem (x : T)
  | list (address : ℕ)
deriving DecidableEq

/-- The bytes of a block and its cells; a fresh cell is zero. -/
structure Block (T : Type) where
  size : ℕ
  cells : ℕ → Value T

/-- The fields of a list. -/
structure Fields where
  buffer : ℕ
  len : ℤ
  cap : ℤ

/-- The blocks by their handles, and the lists by their addresses. -/
structure World (T : Type) where
  memory : List (Option (Block T))
  lists : List Fields

def World.new {T : Type} : World T := ⟨[], []⟩

/-- Exceptions of the library, and what must not happen: an access outside a block, a list that
does not exist, an overflow and a loop that does not end. -/
inductive Stop
  | raised (message : String)
  | access
  | missing
  | overflow
  | stuck
deriving DecidableEq

abbrev Call (T : Type) := EStateM Stop (World T)

variable {T : Type}

/-! ## Primitives -/

def require (condition : Prop) [Decidable condition] (message : String) : Call T Unit :=
  if condition then pure () else throw (.raised message)

def defined : Option ℤ → Call T ℤ
  | some n => pure n
  | none => throw .overflow

def add (a b : ℤ) : Call T ℤ := defined (eval .add a b)

def sub (a b : ℤ) : Call T ℤ := defined (eval .sub a b)

def mul (a b : ℤ) : Call T ℤ := defined (eval .mul a b)

/-- More turns than any loop takes. -/
def turns : ℕ := 2 ^ 32

def loop {α : Type} (cond : α → Call T Bool) (body : α → Call T α) (a : α) : Call T α :=
  whileLoop .stuck cond body turns a

/-! ## Arrays -/

/-- The handle of a new block. Sizes and offsets are cut to 32 bits. -/
def halloc (size : ℤ) : Call T ℕ := fun w =>
  .ok w.memory.length
    { w with memory := w.memory ++ [some ⟨(size % 2 ^ 32).toNat, fun _ => .int 0⟩] }

def block (base : ℕ) : Call T (Block T) := fun w =>
  match w.memory[base]? with
  | some (some b) => .ok b w
  | _ => .error .access w

/-- The cell of an offset. -/
def cell (b : Block T) (off : ℤ) : Call T ℕ :=
  let byteOff := (off % 2 ^ 32).toNat
  if byteOff + 9 ≤ b.size ∧ byteOff % 9 = 0 then pure (byteOff / 9) else throw .access

def hread (base : ℕ) (off : ℤ) : Call T (Value T) := do
  let b ← block base
  return b.cells (← cell b off)

def hset (base : ℕ) (off : ℤ) (value : Value T) : Call T Unit := do
  let b ← block base
  let k ← cell b off
  modify fun w =>
    { w with memory := w.memory.set base (some { b with cells := Function.update b.cells k value }) }

def hfree (base : ℕ) : Call T Unit := modify fun w => { w with memory := w.memory.set base none }

def arrayNew (n : ℤ) : Call T ℕ := do
  require (n ≥ 0 ∧ n ≤ 477218586) "array capacity out of range"
  let arr ← halloc (← add 9 (← mul n 9))
  hset arr 0 (.int n)
  return arr

def arrayGet (arr : ℕ) (idx : ℤ) : Call T (Value T) := do hread arr (← add 9 (← mul idx 9))

def arraySet (arr : ℕ) (idx : ℤ) (value : Value T) : Call T Unit := do
  hset arr (← add 9 (← mul idx 9)) value

def arrayFree (arr : ℕ) : Call T Unit := hfree arr

/-! ## Methods -/

def fields (this : ℕ) : Call T Fields := fun w =>
  match w.lists[this]? with
  | some f => .ok f w
  | none => .error .missing w

def assign (this : ℕ) (f : Fields) : Call T Unit :=
  modify fun w => { w with lists := w.lists.set this f }

def newList : Call T ℕ := do
  let buffer ← arrayNew 0
  fun w => .ok w.lists.length { w with lists := w.lists ++ [⟨buffer, 0, 0⟩] }

def listWithCapacity (capacity : ℤ) : Call T ℕ := do
  let storage ← arrayNew capacity
  let out ← newList
  let f ← fields out
  assign out { f with buffer := storage, cap := capacity }
  return out

section Methods

variable (this : ℕ)

def size : Call T ℤ := return (← fields this).len

def get (index : ℤ) : Call T (Value T) := do
  let f ← fields this
  require (index ≥ 0 ∧ index < f.len) "list index out of bounds"
  arrayGet f.buffer index

def set (index : ℤ) (value : Value T) : Call T Unit := do
  let f ← fields this
  require (index ≥ 0 ∧ index < f.len) "list index out of bounds"
  arraySet f.buffer index value

def clear : Call T Unit := do
  let _ ← loop (fun i => return i < (← fields this).len) (fun i => do
    hset (← fields this).buffer (← add 9 (← mul i 9)) .null
    add i 1) 0
  assign this { (← fields this) with len := 0 }

/-- The larger array of a list that is full. -/
def grow : Call T Unit := do
  let f ← fields this
  require (f.cap ≤ 238609293) "list capacity overflow"
  let doubled ← mul f.cap 2
  let nextCap := if doubled ≤ 0 then 1 else doubled
  let next ← arrayNew nextCap
  let _ ← loop (fun i => return i < (← fields this).len) (fun i => do
    arraySet next i (← arrayGet (← fields this).buffer i)
    add i 1) 0
  arrayFree (← fields this).buffer
  assign this { (← fields this) with buffer := next, cap := nextCap }

def push (value : Value T) : Call T Unit := do
  let f ← fields this
  if f.len ≥ f.cap then grow this
  let f ← fields this
  arraySet f.buffer f.len value
  assign this { f with len := ← add f.len 1 }

def insert (index : ℤ) (value : Value T) : Call T Unit := do
  require (index ≥ 0 ∧ index ≤ (← fields this).len) "list index out of bounds"
  push this value
  let last ← sub (← fields this).len 1
  let _ ← loop (fun i => return i > index) (fun i => do
    set this i (← get this (← sub i 1))
    sub i 1) last
  set this index value

def removeAt (index : ℤ) : Call T (Value T) := do
  let value ← get this index
  let _ ← loop (fun i => return (← add i 1) < (← fields this).len) (fun i => do
    set this i (← get this (← add i 1))
    add i 1) index
  let f ← fields this
  let len ← sub f.len 1
  assign this { f with len := len }
  hset f.buffer (← add 9 (← mul len 9)) .null
  return value

def pop : Call T (Option (Value T)) := do
  let len := (← fields this).len
  if len = 0 then return none
  return some (← removeAt this (← sub len 1))

def sortBy (before : Value T → Value T → Bool) : Call T Unit := do
  let _ ← loop (fun i => return i < (← size this)) (fun i => do
    let (best, _) ← loop (fun (_, j) => return j < (← size this)) (fun (best, j) => do
      let best := if before (← get this j) (← get this best) then j else best
      return (best, ← add j 1)) (i, ← add i 1)
    if best ≠ i then
      let a ← get this i
      let b ← get this best
      set this i b
      set this best a
    add i 1) 0

/-- Push the elements from an index up to a limit, or up to the end. -/
def pushFrom (out : ℕ) (limit : Call T ℤ) (start : ℤ) : Call T Unit := do
  let _ ← loop (fun i => return i < (← limit)) (fun i => do
    push out (← get this i)
    add i 1) start

def drop (count : ℤ) : Call T ℕ := do
  require (count ≥ 0) "negative drop count"
  let len := (← fields this).len
  let start := min count len
  let out ← listWithCapacity (← sub len start)
  pushFrom this out (size this) start
  return out

def take (count : ℤ) : Call T ℕ := do
  require (count ≥ 0) "negative take count"
  let limit := min count (← fields this).len
  let out ← listWithCapacity limit
  pushFrom this out (return limit) 0
  return out

def dropLast (count : ℤ) : Call T ℕ := do
  require (count ≥ 0) "negative drop count"
  take this (max 0 (← sub (← fields this).len count))

def takeLast (count : ℤ) : Call T ℕ := do
  require (count ≥ 0) "negative take count"
  drop this (max 0 (← sub (← fields this).len count))

def append (other : ℕ) : Call T ℕ := do
  let out ← listWithCapacity (← add (← fields this).len (← size other))
  pushFrom this out (size this) 0
  pushFrom other out (size other) 0
  return out

def reverse : Call T Unit := do
  let last ← sub (← fields this).len 1
  let _ ← loop (fun (left, right) => return left < right) (fun (left, right) => do
    let value ← get this left
    set this left (← get this right)
    set this right value
    return (← add left 1, ← sub right 1)) ((0 : ℤ), last)

def reversed : Call T ℕ := do
  let out ← listWithCapacity (← fields this).len
  let last ← sub (← fields this).len 1
  let _ ← loop (fun i => return i ≥ 0) (fun i => do
    push out (← get this i)
    sub i 1) last
  return out

/-- The equality of values is that of their type. -/
def distinct (equal : Value T → Value T → Bool) : Call T ℕ := do
  let out ← newList
  let _ ← loop (fun i => return i < (← fields this).len) (fun i => do
    let value ← get this i
    let (seen, _) ← loop (fun (_, j) => return j < (← size out)) (fun (seen, j) => do
      let seen := if equal (← get out j) value then true else seen
      return (seen, ← add j 1)) (false, (0 : ℤ))
    if !seen then push out value
    add i 1) 0
  return out

def chunked (size : ℤ) : Call T ℕ := do
  require (size > 0) "chunk size must be positive"
  let out ← newList
  let _ ← loop (fun i => return i < (← Lists.size this)) (fun i => do
    let chunk ← newList
    let _ ← loop (fun j => do
      if j < (← Lists.size this) then return j < (← add i size) else return false) (fun j => do
        push chunk (← get this j)
        add j 1) i
    push out (.list chunk)
    add i size) 0
  return out

end Methods

end Loxis.Stdlib.Lists
