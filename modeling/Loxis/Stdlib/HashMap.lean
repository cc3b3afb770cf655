import Loxis.Lib.Outcome
import Mathlib.Data.Int.Basic
import Mathlib.Data.Quot

/-! # Hash maps and hash sets

Open addressing with linear probing. The lists of the states, keys and values of the slots are
kept as one list of slots, which they always are set together in. The user's functions are
pure, but each of their invocations may raise an exception.
-/

namespace Loxis.Stdlib

/-- A hash function and an equivalence that agree. -/
structure Hashing (K : Type) where
  hash : K → ℤ
  equal : K → K → Bool
  equiv : Equivalence fun a b => equal a b = true
  hash_eq : ∀ a b, equal a b = true → hash a = hash b

/-- The user's functions, with the exception that each of their invocations raises. -/
structure Functions (K : Type) extends Hashing K where
  fault : ℕ → Option String

/-- The exceptions of the user's functions and those of the library; a loop that never ends. -/
inductive Stop
  | thrown (exception : String)
  | raised (message : String)
  | diverges
deriving DecidableEq

/-- The states are 0 for empty, 1 for occupied and 2 for deleted slots. -/
structure Slot (K V : Type) where
  state : ℕ
  key : Option K
  value : Option V

def Slot.empty {K V : Type} : Slot K V := ⟨0, none, none⟩

structure HashMap (K V : Type) where
  slots : List (Slot K V)
  count : ℕ

/-- A map and how often the user's functions have been invoked. -/
structure World (K V : Type) where
  map : HashMap K V
  calls : ℕ

abbrev Call (K V : Type) := EStateM Stop (World K V)

variable {K V : Type} (F : Functions K)

namespace HashMap

/-! ## Primitives -/

/-- An invocation of one of the user's functions. -/
def invoke {α : Type} (result : α) : Call K V α := fun w =>
  match F.fault w.calls with
  | none => .ok result { w with calls := w.calls + 1 }
  | some exception => .error (.thrown exception) { w with calls := w.calls + 1 }

def hash (key : K) : Call K V ℤ := invoke F (F.toHashing.hash key)

def equal (a b : K) : Call K V Bool := invoke F (F.toHashing.equal a b)

def table : Call K V (HashMap K V) := fun w => .ok w.map w

def assign (t : HashMap K V) : Call K V Unit := fun w => .ok () { w with map := t }

def getSlot (index : ℕ) : Call K V (Slot K V) := do
  match (← table).slots[index]? with
  | some slot => return slot
  | none => throw (.raised "list index out of bounds")

def setSlot (index : ℕ) (slot : Slot K V) : Call K V Unit := do
  let t ← table
  if index < t.slots.length then assign { t with slots := t.slots.set index slot }
  else throw (.raised "list index out of bounds")

def valueOrFail {α : Type} : Option α → Call K V α
  | some a => pure a
  | none => throw (.raised "missing optional value")

/-- The slot where the search for a hash starts. -/
def home (hash : ℤ) (capacity : ℕ) : ℕ :=
  let index := hash.tmod capacity
  (if index < 0 then index + capacity else index).toNat

/-! ## The map -/

/-- The map with its first slots. -/
def storage (t : HashMap K V) : HashMap K V :=
  if t.slots.isEmpty then { t with slots := List.replicate 8 .empty } else t

def ensureStorage : Call K V Unit := do
  assign (← table).storage

/-- The turns that are left of the search for a key; none stands for -1. -/
def locateLoop (capacity : ℕ) (key : K) : ℕ → ℕ → Call K V (Option ℕ)
  | 0, _ => return none
  | turns + 1, index => do
    let slot ← getSlot index
    if slot.state = 0 then return none
    if slot.state = 1 then
      if ← equal F (← valueOrFail slot.key) key then return some index
    locateLoop capacity key turns ((index + 1) % capacity)

def locate (key : K) : Call K V (Option ℕ) := do
  ensureStorage
  let capacity := (← table).slots.length
  let hash ← hash F key
  locateLoop F capacity key capacity (home hash capacity)

def containsKey (key : K) : Call K V Bool := return (← locate F key).isSome

def get (key : K) : Call K V (Option V) := do
  match ← locate F key with
  | none => return none
  | some index => return (← getSlot index).value

/-- The loop past the occupied slots. It has no bound of its own: one that has not ended after
a turn for each slot repeats itself. -/
def freeSlot (capacity : ℕ) : ℕ → ℕ → Call K V ℕ
  | 0, _ => throw .diverges
  | turns + 1, index => do
    if (← getSlot index).state = 1 then freeSlot capacity turns ((index + 1) % capacity)
    else return index

/-- The table is too full for one more key. -/
def Full (t : HashMap K V) : Prop := (t.count + 1) * 4 ≥ t.slots.length * 3

instance (t : HashMap K V) : Decidable t.Full := inferInstanceAs (Decidable (_ ≥ _))

/-- The body of `put`, over the function that it grows with. -/
def putWith (grow : Call K V Unit) (key : K) (value : V) : Call K V (Option V) := do
  match ← locate F key with
  | some oldIndex =>
    let old ← getSlot oldIndex
    setSlot oldIndex { old with value := some value }
    return old.value
  | none =>
    if (← table).Full then grow
    let capacity := (← table).slots.length
    let hash ← hash F key
    let index ← freeSlot capacity capacity (home hash capacity)
    setSlot index ⟨1, some key, some value⟩
    let t ← table
    assign { t with count := t.count + 1 }
    return none

/-- The loop that puts the occupied old slots into the new table. -/
def reinsert (put : K → V → Call K V (Option V)) : List (Slot K V) → Call K V Unit
  | [] => return ()
  | slot :: rest => do
    if slot.state = 1 then
      let _ ← put (← valueOrFail slot.key) (← valueOrFail slot.value)
    reinsert put rest

/-- The greatest number of slots that are doubled. -/
def maxSlots : ℕ := 238609293

/-- The body of `grow`, over the function that it puts with. -/
def growWith (kind : String) (put : K → V → Call K V (Option V)) : Call K V Unit := do
  let old ← table
  if ¬ old.slots.length ≤ maxSlots then throw (.raised (kind ++ " capacity overflow"))
  assign { slots := List.replicate (old.slots.length * 2) .empty, count := 0 }
  reinsert put old.slots

/-- `put` with at most this many calls of itself in progress. -/
def put (kind : String) : ℕ → K → V → Call K V (Option V)
  | 0, _, _ => throw .diverges
  | depth + 1, key, value => putWith F (growWith kind (put kind depth)) key value

def remove (key : K) : Call K V (Option V) := do
  match ← locate F key with
  | none => return none
  | some index =>
    let old ← getSlot index
    setSlot index ⟨2, none, none⟩
    let t ← table
    assign { t with count := t.count - 1 }
    return old.value

def size : Call K V ℕ := return (← table).count

def keysLoop : List (Slot K V) → Call K V (List K)
  | [] => return []
  | slot :: rest => do
    if slot.state = 1 then
      let key ← valueOrFail slot.key
      return key :: (← keysLoop rest)
    else keysLoop rest

def keys : Call K V (List K) := do
  keysLoop (← table).slots

def clear : Call K V Unit := do
  assign { slots := (← table).slots.map fun _ => .empty, count := 0 }

end HashMap

/-! ## The set

A set keeps its values as the keys of a map without values.
-/

namespace HashSet

open HashMap (put containsKey keys)

def add (depth : ℕ) (value : K) : Call K Unit Bool := do
  match ← put F "set" depth value () with
  | some _ => return false
  | none => return true

def contains (value : K) : Call K Unit Bool := containsKey F value

def remove (value : K) : Call K Unit Bool := return (← HashMap.remove F value).isSome

def values : Call K Unit (List K) := keys

end HashSet

end Loxis.Stdlib
