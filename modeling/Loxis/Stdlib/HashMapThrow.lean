import Loxis.Stdlib.HashMapRun

/-! # Exceptions of the user's functions

An exception while a key is put leaves the entries as they were, except while a table that
grows puts its old entries into the new slots: the rest of them is lost.
-/

namespace Loxis.Stdlib

variable {K V : Type}

namespace HashMap

variable {H : Hashing K} {F : Functions K} {t t' : HashMap K V} {w w' : World K V} {key : K}
  {value : V} {kind : String} {depth : ℕ} {e : Stop} {x : String}

/-- Every table stands for a map. -/
theorem Inv.exists_maps (h : Inv H t) : ∃ M : H.Map V, Maps H t M := by
  classical
  refine ⟨fun c => (t.entries.find? fun p => H.classOf p.1 = c).map Prod.snd, fun c v => ?_⟩
  rw [Option.map_eq_some_iff]
  constructor
  · rintro ⟨⟨k, v⟩, hfind, rfl⟩
    exact ⟨k, List.mem_of_find?_eq_some hfind, by simpa using List.find?_some hfind⟩
  · rintro ⟨k, hk, rfl⟩
    obtain ⟨⟨k', v'⟩, hfind⟩ := Option.isSome_iff_exists.mp
      ((List.find?_isSome (p := fun p => decide (H.classOf p.1 = H.classOf k))).mpr
        ⟨(k, v), hk, decide_eq_true rfl⟩)
    refine ⟨(k', v'), hfind, ?_⟩
    have hclass : H.classOf k' = H.classOf k := by simpa using List.find?_some hfind
    obtain ⟨i, hi⟩ := mem_entries.mp hk
    obtain ⟨j, hj⟩ := mem_entries.mp (List.mem_of_find?_eq_some hfind)
    obtain rfl := h.distinct j i k' k v' v hj hi (Hashing.classOf_eq_iff.mp hclass)
    rw [Holds, hj, Option.some.injEq] at hi
    cases hi
    rfl

/-- The same keys with the same values, and the same size. -/
def Same (H : Hashing K) (t t' : HashMap K V) : Prop :=
  (∀ M : H.Map V, Maps H t M ↔ Maps H t' M) ∧ t.count = t'.count

theorem same_of_entries (he : ∀ p, p ∈ t'.entries ↔ p ∈ t.entries) (hc : t.count = t'.count) :
    Same H t t' :=
  ⟨fun _ => ⟨fun h => h.congr he, fun h => h.congr fun p => (he p).symm⟩, hc⟩

theorem same_storage : Same H t t.storage :=
  same_of_entries (fun p => by rw [entries_storage]) count_storage.symm

/-- The key is not present, the table has to grow for it, and a function of the user raises an
exception while the old entries are put into the new slots. -/
def RehashFails (F : Functions K) (kind : String) (depth : ℕ) (key : K) (w : World K V) : Prop :=
  ∃ w₁ x w₂, locate F key w = .ok none w₁ ∧ w₁.map.Full ∧
    growWith kind (put F kind depth) w₁ = .error (.thrown x) w₂

/-- An exception in `put` keeps the entries exactly if it is not raised while the table grows. -/
theorem same_iff_of_thrown (h : Inv F.toHashing w.map)
    (hput : put F kind (depth + 2) key value w = .error (.thrown x) w') :
    Same F.toHashing w.map w'.map ↔ ¬ RehashFails F kind (depth + 1) key w := by
  have hst := h.storage
  have hloc : Ends (locate F key) w _ _ := locate_ends h
  change (locate F key >>= _) w = _ at hput
  cases hl : locate F key w with
  | error e w₁ =>
    rw [bind_error hl] at hput
    cases hput
    rw [(hloc.of_error hl).2]
    refine ⟨fun _ hf => ?_, fun _ => same_storage⟩
    obtain ⟨w₂, x, w₃, hl', -⟩ := hf
    rw [hl] at hl'
    cases hl'
  | ok r w₁ =>
    obtain ⟨hw₁, hr⟩ := hloc.of_ok hl
    rw [bind_ok hl] at hput
    cases r with
    | some i =>
      obtain ⟨k, v, hi, -⟩ := hr
      have hget : getSlot i w₁ = .ok ⟨1, some k, some v⟩ w₁ := getSlot_eq (hw₁ ▸ hi)
      have hset := setSlot_eq (s := ⟨1, some k, some value⟩) (hw₁ ▸ hi.lt : i < w₁.map.slots.length)
      cases ((bind_ok hget).trans (bind_ok hset)).symm.trans hput
    | none =>
      change (if w₁.map.Full then growWith kind (put F kind (depth + 1)) >>= fun _ =>
        insertNew F key value else insertNew F key value) w₁ = _ at hput
      split at hput
      · next hfull =>
        have hne : w₁.map.slots ≠ [] := hw₁ ▸ storage_ne_nil
        have hgrow : Ends (growWith kind (put F kind (depth + 1))) w₁ _ _ :=
          growWith_ends put_room (hw₁ ▸ hst) hne
        cases hg : growWith kind (put F kind (depth + 1)) w₁ with
        | error e w₂ =>
          rw [bind_error hg] at hput
          cases hput
          have hfails : RehashFails F kind (depth + 1) key w := ⟨w₁, x, w', hl, hfull, hg⟩
          rcases hgrow.of_error hg with ⟨-, -, -, hlt⟩ | ⟨hx, -⟩
          · refine ⟨fun hsame => ?_, fun hf => absurd hfails hf⟩
            rw [hw₁, count_storage, ← hsame.2] at hlt
            omega
          · cases hx
        | ok u w₂ =>
          rw [bind_ok hg] at hput
          have hgrown := hgrow.of_ok hg
          obtain ⟨hne₂, hfull₂⟩ := hgrown.room (hw₁ ▸ hst) hne
          have hw' := ((insertNew_ends hgrown.inv rfl hne₂ hfull₂ (hr.of_grown (hw₁ ▸ hgrown))).of_error
            hput).2
          refine ⟨fun _ hf => ?_, fun _ => ?_⟩
          · obtain ⟨w₃, y, w₄, hl', -, hg'⟩ := hf
            rw [hl] at hl'
            cases hl'
            rw [hg] at hg'
            cases hg'
          · rw [hw']
            refine same_of_entries (fun p => ?_) ?_
            · rw [hgrown.entries, hw₁, entries_storage]
            · rw [hgrown.count, hw₁, count_storage]
      · next hfull =>
        have hw' := ((insertNew_ends hst hw₁ storage_ne_nil (hw₁ ▸ hfull) hr).of_error hput).2
        refine ⟨fun _ hf => ?_, fun _ => hw' ▸ same_storage⟩
        obtain ⟨w₃, y, w₄, hl', hfull', -⟩ := hf
        rw [hl] at hl'
        cases hl'
        exact hfull hfull'

/-! ## Reachable tables -/

theorem inv_of_mapOps (ops : List (MapOp K V)) :
    Inv F.toHashing (attempts (MapOp.call F (depth + 2)) ops World.new).2.map := by
  refine attempts_inv (P := fun w : World _ _ => Inv F.toHashing w.map) (fun op w h => ?_) ops
    (.replicate F.toHashing 0)
  obtain ⟨M, hM⟩ := h.exists_maps
  have hends : Ends (op.call F (depth + 2)) w _ _ := op.call_ends ⟨h, hM⟩
  rcases hends.outcome with
    ⟨a, w', ho, M', -, hinv, -⟩ | ⟨e, w', ho, hinv, -⟩ <;> rw [ho] <;> exact hinv

theorem inv_of_setOps (ops : List (SetOp K)) :
    Inv F.toHashing (attempts (SetOp.call F (depth + 2)) ops World.new).2.map := by
  refine attempts_inv (P := fun w : World _ _ => Inv F.toHashing w.map) (fun op w h => ?_) ops
    (.replicate F.toHashing 0)
  obtain ⟨M, hM⟩ := h.exists_maps
  have hends : Ends (op.call F (depth + 2)) w _ _ := op.call_ends ⟨M, ⟨h, hM⟩, rfl⟩
  rcases hends.outcome with
    ⟨a, w', ho, S', -, M', ⟨hinv, -⟩, -⟩ | ⟨e, w', ho, hinv, -⟩ <;> rw [ho] <;> exact hinv

end HashMap

open HashMap

theorem HashSet.add_error {F : Functions K} {depth : ℕ} {value : K} {w w' : World K Unit} {e : Stop} :
    HashSet.add F depth value w = .error e w' ↔ put F "set" depth value () w = .error e w' := by
  change (put F "set" depth value () >>= _) w = _ ↔ _
  cases hp : put F "set" depth value () w with
  | error e w₁ =>
    rw [bind_error hp]
    simp only [EStateM.Result.error.injEq]
  | ok o w₁ =>
    rw [bind_ok hp]
    cases o <;> exact ⟨nofun, nofun⟩

/-- An exception of a function of the user during `put` or `add` leaves the table with the same
entries exactly if it is not raised while the old entries are put into new slots. -/
theorem put_exception_iff (F : Functions K) (depth : ℕ) :
    (∀ (ops : List (MapOp K V)) (key : K) (value : V) (x : String) (w' : World K V),
      let w := (attempts (MapOp.call F (depth + 2)) ops World.new).2
      put F "map" (depth + 2) key value w = .error (.thrown x) w' →
        (Same F.toHashing w.map w'.map ↔ ¬ RehashFails F "map" (depth + 1) key w)) ∧
    ∀ (ops : List (SetOp K)) (value : K) (x : String) (w' : World K Unit),
      let w := (attempts (SetOp.call F (depth + 2)) ops World.new).2
      HashSet.add F (depth + 2) value w = .error (.thrown x) w' →
        (Same F.toHashing w.map w'.map ↔ ¬ RehashFails F "set" (depth + 1) value w) :=
  ⟨fun ops _ _ _ _ h => same_iff_of_thrown (inv_of_mapOps ops) h,
    fun ops _ _ _ h => same_iff_of_thrown (inv_of_setOps ops) (HashSet.add_error.mp h)⟩

/-- Numbers that are their own hashes; the thirteenth invocation raises an exception. -/
def thirteenthRaises : Functions ℕ where
  hash n := n
  equal a b := a == b
  equiv := ⟨fun _ => beq_self_eq_true _, fun h => by rw [beq_iff_eq] at *; exact h.symm,
    fun h h' => by rw [beq_iff_eq] at *; exact h.trans h'⟩
  hash_eq _ _ h := by rw [eq_of_beq h]
  fault n := if n = 12 then some "unhashable" else none

/-- Five keys, after which the table of eight slots grows. -/
def fiveKeys : List (MapOp ℕ ℕ) := [.put 0 0, .put 1 1, .put 2 2, .put 3 3, .put 4 4]

/-- The exception of a call and the size of the table that it leaves. -/
def thrownSize {α : Type} (x : Call K V α) (w : World K V) : Option (String × ℕ) :=
  match x w with
  | .error (.thrown x) w' => some (x, w'.map.count)
  | _ => none

theorem thrownSize_eq {α : Type} {x : Call K V α} {w : World K V} {p : String × ℕ}
    (h : thrownSize x w = some p) : ∃ w', x w = .error (.thrown p.1) w' ∧ w'.map.count = p.2 := by
  unfold thrownSize at h
  split at h
  · next x w' hx =>
    cases h
    exact ⟨w', hx, rfl⟩
  · cases h

/-- A map of five keys loses all of them to one exception. -/
theorem growing_map_loses_entries :
    ¬ ∀ (F : Functions ℕ) (ops : List (MapOp ℕ ℕ)) (key value : ℕ) (x : String) (w' : World ℕ ℕ),
      let w := (attempts (MapOp.call F 2) ops World.new).2
      put F "map" 2 key value w = .error (.thrown x) w' → Same F.toHashing w.map w'.map := by
  intro h
  have hsize : thrownSize (put thirteenthRaises "map" 2 5 5)
      (attempts (MapOp.call thirteenthRaises 2) fiveKeys World.new).2 = some ("unhashable", 0) := by
    decide +kernel
  obtain ⟨w', hput, hcount⟩ := thrownSize_eq hsize
  have hsame := (h thirteenthRaises fiveKeys 5 5 _ w' hput).2
  rw [hcount] at hsame
  revert hsame
  decide +kernel

/-- The same exception, raised by the search for a key that is present. -/
theorem present_key_keeps_entries :
    ∃ w' : World ℕ ℕ, Same thirteenthRaises.toHashing
      (attempts (MapOp.call thirteenthRaises 2) (fiveKeys ++ [.get 0]) World.new).2.map w'.map := by
  have hput : thrownSize (put thirteenthRaises "map" 2 0 7)
      (attempts (MapOp.call thirteenthRaises 2) (fiveKeys ++ [.get 0]) World.new).2 =
        some ("unhashable", 5) := by
    decide +kernel
  have hloc : thrownSize (locate thirteenthRaises 0)
      (attempts (MapOp.call (V := ℕ) thirteenthRaises 2) (fiveKeys ++ [.get 0]) World.new).2 =
        some ("unhashable", 5) := by
    decide +kernel
  obtain ⟨w', hw', -⟩ := thrownSize_eq hput
  obtain ⟨w₁, hw₁, -⟩ := thrownSize_eq hloc
  have hiff := (put_exception_iff thirteenthRaises 0).1 (fiveKeys ++ [.get 0]) 0 7 "unhashable" w'
  simp only [Nat.zero_add] at hiff
  refine ⟨w', (hiff hw').mpr ?_⟩
  rintro ⟨w₂, x, w₃, hok, -⟩
  cases hw₁.symm.trans hok

end Loxis.Stdlib
