import Loxis.Literals.StructLit

/-! # What a literal stores

The values of a literal are in the slots at its positions, and the other slots of its object read
zero.
-/

namespace Loxis.Literals

open Backend (Value TAG_INT)
open Lowering (Outcome)
open Vm (Heap)

variable {E W : Type} {eval : E → W × Heap → Outcome Value (W × Heap)} {C : ClassDef E}
  {obj i : ℕ} {es : List E} {w w' : W} {h h' : Heap} {vs : List Value}

/-- The entries of a literal, each with its offset, from position `i` on. -/
def entries (i : ℕ) (es : List E) : List (ℕ × E) :=
  (es.zipIdx i).map fun p => (p.2 * slotSize, p.1)

theorem entries_cons (e : E) : entries i (e :: es) = (i * slotSize, e) :: entries (i + 1) es := rfl

/-- The object is under construction: it is live, and reads `cell` at each slot. -/
structure Holds (h : Heap) (obj n : ℕ) (cell : ℕ → Value) : Prop where
  sound : h.Sound
  valid : h.valid obj = true
  size : (h.slots obj).logicalSize = n
  reads : ∀ m, (m + 1) * slotSize ≤ n →
    h.loadCell obj (m * slotSize) = some ((cell m).val, (cell m).tag)

variable {size typeId : ℕ} {cell : ℕ → Value}

theorem Holds.spared (hh : Holds h obj size cell) (hs : Spares eval obj) {e : E} {v : Value}
    (he : eval e (w, h) = .returned v (w', h')) :
    Holds h' obj size cell ∧ h'.getTypeId obj = h.getTypeId obj := by
  obtain ⟨hsound, hvalid, hslots, hreads⟩ := hs e w h v w' h' hh.sound hh.valid he
  refine ⟨⟨hsound, hvalid, hslots ▸ hh.size, fun m hm => (hreads _).trans (hh.reads m hm)⟩, ?_⟩
  rw [Heap.getTypeId, Heap.getTypeId, if_pos (Heap.valid_iff.mp hvalid).1,
    if_pos (Heap.valid_iff.mp hh.valid).1, hslots]

/-- A store changes its slot only, and is refused outside the object. -/
theorem Holds.store (hh : Holds h obj size cell) (v : Value) :
    (∀ t, h.storeCell obj (i * slotSize) v.val v.tag = some t →
      (i + 1) * slotSize ≤ size ∧ Holds t obj size (Function.update cell i v) ∧
        t.getTypeId obj = h.getTypeId obj) ∧
    ((i + 1) * slotSize ≤ size → ∃ t, h.storeCell obj (i * slotSize) v.val v.tag = some t) := by
  constructor
  · intro t ht
    have hself := hh.sound.loadCell_store_self ht
    obtain ⟨o, hoff, rfl⟩ := Option.map_eq_some_iff.mp ht
    obtain ⟨⟨-, hb⟩, -⟩ := hh.sound.cellOffset_eq_some.mp hoff
    rw [hh.size] at hb
    refine ⟨by simpa [slotSize, Heap.SLOT_SIZE, Nat.add_mul] using hb,
      ⟨hh.sound.storeCell ht, hh.valid, hh.size, ?_⟩, rfl⟩
    intro m hm
    by_cases hmi : m = i
    · rw [hmi, Function.update_self]
      exact hself
    · rw [Function.update_of_ne hmi, ← hh.reads m hm]
      apply hh.sound.loadCell_store ht
      simp only [slotSize, Heap.SLOT_SIZE]
      omega
  · intro hb
    have hin : h.valid obj = true ∧ i * slotSize + Heap.SLOT_SIZE ≤ (h.slots obj).logicalSize :=
      ⟨hh.valid, by rw [hh.size]; simpa [slotSize, Heap.SLOT_SIZE, Nat.add_mul] using hb⟩
    rw [Heap.storeCell, hh.sound.cellOffset_eq, if_pos hin]
    exact ⟨_, rfl⟩

/-! ## Runs -/

/-- The slots from `i` on hold the values. -/
def fill (cell : ℕ → Value) (i : ℕ) (vs : List Value) (m : ℕ) : Value :=
  if m < i then cell m else (vs[m - i]?).getD (cell m)

@[simp] theorem fill_nil : fill cell i [] = cell := by
  ext m
  simp [fill]

theorem fill_cons (v : Value) :
    fill (Function.update cell i v) (i + 1) vs = fill cell i (v :: vs) := by
  ext m
  unfold fill
  rcases Nat.lt_trichotomy m i with hm | rfl | hm
  · rw [if_pos (by omega), if_pos hm, Function.update_of_ne (by omega)]
  · simp
  · rw [if_neg (by omega), if_neg (by omega), Function.update_of_ne (by omega),
      show m - i = m - (i + 1) + 1 by omega, List.getElem?_cons_succ]

theorem storeFields_cons {e : E} {s s' : W × Heap} :
    storeFields eval obj (entries i (e :: es)) s = .returned vs s' ↔
      ∃ v w₁ h₁ t vs', eval e s = .returned v (w₁, h₁) ∧
        h₁.storeCell obj (i * slotSize) v.val v.tag = some t ∧
        storeFields eval obj (entries (i + 1) es) (w₁, t) = .returned vs' s' ∧ vs = v :: vs' := by
  rw [entries_cons, storeFields]
  constructor
  · intro hrun
    cases he : eval e s with
    | raised x s => rw [he] at hrun; cases hrun
    | stuck => rw [he] at hrun; cases hrun
    | returned v s₁ =>
      obtain ⟨w₁, h₁⟩ := s₁
      rw [he] at hrun
      cases ht : h₁.storeCell obj (i * slotSize) v.val v.tag with
      | none => simp only [ht] at hrun; cases hrun
      | some t =>
        simp only [ht] at hrun
        cases hrest : storeFields eval obj (entries (i + 1) es) (w₁, t) with
        | raised x s => rw [hrest] at hrun; cases hrun
        | stuck => rw [hrest] at hrun; cases hrun
        | returned vs' s₂ =>
          rw [hrest] at hrun
          cases hrun
          exact ⟨v, w₁, h₁, t, vs', rfl, ht, hrest, rfl⟩
  · rintro ⟨v, w₁, h₁, t, vs', he, ht, hrest, rfl⟩
    rw [he]
    simp only [ht, hrest]
    rfl

/-- Each value is stored in its slot. -/
theorem storeFields_returned (hs : Spares eval obj) (hh : Holds h obj size cell)
    (hrun : storeFields eval obj (entries i es) (w, h) = .returned vs (w', h')) :
    vs.length = es.length ∧ Holds h' obj size (fill cell i vs) ∧
      h'.getTypeId obj = h.getTypeId obj ∧ (es ≠ [] → (i + es.length) * slotSize ≤ size) := by
  induction es generalizing i w h vs cell with
  | nil =>
    cases hrun
    exact ⟨rfl, by simpa using hh, rfl, nofun⟩
  | cons e es ih =>
    obtain ⟨v, w₁, h₁, t, vs', he, ht, hrest, rfl⟩ := storeFields_cons.mp hrun
    obtain ⟨hh₁, htype⟩ := hh.spared hs he
    obtain ⟨hi, hh₂, htype'⟩ := (hh₁.store v).1 t ht
    obtain ⟨hlen, hh₃, htype'', hfits⟩ := ih hh₂ hrest
    rw [fill_cons] at hh₃
    refine ⟨by rw [List.length_cons, List.length_cons, hlen], hh₃,
      htype''.trans (htype'.trans htype), ?_⟩
    intro _
    rw [List.length_cons]
    cases es with
    | nil => exact hi
    | cons => rw [← Nat.add_assoc, Nat.add_right_comm]; exact hfits nofun

/-- The expressions are evaluated in turn. -/
theorem storeFields_inTurn {s s' : W × Heap}
    (hrun : storeFields eval obj (entries i es) s = .returned vs s') :
    InTurn eval es s.1 vs s'.1 := by
  induction es generalizing i s vs with
  | nil =>
    cases hrun
    exact .nil _
  | cons e es ih =>
    obtain ⟨v, w₁, h₁, t, vs', he, -, hrest, rfl⟩ := storeFields_cons.mp hrun
    exact .cons he (ih hrest)

/-- A run completes when the expressions do and the object has room. -/
theorem storeFields_completes (hs : Spares eval obj) (hh : Holds h obj size cell)
    (htotal : ∀ e s, ∃ v s', eval e s = .returned v s')
    (hroom : (i + es.length) * slotSize ≤ size) :
    ∃ vs s', storeFields eval obj (entries i es) (w, h) = .returned vs s' := by
  induction es generalizing i w h cell with
  | nil => exact ⟨[], (w, h), rfl⟩
  | cons e es ih =>
    obtain ⟨v, ⟨w₁, h₁⟩, he⟩ := htotal e (w, h)
    obtain ⟨hh₁, -⟩ := hh.spared hs he
    rw [List.length_cons] at hroom
    have hi : (i + 1) * slotSize ≤ size :=
      (Nat.mul_le_mul_right _ (by omega)).trans hroom
    obtain ⟨t, ht⟩ := (hh₁.store v).2 hi
    obtain ⟨-, hh₂, -⟩ := (hh₁.store v).1 t ht
    have hrest : (i + 1 + es.length) * slotSize ≤ size := by
      rwa [Nat.add_assoc, Nat.add_comm 1]
    obtain ⟨vs, s', hrun⟩ := ih (w := w₁) hh₂ hrest
    exact ⟨v :: vs, s', storeFields_cons.mpr ⟨v, w₁, h₁, t, vs, he, ht, hrun, rfl⟩⟩

/-! ## Literals -/

/-- The contents of a fresh cell. -/
def zero : Value := ⟨0, TAG_INT⟩

theorem Room.holds (hr : Room C h) :
    let a := h.alloc (objectSize C) C.typeId
    Holds a.2 a.1 (objectSize C) (fun _ => zero) ∧ a.2.getTypeId a.1 = C.typeId := by
  obtain ⟨hsound, hne, hsound'⟩ := hr
  rcases hsound.alloc_cases (objectSize C) C.typeId hsound'.memory_lt with he | ⟨hp, -⟩
  · rw [he] at hne
    exact absurd rfl hne
  · refine ⟨⟨hsound', Heap.valid_iff.mpr ⟨hp.lt, by rw [hp.slot]⟩, by rw [hp.slot], ?_⟩, ?_⟩
    · intro m hm
      apply hsound.loadCell_alloc_self hsound' hne
      simpa [slotSize, Heap.SLOT_SIZE, Nat.add_mul] using hm
    · rw [Heap.getTypeId, if_pos hp.lt, hp.slot]

variable {fields : List (FieldInit E)}

theorem evalStruct_eq (s : W × Heap) :
    evalStruct eval C fields s =
      (storeFields eval (s.2.alloc (objectSize C) C.typeId).1 (entries 0 (fields.map Prod.snd))
        (s.1, (s.2.alloc (objectSize C) C.typeId).2)).map
          fun vs => ((s.2.alloc (objectSize C) C.typeId).1, vs) := rfl

theorem evalStruct_returned {s : W × Heap} (hr : Room C h)
    (hs : Spares eval (h.alloc (objectSize C) C.typeId).1)
    (hrun : evalStruct eval C fields (w, h) = .returned (obj, vs) s) :
    InTurn eval (fields.map Prod.snd) w vs s.1 ∧
      Holds s.2 obj (objectSize C) (fill (fun _ => zero) 0 vs) ∧
      s.2.getTypeId obj = C.typeId ∧
      (fields ≠ [] → fields.length * slotSize ≤ objectSize C) := by
  obtain ⟨hh, htype⟩ := hr.holds
  rw [evalStruct_eq] at hrun
  cases hstore : storeFields eval (h.alloc (objectSize C) C.typeId).1
      (entries 0 (fields.map Prod.snd)) (w, (h.alloc (objectSize C) C.typeId).2) with
  | raised x s => rw [hstore] at hrun; cases hrun
  | stuck => rw [hstore] at hrun; cases hrun
  | returned vs' s' =>
    rw [hstore] at hrun
    cases hrun
    obtain ⟨-, hholds, htype', hfits⟩ := storeFields_returned hs hh hstore
    refine ⟨storeFields_inTurn hstore, hholds, htype'.trans htype, fun hne => ?_⟩
    simpa using hfits (by simpa using hne)

theorem evalStruct_completes (hr : Room C h)
    (hs : Spares eval (h.alloc (objectSize C) C.typeId).1)
    (htotal : ∀ e s, ∃ v s', eval e s = .returned v s')
    (hfits : fields.length * slotSize ≤ objectSize C) :
    ∃ r s', evalStruct eval C fields (w, h) = .returned r s' := by
  obtain ⟨hh, -⟩ := hr.holds
  have hroom : (0 + (fields.map Prod.snd).length) * slotSize ≤ objectSize C := by
    simpa using hfits
  obtain ⟨vs, s', hstore⟩ := storeFields_completes (w := w) hs hh htotal hroom
  rw [evalStruct_eq, hstore]
  exact ⟨_, _, rfl⟩

/-! ## Reading fields -/

/-- A field reads the slot at its offset, if the object has it. -/
theorem Holds.readField_eq {f : String} {fi : FieldInfo E} (hh : Holds h obj (objectSize C) cell)
    (hf : C.lookupField f = some fi) :
    readField C h obj f =
      if fi.offset + slotSize ≤ objectSize C then some (cell (fi.offset / slotSize)) else none := by
  obtain ⟨m, hm⟩ := C.aligned f fi hf
  have hread : readField C h obj f =
      (h.loadCell obj fi.offset).map fun c => (⟨c.1, c.2⟩ : Value) := by
    rw [readField, hf]
    rfl
  have hoff : fi.offset = m * slotSize := hm.trans (Nat.mul_comm _ _)
  have hdiv : fi.offset / slotSize = m := by
    rw [hoff]
    exact Nat.mul_div_cancel _ (by decide)
  rw [hread, hdiv]
  by_cases hroom : fi.offset + slotSize ≤ objectSize C
  · rw [if_pos hroom, hoff, hh.reads m (by rw [Nat.add_mul]; omega)]
    rfl
  · rw [if_neg hroom]
    cases hload : h.loadCell obj fi.offset with
    | none => rfl
    | some c =>
      have hin := hh.sound.loadCell_isSome.mp (by rw [hload]; rfl)
      rw [hh.size] at hin
      exact absurd hin.2 hroom

end Loxis.Literals
