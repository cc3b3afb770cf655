import Loxis.Literals.Stores

/-! # Literals in order

A literal does what it should exactly when it writes the fields of its class in the order of their
slots, leaves out only ones at the end whose initialiser is zero, and has no type arguments.
-/

namespace Loxis.Literals

open Backend (Value TAG_INT TAG_STR)
open Lowering (Outcome)
open Mono (Ident Ty)
open Vm (Heap)

variable {E W : Type} {T : Checker E} {C : ClassDef E} {args : List Ty}
  {fields : List (FieldInit E)}

/-- The fields of the literal are where their positions say, and the others are zero anyway. -/
structure InOrder (C : ClassDef E) (args : List Ty) (fields : List (FieldInit E)) : Prop where
  plain : args = []
  slots : ∀ (k : ℕ) (f : FieldInit E), fields[k]? = some f →
    ∃ fi, C.lookupField f.1 = some fi ∧ fi.offset = k * slotSize
  fits : fields ≠ [] → fields.length * slotSize ≤ objectSize C
  zeros : ∀ f fi, C.lookupField f = some fi → f ∉ fields.map Prod.fst →
    fi.initializer = some (.lit zero) ∧ fields.length * slotSize ≤ fi.offset ∧
      fi.offset + slotSize ≤ objectSize C

theorem InOrder.room (ho : InOrder C args fields) : fields.length * slotSize ≤ objectSize C := by
  cases fields with
  | nil => simp
  | cons => exact ho.fits nofun

/-! ## Literals in order are right -/

theorem InOrder.nodup (ho : InOrder C args fields) : (fields.map Prod.fst).Nodup := by
  apply List.nodup_iff_injective_get.mpr
  rintro ⟨k, hk⟩ ⟨l, hl⟩ heq
  have hk' : k < fields.length := by simpa using hk
  have hl' : l < fields.length := by simpa using hl
  obtain ⟨fi, hfi, hoff⟩ := ho.slots k _ (List.getElem?_eq_getElem hk')
  obtain ⟨fi', hfi', hoff'⟩ := ho.slots l _ (List.getElem?_eq_getElem hl')
  have hname : fields[k].1 = fields[l].1 := by simpa using heq
  rw [hname] at hfi
  cases hfi.symm.trans hfi'
  have hkl : k = l := Nat.eq_of_mul_eq_mul_right (by decide) (hoff.symm.trans hoff')
  exact Fin.ext hkl

variable {eval : E → W × Heap → Outcome Value (W × Heap)} {obj : ℕ} {vs : List Value} {w : W}
  {h : Heap} {s : W × Heap}

theorem InTurn.length_eq {es : List E} {w₂ : W} (ht : InTurn eval es w vs w₂) :
    vs.length = es.length := by
  induction ht with
  | nil => rfl
  | cons _ _ ih => rw [List.length_cons, List.length_cons, ih]

theorem fill_get {cell : ℕ → Value} {k : ℕ} {v : Value} (hv : vs[k]? = some v) :
    fill cell 0 vs k = v := by
  simp [fill, hv]

theorem fill_past {cell : ℕ → Value} {k : ℕ} (hk : vs.length ≤ k) : fill cell 0 vs k = cell k := by
  simp [fill, List.getElem?_eq_none hk]

theorem InOrder.initialised (ho : InOrder C args fields) (hr : Room C h)
    (hs : Spares eval (h.alloc (objectSize C) C.typeId).1)
    (hrun : evalStruct eval C fields (w, h) = .returned (obj, vs) s) :
    Initialised eval C args fields w obj vs s := by
  obtain ⟨hturn, hholds, htype, -⟩ := evalStruct_returned hr hs hrun
  have hlen : vs.length = fields.length := by simpa using hturn.length_eq
  refine ⟨hturn, by rw [htype, instanceId, if_pos ho.plain], ?_, ?_⟩
  · intro k f v hk hv
    obtain ⟨fi, hfi, hoff⟩ := ho.slots k f hk
    have hlt : k < fields.length := (List.getElem?_eq_some_iff.mp hk).1
    have hroom : (k + 1) * slotSize ≤ objectSize C :=
      (Nat.mul_le_mul_right _ hlt).trans ho.room
    have hdiv : fi.offset / slotSize = k := by
      rw [hoff]
      exact Nat.mul_div_cancel _ (by decide)
    rw [hholds.readField_eq hfi, if_pos (by rw [hoff, ← Nat.succ_mul]; exact hroom), hdiv,
      fill_get hv]
  · intro f fi hfi hf
    obtain ⟨hinit, hpast, hroom⟩ := ho.zeros f fi hfi hf
    refine ⟨.lit zero, zero, hinit, rfl, ?_⟩
    have hpast' : vs.length ≤ fi.offset / slotSize := by
      rw [hlen]
      exact (Nat.le_div_iff_mul_le (by decide)).mpr hpast
    rw [hholds.readField_eq hfi, if_pos hroom, fill_past hpast']

theorem InOrder.correct (ho : InOrder C args fields) : Correct T C args fields where
  nodup := ho.nodup
  complete f fi hfi hf := by rw [(ho.zeros f fi hfi hf).1]; rfl
  completes _ _ _ _ hr hs htotal := evalStruct_completes hr hs htotal ho.room
  initialised _ _ _ _ _ _ _ hr hs hrun := ho.initialised hr hs hrun

/-! ## Literals that are right are in order -/

theorem objectSize_small : objectSize C + slotSize < 2 ^ 32 := by
  rw [objectSize]
  split_ifs
  · exact C.small
  · decide

theorem room_new : Room C Heap.new := by
  have hsmall := objectSize_small (C := C)
  simp only [slotSize] at hsmall
  have hmem : (Heap.new.alloc (objectSize C) C.typeId).2.memorySize < 2 ^ 32 := by
    have hcells : Heap.cellsFor (objectSize C) * Heap.SLOT_SIZE < 2 ^ 32 :=
      (Heap.cellsFor_le (by omega)).trans_lt (by omega)
    rw [Heap.alloc_memorySize]
    simpa [Heap.takePayload, Heap.freeList, Heap.new] using hcells
  have hne : (Heap.new.alloc (objectSize C) C.typeId).1 ≠ Heap.INVALID := by
    have hone : (Heap.new.alloc (objectSize C) C.typeId).1 = 1 := by
      simp [Heap.alloc, Heap.takePayload, Heap.takeHandle, Heap.freeList, Heap.new]
    rw [hone]
    decide
  exact ⟨Heap.new_sound, hne, Heap.new_sound.alloc C.typeId (by omega) hmem⟩

/-- Every expression counts. -/
def count (_ : E) (s : ℕ × Heap) : Outcome Value (ℕ × Heap) :=
  .returned ⟨BitVec.ofNat 64 s.1, TAG_STR⟩ (s.1 + 1, s.2)

theorem count_spares : Spares (count (E := E)) obj := by
  intro e w h v w' h' hsound hvalid heq
  cases heq
  exact ⟨hsound, hvalid, rfl, fun _ => rfl⟩

theorem count_inTurn {es : List E} {n n' : ℕ} (ht : InTurn count es n vs n') :
    n' = n + es.length ∧
      ∀ k, k < es.length → vs[k]? = some ⟨BitVec.ofNat 64 (n + k), TAG_STR⟩ := by
  induction ht with
  | nil => exact ⟨rfl, nofun⟩
  | cons he _ ih =>
    cases he
    obtain ⟨hlast, hvs⟩ := ih
    refine ⟨by rw [hlast, List.length_cons]; omega, ?_⟩
    intro k hk
    cases k with
    | zero => rfl
    | succ k =>
      rw [List.getElem?_cons_succ, hvs k (Nat.lt_of_succ_lt_succ hk)]
      rw [Nat.add_right_comm, Nat.add_assoc]

/-- What a correct literal makes of counting expressions. -/
theorem Correct.count (hc : Correct T C args fields) (n : ℕ) :
    ∃ (obj : ℕ) (vs : List Value) (s : ℕ × Heap),
      Initialised count C args fields n obj vs s ∧ s.1 = n + fields.length ∧
        (∀ k, k < fields.length → vs[k]? = some ⟨BitVec.ofNat 64 (n + k), TAG_STR⟩) ∧
        Holds s.2 obj (objectSize C) (fill (fun _ => zero) 0 vs) ∧
        s.2.getTypeId obj = C.typeId ∧
        (fields ≠ [] → fields.length * slotSize ≤ objectSize C) := by
  have hr : Room C Heap.new := room_new
  obtain ⟨⟨obj, vs⟩, s, hrun⟩ := hc.completes ℕ Literals.count n Heap.new hr count_spares
    fun e s => ⟨_, _, rfl⟩
  obtain ⟨hturn, hholds, htype, hfits⟩ := evalStruct_returned hr count_spares hrun
  obtain ⟨hlast, hvs⟩ := count_inTurn hturn
  rw [List.length_map] at hlast hvs
  exact ⟨obj, vs, s, hc.initialised _ _ _ _ _ _ _ hr count_spares hrun, hlast, hvs, hholds, htype,
    hfits⟩

theorem ofNat_inj {n m : ℕ} (hn : n < 2 ^ 64) (hm : m < 2 ^ 64)
    (heq : (⟨BitVec.ofNat 64 n, TAG_STR⟩ : Value) = ⟨BitVec.ofNat 64 m, TAG_STR⟩) : n = m := by
  have hval := congrArg (fun v : Value => v.val.toNat) heq
  simp only [BitVec.toNat_ofNat] at hval
  rwa [Nat.mod_eq_of_lt hn, Nat.mod_eq_of_lt hm] at hval

theorem counted_ne_zero {n : ℕ} : (⟨BitVec.ofNat 64 n, TAG_STR⟩ : Value) ≠ zero := by
  intro heq
  have htag : TAG_STR = TAG_INT := congrArg (fun v : Value => v.tag) heq
  exact absurd htag (by decide)

/-- What an object that holds counted values reads at a field. -/
theorem Holds.counted {h : Heap} {n : ℕ} {f : String} {fi : FieldInfo E} {v : Value}
    (hh : Holds h obj (objectSize C) (fill (fun _ => zero) 0 vs))
    (hlen : vs.length = fields.length)
    (hvs : ∀ k, k < fields.length → vs[k]? = some ⟨BitVec.ofNat 64 (n + k), TAG_STR⟩)
    (hfi : C.lookupField f = some fi) (hread : readField C h obj f = some v) :
    fi.offset + slotSize ≤ objectSize C ∧
      (fi.offset / slotSize < fields.length ∧
          v = ⟨BitVec.ofNat 64 (n + fi.offset / slotSize), TAG_STR⟩ ∨
        fields.length ≤ fi.offset / slotSize ∧ v = zero) := by
  rw [hh.readField_eq hfi] at hread
  split_ifs at hread with hroom
  cases hread
  refine ⟨hroom, ?_⟩
  rcases Nat.lt_or_ge (fi.offset / slotSize) fields.length with hlt | hge
  · exact .inl ⟨hlt, fill_get (hvs _ hlt)⟩
  · exact .inr ⟨hge, fill_past (hlen ▸ hge)⟩

/-- The names of a literal that is accepted are those of fields. -/
theorem lookupField_of_checkStruct (hcheck : checkStruct T C args fields = []) {f : FieldInit E}
    (hf : f ∈ fields) : ∃ fi, C.lookupField f.1 = some fi := by
  have hnil := List.flatMap_eq_nil_iff.mp hcheck f hf
  cases hfi : C.lookupField f.1 with
  | none => simp [checkField, hfi] at hnil
  | some fi => exact ⟨fi, rfl⟩

theorem Correct.inOrder (hc : Correct T C args fields)
    (hcheck : checkStruct T C args fields = []) : InOrder C args fields := by
  obtain ⟨obj, vs, s, hinit, hlast, hvs, hholds, htype, hfits⟩ := hc.count 0
  have hlen : vs.length = fields.length := by simpa using hinit.evaluated.length_eq
  have hsmall : fields.length < 2 ^ 32 := by
    cases fields with
    | nil => simp
    | cons f fs =>
      have hroom := hfits nofun
      have hsize := objectSize_small (C := C)
      simp only [slotSize] at hroom hsize
      omega
  refine ⟨?_, ?_, hfits, ?_⟩
  · by_contra hargs
    have hid := hinit.instance_
    rw [htype, instanceId, if_neg hargs] at hid
    exact absurd hid (C.fresh args).ne
  · intro k f hk
    obtain ⟨hlt, -⟩ := List.getElem?_eq_some_iff.mp hk
    obtain ⟨fi, hfi⟩ := lookupField_of_checkStruct hcheck (List.mem_of_getElem? hk)
    refine ⟨fi, hfi, ?_⟩
    have hread := hinit.named k f _ hk (hvs k hlt)
    obtain ⟨-, ⟨hm, heq⟩ | ⟨-, heq⟩⟩ := hholds.counted hlen hvs hfi hread
    · have hkm := ofNat_inj (by omega) (by omega) heq
      rw [Nat.zero_add, Nat.zero_add] at hkm
      rw [hkm]
      exact (Nat.div_mul_cancel (C.aligned _ _ hfi)).symm
    · exact absurd heq counted_ne_zero
  · intro f fi hfi hf
    obtain ⟨init, v, hi, hgives, hread⟩ := hinit.omitted f fi hfi hf
    obtain ⟨hroom, hv⟩ := hholds.counted hlen hvs hfi hread
    -- a second run, which counts from one, tells a constant from a value of the literal
    obtain ⟨obj', vs', s', hinit', hlast', hvs', hholds', -, -⟩ := hc.count 1
    have hlen' : vs'.length = fields.length := by simpa using hinit'.evaluated.length_eq
    obtain ⟨init', v', hi', hgives', hread'⟩ := hinit'.omitted f fi hfi hf
    obtain ⟨-, hv'⟩ := hholds'.counted hlen' hvs' hfi hread'
    cases hi.symm.trans hi'
    cases init with
    | lit c =>
      cases hgives
      cases hgives'
      rcases hv with ⟨hlt, hv⟩ | ⟨hge, hv⟩ <;> rcases hv' with ⟨hlt', hv'⟩ | ⟨hge', hv'⟩
      · have := ofNat_inj (by omega) (by omega) (hv.symm.trans hv')
        omega
      · omega
      · omega
      · refine ⟨hv ▸ hi, ?_, hroom⟩
        exact (Nat.le_div_iff_mul_le (by decide)).mp hge
    | code e =>
      obtain ⟨s₁, hgives⟩ := hgives
      cases hgives
      rcases hv with ⟨hlt, hv⟩ | ⟨-, hv⟩
      · have := ofNat_inj (by omega) (by omega) hv
        omega
      · exact absurd hv counted_ne_zero

/-- The literals that are accepted do what they should exactly when they are in order. -/
theorem correct_iff_inOrder (T : Checker E) (C : ClassDef E) (args : List Ty)
    (fields : List (FieldInit E)) :
    (checkStruct T C args fields = [] → Correct T C args fields) ↔
      (checkStruct T C args fields = [] → InOrder C args fields) :=
  ⟨fun h hcheck => (h hcheck).inOrder hcheck, fun h hcheck => (h hcheck).correct⟩

/-! ## A point -/

/-- The fields `x` and `y` of a class. -/
def pointField : String → Option (FieldInfo Unit)
  | "x" => some ⟨.int, 0, none⟩
  | "y" => some ⟨.int, 9, none⟩
  | _ => none

def point : ClassDef Unit where
  name := ⟨"Point", by decide, by decide⟩
  params := []
  totalFieldSize := 18
  typeId := 10
  specialId _ := 11
  lookupField := pointField
  aligned f fi h := by
    unfold pointField at h
    split at h <;> cases h <;> decide
  small := by decide
  fresh _ := by decide

/-- Everything is an integer. -/
def checker : Checker Unit := ⟨fun _ => [], fun _ => .int⟩

/-- A literal is accepted with its fields in any order, and stores them in the order it has. -/
theorem swapped_not_correct :
    checkStruct checker point [] [("y", ()), ("x", ())] = [] ∧
      ¬ Correct checker point [] [("y", ()), ("x", ())] := by
  have hcheck : checkStruct checker point [] [("y", ()), ("x", ())] = [] := by decide
  refine ⟨hcheck, fun hc => ?_⟩
  obtain ⟨fi, hfi, hoff⟩ := (hc.inOrder hcheck).slots 0 ("y", ()) rfl
  cases hfi
  exact absurd hoff (by decide)

end Loxis.Literals
