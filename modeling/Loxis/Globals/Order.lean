import Loxis.Globals.Labels
import Loxis.Globals.Slots

/-! # The order of initialisation

The objects come first among the initialisers and the variables after them, each in the order of
their declarations. Every slot is at least the number of its global, so the startup code is right
only if it is the declarations' own order.
-/

namespace Loxis.Globals

open Function
open Mono (Ident)
open Backend (Value)

variable {E W : Type} {C : Code E} {b : ScopeBuilder} {d : Decl E} {ds : List (Decl E)} {n k : ℕ}
  {f : Ident → Option ℕ} {find : String → Option (E × ℕ)} {x : Ident}

section Passes

/-- The number after a declaration with number `n`. -/
def Decl.next (n : ℕ) (d : Decl E) : ℕ := n + if d.isGlobal then 1 else 0

def Decl.varSlot (n : ℕ) : Decl E → Option ℕ
  | .var _ _ => some n
  | _ => none

/-- The declarations with the slots of the variables. -/
def numbered : ℕ → List (Decl E) → List (Decl E × Option ℕ)
  | _, [] => []
  | n, d :: ds => (d, d.varSlot n) :: numbered (d.next n) ds

theorem declareItems_fst : (declareItems ds b).1 = numbered b.nextGlobalSlot ds := by
  induction ds generalizing b with
  | nil => rfl
  | cons d ds ih =>
    have htail := ih (b := declareItem b d)
    rw [nextGlobalSlot_declareItem] at htail
    cases d with
    | var name init =>
      have hslot : (declareItem b (.var name init : Decl E)).globalSlot name =
          some b.nextGlobalSlot := by
        unfold ScopeBuilder.globalSlot declareItem
        rw [giveSlot_self, declare_self]
        rfl
      exact congrArg₂ List.cons (Prod.ext rfl hslot) htail
    | function | cls | enum | object | iface | val | const | typeAlias =>
      exact congrArg₂ List.cons rfl htail

/-- Nothing is declared. -/
def start : ScopeBuilder := ⟨fun _ => none, 0⟩

/-- The slots of objects. -/
def slots (ds : List (Decl E)) : Ident → Option ℕ := objectSlot (endScope start ds)

theorem buildScope_eq : buildScope ds = (numbered 0 ds).map (resolveItem (endScope start ds)) := by
  show (declareItems ds start).1.map (resolveItem (endScope start ds)) = _
  rw [declareItems_fst]
  rfl

def Decl.objectInit (f : Ident → Option ℕ) : Decl E → List (String × ℕ)
  | .object name _ _ => ((f name).map fun s => (name.text ++ ".init", s)).toList
  | _ => []

/-- The initialisers of objects. -/
def objectInits (f : Ident → Option ℕ) (ds : List (Decl E)) : List (String × ℕ) :=
  ds.flatMap (Decl.objectInit f)

def Decl.varInit (slot : Option ℕ) : Decl E → List (String × ℕ)
  | .var name (some _) => (slot.map fun s => ("__var_" ++ name.text, s)).toList
  | _ => []

/-- The initialisers of variables. -/
def varInits : ℕ → List (Decl E) → List (String × ℕ)
  | _, [] => []
  | n, d :: ds => d.varInit (some n) ++ varInits (d.next n) ds

theorem filterMap_copyItems {M : Copies E} {is : List (HirItem E)}
    (h : ∀ i ∈ is, i.generic = true → i.initializer = none) :
    (copyItems M n is).filterMap HirItem.initializer = is.filterMap HirItem.initializer := by
  have hadded : ∀ as : List (Specialization E),
      (as.map Specialization.item).filterMap HirItem.initializer = [] := by
    intro as
    rw [List.filterMap_eq_nil_iff]
    intro i hi
    obtain ⟨a, -, rfl⟩ := List.mem_map.mp hi
    have hslot := a.noSlot
    cases hitem : a.item with
    | fn g =>
      rw [hitem] at hslot
      exact Option.map_eq_none_iff.mpr hslot
    | cls c =>
      rw [hitem, HirItem.globalSlot] at hslot
      rw [HirItem.initializer]
      split_ifs at hslot ⊢
      · exact Option.map_eq_none_iff.mpr hslot
      · rfl
  induction is generalizing n with
  | nil => exact hadded _
  | cons i is ih =>
    have hcopy : (i.copy M).filterMap HirItem.initializer = [i].filterMap HirItem.initializer := by
      have hnone := h i List.mem_cons_self
      cases i with
      | fn g | cls c =>
        rw [HirItem.copy]
        split_ifs with hg
        · rw [List.filterMap_cons_none (hnone hg)]
        · rfl
    rw [copyItems, List.filterMap_append, List.filterMap_append, hadded, hcopy,
      ih fun j hj => h j (List.mem_cons_of_mem _ hj), List.nil_append, ← List.filterMap_append]
    rfl

theorem filterMap_items (b : ScopeBuilder) (n : ℕ) (ds : List (Decl E)) :
    (((numbered n ds).map (resolveItem b)).filterMap buildItem).filterMap HirItem.initializer =
      objectInits (objectSlot b) ds := by
  induction ds generalizing n with
  | nil => rfl
  | cons d ds ih =>
    cases d with
    | object name ctor methods =>
      rw [objectInits, List.flatMap_cons, ← objectInits, ← ih (n + 1), numbered, List.map_cons,
        List.filterMap_cons_some (f := buildItem)
          (b := .cls ⟨name.text, false, ctor, methods, true, objectSlot b name⟩) rfl,
        List.filterMap_cons, HirItem.initializer, if_pos rfl, Decl.objectInit]
      cases objectSlot b name <;> rfl
    | function | cls | enum | iface | val | var | const | typeAlias => exact ih _

/-- Of the generated functions only those of variables have slots. -/
theorem filterMap_generate (lambdas : E → List (Lambda E)) (d : Decl E) (slot : Option ℕ) :
    ((generate lambdas (d, slot)).map HirItem.fn).filterMap HirItem.initializer =
      d.varInit slot := by
  have hlift : ∀ e, ((lift lambdas e).map HirItem.fn).filterMap HirItem.initializer = [] := by
    intro e
    rw [List.filterMap_eq_nil_iff]
    intro i hi
    obtain ⟨g, hg, rfl⟩ := List.mem_map.mp hi
    obtain ⟨a, -, rfl⟩ := List.mem_map.mp hg
    rfl
  have hmethods : ∀ ms : List (Method E),
      ((liftMethods lambdas ms).map HirItem.fn).filterMap HirItem.initializer = [] := by
    intro ms
    induction ms with
    | nil => rfl
    | cons m ms ih =>
      rw [liftMethods, List.flatMap_cons, List.map_append, List.filterMap_append, hlift]
      exact ih
  have hgetter : ∀ (kind : String) name slot init,
      ((getter lambdas kind name slot init).map HirItem.fn).filterMap HirItem.initializer =
        (init.map fun _ => (slot.map fun s => (kind ++ name.text, s)).toList).getD [] := by
    intro kind name slot init
    cases init with
    | none => rfl
    | some e =>
      rw [getter, List.map_append, List.filterMap_append, hlift]
      cases slot <;> rfl
  cases d with
  | function name overload generic body => exact hlift body
  | cls name generic ctor methods | enum name generic vs ctor methods | object name ctor methods =>
    rw [generate, List.map_append, List.filterMap_append, hlift, hmethods]
    rfl
  | iface name generic defaults =>
    rw [generate]
    induction defaults with
    | nil => rfl
    | cons m ms ih =>
      rw [List.flatMap_cons, List.map_append, List.map_append, List.filterMap_append,
        List.filterMap_append, hlift, ih]
      rfl
  | val name init | const name init =>
    rw [generate, hgetter]
    cases init <;> rfl
  | var name init =>
    rw [generate, hgetter]
    cases init <;> rfl
  | typeAlias name => rfl

theorem filterMap_generated (lambdas : E → List (Lambda E)) (b : ScopeBuilder) (n : ℕ)
    (ds : List (Decl E)) : ((((numbered n ds).map (resolveItem b)).flatMap
      (generate lambdas)).map HirItem.fn).filterMap HirItem.initializer = varInits n ds := by
  induction ds generalizing n with
  | nil => rfl
  | cons d ds ih =>
    rw [numbered, List.map_cons, List.flatMap_cons, List.map_append, List.filterMap_append, ih,
      varInits]
    congr 1
    cases d with
    | object name ctor methods => exact filterMap_generate lambdas _ _
    | function | cls | enum | iface | val | const | typeAlias =>
      exact filterMap_generate lambdas _ _
    | var name init => exact filterMap_generate lambdas _ _

/-- Generic items initialise nothing. -/
theorem build_generic (lambdas : E → List (Lambda E)) (b : ScopeBuilder) :
    ∀ i ∈ build lambdas ((numbered n ds).map (resolveItem b)), i.generic = true →
      i.initializer = none := by
  intro i hi hg
  rcases List.mem_append.mp hi with hi | hi
  · obtain ⟨⟨d, slot⟩, -, hd⟩ := List.mem_filterMap.mp hi
    cases d with
    | function | cls | enum =>
      cases hd
      rfl
    | object name ctor methods =>
      cases hd
      cases hg
    | iface | val | var | const | typeAlias => cases hd
  · obtain ⟨g, hmem, rfl⟩ := List.mem_map.mp hi
    obtain ⟨⟨d, slot⟩, -, hmem⟩ := List.mem_flatMap.mp hmem
    have hnil : d.varInit slot = [] → (HirItem.fn g).initializer = none := by
      intro h
      rw [← filterMap_generate lambdas, List.filterMap_eq_nil_iff] at h
      exact h _ (List.mem_map_of_mem hmem)
    cases d with
    | var name init =>
      cases init with
      | none => exact hnil rfl
      | some e =>
        rcases List.mem_append.mp hmem with hmem | hmem
        · obtain ⟨a, -, rfl⟩ := List.mem_map.mp hmem
          rfl
        · obtain rfl := List.mem_singleton.mp hmem
          cases hg
    | function | cls | enum | object | iface | val | const | typeAlias => exact hnil rfl

/-- The objects and then the variables are initialised. -/
theorem initializers_eq : (compile C ds).globalInitializers =
    objectInits (slots ds) ds ++ varInits 0 ds := by
  unfold compile lower monomorphize
  rw [buildScope_eq, filterMap_copyItems (build_generic _ _), build, List.filterMap_append,
    filterMap_items, filterMap_generated]
  rfl

end Passes

section Numbers

/-- The number of a declaration after some others. -/
def numberOf (n : ℕ) (xs : List (Decl E)) : ℕ := n + xs.countP Decl.isGlobal

theorem numberOf_cons (n : ℕ) (d : Decl E) (xs : List (Decl E)) :
    numberOf n (d :: xs) = numberOf (d.next n) xs := by
  unfold numberOf Decl.next
  rw [List.countP_cons]
  omega

theorem nextGlobalSlot_endScope :
    (endScope b ds).nextGlobalSlot = numberOf b.nextGlobalSlot ds := by
  induction ds generalizing b with
  | nil => rfl
  | cons d ds ih =>
    rw [endScope_cons, ih, nextGlobalSlot_declareItem, numberOf_cons]
    rfl

theorem endScope_append (xs : List (Decl E)) :
    endScope b (xs ++ ds) = endScope (endScope b xs) ds := by
  induction xs generalizing b with
  | nil => rfl
  | cons x xs ih => exact ih

/-- No name has a slot that is not given out yet. -/
theorem globalSlot_lt {s : ℕ} (h : ∀ x s, b.globalSlot x = some s → s < b.nextGlobalSlot)
    (hs : (endScope b ds).globalSlot x = some s) : s < (endScope b ds).nextGlobalSlot := by
  induction ds generalizing b with
  | nil => exact h x s hs
  | cons d ds ih =>
    refine ih (fun y t ht => ?_) hs
    rw [nextGlobalSlot_declareItem]
    rcases declareItem_globalSlot b d y with h' | h' | ⟨hg, h'⟩
    · exact (h y t (h' ▸ ht)).trans_le (Nat.le_add_right _ _)
    · cases h'.symm.trans ht
    · rw [← Option.some.inj (h'.symm.trans ht), hg]
      exact Nat.lt_succ_self _

theorem slots_lt {s : ℕ} (h : slots ds x = some s) : s < ds.countP Decl.isGlobal := by
  unfold slots objectSlot at h
  split_ifs at h
  have hlt := globalSlot_lt (b := start) (fun _ _ h => nomatch h) h
  rw [nextGlobalSlot_endScope, numberOf] at hlt
  exact hlt.trans_eq (Nat.zero_add _)

section Objects

variable {xs ys : List (Decl E)} {name : Ident} {ctor : E} {methods : List (Method E)}

/-- The symbol of an object that has just been declared. -/
theorem held_object : Held (declareItem b (.object name ctor methods : Decl E)) name
    b.nextGlobalSlot true := by
  unfold Held declareItem
  rw [giveSlot_self, declare_self]
  cases b.symbols name with
  | none => rfl
  | some s =>
    obtain ⟨kind, c, slot⟩ := s
    unfold Symbol.declare
    dsimp only [Option.map_some]
    split_ifs with hkind
    · obtain ⟨rfl, -⟩ := hkind
      rfl
    · rfl

variable (hds : ds = xs ++ .object name ctor methods :: ys)
include hds

theorem slots_object : slots ds name = objectSlot (endScope (declareItem (endScope start xs)
    (.object name ctor methods)) ys) name := by
  rw [slots, hds, endScope_append, endScope_cons]

theorem slots_object_iff : slots ds name = some (numberOf 0 xs) ↔ Keeps name true ys := by
  have hnext : (endScope start xs).nextGlobalSlot = numberOf 0 xs := nextGlobalSlot_endScope
  rw [slots_object hds, ← hnext]
  exact keeps_iff held_object (Nat.lt_succ_self _)

/-- The slot of an object is not less than its number. -/
theorem le_slots_object {s : ℕ} (h : slots ds name = some s) : numberOf 0 xs ≤ s := by
  have hnext : (endScope start xs).nextGlobalSlot = numberOf 0 xs := nextGlobalSlot_endScope
  rw [slots_object hds] at h
  unfold objectSlot at h
  split_ifs at h
  have hlater : Later (declareItem (endScope start xs) (.object name ctor methods)) name
      (numberOf 0 xs) := by
    intro t ht
    have hheld : Held (declareItem (endScope start xs) (.object name ctor methods)) name
        (endScope start xs).nextGlobalSlot true := held_object
    unfold ScopeBuilder.globalSlot at ht
    rw [hheld, hnext] at ht
    exact (Option.some.inj ht).le
  exact hlater.endScope (hnext ▸ Nat.le_succ _) s h

end Objects

end Numbers

end Loxis.Globals
