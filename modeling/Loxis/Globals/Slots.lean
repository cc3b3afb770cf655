import Loxis.Globals.Pipeline

/-! # Slots

A variable has the slot of its own number among the globals. An object has its own slot exactly when
it keeps its name, and else none or a later one.
-/

namespace Loxis.Globals

open Function
open Mono (Ident)
open ScopeBuilder

variable {E : Type} {b : ScopeBuilder} {d : Decl E} {ds : List (Decl E)} {x y : Ident} {k n : ℕ}
  {c : Bool}

section Declare

/-- The symbol of the name is a value with the slot. -/
def Held (b : ScopeBuilder) (x : Ident) (k : ℕ) (c : Bool) : Prop :=
  b.symbols x = some ⟨.value, c, some k⟩

/-- The symbol of the name, if there is one, has another slot than those before. -/
def Later (b : ScopeBuilder) (x : Ident) (k : ℕ) : Prop := ∀ s, b.globalSlot x = some s → k ≤ s

theorem declare_self (kind : Mono.SymbolKind) (c : Bool) :
    (b.declare kind c x).symbols x = some (Symbol.declare kind c (b.symbols x)) :=
  update_self _ _ _

theorem giveSlot_self : (b.giveSlot x).symbols x =
    (b.symbols x).map fun s => { s with globalSlot := some b.nextGlobalSlot } :=
  update_self _ _ _

theorem declare_other (kind : Mono.SymbolKind) (c : Bool) (h : y ≠ x) :
    (b.declare kind c y).symbols x = b.symbols x :=
  update_of_ne h.symm _ _

theorem giveSlot_other (h : y ≠ x) : (b.giveSlot y).symbols x = b.symbols x :=
  update_of_ne h.symm _ _

theorem Held.overload (h : Held b x k c) (c' : Bool) : Held (b.declare .value c' x) x k c' := by
  unfold Held
  rw [declare_self, h]
  rfl

theorem declare_globalSlot (kind : Mono.SymbolKind) (c : Bool) :
    (b.declare kind c y).globalSlot x = b.globalSlot x ∨
      (b.declare kind c y).globalSlot x = none := by
  by_cases h : y = x
  · subst h
    unfold globalSlot
    rw [declare_self]
    cases hs : b.symbols y with
    | none => exact Or.inl rfl
    | some s =>
      unfold Symbol.declare
      dsimp only [Option.bind_some]
      split_ifs
      · exact Or.inl rfl
      · exact Or.inr rfl
  · left
    unfold globalSlot
    rw [declare_other kind c h]

theorem giveSlot_globalSlot : (b.giveSlot y).globalSlot x = b.globalSlot x ∨
    (b.giveSlot y).globalSlot x = some b.nextGlobalSlot := by
  by_cases h : y = x
  · subst h
    unfold globalSlot
    rw [giveSlot_self]
    cases b.symbols y with
    | none => exact Or.inl rfl
    | some s => exact Or.inr rfl
  · left
    unfold globalSlot
    rw [giveSlot_other h]

/-- A declaration gives a name no slot but its old one and, if it is a global, the next. -/
theorem declareItem_globalSlot (b : ScopeBuilder) (d : Decl E) (x : Ident) :
    (declareItem b d).globalSlot x = b.globalSlot x ∨ (declareItem b d).globalSlot x = none ∨
      d.isGlobal = true ∧ (declareItem b d).globalSlot x = some b.nextGlobalSlot := by
  have hglobal : ∀ c y, ((b.declare .value c y).giveSlot y).globalSlot x = b.globalSlot x ∨
      ((b.declare .value c y).giveSlot y).globalSlot x = none ∨
        ((b.declare .value c y).giveSlot y).globalSlot x = some b.nextGlobalSlot := by
    intro c y
    rcases giveSlot_globalSlot (b := b.declare .value c y) (x := x) (y := y) with h | h
    · rw [h]
      exact (declare_globalSlot .value c).imp_right Or.inl
    · exact Or.inr (Or.inr h)
  cases d with
  | function name | cls name | iface name | val name | const name | typeAlias name =>
    exact (declare_globalSlot _ _).imp_right Or.inl
  | object name | var name =>
    exact (hglobal _ _).imp_right (Or.imp_right fun h => ⟨rfl, h⟩)
  | enum name generic variants =>
    have hfold : ∀ (vs : List Ident) (b' : ScopeBuilder),
        (b'.globalSlot x = b.globalSlot x ∨ b'.globalSlot x = none) →
          ((vs.foldl (fun b v => b.declare .value true v) b').globalSlot x = b.globalSlot x ∨
            (vs.foldl (fun b v => b.declare .value true v) b').globalSlot x = none) := by
      intro vs
      induction vs with
      | nil => exact fun _ h => h
      | cons v vs ih =>
        intro b' h
        apply ih
        rcases declare_globalSlot (b := b') (x := x) (y := v) .value true with h' | h'
        · rwa [h']
        · exact Or.inr h'
    exact (hfold variants _ (declare_globalSlot .type true)).imp_right Or.inl

theorem nextGlobalSlot_declareItem (b : ScopeBuilder) (d : Decl E) :
    (declareItem b d).nextGlobalSlot = b.nextGlobalSlot + if d.isGlobal then 1 else 0 := by
  cases d with
  | function | cls | iface | val | const | typeAlias | object | var => rfl
  | enum name generic variants =>
    have hfold : ∀ (vs : List Ident) (b' : ScopeBuilder),
        (vs.foldl (fun b v => b.declare .value true v) b').nextGlobalSlot = b'.nextGlobalSlot := by
      intro vs
      induction vs with
      | nil => exact fun _ => rfl
      | cons v vs ih => exact fun b' => ih _
    exact hfold variants _

theorem Held.other {kind : Mono.SymbolKind} {c' : Bool} (h : Held b x k c) (hy : y ≠ x) :
    Held (b.declare kind c' y) x k c :=
  (declare_other _ _ hy).trans h

theorem Held.giveSlot (h : Held b x k c) (hy : y ≠ x) : Held (b.giveSlot y) x k c :=
  (giveSlot_other hy).trans h

/-- Declaring variants makes the symbol of one of them a class, and leaves the others. -/
theorem Held.variants (h : Held b x k c) (vs : List Ident) :
    Held (vs.foldl (fun b v => b.declare .value true v) b) x k (c || decide (x ∈ vs)) := by
  induction vs generalizing b c with
  | nil => simpa using h
  | cons v vs ih =>
    rw [List.foldl_cons]
    by_cases hv : v = x
    · subst hv
      simpa using ih (h.overload true)
    · have hx : Held (b.declare .value true v) x k c := (declare_other _ _ hv).trans h
      simpa [Ne.symm hv] using ih hx

theorem Held.declareItem (h : Held b x k c) (ht : d.takes x = false) :
    Held (declareItem b d) x k (c && !d.retypes x || d.restores x) := by
  have hvalue : ∀ y, Held (b.declare .value false y) x k (c && !decide (y = x) || false) := by
    intro y
    by_cases hy : y = x
    · subst hy
      simpa using h.overload false
    · rw [decide_eq_false hy, Bool.not_false, Bool.and_true, Bool.or_false]
      exact h.other hy
  cases d with
  | function name | val name | const name => exact hvalue name
  | cls name | iface name | typeAlias name =>
    show Held _ x k (c && !false || false)
    rw [Bool.not_false, Bool.and_true, Bool.or_false]
    exact h.other (of_decide_eq_false ht)
  | object name | var name =>
    show Held _ x k (c && !false || false)
    rw [Bool.not_false, Bool.and_true, Bool.or_false]
    exact (h.other (of_decide_eq_false ht)).giveSlot (of_decide_eq_false ht)
  | enum name generic vs =>
    show Held _ x k (c && !false || decide (x ∈ vs))
    rw [Bool.not_false, Bool.and_true]
    exact (h.other (of_decide_eq_false ht)).variants vs

/-- A name that is taken loses its slot. -/
theorem declareItem_takes (hk : k < b.nextGlobalSlot) (ht : d.takes x = true) :
    (declareItem b d).globalSlot x ≠ some k := by
  have hfresh : ∀ kind c, kind ≠ Mono.SymbolKind.value →
      (b.declare kind c x).globalSlot x = none := by
    intro kind c hkind
    unfold globalSlot
    rw [declare_self]
    cases b.symbols x with
    | none => rfl
    | some s => simp [Symbol.declare, hkind]
  have hslot : ∀ c, ((b.declare .value c x).giveSlot x).globalSlot x ≠ some k := by
    intro c h
    unfold globalSlot at h
    rw [giveSlot_self, declare_self] at h
    exact absurd (Option.some.inj h) (Nat.ne_of_gt hk)
  cases d with
  | function | val | const => cases ht
  | cls name | iface name | typeAlias name =>
    obtain rfl := of_decide_eq_true ht
    exact ne_of_eq_of_ne (hfresh _ _ (by decide)) nofun
  | object name | var name =>
    obtain rfl := of_decide_eq_true ht
    exact hslot _
  | enum name generic vs =>
    obtain rfl := of_decide_eq_true ht
    have hfold : ∀ (vs : List Ident) (b' : ScopeBuilder), b'.globalSlot name = none →
        (vs.foldl (fun b v => b.declare .value true v) b').globalSlot name = none := by
      intro vs
      induction vs with
      | nil => exact fun _ h => h
      | cons v vs ih =>
        intro b' h
        apply ih
        rcases declare_globalSlot (b := b') (x := name) (y := v) .value true with h' | h'
        · rwa [h']
        · exact h'
    exact ne_of_eq_of_ne (hfold vs _ (hfresh _ _ (by decide))) nofun

end Declare

section Scope

/-- The scope after the first pass. -/
def endScope (b : ScopeBuilder) (ds : List (Decl E)) : ScopeBuilder := (declareItems ds b).2

theorem endScope_cons : endScope b (d :: ds) = endScope (declareItem b d) ds := rfl

theorem Later.endScope (h : Later b x k) (hk : k ≤ b.nextGlobalSlot) :
    Later (endScope b ds) x k := by
  induction ds generalizing b with
  | nil => exact h
  | cons d ds ih =>
    rw [endScope_cons]
    refine ih (fun s hs => ?_) (by rw [nextGlobalSlot_declareItem]; omega)
    rcases declareItem_globalSlot b d x with h' | h' | ⟨-, h'⟩
    · exact h s (h' ▸ hs)
    · cases h'.symm.trans hs
    · exact hk.trans_eq (Option.some.inj (h'.symm.trans hs))

theorem endScope_ne (h : b.globalSlot x ≠ some k) (hk : k < b.nextGlobalSlot) :
    (endScope b ds).globalSlot x ≠ some k := by
  induction ds generalizing b with
  | nil => exact h
  | cons d ds ih =>
    rw [endScope_cons]
    refine ih (fun hs => ?_) (by rw [nextGlobalSlot_declareItem]; omega)
    rcases declareItem_globalSlot b d x with h' | h' | ⟨-, h'⟩
    · exact h (h'.symm.trans hs)
    · cases h'.symm.trans hs
    · exact absurd (Option.some.inj (h'.symm.trans hs)) (Nat.ne_of_gt hk)

/-- The slot that an object gets under a name. -/
def objectSlot (b : ScopeBuilder) (x : Ident) : Option ℕ :=
  if (b.symbols x).any Symbol.isClass then b.globalSlot x else none

/-- An object has its own slot exactly when it keeps its name. -/
theorem keeps_iff (h : Held b x k c) (hk : k < b.nextGlobalSlot) :
    objectSlot (endScope b ds) x = some k ↔ Keeps x c ds := by
  induction ds generalizing b c with
  | nil =>
    have hsym : objectSlot b x = if c then some k else none := by
      unfold objectSlot globalSlot
      rw [h]
      rfl
    rw [endScope, declareItems, hsym, Keeps]
    cases c <;> simp
  | cons d ds ih =>
    have hk' : k < (declareItem b d).nextGlobalSlot := by
      rw [nextGlobalSlot_declareItem]
      omega
    rw [endScope_cons, Keeps]
    cases ht : d.takes x with
    | false => rw [ih (h.declareItem ht) hk', eq_self, true_and]
    | true =>
      have hne : (endScope (declareItem b d) ds).globalSlot x ≠ some k :=
        endScope_ne (declareItem_takes hk ht) hk'
      simp only [Bool.true_eq_false, false_and, iff_false]
      unfold objectSlot
      split_ifs
      · exact hne
      · exact nofun

end Scope

end Loxis.Globals
