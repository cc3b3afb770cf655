import Loxis.Literals.StructLit
import Loxis.Subtyping.Mangling

/-! # The two substitutions

The type checker and the monomorphiser each substitute types for type parameters. Both compose.
They agree but for raw pointers and algebraic data types, which the monomorphiser leaves as they
are.
-/

namespace Loxis.Subtyping

open Literals (substituteType substituteEach)
open Mono (Ident Ty SubstMap makeNullable substTy substEach)

/-! ## Types -/

mutual

/-- No type is made nullable twice: what the source has is a flag. -/
def Flagged : Ty → Prop
  | .nullable t => Ty.isNullable t = false ∧ Flagged t
  | .fn params ret => FlaggedEach params ∧ Flagged ret
  | .tuple ts | .adt _ ts | .cls _ ts | .iface _ ts => FlaggedEach ts
  | .array t _ | .slice t | .ref _ t | .rawPtr _ t | .projection t _ => Flagged t
  | _ => True

def FlaggedEach : List Ty → Prop
  | [] => True
  | t :: ts => Flagged t ∧ FlaggedEach ts

end

/-- The map of two substitutions, the second one after the first. -/
def compose (subst : SubstMap → Ty → Ty) (s₁ s₂ : SubstMap) : SubstMap :=
  s₁.map (fun p => (p.1, subst s₂ p.2)) ++ s₂

/-- An occurrence of a type parameter, nullable or not, whose replacement counts as the same. -/
def KeptParam (subst : SubstMap) (nullable : Bool) (name : String) : Prop :=
  ∀ u, subst.lookup name = some u → Ty.isError u = true ∨ (∃ i, u = .param name i) ∨
    nullable = true ∧ ∃ i, u = .nullable (.param name i)

mutual

/-- Every type parameter is replaced by the same. -/
def Kept (subst : SubstMap) (nullable : Bool) : Ty → Prop
  | .param name _ => KeptParam subst nullable name
  | .nullable t => Kept subst true t
  | .fn params ret => KeptEach subst params ∧ Kept subst false ret
  | .tuple ts | .adt _ ts | .cls _ ts | .iface _ ts => KeptEach subst ts
  | .array t _ | .slice t | .ref _ t | .rawPtr _ t => Kept subst false t
  | _ => True

def KeptEach (subst : SubstMap) : List Ty → Prop
  | [] => True
  | t :: ts => Kept subst false t ∧ KeptEach subst ts

end

mutual

/-- The type parameters behind raw pointers and in algebraic data types are replaced by the same. -/
def HiddenKept (subst : SubstMap) : Ty → Prop
  | .rawPtr _ t => Kept subst false t
  | .adt _ ts => KeptEach subst ts
  | .fn params ret => HiddenKeptEach subst params ∧ HiddenKept subst ret
  | .tuple ts | .cls _ ts | .iface _ ts => HiddenKeptEach subst ts
  | .array t _ | .slice t | .ref _ t | .nullable t => HiddenKept subst t
  | _ => True

def HiddenKeptEach (subst : SubstMap) : List Ty → Prop
  | [] => True
  | t :: ts => HiddenKept subst t ∧ HiddenKeptEach subst ts

end

/-- A substitution leaves types without parameters alone, keeps nullable types nullable, and two of
them are one. -/
structure Lawful (subst : SubstMap → Ty → Ty) (s : SubstMap) (t : Ty) : Prop where
  closed : Closed t → subst s t = t
  nullable : Ty.isNullable t = true → Ty.isNullable (subst s t) = true
  compose : ∀ s₂, subst s₂ (subst s t) = subst (compose subst s s₂) t

/-- What the two substitutions should satisfy. -/
structure Agreeing (s : SubstMap) (t : Ty) : Prop where
  same : sameType (substTy s t) (substituteType s t) = true
  substTy : Lawful substTy s t
  substituteType : Lawful substituteType s t

/-! ## Laws -/

variable {s s₁ s₂ : SubstMap} {t u : Ty}

theorem makeNullable_eq (h : Ty.isNullable t = false) : makeNullable t = .nullable t := by
  cases t <;> first | rfl | cases h

@[simp] theorem isNullable_makeNullable : Ty.isNullable (makeNullable t) = true := by
  cases t <;> rfl

@[simp] theorem makeNullable_idem : makeNullable (makeNullable t) = makeNullable t := by
  cases t <;> rfl

@[simp] theorem substTy_makeNullable : substTy s (makeNullable t) = makeNullable (substTy s t) := by
  cases t with
  | nullable t => exact makeNullable_idem.symm
  | _ => rfl

@[simp] theorem substituteType_makeNullable :
    substituteType s (makeNullable t) = makeNullable (substituteType s t) := by
  cases t with
  | nullable t => exact makeNullable_idem.symm
  | _ => rfl

theorem lookup_append {α β : Type} [BEq α] (l₁ l₂ : List (α × β)) (a : α) :
    (l₁ ++ l₂).lookup a = (l₁.lookup a).or (l₂.lookup a) := by
  induction l₁ with
  | nil => rfl
  | cons p l₁ ih =>
    obtain ⟨k, v⟩ := p
    simp only [List.cons_append, List.lookup_cons, ih]
    split <;> rfl

theorem lookup_compose (subst : SubstMap → Ty → Ty) (name : String) :
    (compose subst s₁ s₂).lookup name =
      ((s₁.lookup name).map (subst s₂)).or (s₂.lookup name) := by
  have hmap : (s₁.map fun p => (p.1, subst s₂ p.2)).lookup name =
      (s₁.lookup name).map (subst s₂) := by
    induction s₁ with
    | nil => rfl
    | cons p l ih =>
      rw [List.map_cons, List.lookup_cons, List.lookup_cons, ih]
      cases name == p.1 <;> rfl
  rw [compose, lookup_append, hmap]

theorem substTy_compose : substTy s₂ (substTy s₁ t) = substTy (compose substTy s₁ s₂) t := by
  induction t using Ty.rec (motive_2 := fun ts =>
    substEach s₂ (substEach s₁ ts) = substEach (compose substTy s₁ s₂) ts) with
  | param name idx =>
    cases h : s₁.lookup name <;> simp [substTy, lookup_compose, h]
  | nil => rfl
  | cons t ts iht ihts => simp [substEach, iht, ihts]
  | _ => simp_all [substTy]

theorem substituteType_compose :
    substituteType s₂ (substituteType s₁ t) = substituteType (compose substituteType s₁ s₂) t := by
  induction t using Ty.rec (motive_2 := fun ts =>
    substituteEach s₂ (substituteEach s₁ ts) =
      substituteEach (compose substituteType s₁ s₂) ts) with
  | param name idx =>
    cases h : s₁.lookup name <;> simp [substituteType, lookup_compose, h]
  | nil => rfl
  | cons t ts iht ihts => simp [substituteEach, iht, ihts]
  | _ => simp_all [substituteType]

theorem substTy_closed (hf : Flagged t) (hc : Closed t) : substTy s t = t := by
  induction t using Ty.rec (motive_2 := fun ts =>
    FlaggedEach ts → ClosedEach ts → substEach s ts = ts) with
  | nil => rfl
  | cons t ts iht ihts => simp_all [substEach, FlaggedEach, ClosedEach]
  | nullable t ih => rw [substTy, ih hf.2 hc, makeNullable_eq hf.1]
  | param => exact hc.elim
  | _ => simp_all [substTy, Flagged, Closed]

theorem substituteType_closed (hf : Flagged t) (hc : Closed t) : substituteType s t = t := by
  induction t using Ty.rec (motive_2 := fun ts =>
    FlaggedEach ts → ClosedEach ts → substituteEach s ts = ts) with
  | nil => rfl
  | cons t ts iht ihts => simp_all [substituteEach, FlaggedEach, ClosedEach]
  | nullable t ih => rw [substituteType, ih hf.2 hc, makeNullable_eq hf.1]
  | param => exact hc.elim
  | _ => simp_all [substituteType, Flagged, Closed]

theorem lawful_substTy (hf : Flagged t) : Lawful substTy s t where
  closed := substTy_closed hf
  nullable h := by
    cases t with
    | nullable t => rw [substTy, isNullable_makeNullable]
    | _ => cases h
  compose _ := substTy_compose

theorem lawful_substituteType (hf : Flagged t) : Lawful substituteType s t where
  closed := substituteType_closed hf
  nullable h := by
    cases t with
    | nullable t => rw [substituteType, isNullable_makeNullable]
    | _ => cases h
  compose _ := substituteType_compose

/-! ## Equal types -/

theorem sameType_of_isError (h : Ty.isError t = true ∨ Ty.isError u = true) :
    sameType t u = true := by
  unfold sameType
  rcases h with h | h <;> simp [h]

theorem sameType_refl (t : Ty) : sameType t t = true := by
  induction t using Ty.rec (motive_2 := fun ts => sameTypes ts ts = true) with
  | nil => rfl
  | cons t ts iht ihts => simp [sameTypes, iht, ihts]
  | error => rfl
  | _ => simp_all [sameType]

theorem isError_nullable (h : Ty.isNullable t = false) :
    Ty.isError (.nullable t) = Ty.isError t := by
  cases t <;> first | rfl | cases h

theorem sameType_nullable (ht : Ty.isNullable t = false) (hu : Ty.isNullable u = false) :
    sameType (.nullable t) (.nullable u) = sameType t u := by
  rw [sameType, isError_nullable ht, isError_nullable hu]
  cases h : Ty.isError t <;> cases h' : Ty.isError u
  · rfl
  · rw [sameType_of_isError (.inr h')]
    rfl
  all_goals
    rw [sameType_of_isError (.inl h)]
    rfl

theorem sameType_param {name : String} {idx : ℕ} :
    sameType (.param name idx) u = true ↔ Ty.isError u = true ∨ ∃ i, u = .param name i := by
  cases u with
  | param name' i =>
    simp only [sameType, Ty.isError, Bool.false_or, beq_iff_eq, Bool.false_eq_true, false_or,
      Ty.param.injEq, exists_eq_right']
    exact eq_comm
  | _ => simp [sameType, Ty.isError]

/-- A nullable parameter and its replacement. -/
theorem sameType_nullable_param {name : String} {idx : ℕ} (hu : Flagged u) :
    sameType (.nullable (.param name idx)) (makeNullable u) = true ↔ Ty.isError u = true ∨
      (∃ i, u = .param name i) ∨ ∃ i, u = .nullable (.param name i) := by
  cases hn : Ty.isNullable u with
  | false =>
    have hne : ∀ v, u ≠ .nullable v := by
      rintro v rfl
      cases hn
    rw [makeNullable_eq hn, sameType_nullable rfl hn, sameType_param]
    simp [hne]
  | true =>
    obtain ⟨v, rfl⟩ : ∃ v, u = .nullable v := by
      cases u with
      | nullable v => exact ⟨v, rfl⟩
      | _ => cases hn
    rw [makeNullable, sameType_nullable rfl hu.1, sameType_param, isError_nullable hu.1]
    simp

/-! ## Parameters that are left alone -/

section Kept

variable (hs : ∀ name u, s.lookup name = some u → Flagged u)

theorem kept_true (hn : Ty.isNullable t = false) (hp : isParam t = false) :
    Kept s true t ↔ Kept s false t := by
  cases t <;> first | exact Iff.rfl | exact Bool.noConfusion hn | exact Bool.noConfusion hp

theorem isNullable_substituteType (hn : Ty.isNullable t = false) (hp : isParam t = false) :
    Ty.isNullable (substituteType s t) = false := by
  cases t <;> first | rfl | exact Bool.noConfusion hn | exact Bool.noConfusion hp

theorem isNullable_substTy (hn : Ty.isNullable t = false) (hp : isParam t = false) :
    Ty.isNullable (substTy s t) = false := by
  cases t <;> first | rfl | exact Bool.noConfusion hn | exact Bool.noConfusion hp

include hs in
theorem sameType_substituteType_iff (hf : Flagged t) :
    sameType t (substituteType s t) = true ↔ Kept s false t := by
  induction t using Ty.rec (motive_2 := fun ts => FlaggedEach ts →
    (sameTypes ts (substituteEach s ts) = true ↔ KeptEach s ts)) with
  | nil => exact iff_of_true rfl trivial
  | cons t ts iht ihts hf =>
    simp [substituteEach, sameTypes, KeptEach, iht hf.1, ihts hf.2]
  | param name idx =>
    simp only [substituteType, Kept, KeptParam]
    cases hl : s.lookup name with
    | none => simp [sameType_refl]
    | some u => simp [sameType_param]
  | nullable t ih =>
    rw [substituteType, Kept]
    cases hp : isParam t with
    | true =>
      cases t with
      | param name idx =>
        simp only [substituteType, Kept, KeptParam]
        cases hl : s.lookup name with
        | none => simp [makeNullable, sameType_refl]
        | some u => simp [sameType_nullable_param (hs name u hl)]
      | _ => cases hp
    | false =>
      have hn := isNullable_substituteType (s := s) hf.1 hp
      rw [makeNullable_eq hn, sameType_nullable hf.1 hn, ih hf.2, kept_true hf.1 hp]
  | fn ps r ihp ihr =>
    simp [substituteType, sameType, Kept, Ty.isError, ihp hf.1, ihr hf.2]
  | tuple ts ih | adt x ts ih | cls x ts ih | iface x ts ih =>
    have hts : FlaggedEach ts := hf
    simp [substituteType, sameType, Kept, Ty.isError, ih hts]
  | array t n ih | slice t ih | ref m t ih | rawPtr m t ih =>
    have ht : Flagged t := hf
    simp [substituteType, sameType, Kept, Ty.isError, ih ht]
  | _ => exact iff_of_true (sameType_refl _) trivial

include hs in
theorem sameTypes_substituteEach_iff {ts : List Ty} (hf : FlaggedEach ts) :
    sameTypes ts (substituteEach s ts) = true ↔ KeptEach s ts := by
  induction ts with
  | nil => exact iff_of_true rfl trivial
  | cons t ts ih =>
    simp [substituteEach, sameTypes, KeptEach, sameType_substituteType_iff hs hf.1, ih hf.2]

/-! ## Agreement -/

include hs in
/-- Both give the same type exactly if the parameters that only one of them finds are kept. -/
theorem sameType_substTy_iff (hf : Flagged t) :
    sameType (substTy s t) (substituteType s t) = true ↔ HiddenKept s t := by
  induction t using Ty.rec (motive_2 := fun ts => FlaggedEach ts →
    (sameTypes (substEach s ts) (substituteEach s ts) = true ↔ HiddenKeptEach s ts)) with
  | nil => exact iff_of_true rfl trivial
  | cons t ts iht ihts hf =>
    simp [substEach, substituteEach, sameTypes, HiddenKeptEach, iht hf.1, ihts hf.2]
  | param name idx => exact iff_of_true (sameType_refl _) trivial
  | nullable t ih =>
    rw [substTy, substituteType, HiddenKept]
    cases hp : isParam t with
    | true =>
      cases t with
      | param name idx => exact iff_of_true (sameType_refl _) trivial
      | _ => cases hp
    | false =>
      have hn := isNullable_substTy (s := s) hf.1 hp
      have hn' := isNullable_substituteType (s := s) hf.1 hp
      rw [makeNullable_eq hn, makeNullable_eq hn', sameType_nullable hn hn', ih hf.2]
  | fn ps r ihp ihr =>
    simp [substTy, substituteType, sameType, HiddenKept, Ty.isError, ihp hf.1, ihr hf.2]
  | tuple ts ih | cls x ts ih | iface x ts ih =>
    have hts : FlaggedEach ts := hf
    simp [substTy, substituteType, sameType, HiddenKept, Ty.isError, ih hts]
  | array t n ih | slice t ih | ref m t ih =>
    have ht : Flagged t := hf
    simp [substTy, substituteType, sameType, HiddenKept, Ty.isError, ih ht]
  | rawPtr m t =>
    have ht : Flagged t := hf
    simp [substTy, substituteType, sameType, HiddenKept, Ty.isError,
      sameType_substituteType_iff hs ht]
  | adt x ts =>
    have hts : FlaggedEach ts := hf
    simp [substTy, substituteType, sameType, HiddenKept, Ty.isError,
      sameTypes_substituteEach_iff hs hts]
  | _ => exact iff_of_true (sameType_refl _) trivial

include hs in
/-- The substitutions agree and are lawful exactly under that condition. -/
theorem agreeing_iff_hiddenKept (hf : Flagged t) : Agreeing s t ↔ HiddenKept s t := by
  rw [← sameType_substTy_iff hs hf]
  exact ⟨Agreeing.same, fun h => ⟨h, lawful_substTy hf, lawful_substituteType hf⟩⟩

end Kept

/-! ## A pointer to a type parameter -/

/-- The type argument `int` for `T`. -/
def intForT : SubstMap := [("T", .int)]

theorem flagged_intForT (name : String) (u : Ty) (h : intForT.lookup name = some u) :
    Flagged u := by
  simp only [intForT, List.lookup_cons, List.lookup_nil] at h
  split at h <;> cases h
  trivial

theorem agreeing_array : Agreeing intForT (.nullable (.array (.param "T" 0) 0)) :=
  (agreeing_iff_hiddenKept (t := .nullable (.array (.param "T" 0) 0)) flagged_intForT
    ⟨rfl, trivial⟩).mpr trivial

/-- The monomorphiser leaves `*T` as it is. -/
theorem pointer_not_substituted : ¬ ∀ (s : SubstMap) (t : Ty),
    (∀ name u, s.lookup name = some u → Flagged u) → Flagged t → Agreeing s t := by
  intro h
  have hsame := (h intForT (.rawPtr false (.param "T" 0)) flagged_intForT trivial).same
  revert hsame
  decide

end Loxis.Subtyping
