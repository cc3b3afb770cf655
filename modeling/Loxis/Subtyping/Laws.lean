import Mathlib.Logic.Relation
import Loxis.Subtyping.TypeChecker

/-! # What subtypes should be

The supertypes that the declarations give a class or an interface, with their type arguments, the
values of a type, and a preorder of types that is sound for them.
-/

namespace Loxis.Subtyping

open Relation (ReflTransGen)
open Mono (Ident Ty makeSubst substEach)

/-! ## The hierarchy -/

/-- A class or an interface at type arguments. -/
abbrev Instance := Ident × List Ty

def Decl.supertypes (d : Decl) : List Instance :=
  match d.kind with
  | .cls superClass => superClass.toList ++ d.interfaces
  | _ => d.interfaces

/-- The declarations of a program: names are distinct, superclasses are classes, interfaces are
interfaces, and nothing is its own supertype. -/
structure Hierarchy where
  decls : List Decl
  names : (decls.map Decl.name).Nodup
  superClasses : ∀ d ∈ decls, ∀ s args, d.kind = .cls (some (s, args)) →
    ∃ e ∈ decls, e.name = s ∧ e.kind ≠ .iface
  interfaces : ∀ d ∈ decls, ∀ x ∈ d.interfaces, ∃ e ∈ decls, e.name = x.1 ∧ e.kind = .iface
  acyclic : ∃ rank : Ident → ℕ, ∀ d ∈ decls, ∀ x ∈ d.supertypes, rank x.1 < rank d.name

namespace Hierarchy

variable (H : Hierarchy)

def IsClass (name : Ident) : Prop := ∃ d ∈ H.decls, d.name = name ∧ d.kind ≠ .iface

def IsInterface (name : Ident) : Prop := ∃ d ∈ H.decls, d.name = name ∧ d.kind = .iface

/-- A supertype that is declared. -/
def Super (x y : Instance) : Prop :=
  ∃ d ∈ H.decls, d.name = x.1 ∧
    ∃ z ∈ d.supertypes, y = (z.1, substEach (makeSubst d.generics x.2) z.2)

def Ancestor : Instance → Instance → Prop := ReflTransGen H.Super

end Hierarchy

/-- The class or interface of a type. -/
def instanceOf : Ty → Option Instance
  | .cls c args | .iface c args => some (c, args)
  | _ => none

/-! ## Values -/

inductive Value
  | null
  /-- A number, a string, a function and so on, of exactly the type. -/
  | plain (t : Ty)
  | array (elems : List Value)
  | object (x : Instance)

/-- The values of a type. -/
def Has (H : Hierarchy) : Ty → Value → Prop
  | .nullable t, v => v = .null ∨ Has H t v
  | .null, v => v = .null
  | .never, _ => False
  | .array e n, v => ∃ vs : List Value, v = .array vs ∧ (n = 0 ∨ vs.length = n) ∧
      ∀ w ∈ vs, Has H e w
  | .cls c args, v | .iface c args, v => ∃ x, v = .object x ∧ H.Ancestor x (c, args)
  | t, v => v = .plain t

/-! ## Subtypes -/

inductive Sub (H : Hierarchy) : Ty → Ty → Prop
  | refl (a : Ty) : Sub H a a
  | never (b : Ty) : Sub H .never b
  | null (b : Ty) : Sub H .null (.nullable b)
  | nullableNull (b : Ty) : Sub H (.nullable .null) (.nullable b)
  | array {e f : Ty} {n m : ℕ} : m = 0 ∨ n = m → Sub H e f → Sub H (.array e n) (.array f m)
  | super {a b : Ty} {x y : Instance} : instanceOf a = some x → instanceOf b = some y →
      H.Ancestor x y → Sub H a b
  | toNullable {a b : Ty} : Sub H a b → Sub H a (.nullable b)
  | nullable {a b : Ty} : Sub H a b → Sub H (.nullable a) (.nullable b)

mutual

/-- Types built from primitives, null, nullable types, arrays, functions, classes and
interfaces. -/
def Ground (H : Hierarchy) : Ty → Prop
  | .never | .unit | .bool | .char | .int | .long | .float | .double | .str | .null => True
  | .fn params ret => GroundEach H params ∧ Ground H ret
  | .array elem _ => Ground H elem
  | .cls c args => H.IsClass c ∧ GroundEach H args
  | .iface i args => H.IsInterface i ∧ GroundEach H args
  | .nullable t => Ty.isNullable t = false ∧ Ground H t
  | _ => False

def GroundEach (H : Hierarchy) : List Ty → Prop
  | [] => True
  | t :: ts => Ground H t ∧ GroundEach H ts

end

/-- What a subtype test should be on the types that `P` holds of. -/
structure Sound (H : Hierarchy) (P : Ty → Prop) (R : Ty → Ty → Prop) : Prop where
  refl : ∀ a, P a → R a a
  trans : ∀ a b c, P a → P b → P c → R a b → R b c → R a c
  /-- A type that is not nullable has no nullable subtypes. -/
  nullSafe : ∀ a b, P a → P b → R a b → Ty.isNullable a → Ty.isNullable b
  args : ∀ a b c as bs, P a → P b → R a b → instanceOf (Ty.unwrapNullable a) = some (c, as) →
    instanceOf (Ty.unwrapNullable b) = some (c, bs) → as = bs
  values : ∀ a b, P a → P b → R a b → ∀ v, Has H a v → Has H b v
  /-- A class is a subtype of all that it implements. -/
  implements : ∀ c i as bs, P (.cls c as) → P (.iface i bs) → H.Ancestor (c, as) (i, bs) →
    R (.cls c as) (.iface i bs)
  implementsNullable : ∀ c i as bs, P (.cls c as) → P (.nullable (.iface i bs)) →
    H.Ancestor (c, as) (i, bs) → R (.cls c as) (.nullable (.iface i bs))

/-- Relations that agree on the types are both sound or both not. -/
theorem Sound.congr {H : Hierarchy} {P : Ty → Prop} {R S : Ty → Ty → Prop} (h : Sound H P R)
    (hRS : ∀ a b, P a → P b → (S a b ↔ R a b)) : Sound H P S where
  refl a ha := (hRS _ _ ha ha).mpr (h.refl a ha)
  trans a b c ha hb hc hab hbc :=
    (hRS _ _ ha hc).mpr (h.trans a b c ha hb hc ((hRS _ _ ha hb).mp hab) ((hRS _ _ hb hc).mp hbc))
  nullSafe a b ha hb hab := h.nullSafe a b ha hb ((hRS _ _ ha hb).mp hab)
  args a b c as bs ha hb hab := h.args a b c as bs ha hb ((hRS _ _ ha hb).mp hab)
  values a b ha hb hab := h.values a b ha hb ((hRS _ _ ha hb).mp hab)
  implements c i as bs ha hb hanc := (hRS _ _ ha hb).mpr (h.implements c i as bs ha hb hanc)
  implementsNullable c i as bs ha hb hanc :=
    (hRS _ _ ha hb).mpr (h.implementsNullable c i as bs ha hb hanc)

end Loxis.Subtyping

/-! ## The declared subtypes are sound

By induction on the rules, with the hierarchy's rank for the type arguments.
-/

namespace Loxis.Subtyping

open Relation (ReflTransGen)
open Mono (Ident Ty)

variable {H : Hierarchy} {a b c : Ty} {x y : Instance}

/-! ## Transitivity -/

theorem Sub.below_null (h : Sub H a .null) : a = .null ∨ a = .never := by
  cases h with
  | refl => exact .inl rfl
  | never => exact .inr rfl
  | super _ hb => cases hb

theorem Sub.trans (hab : Sub H a b) (hbc : Sub H b c) : Sub H a c := by
  induction hbc generalizing a with
  | refl => exact hab
  | never =>
    cases hab with
    | refl => exact .never _
    | never => exact .never _
    | super _ hb => cases hb
  | null =>
    rcases hab.below_null with rfl | rfl
    · exact .null _
    · exact .never _
  | nullableNull =>
    cases hab with
    | refl => exact .nullableNull _
    | never => exact .never _
    | null => exact .null _
    | nullableNull => exact .nullableNull _
    | super _ hb => cases hb
    | toNullable h =>
      rcases h.below_null with rfl | rfl
      · exact .null _
      · exact .never _
    | nullable h =>
      rcases h.below_null with rfl | rfl
      · exact .nullableNull _
      · exact .nullable (.never _)
  | array hlen hef ih =>
    cases hab with
    | refl => exact .array hlen hef
    | never => exact .never _
    | array hlen' h =>
      apply Sub.array
      · rcases hlen with hm | rfl
        · exact .inl hm
        · exact hlen'
      · exact ih h
    | super _ hb => cases hb
  | super hb hc hanc =>
    cases hab with
    | refl => exact .super hb hc hanc
    | never => exact .never _
    | super ha hb' hanc' =>
      cases hb.symm.trans hb'
      exact .super ha hc (hanc'.trans hanc)
    | null | nullableNull | array | toNullable | nullable => cases hb
  | toNullable _ ih => exact .toNullable (ih hab)
  | nullable hbc ih =>
    cases hab with
    | refl => exact .nullable hbc
    | never => exact .never _
    | null => exact .null _
    | nullableNull => exact .nullableNull _
    | super _ hb => cases hb
    | toNullable h => exact .toNullable (ih h)
    | nullable h => exact .nullable (ih h)

/-! ## Nullability -/

theorem Sub.nullSafe (h : Sub H a b) (ha : Ty.isNullable a) : Ty.isNullable b := by
  cases h with
  | refl => exact ha
  | nullableNull | toNullable | nullable => rfl
  | super hx => cases a <;> cases hx <;> cases ha
  | never | null | array => cases ha

/-! ## Type arguments -/

theorem Hierarchy.Ancestor.rank {rank : Ident → ℕ}
    (hrank : ∀ d ∈ H.decls, ∀ x ∈ d.supertypes, rank x.1 < rank d.name) (h : H.Ancestor x y) :
    x = y ∨ rank y.1 < rank x.1 := by
  induction h with
  | refl => exact .inl rfl
  | tail _ hstep ih =>
    obtain ⟨d, hd, hname, z, hz, rfl⟩ := hstep
    have hlt := hrank d hd z hz
    rw [hname] at hlt
    rcases ih with rfl | ih
    · exact .inr hlt
    · exact .inr (Nat.lt_trans hlt ih)

/-- A class is its own ancestor only at the same type arguments. -/
theorem Hierarchy.Ancestor.args (h : H.Ancestor x y) (hname : x.1 = y.1) : x = y := by
  obtain ⟨rank, hrank⟩ := H.acyclic
  rcases h.rank hrank with heq | hlt
  · exact heq
  · rw [hname] at hlt
    exact absurd hlt (Nat.lt_irrefl _)

theorem instanceOf_unwrap (h : instanceOf a = some x) : Ty.unwrapNullable a = a := by
  cases a <;> first | rfl | cases h

theorem Sub.ancestor (h : Sub H a b) (hx : instanceOf (Ty.unwrapNullable a) = some x)
    (hy : instanceOf (Ty.unwrapNullable b) = some y) : H.Ancestor x y := by
  induction h with
  | refl =>
    cases hx.symm.trans hy
    exact .refl
  | super ha hb hanc =>
    rw [instanceOf_unwrap ha] at hx
    rw [instanceOf_unwrap hb] at hy
    cases ha.symm.trans hx
    cases hb.symm.trans hy
    exact hanc
  | toNullable _ ih => 
    have hb := instanceOf_unwrap hy
    exact ih hx (hb.symm ▸ hy)
  | nullable _ ih =>
    have ha := instanceOf_unwrap hx
    have hb := instanceOf_unwrap hy
    exact ih (ha.symm ▸ hx) (hb.symm ▸ hy)
  | never | null | nullableNull | array => cases hx

/-! ## Values -/

theorem has_instanceOf {v : Value} (ha : instanceOf a = some x) :
    Has H a v ↔ ∃ z, v = .object z ∧ H.Ancestor z x := by
  cases a <;> cases ha <;> rfl

theorem Sub.values {v : Value} (h : Sub H a b) (hv : Has H a v) : Has H b v := by
  induction h generalizing v with
  | refl => exact hv
  | never => exact hv.elim
  | null => exact .inl hv
  | nullableNull => exact .inl (hv.elim id id)
  | array hlen _ ih =>
    obtain ⟨vs, rfl, hvs, helems⟩ := hv
    refine ⟨vs, rfl, ?_, fun w hw => ih (helems w hw)⟩
    rcases hlen with hm | rfl
    · exact .inl hm
    · exact hvs
  | super ha hb hanc =>
    obtain ⟨z, rfl, hz⟩ := (has_instanceOf ha).mp hv
    exact (has_instanceOf hb).mpr ⟨z, rfl, hz.trans hanc⟩
  | toNullable _ ih => exact .inr (ih hv)
  | nullable _ ih => exact hv.imp_right ih

/-! ## The laws -/

theorem sub_sound (P : Ty → Prop) : Sound H P (Sub H) where
  refl a _ := .refl a
  trans _ _ _ _ _ _ := Sub.trans
  nullSafe _ _ _ _ := Sub.nullSafe
  args a b c as bs _ _ h ha hb := by
    have hsame : (c, as) = (c, bs) := (h.ancestor ha hb).args rfl
    exact (Prod.mk.inj hsame).2
  values _ _ _ _ h _ := h.values
  implements _ _ _ _ _ _ := .super rfl rfl
  implementsNullable _ _ _ _ _ _ h := (Sub.super rfl rfl h).toNullable

end Loxis.Subtyping
