import Loxis.Mono.Names
import Loxis.Subtyping.TypeChecker

/-! # Names of types and equal types

The encoding of types in names agrees with the test for equal types. Type parameters are encoded
by their positions, which is how those of different functions correspond to each other; the test
compares their names.
-/

namespace Loxis.Subtyping

open Readable (toDigits_append_inj nonDigit_nil)
open Mono (Ident Ty eraseEach_eq mangleType mangleFunctionSignature mangleType_erase)
open Mono.Label (extended)

/-! ## Resolved types -/

mutual

/-- Free of inference variables, errors and projections. -/
def Settled : Ty → Prop
  | .infer _ | .error | .projection .. => False
  | .fn params ret => SettledEach params ∧ Settled ret
  | .tuple ts | .adt _ ts | .cls _ ts | .iface _ ts => SettledEach ts
  | .array t _ | .slice t | .ref _ t | .rawPtr _ t | .nullable t => Settled t
  | _ => True

def SettledEach : List Ty → Prop
  | [] => True
  | t :: ts => Settled t ∧ SettledEach ts

end

mutual

/-- Free of type parameters. -/
def Closed : Ty → Prop
  | .param .. => False
  | .fn params ret => ClosedEach params ∧ Closed ret
  | .tuple ts | .adt _ ts | .cls _ ts | .iface _ ts => ClosedEach ts
  | .array t _ | .slice t | .ref _ t | .rawPtr _ t | .nullable t | .projection t _ => Closed t
  | _ => True

def ClosedEach : List Ty → Prop
  | [] => True
  | t :: ts => Closed t ∧ ClosedEach ts

end

mutual

/-- The type with its type parameters named by their positions. -/
def byPosition : Ty → Ty
  | .param _ idx => .param (toString idx) idx
  | .fn params ret => .fn (byPositions params) (byPosition ret)
  | .tuple ts => .tuple (byPositions ts)
  | .array t n => .array (byPosition t) n
  | .slice t => .slice (byPosition t)
  | .ref m t => .ref m (byPosition t)
  | .rawPtr m t => .rawPtr m (byPosition t)
  | .adt name ts => .adt name (byPositions ts)
  | .cls name ts => .cls name (byPositions ts)
  | .iface name ts => .iface name (byPositions ts)
  | .projection t assoc => .projection (byPosition t) assoc
  | .nullable t => .nullable (byPosition t)
  | t => t

def byPositions : List Ty → List Ty
  | [] => []
  | t :: ts => byPosition t :: byPositions ts

end

theorem repr_inj {m n : ℕ} : m.repr = n.repr ↔ m = n := by
  constructor
  · intro h
    have hdigits := congrArg String.toList h
    simp only [Nat.toList_repr] at hdigits
    exact (toDigits_append_inj nonDigit_nil nonDigit_nil (congrArg (· ++ []) hdigits)).1
  · rintro rfl
    rfl

theorem isError_byPosition {t : Ty} (h : Settled t) : Ty.isError (byPosition t) = false := by
  cases t with
  | error => exact h.elim
  | nullable t =>
    cases t with
    | error => exact h.elim
    | _ => rfl
  | _ => rfl

/-- A comparison that is not decided by the constructors alone. -/
theorem not_sameType {a b : Ty} {p : Prop} (ha : Ty.isError a = false) (hb : Ty.isError b = false)
    (hne : sameType a b = (Ty.isError a || Ty.isError b || false)) (hp : ¬ p) :
    sameType a b = true ↔ p := by
  rw [hne, ha, hb]
  exact iff_of_false Bool.false_ne_true hp

mutual

/-- Types are the same when they differ in the names of type parameters only. -/
theorem sameType_byPosition {a b : Ty} (ha : Settled a) (hb : Settled b) :
    sameType (byPosition a) (byPosition b) = true ↔ a.erase = b.erase := by
  have ha' := isError_byPosition ha
  have hb' := isError_byPosition hb
  cases a with
  | infer | error | projection => exact ha.elim
  | never | unit | bool | char | int | long | float | double | str | null =>
    cases b with
    | nullable => exact not_sameType ha' hb' rfl Ty.noConfusion
    | _ => first
      | exact iff_of_true rfl rfl
      | exact iff_of_false Bool.false_ne_true Ty.noConfusion
      | exact hb.elim
  | param x i =>
    cases b with
    | param y j =>
      simp [sameType, byPosition, Ty.erase, Ty.isError, repr_inj]
    | error => exact hb.elim
    | nullable => exact not_sameType ha' hb' rfl Ty.noConfusion
    | _ => exact iff_of_false Bool.false_ne_true Ty.noConfusion
  | fn ps r =>
    cases b with
    | fn qs s =>
      simp [sameType, byPosition, Ty.erase, Ty.isError, eraseEach_eq,
        sameTypes_byPositions ha.1 hb.1, sameType_byPosition ha.2 hb.2]
    | error => exact hb.elim
    | nullable => exact not_sameType ha' hb' rfl Ty.noConfusion
    | _ => exact iff_of_false Bool.false_ne_true Ty.noConfusion
  | array t n =>
    cases b with
    | array u m =>
      have ht : Settled t := ha
      have hu : Settled u := hb
      simp [sameType, byPosition, Ty.erase, Ty.isError, sameType_byPosition ht hu, and_comm]
    | error => exact hb.elim
    | nullable => exact not_sameType ha' hb' rfl Ty.noConfusion
    | _ => exact iff_of_false Bool.false_ne_true Ty.noConfusion
  | slice t =>
    cases b with
    | slice u =>
      have ht : Settled t := ha
      have hu : Settled u := hb
      simp [sameType, byPosition, Ty.erase, Ty.isError, sameType_byPosition ht hu]
    | error => exact hb.elim
    | nullable => exact not_sameType ha' hb' rfl Ty.noConfusion
    | _ => exact iff_of_false Bool.false_ne_true Ty.noConfusion
  | ref x t =>
    cases b with
    | ref y u =>
      have ht : Settled t := ha
      have hu : Settled u := hb
      simp [sameType, byPosition, Ty.erase, Ty.isError, sameType_byPosition ht hu]
    | error => exact hb.elim
    | nullable => exact not_sameType ha' hb' rfl Ty.noConfusion
    | _ => exact iff_of_false Bool.false_ne_true Ty.noConfusion
  | rawPtr x t =>
    cases b with
    | rawPtr y u =>
      have ht : Settled t := ha
      have hu : Settled u := hb
      simp [sameType, byPosition, Ty.erase, Ty.isError, sameType_byPosition ht hu]
    | error => exact hb.elim
    | nullable => exact not_sameType ha' hb' rfl Ty.noConfusion
    | _ => exact iff_of_false Bool.false_ne_true Ty.noConfusion
  | tuple ts =>
    cases b with
    | tuple us =>
      have ht : SettledEach ts := ha
      have hu : SettledEach us := hb
      simp [sameType, byPosition, Ty.erase, Ty.isError, eraseEach_eq, sameTypes_byPositions ht hu]
    | error => exact hb.elim
    | nullable => exact not_sameType ha' hb' rfl Ty.noConfusion
    | _ => exact iff_of_false Bool.false_ne_true Ty.noConfusion
  | adt x ts =>
    cases b with
    | adt y us =>
      have ht : SettledEach ts := ha
      have hu : SettledEach us := hb
      simp [sameType, byPosition, Ty.erase, Ty.isError, eraseEach_eq, sameTypes_byPositions ht hu]
    | error => exact hb.elim
    | nullable => exact not_sameType ha' hb' rfl Ty.noConfusion
    | _ => exact iff_of_false Bool.false_ne_true Ty.noConfusion
  | cls x ts =>
    cases b with
    | cls y us =>
      have ht : SettledEach ts := ha
      have hu : SettledEach us := hb
      simp [sameType, byPosition, Ty.erase, Ty.isError, eraseEach_eq, sameTypes_byPositions ht hu]
    | error => exact hb.elim
    | nullable => exact not_sameType ha' hb' rfl Ty.noConfusion
    | _ => exact iff_of_false Bool.false_ne_true Ty.noConfusion
  | iface x ts =>
    cases b with
    | iface y us =>
      have ht : SettledEach ts := ha
      have hu : SettledEach us := hb
      simp [sameType, byPosition, Ty.erase, Ty.isError, eraseEach_eq, sameTypes_byPositions ht hu]
    | error => exact hb.elim
    | nullable => exact not_sameType ha' hb' rfl Ty.noConfusion
    | _ => exact iff_of_false Bool.false_ne_true Ty.noConfusion
  | nullable t =>
    cases b with
    | nullable u =>
      have ht : Settled t := ha
      have hu : Settled u := hb
      simp only [byPosition] at ha' hb'
      simp [sameType, byPosition, Ty.erase, ha', hb', sameType_byPosition ht hu]
    | error => exact hb.elim
    | _ => exact not_sameType ha' hb' rfl Ty.noConfusion

theorem sameTypes_byPositions {as bs : List Ty} (ha : SettledEach as) (hb : SettledEach bs) :
    sameTypes (byPositions as) (byPositions bs) = true ↔ as.map Ty.erase = bs.map Ty.erase := by
  cases as with
  | nil => cases bs <;> simp [sameTypes, byPositions]
  | cons a as =>
    cases bs with
    | nil => simp [sameTypes, byPositions]
    | cons b bs =>
      simp [sameTypes, byPositions, sameType_byPosition ha.1 hb.1,
        sameTypes_byPositions ha.2 hb.2]

end

/-! ## Closed types -/

mutual

theorem byPosition_of_closed {t : Ty} (h : Closed t) : byPosition t = t := by
  cases t with
  | param => exact h.elim
  | fn ps r => rw [byPosition, byPositions_of_closed h.1, byPosition_of_closed h.2]
  | tuple ts | adt _ ts | cls _ ts | iface _ ts =>
    have hts : ClosedEach ts := h
    rw [byPosition, byPositions_of_closed hts]
  | array t _ | slice t | ref _ t | rawPtr _ t | nullable t | projection t _ =>
    have ht : Closed t := h
    rw [byPosition, byPosition_of_closed ht]
  | _ => rfl

theorem byPositions_of_closed {ts : List Ty} (h : ClosedEach ts) : byPositions ts = ts := by
  cases ts with
  | nil => rfl
  | cons t ts => rw [byPositions, byPosition_of_closed h.1, byPositions_of_closed h.2]

end

/-! ## Names -/

variable {a b : Ty}

theorem mangleType_eq_iff : mangleType a = mangleType b ↔ a.erase = b.erase := by
  constructor
  · exact fun h => Mono.code_inj (congrArg String.toList h)
  · intro h
    rw [← mangleType_erase a, h, mangleType_erase]

theorem mangleType_eq_iff_sameType (ha : Settled a ∧ Closed a) (hb : Settled b ∧ Closed b) :
    mangleType a = mangleType b ↔ sameType a b = true := by
  rw [mangleType_eq_iff, ← sameType_byPosition ha.1 hb.1, byPosition_of_closed ha.2,
    byPosition_of_closed hb.2]

/-- A signature is a name, with its mark for extensions, the types of the parameters and that of the
result. -/
structure Signature where
  name : Ident
  isExtension : Bool
  params : List Ty
  ret : Ty

namespace Signature

def mangled (s : Signature) : String :=
  mangleFunctionSignature (extended s.name s.isExtension) s.params s.ret

def Settled (s : Signature) : Prop := SettledEach s.params ∧ Subtyping.Settled s.ret

def Closed (s : Signature) : Prop := ClosedEach s.params ∧ Subtyping.Closed s.ret

/-- The names are equal and the types the same. -/
def Same (s t : Signature) : Prop :=
  (s.name = t.name ∧ s.isExtension = t.isExtension) ∧
    sameTypes s.params t.params = true ∧ sameType s.ret t.ret = true

def byPosition (s : Signature) : Signature :=
  { s with params := byPositions s.params, ret := Subtyping.byPosition s.ret }

variable {s t : Signature}

theorem mangled_eq_iff (hs : s.Settled) (ht : t.Settled) :
    s.mangled = t.mangled ↔ s.byPosition.Same t.byPosition := by
  have hlabel : (Mono.Label.overload s.name s.isExtension s.params s.ret).text =
        (Mono.Label.overload t.name t.isExtension t.params t.ret).text ↔
      (Mono.Label.overload s.name s.isExtension s.params s.ret).erase =
        (Mono.Label.overload t.name t.isExtension t.params t.ret).erase := Mono.Label.text_inj
  simp only [Mono.Label.erase, Mono.Label.overload.injEq] at hlabel
  rw [Same, byPosition, byPosition, sameTypes_byPositions hs.1 ht.1, sameType_byPosition hs.2 ht.2,
    and_assoc]
  exact hlabel

theorem byPosition_of_closed (h : s.Closed) : s.byPosition = s := by
  rw [byPosition, byPositions_of_closed h.1, Subtyping.byPosition_of_closed h.2]

end Signature

/-- Names of types are equal when the types are the same, and those of functions when the names are
equal and the types the same; the type parameters of generic functions correspond by position. -/
theorem structural_names :
    (∀ a b : Ty, Settled a ∧ Closed a → Settled b ∧ Closed b →
      (mangleType a = mangleType b ↔ sameType a b = true)) ∧
    (∀ s t : Signature, s.Settled → t.Settled → s.Closed → t.Closed →
      (s.mangled = t.mangled ↔ s.Same t)) ∧
    ∀ s t : Signature, s.Settled → t.Settled →
      (s.mangled = t.mangled ↔ s.byPosition.Same t.byPosition) := by
  refine ⟨fun a b => mangleType_eq_iff_sameType, fun s t hs ht hs' ht' => ?_,
    fun s t => Signature.mangled_eq_iff⟩
  rw [Signature.mangled_eq_iff hs ht, Signature.byPosition_of_closed hs',
    Signature.byPosition_of_closed ht']

example : mangleType (.nullable (.cls ⟨"N1_i", by decide, by decide⟩ [.array .int 3])) =
    "NC4_N1_i_G1_A3_i" := by decide

/-- A nullable array is not an array of nullable elements. -/
theorem nullable_array_name :
    mangleType (.nullable (.array .int 3)) ≠ mangleType (.array (.nullable .int) 3) := fun h =>
  absurd ((structural_names.1 (.nullable (.array .int 3)) (.array (.nullable .int) 3)
    ⟨trivial, trivial⟩ ⟨trivial, trivial⟩).mp h) (by decide)

end Loxis.Subtyping
