import Loxis.Subtyping.Laws
import Loxis.Subtyping.Supertypes

/-! # When the subtype test is right

The test agrees with the declared subtypes up to nullability, the type arguments of supertypes and
the supertypes that are listed, and each of these is a condition on a pair of types.
-/

namespace Loxis.Subtyping

open Relation (ReflTransGen)
open Mono (Ident Ty)
open Ty (isNullable unwrapNullable)

variable {H : Hierarchy} {a b c : Ty} {x y : Instance}

/-! ## The condition -/

/-- What the test finds by following names. -/
def ByName (H : Hierarchy) : Ty → Ty → Prop
  | .cls c _, .cls d _ => ReflTransGen H.SuperClass c d
  | .iface i _, .iface j _ => Listed H.decls i j
  | .cls c _, .iface j _ => Listed H.decls c j
  | _, _ => False

/-- What the declarations say of two classes or interfaces. -/
def Declared (H : Hierarchy) (a b : Ty) : Prop :=
  ∃ x y, instanceOf a = some x ∧ instanceOf b = some y ∧ H.Ancestor x y

@[mk_iff]
structure RestAgrees (H : Hierarchy) (a b : Ty) : Prop where
  never : unwrapNullable a = .never → isNullable a → isNullable b
  /-- No name leads from a nullable type to one that is not. -/
  lost : isNullable a → isNullable b = false → ¬ ByName H (unwrapNullable a) (unwrapNullable b)
  /-- A nullable type is not that of a proper supertype. -/
  gained : isNullable a = false → isNullable b →
    Declared H (unwrapNullable a) (unwrapNullable b) → unwrapNullable a = unwrapNullable b
  /-- A supertype that is found by name has the type arguments that the declarations give it. -/
  args : isNullable a = isNullable b → ByName H (unwrapNullable a) (unwrapNullable b) →
    Declared H (unwrapNullable a) (unwrapNullable b)
  /-- A proper supertype is listed. -/
  listed : isNullable a = isNullable b → Declared H (unwrapNullable a) (unwrapNullable b) →
    unwrapNullable a = unwrapNullable b ∨ ByName H (unwrapNullable a) (unwrapNullable b)

/-- Arrays are as good as their elements, and a nullable array where these are not. -/
def Agrees (H : Hierarchy) (a b : Ty) : Prop :=
  match a, b with
  | .array e n, .array f m
  | .array e n, .nullable (.array f m)
  | .nullable (.array e n), .nullable (.array f m) => m = 0 ∨ n = m → Agrees H e f
  | .nullable (.array e n), .array f m => m = 0 ∨ n = m → (Sub H e f ↔ ¬ Agrees H e f)
  | a, b => RestAgrees H a b

/-! ## Equal types -/

theorem Ground.isError (h : Ground H a) : Ty.isError a = false := by
  fun_cases Ty.isError a with
  | case1 => exact h.elim
  | case2 => exact h.2.elim
  | case3 => rfl

mutual

theorem sameType_iff {a b : Ty} (ha : Ground H a) (hb : Ground H b) :
    sameType a b = true ↔ a = b := by
  have ha' := ha.isError
  have hb' := hb.isError
  cases a with
  | never | unit | bool | char | int | long | float | double | str | null =>
    cases b <;> simp [sameType, ha', hb']
  | infer | tuple | slice | ref | rawPtr | adt | param | projection | error => exact ha.elim
  | fn ps r =>
    cases b with
    | fn qs s => simp [sameType, ha', hb', sameTypes_iff ha.1 hb.1, sameType_iff ha.2 hb.2]
    | _ => simp [sameType, ha', hb']
  | array e n =>
    cases b with
    | array f m =>
      have he : Ground H e := ha
      have hf : Ground H f := hb
      simp [sameType, ha', hb', sameType_iff he hf, and_comm]
    | _ => simp [sameType, ha', hb']
  | cls c ts =>
    cases b with
    | cls d us => simp [sameType, ha', hb', sameTypes_iff ha.2 hb.2]
    | _ => simp [sameType, ha', hb']
  | iface c ts =>
    cases b with
    | iface d us => simp [sameType, ha', hb', sameTypes_iff ha.2 hb.2]
    | _ => simp [sameType, ha', hb']
  | nullable t =>
    cases b with
    | nullable u => simp [sameType, ha', hb', sameType_iff ha.2 hb.2]
    | _ => simp [sameType, ha', hb']

theorem sameTypes_iff {as bs : List Ty} (ha : GroundEach H as) (hb : GroundEach H bs) :
    sameTypes as bs = true ↔ as = bs := by
  cases as with
  | nil => cases bs <;> simp [sameTypes]
  | cons a as =>
    cases bs with
    | nil => simp [sameTypes]
    | cons b bs => simp [sameTypes, sameType_iff ha.1 hb.1, sameTypes_iff ha.2 hb.2]

end

/-! ## Declared subtypes -/

theorem isNullable_unwrap (h : Ground H a) : isNullable (unwrapNullable a) = false := by
  cases a with
  | nullable t => exact h.1
  | _ => rfl

theorem unwrap_of_not (h : isNullable a = false) : unwrapNullable a = a := by
  cases a with
  | nullable => cases h
  | _ => rfl

theorem eq_nullable (h : isNullable a = true) : a = .nullable (unwrapNullable a) := by
  cases a with
  | nullable => rfl
  | _ => cases h

theorem eq_or_nullable (h : unwrapNullable a = b) : a = b ∨ a = .nullable b := by
  cases ha : isNullable a with
  | true => exact .inr ((eq_nullable ha).trans (congrArg _ h))
  | false => exact .inl ((unwrap_of_not ha).symm.trans h)

theorem eq_iff_unwrap :
    a = b ↔ isNullable a = isNullable b ∧ unwrapNullable a = unwrapNullable b := by
  constructor
  · rintro rfl
    exact ⟨rfl, rfl⟩
  · rintro ⟨hn, hu⟩
    cases ha : isNullable a with
    | true => exact (eq_nullable ha).trans ((congrArg _ hu).trans (eq_nullable (hn ▸ ha)).symm)
    | false => exact (unwrap_of_not ha).symm.trans (hu.trans (unwrap_of_not (hn ▸ ha)))

theorem sub_nullable (hb : isNullable b = false) :
    Sub H a (.nullable b) ↔ unwrapNullable a = .null ∨ Sub H (unwrapNullable a) b := by
  constructor
  · intro h
    cases h with
    | refl => exact .inr (.refl _)
    | never => exact .inr (.never _)
    | null | nullableNull => exact .inl rfl
    | super _ hy => cases hy
    | toNullable h =>
      cases ha : isNullable a with
      | true => rw [h.nullSafe ha] at hb; cases hb
      | false => exact .inr ((unwrap_of_not ha).symm ▸ h)
    | nullable h => exact .inr h
  · intro h
    cases ha : isNullable a with
    | true =>
      rw [eq_nullable ha]
      rcases h with h | h
      · exact h ▸ .nullableNull _
      · exact h.nullable
    | false =>
      rw [unwrap_of_not ha] at h
      rcases h with rfl | h
      · exact .null _
      · exact h.toNullable

theorem sub_iff (hb : Ground H b) : Sub H a b ↔
    (isNullable a → isNullable b) ∧
      (unwrapNullable a = .null ∧ isNullable b ∨ Sub H (unwrapNullable a) (unwrapNullable b)) := by
  cases hn : isNullable b with
  | true =>
    rw [eq_nullable hn, sub_nullable (isNullable_unwrap hb)]
    simp [unwrapNullable]
  | false =>
    rw [unwrap_of_not hn]
    constructor
    · intro h
      have ha : isNullable a = false := by
        by_contra ha
        have := h.nullSafe (by simpa using ha)
        simp [hn] at this
      rw [unwrap_of_not ha]
      exact ⟨by simp [ha], .inr h⟩
    · rintro ⟨ha, h⟩
      have ha : isNullable a = false := by simpa using ha
      rw [unwrap_of_not ha] at h
      simpa using h

/-- Arrays apart, types that are not nullable are related by their declarations. -/
theorem sub_declared (hb : isNullable b = false)
    (harray : ∀ e n f m, a = .array e n → b = .array f m → False) :
    Sub H a b ↔ a = b ∨ a = .never ∨ Declared H a b := by
  constructor
  · intro h
    cases h with
    | refl => exact .inl rfl
    | never => exact .inr (.inl rfl)
    | null | nullableNull | toNullable | nullable => cases hb
    | array => exact (harray _ _ _ _ rfl rfl).elim
    | super hx hy hanc => exact .inr (.inr ⟨_, _, hx, hy, hanc⟩)
  · rintro (rfl | rfl | ⟨x, y, hx, hy, hanc⟩)
    · exact .refl _
    · exact .never _
    · exact .super hx hy hanc

theorem sub_array {e f : Ty} {n m : ℕ} :
    Sub H (.array e n) (.array f m) ↔ (m = 0 ∨ n = m) ∧ Sub H e f := by
  constructor
  · intro h
    cases h with
    | refl => exact ⟨.inr rfl, .refl _⟩
    | array hlen h => exact ⟨hlen, h⟩
    | super hx => cases hx
  · rintro ⟨hlen, h⟩
    exact .array hlen h

/-! ## The test -/

theorem classNames_iff {i j : Ident} (hi : H.IsClass i) :
    j ∈ (((build H.decls).classDef i).map ClassDef.interfaceNames).getD [] ↔
      Listed H.decls i j := by
  obtain ⟨d, hd, rfl, hkind⟩ := hi
  obtain ⟨sym, hsym, hclass⟩ := build_isClass H.names hd
  rw [← mem_names_iff hd, Scope.names, Scope.classDef, hsym]
  cases sym with
  | cls => rfl
  | iface => cases hclass.mpr hkind

theorem interfaceNames_iff {i j : Ident} (hi : H.IsInterface i) :
    j ∈ (((build H.decls).interfaceDef i).map InterfaceDef.superNames).getD [] ↔
      Listed H.decls i j := by
  obtain ⟨d, hd, rfl, hkind⟩ := hi
  obtain ⟨sym, hsym, hclass⟩ := build_isClass H.names hd
  rw [← mem_names_iff hd, Scope.names, Scope.interfaceDef, hsym]
  cases sym with
  | cls => exact absurd hkind (hclass.mp rfl)
  | iface => rfl

theorem namesSubtype_iff (ha : Ground H a) (hb : Ground H b) :
    namesSubtype H.decls a b = true ↔ ByName H a b := by
  cases a with
  | cls c as =>
    cases b with
    | cls e bs =>
      obtain ⟨⟨d, hd, rfl, -⟩, -⟩ := ha
      exact decide_eq_true_iff.trans (mem_superChain_iff hd)
    | iface j bs => exact decide_eq_true_iff.trans (classNames_iff ha.1)
    | _ => simp [namesSubtype, ByName]
  | iface i as =>
    cases b with
    | iface j bs => exact decide_eq_true_iff.trans (interfaceNames_iff ha.1)
    | _ => simp [namesSubtype, ByName]
  | _ => simp [namesSubtype, ByName]

theorem Ground.unwrap (h : Ground H a) : Ground H (unwrapNullable a) := by
  cases a with
  | nullable => exact h.2
  | _ => exact h

theorem Ground.isParam (h : Ground H a) : isParam a = false := by
  cases a with
  | param => exact h.elim
  | _ => rfl

theorem isNever_iff : isNever a = true ↔ a = .never := by
  cases a <;> simp [isNever]

theorem isNull_iff : isNull a = true ↔ a = .null := by
  cases a <;> simp [isNull]

theorem isSubtypeRest_iff (ha : Ground H a) (hb : Ground H b) :
    isSubtypeRest H.decls a b = true ↔ unwrapNullable a = .never ∨
      (unwrapNullable a = .null ∧ isNullable b) ∨
      (isNullable b ∧ isNullable a = false ∧ unwrapNullable a = unwrapNullable b) ∨
      ¬ (isNullable b ∧ isNullable a = false) ∧
        ByName H (unwrapNullable a) (unwrapNullable b) := by
  have hnames := namesSubtype_iff ha.unwrap hb.unwrap
  have hsame := sameType_iff ha.unwrap hb.unwrap
  rw [← isNever_iff, ← isNull_iff, ← hnames, ← hsame, isSubtypeRest, ha.unwrap.isParam,
    hb.unwrap.isParam]
  cases isNever (unwrapNullable a) <;> cases isNull (unwrapNullable a) <;> cases isNullable b <;>
    cases isNullable a <;> simp

/-- What is found by name has a class or an interface on both sides. -/
theorem ByName.instance (h : ByName H a b) :
    (∃ x, instanceOf a = some x) ∧ ∃ y, instanceOf b = some y := by
  cases a with
  | cls | iface =>
    cases b with
    | cls | iface => exact ⟨⟨_, rfl⟩, _, rfl⟩
    | _ => exact h.elim
  | _ => exact h.elim

/-- The test and the declarations, by the nullability of the two types. -/
theorem rest_cases {n m : Bool} {never null eq names declared : Prop}
    (hnames : names → ¬ never ∧ ¬ null) (hdeclared : declared → ¬ never ∧ ¬ null)
    (heq : names → eq → declared) :
    ((n = m ∧ eq ∨ never ∨ (null ∧ m) ∨ (m ∧ n = false ∧ eq) ∨ ¬ (m ∧ n = false) ∧ names) ↔
        (n → m) ∧ (null ∧ m ∨ eq ∨ never ∨ declared)) ↔
      (never → n → m) ∧ (n → m = false → ¬ names) ∧ (n = false → m → declared → eq) ∧
        (n = m → names → declared) ∧ (n = m → declared → eq ∨ names) := by
  cases n <;> cases m <;> grind

theorem ne_of_instance (h : ∃ x, instanceOf a = some x) : ¬ a = .never ∧ ¬ a = .null := by
  obtain ⟨x, hx⟩ := h
  constructor <;> rintro rfl <;> cases hx

/-- The test behind the one for arrays. -/
theorem rest_iff (ha : Ground H a) (hb : Ground H b)
    (harray : ∀ e n f m, unwrapNullable a = .array e n → unwrapNullable b = .array f m → False) :
    ((a = b ∨ isSubtypeRest H.decls a b = true) ↔ Sub H a b) ↔ RestAgrees H a b := by
  rw [isSubtypeRest_iff ha hb, sub_iff hb, sub_declared (isNullable_unwrap hb) harray,
    eq_iff_unwrap, restAgrees_iff]
  apply rest_cases
  · exact fun h => ne_of_instance h.instance.1
  · exact fun ⟨x, _, hx, _⟩ => ne_of_instance ⟨x, hx⟩
  · intro h heq
    obtain ⟨x, hx⟩ := h.instance.1
    exact ⟨x, x, hx, heq ▸ hx, .refl⟩

/-! ## Arrays -/

theorem isSubtype_self (ha : Ground H a) : isSubtype H.decls a a = true := by
  have hsame := (sameType_iff ha ha).mpr rfl
  unfold isSubtype
  rw [hsame, Bool.true_or]

section Arrays

variable {e f : Ty} {n m : ℕ}

/-- Whether or not they are nullable, arrays are compared by their elements. -/
theorem isSubtype_arrays (he : Ground H e) (ha : Ground H a) (hb : Ground H b)
    (hab : a = b → n = m ∧ e = f)
    (h : isSubtype H.decls a b =
      (sameType a b || (m == 0 || n == m) && isSubtype H.decls e f)) :
    isSubtype H.decls a b = true ↔ (m = 0 ∨ n = m) ∧ isSubtype H.decls e f = true := by
  rw [h, Bool.or_eq_true, sameType_iff ha hb, Bool.and_eq_true, Bool.or_eq_true, beq_iff_eq,
    beq_iff_eq]
  constructor
  · rintro (h | h)
    · obtain ⟨rfl, rfl⟩ := hab h
      exact ⟨.inr rfl, isSubtype_self he⟩
    · exact h
  · exact .inr

theorem arrays_agree (hagree : (isSubtype H.decls e f = true ↔ Sub H e f) ↔ Agrees H e f)
    (htest : isSubtype H.decls a b = true ↔ (m = 0 ∨ n = m) ∧ isSubtype H.decls e f = true)
    (hsub : Sub H a b ↔ (m = 0 ∨ n = m) ∧ Sub H e f) :
    (isSubtype H.decls a b = true ↔ Sub H a b) ↔ (m = 0 ∨ n = m → Agrees H e f) := by
  rw [htest, hsub, ← hagree]
  exact and_congr_right_iff

end Arrays

/-! ## The test on all types -/

/-- By induction on the elements of arrays. -/
theorem agrees_iff (ha : Ground H a) (hb : Ground H b) :
    (isSubtype H.decls a b = true ↔ Sub H a b) ↔ Agrees H a b := by
  fun_induction Agrees H a b with
  | case1 e n f m ih =>
    have he : Ground H e := ha
    have htest : isSubtype H.decls (.array e n) (.array f m) = true ↔
        (m = 0 ∨ n = m) ∧ isSubtype H.decls e f = true :=
      isSubtype_arrays he ha hb (by rintro ⟨⟩; exact ⟨rfl, rfl⟩) (by rw [isSubtype])
    exact arrays_agree (ih he hb) htest sub_array
  | case2 e n f m ih =>
    have he : Ground H e := ha
    have htest : isSubtype H.decls (.array e n) (.nullable (.array f m)) = true ↔
        (m = 0 ∨ n = m) ∧ isSubtype H.decls e f = true :=
      isSubtype_arrays he ha hb nofun (by rw [isSubtype])
    apply arrays_agree (ih he hb.2) htest
    rw [sub_nullable rfl]
    simp [unwrapNullable, sub_array]
  | case3 e n f m ih =>
    have htest : isSubtype H.decls (.nullable (.array e n)) (.nullable (.array f m)) = true ↔
        (m = 0 ∨ n = m) ∧ isSubtype H.decls e f = true :=
      isSubtype_arrays ha.2 ha hb (by rintro ⟨⟩; exact ⟨rfl, rfl⟩) (by rw [isSubtype])
    apply arrays_agree (ih ha.2 hb.2) htest
    rw [sub_nullable rfl]
    simp [unwrapNullable, sub_array]
  | case4 e n f m ih =>
    have htest : isSubtype H.decls (.nullable (.array e n)) (.array f m) = true ↔
        (m = 0 ∨ n = m) ∧ isSubtype H.decls e f = true :=
      isSubtype_arrays ha.2 ha hb nofun (by rw [isSubtype])
    have hsub : ¬ Sub H (.nullable (.array e n)) (.array f m) := fun h => nomatch h.nullSafe rfl
    have hagree := ih ha.2 hb
    rw [htest, iff_false_right hsub, not_and]
    exact imp_congr_right fun _ => by grind
  | case5 a b h₁ h₂ h₃ h₄ =>
    have htest : isSubtype H.decls a b = (sameType a b || isSubtypeRest H.decls a b) :=
      isSubtype.eq_5 _ _ _ h₁ h₂ h₄ h₃
    rw [htest, Bool.or_eq_true, sameType_iff ha hb]
    apply rest_iff ha hb
    intro e n f m hea hfb
    rcases eq_or_nullable hea with ha' | ha' <;> rcases eq_or_nullable hfb with hb' | hb'
    · exact h₁ _ _ _ _ ha' hb'
    · exact h₂ _ _ _ _ ha' hb'
    · exact h₄ _ _ _ _ ha' hb'
    · exact h₃ _ _ _ _ ha' hb'

/-! ## The main result -/

/-- The test agrees with a sound preorder of the types just where the condition holds, and is one
itself on types that the condition holds of. -/
theorem isSubtype_sound_iff (H : Hierarchy) :
    Sound H (Ground H) (Sub H) ∧
      (∀ a b, Ground H a → Ground H b →
        ((isSubtype H.decls a b = true ↔ Sub H a b) ↔ Agrees H a b)) ∧
      ∀ P : Ty → Prop, (∀ a, P a → Ground H a) → (∀ a b, P a → P b → Agrees H a b) →
        Sound H P fun a b => isSubtype H.decls a b = true := by
  refine ⟨sub_sound _, fun _ _ => agrees_iff, ?_⟩
  intro P hground hagrees
  apply (sub_sound P).congr
  intro a b ha hb
  exact (agrees_iff (hground a ha) (hground b hb)).mpr (hagrees a b ha hb)

/-! ## A class and a subclass -/

def animal : Ident := ⟨"Animal", by decide, by decide⟩

def dog : Ident := ⟨"Dog", by decide, by decide⟩

/-- `open class Animal` and `class Dog : Animal()` -/
def pets : Hierarchy where
  decls := [⟨animal, .cls none, [], []⟩, ⟨dog, .cls (some (animal, [])), [], []⟩]
  names := by decide
  superClasses := by
    intro d hd s args h
    simp only [List.mem_cons, List.not_mem_nil, or_false] at hd
    rcases hd with rfl | rfl <;> cases h
    exact ⟨_, .head _, rfl, nofun⟩
  interfaces := by
    intro d hd x hx
    simp only [List.mem_cons, List.not_mem_nil, or_false] at hd
    rcases hd with rfl | rfl <;> cases hx
  acyclic := by
    refine ⟨fun i => if i = dog then 1 else 0, ?_⟩
    intro d hd x hx
    simp only [List.mem_cons, List.not_mem_nil, or_false] at hd
    rcases hd with rfl | rfl
    · cases hx
    · obtain rfl := List.mem_singleton.mp hx
      decide

theorem ground_animal : Ground pets (.cls animal []) := ⟨⟨_, .head _, rfl, nofun⟩, trivial⟩

theorem ground_dog : Ground pets (.cls dog []) := ⟨⟨_, .tail _ (.head _), rfl, nofun⟩, trivial⟩

/-- A dog is an animal, and an animal an animal or null, but a dog is not an animal or null. -/
theorem pets_not_sound :
    ¬ Sound pets (Ground pets) fun a b => isSubtype pets.decls a b = true := by
  intro h
  have hdog : isSubtype pets.decls (.cls dog []) (.nullable (.cls animal [])) = true :=
    h.trans _ (.cls animal []) _ ground_dog ground_animal ⟨rfl, ground_animal⟩ (by decide)
      (by decide)
  revert hdog
  decide

theorem pets_super {x y : Instance} : pets.Super x y ↔ x.1 = dog ∧ y = (animal, []) := by
  constructor
  · rintro ⟨d, hd, hname, z, hz, rfl⟩
    simp only [pets, List.mem_cons, List.not_mem_nil, or_false] at hd
    rcases hd with rfl | rfl
    · cases hz
    · obtain rfl := List.mem_singleton.mp hz
      exact ⟨hname.symm, rfl⟩
  · rintro ⟨hname, rfl⟩
    exact ⟨_, .tail _ (.head _), hname.symm, _, .head _, rfl⟩

theorem pets_superClass {c s : Ident} : pets.SuperClass c s ↔ c = dog ∧ s = animal := by
  constructor
  · rintro ⟨d, hd, rfl, args, hkind⟩
    simp only [pets, List.mem_cons, List.not_mem_nil, or_false] at hd
    rcases hd with rfl | rfl <;> cases hkind
    exact ⟨rfl, rfl⟩
  · rintro ⟨rfl, rfl⟩
    exact ⟨_, .tail _ (.head _), rfl, _, rfl⟩

theorem isSubtype_sound_iff_pets :
    ((isSubtype pets.decls (.cls dog []) (.cls animal []) = true ↔
        Sub pets (.cls dog []) (.cls animal [])) ↔
      Agrees pets (.cls dog []) (.cls animal [])) ∧
    Sound pets (fun a => a = .cls dog [] ∨ a = .cls animal [])
      fun a b => isSubtype pets.decls a b = true := by
  refine ⟨(isSubtype_sound_iff pets).2.1 _ _ ground_dog ground_animal, ?_⟩
  apply (isSubtype_sound_iff pets).2.2
  · rintro a (rfl | rfl)
    · exact ground_dog
    · exact ground_animal
  · have hself : ∀ c, Agrees pets (.cls c []) (.cls c []) := fun c =>
      ⟨nofun, nofun, nofun, fun _ _ => ⟨_, _, rfl, rfl, .refl⟩, fun _ _ => .inl rfl⟩
    have hdog : Agrees pets (.cls dog []) (.cls animal []) :=
      ⟨nofun, nofun, nofun,
        fun _ _ => ⟨_, _, rfl, rfl, .single (pets_super.mpr ⟨rfl, rfl⟩)⟩,
        fun _ _ => .inr (.single (pets_superClass.mpr ⟨rfl, rfl⟩))⟩
    have hne : animal ≠ dog := by decide
    have hanimal : Agrees pets (.cls animal []) (.cls dog []) := by
      refine ⟨nofun, nofun, nofun, fun _ h => ?_, fun _ h => ?_⟩
      · rcases h.cases_head with h | ⟨c, h, -⟩
        · exact absurd h hne
        · exact absurd (pets_superClass.mp h).1 hne
      · obtain ⟨x, y, ⟨⟩, ⟨⟩, h⟩ := h
        rcases h.cases_head with h | ⟨z, h, -⟩
        · exact absurd (congrArg Prod.fst h) hne
        · exact absurd (pets_super.mp h).1 hne
    rintro a b (rfl | rfl) (rfl | rfl)
    · exact hself _
    · exact hdog
    · exact hanimal
    · exact hself _

end Loxis.Subtyping
