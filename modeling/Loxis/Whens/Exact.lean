import Loxis.Whens.Conds

/-! # When a when is right

An accepted `when` takes the first matching arm exactly under the condition, and misses no value of
an enum exactly if the check for this was made, or was not needed.
-/

namespace Loxis.Whens

open Backend (Value)
open Mono (Ty)
open Subtyping (sameType)
open Vm (Heap TAG_HEAP)

variable {E L : Type} {P : Program E L} {itof : BitVec 64 → BitVec 64}

section Defs

variable (P) (itof) (w : When E L)

/-- The value is one of the scrutinee's type. -/
def When.HasType (v : Value) (h : Heap) : Prop :=
  match w with
  | .over scrut _ => Whens.HasType P (P.type scrut) h v
  | .conds _ => True

/-- A `when` whose value is used has an arm for a value of an enum, unless it has an `else`. -/
def When.Covers (used : Bool) (v : Value) (h : Heap) : Prop :=
  match w with
  | .over scrut arms => used = true → ∀ d, P.enumOf (P.type scrut) = some d → d.HasValue h v →
      firstElse arms = none →
        ∃ a ∈ arms, ∃ p, a.condition = some p ∧ p.matches P (P.type scrut) h v = true
  | .conds _ => True

/-- The value's number has an arm that the check counts. -/
def Listed (ty : Ty) (arms : List (Arm (Pat L) E)) (v : Value) (h : Heap) : Prop :=
  arms.any Arm.coversEverything = true ∨
    ∃ i, load h v 0 = some (intValue i) ∧ i < noVariant ∧ arms.any (Arm.covers P ty i) = true

/-- The arms of a value that is used are all there if the `when` is in a place where the check is
made. -/
def When.Enforced (pos : Position) (used : Bool) (v : Value) (h : Heap) : Prop :=
  match w with
  | .over scrut arms => used = true → pos.valuePosition = true ∨
      ∀ d, P.enumOf (P.type scrut) = some d → d.HasValue h v → firstElse arms = none →
        Listed P (P.type scrut) arms v h
  | .conds _ => True

/-- The blocks do what they should, and a value that is used is not missed. -/
structure When.Meets (used : Bool) (ret v : Value) (h : Heap) : Prop where
  correct : w.Correct P itof ret v h
  covers : w.Covers P used v h

end Defs

section Check

variable {scrut : E} {arms : List (Arm (Pat L) E)} {pos : Position} {v : Value} {h : Heap} {ty : Ty}

theorem checkPat_of_checkWhen (hacc : checkWhen P pos (.over scrut arms) = []) :
    ∀ a ∈ arms, ∀ p, a.condition = some p → checkPat P (P.type scrut) p = [] := by
  intro a ha p hp
  simp only [checkWhen, List.append_eq_nil_iff, List.flatMap_eq_nil_iff] at hacc
  exact hacc.1.1.2 p (List.mem_filterMap.mpr ⟨a, ha, hp⟩)

theorem not_sameType_enum {l : L} {d : EnumDef} (hd : P.enumOf ty = some d) :
    sameType (P.litType l) ty = false := by
  have hl := P.literal l
  unfold Program.enumOf at hd
  split at hd
  · simp only [literalTypes, List.mem_cons, List.not_mem_nil, or_false] at hl
    rcases hl with h | h | h | h | h <;> rw [h] <;> rfl
  · simp only [literalTypes, List.mem_cons, List.not_mem_nil, or_false] at hl
    rcases hl with h | h | h | h | h <;> rw [h] <;> rfl
  · cases hd

/-- With a pattern that the check accepts, an arm matches a value of an enum exactly if the check
counts it. -/
theorem matches_iff {d : EnumDef} (hd : P.enumOf ty = some d) (hv : d.HasValue h v) {p : Pat L}
    (hp : checkPat P ty p = []) {b : E} :
    p.matches P ty h v = true ↔ Listed P ty [⟨some p, b⟩] v h := by
  obtain ⟨htag, k, var, hvar, hload, -⟩ := hv
  have hk : k < noVariant := (List.getElem?_eq_some_iff.mp hvar).1.trans_le d.small
  cases p with
  | wild | bind => exact iff_of_true rfl (.inl rfl)
  | lit l => simp [checkPat, not_sameType_enum hd] at hp
  | enum path elems =>
    simp only [Pat.matches, Listed, List.any_cons, List.any_nil, Bool.or_false,
      Arm.coversEverything, Arm.covers, Bool.false_eq_true, false_or, beq_iff_eq, variantIndex, hd,
      Option.bind_some]
    cases hf : d.find? path with
    | none =>
      refine iff_of_false (by simp) ?_
      rintro ⟨i, -, hi, rfl⟩
      exact absurd hi (lt_irrefl _)
    | some j =>
      simp only [decide_eq_true_eq, htag, true_and, Option.getD_some]
      constructor
      · intro hj
        exact ⟨j, hj, (EnumDef.find?_lt hf).trans_le d.small, rfl⟩
      · rintro ⟨i, hi, -, rfl⟩
        exact hi

theorem listed_cons {a : Arm (Pat L) E} :
    Listed P ty (a :: arms) v h ↔ Listed P ty [a] v h ∨ Listed P ty arms v h := by
  simp only [Listed, List.any_cons, List.any_nil, Bool.or_false, Bool.or_eq_true]
  constructor
  · rintro ((ha | has) | ⟨i, hi, hlt, ha | has⟩)
    · exact .inl (.inl ha)
    · exact .inr (.inl has)
    · exact .inl (.inr ⟨i, hi, hlt, ha⟩)
    · exact .inr (.inr ⟨i, hi, hlt, has⟩)
  · rintro ((ha | ⟨i, hi, hlt, ha⟩) | (has | ⟨i, hi, hlt, has⟩))
    · exact .inl (.inl ha)
    · exact .inr ⟨i, hi, hlt, .inl ha⟩
    · exact .inl (.inr has)
    · exact .inr ⟨i, hi, hlt, .inr has⟩

theorem exists_match_iff {d : EnumDef} (hd : P.enumOf ty = some d) (hv : d.HasValue h v)
    (hp : ∀ a ∈ arms, ∀ p, a.condition = some p → checkPat P ty p = [])
    (hne : ∀ a ∈ arms, a.condition.isSome = true) :
    (∃ a ∈ arms, ∃ p, a.condition = some p ∧ p.matches P ty h v = true) ↔ Listed P ty arms v h := by
  induction arms with
  | nil => simp [Listed]
  | cons a arms ih =>
    rw [listed_cons, ← ih (fun b hb => hp b (List.mem_cons_of_mem _ hb))
      fun b hb => hne b (List.mem_cons_of_mem _ hb)]
    obtain ⟨_ | p, b⟩ := a
    · cases hne _ List.mem_cons_self
    · rw [← matches_iff hd hv (hp _ List.mem_cons_self p rfl)]
      simp

/-- Where the check is made, every value of the enum is counted. -/
theorem listed_of_check {d : EnumDef} (hd : P.enumOf ty = some d) (hv : d.HasValue h v)
    (hpos : pos.valuePosition = true) (hacc : checkExhaustive P pos ty arms = []) :
    Listed P ty arms v h := by
  obtain ⟨-, k, var, hvar, hload, -⟩ := hv
  have hk : k < d.variants.length := (List.getElem?_eq_some_iff.mp hvar).1
  by_cases hall : arms.any Arm.coversEverything = true
  · exact .inl hall
  refine .inr ⟨k, hload, hk.trans_le d.small, ?_⟩
  simp only [checkExhaustive, hd, hpos, hall, Bool.not_false, Bool.and_self, if_true] at hacc
  by_contra hnot
  have hmem : var.name ∈ missing P ty d arms := by
    refine List.mem_map.mpr ⟨(var, k), List.mem_filter.mpr ⟨?_, by simp [hnot]⟩, rfl⟩
    exact List.mem_zipIdx_iff_getElem?.mpr hvar
  split_ifs at hacc with hnil
  rw [hnil] at hmem
  cases hmem

theorem isSome_of_firstElse {C : Type} {as : List (Arm C E)} (hne : firstElse as = none) :
    ∀ a ∈ as, a.condition.isSome = true := by
  intro a ha
  obtain ⟨i, hi⟩ := List.getElem?_of_mem ha
  have hfind : as.zipIdx.find? isElse = none := by
    unfold firstElse at hne
    exact Option.map_eq_none_iff.mp hne
  have := List.find?_eq_none.mp hfind (a, i) (List.mem_zipIdx_iff_getElem?.mpr hi)
  simpa [isElse, Option.isSome_iff_ne_none] using this

end Check

section Main

variable {w : When E L} {pos : Position} {used : Bool} {ret v : Value} {h : Heap}

theorem When.correct_iff_sound (hacc : checkWhen P pos w = []) (hty : w.HasType P v h) :
    w.Correct P itof ret v h ↔ w.Sound P itof ret v h := by
  rcases w with ⟨scrut, arms⟩ | ⟨arms⟩
  · have hchk := checkPat_of_checkWhen hacc
    exact ⟨SoundOver.of_correct hty hchk, SoundOver.correct hty hchk⟩
  · by_cases hne : arms = []
    · subst hne
      exact iff_of_true correct_nil (.inl rfl)
    · constructor
      · exact fun hc => .inr (SoundConds.of_correct hne hc)
      · rintro (rfl | hs)
        · exact correct_nil
        · exact hs.correct

theorem When.covers_iff_enforced (hacc : checkWhen P pos w = []) :
    w.Covers P used v h ↔ w.Enforced P pos used v h := by
  rcases w with ⟨scrut, arms⟩ | ⟨arms⟩
  · have hchk := checkPat_of_checkWhen hacc
    have hex : checkExhaustive P pos (P.type scrut) arms = [] := by
      simp only [checkWhen, List.append_eq_nil_iff] at hacc
      exact hacc.2
    constructor
    · intro hc hu
      refine .inr fun d hd hv hne => ?_
      exact (exists_match_iff hd hv hchk (isSome_of_firstElse hne)).mp (hc hu d hd hv hne)
    · intro he hu d hd hv hne
      refine (exists_match_iff hd hv hchk (isSome_of_firstElse hne)).mpr ?_
      rcases he hu with hpos | hlisted
      · exact listed_of_check hd hv hpos hex
      · exact hlisted d hd hv hne
  · exact iff_of_true trivial trivial

end Main

/-! ## A literal that matches everything -/

section Sample

/-- Expressions and literals are numbers. -/
def sample : Program ℕ ℕ where
  errors _ := []
  type _ := .int
  uses _ := []
  binds _ := []
  litType _ := .int
  litIs l v := v = intValue l
  enums _ := none
  decls := []
  text _ := "int"
  literal _ := by simp [literalTypes]

/-- One arm for a number, and one for the others. -/
def sampleWhen : When ℕ ℕ := .over 0 [⟨some (.lit 1), 1⟩, ⟨none, 2⟩]

theorem sample_accepted : checkWhen sample ⟨true, 0⟩ sampleWhen = [] := by
  simp [checkWhen, sampleWhen, sample, checkPat, checkBodies, checkExhaustive, Program.enumOf,
    sameType]

theorem sample_hasType (v : Value) : sampleWhen.HasType sample v Heap.new := by
  intro d hd
  cases hd

end Sample

end Loxis.Whens
