import Loxis.TypeTest.Table

/-! # When type tests are exact

The test climbs from a value's id over plain classes. It is exact where that is how far the
instance relation goes.
-/

namespace Loxis.TypeTest

open Program
open Mono (Ident Ty makeSubst substEach)

variable {p : Program} {i j : ℕ} {x y z : ℕ × List Ty} {mid mid' : List ℕ} {v : Value}
  {t : Target}

/-! ## The hierarchy -/

theorem lookup_lt {decls : List Decl} {name : Ident} (h : lookup decls name = some i) :
    i < decls.length := by
  obtain ⟨hlt, -⟩ := List.findIdx?_eq_some_iff_getElem.mp h
  exact hlt

theorem superDef_lt {d : Decl} (h : superDef p.decls d = some i) : i < p.decls.length := by
  obtain ⟨_, -, hlookup⟩ := Option.bind_eq_some_iff.mp h
  exact lookup_lt hlookup

theorem Program.Extends.superDef (h : p.Extends x y) :
    ∃ d, p.decls[x.1]? = some d ∧ superDef p.decls d = some y.1 := by
  obtain ⟨d, name, typeArgs, hd, hsuper, hlookup, -⟩ := h
  refine ⟨d, hd, ?_⟩
  rw [TypeTest.superDef, hsuper]
  exact hlookup

theorem Program.extends_of_superDef {d : Decl} (hd : p.decls[i]? = some d)
    (hsuper : superDef p.decls d = some j) (typeArgs : List Ty) :
    ∃ args, p.Extends (i, typeArgs) (j, args) := by
  obtain ⟨⟨name, args⟩, hsome, hlookup⟩ := Option.bind_eq_some_iff.mp hsuper
  exact ⟨_, d, name, args, hd, hsome, hlookup, rfl⟩

theorem Program.Extends.unique (h : p.Extends x y) (h' : p.Extends x z) : y = z := by
  obtain ⟨d, name, typeArgs, hd, hsuper, hlookup, hargs⟩ := h
  obtain ⟨d', name', typeArgs', hd', hsuper', hlookup', hargs'⟩ := h'
  cases hd.symm.trans hd'
  cases hsuper.symm.trans hsuper'
  exact Prod.ext (Option.some.inj (hlookup.symm.trans hlookup')) (hargs.trans hargs'.symm)

section Rank

variable {rank : ℕ → ℕ} (hrank : ∀ i d s, p.decls[i]? = some d → superDef p.decls d = some s →
  rank s < rank i)

include hrank

theorem Program.Path.rank_lt (h : p.Path x mid y) : rank y.1 < rank x.1 := by
  induction h with
  | super h =>
    obtain ⟨d, hd, hsuper⟩ := h.superDef
    exact hrank _ d _ hd hsuper
  | step h _ ih =>
    obtain ⟨d, hd, hsuper⟩ := h.superDef
    exact Nat.lt_trans ih (hrank _ d _ hd hsuper)

/-- A chain comes by a declaration once. -/
theorem Program.Path.unique (h : p.Path x mid y) (h' : p.Path x mid' z) (heq : y.1 = z.1) :
    mid = mid' ∧ y = z := by
  induction h generalizing mid' with
  | super h =>
    cases h' with
    | super h' => exact ⟨rfl, h.unique h'⟩
    | step h' hpath =>
      have hlt := hpath.rank_lt hrank
      rw [h.unique h', heq] at *
      exact absurd hlt (Nat.lt_irrefl _)
  | step h hpath ih =>
    cases h' with
    | super h' =>
      have hlt := hpath.rank_lt hrank
      rw [h.unique h', heq] at hlt
      exact absurd hlt (Nat.lt_irrefl _)
    | step h' hpath' =>
      obtain rfl := h.unique h'
      obtain ⟨rfl, heq⟩ := ih hpath' heq
      exact ⟨rfl, heq⟩

end Rank

/-! ## What the test sees -/

/-- From the id of a declaration the test comes to that of another. -/
inductive Program.Sees (p : Program) (j : ℕ) : ℕ → Prop
  | self : Sees p j j
  | up {i s : ℕ} {d : Decl} : p.PlainClass i → p.decls[i]? = some d →
      superDef p.decls d = some s → Sees p j s → Sees p j i

/-- From the superclass, over plain classes. -/
def Program.SeesAbove (p : Program) (j : ℕ) (x : ℕ × List Ty) : Prop :=
  ∃ mid y, p.Path x mid y ∧ y.1 = j ∧ ∀ m ∈ mid, p.PlainClass m

theorem Program.Sees.above (h : p.Sees j i) (hext : p.Extends x (i, z.2)) : p.SeesAbove j x := by
  induction h generalizing x z with
  | self => exact ⟨[], _, .super hext, rfl, nofun⟩
  | @up i s d hplain hd hsuper _ ih =>
    obtain ⟨args, hnext⟩ := extends_of_superDef hd hsuper z.2
    obtain ⟨mid, y, hpath, hy, hmid⟩ := ih (z := (s, args)) hnext
    refine ⟨i :: mid, y, .step hext hpath, hy, ?_⟩
    rintro m (_ | ⟨_, hm⟩)
    · exact hplain
    · exact hmid m hm

theorem Program.Path.sees (h : p.Path x mid y) (hmid : ∀ m ∈ mid, p.PlainClass m) :
    ∃ s d, p.decls[x.1]? = some d ∧ superDef p.decls d = some s ∧ p.Sees y.1 s := by
  induction h with
  | super h =>
    obtain ⟨d, hd, hsuper⟩ := h.superDef
    exact ⟨_, d, hd, hsuper, .self⟩
  | step h _ ih =>
    obtain ⟨d, hd, hsuper⟩ := h.superDef
    obtain ⟨s, d', hd', hsuper', hsees⟩ := ih fun m hm => hmid m (.tail _ hm)
    exact ⟨_, d, hd, hsuper, .up (hmid _ (.head _)) hd' hsuper' hsees⟩

theorem Program.seesAbove_iff {d : Decl} (hd : p.decls[x.1]? = some d) :
    p.SeesAbove j x ↔ ∃ s, superDef p.decls d = some s ∧ p.Sees j s := by
  constructor
  · rintro ⟨mid, y, hpath, rfl, hmid⟩
    obtain ⟨s, d', hd', hsuper, hsees⟩ := hpath.sees hmid
    cases hd.symm.trans hd'
    exact ⟨s, hsuper, hsees⟩
  · rintro ⟨s, hsuper, hsees⟩
    obtain ⟨args, hext⟩ := extends_of_superDef hd hsuper x.2
    exact hsees.above (z := (s, args)) hext

theorem Program.sees_iff (typeArgs : List Ty) :
    p.Sees j i ↔ i = j ∨ p.PlainClass i ∧ p.SeesAbove j (i, typeArgs) := by
  constructor
  · intro h
    cases h with
    | self => exact .inl rfl
    | up hplain hd hsuper h => exact .inr ⟨hplain, (seesAbove_iff hd).mpr ⟨_, hsuper, h⟩⟩
  · rintro (rfl | ⟨hplain, habove⟩)
    · exact .self
    · obtain ⟨d, hd, -⟩ := id hplain
      obtain ⟨s, hsuper, hsees⟩ := (seesAbove_iff hd).mp habove
      exact .up hplain hd hsuper hsees

/-- The value is an instance of a specialisation. -/
def Program.Specialised (p : Program) (v : Value) : Prop :=
  ∃ k i typeArgs, v = .made k ∧ p.emitted[k]? = some (.spec i typeArgs)

/-! ## Runs of the test -/

section Runs

variable (hwf : p.WellFormed) (hids : p.IdsCondition)

include hids in
/-- The test from a class's parent goes on with the superclass. -/
theorem isA_parent {d : Decl} (hkind : d.kind = .cls)
    (ih : ∀ s, superDef p.decls d = some s →
      ∃ fuel b, isA p.typeParents j fuel s = some b ∧ (b = true ↔ p.Sees j s)) :
    ∃ fuel b, isA p.typeParents j (fuel + 1) (buildItem p.decls i d).parentTypeId = some b ∧
      (b = true ↔ ∃ s, superDef p.decls d = some s ∧ p.Sees j s) := by
  have hparent : (buildItem p.decls i d).parentTypeId =
      (superDef p.decls d).elim noTypeId declaredId := by
    rw [buildItem, hkind]
    rfl
  rw [hparent]
  cases hsuper : superDef p.decls d with
  | none => exact ⟨0, false, isA_missing, by simp⟩
  | some s =>
    obtain ⟨fuel, b, hrun, hb⟩ := ih s hsuper
    have hlt := superDef_lt hsuper
    have hbounded := hids.bounded
    have hrange := noTypeId_lt
    cases fuel with
    | zero => cases hrun
    | succ fuel =>
      refine ⟨fuel, b, ?_, by simpa using hb⟩
      rw [Option.elim, declaredId_of_lt (by omega)]
      exact hrun

include hwf hids

theorem isA_declared (hi : i < p.decls.length) :
    ∃ fuel b, isA p.typeParents j fuel i = some b ∧ (b = true ↔ p.Sees j i) := by
  obtain ⟨rank, hrank⟩ := hwf.acyclic
  induction hr : rank i using Nat.strong_induction_on generalizing i with
  | h r ih =>
    have hbounded := hids.bounded
    have hmissing : i ≠ noTypeId := by omega
    obtain ⟨d, hd⟩ : ∃ d, p.decls[i]? = some d := ⟨_, List.getElem?_eq_getElem hi⟩
    by_cases hij : i = j
    · subst hij
      exact ⟨1, true, by rw [isA, if_neg hmissing, if_pos rfl], by simpa using .self⟩
    by_cases hplain : d.kind = .cls ∧ d.generics = []
    · obtain ⟨fuel, b, hrun, hb⟩ := isA_parent hids hplain.1 fun s hsuper =>
        ih _ (hr ▸ hrank i d s hd hsuper) (superDef_lt hsuper) rfl
      have hcopy := parentAt_copy hwf hids hd hplain.2 (by simp [hplain.1])
      refine ⟨fuel + 2, b, by rw [isA_succ hmissing hij, hcopy, hrun], hb.trans ?_⟩
      rw [sees_iff [], seesAbove_iff hd]
      simp only [hij, false_or]
      exact ⟨fun h => ⟨⟨d, hd, hplain⟩, h⟩, And.right⟩
    · -- the table has no parent for the declaration
      have hnone : parentAt p.typeParents i = noTypeId := by
        by_cases htemplate : d.generics ≠ [] ∨ d.kind = .enum
        · exact parentAt_template hwf hids hd htemplate
        · simp only [ne_eq, not_or, not_not] at htemplate
          have hobject : d.kind = .object := by
            cases hkind : d.kind with
            | cls => exact absurd ⟨hkind, htemplate.1⟩ hplain
            | object => rfl
            | enum => exact absurd hkind htemplate.2
          rw [parentAt_copy hwf hids hd htemplate.1 htemplate.2, buildItem, hobject]
          rfl
      refine ⟨2, false, by rw [isA_succ hmissing hij, hnone, isA_missing], ?_⟩
      rw [sees_iff []]
      simp only [Bool.false_eq_true, hij, false_or, false_iff, not_and]
      rintro ⟨d', hd', hplain'⟩
      cases hd.symm.trans hd'
      exact absurd hplain' hplain

theorem test_closure {k : ℕ} (hk : k < p.closures) (ht : t.decl < p.decls.length) :
    ∃ fuel, p.test (.closure k) t fuel = some false := by
  have hbounded := hids.bounded
  have hrange := noTypeId_lt
  obtain hzero | ⟨hle, henv⟩ := hids.closures
  · omega
  have hid : closureId k = envBase + k := Nat.mod_eq_of_lt (by omega)
  refine ⟨2, ?_⟩
  rw [test, typeId, declaredId_of_lt (by omega), hid]
  dsimp only
  rw [isA_succ (by omega) (by omega), parentAt_above hwf hids (by omega), isA_missing]

theorem test_declared (hi : i < p.decls.length) (ht : t.decl < p.decls.length)
    (hid : p.typeId v = some i) :
    ∃ fuel b, p.test v t fuel = some b ∧ (b = true ↔ p.Sees t.decl i) := by
  have hbounded := hids.bounded
  have hrange := noTypeId_lt
  obtain ⟨fuel, b, hrun, hb⟩ := isA_declared hwf hids (j := t.decl) hi
  refine ⟨fuel, b, ?_, hb⟩
  rwa [test, hid, declaredId_of_lt (by omega)]

theorem test_spec {k : ℕ} {typeArgs : List Ty} {d : Decl}
    (he : p.emitted[k]? = some (.spec i typeArgs)) (hd : p.decls[i]? = some d)
    (hkind : d.kind = .cls) (ht : t.decl < p.decls.length) :
    ∃ fuel b, p.test (.made k) t fuel = some b ∧
      (b = true ↔ p.SeesAbove t.decl (i, typeArgs)) := by
  have hbounded := hids.bounded
  have hrange := noTypeId_lt
  have hspec := specId_bounds he rfl
  obtain ⟨fuel, b, hrun, hb⟩ := isA_parent hids (j := t.decl) hkind fun s hsuper =>
    isA_declared hwf hids (superDef_lt hsuper)
  refine ⟨fuel + 2, b, ?_, hb.trans (seesAbove_iff (x := (i, typeArgs)) hd).symm⟩
  rw [test, typeId, classes_spec hwf hids he hd, declaredId_of_lt (by omega), Option.map_some]
  dsimp only
  rw [isA_succ (by omega) (by omega), parentAt_spec hwf hids he hd, hrun]

theorem test_class (hv : p.Valid v) (hx : p.runtimeClass v = some x)
    (ht : t.decl < p.decls.length) :
    ∃ fuel b, p.test v t fuel = some b ∧
      (b = true ↔ x.1 = t.decl ∧ ¬ p.Specialised v ∨ p.Linked v ∧ p.SeesAbove t.decl x) := by
  have hbounded := hids.bounded
  have hrange := noTypeId_lt
  cases v with
  | plain => cases hx
  | raw => cases hx
  | closure k => cases hx
  | literal i typeArgs =>
    cases hx
    obtain ⟨d, hd, -⟩ := hv
    have hi := (List.getElem?_eq_some_iff.mp hd).1
    obtain ⟨fuel, b, hrun, hb⟩ := test_declared hwf hids hi ht
      (v := .literal i typeArgs) (congrArg some (declaredId_of_lt (by omega)))
    refine ⟨fuel, b, hrun, hb.trans ((sees_iff typeArgs).trans ?_)⟩
    simp [Specialised, Linked]
  | made k =>
    obtain ⟨e, d, he, hd, hkind⟩ := hv
    rw [runtimeClass, he] at hx
    cases hx
    cases e with
    | copy i =>
      have hi := (List.getElem?_eq_some_iff.mp hd).1
      obtain ⟨d₀, hd₀, hgenerics⟩ := (hwf.copies i).mp (List.mem_of_getElem? he)
      cases hd.symm.trans hd₀
      have hid : p.typeId (.made k) = some i := by
        rw [typeId, classes_copy hids he hd, Option.map_some, buildItem_typeId,
          builtId_of_ne hkind (by simp only [Emit.decl] at hi; omega)]
      obtain ⟨fuel, b, hrun, hb⟩ := test_declared hwf hids hi ht hid
      refine ⟨fuel, b, hrun, hb.trans ((sees_iff []).trans ?_)⟩
      have hlinked : p.Linked (.made k) ↔ p.PlainClass i := by
        simp only [Emit.decl] at hd
        simp [Linked, PlainClass, he, Emit.decl, hd, hgenerics]
      have hcopy : ¬ p.Specialised (.made k) := by
        rintro ⟨n, i', typeArgs, heq, he'⟩
        cases heq
        cases he.symm.trans he'
      simp [hlinked, hcopy, Emit.decl, Emit.typeArgs]
    | spec i typeArgs =>
      have hmem := List.mem_of_getElem? hd
      obtain ⟨d₀, hd₀, hgenerics⟩ := hwf.specs i typeArgs (List.mem_of_getElem? he)
      cases hd.symm.trans hd₀
      have hcls : d.kind = .cls := by
        cases h : d.kind with
        | cls => rfl
        | object => exact absurd (hwf.objects d hmem h) hgenerics
        | enum => exact absurd h hkind
      obtain ⟨fuel, b, hrun, hb⟩ := test_spec hwf hids he hd hcls ht
      refine ⟨fuel, b, hrun, hb.trans ?_⟩
      have hlinked : p.Linked (.made k) := ⟨_, d, he, hd, hcls⟩
      have hspec : p.Specialised (.made k) := ⟨k, i, typeArgs, rfl, he⟩
      simp [hlinked, hspec, Emit.decl, Emit.typeArgs]

end Runs

/-! ## The condition of a test -/

section Condition

variable (hwf : p.WellFormed)

include hwf

theorem generic_iff_specialised (hv : p.Valid v) (hx : p.runtimeClass v = some x)
    (hgeneric : p.Generic x.1) :
    (∃ i typeArgs, v = .literal i typeArgs) ↔ ¬ p.Specialised v := by
  cases v with
  | plain => cases hx
  | raw => cases hx
  | closure k => cases hx
  | literal i typeArgs => simp [Specialised]
  | made k =>
    obtain ⟨e, d, he, hd, -⟩ := hv
    rw [runtimeClass, he] at hx
    cases hx
    cases e with
    | copy i =>
      obtain ⟨d₀, hd₀, hgenerics⟩ := (hwf.copies i).mp (List.mem_of_getElem? he)
      obtain ⟨d₁, hd₁, hne⟩ := hgeneric
      cases hd₀.symm.trans hd₁
      exact absurd hgenerics hne
    | spec i typeArgs =>
      have hspec : p.Specialised (.made k) := ⟨k, i, typeArgs, rfl, he⟩
      simp [hspec]

theorem Specialised.generic (hx : p.runtimeClass v = some x) (h : p.Specialised v) :
    p.Generic x.1 := by
  obtain ⟨k, i, typeArgs, rfl, he⟩ := h
  rw [runtimeClass, he] at hx
  cases hx
  exact hwf.specs i typeArgs (List.mem_of_getElem? he)

/-- A test for the value's own class. -/
theorem condition_own (hv : p.Valid v) (hx : p.runtimeClass v = some x) (heq : x.1 = t.decl) :
    ((x.1 = t.decl ∧ ¬ p.Specialised v ∨ p.Linked v ∧ p.SeesAbove t.decl x) ↔
      p.IsInstance v t) ↔ p.TestCondition v t := by
  obtain ⟨rank, hrank⟩ := hwf.acyclic
  have hnopath : ∀ mid y, p.Path x mid y → y.1 ≠ t.decl := by
    intro mid y hpath hy
    have hlt := hpath.rank_lt hrank
    rw [hy, heq] at hlt
    exact Nat.lt_irrefl _ hlt
  have hsees : ¬ p.SeesAbove t.decl x := fun ⟨mid, y, hpath, hy, _⟩ => hnopath mid y hpath hy
  have hinstance : p.IsInstance v t ↔ (p.Generic t.decl → x.2 = t.typeArgs) := by
    constructor
    · rintro ⟨x', y, hx', rfl | ⟨mid, hpath⟩, hnamed⟩
      · cases hx.symm.trans hx'
        exact hnamed.2
      · cases hx.symm.trans hx'
        exact absurd hnamed.1 (hnopath mid y hpath)
    · intro h
      exact ⟨x, x, hx, .inl rfl, heq, h⟩
  simp only [heq, true_and, hsees, and_false, or_false, hinstance]
  constructor
  · intro h
    refine ⟨?_, ?_, ?_⟩
    · rintro rfl
      cases hx
    · intro x' hx' _ hgeneric
      cases hx.symm.trans hx'
      rw [generic_iff_specialised hwf hv hx (heq ▸ hgeneric), h]
      exact ⟨fun h => h hgeneric, fun h _ => h⟩
    · intro x' mid y hx' hpath hy
      cases hx.symm.trans hx'
      exact absurd hy (hnopath mid y hpath)
  · intro h
    by_cases hgeneric : p.Generic t.decl
    · have hown := h.own x hx heq hgeneric
      rw [generic_iff_specialised hwf hv hx (heq ▸ hgeneric)] at hown
      rw [hown]
      exact ⟨fun h _ => h, fun h => h hgeneric⟩
    · simp only [hgeneric, false_imp_iff, iff_true]
      exact fun hspec => hgeneric (heq ▸ Specialised.generic hwf hx hspec)

/-- A test for another class. -/
theorem condition_above (hx : p.runtimeClass v = some x) (hne : x.1 ≠ t.decl) :
    ((x.1 = t.decl ∧ ¬ p.Specialised v ∨ p.Linked v ∧ p.SeesAbove t.decl x) ↔
      p.IsInstance v t) ↔ p.TestCondition v t := by
  obtain ⟨rank, hrank⟩ := hwf.acyclic
  simp only [hne, false_and, false_or]
  by_cases hpath : ∃ mid y, p.Path x mid y ∧ y.1 = t.decl
  · obtain ⟨mid, y, hpath, hy⟩ := hpath
    have hsees : p.SeesAbove t.decl x ↔ ∀ m ∈ mid, p.PlainClass m := by
      constructor
      · rintro ⟨mid', y', hpath', hy', hmid⟩
        obtain ⟨rfl, -⟩ := hpath.unique hrank hpath' (hy.trans hy'.symm)
        exact hmid
      · exact fun hmid => ⟨mid, y, hpath, hy, hmid⟩
    have hinstance : p.IsInstance v t ↔ p.Named t y := by
      constructor
      · rintro ⟨x', y', hx', rfl | ⟨mid', hpath'⟩, hnamed⟩
        · cases hx.symm.trans hx'
          exact absurd hnamed.1 hne
        · cases hx.symm.trans hx'
          obtain ⟨-, rfl⟩ := hpath.unique hrank hpath' (hy.trans hnamed.1.symm)
          exact hnamed
      · exact fun hnamed => ⟨x, y, hx, .inr ⟨mid, hpath⟩, hnamed⟩
    rw [hsees, hinstance]
    constructor
    · intro h
      refine ⟨?_, fun x' hx' heq => ?_, fun x' mid' y' hx' hpath' hy' => ?_⟩
      · rintro rfl
        cases hx
      · cases hx.symm.trans hx'
        exact absurd heq hne
      · cases hx.symm.trans hx'
        obtain ⟨rfl, rfl⟩ := hpath.unique hrank hpath' (hy.trans hy'.symm)
        exact h.symm
    · exact fun h => (h.above x mid y hx hpath hy).symm
  · have hsees : ¬ p.SeesAbove t.decl x := fun ⟨mid, y, h, hy, _⟩ => hpath ⟨mid, y, h, hy⟩
    have hinstance : ¬ p.IsInstance v t := by
      rintro ⟨x', y, hx', rfl | ⟨mid, h⟩, hnamed⟩
      · cases hx.symm.trans hx'
        exact hne hnamed.1
      · cases hx.symm.trans hx'
        exact hpath ⟨mid, y, h, hnamed.1⟩
    simp only [hsees, and_false, hinstance, iff_self, true_iff]
    refine ⟨?_, fun x' hx' heq => ?_, fun x' mid' y' hx' hpath' hy' => ?_⟩
    · rintro rfl
      cases hx
    · cases hx.symm.trans hx'
      exact absurd heq hne
    · cases hx.symm.trans hx'
      exact absurd ⟨mid', y', hpath', hy'⟩ hpath

end Condition

/-- A test has one result. -/
theorem isA_mono {table : List ℕ} {target fuel type : ℕ} {b : Bool}
    (h : isA table target fuel type = some b) : isA table target (fuel + 1) type = some b := by
  induction fuel generalizing type with
  | zero => cases h
  | succ fuel ih =>
    rw [isA] at h ⊢
    split at h
    · rw [if_pos ‹_›]
      exact h
    rw [if_neg ‹_›]
    split at h
    · rw [if_pos ‹_›]
      exact h
    rw [if_neg ‹_›]
    cases hparent : table[type]? with
    | none =>
      rw [hparent] at h
      exact h
    | some parent =>
      rw [hparent] at h
      exact ih h

theorem test_unique {fuel fuel' : ℕ} {b b' : Bool} (h : p.test v t fuel = some b)
    (h' : p.test v t fuel' = some b') : b = b' := by
  have hmono : ∀ (n k : ℕ) {b : Bool}, p.test v t n = some b → p.test v t (n + k) = some b := by
    intro n k b h
    induction k with
    | zero => exact h
    | succ k ih =>
      rw [test] at ih ⊢
      cases hid : p.typeId v with
      | none =>
        rw [hid] at ih
        exact ih
      | some type =>
        rw [hid] at ih
        exact isA_mono ih
  have hlong := hmono fuel fuel' h
  have hlong' := hmono fuel' fuel h'
  rw [Nat.add_comm, hlong] at hlong'
  exact Option.some.inj hlong'

theorem noClass_condition (hx : p.runtimeClass v = none) (hraw : v ≠ .raw) :
    p.TestCondition v t ∧ ¬ p.IsInstance v t := by
  refine ⟨⟨fun h => absurd h hraw, fun x hx' => ?_, fun x mid y hx' => ?_⟩, ?_⟩
  · cases hx.symm.trans hx'
  · cases hx.symm.trans hx'
  · rintro ⟨x, y, hx', -⟩
    cases hx.symm.trans hx'

theorem raw_condition : p.TestCondition .raw t ↔ ¬ p.Sees t.decl 0 := by
  rw [sees_iff []]
  constructor
  · rintro h (heq | ⟨hplain, mid, y, hpath, hy, hmid⟩)
    · exact (h.raw rfl).1 heq.symm
    · obtain ⟨m, hm, hnot⟩ := (h.raw rfl).2 mid y hplain hpath hy
      exact hnot (hmid m hm)
  · intro h
    refine ⟨fun _ => ⟨fun heq => h (.inl heq.symm), fun mid y hplain hpath hy => ?_⟩, nofun, nofun⟩
    by_contra hmid
    simp only [not_exists, not_and, not_not] at hmid
    exact h (.inr ⟨hplain, mid, y, hpath, hy, hmid⟩)

theorem test_exact_iff (hwf : p.WellFormed) (hids : p.IdsCondition) (hv : p.Valid v)
    (ht : t.decl < p.decls.length) :
    (∃ fuel b, p.test v t fuel = some b ∧ (b = true ↔ p.IsInstance v t)) ↔
      p.TestCondition v t := by
  -- whatever the test is known to say
  have hunique : ∀ {fuel b P}, p.test v t fuel = some b → (b = true ↔ P) →
      ((∃ fuel b, p.test v t fuel = some b ∧ (b = true ↔ p.IsInstance v t)) ↔
        (P ↔ p.IsInstance v t)) := by
    intro fuel b P hrun hb
    rw [← hb]
    constructor
    · rintro ⟨fuel', b', hrun', hb'⟩
      rwa [test_unique hrun hrun']
    · exact fun h => ⟨fuel, b, hrun, h⟩
  cases hx : p.runtimeClass v with
  | some x =>
    obtain ⟨fuel, b, hrun, hb⟩ := test_class hwf hids hv hx ht
    rw [hunique hrun hb]
    by_cases heq : x.1 = t.decl
    · exact condition_own hwf hv hx heq
    · exact condition_above hwf hx heq
  | none =>
    cases v with
    | plain =>
      obtain ⟨hcond, hinstance⟩ := noClass_condition hx nofun (t := t)
      have hrun : p.test .plain t 0 = some false := rfl
      rw [hunique (P := False) hrun (by simp)]
      simp [hcond, hinstance]
    | raw =>
      obtain ⟨fuel, b, hrun, hb⟩ := test_declared hwf hids (Nat.zero_lt_of_lt ht) ht
        (v := .raw) rfl
      have hinstance : ¬ p.IsInstance .raw t := fun ⟨_, _, hx, _⟩ => nomatch hx
      rw [hunique hrun hb, raw_condition]
      simp [hinstance]
    | closure k =>
      obtain ⟨hcond, hinstance⟩ := noClass_condition hx nofun (t := t)
      obtain ⟨fuel, hrun⟩ := test_closure hwf hids hv ht
      rw [hunique (P := False) hrun (by simp)]
      simp [hcond, hinstance]
    | made k =>
      obtain ⟨e, d, he, -⟩ := hv
      rw [runtimeClass, he] at hx
      cases hx
    | literal i typeArgs => cases hx

/-! ## Exact programs -/

theorem typeTests_exact_iff (hwf : p.WellFormed) :
    p.Exact ↔ p.IdsCondition ∧ ∀ v t, (v, t) ∈ p.tests → p.TestCondition v t := by
  constructor
  · intro h
    have hids := idsCondition hwf h.distinct
    refine ⟨hids, fun v t hmem => ?_⟩
    obtain ⟨hv, ht⟩ := hwf.tests v t hmem
    exact (test_exact_iff hwf hids hv ht).mp (h.exact v t hmem)
  · rintro ⟨hids, h⟩
    refine ⟨hids.ids_nodup hwf, fun v t hmem => ?_⟩
    obtain ⟨hv, ht⟩ := hwf.tests v t hmem
    exact (test_exact_iff hwf hids hv ht).mpr (h v t hmem)

/-! ## Examples -/

def exception : Decl := ⟨⟨"Exception", by decide, by decide⟩, .cls, [], none⟩

def runtimeException : Decl :=
  ⟨⟨"RuntimeException", by decide, by decide⟩, .cls, [], some (exception.name, [])⟩

def box : Decl := ⟨⟨"Box", by decide, by decide⟩, .cls, ["T"], none⟩

/-- The classes of the prelude and a generic one, with its specialisation for integers. -/
def boxProgram (tests : List (Value × Target)) : Program :=
  ⟨[exception, runtimeException, box], [.copy 0, .copy 1, .spec 2 [.int]], 0, tests⟩

theorem boxProgram_wellFormed (tests : List (Value × Target))
    (h : ∀ v t, (v, t) ∈ tests → (boxProgram tests).Valid v ∧ t.decl < 3) :
    (boxProgram tests).WellFormed where
  names := by simp [boxProgram, exception, runtimeException, box]
  supers d hd name typeArgs hsuper := by
    obtain rfl | rfl | rfl : d = exception ∨ d = runtimeException ∨ d = box := by
      simpa [boxProgram] using hd
    · cases hsuper
    · cases hsuper
      exact ⟨0, Nat.zero_lt_succ _, rfl⟩
    · cases hsuper
  acyclic := by
    refine ⟨id, fun i d s hd hsuper => ?_⟩
    match i with
    | 0 | 2 =>
      cases hd
      cases hsuper
    | 1 =>
      cases hd
      cases hsuper
      exact Nat.zero_lt_one
    | n + 3 => cases hd
  objects d hd := by
    obtain rfl | rfl | rfl : d = exception ∨ d = runtimeException ∨ d = box := by
      simpa [boxProgram] using hd
    all_goals nofun
  copies i := by
    match i with
    | 0 => simp [boxProgram, exception]
    | 1 => simp [boxProgram, runtimeException]
    | 2 => simp [boxProgram, box]
    | n + 3 => simp [boxProgram]
  specs i typeArgs hmem := by
    obtain ⟨rfl, -⟩ : i = 2 ∧ typeArgs = [.int] := by simpa [boxProgram] using hmem
    exact ⟨box, rfl, by decide⟩
  once := by simp [boxProgram]
  tests := h

theorem boxTest_not_exact : ¬ ∀ p : Program, p.WellFormed → p.Exact := by
  intro h
  have hwf := boxProgram_wellFormed [(.made 2, ⟨2, [.int]⟩)] (by
    simp [Valid, boxProgram, Emit.decl, box])
  obtain ⟨fuel, b, hrun, hb⟩ := (h _ hwf).exact (.made 2) ⟨2, [.int]⟩ (.head _)
  have hfalse : (boxProgram [(.made 2, ⟨2, [.int]⟩)]).test (.made 2) ⟨2, [.int]⟩ 2 =
      some false := by decide +kernel
  rw [test_unique hrun hfalse] at hb
  exact absurd (hb.mpr ⟨(2, [.int]), _, rfl, .inl rfl, rfl, fun _ => rfl⟩) nofun

/-- A `RuntimeException` is tested for `Exception`. -/
theorem exceptionTest_exact : (boxProgram [(.made 1, ⟨0, []⟩)]).Exact := by
  have hwf := boxProgram_wellFormed [(.made 1, ⟨0, []⟩)] (by
    simp [Valid, boxProgram, Emit.decl, runtimeException])
  refine (typeTests_exact_iff hwf).mpr ⟨⟨.inr (.inr ⟨box, rfl, nofun⟩), by decide, .inl rfl⟩, ?_⟩
  intro v t hmem
  obtain ⟨rfl, rfl⟩ : v = .made 1 ∧ t = ⟨0, []⟩ := by simpa [boxProgram] using hmem
  refine ⟨nofun, ?_, ?_⟩
  · rintro x ⟨⟩ heq
    cases heq
  · rintro x mid y ⟨⟩ hpath hy
    -- the one superclass is the one that is named
    obtain ⟨rank, hrank⟩ := hwf.acyclic
    obtain ⟨args, hext⟩ := extends_of_superDef (p := boxProgram [(.made 1, ⟨0, []⟩)])
      (i := 1) (j := 0) rfl rfl []
    obtain ⟨rfl, rfl⟩ := hpath.unique hrank (.super hext) hy
    have hlinked : (boxProgram [(.made 1, ⟨0, []⟩)]).Linked (.made 1) :=
      ⟨.copy 1, runtimeException, rfl, rfl, rfl⟩
    have hnamed : (boxProgram [(.made 1, ⟨0, []⟩)]).Named ⟨0, []⟩ (0, args) := by
      refine ⟨rfl, ?_⟩
      rintro ⟨d, hd, hgenerics⟩
      cases hd
      exact absurd rfl hgenerics
    exact iff_of_true hnamed ⟨hlinked, nofun⟩

end Loxis.TypeTest
