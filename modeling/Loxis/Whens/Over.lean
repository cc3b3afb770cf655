import Loxis.Whens.FirstMatch

/-! # Whens over a value

The chain of tests takes the first arm that the value matches exactly under the condition.
-/

namespace Loxis.Whens

open Backend (Value TAG_NULL)
open Function
open Lowering (HirPat HirWhenArm Condition)
open Mono (Ty)
open Vm (Heap TAG_HEAP)

variable {E L S R : Type} {P : Program E L} {itof : BitVec 64 → BitVec 64} {code : Code S R}

/-! ## Built arms -/

section Build

variable {C : Type} (build : C → Condition E) (arms : List (Arm C E))

theorem zipIdx_build :
    (arms.map (buildArm build)).zipIdx = arms.zipIdx.map (Prod.map (buildArm build) id) :=
  List.zipIdx_map ..

theorem isElse_build :
    (fun a : HirWhenArm E × ℕ => a.1.isElse) ∘ Prod.map (buildArm build) id = isElse := rfl

theorem tested_build :
    (arms.map (buildArm build)).zipIdx.eraseP (fun a => a.1.isElse) =
      (tested arms).map (Prod.map (buildArm build) id) := by
  rw [zipIdx_build, List.eraseP_map, isElse_build, tested]

theorem else_build :
    (arms.map (buildArm build)).zipIdx.find? (fun a => a.1.isElse) =
      (arms.zipIdx.find? isElse).map (Prod.map (buildArm build) id) := by
  rw [zipIdx_build, List.find?_map, isElse_build]

end Build

@[simp] theorem payloads_buildPat (ty : Ty) (p : Pat L) :
    payloads (E := E) (.pat (some (buildPat P ty p))) = p.payloads := by
  cases p with
  | enum path elems =>
    simp only [buildPat, payloads, Pat.payloads, List.zipIdx_map, List.filterMap_map]
    congr 1
    funext q
    obtain ⟨e, j⟩ := q
    cases e <;> rfl
  | wild | bind | lit => rfl

/-! ## Scopes -/

/-- The names in `leaks` have other meanings than around the `when`. -/
def Leaks (σ : Scope) (leaks : List String) : Prop :=
  ∀ n, if n ∈ leaks then (∀ m, σ n ≠ .around m) ∧ ∀ i, σ n ≠ .whole i else σ n = .around n

theorem Leaks.around : Leaks Place.around [] := by simp [Leaks]

theorem Leaks.leave {σ : Scope} {leaks : List String} (hl : Leaks σ leaks) (p : Part)
    (names : List String) : Leaks (leave p names σ) (leaks ++ names) := by
  rintro n
  have := hl n
  unfold Whens.leave
  by_cases hn : n ∈ names <;> by_cases hk : n ∈ leaks <;> simp_all

/-- What the payloads of an arm do to a name. -/
theorem bind_cases (arm : ℕ) (h : Heap) (v : Value) (ps : List (String × ℕ)) (σ : Scope)
    (ρ : String → Meaning) (n : String) :
    let σ' := bindPayloads arm σ ps
    let ρ' := ps.foldl (fun ρ q => update ρ q.1 ⟨.payload arm q.2, load h v ((q.2 + 1) * 9)⟩) ρ
    n ∉ ps.map Prod.fst ∧ σ' n = σ n ∧ ρ' n = ρ n ∨
      n ∈ ps.map Prod.fst ∧ ∃ j ∈ ps.map Prod.snd, σ' n = .payload arm j ∧
        ρ' n = ⟨.payload arm j, load h v ((j + 1) * 9)⟩ := by
  induction ps generalizing σ ρ with
  | nil => exact .inl ⟨by simp, rfl, rfl⟩
  | cons q ps ih =>
    rcases ih (update σ q.1 (.payload arm q.2))
      (update ρ q.1 ⟨.payload arm q.2, load h v ((q.2 + 1) * 9)⟩) with
      ⟨hn, hσ, hρ⟩ | ⟨hn, j, hj, hσ, hρ⟩
    · by_cases hq : n = q.1
      · subst hq
        refine .inr ⟨by simp, q.2, by simp, ?_, ?_⟩
        · exact hσ.trans (update_self ..)
        · exact hρ.trans (update_self ..)
      · refine .inl ⟨by simp_all, ?_, ?_⟩
        · exact hσ.trans (update_of_ne hq ..)
        · exact hρ.trans (update_of_ne hq ..)
    · exact .inr ⟨by simp_all, j, List.mem_cons_of_mem _ hj, hσ, hρ⟩

theorem Leaks.bindPayloads {σ : Scope} {leaks : List String} (hl : Leaks σ leaks) (arm : ℕ)
    (ps : List (String × ℕ)) :
    Leaks (bindPayloads arm σ ps) (leaks ++ ps.map Prod.fst) := by
  rintro n
  have := hl n
  rcases bind_cases arm Heap.new (intValue 0) ps σ (plain σ) n with ⟨hn, hσ, -⟩ | ⟨hn, j, -, hσ, -⟩
  · rw [hσ]
    simp only [List.mem_append, hn, or_false]
    exact this
  · rw [hσ]
    simp [hn]

@[simp] theorem leave_nil (p : Part) (σ : Scope) : leave p [] σ = σ := by
  funext n
  simp [leave]

/-! ## One test -/

/-- An arm with a pattern, and the condition that it is built with. -/
abbrev patArm (P : Program E L) (ty : Ty) (a : Arm (Pat L) E × ℕ) : HirWhenArm E × ℕ :=
  Prod.map (buildArm fun p => .pat (some (buildPat P ty p))) id a

def patCheck (P : Program E L) (ty : Ty) (σ : Scope) (i : ℕ) (p : Pat L) : Check E :=
  ⟨i, .pat (some (buildPat P ty p)), σ, bindPayloads i σ p.payloads⟩

/-- The outcome of a test, which fails to read its number from what has no fields. -/
def Pat.test (P : Program E L) (itof : BitVec 64 → BitVec 64) (ty : Ty) (h : Heap) (v : Value) :
    Pat L → Option Bool
  | .enum path _ => (load h v 0).map fun t => same itof t (intValue (variantIndex P ty path))
  | _ => some true

section One

variable {ty : Ty} {σ : Scope} {leaks : List String} {i : ℕ} {p : Pat L} {b : E} {h : Heap}
  {v : Value} {n : String} {as : List (Arm (Pat L) E × ℕ)} {else_ : Option (ℕ × Scope)}
  {s : S × Heap} {trace : List Part}

theorem lowerChecks_some :
    lowerChecks P σ (((⟨some p, b⟩, i) :: as).map (patArm P ty)) =
      let rest := lowerChecks P (leave (.body i) (P.binds b) (bindPayloads i σ p.payloads))
        (as.map (patArm P ty))
      (patCheck P ty σ i p :: rest.1, rest.2) := by
  simp [lowerChecks, patArm, buildArm, patCheck, conditionBinds]

theorem lowerChecks_none :
    lowerChecks P σ (((⟨none, b⟩, i) :: as).map (patArm P ty)) =
      let rest := lowerChecks P (leave (.body i) (P.binds b) σ) (as.map (patArm P ty))
      (⟨i, .none, σ, σ⟩ :: rest.1, rest.2) := by
  simp [lowerChecks, patArm, buildArm, conditionBinds, payloads, bindPayloads]

theorem chain_patCheck {cs : List (Check E)} :
    chain itof code v else_ (patCheck P ty σ i p :: cs) s trace =
      match p.test P itof ty s.2 v with
      | some true => enter code v (patCheck P ty σ i p) s trace
      | some false => chain itof code v else_ cs s trace
      | none => (trace, .failed) := by
  cases p with
  | enum path elems =>
    simp only [chain, patCheck, buildPat, Pat.test]
    cases load s.2 v 0 with
    | none => rfl
    | some t =>
      simp only [Option.map_some]
      cases same itof t (intValue (variantIndex P ty path)) <;> rfl
  | wild | bind | lit => rfl

theorem inArm_place (c : Check E) : (inArm h v c n).place = c.inside n := by
  unfold inArm
  split
  · next heq => exact heq.symm
  · rfl

theorem inArm_of_around {c : Check E} (hc : c.inside n = .around n) :
    inArm h v c n = plain Place.around n := by
  unfold inArm
  rw [hc]
  rfl

theorem bindings_eq (hb : p ≠ .bind n) :
    p.bindings i h v n =
      p.payloads.foldl (fun ρ q => update ρ q.1 ⟨.payload i q.2, load h v ((q.2 + 1) * 9)⟩)
        (plain Place.around) n := by
  cases p with
  | bind x => exact update_of_ne (by rintro rfl; exact hb rfl) _ _
  | wild | lit | enum => rfl

/-- A name has the right meaning in the body of an arm if it was not left bound before, or the arm
binds it to a field. -/
theorem inArm_eq_iff (hl : Leaks σ leaks) :
    inArm h v (patCheck P ty σ i p) n = p.bindings i h v n ↔
      p ≠ .bind n ∧ (n ∈ leaks → n ∈ p.payloads.map Prod.fst) := by
  have hn := hl n
  have hplace := inArm_place (h := h) (v := v) (n := n) (patCheck P ty σ i p)
  by_cases hb : p = .bind n
  · subst hb
    have hwhole : σ n ≠ .whole i := by
      split_ifs at hn
      · exact hn.2 i
      · rw [hn]
        nofun
    refine iff_of_false ?_ fun h => h.1 rfl
    intro heq
    have hbind : (Pat.bind (L := L) n).bindings i h v n = ⟨.whole i, some v⟩ := update_self ..
    rw [heq, hbind] at hplace
    exact hwhole hplace.symm
  rw [bindings_eq hb]
  rcases bind_cases i h v p.payloads σ (plain Place.around) n with
    ⟨hnot, hσ, hρ⟩ | ⟨hmem, j, hj, hσ, hρ⟩
  · rw [hρ]
    by_cases hleak : n ∈ leaks
    · rw [if_pos hleak] at hn
      refine iff_of_false ?_ fun h => hnot (h.2 hleak)
      intro heq
      rw [heq] at hplace
      exact hn.1 n (hσ.symm.trans hplace.symm)
    · rw [if_neg hleak] at hn
      exact iff_of_true (inArm_of_around (hσ.trans hn)) ⟨hb, fun h => absurd h hleak⟩
  · refine iff_of_true ?_ ⟨hb, fun _ => hmem⟩
    have hinside : (patCheck P ty σ i p).inside n = .payload i j := hσ
    have hfields : j ∈ fields (patCheck (E := E) P ty σ i p) := by
      rw [fields, patCheck, payloads_buildPat]
      exact hj
    rw [hρ, inArm, hinside]
    exact congrArg _ (if_pos ⟨rfl, hfields⟩)

@[simp] theorem intValue_inj {m n : ℕ} (hm : m ≤ noVariant) (hn : n ≤ noVariant) :
    intValue m = intValue n ↔ m = n := by
  unfold noVariant at hm hn
  refine ⟨fun h => ?_, congrArg _⟩
  have := congrArg (fun v : Value => v.val.toNat) h
  simp only [intValue, BitVec.toNat_ofNat] at this
  omega

theorem same_intValue (m n : ℕ) :
    same itof (intValue m) (intValue n) = decide (intValue m = intValue n) := by
  unfold same intValue
  rw [if_neg (by simp [Backend.TAG_INT, Backend.TAG_NULL]),
    if_neg (by simp [Backend.TAG_INT, Backend.TAG_FLOAT])]
  simp

theorem EnumDef.find?_lt {d : EnumDef} {path : List String} {k : ℕ} (hk : d.find? path = some k) :
    k < d.variants.length := (List.findIdx?_eq_some_iff_getElem.mp hk).1

theorem variantIndex_le (ty : Ty) (path : List String) : variantIndex P ty path ≤ noVariant := by
  unfold variantIndex
  cases hd : P.enumOf ty with
  | none => exact le_rfl
  | some d =>
    simp only [Option.bind_some]
    cases hk : d.find? path with
    | none => exact le_rfl
    | some k => exact (EnumDef.find?_lt hk).le.trans d.small

theorem matches_enum {path : List String} {elems : List Elem}
    (hm : (Pat.enum (L := L) path elems).matches P ty h v = true) :
    ∃ d k, P.enumOf ty = some d ∧ d.find? path = some k ∧ v.tag = TAG_HEAP ∧
      load h v 0 = some (intValue k) := by
  simp only [Pat.matches] at hm
  cases hk : (P.enumOf ty).bind fun d => d.find? path with
  | none =>
    rw [hk] at hm
    cases hm
  | some k =>
    rw [hk] at hm
    obtain ⟨d, hd, hk⟩ := Option.bind_eq_some_iff.mp hk
    exact ⟨d, k, hd, hk, of_decide_eq_true hm⟩

theorem test_of_matches (hm : p.matches P ty h v = true) : p.test P itof ty h v = some true := by
  cases p with
  | enum path elems =>
    obtain ⟨d, k, hd, hk, -, hload⟩ := matches_enum hm
    simp [Pat.test, hload, variantIndex, hd, hk, same_intValue]
  | wild | bind | lit => rfl

/-- The fields of a variant that matches are there. -/
theorem enter_of_matches (hm : p.matches P ty s.2 v = true) (hty : HasType P ty s.2 v)
    (hchk : checkPat P ty p = []) :
    enter code v (patCheck P ty σ i p) s trace =
      runBody code i (inArm s.2 v (patCheck P ty σ i p)) s trace := by
  refine if_pos (List.all_eq_true.mpr fun j hj => ?_)
  rw [fields, patCheck, payloads_buildPat] at hj
  cases p with
  | enum path elems =>
    obtain ⟨d, k, hd, hk, htag, hload⟩ := matches_enum hm
    rcases hty d hd with ⟨-, k', var, hvar, hload', hfields⟩ | hnull
    · have hlt' : k' < d.variants.length := (List.getElem?_eq_some_iff.mp hvar).1
      have hkk : k = k' := by
        have := Option.some.inj (hload.symm.trans hload')
        exact (intValue_inj ((EnumDef.find?_lt hk).le.trans d.small)
          (hlt'.le.trans d.small)).mp this
      subst hkk
      have harity : var.arity = elems.length := by
        by_contra hne
        simp [checkPat, hd, hk, hvar, hne] at hchk
      obtain ⟨q, hq, rfl⟩ := List.mem_map.mp hj
      obtain ⟨⟨e, j⟩, he, hq⟩ := List.mem_filterMap.mp hq
      obtain ⟨n, -, rfl⟩ := Option.map_eq_some_iff.mp hq
      refine hfields j ?_
      rw [harity]
      exact List.snd_lt_of_mem_zipIdx he
    · rw [hnull] at htag
      cases htag
  | wild | bind | lit => cases hj

theorem test_of_skipped {a : Arm (Pat L) E × ℕ} (ha : a.1.condition = some p)
    (hm : p.matches P ty h v = false) (hs : Skipped P itof ty h v a) :
    p.test P itof ty h v = some false := by
  obtain ⟨path, elems, hc, hd⟩ := hs
  cases ha.symm.trans hc
  rcases hd with ⟨d, hd, htag, k, var, hvar, hload, -⟩ | ⟨t, hload, hne⟩
  · have hlt : k < d.variants.length := (List.getElem?_eq_some_iff.mp hvar).1
    have hne : k ≠ variantIndex P ty path := by
      rintro hk
      unfold variantIndex at hk
      rw [hd, Option.bind_some] at hk
      cases hf : d.find? path with
      | none =>
        rw [hf] at hk
        have := d.small
        simp only [Option.getD_none] at hk
        omega
      | some k' =>
        rw [hf] at hk
        simp only [Option.getD_some] at hk
        subst hk
        simp [Pat.matches, hd, hf, htag, hload] at hm
    simp [Pat.test, hload, same_intValue,
      intValue_inj (hlt.le.trans d.small) (variantIndex_le ty path), hne]
  · simp [Pat.test, hload, hne]

theorem skipped_of_test (ht : p.test P itof ty h v = some false) :
    Skipped P itof ty h v (⟨some p, b⟩, i) := by
  cases p with
  | enum path elems =>
    obtain ⟨t, hload, hne⟩ := Option.map_eq_some_iff.mp ht
    exact ⟨path, elems, rfl, .inr ⟨t, hload, hne⟩⟩
  | wild | bind | lit => cases ht

end One

/-! ## All tests -/

section All

variable {ty : Ty} {σ : Scope} {leaks : List String} {v : Value}
  {as : List (Arm (Pat L) E × ℕ)} {else_ : Option (ℕ × Scope)} {e : Option ℕ} {s : S × Heap}
  {trace : List Part}

theorem lowerChecks_leaks (hl : Leaks σ leaks) :
    Leaks (lowerChecks P σ (as.map (patArm P ty))).2 (leaks ++ as.flatMap (patLeaks P)) := by
  induction as generalizing σ leaks with
  | nil =>
    rw [List.flatMap_nil, List.append_nil]
    exact hl
  | cons a as ih =>
    obtain ⟨⟨_ | p, b⟩, i⟩ := a
    · rw [lowerChecks_none]
      have := ih (hl.leave (.body i) (P.binds b))
      simpa [patLeaks] using this
    · rw [lowerChecks_some]
      have := ih ((hl.bindPayloads i p.payloads).leave (.body i) (P.binds b))
      simpa [patLeaks] using this

theorem takeFirst_cons_of_match {a : Arm (Pat L) E × ℕ} (hm : isMatch P ty s.2 v a = true) :
    takeFirst P code ty v e (a :: as) s trace =
      runBody code a.2 (armBindings a s.2 v) s trace := by
  simp [takeFirst, hm]

theorem takeFirst_cons_of_not_match {a : Arm (Pat L) E × ℕ}
    (hm : isMatch P ty s.2 v a = false) :
    takeFirst P code ty v e (a :: as) s trace = takeFirst P code ty v e as s trace := by
  simp [takeFirst, hm]

theorem Taken.nil {a : Arm (Pat L) E × ℕ} {post : List (Arm (Pat L) E × ℕ)}
    (h : ∀ pre a' post', a :: post = pre ++ a' :: post' →
      (∀ b ∈ pre, isMatch P ty s.2 v b = false) → isMatch P ty s.2 v a' = true →
        Taken P (leaks ++ pre.flatMap (patLeaks P)) a')
    (hm : isMatch P ty s.2 v a = true) : Taken P leaks a := by
  simpa using h [] a post rfl (by simp) hm

/-- Under the condition the chain takes the first arm that matches. -/
theorem chain_eq_takeFirst (hl : Leaks σ leaks) (hty : HasType P ty s.2 v)
    (hchk : ∀ a ∈ as, ∀ p, a.1.condition = some p → checkPat P ty p = [])
    (huses : ∀ a ∈ as, ∀ ρ ρ', (∀ n ∈ P.uses a.1.body, ρ n = ρ' n) →
      code (.body a.2) ρ s = code (.body a.2) ρ' s)
    (hskip : ∀ a ∈ as.takeWhile fun a => !isMatch P ty s.2 v a, Skipped P itof ty s.2 v a)
    (htaken : ∀ pre a post, as = pre ++ a :: post → (∀ b ∈ pre, isMatch P ty s.2 v b = false) →
      isMatch P ty s.2 v a = true → Taken P (leaks ++ pre.flatMap (patLeaks P)) a)
    (helse : (∀ b ∈ as, isMatch P ty s.2 v b = false) →
      runElse code else_ s trace = takeElse code e s trace) :
    chain itof code v else_ (lowerChecks P σ (as.map (patArm P ty))).1 s trace =
      takeFirst P code ty v e as s trace := by
  induction as generalizing σ leaks with
  | nil => exact helse (by simp)
  | cons a as ih =>
    have hrest : isMatch P ty s.2 v a = false → ∀ {σ'}, Leaks σ' (leaks ++ patLeaks P a) →
        chain itof code v else_ (lowerChecks P σ' (as.map (patArm P ty))).1 s trace =
          takeFirst P code ty v e as s trace := by
      rintro hm σ' hl'
      refine ih hl' (fun b hb => hchk b (List.mem_cons_of_mem _ hb))
        (fun b hb => huses b (List.mem_cons_of_mem _ hb)) ?_ ?_ ?_
      · intro b hb
        refine hskip b ?_
        rw [List.takeWhile_cons_of_pos (by simp [hm])]
        exact List.mem_cons_of_mem _ hb
      · rintro pre b post rfl hpre hb
        have := htaken (a :: pre) b post rfl
          (by simpa [hm] using hpre) hb
        simpa using this
      · intro hnone
        exact helse (by simpa [hm] using hnone)
    have hskipped : isMatch P ty s.2 v a = false → Skipped P itof ty s.2 v a := by
      intro hm
      refine hskip a ?_
      rw [List.takeWhile_cons_of_pos (by simp [hm])]
      exact List.mem_cons_self
    obtain ⟨⟨_ | p, b⟩, i⟩ := a
    · obtain ⟨path, elems, hc, -⟩ := hskipped rfl
      cases hc
    · rw [lowerChecks_some, chain_patCheck]
      by_cases hm : p.matches P ty s.2 v = true
      · have hm' : isMatch P ty s.2 v (⟨some p, b⟩, i) = true := hm
        have htake : Taken P leaks (⟨some p, b⟩, i) := Taken.nil htaken hm
        rw [takeFirst_cons_of_match hm', test_of_matches hm]
        simp only
        rw [enter_of_matches hm hty (hchk _ List.mem_cons_self p rfl), runBody, runBody]
        congr 1
        rw [huses (⟨some p, b⟩, i) List.mem_cons_self]
        intro n hn
        exact (inArm_eq_iff hl).mpr (htake p rfl n hn)
      · have hm : p.matches P ty s.2 v = false := by simpa using hm
        have hm' : isMatch P ty s.2 v (⟨some p, b⟩, i) = false := hm
        rw [takeFirst_cons_of_not_match hm', test_of_skipped rfl hm (hskipped hm)]
        refine hrest hm ?_
        have := (hl.bindPayloads i p.payloads).leave (.body i) (P.binds b)
        simpa [patLeaks] using this

/-- The arms of a list are taken only. -/
theorem takeFirst_ne {o : Outcome S R} (ho : takeFirst P code ty v e as s trace = o) :
    (∃ a ∈ as, o.1 = trace ++ [.body a.2]) ∨ (∃ i, e = some i ∧ o.1 = trace ++ [.body i]) ∨
      o = (trace, .unmatched s) := by
  subst ho
  unfold takeFirst
  cases ha : as.find? (isMatch P ty s.2 v) with
  | some a => exact .inl ⟨a, List.mem_of_find?_eq_some ha, rfl⟩
  | none =>
    refine .inr ?_
    unfold takeElse
    cases e with
    | some i => exact .inl ⟨i, rfl, rfl⟩
    | none => exact .inr rfl

theorem takeFirst_ne_body {i : ℕ} {o : Outcome S R} (ho : o.1 = trace ++ [.body i])
    (hi : i ∉ as.map Prod.snd) (he : e ≠ some i) : takeFirst P code ty v e as s trace ≠ o := by
  intro heq
  rcases takeFirst_ne heq with ⟨a, ha, h⟩ | ⟨j, hj, h⟩ | h
  · have : i = a.2 := by simpa using ho.symm.trans h
    exact hi (this ▸ List.mem_map_of_mem ha)
  · have : i = j := by simpa using ho.symm.trans h
    exact he (this ▸ hj)
  · rw [h] at ho
    simp at ho

theorem takeFirst_ne_failed : takeFirst P code ty v e as s trace ≠ (trace, .failed) := by
  intro heq
  rcases takeFirst_ne heq with ⟨a, ha, h⟩ | ⟨j, hj, h⟩ | h
  · simp at h
  · simp at h
  · cases h

/-- Entering an arm shows in the trace, unless it fails. -/
theorem enter_cases (c : Check E) :
    (enter code v c s trace).1 = trace ++ [.body c.arm] ∨
      enter code v c s trace = (trace, .failed) := by
  unfold enter
  split_ifs
  · exact .inl rfl
  · exact .inr rfl

theorem takeFirst_ne_enter {c : Check E} (hi : c.arm ∉ as.map Prod.snd) (he : e ≠ some c.arm) :
    enter code v c s trace ≠ takeFirst P code ty v e as s trace := by
  intro heq
  rcases enter_cases c with h | h
  · exact takeFirst_ne_body h hi he heq.symm
  · exact takeFirst_ne_failed (heq.symm.trans h)

/-- A chain that takes the first arm that matches, for expressions that tell what their names mean,
meets the condition. -/
theorem sound_of_chain_eq (hl : Leaks σ leaks) (hty : HasType P ty s.2 v)
    (hchk : ∀ a ∈ as, ∀ p, a.1.condition = some p → checkPat P ty p = [])
    (htell : ∀ a ∈ as, ∀ ρ ρ', runBody code a.2 ρ s trace = runBody code a.2 ρ' s trace →
      ∀ n ∈ P.uses a.1.body, ρ n = ρ' n)
    (hnodup : (as.map Prod.snd).Nodup) (he : ∀ a ∈ as, e ≠ some a.2)
    (heq : chain itof code v else_ (lowerChecks P σ (as.map (patArm P ty))).1 s trace =
      takeFirst P code ty v e as s trace) :
    (∀ a ∈ as.takeWhile fun a => !isMatch P ty s.2 v a, Skipped P itof ty s.2 v a) ∧
    (∀ pre a post, as = pre ++ a :: post → (∀ b ∈ pre, isMatch P ty s.2 v b = false) →
      isMatch P ty s.2 v a = true → Taken P (leaks ++ pre.flatMap (patLeaks P)) a) ∧
    ((∀ b ∈ as, isMatch P ty s.2 v b = false) →
      runElse code else_ s trace = takeElse code e s trace) := by
  induction as generalizing σ leaks with
  | nil => exact ⟨by simp, by simp, fun _ => heq⟩
  | cons a as ih =>
    obtain ⟨hnot, hnodup'⟩ := List.nodup_cons.mp hnodup
    have he' : ∀ b ∈ as, e ≠ some b.2 := fun b hb => he b (List.mem_cons_of_mem _ hb)
    obtain ⟨⟨_ | p, b⟩, i⟩ := a
    · rw [lowerChecks_none, takeFirst_cons_of_not_match rfl] at heq
      exact absurd heq (takeFirst_ne_enter hnot (he _ List.mem_cons_self))
    · rw [lowerChecks_some, chain_patCheck] at heq
      by_cases hm : p.matches P ty s.2 v = true
      · have hm' : isMatch P ty s.2 v (⟨some p, b⟩, i) = true := hm
        rw [takeFirst_cons_of_match hm', test_of_matches hm] at heq
        simp only at heq
        rw [enter_of_matches hm hty (hchk _ List.mem_cons_self p rfl)] at heq
        have hmeans := htell (⟨some p, b⟩, i) List.mem_cons_self _ _ heq
        refine ⟨?_, ?_, ?_⟩
        · simp [hm']
        · rintro pre a post hsplit hpre ha
          cases pre with
          | nil =>
            cases hsplit
            rintro q hq n hn
            cases hq
            have := (inArm_eq_iff hl).mp (hmeans n hn)
            simpa using this
          | cons c pre =>
            cases hsplit
            rw [hpre _ List.mem_cons_self] at hm'
            cases hm'
        · intro hnone
          rw [hnone _ List.mem_cons_self] at hm'
          cases hm'
      · have hm : p.matches P ty s.2 v = false := by simpa using hm
        have hm' : isMatch P ty s.2 v (⟨some p, b⟩, i) = false := hm
        rw [takeFirst_cons_of_not_match hm'] at heq
        cases ht : p.test P itof ty s.2 v with
        | none =>
          rw [ht] at heq
          exact absurd heq.symm takeFirst_ne_failed
        | some t =>
          rw [ht] at heq
          cases t with
          | true => exact absurd heq (takeFirst_ne_enter hnot (he _ List.mem_cons_self))
          | false =>
            have hl' := (hl.bindPayloads i p.payloads).leave (.body i) (P.binds b)
            obtain ⟨hskip, htaken, helse⟩ := ih hl'
              (fun a ha => hchk a (List.mem_cons_of_mem _ ha))
              (fun a ha => htell a (List.mem_cons_of_mem _ ha)) hnodup' he' heq
            refine ⟨?_, ?_, ?_⟩
            · rw [List.takeWhile_cons_of_pos (by simp [hm'])]
              intro a ha
              rcases List.mem_cons.mp ha with rfl | ha
              · exact skipped_of_test ht
              · exact hskip a ha
            · rintro pre a post hsplit hpre ha
              cases pre with
              | nil =>
                cases hsplit
                rw [hm'] at ha
                cases ha
              | cons c pre =>
                cases hsplit
                have := htaken pre a post rfl (fun d hd => hpre d (List.mem_cons_of_mem _ hd)) ha
                simpa [patLeaks] using this
            · intro hnone
              exact helse fun d hd => hnone d (List.mem_cons_of_mem _ hd)

end All

/-! ## The whole when -/

section Positions

variable {C : Type} {arms : List (Arm C E)} {a : Arm C E × ℕ}

/-- The first `else` is the arm that is not tested. -/
theorem split_else (ha : arms.zipIdx.find? isElse = some a) :
    ∃ pre post, arms.zipIdx = pre ++ a :: post ∧ tested arms = pre ++ post ∧
      a.1.condition = none := by
  obtain ⟨hp, pre, post, hsplit, hpre⟩ := List.find?_eq_some_iff_append.mp ha
  refine ⟨pre, post, hsplit, ?_, by simpa [isElse] using hp⟩
  rw [tested, hsplit, List.eraseP_append_right _ (by simpa using hpre),
    List.eraseP_cons_of_pos hp]

theorem tested_of_no_else (ha : arms.zipIdx.find? isElse = none) : tested arms = arms.zipIdx :=
  List.eraseP_of_forall_not (List.find?_eq_none.mp ha)

theorem nodup_zipIdx (arms : List (Arm C E)) : (arms.zipIdx.map Prod.snd).Nodup := by
  rw [List.zipIdx_map_snd]
  exact List.nodup_range'

theorem tested_sublist (arms : List (Arm C E)) : (tested arms).Sublist arms.zipIdx :=
  List.eraseP_sublist

theorem tested_nodup (arms : List (Arm C E)) : ((tested arms).map Prod.snd).Nodup :=
  ((tested_sublist arms).map _).nodup (nodup_zipIdx arms)

theorem getElem?_of_tested (ha : a ∈ tested arms) : arms[a.2]? = some a.1 :=
  List.mem_zipIdx_iff_getElem?.mp ((tested_sublist arms).subset ha)

theorem getElem?_of_else (ha : arms.zipIdx.find? isElse = some a) : arms[a.2]? = some a.1 :=
  List.mem_zipIdx_iff_getElem?.mp (List.mem_of_find?_eq_some ha)

theorem firstElse_ne (ha : a ∈ tested arms) : firstElse arms ≠ some a.2 := by
  intro h
  obtain ⟨b, hb, hba⟩ := Option.map_eq_some_iff.mp h
  obtain ⟨pre, post, hsplit, htested, -⟩ := split_else hb
  have hnodup := nodup_zipIdx arms
  rw [hsplit, List.map_append, List.map_cons, List.nodup_middle, List.nodup_cons] at hnodup
  refine hnodup.1 ?_
  rw [hba, ← List.map_append, ← htested]
  exact List.mem_map_of_mem ha

theorem tested_ne_nil_of (h : tested arms ≠ []) : arms ≠ [] := by
  rintro rfl
  exact h rfl

end Positions

theorem takeFirst_tested {ty : Ty} {v : Value} {e : Option ℕ} {arms : List (Arm (Pat L) E)}
    {s : S × Heap} {trace : List Part} :
    takeFirst P code ty v e arms.zipIdx s trace =
      takeFirst P code ty v e (tested arms) s trace := by
  unfold takeFirst
  cases ha : arms.zipIdx.find? isElse with
  | none => rw [tested_of_no_else ha]
  | some a =>
    obtain ⟨pre, post, hsplit, htested, hnone⟩ := split_else ha
    have hm : isMatch P ty s.2 v a = false := by simp [isMatch, hnone]
    rw [hsplit, htested, List.find?_append, List.find?_append,
      List.find?_cons_of_neg (by simp [hm])]

theorem lowerChecks_eq_nil {σ : Scope} {as : List (HirWhenArm E × ℕ)} :
    (lowerChecks P σ as).1 = [] ↔ as = [] := by
  cases as <;> simp [lowerChecks]

section Whole

variable {scrut : E} {arms : List (Arm (Pat L) E)} {ret v : Value} {h : Heap}

/-- What the lowered tests and the lowered `else` of a `when` over a value are. -/
abbrev overChecks (P : Program E L) (scrut : E) (arms : List (Arm (Pat L) E)) :
    List (Check E) × Scope :=
  lowerChecks P (leave .scrut (P.binds scrut) Place.around)
    ((tested arms).map (patArm P (P.type scrut)))

theorem scrut_leaks :
    Leaks (leave .scrut (P.binds scrut) Place.around) (P.binds scrut) := by
  simpa using Leaks.around.leave .scrut (P.binds scrut)

theorem overChecks_leaks (P : Program E L) (scrut : E) (arms : List (Arm (Pat L) E)) :
    Leaks (overChecks P scrut arms).2 (P.binds scrut ++ (tested arms).flatMap (patLeaks P)) :=
  lowerChecks_leaks scrut_leaks

theorem lowerWhen_over :
    lowerWhen P (buildWhen P (.over scrut arms)) =
      ⟨true, arms.isEmpty, (overChecks P scrut arms).1,
        (arms.zipIdx.find? isElse).map fun a => (a.2, (overChecks P scrut arms).2)⟩ := by
  simp only [lowerWhen, buildWhen, tested_build, else_build, scopeIn, Option.map_map]
  simp [comp_def]

theorem run_over (hne : arms ≠ []) {s : S × Heap} {x : S}
    (hgive : code .scrut (plain Place.around) s = .value v (x, h)) :
    (lowerWhen P (buildWhen P (.over scrut arms))).run itof code ret s =
      if tested arms = [] then ([.scrut], .restarted)
      else chain itof code v
        ((arms.zipIdx.find? isElse).map fun a => (a.2, (overChecks P scrut arms).2))
        (overChecks P scrut arms).1 (x, h) [.scrut] := by
  have hemp : ¬ arms.isEmpty = true := by simpa using hne
  rw [lowerWhen_over, Lowered.run, if_neg hemp, if_pos rfl, hgive]
  simp only [Lowered.runChecks, lowerChecks_eq_nil, List.map_eq_nil_iff]

theorem SoundOver.correct (hty : HasType P (P.type scrut) h v)
    (hchk : ∀ a ∈ arms, ∀ p, a.condition = some p → checkPat P (P.type scrut) p = [])
    (hs : SoundOver P itof scrut arms v h) :
    (When.over scrut arms).Correct P itof ret v h := by
  rintro S R code s hr ⟨x, hgive⟩
  rw [ends_iff, run_over (tested_ne_nil_of hs.nonempty) hgive, if_neg hs.nonempty, When.spec, hgive]
  simp only
  rw [takeFirst_tested]
  refine (chain_eq_takeFirst (s := (x, h)) scrut_leaks hty ?_ ?_ hs.skipped hs.taken ?_).symm
  · intro a ha
    exact hchk a.1 (List.mem_of_getElem? (getElem?_of_tested ha))
  · intro a ha ρ ρ' hρ
    exact hr.uses _ _ (by simp [When.part, getElem?_of_tested ha]) ρ ρ' _ hρ
  · intro hnone
    unfold firstElse
    cases ha : arms.zipIdx.find? isElse with
    | none => rfl
    | some a =>
      have hclear := hs.else_ hnone a ha
      have huses : code (.body a.2) (plain (overChecks P scrut arms).2) (x, h) =
          code (.body a.2) (plain Place.around) (x, h) := by
        refine hr.uses _ a.1.body (by simp [When.part, getElem?_of_else ha]) _ _ _ ?_
        intro n hn
        have := overChecks_leaks P scrut arms n
        rw [if_neg (hclear n hn)] at this
        rw [plain, this]
        rfl
      simp only [Option.map_some, runElse, takeElse, runBody, huses]

/-- Expressions that tell what their names mean. -/
def probe (P : Program E L) (w : When E L) (v : Value) (h : Heap) :
    Code Unit (String → Option Meaning) := fun p ρ _ =>
  match p with
  | .scrut => .value v ((), h)
  | p => .left fun n => if n ∈ (w.part p).elim [] P.uses then some (ρ n) else none

theorem probe_respects (w : When E L) (v : Value) (h : Heap) : Respects P w (probe P w v h) where
  uses p e hp ρ ρ' s hρ := by
    cases p with
    | scrut => rfl
    | cond i | body i =>
      simp only [probe, hp, Option.elim_some]
      congr 1
      funext n
      split_ifs with hn
      · rw [hρ n hn]
      · rfl
  boolean i ρ s v s' hv := by cases hv

theorem probe_tells {w : When E L} {i : ℕ} {e : E} (hp : w.part (.body i) = some e)
    {ρ ρ' : String → Meaning} {s : Unit × Heap} {trace : List Part}
    (heq : runBody (probe P w v h) i ρ s trace = runBody (probe P w v h) i ρ' s trace) :
    ∀ n ∈ P.uses e, ρ n = ρ' n := by
  intro n hn
  simp only [runBody, probe, hp, Option.elim_some, Prod.mk.injEq, End.left.injEq, true_and] at heq
  have := congrFun heq n
  simpa [hn] using this

theorem SoundOver.of_correct (hty : HasType P (P.type scrut) h v)
    (hchk : ∀ a ∈ arms, ∀ p, a.condition = some p → checkPat P (P.type scrut) p = [])
    (hc : (When.over scrut arms).Correct P itof ret v h) : SoundOver P itof scrut arms v h := by
  set w : When E L := .over scrut arms with hw
  have heq := ends_iff.mp (hc _ _ (probe P w v h) ((), h) (probe_respects w v h) ⟨(), rfl⟩)
  have hspec : w.spec P (probe P w v h) ((), h) =
      takeFirst P (probe P w v h) (P.type scrut) v (firstElse arms) (tested arms) ((), h)
        [.scrut] := by
    rw [hw, When.spec, ← takeFirst_tested]
    rfl
  rw [hspec] at heq
  have hne : arms ≠ [] := by
    rintro rfl
    rw [hw, lowerWhen_over, Lowered.run, if_pos rfl] at heq
    cases heq
  rw [hw, run_over hne rfl] at heq
  have htested : tested arms ≠ [] := by
    intro hnil
    rw [if_pos hnil] at heq
    rcases takeFirst_ne heq with ⟨a, ha, h⟩ | ⟨j, hj, h⟩ | h
    · simp at h
    · simp at h
    · cases h
  rw [if_neg htested] at heq
  obtain ⟨hskip, htaken, helse⟩ := sound_of_chain_eq (s := ((), h)) scrut_leaks hty
    (fun a ha => hchk a.1 (List.mem_of_getElem? (getElem?_of_tested ha)))
    (fun a ha ρ ρ' => probe_tells (by simp [When.part, getElem?_of_tested ha]))
    (tested_nodup arms) (fun a ha => firstElse_ne ha) heq.symm
  refine ⟨htested, hskip, htaken, ?_⟩
  intro hnone a ha n hn
  have := helse hnone
  unfold firstElse at this
  rw [ha] at this
  have hmeans := probe_tells (v := v) (h := h) (s := ((), h))
    (by simp [When.part, getElem?_of_else ha]) this n hn
  intro hleak
  have hplace := overChecks_leaks P scrut arms n
  rw [if_pos hleak] at hplace
  exact hplace.1 n (congrArg Meaning.place hmeans)

end Whole

end Loxis.Whens
