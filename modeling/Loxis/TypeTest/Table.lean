import Loxis.TypeTest.Ids

/-! # The table of parents

With distinct ids the table has, for each emitted class, the parent it was built with, and
nothing for templates, enum classes and closure environments.
-/

namespace Loxis.TypeTest

open Program
open Mono (Ident Ty makeSubst substEach)

variable {table : List ℕ} {classes : List HirClass} {es : List Emit} {p : Program}

/-! ## Looking up a parent -/

def parentAt (table : List ℕ) (id : ℕ) : ℕ := (table[id]?).getD noTypeId

theorem parentAt_resize (n id : ℕ) : parentAt (resize table n) id = parentAt table id := by
  rw [parentAt, parentAt, resize]
  obtain hlt | hle := Nat.lt_or_ge id table.length
  · rw [List.getElem?_append_left hlt]
  · rw [List.getElem?_append_right hle, List.getElem?_eq_none hle, List.getElem?_replicate]
    split <;> rfl

theorem parentAt_addParent (c : HirClass) (id : ℕ) : parentAt (addParent table c) id =
    if c.typeId ≠ noTypeId ∧ id = c.typeId then c.parentTypeId else parentAt table id := by
  rw [addParent]
  by_cases hmissing : c.typeId = noTypeId
  · simp [hmissing]
  · rw [if_neg hmissing]
    by_cases hid : id = c.typeId
    · subst hid
      have hlt : c.typeId < (resize table (c.typeId + 1)).length := by
        rw [resize, List.length_append, List.length_replicate]
        omega
      simp [parentAt, hmissing, hlt]
    · rw [if_neg fun h => hid h.2, parentAt, List.getElem?_set_ne (Ne.symm hid)]
      exact parentAt_resize (c.typeId + 1) id

theorem parentAt_build_of_ne {id : ℕ}
    (h : ∀ c ∈ classes, c.typeId ≠ noTypeId → c.typeId ≠ id) :
    parentAt (buildVTableMetadata classes) id = noTypeId := by
  induction classes using List.reverseRecOn with
  | nil => rfl
  | append_singleton classes c ih =>
    rw [buildVTableMetadata, List.foldl_append, List.foldl_cons, List.foldl_nil,
      parentAt_addParent, if_neg]
    · exact ih fun c' hc' => h c' (List.mem_append_left _ hc')
    · rintro ⟨hmissing, heq⟩
      exact h c (List.mem_append_right _ (.head _)) hmissing heq.symm

theorem parentAt_build {c : HirClass} (hc : c ∈ classes) (hmissing : c.typeId ≠ noTypeId)
    (h : ∀ c' ∈ classes, c'.typeId = c.typeId → c'.parentTypeId = c.parentTypeId) :
    parentAt (buildVTableMetadata classes) c.typeId = c.parentTypeId := by
  induction classes using List.reverseRecOn with
  | nil => cases hc
  | append_singleton classes c' ih =>
    rw [buildVTableMetadata, List.foldl_append, List.foldl_cons, List.foldl_nil,
      parentAt_addParent]
    by_cases heq : c.typeId = c'.typeId
    · rw [if_pos ⟨heq ▸ hmissing, heq⟩]
      exact h c' (List.mem_append_right _ (.head _)) heq.symm
    · rw [if_neg fun hc' => heq hc'.2]
      refine ih ?_ fun c'' hc'' => h c'' (List.mem_append_left _ hc'')
      obtain hc | hc := List.mem_append.mp hc
      · exact hc
      · exact absurd (congrArg HirClass.typeId (List.mem_singleton.mp hc)) heq

/-- One round of the test's loop. -/
theorem isA_succ {target fuel type : ℕ} (hmissing : type ≠ noTypeId) (hne : type ≠ target) :
    isA table target (fuel + 2) type = isA table target (fuel + 1) (parentAt table type) := by
  rw [isA, if_neg hmissing, if_neg hne, parentAt]
  cases table[type]? with
  | none => rfl
  | some parent => rfl

theorem isA_missing {target fuel : ℕ} : isA table target (fuel + 1) noTypeId = some false :=
  if_pos rfl

/-! ## Positions of specialisations -/

theorem countP_take_lt {k n : ℕ} {e : Emit} (he : es[k]? = some e) (hspec : e.isSpec)
    (hk : k < n) : (es.take k).countP Emit.isSpec < (es.take n).countP Emit.isSpec := by
  have htake : es.take (k + 1) = es.take k ++ [e] := by
    rw [List.take_add_one, he]
    rfl
  have hle : (es.take (k + 1)).countP Emit.isSpec ≤ (es.take n).countP Emit.isSpec :=
    (List.take_sublist_take_left hk).countP_le
  rw [htake, List.countP_append, List.countP_singleton, if_pos hspec] at hle
  exact hle

theorem countP_take_lt_total {k : ℕ} {e : Emit} (he : es[k]? = some e) (hspec : e.isSpec) :
    (es.take k).countP Emit.isSpec < es.countP Emit.isSpec := by
  have hlt := countP_take_lt he hspec (List.getElem?_eq_some_iff.mp he).1
  rwa [List.take_length] at hlt

theorem spec_position_unique {k n : ℕ} {e e' : Emit} (he : es[k]? = some e)
    (he' : es[n]? = some e') (hspec : e.isSpec) (hspec' : e'.isSpec)
    (heq : (es.take k).countP Emit.isSpec = (es.take n).countP Emit.isSpec) : k = n := by
  obtain hlt | heq' | hlt := Nat.lt_trichotomy k n
  · have := countP_take_lt he hspec hlt
    omega
  · exact heq'
  · have := countP_take_lt he' hspec' hlt
    omega

/-! ## The emitted classes -/

/-- The type id of the specialisation at a position of the output. -/
def Program.specId (p : Program) (k : ℕ) : ℕ :=
  p.decls.length + (p.emitted.take k).countP Emit.isSpec

theorem Program.specId_bounds {k : ℕ} {e : Emit} (he : p.emitted[k]? = some e)
    (hspec : e.isSpec) : p.decls.length ≤ p.specId k ∧
      p.specId k < p.decls.length + p.emitted.countP Emit.isSpec := by
  have := countP_take_lt_total he hspec
  rw [specId]
  omega

section Classes

variable (hwf : p.WellFormed) (hids : p.IdsCondition)

include hids in
theorem classes_copy {k i : ℕ} {d : Decl} (he : p.emitted[k]? = some (.copy i))
    (hd : p.decls[i]? = some d) : p.classes[k]? = some (buildItem p.decls i d) := by
  have hbounded := hids.bounded
  have hle : p.decls.length ≤ noTypeId := by omega
  have hnext := Nat.lt_of_le_of_lt (firstTypeId_le hle) noTypeId_lt
  rw [classes, monomorphize_copy hnext he, build_getD hd]

include hids in
/-- The copy of a class or object has the declaration's id. -/
theorem copy_typeId {i : ℕ} {d : Decl} (hd : p.decls[i]? = some d)
    (h : (buildItem p.decls i d).typeId ≠ noTypeId) :
    (buildItem p.decls i d).typeId = i ∧ d.kind ≠ .enum := by
  have hbounded := hids.bounded
  have hlt := (List.getElem?_eq_some_iff.mp hd).1
  have hrange := noTypeId_lt
  rw [buildItem_typeId] at h ⊢
  by_cases hkind : d.kind = .enum
  · exact absurd (builtId_enum hkind) h
  · exact ⟨builtId_of_ne hkind (by omega), hkind⟩

include hwf hids

theorem classes_spec {k i : ℕ} {typeArgs : List Ty} {d : Decl}
    (he : p.emitted[k]? = some (.spec i typeArgs)) (hd : p.decls[i]? = some d) :
    p.classes[k]? = some ⟨p.specId k, (buildItem p.decls i d).parentTypeId⟩ := by
  have hbounded := hids.bounded
  have hle : p.decls.length ≤ noTypeId := by omega
  have hnext := Nat.lt_of_le_of_lt (firstTypeId_le hle) noTypeId_lt
  have hpos : 0 < p.emitted.countP Emit.isSpec :=
    List.countP_pos_iff.mpr ⟨_, List.mem_of_getElem? he, rfl⟩
  have hfirst := (firstTypeId_of_lastCounts hle (hwf.decls_pos hpos)).2
    (IdsCondition.fresh_iff.mp hids.fresh hpos)
  have hlt : p.specId k < idRange := by
    have hspec := specId_bounds he rfl
    have hrange := noTypeId_lt
    omega
  rw [classes, monomorphize_spec hnext he, build_getD hd, hfirst]
  rw [specId] at hlt ⊢
  rw [Nat.mod_eq_of_lt hlt]

/-- An emitted class is the copy of a declaration or a specialisation. -/
theorem classes_mem {c : HirClass} (hc : c ∈ p.classes) :
    (∃ i d, .copy i ∈ p.emitted ∧ p.decls[i]? = some d ∧ c = buildItem p.decls i d) ∨
      ∃ k i typeArgs d, p.emitted[k]? = some (.spec i typeArgs) ∧ p.decls[i]? = some d ∧
        c = ⟨p.specId k, (buildItem p.decls i d).parentTypeId⟩ := by
  obtain ⟨k, hk⟩ := List.mem_iff_getElem?.mp hc
  have hbounded := hids.bounded
  have hle : p.decls.length ≤ noTypeId := by omega
  have hnext := Nat.lt_of_le_of_lt (firstTypeId_le hle) noTypeId_lt
  obtain ⟨e, he⟩ : ∃ e, p.emitted[k]? = some e := by
    rw [classes, monomorphize_getElem? hnext, Option.map_eq_some_iff] at hk
    obtain ⟨e, he, -⟩ := hk
    exact ⟨e, he⟩
  cases e with
  | copy i =>
    have hmem := List.mem_of_getElem? he
    obtain ⟨d, hd, -⟩ := (hwf.copies i).mp hmem
    exact .inl ⟨i, d, hmem, hd, Option.some.inj (hk.symm.trans (classes_copy hids he hd))⟩
  | spec i typeArgs =>
    obtain ⟨d, hd, -⟩ := hwf.specs i typeArgs (List.mem_of_getElem? he)
    exact .inr ⟨k, i, typeArgs, d, he, hd,
      Option.some.inj (hk.symm.trans (classes_spec hwf hids he hd))⟩

/-! ## Parents -/

theorem parentAt_copy {i : ℕ} {d : Decl} (hd : p.decls[i]? = some d) (hgenerics : d.generics = [])
    (hkind : d.kind ≠ .enum) :
    parentAt p.typeParents i = (buildItem p.decls i d).parentTypeId := by
  have hbounded := hids.bounded
  have hlt := (List.getElem?_eq_some_iff.mp hd).1
  have hrange := noTypeId_lt
  obtain ⟨k, hk⟩ := List.mem_iff_getElem?.mp ((hwf.copies i).mpr ⟨d, hd, hgenerics⟩)
  have hmem := List.mem_of_getElem? (classes_copy hids hk hd)
  have hid : (buildItem p.decls i d).typeId = i := by
    rw [buildItem_typeId]
    exact builtId_of_ne hkind (by omega)
  have hmissing : (buildItem p.decls i d).typeId ≠ noTypeId := by omega
  have hparent := parentAt_build hmem hmissing fun c hc heq => ?_
  · rwa [hid] at hparent
  obtain ⟨j, d', -, hd', rfl⟩ | ⟨n, j, typeArgs, d', he, -, rfl⟩ := classes_mem hwf hids hc
  · have hj := (copy_typeId hids hd' (heq ▸ hmissing)).1
    obtain rfl : j = i := hj.symm.trans (heq.trans hid)
    obtain rfl := Option.some.inj (hd.symm.trans hd')
    rfl
  · have hspec := (specId_bounds he rfl).1
    rw [hid] at heq
    dsimp only at heq
    omega

theorem parentAt_template {i : ℕ} {d : Decl} (hd : p.decls[i]? = some d)
    (h : d.generics ≠ [] ∨ d.kind = .enum) : parentAt p.typeParents i = noTypeId := by
  have hlt := (List.getElem?_eq_some_iff.mp hd).1
  apply parentAt_build_of_ne
  intro c hc hmissing heq
  obtain ⟨j, d', hj, hd', rfl⟩ | ⟨n, j, typeArgs, d', he, -, rfl⟩ := classes_mem hwf hids hc
  · obtain ⟨hid, hkind⟩ := copy_typeId hids hd' hmissing
    obtain rfl : j = i := hid.symm.trans heq
    obtain rfl := Option.some.inj (hd.symm.trans hd')
    obtain ⟨d₀, hd₀, hgenerics⟩ := (hwf.copies j).mp hj
    obtain rfl := Option.some.inj (hd.symm.trans hd₀)
    exact h.elim (absurd hgenerics) (absurd · hkind)
  · have hspec := (specId_bounds he rfl).1
    dsimp only at heq
    omega

theorem parentAt_spec {k i : ℕ} {typeArgs : List Ty} {d : Decl}
    (he : p.emitted[k]? = some (.spec i typeArgs)) (hd : p.decls[i]? = some d) :
    parentAt p.typeParents (p.specId k) = (buildItem p.decls i d).parentTypeId := by
  have hbounded := hids.bounded
  have hspec := specId_bounds he rfl
  have hmem := List.mem_of_getElem? (classes_spec hwf hids he hd)
  refine parentAt_build hmem (by dsimp only; omega) fun c hc heq => ?_
  dsimp only at heq
  obtain ⟨j, d', -, hd', rfl⟩ | ⟨n, j, typeArgs', d', he', hd', rfl⟩ := classes_mem hwf hids hc
  · have hj := (copy_typeId hids hd' (by omega)).1
    have hlt := (List.getElem?_eq_some_iff.mp hd').1
    omega
  · have hcount : (p.emitted.take n).countP Emit.isSpec =
        (p.emitted.take k).countP Emit.isSpec := by
      dsimp only [specId] at heq
      omega
    obtain rfl := spec_position_unique he' he rfl rfl hcount
    cases Option.some.inj (he.symm.trans he')
    cases Option.some.inj (hd.symm.trans hd')
    rfl

theorem parentAt_above {id : ℕ}
    (h : p.decls.length + p.emitted.countP Emit.isSpec ≤ id) :
    parentAt p.typeParents id = noTypeId := by
  apply parentAt_build_of_ne
  intro c hc hmissing heq
  obtain ⟨j, d, -, hd, rfl⟩ | ⟨n, j, typeArgs, d, he, -, rfl⟩ := classes_mem hwf hids hc
  · have hid := (copy_typeId hids hd hmissing).1
    have hlt := (List.getElem?_eq_some_iff.mp hd).1
    omega
  · have hspec := (specId_bounds he rfl).2
    dsimp only at heq
    omega

end Classes

end Loxis.TypeTest
