import Loxis.Classes.Access
import Loxis.Classes.Slots

/-! # When class layout is sound

The layout is sound when objects are small, no field is declared twice on a chain, and every
superclass is resolved before it is copied, with methods that are copied whole. The conditions
on fields are necessary.
-/

namespace Loxis.Classes

variable {items pre post : List Item} {decl sup : ClassDecl} {d e : ClassDef}
  {l : List ClassDecl} {fs gs : List FieldDecl}

theorem slot_inj {n i k : ℕ} (hbounded : slotSize * n < 2 ^ 32) (hi : i < n) (hk : k < n)
    (heq : slotSize * i % 2 ^ 32 = slotSize * k % 2 ^ 32) : i = k := by
  have hsmall : ∀ j, j < n → slotSize * j % 2 ^ 32 = slotSize * j := fun j hj =>
    Nat.mod_eq_of_lt
      (Nat.lt_of_le_of_lt (Nat.mul_le_mul_left _ (Nat.le_of_lt hj)) hbounded)
  rw [hsmall i hi, hsmall k hk] at heq
  exact Nat.eq_of_mul_eq_mul_left (by decide : 0 < slotSize) heq

/-! ## Sufficiency -/

theorem ClassDef.Places.disjoint (h : d.Places fs) (hbounded : slotSize * fs.length < 2 ^ 32) :
    d.fields.Pairwise (fun f g =>
      f.offset + slotSize ≤ g.offset ∨ g.offset + slotSize ≤ f.offset) ∧
    ∀ f ∈ d.fields, f.offset + slotSize ≤ d.totalFieldSize := by
  -- the offset of the field at an index
  have hoffset : ∀ (i : ℕ) f, d.fields[i]? = some f →
      i < fs.length ∧ f.offset = slotSize * i := by
    intro i f hf
    rw [h.1] at hf
    obtain ⟨g, hg, rfl⟩ := getElem?_placed.mp hf
    have hi : i < fs.length := (List.getElem?_eq_some_iff.mp hg).1
    refine ⟨hi, Nat.mod_eq_of_lt ?_⟩
    rw [slotSize] at hbounded ⊢
    omega
  constructor
  · rw [List.pairwise_iff_getElem]
    intro i j hi hj hij
    obtain ⟨-, hfi⟩ := hoffset i _ (List.getElem?_eq_getElem hi)
    obtain ⟨-, hfj⟩ := hoffset j _ (List.getElem?_eq_getElem hj)
    rw [hfi, hfj, slotSize]
    omega
  · intro f hf
    obtain ⟨i, hi⟩ := List.mem_iff_getElem?.mp hf
    obtain ⟨hlt, hfi⟩ := hoffset i f hi
    rw [hfi, h.2, Nat.mod_eq_of_lt hbounded, slotSize]
    omega

theorem prefix_offsets (hd : d.Places (fs ++ gs)) (he : e.Places fs) :
    offsets e <+: offsets d := by
  rw [offsets_eq hd, offsets_eq he]
  exact prefix_placed.map _

theorem FieldCondition.stable {items' : List Item} {d' : ClassDef} (hwf : WellFormed items)
    (hcond : FieldCondition items) (hperm : items'.Perm items) (hfirst : SuperFirst items')
    (hdecl : .cls decl ∈ items) (hd : (build items).classDef decl.name = some d)
    (hd' : (build items').classDef decl.name = some d') : offsets d = offsets d' := by
  have hwf' := hwf.perm hperm
  obtain ⟨l, hchain⟩ := hwf.chain hdecl
  obtain ⟨d₁, hd₁, hplaces, -⟩ := hchain.places hwf hcond.ordered
  obtain ⟨d₂, hd₂, hplaces', -⟩ :=
    (hchain.subset hperm.symm.subset).places hwf' (hfirst.fieldsFirst hwf')
  obtain rfl := Option.some.inj (hd.symm.trans hd₁)
  obtain rfl := Option.some.inj (hd'.symm.trans hd₂)
  rw [offsets_eq hplaces, offsets_eq hplaces']

theorem FieldCondition.layoutSound (hwf : WellFormed items) (hcond : FieldCondition items)
    (hslots : SlotCondition items) : LayoutSound items where
  disjoint decl d hdecl hd := by
    obtain ⟨l, hchain⟩ := hwf.chain hdecl
    obtain ⟨d', hd', hplaces, -⟩ := hchain.places hwf hcond.ordered
    obtain rfl := Option.some.inj (hd.symm.trans hd')
    exact hplaces.disjoint (hcond.bounded decl l hchain)
  fieldsPrefix decl sup d e hdecl hsuper hd he := by
    obtain ⟨sup', hsup', hname⟩ := hwf.supers decl _ hdecl hsuper
    obtain ⟨l, hchain⟩ := hwf.chain hsup'
    rw [← hname] at hsuper he
    obtain ⟨e', he', hfs, -⟩ := hchain.places hwf hcond.ordered
    obtain ⟨d', hd', hplaces, -⟩ :=
      (Chain.step hdecl hsuper hchain).places hwf hcond.ordered
    obtain rfl := Option.some.inj (he.symm.trans he')
    obtain rfl := Option.some.inj (hd.symm.trans hd')
    exact prefix_offsets (chainFields_cons ▸ hplaces) hfs
  slotsPrefix decl sup d e hdecl hsuper hd he := by
    obtain ⟨sup', hsup', hname⟩ := hwf.supers decl _ hdecl hsuper
    obtain ⟨l, hchain⟩ := hwf.chain hsup'
    rw [← hname] at hsuper he
    exact hslots.prefix_slots hwf hdecl hsuper hchain hd he
  linked decl d s hdecl hsuper hd := by
    obtain ⟨l, hchain⟩ := hwf.chain hdecl
    obtain ⟨d', hd', -, hlinked⟩ := hchain.places hwf hcond.ordered
    obtain rfl := Option.some.inj (hd.symm.trans hd')
    exact hlinked.trans hsuper
  stable items' hperm hfirst decl d d' hdecl hd hd' :=
    hcond.stable hwf hperm hfirst hdecl hd hd'
  access n fuel decl l name f hchain := hcond.access hwf hchain

/-! ## Necessity -/

theorem LayoutSound.fieldsFirst (hwf : WellFormed items) (h : LayoutSound items) :
    FieldsFirst items := by
  intro pre decl post sup l hitems hsuper hchain hne
  by_contra hpre
  have hpost : .cls sup ∈ Item.cls decl :: post :=
    (List.mem_append.mp (hitems ▸ hchain.mem)).resolve_left hpre
  have hdecl : .cls decl ∈ items := hitems ▸ List.mem_append_right pre (.head _)
  obtain ⟨d, hd, hplaces, -⟩ := build_places_todo hwf.names hitems hsuper hpost
  -- superclasses first, the class has more fields
  obtain ⟨items', hperm, hfirst⟩ := hwf.exists_superFirst
  have hwf' := hwf.perm hperm
  have hchain' : Chain items' decl (decl :: l) :=
    (Chain.step hdecl hsuper hchain).subset hperm.symm.subset
  obtain ⟨d', hd', hplaces', -⟩ := hchain'.places hwf' (hfirst.fieldsFirst hwf')
  have hlen := congrArg List.length (h.stable items' hperm hfirst decl d d' hdecl hd hd')
  rw [offsets_length hplaces, offsets_length hplaces', chainFields_cons, List.length_append] at hlen
  exact hne (List.length_eq_zero_iff.mp (by omega))

theorem LayoutSound.bounded (hwf : WellFormed items) (h : LayoutSound items)
    (hchain : Chain items decl l) : slotSize * (chainFields l).length < 2 ^ 32 := by
  by_contra hlarge
  obtain ⟨d, hd, hplaces, -⟩ := hchain.places hwf (h.fieldsFirst hwf)
  -- the last slot below 4 GiB does not fit
  have hlt : 477218588 < (chainFields l).length := by
    rw [slotSize] at hlarge
    omega
  obtain ⟨f, hf, hoffset⟩ : ∃ f, d.fields[477218588]? = some f ∧
      f.offset = slotSize * 477218588 % 2 ^ 32 := by
    rw [hplaces.1]
    exact ⟨_, getElem?_placed.mpr ⟨_, List.getElem?_eq_getElem hlt, rfl⟩, rfl⟩
  have hle := (h.disjoint decl d hchain.mem hd).2 f (List.mem_of_getElem? hf)
  rw [hplaces.2, hoffset] at hle
  simp only [slotSize] at hle
  omega

theorem LayoutSound.distinct (hwf : WellFormed items) (h : LayoutSound items)
    (hchain : Chain items decl (decl :: l)) {c : ClassDecl} (hc : c ∈ l) {name : String}
    (hdecl : decl.Declares name) : ¬ c.Declares name := by
  intro hcdecl
  obtain ⟨d, hd, hplaces, -⟩ := hchain.places hwf (h.fieldsFirst hwf)
  have hbounded := h.bounded hwf hchain
  obtain ⟨d', hd', hoffsets, -⟩ : ∃ d', (checkedScope items (declaredFields items).length).classDef
      decl.name = some d' ∧ SameLayout d' d := checkFields_some hd
  -- the first field of the name is an ancestor's
  obtain ⟨g, hg, rfl⟩ := hcdecl
  have hmem : g ∈ chainFields l := List.mem_flatMap.mpr ⟨c, List.mem_reverse.mpr hc, hg⟩
  obtain ⟨j, hj⟩ := List.mem_iff_getElem?.mp hmem
  have hlt : j < (chainFields l).length := (List.getElem?_eq_some_iff.mp hj).1
  rw [chainFields_cons] at hplaces hbounded
  obtain ⟨f, i, hf, hij, hfi⟩ := hplaces.find? hoffsets
    ((List.getElem?_append_left hlt).trans hj)
  have hlookup := lookupField_all hchain.mem hdecl hd' hf
  -- the access is to the class's own
  obtain ⟨below, owner, above, e, hl, hbelow, -, he, g', hg', -, hoffset⟩ :=
    h.access _ _ decl _ _ f hchain hlookup
  cases below with
  | cons c below =>
    cases hl
    exact hbelow decl (.head _) hdecl
  | nil =>
    cases hl
    obtain rfl := Option.some.inj (hd.symm.trans he)
    obtain ⟨k, hk, hklt, hgk⟩ := hplaces.own_offset hg'
    rw [List.length_append] at hbounded hklt
    have hik := slot_inj hbounded (by omega) hklt (hfi.symm.trans (hoffset.symm.trans hgk))
    omega

theorem LayoutSound.fieldCondition (hwf : WellFormed items) (h : LayoutSound items) :
    FieldCondition items where
  bounded _ _ := h.bounded hwf
  ordered := h.fieldsFirst hwf
  distinct _ _ hchain _ hc _ := h.distinct hwf hchain hc

/-! ## The condition -/

theorem layout_sound (hwf : WellFormed items) :
    (FieldCondition items ∧ SlotCondition items → LayoutSound items) ∧
      (LayoutSound items → FieldCondition items) :=
  ⟨fun h => h.1.layoutSound hwf h.2, fun h => h.fieldCondition hwf⟩

/-! ## Examples -/

def shape : ClassDecl :=
  ⟨"Shape", none, [], [⟨"name", true, false⟩], [], [⟨"area", 0, true, false, false⟩]⟩

def square : ClassDecl :=
  ⟨"Square", some "Shape", [], [⟨"side", true, false⟩], [], [⟨"area", 0, false, false, true⟩]⟩

theorem shapes_cls {decl : ClassDecl} (h : .cls decl ∈ [Item.cls shape, .cls square]) :
    decl = shape ∨ decl = square := by
  simpa using h

theorem shapes_wellFormed {items : List Item} (h : items.Perm [.cls shape, .cls square]) :
    WellFormed items := by
  apply WellFormed.perm _ h
  constructor
  · decide
  · intro decl s hdecl hsuper
    obtain rfl | rfl := shapes_cls hdecl
    · cases hsuper
    · cases hsuper
      exact ⟨shape, .head _, rfl⟩
  · refine ⟨fun name => if name = "Shape" then 0 else 1, fun decl s hdecl hsuper => ?_⟩
    obtain rfl | rfl := shapes_cls hdecl
    · cases hsuper
    · cases hsuper
      decide

theorem subclassFirst_not_sound : ¬ ∀ items, WellFormed items → LayoutSound items := by
  intro h
  have hwf : WellFormed [.cls square, .cls shape] := shapes_wellFormed (.swap ..)
  have hprefix := (h _ hwf).fieldsPrefix square shape _ _ (.head _) rfl rfl rfl
  revert hprefix
  decide +kernel

theorem shapes_chain {decl : ClassDecl} {l : List ClassDecl}
    (h : Chain [.cls shape, .cls square] decl l) :
    decl = shape ∧ l = [shape] ∨ decl = square ∧ l = [square, shape] := by
  have hwf : WellFormed [.cls shape, .cls square] := shapes_wellFormed (.refl _)
  have hshape : Chain [.cls shape, .cls square] shape [shape] := .top (.head _) rfl
  obtain rfl | rfl := shapes_cls h.mem
  · exact .inl ⟨rfl, hwf.chain_unique h hshape⟩
  · exact .inr ⟨rfl, hwf.chain_unique h (.step (.tail _ (.head _)) rfl hshape)⟩

/-- The one class with a superclass. -/
theorem shapes_super {pre post : List Item} {decl : ClassDecl} {s : String}
    (hitems : [.cls shape, .cls square] = pre ++ .cls decl :: post)
    (hsuper : decl.superName = some s) : decl = square ∧ pre = [.cls shape] := by
  match pre with
  | [] =>
    cases hitems
    cases hsuper
  | [_] =>
    cases hitems
    exact ⟨rfl, rfl⟩
  | _ :: _ :: _ => simp at hitems

theorem shapes_sound : LayoutSound [.cls shape, .cls square] := by
  have hsup : ∀ (sup : ClassDecl) l, square.superName = some sup.name →
      Chain [.cls shape, .cls square] sup l → sup = shape := by
    intro sup l hsuper hchain
    obtain ⟨rfl, -⟩ | ⟨rfl, -⟩ := shapes_chain hchain
    · rfl
    · exact absurd hsuper (by decide)
  apply (layout_sound (shapes_wellFormed (.refl _))).1
  refine ⟨⟨?_, ?_, ?_⟩, ?_⟩
  · intro decl l h
    obtain ⟨rfl, rfl⟩ | ⟨rfl, rfl⟩ := shapes_chain h <;> decide
  · intro pre decl post sup l hitems hsuper hchain _
    obtain ⟨rfl, rfl⟩ := shapes_super hitems hsuper
    rw [hsup sup l hsuper hchain]
    exact .head _
  · rintro decl l h c hc name ⟨f, hf, rfl⟩ ⟨g, hg, hname⟩
    obtain ⟨rfl, hl⟩ | ⟨rfl, hl⟩ := shapes_chain h <;> cases hl
    · cases hc
    · obtain rfl : c = shape := by simpa using hc
      simp [ClassDecl.ownFields, shape, square] at hf hg
      subst hf hg
      exact absurd hname (by decide)
  · intro pre decl post sup l hitems hsuper hchain
    obtain ⟨rfl, rfl⟩ := shapes_super hitems hsuper
    obtain rfl := hsup sup l hsuper hchain
    refine .inr ⟨.head _, fun e he => ?_⟩
    cases he
    exact List.pairwise_singleton ..

end Loxis.Classes
