import Loxis.Classes.Hierarchy
import Mathlib.Data.List.Nodup
import Mathlib.Data.Nat.Init

/-! # The fields of a definition

A definition's fields are a list of declared fields, each a slot after the one before. When
superclasses with fields come first, these are the fields of the chain.
-/

namespace Loxis.Classes

variable {items pre post : List Item} {scope : Scope} {decl sup : ClassDecl} {d e : ClassDef}
  {fs gs : List FieldDecl} {l : List ClassDecl}

/-! ## Placing fields -/

def placed (fs : List FieldDecl) : List FieldInfo :=
  fs.zipIdx.map fun (f, i) => ⟨f.name, slotSize * i % 2 ^ 32, f.isVal, false⟩

def ClassDef.Places (d : ClassDef) (fs : List FieldDecl) : Prop :=
  d.fields = placed fs ∧ d.totalFieldSize = slotSize * fs.length % 2 ^ 32

@[simp] theorem placed_length : (placed fs).length = fs.length := by simp [placed]

theorem placed_append_one (f : FieldDecl) : placed (fs ++ [f]) =
    placed fs ++ [⟨f.name, slotSize * fs.length % 2 ^ 32, f.isVal, false⟩] := by
  simp [placed, List.zipIdx_append]

theorem getElem?_placed {i : ℕ} {f : FieldInfo} : (placed fs)[i]? = some f ↔
    ∃ g, fs[i]? = some g ∧ f = ⟨g.name, slotSize * i % 2 ^ 32, g.isVal, false⟩ := by
  simp only [placed, List.getElem?_map, List.getElem?_zipIdx, Option.map_eq_some_iff,
    Nat.zero_add]
  constructor
  · rintro ⟨_, ⟨g, hg, rfl⟩, rfl⟩
    exact ⟨g, hg, rfl⟩
  · rintro ⟨g, hg, rfl⟩
    exact ⟨_, ⟨g, hg, rfl⟩, rfl⟩

theorem prefix_placed : placed fs <+: placed (fs ++ gs) := by
  rw [placed, placed, List.zipIdx_append, List.map_append]
  exact List.prefix_append ..

theorem declare_places : decl.declare.Places [] := ⟨rfl, rfl⟩

theorem addField_places (h : d.Places fs) (f : FieldDecl) : (addField d f).Places (fs ++ [f]) := by
  constructor
  · rw [addField, placed_append_one, h.1, h.2]
  · simp only [addField, h.2, List.length_append, List.length_singleton, Nat.mul_add]
    omega

theorem addFields_places (h : d.Places fs) : (gs.foldl addField d).Places (fs ++ gs) := by
  induction gs generalizing d fs with
  | nil => simpa using h
  | cons g gs ih =>
    rw [List.append_cons]
    exact ih (addField_places h g)

/-! ## The other steps keep the fields -/

/-- The two definitions have the same fields and superclass. -/
def SameFields (d e : ClassDef) : Prop :=
  d.fields = e.fields ∧ d.totalFieldSize = e.totalFieldSize ∧ d.superDef = e.superDef

theorem SameFields.trans {d e g : ClassDef} (h : SameFields d e) (h' : SameFields e g) :
    SameFields d g :=
  ⟨h.1.trans h'.1, h.2.1.trans h'.2.1, h.2.2.trans h'.2.2⟩

theorem implementMethods_sameFields {iname : String} {ims : List MethodInfo} {slots : List ℕ} :
    SameFields (implementMethods iname ims d slots).1 d := by
  fun_induction implementMethods iname ims d slots with
  | case1 => exact ⟨rfl, rfl, rfl⟩
  | case2 _ _ _ _ _ _ _ ih => exact ih
  | case3 => exact ⟨rfl, rfl, rfl⟩
  | case4 _ _ _ _ _ _ ih => exact ih.trans ⟨rfl, rfl, rfl⟩

theorem checkInterfaceConformance_sameFields {inames : List String} :
    SameFields (checkInterfaceConformance scope inames d) d := by
  fun_induction checkInterfaceConformance scope inames d with
  | case1 => exact ⟨rfl, rfl, rfl⟩
  | case2 _ _ _ _ ih => exact ih
  | case3 iname _ d ifaceDef _ _ h =>
    have hstep : SameFields (implementMethods iname ifaceDef.methods d []).1 d :=
      implementMethods_sameFields
    rwa [h] at hstep
  | case4 iname _ d ifaceDef _ _ _ h ih =>
    have hstep : SameFields (implementMethods iname ifaceDef.methods d []).1 d :=
      implementMethods_sameFields
    rw [h] at hstep
    exact ih.trans hstep

theorem addFields_superDef : (gs.foldl addField d).superDef = d.superDef := by
  induction gs generalizing d with
  | nil => rfl
  | cons g gs ih => exact ih

theorem resolveDef_sameFields :
    SameFields (resolveDef scope decl d)
      (decl.ownFields.foldl addField (inheritFromSuper scope d)) :=
  checkInterfaceConformance_sameFields.trans ⟨rfl, rfl, rfl⟩

theorem resolveDef_places (h : (inheritFromSuper scope d).Places fs) :
    (resolveDef scope decl d).Places (fs ++ decl.ownFields) := by
  obtain ⟨hfields, htotal, -⟩ := @resolveDef_sameFields scope decl d
  have hown : (decl.ownFields.foldl addField _).Places _ := addFields_places h
  exact ⟨hfields.trans hown.1, htotal.trans hown.2⟩

/-! ## The fields of a class -/

theorem inheritFromSuper_none (h : decl.superName = none) :
    inheritFromSuper scope decl.declare = decl.declare := by
  rw [inheritFromSuper, ClassDecl.declare, h]

theorem inheritFromSuper_some {s : String} (h : decl.superName = some s)
    (he : scope.classDef s = some e) (hfs : e.Places fs) :
    (inheritFromSuper scope decl.declare).Places fs ∧
      (inheritFromSuper scope decl.declare).superDef = some s := by
  rw [inheritFromSuper, ClassDecl.declare, h]
  simp only [he, List.append_nil]
  exact ⟨hfs, trivial⟩

section Build

variable (hnames : (items.map Item.name).Nodup) (hitems : items = pre ++ .cls decl :: post)

include hnames hitems

theorem build_places (h : (inheritFromSuper (scopeAt items pre) decl.declare).Places fs) :
    ∃ d, (build items).classDef decl.name = some d ∧ d.Places (fs ++ decl.ownFields) ∧
      d.superDef = (inheritFromSuper (scopeAt items pre) decl.declare).superDef :=
  ⟨_, build_classDef hnames hitems, resolveDef_places h,
    resolveDef_sameFields.2.2.trans addFields_superDef⟩

theorem build_places_top (h : decl.superName = none) :
    ∃ d, (build items).classDef decl.name = some d ∧ d.Places decl.ownFields ∧
      d.superDef = none := by
  have hinherit : inheritFromSuper (scopeAt items pre) decl.declare = decl.declare :=
    inheritFromSuper_none h
  obtain ⟨d, hd, hplaces, hsuper⟩ := build_places hnames hitems (hinherit ▸ declare_places)
  rw [hinherit] at hsuper
  exact ⟨d, hd, hplaces, hsuper⟩

/-- A superclass in front of the class gives its fields. -/
theorem build_places_done (h : decl.superName = some sup.name) (hsup : .cls sup ∈ pre)
    (he : (build items).classDef sup.name = some e) (hfs : e.Places fs) :
    ∃ d, (build items).classDef decl.name = some d ∧ d.Places (fs ++ decl.ownFields) ∧
      d.superDef = some sup.name := by
  have hscope : (scopeAt items pre).classDef sup.name = some e :=
    (classDef_congr (scopeAt_done hnames hitems hsup)).trans he
  have hinherit := inheritFromSuper_some h hscope hfs
  simpa [hinherit.2] using build_places hnames hitems hinherit.1

/-- A superclass behind the class gives none. -/
theorem build_places_todo (h : decl.superName = some sup.name)
    (hsup : .cls sup ∈ Item.cls decl :: post) :
    ∃ d, (build items).classDef decl.name = some d ∧ d.Places decl.ownFields ∧
      d.superDef = some sup.name := by
  have hscope : (scopeAt items pre).classDef sup.name = some sup.declare :=
    classDef_eq (scopeAt_todo hnames hitems hsup)
  have hinherit := inheritFromSuper_some h hscope declare_places
  simpa [hinherit.2] using build_places hnames hitems hinherit.1

end Build

end Loxis.Classes

/-! ## The layout of a chain

Where superclasses with fields come first, a class has the fields of its chain. Without that
order the offsets depend on the order.
-/

namespace Loxis.Classes

variable {items items' pre post : List Item} {decl sup : ClassDecl} {d e : ClassDef}
  {l l' : List ClassDecl}

/-! ## Chains -/

theorem WellFormed.eq_of_name (hwf : WellFormed items) (hdecl : .cls decl ∈ items)
    (hsup : .cls sup ∈ items) (hname : decl.name = sup.name) : decl = sup :=
  Item.cls.inj (List.inj_on_of_nodup_map hwf.names hdecl hsup hname)

theorem Chain.mem (h : Chain items decl l) : .cls decl ∈ items := by
  cases h <;> assumption

theorem Chain.head (h : Chain items decl l) : ∃ t, l = decl :: t := by
  cases h with
  | top => exact ⟨[], rfl⟩
  | step => exact ⟨_, rfl⟩

theorem Chain.subset (hsub : items ⊆ items') (h : Chain items decl l) : Chain items' decl l := by
  induction h with
  | top hmem hsuper => exact .top (hsub hmem) hsuper
  | step hmem hsuper _ ih => exact .step (hsub hmem) hsuper ih

theorem WellFormed.chain_unique (hwf : WellFormed items) (h : Chain items decl l)
    (h' : Chain items decl l') : l = l' := by
  induction h generalizing l' with
  | top _ hsuper =>
    cases h' with
    | top => rfl
    | step _ hsuper' => exact absurd (hsuper.symm.trans hsuper') nofun
  | step _ hsuper hchain ih =>
    cases h' with
    | top _ hsuper' => exact absurd (hsuper'.symm.trans hsuper) nofun
    | step _ hsuper' hchain' =>
      have hname := Option.some.inj (hsuper.symm.trans hsuper')
      obtain rfl := hwf.eq_of_name hchain.mem hchain'.mem hname
      rw [ih hchain']

theorem WellFormed.chain (hwf : WellFormed items) (hdecl : .cls decl ∈ items) :
    ∃ l, Chain items decl l := by
  obtain ⟨rank, hrank⟩ := hwf.acyclic
  induction hr : rank decl.name using Nat.strong_induction_on generalizing decl with
  | h r ih =>
    cases hsuper : decl.superName with
    | none => exact ⟨_, .top hdecl hsuper⟩
    | some s =>
      obtain ⟨sup, hsup, rfl⟩ := hwf.supers decl s hdecl hsuper
      obtain ⟨l, hl⟩ := ih _ (hr ▸ hrank decl _ hdecl hsuper) hsup rfl
      exact ⟨_, .step hdecl hsuper hl⟩

theorem chainFields_cons : chainFields (decl :: l) = chainFields l ++ decl.ownFields := by
  simp [chainFields]

theorem WellFormed.perm (hwf : WellFormed items) (hperm : items'.Perm items) :
    WellFormed items' where
  names := (hperm.map Item.name).nodup_iff.mpr hwf.names
  supers decl s hdecl hsuper := by
    obtain ⟨sup, hsup, hname⟩ := hwf.supers decl s (hperm.mem_iff.mp hdecl) hsuper
    exact ⟨sup, hperm.mem_iff.mpr hsup, hname⟩
  acyclic := by
    obtain ⟨rank, hrank⟩ := hwf.acyclic
    exact ⟨rank, fun decl s hdecl => hrank decl s (hperm.mem_iff.mp hdecl)⟩

/-! ## The fields of the chain -/

theorem SuperFirst.fieldsFirst (hwf : WellFormed items) (h : SuperFirst items) :
    FieldsFirst items := by
  intro pre decl post sup l hitems hsuper hchain _
  obtain ⟨sup', hsup', hname⟩ := h pre decl post sup.name hitems hsuper
  have hmem : .cls sup' ∈ items := hitems ▸ List.mem_append_left _ hsup'
  rwa [← hwf.eq_of_name hmem hchain.mem hname]

theorem Chain.places (hwf : WellFormed items) (hfirst : FieldsFirst items)
    (h : Chain items decl l) :
    ∃ d, (build items).classDef decl.name = some d ∧ d.Places (chainFields l) ∧
      d.superDef = decl.superName := by
  induction h with
  | @top decl hmem hsuper =>
    obtain ⟨pre, post, hitems⟩ := List.append_of_mem hmem
    simpa [chainFields, hsuper] using build_places_top hwf.names hitems hsuper
  | @step decl sup l hmem hsuper hchain ih =>
    obtain ⟨pre, post, hitems⟩ := List.append_of_mem hmem
    obtain ⟨e, he, hfs, -⟩ := ih
    rw [chainFields_cons, hsuper]
    by_cases hpre : .cls sup ∈ pre
    · exact build_places_done hwf.names hitems hsuper hpre he hfs
    · -- the superclass comes later, so that it has no fields
      have hnil : chainFields l = [] := by
        by_contra hne
        exact hpre (hfirst pre decl post sup l hitems hsuper hchain hne)
      have hpost : .cls sup ∈ Item.cls decl :: post :=
        (List.mem_append.mp (hitems ▸ hchain.mem)).resolve_left hpre
      rw [hnil, List.nil_append]
      exact build_places_todo hwf.names hitems hsuper hpost

/-! ## Offsets -/

theorem offsets_eq {fs : List FieldDecl} (h : d.Places fs) :
    offsets d = (placed fs).map fun f => (f.name, f.offset) := by
  rw [offsets, h.1]

theorem offsets_length {fs : List FieldDecl} (h : d.Places fs) :
    (offsets d).length = fs.length := by
  rw [offsets_eq h, List.length_map, placed_length]

/-! ## Orders of the declarations -/

theorem WellFormed.exists_superFirst (hwf : WellFormed items) :
    ∃ items' : List Item, items'.Perm items ∧ SuperFirst items' := by
  obtain ⟨rank, hrank⟩ := hwf.acyclic
  let le (a b : Item) : Bool := decide (rank a.name ≤ rank b.name)
  have hsorted : (items.mergeSort le).Pairwise fun a b => le a b := by
    apply List.pairwise_mergeSort
    · intro a b c hab hbc
      simp only [le, decide_eq_true_eq] at hab hbc ⊢
      exact Nat.le_trans hab hbc
    · intro a b
      simpa [le] using Nat.le_total (rank a.name) (rank b.name)
  have hperm : (items.mergeSort le).Perm items := List.mergeSort_perm items le
  refine ⟨_, hperm, fun pre decl post s hitems hsuper => ?_⟩
  have hdecl : .cls decl ∈ items := hperm.mem_iff.mp (hitems ▸ List.mem_append_right pre (.head _))
  obtain ⟨sup, hsup, hname⟩ := hwf.supers decl s hdecl hsuper
  have hlt : rank sup.name < rank decl.name := hname ▸ hrank decl s hdecl hsuper
  rw [hitems, List.pairwise_append, List.pairwise_cons] at hsorted
  obtain hpre | hpost := List.mem_append.mp (hitems ▸ hperm.mem_iff.mpr hsup)
  · exact ⟨sup, hpre, hname⟩
  · exfalso
    cases hpost with
    | head => exact absurd hlt (Nat.lt_irrefl _)
    | tail _ hpost =>
      have hle := hsorted.2.1.1 _ hpost
      simp only [le, decide_eq_true_eq] at hle
      exact absurd hlt (Nat.not_lt.mpr hle)

end Loxis.Classes
