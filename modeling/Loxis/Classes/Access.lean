import Loxis.Classes.Layout

/-! # Field access

Where no field has the name of an ancestor's field, the checker finds the one field of the name
in the chain, however far it has come with the types of the fields.
-/

namespace Loxis.Classes

variable {items : List Item} {scope : Scope} {decl sup : ClassDecl} {d d' e : ClassDef}
  {l : List ClassDecl} {name : String} {fs gs : List FieldDecl}

/-! ## Typing keeps the layout -/

/-- The two definitions have the same layout and superclass. -/
def SameLayout (d' d : ClassDef) : Prop :=
  offsets d' = offsets d ∧ d'.superDef = d.superDef

theorem typeField_offsets (fields : List FieldInfo) :
    (typeField name fields).map (fun f => (f.name, f.offset)) =
      fields.map fun f => (f.name, f.offset) := by
  induction fields with
  | nil => rfl
  | cons f fields ih =>
    rw [typeField]
    split
    · rfl
    · rw [List.map_cons, List.map_cons, ih]

theorem checkField_self {cls : String} (hd : scope.classDef cls = some d) :
    (checkField scope cls name).classDef cls =
      some { d with fields := typeField name d.fields } := by
  rw [checkField, hd]
  exact classDef_eq (Function.update_self ..)

theorem checkField_ne {cls c : String} (h : c ≠ cls) :
    (checkField scope cls name).classDef c = scope.classDef c := by
  rw [checkField]
  split
  · exact classDef_congr (Function.update_of_ne h ..)
  · rfl

theorem checkField_sameLayout {cls c : String}
    (h : (checkField scope cls name).classDef c = some d') :
    ∃ d, scope.classDef c = some d ∧ SameLayout d' d := by
  by_cases hc : c = cls
  · subst hc
    cases hcls : scope.classDef c with
    | none =>
      rw [checkField, hcls] at h
      exact absurd (hcls.symm.trans h) nofun
    | some d =>
      rw [checkField_self hcls] at h
      cases h
      exact ⟨d, rfl, typeField_offsets d.fields, rfl⟩
  · rw [checkField_ne hc] at h
    exact ⟨d', h, rfl, rfl⟩

theorem checkField_some {cls c : String} (h : scope.classDef c = some d) :
    ∃ d', (checkField scope cls name).classDef c = some d' ∧ SameLayout d' d := by
  by_cases hc : c = cls
  · subst hc
    exact ⟨_, checkField_self h, typeField_offsets d.fields, rfl⟩
  · exact ⟨d, (checkField_ne hc).trans h, rfl, rfl⟩

theorem checkFields_some {checks : List (String × String)} {c : String}
    (h : scope.classDef c = some d) :
    ∃ d', (checks.foldl (fun scope (cls, name) => checkField scope cls name) scope).classDef c =
      some d' ∧ SameLayout d' d := by
  induction checks generalizing scope d with
  | nil => exact ⟨d, h, rfl, rfl⟩
  | cons check checks ih =>
    obtain ⟨d₁, hd₁, hoffsets, hsuper⟩ : ∃ d₁,
        (checkField scope check.1 check.2).classDef c = some d₁ ∧ SameLayout d₁ d :=
      checkField_some h
    obtain ⟨d', hd', hoffsets', hsuper'⟩ := ih hd₁
    exact ⟨d', hd', hoffsets'.trans hoffsets, hsuper'.trans hsuper⟩

/-! ## Own fields -/

theorem mem_offsets (h : d.Places fs) {p : String × ℕ} (hp : p ∈ offsets d) :
    ∃ i g, fs[i]? = some g ∧ (g.name, slotSize * i % 2 ^ 32) = p := by
  rw [offsets_eq h, List.mem_map] at hp
  obtain ⟨f, hf, rfl⟩ := hp
  obtain ⟨i, hi⟩ := List.mem_iff_getElem?.mp hf
  obtain ⟨g, hg, rfl⟩ := getElem?_placed.mp hi
  exact ⟨i, g, hg, rfl⟩

theorem ClassDef.Places.own (h : d.Places (fs ++ decl.ownFields)) {i : ℕ} {f : FieldDecl}
    (hf : decl.ownFields[i]? = some f) :
    ⟨f.name, slotSize * (fs.length + i) % 2 ^ 32, f.isVal, false⟩ ∈ d.own decl := by
  have hdrop : d.own decl = (placed (fs ++ decl.ownFields)).drop fs.length := by
    simp [ClassDef.own, h.1]
  rw [hdrop]
  apply List.mem_of_getElem?
  rw [List.getElem?_drop, getElem?_placed]
  exact ⟨f, by rw [List.getElem?_append_right (Nat.le_add_right ..), Nat.add_sub_cancel_left, hf],
    rfl⟩

theorem ClassDef.Places.own_offset (h : d.Places (fs ++ decl.ownFields)) {g : FieldInfo}
    (hg : g ∈ d.own decl) :
    ∃ i, fs.length ≤ i ∧ i < (fs ++ decl.ownFields).length ∧
      g.offset = slotSize * i % 2 ^ 32 := by
  obtain ⟨i, hi⟩ := List.mem_iff_getElem?.mp hg
  rw [ClassDef.own, h.1, List.getElem?_drop] at hi
  obtain ⟨f, hf, rfl⟩ := getElem?_placed.mp hi
  refine ⟨_, ?_, (List.getElem?_eq_some_iff.mp hf).1, rfl⟩
  simp

theorem Innermost.step {offset : ℕ} (h : Innermost items l name offset)
    (hdecl : ¬ decl.Declares name) : Innermost items (decl :: l) name offset := by
  obtain ⟨below, owner, above, d, rfl, hbelow, howner⟩ := h
  refine ⟨decl :: below, owner, above, d, rfl, ?_, howner⟩
  rintro c (_ | ⟨_, hc⟩)
  · exact hdecl
  · exact hbelow c hc

theorem Innermost.declares {offset : ℕ} (h : Innermost items l name offset) :
    ∃ c ∈ l, c.Declares name := by
  obtain ⟨below, owner, above, d, rfl, -, howner, -⟩ := h
  exact ⟨owner, List.mem_append_right _ (.head _), howner⟩

theorem Chain.innermost_own (hwf : WellFormed items) (hfirst : FieldsFirst items)
    (h : Chain items decl (decl :: l)) {i : ℕ} {f : FieldDecl}
    (hf : decl.ownFields[i]? = some f) :
    Innermost items (decl :: l) f.name (slotSize * ((chainFields l).length + i) % 2 ^ 32) := by
  obtain ⟨d, hd, hplaces, -⟩ := h.places hwf hfirst
  rw [chainFields_cons] at hplaces
  exact ⟨[], decl, l, d, rfl, nofun, ⟨f, List.mem_of_getElem? hf, rfl⟩, hd, _, hplaces.own hf,
    rfl, rfl⟩

theorem Chain.innermost (hwf : WellFormed items) (hcond : FieldCondition items)
    (h : Chain items decl l) {i : ℕ} {f : FieldDecl} (hf : (chainFields l)[i]? = some f) :
    Innermost items l f.name (slotSize * i % 2 ^ 32) := by
  induction h with
  | top hmem hsuper =>
    have hown := Chain.innermost_own hwf hcond.ordered (.top hmem hsuper) (i := i) (f := f)
    simpa [chainFields] using hown (by simpa [chainFields] using hf)
  | @step decl sup l hmem hsuper hchain ih =>
    have hdecl := Chain.step hmem hsuper hchain
    rw [chainFields_cons] at hf
    obtain hlt | hle := Nat.lt_or_ge i (chainFields l).length
    · have hin := ih (by rwa [List.getElem?_append_left hlt] at hf)
      obtain ⟨c, hc, hdeclares⟩ := hin.declares
      exact hin.step fun hname => hcond.distinct decl l hdecl c hc f.name hname hdeclares
    · rw [List.getElem?_append_right hle] at hf
      simpa [Nat.add_sub_cancel' hle] using hdecl.innermost_own hwf hcond.ordered hf

theorem FieldCondition.access (hwf : WellFormed items) (hcond : FieldCondition items) {n fuel : ℕ}
    {f : FieldInfo} (h : Chain items decl l)
    (hlookup : lookupField (checkedScope items n) name fuel decl.name = some (some f)) :
    Innermost items l name f.offset := by
  induction fuel generalizing decl l with
  | zero => cases hlookup
  | succ fuel ih =>
    obtain ⟨d, hd, hplaces, hsuper⟩ := h.places hwf hcond.ordered
    rw [lookupField] at hlookup
    split at hlookup
    · cases hlookup
    rename_i d' hd'
    obtain ⟨d₀, hd₀, hoffsets, hsuper'⟩ := checkFields_some hd
    obtain rfl := Option.some.inj (hd'.symm.trans hd₀)
    split at hlookup
    · -- the class itself has the field
      rename_i f' hfind
      obtain rfl : f' = f := by simpa using hlookup
      have hname : f'.name = name ∧ f'.typed = true := by simpa using List.find?_some hfind
      have hmem : (f'.name, f'.offset) ∈ offsets d' :=
        List.mem_map.mpr ⟨f', List.mem_of_find?_eq_some hfind, rfl⟩
      obtain ⟨i, g, hg, hfield⟩ := mem_offsets hplaces (hoffsets ▸ hmem)
      have hin := h.innermost hwf hcond hg
      rwa [(Prod.mk.inj hfield).1, (Prod.mk.inj hfield).2, hname.1] at hin
    · -- it is looked up in the superclass
      rw [hsuper', hsuper] at hlookup
      cases h with
      | top _ hnone =>
        rw [hnone] at hlookup
        cases hlookup
      | step hmem hsome hchain =>
        rw [hsome] at hlookup
        have hin := ih hchain hlookup
        obtain ⟨c, hc, hdeclares⟩ := hin.declares
        exact hin.step fun hname =>
          hcond.distinct decl _ (.step hmem hsome hchain) c hc name hname hdeclares

/-! ## The first field of a name -/

/-- The first field of the name is typed. -/
def FirstTyped (name : String) (fields : List FieldInfo) : Prop :=
  ∀ f, fields.find? (fun f => f.name = name) = some f → f.typed = true

theorem typeField_first (fields : List FieldInfo) : FirstTyped name (typeField name fields) := by
  intro f hf
  induction fields with
  | nil => cases hf
  | cons g fields ih =>
    rw [typeField] at hf
    split at hf
    · rename_i hname
      rw [List.find?_cons_of_pos (by simpa using hname)] at hf
      cases hf
      rfl
    · rename_i hname
      rw [List.find?_cons_of_neg (by simpa using hname)] at hf
      exact ih hf

theorem FirstTyped.typeField {other : String} {fields : List FieldInfo}
    (h : FirstTyped name fields) : FirstTyped name (typeField other fields) := by
  intro f hf
  induction fields with
  | nil => cases hf
  | cons g fields ih =>
    rw [Classes.typeField] at hf
    by_cases hname : g.name = name
    · have hg := h g (List.find?_cons_of_pos (by simpa using hname))
      split at hf
      · rw [List.find?_cons_of_pos (by simpa using hname)] at hf
        cases hf
        rfl
      · rw [List.find?_cons_of_pos (by simpa using hname)] at hf
        cases hf
        exact hg
    · split at hf
      · rw [List.find?_cons_of_neg (by simpa using hname)] at hf
        exact h f (by rwa [List.find?_cons_of_neg (by simpa using hname)])
      · rw [List.find?_cons_of_neg (by simpa using hname)] at hf
        refine ih (fun f' hf' => h f' ?_) hf
        rwa [List.find?_cons_of_neg (by simpa using hname)]

/-- What is found when the first field of the name is typed. -/
theorem FirstTyped.find? {fields : List FieldInfo} {f : FieldInfo} (h : FirstTyped name fields)
    (hf : fields.find? (fun f => f.name = name) = some f) :
    fields.find? (fun f => f.name = name ∧ f.typed) = some f := by
  have htyped := h f hf
  rw [List.find?_eq_some_iff_append] at hf ⊢
  obtain ⟨hname, before, after, rfl, hbefore⟩ := hf
  refine ⟨by simpa [htyped] using hname, before, after, rfl, fun g hg => ?_⟩
  have hne := hbefore g hg
  simp only [Bool.not_eq_true', decide_eq_false_iff_not] at hne ⊢
  exact fun hg' => hne hg'.1

/-- The first field of a name that is among the fields. -/
theorem ClassDef.Places.find? (h : d.Places fs) (hoffsets : offsets d' = offsets d) {j : ℕ}
    {g : FieldDecl} (hj : fs[j]? = some g) :
    ∃ f i, d'.fields.find? (fun f => f.name = g.name) = some f ∧ i ≤ j ∧
      f.offset = slotSize * i % 2 ^ 32 := by
  have hget : ∀ (i : ℕ) f, d'.fields[i]? = some f →
      ∃ g, fs[i]? = some g ∧ (g.name, slotSize * i % 2 ^ 32) = (f.name, f.offset) := by
    intro i f hf
    have hp : (offsets d)[i]? = some (f.name, f.offset) := by
      rw [← hoffsets, offsets, List.getElem?_map, hf]
      rfl
    rw [offsets_eq h, List.getElem?_map, Option.map_eq_some_iff] at hp
    obtain ⟨f', hf', hfield⟩ := hp
    obtain ⟨g, hg, rfl⟩ := getElem?_placed.mp hf'
    exact ⟨g, hg, hfield⟩
  have hlen : d'.fields.length = fs.length := by
    have hlen := congrArg List.length hoffsets
    rwa [offsets_length h, offsets, List.length_map] at hlen
  have hlt : j < d'.fields.length := hlen ▸ (List.getElem?_eq_some_iff.mp hj).1
  obtain ⟨g', hg', hfj⟩ := hget j _ (List.getElem?_eq_getElem hlt)
  obtain rfl := Option.some.inj (hj.symm.trans hg')
  have hname : d'.fields[j].name = g.name := (Prod.mk.inj hfj).1.symm
  cases hfind : d'.fields.find? (fun f => f.name = g.name) with
  | none =>
    have hnone := List.find?_eq_none.mp hfind _ (List.getElem_mem hlt)
    exact absurd (by simpa using hname) hnone
  | some f =>
    obtain ⟨-, i, hi, rfl, hbefore⟩ := List.find?_eq_some_iff_getElem.mp hfind
    refine ⟨_, i, rfl, ?_, ?_⟩
    · by_contra hji
      have hne := hbefore j (by omega)
      simp [hname] at hne
    · obtain ⟨_, -, hfield⟩ := hget i _ (List.getElem?_eq_getElem hi)
      exact (Prod.mk.inj hfield).2.symm

/-- The class has its first field of the name typed. -/
def ChecksFirst (scope : Scope) (cls name : String) : Prop :=
  ∀ d, scope.classDef cls = some d → FirstTyped name d.fields

theorem checkField_checksFirst {cls c other : String} (h : ChecksFirst scope c name) :
    ChecksFirst (checkField scope cls other) c name := by
  intro d hd
  obtain ⟨d₀, hd₀, -⟩ := checkField_sameLayout hd
  by_cases hc : c = cls
  · subst hc
    rw [checkField_self hd₀] at hd
    cases hd
    exact (h d₀ hd₀).typeField
  · rw [checkField_ne hc] at hd
    exact h d hd

theorem checkField_self_checksFirst {cls : String} :
    ChecksFirst (checkField scope cls name) cls name := by
  intro d hd
  obtain ⟨d₀, hd₀, -⟩ := checkField_sameLayout hd
  rw [checkField_self hd₀] at hd
  cases hd
  exact typeField_first d₀.fields

theorem checkFields_keep {checks : List (String × String)} {c : String}
    (h : ChecksFirst scope c name) :
    ChecksFirst (checks.foldl (fun scope (cls, name) => checkField scope cls name) scope) c
      name := by
  induction checks generalizing scope with
  | nil => exact h
  | cons check checks ih => exact ih (checkField_checksFirst h)

theorem checkFields_checksFirst {checks : List (String × String)} {c : String}
    (h : (c, name) ∈ checks) :
    ChecksFirst (checks.foldl (fun scope (cls, name) => checkField scope cls name) scope) c
      name := by
  induction checks generalizing scope with
  | nil => cases h
  | cons check checks ih =>
    cases h with
    | head =>
      rw [List.foldl_cons]
      exact checkFields_keep checkField_self_checksFirst
    | tail _ h => exact ih h

/-- When all fields are checked, a class that declares the name finds its first field of that
name. -/
theorem lookupField_all {f : FieldInfo} (hdecl : .cls decl ∈ items) (hname : decl.Declares name)
    (hd : (checkedScope items (declaredFields items).length).classDef decl.name = some d)
    (hf : d.fields.find? (fun f => f.name = name) = some f) :
    lookupField (checkedScope items (declaredFields items).length) name 1 decl.name =
      some (some f) := by
  have hmem : (decl.name, name) ∈ declaredFields items := by
    obtain ⟨g, hg, rfl⟩ := hname
    exact List.mem_flatMap.mpr ⟨_, hdecl, List.mem_map.mpr ⟨g, hg, rfl⟩⟩
  have hfirst : ChecksFirst (checkedScope items (declaredFields items).length) decl.name name := by
    rw [checkedScope, List.take_length]
    exact checkFields_checksFirst hmem
  rw [lookupField, hd]
  simp only [(hfirst d hd).find? hf]

end Loxis.Classes
