import Loxis.Classes.Layout

/-! # Vtables

Every step of resolving a class extends its vtable and keeps the signatures of its methods. So a
vtable that is copied with the methods it points to stays a prefix.
-/

namespace Loxis.Classes

variable {items pre post : List Item} {scope : Scope} {decl sup : ClassDecl} {d d' e : ClassDef}
  {l : List ClassDecl} {methods : List MethodInfo}

def sigs (methods : List MethodInfo) : List (String × ℕ) := methods.map fun m => (m.name, m.arity)

/-- The vtable's slots point to methods. -/
def ClassDef.Valid (d : ClassDef) : Prop := ∀ i ∈ d.vtable, i < d.methods.length

@[simp] theorem sigs_length : (sigs methods).length = methods.length := List.length_map _

theorem slots_eq : slots d = d.vtable.map fun i => (sigs d.methods)[i]? := by
  simp [slots, sigs]

/-- The vtable grows at its end, and so do the signatures of the methods. -/
structure Extends (d d' : ClassDef) : Prop where
  vtable : d.vtable <+: d'.vtable
  methods : sigs d.methods <+: sigs d'.methods
  valid : d.Valid → d'.Valid

theorem Extends.refl (d : ClassDef) : Extends d d :=
  ⟨List.prefix_rfl, List.prefix_rfl, id⟩

theorem Extends.trans {d₁ d₂ d₃ : ClassDef} (h : Extends d₁ d₂) (h' : Extends d₂ d₃) :
    Extends d₁ d₃ :=
  ⟨h.vtable.trans h'.vtable, h.methods.trans h'.methods, h'.valid ∘ h.valid⟩

theorem Extends.prefix_slots (h : Extends d d') (hvalid : d.Valid) : slots d <+: slots d' := by
  obtain ⟨more, hmore⟩ := h.methods
  have heq : slots d = d.vtable.map fun i => (sigs d'.methods)[i]? := by
    rw [slots_eq]
    refine List.map_congr_left fun i hi => ?_
    rw [← hmore, List.getElem?_append_left (by simpa using hvalid i hi)]
  rw [heq, slots_eq]
  exact h.vtable.map _

/-! ## The steps of resolving -/

theorem replaceMethod_sigs (mi : MethodInfo) : sigs (replaceMethod mi methods).1 = sigs methods := by
  induction methods with
  | nil => rfl
  | cons m methods ih =>
    rw [replaceMethod]
    split
    · rename_i h
      simp [sigs, h.1, h.2]
    · simpa [sigs] using ih

theorem addMethod_sigs (m : MethodDecl) : sigs methods <+: sigs (addMethod methods m) := by
  have hreplaced : sigs (if m.isOverride then replaceMethod m.info methods
      else (methods, none)).1 = sigs methods := by
    split
    · exact replaceMethod_sigs m.info
    · rfl
  unfold addMethod
  generalize (if m.isOverride then replaceMethod m.info methods else (methods, none)) = r
    at hreplaced ⊢
  obtain ⟨replaced, slot⟩ := r
  rw [← hreplaced]
  dsimp only
  split
  · rw [sigs, sigs, List.map_append]
    exact List.prefix_append ..
  · exact List.prefix_rfl

theorem addMethods_sigs {ms : List MethodDecl} : sigs methods <+: sigs (ms.foldl addMethod methods) := by
  induction ms generalizing methods with
  | nil => exact List.prefix_rfl
  | cons m ms ih => exact (addMethod_sigs m).trans ih

theorem assignSlots_sigs {i : ℕ} {vtable : List ℕ} :
    sigs (assignSlots methods i vtable).1 = sigs methods := by
  induction methods generalizing i vtable with
  | nil => rfl
  | cons m methods ih =>
    simp only [assignSlots]
    split <;> simpa [sigs] using ih

theorem assignSlots_vtable {i : ℕ} {vtable : List ℕ} :
    ∃ more, (assignSlots methods i vtable).2 = vtable ++ more ∧
      ∀ j ∈ more, j < i + methods.length := by
  induction methods generalizing i vtable with
  | nil => exact ⟨[], (List.append_nil _).symm, nofun⟩
  | cons m methods ih =>
    simp only [assignSlots]
    split
    · obtain ⟨more, heq, hmore⟩ := @ih (i + 1) (vtable ++ [i])
      refine ⟨i :: more, by rw [heq, List.append_assoc, List.singleton_append], ?_⟩
      rintro j (_ | ⟨_, hj⟩)
      · simp
      · have := hmore j hj
        rw [List.length_cons]
        omega
    · obtain ⟨more, heq, hmore⟩ := @ih (i + 1) vtable
      refine ⟨more, heq, fun j hj => ?_⟩
      have := hmore j hj
      rw [List.length_cons]
      omega

theorem buildVTable_extends : Extends d (buildVTable d) := by
  obtain ⟨more, heq, hmore⟩ := @assignSlots_vtable d.methods 0 d.vtable
  have hlen : (buildVTable d).methods.length = d.methods.length := by
    rw [← sigs_length, ← sigs_length]
    exact congrArg List.length assignSlots_sigs
  constructor
  · exact ⟨more, heq.symm⟩
  · exact (congrArg (sigs d.methods <+: ·) assignSlots_sigs).mpr List.prefix_rfl
  · intro hvalid i hi
    rw [hlen]
    change i ∈ (assignSlots d.methods 0 d.vtable).2 at hi
    rw [heq] at hi
    obtain hi | hi := List.mem_append.mp hi
    · exact hvalid i hi
    · simpa using hmore i hi

theorem injectDefault_extends {iname : String} {im : MethodInfo} :
    Extends d (injectDefault iname im d) := by
  constructor
  · exact List.prefix_append ..
  · rw [injectDefault, sigs, sigs, List.map_append]
    exact List.prefix_append ..
  · intro hvalid i hi
    simp only [injectDefault, List.mem_append, List.mem_singleton, List.length_append,
      List.length_singleton] at hi ⊢
    obtain hi | rfl := hi
    · have := hvalid i hi
      omega
    · omega

theorem implementMethods_extends {iname : String} {ims : List MethodInfo} {slots : List ℕ} :
    Extends d (implementMethods iname ims d slots).1 := by
  fun_induction implementMethods iname ims d slots with
  | case1 => exact .refl _
  | case2 _ _ _ _ _ _ _ ih => exact ih
  | case3 => exact .refl _
  | case4 _ _ _ _ _ _ ih => exact injectDefault_extends.trans ih

theorem checkInterfaceConformance_extends {inames : List String} :
    Extends d (checkInterfaceConformance scope inames d) := by
  fun_induction checkInterfaceConformance scope inames d with
  | case1 => exact .refl _
  | case2 _ _ _ _ ih => exact ih
  | case3 iname _ d ifaceDef _ _ h =>
    have hstep : Extends d (implementMethods iname ifaceDef.methods d []).1 :=
      implementMethods_extends
    rwa [h] at hstep
  | case4 iname _ d ifaceDef _ _ _ h ih =>
    have hstep : Extends d (implementMethods iname ifaceDef.methods d []).1 :=
      implementMethods_extends
    rw [h] at hstep
    exact hstep.trans ⟨ih.vtable, ih.methods, ih.valid⟩

theorem addFields_methods {fs : List FieldDecl} :
    (fs.foldl addField d).methods = d.methods ∧ (fs.foldl addField d).vtable = d.vtable ∧
      (fs.foldl addField d).interfaceNames = d.interfaceNames := by
  induction fs generalizing d with
  | nil => exact ⟨rfl, rfl, rfl⟩
  | cons f fs ih => exact ih

/-- The members of the class. -/
def addMembers (decl : ClassDecl) (d : ClassDef) : ClassDef :=
  { decl.ownFields.foldl addField d with
    methods := decl.methods.foldl addMethod (decl.ownFields.foldl addField d).methods }

theorem addMembers_extends : Extends d (addMembers decl d) := by
  have hmethods : sigs d.methods <+: sigs (addMembers decl d).methods := by
    rw [addMembers, addFields_methods.1]
    exact addMethods_sigs
  have hvtable : (addMembers decl d).vtable = d.vtable := addFields_methods.2.1
  constructor
  · exact (congrArg (d.vtable <+: ·) hvtable).mpr List.prefix_rfl
  · exact hmethods
  · intro hvalid i hi
    have hlen := hmethods.length_le
    rw [sigs_length, sigs_length] at hlen
    exact Nat.lt_of_lt_of_le (hvalid i (hvtable ▸ hi)) hlen

theorem resolveDef_eq : resolveDef scope decl d =
    checkInterfaceConformance scope
      (buildVTable (addMembers decl (inheritFromSuper scope d))).interfaceNames
      (buildVTable (addMembers decl (inheritFromSuper scope d))) :=
  rfl

theorem resolveDef_extends : Extends (inheritFromSuper scope d) (resolveDef scope decl d) :=
  addMembers_extends.trans (buildVTable_extends.trans checkInterfaceConformance_extends)

/-! ## Classes without virtual methods -/

def MethodInfo.Static (m : MethodInfo) : Prop :=
  m.isOpen = false ∧ m.isAbstract = false ∧ m.isOverride = false

structure ClassDef.Plain (d : ClassDef) : Prop where
  vtable : d.vtable = []
  interfaces : d.interfaceNames = []
  methods : ∀ m ∈ d.methods, m.Static

theorem prependMethods_mem {superMethods : List MethodInfo} {m : MethodInfo}
    (h : m ∈ prependMethods superMethods methods) : m ∈ superMethods ∨ m ∈ methods := by
  induction superMethods with
  | nil => exact .inr h
  | cons s superMethods ih =>
    rw [prependMethods, List.foldr_cons] at h
    split at h
    · exact (ih h).imp_left (.tail _)
    · obtain _ | ⟨_, h⟩ := h
      · exact .inl (.head _)
      · exact (ih h).imp_left (.tail _)

theorem addMethods_static {ms : List MethodDecl} (hmethods : ∀ m ∈ methods, m.Static)
    (hms : ∀ m ∈ ms, m.info.Static) : ∀ m ∈ ms.foldl addMethod methods, m.Static := by
  induction ms generalizing methods with
  | nil => exact hmethods
  | cons m ms ih =>
    apply ih _ fun m' hm' => hms m' (.tail _ hm')
    have hm : m.isOverride = false := (hms m (.head _)).2.2
    intro m' hm'
    simp only [addMethod, hm, Bool.false_eq_true, if_false, if_true, List.mem_append,
      List.mem_singleton] at hm'
    obtain hm' | rfl := hm'
    · exact hmethods m' hm'
    · exact hms m (.head _)

theorem assignSlots_static {i : ℕ} {vtable : List ℕ} (h : ∀ m ∈ methods, m.Static) :
    assignSlots methods i vtable = (methods, vtable) := by
  induction methods generalizing i with
  | nil => rfl
  | cons m methods ih =>
    obtain ⟨hopen, habstract, hoverride⟩ := h m (.head _)
    simp [assignSlots, hopen, habstract, hoverride, ih fun m' hm' => h m' (.tail _ hm')]

theorem resolveDef_plain (hmethods : ∀ m ∈ decl.methods, m.info.Static)
    (h : (inheritFromSuper scope d).Plain) : (resolveDef scope decl d).Plain := by
  have hmembers : (addMembers decl (inheritFromSuper scope d)).Plain := by
    constructor
    · exact addFields_methods.2.1.trans h.vtable
    · exact addFields_methods.2.2.trans h.interfaces
    · rw [addMembers, addFields_methods.1]
      exact addMethods_static h.methods hmethods
  have hbuilt : buildVTable (addMembers decl (inheritFromSuper scope d)) =
      addMembers decl (inheritFromSuper scope d) := by
    rw [buildVTable, assignSlots_static hmembers.methods]
  rw [resolveDef_eq, hbuilt, hmembers.interfaces]
  exact hmembers

theorem inheritFromSuper_plain {s : String} (hinterfaces : decl.interfaces = [])
    (hsuper : decl.superName = some s) (he : scope.classDef s = some e) (h : e.Plain) :
    (inheritFromSuper scope decl.declare).Plain := by
  rw [inheritFromSuper, ClassDecl.declare, hsuper]
  simp only [he]
  constructor
  · simp [h.vtable]
  · simp [addInterfaces, h.interfaces, hinterfaces]
  · intro m hm
    exact h.methods m ((prependMethods_mem hm).resolve_right List.not_mem_nil)

theorem declare_plain (hinterfaces : decl.interfaces = []) : decl.declare.Plain :=
  ⟨rfl, hinterfaces, nofun⟩

/-! ## Copies of a superclass -/

theorem prependMethods_keeps (h : Keeps methods) : prependMethods methods [] = methods := by
  induction methods with
  | nil => rfl
  | cons m methods ih =>
    obtain ⟨hm, hrest⟩ := List.pairwise_cons.mp h
    have hnone : ¬ methods.any (fun om => om.name = m.name ∧ om.isOverride) := by
      simpa using hm
    have hstep : prependMethods (m :: methods) [] =
        if (prependMethods methods []).any (fun om => om.name = m.name ∧ om.isOverride)
          then prependMethods methods [] else m :: prependMethods methods [] := rfl
    rw [hstep, ih hrest, if_neg hnone]

theorem inheritFromSuper_extends {s : String} (hsuper : decl.superName = some s)
    (he : scope.classDef s = some e) (h : Keeps e.methods) :
    Extends e (inheritFromSuper scope decl.declare) := by
  rw [inheritFromSuper, ClassDecl.declare, hsuper]
  simp only [he, prependMethods_keeps h, List.append_nil]
  exact ⟨List.prefix_rfl, List.prefix_rfl, id⟩

/-! ## The slots of a chain -/

/-- What holds of the definitions in a chain. -/
structure Slotted (l : List ClassDecl) (d : ClassDef) : Prop where
  valid : d.Valid
  plain : Bare l → d.Plain

theorem declare_valid : decl.declare.Valid := nofun

theorem Bare.plain_or_declare (hbare : Bare l) (hsup : sup ∈ l)
    (h : Slotted l e ∨ e = sup.declare) : e.Plain := by
  obtain h | rfl := h
  · exact h.plain hbare
  · exact declare_plain (hbare sup hsup).1

/-- The superclass's definition when a class is resolved. -/
theorem scopeAt_super (hwf : WellFormed items) (hitems : items = pre ++ .cls decl :: post)
    (hsup : .cls sup ∈ items) (he : (build items).classDef sup.name = some e) :
    (scopeAt items pre).classDef sup.name = some e ∨
      (scopeAt items pre).classDef sup.name = some sup.declare := by
  obtain hpre | hpost := List.mem_append.mp (hitems ▸ hsup)
  · exact .inl ((classDef_congr (scopeAt_done hwf.names hitems hpre)).trans he)
  · exact .inr (classDef_eq (scopeAt_todo hwf.names hitems hpost))

theorem Chain.slotted (hwf : WellFormed items) (hcond : SlotCondition items)
    (h : Chain items decl l) :
    ∃ d, (build items).classDef decl.name = some d ∧ Slotted l d := by
  induction h with
  | @top decl hmem hsuper =>
    obtain ⟨pre, post, hitems⟩ := List.append_of_mem hmem
    have hinherit : inheritFromSuper (scopeAt items pre) decl.declare = decl.declare :=
      inheritFromSuper_none hsuper
    refine ⟨_, build_classDef hwf.names hitems, resolveDef_extends.valid ?_, fun hbare => ?_⟩
    · rw [hinherit]
      exact declare_valid
    · have hdecl := hbare decl (.head _)
      apply resolveDef_plain hdecl.2
      rw [hinherit]
      exact declare_plain hdecl.1
  | @step decl sup l hmem hsuper hchain ih =>
    obtain ⟨pre, post, hitems⟩ := List.append_of_mem hmem
    obtain ⟨e, he, hslotted⟩ := ih
    obtain ⟨t, rfl⟩ := hchain.head
    -- what the class copies
    obtain ⟨e', he', hcopy⟩ : ∃ e', (scopeAt items pre).classDef sup.name = some e' ∧
        (Slotted (sup :: t) e' ∨ e' = sup.declare) := by
      obtain he' | he' := scopeAt_super hwf hitems hchain.mem he
      · exact ⟨e, he', .inl hslotted⟩
      · exact ⟨_, he', .inr rfl⟩
    refine ⟨_, build_classDef hwf.names hitems, resolveDef_extends.valid ?_, fun hbare => ?_⟩
    · obtain hbare | ⟨-, hkeeps⟩ := hcond pre decl post sup _ hitems hsuper hchain
      · have hplain := hbare.plain_or_declare (.head _) hcopy
        intro i hi
        rw [inheritFromSuper, ClassDecl.declare, hsuper] at hi
        simp [he', hplain.vtable] at hi
      · have hvalid : e'.Valid := by
          obtain h | rfl := hcopy
          · exact h.valid
          · exact declare_valid
        exact (inheritFromSuper_extends hsuper he' (hkeeps e' he')).valid hvalid
    · have hdecl := hbare decl (.head _)
      have hrest : Bare (sup :: t) := fun c hc => hbare c (.tail _ hc)
      exact resolveDef_plain hdecl.2 (inheritFromSuper_plain hdecl.1 hsuper he'
        (hrest.plain_or_declare (.head _) hcopy))

theorem SlotCondition.prefix_slots (hwf : WellFormed items) (hcond : SlotCondition items)
    (hdecl : .cls decl ∈ items) (hsup : decl.superName = some sup.name)
    (hchain : Chain items sup l) (hd : (build items).classDef decl.name = some d)
    (he : (build items).classDef sup.name = some e) : slots e <+: slots d := by
  obtain ⟨pre, post, hitems⟩ := List.append_of_mem hdecl
  obtain ⟨e', he', hslotted⟩ := hchain.slotted hwf hcond
  obtain rfl := Option.some.inj (he.symm.trans he')
  obtain rfl := Option.some.inj (hd.symm.trans (build_classDef hwf.names hitems))
  obtain hbare | ⟨hpre, hkeeps⟩ := hcond pre decl post sup l hitems hsup hchain
  · rw [slots, (hslotted.plain hbare).vtable]
    exact List.nil_prefix
  · have hscope : (scopeAt items pre).classDef sup.name = some e :=
      (classDef_congr (scopeAt_done hwf.names hitems hpre)).trans he
    have hcopy := inheritFromSuper_extends hsup hscope (hkeeps e hscope)
    exact (hcopy.trans resolveDef_extends).prefix_slots hslotted.valid

end Loxis.Classes
