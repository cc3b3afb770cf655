import Loxis.Classes.ScopeBuilder
import Loxis.Lib.Occurrences

/-! # Class hierarchies and their layout

What a hierarchy of classes says about the layout of their objects, whatever the order of the
declarations, and when the scope builder computes that layout.
-/

namespace Loxis.Classes

/-- The declarations of a module, as far as they are classes and interfaces: names are distinct,
superclasses are declared, and no class is its own ancestor. -/
structure WellFormed (items : List Item) : Prop where
  names : (items.map Item.name).Nodup
  supers : ∀ decl s, .cls decl ∈ items → decl.superName = some s →
    ∃ sup, .cls sup ∈ items ∧ sup.name = s
  acyclic : ∃ rank : String → ℕ, ∀ decl s, .cls decl ∈ items → decl.superName = some s →
    rank s < rank decl.name

/-- A class and its ancestors, from the class to the top. -/
inductive Chain (items : List Item) : ClassDecl → List ClassDecl → Prop
  | top {decl : ClassDecl} : .cls decl ∈ items → decl.superName = none → Chain items decl [decl]
  | step {decl sup : ClassDecl} {l : List ClassDecl} : .cls decl ∈ items →
      decl.superName = some sup.name → Chain items sup l → Chain items decl (decl :: l)

/-- The fields of an object, those of the topmost class first. -/
def chainFields (l : List ClassDecl) : List FieldDecl := l.reverse.flatMap ClassDecl.ownFields

def ClassDecl.Declares (decl : ClassDecl) (name : String) : Prop :=
  ∃ f ∈ decl.ownFields, f.name = name

/-- Every class stands after its superclass. -/
def SuperFirst (items : List Item) : Prop :=
  ∀ pre decl post s, items = pre ++ .cls decl :: post → decl.superName = some s →
    ∃ sup, .cls sup ∈ pre ∧ sup.name = s

/-! ## The specification -/

def offsets (d : ClassDef) : List (String × ℕ) := d.fields.map fun f => (f.name, f.offset)

/-- The signatures of the methods that the vtable's slots are for. -/
def slots (d : ClassDef) : List (Option (String × ℕ)) :=
  d.vtable.map fun i => (d.methods[i]?).map fun m => (m.name, m.arity)

/-- The fields that a definition has from its own class. -/
def ClassDef.own (d : ClassDef) (decl : ClassDecl) : List FieldInfo :=
  d.fields.drop (d.fields.length - decl.ownFields.length)

/-- The offset is that of the field `name` in the innermost class of the chain that declares
it. -/
def Innermost (items : List Item) (l : List ClassDecl) (name : String) (offset : ℕ) : Prop :=
  ∃ below owner above d, l = below ++ owner :: above ∧ (∀ c ∈ below, ¬ c.Declares name) ∧
    owner.Declares name ∧ (build items).classDef owner.name = some d ∧
    ∃ g ∈ d.own owner, g.name = name ∧ g.offset = offset

structure LayoutSound (items : List Item) : Prop where
  /-- Fields do not overlap, and lie in the object. -/
  disjoint : ∀ decl d, .cls decl ∈ items → (build items).classDef decl.name = some d →
    d.fields.Pairwise (fun f g =>
      f.offset + slotSize ≤ g.offset ∨ g.offset + slotSize ≤ f.offset) ∧
    ∀ f ∈ d.fields, f.offset + slotSize ≤ d.totalFieldSize
  /-- An object of a class starts as one of its superclass. -/
  fieldsPrefix : ∀ (decl sup : ClassDecl) d e, .cls decl ∈ items → decl.superName = some sup.name →
    (build items).classDef decl.name = some d → (build items).classDef sup.name = some e →
    offsets e <+: offsets d
  slotsPrefix : ∀ (decl sup : ClassDecl) d e, .cls decl ∈ items → decl.superName = some sup.name →
    (build items).classDef decl.name = some d → (build items).classDef sup.name = some e →
    slots e <+: slots d
  linked : ∀ decl d s, .cls decl ∈ items → decl.superName = some s →
    (build items).classDef decl.name = some d → d.superDef = some s
  /-- The offsets are those of every order in which superclasses come first. -/
  stable : ∀ items' : List Item, items'.Perm items → SuperFirst items' → ∀ decl d d',
    .cls decl ∈ items → (build items).classDef decl.name = some d →
    (build items').classDef decl.name = some d' → offsets d = offsets d'
  /-- A field is accessed where the innermost class that declares it has it, whenever the access
  is checked. -/
  access : ∀ n fuel decl l name f, Chain items decl l →
    lookupField (checkedScope items n) name fuel decl.name = some (some f) →
    Innermost items l name f.offset

/-! ## When the layout is right -/

/-- Every class stands after its superclass, if that has fields. -/
def FieldsFirst (items : List Item) : Prop :=
  ∀ pre decl post (sup : ClassDecl) l, items = pre ++ .cls decl :: post →
    decl.superName = some sup.name → Chain items sup l → chainFields l ≠ [] → .cls sup ∈ pre

structure FieldCondition (items : List Item) : Prop where
  /-- Objects are smaller than 4 GiB. -/
  bounded : ∀ decl l, Chain items decl l → slotSize * (chainFields l).length < 2 ^ 32
  ordered : FieldsFirst items
  /-- No field has the name of an ancestor's field. -/
  distinct : ∀ decl l, Chain items decl (decl :: l) → ∀ c ∈ l, ∀ name,
    decl.Declares name → ¬ c.Declares name

/-- The scope when the items in `pre` are resolved. -/
def scopeAt (items pre : List Item) : Scope :=
  pre.foldl resolveItem (items.foldl declareItem fun _ => none)

/-- No method that overrides follows another of its name. -/
def Keeps (methods : List MethodInfo) : Prop :=
  methods.Pairwise fun m om => om.name = m.name → om.isOverride = false

/-- A class without virtual methods, also in its ancestors. -/
def Bare (l : List ClassDecl) : Prop :=
  ∀ c ∈ l, c.interfaces = [] ∧
    ∀ m ∈ c.methods, m.isOpen = false ∧ m.isAbstract = false ∧ m.isOverride = false

/-- When a class is resolved, its superclass is and can be copied whole, or has no virtual
methods. -/
def SlotCondition (items : List Item) : Prop :=
  ∀ pre decl post (sup : ClassDecl) l, items = pre ++ .cls decl :: post → decl.superName = some sup.name →
    Chain items sup l → Bare l ∨ .cls sup ∈ pre ∧
      ∀ e, (scopeAt items pre).classDef sup.name = some e → Keeps e.methods

end Loxis.Classes

/-! ## The definitions after resolution

Resolving an item writes the definition of that item only. So the definition of a class is what
it was resolved to in the scope of the items in front of it.
-/

namespace Loxis.Classes

variable {items pre post : List Item} {scope : Scope} {item : Item} {decl sup : ClassDecl}

/-! ## Declaring -/

theorem declareItem_own : OwnEntries Item.name declareItem :=
  fun _ _ _ h => Function.update_of_ne h.symm _ _

theorem declareAll_mem (hnames : (items.map Item.name).Nodup) (hitem : item ∈ items) :
    items.foldl declareItem scope item.name = some item.declare :=
  declareItem_own.foldl_mem hnames (fun _ _ => Function.update_self ..) hitem

/-! ## Resolving -/

theorem resolveItem_own : OwnEntries Item.name resolveItem := by
  intro scope item name h
  cases item with
  | cls decl =>
    rw [resolveItem, resolveClass]
    cases Scope.classDef scope decl.name with
    | none => rfl
    | some d => exact Function.update_of_ne h.symm _ _
  | iface decl =>
    rw [resolveItem, resolveInterface]
    cases Scope.interfaceDef scope decl.name with
    | none => rfl
    | some d => exact Function.update_of_ne h.symm _ _

theorem classDef_eq {name : String} {d : ClassDef} (h : scope name = some (.cls d)) :
    scope.classDef name = some d := by
  rw [Scope.classDef, h]

theorem classDef_congr {scope' : Scope} {name : String} (h : scope name = scope' name) :
    scope.classDef name = scope'.classDef name := by
  rw [Scope.classDef, Scope.classDef, h]

theorem resolveClass_self {d : ClassDef} (h : scope.classDef decl.name = some d) :
    (resolveClass scope decl).classDef decl.name = some (resolveDef scope decl d) := by
  rw [resolveClass, h]
  exact classDef_eq (Function.update_self ..)

section Build

variable (hnames : (items.map Item.name).Nodup) (hitems : items = pre ++ post)

include hnames hitems

/-- The items in front are done. -/
theorem scopeAt_done (hitem : item ∈ pre) :
    scopeAt items pre item.name = build items item.name :=
  resolveItem_own.foldl_done hnames hitems hitem

/-- The others are declared. -/
theorem scopeAt_todo (hitem : item ∈ post) :
    scopeAt items pre item.name = some item.declare :=
  (resolveItem_own.foldl_todo hnames hitems hitem).trans
    (declareAll_mem hnames (hitems ▸ List.mem_append_right _ hitem))

end Build

theorem build_classDef (hnames : (items.map Item.name).Nodup)
    (hitems : items = pre ++ .cls decl :: post) :
    (build items).classDef decl.name =
      some (resolveDef (scopeAt items pre) decl decl.declare) := by
  have hdecl : (scopeAt items pre).classDef decl.name = some decl.declare :=
    classDef_eq (scopeAt_todo hnames hitems (.head _))
  have hitems' : items = (pre ++ [.cls decl]) ++ post := by rw [hitems, List.append_cons]
  have hdone := scopeAt_done hnames hitems' (List.mem_append_right pre (.head []))
  have hlast : scopeAt items (pre ++ [.cls decl]) = resolveClass (scopeAt items pre) decl := by
    rw [scopeAt, List.foldl_append]
    rfl
  rw [hlast] at hdone
  exact (classDef_congr hdone).symm.trans (resolveClass_self hdecl)

end Loxis.Classes
