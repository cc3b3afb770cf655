import Mathlib.Data.Finset.Card
import Mathlib.Data.List.Dedup
import Loxis.Lib.Occurrences
import Loxis.Subtyping.Laws

/-! # The supertypes that are listed

The names in the definition of a class or an interface come from its own declaration and from
those of the supertypes that its names were copied from. The order of the declarations decides how
far these are.
-/

namespace Loxis.Subtyping

open Relation (ReflTransGen)
open Mono (Ident Ty)

/-! ## Names from the declarations -/

/-- The names in a definition before it is resolved. -/
def Decl.names (d : Decl) : List Ident :=
  match d.kind with
  | .enum => []
  | _ => d.interfaces.map Prod.fst

/-- Those that names are copied from. -/
def Decl.parents (d : Decl) : List Ident :=
  match d.kind with
  | .cls superClass => (superClass.map Prod.fst).toList
  | .enum => []
  | .iface => d.interfaces.map Prod.fst

/-- A name that ends up in a definition. A supertype that is declared later passes on its own
names only. -/
inductive Listed (decls : List Decl) : Ident → Ident → Prop
  | own {d : Decl} {i : Ident} : d ∈ decls → i ∈ d.names → Listed decls d.name i
  | before {pre post : List Decl} {d e : Decl} {i : Ident} : decls = pre ++ d :: post → e ∈ pre →
      e.name ∈ d.parents → Listed decls e.name i → Listed decls d.name i
  | after {pre post : List Decl} {d e : Decl} {i : Ident} : decls = pre ++ d :: post → e ∈ post →
      e.name ∈ d.parents → i ∈ e.names → Listed decls d.name i

/-- The superclass of a class. -/
def Hierarchy.SuperClass (H : Hierarchy) (c s : Ident) : Prop :=
  ∃ d ∈ H.decls, d.name = c ∧ ∃ args, d.kind = .cls (some (s, args))

variable {H : Hierarchy} {decls pre post : List Decl} {scope : Scope} {d e : Decl} {i s : Ident}
  {sym : Symbol}

/-! ## The table -/

def Symbol.names : Symbol → List Ident
  | .cls d => d.interfaceNames
  | .iface d => d.superNames

def Symbol.isClass : Symbol → Bool
  | .cls _ => true
  | .iface _ => false

def Scope.names (scope : Scope) (i : Ident) : List Ident := ((scope i).map Symbol.names).getD []

/-- What the definition of an item becomes. -/
def resolve (scope : Scope) (d : Decl) : Symbol → Symbol
  | .cls c => .cls (inheritFromSuper scope c)
  | .iface i => .iface (resolveInterface scope (d.interfaces.map Prod.fst) i)

theorem resolveItem_eq (h : scope d.name = some sym) :
    resolveItem scope d = Function.update scope d.name (some (resolve scope d sym)) := by
  cases sym <;> rw [resolveItem, h] <;> rfl

theorem resolveItem_own : OwnEntries Decl.name resolveItem := by
  intro scope d i h
  cases hs : scope d.name with
  | none => rw [resolveItem, hs]
  | some sym =>
    rw [resolveItem_eq hs]
    exact Function.update_of_ne h.symm _ _

theorem declareItem_own : OwnEntries Decl.name declareItem :=
  fun _ _ _ h => Function.update_of_ne h.symm _ _

/-- The scope when the items `pre` are resolved. -/
def scopeAt (decls pre : List Decl) : Scope :=
  pre.foldl resolveItem (decls.foldl declareItem fun _ => none)

section Build

variable (hnames : (decls.map Decl.name).Nodup)

include hnames

theorem scopeAt_todo (hdecls : decls = pre ++ post) (hd : d ∈ post) :
    scopeAt decls pre d.name = some d.declare := by
  rw [scopeAt, resolveItem_own.foldl_todo hnames hdecls hd]
  exact declareItem_own.foldl_mem hnames (fun _ _ => Function.update_self ..)
    (hdecls ▸ List.mem_append_right _ hd)

theorem scopeAt_done (hdecls : decls = pre ++ post) (hd : d ∈ pre) :
    scopeAt decls pre d.name = build decls d.name :=
  resolveItem_own.foldl_done hnames hdecls hd

theorem build_at (hdecls : decls = pre ++ d :: post) :
    build decls d.name = some (resolve (scopeAt decls pre) d d.declare) := by
  have htodo := scopeAt_todo hnames hdecls (.head _)
  rw [build, resolveItem_own.foldl_at hnames hdecls]
  exact (congrFun (resolveItem_eq htodo) _).trans (Function.update_self ..)

end Build

/-! ## Kinds -/

theorem declare_isClass : d.declare.isClass = true ↔ d.kind ≠ .iface := by
  rw [Decl.declare]
  cases d.kind <;> simp [Symbol.isClass]

@[simp] theorem resolve_isClass : (resolve scope d sym).isClass = sym.isClass := by
  cases sym <;> rfl

theorem build_isClass (hnames : (decls.map Decl.name).Nodup) (hd : d ∈ decls) :
    ∃ sym, build decls d.name = some sym ∧ (sym.isClass = true ↔ d.kind ≠ .iface) := by
  obtain ⟨pre, post, hdecls⟩ := List.append_of_mem hd
  exact ⟨_, build_at hnames hdecls, by rw [resolve_isClass, declare_isClass]⟩

/-! ## One step -/

theorem mem_addInterfaces {names more : List Ident} :
    i ∈ addInterfaces names more ↔ i ∈ names ∨ i ∈ more := by
  induction more generalizing names with
  | nil => simp [addInterfaces]
  | cons j more ih =>
    have hstep : addInterfaces names (j :: more) =
        addInterfaces (if j ∈ names then names else names ++ [j]) more := rfl
    rw [hstep, ih]
    split_ifs with hj
    · constructor
      · exact fun h => h.imp_right (.tail _)
      · rintro (h | h)
        · exact .inl h
        · cases h with
          | head => exact .inl hj
          | tail _ h => exact .inr h
    · simp [or_assoc]

/-- A definition gets the names that its parents have at that moment. -/
theorem mem_resolve_names
    (hparents : ∀ s ∈ d.parents, ∃ sym, scope s = some sym ∧ sym.isClass = d.declare.isClass) :
    i ∈ (resolve scope d d.declare).names ↔
      i ∈ d.names ∨ ∃ s ∈ d.parents, i ∈ scope.names s := by
  obtain ⟨name, kind, generics, interfaces⟩ := d
  cases kind with
  | enum => simp [Decl.declare, resolve, inheritFromSuper, Symbol.names, Decl.names, Decl.parents]
  | cls superClass =>
    cases superClass with
    | none => simp [Decl.declare, resolve, inheritFromSuper, Symbol.names, Decl.names, Decl.parents]
    | some x =>
      obtain ⟨sym, hsym, hclass⟩ := hparents x.1 (List.mem_singleton_self _)
      cases sym with
      | iface => cases hclass
      | cls c =>
        simp [Decl.declare, resolve, inheritFromSuper, Scope.classDef, hsym, Symbol.names,
          Decl.names, Decl.parents, Scope.names, mem_addInterfaces]
  | iface =>
    have hnames : ∀ s ∈ interfaces.map Prod.fst,
        ((scope.interfaceDef s).map InterfaceDef.superNames).getD [] = scope.names s := by
      intro s hs
      obtain ⟨sym, hsym, hclass⟩ := hparents s hs
      cases sym with
      | cls => cases hclass
      | iface c => simp [Scope.interfaceDef, Scope.names, hsym, Symbol.names]
    simp only [Decl.declare, resolve, resolveInterface, Symbol.names, Decl.names, Decl.parents,
      List.mem_append, List.mem_flatMap]
    apply or_congr_right
    constructor
    · rintro ⟨s, hs, h⟩
      exact ⟨s, hs, hnames s hs ▸ h⟩
    · rintro ⟨s, hs, h⟩
      exact ⟨s, hs, (hnames s hs).symm ▸ h⟩

/-! ## The names that are listed -/

/-- The parents of a class are classes, those of an interface are interfaces. -/
theorem Hierarchy.parent (hd : d ∈ H.decls) (hs : s ∈ d.parents) :
    ∃ e ∈ H.decls, e.name = s ∧ (e.kind ≠ .iface ↔ d.kind ≠ .iface) := by
  rw [Decl.parents] at hs
  cases hkind : d.kind with
  | enum => rw [hkind] at hs; cases hs
  | cls superClass =>
    rw [hkind] at hs
    cases superClass with
    | none => cases hs
    | some x =>
      obtain rfl := List.mem_singleton.mp hs
      obtain ⟨e, he, hname, hclass⟩ := H.superClasses d hd _ _ hkind
      exact ⟨e, he, hname, by simp [hclass]⟩
  | iface =>
    rw [hkind] at hs
    obtain ⟨x, hx, rfl⟩ := List.mem_map.mp hs
    obtain ⟨e, he, hname, hiface⟩ := H.interfaces d hd x hx
    exact ⟨e, he, hname, by simp [hiface]⟩

theorem declare_names : d.declare.names = d.names := by
  rw [Decl.declare, Decl.names]
  cases d.kind <;> rfl

section Split

variable (hdecls : H.decls = pre ++ d :: post)

include hdecls

theorem scopeAt_names_done (he : e ∈ pre) :
    (scopeAt H.decls pre).names e.name = (build H.decls).names e.name := by
  rw [Scope.names, Scope.names, scopeAt_done H.names hdecls he]

theorem scopeAt_names_todo (he : e ∈ d :: post) : (scopeAt H.decls pre).names e.name = e.names := by
  rw [Scope.names, scopeAt_todo H.names hdecls he, ← declare_names]
  rfl

theorem scopeAt_parent (hs : s ∈ d.parents) :
    ∃ sym, scopeAt H.decls pre s = some sym ∧ sym.isClass = d.declare.isClass := by
  have hd : d ∈ H.decls := hdecls ▸ List.mem_append_right _ (.head _)
  obtain ⟨e, he, rfl, hkind⟩ := H.parent hd hs
  rw [hdecls, List.mem_append] at he
  rcases he with he | he
  · obtain ⟨sym, hsym, hclass⟩ := build_isClass H.names (hdecls ▸ List.mem_append_left _ he)
    refine ⟨sym, (scopeAt_done H.names hdecls he).trans hsym, ?_⟩
    rw [Bool.eq_iff_iff, hclass, declare_isClass, hkind]
  · refine ⟨e.declare, scopeAt_todo H.names hdecls he, ?_⟩
    rw [Bool.eq_iff_iff, declare_isClass, declare_isClass, hkind]

/-- Parents in front pass on all their names, the others those of their declarations. -/
theorem mem_build_names : i ∈ (build H.decls).names d.name ↔ i ∈ d.names ∨
    (∃ e ∈ pre, e.name ∈ d.parents ∧ i ∈ (build H.decls).names e.name) ∨
      ∃ e ∈ d :: post, e.name ∈ d.parents ∧ i ∈ e.names := by
  have hbuild : (build H.decls).names d.name =
      (resolve (scopeAt H.decls pre) d d.declare).names := by
    rw [Scope.names, build_at H.names hdecls]
    rfl
  rw [hbuild, mem_resolve_names fun s hs => scopeAt_parent hdecls hs]
  apply or_congr_right
  constructor
  · rintro ⟨s, hs, hi⟩
    obtain ⟨e, he, rfl, -⟩ := H.parent (hdecls ▸ List.mem_append_right _ (.head _)) hs
    rw [hdecls, List.mem_append] at he
    rcases he with he | he
    · exact .inl ⟨e, he, hs, scopeAt_names_done hdecls he ▸ hi⟩
    · exact .inr ⟨e, he, hs, scopeAt_names_todo hdecls he ▸ hi⟩
  · rintro (⟨e, he, hs, hi⟩ | ⟨e, he, hs, hi⟩)
    · exact ⟨e.name, hs, (scopeAt_names_done hdecls he).symm ▸ hi⟩
    · exact ⟨e.name, hs, (scopeAt_names_todo hdecls he).symm ▸ hi⟩

end Split

theorem Listed.mem_names {c : Ident} (h : Listed H.decls c i) : i ∈ (build H.decls).names c := by
  induction h with
  | own hd hi =>
    obtain ⟨pre, post, hdecls⟩ := List.append_of_mem hd
    exact (mem_build_names hdecls).mpr (.inl hi)
  | before hdecls he hs _ ih => exact (mem_build_names hdecls).mpr (.inr (.inl ⟨_, he, hs, ih⟩))
  | after hdecls he hs hi =>
    exact (mem_build_names hdecls).mpr (.inr (.inr ⟨_, .tail _ he, hs, hi⟩))

/-- By the position of the declaration, and back along the derivation. -/
theorem mem_names_iff (hd : d ∈ H.decls) :
    i ∈ (build H.decls).names d.name ↔ Listed H.decls d.name i := by
  constructor
  · obtain ⟨pre, post, hdecls⟩ := List.append_of_mem hd
    induction hlen : pre.length using Nat.strong_induction_on generalizing d pre post with
    | h n ih =>
      intro hi
      rcases (mem_build_names hdecls).mp hi with hi | ⟨e, he, hs, hi⟩ | ⟨e, he, hs, hi⟩
      · exact .own hd hi
      · obtain ⟨pre', post', rfl⟩ := List.append_of_mem he
        have hlt : pre'.length < n := by
          rw [← hlen, List.length_append, List.length_cons]
          omega
        have hdecls' : H.decls = pre' ++ e :: (post' ++ d :: post) := by simp [hdecls]
        have he' : e ∈ H.decls := hdecls' ▸ List.mem_append_right _ (.head _)
        exact .before hdecls he hs (ih _ hlt he' _ _ hdecls' rfl hi)
      · cases he with
        | head => exact .own hd hi
        | tail _ he => exact .after hdecls he hs hi
  · exact Listed.mem_names

/-! ## The superclasses -/

def Decl.superClass (d : Decl) : Option Ident :=
  match d.kind with
  | .cls superClass => superClass.map Prod.fst
  | _ => none

theorem build_superDef (hd : d ∈ H.decls) :
    ((build H.decls).classDef d.name).bind ClassDef.superDef = d.superClass := by
  obtain ⟨pre, post, hdecls⟩ := List.append_of_mem hd
  have hparent := fun s hs => scopeAt_parent (s := s) hdecls hs
  rw [Scope.classDef, build_at H.names hdecls]
  obtain ⟨name, kind, generics, interfaces⟩ := d
  cases kind with
  | enum | iface => rfl
  | cls superClass =>
    cases superClass with
    | none => rfl
    | some x =>
      obtain ⟨sym, hsym, hclass⟩ := hparent x.1 (List.mem_singleton_self _)
      cases sym with
      | iface => cases hclass
      | cls c =>
        simp [resolve, Decl.declare, inheritFromSuper, Scope.classDef, hsym, Decl.superClass]

theorem Hierarchy.eq_of_name (hd : d ∈ H.decls) (he : e ∈ H.decls) (h : d.name = e.name) : d = e :=
  List.inj_on_of_nodup_map H.names hd he h

theorem superClass_iff (hd : d ∈ H.decls) : d.superClass = some s ↔ H.SuperClass d.name s := by
  rw [Decl.superClass]
  constructor
  · intro h
    cases hkind : d.kind with
    | enum | iface => rw [hkind] at h; cases h
    | cls superClass =>
      rw [hkind] at h
      obtain ⟨x, rfl, rfl⟩ := Option.map_eq_some_iff.mp h
      exact ⟨d, hd, rfl, x.2, hkind⟩
  · rintro ⟨e, he, hname, args, hkind⟩
    obtain rfl := H.eq_of_name he hd hname
    rw [hkind]
    rfl

/-- The declared names of ranks up to that of `c`. -/
def upTo (H : Hierarchy) (rank : Ident → ℕ) (c : Ident) : Finset Ident :=
  (H.decls.map Decl.name).toFinset.filter fun i => rank i ≤ rank c

theorem mem_upTo_self {rank : Ident → ℕ} (hd : d ∈ H.decls) : d.name ∈ upTo H rank d.name := by
  simp only [upTo, Finset.mem_filter, List.mem_toFinset, le_refl, and_true]
  exact List.mem_map_of_mem hd

theorem upTo_lt {rank : Ident → ℕ} (hd : d ∈ H.decls) (h : rank s < rank d.name) :
    (upTo H rank s).card < (upTo H rank d.name).card := by
  apply Finset.card_lt_card
  rw [Finset.ssubset_iff_of_subset]
  · refine ⟨d.name, mem_upTo_self hd, ?_⟩
    simp only [upTo, Finset.mem_filter, not_and, not_le]
    exact fun _ => h
  · intro i hi
    simp only [upTo, Finset.mem_filter] at hi ⊢
    exact ⟨hi.1, hi.2.trans h.le⟩

theorem superChain_sound {n : ℕ} (hd : d ∈ H.decls)
    (h : s ∈ superChain (build H.decls) n d.name) : ReflTransGen H.SuperClass d.name s := by
  induction n generalizing d with
  | zero => cases h
  | succ n ih =>
    rw [superChain, build_superDef hd] at h
    cases hsuper : d.superClass with
    | none =>
      rw [hsuper] at h
      obtain rfl := List.mem_singleton.mp h
      exact .refl
    | some t =>
      rw [hsuper] at h
      have hstep := (superClass_iff hd).mp hsuper
      cases h with
      | head => exact .refl
      | tail _ h =>
        obtain ⟨_, hd', -, args, hkind⟩ := hstep
        obtain ⟨e, he, rfl, -⟩ := H.superClasses _ hd' _ _ hkind
        exact .head ((superClass_iff hd).mp hsuper) (ih he h)

theorem superChain_complete {rank : Ident → ℕ} {n : ℕ}
    (hrank : ∀ d ∈ H.decls, ∀ x ∈ d.supertypes, rank x.1 < rank d.name) (hd : d ∈ H.decls)
    (hn : (upTo H rank d.name).card ≤ n) (h : ReflTransGen H.SuperClass d.name s) :
    s ∈ superChain (build H.decls) n d.name := by
  induction n generalizing d with
  | zero =>
    have hpos : 0 < (upTo H rank d.name).card := Finset.card_pos.mpr ⟨_, mem_upTo_self hd⟩
    omega
  | succ n ih =>
    rw [superChain, build_superDef hd]
    rcases h.cases_head with rfl | ⟨t, hstep, h⟩
    · cases d.superClass <;> exact .head _
    · rw [(superClass_iff hd).mpr hstep]
      apply List.mem_cons_of_mem
      obtain ⟨d', hd', hname, args, hkind⟩ := hstep
      obtain rfl := H.eq_of_name hd' hd hname
      obtain ⟨e, he, rfl, -⟩ := H.superClasses _ hd' _ _ hkind
      have hsuper : (e.name, args) ∈ d'.supertypes := by
        rw [Decl.supertypes, hkind]
        exact List.mem_append_left _ (.head _)
      have hlt : (upTo H rank e.name).card < (upTo H rank d'.name).card :=
        upTo_lt hd' (hrank _ hd' _ hsuper)
      exact ih he (by omega) h

/-- The walk ends by the time that all classes are seen. -/
theorem mem_superChain_iff (hd : d ∈ H.decls) :
    s ∈ superChain (build H.decls) H.decls.length d.name ↔
      ReflTransGen H.SuperClass d.name s := by
  obtain ⟨rank, hrank⟩ := H.acyclic
  constructor
  · exact superChain_sound hd
  · apply superChain_complete hrank hd
    have hle : (upTo H rank d.name).card ≤ (H.decls.map Decl.name).toFinset.card :=
      Finset.card_filter_le _ _
    have hlen := List.toFinset_card_le (H.decls.map Decl.name)
    rw [List.length_map] at hlen
    exact hle.trans hlen

end Loxis.Subtyping
