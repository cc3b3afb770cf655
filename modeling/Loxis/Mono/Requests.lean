import Loxis.Mono.Naming
import Mathlib.Data.List.Nodup

/-! # Requests and the specialisation map

The map has one entry for each label and list of type arguments that was requested, and an entry
holds the name of the copy that it was made for.
-/

namespace Loxis.Mono

open Readable

variable {hir : HirModule}

section Tables

theorem functionAt_eq_some {i : ℕ} {f : HirFn} : functionAt hir i = some f ↔ hir[i]? = some (.fn f) := by
  unfold functionAt
  cases hir[i]? with
  | none => simp
  | some item => cases item <;> simp

theorem classAt_eq_some {i : ℕ} {c : HirClass} : classAt hir i = some c ↔ hir[i]? = some (.cls c) := by
  unfold classAt
  cases hir[i]? with
  | none => simp
  | some item => cases item <;> simp

theorem functionAt_none_of_classAt {i : ℕ} {c : HirClass} (h : classAt hir i = some c) :
    functionAt hir i = none := by
  rw [classAt_eq_some] at h
  simp [functionAt, h]

theorem methodAt_eq_some {i m : ℕ} {c : HirClass} {d : HirMethod} :
    methodAt hir i m = some (c, d) ↔ classAt hir i = some c ∧ c.methods[m]? = some d := by
  simp only [methodAt, Option.bind_eq_some_iff, Option.map_eq_some_iff, Prod.mk.injEq]
  constructor
  · rintro ⟨c', hc, d', hd, rfl, rfl⟩
    exact ⟨hc, hd⟩
  · rintro ⟨hc, hd⟩
    exact ⟨c, hc, d, hd, rfl, rfl⟩

theorem fnByName_some {name : String} {i : ℕ} {f : HirFn} (h : fnByName hir name = some (i, f)) :
    functionAt hir i = some f ∧ f.label.text = name := by
  obtain ⟨⟨item, j⟩, hmem, h⟩ := List.exists_of_findSome?_eq_some h
  rw [List.mem_reverse, List.mk_mem_zipIdx_iff_getElem?] at hmem
  cases item with
  | fn g =>
    simp only [Option.ite_none_right_eq_some, Option.some.injEq, Prod.mk.injEq] at h
    obtain ⟨hname, rfl, rfl⟩ := h
    exact ⟨functionAt_eq_some.mpr hmem, hname⟩
  | cls c => cases h

theorem classByName_some {name : Ident} {i : ℕ} {c : HirClass}
    (h : classByName hir name = some (i, c)) : classAt hir i = some c ∧ c.name = name := by
  obtain ⟨⟨item, j⟩, hmem, h⟩ := List.exists_of_findSome?_eq_some h
  rw [List.mem_reverse, List.mk_mem_zipIdx_iff_getElem?] at hmem
  cases item with
  | fn g => cases h
  | cls d =>
    simp only [Option.ite_none_right_eq_some, Option.some.injEq, Prod.mk.injEq] at h
    obtain ⟨hname, rfl, rfl⟩ := h
    exact ⟨classAt_eq_some.mpr hmem, hname⟩

theorem genericMethod_some {owner : HirClass} {name : Ident} {m : ℕ} {method : HirMethod}
    (h : genericMethod owner name = some (m, method)) :
    owner.methods[m]? = some method ∧ method.generics ≠ [] := by
  obtain ⟨⟨d, j⟩, hmem, h⟩ := List.exists_of_findSome?_eq_some h
  rw [List.mk_mem_zipIdx_iff_getElem?] at hmem
  simp only [Option.ite_none_right_eq_some, Option.some.injEq, Prod.mk.injEq] at h
  obtain ⟨⟨-, hgen⟩, rfl, rfl⟩ := h
  exact ⟨hmem, hgen⟩

theorem mem_plainMethods {c : HirClass} {m : ℕ} {d : HirMethod} :
    (m, d) ∈ plainMethods c ↔ c.methods[m]? = some d ∧ d.generics = [] := by
  simp only [plainMethods, List.mem_filterMap, Prod.exists, List.mk_mem_zipIdx_iff_getElem?,
    Option.ite_none_right_eq_some, Option.some.injEq, Prod.mk.injEq]
  constructor
  · rintro ⟨d', j, hmem, hgen, rfl, rfl⟩
    exact ⟨hmem, hgen⟩
  · rintro ⟨hmem, hgen⟩
    exact ⟨d, m, hmem, hgen, rfl, rfl⟩

end Tables

/-! ## Names of copies -/

/-- The labels that items have after the checker and the builder. -/
def WellNamed (hir : HirModule) : Prop :=
  ∀ i f, functionAt hir i = some f →
    (∃ x, f.label = .function x []) ∨ (∃ x e, f.label = .overload x e f.params f.ret) ∨
      (∃ o m, f.label = .method o [] m []) ∧ f.generics = []

theorem wellNamed_build (decls : List Decl) : WellNamed (build decls) := by
  intro i f h
  have hmem := List.mem_of_getElem? (functionAt_eq_some.mp h)
  rw [build, List.mem_append, List.mem_filterMap, List.mem_flatMap] at hmem
  rcases hmem with ⟨d, -, hd⟩ | ⟨d, -, hd⟩
  · cases d with
    | function g =>
      obtain rfl : g.build decls = f := by simpa using hd
      by_cases ho : overloaded decls g.name
      · right; left
        exact ⟨g.name, g.isExtension, by simp [FunDecl.build, FunDecl.label, ho]⟩
      · left
        exact ⟨g.name, by simp [FunDecl.build, FunDecl.label, ho]⟩
    | _ => simp at hd
  · cases d with
    | iface name defaults =>
      right; right
      obtain ⟨m, -, hm⟩ := List.mem_map.mp hd
      obtain rfl : buildInterfaceMethod name m = f := by simpa using hm
      exact ⟨⟨name, m.1, rfl⟩, rfl⟩
    | _ => simp at hd

theorem beforeDescriptor_append {l : List Char} (h : '$' ∉ l) (r : List Char) :
    beforeDescriptor (l ++ r) = (beforeDescriptor r).map (l ++ ·) := by
  induction l with
  | nil => simp
  | cons c l ih =>
    simp only [List.mem_cons, not_or] at h
    rw [List.cons_append, beforeDescriptor, ih h.2, Option.map_map]
    · rfl
    · rintro cs hc -
      exact absurd hc.symm h.1

theorem beforeDescriptor_signature (e : Bool) (ps : List Ty) (t : Ty) :
    beforeDescriptor (descriptor e ps t) = some (if e then '$' :: extension else []) := by
  cases e with
  | false => rfl
  | true =>
    have hext : '$' ∉ extension := by decide
    have : beforeDescriptor (extension ++ signature ps t) = some extension := by
      rw [beforeDescriptor_append hext]
      simp [signature, beforeDescriptor]
    rw [descriptor, if_pos rfl, beforeDescriptor, this]
    · rfl
    · simp [extension]

theorem beforeDescriptor_plain {l : List Char} (h : '$' ∉ l) : beforeDescriptor l = none := by
  simpa [beforeDescriptor] using beforeDescriptor_append h []

/-- A copy's name is the text of its label. -/
theorem specializedName_eq {f : HirFn} {typeArgs : List Ty} (hts : typeArgs ≠ [])
    (h : (∃ x, f.label = .function x []) ∨ (∃ x e, f.label = .overload x e f.params f.ret)) :
    specializedName f typeArgs = (f.labelFor typeArgs).text := by
  rcases h with ⟨x, hx⟩ | ⟨x, e, hx⟩
  · have : beforeDescriptor f.label.text.toList = none := by
      rw [hx]
      exact beforeDescriptor_plain x.noDollar
    rw [specializedName, this, HirFn.labelFor, hx]
    rfl
  · have : beforeDescriptor f.label.text.toList = some (Label.extended x e).toList := by
      rw [hx, toList_overload, beforeDescriptor_append x.noDollar, beforeDescriptor_signature,
        toList_extended]
      rfl
    rw [specializedName, this, HirFn.labelFor, hx]
    simp only [if_neg hts, Label.text, String.ofList_toList]

/-! ## The specialisation map -/

namespace Entity

def key (hir : HirModule) (e : Entity) : SpecKey := ⟨(e.generic hir).text, typeSigVec e.typeArgs⟩

theorem key_inj {e e' : Entity} : e.key hir = e'.key hir ↔ e.SameRequest hir e' := by
  simp [key, SameRequest, Label.text_inj, typeSigVec_inj]

/-- The name in the map; a method's is without its class. -/
def shortName (hir : HirModule) : Entity → String
  | method i _ m ts => (methodAt hir i m).elim "" fun (_, d) => mangle d.name.text ts
  | e => (e.label hir).text

/-- A specialisation of a generic item. -/
inductive Valid (hir : HirModule) : Entity → Prop
  | fn {i : ℕ} {f : HirFn} {ts : List Ty} : functionAt hir i = some f → f.generics ≠ [] →
      ts ≠ [] → Valid hir (fn i ts)
  | cls {i : ℕ} {c : HirClass} {ts : List Ty} : classAt hir i = some c → c.generics ≠ [] →
      ts ≠ [] → Valid hir (cls i ts)
  | method {i m : ℕ} {c : HirClass} {d : HirMethod} {ownerArgs ts : List Ty} :
      classAt hir i = some c → c.methods[m]? = some d → d.generics ≠ [] → ts ≠ [] →
      Valid hir (method i ownerArgs m ts)

theorem Valid.typeArgs_ne_nil {e : Entity} (h : e.Valid hir) : e.typeArgs ≠ [] := by
  cases h <;> assumption

end Entity

namespace State

def Asked (st : State) (e : Entity) : Prop := ∃ a, .asked e a ∈ st.trace

def Made (st : State) (e : Entity) : Prop := ∃ s ∈ st.specMap, s.entity = e

theorem find_some {st : State} {key : SpecKey} {s : Spec} (h : st.find key = some s) :
    s ∈ st.specMap ∧ s.key = key :=
  ⟨List.mem_of_find?_eq_some h, by simpa using List.find?_some h⟩

theorem find_none {st : State} {key : SpecKey} (h : st.find key = none) :
    ∀ s ∈ st.specMap, s.key ≠ key := by
  simpa [find] using h

end State

/-- The map holds a copy for every request, at most one for a key, and under its name. -/
structure Table (hir : HirModule) (st : State) : Prop where
  entry : ∀ s ∈ st.specMap, s.key = s.entity.key hir ∧ s.name = s.entity.shortName hir
  made : ∀ e, st.Made e → st.Asked e
  keys : (st.specMap.map Spec.key).Nodup
  asked : ∀ e a, .asked e a ∈ st.trace → e.Valid hir ∧ Requested hir e ∧
    (∃ s ∈ st.specMap, s.key = e.key hir) ∧ (st.Made e → a = (e.label hir).text)

namespace Table

variable {st : State}

theorem eq_of_key (h : Table hir st) {s s' : Spec} (hs : s ∈ st.specMap) (hs' : s' ∈ st.specMap)
    (hk : s.key = s'.key) : s = s' :=
  List.inj_on_of_nodup_map h.keys hs hs' hk

/-- Where requests differ in what the pass records, each is answered with its own copy. -/
theorem made_of_asked (h : Table hir st)
    (hapart : ∀ e e', Requested hir e → Requested hir e' → e.SameRequest hir e' → e = e')
    {e : Entity} (he : st.Asked e) : st.Made e := by
  obtain ⟨a, ha⟩ := he
  obtain ⟨-, hreq, ⟨s, hs, hk⟩, -⟩ := h.asked e a ha
  refine ⟨s, hs, ?_⟩
  obtain ⟨b, hb⟩ := h.made s.entity ⟨s, hs, rfl⟩
  have hk' : s.entity.key hir = e.key hir := (h.entry s hs).1 ▸ hk
  exact hapart _ _ (h.asked _ b hb).2.1 hreq (Entity.key_inj.mp hk')

end Table

/-! ## One request -/

/-- The item that is emitted for an entity. A method is added to its class instead. -/
def emission (hir : HirModule) : Entity → List Item
  | .fn i ts => [.fn ⟨.fn i ts, ((Entity.fn i ts).label hir).text, bodyOf hir (.fn i ts)⟩]
  | .cls i ts =>
    (classAt hir i).elim [] fun c => [copyClass i c ts ((Entity.cls i ts).label hir).text]
  | .method .. => []

/-- The key under which an entity waits for its scan. -/
def scheduled (hir : HirModule) : Entity → List SpecKey
  | .method .. => []
  | e => [e.key hir]

/-- What a request does: it finds an entry, or makes one and emits the copy. -/
structure Requests (hir : HirModule) (e : Entity) (st st' : State) : Prop where
  effect : ((∃ s ∈ st.specMap, s.key = e.key hir) ∧ st'.specMap = st.specMap ∧
      st'.output = st.output ∧ st'.worklist = st.worklist) ∨
    ((∀ s ∈ st.specMap, s.key ≠ e.key hir) ∧
      st'.specMap = ⟨e.key hir, e.shortName hir, e⟩ :: st.specMap ∧
      st'.output = st.output ++ emission hir e ∧
      st'.worklist = scheduled hir e ++ st.worklist)
  trace : ∃ a, st'.trace = st.trace ++ [.asked e a] ∧ (st'.Made e → a = (e.label hir).text)

namespace Requests

variable {st st' : State} {e : Entity}

theorem asked (h : Requests hir e st st') : st'.Asked e := by
  obtain ⟨a, ha, -⟩ := h.trace
  exact ⟨a, by simp [ha]⟩

theorem asked_mono (h : Requests hir e st st') {e' : Entity} (he : st.Asked e') : st'.Asked e' := by
  obtain ⟨a, ha, -⟩ := h.trace
  obtain ⟨b, hb⟩ := he
  exact ⟨b, by simp [ha, hb]⟩

theorem made_mono (h : Requests hir e st st') {e' : Entity} (he : st.Made e') : st'.Made e' := by
  obtain ⟨s, hs, hse⟩ := he
  rcases h.effect with ⟨-, hmap, -⟩ | ⟨-, hmap, -⟩
  · exact ⟨s, hmap ▸ hs, hse⟩
  · exact ⟨s, hmap ▸ List.mem_cons_of_mem _ hs, hse⟩

/-- An entry is old, or the request's own and emitted with it. -/
theorem made_cases (h : Requests hir e st st') {e' : Entity} (he : st'.Made e') : st.Made e' ∨
    e' = e ∧ st'.output = st.output ++ emission hir e ∧
      st'.worklist = scheduled hir e ++ st.worklist := by
  obtain ⟨s, hs, hse⟩ := he
  rcases h.effect with ⟨-, hmap, -⟩ | ⟨-, hmap, hout, hwork⟩
  · exact .inl ⟨s, hmap ▸ hs, hse⟩
  · rw [hmap] at hs
    cases hs with
    | head => exact .inr ⟨hse.symm, hout, hwork⟩
    | tail _ hs => exact .inl ⟨s, hs, hse⟩

/-- An entry that is made later is not one for an earlier request. -/
theorem made_back (h : Requests hir e st st') (ht : Table hir st) {e' : Entity}
    (ha : st.Asked e') (hm : st'.Made e') : st.Made e' := by
  rcases h.effect with ⟨-, hmap, -⟩ | ⟨hnew, hmap, -⟩
  · simpa [State.Made, hmap] using hm
  · obtain ⟨s, hs, hse⟩ := hm
    rw [hmap] at hs
    cases hs with
    | tail _ hs => exact ⟨s, hs, hse⟩
    | head =>
      cases hse
      obtain ⟨a, ha⟩ := ha
      obtain ⟨-, -, ⟨s', hs', hk'⟩, -⟩ := ht.asked _ a ha
      exact absurd hk' (hnew s' hs')

/-- Only a request without an entry emits anything. -/
theorem output_cases (h : Requests hir e st st') :
    st'.output = st.output ∨ st'.output = st.output ++ emission hir e ∧ st'.Made e := by
  rcases h.effect with ⟨-, -, hout, -⟩ | ⟨-, hmap, hout, -⟩
  · exact .inl hout
  · exact .inr ⟨hout, ⟨_, hmap ▸ List.mem_cons_self, rfl⟩⟩

end Requests

theorem Table.request {st st' : State} {e : Entity} (h : Table hir st) (hv : e.Valid hir)
    (hr : Requested hir e) (hreq : Requests hir e st st') : Table hir st' := by
  obtain ⟨a, htrace, hans⟩ := hreq.trace
  have hmem : ∀ e' b, .asked e' b ∈ st'.trace ↔ .asked e' b ∈ st.trace ∨ e' = e ∧ b = a := by
    simp [htrace]
  rcases hreq.effect with ⟨⟨s, hs, hk⟩, hmap, -⟩ | ⟨hnew, hmap, -⟩
  · have hmade : ∀ e', st'.Made e' ↔ st.Made e' := fun e' => by simp [State.Made, hmap]
    constructor
    · rw [hmap]
      exact h.entry
    · exact fun e' he' => hreq.asked_mono (h.made e' ((hmade e').mp he'))
    · rw [hmap]
      exact h.keys
    · intro e' b hb
      rcases (hmem e' b).mp hb with hb | ⟨rfl, rfl⟩
      · obtain ⟨hv', hr', ⟨s', hs', hk'⟩, ha'⟩ := h.asked e' b hb
        exact ⟨hv', hr', ⟨s', hmap ▸ hs', hk'⟩, fun hm => ha' ((hmade e').mp hm)⟩
      · exact ⟨hv, hr, ⟨s, hmap ▸ hs, hk⟩, hans⟩
  · constructor
    · rw [hmap]
      rintro s (_ | ⟨_, hs⟩)
      · exact ⟨rfl, rfl⟩
      · exact h.entry s hs
    · intro e' he'
      rcases hreq.made_cases he' with he' | ⟨rfl, -⟩
      · exact hreq.asked_mono (h.made e' he')
      · exact hreq.asked
    · rw [hmap, List.map_cons, List.nodup_cons]
      refine ⟨?_, h.keys⟩
      intro hk
      obtain ⟨s, hs, hk⟩ := List.mem_map.mp hk
      exact hnew s hs hk
    · intro e' b hb
      rcases (hmem e' b).mp hb with hb | ⟨rfl, rfl⟩
      · obtain ⟨hv', hr', ⟨s', hs', hk'⟩, ha'⟩ := h.asked e' b hb
        refine ⟨hv', hr', ⟨s', hmap ▸ List.mem_cons_of_mem _ hs', hk'⟩, fun hm => ?_⟩
        exact ha' (hreq.made_back h ⟨b, hb⟩ hm)
      · exact ⟨hv, hr, ⟨_, hmap ▸ List.mem_cons_self, rfl⟩, hans⟩

/-! ## The passes' requests -/

section Passes

variable {st : State}

theorem labelFor_nil (f : HirFn) : f.labelFor [] = f.label := by
  unfold HirFn.labelFor
  cases f.label <;> simp

/-- A found entry answers with its own name. -/
theorem Table.answer (h : Table hir st) {e : Entity} {s : Spec} (hs : s ∈ st.specMap)
    (hk : s.key = e.key hir) (he : st.Made e) : s.name = e.shortName hir := by
  obtain ⟨s', hs', rfl⟩ := he
  rw [h.eq_of_key hs hs' (hk.trans (h.entry s' hs').1.symm)]
  exact (h.entry s' hs').2

theorem monoFn_requests (hw : WellNamed hir) (h : Table hir st) {i : ℕ} {f : HirFn}
    {ts : List Ty} (hf : functionAt hir i = some f) (hgen : f.generics ≠ []) (hts : ts ≠ []) :
    Requests hir (.fn i ts) st (monoFn i f ts st) := by
  have hkey : (⟨f.label.text, typeSigVec ts⟩ : SpecKey) = (Entity.fn i ts).key hir := by
    simp [Entity.key, Entity.generic, Entity.typeArgs, hf]
  have hname : specializedName f ts = ((Entity.fn i ts).label hir).text := by
    rw [specializedName_eq hts]
    · simp [Entity.label, hf]
    · rcases hw i f hf with hl | hl | ⟨-, hnil⟩
      · exact .inl hl
      · exact .inr hl
      · exact absurd hnil hgen
  cases hfind : st.find ((Entity.fn i ts).key hir) with
  | some s =>
    have hmono : monoFn i f ts st = st.log (.asked (.fn i ts) s.name) := by
      simp only [monoFn, hkey, hfind]
    obtain ⟨hs, hk⟩ := State.find_some hfind
    rw [hmono]
    exact ⟨.inl ⟨⟨s, hs, hk⟩, rfl, rfl, rfl⟩, s.name, rfl, h.answer hs hk⟩
  | none =>
    have hmono : monoFn i f ts st =
        (((st.log (.asked (.fn i ts) ((Entity.fn i ts).label hir).text)).define
          ⟨(Entity.fn i ts).key hir, ((Entity.fn i ts).label hir).text, .fn i ts⟩).schedule
            ((Entity.fn i ts).key hir)).push
              (.fn ⟨.fn i ts, ((Entity.fn i ts).label hir).text,
                f.body.map (Site.subst (makeSubst f.generics ts))⟩) := by
      simp only [monoFn, hkey, hfind, hname]
    rw [hmono]
    refine ⟨.inr ⟨State.find_none hfind, rfl, ?_, rfl⟩, _, rfl, fun _ => rfl⟩
    simp [State.push, State.schedule, State.define, State.log, emission, bodyOf, hf]

/-- Whoever holds the entry for a class and its type arguments, the name is the class's. -/
theorem Table.className (h : Table hir st) {c : HirClass} {ts : List Ty}
    {s : Spec} (hs : s ∈ st.specMap) (hk : s.key = ⟨c.name.text, typeSigVec ts⟩) :
    s.name = mangle c.name.text ts := by
  obtain ⟨hkey, hname⟩ := h.entry s hs
  obtain ⟨a, ha⟩ := h.made s.entity ⟨s, hs, rfl⟩
  have hv := (h.asked _ a ha).1
  rw [hkey] at hk
  rw [hname]
  obtain ⟨hgeneric, hsig⟩ := SpecKey.mk.inj hk
  have hts := typeSigVec_inj.mp hsig
  have hlabel : (s.entity.generic hir).erase = (Label.function c.name []).erase :=
    Label.text_inj.mp hgeneric
  generalize s.entity = e at hv hlabel hts
  cases hv with
  | @fn i f ts' hf hgen hne =>
    have hf' : f.label = .function c.name [] := by
      simp only [Entity.generic, hf, Option.elim_some] at hlabel
      cases hl : f.label <;> simp [hl, Label.erase] at hlabel
      simp [hlabel]
    have : mangle c.name.text ts' = mangle c.name.text ts := mangle_inj.mpr ⟨rfl, hts⟩
    simpa [Entity.shortName, Entity.label, hf, HirFn.labelFor, hf', Label.text] using this
  | @cls i d ts' hd hgen hne =>
    have hd' : d.name = c.name := by
      simpa [Entity.generic, Entity.label, hd, Label.erase] using hlabel
    have : mangle c.name.text ts' = mangle c.name.text ts := mangle_inj.mpr ⟨rfl, hts⟩
    simpa [Entity.shortName, Entity.label, hd, hd', Label.text] using this
  | @method i m d md ownerArgs ts' hd hmd hgen hne =>
    have : methodAt hir i m = some (d, md) := methodAt_eq_some.mpr ⟨hd, hmd⟩
    simp [Entity.generic, Entity.label, this, Label.erase] at hlabel

theorem monoClass_requests (h : Table hir st) {i : ℕ} {c : HirClass}
    {ts : List Ty} (hc : classAt hir i = some c) :
    Requests hir (.cls i ts) st (monoClass i c ts st).2 ∧
      (monoClass i c ts st).1 = mangle c.name.text ts := by
  have hkey : (⟨c.name.text, typeSigVec ts⟩ : SpecKey) = (Entity.cls i ts).key hir := by
    simp [Entity.key, Entity.generic, Entity.typeArgs, Entity.label, hc, Label.text, mangle]
  have hname : mangle c.name.text ts = ((Entity.cls i ts).label hir).text := by
    simp [Entity.label, hc, Label.text]
  rw [hname]
  cases hfind : st.find ((Entity.cls i ts).key hir) with
  | some s =>
    have hmono : monoClass i c ts st = (s.name, st.log (.asked (.cls i ts) s.name)) := by
      simp only [monoClass, hkey, hfind]
    obtain ⟨hs, hk⟩ := State.find_some hfind
    rw [hmono, ← hname]
    exact ⟨⟨.inl ⟨⟨s, hs, hk⟩, rfl, rfl, rfl⟩, s.name, rfl, h.answer hs hk⟩,
      h.className hs (hk.trans hkey.symm)⟩
  | none =>
    have hmono : monoClass i c ts st = (((Entity.cls i ts).label hir).text,
        (((st.log (.asked (.cls i ts) ((Entity.cls i ts).label hir).text)).define
          ⟨(Entity.cls i ts).key hir, ((Entity.cls i ts).label hir).text, .cls i ts⟩).schedule
            ((Entity.cls i ts).key hir)).push
              (copyClass i c ts ((Entity.cls i ts).label hir).text)) := by
      simp only [monoClass, hkey, hfind, hname]
    rw [hmono]
    refine ⟨⟨.inr ⟨State.find_none hfind, rfl, ?_, rfl⟩, _, rfl, fun _ => rfl⟩, rfl⟩
    simp [State.push, State.schedule, State.define, State.log, emission, hc]

end Passes

end Loxis.Mono
