import Loxis.Mono.Requests

/-! # What is emitted

Everything in the output is a function or class that the module calls for, under the text of its
label; everything that was requested and has an entry is in the output, and so is every item
that was copied.
-/

namespace Loxis.Mono

variable {hir : HirModule}

section Output

@[simp] theorem functions_append (out out' : List Item) :
    functions (out ++ out') = functions out ++ functions out' := by
  simp [functions]

@[simp] theorem classes_append (out out' : List Item) :
    classes (out ++ out') = classes out ++ classes out' := by
  simp [classes]

/-- The sites in an item. -/
def Item.sites : Item → List Site
  | .fn f => f.body
  | .cls _ _ inits methods => inits ++ methods.flatMap (·.body)

/-- A class may have got further methods. -/
def Item.Extends : Item → Item → Prop
  | .fn f, item' => item' = .fn f
  | .cls e n inits methods, item' => ∃ more, item' = .cls e n inits (methods ++ more)

theorem Item.Extends.refl (item : Item) : item.Extends item := by
  cases item with
  | fn f => rfl
  | cls e n inits methods => exact ⟨[], by simp⟩

theorem Item.Extends.trans {x y z : Item} (h : x.Extends y) (h' : y.Extends z) :
    x.Extends z := by
  cases x with
  | fn f =>
    cases h
    exact h'
  | cls e n inits methods =>
    obtain ⟨more, rfl⟩ := h
    obtain ⟨more', rfl⟩ := h'
    exact ⟨more ++ more', by simp⟩

theorem Item.Extends.sitesOf {x y : Item} (h : x.Extends y) (name : String) :
    ∀ site ∈ x.sitesOf name, site ∈ y.sitesOf name := by
  cases x with
  | fn f =>
    cases h
    exact fun _ hs => hs
  | cls e n inits methods =>
    obtain ⟨more, rfl⟩ := h
    intro site hs
    by_cases hn : n = name
    · simp only [Item.sitesOf, if_pos hn, List.flatMap_append, ← List.append_assoc] at hs ⊢
      exact List.mem_append_left _ hs
    · simp [Item.sitesOf, hn] at hs

theorem Item.sitesOf_subset {name : String} {item : Item} {site : Site}
    (h : site ∈ item.sitesOf name) : site ∈ item.sites := by
  cases item <;> simp only [Item.sitesOf] at h <;> split at h
  · exact h
  · cases h
  · exact h
  · cases h

/-- The items stay where they are. -/
def Grows (out out' : List Item) : Prop :=
  ∀ (k : ℕ) (item : Item), out[k]? = some item →
    ∃ item' : Item, out'[k]? = some item' ∧ item.Extends item'

theorem Grows.refl (out : List Item) : Grows out out := fun _ item h => ⟨item, h, .refl item⟩

theorem Grows.trans {x y z : List Item} (h : Grows x y) (h' : Grows y z) : Grows x z := by
  intro k item hk
  obtain ⟨item', hk', he⟩ := h k item hk
  obtain ⟨item'', hk'', he'⟩ := h' k item' hk'
  exact ⟨item'', hk'', he.trans he'⟩

theorem grows_append (out items : List Item) : Grows out (out ++ items) := by
  intro k item hk
  obtain ⟨hlt, -⟩ := List.getElem?_eq_some_iff.mp hk
  exact ⟨item, by rw [List.getElem?_append_left hlt, hk], .refl item⟩

theorem Grows.mem {out out' : List Item} (h : Grows out out') {item : Item} (hi : item ∈ out) :
    ∃ item' ∈ out', item.Extends item' := by
  obtain ⟨k, hk⟩ := List.mem_iff_getElem?.mp hi
  obtain ⟨item', hk', he⟩ := h k item hk
  exact ⟨item', List.mem_of_getElem? hk', he⟩

theorem mem_functions {out : List Item} {e : Entity} {l : String} : (e, l) ∈ functions out ↔
    (∃ f, .fn f ∈ out ∧ f.entity = e ∧ f.name = l) ∨
      ∃ ce n inits methods, .cls ce n inits methods ∈ out ∧
        ∃ f ∈ methods, f.entity = e ∧ n ++ "." ++ f.name = l := by
  simp only [functions, List.mem_flatMap]
  constructor
  · rintro ⟨item, hi, h⟩
    cases item with
    | fn f => exact .inl ⟨f, hi, by simpa [eq_comm] using h⟩
    | cls ce n inits methods =>
      obtain ⟨f, hf, hfe⟩ := List.mem_map.mp h
      exact .inr ⟨ce, n, inits, methods, hi, f, hf, by simpa using hfe⟩
  · rintro (⟨f, hi, rfl, rfl⟩ | ⟨ce, n, inits, methods, hi, f, hf, rfl, rfl⟩)
    · exact ⟨_, hi, by simp⟩
    · exact ⟨_, hi, List.mem_map.mpr ⟨f, hf, rfl⟩⟩

theorem mem_classes {out : List Item} {e : Entity} {n : String} :
    (e, n) ∈ classes out ↔ ∃ inits methods, .cls e n inits methods ∈ out := by
  simp only [classes, List.mem_filterMap]
  constructor
  · rintro ⟨item, hi, h⟩
    cases item with
    | fn f => cases h
    | cls ce m inits methods =>
      cases h
      exact ⟨inits, methods, hi⟩
  · rintro ⟨inits, methods, hi⟩
    exact ⟨_, hi, rfl⟩

theorem Grows.functions {out out' : List Item} (h : Grows out out') {x : Entity × String}
    (hx : x ∈ functions out) : x ∈ Mono.functions out' := by
  obtain ⟨e, l⟩ := x
  rcases mem_functions.mp hx with ⟨f, hi, hf⟩ | ⟨ce, n, inits, methods, hi, f, hf, hfe⟩
  · obtain ⟨item', hi', rfl⟩ := h.mem hi
    exact mem_functions.mpr (.inl ⟨f, hi', hf⟩)
  · obtain ⟨item', hi', more, rfl⟩ := h.mem hi
    exact mem_functions.mpr (.inr ⟨ce, n, inits, _, hi', f, List.mem_append_left _ hf, hfe⟩)

/-! ## Adding a method -/

variable {owner : String} {f : OutFn} {out : List Item}

theorem classes_attach : classes (attach owner f out) = classes out := by
  induction out with
  | nil => rfl
  | cons item out ih =>
    cases item with
    | fn g => simpa [attach, classes] using ih
    | cls e n inits methods =>
      simp only [attach]
      split
      · simp [classes]
      · simpa [classes] using ih

theorem grows_attach : Grows out (attach owner f out) := by
  induction out with
  | nil => exact .refl _
  | cons item out ih =>
    intro k it hk
    cases item with
    | fn g =>
      cases k with
      | zero => exact ⟨it, hk, .refl it⟩
      | succ k => exact ih k it hk
    | cls e n inits methods =>
      simp only [attach]
      split
      · cases k with
        | zero =>
          obtain rfl : Item.cls e n inits methods = it := by simpa using hk
          exact ⟨_, rfl, [f], rfl⟩
        | succ k => exact ⟨it, hk, .refl it⟩
      · cases k with
        | zero => exact ⟨it, hk, .refl it⟩
        | succ k => exact ih k it hk

theorem mem_functions_attach {x : Entity × String} : x ∈ functions (attach owner f out) ↔
    x ∈ functions out ∨ (∃ e, (e, owner) ∈ classes out) ∧ x = (f.entity, owner ++ "." ++ f.name) := by
  induction out with
  | nil => simp [attach, functions, classes]
  | cons item out ih =>
    have hcons : ∀ (it : Item) (out : List Item), functions (it :: out) =
        functions [it] ++ functions out := fun it out => functions_append [it] out
    have hcls : ∀ (it : Item) (out : List Item), classes (it :: out) =
        classes [it] ++ classes out := fun it out => classes_append [it] out
    cases item with
    | fn g =>
      rw [attach, hcons, hcons (.fn g) out, hcls]
      simp only [List.mem_append, ih, classes, List.filterMap_nil, List.filterMap_cons_none,
        List.not_mem_nil, false_or, or_assoc]
    | cls e n inits methods =>
      rw [attach]
      split
      case isTrue hn =>
        subst hn
        rw [hcons, hcons (.cls e n inits methods) out, hcls]
        have howner : ∃ e', (e', n) ∈ classes [.cls e n inits methods] ++ classes out :=
          ⟨e, by simp [classes]⟩
        have hsplit : ∀ x, x ∈ functions [.cls e n inits (methods ++ [f])] ↔
            x ∈ functions [.cls e n inits methods] ∨ x = (f.entity, n ++ "." ++ f.name) := by
          intro x
          simp [functions]
        simp only [List.mem_append, hsplit] at howner ⊢
        tauto
      case isFalse hn =>
        rw [hcons, hcons (.cls e n inits methods) out, hcls]
        have : ∀ e', (e', owner) ∈ classes [.cls e n inits methods] ++ classes out ↔
            (e', owner) ∈ classes out := by
          intro e'
          simp [classes, Ne.symm hn]
        simp only [List.mem_append, ih, this, or_assoc]

theorem mem_attach {item : Item} (h : item ∈ attach owner f out) : item ∈ out ∨
    ∃ e inits methods, .cls e owner inits methods ∈ out ∧
      item = .cls e owner inits (methods ++ [f]) := by
  induction out with
  | nil => cases h
  | cons it out ih =>
    cases it with
    | fn g =>
      rw [attach, List.mem_cons] at h
      rcases h with rfl | h
      · exact .inl List.mem_cons_self
      · rcases ih h with h | ⟨e, inits, methods, hm, rfl⟩
        · exact .inl (List.mem_cons_of_mem _ h)
        · exact .inr ⟨e, inits, methods, List.mem_cons_of_mem _ hm, rfl⟩
    | cls e n inits methods =>
      rw [attach] at h
      split at h
      case isTrue hn =>
        subst hn
        rcases List.mem_cons.mp h with rfl | h
        · exact .inr ⟨e, inits, methods, List.mem_cons_self, rfl⟩
        · exact .inl (List.mem_cons_of_mem _ h)
      case isFalse hn =>
        rcases List.mem_cons.mp h with rfl | h
        · exact .inl List.mem_cons_self
        · rcases ih h with h | ⟨e', inits', methods', hm, rfl⟩
          · exact .inl (List.mem_cons_of_mem _ h)
          · exact .inr ⟨e', inits', methods', List.mem_cons_of_mem _ hm, rfl⟩

end Output

/-! ## Emitted items -/

section Emission

theorem mem_functions_emission {e e' : Entity} {l : String}
    (h : (e', l) ∈ functions (emission hir e)) : l = (e'.label hir).text ∧
      ((∃ i ts, e = .fn i ts ∧ e' = e) ∨ ∃ i ts c m d, e = .cls i ts ∧ classAt hir i = some c ∧
        (m, d) ∈ plainMethods c ∧ e' = .method i ts m []) := by
  cases e with
  | fn i ts =>
    obtain ⟨rfl, rfl⟩ : e' = .fn i ts ∧ l = ((Entity.fn i ts).label hir).text := by
      simpa [emission, functions] using h
    exact ⟨rfl, .inl ⟨i, ts, rfl, rfl⟩⟩
  | cls i ts =>
    cases hc : classAt hir i with
    | none => simp [emission, hc, functions] at h
    | some c =>
      simp only [emission, hc, Option.elim_some, functions, copyClass, List.flatMap_cons,
        List.flatMap_nil, List.append_nil, List.map_map, List.mem_map] at h
      obtain ⟨⟨m, d⟩, hmem, h⟩ := h
      obtain ⟨rfl, rfl⟩ := Prod.mk.inj h
      have hd : methodAt hir i m = some (c, d) :=
        methodAt_eq_some.mpr ⟨hc, (mem_plainMethods.mp hmem).1⟩
      refine ⟨?_, .inr ⟨i, ts, c, m, d, rfl, hc, hmem, rfl⟩⟩
      simp [Entity.label, hc, hd, Label.text, mangle]
  | method i ownerArgs m ts => simp [emission, functions] at h

theorem mem_classes_emission {e e' : Entity} {n : String}
    (h : (e', n) ∈ classes (emission hir e)) : e' = e ∧ n = (e.label hir).text ∧
      ∃ i ts c, e = .cls i ts ∧ classAt hir i = some c := by
  cases e with
  | fn i ts => simp [emission, classes] at h
  | cls i ts =>
    cases hc : classAt hir i with
    | none => simp [emission, hc, classes] at h
    | some c =>
      obtain ⟨rfl, rfl⟩ : e' = .cls i ts ∧ n = ((Entity.cls i ts).label hir).text := by
        simpa [emission, hc, classes, copyClass] using h
      exact ⟨rfl, rfl, i, ts, c, rfl, hc⟩
  | method i ownerArgs m ts => simp [emission, classes] at h

theorem sites_emission {e e' : Entity} {item : Item} {site : Site} (hi : item ∈ emission hir e)
    (hs : site ∈ item.sites) (he : e' ∈ requests hir site) : e' ∈ needs hir e := by
  apply List.mem_flatMap.mpr
  refine ⟨site, ?_, he⟩
  cases e with
  | fn i ts =>
    obtain rfl := List.mem_singleton.mp hi
    exact hs
  | cls i ts =>
    cases hc : classAt hir i with
    | none => simp [emission, hc] at hi
    | some c =>
      obtain rfl : item = _ := by simpa [emission, hc] using hi
      simpa [copyClass, Item.sites, bodyOf, hc, List.map_flatMap, List.flatMap_map] using hs
  | method i ownerArgs m ts => cases hi

/-- What a run may emit: what was requested, and the items themselves. -/
def CalledFor (hir : HirModule) (e : Entity) : Prop := Requested hir e ∨ ∃ i, Root hir i e

theorem CalledFor.emits {e e' : Entity} {l : String} (h : CalledFor hir e)
    (hmem : (e', l) ∈ functions (emission hir e)) : Emits hir e' := by
  obtain ⟨-, ⟨i, ts, rfl, rfl⟩ | ⟨i, ts, c, m, d, rfl, hc, hd, rfl⟩⟩ := mem_functions_emission hmem
  · rcases h with h | ⟨j, h⟩
    · exact .genericFn h
    · cases h with | fn hf hgen => exact .fn hf hgen
  · rcases h with h | ⟨j, h⟩
    · exact .clsMethod hc hd h
    · cases h with | cls hc' hgen => exact .method hc (by simp_all) hd

end Emission

/-! ## The output of a run -/

/-- The items of an entity are in the output. -/
def Holds (hir : HirModule) (out : List Item) (e : Entity) : Prop :=
  ∀ item ∈ emission hir e, ∃ item' ∈ out, item.Extends item'

theorem Holds.grows {out out' : List Item} {e : Entity} (h : Holds hir out e)
    (hg : Grows out out') : Holds hir out' e := by
  intro item hi
  obtain ⟨item', hi', he⟩ := h item hi
  obtain ⟨item'', hi'', he'⟩ := hg.mem hi'
  exact ⟨item'', hi'', he.trans he'⟩

theorem holds_append (out : List Item) (e : Entity) : Holds hir (out ++ emission hir e) e :=
  fun item hi => ⟨item, List.mem_append_right _ hi, .refl item⟩

structure Output (hir : HirModule) (st : State) : Prop where
  fnLabel : ∀ e l, (e, l) ∈ functions st.output → l = (e.label hir).text
  fnFrom : ∀ e l, (e, l) ∈ functions st.output →
    Emits hir e ∧ (e.typeArgs ≠ [] → st.Made e)
  clsFrom : ∀ e n, (e, n) ∈ classes st.output → n = (e.label hir).text ∧
    ∃ i ts c, e = .cls i ts ∧ classAt hir i = some c ∧
      ((ts = [] ∧ c.generics = [] ∧ .copied i ∈ st.trace) ∨ ts ≠ [] ∧ st.Made e)
  sites : ∀ item ∈ st.output, ∀ site ∈ item.sites, ∀ e ∈ requests hir site, Requested hir e
  made : ∀ e, st.Made e → Holds hir st.output e
  copied : ∀ i, .copied i ∈ st.trace → ∃ r, Root hir i r ∧ Holds hir st.output r

namespace Output

variable {st st' : State}

theorem request {e : Entity} (h : Output hir st) (hv : e.Valid hir) (hr : Requested hir e)
    (hreq : Requests hir e st st') : Output hir st' := by
  have hgrows : Grows st.output st'.output := by
    rcases hreq.output_cases with hout | ⟨hout, -⟩ <;> rw [hout]
    · exact .refl _
    · exact grows_append _ _
  have hcopied : ∀ i, .copied i ∈ st'.trace ↔ .copied i ∈ st.trace := by
    obtain ⟨a, ha, -⟩ := hreq.trace
    simp [ha]
  have hfn : ∀ e' l, (e', l) ∈ functions st'.output → (e', l) ∈ functions st.output ∨
      (e', l) ∈ functions (emission hir e) ∧ st'.Made e := by
    intro e' l hl
    rcases hreq.output_cases with hout | ⟨hout, hm⟩ <;> rw [hout] at hl
    · exact .inl hl
    · rw [functions_append, List.mem_append] at hl
      exact hl.imp_right fun hl => ⟨hl, hm⟩
  constructor
  · intro e' l hl
    rcases hfn e' l hl with hl | ⟨hl, -⟩
    · exact h.fnLabel e' l hl
    · exact (mem_functions_emission hl).1
  · intro e' l hl
    rcases hfn e' l hl with hl | ⟨hl, hm⟩
    · exact ⟨(h.fnFrom e' l hl).1, fun hts => hreq.made_mono ((h.fnFrom e' l hl).2 hts)⟩
    · refine ⟨CalledFor.emits (.inl hr) hl, fun hts => ?_⟩
      obtain ⟨-, ⟨i, ts, -, rfl⟩ | ⟨i, ts, c, m, d, -, -, -, rfl⟩⟩ := mem_functions_emission hl
      · exact hm
      · exact absurd rfl hts
  · intro e' n hn
    have hold : (e', n) ∈ classes st.output ∨ (e', n) ∈ classes (emission hir e) ∧ st'.Made e := by
      rcases hreq.output_cases with hout | ⟨hout, hm⟩ <;> rw [hout] at hn
      · exact .inl hn
      · rw [classes_append, List.mem_append] at hn
        exact hn.imp_right fun hn => ⟨hn, hm⟩
    rcases hold with hn | ⟨hn, hm⟩
    · obtain ⟨hname, i, ts, c, he, hc, hfrom⟩ := h.clsFrom e' n hn
      refine ⟨hname, i, ts, c, he, hc, hfrom.imp ?_ ?_⟩
      · exact fun ⟨hts, hgen, hcop⟩ => ⟨hts, hgen, (hcopied i).mpr hcop⟩
      · exact fun ⟨hts, hmade⟩ => ⟨hts, hreq.made_mono hmade⟩
    · obtain ⟨rfl, hname, i, ts, c, rfl, hc⟩ := mem_classes_emission hn
      exact ⟨hname, i, ts, c, rfl, hc, .inr ⟨hv.typeArgs_ne_nil, hm⟩⟩
  · intro item hi site hs e' he'
    have hold : item ∈ st.output ∨ item ∈ emission hir e := by
      rcases hreq.output_cases with hout | ⟨hout, -⟩ <;> rw [hout] at hi
      · exact .inl hi
      · exact List.mem_append.mp hi
    rcases hold with hi | hi
    · exact h.sites item hi site hs e' he'
    · exact .step hr (sites_emission hi hs he')
  · intro e' he'
    rcases hreq.made_cases he' with he' | ⟨rfl, hout, -⟩
    · exact (h.made e' he').grows hgrows
    · rw [hout]
      exact holds_append _ _
  · intro i hi
    obtain ⟨r, hr, hh⟩ := h.copied i ((hcopied i).mp hi)
    exact ⟨r, hr, hh.grows hgrows⟩

/-- An item is copied. -/
theorem copy {i : ℕ} {r : Entity} (h : Output hir st) (hr : Root hir i r)
    (hmap : st'.specMap = st.specMap) (htrace : st'.trace = st.trace ++ [.copied i])
    (hout : st'.output = st.output ++ emission hir r) : Output hir st' := by
  have hgrows : Grows st.output st'.output := hout ▸ grows_append _ _
  have hmade : ∀ e, st'.Made e ↔ st.Made e := fun e => by simp [State.Made, hmap]
  have hroot : r.typeArgs = [] := by cases hr <;> rfl
  constructor
  · intro e l hl
    rw [hout, functions_append, List.mem_append] at hl
    exact hl.elim (h.fnLabel e l) fun hl => (mem_functions_emission hl).1
  · intro e l hl
    rw [hout, functions_append, List.mem_append] at hl
    rcases hl with hl | hl
    · rw [hmade]
      exact h.fnFrom e l hl
    · refine ⟨CalledFor.emits (.inr ⟨i, hr⟩) hl, fun hts => absurd ?_ hts⟩
      obtain ⟨-, ⟨k, ts, rfl, rfl⟩ | ⟨k, ts, c, m, d, -, -, -, rfl⟩⟩ := mem_functions_emission hl
      · exact hroot
      · rfl
  · intro e n hn
    rw [hout, classes_append, List.mem_append] at hn
    rcases hn with hn | hn
    · obtain ⟨hname, k, ts, c, he, hc, hfrom⟩ := h.clsFrom e n hn
      refine ⟨hname, k, ts, c, he, hc, hfrom.imp ?_ ?_⟩
      · rintro ⟨hts, hgen, hcop⟩
        exact ⟨hts, hgen, htrace ▸ List.mem_append_left _ hcop⟩
      · rintro ⟨hts, hm⟩
        exact ⟨hts, (hmade e).mpr hm⟩
    · obtain ⟨rfl, hname, k, ts, c, rfl, hc⟩ := mem_classes_emission hn
      cases hr with
      | cls hc' hgen =>
        exact ⟨hname, i, [], c, rfl, hc, .inl ⟨rfl, by simp_all, by simp [htrace]⟩⟩
  · intro item hi site hs e he
    rw [hout, List.mem_append] at hi
    rcases hi with hi | hi
    · exact h.sites item hi site hs e he
    · exact .root hr (sites_emission hi hs he)
  · intro e he
    exact (h.made e ((hmade e).mp he)).grows hgrows
  · intro j hj
    rw [htrace, List.mem_append, List.mem_singleton] at hj
    rcases hj with hj | hj
    · obtain ⟨r', hr', hh⟩ := h.copied j hj
      exact ⟨r', hr', hh.grows hgrows⟩
    · cases hj
      exact ⟨r, hr, hout ▸ holds_append _ _⟩

/-- A method joins its class. -/
theorem attach {owner : String} {f : OutFn} (h : Output hir st) (hr : Requested hir f.entity)
    (hm : st.Made f.entity) (hemits : Emits hir f.entity) (hbody : f.body = bodyOf hir f.entity)
    (hlabel : owner ++ "." ++ f.name = (f.entity.label hir).text)
    (hst : st' = { st with output := Mono.attach owner f st.output }) : Output hir st' := by
  subst hst
  have hfn : ∀ e l, (e, l) ∈ functions (Mono.attach owner f st.output) →
      (e, l) ∈ functions st.output ∨ e = f.entity ∧ l = owner ++ "." ++ f.name := by
    intro e l hl
    rcases mem_functions_attach.mp hl with hl | ⟨-, hl⟩
    · exact .inl hl
    · exact .inr (Prod.mk.inj hl)
  constructor
  · intro e l hl
    rcases hfn e l hl with hl | ⟨rfl, rfl⟩
    · exact h.fnLabel e l hl
    · exact hlabel
  · intro e l hl
    rcases hfn e l hl with hl | ⟨rfl, rfl⟩
    · exact h.fnFrom e l hl
    · exact ⟨hemits, fun _ => hm⟩
  · intro e n hn
    exact h.clsFrom e n (classes_attach ▸ hn)
  · intro item hi site hs e he
    rcases mem_attach hi with hi | ⟨ce, inits, methods, hcls, rfl⟩
    · exact h.sites item hi site hs e he
    · have hsplit : site ∈ (Item.cls ce owner inits methods).sites ∨ site ∈ f.body := by
        simp only [Item.sites, List.flatMap_append, List.mem_append, List.flatMap_cons,
          List.flatMap_nil, List.append_nil] at hs ⊢
        tauto
      rcases hsplit with hs | hs
      · exact h.sites _ hcls site hs e he
      · exact .step hr (List.mem_flatMap.mpr ⟨site, hbody ▸ hs, he⟩)
  · exact fun e he => (h.made e he).grows grows_attach
  · intro i hi
    obtain ⟨r, hr, hh⟩ := h.copied i hi
    exact ⟨r, hr, hh.grows grows_attach⟩

end Output

end Loxis.Mono
