import Loxis.Mono.Scan

/-! # Names of specialisations

When the pass ends, every item is copied and every request of the module was made. The names are
right exactly when the module's requests can be told apart, its methods find their classes, and
no two of its functions have one label.
-/

namespace Loxis.Mono

variable {hir : HirModule}

section Copies

theorem bodyOf_fn_nil {i : ℕ} {f : HirFn} (hf : functionAt hir i = some f) :
    bodyOf hir (.fn i []) = f.body.map (Site.subst []) := by
  simp [bodyOf, hf, makeSubst]

theorem bodyOf_cls_nil {i : ℕ} {c : HirClass} (hc : classAt hir i = some c) :
    bodyOf hir (.cls i []) =
      (c.inits ++ (plainMethods c).flatMap (·.2.body)).map (Site.subst []) := by
  simp [bodyOf, hc, makeSubst]

theorem Root.lt {i : ℕ} {r : Entity} (h : Root hir i r) : i < hir.length := by
  cases h with
  | fn hf _ => exact (List.getElem?_eq_some_iff.mp (functionAt_eq_some.mp hf)).1
  | cls hc _ => exact (List.getElem?_eq_some_iff.mp (classAt_eq_some.mp hc)).1

theorem Early.requested {i : ℕ} {e : Entity} (h : Early hir i e) : Requested hir e := by
  induction h with
  | root hr he => exact .root hr he
  | step _ he ih => exact .step ih he

theorem Early.root_exists {i : ℕ} {e : Entity} (h : Early hir i e) : ∃ r, Root hir i r := by
  induction h with
  | root hr _ => exact ⟨_, hr⟩
  | step _ _ ih => exact ih

/-- The items before `n` are copied. -/
structure Copied (hir : HirModule) (n : ℕ) (st : State) : Prop where
  progress : Progress hir [] [] st
  done : ∀ j < n, ∀ r, Root hir j r → .copied j ∈ st.trace
  bound : ∀ j, .copied j ∈ st.trace → j < n

/-- The requests that may be made while item `n` is copied. -/
theorem Copied.allowed {n : ℕ} {st : State} (h : Copied hir n st) :
    Allowed hir (Early hir n) st := by
  refine ⟨fun e he => he.requested, ?_, ?_⟩
  · intro e hm he e' he'
    cases e with
    | method k ownerArgs m ts => exact .step he he'
    | _ => cases hm
  · intro hn k m ts he
    obtain ⟨j, hj, hstands⟩ := hn.ownerFirst n k m ts he
    obtain ⟨c, d, -, hd, -, hgen⟩ := id hstands
    exact ⟨j, hstands, h.done j hj _ (.cls hd hgen)⟩

theorem Copied.skip {n : ℕ} {st : State} (h : Copied hir n st) (hroot : ∀ r, ¬ Root hir n r) :
    Copied hir (n + 1) st := by
  refine ⟨h.progress, fun j hj r hr => ?_, fun j hj => Nat.lt_succ_of_lt (h.bound j hj)⟩
  rcases Nat.lt_succ_iff_lt_or_eq.mp hj with hj | rfl
  · exact h.done j hj r hr
  · exact absurd hr (hroot r)

theorem Copied.copy (hw : WellNamed hir) {n fuel : ℕ} {st st' : State} {r : Entity}
    {sites : List Site} (h : Copied hir n st) (hr : Root hir n r) (hsites : sites = bodyOf hir r)
    (hst : scanSites hir fuel sites st = some st') :
    Copied hir (n + 1) { st' with
      trace := st'.trace ++ [.copied n], output := st'.output ++ emission hir r } := by
  subst hsites
  obtain ⟨hp, hs, hasked⟩ := scanSites_scanned hw fuel _ _ _ _ _ h.progress h.allowed
    (fun e he => .root hr he) hst
  have hlt : ∀ j, .copied j ∈ st'.trace → j < n := fun j hj => h.bound j ((hs.copied j).mp hj)
  refine ⟨hp.copy hr hasked hlt, fun j hj r' hr' => ?_, fun j hj => ?_⟩
  · rcases Nat.lt_succ_iff_lt_or_eq.mp hj with hj | rfl
    · exact List.mem_append_left _ ((hs.copied j).mpr (h.done j hj r' hr'))
    · simp
  · rcases List.mem_append.mp hj with hj | hj
    · exact Nat.lt_succ_of_lt (hlt j hj)
    · cases List.mem_singleton.mp hj
      exact Nat.lt_succ_self n

theorem copyItem_copied (hw : WellNamed hir) {n fuel : ℕ} {item : HirItem} {st st' : State}
    (h : Copied hir n st) (hitem : hir[n]? = some item)
    (hst : copyItem hir fuel st (item, n) = some st') : Copied hir (n + 1) st' := by
  cases item with
  | fn f =>
    have hf := functionAt_eq_some.mpr hitem
    simp only [copyItem] at hst
    split at hst
    case isTrue hgen =>
      obtain ⟨st₁, hscan, rfl⟩ := Option.map_eq_some_iff.mp hst
      have hbody := bodyOf_fn_nil hf
      have := h.copy hw (.fn hf hgen) hbody.symm hscan
      simpa [emission, hbody, Entity.label, hf, labelFor_nil, State.push, State.log] using this
    case isFalse hgen =>
      obtain rfl : st = st' := by simpa using hst
      refine h.skip fun r hr => ?_
      cases hr with
      | fn hf' hgen' => simp_all
      | cls hc hgen' => simp [functionAt_none_of_classAt hc] at hf
  | cls c =>
    have hc := classAt_eq_some.mpr hitem
    simp only [copyItem] at hst
    split at hst
    case isTrue hgen =>
      obtain ⟨st₁, hscan, rfl⟩ := Option.map_eq_some_iff.mp hst
      have := h.copy hw (.cls hc hgen) (bodyOf_cls_nil hc).symm hscan
      have hlabel : ((Entity.cls n []).label hir).text = c.name.text := by
        simp [Entity.label, hc, Label.text, mangle]
      simpa [emission, hc, hlabel, State.push, State.log] using this
    case isFalse hgen =>
      obtain rfl : st = st' := by simpa using hst
      refine h.skip fun r hr => ?_
      cases hr with
      | fn hf hgen' => simp [functionAt_none_of_classAt hc] at hf
      | cls hc' hgen' => simp_all

theorem copyItems_copied (hw : WellNamed hir) {fuel : ℕ} {items : List HirItem} {n : ℕ}
    {st st' : State} (h : Copied hir n st) (hitems : items = hir.drop n)
    (hst : (items.zipIdx n).foldlM (copyItem hir fuel) st = some st') :
    Copied hir hir.length st' := by
  induction items generalizing n st with
  | nil =>
    obtain rfl : st = st' := by simpa using hst
    have hlen : hir.length ≤ n := List.drop_eq_nil_iff.mp hitems.symm
    refine ⟨h.progress, fun j hj => h.done j (Nat.lt_of_lt_of_le hj hlen), fun j hj => ?_⟩
    obtain ⟨r, hr, -⟩ := h.progress.output.copied j hj
    exact hr.lt
  | cons item items ih =>
    rw [List.zipIdx_cons, List.foldlM_cons] at hst
    obtain ⟨st₁, hcopy, hrest⟩ := Option.bind_eq_some_iff.mp hst
    have hitem : hir[n]? = some item := by
      have := congrArg List.head? hitems
      simpa [List.head?_drop] using this.symm
    refine ih (copyItem_copied hw h hitem hcopy) ?_ hrest
    rw [← List.tail_drop, ← hitems, List.tail_cons]

theorem copied_init : Copied hir 0 ⟨[], [], [], []⟩ := by
  refine ⟨⟨⟨?_, ?_, ?_, ?_⟩, ⟨?_, ?_, ?_, ?_, ?_, ?_⟩, ?_, ?_, ?_, ?_, ?_, ?_⟩, ?_, ?_⟩ <;>
    simp [State.Made, functions, classes]

end Copies

/-! ## The worklist -/

section Worklist

variable {opened : List SpecKey} {st st' : State}

/-- After the items every request of the module may be made. -/
theorem Copied.allowed_all (h : Copied hir hir.length st) : Allowed hir (Requested hir) st := by
  refine ⟨fun e he => he, fun e _ he e' he' => .step he he', fun hn k m ts he => ?_⟩
  obtain ⟨j, hstands⟩ := hn.ownerStands k m ts he
  obtain ⟨c, d, -, hd, -, hgen⟩ := id hstands
  have hlt : j < hir.length := (List.getElem?_eq_some_iff.mp (classAt_eq_some.mp hd)).1
  exact ⟨j, hstands, h.done j hlt _ (.cls hd hgen)⟩

/-- A scan of some items of a name. -/
theorem scanItems_scanned (hw : WellNamed hir) {fuel : ℕ} {name : String} {indices : List ℕ}
    (h : Progress hir opened [] st) (ha : Allowed hir (Requested hir) st)
    (hst : indices.foldlM (fun st index =>
      scanSites hir fuel ((st.output[index]?).elim [] (Item.sitesOf name)) st) st = some st') :
    Progress hir opened [] st' ∧ Scans (Requested hir) st st' ∧ ∀ k ∈ indices, ∀ item,
      st.output[k]? = some item → ∀ e ∈ (item.sitesOf name).flatMap (requests hir),
        st'.Asked e := by
  induction indices generalizing st with
  | nil =>
    obtain rfl : st = st' := by simpa using hst
    exact ⟨h, .refl st, by simp⟩
  | cons index indices ih =>
    rw [List.foldlM_cons] at hst
    obtain ⟨st₁, hscan, hrest⟩ := Option.bind_eq_some_iff.mp hst
    have hR : ∀ e ∈ ((st.output[index]?).elim [] (Item.sitesOf name)).flatMap (requests hir),
        Requested hir e := by
      intro e he
      cases hitem : st.output[index]? with
      | none => simp [hitem] at he
      | some item =>
        rw [hitem, Option.elim_some] at he
        obtain ⟨site, hs, he⟩ := List.mem_flatMap.mp he
        exact h.output.sites item (List.mem_of_getElem? hitem) site (Item.sitesOf_subset hs) e he
    obtain ⟨h₁, hs₁, hasked⟩ := scanSites_scanned hw fuel _ _ _ _ _ h ha hR hscan
    obtain ⟨h₂, hs₂, hindices⟩ := ih h₁ (ha.scans hs₁) hrest
    refine ⟨h₂, hs₁.trans hs₂, ?_⟩
    intro k hk item hitem e he
    rcases List.mem_cons.mp hk with rfl | hk
    · exact hs₂.asked (hasked e (by simpa [hitem] using he))
    · obtain ⟨item', hitem', hext⟩ := hs₁.grows k item hitem
      refine hindices k hk item' hitem' e ?_
      obtain ⟨site, hs, he⟩ := List.mem_flatMap.mp he
      exact List.mem_flatMap.mpr ⟨site, hext.sitesOf name site hs, he⟩

/-- What a copy needs stands in the item of its name. -/
theorem Holds.sites {e e' : Entity} (h : Holds hir st.output e) (hm : e.isMethod = false)
    (hv : e.Valid hir) (he' : e' ∈ needs hir e) : ∃ k < st.output.length, ∃ item,
      st.output[k]? = some item ∧
        e' ∈ (item.sitesOf (e.label hir).text).flatMap (requests hir) := by
  have hitem : ∀ item ∈ emission hir e, item.sitesOf (e.label hir).text = bodyOf hir e →
      ∃ k < st.output.length, ∃ item, st.output[k]? = some item ∧
        e' ∈ (item.sitesOf (e.label hir).text).flatMap (requests hir) := by
    intro item hi hsites
    obtain ⟨item', hi', hext⟩ := h item hi
    obtain ⟨k, hk⟩ := List.mem_iff_getElem?.mp hi'
    refine ⟨k, (List.getElem?_eq_some_iff.mp hk).1, item', hk, ?_⟩
    obtain ⟨site, hs, he'⟩ := List.mem_flatMap.mp he'
    exact List.mem_flatMap.mpr ⟨site, hext.sitesOf _ site (hsites ▸ hs), he'⟩
  cases hv with
  | fn hf hgen hts => exact hitem _ List.mem_cons_self (by simp [Item.sitesOf])
  | @cls i c ts hc hgen hts =>
    refine hitem (copyClass i c ts ((Entity.cls i ts).label hir).text) ?_ ?_
    · simp [emission, hc]
    · simp [copyClass, Item.sitesOf, bodyOf, hc, List.map_flatMap, List.flatMap_map]
  | method => cases hm

theorem scanNamed_progress (hw : WellNamed hir) {fuel : ℕ} {s : Spec} {keys : List SpecKey}
    (h : Progress hir [] [] st) (ha : Allowed hir (Requested hir) st)
    (hwork : st.worklist = s.key :: keys) (hs : s ∈ st.specMap)
    (hst : scanNamed hir fuel s.name { st with worklist := keys } = some st') :
    Progress hir [] [] st' ∧ Scans (Requested hir) st st' := by
  have h₀ : Progress hir [s.key] [] { st with worklist := keys } := by
    refine ⟨⟨h.table.entry, h.table.made, h.table.keys, h.table.asked⟩,
      ⟨h.output.fnLabel, h.output.fnFrom, h.output.clsFrom, h.output.sites, h.output.made,
        h.output.copied⟩, h.methods, ?_, ?_, h.owned, h.attached, h.early⟩
    · intro e hm he
      have := h.others e hm he
      rw [hwork] at this
      exact this
    · intro k hk
      exact h.waiting k (by simpa [hwork] using hk)
  obtain ⟨h', hscans, hindices⟩ := scanItems_scanned hw h₀ ⟨ha.requested, ha.step, ha.owner⟩ hst
  refine ⟨⟨h'.table, h'.output, h'.methods, ?_, ?_, h'.owned, h'.attached, h'.early⟩,
    ⟨hscans.trace, hscans.grows, fun hm => hscans.made hm⟩⟩
  · intro e hm he
    rcases h'.others e hm he with hk | hdone
    · rw [List.singleton_append, List.mem_cons] at hk
      rcases hk with hk | hk
      · -- the popped key is the key of this copy only, and its item was there to be scanned
        right
        obtain ⟨s', hs', rfl⟩ := he
        obtain ⟨s'', hs'', hse⟩ := hscans.made ⟨s, hs, rfl⟩
        have hkey : s''.key = s'.key := by
          rw [(h'.table.entry s' hs').1, (h'.table.entry s'' hs'').1, hse, hk,
            (h.table.entry s hs).1]
        have hent : s'.entity = s.entity := by
          rw [← h'.table.eq_of_key hs'' hs' hkey, hse]
        rw [hent] at hm ⊢
        obtain ⟨a, hasked⟩ := h.table.made s.entity ⟨s, hs, rfl⟩
        have hname : s.name = (s.entity.label hir).text := by
          rw [(h.table.entry s hs).2]
          cases hse : s.entity <;> first | rfl | simp [hse, Entity.isMethod] at hm
        intro e' he'
        obtain ⟨k, hk, item, hitem, hmem⟩ := (h.output.made s.entity ⟨s, hs, rfl⟩).sites hm
          (h.table.asked _ a hasked).1 he'
        exact hindices k (List.mem_range.mpr hk) item hitem e' (hname ▸ hmem)
      · exact .inl (by simpa using hk)
    · exact .inr hdone
  · intro k hk
    exact h'.waiting k (by simp_all)

theorem drain_copied (hw : WellNamed hir) {fuel : ℕ} (h : Copied hir hir.length st)
    (hst : drain hir fuel st = some st') : Copied hir hir.length st' ∧ st'.worklist = [] := by
  induction fuel generalizing st with
  | zero => cases hst
  | succ fuel ih =>
    rw [drain] at hst
    cases hwork : st.worklist with
    | nil =>
      rw [hwork] at hst
      obtain rfl : st = st' := by simpa using hst
      exact ⟨h, hwork⟩
    | cons key keys =>
      simp only [hwork] at hst
      obtain ⟨st₁, hscan, hrest⟩ := Option.bind_eq_some_iff.mp hst
      obtain ⟨s, hs, hk⟩ := h.progress.waiting key (by simp [hwork])
      have hname : ((st.find key).map Spec.name).getD "" = s.name := by
        cases hfind : st.find key with
        | none => exact absurd hk (State.find_none hfind s hs)
        | some s' =>
          obtain ⟨hs', hk'⟩ := State.find_some hfind
          simp [h.progress.table.eq_of_key hs' hs (hk'.trans hk.symm)]
      rw [hname] at hscan
      obtain ⟨hp, hscans⟩ := scanNamed_progress hw h.progress h.allowed_all (hk ▸ hwork) hs hscan
      refine ih ⟨hp, fun j hj r hr => ?_, fun j hj => ?_⟩ hrest
      · exact (hscans.copied j).mpr (h.done j hj r hr)
      · exact h.bound j ((hscans.copied j).mp hj)

theorem monomorphize_copied (hw : WellNamed hir) {fuel : ℕ}
    (hst : monomorphize hir fuel = some st) : Copied hir hir.length st ∧ st.worklist = [] := by
  obtain ⟨st₁, hcopy, hdrain⟩ := Option.bind_eq_some_iff.mp hst
  exact drain_copied hw (copyItems_copied hw copied_init rfl hcopy) hdrain

end Worklist

/-! ## When the names are right -/

section Names

variable {st : State}

/-- Every request of the module was made. -/
theorem Copied.asked (h : Copied hir hir.length st) (hwork : st.worklist = [])
    (hmade : ∀ e, st.Asked e → st.Made e) {e : Entity} (he : Requested hir e) : st.Asked e := by
  induction he with
  | @root i r e hr he =>
    obtain ⟨t, t', ht⟩ := List.append_of_mem (h.done i hr.lt r hr)
    obtain ⟨a, ha⟩ := (h.progress.early t i t' ht).2.1 r hr e he
    exact ⟨a, ht ▸ List.mem_append_left _ ha⟩
  | @step e e' _ he' ih =>
    have hm := hmade e ih
    cases hmeth : e.isMethod with
    | true => exact h.progress.methods e hmeth hm (by simp) e' he'
    | false =>
      rcases h.progress.others e hmeth hm with hk | hdone
      · simp [hwork] at hk
      · exact hdone e' he'

/-- The early requests of an item were made before it was copied. -/
theorem Progress.asked_early {opened : List SpecKey} {pending : List Entity}
    (h : Progress hir opened pending st) (hmade : ∀ e, st.Asked e → st.Made e)
    {i : ℕ} {t t' : List Event} (ht : st.trace = t ++ .copied i :: t') {e : Entity}
    (he : Early hir i e) : ∃ a, .asked e a ∈ t := by
  obtain ⟨-, hroot, hmeth⟩ := h.early t i t' ht
  induction he with
  | root hr he => exact hroot _ hr _ he
  | step _ he ih =>
    obtain ⟨a, ha⟩ := ih
    exact hmeth _ rfl ⟨a, ha⟩ (hmade _ ⟨a, ht ▸ List.mem_append_left _ ha⟩) _ he

theorem Holds.functions {out : List Item} {e : Entity} (h : Holds hir out e)
    {x : Entity × String} (hx : x ∈ functions (emission hir e)) : x ∈ Mono.functions out := by
  obtain ⟨e', l⟩ := x
  rcases mem_functions.mp hx with ⟨f, hi, hf⟩ | ⟨ce, n, inits, methods, hi, f, hf, hfe⟩
  · obtain ⟨item', hi', rfl⟩ := h _ hi
    exact mem_functions.mpr (.inl ⟨f, hi', hf⟩)
  · obtain ⟨item', hi', more, rfl⟩ := h _ hi
    exact mem_functions.mpr (.inr ⟨ce, n, inits, _, hi', f, List.mem_append_left _ hf, hfe⟩)

theorem exists_mem_emission_cls {i m : ℕ} {c : HirClass} {d : HirMethod} {ts : List Ty}
    (hc : classAt hir i = some c) (hd : (m, d) ∈ plainMethods c) :
    ∃ l, (.method i ts m [], l) ∈ functions (emission hir (.cls i ts)) := by
  refine ⟨((Entity.cls i ts).label hir).text ++ "." ++ d.name.text, ?_⟩
  simp only [emission, hc, Option.elim_some, functions, copyClass, List.flatMap_cons,
    List.flatMap_nil, List.append_nil, List.map_map, List.mem_map]
  exact ⟨(m, d), hd, rfl⟩

/-- What the module calls for is emitted. -/
theorem Copied.emitted (h : Copied hir hir.length st) (hmade : ∀ e, Requested hir e → st.Made e)
    (hmethods : ∀ e, Requested hir e → e.isMethod → ∃ l, (e, l) ∈ functions st.output)
    {e : Entity} (he : Emits hir e) : ∃ l, (e, l) ∈ functions st.output := by
  have hroot : ∀ i r, Root hir i r → Holds hir st.output r := by
    intro i r hr
    obtain ⟨r', hr', hh⟩ := h.progress.output.copied i (h.done i hr.lt r hr)
    exact hr.unique hr' ▸ hh
  have hfn : ∀ i ts, Holds hir st.output (.fn i ts) → ∃ l, (.fn i ts, l) ∈ functions st.output :=
    fun i ts hh => ⟨((Entity.fn i ts).label hir).text,
      hh.functions (by simp [emission, functions])⟩
  cases he with
  | fn hf hgen => exact hfn _ _ (hroot _ _ (.fn hf hgen))
  | method hc hgen hd =>
    obtain ⟨l, hl⟩ := exists_mem_emission_cls hc hd
    exact ⟨l, (hroot _ _ (.cls hc hgen)).functions hl⟩
  | clsMethod hc hd hr =>
    obtain ⟨l, hl⟩ := exists_mem_emission_cls hc hd
    exact ⟨l, (h.progress.output.made _ (hmade _ hr)).functions hl⟩
  | genericFn hr => exact hfn _ _ (h.progress.output.made _ (hmade _ hr))
  | genericMethod hr => exact hmethods _ hr rfl

theorem Output.not_method_of_class {e : Entity} {n : String} (h : Output hir st)
    (he : (e, n) ∈ classes st.output) : e.isMethod = false := by
  obtain ⟨-, i, ts, c, rfl, -⟩ := h.clsFrom e n he
  rfl

theorem NamesDistinct.made (hp : NamesDistinct st) {opened : List SpecKey}
    {pending : List Entity} (h : Progress hir opened pending st) {e : Entity}
    (he : st.Asked e) : st.Made e := by
  obtain ⟨a, ha⟩ := he
  have hts := (h.table.asked e a ha).1.typeArgs_ne_nil
  rcases hp.answers e a ha with hmem | hmem
  · exact (h.output.fnFrom e a hmem).2 hts
  · obtain ⟨-, i, ts, c, rfl, -, ⟨rfl, -⟩ | ⟨-, hmade⟩⟩ := h.output.clsFrom e a hmem
    · exact absurd rfl hts
    · exact hmade

/-- Right names need a module that resolves. -/
theorem NamesDistinct.resolvable (hp : NamesDistinct st) (h : Copied hir hir.length st)
    (hwork : st.worklist = []) : NamesResolvable hir := by
  have hmade : ∀ e, st.Asked e → st.Made e := fun e he => hp.made h.progress he
  have hasked : ∀ e, Requested hir e → st.Asked e := fun e he => h.asked hwork hmade he
  have htable := h.progress.table
  have houtput := h.progress.output
  have hmethods : ∀ e, Requested hir e → e.isMethod → ∃ l, (e, l) ∈ Mono.functions st.output := by
    intro e he hm
    obtain ⟨a, ha⟩ := hasked e he
    rcases hp.answers e a ha with hmem | hmem
    · exact ⟨a, hmem⟩
    · simp [houtput.not_method_of_class hmem] at hm
  have howned : ∀ k m ts, Requested hir (.method k [] m ts) →
      ∃ t a t' j, st.trace = t ++ .asked (.method k [] m ts) a :: t' ∧
        (∀ b, .asked (.method k [] m ts) b ∉ t) ∧ Stands hir k j ∧ .copied j ∈ t := by
    intro k m ts he
    obtain ⟨l, hl⟩ := hmethods _ he rfl
    obtain ⟨a, ha⟩ := hasked _ he
    exact h.progress.owned k m ts l hl (htable.asked _ a ha).1.typeArgs_ne_nil
  constructor
  · intro e e' he he' hsame
    obtain ⟨s, hs, rfl⟩ := hmade e (hasked e he)
    obtain ⟨s', hs', rfl⟩ := hmade e' (hasked e' he')
    have hkey : s.key = s'.key := by
      rw [(htable.entry s hs).1, (htable.entry s' hs').1, Entity.key_inj]
      exact hsame
    rw [htable.eq_of_key hs hs' hkey]
  · intro k m ts he
    obtain ⟨t, a, t', j, -, -, hj, -⟩ := howned k m ts he
    exact ⟨j, hj⟩
  · intro i k m ts he
    obtain ⟨r, hr⟩ := he.root_exists
    obtain ⟨u, u', hu⟩ := List.append_of_mem (h.done i hr.lt r hr)
    obtain ⟨b, hb⟩ := h.progress.asked_early hmade hu he
    obtain ⟨t, a, t', j, ht, hfirst, hj, hcop⟩ := howned k m ts he.requested
    refine ⟨j, (h.progress.early u i u' hu).1 j ?_, hj⟩
    -- the first request comes before the item is copied, and the class before the request
    rcases List.append_eq_append_iff.mp (ht.symm.trans hu) with ⟨w, rfl, -⟩ | ⟨w, rfl, -⟩
    · exact List.mem_append_left _ hcop
    · exact absurd (List.mem_append_left _ hb) (hfirst b)
  · intro e e' he he' hclash
    have hemitted : ∀ {e}, Emits hir e → ∃ l, (e, l) ∈ Mono.functions st.output := fun he =>
      h.emitted (fun e he => hmade e (hasked e he)) hmethods he
    obtain ⟨l, hl⟩ := hemitted he
    obtain ⟨l', hl'⟩ := hemitted he'
    by_contra hne
    refine hp.functions e l e' l' hl hl' hne ?_
    rw [houtput.fnLabel e l hl, houtput.fnLabel e' l' hl']
    exact Label.text_inj.mpr hclash

/-- In a module that resolves the names are right. -/
theorem NamesResolvable.distinct (hn : NamesResolvable hir) (h : Copied hir hir.length st) :
    NamesDistinct st := by
  have htable := h.progress.table
  have houtput := h.progress.output
  constructor
  · intro e l e' l' hl hl' hne hll
    refine hne (hn.noClash e e' (houtput.fnFrom e l hl).1 (houtput.fnFrom e' l' hl').1 ?_)
    apply Label.text_inj.mp
    rw [← houtput.fnLabel e l hl, ← houtput.fnLabel e' l' hl', hll]
  · intro i ts n i' ts' n' hts hts' hc hc' hne hnn
    obtain ⟨hname, j, us, c, he, hci, hfrom⟩ := houtput.clsFrom _ n hc
    obtain ⟨hname', j', us', c', he', hci', hfrom'⟩ := houtput.clsFrom _ n' hc'
    cases he
    cases he'
    have hmade : ∀ {e}, st.Made e → Requested hir e := fun {e} hm => by
      obtain ⟨a, ha⟩ := htable.made e hm
      exact (htable.asked e a ha).2.1
    have hr : Requested hir (.cls i ts) := hmade (hfrom.resolve_left fun h => hts h.1).2
    have hr' : Requested hir (.cls i' ts') := hmade (hfrom'.resolve_left fun h => hts' h.1).2
    have hlabel : mangle c.name.text ts = mangle c'.name.text ts' := by
      simpa [Entity.label, hci, hci', Label.text, hname, hname'] using hnn
    obtain ⟨hcc, htt⟩ := mangle_inj.mp hlabel
    have hsame : (Entity.cls i ts).SameRequest hir (.cls i' ts') := by
      refine ⟨?_, htt⟩
      simp [Entity.generic, Entity.label, hci, hci', hcc]
    have := hn.requestsApart _ _ hr hr' hsame
    simp only [Entity.cls.injEq] at this
    exact hne (Prod.ext this.1 this.2)
  · intro e a ha
    have hm := htable.made_of_asked hn.requestsApart ⟨a, ha⟩
    obtain ⟨hv, -, -, hans⟩ := htable.asked e a ha
    have hlabel := hans hm
    cases hv with
    | @fn i f ts hf hgen hts =>
      left
      exact (houtput.made _ hm).functions (x := (.fn i ts, a)) (by
        simp [emission, Mono.functions, hlabel])
    | cls hc hgen hts =>
      right
      have := (houtput.made _ hm).class hc
      simpa [hlabel, Entity.label, hc, Label.text] using this
    | method hc hd hgen hts =>
      left
      obtain ⟨l, hl⟩ := h.progress.attached hn _ rfl hm (by simp)
      rw [hlabel, ← houtput.fnLabel _ l hl]
      exact hl

/-- A call of a generic identity function. -/
def identityCall : List Decl :=
  [.function ⟨⟨"id", by decide, by decide⟩, false, ["T"], [.param "T" 0], .param "T" 0, []⟩,
    .function ⟨⟨"main", by decide, by decide⟩, false, [], [], .unit, [.call "id" [.int]]⟩]

/-- A class with two methods of one name, which take different numbers of arguments. -/
def arityOverloads : List Decl :=
  [.cls ⟨⟨"C", by decide, by decide⟩, [], [],
    [⟨⟨"m", by decide, by decide⟩, [], []⟩, ⟨⟨"m", by decide, by decide⟩, [], []⟩]⟩]

end Names

end Loxis.Mono
