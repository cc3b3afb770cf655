import Loxis.Mono.Emitted

/-! # Scanning

A scan asks for what the scanned sites request, and for what the bodies of the methods request
that are made on the way. Nothing that was made is left unscanned: a method's body is scanned
when it is made, the body of a function or class waits in the worklist.
-/

namespace Loxis.Mono

variable {hir : HirModule}

def Entity.isMethod : Entity → Bool
  | .method .. => true
  | _ => false

theorem Root.unique {i : ℕ} {r r' : Entity} (h : Root hir i r) (h' : Root hir i r') : r = r' := by
  cases h with
  | fn hf hgen =>
    cases h' with
    | fn hf' hgen' => rfl
    | cls hc hgen' => simp [functionAt_none_of_classAt hc] at hf
  | cls hc hgen =>
    cases h' with
    | fn hf' hgen' => simp [functionAt_none_of_classAt hc] at hf'
    | cls hc' hgen' => rfl

/-- Where a list with a new last member is split. -/
theorem concat_eq_append_cons {α : Type*} {s t t' : List α} {b c : α}
    (h : s ++ [b] = t ++ c :: t') :
    (t' = [] ∧ s = t ∧ b = c) ∨ ∃ u, t' = u ++ [b] ∧ s = t ++ c :: u := by
  rcases List.eq_nil_or_concat' t' with rfl | ⟨u, d, rfl⟩
  · obtain ⟨hs, hb⟩ := List.append_inj' h rfl
    exact .inl ⟨rfl, hs, by simpa using hb⟩
  · rw [← List.cons_append, ← List.append_assoc] at h
    obtain ⟨hs, hb⟩ := List.append_inj' h rfl
    obtain rfl : b = d := by simpa using hb
    exact .inr ⟨u, rfl, hs⟩

/-- The state between two steps of a scan. Waiting are the keys in `opened` and in the worklist;
the methods in `pending` are being scanned. -/
structure Progress (hir : HirModule) (opened : List SpecKey) (pending : List Entity)
    (st : State) : Prop where
  table : Table hir st
  output : Output hir st
  methods : ∀ e, e.isMethod → st.Made e → e ∉ pending → ∀ e' ∈ needs hir e, st.Asked e'
  others : ∀ e, e.isMethod = false → st.Made e →
    e.key hir ∈ opened ++ st.worklist ∨ ∀ e' ∈ needs hir e, st.Asked e'
  waiting : ∀ k ∈ opened ++ st.worklist, ∃ s ∈ st.specMap, s.key = k
  /-- A method in a class without type arguments was asked for after the class was copied. -/
  owned : ∀ k m ts l, (.method k [] m ts, l) ∈ functions st.output → ts ≠ [] →
    ∃ t a t' j, st.trace = t ++ .asked (.method k [] m ts) a :: t' ∧
      (∀ b, .asked (.method k [] m ts) b ∉ t) ∧ Stands hir k j ∧ .copied j ∈ t
  attached : NamesResolvable hir → ∀ e, e.isMethod → st.Made e → e ∉ pending →
    ∃ l, (e, l) ∈ functions st.output
  /-- Before an item is copied, its early requests are made. -/
  early : ∀ t i t', st.trace = t ++ .copied i :: t' → (∀ j, .copied j ∈ t → j < i) ∧
    (∀ r, Root hir i r → ∀ e ∈ needs hir r, ∃ a, .asked e a ∈ t) ∧
    ∀ e, e.isMethod → (∃ a, .asked e a ∈ t) → st.Made e → ∀ e' ∈ needs hir e, ∃ a, .asked e' a ∈ t

namespace Progress

variable {opened : List SpecKey} {pending : List Entity} {st st' : State}

theorem request {pending' : List Entity} {e : Entity} (h : Progress hir opened pending st)
    (hv : e.Valid hir) (hr : Requested hir e) (hreq : Requests hir e st st')
    (hpending : ∀ x, x.isMethod → st'.Made x → x ∉ pending' → st.Made x ∧ x ∉ pending) :
    Progress hir opened pending' st' := by
  have hfn : ∀ x, x ∈ functions st.output → x ∈ functions st'.output := by
    intro x hx
    rcases hreq.output_cases with hout | ⟨hout, -⟩ <;> rw [hout]
    · exact hx
    · exact (grows_append _ _).functions hx
  obtain ⟨a, htrace, -⟩ := hreq.trace
  refine ⟨h.table.request hv hr hreq, h.output.request hv hr hreq, ?_, ?_, ?_, ?_, ?_, ?_⟩
  · intro x hx hm hp e' he'
    obtain ⟨hm, hp⟩ := hpending x hx hm hp
    exact hreq.asked_mono (h.methods x hx hm hp e' he')
  · intro x hx hm
    rcases hreq.made_cases hm with hm | ⟨rfl, -, hwork⟩
    · refine (h.others x hx hm).imp (fun hk => ?_) fun hd e' he' => hreq.asked_mono (hd e' he')
      rcases hreq.effect with ⟨-, -, -, hwork⟩ | ⟨-, -, -, hwork⟩ <;> rw [hwork]
      · exact hk
      · simp only [List.mem_append] at hk ⊢
        tauto
    · left
      have : scheduled hir x = [x.key hir] := by cases x <;> first | rfl | cases hx
      rw [hwork, this]
      simp
  · intro k hk
    rcases hreq.effect with ⟨-, hmap, -, hwork⟩ | ⟨-, hmap, -, hwork⟩ <;> rw [hwork] at hk
    · exact hmap ▸ h.waiting k hk
    · rw [hmap]
      have hsched : k ∈ scheduled hir e → k = e.key hir := by
        cases e <;> simp [scheduled]
      simp only [List.mem_append] at hk
      by_cases hke : k ∈ scheduled hir e
      · exact ⟨_, List.mem_cons_self, (hsched hke).symm⟩
      · obtain ⟨s, hs, hsk⟩ := h.waiting k (by simp only [List.mem_append]; tauto)
        exact ⟨s, List.mem_cons_of_mem _ hs, hsk⟩
  · intro k m ts l hl hts
    have hold : (.method k [] m ts, l) ∈ functions st.output := by
      rcases hreq.output_cases with hout | ⟨hout, -⟩ <;> rw [hout] at hl
      · exact hl
      · rw [functions_append, List.mem_append] at hl
        rcases hl with hl | hl
        · exact hl
        · obtain ⟨-, ⟨i, us, rfl, he⟩ | ⟨i, us, c, m', d, -, -, -, he⟩⟩ :=
            mem_functions_emission hl
          · cases he
          · cases he
            exact absurd rfl hts
    obtain ⟨t, b, t', j, ht, hfirst, hj⟩ := h.owned k m ts l hold hts
    exact ⟨t, b, t' ++ [.asked e a], j, by simp [htrace, ht], hfirst, hj⟩
  · intro hn x hx hm hp
    obtain ⟨hm, hp⟩ := hpending x hx hm hp
    obtain ⟨l, hl⟩ := h.attached hn x hx hm hp
    exact ⟨l, hfn _ hl⟩
  · intro t i t' ht
    rw [htrace] at ht
    rcases concat_eq_append_cons ht with ⟨-, -, hcontra⟩ | ⟨u, rfl, ht'⟩
    · cases hcontra
    obtain ⟨hlt, hroot, hmeth⟩ := h.early t i u ht'
    refine ⟨hlt, hroot, fun x hx ⟨b, hb⟩ hm => hmeth x hx ⟨b, hb⟩ ?_⟩
    exact hreq.made_back h.table ⟨b, ht' ▸ List.mem_append_left _ hb⟩ hm

theorem attach {owner : String} {f : OutFn} (h : Progress hir opened (f.entity :: pending) st)
    (hout : Output hir { st with output := Mono.attach owner f st.output })
    (hneeds : ∀ e ∈ needs hir f.entity, st.Asked e)
    (hpresent : NamesResolvable hir → ∃ c, (c, owner) ∈ classes st.output)
    (hown : ∀ k m ts, f.entity = .method k [] m ts → (∃ c, (c, owner) ∈ classes st.output) →
      ∃ t a t' j, st.trace = t ++ .asked (.method k [] m ts) a :: t' ∧
        (∀ b, .asked (.method k [] m ts) b ∉ t) ∧ Stands hir k j ∧ .copied j ∈ t) :
    Progress hir opened pending { st with output := Mono.attach owner f st.output } := by
  refine ⟨⟨h.table.entry, h.table.made, h.table.keys, h.table.asked⟩, hout, ?_, h.others,
    h.waiting, ?_, ?_, h.early⟩
  · intro x hx hm hp e' he'
    by_cases hxf : x = f.entity
    · exact hneeds e' (hxf ▸ he')
    · exact h.methods x hx hm (by simp [hxf, hp]) e' he'
  · intro k m ts l hl hts
    rcases mem_functions_attach.mp hl with hl | ⟨hc, hl⟩
    · exact h.owned k m ts l hl hts
    · exact hown k m ts (Prod.mk.inj hl).1.symm hc
  · intro hn x hx hm hp
    by_cases hxf : x = f.entity
    · exact ⟨owner ++ "." ++ f.name, mem_functions_attach.mpr (.inr ⟨hpresent hn, by rw [hxf]⟩)⟩
    · obtain ⟨l, hl⟩ := h.attached hn x hx hm (by simp [hxf, hp])
      exact ⟨l, mem_functions_attach.mpr (.inl hl)⟩

theorem copy {i : ℕ} {r : Entity} (h : Progress hir opened [] st) (hr : Root hir i r)
    (hneeds : ∀ e ∈ needs hir r, st.Asked e) (hlt : ∀ j, .copied j ∈ st.trace → j < i) :
    Progress hir opened [] { st with
      trace := st.trace ++ [.copied i], output := st.output ++ emission hir r } := by
  have hmono : ∀ {e}, st.Asked e → State.Asked { st with
      trace := st.trace ++ [.copied i], output := st.output ++ emission hir r } e :=
    fun ⟨a, ha⟩ => ⟨a, List.mem_append_left _ ha⟩
  refine ⟨⟨h.table.entry, fun e he => hmono (h.table.made e he), h.table.keys, ?_⟩,
    h.output.copy hr rfl rfl rfl, ?_, ?_, h.waiting, ?_, ?_, ?_⟩
  · intro e a ha
    exact h.table.asked e a (by simpa using ha)
  · exact fun x hx hm hp e' he' => hmono (h.methods x hx hm hp e' he')
  · exact fun x hx hm => (h.others x hx hm).imp_right fun hd e' he' => hmono (hd e' he')
  · intro k m ts l hl hts
    rw [functions_append, List.mem_append] at hl
    rcases hl with hl | hl
    · obtain ⟨t, a, t', j, ht, hfirst, hj⟩ := h.owned k m ts l hl hts
      exact ⟨t, a, t' ++ [.copied i], j, by simp [ht], hfirst, hj⟩
    · obtain ⟨-, ⟨i, us, rfl, he⟩ | ⟨i, us, c, m', d, -, -, -, he⟩⟩ := mem_functions_emission hl
      · cases he
      · cases he
        exact absurd rfl hts
  · intro hn x hx hm hp
    obtain ⟨l, hl⟩ := h.attached hn x hx hm hp
    exact ⟨l, (grows_append _ _).functions hl⟩
  · intro t k t' ht
    rcases concat_eq_append_cons ht with ⟨-, rfl, hk⟩ | ⟨u, -, ht'⟩
    · obtain rfl : i = k := by simpa using hk
      refine ⟨hlt, fun r' hr' e he => hneeds e (hr.unique hr' ▸ he), ?_⟩
      exact fun e he _ hm e' he' => h.methods e he hm (by simp) e' he'
    · exact h.early t k u ht'

end Progress

/-! ## Scans -/

/-- What a scan adds: requests of `R`, and items. -/
structure Scans (R : Entity → Prop) (st st' : State) : Prop where
  trace : ∃ t, st'.trace = st.trace ++ t ∧ ∀ ev ∈ t, ∃ e a, ev = .asked e a ∧ R e
  grows : Grows st.output st'.output
  made : ∀ {e}, st.Made e → st'.Made e

namespace Scans

variable {R : Entity → Prop} {st st' st'' : State}

theorem refl (st : State) : Scans R st st := ⟨⟨[], by simp⟩, .refl _, fun hm => hm⟩

theorem trans (h : Scans R st st') (h' : Scans R st' st'') : Scans R st st'' := by
  obtain ⟨t, ht, hR⟩ := h.trace
  obtain ⟨t', ht', hR'⟩ := h'.trace
  refine ⟨⟨t ++ t', by simp [ht, ht'], fun ev hev => ?_⟩, h.grows.trans h'.grows,
    fun hm => h'.made (h.made hm)⟩
  exact (List.mem_append.mp hev).elim (hR ev) (hR' ev)

theorem asked (h : Scans R st st') {e : Entity} (he : st.Asked e) : st'.Asked e := by
  obtain ⟨t, ht, -⟩ := h.trace
  obtain ⟨a, ha⟩ := he
  exact ⟨a, ht ▸ List.mem_append_left _ ha⟩

theorem copied (h : Scans R st st') (j : ℕ) : .copied j ∈ st'.trace ↔ .copied j ∈ st.trace := by
  obtain ⟨t, ht, hR⟩ := h.trace
  rw [ht, List.mem_append, or_iff_left]
  intro hj
  obtain ⟨e, a, he, -⟩ := hR _ hj
  cases he

theorem request {e : Entity} (h : Requests hir e st st') (he : R e) : Scans R st st' := by
  obtain ⟨a, ha, -⟩ := h.trace
  refine ⟨⟨[.asked e a], ha, fun ev hev => ⟨e, a, by simpa using hev, he⟩⟩, ?_,
    h.made_mono⟩
  rcases h.output_cases with hout | ⟨hout, -⟩ <;> rw [hout]
  · exact .refl _
  · exact grows_append _ _

end Scans

/-- Requests that a scan may make: they are closed under the bodies of methods, and where the
names are right the classes of the methods are copied. -/
structure Allowed (hir : HirModule) (R : Entity → Prop) (st : State) : Prop where
  requested : ∀ e, R e → Requested hir e
  step : ∀ e, e.isMethod → R e → ∀ e' ∈ needs hir e, R e'
  owner : NamesResolvable hir → ∀ k m ts, R (.method k [] m ts) →
    ∃ j, Stands hir k j ∧ .copied j ∈ st.trace

theorem Allowed.scans {R : Entity → Prop} {st st' : State} (h : Allowed hir R st)
    (hs : Scans R st st') : Allowed hir R st' := by
  refine ⟨h.requested, h.step, fun hn k m ts hR => ?_⟩
  obtain ⟨j, hj, hc⟩ := h.owner hn k m ts hR
  exact ⟨j, hj, (hs.copied j).mpr hc⟩

/-- What holds after a scan of `sites`. -/
structure Scanned (hir : HirModule) (R : Entity → Prop) (opened : List SpecKey)
    (pending : List Entity) (es : List Entity) (st st' : State) : Prop where
  progress : Progress hir opened pending st'
  scans : Scans R st st'
  asked : ∀ e ∈ es, st'.Asked e

theorem Holds.class {out : List Item} {i : ℕ} {c : HirClass} {ts : List Ty}
    (h : Holds hir out (.cls i ts)) (hc : classAt hir i = some c) :
    (.cls i ts, mangle c.name.text ts) ∈ classes out := by
  have hlabel : ((Entity.cls i ts).label hir).text = mangle c.name.text ts := by
    simp [Entity.label, hc, Label.text]
  obtain ⟨item, hi, more, rfl⟩ := h (copyClass i c ts ((Entity.cls i ts).label hir).text)
    (by simp [emission, hc])
  rw [hlabel] at hi
  exact mem_classes.mpr ⟨_, _, hi⟩

theorem Output.class_of_copied {st : State} (h : Output hir st) {j : ℕ} {d : HirClass}
    (hd : classAt hir j = some d) (hj : .copied j ∈ st.trace) :
    (.cls j [], d.name.text) ∈ classes st.output := by
  obtain ⟨r, hr, hh⟩ := h.copied j hj
  cases hr with
  | fn hf hgen => simp [functionAt_none_of_classAt hd] at hf
  | cls hd' hgen => exact hh.class hd

/-- A class without type arguments in its name was copied. -/
theorem Output.copied_of_class {st : State} (h : Output hir st) {e : Entity} {k : ℕ}
    {c : HirClass} (hk : classAt hir k = some c) (hc : (e, c.name.text) ∈ classes st.output) :
    ∃ j, Stands hir k j ∧ .copied j ∈ st.trace := by
  obtain ⟨hname, j, ts, d, rfl, hd, hfrom⟩ := h.clsFrom e _ hc
  have hmangle : mangle c.name.text [] = mangle d.name.text ts := by
    rw [show mangle c.name.text [] = c.name.text from rfl, hname]
    simp [Entity.label, hd, Label.text]
  obtain ⟨hcd, hts⟩ := mangle_inj.mp hmangle
  obtain rfl : ts = [] := by simpa using hts.symm
  rcases hfrom with ⟨-, hgen, hcop⟩ | ⟨hne, -⟩
  · exact ⟨j, ⟨c, d, hk, hd, hcd.symm, hgen⟩, hcop⟩
  · exact absurd rfl hne

section Scanning

variable {R : Entity → Prop} {opened : List SpecKey} {pending : List Entity} {st st' : State}

/-- The scan that a scan of a method call falls back on. -/
def ScanSpec (hir : HirModule) (R : Entity → Prop) (scan : List Site → State → Option State) :
    Prop :=
  ∀ opened pending sites st st', Progress hir opened pending st → Allowed hir R st →
    (∀ e ∈ sites.flatMap (requests hir), R e) → scan sites st = some st' →
    Scanned hir R opened pending (sites.flatMap (requests hir)) st st'

theorem monoMethod_scanned {scan : List Site → State → Option State}
    (hscan : ScanSpec hir R scan) (h : Progress hir opened pending st) (ha : Allowed hir R st)
    {i m : ℕ} {c : HirClass} {d : HirMethod} {ownerArgs ts : List Ty}
    (hc : classAt hir i = some c) (hd : c.methods[m]? = some d) (hgen : d.generics ≠ [])
    (hts : ts ≠ []) (hR : R (.method i ownerArgs m ts))
    (howner : ownerArgs ≠ [] → st.Asked (.cls i ownerArgs))
    (hst : monoMethod scan i c (mangle c.name.text ownerArgs) ownerArgs m d ts st = some st') :
    Scanned hir R opened pending [.method i ownerArgs m ts] st st' := by
  have hm : methodAt hir i m = some (c, d) := methodAt_eq_some.mpr ⟨hc, hd⟩
  have hv : (Entity.method i ownerArgs m ts).Valid hir := .method hc hd hgen hts
  have hr := ha.requested _ hR
  have hlabel : mangle c.name.text ownerArgs ++ "." ++ mangle d.name.text ts =
      ((Entity.method i ownerArgs m ts).label hir).text := by
    simp [Entity.label, hm, Label.text]
  have hkey : (⟨mangle c.name.text ownerArgs ++ "." ++ d.name.text, typeSigVec ts⟩ : SpecKey) =
      (Entity.method i ownerArgs m ts).key hir := by
    simp [Entity.key, Entity.generic, Entity.typeArgs, Entity.label, hm, Label.text, mangle]
  have hshort : (Entity.method i ownerArgs m ts).shortName hir = mangle d.name.text ts := by
    simp [Entity.shortName, hm]
  simp only [monoMethod, hkey] at hst
  cases hfind : st.find ((Entity.method i ownerArgs m ts).key hir) with
  | some s =>
    simp only [hfind, Option.some.injEq] at hst
    subst hst
    obtain ⟨hs, hk⟩ := State.find_some hfind
    have hreq : Requests hir (.method i ownerArgs m ts) st (st.log (.asked
        (.method i ownerArgs m ts) (mangle c.name.text ownerArgs ++ "." ++ s.name))) := by
      refine ⟨.inl ⟨⟨s, hs, hk⟩, rfl, rfl, rfl⟩, _, rfl, fun hmade => ?_⟩
      rw [h.table.answer hs hk hmade, hshort, hlabel]
    refine ⟨h.request hv hr hreq fun x _ hmx hp => ⟨hmx, hp⟩, .request hreq hR, ?_⟩
    simpa using hreq.asked
  | none =>
    simp only [hfind, Option.map_eq_some_iff] at hst
    obtain ⟨st₂, hscanned, rfl⟩ := hst
    set body := (if c.generics = [] then d.body
      else d.body.map (Site.subst (makeSubst c.generics ownerArgs))).map
        (Site.subst (makeSubst d.generics ts)) with hbody
    have hbody' : body = bodyOf hir (.method i ownerArgs m ts) := by
      simp [bodyOf, hm, hbody]
    set st₁ := (st.log (.asked (.method i ownerArgs m ts)
      (mangle c.name.text ownerArgs ++ "." ++ mangle d.name.text ts))).define
        ⟨(Entity.method i ownerArgs m ts).key hir, mangle d.name.text ts,
          .method i ownerArgs m ts⟩ with hst₁
    have hreq : Requests hir (.method i ownerArgs m ts) st st₁ := by
      refine ⟨.inr ⟨State.find_none hfind, by rw [hshort]; rfl, ?_, rfl⟩, _, rfl, fun _ => hlabel⟩
      simp [hst₁, State.define, State.log, emission]
    have h₁ : Progress hir opened (.method i ownerArgs m ts :: pending) st₁ := by
      refine h.request hv hr hreq fun x _ hmx hp => ?_
      rcases hreq.made_cases hmx with hmx | ⟨rfl, -⟩
      · exact ⟨hmx, fun hx => hp (List.mem_cons_of_mem _ hx)⟩
      · exact absurd List.mem_cons_self hp
    have hs₁ : Scans R st st₁ := .request hreq hR
    have hneeds : ∀ e ∈ body.flatMap (requests hir), R e := by
      intro e he
      rw [hbody'] at he
      exact ha.step _ rfl hR e he
    obtain ⟨h₂, hs₂, hasked⟩ := hscan _ _ _ _ _ h₁ (ha.scans hs₁) hneeds hscanned
    have hmade : st₂.Made (.method i ownerArgs m ts) :=
      hs₂.made ⟨_, List.mem_cons_self, rfl⟩
    have hout := h₂.output.attach (f := ⟨.method i ownerArgs m ts, mangle d.name.text ts, body⟩)
      hr hmade (.genericMethod hr) hbody' hlabel rfl
    refine ⟨h₂.attach hout (fun e he => hasked e (hbody' ▸ he)) ?_ ?_, ?_, ?_⟩
    · -- where the names are right, the class is there
      intro hn
      by_cases hargs : ownerArgs = []
      · subst hargs
        obtain ⟨j, ⟨c', d', hc', hd', hname, -⟩, hj⟩ := ha.owner hn i m ts hR
        obtain rfl : c = c' := by simpa [hc] using hc'
        refine ⟨.cls j [], ?_⟩
        have := h₂.output.class_of_copied hd' (((hs₁.trans hs₂).copied j).mpr hj)
        rwa [hname] at this
      · refine ⟨.cls i ownerArgs, (h₂.output.made _ ?_).class hc⟩
        exact h₂.table.made_of_asked hn.requestsApart ((hs₁.trans hs₂).asked (howner hargs))
    · rintro k m' ts' he ⟨e, hcls⟩
      obtain ⟨rfl, rfl, rfl, rfl⟩ : i = k ∧ ownerArgs = [] ∧ m = m' ∧ ts = ts' := by
        simpa using he
      obtain ⟨j, hj, hcop⟩ := h₂.output.copied_of_class hc hcls
      obtain ⟨t, ht, -⟩ := hs₂.trace
      obtain ⟨a, htrace, -⟩ := hreq.trace
      refine ⟨st.trace, a, t, j, by simp [ht, htrace], fun b hb => ?_, hj,
        ((hs₁.trans hs₂).copied j).mp hcop⟩
      -- an earlier request would have left an entry
      obtain ⟨-, -, ⟨s, hs, hk⟩, -⟩ := h.table.asked _ b hb
      exact State.find_none hfind s hs hk
    · exact (hs₁.trans hs₂).trans ⟨⟨[], by simp⟩, grows_attach, fun hm => hm⟩
    · intro e he
      rw [List.mem_singleton.mp he]
      exact hs₂.asked hreq.asked

theorem scanMethod_scanned {scan : List Site → State → Option State}
    (hscan : ScanSpec hir R scan) (h : Progress hir opened pending st) (ha : Allowed hir R st)
    {i : ℕ} {c : HirClass} {ownerArgs ts : List Ty} {name : Ident} (hc : classAt hir i = some c)
    (hR : ∀ m d, genericMethod c name = some (m, d) → ts ≠ [] → R (.method i ownerArgs m ts))
    (howner : ownerArgs ≠ [] → st.Asked (.cls i ownerArgs))
    (hst : scanMethod scan i c (mangle c.name.text ownerArgs) ownerArgs name ts st = some st') :
    Scanned hir R opened pending
      (match genericMethod c name with
        | some (m, _) => if ts ≠ [] then [.method i ownerArgs m ts] else []
        | none => []) st st' := by
  have hskip : some st = some st' → Scanned hir R opened pending [] st st' := by
    rintro ⟨⟩
    exact ⟨h, .refl st, by simp⟩
  unfold scanMethod at hst
  cases hm : genericMethod c name with
  | none =>
    rw [hm] at hst
    exact hskip hst
  | some md =>
    obtain ⟨m, d⟩ := md
    obtain ⟨hd, hgen⟩ := genericMethod_some hm
    simp only [hm] at hst
    by_cases hts : ts = []
    · simp only [hts, ne_eq, not_true_eq_false, if_false] at hst ⊢
      exact hskip hst
    · simp only [ne_eq, hts, not_false_eq_true, if_true] at hst ⊢
      exact monoMethod_scanned hscan h ha hc hd hgen hts (hR m d hm hts) howner hst

theorem Scanned.trans {es es' : List Entity} {st'' : State}
    (h : Scanned hir R opened pending es st st')
    (h' : Scanned hir R opened pending es' st' st'') :
    Scanned hir R opened pending (es ++ es') st st'' := by
  refine ⟨h'.progress, h.scans.trans h'.scans, fun e he => ?_⟩
  rcases List.mem_append.mp he with he | he
  · exact h'.scans.asked (h.asked e he)
  · exact h'.asked e he

theorem Scanned.request {e : Entity} (h : Progress hir opened pending st)
    (ha : Allowed hir R st) (hv : e.Valid hir) (hR : R e) (hmeth : e.isMethod = false)
    (hreq : Requests hir e st st') : Scanned hir R opened pending [e] st st' := by
  refine ⟨h.request hv (ha.requested e hR) hreq ?_, .request hreq hR, ?_⟩
  · intro x hx hm hp
    rcases hreq.made_cases hm with hm | ⟨rfl, -⟩
    · exact ⟨hm, hp⟩
    · simp [hx] at hmeth
  · intro e' he'
    rw [List.mem_singleton.mp he']
    exact hreq.asked

theorem scanSite_scanned (hw : WellNamed hir) {scan : List Site → State → Option State}
    (hscan : ScanSpec hir R scan) (h : Progress hir opened pending st) (ha : Allowed hir R st)
    {site : Site} (hR : ∀ e ∈ requests hir site, R e)
    (hst : scanSite hir scan st site = some st') :
    Scanned hir R opened pending (requests hir site) st st' := by
  have hskip : some st = some st' → Scanned hir R opened pending [] st st' := by
    rintro ⟨⟩
    exact ⟨h, .refl st, by simp⟩
  cases site with
  | call fnName ts =>
    simp only [scanSite] at hst
    simp only [requests] at hR ⊢
    cases hf : fnByName hir fnName with
    | none =>
      rw [hf] at hst
      exact hskip hst
    | some v =>
      obtain ⟨i, f⟩ := v
      simp only [hf] at hst hR ⊢
      split at hst
      case isTrue hc =>
        simp only [if_pos hc] at hR ⊢
        obtain rfl : monoFn i f ts st = st' := by simpa using hst
        have hfi := (fnByName_some hf).1
        exact .request h ha (.fn hfi hc.2 hc.1) (hR _ (by simp)) rfl
          (monoFn_requests hw h.table hfi hc.2 hc.1)
      case isFalse hc =>
        simp only [if_neg hc]
        exact hskip hst
  | construct className ts =>
    simp only [scanSite] at hst
    simp only [requests] at hR ⊢
    cases hf : classByName hir className with
    | none =>
      rw [hf] at hst
      exact hskip hst
    | some v =>
      obtain ⟨i, c⟩ := v
      simp only [hf] at hst hR ⊢
      split at hst
      case isTrue hc =>
        simp only [if_pos hc] at hR ⊢
        obtain rfl : (monoClass i c ts st).2 = st' := by simpa using hst
        have hci := (classByName_some hf).1
        exact .request h ha (.cls hci hc.2 hc.1) (hR _ (by simp)) rfl
          (monoClass_requests h.table hci).1
      case isFalse hc =>
        simp only [if_neg hc]
        exact hskip hst
  | methodCall recvTy name ts =>
    simp only [scanSite] at hst
    simp only [requests] at hR ⊢
    cases hrecv : recvTy.receiver with
    | none =>
      rw [hrecv] at hst
      exact hskip hst
    | some v =>
      obtain ⟨className, classArgs⟩ := v
      simp only [hrecv] at hst hR ⊢
      cases hf : classByName hir className with
      | none =>
        rw [hf] at hst
        exact hskip hst
      | some v =>
        obtain ⟨i, c⟩ := v
        have hci := (classByName_some hf).1
        simp only [hf] at hst hR ⊢
        split at hst
        case isTrue hc =>
          simp only [if_pos hc, if_pos hc.1] at hR ⊢
          have hcls : Requests hir (.cls i classArgs) st (monoClass i c classArgs st).2 ∧ _ :=
            monoClass_requests h.table hci
          obtain ⟨hreq, hname⟩ := hcls
          rw [hname] at hst
          have h₁ : Scanned hir R opened pending [.cls i classArgs] st
              (monoClass i c classArgs st).2 :=
            .request h ha (.cls hci hc.2 hc.1) (hR _ (by simp)) rfl hreq
          refine h₁.trans (scanMethod_scanned hscan h₁.progress (ha.scans h₁.scans) hci ?_ ?_ hst)
          · intro m d hm hts
            exact hR _ (List.mem_append_right _ (by simp [hm, hts]))
          · exact fun _ => hreq.asked
        case isFalse hc =>
          simp only [if_neg hc, ne_eq, not_true_eq_false, if_false, List.nil_append] at hR ⊢
          refine scanMethod_scanned hscan h ha hci ?_ (fun hne => absurd rfl hne) hst
          intro m d hm hts
          exact hR _ (by simp [hm, hts])

/-- A scan asks for what its sites request. -/
theorem scanSites_scanned (hw : WellNamed hir) (fuel : ℕ) :
    ScanSpec hir R (scanSites hir fuel) := by
  induction fuel with
  | zero =>
    intro opened pending sites st st' _ _ _ hst
    cases hst
  | succ fuel ih =>
    intro opened pending sites
    induction sites with
    | nil =>
      intro st st' h ha hR hst
      obtain rfl : st = st' := by simpa [scanSites] using hst
      exact ⟨h, .refl st, by simp⟩
    | cons site sites ihs =>
      intro st st' h ha hR hst
      rw [scanSites, List.foldlM_cons] at hst
      obtain ⟨st₁, hsite, hrest⟩ := Option.bind_eq_some_iff.mp hst
      have h₁ := scanSite_scanned hw ih h ha
        (fun e he => hR e (List.mem_flatMap.mpr ⟨site, List.mem_cons_self, he⟩)) hsite
      have h₂ := ihs st₁ st' h₁.progress (ha.scans h₁.scans) (fun e he => by
        obtain ⟨s, hs, he⟩ := List.mem_flatMap.mp he
        exact hR e (List.mem_flatMap.mpr ⟨s, List.mem_cons_of_mem _ hs, he⟩)) hrest
      simpa using h₁.trans h₂

end Scanning

end Loxis.Mono
