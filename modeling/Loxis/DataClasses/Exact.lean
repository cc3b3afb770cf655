import Loxis.DataClasses.Copies

/-! # When the laws hold

A parameter of a member that has the name of a field is only seen in the outermost scope. So
equality fails with a field `other` and a second property. The other ways to fail are a double
under another name, a class that is called like an intrinsic, and a constructor that does not keep
its arguments.
-/

namespace Loxis.DataClasses

open Backend (Value TAG_INT TAG_STR TAG_FLOAT TAG_NULL)
open Vm (TAG_HEAP)

namespace DataClass

variable {c : DataClass} {M : Machine} {s t : State} {v w : Value} {o o' : Obj} {p : Property}
  {names : List String} {ty : Ty} {h : Hir} {ρ : String → Value}

structure Regular (c : DataClass) (M : Machine) : Prop where
  called : c.name ∉ intrinsics
  free : c.properties.length ≤ 1 ∨ "other" ∉ c.fieldNames
  written : ∀ p ∈ c.properties, p.kind = .double → p.written = none
  keeps : c.Keeps M

theorem properties_small : c.properties.length + 2 < 2 ^ 32 := by
  have hle : c.properties.length ≤ c.primaryCtor.length := List.length_filterMap_le ..
  exact (Nat.add_le_add_right hle 2).trans_lt c.small

theorem Regular.lawful (hr : c.Regular M) (ha : c.Accepted) : c.Lawful M := by
  have heq := equality_equals.decides (M := M) ha hr.free
  have hop := equality_operatorEq.decides (M := M) ha hr.free
  refine ⟨fun s v o hi k p hp => run_component ha hi hp, heq, hop,
    fun s => ⟨heq.equivalence s, hop.equivalence s⟩, ?_,
    fun s v o hroom hi hn => hr.keeps.copy ha hr.called hop hroom hi hn⟩
  intro s v w o o' hroom hi hi' hagree
  obtain ⟨h, hc⟩ := ha.ok (m := c.hashCode) (List.mem_append_right _ (by simp))
  obtain ⟨ty, hbody⟩ := checkMember_ok hc
  have hself : ∀ x, scope c.hashCode x [] "self" = x := fun x => rfl
  obtain ⟨-, u, heval, -⟩ := eval_hashBody (M := M) (fun p hp => hp) hr.written hbody (hself v) hi
    hroom.2
  obtain ⟨-, u', heval', -⟩ := eval_hashBody (M := M) (fun p hp => hp) hr.written hbody (hself w)
    hi' hroom.2
  rw [← hashSum_congr hi hi' hagree fun p hp => hp] at heval'
  exact ⟨_, u, u', by rw [run, hc]; exact heval, by rw [run, hc]; exact heval'⟩

/-! ## An object on its own -/

/-- A value of a kind, not the one of a fresh slot. -/
def sample (k : Kind) : Value := ⟨if Kind.tag k = TAG_INT then 1 else 0, Kind.tag k⟩

/-- An object with samples in its properties, and a number in the other fields. -/
def sampleObj (c : DataClass) : Obj :=
  ⟨c.typeId, c.fieldNames.length, fun k =>
    ((c.fieldNames[k]?.bind c.fieldKind).map sample).getD (sample .int)⟩

/-- The object is the only one, and there is one string. -/
def sampleState (c : DataClass) : State := ⟨[c.sampleObj], [[]]⟩

def sampleRef : Value := ⟨0, TAG_HEAP⟩

theorem value_sampleObj (hp : p ∈ c.properties) : c.value c.sampleObj p = sample p.kind := by
  simp [value, sampleObj, fieldNames_slot (mem_fieldNames hp), fieldKind_property hp]

theorem instance_sample : c.Instance c.sampleState sampleRef c.sampleObj where
  ref := rfl
  live := rfl
  typeId := rfl
  size := rfl
  typed p hp := by
    rw [value_sampleObj hp]
    refine ⟨rfl, fun hk => ?_⟩
    rw [hk]
    exact Nat.zero_lt_one

theorem naNFree_sample : c.NaNFree c.sampleObj := by
  intro p hp htag
  rw [value_sampleObj hp] at htag ⊢
  cases p.kind <;> rfl

theorem room_sample : c.Room c.sampleState := by
  refine ⟨by simp [sampleState], ?_⟩
  have := c.properties_small
  simp only [sampleState, List.length_singleton]
  omega

/-! ## The class is called -/

theorem call_raw {f : String} {args : List Value} (hc : M.call f args s = some (v, t))
    (htag : v.tag = TAG_HEAP) (ho : t.objects[v.val.toNat]? = some o) : o.typeId = 0 := by
  unfold Machine.call at hc
  split at hc
  · cases hc
    cases htag
  · cases hc
    cases htag
  · cases hc
    cases htag
  · cases hc
    cases htag
  · exact M.raw _ _ _ _ _ _ hc htag ho

theorem Lawful.called (hl : c.Lawful M) (ha : c.Accepted) : c.name ∉ intrinsics := by
  intro hn
  obtain ⟨hs, hc⟩ := checkMember_copy_intrinsic ha hn
  obtain ⟨w, o', t, hrun, hw, -⟩ := hl.copy _ _ _ room_sample instance_sample naNFree_sample
  rw [run, hc] at hrun
  simp only [eval] at hrun
  obtain ⟨⟨vs, u⟩, -, hcall⟩ := Option.bind_eq_some_iff.mp hrun
  exact c.typed (hw.typeId ▸ call_raw hcall hw.ref hw.live)

/-! ## No field has the name of the parameter -/

theorem Lawful.free (hl : c.Lawful M) (ha : c.Accepted) :
    c.properties.length ≤ 1 ∨ "other" ∉ c.fieldNames := by
  by_contra hnot
  rw [not_or, not_le, not_not] at hnot
  obtain ⟨hlen, hother⟩ := hnot
  obtain ⟨-, hnames⟩ := equality_equals.checkMember ha
  obtain ⟨b, hrun, -⟩ := hl.equals _ _ _ _ _ instance_sample instance_sample
  have hagree : c.Agree M c.sampleState c.sampleObj c.sampleObj :=
    instance_sample.agree_refl naNFree_sample
  -- the second comparison reads `other` from the object
  have hkind : c.fieldKind "other" = none := by
    have hnone : (c.properties.reverse.find? fun q => q.name = "other") = none := by
      rw [List.find?_eq_none]
      intro q hq
      simpa using hnames q (List.mem_reverse.mp hq)
    rw [fieldKind, hnone]
    rfl
  have hload : c.sampleState.load sampleRef (c.slot "other") = some (sample .int) := by
    rw [instance_sample.load hother]
    simp [sampleObj, fieldNames_slot hother, hkind]
  have hdead : ∀ k, c.sampleState.load (sample .int) k = none := fun k => rfl
  rw [equality_equals.run ha] at hrun
  obtain ⟨hself, hparam⟩ := equality_equals.scope (c := c) (v := sampleRef) (w := sampleRef)
  rcases hps : c.properties with - | ⟨p, - | ⟨q, ps⟩⟩
  · simp [hps] at hlen
  · simp [hps] at hlen
  · have hp : p ∈ c.properties := by simp [hps]
    have hq : q ∈ c.properties := by simp [hps]
    have hlp : c.sampleState.load sampleRef (c.slot p.name) = some (c.value c.sampleObj p) :=
      instance_sample.load (mem_fieldNames hp)
    have hlq : c.sampleState.load sampleRef (c.slot q.name) = some (c.value c.sampleObj q) :=
      instance_sample.load (mem_fieldNames hq)
    have hfirst : c.eval M (scope c.equals sampleRef [sampleRef]) (otherHir c false)
        c.sampleState = some (sampleRef, c.sampleState) := by
      rw [otherHir, if_neg (by simp), eval, hparam]
    have hsecond : c.eval M (scope c.equals sampleRef [sampleRef]) (otherHir c true)
        c.sampleState = some (sample .int, c.sampleState) := by
      rw [otherHir, if_pos ⟨rfl, hother⟩, eval, hself, hload, Option.map_some]
    rw [hps, eval_equalsHir_cons (hself ▸ hlp) hfirst, hlp, Option.bind_some,
      if_pos (hagree p hp), eval_equalsHir_cons (hself ▸ hlq) hsecond, hdead] at hrun
    cases hrun

/-! ## Doubles are written so -/

/-- A sum with a double is a double. -/
theorem check_hashBody_double {ps : List Property} (hps : ∀ p ∈ ps, p ∈ c.properties)
    (hd : ∃ p ∈ ps, p.kind = .double ∧ p.written ≠ none) {nested : Bool}
    (hc : c.check names [] nested (hashBody ps) = .ok (ty, h)) :
    ty = .prim .double ∧ ∃ h₁ h₂, h = .add .double h₁ h₂ := by
  induction ps using List.reverseRecOn generalizing ty h with
  | nil =>
    obtain ⟨p, hp, -⟩ := hd
    cases hp
  | append_singleton ps p ih =>
    rw [hashBody_append] at hc
    obtain ⟨t₁, t₂, h₁, h₂, hc₁, hc₂, hadd⟩ := check_add hc
    obtain ⟨t₃, t₄, h₃, h₄, hc₃, hc₄, -, -, rfl, rfl⟩ := check_mul hc₁
    rcases hadd with hstr | ⟨-, hnum, rfl, rfl⟩
    · exact absurd (Ty.prim.inj hstr) (promoted_ne_str _ _)
    · obtain ⟨q, hq, hkind, hwritten⟩ := hd
      have hdouble : promoted (.prim (promoted t₃ t₄)) t₂ = .double := by
        rcases List.mem_append.mp hq with hq | hq
        · obtain ⟨rfl, -⟩ := ih (fun r hr => hps r (List.mem_append_left _ hr))
            ⟨q, hq, hkind, hwritten⟩ hc₃
          have hprod : promoted (.prim .double) t₄ = .double := if_pos (.inl rfl)
          rw [hprod]
          exact if_pos (.inl rfl)
        · obtain rfl := List.mem_singleton.mp hq
          obtain ⟨a, ha⟩ := Option.ne_none_iff_exists'.mp hwritten
          rw [hashValue_other ha] at hc₂
          obtain ⟨-, rfl | rfl⟩ := check_property (hps q (by simp)) hc₂
          · cases hnum
          · rw [hkind]
            exact if_pos (.inr rfl)
      rw [hdouble]
      exact ⟨rfl, _, _, rfl⟩

theorem Lawful.written (hl : c.Lawful M) (ha : c.Accepted) :
    ∀ p ∈ c.properties, p.kind = .double → p.written = none := by
  intro p hp hkind
  by_contra hwritten
  obtain ⟨h, hc⟩ := ha.ok (m := c.hashCode) (List.mem_append_right _ (by simp))
  obtain ⟨ty, hbody⟩ := checkMember_ok hc
  obtain ⟨-, h₁, h₂, rfl⟩ := check_hashBody_double (fun p hp => hp) ⟨p, hp, hkind, hwritten⟩ hbody
  obtain ⟨n, t, -, hrun, -⟩ := hl.hashCode _ _ _ _ _ room_sample instance_sample instance_sample
    (instance_sample.agree_refl naNFree_sample)
  rw [run, hc] at hrun
  simp only [eval] at hrun
  obtain ⟨a, -, hrun⟩ := Option.bind_eq_some_iff.mp hrun
  obtain ⟨b, -, hrun⟩ := Option.map_eq_some_iff.mp hrun
  have htag : TAG_FLOAT = TAG_INT := congrArg (fun r : Value × State => r.1.tag) hrun
  exact absurd htag (by decide)

/-! ## The constructor keeps its arguments -/

theorem Lawful.keeps (hl : c.Lawful M) (ha : c.Accepted) : c.Keeps M := by
  intro s v o hr hi hn
  obtain ⟨w, o', t, hrun, hw, hv, hsays⟩ := hl.copy s v o hr hi hn
  rw [run_copy ha (hl.called ha)] at hrun
  obtain ⟨f, hf, rfl, rfl⟩ := construct_eq_some.mp hrun
  refine ⟨f, hf, fun p hp => ?_⟩
  obtain rfl := Option.some.inj (hw.live.symm.trans (live_newRef hr _))
  have htyped := hw.typed p hp
  have hagree := (hl.operatorEq.says_iff hw hv).mp hsays p hp
  rw [value_made hp] at htyped hagree
  exact ⟨⟨htyped.tag, htyped.inTable⟩, hagree⟩

theorem Lawful.regular (hl : c.Lawful M) (ha : c.Accepted) : c.Regular M :=
  ⟨hl.called ha, hl.free ha, hl.written ha, hl.keeps ha⟩

/-- The last field of a name is the first one exactly when it is the only one. -/
theorem storeSlot_eq_slot {n : String} (hn : n ∈ c.fieldNames) :
    c.storeSlot n = c.slot n ↔ c.fieldNames.count n = 1 := by
  obtain ⟨l, r, heq, hl⟩ := List.eq_append_cons_of_mem hn
  have hslot : c.slot n = l.length := by
    rw [slot, heq, List.idxOf_append, if_neg hl, List.idxOf_cons_self, Nat.zero_add]
  have hrev : c.fieldNames.reverse = r.reverse ++ n :: l.reverse := by
    rw [heq, List.reverse_append, List.reverse_cons, List.append_assoc]
    rfl
  have hlen : c.fieldNames.length = l.length + r.length + 1 := by
    rw [heq, List.length_append, List.length_cons, Nat.add_assoc]
  have hcount : c.fieldNames.count n = r.count n + 1 := by
    rw [heq, List.count_append, List.count_eq_zero.mpr hl, List.count_cons_self, Nat.zero_add]
  rw [storeSlot, hslot, hlen, hrev, hcount, List.idxOf_append]
  by_cases hr : n ∈ r
  · have hlt : r.reverse.idxOf n < r.length := by
      simpa using List.idxOf_lt_length_of_mem (List.mem_reverse.mpr hr)
    have hpos := List.count_pos_iff.mpr hr
    rw [if_pos (List.mem_reverse.mpr hr)]
    omega
  · rw [if_neg (by simpa using hr), List.idxOf_cons_self, List.length_reverse,
      List.count_eq_zero.mpr hr]
    omega

/-- What a slot holds after stores: the start, or the value of a name that is stored there. -/
theorem stored_cases (obj : Value) (args : List Value) {k : ℕ} (hin : c.inherited.length ≤ k) :
    (c.stored obj args k = zero ∧ ∀ p ∈ c.properties, c.storeSlot p.name ≠ k) ∨
      ∃ p ∈ c.properties, c.storeSlot p.name = k ∧
        c.stored obj args k = c.ctorScope obj args p.name := by
  rw [stored]
  generalize hps : c.properties = ps
  clear hps
  induction ps using List.reverseRecOn with
  | nil => exact .inl ⟨if_neg (by omega), nofun⟩
  | append_singleton ps p ih =>
    rw [List.foldl_append, List.foldl_cons, List.foldl_nil]
    by_cases hp : c.storeSlot p.name = k
    · exact .inr ⟨p, by simp, hp, by rw [hp, Function.update_self]⟩
    · rw [Function.update_of_ne (Ne.symm hp)]
      refine ih.imp ?_ ?_
      · rintro ⟨hz, hne⟩
        refine ⟨hz, fun q hq => ?_⟩
        rcases List.mem_append.mp hq with hq | hq
        · exact hne q hq
        · rwa [List.mem_singleton.mp hq]
      · rintro ⟨q, hq, hs⟩
        exact ⟨q, List.mem_append_left _ hq, hs⟩

theorem fieldNames_storeSlot {n : String} (hn : n ∈ c.fieldNames) :
    c.fieldNames[c.storeSlot n]? = some n := by
  have hrev := List.mem_reverse.mpr hn
  have hlt := List.idxOf_lt_length_of_mem hrev
  have hget := List.getElem?_idxOf hrev
  rw [List.length_reverse] at hlt
  rwa [List.getElem?_reverse hlt] at hget

/-- The field that a property's name reads, before the code of the user. -/
theorem view_stored (hi : c.inherited = []) (obj : Value) (args : List Value)
    (hp : p ∈ c.properties) :
    c.view (c.stored obj args) p.name =
      if c.fieldNames.count p.name = 1 then c.ctorScope obj args p.name else zero := by
  have hmem := mem_fieldNames hp
  rcases c.stored_cases obj args (k := c.slot p.name) (by simp [hi]) with
    ⟨hz, hne⟩ | ⟨q, hq, hslot, hs⟩
  · rw [if_neg fun h => hne p hp ((storeSlot_eq_slot hmem).mpr h)]
    exact hz
  · have hname : q.name = p.name := by
      have hget := fieldNames_storeSlot (mem_fieldNames hq)
      rw [hslot, fieldNames_slot hmem] at hget
      exact (Option.some.inj hget).symm
    rw [hname] at hslot hs
    rw [if_pos ((storeSlot_eq_slot hmem).mp hslot)]
    exact hs

/-- The names of the properties are those of no other field. -/
theorem count_fieldNames (hi : c.inherited = []) (hp : p ∈ c.properties) :
    c.fieldNames.count p.name = (c.properties.map Property.name).count p.name := by
  rw [fieldNames, hi, List.nil_append, List.count_append,
    List.count_eq_zero.mpr (c.apart p hp), Nat.add_zero]

theorem map_name_eq {ps : List ParamDecl}
    (hlen : ps.length = (ps.filterMap ParamDecl.property?).length) :
    ps.map ParamDecl.name = (ps.filterMap ParamDecl.property?).map Property.name := by
  induction ps with
  | nil => rfl
  | cons d ps ih =>
    cases d with
    | plain n =>
      have hle := List.length_filterMap_le ParamDecl.property? ps
      simp only [List.filterMap_cons, ParamDecl.property?, List.length_cons] at hlen
      omega
    | property p =>
      simp only [List.filterMap_cons, ParamDecl.property?, List.length_cons,
        Nat.add_right_cancel_iff] at hlen
      simp [ParamDecl.name, ParamDecl.property?, ih hlen]

theorem ctorScope_property (hparams : c.primaryCtor.length = c.properties.length)
    (hp : p ∈ c.properties) (hself : p.name ≠ "self") (hthis : p.name ≠ "this") (obj : Value) :
    c.ctorScope obj (c.properties.map (c.value o)) p.name = c.value o p := by
  have hnames : c.primaryCtor.map ParamDecl.name = c.properties.map Property.name :=
    map_name_eq hparams
  rw [ctorScope, bindAll_append, bindAll_of_notMem (by simp [hself, hthis]), hnames, zip_values]
  exact bindAll_map (List.mem_map_of_mem hp)

theorem ctorScope_self (obj : Value) (args : List Value) {n : String}
    (hn : n = "self" ∨ n = "this") : c.ctorScope obj args n = obj := by
  rw [ctorScope, bindAll_append]
  rcases hn with rfl | rfl
  · rfl
  · rfl

theorem not_equalAs_sample {k : Kind} (hk : zero.tag = Kind.tag k) :
    ¬ EqualAs s k zero (sample k) := by
  have hval : zero.val ≠ (1 : BitVec 64) := by decide
  cases k with
  | str => exact absurd hk (by decide)
  | double => exact absurd hk (by decide)
  | _ => exact hval

theorem heap_ne_tag {k : Kind} : TAG_HEAP ≠ Kind.tag k := by
  cases k <;> decide

/-- Without a superclass, and with code of the user that leaves the properties alone, the
constructor keeps its arguments exactly when the properties have names of their own, and none is
called like the object. -/
theorem keeps_iff (hinherited : c.inherited = [])
    (hparams : c.primaryCtor.length = c.properties.length)
    (hinit : ∀ f, ∃ g, c.init f = some g ∧ ∀ p ∈ c.properties, g p.name = f p.name) :
    c.Keeps M ↔ (c.properties.map Property.name).Nodup ∧
      ∀ p ∈ c.properties, p.name ≠ "self" ∧ p.name ≠ "this" := by
  constructor
  · intro hk
    obtain ⟨g, hg, hprops⟩ := hk _ _ _ room_sample instance_sample naNFree_sample
    have hview : ∀ p ∈ c.properties, g p.name =
        if c.fieldNames.count p.name = 1 then
          c.ctorScope (newRef c.sampleState) (c.properties.map (c.value c.sampleObj)) p.name
        else zero := by
      intro p hp
      obtain ⟨g', hg', heq⟩ := hinit (c.view (c.stored (newRef c.sampleState)
        (c.properties.map (c.value c.sampleObj))))
      obtain rfl := Option.some.inj (hg.symm.trans hg')
      rw [heq p hp, view_stored hinherited _ _ hp]
    have hone : ∀ p ∈ c.properties, c.fieldNames.count p.name = 1 := by
      intro p hp
      by_contra hne
      have hz := hview p hp
      rw [if_neg hne] at hz
      obtain ⟨hkind, hcmp⟩ := hprops p hp
      rw [hz] at hkind hcmp
      rw [value_sampleObj hp] at hcmp
      exact not_equalAs_sample hkind.tag ((cmp_iff hkind.tag rfl).mp hcmp)
    refine ⟨List.nodup_iff_count_le_one.mpr fun n => ?_, fun p hp => ?_⟩
    · by_cases hn : n ∈ c.properties.map Property.name
      · obtain ⟨p, hp, rfl⟩ := List.mem_map.mp hn
        rw [← count_fieldNames hinherited hp, hone p hp]
      · rw [List.count_eq_zero.mpr hn]
        exact Nat.zero_le _
    · rw [← not_or]
      intro hn
      have href := hview p hp
      rw [if_pos (hone p hp), ctorScope_self _ _ hn] at href
      have htag := (hprops p hp).1.tag
      rw [href] at htag
      exact heap_ne_tag htag
  · rintro ⟨hnodup, hnames⟩ s v o hr hi hn
    obtain ⟨g, hg, heq⟩ := hinit (c.view (c.stored (newRef s) (c.properties.map (c.value o))))
    refine ⟨g, hg, fun p hp => ?_⟩
    have hcount : c.fieldNames.count p.name = 1 := by
      rw [count_fieldNames hinherited hp]
      exact List.count_eq_one_of_mem hnodup (List.mem_map_of_mem hp)
    obtain ⟨hself, hthis⟩ := hnames p hp
    rw [heq p hp, view_stored hinherited _ _ hp, if_pos hcount,
      ctorScope_property hparams hp hself hthis]
    exact ⟨hi.typed p hp, hi.agree_refl hn p hp⟩

/-! ## A class that loses its property -/

/-- A data class with one integer property, whose name is `self`. -/
def selfish : DataClass where
  name := "Node"
  typeId := 10
  generics := []
  primaryCtor := [.property ⟨"self", .int, none, nofun⟩]
  inherited := []
  fields := []
  methods := []
  superArgs _ := []
  init f := some f
  typed := by decide
  small := by decide
  apart := by simp
  oneKind := by simp [ParamDecl.property?]
  own := by simp

/-- A machine without floats and other intrinsics. -/
def plainMachine : Machine where
  itof a := a
  ftoi _ := 0
  fadd a _ := a
  fmul a _ := a
  intrinsic _ _ _ := none
  ftoi_zero _ _ _ _ := rfl
  raw := nofun

end DataClass

end Loxis.DataClasses
