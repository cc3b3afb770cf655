import Loxis.DataClasses.Run

/-! # The members that are accepted

What the check makes of each member, and what this does.
-/

namespace Loxis.DataClasses

open Backend (Value TAG_INT TAG_STR TAG_FLOAT TAG_NULL)
open Vm (TAG_HEAP)

namespace DataClass

variable {c : DataClass} {M : Machine} {s t : State} {v w : Value} {o o' : Obj} {p : Property}
  {nested : Bool} {names : List String} {params : List (String × Ty)}

/-! ## Slots -/

theorem mem_fieldNames (hp : p ∈ c.properties) : p.name ∈ c.fieldNames :=
  List.mem_append_left _ (List.mem_append_right _ (List.mem_map_of_mem hp))

theorem slot_lt {n : String} (hn : n ∈ c.fieldNames) : c.slot n < c.fieldNames.length :=
  List.idxOf_lt_length_of_mem hn

theorem fieldNames_slot {n : String} (hn : n ∈ c.fieldNames) :
    c.fieldNames[c.slot n]? = some n := by
  rw [List.getElem?_eq_getElem (slot_lt hn)]
  exact congrArg some (List.getElem_idxOf _)

theorem Instance.load (hi : c.Instance s v o) {n : String} (hn : n ∈ c.fieldNames) :
    s.load v (c.slot n) = some (o.slots (c.slot n)) := by
  rw [State.load, hi.live, Option.bind_some, if_pos (hi.size ▸ slot_lt hn)]

theorem fieldKind_property (hp : p ∈ c.properties) : c.fieldKind p.name = some p.kind := by
  have hsome : (c.properties.reverse.find? fun q => q.name = p.name).isSome := by
    rw [List.find?_isSome]
    exact ⟨p, List.mem_reverse.mpr hp, by simp⟩
  obtain ⟨q, hq⟩ := Option.isSome_iff_exists.mp hsome
  have hname := List.find?_some hq
  have hmem := List.mem_reverse.mp (List.mem_of_find?_eq_some hq)
  rw [fieldKind, hq, Option.map_some, c.oneKind q hmem p hp (by simpa using hname)]

/-! ## Scopes -/

theorem bindAll_of_notMem {ρ : String → Value} {ps : List (String × Value)} {n : String}
    (hn : n ∉ ps.map Prod.fst) : bindAll ρ ps n = ρ n := by
  induction ps generalizing ρ with
  | nil => rfl
  | cons p ps ih =>
    rw [List.map_cons, List.mem_cons, not_or] at hn
    exact (ih hn.2).trans (Function.update_of_ne hn.1 _ _)

/-- Names that are bound to values of their own. -/
theorem bindAll_map {ρ : String → Value} {f : String → Value} {ns : List String} {n : String}
    (hn : n ∈ ns) : bindAll ρ (ns.map fun n => (n, f n)) n = f n := by
  induction ns generalizing ρ with
  | nil => cases hn
  | cons m ns ih =>
    by_cases hns : n ∈ ns
    · exact ih hns
    · obtain rfl : n = m := (List.mem_cons.mp hn).resolve_right hns
      have hnot : n ∉ (ns.map fun n => (n, f n)).map Prod.fst := by simpa using hns
      exact (bindAll_of_notMem hnot).trans (Function.update_self ..)

/-! ## What the check returns -/

variable {ty : Ty} {h : Hir} {e e₁ e₂ e₃ : Expr}

theorem check_path {n : String} (hc : c.check names params nested (.path n) = .ok (ty, h)) :
    c.symbol names params n = some ty ∧
      h = if (nested ∨ n ∉ params.map Prod.fst) ∧ n ∈ c.fieldNames then .self_ (c.slot n)
        else .local_ n := by
  rw [check] at hc
  cases hs : c.symbol names params n with
  | none => rw [hs] at hc; cases hc
  | some t =>
    rw [hs] at hc
    cases hc
    exact ⟨rfl, rfl⟩

theorem check_field {n : String}
    (hc : c.check names params nested (.field e n) = .ok (ty, h)) :
    ∃ k he, c.check names params nested e = .ok (.cls, he) ∧ c.fieldKind n = some k ∧
      ty = .prim k ∧ h = .field he (c.slot n) := by
  rw [check, check_bind] at hc
  obtain ⟨⟨t, he⟩, hce, hc⟩ := hc
  cases hk : c.fieldKind n with
  | none => cases t <;> simp [hk] at hc
  | some k =>
    cases t with
    | cls =>
      simp only [hk] at hc
      cases hc
      exact ⟨k, he, hce, rfl, rfl, rfl⟩
    | _ => simp at hc

theorem check_eq (hc : c.check names params nested (.eq e₁ e₂) = .ok (ty, h)) :
    ∃ t h₁ h₂, c.check names params nested e₁ = .ok (t, h₁) ∧
      c.check names params nested e₂ = .ok (t, h₂) ∧ ty = .prim .bool ∧ h = .eq h₁ h₂ := by
  rw [check, check_bind] at hc
  obtain ⟨⟨t, h₁⟩, hc₁, hc⟩ := hc
  obtain ⟨⟨t', h₂⟩, hc₂, hc⟩ := check_bind.mp hc
  simp only at hc
  split_ifs at hc with ht
  cases hc
  subst ht
  exact ⟨t, h₁, h₂, hc₁, hc₂, rfl, rfl⟩

theorem check_ite (hc : c.check names params nested (.ite e₁ e₂ e₃) = .ok (ty, h)) :
    ∃ h₁ h₂ h₃, c.check names params nested e₁ = .ok (.prim .bool, h₁) ∧
      c.check names params true e₂ = .ok (ty, h₂) ∧
      c.check names params true e₃ = .ok (ty, h₃) ∧ h = .ite h₁ h₂ h₃ := by
  rw [check, check_bind] at hc
  obtain ⟨⟨t₁, h₁⟩, hc₁, hc⟩ := hc
  obtain ⟨⟨t₂, h₂⟩, hc₂, hc⟩ := check_bind.mp hc
  obtain ⟨⟨t₃, h₃⟩, hc₃, hc⟩ := check_bind.mp hc
  simp only at hc
  split_ifs at hc with h1 h2
  cases hc
  subst h2
  exact ⟨h₁, h₂, h₃, not_not.mp h1 ▸ hc₁, hc₂, hc₃, rfl⟩

theorem check_mul (hc : c.check names params nested (.mul e₁ e₂) = .ok (ty, h)) :
    ∃ t₁ t₂ h₁ h₂, c.check names params nested e₁ = .ok (t₁, h₁) ∧
      c.check names params nested e₂ = .ok (t₂, h₂) ∧ t₁.numeric = true ∧ t₂.numeric = true ∧
      ty = .prim (promoted t₁ t₂) ∧ h = .mul (promoted t₁ t₂) h₁ h₂ := by
  rw [check, check_bind] at hc
  obtain ⟨⟨t₁, h₁⟩, hc₁, hc⟩ := hc
  obtain ⟨⟨t₂, h₂⟩, hc₂, hc⟩ := check_bind.mp hc
  simp only at hc
  split_ifs at hc with hn
  cases hc
  exact ⟨t₁, t₂, h₁, h₂, hc₁, hc₂, hn.1, hn.2, rfl, rfl⟩

/-- A sum with a number. -/
theorem check_add (hc : c.check names params nested (.add e₁ e₂) = .ok (ty, h)) :
    ∃ t₁ t₂ h₁ h₂, c.check names params nested e₁ = .ok (t₁, h₁) ∧
      c.check names params nested e₂ = .ok (t₂, h₂) ∧
      (t₁ = .prim .str ∨ t₁.numeric = true ∧ t₂.numeric = true ∧ ty = .prim (promoted t₁ t₂) ∧
        h = .add (promoted t₁ t₂) h₁ h₂) := by
  rw [check, check_bind] at hc
  obtain ⟨⟨t₁, h₁⟩, hc₁, hc⟩ := hc
  obtain ⟨⟨t₂, h₂⟩, hc₂, hc⟩ := check_bind.mp hc
  refine ⟨t₁, t₂, h₁, h₂, hc₁, hc₂, ?_⟩
  simp only at hc
  split_ifs at hc with hstr hn
  · exact .inl hstr.1
  · cases hc
    exact .inr ⟨hn.1, hn.2, rfl, rfl⟩

theorem checkAll_cons {es : List Expr} {ts : List Ty} {hs : List Hir}
    (hc : c.checkAll names params nested (e :: es) = .ok (ts, hs)) :
    ∃ t he ts' hs', c.check names params nested e = .ok (t, he) ∧
      c.checkAll names params nested es = .ok (ts', hs') ∧ ts = t :: ts' ∧ hs = he :: hs' := by
  rw [checkAll, check_bind] at hc
  obtain ⟨⟨t, he⟩, hce, hc⟩ := hc
  obtain ⟨⟨ts', hs'⟩, hces, hc⟩ := check_bind.mp hc
  cases hc
  exact ⟨t, he, ts', hs', hce, hces, rfl, rfl⟩

theorem checkAll_nil {ts : List Ty} {hs : List Hir}
    (hc : c.checkAll names params nested [] = .ok (ts, hs)) : ts = [] ∧ hs = [] := by
  rw [checkAll] at hc
  cases hc
  exact ⟨rfl, rfl⟩

theorem check_intrinsic {f : String} {args : List Expr} (hf : f ∈ intrinsics)
    (hc : c.check names params nested (.call f args) = .ok (ty, h)) :
    ∃ ts hs, c.checkAll names params nested args = .ok (ts, hs) ∧
      intrinsicType f ts = .ok ty ∧ h = .intrinsic f hs := by
  rw [check, check_bind] at hc
  obtain ⟨⟨ts, hs⟩, hcs, hc⟩ := hc
  simp only [if_pos hf, check_bind] at hc
  obtain ⟨t, ht, hc⟩ := hc
  cases hc
  exact ⟨ts, hs, hcs, ht, rfl⟩

/-- A call of an intrinsic with one argument. -/
theorem check_call₁ {f : String} (hf : f ∈ intrinsics)
    (hc : c.check names params nested (.call f [e]) = .ok (ty, h)) :
    ∃ t he, c.check names params nested e = .ok (t, he) ∧ intrinsicType f [t] = .ok ty ∧
      h = .intrinsic f [he] := by
  obtain ⟨ts, hs, hcs, ht, rfl⟩ := check_intrinsic hf hc
  obtain ⟨t, he, ts', hs', hce, hces, rfl, rfl⟩ := checkAll_cons hcs
  obtain ⟨rfl, rfl⟩ := checkAll_nil hces
  exact ⟨t, he, hce, ht, rfl⟩

/-! ## Paths -/

/-- A property in a member without parameters. -/
theorem check_property (hp : p ∈ c.properties)
    (hc : c.check names [] nested (.path p.name) = .ok (ty, h)) :
    h = .self_ (c.slot p.name) ∧ (ty = .fn ∨ ty = .prim p.kind) := by
  obtain ⟨hs, hh⟩ := check_path hc
  refine ⟨by simpa [mem_fieldNames hp] using hh, ?_⟩
  simp only [symbol, List.reverse_nil, List.lookup_nil, fieldKind_property hp] at hs
  split_ifs at hs
  · cases hs
    exact .inl rfl
  · cases hs
    exact .inr rfl

/-! ## Components -/

theorem checkMember_ok {m : Member} (hc : c.checkMember m = .ok h) :
    ∃ ty, c.check (c.done m.id) (m.params.map fun q => (q.1, c.paramType q.2)) false m.body =
      .ok (ty, h) := by
  rw [checkMember, check_bind] at hc
  obtain ⟨_, -, hc⟩ := hc
  obtain ⟨_, -, hc⟩ := check_bind.mp hc
  obtain ⟨⟨ty, h'⟩, hbody, hc⟩ := check_bind.mp hc
  cases hc
  exact ⟨ty, hbody⟩

theorem Accepted.ok (ha : c.Accepted) {m : Member} (hm : m ∈ c.members) :
    ∃ h, c.checkMember m = .ok h := by
  have := ha.2 m hm
  cases hc : c.checkMember m with
  | error e => rw [hc] at this; cases this
  | ok h => exact ⟨h, rfl⟩

theorem mem_members_component {k : ℕ} (hp : c.properties[k]? = some p) :
    component k p ∈ c.members := by
  refine List.mem_append_left _ (List.mem_map.mpr ⟨(p, k), ?_, rfl⟩)
  rw [List.mk_mem_zipIdx_iff_getElem?]
  exact hp

theorem run_component (ha : c.Accepted) (hi : c.Instance s v o) {k : ℕ}
    (hp : c.properties[k]? = some p) :
    c.run M (component k p) v [] s = some (c.value o p, s) := by
  obtain ⟨h, hc⟩ := ha.ok (mem_members_component hp)
  obtain ⟨ty, hbody⟩ := checkMember_ok hc
  have hmem := List.mem_of_getElem? hp
  obtain ⟨rfl, -⟩ := check_property hmem hbody
  have hself : scope (component k p) v [] "self" = v := by
    simp [scope, bindAll]
  rw [run, hc]
  simp only [eval, hself, hi.load (mem_fieldNames hmem), Option.map_some]
  rfl

/-! ## Equality -/

/-- The parameter `other`, as it is read in a scope. -/
def otherHir (c : DataClass) (nested : Bool) : Hir :=
  if nested ∧ "other" ∈ c.fieldNames then .self_ (c.slot "other") else .local_ "other"

def equalsHir (c : DataClass) : Bool → List Property → Hir
  | _, [] => .lit (.bool true)
  | nested, p :: ps =>
    .ite (.eq (.self_ (c.slot p.name)) (.field (otherHir c nested) (c.slot p.name)))
      (equalsHir c true ps) (.lit (.bool false))

theorem check_equalsBody {ps : List Property} (hps : ∀ p ∈ ps, p ∈ c.properties)
    (hc : c.check names [("other", .cls)] nested (equalsBody ps) = .ok (ty, h)) :
    h = equalsHir c nested ps ∧ ∀ p ∈ ps, p.name ≠ "other" := by
  induction ps generalizing nested ty h with
  | nil => exact ⟨(check_lit hc).2, nofun⟩
  | cons p ps ih =>
    obtain ⟨hp, hps⟩ := List.forall_mem_cons.mp hps
    obtain ⟨h₁, h₂, h₃, hc₁, hc₂, hc₃, rfl⟩ := check_ite hc
    obtain ⟨t, hl, hr, hcl, hcr, -, rfl⟩ := check_eq hc₁
    obtain ⟨k, ho, hco, hk, rfl, rfl⟩ := check_field hcr
    obtain ⟨hsl, rfl⟩ := check_path hcl
    obtain ⟨-, rfl⟩ := check_path hco
    obtain ⟨hrest, hnames⟩ := ih hps hc₂
    rw [hrest, (check_lit hc₃).2]
    -- the parameter is no property: its type is the class
    have hne : p.name ≠ "other" := by
      intro heq
      rw [heq] at hsl
      simp [symbol] at hsl
    exact ⟨by simp [equalsHir, otherHir, hne, mem_fieldNames hp],
      List.forall_mem_cons.mpr ⟨hne, hnames⟩⟩

@[simp] theorem cmp_boolValue (b : Bool) : M.cmp s (boolValue b) (boolValue true) = b := by
  cases b <;> rfl

/-- The comparison of one property. -/
theorem eval_equalsHir_cons {ρ : String → Value} {x a : Value} {ps : List Property}
    (hself : s.load (ρ "self") (c.slot p.name) = some a)
    (hother : c.eval M ρ (otherHir c nested) s = some (x, s)) :
    c.eval M ρ (equalsHir c nested (p :: ps)) s =
      (s.load x (c.slot p.name)).bind fun b =>
        if M.cmp s a b = true then c.eval M ρ (equalsHir c true ps) s
        else some (boolValue false, s) := by
  rw [equalsHir]
  simp only [eval, hself, hother, Option.map_some, Option.bind_some]
  cases s.load x (c.slot p.name) with
  | none => rfl
  | some b =>
    simp only [Option.map_some, Option.bind_some, cmp_boolValue]
    rfl

/-- Compares the properties one after the other. -/
theorem eval_equalsHir {ρ : String → Value} (hself : ρ "self" = v) (hother : ρ "other" = w)
    (hi : c.Instance s v o) (hi' : c.Instance s w o') {ps : List Property}
    (hps : ∀ p ∈ ps, p ∈ c.properties)
    (hfree : nested = false ∧ ps.length ≤ 1 ∨ "other" ∉ c.fieldNames) :
    c.eval M ρ (equalsHir c nested ps) s =
      some (boolValue (ps.all fun p => M.cmp s (c.value o p) (c.value o' p)), s) := by
  induction ps generalizing nested with
  | nil => rfl
  | cons p ps ih =>
    obtain ⟨hp, hps⟩ := List.forall_mem_cons.mp hps
    have hparam : c.eval M ρ (otherHir c nested) s = some (w, s) := by
      have hlocal : otherHir c nested = .local_ "other" := by
        rcases hfree with ⟨rfl, -⟩ | hn
        · rfl
        · exact if_neg fun h => hn h.2
      rw [hlocal, eval, hother]
    have hl : s.load (ρ "self") (c.slot p.name) = some (c.value o p) :=
      hself ▸ hi.load (mem_fieldNames hp)
    have hr : s.load w (c.slot p.name) = some (c.value o' p) := hi'.load (mem_fieldNames hp)
    rw [eval_equalsHir_cons hl hparam, hr, Option.bind_some, List.all_cons]
    split_ifs with heq
    · rw [heq, Bool.true_and]
      rcases hfree with ⟨-, hlen⟩ | hn
      · obtain rfl : ps = [] := List.length_eq_zero_iff.mp (by simpa using hlen)
        rfl
      · exact ih hps (.inr hn)
    · rw [Bool.eq_false_iff.mpr heq, Bool.false_and]

/-- The two members that decide equality are one up to their names. -/
def Equality (c : DataClass) (m : Member) : Prop :=
  m ∈ c.members ∧ m.params = [("other", c.name)] ∧ m.body = equalsBody c.properties

theorem equality_equals : Equality c c.equals :=
  ⟨List.mem_append_right _ (by simp), rfl, rfl⟩

theorem equality_operatorEq : Equality c c.operatorEq :=
  ⟨List.mem_append_right _ (by simp), rfl, rfl⟩

theorem Equality.checkMember (ha : c.Accepted) {m : Member} (hm : Equality c m) :
    c.checkMember m = .ok (equalsHir c false c.properties) ∧
      ∀ p ∈ c.properties, p.name ≠ "other" := by
  obtain ⟨hmem, hparams, hbody⟩ := hm
  obtain ⟨h, hc⟩ := ha.ok hmem
  obtain ⟨ty, hcheck⟩ := checkMember_ok hc
  have hty : c.paramType c.name = .cls := if_pos rfl
  rw [hparams, hbody, List.map_singleton, hty] at hcheck
  obtain ⟨rfl, hnames⟩ := check_equalsBody (fun p hp => hp) hcheck
  exact ⟨hc, hnames⟩

theorem Equality.run (ha : c.Accepted) {m : Member} (hm : Equality c m) :
    c.run M m v [w] s = c.eval M (scope m v [w]) (equalsHir c false c.properties) s := by
  rw [DataClass.run, (hm.checkMember ha).1]

theorem Equality.scope {m : Member} (hm : Equality c m) :
    scope m v [w] "self" = v ∧ scope m v [w] "other" = w := by
  rw [DataClass.scope, hm.2.1]
  exact ⟨rfl, rfl⟩

theorem Equality.run_eq (ha : c.Accepted)
    (hfree : c.properties.length ≤ 1 ∨ "other" ∉ c.fieldNames) {m : Member} (hm : Equality c m)
    (hi : c.Instance s v o) (hi' : c.Instance s w o') :
    c.run M m v [w] s =
      some (boolValue (c.properties.all fun p => M.cmp s (c.value o p) (c.value o' p)), s) := by
  rw [hm.run ha]
  exact eval_equalsHir hm.scope.1 hm.scope.2 hi hi' (fun p hp => hp)
    (hfree.imp (fun h => ⟨rfl, h⟩) id)

theorem Equality.decides (ha : c.Accepted)
    (hfree : c.properties.length ≤ 1 ∨ "other" ∉ c.fieldNames) {m : Member}
    (hm : Equality c m) : c.Decides M m := by
  intro s v w o o' hi hi'
  exact ⟨_, hm.run_eq ha hfree hi hi', by rw [List.all_eq_true]; rfl⟩

/-! ## Equality is an equivalence -/

theorem isNaN_of_feq {a b : BitVec 64} (h : feq a b = true) :
    isNaN a = false ∧ isNaN b = false ∧ (a = b ∨ isZero a = true ∧ isZero b = true) := by
  simpa [feq, and_assoc] using h

theorem feq_refl {a : BitVec 64} (h : isNaN a = false) : feq a a = true := by
  simp [feq, h]

theorem feq_symm {a b : BitVec 64} (h : feq a b = true) : feq b a = true := by
  obtain ⟨ha, hb, rfl | ⟨hza, hzb⟩⟩ := isNaN_of_feq h
  · exact h
  · simp [feq, ha, hb, hza, hzb]

theorem feq_trans {a b d : BitVec 64} (h : feq a b = true) (h' : feq b d = true) :
    feq a d = true := by
  obtain ⟨ha, -, rfl | ⟨hza, -⟩⟩ := isNaN_of_feq h
  · exact h'
  · obtain ⟨-, hd, rfl | ⟨-, hzd⟩⟩ := isNaN_of_feq h'
    · exact h
    · simp [feq, ha, hd, hza, hzd]

/-- Two values are equal as values of a kind. -/
def EqualAs (s : State) (k : Kind) (a b : Value) : Prop :=
  match k with
  | .str => s.text a = s.text b
  | .double => feq a.val b.val = true
  | _ => a.val = b.val

theorem cmp_iff {k : Kind} {a b : Value} (ha : a.tag = Kind.tag k) (hb : b.tag = Kind.tag k) :
    M.cmp s a b = true ↔ EqualAs s k a b := by
  cases k <;> simp only [Kind.tag] at ha hb <;>
    simp [EqualAs, Machine.cmp, Machine.toFloat, ha, hb, TAG_INT, TAG_STR, TAG_FLOAT, TAG_NULL]

theorem EqualAs.symm {k : Kind} {a b : Value} (h : EqualAs s k a b) : EqualAs s k b a := by
  cases k with
  | double => exact feq_symm h
  | _ => exact Eq.symm h

theorem EqualAs.trans {k : Kind} {a b d : Value} (h : EqualAs s k a b) (h' : EqualAs s k b d) :
    EqualAs s k a d := by
  cases k with
  | double => exact feq_trans h h'
  | _ => exact Eq.trans h h'

end DataClass

end Loxis.DataClasses
