import Loxis.DataClasses.Laws

/-! # Copies

A copy calls the constructor with the parameters of `copy`, in the order of the properties.
-/

namespace Loxis.DataClasses

open Backend (Value TAG_INT TAG_STR TAG_FLOAT TAG_NULL)
open Vm (TAG_HEAP)

namespace DataClass

variable {c : DataClass} {M : Machine} {s t : State} {v w : Value} {o o' : Obj} {p : Property}
  {names : List String} {params : List (String × Ty)} {ty : Ty} {h : Hir}

/-! ## The code -/

theorem checkAll_paths {ps : List Property} (hps : ∀ p ∈ ps, p.name ∈ params.map Prod.fst)
    {ts : List Ty} {hs : List Hir}
    (hc : c.checkAll names params false (ps.map fun p => .path p.name) = .ok (ts, hs)) :
    hs = ps.map fun p => .local_ p.name := by
  induction ps generalizing ts hs with
  | nil => exact (checkAll_nil hc).2
  | cons p ps ih =>
    obtain ⟨hp, hps⟩ := List.forall_mem_cons.mp hps
    obtain ⟨t, he, ts', hs', hce, hces, rfl, rfl⟩ := checkAll_cons hc
    obtain ⟨-, rfl⟩ := check_path hce
    rw [ih hps hces, List.map_cons, if_neg (by simp [hp])]

theorem check_class {f : String} {args : List Expr} (hf : f ∉ intrinsics)
    (hc : c.check names params false (.call f args) = .ok (ty, h)) :
    ∃ ts hs, c.checkAll names params false args = .ok (ts, hs) ∧
      args.length = c.primaryCtor.length ∧ h = .init hs := by
  rw [check, check_bind] at hc
  obtain ⟨⟨ts, hs⟩, hcs, hc⟩ := hc
  simp only [if_neg hf] at hc
  split_ifs at hc with h₁ h₂ h₃
  cases hc
  exact ⟨ts, hs, hcs, not_not.mp h₃, rfl⟩

theorem copy_mem : c.copy ∈ c.members := List.mem_append_right _ List.mem_cons_self

theorem copy_params :
    (c.copy.params.map fun q => (q.1, c.paramType q.2)).map Prod.fst =
      c.properties.map Property.name := by
  simp [copy]

theorem checkMember_copy (ha : c.Accepted) (hn : c.name ∉ intrinsics) :
    c.checkMember c.copy = .ok (.init (c.properties.map fun p => .local_ p.name)) ∧
      c.properties.length = c.primaryCtor.length := by
  obtain ⟨h, hc⟩ := ha.ok copy_mem
  obtain ⟨ty, hbody⟩ := checkMember_ok hc
  obtain ⟨ts, hs, hcs, hlen, rfl⟩ := check_class hn hbody
  have hps : ∀ p ∈ c.properties,
      p.name ∈ (c.copy.params.map fun q => (q.1, c.paramType q.2)).map Prod.fst := by
    intro p hp
    rw [copy_params]
    exact List.mem_map_of_mem hp
  rw [checkAll_paths hps hcs] at hc
  exact ⟨hc, by simpa using hlen⟩

theorem checkMember_copy_intrinsic (ha : c.Accepted) (hn : c.name ∈ intrinsics) :
    ∃ hs, c.checkMember c.copy = .ok (.intrinsic c.name hs) := by
  obtain ⟨h, hc⟩ := ha.ok copy_mem
  obtain ⟨ty, hbody⟩ := checkMember_ok hc
  obtain ⟨ts, hs, -, -, rfl⟩ := check_intrinsic hn hbody
  exact ⟨hs, hc⟩

/-! ## What it does -/

theorem evalAll_locals {ρ : String → Value} (ps : List Property) :
    c.evalAll M ρ (ps.map fun p => .local_ p.name) s = some (ps.map fun p => ρ p.name, s) := by
  induction ps with
  | nil => rfl
  | cons p ps ih => simp [evalAll, eval, ih]

/-- Properties bound to their values, by names. -/
theorem zip_values (o : Obj) (ps : List Property) :
    (ps.map Property.name).zip (ps.map (c.value o)) =
      (ps.map Property.name).map fun n => (n, o.slots (c.slot n)) := by
  induction ps with
  | nil => rfl
  | cons p ps ih =>
    rw [List.map_cons, List.map_cons, List.zip_cons_cons, ih]
    rfl

theorem bindAll_append {ρ : String → Value} (ps qs : List (String × Value)) :
    bindAll ρ (ps ++ qs) = bindAll (bindAll ρ ps) qs := List.foldl_append

theorem scope_copy (hp : p ∈ c.properties) :
    scope c.copy v (c.properties.map (c.value o)) p.name = c.value o p := by
  have hparams : c.copy.params.map Prod.fst = c.properties.map Property.name := by
    simp [copy]
  rw [scope, hparams, zip_values, bindAll_append]
  exact bindAll_map (List.mem_map_of_mem hp)

theorem run_copy (ha : c.Accepted) (hn : c.name ∉ intrinsics) :
    c.run M c.copy v (c.properties.map (c.value o)) s =
      c.construct (c.properties.map (c.value o)) s := by
  have hargs : (c.properties.map fun p => scope c.copy v (c.properties.map (c.value o)) p.name) =
      c.properties.map (c.value o) :=
    List.map_congr_left fun p hp => scope_copy hp
  rw [run, (checkMember_copy ha hn).1]
  simp only [eval, evalAll_locals, hargs, Option.bind_some]

/-! ## The constructor -/

/-- The next object. -/
def newRef (s : State) : Value := ⟨BitVec.ofNat 64 s.objects.length, TAG_HEAP⟩

/-- The object that the constructor makes. -/
def made (c : DataClass) (s : State) (args : List Value) (f : String → Value) : Obj :=
  ⟨c.typeId, c.fieldNames.length, c.assign (c.stored (newRef s) args) f⟩

theorem construct_eq_some {args : List Value} :
    c.construct args s = some (w, t) ↔
      ∃ f, c.init (c.view (c.stored (newRef s) args)) = some f ∧ w = newRef s ∧
        t = { s with objects := s.objects ++ [c.made s args f] } := by
  rw [construct, Option.map_eq_some_iff]
  constructor
  · rintro ⟨f, hf, heq⟩
    cases heq
    exact ⟨f, hf, rfl, rfl⟩
  · rintro ⟨f, hf, rfl, rfl⟩
    exact ⟨f, hf, rfl⟩

/-- The constructor keeps its arguments: when the stores and the code of the user are done, the
fields by the names of the properties are equal to them. -/
def Keeps (c : DataClass) (M : Machine) : Prop :=
  ∀ s v o, c.Room s → c.Instance s v o → c.NaNFree o →
    ∃ f, c.init (c.view (c.stored (newRef s) (c.properties.map (c.value o)))) = some f ∧
      ∀ p ∈ c.properties, HasKind s p.kind (f p.name) ∧
        M.cmp s (f p.name) (c.value o p) = true

theorem value_made {args : List Value} {f : String → Value} (hp : p ∈ c.properties) :
    c.value (c.made s args f) p = f p.name := by
  simp [value, made, assign, fieldNames_slot (mem_fieldNames hp)]

theorem live_newRef (hr : c.Room s) (new : Obj) :
    (s.objects ++ [new])[(newRef s).val.toNat]? = some new := by
  have hlt : s.objects.length < 2 ^ 64 := by
    have := hr.1
    omega
  have hval : (newRef s).val.toNat = s.objects.length := by
    rw [newRef, BitVec.toNat_ofNat, Nat.mod_eq_of_lt hlt]
  rw [hval, List.getElem?_append_right le_rfl, Nat.sub_self]
  rfl

theorem Instance.append (hi : c.Instance s v o) (new : Obj) :
    c.Instance { s with objects := s.objects ++ [new] } v o where
  ref := hi.ref
  live := by
    have hlt := (List.getElem?_eq_some_iff.mp hi.live).1
    rw [List.getElem?_append_left hlt]
    exact hi.live
  typeId := hi.typeId
  size := hi.size
  typed p hp := ⟨(hi.typed p hp).tag, (hi.typed p hp).inTable⟩

theorem instance_made (hr : c.Room s) {args : List Value} {f : String → Value}
    (hf : ∀ p ∈ c.properties, HasKind s p.kind (f p.name)) :
    c.Instance { s with objects := s.objects ++ [c.made s args f] } (newRef s)
      (c.made s args f) where
  ref := rfl
  live := live_newRef hr _
  typeId := rfl
  size := rfl
  typed p hp := by
    rw [value_made hp]
    exact ⟨(hf p hp).tag, (hf p hp).inTable⟩

theorem Keeps.copy (hk : c.Keeps M) (ha : c.Accepted) (hn : c.name ∉ intrinsics)
    (hd : c.Decides M c.operatorEq) (hr : c.Room s) (hi : c.Instance s v o) (hnan : c.NaNFree o) :
    ∃ w o' t, c.run M c.copy v (c.properties.map (c.value o)) s = some (w, t) ∧
      c.Instance t w o' ∧ c.Instance t v o ∧ c.Says M c.operatorEq t w v := by
  obtain ⟨f, hf, hprops⟩ := hk s v o hr hi hnan
  let new := c.made s (c.properties.map (c.value o)) f
  have hw : c.Instance { s with objects := s.objects ++ [new] } (newRef s) new :=
    instance_made hr fun p hp => (hprops p hp).1
  have hv := hi.append new
  refine ⟨_, _, _, ?_, hw, hv, (hd.says_iff hw hv).mpr ?_⟩
  · rw [run_copy ha hn]
    exact construct_eq_some.mpr ⟨f, hf, rfl, rfl⟩
  · intro p hp
    rw [value_made hp]
    exact (hprops p hp).2

end DataClass

end Loxis.DataClasses
