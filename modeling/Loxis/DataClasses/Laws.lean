import Loxis.DataClasses.Members

/-! # The laws hold

Equality is an equivalence, and equal instances have one hash code.
-/

namespace Loxis.DataClasses

open Backend (Value TAG_INT TAG_STR TAG_FLOAT TAG_NULL)
open Vm (TAG_HEAP)

namespace DataClass

variable {c : DataClass} {M : Machine} {s t : State} {v w : Value} {o o' o'' : Obj} {p : Property}
  {names : List String} {ty : Ty} {h : Hir} {m : Member}

/-! ## Agreement -/

theorem Instance.agree_refl (hi : c.Instance s v o) (hn : c.NaNFree o) : c.Agree M s o o := by
  intro p hp
  have htag := (hi.typed p hp).tag
  rw [cmp_iff htag htag]
  cases hk : p.kind with
  | double =>
    rw [hk] at htag
    exact feq_refl (hn p hp htag)
  | _ => rfl

theorem Instance.agree_symm (hi : c.Instance s v o) (hi' : c.Instance s w o')
    (ha : c.Agree M s o o') : c.Agree M s o' o := by
  intro p hp
  have heq := (cmp_iff (hi.typed p hp).tag (hi'.typed p hp).tag).mp (ha p hp)
  exact (cmp_iff (hi'.typed p hp).tag (hi.typed p hp).tag).mpr heq.symm

theorem Instance.agree_trans {x : Value} (hi : c.Instance s v o) (hi' : c.Instance s w o')
    (hi'' : c.Instance s x o'') (ha : c.Agree M s o o') (ha' : c.Agree M s o' o'') :
    c.Agree M s o o'' := by
  intro p hp
  have heq := (cmp_iff (hi.typed p hp).tag (hi'.typed p hp).tag).mp (ha p hp)
  have heq' := (cmp_iff (hi'.typed p hp).tag (hi''.typed p hp).tag).mp (ha' p hp)
  exact (cmp_iff (hi.typed p hp).tag (hi''.typed p hp).tag).mpr (heq.trans heq')

theorem Decides.says_iff (hd : c.Decides M m) (hi : c.Instance s v o) (hi' : c.Instance s w o') :
    c.Says M m s v w ↔ c.Agree M s o o' := by
  obtain ⟨b, hrun, hb⟩ := hd s v w o o' hi hi'
  rw [Says, hrun, ← hb]
  cases b <;> simp [boolValue]

/-- A member that decides whether the properties are pairwise equal is an equivalence. -/
theorem Decides.equivalence (hd : c.Decides M m) (s : State) :
    Equivalence fun x y : c.Ordinary s => c.Says M m s x.1 y.1 where
  refl := fun ⟨_, _, hi, hn⟩ => (hd.says_iff hi hi).mpr (hi.agree_refl hn)
  symm := @fun ⟨_, _, hi, _⟩ ⟨_, _, hi', _⟩ hs =>
    (hd.says_iff hi' hi).mpr (hi.agree_symm hi' ((hd.says_iff hi hi').mp hs))
  trans := @fun ⟨_, _, hi, _⟩ ⟨_, _, hi', _⟩ ⟨_, _, hi'', _⟩ hs hs' =>
    (hd.says_iff hi hi'').mpr (hi.agree_trans hi' hi'' ((hd.says_iff hi hi').mp hs)
      ((hd.says_iff hi' hi'').mp hs'))

/-! ## Hash codes -/

/-- The number for a property with a value. -/
def hashNumber (M : Machine) (s : State) (k : Kind) (a : Value) : BitVec 64 :=
  match k with
  | .str => (s.text a).length
  | .char => (a.val.setWidth 8).setWidth 64
  | .bool => if a.val = 1 then 1 else 0
  | .double => M.ftoi a.val
  | .int => a.val

theorem hashNumber_congr {k : Kind} {a b : Value} (hab : EqualAs s k a b) :
    hashNumber M s k a = hashNumber M s k b := by
  cases k with
  | str => exact congrArg (fun x : Bytes => (x.length : BitVec 64)) hab
  | char => exact congrArg (fun x : BitVec 64 => (x.setWidth 8).setWidth 64) hab
  | bool => exact congrArg (fun x : BitVec 64 => if x = 1 then (1 : BitVec 64) else 0) hab
  | double =>
    obtain ⟨-, -, hval | ⟨hza, hzb⟩⟩ := isNaN_of_feq hab
    · exact congrArg M.ftoi hval
    · exact M.ftoi_zero _ _ hza hzb
  | int => exact hab

/-- The table of strings has grown, by `n` strings at most. -/
structure Grows (s t : State) (n : ℕ) : Prop where
  objects : t.objects = s.objects
  strings : s.strings <+: t.strings
  length : t.strings.length ≤ s.strings.length + n

variable {n n' : ℕ}

theorem Grows.refl (s : State) (n : ℕ) : Grows s s n :=
  ⟨rfl, List.prefix_rfl, Nat.le_add_right _ _⟩

theorem Grows.trans {u : State} (hg : Grows s t n) (hg' : Grows t u n') : Grows s u (n + n') where
  objects := hg'.objects.trans hg.objects
  strings := hg.strings.trans hg'.strings
  length := by
    have := hg.length
    have := hg'.length
    omega

theorem Grows.intern (s : State) (b : Bytes) : Grows s (s.intern b).2 1 :=
  ⟨rfl, List.prefix_append .., by simp [State.intern]⟩

theorem Grows.text (hg : Grows s t n) {a : Value} (ha : a.val.toNat < s.strings.length) :
    t.text a = s.text a := by
  obtain ⟨l, hl⟩ := hg.strings
  rw [State.text, State.text, ← hl, List.getElem?_append_left ha]

theorem Grows.load (hg : Grows s t n) (a : Value) (k : ℕ) : t.load a k = s.load a k := by
  rw [State.load, State.load, hg.objects]

theorem Grows.hashNumber (hg : Grows s t n) {k : Kind} {a : Value} (ha : HasKind s k a) :
    hashNumber M t k a = hashNumber M s k a := by
  cases k with
  | str => exact congrArg (fun x : Bytes => (x.length : BitVec 64)) (hg.text (ha.inTable rfl))
  | _ => rfl

theorem text_intern {b : Bytes} (hs : s.strings.length < 2 ^ 32) :
    (s.intern b).2.text (s.intern b).1 = b := by
  have hlt : s.strings.length < 18446744073709551616 := by omega
  simp [State.intern, State.text, Nat.mod_eq_of_lt hlt]

/-- The number for a value whose type is written by its own name. -/
def hashOf (k : Kind) (value : Expr) : Expr :=
  match k with
  | .str => .call "strlen" [value]
  | .char => .call "strchar" [.call "chr" [value], .lit (.int 0)]
  | .bool => .ite value (.lit (.int 1)) (.lit (.int 0))
  | .double => .call "ftoi" [value]
  | .int => value

theorem hashValue_known (hp : p.written = none) : hashValue p = hashOf p.kind (.path p.name) := by
  have hname : p.typeName = p.kind.name := by rw [Property.typeName, hp]; rfl
  cases hk : p.kind <;> simp [hashValue, hashOf, hname, hk, Kind.name]

theorem hashValue_other {a : String} (hp : p.written = some a) :
    hashValue p = .path p.name := by
  have hname : p.typeName = a := by rw [Property.typeName, hp]; rfl
  have ha := p.fresh a hp
  simp only [builtinTypes, List.mem_cons, List.not_mem_nil, not_or, or_false] at ha
  simp [hashValue, hname, ha]

/-- The intrinsics of hash codes give numbers. -/
theorem intrinsicType_int {f : String} (hf : f = "strlen" ∨ f = "strchar" ∨ f = "ftoi")
    {ts : List Ty} (ht : intrinsicType f ts = .ok ty) : ty = .prim .int := by
  have hlookup : ∀ g ∈ ["strlen", "strchar", "ftoi"],
      natives.lookup g = none ∧ g ∉ printing ∧ g ∈ intIntrinsics := by decide
  obtain ⟨hnone, hprint, hint⟩ := hlookup f (by simpa using hf)
  simp only [intrinsicType, hnone, if_neg hprint, if_pos hint] at ht
  cases ht
  rfl

variable {ρ : String → Value} {nested : Bool}

theorem eval_self {k : ℕ} {a : Value} (hself : ρ "self" = v) (hload : t.load v k = some a) :
    c.eval M ρ (.self_ k) t = some (a, t) := by
  rw [eval, hself, hload, Option.map_some]

theorem eval_hashOf {k : Kind} {a : Value} (hp : p ∈ c.properties) (hk : p.kind = k)
    (hc : c.check names [] nested (hashOf k (.path p.name)) = .ok (ty, h))
    (hty : ty.numeric = true) (hself : ρ "self" = v) (hload : t.load v (c.slot p.name) = some a)
    (ha : a.tag = Kind.tag k) (hroom : t.strings.length < 2 ^ 32) :
    ty = .prim .int ∧
      ∃ u, c.eval M ρ h t = some (⟨hashNumber M t k a, TAG_INT⟩, u) ∧ Grows t u 1 := by
  have hread := eval_self (c := c) (M := M) hself hload
  have hmem : "strlen" ∈ intrinsics ∧ "strchar" ∈ intrinsics ∧ "chr" ∈ intrinsics ∧
      "ftoi" ∈ intrinsics := by decide
  cases k with
  | str =>
    obtain ⟨t', he, hce, ht, rfl⟩ := check_call₁ hmem.1 hc
    obtain ⟨rfl, -⟩ := check_property hp hce
    refine ⟨intrinsicType_int (.inl rfl) ht, t, ?_, .refl t 1⟩
    have htag : a.tag = TAG_STR := ha
    simp only [eval, evalAll, hself, hload, Option.map_some, Option.bind_some, Machine.call,
      htag, if_pos]
    rfl
  | char =>
    obtain ⟨ts, hs, hcs, ht, rfl⟩ := check_intrinsic hmem.2.1 hc
    obtain ⟨t₁, h₁, ts', hs', hc₁, hcs', rfl, rfl⟩ := checkAll_cons hcs
    obtain ⟨t₂, h₂, ts'', hs'', hc₂, hcs'', rfl, rfl⟩ := checkAll_cons hcs'
    obtain ⟨rfl, rfl⟩ := checkAll_nil hcs''
    obtain ⟨t₃, h₃, hc₃, -, rfl⟩ := check_call₁ hmem.2.2.1 hc₁
    obtain ⟨rfl, -⟩ := check_property hp hc₃
    obtain ⟨-, rfl⟩ := check_lit hc₂
    refine ⟨intrinsicType_int (.inr (.inl rfl)) ht, (t.intern [a.val.setWidth 8]).2, ?_,
      .intern t _⟩
    simp only [eval, evalAll, hself, hload, Option.map_some, Option.bind_some, Machine.call,
      litValue, text_intern hroom]
    rfl
  | bool =>
    obtain ⟨h₁, h₂, h₃, hc₁, hc₂, hc₃, rfl⟩ := check_ite hc
    obtain ⟨rfl, -⟩ := check_property hp hc₁
    obtain ⟨rfl, rfl⟩ := check_lit hc₂
    obtain ⟨-, rfl⟩ := check_lit hc₃
    refine ⟨rfl, t, ?_, .refl t 1⟩
    have hbool : M.cmp t a (boolValue true) = true ↔ a.val = 1 :=
      cmp_iff (k := .bool) ha rfl
    simp only [eval, hself, hload, Option.map_some, Option.bind_some, hbool, litValue,
      hashNumber]
    split_ifs <;> rfl
  | double =>
    obtain ⟨t', he, hce, ht, rfl⟩ := check_call₁ hmem.2.2.2 hc
    obtain ⟨rfl, -⟩ := check_property hp hce
    refine ⟨intrinsicType_int (.inr (.inr rfl)) ht, t, ?_, .refl t 1⟩
    simp only [eval, evalAll, hself, hload, Option.map_some, Option.bind_some, Machine.call]
    rfl
  | int =>
    obtain ⟨rfl, rfl | rfl⟩ := check_property hp hc
    · cases hty
    · rw [hk]
      refine ⟨rfl, t, ?_, .refl t 1⟩
      rw [hread]
      have heta : a = ⟨a.val, TAG_INT⟩ := by
        cases a
        exact congrArg _ ha
      rw [heta]
      rfl

/-- A property of the hash code, read from an instance. -/
theorem eval_hashValue (hp : p ∈ c.properties) (hw : p.kind = .double → p.written = none)
    (hc : c.check names [] nested (hashValue p) = .ok (ty, h)) (hty : ty.numeric = true)
    (hself : ρ "self" = v) (hi : c.Instance s v o) (hg : Grows s t n)
    (hroom : t.strings.length < 2 ^ 32) :
    ty = .prim .int ∧
      ∃ u, c.eval M ρ h t = some (⟨hashNumber M s p.kind (c.value o p), TAG_INT⟩, u) ∧
        Grows t u 1 := by
  have hload : t.load v (c.slot p.name) = some (c.value o p) :=
    (hg.load _ _).trans (hi.load (mem_fieldNames hp))
  have hkind := hi.typed p hp
  rw [← hg.hashNumber (M := M) hkind]
  cases hwritten : p.written with
  | none =>
    rw [hashValue_known hwritten] at hc
    exact eval_hashOf hp rfl hc hty hself hload hkind.tag hroom
  | some a =>
    -- by another name a property is added as it is, so it is a number, and no double
    rw [hashValue_other hwritten] at hc
    have hint : p.kind = .int := by
      obtain ⟨-, rfl | rfl⟩ := check_property hp hc
      · cases hty
      · cases hk : p.kind with
        | int => rfl
        | double => rw [hw hk] at hwritten; cases hwritten
        | _ => rw [hk] at hty; cases hty
    rw [hint] at hkind ⊢
    exact eval_hashOf (k := .int) hp hint hc hty hself hload hkind.tag hroom

/-- The hash code of an object. -/
def hashSum (c : DataClass) (M : Machine) (s : State) (o : Obj) (ps : List Property) : BitVec 64 :=
  ps.foldl (fun n p => n * 31 + hashNumber M s p.kind (c.value o p)) 1

theorem hashBody_append (ps : List Property) (p : Property) :
    hashBody (ps ++ [p]) = .add (.mul (hashBody ps) (.lit (.int 31))) (hashValue p) := by
  rw [hashBody, List.foldl_append]
  rfl

theorem promoted_ne_str (t₁ t₂ : Ty) : promoted t₁ t₂ ≠ .str := by
  rw [promoted]
  split_ifs <;> decide

theorem add_int (s : State) (a b : BitVec 64) :
    M.add .int s ⟨a, TAG_INT⟩ ⟨b, TAG_INT⟩ = (⟨a + b, TAG_INT⟩, s) := rfl

theorem mul_int (s : State) (a b : BitVec 64) :
    M.mul .int s ⟨a, TAG_INT⟩ ⟨b, TAG_INT⟩ = (⟨a * b, TAG_INT⟩, s) := rfl

theorem eval_hashBody {ps : List Property} (hps : ∀ p ∈ ps, p ∈ c.properties)
    (hw : ∀ p ∈ ps, p.kind = .double → p.written = none)
    (hc : c.check names [] nested (hashBody ps) = .ok (ty, h)) (hself : ρ "self" = v)
    (hi : c.Instance s v o) (hroom : s.strings.length + ps.length < 2 ^ 32) :
    ty = .prim .int ∧
      ∃ u, c.eval M ρ h s = some (⟨hashSum c M s o ps, TAG_INT⟩, u) ∧ Grows s u ps.length := by
  induction ps using List.reverseRecOn generalizing ty h with
  | nil =>
    obtain ⟨rfl, rfl⟩ := check_lit hc
    exact ⟨rfl, s, rfl, .refl s 0⟩
  | append_singleton ps p ih =>
    rw [hashBody_append] at hc
    rw [List.length_append, List.length_singleton, ← Nat.add_assoc] at hroom
    obtain ⟨t₁, t₂, h₁, h₂, hc₁, hc₂, hadd⟩ := check_add hc
    obtain ⟨t₃, t₄, h₃, h₄, hc₃, hc₄, -, -, rfl, rfl⟩ := check_mul hc₁
    obtain ⟨rfl, rfl⟩ := check_lit hc₄
    obtain ⟨rfl, u, heval, hg⟩ := ih (fun q hq => hps q (List.mem_append_left _ hq))
      (fun q hq => hw q (List.mem_append_left _ hq)) hc₃ (by omega)
    have hp : p ∈ ps ++ [p] := List.mem_append_right _ List.mem_cons_self
    rcases hadd with hstr | ⟨-, hnum, rfl, rfl⟩
    · exact absurd (Ty.prim.inj hstr) (promoted_ne_str _ _)
    · have hlen := hg.length
      obtain ⟨rfl, u', heval', hg'⟩ := eval_hashValue (M := M) (hps p hp) (hw p hp) hc₂ hnum hself
        hi hg (by omega)
      refine ⟨rfl, u', ?_, by simpa using hg.trans hg'⟩
      have hsum : hashSum c M s o (ps ++ [p]) =
          hashSum c M s o ps * 31 + hashNumber M s p.kind (c.value o p) := by
        rw [hashSum, List.foldl_append]
        rfl
      have hmul : promoted (.prim .int) (litType (.int 31)) = .int := rfl
      have hsome : promoted (.prim .int) (.prim .int) = .int := rfl
      rw [hsum]
      simp only [hmul, hsome, eval, heval, litValue, mul_int, heval', add_int, Option.bind_some,
        Option.map_some]
      rfl

theorem hashSum_congr (hi : c.Instance s v o) (hi' : c.Instance s w o')
    (ha : c.Agree M s o o') {ps : List Property} (hps : ∀ p ∈ ps, p ∈ c.properties) :
    hashSum c M s o ps = hashSum c M s o' ps := by
  induction ps using List.reverseRecOn with
  | nil => rfl
  | append_singleton ps p ih =>
    have hp := hps p (List.mem_append_right _ List.mem_cons_self)
    have heq := (cmp_iff (hi.typed p hp).tag (hi'.typed p hp).tag).mp (ha p hp)
    rw [hashSum, hashSum, List.foldl_append, List.foldl_append]
    exact congrArg₂ (fun a b => a * 31 + b) (ih fun q hq => hps q (List.mem_append_left _ hq))
      (hashNumber_congr heq)

end DataClass

end Loxis.DataClasses
