import Loxis.Globals.Order

/-! # When globals are initialised in order

The initialisers of the startup code are those of the declarations exactly when the declarations are
ordered, and the startup code runs as intended exactly when its initialisers are those.
-/

namespace Loxis.Globals

open Mono (Ident)
open Backend (Value)

variable {E W : Type} {C : Code E} {d : Decl E} {ds : List (Decl E)} {n : ℕ}
  {f : Ident → Option ℕ} {find : String → Option (E × ℕ)}

section Compare

/-- What an initialiser of the startup code stands for. -/
def target (find : String → Option (E × ℕ)) (p : String × ℕ) : Option (E × ℕ) × ℕ := (find p.1, p.2)

def intended (g : E × ℕ) : Option (E × ℕ) × ℕ := (some (g.1, 0), g.2)

/-- No object has a slot before its number. -/
def Above (f : Ident → Option ℕ) (n : ℕ) (ds : List (Decl E)) : Prop :=
  ∀ xs ys name ctor methods, ds = xs ++ .object name ctor methods :: ys →
    ∀ s, f name = some s → numberOf n xs ≤ s

/-- The objects come first and have their numbers as slots, and the labels of variables stand for
their initialisers. -/
structure InPlace (find : String → Option (E × ℕ)) (f : Ident → Option ℕ) (n : ℕ)
    (ds : List (Decl E)) : Prop where
  objectsFirst : ∀ xs ys name e, ds = xs ++ .var name (some e) :: ys →
    ∀ name' ctor methods, .object name' ctor methods ∉ ys
  objects : ∀ xs ys name ctor methods, ds = xs ++ .object name ctor methods :: ys →
    f name = some (numberOf n xs)
  vars : ∀ xs ys name e, ds = xs ++ .var name (some e) :: ys →
    find ("__var_" ++ name.text) = some (e, 0)

theorem Above.tail (h : Above f n (d :: ds)) : Above f (d.next n) ds := by
  intro xs ys name ctor methods hds s hs
  have hle := h (d :: xs) ys name ctor methods (by rw [hds, List.cons_append]) s hs
  rwa [numberOf_cons] at hle

theorem InPlace.tail (h : InPlace find f n (d :: ds)) : InPlace find f (d.next n) ds where
  objectsFirst xs ys name e hds :=
    h.objectsFirst (d :: xs) ys name e (by rw [hds, List.cons_append])
  objects xs ys name ctor methods hds := by
    rw [← numberOf_cons]
    exact h.objects (d :: xs) ys name ctor methods (by rw [hds, List.cons_append])
  vars xs ys name e hds := h.vars (d :: xs) ys name e (by rw [hds, List.cons_append])

theorem InPlace.cons (h : InPlace find f (d.next n) ds)
    (hobj : ∀ name ctor methods, d = .object name ctor methods → f name = some n)
    (hvar : ∀ name e, d = .var name (some e) → find ("__var_" ++ name.text) = some (e, 0) ∧
      ∀ name' ctor methods, .object name' ctor methods ∉ ds) : InPlace find f n (d :: ds) where
  objectsFirst xs ys name e hds := by
    rcases List.cons_eq_append_iff.mp hds with ⟨rfl, h'⟩ | ⟨zs, rfl, h'⟩
    · obtain ⟨rfl, rfl⟩ := List.cons.inj h'
      exact (hvar name e rfl).2
    · exact h.objectsFirst zs ys name e h'
  objects xs ys name ctor methods hds := by
    rcases List.cons_eq_append_iff.mp hds with ⟨rfl, h'⟩ | ⟨zs, rfl, h'⟩
    · obtain ⟨rfl, rfl⟩ := List.cons.inj h'
      exact hobj name ctor methods rfl
    · rw [numberOf_cons]
      exact h.objects zs ys name ctor methods h'
  vars xs ys name e hds := by
    rcases List.cons_eq_append_iff.mp hds with ⟨rfl, h'⟩ | ⟨zs, rfl, h'⟩
    · obtain ⟨rfl, rfl⟩ := List.cons.inj h'
      exact (hvar name e rfl).1
    · exact h.vars zs ys name e h'

theorem le_next : n ≤ d.next n := Nat.le_add_right _ _

/-- All slots are at least the first number. -/
theorem le_slot (ha : Above f n ds) : ∀ p ∈ objectInits f ds ++ varInits n ds, n ≤ p.2 := by
  induction ds generalizing n with
  | nil => exact fun p hp => absurd hp List.not_mem_nil
  | cons d ds ih =>
    have htail := ih ha.tail
    intro p hp
    rcases List.mem_append.mp hp with hp | hp
    · rw [objectInits, List.flatMap_cons] at hp
      rcases List.mem_append.mp hp with hp | hp
      · cases d with
        | object name ctor methods =>
          obtain ⟨s, hs, rfl⟩ := Option.map_eq_some_iff.mp (Option.mem_toList.mp hp)
          exact ha [] ds name ctor methods rfl s hs
        | function | cls | enum | iface | val | var | const | typeAlias => cases hp
      · exact le_next.trans (htail p (List.mem_append_left _ hp))
    · rw [varInits] at hp
      rcases List.mem_append.mp hp with hp | hp
      · cases d with
        | var name init =>
          cases init with
          | none => cases hp
          | some e =>
            obtain rfl := List.mem_singleton.mp hp
            exact Nat.le_refl _
        | function | cls | enum | iface | val | object | const | typeAlias => cases hp
      · exact le_next.trans (htail p (List.mem_append_right _ hp))

theorem not_object_of_objectInits (h : InPlace find f n ds) (hnil : objectInits f ds = []) :
    ∀ name ctor methods, .object name ctor methods ∉ ds := by
  intro name ctor methods hmem
  obtain ⟨xs, ys, hds⟩ := List.append_of_mem hmem
  have hslot := h.objects xs ys name ctor methods hds
  have hinit := (List.flatMap_eq_nil_iff.mp hnil) _ hmem
  rw [Decl.objectInit, hslot] at hinit
  cases hinit

/-- The initialisers are those of the declarations only if the declarations are in place. -/
theorem inPlace_of_eq (ha : Above f n ds)
    (h : (objectInits f ds ++ varInits n ds).map (target find) = (globals n ds).map intended) :
    InPlace find f n ds := by
  induction ds generalizing n with
  | nil => exact ⟨fun xs => by simp, fun xs => by simp, fun xs => by simp⟩
  | cons d ds ih =>
    have hle := le_slot ha.tail
    cases d with
    | object name ctor methods =>
      have hglobals : globals n (.object name ctor methods :: ds) =
          (ctor, n) :: globals (n + 1) ds := rfl
      rw [hglobals, List.map_cons, objectInits, List.flatMap_cons, ← objectInits,
        Decl.objectInit, List.append_assoc] at h
      cases hf : f name with
      | none =>
        rw [hf] at h
        obtain ⟨p, ps, hp, hhead, -⟩ := List.map_eq_cons_iff.mp h
        have hlt : n + 1 ≤ p.2 := hle p (hp ▸ List.mem_cons_self)
        exact absurd (congrArg Prod.snd hhead) (Nat.ne_of_gt hlt)
      | some s =>
        rw [hf] at h
        obtain ⟨hhead, htail⟩ := List.cons.inj h
        refine (ih ha.tail htail).cons ?_ (by rintro _ _ ⟨⟩)
        rintro name' ctor' methods' ⟨⟩
        rw [hf]
        exact congrArg some (congrArg Prod.snd hhead)
    | var name init =>
      cases init with
      | none => exact (ih ha.tail h).cons (by rintro _ _ _ ⟨⟩) (by rintro _ _ ⟨⟩)
      | some e =>
        have hglobals : globals n (.var name (some e) :: ds) = (e, n) :: globals (n + 1) ds := rfl
        have hvars : varInits n (.var name (some e) :: ds) =
            ("__var_" ++ name.text, n) :: varInits (n + 1) ds := rfl
        have hobjects : objectInits f (.var name (some e) :: ds) = objectInits f ds := rfl
        rw [hglobals, hvars, hobjects, List.map_cons] at h
        cases ho : objectInits f ds with
        | nil =>
          rw [ho] at h
          obtain ⟨hhead, htail⟩ := List.cons.inj h
          have hds := ih ha.tail (n := n + 1) (by rw [ho]; exact htail)
          refine hds.cons (by rintro _ _ _ ⟨⟩) ?_
          rintro name' e' ⟨⟩
          exact ⟨congrArg Prod.fst hhead, not_object_of_objectInits hds ho⟩
        | cons p ps =>
          rw [ho] at h
          obtain ⟨hhead, -⟩ := List.cons.inj h
          have hlt : n + 1 ≤ p.2 := hle p (by rw [ho]; simp)
          exact absurd (congrArg Prod.snd hhead) (Nat.ne_of_gt hlt)
    | function | cls | enum | iface | val | const | typeAlias =>
      exact (ih ha.tail h).cons (by rintro _ _ _ ⟨⟩) (by rintro _ _ ⟨⟩)

theorem objectInits_of_not_object (h : ∀ name ctor methods, .object name ctor methods ∉ ds) :
    objectInits f ds = [] := by
  rw [objectInits, List.flatMap_eq_nil_iff]
  intro d hd
  cases d with
  | object name ctor methods => exact absurd hd (h name ctor methods)
  | function | cls | enum | iface | val | var | const | typeAlias => rfl

theorem eq_of_inPlace (h : InPlace find f n ds)
    (hctor : ∀ name ctor methods, .object name ctor methods ∈ ds →
      find (name.text ++ ".init") = some (ctor, 0)) :
    (objectInits f ds ++ varInits n ds).map (target find) = (globals n ds).map intended := by
  induction ds generalizing n with
  | nil => rfl
  | cons d ds ih =>
    have htail := ih h.tail fun name ctor methods hmem =>
      hctor name ctor methods (List.mem_cons_of_mem _ hmem)
    cases d with
    | object name ctor methods =>
      have hslot := h.objects [] ds name ctor methods rfl
      rw [objectInits, List.flatMap_cons, ← objectInits, Decl.objectInit, hslot]
      refine congrArg₂ List.cons ?_ htail
      exact Prod.ext (hctor name ctor methods List.mem_cons_self) rfl
    | var name init =>
      cases init with
      | none => exact htail
      | some e =>
        have hnil : objectInits f ds = [] :=
          objectInits_of_not_object (h.objectsFirst [] ds name e rfl)
        have hcons : objectInits f (.var name (some e) :: ds) = objectInits f ds := rfl
        rw [hnil] at htail
        rw [hcons, hnil]
        refine congrArg₂ List.cons ?_ htail
        exact Prod.ext (h.vars [] ds name e rfl) rfl
    | function | cls | enum | iface | val | const | typeAlias => exact htail

end Compare

section Run

variable {M : Machine E W} {s : State W} {v : Value} {inits : List (String × ℕ)}
  {gs : List (E × ℕ)}

theorem slotOf_ofNat {k : ℕ} (h : k < slotCount) : slotOf (BitVec.ofNat 64 k) = k := by
  unfold slotCount at h
  rw [slotOf, BitVec.toNat_ofNat]
  omega

/-- What the startup code of one more initialiser does. -/
theorem execEntry_cons (l : String) (k : ℕ) (hl : l ≠ "main") (hk : k < slotCount) :
    execEntry find M (Bytecode.entry ((l, k) :: inits)) v s = match find l with
      | none => ⟨[], none⟩
      | some t => (match M t s with
        | none => ⟨[], none⟩
        | some (u, s') => (execEntry find M (Bytecode.entry inits) u
          { s' with globals := Function.update s'.globals k u }).after (.stored k u) :
            Result E W).after (.ran t) := by
  have hentry : Bytecode.entry ((l, k) :: inits) =
      .ins ⟨.call, [.addr (.func l)]⟩ :: .ins ⟨.gStore, [.imm (BitVec.ofNat 64 k), .reg 0]⟩ ::
        Bytecode.entry inits := rfl
  rw [hentry, execEntry, if_neg hl]
  cases find l with
  | none => rfl
  | some t =>
    dsimp only
    cases M t s with
    | none => rfl
    | some r =>
      dsimp only
      rw [execEntry, slotOf_ofNat hk, if_neg (Nat.not_le.mpr hk)]

/-- With the intended initialisers the startup code runs as intended. -/
theorem execEntry_eq (hmain : ∀ p ∈ inits, p.1 ≠ "main" ∧ p.2 < slotCount)
    (h : inits.map (target find) = gs.map intended) :
    execEntry find M (Bytecode.entry inits) v s = runInitializers M gs s := by
  induction inits generalizing gs v s with
  | nil =>
    obtain rfl := List.map_eq_nil_iff.mp h.symm
    rfl
  | cons p inits ih =>
    obtain ⟨⟨e, k⟩, gs, rfl, hhead, htail⟩ := List.map_eq_cons_iff.mp h.symm
    have hfind : find p.1 = some (e, 0) := (congrArg Prod.fst hhead).symm
    have hslot : p.2 = k := (congrArg Prod.snd hhead).symm
    obtain ⟨hl, hk⟩ := hmain p List.mem_cons_self
    rw [show p = (p.1, p.2) from rfl, execEntry_cons _ _ hl hk, hfind, hslot, runInitializers]
    dsimp only
    cases M (e, 0) s with
    | none => rfl
    | some r =>
      dsimp only
      rw [ih (fun q hq => hmain q (List.mem_cons_of_mem _ hq)) htail.symm]

/-- A machine on which everything returns. -/
def returning : Machine E Unit := fun _ s => some (⟨0, 0⟩, s)

theorem after_inj {e e' : Event E} {r r' : Result E W} (h : r.after e = r'.after e') :
    e = e' ∧ r = r' := by
  obtain ⟨trace, final⟩ := r
  obtain ⟨trace', final'⟩ := r'
  obtain ⟨htrace, rfl⟩ := Result.mk.inj h
  obtain ⟨rfl, rfl⟩ := List.cons.inj htrace
  exact ⟨rfl, rfl⟩

/-- The startup code runs as intended only with the intended initialisers. -/
theorem eq_of_execEntry {s : State Unit} (hmain : ∀ p ∈ inits, p.1 ≠ "main" ∧ p.2 < slotCount)
    (h : execEntry find returning (Bytecode.entry inits) v s = runInitializers returning gs s) :
    inits.map (target find) = gs.map intended := by
  induction inits generalizing gs v s with
  | nil =>
    cases gs with
    | nil => rfl
    | cons g gs => cases congrArg Result.trace h
  | cons p inits ih =>
    obtain ⟨hl, hk⟩ := hmain p List.mem_cons_self
    rw [show p = (p.1, p.2) from rfl, execEntry_cons _ _ hl hk] at h
    cases hf : find p.1 with
    | none =>
      rw [hf] at h
      cases gs with
      | nil => cases congrArg Result.final h
      | cons g gs => cases congrArg Result.trace h
    | some t =>
      rw [hf] at h
      cases gs with
      | nil => cases congrArg Result.trace h
      | cons g gs =>
        obtain ⟨hran, h⟩ := after_inj h
        obtain ⟨hstored, h⟩ := after_inj h
        obtain ⟨hslot, -⟩ := Event.stored.inj hstored
        rw [hslot] at h
        have htail := ih (fun q hq => hmain q (List.mem_cons_of_mem _ hq)) h
        refine congrArg₂ List.cons (Prod.ext ?_ hslot) htail
        exact hf.trans (congrArg some (Event.ran.inj hran))

end Run

section Main

variable {xs ys : List (Decl E)} {name : Ident} {e ctor : E} {methods : List (Method E)}

theorem numbered_fst (b : ScopeBuilder) (n : ℕ) (ds : List (Decl E)) :
    ((numbered n ds).map (resolveItem b)).map Prod.fst = ds := by
  induction ds generalizing n with
  | nil => rfl
  | cons d ds ih =>
    rw [numbered, List.map_cons, List.map_cons, ih]
    cases d <;> rfl

theorem labels_eq (C : Code E) (ds : List (Decl E)) :
    (compile C ds).labels C = labelsIn C (copyItems C.copies 0 (build C.lambdas (buildScope ds))) :=
  rfl

/-- What the label of a variable's initialiser stands for. -/
theorem find_var (hds : ds = xs ++ .var name (some e) :: ys) :
    getLabel ((compile C ds).labels C) ("__var_" ++ name.text) =
      some ((getLabel (varLabels C ys) ("__var_" ++ name.text)).getD (e, 0)) := by
  rw [labels_eq, getLabel_copyItems (var_noDollar name), build, List.flatMap_append,
    labelsIn_append, getLabel_append, getLabel_generated, buildScope_eq, numbered_fst,
    getLabel_var hds, Option.some_or]

theorem takes_of_keeps {c : Bool} (h : Keeps name c ys) : ∀ d ∈ ys, d.takes name = false := by
  induction ys generalizing c with
  | nil => simp
  | cons y ys ih =>
    intro d hd
    rcases List.mem_cons.mp hd with rfl | hd
    · exact h.1
    · exact ih h.2 d hd

/-- What the label of the constructor of an object stands for that keeps its name. -/
theorem find_object (hds : ds = xs ++ .object name ctor methods :: ys) (h : Keeps name true ys) :
    getLabel ((compile C ds).labels C) (name.text ++ ".init") = some (ctor, 0) := by
  rw [labels_eq, getLabel_copyItems (init_noDollar name), build, List.flatMap_append,
    labelsIn_append, getLabel_append, getLabel_generated_init, Option.none_or]
  have hfst : (buildScope ds).map Prod.fst = xs ++ .object name ctor methods :: ys := by
    rw [buildScope_eq, numbered_fst, hds]
  obtain ⟨ps, qs, hsplit, -, hqs⟩ := List.map_eq_append_iff.mp hfst
  obtain ⟨⟨d, slot⟩, qs, rfl, rfl, rfl⟩ := List.map_eq_cons_iff.mp hqs
  rw [hsplit, List.filterMap_append, List.flatMap_append, labelsIn_append, getLabel_append,
    getLabel_object fun p hp => takes_of_keeps h p.1 (List.mem_map_of_mem hp), Option.some_or]

theorem varInits_lt : ∀ p ∈ varInits n ds, p.1 ≠ "main" ∧ p.2 < numberOf n ds := by
  induction ds generalizing n with
  | nil => exact fun p hp => absurd hp List.not_mem_nil
  | cons d ds ih =>
    intro p hp
    rw [varInits] at hp
    rw [numberOf_cons]
    rcases List.mem_append.mp hp with hp | hp
    · cases d with
      | var name init =>
        cases init with
        | none => cases hp
        | some e =>
          obtain rfl := List.mem_singleton.mp hp
          refine ⟨fun h => ?_, Nat.le_add_right _ _⟩
          have hl := congrArg String.toList h
          rw [toList_var] at hl
          cases hl
      | function | cls | enum | iface | val | object | const | typeAlias => cases hp
    · exact ih p hp

theorem objectInits_lt : ∀ p ∈ objectInits (slots ds) ds,
    p.1 ≠ "main" ∧ p.2 < ds.countP Decl.isGlobal := by
  intro p hp
  obtain ⟨d, -, hp⟩ := List.mem_flatMap.mp hp
  cases d with
  | object name ctor methods =>
    obtain ⟨s, hs, rfl⟩ := Option.map_eq_some_iff.mp (Option.mem_toList.mp hp)
    refine ⟨?_, slots_lt hs⟩
    exact (ne_init_of_noDot name.text (by decide)).symm
  | function | cls | enum | iface | val | var | const | typeAlias => cases hp

theorem initializers_lt (hfits : ds.countP Decl.isGlobal ≤ slotCount) :
    ∀ p ∈ (compile C ds).globalInitializers, p.1 ≠ "main" ∧ p.2 < slotCount := by
  rw [initializers_eq]
  intro p hp
  rcases List.mem_append.mp hp with hp | hp
  · exact (objectInits_lt p hp).imp_right fun h => h.trans_le hfits
  · refine (varInits_lt p hp).imp_right fun h => h.trans_le ?_
    rw [numberOf, Nat.zero_add]
    exact hfits

/-- The slots grow when each object has its number as its slot. -/
theorem slots_sorted (b : ScopeBuilder) (h : ∀ xs ys name ctor methods,
    ds = xs ++ .object name ctor methods :: ys → objectSlot b name = some (numberOf n xs)) :
    (∀ s ∈ ((numbered n ds).map (resolveItem b)).filterMap Prod.snd, n ≤ s) ∧
      (((numbered n ds).map (resolveItem b)).filterMap Prod.snd).Pairwise (· < ·) := by
  induction ds generalizing n with
  | nil => exact ⟨by simp [numbered], List.Pairwise.nil⟩
  | cons d ds ih =>
    obtain ⟨hle, hsorted⟩ := ih (n := d.next n) fun xs ys name ctor methods hds => by
      rw [← numberOf_cons]
      exact h (d :: xs) ys name ctor methods (by rw [hds, List.cons_append])
    have hskip : ∀ s ∈ ((numbered (d.next n) ds).map (resolveItem b)).filterMap Prod.snd, n ≤ s :=
      fun s hs => le_next.trans (hle s hs)
    rw [numbered, List.map_cons]
    cases d with
    | object name ctor methods =>
      have hslot := h [] ds name ctor methods rfl
      rw [List.filterMap_cons_some (f := Prod.snd) (b := n) hslot]
      exact ⟨List.forall_mem_cons.mpr ⟨Nat.le_refl n, hskip⟩, hsorted.cons hle⟩
    | var name init =>
      rw [List.filterMap_cons_some (f := Prod.snd) (b := n) rfl]
      exact ⟨List.forall_mem_cons.mpr ⟨Nat.le_refl n, hskip⟩, hsorted.cons hle⟩
    | function | cls | enum | iface | val | const | typeAlias => exact ⟨hskip, hsorted⟩

/-- The code of a program and the startup code for it. -/
theorem runs_iff (hfits : ds.countP Decl.isGlobal ≤ slotCount) :
    (∀ (W : Type) (M : Machine E W) (s : State W) (v : Value),
      execEntry (getLabel ((compile C ds).labels C)) M (compile C ds).entry v s =
        runInitializers M (globals 0 ds) s) ↔
      (compile C ds).globalInitializers.map (target (getLabel ((compile C ds).labels C))) =
        (globals 0 ds).map intended := by
  constructor
  · intro h
    exact eq_of_execEntry (initializers_lt hfits) (h Unit returning ⟨fun _ => ⟨0, 0⟩, ()⟩ ⟨0, 0⟩)
  · intro h W M s v
    exact execEntry_eq (initializers_lt hfits) h

theorem inPlace_iff : InPlace (getLabel ((compile C ds).labels C)) (slots ds) 0 ds ↔
    (∀ xs ys name e, ds = xs ++ .var name (some e) :: ys →
      ∀ name' ctor methods, .object name' ctor methods ∉ ys) ∧
    (∀ xs ys name ctor methods, ds = xs ++ .object name ctor methods :: ys →
      Keeps name true ys) ∧
    ∀ xs ys name e, ds = xs ++ .var name (some e) :: ys →
      ∀ t, getLabel (varLabels C ys) ("__var_" ++ name.text) = some t → t = (e, 0) := by
  constructor
  · intro h
    refine ⟨h.objectsFirst, fun xs ys name ctor methods hds => ?_, fun xs ys name e hds t ht => ?_⟩
    · exact (slots_object_iff hds).mp (h.objects xs ys name ctor methods hds)
    · have hfind := h.vars xs ys name e hds
      rw [find_var hds, ht] at hfind
      exact Option.some.inj hfind
  · rintro ⟨hfirst, hobjects, hvars⟩
    refine ⟨hfirst, fun xs ys name ctor methods hds => ?_, fun xs ys name e hds => ?_⟩
    · exact (slots_object_iff hds).mpr (hobjects xs ys name ctor methods hds)
    · rw [find_var hds]
      cases ht : getLabel (varLabels C ys) ("__var_" ++ name.text) with
      | none => rfl
      | some t => exact congrArg some (hvars xs ys name e hds t ht)

end Main

section Reordered

/-- No closures, no generic items, one block. -/
def plain : Code ℕ := ⟨fun _ => [], ⟨fun _ => [], HirClass.methods⟩, fun _ => 1⟩

/-- A variable and then an object. -/
def varThenObject : List (Decl ℕ) :=
  [.var ⟨"x", by decide, by decide⟩ (some 5), .object ⟨"O", by decide, by decide⟩ 7 []]

end Reordered

end Loxis.Globals
