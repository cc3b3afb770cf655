import Loxis.Globals.Pipeline
import Loxis.Lib.Readable

/-! # The labels of initialisers

The label of an object's constructor is set by classes of its name only, the label of a variable's
initialiser by the generated functions of variables and their blocks only.
-/

namespace Loxis.Globals

open Mono (Ident)
open Backend (blockLabel)

variable {E : Type} {C : Code E} {xs ys : List (String × E × ℕ)} {l s : String} {x y : Ident}
  {k : ℕ}
  {e : E} {t : E × ℕ}

section Text

theorem toList_blockLabel (s : String) (k : ℕ) :
    (blockLabel s k).toList = s.toList ++ '_' :: 'b' :: Nat.toDigits 10 k := by
  simp [blockLabel]

theorem mem_blockLabel {c : Char} (h : c ∈ s.toList) : c ∈ (blockLabel s k).toList := by
  rw [toList_blockLabel]
  exact List.mem_append_left _ h

/-- The last character of a block's label is a digit. -/
theorem blockLabel_ne_append {c : Char} (hc : c.isDigit = false) (r : List Char)
    (h : l.toList = r ++ [c]) : blockLabel s k ≠ l := by
  rintro rfl
  have hl := congrArg List.getLast? h
  rw [toList_blockLabel, List.append_cons, List.append_cons,
    List.getLast?_append_of_ne_nil _ Nat.toDigits_ne_nil, List.getLast?_concat] at hl
  have hd := Nat.isDigit_of_mem_toDigits (b := 10) (by decide) (by decide) (List.mem_of_getLast? hl)
  rw [hc] at hd
  cases hd

theorem blockLabel_ne_self : blockLabel s k ≠ s := by
  intro h
  have hl := congrArg (fun u : String => u.toList.length) h
  simp only [toList_blockLabel, List.length_append, List.length_cons] at hl
  omega

end Text

section Lookup

theorem getLabel_append : getLabel (xs ++ ys) l = (getLabel ys l).or (getLabel xs l) := by
  unfold getLabel
  rw [List.reverse_append, List.find?_append]
  cases ys.reverse.find? fun p => p.1 = l <;> rfl

theorem getLabel_eq_none : getLabel xs l = none ↔ ∀ p ∈ xs, p.1 ≠ l := by
  unfold getLabel
  simp

theorem getLabel_singleton : getLabel [(l, t)] l = some t := by
  simp [getLabel]

end Lookup

section Items

variable {M : Copies E} {is js : List (HirItem E)} {n : ℕ} {p : String × E × ℕ} {f : HirFn E}
  {fs : List (HirFn E)} {d : Decl E} {slot : Option ℕ}

/-- The labels that items set, in order. -/
def labelsIn (C : Code E) (is : List (HirItem E)) : List (String × E × ℕ) :=
  (is.flatMap HirItem.bodies).flatMap (labelsOf C.blocks)

theorem labelsIn_append : labelsIn C (is ++ js) = labelsIn C is ++ labelsIn C js := by
  simp [labelsIn]

theorem mem_labelsOf {blocks : E → ℕ} {b : String × E} (h : p ∈ labelsOf blocks b) :
    p.1 = b.1 ∨ ∃ k, p.1 = blockLabel b.1 k := by
  rcases List.mem_cons.mp h with rfl | h
  · exact Or.inl rfl
  · obtain ⟨k, -, rfl⟩ := List.mem_map.mp h
    exact Or.inr ⟨k, rfl⟩

theorem mem_labelsIn : p ∈ labelsIn C is ↔ ∃ i ∈ is, ∃ b ∈ i.bodies, p ∈ labelsOf C.blocks b := by
  rw [labelsIn, List.flatMap_assoc]
  simp only [List.mem_flatMap]

/-- The labels of copies have their dollar signs. -/
theorem Specialization.labels (i : Specialization E) (h : p ∈ labelsIn C [i.item]) :
    '$' ∈ p.1.toList := by
  obtain ⟨j, hj, b, hb, hp⟩ := mem_labelsIn.mp h
  obtain rfl := List.mem_singleton.mp hj
  have hname : '$' ∈ b.1.toList := by
    have hmangled := i.mangled
    cases hi : i.item with
    | fn f =>
      rw [hi] at hb hmangled
      obtain rfl := List.mem_singleton.mp hb
      exact hmangled
    | cls c =>
      rw [hi] at hb hmangled
      rcases List.mem_cons.mp hb with rfl | hb
      · rw [String.toList_append]
        exact List.mem_append_left _ hmangled
      · obtain ⟨m, -, rfl⟩ := List.mem_map.mp hb
        rw [String.toList_append, String.toList_append]
        exact List.mem_append_left _ (List.mem_append_left _ hmangled)
  rcases mem_labelsOf hp with h | ⟨k, h⟩
  · exact h ▸ hname
  · exact h ▸ mem_blockLabel hname

theorem getLabel_added (hl : '$' ∉ l.toList) (as : List (Specialization E)) :
    getLabel (labelsIn C (as.map Specialization.item)) l = none := by
  rw [getLabel_eq_none]
  intro p hp
  obtain ⟨i, hi, b, hb, hp⟩ := mem_labelsIn.mp hp
  obtain ⟨a, -, rfl⟩ := List.mem_map.mp hi
  rintro rfl
  exact hl (a.labels (mem_labelsIn.mpr ⟨a.item, by simp, b, hb, hp⟩))

/-- Copies of generic items set no label without a dollar sign. -/
theorem getLabel_copyItems (hl : '$' ∉ l.toList) : getLabel (labelsIn C (copyItems M n is)) l =
    getLabel (labelsIn C (is.flatMap (HirItem.copy M))) l := by
  induction is generalizing n with
  | nil => exact getLabel_added hl _
  | cons i is ih =>
    rw [copyItems, labelsIn_append, labelsIn_append, getLabel_append, getLabel_append,
      getLabel_added hl, Option.or_none, ih, List.flatMap_cons, labelsIn_append, getLabel_append]

/-- The labels of generated functions. -/
theorem mem_labelsIn_copy (h : p ∈ labelsIn C ((fs.map HirItem.fn).flatMap (HirItem.copy M))) :
    ∃ f ∈ fs, p ∈ labelsOf C.blocks (f.name, f.body) := by
  obtain ⟨i, hi, b, hb, hp⟩ := mem_labelsIn.mp h
  obtain ⟨j, hj, hi⟩ := List.mem_flatMap.mp hi
  obtain ⟨f, hf, rfl⟩ := List.mem_map.mp hj
  rw [HirItem.copy] at hi
  split_ifs at hi
  · cases hi
  · obtain rfl := List.mem_singleton.mp hi
    obtain rfl := List.mem_singleton.mp hb
    exact ⟨f, hf, hp⟩

/-- Neither a name nor the label of one of its blocks is the text. -/
def Foreign (s l : String) : Prop := s ≠ l ∧ ∀ k, blockLabel s k ≠ l

theorem getLabel_foreign (h : ∀ f ∈ fs, Foreign f.name l) :
    getLabel (labelsIn C ((fs.map HirItem.fn).flatMap (HirItem.copy M))) l = none := by
  rw [getLabel_eq_none]
  intro p hp
  obtain ⟨f, hf, hp⟩ := mem_labelsIn_copy hp
  rcases mem_labelsOf hp with h' | ⟨k, h'⟩
  · rw [h']
    exact (h f hf).1
  · rw [h']
    exact (h f hf).2 k

end Items

section Variables

theorem foreign_dot (h : '.' ∈ s.toList) (hl : '.' ∉ l.toList) : Foreign s l := by
  constructor
  · rintro rfl
    exact hl h
  · rintro k rfl
    exact hl (mem_blockLabel h)

/-- Names with other first characters. -/
theorem foreign_take (n : ℕ) (hs : n ≤ s.toList.length)
    (h : s.toList.take n ≠ l.toList.take n) : Foreign s l := by
  constructor
  · rintro rfl
    exact h rfl
  · rintro k rfl
    rw [toList_blockLabel, List.take_append_of_le_length hs] at h
    exact h rfl

theorem toList_var (x : Ident) :
    ("__var_" ++ x.text).toList = '_' :: '_' :: 'v' :: 'a' :: 'r' :: '_' :: x.text.toList :=
  String.toList_append

theorem var_noDot (x : Ident) : '.' ∉ ("__var_" ++ x.text).toList := by
  rw [toList_var]
  simp [x.noDot]

theorem var_noDollar (x : Ident) : '$' ∉ ("__var_" ++ x.text).toList := by
  rw [toList_var]
  simp [x.noDollar]

/-- Names of other kinds of generated functions. -/
theorem foreign_kind {kind : String} (s : String) (x : Ident) (hlen : 5 ≤ kind.toList.length)
    (h : kind.toList.take 5 ≠ ['_', '_', 'v', 'a', 'r']) :
    Foreign (kind ++ s) ("__var_" ++ x.text) := by
  apply foreign_take 5
  · rw [String.toList_append, List.length_append]
    exact hlen.trans (Nat.le_add_right _ _)
  · rw [toList_var, String.toList_append, List.take_append_of_le_length hlen]
    exact h

theorem foreign_lift (e : E) (x : Ident) :
    ∀ f ∈ lift C.lambdas e, Foreign f.name ("__var_" ++ x.text) := by
  intro f hf
  obtain ⟨a, -, rfl⟩ := List.mem_map.mp hf
  exact foreign_kind _ _ (by decide) (by decide)

theorem foreign_getter {kind : String} {slot : Option ℕ} {init : Option E} (y x : Ident)
    (hlen : 5 ≤ kind.toList.length) (h : kind.toList.take 5 ≠ ['_', '_', 'v', 'a', 'r']) :
    ∀ f ∈ getter C.lambdas kind y slot init, Foreign f.name ("__var_" ++ x.text) := by
  cases init with
  | none => exact fun f hf => absurd hf List.not_mem_nil
  | some e =>
    intro f hf
    rcases List.mem_append.mp hf with hf | hf
    · exact foreign_lift e x f hf
    · obtain rfl := List.mem_singleton.mp hf
      exact foreign_kind _ _ hlen h

/-- Only the initialisers of variables have labels such as theirs. -/
theorem getLabel_generate (M : Copies E) (p : Decl E × Option ℕ) (x : Ident) :
    getLabel (labelsIn C (((generate C.lambdas p).map .fn).flatMap (HirItem.copy M)))
      ("__var_" ++ x.text) = getLabel (varLabels C [p.1]) ("__var_" ++ x.text) := by
  obtain ⟨d, slot⟩ := p
  have hmethods : ∀ ms : List (Method E), ∀ f ∈ liftMethods C.lambdas ms,
      Foreign f.name ("__var_" ++ x.text) := by
    intro ms f hf
    obtain ⟨m, -, hf⟩ := List.mem_flatMap.mp hf
    exact foreign_lift _ x f hf
  cases d with
  | function name overload generic body => exact getLabel_foreign (foreign_lift body x)
  | cls name generic ctor methods | enum name generic vs ctor methods | object name ctor methods =>
    exact getLabel_foreign fun f hf =>
      (List.mem_append.mp hf).elim (foreign_lift ctor x f) (hmethods methods f)
  | iface name generic defaults =>
    refine getLabel_foreign fun f hf => ?_
    obtain ⟨m, -, hf⟩ := List.mem_flatMap.mp hf
    rcases List.mem_append.mp hf with hf | hf
    · exact foreign_lift _ x f hf
    · obtain rfl := List.mem_singleton.mp hf
      refine foreign_dot ?_ (var_noDot x)
      simp
  | val name init => exact getLabel_foreign (foreign_getter name x (by decide) (by decide))
  | const name init => exact getLabel_foreign (foreign_getter name x (by decide) (by decide))
  | typeAlias name => rfl
  | var name init =>
    cases init with
    | none => rfl
    | some e =>
      rw [generate, getter, List.map_append, List.flatMap_append, labelsIn_append,
        getLabel_append, getLabel_foreign (foreign_lift e x), Option.or_none]
      simp [varLabels, labelsIn, HirItem.copy, HirItem.bodies]

theorem getLabel_generated (M : Copies E) (ps : List (Decl E × Option ℕ)) (x : Ident) :
    getLabel (labelsIn C (((ps.flatMap (generate C.lambdas)).map .fn).flatMap (HirItem.copy M)))
      ("__var_" ++ x.text) = getLabel (varLabels C (ps.map Prod.fst)) ("__var_" ++ x.text) := by
  induction ps with
  | nil => rfl
  | cons p ps ih =>
    have hcons : varLabels C ((p :: ps).map Prod.fst) =
        varLabels C [p.1] ++ varLabels C (ps.map Prod.fst) := by
      simp [varLabels]
    rw [List.flatMap_cons, List.map_append, List.flatMap_append, labelsIn_append, getLabel_append,
      getLabel_generate, ih, hcons, getLabel_append]

/-- The label of a variable's initialiser stands for what the labels of variables say from it on. -/
theorem getLabel_var {ds xs ys : List (Decl E)} (hds : ds = xs ++ .var x (some e) :: ys) :
    getLabel (varLabels C ds) ("__var_" ++ x.text) =
      some ((getLabel (varLabels C ys) ("__var_" ++ x.text)).getD (e, 0)) := by
  have hown : getLabel (varLabels C [.var x (some e)]) ("__var_" ++ x.text) = some (e, 0) := by
    have hlabels : varLabels C [.var x (some e)] = [("__var_" ++ x.text, e, 0)] ++
        (List.range (C.blocks e)).map fun k => (blockLabel ("__var_" ++ x.text) k, e, k) := by
      simp [varLabels, labelsOf]
    rw [hlabels, getLabel_append, getLabel_singleton, getLabel_eq_none.mpr, Option.none_or]
    intro p hp
    obtain ⟨k, -, rfl⟩ := List.mem_map.mp hp
    exact blockLabel_ne_self
  have hsplit : varLabels C ds = varLabels C xs ++
      (varLabels C [.var x (some e)] ++ varLabels C ys) := by
    simp [hds, varLabels]
  rw [hsplit, getLabel_append, getLabel_append, hown]
  cases getLabel (varLabels C ys) ("__var_" ++ x.text) <;> rfl

end Variables

section Objects

variable {M : Copies E} {d : Decl E} {ds : List (Decl E)} {ps : List (Decl E × Option ℕ)}

theorem toList_init (s : String) : (s ++ ".init").toList =
    (s.toList ++ ['.', 'i', 'n', 'i']) ++ ['t'] := by
  rw [String.toList_append, List.append_assoc]
  rfl

theorem init_noDollar (x : Ident) : '$' ∉ (x.text ++ ".init").toList := by
  rw [toList_init]
  simp [x.noDollar]

theorem blockLabel_ne_init (s s' : String) (k : ℕ) : blockLabel s k ≠ s' ++ ".init" :=
  blockLabel_ne_append (c := 't') (by decide) _ (toList_init s')

theorem ne_init_of_noDot (s' : String) (h : '.' ∉ s.toList) : s ≠ s' ++ ".init" := by
  rintro rfl
  exact h (by simp)

theorem method_ne_init (m : Method E) (h : '.' ∉ s.toList) (x : Ident) :
    s ++ "." ++ m.name ≠ x.text ++ ".init" := by
  intro h'
  have hinit : x.text ++ ".init" = x.text ++ "." ++ "init" := by
    rw [String.append_assoc]
    rfl
  rw [hinit] at h'
  exact m.ne_init ((Mono.dot_append_inj h x.noDot).mp h').2

theorem functionLabel_noDot (name : Ident) (o : Option Signature) :
    '.' ∉ (functionLabel name o).text.toList := by
  cases o with
  | none => exact Mono.mangle_noDot name []
  | some o => exact Mono.overload_noDot _ _ _ _

theorem kind_noDot {kind : String} (h : '.' ∉ kind.toList) (y : Ident) :
    '.' ∉ (kind ++ y.text).toList := by
  rw [String.toList_append, List.mem_append]
  exact fun h' => h'.elim h y.noDot

theorem lambda_noDot (a : Lambda E) : '.' ∉ a.fn.name.toList := by
  unfold Lambda.fn
  rw [String.toList_append, List.mem_append]
  rintro (h | h)
  · revert h
    decide
  · have hd := Nat.isDigit_of_mem_toDigits (n := a.number) (b := 10) (by decide) (by decide)
      (by simpa using h)
    cases hd

theorem foreign_init (h : s ≠ x.text ++ ".init") : Foreign s (x.text ++ ".init") :=
  ⟨h, fun k => blockLabel_ne_init s x.text k⟩

/-- No generated function has the label of a constructor. -/
theorem getLabel_generated_init (x : Ident) : getLabel (labelsIn C
    (((ps.flatMap (generate C.lambdas)).map .fn).flatMap (HirItem.copy M))) (x.text ++ ".init") =
      none := by
  have hlift : ∀ e, ∀ f ∈ lift C.lambdas e, Foreign f.name (x.text ++ ".init") := by
    intro e f hf
    obtain ⟨a, -, rfl⟩ := List.mem_map.mp hf
    exact foreign_init (ne_init_of_noDot _ (lambda_noDot a))
  have hmethods : ∀ ms : List (Method E), ∀ f ∈ liftMethods C.lambdas ms,
      Foreign f.name (x.text ++ ".init") := by
    intro ms f hf
    obtain ⟨m, -, hf⟩ := List.mem_flatMap.mp hf
    exact hlift _ f hf
  have hgetter : ∀ (kind : String) y slot init, '.' ∉ kind.toList →
      ∀ f ∈ getter C.lambdas kind y slot init, Foreign f.name (x.text ++ ".init") := by
    intro kind y slot init hkind f hf
    cases init with
    | none => cases hf
    | some e =>
      rcases List.mem_append.mp hf with hf | hf
      · exact hlift e f hf
      · obtain rfl := List.mem_singleton.mp hf
        exact foreign_init (ne_init_of_noDot _ (kind_noDot hkind y))
  refine getLabel_foreign fun f hf => ?_
  obtain ⟨⟨d, slot⟩, -, hf⟩ := List.mem_flatMap.mp hf
  cases d with
  | function name overload generic body => exact hlift body f hf
  | cls name generic ctor methods | enum name generic vs ctor methods | object name ctor methods =>
    exact (List.mem_append.mp hf).elim (hlift ctor f) (hmethods methods f)
  | iface name generic defaults =>
    obtain ⟨m, -, hf⟩ := List.mem_flatMap.mp hf
    rcases List.mem_append.mp hf with hf | hf
    · exact hlift _ f hf
    · obtain rfl := List.mem_singleton.mp hf
      exact foreign_init (method_ne_init m name.noDot x)
  | val name init => exact hgetter _ name none init (by decide) f hf
  | const name init => exact hgetter _ name none init (by decide) f hf
  | var name init => exact hgetter _ name slot init (by decide) f hf
  | typeAlias name => cases hf

/-- The labels of a class, an enum or an object. -/
theorem getLabel_class (c : HirClass E) (hc : '.' ∉ c.name.toList) (x : Ident) :
    getLabel (labelsIn C [.cls c]) (x.text ++ ".init") =
      if c.name = x.text then some (c.ctor, 0) else none := by
  have hlabels : labelsIn C [.cls c] = [(c.name ++ ".init", c.ctor, 0)] ++
      ((List.range (C.blocks c.ctor)).map fun k => (blockLabel (c.name ++ ".init") k, c.ctor, k)) ++
        c.methods.flatMap fun m => labelsOf C.blocks (c.name ++ "." ++ m.name, m.body) := by
    simp [labelsIn, HirItem.bodies, labelsOf, List.flatMap_map]
  have hmethods : getLabel (c.methods.flatMap fun m =>
      labelsOf C.blocks (c.name ++ "." ++ m.name, m.body)) (x.text ++ ".init") = none := by
    rw [getLabel_eq_none]
    intro p hp
    obtain ⟨m, -, hp⟩ := List.mem_flatMap.mp hp
    rcases mem_labelsOf hp with h | ⟨k, h⟩
    · rw [h]
      exact method_ne_init m hc x
    · rw [h]
      exact blockLabel_ne_init _ _ _
  have hblocks : getLabel ((List.range (C.blocks c.ctor)).map fun k =>
      (blockLabel (c.name ++ ".init") k, c.ctor, k)) (x.text ++ ".init") = none := by
    rw [getLabel_eq_none]
    intro p hp
    obtain ⟨k, -, rfl⟩ := List.mem_map.mp hp
    exact blockLabel_ne_init _ _ _
  rw [hlabels, getLabel_append, getLabel_append, hmethods, hblocks, Option.none_or, Option.none_or]
  split_ifs with h
  · rw [h, getLabel_singleton]
  · rw [getLabel_eq_none]
    intro p hp
    obtain rfl := List.mem_singleton.mp hp
    intro h'
    have hl := congrArg String.toList h'
    rw [String.toList_append, String.toList_append] at hl
    exact h (String.toList_inj.mp (List.append_cancel_right hl))

/-- Only a declaration that takes the name has its constructor's label. -/
theorem getLabel_buildItem (slot : Option ℕ) (h : d.takes x = false) : getLabel (labelsIn C
    ((buildItem (d, slot)).toList.flatMap (HirItem.copy M))) (x.text ++ ".init") = none := by
  have hclass : ∀ name generic ctor methods single slot, name ≠ x →
      getLabel (labelsIn C (HirItem.copy M (.cls ⟨Mono.Ident.text name, generic, ctor, methods,
        single, slot⟩))) (x.text ++ ".init") = none := by
    intro name generic ctor methods single slot hne
    rw [HirItem.copy]
    split_ifs
    · rfl
    · rw [getLabel_class _ name.noDot, if_neg (fun h => hne (Mono.Ident.text_inj.mp h))]
  cases d with
  | function name overload generic body =>
    let fs : List (HirFn E) := [⟨(functionLabel name overload).text, generic, body, none⟩]
    change getLabel (labelsIn C ((fs.map HirItem.fn).flatMap (HirItem.copy M))) _ = none
    apply getLabel_foreign
    intro f hf
    obtain rfl := List.mem_singleton.mp hf
    exact foreign_init (ne_init_of_noDot _ (functionLabel_noDot name overload))
  | cls name generic ctor methods | enum name generic vs ctor methods | object name ctor methods =>
    simpa [buildItem] using hclass name _ ctor methods _ _ (of_decide_eq_false h)
  | iface | val | var | const | typeAlias => rfl

/-- The label of an object's constructor stands for it when the object keeps its name. -/
theorem getLabel_object {qs : List (Decl E × Option ℕ)} {slot : Option ℕ} {name : Ident} {ctor : E}
    {methods : List (Method E)} (hps : ∀ p ∈ qs, p.1.takes name = false) :
    getLabel (labelsIn C ((((.object name ctor methods, slot) :: qs).filterMap buildItem).flatMap
      (HirItem.copy M))) (name.text ++ ".init") = some (ctor, 0) := by
  have hlater : getLabel (labelsIn C ((qs.filterMap buildItem).flatMap (HirItem.copy M)))
      (name.text ++ ".init") = none := by
    induction qs with
    | nil => rfl
    | cons q qs ih =>
      have hcons : ((q :: qs).filterMap buildItem).flatMap (HirItem.copy M) =
          (buildItem q).toList.flatMap (HirItem.copy M) ++
            (qs.filterMap buildItem).flatMap (HirItem.copy M) := by
        rw [List.filterMap_cons]
        cases buildItem q <;> simp
      rw [hcons, labelsIn_append, getLabel_append,
        ih fun p hp => hps p (List.mem_cons_of_mem _ hp), Option.none_or]
      exact getLabel_buildItem q.2 (hps q List.mem_cons_self)
  rw [List.filterMap_cons_some (f := buildItem)
    (b := .cls ⟨name.text, false, ctor, methods, true, slot⟩) rfl, List.flatMap_cons,
    labelsIn_append, getLabel_append, hlater, Option.none_or, HirItem.copy, if_neg (by simp),
    getLabel_class _ name.noDot, if_pos rfl]

end Objects

end Loxis.Globals
