import Loxis.Lib.Readable

/-! # Types and their names

The types that the monomorphiser works on, the substitution of type arguments, and the encoding
of types in the names of functions. The encoding is uniquely readable: it tells types apart up
to the names of their type parameters, of which it keeps the positions only.
-/

namespace Loxis.Mono

open Readable

/-- A name of the source. The lexer admits neither of the characters that names are joined
with. -/
structure Ident where
  text : String
  noDollar : '$' ∉ text.toList
  noDot : '.' ∉ text.toList

theorem Ident.text_inj {x y : Ident} : x.text = y.text ↔ x = y := by
  constructor
  · intro h; cases x; cases y; cases h; rfl
  · rintro rfl; rfl

instance : DecidableEq Ident := fun x y => decidable_of_iff (x.text = y.text) Ident.text_inj

inductive Ty
  | infer (id : ℕ) | never | unit | bool | char | int | long | float | double | str | null
  | fn (params : List Ty) (ret : Ty)
  | tuple (elems : List Ty)
  | array (elem : Ty) (len : ℕ)
  | slice (elem : Ty)
  | ref (isMut : Bool) (elem : Ty)
  | rawPtr (isMut : Bool) (elem : Ty)
  | adt (name : Ident) (args : List Ty)
  | cls (name : Ident) (args : List Ty)
  | iface (name : Ident) (args : List Ty)
  | param (name : String) (idx : ℕ)
  | projection (base : Ty) (assoc : Ident)
  | error
  | nullable (base : Ty)

/-- A character, the length of the name, and the name. -/
def named (tag : Char) (name : Ident) : String :=
  String.singleton tag ++ toString name.text.length ++ "_" ++ name.text

mutual

def mangleType : Ty → String
  | .infer id => "V" ++ toString id
  | .never => "v"
  | .unit => "u"
  | .bool => "b"
  | .char => "c"
  | .int => "i"
  | .long => "l"
  | .float => "f"
  | .double => "d"
  | .str => "s"
  | .null => "z"
  | .fn params ret => "F" ++ toString params.length ++ mangleEach params ++ "_R_" ++ mangleType ret
  | .tuple elems => "T" ++ toString elems.length ++ mangleEach elems
  | .array elem len => "A" ++ toString len ++ "_" ++ mangleType elem
  | .slice elem => "S" ++ mangleType elem
  | .ref m elem => (if m then "Qm" else "Qi") ++ mangleType elem
  | .rawPtr m elem => (if m then "Pm" else "Pi") ++ mangleType elem
  | .adt name args => named 'E' name ++ "_G" ++ toString args.length ++ mangleEach args
  | .cls name args => named 'C' name ++ "_G" ++ toString args.length ++ mangleEach args
  | .iface name args => named 'I' name ++ "_G" ++ toString args.length ++ mangleEach args
  | .param _ idx => "G" ++ toString idx
  | .projection base assoc => "J" ++ mangleType base ++ "_" ++ named 'A' assoc
  | .error => "X"
  | .nullable base => "N" ++ mangleType base

/-- The types of a list, each after an underscore. -/
def mangleEach : List Ty → String
  | [] => ""
  | t :: ts => "_" ++ mangleType t ++ mangleEach ts

end

/-- `T?`, which is `T` for a `T` that is nullable already. -/
def makeNullable : Ty → Ty
  | .nullable t => .nullable t
  | t => .nullable t

/-- The class of a receiver, whether it may be null or not. -/
def Ty.receiver : Ty → Option (Ident × List Ty)
  | .cls name args => some (name, args)
  | .nullable t => t.receiver
  | _ => none

abbrev SubstMap := List (String × Ty)

/-- The last type argument given for a parameter name counts. -/
def makeSubst (paramNames : List String) (typeArgs : List Ty) : SubstMap :=
  (paramNames.zip typeArgs).reverse

mutual

def substTy (subst : SubstMap) : Ty → Ty
  | .nullable t => makeNullable (substTy subst t)
  | .param name idx => (subst.lookup name).getD (.param name idx)
  | .cls name args => .cls name (substEach subst args)
  | .iface name args => .iface name (substEach subst args)
  | .fn params ret => .fn (substEach subst params) (substTy subst ret)
  | .ref m elem => .ref m (substTy subst elem)
  | .array elem len => .array (substTy subst elem) len
  | .slice elem => .slice (substTy subst elem)
  | .tuple elems => .tuple (substEach subst elems)
  | t => t

def substEach (subst : SubstMap) : List Ty → List Ty
  | [] => []
  | t :: ts => substTy subst t :: substEach subst ts

end

mutual

/-- The type without the names of its type parameters. -/
def Ty.erase : Ty → Ty
  | .fn params ret => .fn (eraseEach params) ret.erase
  | .tuple elems => .tuple (eraseEach elems)
  | .array elem len => .array elem.erase len
  | .slice elem => .slice elem.erase
  | .ref m elem => .ref m elem.erase
  | .rawPtr m elem => .rawPtr m elem.erase
  | .adt name args => .adt name (eraseEach args)
  | .cls name args => .cls name (eraseEach args)
  | .iface name args => .iface name (eraseEach args)
  | .param _ idx => .param "" idx
  | .projection base assoc => .projection base.erase assoc
  | .nullable base => .nullable base.erase
  | t => t

def eraseEach : List Ty → List Ty
  | [] => []
  | t :: ts => t.erase :: eraseEach ts

end

example : mangleType (.fn [.int, .cls ⟨"Box", by decide, by decide⟩ [.str]] .bool) =
    "F2_i_C3_Box_G1_s_R_b" := by decide

section Code

/-- The characters of a type's name. -/
def code (t : Ty) : List Char := (mangleType t).toList

theorem toList_mangleEach (ts : List Ty) : (mangleEach ts).toList = separated '_' code ts := by
  induction ts with
  | nil => simp [mangleEach]
  | cons t ts ih => simp [mangleEach, ih, code]

theorem toList_named (tag : Char) (name : Ident) :
    (named tag name).toList =
      tag :: (Nat.toDigits 10 name.text.toList.length ++ '_' :: name.text.toList) := by
  simp [named, String.length_toList]

/-- The first character of a type's name. -/
def tag : Ty → Char
  | .infer _ => 'V'
  | .never => 'v'
  | .unit => 'u'
  | .bool => 'b'
  | .char => 'c'
  | .int => 'i'
  | .long => 'l'
  | .float => 'f'
  | .double => 'd'
  | .str => 's'
  | .null => 'z'
  | .fn .. => 'F'
  | .tuple _ => 'T'
  | .array .. => 'A'
  | .slice _ => 'S'
  | .ref .. => 'Q'
  | .rawPtr .. => 'P'
  | .adt .. => 'E'
  | .cls .. => 'C'
  | .iface .. => 'I'
  | .param .. => 'G'
  | .projection .. => 'J'
  | .error => 'X'
  | .nullable _ => 'N'

/-- What follows the first character. -/
def body : Ty → List Char
  | .infer id => Nat.toDigits 10 id
  | .fn params ret => counted '_' code params ++ '_' :: 'R' :: '_' :: code ret
  | .tuple elems => counted '_' code elems
  | .array elem len => Nat.toDigits 10 len ++ '_' :: code elem
  | .slice elem => code elem
  | .ref m elem => (if m then 'm' else 'i') :: code elem
  | .rawPtr m elem => (if m then 'm' else 'i') :: code elem
  | .adt name args | .cls name args | .iface name args =>
    Nat.toDigits 10 name.text.toList.length ++
      '_' :: (name.text.toList ++ '_' :: 'G' :: counted '_' code args)
  | .param _ idx => Nat.toDigits 10 idx
  | .projection base assoc => code base ++
      '_' :: 'A' :: (Nat.toDigits 10 assoc.text.toList.length ++ '_' :: assoc.text.toList)
  | .nullable base => code base
  | _ => []

theorem code_eq (t : Ty) : code t = tag t :: body t := by
  cases t with
  | ref m elem => cases m <;> simp [code, mangleType, tag, body]
  | rawPtr m elem => cases m <;> simp [code, mangleType, tag, body]
  | _ => simp [code, mangleType, tag, body, counted, toList_mangleEach, toList_named]

theorem eraseEach_eq (ts : List Ty) : eraseEach ts = ts.map Ty.erase := by
  induction ts with
  | nil => rfl
  | cons t ts ih => simp [eraseEach, ih]

/-- A name that is followed by a list of types. -/
theorem nameArgs_inj {x y : Ident} {as bs : List Ty} {r s : List Char}
    (henc : ∀ a ∈ as, ∀ b r s, NonDigit r → NonDigit s → code a ++ r = code b ++ s →
      a.erase = b.erase ∧ r = s)
    (hr : NonDigit r) (hs : NonDigit s)
    (h : Nat.toDigits 10 x.text.toList.length ++
        '_' :: (x.text.toList ++ '_' :: 'G' :: counted '_' code as) ++ r =
      Nat.toDigits 10 y.text.toList.length ++
        '_' :: (y.text.toList ++ '_' :: 'G' :: counted '_' code bs) ++ s) :
    x = y ∧ as.map Ty.erase = bs.map Ty.erase ∧ r = s := by
  simp only [List.append_assoc, List.cons_append] at h
  obtain ⟨hxy, h⟩ := lengthPrefixed_inj (by decide) h
  simp only [List.cons.injEq, true_and] at h
  exact ⟨Ident.text_inj.mp (String.toList_inj.mp hxy),
    counted_append_inj (by decide) henc hr hs h⟩

/-- Different types have different names, and no name is the beginning of another, up to the
names of type parameters. -/
theorem code_append_inj (t u : Ty) (r s : List Char) (hr : NonDigit r) (hs : NonDigit s)
    (h : code t ++ r = code u ++ s) : t.erase = u.erase ∧ r = s := by
  rw [code_eq, code_eq, List.cons_append, List.cons_append, List.cons.injEq] at h
  obtain ⟨htag, h⟩ := h
  cases t with
  | infer id =>
    cases u with
    | infer id' =>
      obtain ⟨rfl, rfl⟩ := toDigits_append_inj hr hs h
      exact ⟨rfl, rfl⟩
    | _ => simp [tag] at htag
  | fn params ret =>
    cases u with
    | fn params' ret' =>
      simp only [body, List.append_assoc, List.cons_append] at h
      obtain ⟨hp, h⟩ := counted_append_inj (by decide)
        (fun a _ b r s hr hs h => code_append_inj a b r s hr hs h) (by simp)
        (by simp) h
      simp only [List.cons.injEq, true_and] at h
      obtain ⟨hret, hrs⟩ := code_append_inj ret ret' r s hr hs h
      simp [Ty.erase, eraseEach_eq, hp, hret, hrs]
    | _ => simp [tag] at htag
  | tuple elems =>
    cases u with
    | tuple elems' =>
      obtain ⟨hp, hrs⟩ := counted_append_inj (by decide)
        (fun a _ b r s hr hs h => code_append_inj a b r s hr hs h) hr hs h
      simp [Ty.erase, eraseEach_eq, hp, hrs]
    | _ => simp [tag] at htag
  | array elem len =>
    cases u with
    | array elem' len' =>
      simp only [body, List.append_assoc, List.cons_append] at h
      obtain ⟨rfl, h'⟩ := toDigits_append_inj (by simp) (by simp) h
      obtain ⟨he, rfl⟩ := code_append_inj elem elem' r s hr hs (List.cons.inj h').2
      simp [Ty.erase, he]
    | _ => simp [tag] at htag
  | slice elem =>
    cases u with
    | slice elem' =>
      obtain ⟨he, rfl⟩ := code_append_inj elem elem' r s hr hs h
      simp [Ty.erase, he]
    | _ => simp [tag] at htag
  | ref m elem =>
    cases u with
    | ref m' elem' =>
      obtain ⟨hm, h⟩ := List.cons.inj h
      obtain ⟨he, rfl⟩ := code_append_inj elem elem' r s hr hs h
      have : m = m' := by revert hm; cases m <;> cases m' <;> decide
      simp [Ty.erase, he, this]
    | _ => simp [tag] at htag
  | rawPtr m elem =>
    cases u with
    | rawPtr m' elem' =>
      obtain ⟨hm, h⟩ := List.cons.inj h
      obtain ⟨he, rfl⟩ := code_append_inj elem elem' r s hr hs h
      have : m = m' := by revert hm; cases m <;> cases m' <;> decide
      simp [Ty.erase, he, this]
    | _ => simp [tag] at htag
  | adt name args =>
    cases u with
    | adt name' args' =>
      obtain ⟨hn, ha, hrs⟩ := nameArgs_inj
        (fun a _ b r s hr hs h => code_append_inj a b r s hr hs h) hr hs h
      simp [Ty.erase, eraseEach_eq, hn, ha, hrs]
    | _ => simp [tag] at htag
  | cls name args =>
    cases u with
    | cls name' args' =>
      obtain ⟨hn, ha, hrs⟩ := nameArgs_inj
        (fun a _ b r s hr hs h => code_append_inj a b r s hr hs h) hr hs h
      simp [Ty.erase, eraseEach_eq, hn, ha, hrs]
    | _ => simp [tag] at htag
  | iface name args =>
    cases u with
    | iface name' args' =>
      obtain ⟨hn, ha, hrs⟩ := nameArgs_inj
        (fun a _ b r s hr hs h => code_append_inj a b r s hr hs h) hr hs h
      simp [Ty.erase, eraseEach_eq, hn, ha, hrs]
    | _ => simp [tag] at htag
  | param name idx =>
    cases u with
    | param name' idx' =>
      obtain ⟨rfl, rfl⟩ := toDigits_append_inj hr hs h
      exact ⟨rfl, rfl⟩
    | _ => simp [tag] at htag
  | projection base assoc =>
    cases u with
    | projection base' assoc' =>
      simp only [body, List.append_assoc, List.cons_append] at h
      obtain ⟨hb, h⟩ := code_append_inj base base' _ _ (by simp) (by simp) h
      simp only [List.cons.injEq, true_and] at h
      obtain ⟨ha, rfl⟩ := lengthPrefixed_inj (by decide) h
      simp [Ty.erase, hb, Ident.text_inj.mp (String.toList_inj.mp ha)]
    | _ => simp [tag] at htag
  | nullable base =>
    cases u with
    | nullable base' =>
      obtain ⟨hb, rfl⟩ := code_append_inj base base' r s hr hs h
      simp [Ty.erase, hb]
    | _ => simp [tag] at htag
  | never | unit | bool | char | int | long | float | double | str | null | error =>
    cases u <;> first
      | exact ⟨rfl, h⟩
      | simp [tag] at htag
termination_by sizeOf t
decreasing_by
  all_goals
    rw [‹t = _›]
    decreasing_trivial

/-- Free of the characters that join names. -/
def Plain (l : List Char) : Prop := '$' ∉ l ∧ '.' ∉ l

@[simp] theorem plain_nil : Plain [] := by simp [Plain]

@[simp] theorem plain_cons {c : Char} {l : List Char} :
    Plain (c :: l) ↔ c ≠ '$' ∧ c ≠ '.' ∧ Plain l := by
  simp only [Plain, List.mem_cons, not_or, ne_eq, eq_comm (b := c)]
  tauto

@[simp] theorem plain_append {l l' : List Char} : Plain (l ++ l') ↔ Plain l ∧ Plain l' := by
  simp only [Plain, List.mem_append, not_or]
  tauto

@[simp] theorem plain_toDigits (n : ℕ) : Plain (Nat.toDigits 10 n) := by
  have h : ∀ c ∈ Nat.toDigits 10 n, c.isDigit = true := fun _ hc =>
    Nat.isDigit_of_mem_toDigits (by decide) (by decide) hc
  exact ⟨fun hc => absurd (h _ hc) (by decide), fun hc => absurd (h _ hc) (by decide)⟩

@[simp] theorem Ident.plain (x : Ident) : Plain x.text.toList := ⟨x.noDollar, x.noDot⟩

theorem plain_counted {as : List Ty} (h : ∀ a ∈ as, Plain (code a)) :
    Plain (counted '_' code as) := by
  rw [counted, plain_append]
  constructor
  · exact plain_toDigits _
  · induction as with
    | nil => simp
    | cons a as ih =>
      simpa [h a] using ih fun b hb => h b (List.mem_cons_of_mem _ hb)

theorem plain_tag_cons (t : Ty) {l : List Char} : Plain (tag t :: l) ↔ Plain l := by
  cases t <;> simp [tag]

theorem plain_code (t : Ty) : Plain (code t) := by
  induction t using Ty.rec (motive_2 := fun ts => ∀ t ∈ ts, Plain (code t)) with
  | nil => contradiction
  | cons t ts iht ihts u hu =>
    cases hu with
    | head => exact iht
    | tail _ hu => exact ihts u hu
  | fn params ret ihp ihr =>
    rw [code_eq, plain_tag_cons]
    simp [body, plain_counted ihp, ihr]
  | tuple args ih | adt name args ih | cls name args ih | iface name args ih =>
    rw [code_eq, plain_tag_cons]
    simp [body, plain_counted ih]
  | ref m elem ih | rawPtr m elem ih =>
    rw [code_eq, plain_tag_cons]
    cases m <;> simp [body, ih]
  | _ =>
    rw [code_eq, plain_tag_cons]
    simp [body, *]

@[simp] theorem length_eraseEach (ts : List Ty) : (eraseEach ts).length = ts.length := by
  simp [eraseEach_eq]

/-- A name does not depend on the names of type parameters. -/
theorem mangleType_erase (t : Ty) : mangleType t.erase = mangleType t := by
  induction t using Ty.rec (motive_2 := fun ts => mangleEach (eraseEach ts) = mangleEach ts) with
  | nil => rfl
  | cons t ts iht ihts => simp [eraseEach, mangleEach, iht, ihts]
  | _ => simp [Ty.erase, mangleType, *]

end Code

end Loxis.Mono
