import Loxis.Mono.Types

/-! # The names of emitted functions

A function keeps its declared name, takes a descriptor of its signature when the name is
overloaded, or takes its type arguments when it is a specialisation. A method's label has its
owner's name in front. Whatever the kind, a label tells its parts apart.
-/

namespace Loxis.Mono

open Readable

/-- A base name with the type arguments of a specialisation. -/
def mangle (base : String) (typeArgs : List Ty) : String :=
  typeArgs.foldl (fun result ta => result ++ ("$" ++ mangleType ta)) base

def typeSigVec (types : List Ty) : String :=
  toString types.length ++ mangleEach types

def mangleFunctionSignature (name : String) (params : List Ty) (ret : Ty) : String :=
  name ++ "$P" ++ toString params.length ++ mangleEach params ++ "$R_" ++ mangleType ret

/-- What a label says: a function and its type arguments, an overload and its signature, or a
method with the type arguments of its owner and its own. -/
inductive Label
  | function (name : Ident) (typeArgs : List Ty)
  | overload (name : Ident) (isExtension : Bool) (params : List Ty) (ret : Ty)
  | method (owner : Ident) (ownerArgs : List Ty) (name : Ident) (typeArgs : List Ty)

namespace Label

def extended (name : Ident) (isExtension : Bool) : String :=
  if isExtension then name.text ++ "$extension" else name.text

def text : Label → String
  | function name typeArgs => mangle name.text typeArgs
  | overload name e params ret => mangleFunctionSignature (extended name e) params ret
  | method owner ownerArgs name typeArgs =>
    mangle owner.text ownerArgs ++ "." ++ mangle name.text typeArgs

/-- The label without the names of type parameters. -/
def erase : Label → Label
  | function name typeArgs => function name (typeArgs.map Ty.erase)
  | overload name e params ret => overload name e (params.map Ty.erase) ret.erase
  | method owner ownerArgs name typeArgs =>
    method owner (ownerArgs.map Ty.erase) name (typeArgs.map Ty.erase)

end Label

example : (Label.overload ⟨"show", by decide, by decide⟩ true [.int, .param "T" 0] .unit).text =
    "show$extension$P2_i_G0$R_u" := by decide

section Readable

theorem toList_mangle (base : String) (typeArgs : List Ty) :
    (mangle base typeArgs).toList = base.toList ++ separated '$' code typeArgs := by
  induction typeArgs generalizing base with
  | nil => simp [mangle]
  | cons t ts ih =>
    have := ih (base ++ ("$" ++ mangleType t))
    simpa [mangle, code] using this

theorem toList_typeSigVec (types : List Ty) : (typeSigVec types).toList = counted '_' code types := by
  simp [typeSigVec, counted, toList_mangleEach]

theorem toList_mangleFunctionSignature (name : String) (params : List Ty) (ret : Ty) :
    (mangleFunctionSignature name params ret).toList =
      name.toList ++ '$' :: 'P' :: (counted '_' code params ++ '$' :: 'R' :: '_' :: code ret) := by
  simp [mangleFunctionSignature, counted, toList_mangleEach, code]

theorem code_inj {t u : Ty} (h : code t = code u) : t.erase = u.erase :=
  (code_append_inj t u [] [] nonDigit_nil nonDigit_nil (by simpa using h)).1

/-- Lists of types after a separator that no name of a type contains. -/
theorem separated_code_inj {c : Char} (hc : c.isDigit = false) {as bs : List Ty} :
    separated c code as = separated c code bs ↔ as.map Ty.erase = bs.map Ty.erase := by
  constructor
  · exact separated_inj hc fun a _ b r s hr hs h => code_append_inj a b r s hr hs h
  · intro h
    have hcode : ∀ ts : List Ty, separated c code (ts.map Ty.erase) = separated c code ts := by
      intro ts
      simp [separated, List.flatMap_map, code, mangleType_erase]
    rw [← hcode as, h, hcode]

/-- What starts where a plain text ends. -/
def Joined (r : List Char) : Prop := ∀ c ∈ r.head?, c = '$' ∨ c = '.'

theorem joined_separated (ts : List Ty) : Joined (separated '$' code ts) := by
  cases ts <;> simp [Joined]

theorem ident_append_inj {x y : Ident} {r s : List Char} (hr : Joined r) (hs : Joined s)
    (h : x.text.toList ++ r = y.text.toList ++ s) : x = y ∧ r = s := by
  have hplain : ∀ z : Ident, ∀ c ∈ z.text.toList, ¬ (c = '$' ∨ c = '.') := by
    rintro z c hc (rfl | rfl)
    · exact z.noDollar hc
    · exact z.noDot hc
  obtain ⟨hxy, rfl⟩ := span_inj (hplain x) (hplain y) (fun c hc => not_not.mpr (hr c hc))
    (fun c hc => not_not.mpr (hs c hc)) h
  exact ⟨Ident.text_inj.mp (String.toList_inj.mp hxy), rfl⟩

theorem mangle_inj {x y : Ident} {as bs : List Ty} :
    mangle x.text as = mangle y.text bs ↔ x = y ∧ as.map Ty.erase = bs.map Ty.erase := by
  rw [← String.toList_inj, toList_mangle, toList_mangle]
  constructor
  · intro h
    obtain ⟨rfl, h'⟩ := ident_append_inj (joined_separated as) (joined_separated bs) h
    exact ⟨rfl, (separated_code_inj (by decide)).mp h'⟩
  · rintro ⟨rfl, h⟩
    rw [(separated_code_inj (by decide)).mpr h]

theorem typeSigVec_inj {as bs : List Ty} :
    typeSigVec as = typeSigVec bs ↔ as.map Ty.erase = bs.map Ty.erase := by
  rw [← String.toList_inj, toList_typeSigVec, toList_typeSigVec]
  constructor
  · intro h
    exact (counted_append_inj (c := '_') (r := []) (s := []) (by decide)
      (fun a _ b r s hr hs h => code_append_inj a b r s hr hs h) nonDigit_nil nonDigit_nil
      (by simpa using h)).1
  · intro h
    have hl := congrArg List.length h
    simp only [List.length_map] at hl
    rw [counted, counted, (separated_code_inj (by decide)).mpr h, hl]

/-- The characters of a descriptor after the name. -/
def signature (params : List Ty) (ret : Ty) : List Char :=
  '$' :: 'P' :: (counted '_' code params ++ '$' :: 'R' :: '_' :: code ret)

def extension : List Char := ['e', 'x', 't', 'e', 'n', 's', 'i', 'o', 'n']

/-- What an overload's label adds to the declared name. -/
def descriptor (isExtension : Bool) (params : List Ty) (ret : Ty) : List Char :=
  if isExtension then '$' :: (extension ++ signature params ret) else signature params ret

theorem toList_extended (x : Ident) (e : Bool) :
    (Label.extended x e).toList = x.text.toList ++ if e then '$' :: extension else [] := by
  cases e
  · simp [Label.extended]
  · rw [Label.extended, if_pos rfl, if_pos rfl, String.toList_append]
    rfl

theorem toList_overload (x : Ident) (e : Bool) (params : List Ty) (ret : Ty) :
    (Label.overload x e params ret).text.toList = x.text.toList ++ descriptor e params ret := by
  rw [Label.text, toList_mangleFunctionSignature, toList_extended]
  cases e <;> simp [descriptor, signature]

theorem joined_descriptor (e : Bool) (params : List Ty) (ret : Ty) :
    Joined (descriptor e params ret) := by
  cases e <;> simp [Joined, descriptor, signature]

theorem signature_inj {ps ps' : List Ty} {t t' : Ty} :
    signature ps t = signature ps' t' ↔
      ps.map Ty.erase = ps'.map Ty.erase ∧ t.erase = t'.erase := by
  constructor
  · intro h
    simp only [signature, List.cons.injEq, true_and] at h
    obtain ⟨hq, hu⟩ := counted_append_inj (by decide)
      (fun a _ b r s hr hs h => code_append_inj a b r s hr hs h) (by simp) (by simp) h
    exact ⟨hq, code_inj (by simpa using hu)⟩
  · rintro ⟨hp, ht⟩
    have h := typeSigVec_inj.mpr hp
    rw [← String.toList_inj, toList_typeSigVec, toList_typeSigVec] at h
    rw [signature, signature, h, code, ← mangleType_erase, ht, mangleType_erase, code]

theorem descriptor_inj {e e' : Bool} {ps ps' : List Ty} {t t' : Ty} :
    descriptor e ps t = descriptor e' ps' t' ↔
      e = e' ∧ ps.map Ty.erase = ps'.map Ty.erase ∧ t.erase = t'.erase := by
  cases e <;> cases e'
  · simp [descriptor, signature_inj]
  · simp [descriptor, extension, signature]
  · simp [descriptor, extension, signature]
  · simp [descriptor, signature_inj]

/-- A descriptor is no list of type arguments: no type's name starts as it does. -/
theorem descriptor_ne_separated (e : Bool) (ps : List Ty) (t : Ty) (args : List Ty) :
    descriptor e ps t ≠ separated '$' code args := by
  cases args with
  | nil => cases e <;> simp [descriptor, signature]
  | cons a args =>
    rw [separated_cons, code_eq a]
    cases e with
    | true => cases a <;> simp [descriptor, extension, tag]
    | false =>
      cases a with
      | rawPtr m elem =>
        -- the number of parameters stands where a pointer says what it points to
        intro h
        have hd : NonDigit (body (.rawPtr m elem) ++ separated '$' code args) := by
          cases m <;> simp [body]
        simp only [descriptor, signature, Bool.false_eq_true, if_false, tag, List.cons_append,
          List.cons.injEq, true_and] at h
        rw [← h, counted, List.append_assoc] at hd
        exact not_nonDigit_toDigits_append hd
      | _ => simp [descriptor, signature, tag]

theorem separated_noDot (args : List Ty) : '.' ∉ separated '$' code args := by
  intro h
  simp only [separated, List.mem_flatMap, List.mem_cons, Char.reduceEq, false_or] at h
  obtain ⟨a, -, h⟩ := h
  exact (plain_code a).2 h

theorem mangle_noDot (x : Ident) (args : List Ty) : '.' ∉ (mangle x.text args).toList := by
  rw [toList_mangle, List.mem_append, not_or]
  exact ⟨x.noDot, separated_noDot args⟩

theorem descriptor_noDot (e : Bool) (ps : List Ty) (t : Ty) : '.' ∉ descriptor e ps t := by
  have hsig : '.' ∉ signature ps t := by
    have hp : Plain (counted '_' code ps) := plain_counted fun a _ => plain_code a
    have ht := plain_code t
    simp [signature, hp.2, ht.2]
  cases e
  · exact hsig
  · simp [descriptor, extension, hsig]

theorem method_dot (owner : Ident) (ownerArgs : List Ty) (name : Ident) (args : List Ty) :
    '.' ∈ (Label.method owner ownerArgs name args).text.toList := by
  simp [Label.text]

theorem overload_noDot (x : Ident) (e : Bool) (ps : List Ty) (t : Ty) :
    '.' ∉ (Label.overload x e ps t).text.toList := by
  rw [toList_overload, List.mem_append, not_or]
  exact ⟨x.noDot, descriptor_noDot e ps t⟩

/-- Names that are joined by a dot come apart at it. -/
theorem dot_append_inj {a b c d : String} (ha : '.' ∉ a.toList) (hc : '.' ∉ c.toList) :
    a ++ "." ++ b = c ++ "." ++ d ↔ a = c ∧ b = d := by
  constructor
  · intro h
    have h' := congrArg String.toList h
    simp only [String.toList_append, List.append_assoc] at h'
    obtain ⟨hac, hbd⟩ := span_inj (p := (· ≠ '.')) (fun x hx e => ha (e ▸ hx))
      (fun x hx e => hc (e ▸ hx)) (by simp) (by simp) h'
    exact ⟨String.toList_inj.mp hac, String.toList_inj.mp (by simpa using hbd)⟩
  · rintro ⟨rfl, rfl⟩
    rfl

/-- Labels are equal when they say the same, up to the names of type parameters. -/
theorem Label.text_inj {l l' : Label} : l.text = l'.text ↔ l.erase = l'.erase := by
  have hne : ∀ {s s' : String}, '.' ∈ s.toList → '.' ∉ s'.toList → s ≠ s' := by
    rintro s s' hs hs' rfl
    exact hs' hs
  cases l with
  | function x as =>
    cases l' with
    | function y bs => simp [text, erase, mangle_inj]
    | overload y e ps t =>
      simp only [erase, reduceCtorEq, iff_false, ← String.toList_inj, toList_overload]
      intro h
      rw [text, toList_mangle] at h
      obtain ⟨-, h⟩ := ident_append_inj (joined_separated as) (joined_descriptor e ps t) h
      exact descriptor_ne_separated e ps t as h.symm
    | method o oa m ma =>
      simp only [erase, reduceCtorEq, iff_false]
      exact (hne (method_dot o oa m ma) (mangle_noDot x as)).symm
  | overload x e ps t =>
    cases l' with
    | function y bs =>
      simp only [erase, reduceCtorEq, iff_false, ← String.toList_inj, toList_overload]
      intro h
      rw [text, toList_mangle] at h
      obtain ⟨-, h⟩ := ident_append_inj (joined_descriptor e ps t) (joined_separated bs) h
      exact descriptor_ne_separated e ps t bs h
    | overload y e' ps' t' =>
      simp only [erase, overload.injEq, ← descriptor_inj, ← String.toList_inj, toList_overload]
      constructor
      · exact ident_append_inj (joined_descriptor e ps t) (joined_descriptor e' ps' t')
      · rintro ⟨rfl, h⟩
        rw [h]
    | method o oa m ma =>
      simp only [erase, reduceCtorEq, iff_false]
      exact (hne (method_dot o oa m ma) (overload_noDot x e ps t)).symm
  | method o oa m ma =>
    cases l' with
    | function y bs =>
      simp only [erase, reduceCtorEq, iff_false]
      exact hne (method_dot o oa m ma) (mangle_noDot y bs)
    | overload y e ps t =>
      simp only [erase, reduceCtorEq, iff_false]
      exact hne (method_dot o oa m ma) (overload_noDot y e ps t)
    | method o' oa' m' ma' =>
      simp only [text, erase, method.injEq,
        dot_append_inj (mangle_noDot o oa) (mangle_noDot o' oa'), mangle_inj, and_assoc]

end Readable

end Loxis.Mono
