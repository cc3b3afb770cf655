import Mathlib.Data.List.Nodup
import Mathlib.Order.Basic
import Mathlib.Order.Nat
import Mathlib.Tactic.Common

/-! # Arguments of calls

A call gives its arguments by position, by name, and as spreads; each parameter gets what
is meant for it. Extra positional arguments go to a `*` parameter and unmatched names to
a `**` parameter.
-/

namespace Loxis.Calls

variable {E : Type}

inductive Arg (E : Type)
  | positional (e : E)
  | spread (e : E)
  | keywordSpread (e : E)
  | named (name : String) (e : E)

/-- What a `**` parameter gets. -/
structure Pack (E : Type) where
  entries : List (String × E)
  spreads : List E
  reservedKeys : List String

/-- What a parameter gets: an argument, the extra positional arguments with a mark on those that are
spread, the unmatched names, or a name that is taken out of them when the call runs. -/
inductive Arranged (E : Type)
  | arg (e : E)
  | rest (elems : List (E × Bool))
  | pack (p : Pack E)
  | fromPack (p : Pack E) (name : String)

structure Binding (E : Type) where
  arranged : List (Option (Arranged E))
  rest : List (E × Bool)
  entries : List (String × E)
  spreads : List E
  seen : List String
  positional : ℕ
  named : Bool

/-- The parameters of a callable, as the parser lets them be written. -/
structure Params where
  fixed : List String
  vararg : Option String
  kwargs : Option String
  nodup : fixed.Nodup

namespace Params

variable (S : Params)

def paramNames : List String := S.fixed ++ S.vararg.toList ++ S.kwargs.toList

def varargIndex : Option ℕ := S.vararg.map fun _ => S.fixed.length

def kwargsIndex : Option ℕ := S.kwargs.map fun _ => S.fixed.length + S.vararg.toList.length

end Params

section Bind

variable (paramNames : List String) (varargIndex kwargsIndex : Option ℕ)

def fixedCount : ℕ := varargIndex.getD (kwargsIndex.getD paramNames.length)

def bindOne (b : Binding E) : Arg E → Except String (Binding E)
  | .spread e =>
    if b.named then .error "positional spread cannot follow a named argument"
    else if varargIndex = none ∨ b.positional < fixedCount paramNames varargIndex kwargsIndex then
      .error "positional spread requires a '*' parameter after all fixed positional arguments"
    else .ok { b with rest := b.rest ++ [(e, true)] }
  | .keywordSpread e =>
    if kwargsIndex = none then .error "keyword spread requires a '**' parameter"
    else .ok { b with named := true, spreads := b.spreads ++ [e] }
  | .named name e =>
    if name ∈ b.seen then .error s!"argument '{name}' is supplied more than once"
    else
      match (paramNames.take (fixedCount paramNames varargIndex kwargsIndex)).idxOf? name with
      | some target =>
        if (b.arranged[target]?.join).isSome then
          .error s!"argument '{name}' is supplied more than once"
        else
          .ok { b with
            named := true
            seen := b.seen ++ [name]
            arranged := b.arranged.set target (some (.arg e)) }
      | none =>
        if kwargsIndex = none then .error s!"unknown named argument '{name}'"
        else
          .ok { b with
            named := true
            seen := b.seen ++ [name]
            entries := b.entries ++ [(name, e)] }
  | .positional e =>
    if b.named then .error "positional argument cannot follow a named argument"
    else if b.positional < fixedCount paramNames varargIndex kwargsIndex then
      .ok { b with
        arranged := b.arranged.set b.positional (some (.arg e))
        positional := b.positional + 1 }
    else if varargIndex = none then .error "too many positional arguments"
    else .ok { b with rest := b.rest ++ [(e, false)] }

def missing (i : ℕ) : String :=
  let name := paramNames.getD i ""
  s!"missing argument '{name}'"

/-- A fixed parameter without an argument gets its name out of the spreads. -/
def fillOne (pack : Pack E) (arranged : List (Option (Arranged E))) (i : ℕ) :
    Except String (List (Option (Arranged E))) :=
  if (arranged[i]?.join).isSome then .ok arranged
  else if pack.spreads.isEmpty then .error (missing paramNames i)
  else .ok (arranged.set i (some (.fromPack pack (paramNames.getD i ""))))

def start : Binding E := ⟨List.replicate paramNames.length none, [], [], [], [], 0, false⟩

/-- The `*` parameter gets the extra positional arguments. -/
def withRest (b : Binding E) : List (Option (Arranged E)) :=
  match varargIndex with
  | some i => b.arranged.set i (some (.rest b.rest))
  | none => b.arranged

/-- The names of the parameters that have an argument. -/
def reservedKeys (arranged : List (Option (Arranged E))) (fixed : ℕ) : List String :=
  (List.range fixed).filterMap fun i =>
    if (arranged[i]?.join).isSome then paramNames[i]? else none

/-- The `**` parameter gets the unmatched names, and gives the missing arguments. -/
def withPack (b : Binding E) (arranged : List (Option (Arranged E))) (fixed : ℕ) :
    Except String (List (Option (Arranged E))) :=
  match kwargsIndex with
  | some k =>
    let pack := ⟨b.entries, b.spreads, reservedKeys paramNames arranged fixed⟩
    (List.range fixed).foldlM (fillOne paramNames pack) (arranged.set k (some (.pack pack)))
  | none => .ok arranged

def finish (b : Binding E) : Except String (List (Option (Arranged E))) := do
  let fixed := fixedCount paramNames varargIndex kwargsIndex
  let arranged ← withPack paramNames kwargsIndex b (withRest varargIndex b) fixed
  match (List.range fixed).find? fun i => (arranged[i]?.join).isNone with
  | some i => .error (missing paramNames i)
  | none => .ok arranged

def bindArguments (args : List (Arg E)) : Except String (List (Option (Arranged E))) := do
  let b ← args.foldlM (bindOne paramNames varargIndex kwargsIndex) (start paramNames)
  finish paramNames varargIndex kwargsIndex b

end Bind

/-! ## What is bound -/

namespace Arg

def isKeyword : Arg E → Bool
  | .keywordSpread _ | .named _ _ => true
  | _ => false

/-- An argument by position, with a mark when it is spread. -/
def loose : Arg E → Option (E × Bool)
  | .positional e => some (e, false)
  | .spread e => some (e, true)
  | _ => none

def byName : Arg E → Option (String × E)
  | .named name e => some (name, e)
  | _ => none

def bySpread : Arg E → Option E
  | .keywordSpread e => some e
  | _ => none

end Arg

def looses (args : List (Arg E)) : List (E × Bool) := args.filterMap Arg.loose

def namedArgs (args : List (Arg E)) : List (String × E) := args.filterMap Arg.byName

def keywordSpreads (args : List (Arg E)) : List E := args.filterMap Arg.bySpread

namespace Params

variable (S : Params)

/-- The argument that is written for a fixed parameter, by position or by name. -/
def slot (args : List (Arg E)) (i : ℕ) : Option (Arranged E) :=
  (S.fixed[i]?.bind fun name =>
    ((looses args)[i]?.map Prod.fst).or ((namedArgs args).lookup name)).map .arg

/-- The arguments of a well-formed call: those by position come first, names are not repeated and do
not name a parameter that has its argument already, and what is extra has a parameter to go to. -/
structure Fits (args : List (Arg E)) : Prop where
  order : args.Pairwise fun a b => a.isKeyword = true → b.isKeyword = true
  names : ((namedArgs args).map Prod.fst).Nodup
  known : S.kwargs = none → ∀ p ∈ namedArgs args, p.1 ∈ S.fixed
  free : ∀ p ∈ namedArgs args, p.1 ∉ S.fixed.take (looses args).length
  count : S.vararg = none → (looses args).length ≤ S.fixed.length
  spread : ∀ p ∈ (looses args).take S.fixed.length, p.2 = false
  keyword : S.kwargs = none → keywordSpreads args = []

/-- What the loop over the arguments has done. -/
structure Bound (args : List (Arg E)) (b : Binding E) : Prop where
  fits : S.Fits args
  named : b.named = args.any Arg.isKeyword
  seen : b.seen = (namedArgs args).map Prod.fst
  positional : b.positional = min S.fixed.length (looses args).length
  rest : b.rest = (looses args).drop S.fixed.length
  length : b.arranged.length = S.paramNames.length
  slots : ∀ i, b.arranged[i]?.join = S.slot args i
  entries : b.entries = (namedArgs args).filter fun p => p.1 ∉ S.fixed
  spreads : b.spreads = keywordSpreads args

variable {S} {args : List (Arg E)} {b b' : Binding E} {e : E} {name : String}

theorem fixedCount_eq :
    fixedCount S.paramNames S.varargIndex S.kwargsIndex = S.fixed.length := by
  unfold fixedCount paramNames varargIndex kwargsIndex
  cases S.vararg with
  | some v => rfl
  | none =>
    cases S.kwargs with
    | some k => rfl
    | none => simp

theorem take_paramNames : S.paramNames.take S.fixed.length = S.fixed := by
  rw [paramNames, List.append_assoc, List.take_left]

theorem length_le_paramNames : S.fixed.length ≤ S.paramNames.length := by
  rw [paramNames, List.append_assoc, List.length_append]
  exact Nat.le_add_right _ _

theorem looses_append (l l' : List (Arg E)) : looses (l ++ l') = looses l ++ looses l' :=
  List.filterMap_append

theorem namedArgs_append (l l' : List (Arg E)) :
    namedArgs (l ++ l') = namedArgs l ++ namedArgs l' := List.filterMap_append

theorem keywordSpreads_append (l l' : List (Arg E)) :
    keywordSpreads (l ++ l') = keywordSpreads l ++ keywordSpreads l' := List.filterMap_append

theorem namedArgs_eq_nil (h : args.any Arg.isKeyword = false) : namedArgs args = [] := by
  refine List.filterMap_eq_nil_iff.mpr fun a ha => ?_
  have := List.any_eq_false.mp h a ha
  cases a with
  | named name e => exact absurd rfl this
  | _ => rfl

theorem order_snoc {a : Arg E} (h : S.Fits args)
    (ha : args.any Arg.isKeyword = false ∨ a.isKeyword = true) :
    (args ++ [a]).Pairwise fun a b => a.isKeyword = true → b.isKeyword = true := by
  refine List.pairwise_append.mpr ⟨h.order, List.pairwise_singleton _ _, fun c hc d hd hkey => ?_⟩
  obtain rfl := List.mem_singleton.mp hd
  rcases ha with hnone | ha
  · exact absurd hkey (List.any_eq_false.mp hnone c hc)
  · exact ha

theorem bound_start : S.Bound ([] : List (Arg E)) (start S.paramNames) := by
  constructor
  case fits =>
    constructor
    case order => exact .nil
    case names => exact .nil
    case known => intro _ p hp; cases hp
    case free => intro p hp; cases hp
    case count => exact fun _ => Nat.zero_le _
    case spread =>
      intro p hp
      rw [looses, List.filterMap_nil, List.take_nil] at hp
      cases hp
    case keyword => exact fun _ => rfl
  case named => rfl
  case seen => rfl
  case positional => exact (Nat.min_zero _).symm
  case rest => exact List.drop_nil.symm
  case length => exact List.length_replicate
  case slots =>
    intro i
    have hslot : S.slot ([] : List (Arg E)) i = none := by
      unfold slot
      cases S.fixed[i]? with
      | none => rfl
      | some name => rfl
    rw [hslot, start, List.getElem?_replicate]
    split
    · rfl
    · rfl
  case entries => rfl
  case spreads => rfl

/-! ### Arguments by position -/

section Loose

variable {a : Arg E} {p : E × Bool}

theorem looses_loose (ha : a.loose = some p) : looses (args ++ [a]) = looses args ++ [p] := by
  rw [looses_append]
  simp [looses, ha]

theorem namedArgs_loose (ha : a.loose = some p) : namedArgs (args ++ [a]) = namedArgs args := by
  rw [namedArgs_append]
  cases a with
  | named name e => cases ha
  | _ => exact List.append_nil _

theorem keywordSpreads_loose (ha : a.loose = some p) :
    keywordSpreads (args ++ [a]) = keywordSpreads args := by
  rw [keywordSpreads_append]
  cases a with
  | keywordSpread e => cases ha
  | _ => exact List.append_nil _

theorem isKeyword_of_loose (ha : a.loose = some p) : a.isKeyword = false := by
  cases a with
  | named name e => cases ha
  | keywordSpread e => cases ha
  | _ => rfl

theorem any_isKeyword_loose (ha : a.loose = some p) :
    (args ++ [a]).any Arg.isKeyword = args.any Arg.isKeyword := by
  simp [isKeyword_of_loose ha]

theorem fits_loose (hb : S.Bound args b) (ha : a.loose = some p) (hn : b.named = false)
    (hcount : S.vararg = none → (looses args).length < S.fixed.length)
    (hspread : (looses args).length < S.fixed.length → p.2 = false) : S.Fits (args ++ [a]) := by
  have hkey : args.any Arg.isKeyword = false := hb.named.symm.trans hn
  constructor
  case order => exact order_snoc hb.fits (Or.inl hkey)
  case names =>
    rw [namedArgs_loose ha]
    exact hb.fits.names
  case known =>
    rw [namedArgs_loose ha]
    exact hb.fits.known
  case free =>
    -- There are no names yet.
    rw [namedArgs_loose ha, namedArgs_eq_nil hkey]
    intro q hq
    cases hq
  case count =>
    intro hv
    rw [looses_loose ha, List.length_append]
    exact hcount hv
  case spread =>
    intro q hq
    rw [looses_loose ha, List.take_append] at hq
    rcases List.mem_append.mp hq with hq | hq
    · exact hb.fits.spread q hq
    · obtain rfl := List.mem_singleton.mp (List.mem_of_mem_take hq)
      apply hspread
      by_contra hge
      rw [Nat.sub_eq_zero_of_le (not_lt.mp hge)] at hq
      cases hq
  case keyword =>
    rw [keywordSpreads_loose ha]
    exact hb.fits.keyword

/-- An argument that goes beyond the fixed parameters. -/
theorem Bound.extra (hb : S.Bound args b) (ha : a.loose = some p) (hn : b.named = false)
    (hlen : S.fixed.length ≤ (looses args).length) (hv : S.vararg ≠ none) :
    S.Bound (args ++ [a]) { b with rest := b.rest ++ [p] } := by
  constructor
  case fits => exact fits_loose hb ha hn (fun h => absurd h hv) fun h => absurd h (not_lt.mpr hlen)
  case named => exact hb.named.trans (any_isKeyword_loose ha).symm
  case seen =>
    rw [namedArgs_loose ha]
    exact hb.seen
  case positional =>
    rw [looses_loose ha, List.length_append, min_eq_left (hlen.trans (Nat.le_add_right _ _))]
    exact hb.positional.trans (min_eq_left hlen)
  case rest => rw [looses_loose ha, List.drop_append_of_le_length hlen, hb.rest]
  case length => exact hb.length
  case slots =>
    intro i
    rw [hb.slots i]
    unfold slot
    cases hi : S.fixed[i]? with
    | none => rfl
    | some name =>
      have := (List.getElem?_eq_some_iff.mp hi).1
      rw [looses_loose ha, namedArgs_loose ha, List.getElem?_append_left (by omega)]
  case entries =>
    rw [namedArgs_loose ha]
    exact hb.entries
  case spreads =>
    rw [keywordSpreads_loose ha]
    exact hb.spreads

/-- What is placed is what the parameter at the next position is given. -/
theorem slot_place (hlt : (looses args).length < S.fixed.length) (i : ℕ) :
    S.slot (args ++ [.positional e]) i =
      if i = (looses args).length then some (.arg e) else S.slot args i := by
  have hl : looses (args ++ [.positional e]) = looses args ++ [(e, false)] := looses_loose rfl
  have hnamed : namedArgs (args ++ [.positional e]) = namedArgs args := namedArgs_loose rfl
  unfold slot
  rw [hl, hnamed]
  split
  · next hi =>
    rw [hi, List.getElem?_eq_getElem hlt, List.getElem?_concat_length]
    rfl
  · next hi =>
    rw [List.getElem?_append]
    split
    · rfl
    · have hold : (looses args)[i]? = none := List.getElem?_eq_none (by omega)
      have hnew : [(e, false)][i - (looses args).length]? = none := by
        apply List.getElem?_eq_none
        rw [List.length_singleton]
        omega
      rw [hold, hnew]

/-- An argument that a fixed parameter gets by its position. -/
theorem Bound.place (hb : S.Bound args b) (hn : b.named = false)
    (hlt : (looses args).length < S.fixed.length) :
    S.Bound (args ++ [.positional e]) { b with
      arranged := b.arranged.set b.positional (some (.arg e))
      positional := b.positional + 1 } := by
  have ha : (Arg.positional e).loose = some (e, false) := rfl
  have hpos : b.positional = (looses args).length := by
    rw [hb.positional]
    exact min_eq_right hlt.le
  constructor
  case fits => exact fits_loose hb ha hn (fun _ => hlt) fun _ => rfl
  case named => exact hb.named.trans (any_isKeyword_loose ha).symm
  case seen =>
    rw [namedArgs_loose ha]
    exact hb.seen
  case positional =>
    change b.positional + 1 = _
    rw [looses_loose ha, List.length_append, hpos]
    exact (min_eq_right hlt).symm
  case rest =>
    rw [looses_loose ha, List.drop_of_length_le (by rw [List.length_append]; exact hlt), hb.rest,
      List.drop_of_length_le hlt.le]
  case length => exact List.length_set.trans hb.length
  case slots =>
    intro i
    have hlen : (looses args).length < b.arranged.length := by
      rw [hb.length]
      exact hlt.trans_le length_le_paramNames
    rw [slot_place hlt, hpos]
    split
    · next hi => rw [hi, List.getElem?_set_self hlen, Option.join_some]
    · next hi => rw [List.getElem?_set_ne (Ne.symm hi), hb.slots i]
  case entries =>
    rw [namedArgs_loose ha]
    exact hb.entries
  case spreads =>
    rw [keywordSpreads_loose ha]
    exact hb.spreads

end Loose

/-! ### Keywords -/

theorem Bound.keywordSpread (hb : S.Bound args b) (hk : S.kwargs ≠ none) :
    S.Bound (args ++ [.keywordSpread e]) { b with named := true, spreads := b.spreads ++ [e] } := by
  have hl : looses (args ++ [.keywordSpread e]) = looses args :=
    (looses_append _ _).trans (List.append_nil _)
  have hnamed : namedArgs (args ++ [.keywordSpread e]) = namedArgs args :=
    (namedArgs_append _ _).trans (List.append_nil _)
  have hspreads : keywordSpreads (args ++ [.keywordSpread e]) = keywordSpreads args ++ [e] :=
    keywordSpreads_append _ _
  have hfits : S.Fits (args ++ [.keywordSpread e]) := by
    constructor
    case order => exact order_snoc hb.fits (Or.inr rfl)
    case names => exact hnamed ▸ hb.fits.names
    case known => exact fun h => absurd h hk
    case free =>
      rw [hnamed, hl]
      exact hb.fits.free
    case count => exact hl ▸ hb.fits.count
    case spread => exact hl ▸ hb.fits.spread
    case keyword => exact fun h => absurd h hk
  constructor
  case fits => exact hfits
  case named =>
    rw [List.any_append]
    exact (Bool.or_true _).symm
  case seen => exact hnamed ▸ hb.seen
  case positional => exact hl ▸ hb.positional
  case rest => exact hl ▸ hb.rest
  case length => exact hb.length
  case slots =>
    intro i
    rw [hb.slots i, slot, slot, hl, hnamed]
  case entries => exact hnamed ▸ hb.entries
  case spreads => rw [hspreads, hb.spreads]

section Named

/-- What a named argument leaves as it is. -/
theorem looses_named : looses (args ++ [.named name e]) = looses args :=
  (looses_append _ _).trans (List.append_nil _)

theorem namedArgs_named : namedArgs (args ++ [.named name e]) = namedArgs args ++ [(name, e)] :=
  namedArgs_append _ _

theorem keywordSpreads_named : keywordSpreads (args ++ [.named name e]) = keywordSpreads args :=
  (keywordSpreads_append _ _).trans (List.append_nil _)

theorem slot_named_of_ne {i : ℕ} (h : S.fixed[i]? ≠ some name) :
    S.slot (args ++ [.named name e]) i = S.slot args i := by
  unfold slot
  rw [looses_named, namedArgs_named]
  cases hi : S.fixed[i]? with
  | none => rfl
  | some other =>
    have hne : other ≠ name := fun he => h (he ▸ hi)
    rw [Option.bind_some, Option.bind_some, List.lookup_append, List.lookup_cons,
      beq_false_of_ne hne, List.lookup_nil, Option.or_none]

theorem fits_named (hb : S.Bound args b) (hseen : name ∉ b.seen)
    (hknown : S.kwargs = none → name ∈ S.fixed)
    (hfree : name ∉ S.fixed.take (looses args).length) :
    S.Fits (args ++ [.named name e]) := by
  constructor
  case order => exact order_snoc hb.fits (Or.inr rfl)
  case names =>
    rw [namedArgs_named, List.map_append]
    rw [hb.seen] at hseen
    apply List.nodup_append.mpr
    refine ⟨hb.fits.names, List.nodup_singleton _, fun x hx y hy he => ?_⟩
    obtain rfl := List.mem_singleton.mp hy
    exact hseen (he ▸ hx)
  case known =>
    intro h p hp
    rw [namedArgs_named] at hp
    rcases List.mem_append.mp hp with hp | hp
    · exact hb.fits.known h p hp
    · rw [List.mem_singleton.mp hp]
      exact hknown h
  case free =>
    intro p hp
    rw [namedArgs_named] at hp
    rw [looses_named]
    rcases List.mem_append.mp hp with hp | hp
    · exact hb.fits.free p hp
    · rw [List.mem_singleton.mp hp]
      exact hfree
  case count =>
    rw [looses_named]
    exact hb.fits.count
  case spread =>
    rw [looses_named]
    exact hb.fits.spread
  case keyword =>
    rw [keywordSpreads_named]
    exact hb.fits.keyword

/-- What a name does whether or not a fixed parameter has it. -/
theorem Bound.addName {arranged : List (Option (Arranged E))} {entries : List (String × E)}
    (hb : S.Bound args b) (hfits : S.Fits (args ++ [.named name e]))
    (hlength : arranged.length = b.arranged.length)
    (hslots : ∀ i, arranged[i]?.join = S.slot (args ++ [.named name e]) i)
    (hentries : entries = b.entries ++ [(name, e)].filter fun p => p.1 ∉ S.fixed) :
    S.Bound (args ++ [.named name e]) { b with
      named := true, seen := b.seen ++ [name], arranged := arranged, entries := entries } := by
  constructor
  case fits => exact hfits
  case named =>
    rw [List.any_append]
    exact (Bool.or_true _).symm
  case seen =>
    rw [namedArgs_named, List.map_append, hb.seen]
    rfl
  case positional =>
    rw [looses_named]
    exact hb.positional
  case rest =>
    rw [looses_named]
    exact hb.rest
  case length => exact hlength.trans hb.length
  case slots => exact hslots
  case entries => rw [hentries, namedArgs_named, List.filter_append, hb.entries]
  case spreads =>
    rw [keywordSpreads_named]
    exact hb.spreads

/-- An argument that a fixed parameter gets by its name. -/
theorem Bound.byName {k : ℕ} (hb : S.Bound args b) (hseen : name ∉ b.seen)
    (hk : S.fixed[k]? = some name) (hfree : b.arranged[k]?.join = none) :
    S.Bound (args ++ [.named name e]) { b with
      named := true
      seen := b.seen ++ [name]
      arranged := b.arranged.set k (some (.arg e)) } := by
  obtain ⟨hlt, hget⟩ := List.getElem?_eq_some_iff.mp hk
  have hmem : name ∈ S.fixed := List.mem_of_getElem? hk
  have hslot := (hb.slots k).symm.trans hfree
  have hloose : (looses args).length ≤ k := by
    unfold slot at hslot
    rw [hk] at hslot
    by_contra hgt
    rw [List.getElem?_eq_getElem (not_le.mp hgt)] at hslot
    cases hslot
  have hnew : (namedArgs args).lookup name = none := by
    unfold slot at hslot
    rw [hk, List.getElem?_eq_none hloose] at hslot
    simpa using hslot
  -- Names of parameters are not repeated: the position of a name is the only one.
  have hunique : ∀ i, S.fixed[i]? = some name → k = i := by
    intro i hi
    obtain ⟨hlt', hget'⟩ := List.getElem?_eq_some_iff.mp hi
    exact (List.Nodup.getElem_inj_iff S.nodup).mp (hget.trans hget'.symm)
  apply Bound.addName hb
  case hfits =>
    apply fits_named hb hseen (fun _ => hmem)
    intro htake
    obtain ⟨j, hj, hjk⟩ := List.mem_take_iff_getElem.mp htake
    have := hunique j (List.getElem?_eq_some_iff.mpr ⟨by omega, hjk⟩)
    omega
  case hlength => exact List.length_set
  case hslots =>
    intro i
    by_cases hi : k = i
    · subst hi
      have hlen : k < b.arranged.length := by
        rw [hb.length]
        exact hlt.trans_le length_le_paramNames
      rw [List.getElem?_set_self hlen]
      unfold slot
      rw [hk, looses_named, namedArgs_named, Option.bind_some, List.getElem?_eq_none hloose,
        List.lookup_append, hnew, List.lookup_cons, beq_self_eq_true]
      rfl
    · rw [List.getElem?_set_ne hi, slot_named_of_ne fun hi' => hi (hunique i hi'), hb.slots i]
  case hentries => simp [hmem]

/-- A name that goes to the `**` parameter. -/
theorem Bound.entry (hb : S.Bound args b) (hseen : name ∉ b.seen) (hnot : name ∉ S.fixed)
    (hk : S.kwargs ≠ none) :
    S.Bound (args ++ [.named name e]) { b with
      named := true
      seen := b.seen ++ [name]
      entries := b.entries ++ [(name, e)] } := by
  apply Bound.addName hb
  case hfits =>
    apply fits_named hb hseen (fun h => absurd h hk)
    exact fun htake => hnot (List.mem_of_mem_take htake)
  case hlength => rfl
  case hslots =>
    intro i
    rw [slot_named_of_ne fun hi => hnot (List.mem_of_getElem? hi), hb.slots i]
  case hentries => simp [hnot]

end Named

/-! ### The loop -/

theorem bound_bindOne {a : Arg E} (hb : S.Bound args b)
    (h : bindOne S.paramNames S.varargIndex S.kwargsIndex b a = .ok b') :
    S.Bound (args ++ [a]) b' := by
  have hv : S.vararg = none → S.varargIndex = none := fun hv => by rw [varargIndex, hv]; rfl
  have hk : S.kwargs = none → S.kwargsIndex = none := fun hk => by rw [kwargsIndex, hk]; rfl
  have hpos := hb.positional
  cases a with
  | spread e =>
    simp only [bindOne, fixedCount_eq] at h
    split at h
    · cases h
    · next hn =>
      split at h
      · cases h
      · next hor =>
        obtain rfl := Except.ok.inj h
        obtain ⟨hv', hge⟩ := not_or.mp hor
        exact hb.extra rfl (Bool.eq_false_iff.mpr hn) (by omega) fun he => hv' (hv he)
  | positional e =>
    simp only [bindOne, fixedCount_eq] at h
    split at h
    · cases h
    · next hn =>
      split at h
      · obtain rfl := Except.ok.inj h
        exact hb.place (Bool.eq_false_iff.mpr hn) (by omega)
      · split at h
        · cases h
        · next hge hv' =>
          obtain rfl := Except.ok.inj h
          exact hb.extra rfl (Bool.eq_false_iff.mpr hn) (by omega) fun he => hv' (hv he)
  | keywordSpread e =>
    simp only [bindOne] at h
    split at h
    · cases h
    · next hk' =>
      obtain rfl := Except.ok.inj h
      exact hb.keywordSpread fun he => hk' (hk he)
  | named name e =>
    simp only [bindOne, fixedCount_eq, take_paramNames] at h
    split at h
    · cases h
    · next hseen =>
      split at h
      · next target ht =>
        split at h
        · cases h
        · next hsome =>
          obtain rfl := Except.ok.inj h
          obtain ⟨hlt, hget, -⟩ := List.idxOf?_eq_some_iff.mp ht
          exact hb.byName hseen (List.getElem?_eq_some_iff.mpr ⟨hlt, hget⟩)
            (Option.not_isSome_iff_eq_none.mp hsome)
      · next hnone =>
        split at h
        · cases h
        · next hk' =>
          obtain rfl := Except.ok.inj h
          exact hb.entry hseen (List.idxOf?_eq_none_iff.mp hnone) fun he => hk' (hk he)

theorem bound_foldlM {l : List (Arg E)} (hb : S.Bound args b)
    (h : l.foldlM (bindOne S.paramNames S.varargIndex S.kwargsIndex) b = .ok b') :
    S.Bound (args ++ l) b' := by
  induction l generalizing args b with
  | nil =>
    obtain rfl := Except.ok.inj h
    rwa [List.append_nil]
  | cons a l ih =>
    rw [List.foldlM_cons] at h
    cases ha : bindOne S.paramNames S.varargIndex S.kwargsIndex b a with
    | error message =>
      rw [ha] at h
      cases h
    | ok c =>
      rw [ha] at h
      have := ih (bound_bindOne hb ha) h
      rwa [List.append_assoc] at this

/-! ### Parameters without an argument -/

theorem fillOne_ok {pack : Pack E} {l l' : List (Option (Arranged E))} {i : ℕ}
    (h : fillOne S.paramNames pack l i = .ok l') :
    ((l[i]?.join).isSome = true ∧ l' = l) ∨ (l[i]?.join = none ∧ pack.spreads ≠ [] ∧
      l' = l.set i (some (.fromPack pack (S.paramNames.getD i "")))) := by
  unfold fillOne at h
  split at h
  · next hsome => exact Or.inl ⟨hsome, (Except.ok.inj h).symm⟩
  · next hnone =>
    split at h
    · cases h
    · next hspreads =>
      refine Or.inr ⟨Option.not_isSome_iff_eq_none.mp hnone, ?_, (Except.ok.inj h).symm⟩
      exact fun he => hspreads (by rw [he]; rfl)

/-- What filling does to the parameters: those that have something keep it. -/
theorem foldlM_fillOne {pack : Pack E} {is : List ℕ} {l l' : List (Option (Arranged E))}
    (hn : is.Nodup) (hlen : ∀ i ∈ is, i < l.length)
    (h : is.foldlM (fillOne S.paramNames pack) l = .ok l') :
    l'.length = l.length ∧ (∀ j, l'[j]?.join =
      if j ∈ is ∧ l[j]?.join = none then some (.fromPack pack (S.paramNames.getD j ""))
      else l[j]?.join) ∧ ∀ j ∈ is, l[j]?.join = none → pack.spreads ≠ [] := by
  induction is generalizing l with
  | nil =>
    obtain rfl := Except.ok.inj h
    exact ⟨rfl, fun j => (if_neg fun hj => by cases hj.1).symm, fun j hj => by cases hj⟩
  | cons i is ih =>
    obtain ⟨hi, hn⟩ := List.nodup_cons.mp hn
    obtain ⟨hlt, hlen⟩ := List.forall_mem_cons.mp hlen
    rw [List.foldlM_cons] at h
    cases hf : fillOne S.paramNames pack l i with
    | error message =>
      rw [hf] at h
      cases h
    | ok m =>
      rw [hf] at h
      rcases fillOne_ok hf with ⟨hsome, rfl⟩ | ⟨hnone, hspreads, rfl⟩
      · obtain ⟨hl, hj, hs⟩ := ih hn hlen h
        have hne : ¬ m[i]?.join = none := fun he => by
          rw [he] at hsome
          cases hsome
        refine ⟨hl, fun j => (hj j).trans ?_, fun j hmem hnone => ?_⟩
        · by_cases hji : j = i
          · subst hji
            rw [if_neg fun hj => hi hj.1, if_neg fun hj => hne hj.2]
          · simp [hji]
        · rcases List.mem_cons.mp hmem with rfl | hmem
          · exact absurd hnone hne
          · exact hs j hmem hnone
      · obtain ⟨hl, hj, -⟩ := ih hn (by simpa using hlen) h
        refine ⟨hl.trans List.length_set, fun j => (hj j).trans ?_, fun _ _ _ => hspreads⟩
        by_cases hji : j = i
        · subst hji
          rw [List.getElem?_set_self hlt, if_neg (by simp), if_pos ⟨List.mem_cons_self, hnone⟩]
          rfl
        · rw [List.getElem?_set_ne (Ne.symm hji)]
          simp [hji]

/-! ### The whole call -/

variable (S) in
/-- What the `**` parameter gets. -/
def pack (args : List (Arg E)) : Pack E where
  entries := (namedArgs args).filter fun p => p.1 ∉ S.fixed
  spreads := keywordSpreads args
  reservedKeys := (List.range S.fixed.length).filterMap fun i =>
    if (S.slot args i).isSome then S.fixed[i]? else none

variable (S) in
/-- The call is well formed, and every parameter has what is meant for it. -/
structure Binds (args : List (Arg E)) (out : List (Option (Arranged E))) : Prop where
  fits : S.Fits args
  length : out.length = S.paramNames.length
  fixed : ∀ i (hi : i < S.fixed.length),
    out[i]?.join = some ((S.slot args i).getD (.fromPack (S.pack args) S.fixed[i]))
  complete : ∀ i < S.fixed.length, S.slot args i = none →
    S.kwargs ≠ none ∧ keywordSpreads args ≠ []
  vararg : S.vararg ≠ none →
    out[S.fixed.length]?.join = some (.rest ((looses args).drop S.fixed.length))
  kwargs : S.kwargs ≠ none →
    out[S.fixed.length + S.vararg.toList.length]?.join = some (.pack (S.pack args))

theorem length_withRest (hb : S.Bound args b) :
    (withRest S.varargIndex b).length = S.paramNames.length := by
  unfold withRest
  split
  · exact List.length_set.trans hb.length
  · exact hb.length

theorem withRest_of_lt (hb : S.Bound args b) {i : ℕ} (hi : i < S.fixed.length) :
    (withRest S.varargIndex b)[i]?.join = S.slot args i := by
  unfold withRest
  split
  · next k hk =>
    obtain ⟨-, -, rfl⟩ := Option.map_eq_some_iff.mp hk
    rw [List.getElem?_set_ne (ne_of_gt hi), hb.slots]
  · exact hb.slots i

theorem withRest_vararg (hb : S.Bound args b) (hv : S.vararg ≠ none) :
    (withRest S.varargIndex b)[S.fixed.length]?.join =
      some (.rest ((looses args).drop S.fixed.length)) := by
  obtain ⟨v, hv⟩ := Option.ne_none_iff_exists'.mp hv
  have hlt : S.fixed.length < b.arranged.length := by
    rw [hb.length, paramNames, hv, List.length_append, List.length_append]
    simp
    omega
  have hindex : S.varargIndex = some S.fixed.length := by rw [varargIndex, hv]; rfl
  rw [hindex, withRest, List.getElem?_set_self hlt, hb.rest]
  rfl

theorem paramNames_getElem? {i : ℕ} (hi : i < S.fixed.length) :
    S.paramNames[i]? = S.fixed[i]? := by
  rw [paramNames, List.append_assoc, List.getElem?_append_left hi]

theorem pack_eq (hb : S.Bound args b) :
    (⟨b.entries, b.spreads, reservedKeys S.paramNames (withRest S.varargIndex b) S.fixed.length⟩ :
      Pack E) = S.pack args := by
  rw [pack, hb.entries, hb.spreads, reservedKeys]
  congr 1
  refine List.filterMap_congr fun i hi => ?_
  have hlt := List.mem_range.mp hi
  rw [withRest_of_lt hb hlt, paramNames_getElem? hlt]

theorem kwargsIndex_some (hk : S.kwargs = some name) :
    S.kwargsIndex = some (S.fixed.length + S.vararg.toList.length) := by
  rw [kwargsIndex, hk]
  rfl

theorem lt_set_withRest (hb : S.Bound args b) {k : ℕ} {x : Option (Arranged E)} :
    ∀ i ∈ List.range S.fixed.length, i < ((withRest S.varargIndex b).set k x).length := by
  intro i hi
  rw [List.length_set, length_withRest hb]
  exact (List.mem_range.mp hi).trans_le length_le_paramNames

theorem set_withRest_of_lt (hb : S.Bound args b) {i k : ℕ} {x : Option (Arranged E)}
    (hi : i < S.fixed.length) :
    ((withRest S.varargIndex b).set (S.fixed.length + k) x)[i]?.join = S.slot args i := by
  rw [List.getElem?_set_ne (by omega), withRest_of_lt hb hi]

theorem binds_of_withPack {out : List (Option (Arranged E))} (hb : S.Bound args b)
    (hp : withPack S.paramNames S.kwargsIndex b (withRest S.varargIndex b) S.fixed.length = .ok out)
    (hall : ∀ i < S.fixed.length, out[i]?.join ≠ none) : S.Binds args out := by
  cases hk : S.kwargs with
  | none =>
    have hindex : S.kwargsIndex = none := by rw [kwargsIndex, hk]; rfl
    rw [hindex] at hp
    obtain rfl := Except.ok.inj hp
    have hsome : ∀ i < S.fixed.length, S.slot args i ≠ none := fun i hi => by
      rw [← withRest_of_lt hb hi]
      exact hall i hi
    refine ⟨hb.fits, length_withRest hb, fun i hi => ?_,
      fun i hi hnone => absurd hnone (hsome i hi), withRest_vararg hb, fun h => absurd hk h⟩
    obtain ⟨a, ha⟩ := Option.ne_none_iff_exists'.mp (hsome i hi)
    rw [withRest_of_lt hb hi, ha]
    rfl
  | some name =>
    have hlt : S.fixed.length + S.vararg.toList.length < S.paramNames.length := by
      rw [paramNames, hk, List.length_append, List.length_append]
      exact Nat.lt_succ_self _
    rw [kwargsIndex_some hk, withPack] at hp
    simp only [pack_eq hb] at hp
    obtain ⟨hl, hj, hs⟩ := foldlM_fillOne List.nodup_range (lt_set_withRest hb) hp
    refine ⟨hb.fits, hl.trans (List.length_set.trans (length_withRest hb)), fun i hi => ?_,
      fun i hi hnone => ⟨by simp [hk], ?_⟩, fun hv => ?_, fun _ => ?_⟩
    · rw [hj i, set_withRest_of_lt hb hi]
      cases S.slot args i with
      | none =>
        rw [if_pos ⟨List.mem_range.mpr hi, rfl⟩, List.getD_eq_getElem?_getD,
          paramNames_getElem? hi, List.getElem?_eq_getElem hi]
        rfl
      | some a =>
        rw [if_neg (by simp)]
        rfl
    · exact hs i (List.mem_range.mpr hi) ((set_withRest_of_lt hb hi).trans hnone)
    · obtain ⟨v, hv'⟩ := Option.ne_none_iff_exists'.mp hv
      rw [hj, if_neg fun h => lt_irrefl _ (List.mem_range.mp h.1), List.getElem?_set_ne]
      · exact withRest_vararg hb hv
      · rw [hv']
        exact (Nat.lt_succ_self _).ne'
    · rw [hj, if_neg fun h => not_lt.mpr (Nat.le_add_right _ _) (List.mem_range.mp h.1),
        List.getElem?_set_self (by rwa [length_withRest hb])]
      rfl

theorem binds_of_bindArguments {out : List (Option (Arranged E))}
    (h : bindArguments S.paramNames S.varargIndex S.kwargsIndex args = .ok out) :
    S.Binds args out := by
  unfold bindArguments at h
  cases hl : args.foldlM (bindOne S.paramNames S.varargIndex S.kwargsIndex)
      (start S.paramNames) with
  | error message =>
    rw [hl] at h
    cases h
  | ok b =>
    have hb : S.Bound args b := bound_foldlM bound_start hl
    rw [hl] at h
    dsimp only [bind, Except.bind] at h
    unfold finish at h
    simp only [fixedCount_eq] at h
    cases hp : withPack S.paramNames S.kwargsIndex b (withRest S.varargIndex b)
        S.fixed.length with
    | error message =>
      rw [hp] at h
      cases h
    | ok l =>
      rw [hp] at h
      dsimp only [bind, Except.bind] at h
      split at h
      · cases h
      · next hfind =>
        obtain rfl := Except.ok.inj h
        refine binds_of_withPack hb hp fun i hi hnone => ?_
        have := List.find?_eq_none.mp hfind i (List.mem_range.mpr hi)
        rw [hnone] at this
        exact this rfl

/-! ### Accepted calls -/

theorem Fits.of_append {l : List (Arg E)} (h : S.Fits (args ++ l)) : S.Fits args := by
  have hlen : (looses args).length ≤ (looses (args ++ l)).length := by
    rw [looses_append, List.length_append]
    exact Nat.le_add_right _ _
  refine ⟨(List.pairwise_append.mp h.order).1, ?_, fun hk p hp => ?_, fun p hp hmem => ?_,
    fun hv => hlen.trans (h.count hv), fun p hp => ?_, fun hk => ?_⟩
  · have := h.names
    rw [namedArgs_append, List.map_append] at this
    exact (List.nodup_append.mp this).1
  · exact h.known hk p (namedArgs_append args l ▸ List.mem_append_left _ hp)
  · refine h.free p (namedArgs_append args l ▸ List.mem_append_left _ hp) ?_
    exact (List.take_subset_take_left _ hlen) hmem
  · refine h.spread p ?_
    rw [looses_append, List.take_append]
    exact List.mem_append_left _ hp
  · have := h.keyword hk
    rw [keywordSpreads_append] at this
    exact (List.append_eq_nil_iff.mp this).1

/-- An argument by position has no keyword before it. -/
theorem named_eq_false {a : Arg E} (hb : S.Bound args b) (hf : S.Fits (args ++ [a]))
    (ha : a.isKeyword = false) : ¬ b.named = true := by
  intro hn
  obtain ⟨c, hc, hkey⟩ := List.any_eq_true.mp (hb.named.symm.trans hn)
  have := (List.pairwise_append.mp hf.order).2.2 c hc a List.mem_cons_self hkey
  rw [ha] at this
  cases this

/-- A spread goes beyond the fixed parameters. -/
theorem le_of_spread (hf : S.Fits (args ++ [.spread e])) :
    S.fixed.length ≤ (looses args).length := by
  by_contra hlt
  have hl : looses (args ++ [.spread e]) = looses args ++ [(e, true)] := looses_loose rfl
  have hmem := hf.spread (e, true)
  rw [hl, List.take_of_length_le (by rw [List.length_append, List.length_singleton]; omega)] at hmem
  cases hmem (List.mem_append_right _ List.mem_cons_self)

/-- What goes beyond the fixed parameters needs a `*` parameter. -/
theorem vararg_ne_none {a : Arg E} {p : E × Bool} (hf : S.Fits (args ++ [a]))
    (ha : a.loose = some p) (hle : S.fixed.length ≤ (looses args).length) : S.vararg ≠ none := by
  intro hv
  have := hf.count hv
  rw [looses_loose ha, List.length_append, List.length_singleton] at this
  omega

theorem bindOne_of_fits {a : Arg E} (hb : S.Bound args b) (hf : S.Fits (args ++ [a])) :
    ∃ b', bindOne S.paramNames S.varargIndex S.kwargsIndex b a = .ok b' := by
  have hv : S.vararg ≠ none → S.varargIndex ≠ none := fun h he =>
    h (Option.map_eq_none_iff.mp he)
  have hk : S.kwargs ≠ none → S.kwargsIndex ≠ none := fun h he =>
    h (Option.map_eq_none_iff.mp he)
  have hpos := hb.positional
  cases a with
  | spread e =>
    have hle := le_of_spread hf
    have hor : ¬ (S.varargIndex = none ∨ b.positional < S.fixed.length) :=
      not_or.mpr ⟨hv (vararg_ne_none hf rfl hle), by omega⟩
    simp only [bindOne, fixedCount_eq]
    rw [if_neg (named_eq_false hb hf rfl), if_neg hor]
    exact ⟨_, rfl⟩
  | positional e =>
    simp only [bindOne, fixedCount_eq]
    rw [if_neg (named_eq_false hb hf rfl)]
    split
    · exact ⟨_, rfl⟩
    · rw [if_neg (hv (vararg_ne_none hf rfl (by omega)))]
      exact ⟨_, rfl⟩
  | keywordSpread e =>
    have hkwargs : S.kwargs ≠ none := fun he => by
      have := hf.keyword he
      rw [keywordSpreads_append] at this
      cases (List.append_eq_nil_iff.mp this).2
    simp only [bindOne]
    rw [if_neg (hk hkwargs)]
    exact ⟨_, rfl⟩
  | named name e =>
    have hnames := hf.names
    rw [namedArgs_named, List.map_append] at hnames
    have hnew : name ∉ (namedArgs args).map Prod.fst := fun hmem =>
      (List.nodup_append.mp hnames).2.2 name hmem name List.mem_cons_self rfl
    have hlast : (name, e) ∈ namedArgs (args ++ [.named name e]) := by
      rw [namedArgs_named]
      exact List.mem_append_right _ List.mem_cons_self
    simp only [bindOne, fixedCount_eq, take_paramNames]
    rw [if_neg (by rwa [hb.seen])]
    split
    · next target ht =>
      obtain ⟨hlt, hget, -⟩ := List.idxOf?_eq_some_iff.mp ht
      have hfree := hf.free _ hlast
      rw [looses_named] at hfree
      have hle : (looses args).length ≤ target := by
        by_contra hgt
        exact hfree (List.mem_take_iff_getElem.mpr ⟨target, by omega, hget⟩)
      have hnone : S.slot args target = none := by
        unfold slot
        rw [List.getElem?_eq_getElem hlt, hget, List.getElem?_eq_none hle]
        have hlookup : (namedArgs args).lookup name = none := by
          rw [List.lookup_eq_none_iff]
          intro p hp
          exact bne_iff_ne.mpr fun he => hnew (he ▸ List.mem_map_of_mem hp)
        simp [hlookup]
      rw [hb.slots, hnone]
      exact ⟨_, rfl⟩
    · next hnot =>
      rw [if_neg (hk fun he => List.idxOf?_eq_none_iff.mp hnot (hf.known he _ hlast))]
      exact ⟨_, rfl⟩

theorem foldlM_of_fits {l : List (Arg E)} (hb : S.Bound args b) (hf : S.Fits (args ++ l)) :
    ∃ b', l.foldlM (bindOne S.paramNames S.varargIndex S.kwargsIndex) b = .ok b' := by
  induction l generalizing args b with
  | nil => exact ⟨b, rfl⟩
  | cons a l ih =>
    rw [List.append_cons] at hf
    obtain ⟨c, hc⟩ := bindOne_of_fits hb hf.of_append
    obtain ⟨b', hb'⟩ := ih (bound_bindOne hb hc) hf
    refine ⟨b', ?_⟩
    rw [List.foldlM_cons, hc]
    exact hb'

theorem foldlM_fillOne_ok {pack : Pack E} {is : List ℕ} {l : List (Option (Arranged E))}
    (hn : is.Nodup) (h : ∀ i ∈ is, l[i]?.join = none → pack.spreads ≠ []) :
    ∃ l', is.foldlM (fillOne S.paramNames pack) l = .ok l' := by
  induction is generalizing l with
  | nil => exact ⟨l, rfl⟩
  | cons i is ih =>
    obtain ⟨hi, hn⟩ := List.nodup_cons.mp hn
    obtain ⟨hhead, htail⟩ := List.forall_mem_cons.mp h
    rw [List.foldlM_cons, fillOne]
    split
    · exact ih hn htail
    · next hsome =>
      have hspreads := hhead (Option.not_isSome_iff_eq_none.mp hsome)
      rw [if_neg (by simpa using hspreads)]
      refine ih hn fun j hj hnone => hspreads

theorem withPack_of_complete (hb : S.Bound args b)
    (hcomplete : ∀ i < S.fixed.length, S.slot args i = none →
      S.kwargs ≠ none ∧ keywordSpreads args ≠ []) :
    ∃ out, withPack S.paramNames S.kwargsIndex b (withRest S.varargIndex b) S.fixed.length =
      .ok out ∧ ∀ i < S.fixed.length, out[i]?.join ≠ none := by
  cases hk : S.kwargs with
  | none =>
    have hindex : S.kwargsIndex = none := by rw [kwargsIndex, hk]; rfl
    rw [hindex]
    refine ⟨_, rfl, fun i hi hnone => ?_⟩
    rw [withRest_of_lt hb hi] at hnone
    exact (hcomplete i hi hnone).1 hk
  | some name =>
    rw [kwargsIndex_some hk]
    simp only [withPack, pack_eq hb]
    have hspreads : ∀ i ∈ List.range S.fixed.length, ((withRest S.varargIndex b).set
        (S.fixed.length + S.vararg.toList.length) (some (.pack (S.pack args))))[i]?.join = none →
          (S.pack args).spreads ≠ [] := fun i hi hnone =>
      (hcomplete i (List.mem_range.mp hi)
        ((set_withRest_of_lt hb (List.mem_range.mp hi)).symm.trans hnone)).2
    obtain ⟨out, hout⟩ := foldlM_fillOne_ok (S := S) List.nodup_range hspreads
    refine ⟨out, hout, fun i hi hnone => ?_⟩
    obtain ⟨-, hj, -⟩ := foldlM_fillOne List.nodup_range (lt_set_withRest hb) hout
    rw [hj i] at hnone
    split at hnone
    · cases hnone
    · next h => exact h ⟨List.mem_range.mpr hi, hnone⟩

theorem bindArguments_of_fits (hf : S.Fits args)
    (hcomplete : ∀ i < S.fixed.length, S.slot args i = none →
      S.kwargs ≠ none ∧ keywordSpreads args ≠ []) :
    ∃ out, bindArguments S.paramNames S.varargIndex S.kwargsIndex args = .ok out := by
  have hf' : S.Fits ([] ++ args) := hf
  obtain ⟨b, hl⟩ := foldlM_of_fits bound_start hf'
  have hb : S.Bound args b := bound_foldlM bound_start hl
  obtain ⟨out, hp, hall⟩ := withPack_of_complete hb hcomplete
  have hfind : ((List.range S.fixed.length).find? fun i => (out[i]?.join).isNone) = none := by
    refine List.find?_eq_none.mpr fun i hi hnone => ?_
    exact hall i (List.mem_range.mp hi) (Option.isNone_iff_eq_none.mp hnone)
  refine ⟨out, ?_⟩
  unfold bindArguments
  rw [hl]
  dsimp only [bind, Except.bind]
  unfold finish
  simp only [fixedCount_eq]
  rw [hp]
  dsimp only [bind, Except.bind]
  rw [hfind]

variable (S) in
/-- A call is accepted exactly when it is well formed and leaves no parameter without an argument,
and then every parameter gets exactly what is meant for it: its argument by position or by name, the
extra positional arguments in order, the unmatched names in order, or its name out of the
spreads. -/
theorem bindArguments_exact (args : List (Arg E)) :
    ((∃ out, bindArguments S.paramNames S.varargIndex S.kwargsIndex args = .ok out) ↔
      S.Fits args ∧ ∀ i < S.fixed.length, S.slot args i = none →
        S.kwargs ≠ none ∧ keywordSpreads args ≠ []) ∧
      ∀ out, bindArguments S.paramNames S.varargIndex S.kwargsIndex args = .ok out →
        S.Binds args out := by
  refine ⟨?_, fun out => binds_of_bindArguments⟩
  constructor
  · rintro ⟨out, h⟩
    have hbinds := binds_of_bindArguments h
    exact ⟨hbinds.fits, hbinds.complete⟩
  · rintro ⟨hf, hcomplete⟩
    exact bindArguments_of_fits hf hcomplete

/-- `total(1, *values, **options)` for `fun total(base: int, *values: int, **options: int)`. -/
example : bindArguments ["base", "values", "options"] (some 1) (some 2)
    [.positional 1, .spread 2, .keywordSpread 3] =
      .ok [some (.arg 1), some (.rest [(2, true)]), some (.pack ⟨[], [3], ["base"]⟩)] := rfl

end Params

end Loxis.Calls
