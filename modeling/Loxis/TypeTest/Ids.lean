import Mathlib.Data.List.Induction
import Mathlib.Data.List.Nodup
import Mathlib.Data.List.Range
import Loxis.TypeTest.TypeIds

/-! # When type ids are distinct

The ids of specialisations follow the last class or object, so that they are taken where enum
classes come after it.
-/

namespace Loxis.TypeTest

open Program

variable {decls : List Decl} {es : List Emit} {hir : List HirClass}

theorem noTypeId_lt : noTypeId < idRange := by decide

theorem declaredId_of_lt {i : ℕ} (h : i < idRange) : declaredId i = i := Nat.mod_eq_of_lt h

/-! ## The counter's start -/

/-- The type id in the built class. -/
def builtId (i : ℕ) (d : Decl) : ℕ := if d.kind = .enum then noTypeId else declaredId i

theorem builtId_enum {i : ℕ} {d : Decl} (h : d.kind = .enum) : builtId i d = noTypeId := if_pos h

theorem builtId_of_ne {i : ℕ} {d : Decl} (h : d.kind ≠ .enum) (hi : i < idRange) :
    builtId i d = i :=
  (if_neg h).trans (declaredId_of_lt hi)

theorem buildItem_typeId {i : ℕ} {d : Decl} : (buildItem decls i d).typeId = builtId i d := by
  cases h : d.kind <;> simp [buildItem, builtId, buildClass, buildObject, buildEnumClass, h]

theorem build_getElem? {i : ℕ} :
    (build decls)[i]? = (decls[i]?).map fun d => buildItem decls i d := by
  rw [build, List.getElem?_map, List.getElem?_zipIdx, Option.map_map, Nat.zero_add]
  rfl

theorem build_getD {i : ℕ} {d : Decl} (hd : decls[i]? = some d) :
    ((build decls)[i]?).getD buildEnumClass = buildItem decls i d := by
  rw [build_getElem?, hd]
  rfl

def builtIds (decls : List Decl) : List ℕ := decls.zipIdx.map fun (d, i) => builtId i d

theorem builtIds_append (d : Decl) :
    builtIds (decls ++ [d]) = builtIds decls ++ [builtId decls.length d] := by
  simp [builtIds, List.zipIdx_append]

/-- The counter after the type ids of the classes so far. -/
def countTo (ids : List ℕ) : ℕ :=
  ids.foldl (fun next id => if id ≠ noTypeId ∧ next ≤ id then (id + 1) % idRange else next) 1

theorem firstTypeId_eq : firstTypeId (build decls) = countTo (builtIds decls) := by
  rw [firstTypeId, countTo, build, builtIds, List.foldl_map, List.foldl_map]
  simp only [buildItem_typeId]

theorem countTo_append (ids : List ℕ) (id : ℕ) : countTo (ids ++ [id]) =
    if id ≠ noTypeId ∧ countTo ids ≤ id then (id + 1) % idRange else countTo ids := by
  rw [countTo, List.foldl_append]
  rfl

/-- The counter starts behind the last class or object. -/
theorem countTo_last {d : Decl} (h : decls.length < noTypeId)
    (hle : countTo (builtIds decls) ≤ max 1 decls.length) :
    countTo (builtIds (decls ++ [d])) =
      if d.kind = .enum then countTo (builtIds decls) else decls.length + 1 := by
  have hrange : noTypeId + 1 = idRange := by decide
  rw [builtIds_append, countTo_append]
  by_cases hkind : d.kind = .enum
  · simp [builtId_enum hkind, hkind]
  · rw [builtId_of_ne hkind (by omega), if_neg hkind, Nat.mod_eq_of_lt (by omega)]
    split
    · rfl
    · omega

theorem countTo_le (h : decls.length ≤ noTypeId) :
    countTo (builtIds decls) ≤ max 1 decls.length := by
  induction decls using List.reverseRecOn with
  | nil => exact Nat.le_refl _
  | append_singleton decls d ih =>
    rw [List.length_append, List.length_singleton] at h
    have hle := ih (by omega)
    rw [countTo_last (by omega) hle, List.length_append, List.length_singleton]
    split <;> omega

/-- The last declaration is no enum class, or the only one. -/
def LastCounts (decls : List Decl) : Prop :=
  decls.length ≤ 1 ∨ ∃ d, decls.getLast? = some d ∧ d.kind ≠ .enum

theorem firstTypeId_of_lastCounts (h : decls.length ≤ noTypeId) (hpos : 0 < decls.length) :
    (decls.length ≤ firstTypeId (build decls) ↔ LastCounts decls) ∧
      (LastCounts decls → firstTypeId (build decls) = decls.length) := by
  rw [firstTypeId_eq]
  induction decls using List.reverseRecOn with
  | nil => cases hpos
  | append_singleton decls d =>
    rw [List.length_append, List.length_singleton] at h
    have hshort : decls.length ≤ noTypeId := by omega
    have hle := countTo_le hshort
    rw [countTo_last (by omega) hle, LastCounts, List.getLast?_append, List.length_append,
      List.length_singleton]
    by_cases hkind : d.kind = .enum
    · cases decls with
      | nil => simp [hkind, builtIds, countTo]
      | cons c decls =>
        rw [List.length_cons] at hle ⊢
        simp [hkind]
        omega
    · simp [hkind]

/-! ## The classes of the output -/

theorem monomorphize_getElem? {next : ℕ} (hnext : next < idRange) (k : ℕ) :
    (monomorphize hir next es)[k]? = (es[k]?).map fun
      | .copy i => (hir[i]?).getD buildEnumClass
      | .spec i _ => { (hir[i]?).getD buildEnumClass with
          typeId := (next + (es.take k).countP Emit.isSpec) % idRange } := by
  induction es generalizing next k with
  | nil => rfl
  | cons e es ih =>
    cases e with
    | copy i =>
      cases k with
      | zero => rfl
      | succ k => simpa [monomorphize, Emit.isSpec] using ih hnext k
    | spec i typeArgs =>
      cases k with
      | zero => simp [monomorphize, Nat.mod_eq_of_lt hnext]
      | succ k =>
        have hstep := ih (Nat.mod_lt (next + 1) (by decide)) k
        simp only [monomorphize, List.getElem?_cons_succ, hstep, List.take_succ_cons,
          List.countP_cons, Emit.isSpec, if_true, Nat.mod_add_mod]
        rw [Nat.add_right_comm]
        rfl

theorem monomorphize_copy {next k i : ℕ} (hnext : next < idRange)
    (he : es[k]? = some (.copy i)) :
    (monomorphize hir next es)[k]? = some ((hir[i]?).getD buildEnumClass) := by
  rw [monomorphize_getElem? hnext, he]
  rfl

theorem monomorphize_spec {next k i : ℕ} {typeArgs : List Mono.Ty} (hnext : next < idRange)
    (he : es[k]? = some (.spec i typeArgs)) :
    (monomorphize hir next es)[k]? =
      some ⟨(next + (es.take k).countP Emit.isSpec) % idRange,
        ((hir[i]?).getD buildEnumClass).parentTypeId⟩ := by
  rw [monomorphize_getElem? hnext, he]
  rfl

/-! ## Blocks of ids -/

/-- Consecutive ids. -/
def block (b n : ℕ) : List ℕ := (List.range n).map fun i => (b + i) % idRange

theorem mem_block {b n x : ℕ} (h : b + n ≤ noTypeId) : x ∈ block b n ↔ b ≤ x ∧ x < b + n := by
  have hlt := noTypeId_lt
  simp only [block, List.mem_map, List.mem_range]
  constructor
  · rintro ⟨i, hi, rfl⟩
    rw [Nat.mod_eq_of_lt (by omega)]
    omega
  · rintro ⟨hle, hx⟩
    exact ⟨x - b, by omega, by rw [Nat.add_sub_cancel' hle, Nat.mod_eq_of_lt (by omega)]⟩

theorem block_nodup {b n : ℕ} (h : b + n ≤ noTypeId) : (block b n).Nodup := by
  have hlt := noTypeId_lt
  apply List.Nodup.map_on _ List.nodup_range
  intro i hi j hj heq
  rw [List.mem_range] at hi hj
  rwa [Nat.mod_eq_of_lt (by omega), Nat.mod_eq_of_lt (by omega), Nat.add_left_cancel_iff] at heq

/-- A block that starts below the missing id and does not meet it ends below it. -/
theorem block_le {b n : ℕ} (hb : b ≤ noTypeId) (h : noTypeId ∉ block b n) :
    b + n ≤ noTypeId := by
  by_contra hlarge
  apply h
  exact List.mem_map.mpr ⟨noTypeId - b, List.mem_range.mpr (by omega), by
    rw [Nat.add_sub_cancel' hb, Nat.mod_eq_of_lt noTypeId_lt]⟩

theorem block_succ {b n : ℕ} (hb : b < idRange) :
    block b (n + 1) = b :: block ((b + 1) % idRange) n := by
  rw [block, List.range_succ_eq_map, List.map_cons, List.map_map, Nat.add_zero,
    Nat.mod_eq_of_lt hb, block]
  congr 1
  apply List.map_congr_left
  intro i _
  rw [Nat.mod_add_mod, Nat.add_assoc, Nat.add_comm 1 i]
  rfl

theorem specIds_eq_block {next : ℕ} (hnext : next < idRange) :
    specIds es (monomorphize hir next es) = block next (es.countP Emit.isSpec) := by
  induction es generalizing next with
  | nil => rfl
  | cons e es ih =>
    cases e with
    | copy i => simpa [specIds, monomorphize, Emit.isSpec] using ih hnext
    | spec i typeArgs =>
      have hstep := ih (Nat.mod_lt (next + 1) (by decide))
      rw [List.countP_cons_of_pos rfl, block_succ hnext, ← hstep]
      rfl

/-! ## Distinct ids -/

theorem declaredIds_eq {n : ℕ} : (List.range n).map declaredId = block 0 n := by
  simp only [block, Nat.zero_add]
  rfl

theorem firstTypeId_le (h : decls.length ≤ noTypeId) : firstTypeId (build decls) ≤ noTypeId := by
  have hle := countTo_le h
  have hpos : 1 ≤ noTypeId := by decide
  rw [firstTypeId_eq]
  omega

theorem Program.ids_eq {p : Program} (h : p.decls.length ≤ noTypeId) :
    p.ids = block 0 p.decls.length ++
      block (firstTypeId (build p.decls)) (p.emitted.countP Emit.isSpec) ++
      block envBase p.closures := by
  have hnext := Nat.lt_of_le_of_lt (firstTypeId_le h) noTypeId_lt
  rw [ids, classes, specIds_eq_block hnext, declaredIds_eq]
  rfl

/-- Some class, object or enum class is declared where one is specialised. -/
theorem Program.WellFormed.decls_pos {p : Program} (hwf : p.WellFormed)
    (h : 0 < p.emitted.countP Emit.isSpec) : 0 < p.decls.length := by
  obtain ⟨e, he, hspec⟩ := List.countP_pos_iff.mp h
  cases e with
  | copy i => cases hspec
  | spec i typeArgs =>
    obtain ⟨d, hd, -⟩ := hwf.specs i typeArgs he
    exact Nat.lt_of_le_of_lt (Nat.zero_le i) (List.getElem?_eq_some_iff.mp hd).1

theorem Program.IdsCondition.fresh_iff {p : Program} :
    ((∀ e ∈ p.emitted, e.isSpec = false) ∨ p.decls.length ≤ 1 ∨
      ∃ d, p.decls.getLast? = some d ∧ d.kind ≠ .enum) ↔
    (0 < p.emitted.countP Emit.isSpec → LastCounts p.decls) := by
  rw [LastCounts, List.countP_pos_iff]
  constructor
  · rintro (h | h) ⟨e, he, hspec⟩
    · exact absurd hspec (by simp [h e he])
    · exact h
  · intro h
    by_cases hspec : ∃ e ∈ p.emitted, e.isSpec = true
    · exact .inr (h hspec)
    · exact .inl (by simpa using hspec)

/-- Specialisations follow the declarations. -/
theorem Program.IdsCondition.specBlock_eq {p : Program} (hwf : p.WellFormed)
    (h : p.IdsCondition) :
    block (firstTypeId (build p.decls)) (p.emitted.countP Emit.isSpec) =
      block p.decls.length (p.emitted.countP Emit.isSpec) := by
  obtain hzero | hpos := Nat.eq_zero_or_pos (p.emitted.countP Emit.isSpec)
  · rw [hzero]
    rfl
  · have hle : p.decls.length ≤ noTypeId := by
      have := h.bounded
      omega
    rw [(firstTypeId_of_lastCounts hle (hwf.decls_pos hpos)).2
      (IdsCondition.fresh_iff.mp h.fresh hpos)]

theorem Program.IdsCondition.ids_nodup {p : Program} (hwf : p.WellFormed)
    (h : p.IdsCondition) : (noTypeId :: p.ids).Nodup := by
  have hbounded := h.bounded
  have hdecls : 0 + p.decls.length ≤ noTypeId := by omega
  have henv : envBase + p.closures ≤ noTypeId := by
    obtain h | h := h.closures
    · rw [h]
      decide
    · exact h.2
  rw [ids_eq (by omega), h.specBlock_eq hwf, List.nodup_cons, List.nodup_append,
    List.nodup_append]
  simp only [List.mem_append, mem_block hdecls, mem_block hbounded, mem_block henv]
  refine ⟨by omega, ⟨block_nodup hdecls, block_nodup hbounded, by omega⟩, block_nodup henv, ?_⟩
  have hclosures := h.closures
  intro a ha b hb
  omega

theorem Program.idsCondition {p : Program} (hwf : p.WellFormed) (h : (noTypeId :: p.ids).Nodup) :
    p.IdsCondition := by
  obtain ⟨hmissing, hnodup⟩ := List.nodup_cons.mp h
  have hdecls : 0 + p.decls.length ≤ noTypeId := by
    apply block_le (Nat.zero_le _)
    rw [← declaredIds_eq]
    exact fun hmem => hmissing (List.mem_append_left _ (List.mem_append_left _ hmem))
  have hle : p.decls.length ≤ noTypeId := by omega
  rw [ids_eq hle] at hmissing hnodup
  have hspecs := block_le (firstTypeId_le hle) fun hmem =>
    hmissing (List.mem_append_left _ (List.mem_append_right _ hmem))
  have henv := block_le (by decide) fun hmem => hmissing (List.mem_append_right _ hmem)
  simp only [List.nodup_append, List.mem_append, mem_block hdecls, mem_block hspecs,
    mem_block henv] at hnodup
  obtain ⟨⟨-, -, hdisjoint⟩, -, hdisjoint'⟩ := hnodup
  -- the first specialisation has an id of its own
  have hfresh : 0 < p.emitted.countP Emit.isSpec →
      p.decls.length ≤ firstTypeId (build p.decls) := by
    intro hpos
    by_contra hlt
    exact hdisjoint _ ⟨Nat.zero_le _, by omega⟩ _ ⟨Nat.le_refl _, by omega⟩ rfl
  have hlast : 0 < p.emitted.countP Emit.isSpec → LastCounts p.decls ∧
      firstTypeId (build p.decls) = p.decls.length := by
    intro hpos
    obtain ⟨hiff, heq⟩ := firstTypeId_of_lastCounts hle (hwf.decls_pos hpos)
    have hcounts := hiff.mp (hfresh hpos)
    exact ⟨hcounts, heq hcounts⟩
  refine ⟨IdsCondition.fresh_iff.mpr fun hpos => (hlast hpos).1, ?_, ?_⟩
  · obtain hzero | hpos := Nat.eq_zero_or_pos (p.emitted.countP Emit.isSpec)
    · omega
    · rw [(hlast hpos).2] at hspecs
      exact hspecs
  · obtain hzero | hpos := Nat.eq_zero_or_pos p.closures
    · exact .inl hzero
    · refine .inr ⟨?_, henv⟩
      by_contra hlt
      obtain hdecl | hspec := Nat.lt_or_ge envBase p.decls.length
      · exact hdisjoint' envBase (.inl ⟨Nat.zero_le _, by omega⟩) envBase
          ⟨Nat.le_refl _, by omega⟩ rfl
      · have heq := (hlast (by omega)).2
        exact hdisjoint' envBase (.inr ⟨by omega, by omega⟩) envBase
          ⟨Nat.le_refl _, by omega⟩ rfl

end Loxis.TypeTest
