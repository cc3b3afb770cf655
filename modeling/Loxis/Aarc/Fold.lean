import Mathlib.Algebra.BigOperators.Group.List.Basic
import Mathlib.Data.Fintype.Card
import Loxis.Lib.Probe
import Loxis.Aarc.Transport

/-! # Folding a batch

`Runtime::foldBatch`: within one producer batch the root operations on a handle
collapse into their net delta, placed where the first of them stood. The scratch
table is open-addressed over the packed handle. The result is that of a plain pass
that keeps first occurrences.
-/

namespace Loxis.Aarc

open Function

def packHandle (h : ObjHandle) : Size :=
  (BitVec.ofNat 64 h.index <<< 32) ||| BitVec.ofNat 64 h.gen

/-- Never a packed handle. -/
def kNoFoldKey : Size := BitVec.allOnes 64

def kFoldSlots : ℕ := kMaxBatch * 2

/-- `ObjHandleHash`. -/
def ObjHandle.hash (h : ObjHandle) : Size :=
  let x := packHandle h
  let x := x ^^^ (x >>> 33)
  let x := x * 0xff51afd7ed558ccd
  x ^^^ (x >>> 33)

/-- The handle of a cell: a slot index below the null index and a 32-bit generation. -/
def ObjHandle.Slot (h : ObjHandle) : Prop := h.index < kNullIndex ∧ h.gen ≤ kGenMax

structure FoldEntry where
  key : Size := kNoFoldKey
  delta : ℤ := 0
  outPos : ℕ := 0

/-- The scratch table with the entries touched so far, and the folded messages. -/
structure FoldState where
  tab : ℕ → FoldEntry
  used : List ℕ := []
  folded : List GCMessage := []

namespace GCMessage

/-- The root operations that fold. -/
def isRoot (m : GCMessage) : Bool := m.op = .rootAdd || m.op = .rootRemove

def sign (m : GCMessage) : ℤ := if m.op = .rootAdd then 1 else -1

/-- Rewrite a folded message to a net delta; a balanced pair leaves a `RootCheck`. -/
def setDelta (m : GCMessage) (delta : ℤ) : GCMessage :=
  if 0 < delta then { m with op := .rootAdd, count := delta.toNat }
  else if delta < 0 then { m with op := .rootRemove, count := (-delta).toNat }
  else { m with op := .rootCheck, count := 0 }

@[simp] theorem setDelta_b (m : GCMessage) (delta : ℤ) : (m.setDelta delta).b = m.b := by
  unfold setDelta
  split_ifs <;> rfl

end GCMessage

/-- Where the probe for a handle stops. -/
def FoldEntry.stops (key : Size) (e : FoldEntry) : Bool := e.key = key || e.key = kNoFoldKey

theorem FoldEntry.stops_iff {key : Size} {e : FoldEntry} :
    e.stops key = true ↔ e.key = key ∨ e.key = kNoFoldKey := by
  simp [stops]

namespace FoldState

variable (s : FoldState)

/-- The table slot of a handle: its own, or the empty one it will take. -/
def slotOf (h : ObjHandle) : ℕ :=
  probe (fun p => (s.tab p).stops (packHandle h)) kFoldSlots kFoldSlots (h.hash.toNat % kFoldSlots)

/-- Take one message of the batch. -/
def take (m : GCMessage) : FoldState :=
  if !m.isRoot then { s with folded := s.folded ++ [m] }
  else
    let p := s.slotOf m.b
    let e := s.tab p
    if e.key = packHandle m.b then
      { s with
        tab := update s.tab p { e with delta := e.delta + m.sign }
        folded := s.folded.modify e.outPos (·.setDelta (e.delta + m.sign)) }
    else
      { tab := update s.tab p ⟨packHandle m.b, m.sign, s.folded.length⟩
        used := s.used ++ [p]
        folded := s.folded ++ [m] }

/-- Empty the entries the batch has touched. -/
def reset : ℕ → FoldEntry :=
  s.used.foldl (fun tab p => update tab p { tab p with key := kNoFoldKey }) s.tab

end FoldState

/-- Fold a batch over a scratch table; returns the table for the next batch. -/
def foldBatch (tab : ℕ → FoldEntry) (batch : List GCMessage) :
    (ℕ → FoldEntry) × List GCMessage :=
  let s := batch.foldl FoldState.take { tab }
  (s.reset, s.folded)

/-- A batch as producers stage it: at most `kMaxBatch` messages, root operations on cells,
one root each, and no `RootCheck`. -/
structure Staged (batch : List GCMessage) : Prop where
  length_le : batch.length ≤ kMaxBatch
  no_check : ∀ m ∈ batch, m.op ≠ .rootCheck
  slot : ∀ m ∈ batch, m.isRoot → m.b.Slot
  count_one : ∀ m ∈ batch, m.isRoot → m.count = 1

section Spec

/-- The net root delta of a handle over a batch. -/
def net (batch : List GCMessage) (h : ObjHandle) : ℤ :=
  ((batch.filter fun m => m.isRoot && m.b = h).map GCMessage.sign).sum

/-- Some root operation on the handle. -/
def touched (batch : List GCMessage) (h : ObjHandle) : Bool :=
  batch.any fun m => m.isRoot && m.b = h

/-- The messages that open an entry of the folded batch, after a prefix of it: everything but
the root operations on a handle already touched. -/
def keptAfter (pre : List GCMessage) : List GCMessage → List GCMessage
  | [] => []
  | m :: ms =>
    if m.isRoot && touched pre m.b then keptAfter (pre ++ [m]) ms
    else m :: keptAfter (pre ++ [m]) ms

/-- What becomes of a kept message. -/
def settle (batch : List GCMessage) (m : GCMessage) : GCMessage :=
  if m.isRoot then m.setDelta (net batch m.b) else m

@[simp] theorem settle_b (batch : List GCMessage) (m : GCMessage) : (settle batch m).b = m.b := by
  unfold settle
  split <;> simp

/-- The part of the folded batch that a prefix accounts for. -/
def foldedUpTo (batch pre : List GCMessage) : List GCMessage :=
  (keptAfter [] pre).map (settle batch)

/-- The folded batch: each root operation at its first occurrence, with the net delta. -/
def folded (batch : List GCMessage) : List GCMessage := foldedUpTo batch batch

variable {batch pre : List GCMessage} {m : GCMessage} {h : ObjHandle}

theorem touched_append : touched (batch ++ [m]) h = (touched batch h || (m.isRoot && m.b = h)) := by
  simp [touched]

theorem net_append : net (batch ++ [m]) h =
    net batch h + if m.isRoot = true ∧ m.b = h then m.sign else 0 := by
  unfold net
  split <;> simp_all [List.filter_append]

theorem net_of_not_touched (ht : touched batch h = false) : net batch h = 0 := by
  have : batch.filter (fun m => m.isRoot && m.b = h) = [] := by
    simpa [touched, List.filter_eq_nil_iff] using ht
  simp [net, this]

theorem keptAfter_append : keptAfter pre (batch ++ [m]) =
    keptAfter pre batch ++ if m.isRoot && touched (pre ++ batch) m.b then [] else [m] := by
  induction batch generalizing pre with
  | nil => simp only [List.nil_append, keptAfter, List.append_nil]
  | cons x xs ih =>
    simp only [List.cons_append, keptAfter, ih, List.append_assoc]
    split <;> simp

theorem foldedUpTo_append : foldedUpTo batch (pre ++ [m]) =
    foldedUpTo batch pre ++ if m.isRoot && touched pre m.b then [] else [settle batch m] := by
  rw [foldedUpTo, keptAfter_append, List.map_append, List.nil_append]
  split <;> rfl

theorem mem_keptAfter (h : m ∈ keptAfter pre batch) : m ∈ batch := by
  induction batch generalizing pre with
  | nil => exact h
  | cons x xs ih =>
    unfold keptAfter at h
    split at h
    · exact List.mem_cons_of_mem _ (ih h)
    · exact (List.mem_cons.mp h).elim (· ▸ List.mem_cons_self) (List.mem_cons_of_mem _ <| ih ·)

/-- A touched handle is kept once. -/
theorem touched_iff_kept :
    touched batch h = true ↔ ∃ m ∈ keptAfter [] batch, m.isRoot = true ∧ m.b = h := by
  induction batch using List.reverseRecOn with
  | nil => simp [touched, keptAfter]
  | append_singleton xs x ih =>
    rw [touched_append, keptAfter_append, Bool.or_eq_true, ih, List.nil_append]
    constructor
    · rintro (⟨m, hm, h'⟩ | hx)
      · exact ⟨m, List.mem_append_left _ hm, h'⟩
      · simp only [Bool.and_eq_true, decide_eq_true_eq] at hx
        obtain ⟨hr, rfl⟩ := hx
        by_cases ht : touched xs x.b = true
        · obtain ⟨m, hm, h'⟩ := ih.mp ht
          exact ⟨m, List.mem_append_left _ hm, h'⟩
        · exact ⟨x, by simp [hr, ht], hr, rfl⟩
    · rintro ⟨m, hm, hr, rfl⟩
      rcases List.mem_append.mp hm with hm | hm
      · exact Or.inl ⟨m, hm, hr, rfl⟩
      · split at hm
        · cases hm
        · obtain rfl := List.mem_singleton.mp hm
          exact Or.inr (by simp [hr])

end Spec

section Correct

variable {batch : List GCMessage} {m : GCMessage} {h h' : ObjHandle} {s : FoldState}

theorem packHandle_toNat (hs : h.Slot) : (packHandle h).toNat = 2 ^ 32 * h.index + h.gen := by
  have h1 : h.index < 2 ^ 32 - 1 := hs.1
  have h2 : h.gen ≤ 2 ^ 32 - 1 := hs.2
  simp only [packHandle, BitVec.toNat_or, BitVec.toNat_shiftLeft, BitVec.toNat_ofNat]
  rw [Nat.mod_eq_of_lt (show h.index < 2 ^ 64 by omega),
    Nat.mod_eq_of_lt (show h.gen < 2 ^ 64 by omega), Nat.shiftLeft_eq, Nat.mul_comm,
    Nat.mod_eq_of_lt (by omega), ← Nat.two_pow_add_eq_or_of_lt (by omega)]

theorem packHandle_inj (hs : h.Slot) (hs' : h'.Slot) (he : packHandle h = packHandle h') :
    h = h' := by
  have h1 := packHandle_toNat hs
  have h2 := packHandle_toNat hs'
  rw [he, h2] at h1
  have := hs.2
  have := hs'.2
  simp only [kGenMax] at *
  cases h
  cases h'
  simp only [ObjHandle.mk.injEq] at *
  omega

theorem packHandle_ne (hs : h.Slot) : packHandle h ≠ kNoFoldKey := by
  intro he
  have h1 := packHandle_toNat hs
  rw [he] at h1
  have h2 := hs.1
  have h3 := hs.2
  simp only [kNoFoldKey, BitVec.toNat_allOnes, kNullIndex, kGenMax] at *
  omega

/-- The table and the output after the prefix `batch`. -/
structure FoldOk (batch : List GCMessage) (s : FoldState) : Prop where
  folded : s.folded = folded batch
  entry : ∀ j m, (keptAfter [] batch)[j]? = some m → m.isRoot = true →
    (s.tab (s.slotOf m.b)).key = packHandle m.b ∧
      (s.tab (s.slotOf m.b)).delta = net batch m.b ∧ (s.tab (s.slotOf m.b)).outPos = j
  taken : ∀ p, (s.tab p).key ≠ kNoFoldKey →
    p ∈ s.used ∧ ∃ m ∈ keptAfter [] batch, m.isRoot = true ∧ (s.tab p).key = packHandle m.b
  used_le : s.used.length ≤ batch.length

/-- While the batch fits, the probe finds the handle or an empty slot. -/
theorem FoldOk.slotOf (hk : FoldOk batch s) (hlen : batch.length < kFoldSlots) (h : ObjHandle) :
    (s.tab (s.slotOf h)).key = packHandle h ∨ (s.tab (s.slotOf h)).key = kNoFoldKey := by
  obtain ⟨p, hp, hpu⟩ : ∃ p < kFoldSlots, p ∉ s.used := by
    by_contra hn
    push Not at hn
    have hsub : Finset.range kFoldSlots ⊆ s.used.toFinset := fun p hp =>
      List.mem_toFinset.mpr (hn p (Finset.mem_range.mp hp))
    have := (Finset.card_le_card hsub).trans (List.toFinset_card_le _)
    rw [Finset.card_range] at this
    have := hk.used_le
    omega
  have hempty : (s.tab p).key = kNoFoldKey := by_contra fun hne => hpu (hk.taken p hne).1
  have hstop : (s.tab p).stops (packHandle h) = true := by simp [FoldEntry.stops, hempty]
  have hlt : h.hash.toNat % kFoldSlots < kFoldSlots := Nat.mod_lt _ (by decide)
  have := @probe_stops (fun p => (s.tab p).stops (packHandle h)) _ _ _ hlt hp hstop
  exact FoldEntry.stops_iff.mp this

/-- Patching an entry moves no handle. -/
theorem slotOf_congr {t : FoldState} (hkey : ∀ p, (t.tab p).key = (s.tab p).key) :
    t.slotOf h = s.slotOf h := by
  simp only [FoldState.slotOf, FoldEntry.stops, hkey]

/-- Taking an empty slot moves no handle that has one. -/
theorem slotOf_insert {t : FoldState} {p : ℕ} (hkey : ∀ q, q ≠ p → t.tab q = s.tab q)
    (hp : (s.tab p).key = kNoFoldKey) (hs : h.Slot)
    (hh : (s.tab (s.slotOf h)).key = packHandle h) : t.slotOf h = s.slotOf h := by
  refine probe_update (fun q hq => by rw [hkey q hq]) (FoldEntry.stops_iff.mpr (Or.inr hp)) ?_
  intro he
  rw [← he] at hp
  exact packHandle_ne hs (hh.symm.trans hp)

/-- The handle that takes the empty slot is found there. -/
theorem slotOf_insert_self {t : FoldState} (hkey : ∀ q, q ≠ s.slotOf h → t.tab q = s.tab q)
    (hp : (s.tab (s.slotOf h)).key = kNoFoldKey)
    (hh : (t.tab (s.slotOf h)).key = packHandle h) : t.slotOf h = s.slotOf h := by
  have : (fun q => (t.tab q).stops (packHandle h)) = fun q => (s.tab q).stops (packHandle h) := by
    funext q
    by_cases hq : q = s.slotOf h
    · rw [hq, FoldEntry.stops_iff.mpr (Or.inl hh), FoldEntry.stops_iff.mpr (Or.inr hp)]
    · rw [hkey q hq]
  exact congrArg (probe · kFoldSlots kFoldSlots _) this

/-- Another message settles as before. -/
theorem settle_append {x : GCMessage} (hne : m.isRoot = true → x.isRoot = true → m.b ≠ x.b) :
    settle (batch ++ [m]) x = settle batch x := by
  unfold settle
  split
  · next hx => rw [net_append, if_neg fun hm => hne hm.1 hx hm.2, add_zero]
  · rfl

theorem setDelta_setDelta (x : GCMessage) (c d : ℤ) : (x.setDelta c).setDelta d = x.setDelta d := by
  unfold GCMessage.setDelta
  split_ifs <;> rfl

/-- A staged root operation is its own fold. -/
theorem setDelta_sign (hr : m.isRoot = true) (hc : m.count = 1) : m.setDelta m.sign = m := by
  obtain ⟨op, a, b, count⟩ := m
  cases op <;> simp_all [GCMessage.isRoot, GCMessage.setDelta, GCMessage.sign]

namespace FoldOk

variable (hk : FoldOk batch s)

include hk

theorem take_edge (hr : m.isRoot = false) : FoldOk (batch ++ [m]) (s.take m) := by
  have ht : s.take m = { s with folded := s.folded ++ [m] } := by simp [FoldState.take, hr]
  have hkept : keptAfter [] (batch ++ [m]) = keptAfter [] batch ++ [m] := by
    simp [keptAfter_append, hr]
  rw [ht]
  refine ⟨?_, fun j x hj hx => ?_, fun p hp => ?_, by simpa using hk.used_le.trans (by simp)⟩
  · rw [Aarc.folded, foldedUpTo, hkept, List.map_append]
    show s.folded ++ [m] = _
    rw [hk.folded, Aarc.folded, foldedUpTo]
    congr 1
    · exact List.map_congr_left fun x _ =>
        (settle_append fun h => absurd (hr.symm.trans h) (by simp)).symm
    · simp [settle, hr]
  · rw [hkept] at hj
    have hx' : (keptAfter [] batch)[j]? = some x := by
      rw [List.getElem?_append] at hj
      split at hj
      · exact hj
      · obtain rfl := List.mem_singleton.mp (List.mem_of_getElem? hj)
        rw [hr] at hx
        cases hx
    rw [net_append, if_neg (by simp [hr]), add_zero]
    exact hk.entry j x hx' hx
  · obtain ⟨hu, x, hx, h'⟩ := hk.taken p hp
    exact ⟨hu, x, by rw [hkept]; exact List.mem_append_left _ hx, h'⟩

/-- A later root operation on a handle patches the message of the first. -/
theorem take_known (hr : m.isRoot = true) (hslot : ∀ x ∈ batch ++ [m], x.isRoot = true → x.b.Slot)
    (hkey : (s.tab (s.slotOf m.b)).key = packHandle m.b) :
    FoldOk (batch ++ [m]) (s.take m) := by
  have hm : m.b.Slot := hslot m (by simp) hr
  obtain ⟨-, m₀, hm₀, hr₀, hb⟩ := hk.taken _ (by rw [hkey]; exact packHandle_ne hm)
  have hb : m₀.b = m.b := packHandle_inj
    (hslot m₀ (List.mem_append_left _ (mem_keptAfter hm₀)) hr₀) hm (hb.symm.trans hkey)
  obtain ⟨j₀, hj₀⟩ := List.mem_iff_getElem?.mp hm₀
  obtain ⟨-, hdelta, hpos⟩ := hk.entry j₀ m₀ hj₀ hr₀
  rw [hb] at hdelta hpos
  have hkept : keptAfter [] (batch ++ [m]) = keptAfter [] batch := by
    have : touched batch m.b = true := touched_iff_kept.mpr ⟨m₀, hm₀, hr₀, hb⟩
    simp [keptAfter_append, hr, this]
  have ht : s.take m = { s with
      tab := update s.tab (s.slotOf m.b)
        { s.tab (s.slotOf m.b) with delta := net batch m.b + m.sign }
      folded := s.folded.modify j₀ (·.setDelta (net batch m.b + m.sign)) } := by
    simp [FoldState.take, hr, hkey, hdelta, hpos]
  rw [ht]
  set t : FoldState := { s with
      tab := update s.tab (s.slotOf m.b)
        { s.tab (s.slotOf m.b) with delta := net batch m.b + m.sign }
      folded := s.folded.modify j₀ (·.setDelta (net batch m.b + m.sign)) } with htdef
  have hkeys : ∀ p, (t.tab p).key = (s.tab p).key := fun p => by
    by_cases hp : p = s.slotOf m.b <;> simp [htdef, hp]
  -- the only kept root operation on the handle is the one at `j₀`
  have hother : ∀ (i : ℕ) x, (keptAfter [] batch)[i]? = some x → i ≠ j₀ → x.isRoot = true →
      m.b ≠ x.b := fun i x hi hne hx hbx => hne <| by
    rw [← (hk.entry i x hi hx).2.2, ← hbx, hpos]
  refine ⟨List.ext_getElem? fun i => ?_, fun i x hi hx => ?_, fun p hp => ?_, ?_⟩
  · rw [Aarc.folded, foldedUpTo, hkept, List.getElem?_map, List.getElem?_modify, hk.folded, Aarc.folded, foldedUpTo,
      List.getElem?_map]
    cases hi : (keptAfter [] batch)[i]? with
    | none => simp
    | some x =>
      by_cases hij : j₀ = i
      · subst hij
        obtain rfl : m₀ = x := Option.some.inj (hj₀.symm.trans hi)
        simp only [settle, hr₀, if_true, net_append, hr, hb, and_self, Option.map_some,
          Option.map_eq_map, setDelta_setDelta]
      · simp [hij, settle_append fun _ => hother i x hi (Ne.symm hij)]
  · rw [hkept] at hi
    obtain ⟨h1, h2, h3⟩ := hk.entry i x hi hx
    rw [slotOf_congr hkeys, hkeys, net_append]
    refine ⟨h1, ?_⟩
    by_cases hxb : x.b = m.b
    · simp only [htdef, hxb, update_self, hr, and_self, if_true]
      exact ⟨trivial, hxb ▸ h3⟩
    · have hne : s.slotOf x.b ≠ s.slotOf m.b := fun he => hxb <|
        packHandle_inj (hslot x (List.mem_append_left _ (mem_keptAfter
          (List.mem_of_getElem? hi))) hx) hm (by rw [← h1, he, hkey])
      rw [if_neg fun h => hxb h.2.symm, add_zero]
      simpa [htdef, hne] using ⟨h2, h3⟩
  · rw [hkeys] at hp ⊢
    rw [hkept]
    exact hk.taken p hp
  · simpa [htdef] using hk.used_le.trans (by simp)

/-- The first root operation on a handle takes an entry. -/
theorem take_new (hr : m.isRoot = true) (hslot : ∀ x ∈ batch ++ [m], x.isRoot = true → x.b.Slot)
    (hone : m.count = 1) (hkey : (s.tab (s.slotOf m.b)).key ≠ packHandle m.b)
    (hempty : (s.tab (s.slotOf m.b)).key = kNoFoldKey) : FoldOk (batch ++ [m]) (s.take m) := by
  have hnt : touched batch m.b = false := by
    rw [Bool.eq_false_iff]
    intro ht
    obtain ⟨m₀, hm₀, hr₀, hb⟩ := touched_iff_kept.mp ht
    obtain ⟨j₀, hj₀⟩ := List.mem_iff_getElem?.mp hm₀
    exact hkey (hb ▸ (hk.entry j₀ m₀ hj₀ hr₀).1)
  have hne : ∀ x ∈ keptAfter [] batch, x.isRoot = true → m.b ≠ x.b := fun x hx hxr hb => by
    rw [touched_iff_kept.mpr ⟨x, hx, hxr, hb.symm⟩] at hnt
    cases hnt
  have hkept : keptAfter [] (batch ++ [m]) = keptAfter [] batch ++ [m] := by
    simp [keptAfter_append, hnt]
  have ht : s.take m =
      { tab := update s.tab (s.slotOf m.b) ⟨packHandle m.b, m.sign, s.folded.length⟩
        used := s.used ++ [s.slotOf m.b]
        folded := s.folded ++ [m] } := by
    simp [FoldState.take, hr, hkey]
  rw [ht]
  set t : FoldState :=
      { tab := update s.tab (s.slotOf m.b) ⟨packHandle m.b, m.sign, s.folded.length⟩
        used := s.used ++ [s.slotOf m.b]
        folded := s.folded ++ [m] } with htdef
  have htab : ∀ q, q ≠ s.slotOf m.b → t.tab q = s.tab q := fun q hq => by simp [htdef, hq]
  refine ⟨?_, fun i x hi hx => ?_, fun p hp => ?_, by simpa [htdef] using hk.used_le⟩
  · rw [Aarc.folded, foldedUpTo, hkept, List.map_append]
    show s.folded ++ [m] = _
    rw [hk.folded, Aarc.folded, foldedUpTo]
    congr 1
    · exact List.map_congr_left fun x hx => (settle_append fun _ => hne x hx).symm
    · simp [settle, hr, net_append, net_of_not_touched hnt, setDelta_sign hr hone]
  · rw [hkept, List.getElem?_append] at hi
    split at hi
    · obtain ⟨h1, h2, h3⟩ := hk.entry i x hi hx
      have hxm := List.mem_of_getElem? hi
      have hxs := hslot x (List.mem_append_left _ (mem_keptAfter hxm)) hx
      have hsl : s.slotOf x.b ≠ s.slotOf m.b := fun he => by
        rw [he] at h1
        exact packHandle_ne hxs (h1.symm.trans hempty)
      rw [slotOf_insert htab hempty hxs h1, htab _ hsl, net_append,
        if_neg fun h => hne x hxm hx h.2, add_zero]
      exact ⟨h1, h2, h3⟩
    · next hlt =>
      obtain ⟨hi0, hxm⟩ : i = (keptAfter [] batch).length ∧ x = m := by
        rw [List.getElem?_singleton] at hi
        split at hi
        · exact ⟨by omega, (Option.some.inj hi).symm⟩
        · cases hi
      subst hxm
      rw [slotOf_insert_self htab hempty (by simp [htdef])]
      simp [htdef, net_append, net_of_not_touched hnt, hr, hk.folded, Aarc.folded, foldedUpTo, hi0]
  · by_cases hp' : p = s.slotOf m.b
    · exact ⟨by simp [htdef, hp'], m, by simp [hkept], hr, by simp [htdef, hp']⟩
    · rw [htab p hp'] at hp ⊢
      obtain ⟨hu, x, hx, h'⟩ := hk.taken p hp
      exact ⟨by simp [htdef, hu], x, by rw [hkept]; exact List.mem_append_left _ hx, h'⟩

theorem take (hlen : batch.length < kFoldSlots)
    (hslot : ∀ x ∈ batch ++ [m], x.isRoot = true → x.b.Slot)
    (hone : m.isRoot = true → m.count = 1) : FoldOk (batch ++ [m]) (s.take m) := by
  cases hr : m.isRoot with
  | false => exact hk.take_edge hr
  | true =>
    by_cases hkey : (s.tab (s.slotOf m.b)).key = packHandle m.b
    · exact hk.take_known hr hslot hkey
    · exact hk.take_new hr hslot (hone hr) hkey ((hk.slotOf hlen m.b).resolve_left hkey)

end FoldOk

/-- An empty scratch table. -/
def Clean (tab : ℕ → FoldEntry) : Prop := ∀ p, (tab p).key = kNoFoldKey

theorem foldl_take_ok {tab : ℕ → FoldEntry} (hc : Clean tab) (hb : Staged batch) :
    FoldOk batch (batch.foldl FoldState.take { tab }) := by
  have hlen : batch.length < kFoldSlots := lt_of_le_of_lt hb.length_le (by decide)
  have hslot := hb.slot
  have hone := hb.count_one
  clear hb
  induction batch using List.reverseRecOn with
  | nil =>
    exact ⟨rfl, fun j x hj => by simp [keptAfter] at hj, fun p hp => absurd (hc p) hp, le_rfl⟩
  | append_singleton xs x ih =>
    rw [List.foldl_append]
    rw [List.length_append] at hlen
    refine FoldOk.take (ih (by omega) (fun m hm => hslot m (List.mem_append_left _ hm))
      (fun m hm => hone m (List.mem_append_left _ hm))) (by omega) hslot (hone x (by simp))

theorem reset_key {tab : ℕ → FoldEntry} {l : List ℕ} {p : ℕ}
    (h : (tab p).key ≠ kNoFoldKey → p ∈ l) :
    (l.foldl (fun tab p => update tab p { tab p with key := kNoFoldKey }) tab p).key =
      kNoFoldKey := by
  induction l generalizing tab with
  | nil => simpa using h
  | cons q l ih =>
    refine ih fun hp => ?_
    by_cases hpq : p = q
    · simp [hpq] at hp
    · simp only [update_of_ne hpq] at hp
      exact (List.mem_cons.mp (h hp)).resolve_left hpq

/-- On a clean table the fold keeps first occurrences with net deltas, and leaves a clean table
for the next batch. -/
theorem foldBatch_spec {tab : ℕ → FoldEntry} (hc : Clean tab) (hb : Staged batch) :
    (foldBatch tab batch).2 = folded batch ∧ Clean (foldBatch tab batch).1 := by
  have hk := foldl_take_ok hc hb
  exact ⟨hk.folded, fun p => reset_key fun hp => (hk.taken p hp).1⟩

end Correct

end Loxis.Aarc
