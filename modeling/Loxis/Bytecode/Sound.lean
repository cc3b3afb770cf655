import Loxis.Bytecode.Decode
import Loxis.Lib.Simulation

/-! # What the emission writes

Every instruction that is emitted for a body has as many operands as the decoder's table says and
names only functions, blocks of the body and its own checks. The labels of checks are numbered by
the state, so none of them is set twice.
-/

namespace Loxis.Bytecode

open Listing
open Lowering (MirBinOp MirUnaryOp Operand Constant LocalId BlockId)

variable {b : MirBody} {W : Prop} {s s₀ t u v v₀ : Fresh} {items xs ys : List Item} {op : OpCode}
  {args : List Arg} {l : Label} {m : Emit (List Item)} {ms : List (Emit (List Item))} {r n i : ℕ}

section Sound

/-- Labels of checks with numbers that are given out between two states. -/
def Fresh.Numbered (s t : Fresh) : Label → Prop
  | .cmpEnd n | .cmpFalse n => s.cmpLabelId ≤ n ∧ n < t.cmpLabelId
  | .notTrue n | .notEnd n => s.notLabelId ≤ n ∧ n < t.notLabelId
  | _ => False

/-- A later state: numbers only grow. -/
structure Fresh.Le (s t : Fresh) : Prop where
  cmp : s.cmpLabelId ≤ t.cmpLabelId
  not : s.notLabelId ≤ t.notLabelId

theorem Fresh.Le.refl (s : Fresh) : s.Le s := ⟨Nat.le_refl _, Nat.le_refl _⟩

theorem Fresh.Le.trans (h : s.Le t) (h' : t.Le u) : s.Le u :=
  ⟨h.cmp.trans h'.cmp, h.not.trans h'.not⟩

theorem Fresh.Numbered.mono (h : s.Numbered t l) (hs : u.Le s) (ht : t.Le v) :
    u.Numbered v l := by
  cases l with
  | func | block => exact h
  | cmpEnd | cmpFalse => exact ⟨hs.cmp.trans h.1, h.2.trans_le ht.cmp⟩
  | notTrue | notEnd => exact ⟨hs.not.trans h.1, h.2.trans_le ht.not⟩

/-- A number is given out once. -/
theorem Fresh.Numbered.disjoint (h : s.Numbered t l) (h' : u.Numbered v l) (hu : t.Le u) :
    False := by
  cases l with
  | func | block => exact h
  | cmpEnd | cmpFalse => exact absurd (h.2.trans_le (hu.cmp.trans h'.1)) (Nat.lt_irrefl _)
  | notTrue | notEnd => exact absurd (h.2.trans_le (hu.not.trans h'.1)) (Nat.lt_irrefl _)

/-- The labels in an instruction. -/
def Instr.labels (i : Instr) : List Label := i.args.filterMap fun
  | .addr l => some l
  | _ => none

/-- The labels that instructions use. -/
def uses (items : List Item) : List Label := (code items).flatMap Instr.labels

/-- A label that the emission of a body may name without setting it: a function, or a block of the
body. -/
def Known (b : MirBody) (l : Label) : Prop := (∃ name, l = .func name) ∨ ∃ id, l = target b id

/-- Items whose instructions the decoder knows and whose labels are known or their own. The operands
fit where the condition holds. -/
structure Shape (b : MirBody) (W : Prop) (items : List Item) : Prop where
  count : ∀ i, .ins i ∈ items → ∀ code ip, operandCountFor code ip i.op = some i.args.length
  fits : W → ∀ i, .ins i ∈ items → ∀ a ∈ i.args, a.Fits
  uses : ∀ l ∈ uses items, Known b l ∨ l ∈ names items

/-- What the emission of a part of a body writes between two states. -/
structure Sound (b : MirBody) (W : Prop) (s : Fresh) (items : List Item) (t : Fresh) : Prop where
  shape : Shape b W items
  le : s.Le t
  marks : ∀ l ∈ names items, s.Numbered t l
  nodup : (names items).Nodup

theorem uses_append (xs ys : List Item) : uses (xs ++ ys) = uses xs ++ uses ys := by
  rw [uses, code_append, List.flatMap_append, uses, uses]

theorem Shape.append (hx : Shape b W xs) (hy : Shape b W ys) : Shape b W (xs ++ ys) where
  count i hi := (List.mem_append.mp hi).elim (hx.count i) (hy.count i)
  fits hw i hi := (List.mem_append.mp hi).elim (hx.fits hw i) (hy.fits hw i)
  uses l hl := by
    rw [uses_append, List.mem_append] at hl
    rw [names_append, List.mem_append]
    rcases hl with hl | hl
    · exact (hx.uses l hl).imp_right .inl
    · exact (hy.uses l hl).imp_right .inr

/-- A mark has the shape of any body's items. -/
theorem Shape.mark (l : Label) : Shape b W [mark l] := ⟨by simp [Bytecode.mark],
  by simp [Bytecode.mark], by simp [Bytecode.mark, Bytecode.uses, code]⟩

/-- Two parts whose numbers are given out one after the other, in whatever order. -/
theorem Sound.join (hx : Sound b W s xs t) (hy : Sound b W u ys v) (hs : s₀.Le s) (ht : t.Le v₀)
    (hu : s₀.Le u) (hv : v.Le v₀) (h : t.Le u ∨ v.Le s) : Sound b W s₀ (xs ++ ys) v₀ where
  shape := hx.shape.append hy.shape
  le := hs.trans (hx.le.trans ht)
  marks l hl := by
    rw [names_append, List.mem_append] at hl
    rcases hl with hl | hl
    · exact (hx.marks l hl).mono hs ht
    · exact (hy.marks l hl).mono hu hv
  nodup := by
    rw [names_append]
    refine hx.nodup.append hy.nodup fun l hl hl' => ?_
    rcases h with h | h
    · exact (hx.marks l hl).disjoint (hy.marks l hl') h
    · exact (hy.marks l hl').disjoint (hx.marks l hl) h

theorem Sound.append (hx : Sound b W s xs t) (hy : Sound b W t ys u) :
    Sound b W s (xs ++ ys) u :=
  hx.join hy (.refl s) hy.le hx.le (.refl u) (.inl (.refl t))

/-- An instruction that sets and needs no label of its own. -/
structure Plain (b : MirBody) (W : Prop) (i : Instr) : Prop where
  count : ∀ code ip, operandCountFor code ip i.op = some i.args.length
  fits : W → ∀ a ∈ i.args, a.Fits
  uses : ∀ l, .addr l ∈ i.args → Known b l

/-- A written item that sets and needs no label of its own. -/
def PlainItem (b : MirBody) (W : Prop) (x : Item) : Prop := ∃ i, x = .ins i ∧ Plain b W i

theorem mem_labels {i : Instr} : l ∈ i.labels ↔ .addr l ∈ i.args := by
  unfold Instr.labels
  rw [List.mem_filterMap]
  constructor
  · rintro ⟨a, ha, hl⟩
    cases a with
    | addr l' =>
      obtain rfl := Option.some.inj hl
      exact ha
    | reg | imm | str | null | float => cases hl
  · intro h
    exact ⟨_, h, rfl⟩

theorem mem_uses : l ∈ uses items ↔ ∃ i, .ins i ∈ items ∧ .addr l ∈ i.args := by
  simp only [uses, List.mem_flatMap, mem_code, mem_labels]

theorem Sound.plain (h : ∀ x ∈ items, PlainItem b W x) (hs : s.Le t) :
    Sound b W s items t := by
  have hins (i : Instr) (hi : .ins i ∈ items) : Plain b W i := by
    obtain ⟨j, hj, hp⟩ := h _ hi
    obtain rfl := Item.ins.inj hj
    exact hp
  have hnames : names items = [] := by
    refine List.eq_nil_iff_forall_not_mem.mpr fun l hl => ?_
    obtain ⟨i, hi, -⟩ := h _ (mem_names.mp hl)
    cases hi
  refine ⟨⟨fun i hi => (hins i hi).count, fun hw i hi => (hins i hi).fits hw,
    fun l hl => .inl ?_⟩, hs, by simp [hnames], by simp [hnames]⟩
  obtain ⟨i, hi, ha⟩ := mem_uses.mp hl
  exact (hins i hi).uses l ha

theorem plainItem_ins : PlainItem b W (ins op args) ↔
    (∀ code ip, operandCountFor code ip op = some args.length) ∧ (W → ∀ a ∈ args, a.Fits) ∧
      ∀ l, .addr l ∈ args → Known b l := by
  constructor
  · rintro ⟨i, hi, h⟩
    obtain rfl := Item.ins.inj hi
    exact ⟨h.count, h.fits, h.uses⟩
  · rintro ⟨h1, h2, h3⟩
    exact ⟨_, rfl, h1, h2, h3⟩

end Sound

section Emits

/-- Wherever the emission succeeds, what it writes is sound. -/
def Emits (b : MirBody) (W : Prop) (m : Emit (List Item)) : Prop :=
  ∀ s items t, m s = .ok (items, t) → Sound b W s items t

theorem Emits.write (h : ∀ x ∈ items, PlainItem b W x) : Emits b W (write items) := by
  intro s items' t hw
  obtain ⟨rfl, rfl⟩ := pure_eq_ok hw
  exact .plain h (.refl s)

theorem Emits.throw (e : String) : Emits b W (throw e) := nofun

theorem Emits.nil : Emits b W (Bytecode.write []) := .write (by simp)

theorem write_ok (h : Bytecode.write xs s = .ok (items, t)) : xs = items ∧ s = t := pure_eq_ok h

/-- A sequence that succeeds splits behind its first part. -/
theorem seq_cons_ok (h : seq (m :: ms) s = .ok (items, t)) : ∃ xs u ys,
    m s = .ok (xs, u) ∧ seq ms u = .ok (ys, t) ∧ items = xs ++ ys := by
  obtain ⟨xs, u, hx, h⟩ := bind_eq_ok h
  obtain ⟨ys, v, hy, h⟩ := bind_eq_ok h
  obtain ⟨rfl, rfl⟩ := pure_eq_ok h
  exact ⟨xs, u, ys, hx, hy, rfl⟩

theorem seq_one_ok (h : seq [m] s = .ok (items, t)) : m s = .ok (items, t) := by
  obtain ⟨xs, u, ys, hx, hy, rfl⟩ := seq_cons_ok h
  obtain ⟨rfl, rfl⟩ := pure_eq_ok hy
  rwa [List.append_nil]

theorem Emits.done : Emits b W (seq []) := .nil

theorem Emits.cons (h : Emits b W m) (hs : Emits b W (seq ms)) : Emits b W (seq (m :: ms)) := by
  intro s items t hm
  obtain ⟨xs, u, ys, hx, hy, rfl⟩ := seq_cons_ok hm
  exact (h _ _ _ hx).append (hs _ _ _ hy)

/-- A local has a register in range, and the state stays as it is. -/
theorem localToReg_ok {lid : LocalId} (h : localToReg b lid s = .ok (r, t)) :
    r < 4096 ∧ s = t := by
  unfold localToReg at h
  split_ifs at h with _ hl
  · obtain ⟨rfl, rfl⟩ := pure_eq_ok h
    exact ⟨by decide, rfl⟩
  · cases h
  · obtain ⟨rfl, rfl⟩ := pure_eq_ok h
    exact ⟨(Nat.add_lt_add_right (Nat.not_le.mp hl) 15).trans_le (by decide), rfl⟩
  · obtain ⟨rfl, rfl⟩ := pure_eq_ok h
    exact ⟨(Nat.add_lt_add_right (Nat.not_le.mp hl) (15 + 16)).trans_le (by decide), rfl⟩

theorem Emits.local {lid : LocalId} {f : ℕ → Emit (List Item)}
    (h : ∀ r < 4096, Emits b W (f r)) : Emits b W (localToReg b lid >>= f) := by
  intro s items t hm
  obtain ⟨r, s₁, hr, hm⟩ := bind_eq_ok hm
  obtain ⟨hlt, rfl⟩ := localToReg_ok hr
  exact h r hlt _ _ _ hm

/-- Interned strings have numbers of 32 bits, and no number of a check is given out. -/
theorem internString_ok {str : String} (h : internString str s = .ok (n, t)) :
    n < 2 ^ 32 ∧ s.Le t := by
  obtain ⟨s₀, s₁, h₀, h⟩ := bind_eq_ok h
  obtain ⟨rfl, rfl⟩ : s = s₀ ∧ s = s₁ := Prod.mk.inj (Except.ok.inj h₀)
  generalize s.strings.findIdx? _ = o at h
  cases o with
  | some i =>
    obtain ⟨rfl, rfl⟩ := pure_eq_ok h
    exact ⟨Nat.mod_lt _ (by decide), .refl s⟩
  | none =>
    obtain ⟨_, s₂, h₂, h⟩ := bind_eq_ok h
    obtain ⟨-, rfl⟩ := Prod.mk.inj (Except.ok.inj h₂)
    obtain ⟨rfl, rfl⟩ := pure_eq_ok h
    exact ⟨Nat.mod_lt _ (by decide), ⟨Nat.le_refl _, Nat.le_refl _⟩⟩

end Emits

end Loxis.Bytecode
