import Loxis.Lowering.Exec
import Loxis.Lowering.Placed

/-! # Emitted code and its runs

The primitives of the lowering as functions on states, what a block holds after each of them,
and what runs do at single blocks.
-/

namespace Loxis.Lowering

open Function

namespace LowerState

variable (s : LowerState)

def declare (name : String) (mut_ : Bool) : LowerState :=
  { s with locals := s.locals ++ [⟨name, mut_⟩] }

def grow : LowerState := { s with blocks := s.blocks ++ [.new s.regions] }

def push (st : Statement) : LowerState :=
  { s with blocks := s.blocks.modify s.currentBlock fun b =>
      { b with stmts := b.stmts ++ [⟨st, s.regions⟩] } }

def close (t : Terminator) : LowerState :=
  { s with
    blocks := s.blocks.modify s.currentBlock fun b => { b with term := t }
    blockTerminated := true }

def goTo (b : BlockId) : LowerState := { s with currentBlock := b, blockTerminated := false }

/-- The code so far can be left at the end of the current block. -/
structure Open : Prop where
  flows : s.blockTerminated = false
  inside : s.currentBlock < s.blocks.length

/-- The number of statements of the current block. -/
def size : ℕ := (s.blocks[s.currentBlock]?.map fun b => b.stmts.length).getD 0

/-- The end of the code so far. -/
def here (ls : LocalId → Backend.Value) : Point := ⟨s.currentBlock, s.size, ls⟩

section Fields

variable (name : String) (mut_ : Bool) (st : Statement) (t : Terminator) (b : BlockId)

@[simp] theorem declare_blocks : (s.declare name mut_).blocks = s.blocks := rfl
@[simp] theorem declare_currentBlock : (s.declare name mut_).currentBlock = s.currentBlock := rfl
@[simp] theorem declare_blockTerminated :
    (s.declare name mut_).blockTerminated = s.blockTerminated := rfl
@[simp] theorem declare_length :
    (s.declare name mut_).locals.length = s.locals.length + 1 := by simp [declare]
@[simp] theorem grow_locals : s.grow.locals = s.locals := rfl
@[simp] theorem grow_currentBlock : s.grow.currentBlock = s.currentBlock := rfl
@[simp] theorem grow_blockTerminated : s.grow.blockTerminated = s.blockTerminated := rfl
@[simp] theorem grow_length : s.grow.blocks.length = s.blocks.length + 1 := by simp [grow]
@[simp] theorem push_locals : (s.push st).locals = s.locals := rfl
@[simp] theorem push_currentBlock : (s.push st).currentBlock = s.currentBlock := rfl
@[simp] theorem push_blockTerminated : (s.push st).blockTerminated = s.blockTerminated := rfl
@[simp] theorem push_length : (s.push st).blocks.length = s.blocks.length := by simp [push]
@[simp] theorem close_locals : (s.close t).locals = s.locals := rfl
@[simp] theorem close_currentBlock : (s.close t).currentBlock = s.currentBlock := rfl
@[simp] theorem close_blockTerminated : (s.close t).blockTerminated = true := rfl
@[simp] theorem close_length : (s.close t).blocks.length = s.blocks.length := by simp [close]
@[simp] theorem goTo_locals : (s.goTo b).locals = s.locals := rfl
@[simp] theorem goTo_blocks : (s.goTo b).blocks = s.blocks := rfl
@[simp] theorem goTo_currentBlock : (s.goTo b).currentBlock = b := rfl
@[simp] theorem goTo_blockTerminated : (s.goTo b).blockTerminated = false := rfl

end Fields

end LowerState

section Primitives

variable {s : LowerState}

theorem newLocal_eq (name : String) (mut_ : Bool) :
    newLocal name mut_ s = .ok (s.locals.length, s.declare name mut_) := rfl

theorem newBlock_eq : newBlock s = .ok (s.blocks.length, s.grow) := rfl

theorem startBlock_eq (b : BlockId) : startBlock b s = .ok ((), s.goTo b) := rfl

theorem emit_eq (st : Statement) (h : s.blockTerminated = false) :
    emit st s = .ok ((), s.push st) := by
  simp [emit, h, LowerState.push]

theorem term_eq (t : Terminator) (h : s.blockTerminated = false) :
    term t s = .ok ((), s.close t) := by
  simp [term, h, LowerState.close]

end Primitives

section Blocks

/-- Block `i` has the statements `sts` and ends with `t`. -/
def Holds (blocks : List BasicBlock) (i : BlockId) (sts : List Located) (t : Terminator) : Prop :=
  ∃ b, blocks[i]? = some b ∧ b.stmts = sts ∧ b.term = t

variable {s : LowerState} {i : BlockId} {sts : List Located} {t t' : Terminator} {st : Statement}

theorem holds_grow : Holds s.grow.blocks s.blocks.length [] (.goto 0) :=
  ⟨_, List.getElem?_concat_length, rfl, rfl⟩

theorem Holds.grow (h : Holds s.blocks i sts t) : Holds s.grow.blocks i sts t := by
  obtain ⟨b, hb, h⟩ := h
  refine ⟨b, ?_, h⟩
  rw [LowerState.grow, List.getElem?_append_left (List.getElem?_eq_some_iff.mp hb).1, hb]

theorem Holds.push (h : Holds s.blocks i sts t) (hi : i = s.currentBlock) :
    Holds (s.push st).blocks i (sts ++ [⟨st, s.regions⟩]) t := by
  obtain ⟨b, hb, rfl, rfl⟩ := h
  exact ⟨{ b with stmts := b.stmts ++ [⟨st, s.regions⟩] }, by simp [LowerState.push, ← hi, hb],
    rfl, rfl⟩

theorem Holds.close (h : Holds s.blocks i sts t) (hi : i = s.currentBlock) :
    Holds (s.close t').blocks i sts t' := by
  obtain ⟨b, hb, rfl, rfl⟩ := h
  exact ⟨{ b with term := t' }, by simp [LowerState.close, ← hi, hb], rfl, rfl⟩

theorem Holds.push_other (h : Holds s.blocks i sts t) (hi : i ≠ s.currentBlock) :
    Holds (s.push st).blocks i sts t := by
  obtain ⟨b, hb, h⟩ := h
  exact ⟨b, by rw [LowerState.push, modify_other hi, hb], h⟩

theorem Holds.close_other (h : Holds s.blocks i sts t) (hi : i ≠ s.currentBlock) :
    Holds (s.close t').blocks i sts t := by
  obtain ⟨b, hb, h⟩ := h
  exact ⟨b, by rw [LowerState.close, modify_other hi, hb], h⟩

theorem Holds.goTo {b : BlockId} (h : Holds s.blocks i sts t) : Holds (s.goTo b).blocks i sts t :=
  h

theorem Holds.lt (h : Holds s.blocks i sts t) : i < s.blocks.length :=
  let ⟨_, hb, _⟩ := h
  (List.getElem?_eq_some_iff.mp hb).1

theorem Holds.size (h : Holds s.blocks i sts t) (hi : i = s.currentBlock) :
    s.size = sts.length := by
  obtain ⟨b, hb, rfl, -⟩ := h
  rw [LowerState.size, ← hi, hb]
  rfl

theorem LowerState.Open.holds (h : s.Open) : ∃ sts t, Holds s.blocks s.currentBlock sts t ∧
    s.size = sts.length :=
  ⟨_, _, ⟨_, List.getElem?_eq_getElem h.inside, rfl, rfl⟩,
    Holds.size ⟨_, List.getElem?_eq_getElem h.inside, rfl, rfl⟩ rfl⟩

/-- What an expression finds in place stays, but for the current block. -/
theorem Beyond.holds {n : ℕ} {c : BlockId} {s' : LowerState} (h : Beyond n c s s')
    (hb : Holds s.blocks i sts t) (hi : i < n) (hc : i ≠ c) : Holds s'.blocks i sts t := by
  obtain ⟨b, hb, h'⟩ := hb
  exact ⟨b, (h.blocks i hi hc).trans hb, h'⟩

end Blocks

section Runs

variable {W : Type} {S : Services W} {blocks : List BasicBlock} {stop : BlockId → ℕ → Prop}
  {p q r : Point} {w w₁ w' : W} {sts : List Located} {t : Terminator}

theorem step_statement {st : Located} (h : Holds blocks p.block sts t)
    (hst : sts[p.pos]? = some st) :
    step S blocks p w =
      (execStatement S st.st p.locals w).map fun ls => ⟨p.block, p.pos + 1, ls⟩ := by
  obtain ⟨b, hb, rfl, rfl⟩ := h
  simp only [step, hb, hst]

theorem step_terminator (h : Holds blocks p.block sts t) (hp : p.pos = sts.length) :
    step S blocks p w = execTerminator S t p.locals w := by
  obtain ⟨b, hb, rfl, rfl⟩ := h
  simp only [step, hb, hp, List.getElem?_length]

theorem step_goto {b target : BlockId} {i : ℕ} {ls : LocalId → Backend.Value}
    (h : Holds blocks b sts (.goto target)) (hi : i = sts.length) :
    step S blocks ⟨b, i, ls⟩ w = .returned ⟨target, 0, ls⟩ w :=
  step_terminator (p := ⟨b, i, ls⟩) h hi

theorem step_use {b : BlockId} {i : ℕ} {l : LocalId} {op : Operand} {x : List LocalId}
    {ls : LocalId → Backend.Value} (h : Holds blocks b sts t)
    (hi : sts[i]? = some ⟨.assign l (.use op), x⟩) :
    step S blocks ⟨b, i, ls⟩ w =
      .returned ⟨b, i + 1, Function.update ls l (op.value S ls)⟩ w :=
  step_statement (p := ⟨b, i, ls⟩) h hi

theorem step_field {b : BlockId} {i offset : ℕ} {l obj : LocalId} {x : List LocalId}
    {ls : LocalId → Backend.Value} (h : Holds blocks b sts t)
    (hi : sts[i]? = some ⟨.assign l (.field obj offset), x⟩) :
    step S blocks ⟨b, i, ls⟩ w = (S.field (ls obj) offset w).map fun v =>
      ⟨b, i + 1, Function.update ls l v⟩ := by
  rw [step_statement (p := ⟨b, i, ls⟩) h hi]
  simp only [execStatement, assign]
  cases S.field (ls obj) offset w <;> rfl

variable {o : Outcome Point W}

theorem runsTo_step (hs : ¬ stop p.block p.pos) (h : step S blocks p w = .returned q w₁) :
    RunsTo S blocks stop p w o ↔ RunsTo S blocks stop q w₁ o := by
  constructor
  · rintro (h' | ⟨-, h'⟩ | ⟨-, h', ht⟩)
    · exact absurd h' hs
    · cases h.symm.trans h'
    · cases h.symm.trans h'
      exact ht
  · exact RunsTo.step hs h

theorem runsTo_raised {v : Backend.Value} (hs : ¬ stop p.block p.pos)
    (h : step S blocks p w = .raised v w₁) : RunsTo S blocks stop p w o ↔ o = .raised v w₁ := by
  constructor
  · rintro (h' | ⟨-, h'⟩ | ⟨-, h', -⟩)
    · exact absurd h' hs
    · exact h'.symm.trans h
    · cases h.symm.trans h'
  · rintro rfl
    exact .raised hs h

theorem not_runsTo (hs : ¬ stop p.block p.pos) (h : step S blocks p w = .stuck) :
    ¬ RunsTo S blocks stop p w o := by
  rintro (h' | ⟨-, h'⟩ | ⟨-, h', -⟩)
  · exact hs h'
  · cases h.symm.trans h'
  · cases h.symm.trans h'

theorem runsTo_stop (hs : stop p.block p.pos) :
    RunsTo S blocks stop p w o ↔ o = .returned p w := by
  constructor
  · rintro (h | ⟨h, -⟩ | ⟨h, -, -⟩)
    · rfl
    · exact absurd hs h
    · exact absurd hs h
  · rintro rfl
    exact .stop hs

/-- A step whose outcome is that of an operation, followed by code that only uses its result. -/
theorem runsTo_of_map {α : Type} {x : Outcome α W} {f : α → Point} {g : α → Point}
    (hs : ¬ stop p.block p.pos) (h : step S blocks p w = x.map f)
    (hf : ∀ a w' o, RunsTo S blocks stop (f a) w' o ↔ o = .returned (g a) w') :
    RunsTo S blocks stop p w o ↔ o = x.map g ∧ o ≠ .stuck := by
  cases x with
  | returned a w' =>
    rw [runsTo_step hs h, hf]
    exact ⟨fun h => ⟨h, by rw [h]; nofun⟩, And.left⟩
  | raised v w' =>
    rw [runsTo_raised hs h]
    exact ⟨fun h => ⟨h, by rw [h]; nofun⟩, And.left⟩
  | stuck => exact ⟨fun h' => absurd h' (not_runsTo hs h), fun h' => absurd h'.1 h'.2⟩

end Runs

end Loxis.Lowering
