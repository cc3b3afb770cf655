import Loxis.Lowering.Succeeds

/-! # Code that is final

In the finished body the code so far is as it is now, but for the end of the current block and the
blocks that are made and not yet started. What holds of the finished body after a piece of lowering
is carried back to the state before it.
-/

namespace Loxis.Lowering

open Function
open Loxis.Backend (Value)

variable {P Q : List BlockId} {s s' : LowerState} {blocks : List BasicBlock} {st : Statement}
  {t : Terminator} {b : BlockId} {names : List String}

/-- The blocks `P` are empty and not the current one. -/
structure Apart (P : List BlockId) (s : LowerState) : Prop where
  inside : s.currentBlock < s.blocks.length
  blank : ∀ i ∈ P, i ≠ s.currentBlock ∧ ∃ b : BasicBlock, s.blocks[i]? = some b ∧ b.stmts = []

/-- The code so far is final in `blocks`, but for the blocks `P` and the end of the current
block. -/
structure Settled (P : List BlockId) (s : LowerState) (blocks : List BasicBlock) : Prop where
  done : ∀ i < s.blocks.length, i ∉ P → (i = s.currentBlock → s.blockTerminated = true) →
    blocks[i]? = s.blocks[i]?
  begun : ∀ b : BasicBlock, s.blocks[s.currentBlock]? = some b →
    ∃ b' : BasicBlock, blocks[s.currentBlock]? = some b' ∧ b.stmts <+: b'.stmts

/-- Nothing is lowered after an exit. -/
theorem lowerExpr_stopped (n : ℕ) (e : HirExpr) (h : s.blockTerminated = true) :
    lowerExpr (n + 1) e s = .ok (s.locals.length, s.declare "unit" false) := by
  have hterm : isTerminated s = .ok (true, s) := by rw [isTerminated, h]
  have hemit : ∀ st, emit st (s.declare "unit" false) = .ok ((), s.declare "unit" false) :=
    fun st => by simp [emit, h]
  rw [lowerExpr, bind_of_ok hterm, if_pos rfl, unitLocal, bind_of_ok (newLocal_eq _ _),
    bind_of_ok (hemit _)]
  rfl

theorem lowerExpr_flows (n : ℕ) (e : HirExpr) (h : s.blockTerminated = false) :
    lowerExpr (n + 1) e s = lowerNode (lowerExpr n) e s := by
  have hterm : isTerminated s = .ok (false, s) := by rw [isTerminated, h]
  rw [lowerExpr, bind_of_ok hterm]
  rfl

namespace Apart

theorem lt (h : Apart P s) {i : BlockId} (hi : i ∈ P) : i < s.blocks.length := by
  obtain ⟨-, b, hb, -⟩ := h.blank i hi
  exact (List.getElem?_eq_some_iff.mp hb).1

theorem current_notMem (h : Apart P s) : s.currentBlock ∉ P := fun hm => (h.blank _ hm).1 rfl

theorem mono (h : Apart P s) (hQ : Q ⊆ P) : Apart Q s :=
  ⟨h.inside, fun i hi => h.blank i (hQ hi)⟩

theorem of_same (h : Apart P s) (hb : s'.blocks = s.blocks)
    (hc : s'.currentBlock = s.currentBlock) : Apart P s' := by
  constructor
  · rw [hb, hc]
    exact h.inside
  · rw [hb, hc]
    exact h.blank

theorem declare (h : Apart P s) (name : String) (m : Bool) : Apart P (s.declare name m) :=
  h.of_same rfl rfl

theorem grow (h : Apart P s) : Apart (s.blocks.length :: P) s.grow where
  inside := by
    rw [LowerState.grow_length, LowerState.grow_currentBlock]
    exact Nat.lt_succ_of_lt h.inside
  blank i hi := by
    rcases List.mem_cons.mp hi with rfl | hi
    · exact ⟨Nat.ne_of_gt h.inside, _, List.getElem?_concat_length, rfl⟩
    · obtain ⟨hne, b, hb, he⟩ := h.blank i hi
      exact ⟨hne, b, (List.getElem?_append_left (h.lt hi)).trans hb, he⟩

theorem modify (h : Apart P s) (f : BasicBlock → BasicBlock) (c : Bool) :
    Apart P { s with blocks := s.blocks.modify s.currentBlock f, blockTerminated := c } where
  inside := by
    simp only [List.length_modify]
    exact h.inside
  blank i hi := by
    obtain ⟨hne, b, hb, he⟩ := h.blank i hi
    exact ⟨hne, b, (modify_other hne).trans hb, he⟩

theorem push (h : Apart P s) (st : Statement) : Apart P (s.push st) :=
  h.modify (fun b => { b with stmts := b.stmts ++ [⟨st, s.regions⟩] }) s.blockTerminated

theorem close (h : Apart P s) (t : Terminator) : Apart P (s.close t) :=
  h.modify (fun b => { b with term := t }) true

theorem goTo (h : Apart P s) (hb : b ∈ P) (hQ : Q ⊆ P) (hn : b ∉ Q) : Apart Q (s.goTo b) where
  inside := h.lt hb
  blank i hi := ⟨fun he => hn (by rw [← show i = b from he]; exact hi), (h.blank i (hQ hi)).2⟩

theorem size_goTo (h : Apart P s) (hb : b ∈ P) : (s.goTo b).size = 0 := by
  obtain ⟨-, blk, hblk, he⟩ := h.blank b hb
  simp [LowerState.size, hblk, he]

theorem term {a : Unit} (h : Apart P s) (hx : term t s = .ok (a, s')) : Apart P s' := by
  cases hx
  split
  · exact h
  · exact h.modify _ true

theorem emit {a : Unit} (h : Apart P s) (hx : emit st s = .ok (a, s')) : Apart P s' := by
  cases hx
  split
  · exact h
  · exact h.modify _ s.blockTerminated

theorem of_local {α : Type} {x : LowerM α} {a : α} (h : Apart P s)
    (hl : Local s.blocks.length [] s.currentBlock x) (hx : x s = .ok (a, s')) : Apart P s' := by
  have hs : Standing s.blocks.length [] s.currentBlock s :=
    ⟨Nat.le_refl _, nofun, .inl rfl, h.inside⟩
  obtain ⟨hb, hs'⟩ := hl.beyond s a s' hs hx
  refine ⟨hs'.exists_, fun i hi => ?_⟩
  obtain ⟨hne, blk, hblk, he⟩ := h.blank i hi
  refine ⟨?_, blk, (hb.blocks i (h.lt hi) hne).trans hblk, he⟩
  rintro rfl
  rcases hs'.current with hc | hc
  · exact hne hc
  · exact Nat.not_lt.mpr hc (h.lt hi)

theorem lower {n : ℕ} {e : HirExpr} {l : LocalId} (h : Apart P s)
    (hx : lowerExpr n e s = .ok (l, s')) : Apart P s' :=
  h.of_local inferInstance hx

end Apart

namespace Settled

theorem mono (h : Settled P s blocks) (hQ : P ⊆ Q) : Settled Q s blocks :=
  ⟨fun i hi hn ht => h.done i hi (fun hm => hn (hQ hm)) ht, h.begun⟩

theorem of_same (h : Settled P s' blocks) (hb : s'.blocks = s.blocks)
    (hc : s'.currentBlock = s.currentBlock) (ht : s'.blockTerminated = s.blockTerminated) :
    Settled P s blocks := by
  constructor
  · rw [← hb, ← hc, ← ht]
    exact h.done
  · rw [← hb, ← hc]
    exact h.begun

theorem of_declare {name : String} {m : Bool} (h : Settled P (s.declare name m) blocks) :
    Settled P s blocks :=
  h.of_same rfl rfl rfl

theorem of_grow (h : Settled Q s.grow blocks) (hs : s.currentBlock < s.blocks.length)
    (hQ : ∀ i ∈ Q, i < s.blocks.length → i ∈ P) : Settled P s blocks where
  done i hi hn ht := by
    rw [h.done i (by simp; omega) (fun hm => hn (hQ i hm hi)) ht]
    exact List.getElem?_append_left hi
  begun b hb := h.begun b ((List.getElem?_append_left hs).trans hb)

/-- A change of the current block that only adds statements. -/
theorem of_modify {f : BasicBlock → BasicBlock} {c : Bool}
    (h : Settled P
      { s with blocks := s.blocks.modify s.currentBlock f, blockTerminated := c } blocks)
    (hf : ∀ b, b.stmts <+: (f b).stmts) (hs : s.blockTerminated = false) :
    Settled P s blocks where
  done i hi hn ht := by
    have hne : i ≠ s.currentBlock := fun he => by
      rw [ht he] at hs
      cases hs
    rw [h.done i (by simpa using hi) hn fun he => absurd he hne]
    exact modify_other hne
  begun b hb := by
    obtain ⟨b', hb', hp⟩ := h.begun (f b) (by simp [hb])
    exact ⟨b', hb', (hf b).trans hp⟩

theorem of_emit {a : Unit} (h : Settled P s' blocks) (hx : Lowering.emit st s = .ok (a, s')) :
    Settled P s blocks := by
  cases hx
  split at h
  · exact h
  · next hs =>
    have hs := Bool.eq_false_iff.mpr hs
    exact of_modify h (fun b => List.prefix_append _ _) hs

theorem of_term {a : Unit} (h : Settled P s' blocks) (hx : Lowering.term t s = .ok (a, s')) :
    Settled P s blocks := by
  cases hx
  split at h
  · exact h
  · next hs =>
    have hs := Bool.eq_false_iff.mpr hs
    exact of_modify h (fun b => List.prefix_refl _) hs

theorem of_goTo (h : Settled P (s.goTo b) blocks) (hc : s.currentBlock ∉ b :: P)
    (hin : s.currentBlock < s.blocks.length) :
    Settled (b :: P) s blocks := by
  have hdone : ∀ i < s.blocks.length, i ∉ b :: P → blocks[i]? = s.blocks[i]? := by
    intro i hi hn
    obtain ⟨hb, hP⟩ := List.ne_and_not_mem_of_not_mem_cons hn
    exact h.done i hi hP fun he => absurd he hb
  exact ⟨fun i hi hn _ => hdone i hi hn, fun blk hblk =>
    ⟨blk, (hdone _ hin hc).trans hblk, List.prefix_refl _⟩⟩

/-- A piece of lowering that stays in its own blocks and does nothing after an exit. -/
theorem of_local {α : Type} {x : LowerM α} {a : α} (h : Settled P s' blocks) (hP : Apart P s)
    (hlocal : Local s.blocks.length [] s.currentBlock x) (hx : x s = .ok (a, s'))
    (hl : Lowers names x) (hf : s.finallyStack = [])
    (hstop : s.blockTerminated = true → s'.blocks = s.blocks ∧
      s'.currentBlock = s.currentBlock ∧ s'.blockTerminated = true) : Settled P s blocks := by
  have hs : Standing s.blocks.length [] s.currentBlock s :=
    ⟨Nat.le_refl _, nofun, .inl rfl, hP.inside⟩
  obtain ⟨hb, hs'⟩ := hlocal.beyond s a s' hs hx
  have hlt : ∀ i < s.blocks.length, i ≠ s.currentBlock → i ≠ s'.currentBlock := by
    rintro i hi hne rfl
    rcases hs'.current with hc | hc
    · exact hne hc
    · exact Nat.not_lt.mpr hc hi
  cases ht : s.blockTerminated with
  | true =>
    obtain ⟨hblocks, hcur, hterm⟩ := hstop ht
    exact h.of_same hblocks hcur (hterm.trans ht.symm)
  | false =>
    constructor
    · intro i hi hn hi'
      have hne : i ≠ s.currentBlock := fun he => by
        rw [hi' he] at ht
        cases ht
      rw [h.done i (Nat.lt_of_lt_of_le hi hb.length) hn fun he => absurd he (hlt i hi hne)]
      exact hb.blocks i hi hne
    · intro blk hblk
      obtain ⟨b₁, hb₁, hp₁⟩ := (hl.grown hf hx).stmts _ _ hblk
      rcases eq_or_ne s.currentBlock s'.currentBlock with hc | hc
      · rw [hc] at hb₁ ⊢
        obtain ⟨b₂, hb₂, hp₂⟩ := h.begun b₁ hb₁
        exact ⟨b₂, hb₂, hp₁.trans hp₂⟩
      · have hin := Nat.lt_of_lt_of_le hP.inside hb.length
        exact ⟨b₁, (h.done _ hin hP.current_notMem fun he => absurd he hc).trans hb₁, hp₁⟩

theorem of_lower {n : ℕ} {e : HirExpr} {l : LocalId} (h : Settled P s' blocks) (hP : Apart P s)
    (hx : lowerExpr n e s = .ok (l, s')) (hl : Lowers names (lowerExpr n e))
    (hf : s.finallyStack = []) : Settled P s blocks := by
  refine h.of_local hP inferInstance hx hl hf fun ht => ?_
  cases n with
  | zero => cases hx
  | succ n =>
    cases (lowerExpr_stopped n e ht).symm.trans hx
    exact ⟨rfl, rfl, ht⟩

/-- A statement that is emitted is there. -/
theorem step_push {W : Type} (S : Services W) (ls : LocalId → Value) (w : W)
    (h : Settled P (s.push st) blocks) (hs : s.currentBlock < s.blocks.length) :
    step S blocks (s.here ls) w =
      (execStatement S st ls w).map fun ls' => (s.push st).here ls' := by
  obtain ⟨b, hb⟩ : ∃ b, s.blocks[s.currentBlock]? = some b := ⟨_, List.getElem?_eq_getElem hs⟩
  obtain ⟨b', hb', hp⟩ := h.begun _ (show (s.push st).blocks[s.currentBlock]? =
    some { b with stmts := b.stmts ++ [⟨st, s.regions⟩] } by simp [LowerState.push, hb])
  have hsize : s.size = b.stmts.length := by simp [LowerState.size, hb]
  have hsize' : (s.push st).size = s.size + 1 := by
    simp [LowerState.size, LowerState.push, hb]
  have hget : b'.stmts[s.size]? = some ⟨st, s.regions⟩ := by
    rw [hsize]
    obtain ⟨rest, hrest⟩ := hp
    rw [← hrest]
    simp
  have hholds : Holds blocks (s.here ls).block b'.stmts b'.term := ⟨b', hb', rfl, rfl⟩
  rw [step_statement hholds hget]
  simp only [LowerState.here, hsize', LowerState.push_currentBlock]

/-- The end of a block that is left is there. -/
theorem step_close {W : Type} (S : Services W) (ls : LocalId → Value) (w : W)
    (h : Settled P (s.close t) blocks) (hP : Apart P s) :
    step S blocks (s.here ls) w = execTerminator S t ls w := by
  obtain ⟨b, hb⟩ : ∃ b, s.blocks[s.currentBlock]? = some b :=
    ⟨_, List.getElem?_eq_getElem hP.inside⟩
  have hb' : blocks[s.currentBlock]? = some { b with term := t } := by
    rw [h.done s.currentBlock (by simpa using hP.inside) hP.current_notMem fun _ => rfl]
    simp [LowerState.close, hb]
  have hholds : Holds blocks (s.here ls).block b.stmts t := ⟨_, hb', rfl, rfl⟩
  exact step_terminator hholds (by simp [LowerState.here, LowerState.size, hb])

end Settled

end Loxis.Lowering
