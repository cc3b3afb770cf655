import Loxis.Bytecode.Emitted

/-! # Bodies

A body begins with its label. Behind it every label is set once: its blocks' and those of its
checks. Its code ends with an instruction, if it has any.
-/

namespace Loxis.Bytecode

open Listing
open Lowering (Operand LocalId BlockId)

variable {b : MirBody} {W : Prop} {s t u : Fresh} {items xs ys : List Item} {l : Label}
  {m : Emit (List Item)} {ms : List (Emit (List Item))} {n i : ℕ}

section Ends

/-- Wherever the emission succeeds, it ends with an instruction. -/
def Ends (m : Emit (List Item)) : Prop :=
  ∀ s items t, m s = .ok (items, t) → ∃ xs i, items = xs ++ [.ins i]

theorem Ends.write (xs : List Item) (op : OpCode) (args : List Arg) :
    Ends (write (xs ++ [ins op args])) := by
  intro s items t hm
  obtain ⟨rfl, rfl⟩ := pure_eq_ok hm
  exact ⟨xs, _, rfl⟩

theorem Ends.one (h : Ends m) : Ends (seq [m]) := by
  intro s items t hm
  exact h _ _ _ (seq_one_ok hm)

theorem Ends.cons (h : Ends (seq ms)) : Ends (seq (m :: ms)) := by
  intro s items t hm
  obtain ⟨c, u, cs, -, hcs, rfl⟩ := seq_cons_ok hm
  obtain ⟨xs, i, rfl⟩ := h _ _ _ hcs
  exact ⟨c ++ xs, i, (List.append_assoc ..).symm⟩

theorem ends_jump (id : BlockId) : Ends (Bytecode.write [jump (target b id)]) := .write [] _ _

theorem ends_terminator (term : Terminator) : Ends (emitTerminator b term) := by
  cases term with
  | goto id => exact ends_jump id
  | switchDiscr l ids id => exact ends_jump id
  | switchInt o values id => exact .cons (.one (.write _ _ _))
  | return_ => exact .write [] _ _
  | call func as dest ret =>
    unfold emitTerminator emitCall
    dsimp only
    split
    · exact .cons (.one (ends_jump ret))
    · exact .cons (.one (.write [_] _ _))
  | callIndirect o as dest ret | closureCall o as dest ret =>
    exact .cons (.cons (.one (.write [_] _ _)))
  | checkNull o x y => exact .cons (.one (.write [_] _ _))
  | virtualCall recv slot as dest ret | interfaceCall recv iface method as dest ret =>
    exact .cons (.one (.write [] _ _))
  | unreachable => exact .cons (.one (.write [_] _ _))

end Ends

section Blocks

theorem emits_prologue (i n : ℕ) : Emits b W (emitPrologue b i n) := by
  induction n generalizing i with
  | zero => exact .nil
  | succ n ih =>
    intro s items t hm
    obtain ⟨r, s₁, hr, hm⟩ := bind_eq_ok hm
    have hi : i + 1 < 4064 := by
      by_contra hi
      have hle : 4064 ≤ i + 1 := Nat.not_lt.mp hi
      rw [localToReg, if_neg (Nat.succ_ne_zero i), if_pos hle] at hr
      cases hr
    obtain ⟨hlt, rfl⟩ := localToReg_ok hr
    have hmod : (i + 1) % 65536 < 4096 := by omega
    refine Emits.cons (.write ?_) (.cons (ih (i + 1)) .done) _ _ _ hm
    simp [plainItem_ins, operandCountFor, Arg.Fits, hlt, hmod]

/-- The blocks of a body from one index to another, between two states. -/
structure SoundBlocks (b : MirBody) (W : Prop) (i j : ℕ) (s : Fresh) (items : List Item)
    (t : Fresh) : Prop where
  shape : Shape b W items
  le : s.Le t
  marks : ∀ l ∈ names items, s.Numbered t l ∨ ∃ k, i ≤ k ∧ k < j ∧ l = target b k
  nodup : (names items).Nodup
  ends : items = [] ∨ ∃ xs i, items = xs ++ [.ins i]

/-- Arguments that are staged fit into the registers. -/
def Staged (bbs : List BasicBlock) : Prop := ∀ bb ∈ bbs, bb.term.staged ≤ 3856

theorem not_numbered_target {k : ℕ} : ¬ s.Numbered t (target b k) := id

/-- Items without a label of a block, before blocks. -/
theorem SoundBlocks.after {j : ℕ} (hx : Sound b W s xs t)
    (he : xs = [] ∨ ∃ zs i, xs = zs ++ [.ins i]) (hy : SoundBlocks b W i j t ys u) :
    SoundBlocks b W i j s (xs ++ ys) u where
  shape := hx.shape.append hy.shape
  le := hx.le.trans hy.le
  marks l hl := by
    rw [names_append, List.mem_append] at hl
    rcases hl with hl | hl
    · exact .inl ((hx.marks l hl).mono (.refl s) hy.le)
    · exact (hy.marks l hl).imp_left fun h => h.mono hx.le (.refl u)
  nodup := by
    rw [names_append]
    refine hx.nodup.append hy.nodup fun l hl hl' => ?_
    rcases hy.marks l hl' with h | ⟨k, -, -, rfl⟩
    · exact (hx.marks l hl).disjoint h (.refl t)
    · exact not_numbered_target (hx.marks _ hl)
  ends := by
    rcases hy.ends with rfl | ⟨zs, k, rfl⟩
    · rwa [List.append_nil]
    · exact .inr ⟨xs ++ zs, k, (List.append_assoc ..).symm⟩

/-- The label of a block, before the block and those after it. -/
theorem SoundBlocks.mark {j : ℕ} (hi : i < j) (hne : ∃ xs k, ys = xs ++ [.ins k])
    (h : SoundBlocks b W (i + 1) j s ys t) :
    SoundBlocks b W i j s (mark (target b i) :: ys) t where
  shape := (Shape.mark _).append h.shape
  le := h.le
  marks l hl := by
    rcases List.mem_cons.mp hl with rfl | hl
    · exact .inr ⟨i, Nat.le_refl i, hi, rfl⟩
    · rcases h.marks l hl with h | ⟨k, h1, h2, rfl⟩
      · exact .inl h
      · exact .inr ⟨k, Nat.le_of_succ_le h1, h2, rfl⟩
  nodup := by
    refine List.nodup_cons.mpr ⟨fun hl => ?_, h.nodup⟩
    rcases h.marks _ hl with h | ⟨k, h1, -, h2⟩
    · exact not_numbered_target h
    · obtain rfl : i = k := (Label.block.inj h2).2
      exact absurd h1 (Nat.not_succ_le_self i)
  ends := by
    obtain ⟨xs, k, rfl⟩ := hne
    exact .inr ⟨Bytecode.mark (target b i) :: xs, k, rfl⟩

/-- A block is its label, its statements and a terminator with an instruction at the end. -/
theorem emitBlock_ok {bb : BasicBlock} (hw : W → bb.term.staged ≤ 3856)
    (h : emitBlock b i bb s = .ok (items, t)) :
    ∃ xs j, items = mark (target b i) :: (xs ++ [.ins j]) ∧ Sound b W s (xs ++ [.ins j]) t := by
  obtain ⟨c, u, cs, hc, hcs, rfl⟩ := seq_cons_ok h
  obtain ⟨rfl, rfl⟩ := write_ok hc
  have hsound : Sound b W s cs t :=
    Emits.cons (emits_statements bb.stmts) (.cons (emits_terminator hw) .done) _ _ _ hcs
  have hends : Ends (seq [seq (bb.stmts.map (emitStatement b)), emitTerminator b bb.term]) :=
    .cons (.one (ends_terminator bb.term))
  obtain ⟨xs, j, rfl⟩ := hends _ _ _ hcs
  exact ⟨xs, j, rfl, hsound⟩

theorem emitBlocks_ok {bbs : List BasicBlock} (hw : W → Staged bbs)
    (h : emitBlocks b i bbs s = .ok (items, t)) :
    SoundBlocks b W i (i + bbs.length) s items t := by
  induction bbs generalizing i s items with
  | nil =>
    obtain ⟨rfl, rfl⟩ := write_ok h
    exact ⟨⟨by simp, by simp, by simp [uses, code]⟩, .refl s, by simp [names], by simp [names],
      .inl rfl⟩
  | cons bb bbs ih =>
    obtain ⟨c, u, ds, hc, hds, rfl⟩ := seq_cons_ok h
    obtain ⟨xs, j, rfl, hx⟩ := emitBlock_ok (fun w => hw w bb List.mem_cons_self) hc
    have hy := ih (fun w bb' h' => hw w bb' (List.mem_cons_of_mem _ h')) (seq_one_ok hds)
    rw [List.length_cons, Nat.add_comm bbs.length, ← Nat.add_assoc]
    have hrest := SoundBlocks.after hx (.inr ⟨xs, j, rfl⟩) hy
    refine hrest.mark (by omega) ?_
    rcases hrest.ends with h | h
    · exact absurd h (by simp)
    · exact h

theorem ends_prologue {n : ℕ} (h : emitPrologue b i n s = .ok (items, t)) :
    items = [] ∨ ∃ xs k, items = xs ++ [.ins k] := by
  induction n generalizing i s items with
  | zero =>
    obtain ⟨rfl, rfl⟩ := write_ok h
    exact .inl rfl
  | succ n ih =>
    obtain ⟨r, u, -, h⟩ := bind_eq_ok h
    obtain ⟨xs, v, ys, hx, hy, rfl⟩ := seq_cons_ok h
    obtain ⟨rfl, rfl⟩ := write_ok hx
    rcases ih (seq_one_ok hy) with rfl | ⟨zs, k, rfl⟩
    · exact .inr ⟨[], _, rfl⟩
    · exact .inr ⟨_ :: zs, k, rfl⟩

/-- A body is its label, and then items that set every label once. -/
theorem compileBody_ok (h : compileBody b s = .ok (items, t)) :
    ∃ rest, items = mark (.func b.name) :: rest ∧
      SoundBlocks b (Staged b.blocks) 0 b.blocks.length s rest t := by
  obtain ⟨c, s₁, hc, h⟩ := bind_eq_ok h
  obtain ⟨r, s₂, hr, h⟩ := bind_eq_ok h
  obtain ⟨rfl, rfl⟩ := pure_eq_ok h
  obtain ⟨_, u, rest, hm, hrest, rfl⟩ := seq_cons_ok hc
  obtain ⟨rfl, rfl⟩ := write_ok hm
  obtain ⟨xs, v, ys, hx, hy, rfl⟩ := seq_cons_ok hrest
  obtain rfl : s₁ = s₂ := by
    unfold maxLocalRegister at hr
    split_ifs at hr
    · exact (pure_eq_ok hr).2
    · exact (localToReg_ok hr).2
  have hprologue := emits_prologue (W := Staged b.blocks) 0 b.paramCount _ _ _ hx
  have hblocks := emitBlocks_ok id (seq_one_ok hy)
  rw [Nat.zero_add] at hblocks
  exact ⟨xs ++ ys, rfl, .after hprologue (ends_prologue hx) hblocks⟩

end Blocks

section Overflow

/-- An instruction with a register that the decoder refuses. -/
def TooWide (items : List Item) : Prop := ∃ i, .ins i ∈ items ∧ .reg 4096 ∈ i.args

theorem TooWide.mono (h : TooWide xs) (hs : ∀ x ∈ xs, x ∈ ys) : TooWide ys := by
  obtain ⟨i, hi, hr⟩ := h
  exact ⟨i, hs _ hi, hr⟩

theorem tooWide_staged {as : List Operand} (has : 3856 < as.length)
    (h : emitStaged b as s = .ok (items, t)) : TooWide items := by
  obtain ⟨xs, u, ys, -, hy, rfl⟩ := seq_cons_ok h
  obtain ⟨rfl, rfl⟩ := write_ok (seq_one_ok hy)
  refine ⟨⟨.mov, [.reg 3857, .reg 4096]⟩, List.mem_append_right _ ?_, by simp⟩
  exact List.mem_map.mpr ⟨3856, List.mem_range.mpr has, rfl⟩

theorem tooWide_terminator {term : Terminator} (hterm : 3856 < term.staged)
    (h : emitTerminator b term s = .ok (items, t)) : TooWide items := by
  cases term with
  | call func as dest ret =>
    unfold Terminator.staged at hterm
    dsimp only at hterm
    split_ifs at hterm with hf
    · rw [Option.isNone_iff_eq_none] at hf
      unfold emitTerminator emitCall at h
      simp only [hf] at h
      obtain ⟨xs, u, ys, hx, -, rfl⟩ := seq_cons_ok h
      exact (tooWide_staged hterm hx).mono fun x hx => List.mem_append_left _ hx
    · exact absurd hterm (by decide)
  | callIndirect o as dest ret | closureCall o as dest ret =>
    obtain ⟨xs, u, ys, -, hy, rfl⟩ := seq_cons_ok h
    obtain ⟨zs, v, ws, hz, -, rfl⟩ := seq_cons_ok hy
    refine (tooWide_staged hterm hz).mono fun x hx => ?_
    exact List.mem_append_right _ (List.mem_append_left _ hx)
  | goto | switchInt | switchDiscr | return_ | checkNull | unreachable | virtualCall
  | interfaceCall => exact absurd hterm (by simp [Terminator.staged])

theorem tooWide_blocks {bbs : List BasicBlock} {bb : BasicBlock} (hbb : bb ∈ bbs)
    (hterm : 3856 < bb.term.staged) (h : emitBlocks b i bbs s = .ok (items, t)) :
    TooWide items := by
  induction bbs generalizing i s items with
  | nil => cases hbb
  | cons bb' bbs ih =>
    obtain ⟨xs, u, ys, hx, hy, rfl⟩ := seq_cons_ok h
    rcases List.mem_cons.mp hbb with rfl | hbb
    · obtain ⟨_, _, zs, -, hz, rfl⟩ := seq_cons_ok hx
      obtain ⟨_, _, ws, -, hw, rfl⟩ := seq_cons_ok hz
      refine (tooWide_terminator hterm (seq_one_ok hw)).mono fun x hx => ?_
      exact List.mem_append_left _ (List.mem_append_right _ (List.mem_append_right _ hx))
    · exact (ih hbb (seq_one_ok hy)).mono fun x hx => List.mem_append_right _ hx

theorem tooWide_body {bb : BasicBlock} (hbb : bb ∈ b.blocks) (hterm : 3856 < bb.term.staged)
    (h : compileBody b s = .ok (items, t)) : TooWide items := by
  obtain ⟨c, s₁, hc, h⟩ := bind_eq_ok h
  obtain ⟨r, s₂, -, h⟩ := bind_eq_ok h
  obtain ⟨rfl, rfl⟩ := pure_eq_ok h
  obtain ⟨_, u, rest, -, hrest, rfl⟩ := seq_cons_ok hc
  obtain ⟨xs, v, ys, -, hy, rfl⟩ := seq_cons_ok hrest
  refine (tooWide_blocks hbb hterm (seq_one_ok hy)).mono fun x hx => ?_
  exact List.mem_append_right _ (List.mem_append_right _ hx)

end Overflow

end Loxis.Bytecode
