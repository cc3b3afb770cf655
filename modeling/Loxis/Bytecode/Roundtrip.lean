import Loxis.Bytecode.Faithful

/-! # When decoding undoes compiling

An address is that of the last label with its text. With staged arguments in registers and
positions of 32 bits, the decoder shows everything as it was emitted, and so only the labels are
left to lead astray.
-/

namespace Loxis.Bytecode

open Listing
open Lowering (Operand)
open Backend (getLabelOffset offsetOf)

variable {items pre post xs ys : List Item} {l : Label} {out : LoweringOutput} {i : Instr}
  {secs : List (List Item)} {chunk : Chunk} {k k' j m n : ℕ} {f : Label → ℕ}

section Placed

theorem placed_print (labels : List (String × ℕ)) (h : l.text = "print") :
    placed labels l = 0xFFFFFFFF := by
  rw [placed, h]
  rfl

theorem placed_lt (l : Label) : placed (markTexts 0 items) l < 2 ^ 32 := by
  unfold placed offsetOf getLabelOffset
  split_ifs
  · decide
  · cases hf : (markTexts 0 items).reverse.find? fun p => p.1 = l.text with
    | none => exact Nat.two_pow_pos 32
    | some p =>
      have hp := List.mem_reverse.mp (List.mem_of_find?_eq_some hf)
      obtain ⟨q, -, rfl⟩ := List.mem_map.mp hp
      exact Nat.mod_lt _ (Nat.two_pow_pos 32)

/-- A label that is set has the greatest place at which its text is set. -/
theorem placed_greatest (hlen : total Instr.size items < 2 ^ 32) (hl : l.text ≠ "print")
    (hm : .mark l ∈ items) : ∃ q ∈ marks Instr.size 0 items, q.1.text = l.text ∧
      placed (markTexts 0 items) l = q.2 ∧
        ∀ r ∈ marks Instr.size 0 items, r.1.text = l.text → r.2 ≤ q.2 := by
  have hmod : ∀ q ∈ marks Instr.size 0 items, q.2 % 2 ^ 32 = q.2 := by
    intro q hq
    have hle := mem_marks_le Instr.size hq
    exact Nat.mod_eq_of_lt (by omega)
  unfold placed offsetOf getLabelOffset
  rw [if_neg hl]
  cases hf : (markTexts 0 items).reverse.find? fun p => p.1 = l.text with
  | none =>
    obtain ⟨ys, zs, rfl⟩ := List.append_of_mem hm
    have hnone := List.find?_eq_none.mp hf
    have hmem : (l, 0 + total Instr.size ys) ∈ marks Instr.size 0 (ys ++ .mark l :: zs) :=
      (mem_marks Instr.size).mpr ⟨ys, zs, rfl, rfl⟩
    have hmap := List.mem_reverse.mpr
      (List.mem_map_of_mem (f := fun q : Label × ℕ => (q.1.text, q.2 % 2 ^ 32)) hmem)
    exact absurd (decide_eq_true rfl) (hnone _ hmap)
  | some p =>
    obtain ⟨hp, as, bs, happ, hnot⟩ := List.find?_eq_some_iff_append.mp hf
    have happ := congrArg List.reverse happ
    rw [List.reverse_reverse, List.reverse_append, List.reverse_cons, List.append_assoc] at happ
    obtain ⟨cs, ds, hcd, hcs, hds⟩ := List.map_eq_append_iff.mp happ
    obtain ⟨q, es, rfl, hq, (hes : _ = as.reverse)⟩ := List.map_eq_cons_iff.mp hds
    have hord := marks_pairwise Instr.size 0 items
    rw [hcd] at hord hmod ⊢
    refine ⟨q, by simp, ?_, ?_, fun r hr hrt => ?_⟩
    · rw [← of_decide_eq_true hp, ← hq]
    · rw [← hq]
      exact hmod q (by simp)
    · rcases List.mem_append.mp hr with hr | hr
      · exact (List.pairwise_append.mp hord).2.2 r hr q List.mem_cons_self
      · rcases List.mem_cons.mp hr with rfl | hr
        · exact Nat.le_refl _
        · have hmem := List.mem_map_of_mem (f := fun q : Label × ℕ => (q.1.text, q.2 % 2 ^ 32)) hr
          rw [hes, List.mem_reverse] at hmem
          have hne := hnot _ hmem
          simp [hrt] at hne

theorem total_eq_zero : total Instr.size xs = 0 ↔ code xs = [] := by
  constructor
  · intro h
    cases hc : code xs with
    | nil => rfl
    | cons i is =>
      rw [total, hc, List.map_cons, List.sum_cons] at h
      have hpos := i.size_pos
      omega
  · intro h
    rw [total, h]
    rfl

/-- The address of a label is the place where it is set exactly when its text is not set behind a
later instruction. -/
theorem placed_eq_iff (hlen : total Instr.size (pre ++ mark l :: post) < 2 ^ 32)
    (hl : l.text ≠ "print") :
    placed (markTexts 0 (pre ++ mark l :: post)) l = total Instr.size pre ↔
      ∀ zs l' ws, post = zs ++ mark l' :: ws → l'.text = l.text → code zs = [] := by
  obtain ⟨q, hq, hqt, hval, hmax⟩ := placed_greatest hlen hl (by simp [mark])
  have hmarks : marks Instr.size 0 (pre ++ mark l :: post) = marks Instr.size 0 pre ++
      (l, total Instr.size pre) :: marks Instr.size (total Instr.size pre) post := by
    rw [marks_append, Nat.zero_add]
    rfl
  rw [hmarks] at hq hmax
  rw [hval]
  have hle := hmax (l, total Instr.size pre) (by simp) rfl
  constructor
  · intro heq zs l' ws hpost ht
    have hmem : (l', total Instr.size pre + total Instr.size zs) ∈
        marks Instr.size (total Instr.size pre) post :=
      (mem_marks Instr.size).mpr ⟨zs, ws, hpost, rfl⟩
    have hle' := hmax _ (List.mem_append_right _ (List.mem_cons_of_mem _ hmem)) ht
    exact total_eq_zero.mp (by dsimp only at hle'; omega)
  · intro hlater
    apply Nat.le_antisymm _ hle
    rcases List.mem_append.mp hq with hq | hq
    · exact (mem_marks_le Instr.size hq).trans_eq (Nat.zero_add _)
    · rcases List.mem_cons.mp hq with rfl | hq
      · exact Nat.le_refl _
      · obtain ⟨zs, ws, hpost, hq⟩ := (mem_marks Instr.size).mp hq
        have hz := total_eq_zero.mpr (hlater zs _ ws hpost hqt)
        omega

end Placed

section Sections

/-- What a program is made of around a place in a section. -/
theorem flatten_split {x : Item} (h : secs[k]? = some (xs ++ x :: ys)) :
    secs.flatten = before secs k xs ++ x :: (ys ++ (secs.drop (k + 1)).flatten) := by
  obtain ⟨hk, hx⟩ := List.getElem?_eq_some_iff.mp h
  conv_lhs => rw [← List.take_append_drop k secs, List.drop_eq_getElem_cons hk, hx]
  simp [before]

variable (h : compile m n out = .ok chunk)
include h

theorem fits_of_staged (hs : ∀ b ∈ out.bodies, Staged b.blocks) :
    ∀ i, .ins i ∈ (emitted m n out).flatten → i.Fits := by
  intro i hi
  obtain ⟨sec, hsec, hi'⟩ := List.mem_flatten.mp hi
  exact ⟨(emitted_sections h sec hsec).count i hi', (staged_iff h).mp hs i hi⟩

/-- What the decoder shows when it shows something. -/
theorem decodeBytecode_emitted (hs : ∀ b ∈ out.bodies, Staged b.blocks)
    (hlen : total Instr.size (emitted m n out).flatten < 2 ^ 32) :
    decodeBytecode chunk.code = some (decoded (placed (markTexts 0 (emitted m n out).flatten)) 0
      (code (emitted m n out).flatten)) := by
  obtain ⟨-, hcode⟩ := compile_ok h
  rw [hcode]
  exact decodeBytecode_bytes (fun l => placed_lt l) (fits_of_staged h hs) hlen

end Sections

section Decoded

/-- The instruction that comes next after a place in a section is shown with the offset of the
place. -/
theorem decoded_next {x : Item} {is : List Instr} (h : secs[k]? = some (xs ++ x :: ys))
    (hx : code (x :: ys) = i :: is) : (decoded f 0 (code secs.flatten))[index secs k xs]? =
      some ⟨i.op, offset secs k xs, i.args.map (Arg.decoded f)⟩ := by
  rw [flatten_split h, code_append, ← List.cons_append, code_append, hx]
  exact getElem_decoded f _ i _

theorem offset_add_size_le {x : Item} {is : List Instr} (h : secs[k]? = some (xs ++ x :: ys))
    (hx : code (x :: ys) = i :: is) : offset secs k xs + i.size ≤ total Instr.size secs.flatten := by
  rw [flatten_split h, total_append, ← List.cons_append, total_append, total, total, hx,
    List.map_cons, List.sum_cons]
  unfold offset total
  omega

section Labels

variable (hlen : total Instr.size secs.flatten < 2 ^ 32)
  (hsec : secs[k']? = some (xs ++ mark l :: ys))
include hlen hsec

/-- The address of a label is the place where it is set in a section exactly when its text is not
set behind a later instruction. -/
theorem placed_offset_iff (hl : l.text ≠ "print") :
    placed (markTexts 0 secs.flatten) l = offset secs k' xs ↔
      ∀ zs l' ws, ys ++ (secs.drop (k' + 1)).flatten = zs ++ mark l' :: ws →
        l'.text = l.text → code zs = [] := by
  have hsplit := flatten_split hsec
  rw [hsplit] at hlen ⊢
  exact placed_eq_iff hlen hl

/-- A label that is shown with the offset of the instruction behind it is not the one with an
address outside the code. -/
theorem text_ne_print (hne : code ys ≠ [])
    (h : placed (markTexts 0 secs.flatten) l = offset secs k' xs) : l.text ≠ "print" := by
  intro hl
  obtain ⟨i, is, hi⟩ := List.exists_cons_of_ne_nil hne
  have hle := offset_add_size_le (x := mark l) hsec hi
  have hpos := i.size_pos
  rw [placed_print _ hl] at h
  omega

end Labels

/-- The address of a label is shown as that of the instruction which it marks exactly when the label
leads where it belongs. -/
theorem same_addr_iff (hlen : total Instr.size secs.flatten < 2 ^ 32)
    (hnodup : ∀ sec ∈ secs, (names sec).Nodup) (hf : f = placed (markTexts 0 secs.flatten)) :
    Same secs (decoded f 0 (code secs.flatten)) k (.addr l) (Arg.decoded f (.addr l)) ↔
      Resolves secs k l := by
  constructor
  · rintro ⟨j, d, ⟨k', xs, ys, hhome, hsec, -, -, hne, rfl⟩, hd, hval⟩
    obtain ⟨i, is, hi⟩ := List.exists_cons_of_ne_nil hne
    rw [decoded_next (x := mark l) hsec hi] at hd
    obtain rfl := Option.some.inj hd
    have hle := offset_add_size_le (x := mark l) hsec hi
    have hval := congrArg BitVec.toNat (DecodedOperand.mk.inj hval).2.1
    have hlt : f l < 2 ^ 32 := hf ▸ placed_lt l
    dsimp only at hval
    rw [BitVec.toNat_ofNat, BitVec.toNat_ofNat, Nat.mod_eq_of_lt (by omega),
      Nat.mod_eq_of_lt (by omega), hf] at hval
    have hl := text_ne_print hlen hsec hne hval
    exact ⟨hl, k', xs, ys, hhome, hsec, hne, (placed_offset_iff hlen hsec hl).mp hval⟩
  · rintro ⟨hl, k', xs, ys, hhome, hsec, hne, hlater⟩
    obtain ⟨i, is, hi⟩ := List.exists_cons_of_ne_nil hne
    have hval := (placed_offset_iff hlen hsec hl).mpr hlater
    have hnames := hnodup _ (List.mem_of_getElem? hsec)
    rw [names_append] at hnames
    have hxs : mark l ∉ xs := fun h =>
      (List.nodup_append.mp hnames).2.2 l (mem_names.mpr h) l List.mem_cons_self rfl
    have hys : mark l ∉ ys := fun h =>
      (List.nodup_cons.mp (List.nodup_append.mp hnames).2.1).1 (mem_names.mpr h)
    refine ⟨_, _, ⟨k', xs, ys, hhome, hsec, hxs, hys, hne, rfl⟩,
      decoded_next (x := mark l) hsec hi, ?_⟩
    rw [Arg.decoded, hf, hval]

end Decoded

section Main

theorem exists_same {ds : List DecodedInstr} {as : List Arg} {os : List DecodedOperand} {a : Arg}
    (h : List.Forall₂ (Same secs ds k) as os) (ha : a ∈ as) : ∃ o ∈ os, Same secs ds k a o := by
  obtain ⟨p, hp, rfl⟩ := List.mem_iff_getElem.mp ha
  have hp' : p < os.length := h.length_eq ▸ hp
  exact ⟨os[p], List.getElem_mem hp', h.get hp hp'⟩

/-- With an operand shown as it is, only the labels decide. -/
theorem same_args_iff {ds : List DecodedInstr} {as : List Arg} :
    List.Forall₂ (Same secs ds k) as (as.map (Arg.decoded f)) ↔
      ∀ l, .addr l ∈ as → Same secs ds k (.addr l) (Arg.decoded f (.addr l)) := by
  induction as with
  | nil => simp
  | cons a as ih =>
    rw [List.map_cons, List.forall₂_cons, ih]
    cases a with
    | addr l => simp
    | reg | imm | str | null | float => simp [Same, Arg.decoded]

variable (h : compile m n out = .ok chunk)
include h

theorem Faithful.short (hf : Faithful (emitted m n out) chunk.code) :
    total Instr.size (emitted m n out).flatten < 2 ^ 32 := by
  obtain ⟨ds, hds, -⟩ := hf
  obtain ⟨hlen, -⟩ := decodeFrom_some (Nat.two_pow_pos 32) hds
  rw [← length_bytes, ← (compile_ok h).2]
  exact hlen

/-- The decoder shows no register that an encoding has no room for. -/
theorem Faithful.staged (hf : Faithful (emitted m n out) chunk.code) :
    ∀ b ∈ out.bodies, Staged b.blocks := by
  obtain ⟨ds, hds, -, hins⟩ := hf
  obtain ⟨-, hregs⟩ := decodeFrom_some (Nat.two_pow_pos 32) hds
  obtain ⟨cs, u, t, he, hcs⟩ := emitted_ok h
  intro b hb bb hbb
  by_contra hterm
  obtain ⟨sec, hsec, s, t, hok⟩ := (emitBodies_ok hcs).2 b hb
  obtain ⟨i, hi, hr⟩ := tooWide_body hbb (Nat.not_le.mp hterm) hok
  have hmem : sec ∈ emitted m n out := he ▸ List.mem_cons_of_mem _ hsec
  obtain ⟨k, hk⟩ := List.mem_iff_getElem?.mp hmem
  obtain ⟨xs, ys, rfl⟩ := List.append_of_mem hi
  obtain ⟨d, hd, -, -, hargs⟩ := hins k xs i ys hk
  obtain ⟨o, ho, hsame⟩ := exists_same hargs hr
  have hlt := hregs d (List.mem_of_getElem? hd) o ho
  rw [hsame] at hlt
  exact absurd (hlt rfl) (by decide)

theorem Faithful.labels (hf : Faithful (emitted m n out) chunk.code) :
    ∀ k sec, (emitted m n out)[k]? = some sec → ∀ l ∈ uses sec, Resolves (emitted m n out) k l := by
  have hds := decodeBytecode_emitted h (hf.staged h) (hf.short h)
  have hshort := hf.short h
  obtain ⟨ds, hds', -, hins⟩ := hf
  obtain rfl := Option.some.inj (hds.symm.trans hds')
  intro k sec hk l hl
  obtain ⟨i, hi, hla⟩ := mem_uses.mp hl
  obtain ⟨xs, ys, rfl⟩ := List.append_of_mem hi
  obtain ⟨d, hd, -, -, hargs⟩ := hins k xs i ys hk
  rw [decoded_next hk rfl] at hd
  obtain rfl := Option.some.inj hd
  exact (same_addr_iff hshort (fun sec hsec => (emitted_sections h sec hsec).nodup) rfl).mp
    (same_args_iff.mp hargs l hla)

theorem faithful_of_decodable (hd : Decodable out (emitted m n out)) :
    Faithful (emitted m n out) chunk.code := by
  refine ⟨_, decodeBytecode_emitted h hd.staged hd.short, length_decoded _ _ _, ?_⟩
  intro k xs i ys hsec
  refine ⟨_, decoded_next hsec rfl, rfl, rfl, same_args_iff.mpr fun l hl => ?_⟩
  have hl := hd.labels k _ hsec l (mem_uses.mpr ⟨i, by simp, hl⟩)
  exact (same_addr_iff hd.short (fun sec hsec => (emitted_sections h sec hsec).nodup) rfl).mpr hl

theorem decodable_of_faithful (hf : Faithful (emitted m n out) chunk.code) :
    Decodable out (emitted m n out) :=
  ⟨hf.staged h, hf.short h, hf.labels h⟩

/-- Decoding undoes compiling exactly when staged arguments have registers, positions have 32 bits
and every label leads where it belongs. -/
theorem faithful_iff : Faithful (emitted m n out) chunk.code ↔ Decodable out (emitted m n out) :=
  ⟨decodable_of_faithful h, faithful_of_decodable h⟩

end Main

section Shadowed

/-- A program with a main function. -/
def program (bodies : List MirBody) : LoweringOutput :=
  ⟨[], ⟨[], [⟨[], .return_⟩], "main", 0⟩ :: bodies, []⟩

theorem faithful_iff_program : ∃ chunk, compile 0 0 (program []) = .ok chunk ∧
    (Faithful (emitted 0 0 (program [])) chunk.code ↔
      Decodable (program []) (emitted 0 0 (program []))) := by
  have hok : ∃ chunk, compile 0 0 (program []) = .ok chunk := ⟨_, rfl⟩
  obtain ⟨chunk, h⟩ := hok
  exact ⟨chunk, h, faithful_iff h⟩

/-- A function that jumps to its second block, before a function whose name is that block's label. -/
def shadowed : LoweringOutput :=
  program [⟨[], [⟨[], .goto 1⟩, ⟨[], .return_⟩], "f", 0⟩, ⟨[], [⟨[], .return_⟩], "f_b1", 0⟩]

theorem emitted_shadowed : emitted 0 0 shadowed = [entry [],
    [mark (.func "main"), mark (.block "main" 0), ins .ret []],
    [mark (.func "f"), mark (.block "f" 0), jump (.block "f" 1),
      mark (.block "f" 1), ins .ret []],
    [mark (.func "f_b1"), mark (.block "f_b1" 0), ins .ret []]] := rfl

/-- The jump leads to the other function. -/
theorem not_resolves_shadowed : ¬ Resolves (emitted 0 0 shadowed) 2 (.block "f" 1) := by
  rintro ⟨-, k', xs, ys, rfl, hsec, -, hlater⟩
  rw [emitted_shadowed] at hsec hlater
  have hsplit : [mark (.func "f"), mark (.block "f" 0), jump (.block "f" 1)] ++
      mark (.block "f" 1) :: [ins .ret []] = xs ++ mark (.block "f" 1) :: ys :=
    Option.some.inj hsec
  obtain ⟨-, -, rfl⟩ := (List.append_cons_inj_of_notMem (by decide) (by decide)).mp hsplit
  have hne := hlater [ins .ret []] (.func "f_b1") _ rfl (by decide)
  cases hne

theorem shadowed_not_faithful : ∃ chunk, compile 0 0 shadowed = .ok chunk ∧
    ¬ Faithful (emitted 0 0 shadowed) chunk.code := by
  have hok : ∃ chunk, compile 0 0 shadowed = .ok chunk := ⟨_, rfl⟩
  obtain ⟨chunk, h⟩ := hok
  refine ⟨chunk, h, fun hf => ?_⟩
  have hl := hf.labels h 2 _ rfl (.block "f" 1) (by decide)
  exact not_resolves_shadowed hl

end Shadowed

end Loxis.Bytecode
