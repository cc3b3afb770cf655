import Loxis.Bytecode.Encode

/-! # Decoding a listing

The decoder reads the bytes of a listing back, instruction by instruction, as long as positions do
not wrap around, every instruction has as many operands as the decoder's table says, and registers
are in range. Conversely these are needed for the decoder to return.
-/

namespace Loxis.Bytecode

open LittleEndian Listing
open Holes (Piece fill)

variable {f : Label → ℕ} {a : Arg} {as : List Arg} {i : Instr} {is : List Instr}
  {bs cs code : List UInt8} {b : UInt8} {p n v : ℕ}

/-- These bytes lie at a position of a code whose positions do not wrap around. -/
def At (code : List UInt8) (p : ℕ) (bs : List UInt8) : Prop :=
  code.length < 2 ^ 32 ∧ ∃ pre post, code = pre ++ bs ++ post ∧ pre.length = p

namespace At

theorem append (h : At code p (bs ++ cs)) : At code p bs ∧ At code (p + bs.length) cs := by
  obtain ⟨hlen, pre, post, rfl, rfl⟩ := h
  exact ⟨⟨hlen, pre, cs ++ post, by simp, rfl⟩, ⟨hlen, pre ++ bs, post, by simp, by simp⟩⟩

theorem cons (h : At code p (b :: bs)) : code[p]? = some b ∧ At code (p + 1) bs := by
  obtain ⟨hlen, pre, post, rfl, rfl⟩ := h
  exact ⟨by simp, hlen, pre ++ [b], post, by simp, by simp⟩

theorem le (h : At code p bs) : p + bs.length ≤ code.length := by
  obtain ⟨-, pre, post, rfl, rfl⟩ := h
  simp

theorem mod (h : At code p bs) : p % 2 ^ 32 = p :=
  Nat.mod_eq_of_lt ((Nat.le_add_right _ _).trans_lt (h.le.trans_lt h.1))

end At

theorem readBytes_at (h : At code p bs) : readBytes code p bs.length = some bs := by
  induction bs generalizing p with
  | nil => rfl
  | cons b bs ih =>
    obtain ⟨hb, h⟩ := h.cons
    rw [List.length_cons, readBytes, hb, Option.bind_some, h.mod, ih h, Option.map_some]

theorem readNumber_at (h : At code p (toBytes n v)) (hn : 0 < n) (hv : v < 256 ^ n) :
    readNumber code p n = some v := by
  have hle := h.le
  rw [length_toBytes] at hle
  have hr := readBytes_at h
  rw [length_toBytes] at hr
  have hmod : (p + (n - 1)) % 2 ^ 32 = p + (n - 1) := Nat.mod_eq_of_lt (by have := h.1; omega)
  rw [readNumber, hmod, if_neg (by omega), hr, Option.map_some, ofBytes_toBytes_of_lt hv]

/-- An operand as the decoder shows it. -/
def Arg.decoded (f : Label → ℕ) : Arg → DecodedOperand
  | .reg r => ⟨.reg, BitVec.ofNat 64 r, 0⟩
  | .imm v => ⟨.imm64, v, 0⟩
  | .str idx => ⟨.strIdx, 0, idx⟩
  | .addr l => ⟨.addr, BitVec.ofNat 64 (f l), 0⟩
  | .null => ⟨.null, 0, 0⟩
  | .float bits => ⟨.float64, bits, 0⟩

/-- An operand that the encoding has room for: registers as the decoder wants them. -/
def Arg.Fits : Arg → Prop
  | .reg r => r < 4096
  | .str idx => idx < 2 ^ 32
  | _ => True

theorem ofByte_tag (t : OperandTag) : OperandTag.ofByte t.byte = some t := by
  cases t <;> decide

theorem ofByte_op (op : OpCode) : OpCode.ofByte op.byte = some op := by
  cases op <;> decide +kernel

/-- What the decoder finds at a tagged number. -/
theorem At.tagged {t : OperandTag} (h : At code p (t.byte :: toBytes n v)) (hn : 0 < n)
    (hv : v < 256 ^ n) : decodeOperandAt code p = decodePayload code (p + 1) t ∧
      readNumber code (p + 1) n = some v ∧ (p + 1 + n) % 2 ^ 32 = p + (n + 1) := by
  obtain ⟨hb, h'⟩ := h.cons
  have hle := h.le
  rw [List.length_cons, length_toBytes] at hle
  have hlen := h.1
  refine ⟨?_, readNumber_at h' hn hv, ?_⟩
  · rw [decodeOperandAt, hb, Option.bind_some, ofByte_tag, Option.bind_some, h'.mod]
  · rw [Nat.mod_eq_of_lt (by omega), Nat.add_right_comm, Nat.add_assoc]

theorem decodeOperandAt_fits (hf : ∀ l, f l < 2 ^ 32) (ha : a.Fits)
    (h : At code p (fill (address f) a.pieces)) : decodeOperandAt code p =
      some (a.decoded f, p + (fill (address f) a.pieces).length) := by
  cases a with
  | reg r =>
    by_cases hr : r < 256
    · simp only [Arg.pieces, if_pos hr, fill, List.flatMap_cons, Piece.fill, List.flatMap_nil,
        List.append_nil] at h ⊢
      obtain ⟨ht, hn, hp⟩ := h.tagged Nat.one_pos (by simpa using hr)
      rw [ht, decodePayload, hn, Option.map_some, hp, List.length_cons, length_toBytes]
      rfl
    · simp only [Arg.pieces, if_neg hr, fill, List.flatMap_cons, Piece.fill, List.flatMap_nil,
        List.append_nil] at h ⊢
      have hr' : r < 4096 := ha
      obtain ⟨ht, hn, hp⟩ := h.tagged Nat.two_pos (by omega)
      rw [ht, decodePayload, hn, Option.bind_some, if_neg (Nat.not_le.mpr hr'), hp,
        List.length_cons, length_toBytes]
      rfl
  | imm v =>
    simp only [Arg.pieces, fill, List.flatMap_cons, Piece.fill, List.flatMap_nil,
      List.append_nil] at h ⊢
    obtain ⟨ht, hn, hp⟩ := h.tagged (by decide) v.isLt
    rw [ht, decodePayload, hn, Option.map_some, hp, List.length_cons, length_toBytes,
      BitVec.ofNat_toNat, BitVec.setWidth_eq]
    rfl
  | str idx =>
    simp only [Arg.pieces, fill, List.flatMap_cons, Piece.fill, List.flatMap_nil,
      List.append_nil] at h ⊢
    obtain ⟨ht, hn, hp⟩ := h.tagged (by decide) ha
    rw [ht, decodePayload, hn, Option.map_some, hp, List.length_cons, length_toBytes]
    rfl
  | addr l =>
    simp only [Arg.pieces, fill, List.flatMap_cons, Piece.fill, List.flatMap_nil,
      List.append_nil, List.singleton_append] at h ⊢
    obtain ⟨ht, hn, hp⟩ := h.tagged (by decide) (hf l)
    rw [ht, decodePayload, hn, Option.map_some, hp, List.length_cons, length_address]
    rfl
  | null =>
    simp only [Arg.pieces, fill, List.flatMap_cons, Piece.fill, List.flatMap_nil,
      List.append_nil] at h ⊢
    obtain ⟨hb, h'⟩ := h.cons
    rw [decodeOperandAt, hb, Option.bind_some, ofByte_tag, Option.bind_some, h'.mod]
    rfl
  | float bits =>
    simp only [Arg.pieces, fill, List.flatMap_cons, Piece.fill, List.flatMap_nil,
      List.append_nil] at h ⊢
    obtain ⟨ht, hn, hp⟩ := h.tagged (by decide) bits.isLt
    rw [ht, decodePayload, hn, Option.map_some, hp, List.length_cons, length_toBytes,
      BitVec.ofNat_toNat, BitVec.setWidth_eq]
    rfl

theorem decodeOperands_fits (hf : ∀ l, f l < 2 ^ 32) (has : ∀ a ∈ as, a.Fits)
    (h : At code p (fill (address f) (as.flatMap Arg.pieces))) :
    decodeOperands code p as.length = some (as.map (Arg.decoded f),
      p + (fill (address f) (as.flatMap Arg.pieces)).length) := by
  induction as generalizing p with
  | nil => rfl
  | cons a as ih =>
    rw [List.flatMap_cons, Holes.fill_append] at h
    have hrest := ih (fun a ha => has a (List.mem_cons_of_mem _ ha)) h.append.2
    rw [List.length_cons, decodeOperands,
      decodeOperandAt_fits hf (has a List.mem_cons_self) h.append.1, Option.bind_some, hrest,
      Option.map_some, List.map_cons, List.flatMap_cons, Holes.fill_append, List.length_append,
      Nat.add_assoc]

/-- An instruction that the decoder knows, with room for its operands. Its opcode never asks the
decoder to look ahead. -/
structure Instr.Fits (i : Instr) : Prop where
  count : ∀ code ip, operandCountFor code ip i.op = some i.args.length
  args : ∀ a ∈ i.args, a.Fits

theorem decodeInstrAt_fits (hf : ∀ l, f l < 2 ^ 32) (hi : i.Fits) (h : At code p (i.bytes f)) :
    decodeInstrAt code p = some (⟨i.op, p, i.args.map (Arg.decoded f)⟩, p + i.size) := by
  have hbytes : i.bytes f = i.op.byte :: fill (address f) (i.args.flatMap Arg.pieces) := rfl
  have hsize := i.length_bytes f
  rw [hbytes] at h hsize
  obtain ⟨hb, h'⟩ := h.cons
  rw [decodeInstrAt, hb, Option.bind_some, ofByte_op, Option.bind_some, hi.count,
    Option.bind_some, h'.mod, decodeOperands_fits hf hi.args h', Option.map_some, ← hsize,
    List.length_cons, Nat.add_assoc, Nat.add_comm 1]

/-- Instructions as the decoder shows them, from a position on. -/
def decoded (f : Label → ℕ) : ℕ → List Instr → List DecodedInstr
  | _, [] => []
  | p, i :: is => ⟨i.op, p, i.args.map (Arg.decoded f)⟩ :: decoded f (p + i.size) is

theorem decodeFrom_fits (hf : ∀ l, f l < 2 ^ 32) (his : ∀ i ∈ is, i.Fits) {fuel : ℕ}
    (hfuel : is.length < fuel) (h : At code p (is.flatMap (Instr.bytes f)))
    (hend : p + (is.flatMap (Instr.bytes f)).length = code.length) :
    decodeFrom code fuel p = some (decoded f p is) := by
  induction is generalizing p fuel with
  | nil =>
    obtain ⟨fuel, rfl⟩ := Nat.exists_eq_add_one_of_ne_zero (Nat.ne_of_gt hfuel)
    rw [decodeFrom, if_pos (by simpa using hend.symm.le)]
    rfl
  | cons i is ih =>
    obtain ⟨fuel, rfl⟩ := Nat.exists_eq_add_one_of_ne_zero (Nat.ne_of_gt (Nat.zero_lt_of_lt hfuel))
    rw [List.flatMap_cons] at h hend
    rw [List.length_append, i.length_bytes] at hend
    have hpos := i.size_pos
    have hrest := h.append.2
    rw [i.length_bytes] at hrest
    rw [decodeFrom, if_neg (by omega),
      decodeInstrAt_fits hf (his i List.mem_cons_self) h.append.1, Option.bind_some,
      ih (fun j hj => his j (List.mem_cons_of_mem _ hj)) (Nat.lt_of_succ_lt_succ hfuel) hrest
        (by omega), Option.map_some]
    rfl

theorem length_le_sum (is : List Instr) : is.length ≤ (is.map Instr.size).sum := by
  induction is with
  | nil => exact Nat.le_refl 0
  | cons i is ih =>
    have hpos := i.size_pos
    rw [List.map_cons, List.sum_cons, List.length_cons]
    omega

/-- The decoder undoes the encoding of a listing that fits. -/
theorem decodeBytecode_bytes {items : List Item} (hf : ∀ l, f l < 2 ^ 32)
    (his : ∀ i, .ins i ∈ items → i.Fits) (hlen : total Instr.size items < 2 ^ 32) :
    decodeBytecode (bytes f items) = some (decoded f 0 (Listing.code items)) := by
  have hl := length_bytes f items
  have hle : (Listing.code items).length ≤ total Instr.size items := length_le_sum _
  refine decodeFrom_fits hf (fun i hi => his i (mem_code.mp hi)) (by omega)
    ⟨by omega, [], [], by simp [bytes], rfl⟩ ?_
  rw [Nat.zero_add]
  rfl

theorem decoded_append (f : Label → ℕ) (p : ℕ) (is js : List Instr) :
    decoded f p (is ++ js) = decoded f p is ++ decoded f (p + (is.map Instr.size).sum) js := by
  induction is generalizing p with
  | nil => rfl
  | cons i is ih =>
    rw [List.cons_append, decoded, ih, decoded, List.map_cons, List.sum_cons, Nat.add_assoc,
      List.cons_append]

@[simp] theorem length_decoded (f : Label → ℕ) (p : ℕ) (is : List Instr) :
    (decoded f p is).length = is.length := by
  induction is generalizing p with
  | nil => rfl
  | cons i is ih => rw [decoded, List.length_cons, ih, List.length_cons]

/-- The instruction behind some others is shown behind theirs. -/
theorem getElem_decoded (f : Label → ℕ) (is : List Instr) (i : Instr) (js : List Instr) :
    (decoded f 0 (is ++ i :: js))[is.length]? =
      some ⟨i.op, (is.map Instr.size).sum, i.args.map (Arg.decoded f)⟩ := by
  rw [decoded_append, List.getElem?_append_right (by simp), length_decoded, Nat.sub_self,
    Nat.zero_add]
  rfl

section Converse

/-- What the decoder shows, and where it goes on. -/
structure Sane (r : DecodedOperand × ℕ) : Prop where
  reg : r.1.tag = .reg → r.1.intVal.toNat < 4096
  pos : r.2 < 2 ^ 32

theorem readBytes_length {bs : List UInt8} (h : readBytes code p n = some bs) : bs.length = n := by
  induction n generalizing p bs with
  | zero =>
    obtain rfl := Option.some.inj h
    rfl
  | succ n ih =>
    obtain ⟨b, -, h⟩ := Option.bind_eq_some_iff.mp h
    obtain ⟨cs, hcs, rfl⟩ := Option.map_eq_some_iff.mp h
    rw [List.length_cons, ih hcs]

theorem readNumber_one {v : ℕ} (h : readNumber code p 1 = some v) : v < 256 := by
  unfold readNumber at h
  split_ifs at h
  obtain ⟨bs, hbs, rfl⟩ := Option.map_eq_some_iff.mp h
  obtain ⟨b, rfl⟩ := List.length_eq_one_iff.mp (readBytes_length hbs)
  simpa [ofBytes] using b.toNat_lt

theorem decodePayload_sane {t : OperandTag} {r : DecodedOperand × ℕ} (hp : p < 2 ^ 32)
    (h : decodePayload code p t = some r) : Sane r := by
  cases t with
  | wideReg =>
    obtain ⟨v, -, h⟩ := Option.bind_eq_some_iff.mp h
    split_ifs at h with hv
    obtain rfl := Option.some.inj h
    refine ⟨fun _ => ?_, Nat.mod_lt _ (by decide)⟩
    rw [BitVec.toNat_ofNat, Nat.mod_eq_of_lt (by omega)]
    exact Nat.not_le.mp hv
  | reg =>
    obtain ⟨v, hv, rfl⟩ := Option.map_eq_some_iff.mp h
    have hv := readNumber_one hv
    refine ⟨fun _ => ?_, Nat.mod_lt _ (by decide)⟩
    rw [BitVec.toNat_ofNat, Nat.mod_eq_of_lt (by omega)]
    omega
  | null =>
    obtain rfl := Option.some.inj h
    exact ⟨nofun, hp⟩
  | imm64 | strIdx | addr | float64 =>
    obtain ⟨v, -, rfl⟩ := Option.map_eq_some_iff.mp h
    exact ⟨nofun, Nat.mod_lt _ (by decide)⟩

theorem decodeOperands_sane {rs : List DecodedOperand × ℕ} (hp : p < 2 ^ 32)
    (h : decodeOperands code p n = some rs) :
    (∀ o ∈ rs.1, o.tag = .reg → o.intVal.toNat < 4096) ∧ rs.2 < 2 ^ 32 := by
  induction n generalizing p rs with
  | zero =>
    obtain rfl := Option.some.inj h
    exact ⟨by simp, hp⟩
  | succ n ih =>
    obtain ⟨r, hr, h⟩ := Option.bind_eq_some_iff.mp h
    obtain ⟨rs, hrs, rfl⟩ := Option.map_eq_some_iff.mp h
    obtain ⟨t, -, hr⟩ := Option.bind_eq_some_iff.mp hr
    have hsane := decodePayload_sane (Nat.mod_lt _ (by decide)) hr
    obtain ⟨h1, h2⟩ := ih hsane.pos hrs
    refine ⟨fun o ho => ?_, h2⟩
    rcases List.mem_cons.mp ho with rfl | ho
    · exact hsane.reg
    · exact h1 o ho

theorem decodeInstrAt_sane {r : DecodedInstr × ℕ} (h : decodeInstrAt code p = some r) :
    (∀ o ∈ r.1.operands, o.tag = .reg → o.intVal.toNat < 4096) ∧ r.2 < 2 ^ 32 := by
  obtain ⟨b, -, h⟩ := Option.bind_eq_some_iff.mp h
  obtain ⟨op, -, h⟩ := Option.bind_eq_some_iff.mp h
  obtain ⟨n, -, h⟩ := Option.bind_eq_some_iff.mp h
  obtain ⟨rs, hrs, rfl⟩ := Option.map_eq_some_iff.mp h
  exact decodeOperands_sane (Nat.mod_lt _ (by decide)) hrs

/-- The decoder returns only where its position does not wrap around, and shows only registers in
range. -/
theorem decodeFrom_some {fuel : ℕ} {ds : List DecodedInstr} (hp : p < 2 ^ 32)
    (h : decodeFrom code fuel p = some ds) : code.length < 2 ^ 32 ∧
      ∀ d ∈ ds, ∀ o ∈ d.operands, o.tag = .reg → o.intVal.toNat < 4096 := by
  induction fuel generalizing p ds with
  | zero => cases h
  | succ fuel ih =>
    rw [decodeFrom] at h
    split_ifs at h with hend
    · obtain rfl := Option.some.inj h
      exact ⟨hend.trans_lt hp, by simp⟩
    · obtain ⟨r, hr, h⟩ := Option.bind_eq_some_iff.mp h
      obtain ⟨ds, hds, rfl⟩ := Option.map_eq_some_iff.mp h
      obtain ⟨h1, h2⟩ := decodeInstrAt_sane hr
      obtain ⟨hlen, hrest⟩ := ih h2 hds
      refine ⟨hlen, fun d hd => ?_⟩
      rcases List.mem_cons.mp hd with rfl | hd
      · exact h1
      · exact hrest d hd

end Converse

end Loxis.Bytecode
