import Loxis.Bytecode.Emit
import Loxis.Lib.Listing

/-! # Writing and patching

The emitted instructions as bytes, with places left open for addresses, and the second pass that
fills them in from the labels. A label that is defined again has its last place.
-/

namespace Loxis.Bytecode

open LittleEndian
open Backend (LoweredClass VTableEntry getLabelOffset buildVTable)

structure Chunk where
  code : List UInt8
  strings : List String
  vtables : List (ℕ × VTableEntry)

/-- What the compiler keeps while it writes. -/
structure Writer where
  code : List UInt8
  patches : List (ℕ × String)
  labelOffsets : List (String × ℕ)

namespace Writer

variable (w : Writer)

def emitByte (byte : UInt8) : Writer := { w with code := w.code ++ [byte] }

/-- The lowest `n` bytes of a number. -/
def emitBytes (n v : ℕ) : Writer := { w with code := w.code ++ toBytes n v }

/-- Registers from 256 on have two bytes. -/
def emitReg (reg : ℕ) : Writer :=
  if reg < 256 then (w.emitByte OperandTag.reg.byte).emitBytes 1 reg
  else (w.emitByte OperandTag.wideReg.byte).emitBytes 2 reg

def emitImm (v : BitVec 64) : Writer := (w.emitByte OperandTag.imm64.byte).emitBytes 8 v.toNat

/-- Leave four bytes for the address of a label. -/
def emitAddr (label : String) : Writer :=
  let w := w.emitByte OperandTag.addr.byte
  { w.emitBytes 4 0 with patches := w.patches ++ [(w.code.length, label)] }

def emitArg : Arg → Writer
  | .reg r => w.emitReg r
  | .imm v => w.emitImm v
  | .str idx => (w.emitByte OperandTag.strIdx.byte).emitBytes 4 idx
  | .addr l => w.emitAddr l.text
  | .null => w.emitByte OperandTag.null.byte
  | .float bits => (w.emitByte OperandTag.float64.byte).emitBytes 8 bits.toNat

/-- Write an instruction, or set a label to the place reached. -/
def emitItem : Item → Writer
  | .ins i => i.args.foldl emitArg (w.emitByte i.op.byte)
  | .mark l =>
    { w with labelOffsets := w.labelOffsets ++ [(l.text, w.code.length % 2 ^ 32)] }

end Writer

/-- Overwrite four bytes. -/
def patchU32 (code : List UInt8) (offset value : ℕ) : Except String (List UInt8) :=
  if code.length ≤ offset + 3 then throw "patch offset out of bounds"
  else pure (code.take offset ++ toBytes 4 value ++ code.drop (offset + 4))

/-- Fill in the addresses. -/
def patchAll (labels : List (String × ℕ)) :
    List (ℕ × String) → List UInt8 → Except String (List UInt8)
  | [], code => pure code
  | p :: ps, code => do
    let v ← getLabelOffset labels p.2
    let code ← patchU32 code p.1 v
    patchAll labels ps code

structure LoweringOutput where
  globalInitializers : List (String × ℕ)
  bodies : List MirBody
  classes : List LoweredClass

/-- The classes that have a number. -/
def LoweringOutput.numbered (out : LoweringOutput) : List LoweredClass :=
  out.classes.filter fun lc => lc.typeId ≠ 0xFFFFFFFF

/-- The synthetic entry: initialize the globals, call main, halt. -/
def entry (inits : List (String × ℕ)) : List Item :=
  inits.flatMap (fun p =>
    [ins .call [.addr (.func p.1)], ins .gStore [.imm (BitVec.ofNat 64 p.2), .reg 0]]) ++
      [ins .call [.addr (.func "main")], ins .halt []]

/-- The items of the bodies, one after the other. -/
def emitBodies : List MirBody → Emit (List (List Item))
  | [] => pure []
  | b :: bs => do
    let c ← compileBody b
    let cs ← emitBodies bs
    pure (c :: cs)

/-- Everything that is written: the entry, and then each body. -/
def sections (out : LoweringOutput) : Emit (List (List Item)) := do
  let cs ← emitBodies out.bodies
  pure (entry out.globalInitializers :: cs)

def writeItems (items : List Item) : Writer := items.foldl Writer.emitItem ⟨[], [], []⟩

/-- The compiler, with the numbers at which its checks start. -/
def compile (cmpLabelId notLabelId : ℕ) (out : LoweringOutput) : Except String Chunk := do
  let (secs, s) ← (sections out).run ⟨[], cmpLabelId, notLabelId⟩
  let w := writeItems secs.flatten
  let vtables ← out.numbered.mapM (buildVTable w.labelOffsets)
  let code ← patchAll w.labelOffsets w.patches w.code
  pure ⟨code, s.strings, vtables⟩

end Loxis.Bytecode

/-! ## The bytes of a listing

What the compiler writes for a listing is its bytes with holes for the addresses, and patching
fills them in. The decoder reads a well-formed listing back.
-/

namespace Loxis.Bytecode

open LittleEndian Listing
open Holes (Piece fill sites)
open Backend (getLabelOffset offsetOf)

variable {f : Label → ℕ} {i : Instr} {items : List Item} {w : Writer} {is : List Instr}
  {pre post code : List UInt8} {p n r : ℕ}

section Bytes

/-- An operand with a hole where it has an address. -/
def Arg.pieces : Arg → List (Piece Label UInt8)
  | .reg r =>
    if r < 256 then [.raw (OperandTag.reg.byte :: toBytes 1 r)]
    else [.raw (OperandTag.wideReg.byte :: toBytes 2 r)]
  | .imm v => [.raw (OperandTag.imm64.byte :: toBytes 8 v.toNat)]
  | .str idx => [.raw (OperandTag.strIdx.byte :: toBytes 4 idx)]
  | .addr l => [.raw [OperandTag.addr.byte], .hole l]
  | .null => [.raw [OperandTag.null.byte]]
  | .float bits => [.raw (OperandTag.float64.byte :: toBytes 8 bits.toNat)]

def Instr.pieces (i : Instr) : List (Piece Label UInt8) :=
  .raw [i.op.byte] :: i.args.flatMap Arg.pieces

/-- The address of a label in four bytes. -/
def address (f : Label → ℕ) (l : Label) : List UInt8 := toBytes 4 (f l)

/-- The bytes of an instruction, with addresses for its labels. -/
def Instr.bytes (f : Label → ℕ) (i : Instr) : List UInt8 := fill (address f) i.pieces

/-- The size of an instruction. It does not depend on the addresses. -/
def Instr.size (i : Instr) : ℕ := (i.bytes fun _ => 0).length

def blank : Label → List UInt8 := address fun _ => 0

theorem length_address (f : Label → ℕ) (l : Label) : (address f l).length = 4 := length_toBytes 4 _

theorem Instr.length_bytes (f : Label → ℕ) (i : Instr) : (i.bytes f).length = i.size :=
  Holes.length_fill (length_address f) (length_toBytes 4 0) _

theorem Instr.size_pos (i : Instr) : 0 < i.size := Nat.succ_pos _

/-- The bytes of a listing. -/
def bytes (f : Label → ℕ) (items : List Item) : List UInt8 :=
  (Listing.code items).flatMap (Instr.bytes f)

/-- A listing with its holes. -/
def pieces (items : List Item) : List (Piece Label UInt8) :=
  (Listing.code items).flatMap Instr.pieces

theorem bytes_eq_fill (f : Label → ℕ) (items : List Item) :
    bytes f items = fill (address f) (pieces items) := by
  unfold bytes pieces fill
  rw [List.flatMap_assoc]
  rfl

theorem length_flatMap_bytes (f : Label → ℕ) (is : List Instr) :
    (is.flatMap (Instr.bytes f)).length = (is.map Instr.size).sum := by
  induction is with
  | nil => rfl
  | cons i is ih =>
    rw [List.flatMap_cons, List.length_append, i.length_bytes, ih, List.map_cons, List.sum_cons]

theorem length_bytes (f : Label → ℕ) (items : List Item) :
    (bytes f items).length = total Instr.size items := length_flatMap_bytes f _

end Bytes

section Write

/-- The holes of pieces as the compiler keeps them. -/
def siteTexts (p : ℕ) (ps : List (Piece Label UInt8)) : List (ℕ × String) :=
  (sites 4 p ps).map fun s => (s.1, s.2.text)

theorem siteTexts_append (p : ℕ) (ps qs : List (Piece Label UInt8)) :
    siteTexts p (ps ++ qs) = siteTexts p ps ++ siteTexts (p + (fill blank ps).length) qs := by
  unfold siteTexts
  rw [Holes.sites_append (length_toBytes 4 0), List.map_append]
  rfl

/-- A writer that has written some pieces more. -/
def Writer.extend (w : Writer) (ps : List (Piece Label UInt8)) : Writer :=
  { w with
    code := w.code ++ fill blank ps
    patches := w.patches ++ siteTexts w.code.length ps }

theorem Writer.extend_extend (w : Writer) (ps qs : List (Piece Label UInt8)) :
    (w.extend ps).extend qs = w.extend (ps ++ qs) := by
  unfold Writer.extend
  simp only [Holes.fill_append, siteTexts_append, List.append_assoc, List.length_append]

theorem Writer.extend_nil (w : Writer) : w.extend [] = w := by
  unfold Writer.extend
  simp [fill, sites, siteTexts]

theorem Writer.emitArg_eq (w : Writer) (a : Arg) : w.emitArg a = w.extend a.pieces := by
  cases a with
  | reg r =>
    by_cases hr : r < 256 <;>
      simp [emitArg, emitReg, Arg.pieces, hr, extend, emitByte, emitBytes, fill, Piece.fill,
        siteTexts, sites]
  | addr l =>
    simp [emitArg, emitAddr, Arg.pieces, extend, emitByte, emitBytes, fill, Piece.fill, siteTexts,
      sites, blank, address]
  | imm | str | null | float =>
    simp [emitArg, emitImm, Arg.pieces, extend, emitByte, emitBytes, fill, Piece.fill, siteTexts,
      sites]

theorem Writer.emitArgs_eq (w : Writer) (as : List Arg) :
    as.foldl Writer.emitArg w = w.extend (as.flatMap Arg.pieces) := by
  induction as generalizing w with
  | nil => exact w.extend_nil.symm
  | cons a as ih => rw [List.foldl_cons, ih, w.emitArg_eq, extend_extend, List.flatMap_cons]

theorem Writer.emitItem_ins (w : Writer) (i : Instr) :
    w.emitItem (.ins i) = w.extend i.pieces := by
  have h : w.emitByte i.op.byte = w.extend [.raw [i.op.byte]] := by
    simp [emitByte, extend, fill, Piece.fill, siteTexts, sites]
  rw [emitItem, h, emitArgs_eq, extend_extend]
  rfl

/-- The marks of a listing as the compiler keeps them. -/
def markTexts (p : ℕ) (items : List Item) : List (String × ℕ) :=
  (marks Instr.size p items).map fun m => (m.1.text, m.2 % 2 ^ 32)

theorem emitItems_eq (w : Writer) (items : List Item) : items.foldl Writer.emitItem w =
    { code := w.code ++ bytes (fun _ => 0) items
      patches := w.patches ++ siteTexts w.code.length (pieces items)
      labelOffsets := w.labelOffsets ++ markTexts w.code.length items } := by
  induction items generalizing w with
  | nil => simp [bytes, pieces, Listing.code, siteTexts, sites, markTexts, marks]
  | cons x items ih =>
    rw [List.foldl_cons, ih]
    cases x with
    | mark l => simp [Writer.emitItem, bytes, pieces, Listing.code, markTexts, marks]
    | ins i =>
      rw [w.emitItem_ins]
      have hp : pieces (.ins i :: items) = i.pieces ++ pieces items := rfl
      have hb : bytes (fun _ => 0) (.ins i :: items) =
        fill blank i.pieces ++ bytes (fun _ => 0) items := rfl
      simp only [Writer.extend, hp, hb, siteTexts_append, List.append_assoc, List.length_append]
      rfl

theorem writeItems_eq (items : List Item) : writeItems items =
    ⟨bytes (fun _ => 0) items, siteTexts 0 (pieces items), markTexts 0 items⟩ := by
  unfold writeItems
  rw [emitItems_eq]
  simp

/-- The place of a label according to a table. -/
def placed (labels : List (String × ℕ)) (l : Label) : ℕ := offsetOf labels l.text

/-- When patching succeeds, it overwrites the sites with what the labels say. -/
theorem patchAll_ok {labels : List (String × ℕ)} {ss : List (ℕ × Label)} {code' : List UInt8}
    (h : patchAll labels (ss.map fun s => (s.1, s.2.text)) code = .ok code') :
    code' = ss.foldl (fun c s => Holes.patch c s.1 (address (placed labels) s.2)) code := by
  induction ss generalizing code with
  | nil => exact (Except.ok.inj h).symm
  | cons s ss ih =>
    simp only [List.map_cons, patchAll, patchU32, bind, Except.bind] at h
    cases hv : getLabelOffset labels s.2.text with
    | error e =>
      rw [hv] at h
      cases h
    | ok v =>
      have hv' : placed labels s.2 = v := by
        rw [placed, offsetOf, hv]
      rw [hv] at h
      by_cases hlen : code.length ≤ s.1 + 3
      · simp only [if_pos hlen] at h
        cases h
      · simp only [if_neg hlen] at h
        rw [List.foldl_cons, ih h, address, hv', Holes.patch, length_toBytes]

theorem patchAll_bytes {labels : List (String × ℕ)} {code' : List UInt8}
    (h : patchAll labels (siteTexts 0 (pieces items)) (bytes (fun _ => 0) items) = .ok code') :
    code' = bytes (placed labels) items := by
  have hpatch := Holes.patch_sites (length_address (placed labels))
    (length_address (fun _ => 0) (.func "")) (pieces items) [] []
  simp only [List.nil_append, List.append_nil, List.length_nil] at hpatch
  rw [patchAll_ok h, bytes_eq_fill, bytes_eq_fill, ← hpatch]
  rfl

end Write

end Loxis.Bytecode
