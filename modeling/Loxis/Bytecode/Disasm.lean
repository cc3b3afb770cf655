import Loxis.Lib.Bytes

/-! # Bytecode and its decoder

An instruction is an opcode and operands that each begin with a tag. The decoder has a table of
how many operands an opcode takes. Its position is a number of 32 bits.
-/

namespace Loxis.Bytecode

open LittleEndian

inductive OpCode
  | nop | push | pop | mov | pushR | popR | alloc | hFree | hStore | hLoad | shl | shr | rem
  | bitAnd | bitOr | bitXor | add | sub | mul | div | fAdd | fSub | fMul | fDiv | iToF | fToI
  | fNeg | gLoad | gStore | cmp | jmp | jnz | jz | skip | call | ret | br | jn | nullChk | callInd
  | vCall | iCall | typeOf | syscall | write | print | strLen | toStr | tryPush | tryPop | throw
  | isA | halt
  deriving DecidableEq

def OpCode.byte : OpCode → UInt8
  | .nop => 0x00 | .push => 0x01 | .pop => 0x02 | .mov => 0x03 | .pushR => 0x04 | .popR => 0x05
  | .alloc => 0x06 | .hFree => 0x07 | .hStore => 0x08 | .hLoad => 0x09 | .shl => 0x0A
  | .shr => 0x0B | .rem => 0x0C | .bitAnd => 0x0D | .bitOr => 0x0E | .bitXor => 0x0F
  | .add => 0x10 | .sub => 0x11 | .mul => 0x12 | .div => 0x13 | .fAdd => 0x14 | .fSub => 0x15
  | .fMul => 0x16 | .fDiv => 0x17 | .iToF => 0x18 | .fToI => 0x19 | .fNeg => 0x1A
  | .gLoad => 0x1B | .gStore => 0x1C | .cmp => 0x20 | .jmp => 0x30 | .jnz => 0x31 | .jz => 0x32
  | .skip => 0x33 | .call => 0x34 | .ret => 0x35 | .br => 0x36 | .jn => 0x37 | .nullChk => 0x38
  | .callInd => 0x39 | .vCall => 0x3A | .iCall => 0x3B | .typeOf => 0x3C | .syscall => 0x3D
  | .write => 0x3F | .print => 0x40 | .strLen => 0x41 | .toStr => 0x42 | .tryPush => 0x43
  | .tryPop => 0x44 | .throw => 0x45 | .isA => 0x46 | .halt => 0xFF

def opCodes : List OpCode :=
  [.nop, .push, .pop, .mov, .pushR, .popR, .alloc, .hFree, .hStore, .hLoad, .shl, .shr, .rem,
    .bitAnd, .bitOr, .bitXor, .add, .sub, .mul, .div, .fAdd, .fSub, .fMul, .fDiv, .iToF, .fToI,
    .fNeg, .gLoad, .gStore, .cmp, .jmp, .jnz, .jz, .skip, .call, .ret, .br, .jn, .nullChk,
    .callInd, .vCall, .iCall, .typeOf, .syscall, .write, .print, .strLen, .toStr, .tryPush,
    .tryPop, .throw, .isA, .halt]

/-- The opcode of a byte, if it has one. -/
def OpCode.ofByte (b : UInt8) : Option OpCode := opCodes.find? fun op => op.byte = b

inductive OperandTag
  | reg | imm64 | strIdx | addr | null | float64 | wideReg
  deriving DecidableEq

def OperandTag.byte : OperandTag → UInt8
  | .reg => 0x01 | .imm64 => 0x02 | .strIdx => 0x03 | .addr => 0x04 | .null => 0x05
  | .float64 => 0x06 | .wideReg => 0x07

/-- The tag of a byte, if it has one. -/
def OperandTag.ofByte (b : UInt8) : Option OperandTag :=
  [OperandTag.reg, .imm64, .strIdx, .addr, .null, .float64, .wideReg].find? fun t => t.byte = b

structure DecodedOperand where
  tag : OperandTag
  intVal : BitVec 64
  strIdx : ℕ
  deriving DecidableEq

structure DecodedInstr where
  op : OpCode
  byteOffset : ℕ
  operands : List DecodedOperand
  deriving DecidableEq

section Decode

variable (code : List UInt8)

/-- Operand count, with the position just past the opcode. Two opcodes are not in the table. -/
def operandCountFor (ip : ℕ) : OpCode → Option ℕ
  | .nop | .ret | .tryPop | .halt => some 0
  | .jnz | .jz | .jn | .call | .write | .print | .pushR | .popR | .throw | .hFree | .syscall =>
    some 1
  | .push | .mov | .cmp | .jmp | .gLoad | .gStore | .iToF | .fToI | .fNeg | .nullChk | .typeOf
  | .strLen | .toStr | .tryPush | .callInd => some 2
  | .add | .sub | .mul | .div | .hStore | .hLoad | .alloc | .shl | .shr | .rem | .bitAnd | .bitOr
  | .bitXor | .fAdd | .fSub | .fMul | .fDiv | .isA => some 3
  | .vCall => some 4
  | .iCall => some 5
  | .skip => if code[ip]? = some OperandTag.addr.byte then some 1 else some 0
  | .pop | .br => none

/-- Read bytes one by one, the position wrapping around. -/
def readBytes : ℕ → ℕ → Option (List UInt8)
  | _, 0 => some []
  | ip, n + 1 => (code[ip]?).bind fun b => (readBytes ((ip + 1) % 2 ^ 32) n).map (b :: ·)

/-- Read a number of `n` bytes, if its last byte is inside. -/
def readNumber (ip n : ℕ) : Option ℕ :=
  if code.length ≤ (ip + (n - 1)) % 2 ^ 32 then none else (readBytes code ip n).map ofBytes

/-- Decode what follows a tag: the operand and the position after it. A wide register is shown as a
register. -/
def decodePayload (ip : ℕ) : OperandTag → Option (DecodedOperand × ℕ)
  | .wideReg => (readNumber code ip 2).bind fun v =>
    if 4096 ≤ v then none else some (⟨.reg, BitVec.ofNat 64 v, 0⟩, (ip + 2) % 2 ^ 32)
  | .reg =>
    (readNumber code ip 1).map fun v => (⟨.reg, BitVec.ofNat 64 v, 0⟩, (ip + 1) % 2 ^ 32)
  | .null => some (⟨.null, 0, 0⟩, ip)
  | .float64 =>
    (readNumber code ip 8).map fun v => (⟨.float64, BitVec.ofNat 64 v, 0⟩, (ip + 8) % 2 ^ 32)
  | .imm64 =>
    (readNumber code ip 8).map fun v => (⟨.imm64, BitVec.ofNat 64 v, 0⟩, (ip + 8) % 2 ^ 32)
  | .strIdx => (readNumber code ip 4).map fun v => (⟨.strIdx, 0, v⟩, (ip + 4) % 2 ^ 32)
  | .addr =>
    (readNumber code ip 4).map fun v => (⟨.addr, BitVec.ofNat 64 v, 0⟩, (ip + 4) % 2 ^ 32)

/-- Decode one operand at a position. -/
def decodeOperandAt (ip : ℕ) : Option (DecodedOperand × ℕ) :=
  ((code[ip]?).bind OperandTag.ofByte).bind (decodePayload code ((ip + 1) % 2 ^ 32))

def decodeOperands : ℕ → ℕ → Option (List DecodedOperand × ℕ)
  | ip, 0 => some ([], ip)
  | ip, n + 1 => (decodeOperandAt code ip).bind fun r =>
    (decodeOperands r.2 n).map fun rs => (r.1 :: rs.1, rs.2)

/-- Decode one instruction at a position. -/
def decodeInstrAt (ip : ℕ) : Option (DecodedInstr × ℕ) :=
  (code[ip]?).bind fun b => (OpCode.ofByte b).bind fun op =>
    (operandCountFor code ((ip + 1) % 2 ^ 32) op).bind fun n =>
      (decodeOperands code ((ip + 1) % 2 ^ 32) n).map fun rs => (⟨op, ip, rs.1⟩, rs.2)

/-- The loop of the decoder, under a bound on its turns. -/
def decodeFrom : ℕ → ℕ → Option (List DecodedInstr)
  | 0, _ => none
  | fuel + 1, ip =>
    if code.length ≤ ip then some []
    else (decodeInstrAt code ip).bind fun r => (decodeFrom fuel r.2).map (r.1 :: ·)

/-- Every turn takes a byte at least, unless the position wraps around: then the loop never ends. -/
def decodeBytecode : Option (List DecodedInstr) := decodeFrom code (code.length + 1) 0

end Decode

end Loxis.Bytecode
