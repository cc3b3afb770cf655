import Mathlib.Logic.Relation
import Loxis.Backend.MIRCompiler

/-! # The machine at calls

Registers, call frames and the instructions of calls. The collector's barriers are left
out here; they change no register.
-/

namespace Loxis.Backend

open Function
open Loxis.Vm (Heap TAG_HEAP)

/-- A call in progress, with the registers of the caller's locals. -/
structure CallFrame where
  returnIp : ℕ
  locals : List (ℕ × Value)

/-- The machine. Newer frames come first. -/
structure Machine where
  regs : ℕ → Value
  frames : List CallFrame
  ip : ℕ
  heap : Heap

namespace Machine

variable (c : Chunk) (m : Machine)

def setReg (r : ℕ) (v : Value) : Machine := { m with regs := update m.regs r v }

def next : Machine := { m with ip := m.ip + 1 }

/-- The last register of the caller's locals. -/
def frameMaximum : ℕ :=
  match c.functions.find? fun f => f.start ≤ m.ip ∧ m.ip < f.stop with
  | some f => f.maxLocalRegister
  | none => 15

/-- The registers that a frame saves. -/
def savedRegs (maximum : ℕ) : List ℕ :=
  (List.range' 16 (maximum + 1 - 16)).filter fun r => ¬ (240 ≤ r ∧ r ≤ 255)

def pushCallFrame (returnIp : ℕ) : Machine :=
  { m with
    frames :=
      ⟨returnIp, (savedRegs (m.frameMaximum c)).map fun r => (r, m.regs r)⟩ :: m.frames }

/-- The registers that a return clears. -/
def scratchRegs : List ℕ := List.range' 1 10 ++ List.range' 240 16

/-- Leave a call: clear the scratch registers and restore the caller's locals. -/
def restoreCallFrame (f : CallFrame) : Machine :=
  { m with
    regs := f.locals.foldl (fun rs p => update rs p.1 p.2)
      (scratchRegs.foldl (fun rs r => update rs r ⟨0, TAG_INT⟩) m.regs) }

/-- Go to an address, if an instruction starts there. -/
def jump (a : ℕ) : Option Machine := if a < c.code.length then some { m with ip := a } else none

/-- Shift `n` arguments up by one register, the last one first. Register numbers are bytes. -/
def shiftArgs : ℕ → (ℕ → Value) → ℕ → Value
  | 0, rs => rs
  | n + 1, rs => shiftArgs n (update rs ((n + 2) % 256) (rs ((n + 1) % 256)))

/-- The object handle in a register. -/
def handle (r : ℕ) : ℕ := (m.regs r).val.toNat % 2 ^ 32

/-- The target of an indirect call, and the machine with the arguments in place. A closure is
passed as the first argument of its function. -/
def indirect (reg nargs : ℕ) : Option (ℕ × Machine) :=
  if (m.regs reg).tag = TAG_HEAP then
    (m.heap.loadCell (m.handle reg) 0).map fun fn =>
      let rs := shiftArgs nargs m.regs
      (fn.1.toNat % 2 ^ 32, { m with regs := update rs 1 (rs reg) })
  else some (m.handle reg, m)

/-- The method in a slot of the table of an object's type. -/
def vmethod (obj slot : ℕ) : Option ℕ :=
  (c.vtables (m.heap.getTypeId (m.handle obj))).methodOffsets[slot]?

/-- The method of an interface in the table of an object's type. -/
def imethod (obj iface method : ℕ) : Option ℕ :=
  ((c.vtables (m.heap.getTypeId (m.handle obj))).itable.find? fun ite =>
    ite.1 = iface ∧ method < ite.2.length).bind fun ite => ite.2[method]?

/-- One instruction; none where the machine halts or panics. Register numbers beyond 4095 do not
decode. -/
def step : Option Machine :=
  match c.code[m.ip]? with
  | none => none
  | some i =>
    if i.regs.all (· < 4096) then
      match i with
      | .push r v => some (m.setReg r v).next
      | .pushAddr r a => some (m.setReg r ⟨BitVec.ofNat 64 a, TAG_INT⟩).next
      | .mov d s => some (m.setReg d (m.regs s)).next
      | .jmp a => m.jump c a
      | .call a => (m.pushCallFrame c (m.ip + 1)).jump c a
      | .callInd r n =>
        (m.indirect r n).bind fun p => (p.2.pushCallFrame c (m.ip + 1)).jump c p.1
      | .vcall o slot _ ret =>
        if ret < c.code.length then
          (m.vmethod c o slot).bind fun a => (m.pushCallFrame c ret).jump c a
        else none
      | .icall o iface method _ ret =>
        if ret < c.code.length then
          (m.imethod c o iface method).bind fun a => (m.pushCallFrame c ret).jump c a
        else none
      | .ret =>
        match m.frames with
        | [] => none
        | f :: fs => some { m.restoreCallFrame f with frames := fs, ip := f.returnIp }
      | _ => none
    else none

/-- Any number of instructions. -/
abbrev Steps : Machine → Machine → Prop := Relation.ReflTransGen fun m m' => step c m = some m'

end Machine

end Loxis.Backend
