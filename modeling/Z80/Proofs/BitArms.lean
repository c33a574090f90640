import Z80.Proofs.BaseArms

/-!
# Bit operations by their opcodes

The page behind CB as an interpreter goes through it. The upper two bits of the opcode say what is
done to the operand, and the lower three what the operand is; behind an index byte the operand is
a displaced cell, and the code names a register that receives a copy.

Main definitions:
- `Guarded.bitOperation`: the operation of an opcode on a value.
- `Guarded.bitPage`: the page.
- `Guarded.displacedBits`: what stands behind an index byte and CB.

Main statements: `follows_bitPage` and `follows_displacedBits` say that both do what the machine
does, and so that no shift and no operation is looked up in vain.
-/

namespace Z80

/-- Takes in a displacement, and gives the address that it leads to from an index register. -/
def Exec.fetchDisplaced {β ω : Type} [Bus β] [Observer ω] (x : Index) : Exec β ω UInt16 := do
  let d ← fetchByte
  return displace ((← regs).index x) d

namespace Guarded

open Exec

variable {β ω : Type} [Bus β] [Observer ω]

/-- Sets the flags after the operation of an opcode on a value, and gives the result, if there is
one. -/
def bitOperation (op v : UInt8) : Guarded β ω (Option UInt8) := do
  match op >>> 6 with
  | 0 =>
    let shift ← ask .shift (Table.shift ((op >>> 3) &&& 7))
    let o := shift.apply v (← lift regs).f
    lift (setFlags o.flags)
    return some o.value
  | 1 =>
    lift (modifyRegs fun r => { r with f := bitFlags (Opcode.y op) v r.f })
    return none
  | 2 => return some (clearBit (Opcode.y op) v)
  | 3 => return some (setBit (Opcode.y op) v)
  | _ => throw .bits

/-- Executes the opcode behind CB. -/
def bitPage (op : UInt8) : Guarded β ω Unit := do
  let v ← readOperand (op &&& 7)
  if let some w ← bitOperation op v then
    writeOperand (op &&& 7) w

/-- Executes the opcode behind an index byte, CB and a displacement, which lead to the address `a`.
Code 6 names no register. -/
def bitsAt (a : UInt16) (op : UInt8) : Guarded β ω Unit := do
  let v ← lift (read a)
  if let some w ← bitOperation op v then
    lift (write a w)
    if op &&& 7 != 6 then
      writeOperand (op &&& 7) w

/-- Takes in what stands behind an index byte and CB, and executes it. -/
def displacedBits (x : Index) : Guarded β ω Unit := do
  let a ← lift (fetchDisplaced x)
  let op ← lift fetchByte
  bitsAt a op

/-- The bit operation of the fields of an opcode. -/
def bitEffect (x : Fin 4) (n : Fin 8) (v : UInt8) : Exec β ω (Option UInt8) := do
  match x with
  | 0 =>
    let o := (ShiftOp.select n).apply v (← regs).f
    setFlags o.flags
    return some o.value
  | 1 =>
    modifyRegs fun r => { r with f := bitFlags n v r.f }
    return none
  | 2 => return some (clearBit n v)
  | 3 => return some (setBit n v)

omit [Bus β] [Observer ω] in
theorem bitOperation_eq (op v : UInt8) :
    (bitOperation op v : Guarded β ω _) = lift (bitEffect (Opcode.x op) (Opcode.y op) v) := by
  have hx : ∀ u : UInt8, u >>> 6 = UInt8.ofNat (Opcode.x u) := by
    apply byte_forall
    decide +kernel
  rw [bitOperation, hx, Table.shift_eq, Opcode.z_and, Opcode.z_shiftRight]
  match Opcode.x op with
  | 0 | 1 | 2 | 3 => rfl

theorem follows_bitPage (op : UInt8) :
    Follows (bitPage op : Guarded β ω Unit) (perform (Page.cb op)) := by
  intro m
  rw [bitPage, readOperand_eq]
  simp only [bitOperation_eq, writeOperand_eq, Opcode.z_and]
  rw [Page.cb, Page.bitOperation]
  match Opcode.x op, Opcode.z op with
  | 0, 0 | 0, 1 | 0, 2 | 0, 3 | 0, 4 | 0, 5 | 0, 6 | 0, 7 => rfl
  | 1, 0 | 1, 1 | 1, 2 | 1, 3 | 1, 4 | 1, 5 | 1, 6 | 1, 7 => rfl
  | 2, 0 | 2, 1 | 2, 2 | 2, 3 | 2, 4 | 2, 5 | 2, 6 | 2, 7 => rfl
  | 3, 0 | 3, 1 | 3, 2 | 3, 3 | 3, 4 | 3, 5 | 3, 6 | 3, 7 => rfl

theorem run_bitsAt (x : Index) (d op : UInt8) (m : Machine β ω) :
    (bitsAt (m.cpu.regs.address (.displaced x d)) op).run m =
      (.ok (perform (Page.displacedBits x d op) m).1,
        (perform (Page.displacedBits x d op) m).2) := by
  rw [bitsAt]
  simp only [bitOperation_eq, writeOperand_eq, Opcode.and_seven]
  rw [Page.displacedBits, Page.bitOperation]
  match Opcode.x op, Opcode.z op with
  | 0, 0 | 0, 1 | 0, 2 | 0, 3 | 0, 4 | 0, 5 | 0, 6 | 0, 7 => rfl
  | 1, 0 | 1, 1 | 1, 2 | 1, 3 | 1, 4 | 1, 5 | 1, 6 | 1, 7 => rfl
  | 2, 0 | 2, 1 | 2, 2 | 2, 3 | 2, 4 | 2, 5 | 2, 6 | 2, 7 => rfl
  | 3, 0 | 3, 1 | 3, 2 | 3, 3 | 3, 4 | 3, 5 | 3, 6 | 3, 7 => rfl

/-- Taking in a byte leaves the index registers alone. -/
theorem index_fetchByte (x : Index) (m : Machine β ω) :
    (fetchByte m).2.cpu.regs.index x = m.cpu.regs.index x := by
  cases x <;> rfl

theorem follows_displacedBits (x : Index) :
    Follows (displacedBits x : Guarded β ω Unit)
      (execute (.operand fun d => .byte fun sub => Page.displacedBits x d sub)) := by
  intro m
  have haddress : (fetchByte (fetchByte m).2).2.cpu.regs.address (.displaced x (fetchByte m).1) =
      displace ((fetchByte m).2.cpu.regs.index x) (fetchByte m).1 :=
    congrArg (displace · _) (index_fetchByte x _)
  show (bitsAt (displace ((fetchByte m).2.cpu.regs.index x) (fetchByte m).1)
    (fetchByte (fetchByte m).2).1).run (fetchByte (fetchByte m).2).2 = _
  rw [← haddress, run_bitsAt]
  rfl

end Guarded

end Z80
