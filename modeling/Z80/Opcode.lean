import Z80.Instruction

/-!
# The fields of an opcode

An opcode byte is read as three fields, two, three and three bits wide, and the
middle one again as two. Most fields select from a short list of operands.

Main definitions:
- `Opcode.x`, `y`, `z`, `p`, `q`: the fields of a byte.
- `Place.select`, `Reg16.select`, …: what a field selects.
- `Decoding`: an instruction, or the need for another byte.
-/

namespace Z80

namespace Opcode

/-- Bits 7 and 6. -/
def x (op : UInt8) : Fin 4 := Fin.ofNat 4 (op.toNat / 64)

/-- Bits 5 to 3. -/
def y (op : UInt8) : Fin 8 := Fin.ofNat 8 (op.toNat / 8)

/-- Bits 2 to 0. -/
def z (op : UInt8) : Fin 8 := Fin.ofNat 8 op.toNat

/-- Bits 5 and 4. -/
def p (op : UInt8) : Fin 4 := Fin.ofNat 4 (op.toNat / 16)

/-- Bit 3. -/
def q (op : UInt8) : Bool := op.toNat / 8 % 2 == 1

end Opcode

/-! ## Selections -/

/-- The byte registers in the order of their codes; code 6 stands for memory. -/
def Reg8.select : Fin 8 → Option Reg8
  | 0 => some .b
  | 1 => some .c
  | 2 => some .d
  | 3 => some .e
  | 4 => some .h
  | 5 => some .l
  | 6 => none
  | 7 => some .a

/-- The byte operand of a code: a register, or the cell at HL. -/
def Place.select (n : Fin 8) : Place :=
  match Reg8.select n with
  | some r => .reg r
  | none => .mem (.indirect .hl)

/-- The word registers in the order of their codes. -/
def Reg16.select : Fin 4 → Reg16
  | 0 => .bc
  | 1 => .de
  | 2 => .hl
  | 3 => .sp

/-- The word registers of PUSH and POP in the order of their codes. -/
def Reg16.selectStacked : Fin 4 → Reg16
  | 0 => .bc
  | 1 => .de
  | 2 => .hl
  | 3 => .af

/-- The conditions in the order of their codes. -/
def Condition.select : Fin 8 → Condition
  | 0 => .nz
  | 1 => .z
  | 2 => .nc
  | 3 => .c
  | 4 => .po
  | 5 => .pe
  | 6 => .p
  | 7 => .m

/-- The accumulator operations in the order of their codes. -/
def AluOp.select : Fin 8 → AluOp
  | 0 => .add
  | 1 => .adc
  | 2 => .sub
  | 3 => .sbc
  | 4 => .and
  | 5 => .xor
  | 6 => .or
  | 7 => .cp

/-- The shifts in the order of their codes. -/
def ShiftOp.select : Fin 8 → ShiftOp
  | 0 => .rotate .rlc
  | 1 => .rotate .rrc
  | 2 => .rotate .rl
  | 3 => .rotate .rr
  | 4 => .sla
  | 5 => .sra
  | 6 => .sll
  | 7 => .srl

/-! ## Operand bytes -/

/-- What is known of an instruction after some of its bytes: all of it, or how
the next byte continues it. -/
inductive Decoding where
  | done (i : Instruction)
  | operand (next : UInt8 → Decoding)

namespace Decoding

/-- An instruction that ends with one byte of operand. -/
def byte (f : UInt8 → Instruction) : Decoding :=
  .operand fun n => .done (f n)

/-- An instruction that ends with a word of operand, its lower byte first. -/
def word (f : UInt16 → Instruction) : Decoding :=
  .operand fun lo => .operand fun hi => .done (f (join hi lo))

end Decoding

end Z80
