import Z80.Opcode

/-!
# The page of bit operations

Behind the byte CB every opcode is defined: shifts, and the test, the clearing
and the setting of one bit, each on all eight operands. Behind an index byte the
same opcodes work on the displaced cell.

Main definitions:
- `Page.cb`: the instruction of an opcode behind CB.
- `Page.displacedBits`: the instruction of an opcode behind an index byte, CB and
  a displacement.
-/

namespace Z80.Page

/-- The bit operation of an opcode on a place, with a copy of the result where
one is asked for. Testing a bit has no result. -/
def bitOperation (op : UInt8) (p : Place) (copy : Option Reg8) : Instruction :=
  match Opcode.x op with
  | 0 => .shift (ShiftOp.select (Opcode.y op)) p copy
  | 1 => .bit (Opcode.y op) p
  | 2 => .res (Opcode.y op) p copy
  | 3 => .set (Opcode.y op) p copy

/-- The instruction of an opcode behind CB. -/
def cb (op : UInt8) : Instruction :=
  bitOperation op (Place.select (Opcode.z op)) none

/-- The instruction of an opcode behind an index byte, CB and the displacement
`d`. The operand is always the displaced cell; the register that the opcode
names, if any, receives a copy of what is written there. -/
def displacedBits (x : Index) (d op : UInt8) : Instruction :=
  bitOperation op (.mem (.displaced x d)) (Reg8.select (Opcode.z op))

end Z80.Page
