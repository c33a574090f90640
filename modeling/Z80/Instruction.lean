import Z80.Accumulator
import Z80.Registers
import Z80.Shift

/-!
# Instructions

What an instruction does, apart from the bytes that spell it. Operands are
resolved: an instruction of an index page names IX or IY and holds its
displacement, and one with an immediate operand holds it.

Main definitions:
- `Address`, `Place`, `Source`: memory and byte operands.
- `Condition`, `Condition.holds`: the eight tests of a flag.
- `Instruction`: everything that can be executed.
-/

namespace Z80

/-- Where in memory an operand lies. -/
inductive Address where
  /-- At the word register `p`. -/
  | indirect (p : Reg16)
  /-- At an index register moved by a signed byte. -/
  | displaced (x : Index) (d : UInt8)
  /-- At a fixed address. -/
  | absolute (nn : UInt16)
  deriving DecidableEq

/-- The address that the registers give an operand. -/
def Registers.address (r : Registers) : Address → UInt16
  | .indirect p => r.word p
  | .displaced x d => displace (r.index x) d
  | .absolute nn => nn

/-- A byte that can be read and written: a register or a cell of memory. -/
inductive Place where
  | reg (r : Reg8)
  | mem (a : Address)
  deriving DecidableEq

/-- A byte that can be read: a place or an immediate value. -/
inductive Source where
  | place (p : Place)
  | imm (n : UInt8)
  deriving DecidableEq

/-- The eight conditions: zero, carry, parity and sign, each clear or set. -/
inductive Condition where
  | nz | z | nc | c | po | pe | p | m
  deriving DecidableEq

/-- Does the condition hold for the flag byte `f`? -/
def Condition.holds (cc : Condition) (f : UInt8) : Bool :=
  match cc with
  | nz => !Flag.z.isSet f
  | z => Flag.z.isSet f
  | nc => !Flag.c.isSet f
  | c => Flag.c.isSet f
  | po => !Flag.p.isSet f
  | pe => Flag.p.isSet f
  | p => !Flag.s.isSet f
  | m => Flag.s.isSet f

/-- The four families of block instructions. -/
inductive BlockKind where
  | load | compare | input | output
  deriving DecidableEq

/-- The way in which a block instruction walks through memory. -/
inductive Direction where
  | up | down
  deriving DecidableEq

/-- The next address in a direction. -/
def Direction.next (d : Direction) (a : UInt16) : UInt16 :=
  match d with
  | up => a + 1
  | down => a - 1

/-- The instructions. A condition that is absent always holds. Shifts and bit
changes of a memory cell can leave a copy of the result in a register. -/
inductive Instruction where
  | nop
  | halt
  /-- LD between byte operands. -/
  | load (dst : Place) (src : Source)
  /-- LD of an immediate word. -/
  | loadImm (dst : Reg16) (nn : UInt16)
  /-- LD of a word from memory. -/
  | loadWord (dst : Reg16) (nn : UInt16)
  /-- LD of a word to memory. -/
  | storeWord (nn : UInt16) (src : Reg16)
  /-- LD SP from a register. -/
  | loadSP (src : Reg16)
  /-- LD A,I and LD A,R. -/
  | loadAFrom (x : Special)
  /-- LD I,A and LD R,A. -/
  | loadFromA (x : Special)
  | push (src : Reg16)
  | pop (dst : Reg16)
  | exchangeAF
  | exchangeBanks
  | exchangeDEHL
  /-- EX of a register with the top of the stack. -/
  | exchangeStack (x : Reg16)
  | alu (op : AluOp) (src : Source)
  | inc (p : Place)
  | dec (p : Place)
  | incWord (x : Reg16)
  | decWord (x : Reg16)
  | addWord (dst src : Reg16)
  | adcWord (src : Reg16)
  | sbcWord (src : Reg16)
  | daa
  | cpl
  | neg
  | ccf
  | scf
  /-- RLCA, RRCA, RLA and RRA. -/
  | rotateA (op : Rotation)
  | shift (op : ShiftOp) (p : Place) (copy : Option Reg8)
  | bit (n : Fin 8) (p : Place)
  | res (n : Fin 8) (p : Place) (copy : Option Reg8)
  | set (n : Fin 8) (p : Place) (copy : Option Reg8)
  | rrd
  | rld
  | jump (cc : Option Condition) (nn : UInt16)
  /-- JP to the address in a register. -/
  | jumpTo (x : Reg16)
  | jumpRelative (cc : Option Condition) (d : UInt8)
  | djnz (d : UInt8)
  | call (cc : Option Condition) (nn : UInt16)
  | ret (cc : Option Condition)
  | retn
  | reti
  | rst (target : UInt16)
  /-- IN A,(n) and OUT (n),A. -/
  | inA (n : UInt8)
  | outA (n : UInt8)
  /-- IN r,(C) and OUT (C),r. -/
  | inC (dst : Reg8)
  | outC (src : Reg8)
  | di
  | ei
  | im (mode : UInt8)
  /-- LDI, CPI, INI, OUTI, their descending forms, and the repeating forms of both. -/
  | block (kind : BlockKind) (dir : Direction) (repeats : Bool)
  deriving DecidableEq

end Z80
