import Z80.Page.CB

/-!
# The index pages

Behind DD and FD stand the forms of the base page that work on an index register
in place of HL. Memory operands become displaced ones, and then H and L mean the
registers themselves; without a memory operand they mean the halves of the index
register.

Main definitions:
- `Page.index`: the instruction of an opcode behind an index byte, if the page
  has one; where it has none, the index byte is without effect.
-/

namespace Z80.Page

/-- The byte registers of a code with the halves of an index register for H and L. -/
def Half.select (x : Index) (n : Fin 8) : Option Reg8 :=
  match Reg8.select n with
  | some .h => some (.upper x)
  | some .l => some (.lower x)
  | r => r

/-- Does the code select H or L? -/
def namesHalf : Fin 8 → Bool
  | 4 => true
  | 5 => true
  | _ => false

/-- An instruction on a displaced cell, whose displacement follows the opcode. -/
def displaced (x : Index) (f : Place → Instruction) : Decoding :=
  .byte fun d => f (.mem (.displaced x d))

/-- The word registers of a code with an index register for HL. -/
def indexPair (x : Index) (n : Fin 4) : Reg16 :=
  match Reg16.select n with
  | .hl => .index x
  | r => r

/-- Opcodes 00 to 3F behind an index byte. -/
def indexQuarter0 (x : Index) (op : UInt8) : Option Decoding :=
  match op with
  | 0x21 => some (.word (.loadImm (.index x)))
  | 0x22 => some (.word fun nn => .storeWord nn (.index x))
  | 0x23 => some (.done (.incWord (.index x)))
  | 0x24 => some (.done (.inc (.reg (.upper x))))
  | 0x25 => some (.done (.dec (.reg (.upper x))))
  | 0x26 => some (.byte fun n => .load (.reg (.upper x)) (.imm n))
  | 0x2A => some (.word fun nn => .loadWord (.index x) nn)
  | 0x2B => some (.done (.decWord (.index x)))
  | 0x2C => some (.done (.inc (.reg (.lower x))))
  | 0x2D => some (.done (.dec (.reg (.lower x))))
  | 0x2E => some (.byte fun n => .load (.reg (.lower x)) (.imm n))
  | 0x34 => some (displaced x .inc)
  | 0x35 => some (displaced x .dec)
  | 0x36 => some (.operand fun d => .byte fun n => .load (.mem (.displaced x d)) (.imm n))
  | _ =>
    match Opcode.z op, Opcode.q op with
    | 1, true => some (.done (.addWord (.index x) (indexPair x (Opcode.p op))))
    | _, _ => none

/-- Opcodes 40 to 7F behind an index byte. -/
def indexQuarter1 (x : Index) (op : UInt8) : Option Decoding :=
  let y := Opcode.y op
  let z := Opcode.z op
  match Reg8.select y, Reg8.select z with
  | none, none => none
  | none, some r => some (displaced x fun p => .load p (.place (.reg r)))
  | some r, none => some (displaced x fun p => .load (.reg r) (.place p))
  | some _, some _ =>
    if namesHalf y || namesHalf z then do
      let dst ← Half.select x y
      let src ← Half.select x z
      return .done (.load (.reg dst) (.place (.reg src)))
    else none

/-- Opcodes 80 to BF behind an index byte. -/
def indexQuarter2 (x : Index) (op : UInt8) : Option Decoding :=
  let alu := fun p => Instruction.alu (AluOp.select (Opcode.y op)) (.place p)
  match Opcode.z op with
  | 4 => some (.done (alu (.reg (.upper x))))
  | 5 => some (.done (alu (.reg (.lower x))))
  | 6 => some (displaced x alu)
  | _ => none

/-- Opcodes C0 to FF behind an index byte. -/
def indexQuarter3 (x : Index) (op : UInt8) : Option Decoding :=
  match op with
  | 0xCB => some (.operand fun d => .byte fun sub => displacedBits x d sub)
  | 0xE1 => some (.done (.pop (.index x)))
  | 0xE3 => some (.done (.exchangeStack (.index x)))
  | 0xE5 => some (.done (.push (.index x)))
  | 0xE9 => some (.done (.jumpTo (.index x)))
  | 0xF9 => some (.done (.loadSP (.index x)))
  | _ => none

/-- The instruction of the opcode `op` behind the byte of the index register `x`,
if the page has one. -/
def index (x : Index) (op : UInt8) : Option Decoding :=
  match Opcode.x op with
  | 0 => indexQuarter0 x op
  | 1 => indexQuarter1 x op
  | 2 => indexQuarter2 x op
  | 3 => indexQuarter3 x op

end Z80.Page
