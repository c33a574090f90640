import Z80.Opcode

/-!
# The page of extensions

Behind the byte ED stand the 16-bit sums with carry, the ports addressed by BC,
interrupt control and the block instructions. Only 58 opcodes are defined; the
others have no meaning at all, and an instruction that runs into one is invalid.

Main definitions:
- `Page.ed`: the instruction of an opcode behind ED, if it has one.
-/

namespace Z80.Page

/-- Opcodes 40 to 7F behind ED. Ports have no form for the missing register
code, and only three codes select an interrupt mode. -/
def edControl (op : UInt8) : Option Decoding :=
  let rp := Reg16.select (Opcode.p op)
  match Opcode.z op with
  | 0 => (Reg8.select (Opcode.y op)).map fun r => .done (.inC r)
  | 1 => (Reg8.select (Opcode.y op)).map fun r => .done (.outC r)
  | 2 => some (.done (if Opcode.q op then .adcWord rp else .sbcWord rp))
  | 3 => some (if Opcode.q op then .word fun nn => .loadWord rp nn
      else .word fun nn => .storeWord nn rp)
  | 4 =>
    match Opcode.y op with
    | 0 => some (.done .neg)
    | _ => none
  | 5 =>
    match Opcode.y op with
    | 0 => some (.done .retn)
    | 1 => some (.done .reti)
    | _ => none
  | 6 =>
    match Opcode.y op with
    | 0 => some (.done (.im 0))
    | 2 => some (.done (.im 1))
    | 3 => some (.done (.im 2))
    | _ => none
  | 7 =>
    match Opcode.y op with
    | 0 => some (.done (.loadFromA .i))
    | 1 => some (.done (.loadFromA .r))
    | 2 => some (.done (.loadAFrom .i))
    | 3 => some (.done (.loadAFrom .r))
    | 4 => some (.done .rrd)
    | 5 => some (.done .rld)
    | _ => none

/-- The family of a block opcode. -/
def blockKind : Fin 8 → Option BlockKind
  | 0 => some .load
  | 1 => some .compare
  | 2 => some .input
  | 3 => some .output
  | _ => none

/-- Opcodes A0 to BF behind ED: bit 3 gives the direction, bit 4 repeats. -/
def edBlock (op : UInt8) : Option Decoding :=
  let dir := if Opcode.q op then .down else .up
  (blockKind (Opcode.z op)).map fun kind => .done (.block kind dir (0xB0 ≤ op))

/-- The instruction of an opcode behind ED, if it has one. -/
def ed (op : UInt8) : Option Decoding :=
  if 0x40 ≤ op && op < 0x80 then edControl op
  else if 0xA0 ≤ op && op < 0xC0 then edBlock op
  else none

end Z80.Page
