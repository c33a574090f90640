import Z80.Opcode

/-!
# The base page

The instructions that begin with their own opcode. Four of the 256 bytes lead to
another page instead.

Main definitions:
- `Page.quarter0` to `Page.quarter3`: the page in the order of its opcodes.
- `Lead`, `Lead.ofByte`: what the first byte of an instruction opens.
-/

namespace Z80

/-- What the first byte of an instruction opens: an instruction of the base page,
or one of the pages of bit operations, extensions, and index forms. -/
inductive Lead where
  | plain (d : Decoding)
  | cb
  | ed
  | index (x : Index)

namespace Page

/-- Bytes 00 to 3F: loads of immediates, counting, short jumps and the
accumulator's own operations. -/
def quarter0 (op : UInt8) : Decoding :=
  let rp := Reg16.select (Opcode.p op)
  let r := Place.select (Opcode.y op)
  match Opcode.z op with
  | 0 =>
    match Opcode.y op with
    | 0 => .done .nop
    | 1 => .done .exchangeAF
    | 2 => .byte .djnz
    | 3 => .byte (.jumpRelative none)
    | 4 => .byte (.jumpRelative (some .nz))
    | 5 => .byte (.jumpRelative (some .z))
    | 6 => .byte (.jumpRelative (some .nc))
    | 7 => .byte (.jumpRelative (some .c))
  | 1 => if Opcode.q op then .done (.addWord .hl rp) else .word (.loadImm rp)
  | 2 =>
    match Opcode.y op with
    | 0 => .done (.load (.mem (.indirect .bc)) (.place (.reg .a)))
    | 1 => .done (.load (.reg .a) (.place (.mem (.indirect .bc))))
    | 2 => .done (.load (.mem (.indirect .de)) (.place (.reg .a)))
    | 3 => .done (.load (.reg .a) (.place (.mem (.indirect .de))))
    | 4 => .word fun nn => .storeWord nn .hl
    | 5 => .word fun nn => .loadWord .hl nn
    | 6 => .word fun nn => .load (.mem (.absolute nn)) (.place (.reg .a))
    | 7 => .word fun nn => .load (.reg .a) (.place (.mem (.absolute nn)))
  | 3 => .done (if Opcode.q op then .decWord rp else .incWord rp)
  | 4 => .done (.inc r)
  | 5 => .done (.dec r)
  | 6 => .byte fun n => .load r (.imm n)
  | 7 =>
    match Opcode.y op with
    | 0 => .done (.rotateA .rlc)
    | 1 => .done (.rotateA .rrc)
    | 2 => .done (.rotateA .rl)
    | 3 => .done (.rotateA .rr)
    | 4 => .done .daa
    | 5 => .done .cpl
    | 6 => .done .scf
    | 7 => .done .ccf

/-- Bytes 40 to 7F: loads between byte operands. The load of memory from memory
is HALT. -/
def quarter1 (op : UInt8) : Instruction :=
  if op == 0x76 then .halt
  else .load (Place.select (Opcode.y op)) (.place (Place.select (Opcode.z op)))

/-- Bytes 80 to BF: operations on the accumulator. -/
def quarter2 (op : UInt8) : Instruction :=
  .alu (AluOp.select (Opcode.y op)) (.place (Place.select (Opcode.z op)))

/-- Bytes C0 to FF: jumps, calls, the stack, ports, and the leads to other pages. -/
def quarter3 (op : UInt8) : Lead :=
  let cc := Condition.select (Opcode.y op)
  let rp := Reg16.selectStacked (Opcode.p op)
  match Opcode.z op with
  | 0 => .plain (.done (.ret (some cc)))
  | 1 =>
    match Opcode.y op with
    | 1 => .plain (.done (.ret none))
    | 3 => .plain (.done .exchangeBanks)
    | 5 => .plain (.done (.jumpTo .hl))
    | 7 => .plain (.done (.loadSP .hl))
    | _ => .plain (.done (.pop rp))
  | 2 => .plain (.word (.jump (some cc)))
  | 3 =>
    match Opcode.y op with
    | 0 => .plain (.word (.jump none))
    | 1 => .cb
    | 2 => .plain (.byte .outA)
    | 3 => .plain (.byte .inA)
    | 4 => .plain (.done (.exchangeStack .hl))
    | 5 => .plain (.done .exchangeDEHL)
    | 6 => .plain (.done .di)
    | 7 => .plain (.done .ei)
  | 4 => .plain (.word (.call (some cc)))
  | 5 =>
    match Opcode.y op with
    | 1 => .plain (.word (.call none))
    | 3 => .index .ix
    | 5 => .ed
    | 7 => .index .iy
    | _ => .plain (.done (.push rp))
  | 6 => .plain (.byte fun n => .alu (AluOp.select (Opcode.y op)) (.imm n))
  | 7 => .plain (.done (.rst (op &&& 0x38).toUInt16))

end Page

/-- What the byte `op` opens as the first byte of an instruction. -/
def Lead.ofByte (op : UInt8) : Lead :=
  match Opcode.x op with
  | 0 => .plain (Page.quarter0 op)
  | 1 => .plain (.done (Page.quarter1 op))
  | 2 => .plain (.done (Page.quarter2 op))
  | 3 => Page.quarter3 op

/-! ## The leads -/

theorem Lead.ofByte_cb : Lead.ofByte 0xCB = .cb := rfl

theorem Lead.ofByte_ed : Lead.ofByte 0xED = .ed := rfl

theorem Lead.ofByte_dd : Lead.ofByte 0xDD = .index .ix := rfl

theorem Lead.ofByte_fd : Lead.ofByte 0xFD = .index .iy := rfl

end Z80
