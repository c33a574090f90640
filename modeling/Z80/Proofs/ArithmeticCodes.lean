import Z80.Proofs.BaseFamilies
import Z80.Proofs.FlagCodes

/-!
# Arithmetic by code

Which sum or difference an instruction computes is told by its bytes. A byte operand is a register
or the cell at HL by its code, a half of an index register, or a displaced cell, and INC, DEC and
the operations on A have all of these forms.

Main definitions:
- `ByteOperand`: the forms of a byte operand, with the bytes around the opcode, the value and the
  target of each.
- `Registers.codedSum`: the sums and differences of the accumulator by their codes.
- `ArithmeticCode`: the encodings that add or subtract, with what each of them computes.

Main statements: `ArithmeticCode.exists_means` compares the encodings with the pages, and
`runOne_of_arithmeticCode` says what an instruction leaves that has one of them.
-/

namespace Z80

/-! ## Byte operands -/

namespace Registers

variable (r : Registers) (k : Fin 8)

/-- Where a new value of a byte operand is left. -/
def codedTarget : Target :=
  match k with
  | 0 => .byte .b
  | 1 => .byte .c
  | 2 => .byte .d
  | 3 => .byte .e
  | 4 => .byte .h
  | 5 => .byte .l
  | 6 => .cell r.hl
  | 7 => .byte .a

theorem target_select : (Place.select k).target r = r.codedTarget k :=
  match k with
  | 0 | 1 | 2 | 3 | 4 | 5 | 6 | 7 => rfl

end Registers

/-- The forms of a byte operand with this code. Behind an index byte the codes of H, L and the cell
at HL stand for the halves of the index register and for a displaced cell. -/
inductive ByteOperand : Fin 8 → Type
  | coded (k : Fin 8) : ByteOperand k
  | upper (x : Index) : ByteOperand 4
  | lower (x : Index) : ByteOperand 5
  | displaced (x : Index) (d : UInt8) : ByteOperand 6

namespace ByteOperand

variable {k : Fin 8}

/-- The bytes of an instruction on the operand that has this opcode. -/
def bytes (op : UInt8) : ByteOperand k → List UInt8
  | coded _ => [op]
  | upper x | lower x => [x.lead, op]
  | displaced x d => [x.lead, op, d]

/-- The value of the operand. -/
def value (r : Registers) (cell : UInt16 → UInt8) : ByteOperand k → UInt8
  | coded k => r.codedByte cell k
  | upper x => high (r.index x)
  | lower x => low (r.index x)
  | displaced x d => cell (displace (r.index x) d)

/-- Where a new value of the operand is left. -/
def target (r : Registers) : ByteOperand k → Target
  | coded k => r.codedTarget k
  | upper x => .byte (.upper x)
  | lower x => .byte (.lower x)
  | displaced x d => .cell (displace (r.index x) d)

/-- The operand as instructions name it. -/
def place : ByteOperand k → Place
  | coded k => Place.select k
  | upper x => .reg (.upper x)
  | lower x => .reg (.lower x)
  | displaced x d => .mem (.displaced x d)

variable (s : ByteOperand k) (r : Registers) (cell : UInt16 → UInt8)

theorem value_place : s.place.value r cell = s.value r cell := by
  cases s with
  | coded k => exact codedByte_select r cell k
  | _ => rfl

theorem target_place : s.place.target r = s.target r := by
  cases s with
  | coded k => exact r.target_select k
  | _ => rfl

section Families

variable {op : UInt8} {y : Fin 8}

/-- The operations on A are in the third quarter of every page that has them. -/
theorem means_alu (h : Opcode.HasFields op 2 y k) :
    Means (s.bytes op) (.alu (AluOp.select y) (.place s.place)) := by
  have hentry (x : Index) : Page.index x op = Page.indexQuarter2 x op := by
    rw [Page.index, h.x_eq]
  simp only [Page.indexQuarter2, h.y_eq, h.z_eq] at hentry
  cases s with
  | coded k => exact .plain h.alu (.done _)
  | upper x | lower x => exact .index (hentry x) (.done _)
  | displaced x d => exact .index (hentry x) (.operand (.done _))

theorem means_inc (h : Opcode.HasFields op 0 k 4) : Means (s.bytes op) (.inc s.place) := by
  cases s with
  | coded k => exact .plain h.inc (.done _)
  | upper x =>
    obtain rfl : op = 0x24 := UInt8.toNat_inj.mp h
    exact .index rfl (.done _)
  | lower x =>
    obtain rfl : op = 0x2C := UInt8.toNat_inj.mp h
    exact .index rfl (.done _)
  | displaced x d =>
    obtain rfl : op = 0x34 := UInt8.toNat_inj.mp h
    exact .index (Exec.index_inc x) (.operand (.done _))

theorem means_dec (h : Opcode.HasFields op 0 k 5) : Means (s.bytes op) (.dec s.place) := by
  cases s with
  | coded k => exact .plain h.dec (.done _)
  | upper x =>
    obtain rfl : op = 0x25 := UInt8.toNat_inj.mp h
    exact .index rfl (.done _)
  | lower x =>
    obtain rfl : op = 0x2D := UInt8.toNat_inj.mp h
    exact .index rfl (.done _)
  | displaced x d =>
    obtain rfl : op = 0x35 := UInt8.toNat_inj.mp h
    exact .index (Exec.index_dec x) (.operand (.done _))

end Families

end ByteOperand

/-! ## The encodings -/

/-- The sum or difference of the accumulator and a byte, by the code of the operation: ADD, ADC,
SUB, SBC and CP. The other codes are those of logic. -/
def Registers.codedSum (r : Registers) (v : UInt8) : Fin 8 → Option Arithmetic
  | 0 => some (.bytes false r.a v false (.byte .a))
  | 1 => some (.bytes false r.a v (Flag.c.isSet r.f) (.byte .a))
  | 2 => some (.bytes true r.a v false (.byte .a))
  | 3 => some (.bytes true r.a v (Flag.c.isSet r.f) (.byte .a))
  | 7 => some (.bytes true r.a v false .nowhere)
  | _ => none

theorem arithmetic_select (y : Fin 8) (src : Source) (r : Registers) (cell : UInt16 → UInt8) :
    (Instruction.alu (AluOp.select y) src).arithmetic r cell =
      r.codedSum (src.value r cell) y :=
  match y with
  | 0 | 1 | 2 | 3 | 4 | 5 | 6 | 7 => rfl

/-- With these registers and cells, the instruction with these bytes computes the sum or
difference `x`. -/
inductive ArithmeticCode (r : Registers) (cell : UInt16 → UInt8) : List UInt8 → Arithmetic → Prop
  | alu {op : UInt8} {y k : Fin 8} {x : Arithmetic} (s : ByteOperand k)
    (hop : Opcode.HasFields op 2 y k) (hx : r.codedSum (s.value r cell) y = some x) :
    ArithmeticCode r cell (s.bytes op) x
  | aluImm {op : UInt8} {y : Fin 8} {x : Arithmetic} (n : UInt8)
    (hop : Opcode.HasFields op 3 y 6) (hx : r.codedSum n y = some x) :
    ArithmeticCode r cell [op, n] x
  | inc {op : UInt8} {k : Fin 8} (s : ByteOperand k) (hop : Opcode.HasFields op 0 k 4) :
    ArithmeticCode r cell (s.bytes op) (.bytes false (s.value r cell) 1 false (s.target r))
  | dec {op : UInt8} {k : Fin 8} (s : ByteOperand k) (hop : Opcode.HasFields op 0 k 5) :
    ArithmeticCode r cell (s.bytes op) (.bytes true (s.value r cell) 1 false (s.target r))
  | neg : ArithmeticCode r cell [0xED, 0x44] (.bytes true 0 r.a false (.byte .a))
  /-- ADD HL,rp. -/
  | addWord {op : UInt8} {p : Fin 4} (hop : Opcode.HasPairFields op 0 p 1 1) :
    ArithmeticCode r cell [op] (.words false r.hl (r.codedPair p) false (.word .hl))
  /-- ADD IX,rp and ADD IY,rp, where the code of HL stands for the index register. -/
  | addIndex {op : UInt8} {p : Fin 4} (x : Index) (hop : Opcode.HasPairFields op 0 p 1 1) :
    ArithmeticCode r cell [x.lead, op] (.words false (r.index x)
      (if p = 2 then r.index x else r.codedPair p) false (.word (.index x)))
  /-- ADC HL,rp. -/
  | adcWord {op : UInt8} {p : Fin 4} (hop : Opcode.HasPairFields op 1 p 1 2) :
    ArithmeticCode r cell [0xED, op]
      (.words false r.hl (r.codedPair p) (Flag.c.isSet r.f) (.word .hl))
  /-- SBC HL,rp. -/
  | sbcWord {op : UInt8} {p : Fin 4} (hop : Opcode.HasPairFields op 1 p 0 2) :
    ArithmeticCode r cell [0xED, op]
      (.words true r.hl (r.codedPair p) (Flag.c.isSet r.f) (.word .hl))
  /-- An index byte is without effect before an opcode that its page lacks. -/
  | lead {i : Index} {op : UInt8} {bytes : List UInt8} {x : Arithmetic}
    (hop : Page.index i op = none) (h : ArithmeticCode r cell (op :: bytes) x) :
    ArithmeticCode r cell (i.lead :: op :: bytes) x

/-- ADD HL is in the first quarter, at the same places of the index pages. -/
theorem Opcode.HasPairFields.addIndex {op : UInt8} {p : Fin 4} (h : HasPairFields op 0 p 1 1)
    (x : Index) : ∃ src, Page.index x op = some (.done (.addWord (.index x) src)) ∧
      ∀ r : Registers, r.word src = if p = 2 then r.index x else r.codedPair p := by
  match p with
  | 0 =>
    obtain rfl : op = 0x09 := UInt8.toNat_inj.mp h
    exact ⟨.bc, rfl, fun _ => rfl⟩
  | 1 =>
    obtain rfl : op = 0x19 := UInt8.toNat_inj.mp h
    exact ⟨.de, rfl, fun _ => rfl⟩
  | 2 =>
    obtain rfl : op = 0x29 := UInt8.toNat_inj.mp h
    exact ⟨.index x, rfl, fun _ => rfl⟩
  | 3 =>
    obtain rfl : op = 0x39 := UInt8.toNat_inj.mp h
    exact ⟨.sp, rfl, fun _ => rfl⟩

/-- The bytes mean an instruction that computes this. -/
theorem ArithmeticCode.exists_means {r : Registers} {cell : UInt16 → UInt8} {bytes : List UInt8}
    {x : Arithmetic} (h : ArithmeticCode r cell bytes x) :
    ∃ i, Means bytes i ∧ i.arithmetic r cell = some x := by
  induction h with
  | alu s hop hx =>
    refine ⟨_, s.means_alu hop, ?_⟩
    rw [arithmetic_select, Source.value, s.value_place, hx]
  | aluImm n hop hx =>
    refine ⟨_, .plain hop.aluImm (.operand (.done _)), ?_⟩
    rw [arithmetic_select]
    exact hx
  | inc s hop =>
    refine ⟨_, s.means_inc hop, ?_⟩
    rw [← s.value_place, ← s.target_place]
    rfl
  | dec s hop =>
    refine ⟨_, s.means_dec hop, ?_⟩
    rw [← s.value_place, ← s.target_place]
    rfl
  | neg => exact ⟨_, .ed rfl (.done _), rfl⟩
  | addWord hop =>
    refine ⟨_, .plain hop.addWord (.done _), ?_⟩
    rw [← r.codedPair_select]
    rfl
  | addIndex x hop =>
    obtain ⟨src, hentry, hsrc⟩ := hop.addIndex x
    refine ⟨_, .index hentry (.done _), ?_⟩
    rw [← hsrc]
    rfl
  | adcWord hop =>
    refine ⟨_, .ed hop.adcWord (.done _), ?_⟩
    rw [← r.codedPair_select]
    rfl
  | sbcWord hop =>
    refine ⟨_, .ed hop.sbcWord (.done _), ?_⟩
    rw [← r.codedPair_select]
    rfl
  | lead hop _ ih =>
    obtain ⟨i, hmeans, hx⟩ := ih
    exact ⟨i, .lead hop hmeans, hx⟩

/-! ## Whole instructions -/

namespace Exec

variable {β ω : Type} [Bus β] [Observer ω]

/-- On any bus an instruction with one of these encodings leaves the exact result modulo the width
of its operands, the flags under its bytes say what they should of it, and the others are as
before. -/
theorem runOne_of_arithmeticCode {m : Machine β ω} {x : Arithmetic}
    (h : ArithmeticCode m.cpu.regs (fun a => (Bus.read a (fetched m).bus).1)
      (runOne m).2.cpu.current.bytes x) :
    (runOne m).1 = .ok () ∧
      x.target.Receives x.value (fetched m) (runOne m).2 ∧
      ∀ g : Flag, g.isSet (runOne m).2.cpu.regs.f = true ↔
        if g ∈ codedFlags (runOne m).2.cpu.current.bytes then x.Says g
        else g.isSet m.cpu.regs.f = true := by
  obtain ⟨i, hmeans, hx⟩ := h.exists_means
  have hi := upcoming_of_means hmeans
  refine ⟨?_, receives_runOne hi hx, ?_⟩
  · rw [runOne_of_upcoming hi]
  · rw [← hmeans.flags_eq]
    exact isSet_runOne hi hx

end Exec

end Z80
