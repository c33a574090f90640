import Z80.Proofs.Arithmetic
import Z80.Proofs.Displaced

/-!
# Operands by their codes

An opcode of the base page is a number with the fields `x`, `y` and `z`, and most of them are
codes of an operand: of a byte, of a pair or of a condition. The tables of these codes are
written out here and compared with what the pages select.

Main definitions:
- `Opcode.HasFields`, `Opcode.HasPairFields`: an opcode by its fields.
- `Registers.codedByte`, `setCodedByte`: the byte operand of a code.
- `Registers.codedPair`, `setCodedPair`, `stackedPair`, `setStackedPair`: the word registers.
- `codedCondition`: the condition of a code.

Main statements: `HasFields.x_eq` and its companions take an opcode apart, and `HasFields.inC` and
its companions say what opcodes spell behind ED. `codedByte_select`, `writePlace_select` and
`update_select` say what is read from the operand that a code selects, and what is written to it.
-/

namespace Z80

/-! ## The fields of an opcode -/

namespace Opcode

/-- The opcode consists of the fields `x`, `y` and `z`. -/
def HasFields (op : UInt8) (x : Fin 4) (y z : Fin 8) : Prop :=
  op.toNat = 64 * x + 8 * y + z

/-- The opcode consists of the fields `x`, `2 * p + q` and `z`. -/
def HasPairFields (op : UInt8) (x p : Fin 4) (q : Fin 2) (z : Fin 8) : Prop :=
  op.toNat = 64 * x + 8 * (2 * p + q) + z

variable {op : UInt8} {x p : Fin 4} {q : Fin 2} {y z : Fin 8}

instance : Decidable (HasFields op x y z) :=
  inferInstanceAs (Decidable (_ = _))

namespace HasFields

variable (h : HasFields op x y z)
include h

theorem x_eq : Opcode.x op = x := by
  have : op.toNat = 64 * x + 8 * y + z := h
  apply Fin.ext
  simp only [Opcode.x, Fin.val_ofNat]
  omega

theorem y_eq : Opcode.y op = y := by
  have : op.toNat = 64 * x + 8 * y + z := h
  apply Fin.ext
  simp only [Opcode.y, Fin.val_ofNat]
  omega

theorem z_eq : Opcode.z op = z := by
  have : op.toNat = 64 * x + 8 * y + z := h
  apply Fin.ext
  simp only [Opcode.z, Fin.val_ofNat]
  omega

end HasFields

namespace HasPairFields

variable (h : HasPairFields op x p q z)
include h

theorem hasFields : HasFields op x ⟨2 * p + q, by omega⟩ z :=
  h

theorem p_eq : Opcode.p op = p := by
  have : op.toNat = 64 * x + 8 * (2 * p + q) + z := h
  apply Fin.ext
  simp only [Opcode.p, Fin.val_ofNat]
  omega

theorem q_eq : Opcode.q op = (q == 1) := by
  have : op.toNat = 64 * x + 8 * (2 * p + q) + z := h
  have hq : op.toNat / 8 % 2 = q := by
    omega
  rw [Opcode.q, hq]
  match q with
  | 0 | 1 => rfl

end HasPairFields

/-! ## Opcodes behind ED -/

theorem ed_of_x_one (h : Opcode.x op = 1) : Page.ed op = Page.edControl op := by
  have hquarter : ∀ v, Opcode.x v = 1 → (0x40 ≤ v && v < 0x80) = true := by
    apply byte_forall
    decide +kernel
  rw [Page.ed, if_pos (hquarter op h)]

section Ports

variable {r : Reg8} (hr : Reg8.select y = some r)
include hr

theorem HasFields.inC (h : HasFields op 1 y 0) : Page.ed op = some (.done (.inC r)) := by
  rw [ed_of_x_one h.x_eq, Page.edControl, h.y_eq, h.z_eq, hr]
  rfl

theorem HasFields.outC (h : HasFields op 1 y 1) : Page.ed op = some (.done (.outC r)) := by
  rw [ed_of_x_one h.x_eq, Page.edControl, h.y_eq, h.z_eq, hr]
  rfl

end Ports

namespace HasPairFields

theorem sbcWord (h : HasPairFields op 1 p 0 2) :
    Page.ed op = some (.done (.sbcWord (Reg16.select p))) := by
  rw [ed_of_x_one h.hasFields.x_eq, Page.edControl, h.hasFields.z_eq, h.p_eq, h.q_eq]
  rfl

theorem adcWord (h : HasPairFields op 1 p 1 2) :
    Page.ed op = some (.done (.adcWord (Reg16.select p))) := by
  rw [ed_of_x_one h.hasFields.x_eq, Page.edControl, h.hasFields.z_eq, h.p_eq, h.q_eq]
  rfl

theorem storeWord (h : HasPairFields op 1 p 0 3) :
    Page.ed op = some (.word fun nn => .storeWord nn (Reg16.select p)) := by
  rw [ed_of_x_one h.hasFields.x_eq, Page.edControl, h.hasFields.z_eq, h.p_eq, h.q_eq]
  rfl

theorem loadWord (h : HasPairFields op 1 p 1 3) :
    Page.ed op = some (.word fun nn => .loadWord (Reg16.select p) nn) := by
  rw [ed_of_x_one h.hasFields.x_eq, Page.edControl, h.hasFields.z_eq, h.p_eq, h.q_eq]
  rfl

end HasPairFields

end Opcode

/-! ## The tables -/

namespace Registers

/-- The byte operands: B, C, D, E, H, L, the cell at HL, and A. -/
def codedByte (r : Registers) (cell : UInt16 → UInt8) : Fin 8 → UInt8
  | 0 => r.b
  | 1 => r.c
  | 2 => r.d
  | 3 => r.e
  | 4 => r.h
  | 5 => r.l
  | 6 => cell r.hl
  | 7 => r.a

/-- Writes a byte operand, if it is a register. -/
def setCodedByte (r : Registers) (k : Fin 8) (v : UInt8) : Registers :=
  match k with
  | 0 => { r with b := v }
  | 1 => { r with c := v }
  | 2 => { r with d := v }
  | 3 => { r with e := v }
  | 4 => { r with h := v }
  | 5 => { r with l := v }
  | 6 => r
  | 7 => { r with a := v }

/-- The word registers: BC, DE, HL, SP. -/
def codedPair (r : Registers) : Fin 4 → UInt16
  | 0 => r.bc
  | 1 => r.de
  | 2 => r.hl
  | 3 => r.sp

/-- Writes a word register. -/
def setCodedPair (r : Registers) (p : Fin 4) (v : UInt16) : Registers :=
  match p with
  | 0 => r.setBC v
  | 1 => r.setDE v
  | 2 => r.setHL v
  | 3 => { r with sp := v }

/-- The word registers of PUSH and POP: BC, DE, HL, AF. -/
def stackedPair (r : Registers) : Fin 4 → UInt16
  | 0 => r.bc
  | 1 => r.de
  | 2 => r.hl
  | 3 => r.af

/-- Writes a word register from the stack. -/
def setStackedPair (r : Registers) (p : Fin 4) (v : UInt16) : Registers :=
  match p with
  | 0 => r.setBC v
  | 1 => r.setDE v
  | 2 => r.setHL v
  | 3 => r.setAF v

end Registers

/-- The conditions: NZ, Z, NC, C, PO, PE, P, M. -/
def codedCondition (f : UInt8) : Fin 8 → Bool
  | 0 => !Flag.z.isSet f
  | 1 => Flag.z.isSet f
  | 2 => !Flag.c.isSet f
  | 3 => Flag.c.isSet f
  | 4 => !Flag.p.isSet f
  | 5 => Flag.p.isSet f
  | 6 => !Flag.s.isSet f
  | 7 => Flag.s.isSet f

namespace Memory

/-- Writes a byte operand, if it is the cell at the address `hl`. -/
def setCoded (memory : Memory) (hl : UInt16) (k : Fin 8) (v : UInt8) : Memory :=
  match k with
  | 6 => memory.set hl v
  | _ => memory

/-- The memory with a word on top of a stack that reached down to `sp`. -/
def pushed (memory : Memory) (sp v : UInt16) : Memory :=
  (memory.set (sp - 1) (high v)).set (sp - 2) (low v)

end Memory

/-! ## What the pages select -/

theorem codedByte_select (r : Registers) (cell : UInt16 → UInt8) (k : Fin 8) :
    (Place.select k).value r cell = r.codedByte cell k :=
  match k with
  | 0 | 1 | 2 | 3 | 4 | 5 | 6 | 7 => rfl

theorem codedCondition_select (f : UInt8) (k : Fin 8) :
    (Condition.select k).holds f = codedCondition f k :=
  match k with
  | 0 | 1 | 2 | 3 | 4 | 5 | 6 | 7 => rfl

namespace Registers

theorem codedPair_select (r : Registers) (p : Fin 4) : r.word (Reg16.select p) = r.codedPair p :=
  match p with
  | 0 | 1 | 2 | 3 => rfl

theorem setCodedPair_select (r : Registers) (p : Fin 4) (v : UInt16) :
    r.setWord (Reg16.select p) v = r.setCodedPair p v :=
  match p with
  | 0 | 1 | 2 | 3 => rfl

theorem stackedPair_select (r : Registers) (p : Fin 4) :
    r.word (Reg16.selectStacked p) = r.stackedPair p :=
  match p with
  | 0 | 1 | 2 | 3 => rfl

theorem setStackedPair_select (r : Registers) (p : Fin 4) (v : UInt16) :
    r.setWord (Reg16.selectStacked p) v = r.setStackedPair p v :=
  match p with
  | 0 | 1 | 2 | 3 => rfl

end Registers

namespace Exec

variable {ω : Type} [Observer ω]

/-- On a board a source is read without a trace. -/
theorem readSource_board (src : Source) (m : Machine Board ω) :
    (readSource src m).1 = src.value m.cpu.regs m.bus.peek ∧
      (readSource src m).2.cpu.regs = m.cpu.regs ∧ (readSource src m).2.bus = m.bus := by
  cases src with
  | place q => cases q <;> exact ⟨rfl, rfl, rfl⟩
  | imm n => exact ⟨rfl, rfl, rfl⟩

theorem writePlace_select (k : Fin 8) (v : UInt8) (m : Machine Board ω) :
    (writePlace (Place.select k) v m).2.cpu.regs = m.cpu.regs.setCodedByte k v ∧
      (writePlace (Place.select k) v m).2.bus =
        { m.bus with memory := m.bus.memory.setCoded m.cpu.regs.hl k v } :=
  match k with
  | 0 | 1 | 2 | 3 | 4 | 5 | 6 | 7 => ⟨rfl, rfl⟩

theorem update_select (k : Fin 8) (f : UInt8 → UInt8 → Outcome UInt8) (m : Machine Board ω) :
    let o := f (m.cpu.regs.codedByte m.bus.peek k) m.cpu.regs.f
    (update (Place.select k) none f m).2.cpu.regs =
        { m.cpu.regs.setCodedByte k o.value with f := o.flags } ∧
      (update (Place.select k) none f m).2.bus =
        { m.bus with memory := m.bus.memory.setCoded m.cpu.regs.hl k o.value } :=
  match k with
  | 0 | 1 | 2 | 3 | 4 | 5 | 6 | 7 => ⟨rfl, rfl⟩

end Exec

end Z80
