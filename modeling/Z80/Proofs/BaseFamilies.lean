import Z80.Proofs.Codes

/-!
# Families of the base page

Most opcodes of the base page belong to a family: what they do is told by one field, and to
what by another. For each family this module says all that an instruction leaves behind.

Main definitions:
- `Exec.LeavesByte`: an instruction leaves a byte in the operand of a code.
- `Exec.BaseFamilies`: the families, with what each of them does.

Main statement: `runOne_baseFamilies` finds them in every machine on a board.
-/

namespace Z80

namespace Opcode

/-! ## What the opcodes of a family spell -/

section Quarters

variable {op : UInt8}

theorem ofByte_quarter0 (h : Opcode.x op = 0) : Lead.ofByte op = .plain (Page.quarter0 op) := by
  rw [Lead.ofByte, h]

theorem ofByte_quarter1 (h : Opcode.x op = 1) :
    Lead.ofByte op = .plain (.done (Page.quarter1 op)) := by
  rw [Lead.ofByte, h]

theorem ofByte_quarter2 (h : Opcode.x op = 2) :
    Lead.ofByte op = .plain (.done (Page.quarter2 op)) := by
  rw [Lead.ofByte, h]

theorem ofByte_quarter3 (h : Opcode.x op = 3) : Lead.ofByte op = Page.quarter3 op := by
  rw [Lead.ofByte, h]

end Quarters

namespace HasFields

variable {op : UInt8} {y z : Fin 8}

theorem load (h : HasFields op 1 y z) (hne : op ≠ 0x76) :
    Lead.ofByte op = .plain (.done (.load (Place.select y) (.place (Place.select z)))) := by
  rw [ofByte_quarter1 h.x_eq, Page.quarter1, beq_eq_false_iff_ne.mpr hne, h.y_eq, h.z_eq]
  rfl

theorem alu (h : HasFields op 2 y z) :
    Lead.ofByte op = .plain (.done (.alu (AluOp.select y) (.place (Place.select z)))) := by
  rw [ofByte_quarter2 h.x_eq, Page.quarter2, h.y_eq, h.z_eq]

theorem aluImm (h : HasFields op 3 y 6) :
    Lead.ofByte op = .plain (.byte fun n => .alu (AluOp.select y) (.imm n)) := by
  rw [ofByte_quarter3 h.x_eq, Page.quarter3, h.y_eq, h.z_eq]

theorem inc (h : HasFields op 0 y 4) :
    Lead.ofByte op = .plain (.done (.inc (Place.select y))) := by
  rw [ofByte_quarter0 h.x_eq, Page.quarter0, h.y_eq, h.z_eq]

theorem dec (h : HasFields op 0 y 5) :
    Lead.ofByte op = .plain (.done (.dec (Place.select y))) := by
  rw [ofByte_quarter0 h.x_eq, Page.quarter0, h.y_eq, h.z_eq]

theorem loadImm (h : HasFields op 0 y 6) :
    Lead.ofByte op = .plain (.byte fun n => .load (Place.select y) (.imm n)) := by
  rw [ofByte_quarter0 h.x_eq, Page.quarter0, h.y_eq, h.z_eq]

theorem jumpRelative (h : HasFields op 0 y 0) (hy : 4 ≤ y) :
    Lead.ofByte op = .plain (.byte (.jumpRelative (some (Condition.select (y - 4))))) := by
  rw [ofByte_quarter0 h.x_eq, Page.quarter0, h.y_eq, h.z_eq]
  match y with
  | 4 | 5 | 6 | 7 => rfl

theorem ret (h : HasFields op 3 y 0) :
    Lead.ofByte op = .plain (.done (.ret (some (Condition.select y)))) := by
  rw [ofByte_quarter3 h.x_eq, Page.quarter3, h.y_eq, h.z_eq]

theorem jump (h : HasFields op 3 y 2) :
    Lead.ofByte op = .plain (.word (.jump (some (Condition.select y)))) := by
  rw [ofByte_quarter3 h.x_eq, Page.quarter3, h.y_eq, h.z_eq]

theorem call (h : HasFields op 3 y 4) :
    Lead.ofByte op = .plain (.word (.call (some (Condition.select y)))) := by
  rw [ofByte_quarter3 h.x_eq, Page.quarter3, h.y_eq, h.z_eq]

theorem rst (h : HasFields op 3 y 7) :
    Lead.ofByte op = .plain (.done (.rst (8 * UInt16.ofNat y))) := by
  have htarget : ∀ v : UInt8, (v &&& 0x38).toUInt16 = 8 * UInt16.ofNat (Opcode.y v) := by
    apply byte_forall
    decide +kernel
  rw [ofByte_quarter3 h.x_eq, Page.quarter3, h.z_eq, htarget, h.y_eq]

end HasFields

namespace HasPairFields

variable {op : UInt8} {p : Fin 4}

theorem loadImm (h : HasPairFields op 0 p 0 1) :
    Lead.ofByte op = .plain (.word (.loadImm (Reg16.select p))) := by
  rw [ofByte_quarter0 h.hasFields.x_eq, Page.quarter0, h.hasFields.z_eq, h.p_eq, h.q_eq]
  rfl

theorem incWord (h : HasPairFields op 0 p 0 3) :
    Lead.ofByte op = .plain (.done (.incWord (Reg16.select p))) := by
  rw [ofByte_quarter0 h.hasFields.x_eq, Page.quarter0, h.hasFields.z_eq, h.p_eq, h.q_eq]
  rfl

theorem addWord (h : HasPairFields op 0 p 1 1) :
    Lead.ofByte op = .plain (.done (.addWord .hl (Reg16.select p))) := by
  rw [ofByte_quarter0 h.hasFields.x_eq, Page.quarter0, h.hasFields.z_eq, h.p_eq, h.q_eq]
  rfl

theorem decWord (h : HasPairFields op 0 p 1 3) :
    Lead.ofByte op = .plain (.done (.decWord (Reg16.select p))) := by
  rw [ofByte_quarter0 h.hasFields.x_eq, Page.quarter0, h.hasFields.z_eq, h.p_eq, h.q_eq]
  rfl

theorem pop (h : HasPairFields op 3 p 0 1) :
    Lead.ofByte op = .plain (.done (.pop (Reg16.selectStacked p))) := by
  rw [ofByte_quarter3 h.hasFields.x_eq, Page.quarter3, h.hasFields.z_eq, h.hasFields.y_eq, h.p_eq]
  match p with
  | 0 | 1 | 2 | 3 => rfl

theorem push (h : HasPairFields op 3 p 0 5) :
    Lead.ofByte op = .plain (.done (.push (Reg16.selectStacked p))) := by
  rw [ofByte_quarter3 h.hasFields.x_eq, Page.quarter3, h.hasFields.z_eq, h.hasFields.y_eq, h.p_eq]
  match p with
  | 0 | 1 | 2 | 3 => rfl

end HasPairFields

end Opcode

namespace Registers

variable (r : Registers) (k : Fin 8)

/-- To write a byte operand leaves the flags. -/
theorem setCodedByte_f (v : UInt8) : { r.setCodedByte k v with f := r.f } = r.setCodedByte k v :=
  match k with
  | 0 | 1 | 2 | 3 | 4 | 5 | 6 | 7 => rfl

end Registers

theorem value_incByte (v f : UInt8) : (incByte v f).value = v + 1 := by
  have hsum : ∀ v : UInt8, (⟨(Sum.add v.toBitVec 1 false).value⟩ : UInt8) = v + 1 := by
    apply byte_forall
    decide +kernel
  exact hsum v

theorem value_decByte (v f : UInt8) : (decByte v f).value = v - 1 := by
  have hdifference : ∀ v : UInt8, (⟨(Sum.sub v.toBitVec 1 false).value⟩ : UInt8) = v - 1 := by
    apply byte_forall
    decide +kernel
  exact hdifference v

namespace Machine

variable {ω : Type} (m : Machine Board ω)

/-- The value of a byte operand. -/
def codedByte (k : Fin 8) : UInt8 := m.cpu.regs.codedByte m.bus.peek k

/-- The byte behind the opcode. -/
def operandByte : UInt8 := m.ahead 1

/-- The word behind the opcode, its lower byte first. -/
def operandWord : UInt16 := join (m.ahead 2) (m.ahead 1)

/-- The word on top of the stack. -/
def top : UInt16 := join (m.bus.peek (m.cpu.regs.sp + 1)) (m.bus.peek m.cpu.regs.sp)

end Machine

namespace Exec

variable {ω : Type} [Observer ω]

/-! ## What an instruction leaves behind -/

/-- An instruction, so many bytes long, leaves the byte `v` in the operand of the code `k`, and
these flags. A cell is addressed with HL as it was before. -/
def LeavesByte (m : Machine Board ω) (bytes : Nat) (k : Fin 8) (v f : UInt8) : Prop :=
  Leaves m { (m.cpu.advanced bytes 1).setCodedByte k v with f := f }
    (m.bus.memory.setCoded m.cpu.regs.hl k v)

/-- An instruction, so many bytes long, leaves an outcome in the accumulator and the flags. -/
def LeavesA (m : Machine Board ω) (bytes : Nat) (o : Outcome UInt8) : Prop :=
  Leaves m { m.cpu.advanced bytes 1 with a := o.value, f := o.flags } m.bus.memory

/-- If the condition of the code `k` holds, an instruction leaves these registers and this
memory, and otherwise it only goes past its bytes. -/
def LeavesIf (m : Machine Board ω) (bytes : Nat) (k : Fin 8) (regs : Registers) (memory : Memory) :
    Prop :=
  if codedCondition m.cpu.regs.f k then Leaves m regs memory
  else Leaves m (m.cpu.advanced bytes 1) m.bus.memory

/-- What the families of the base page do, each where its opcode is at the program counter.
Every instruction leaves all else as it was, but for the program counter and, if opcode fetches
are counted, R. -/
structure BaseFamilies (m : Machine Board ω) : Prop where
  /-- LD r,r'. -/
  load : ∀ y z, Opcode.HasFields (m.ahead 0) 1 y z → m.ahead 0 ≠ 0x76 →
    LeavesByte m 1 y (m.codedByte z) m.cpu.regs.f
  /-- ADD, ADC, SUB, SBC, AND, XOR, OR and CP of a byte operand. -/
  alu : ∀ y z, Opcode.HasFields (m.ahead 0) 2 y z →
    LeavesA m 1 ((AluOp.select y).apply m.cpu.regs.a (m.codedByte z) m.cpu.regs.f)
  /-- The same of an immediate byte. -/
  aluImm : ∀ y, Opcode.HasFields (m.ahead 0) 3 y 6 →
    LeavesA m 2 ((AluOp.select y).apply m.cpu.regs.a m.operandByte m.cpu.regs.f)
  /-- INC r. -/
  inc : ∀ y, Opcode.HasFields (m.ahead 0) 0 y 4 →
    LeavesByte m 1 y (m.codedByte y + 1) (incByte (m.codedByte y) m.cpu.regs.f).flags
  /-- DEC r. -/
  dec : ∀ y, Opcode.HasFields (m.ahead 0) 0 y 5 →
    LeavesByte m 1 y (m.codedByte y - 1) (decByte (m.codedByte y) m.cpu.regs.f).flags
  /-- LD r,n. -/
  loadImm : ∀ y, Opcode.HasFields (m.ahead 0) 0 y 6 →
    LeavesByte m 2 y m.operandByte m.cpu.regs.f
  /-- LD rp,nn. -/
  loadPair : ∀ p, Opcode.HasPairFields (m.ahead 0) 0 p 0 1 →
    Leaves m ((m.cpu.advanced 3 1).setCodedPair p m.operandWord) m.bus.memory
  /-- INC rp. -/
  incPair : ∀ p, Opcode.HasPairFields (m.ahead 0) 0 p 0 3 →
    Leaves m ((m.cpu.advanced 1 1).setCodedPair p (m.cpu.regs.codedPair p + 1)) m.bus.memory
  /-- DEC rp. -/
  decPair : ∀ p, Opcode.HasPairFields (m.ahead 0) 0 p 1 3 →
    Leaves m ((m.cpu.advanced 1 1).setCodedPair p (m.cpu.regs.codedPair p - 1)) m.bus.memory
  /-- JR cc,d: the displacement counts from behind both bytes. -/
  jumpRelative : ∀ y, 4 ≤ y → Opcode.HasFields (m.ahead 0) 0 y 0 →
    ∃ target : UInt16,
      (target.toNat : ℤ) = (m.cpu.regs.pc.toNat + 2 + m.operandByte.toInt8.toInt) % 65536 ∧
      LeavesIf m 2 (y - 4) { m.cpu.advanced 2 1 with pc := target } m.bus.memory
  /-- RET cc. -/
  ret : ∀ y, Opcode.HasFields (m.ahead 0) 3 y 0 →
    LeavesIf m 1 y { m.cpu.advanced 1 1 with pc := m.top, sp := m.cpu.regs.sp + 2 } m.bus.memory
  /-- JP cc,nn. -/
  jump : ∀ y, Opcode.HasFields (m.ahead 0) 3 y 2 →
    LeavesIf m 3 y { m.cpu.advanced 3 1 with pc := m.operandWord } m.bus.memory
  /-- CALL cc,nn. -/
  call : ∀ y, Opcode.HasFields (m.ahead 0) 3 y 4 →
    LeavesIf m 3 y { m.cpu.advanced 3 1 with pc := m.operandWord, sp := m.cpu.regs.sp - 2 }
      (m.bus.memory.pushed m.cpu.regs.sp (m.cpu.regs.pc + 3))
  /-- POP rp. -/
  pop : ∀ p, Opcode.HasPairFields (m.ahead 0) 3 p 0 1 →
    Leaves m ({ m.cpu.advanced 1 1 with sp := m.cpu.regs.sp + 2 }.setStackedPair p m.top)
      m.bus.memory
  /-- PUSH rp. -/
  push : ∀ p, Opcode.HasPairFields (m.ahead 0) 3 p 0 5 →
    Leaves m { m.cpu.advanced 1 1 with sp := m.cpu.regs.sp - 2 }
      (m.bus.memory.pushed m.cpu.regs.sp (m.cpu.regs.stackedPair p))
  /-- RST. -/
  rst : ∀ y, Opcode.HasFields (m.ahead 0) 3 y 7 →
    Leaves m { m.cpu.advanced 1 1 with pc := 8 * UInt16.ofNat y, sp := m.cpu.regs.sp - 2 }
      (m.bus.memory.pushed m.cpu.regs.sp (m.cpu.regs.pc + 1))

/-! ## Bytes -/

section Forms

variable {m : Machine Board ω} {bytes : Nat} {y z : Fin 8} {p : Fin 4}

theorem Spells.leavesByte_load {src : Source} (h : Spells m (.load (Place.select y) src) bytes 1) :
    LeavesByte m bytes y (src.value (m.cpu.advanced bytes 1) m.bus.peek) m.cpu.regs.f := by
  apply h.leaves
  intro m' hbus hregs
  obtain ⟨hvalue, hregs', hbus'⟩ := readSource_board src m'
  obtain ⟨hwritten, hcell⟩ := writePlace_select y (readSource src m').1 (readSource src m').2
  refine ⟨hwritten.trans ?_, hcell.trans ?_⟩
  · rw [hvalue, hregs', hregs, hbus]
    exact (Registers.setCodedByte_f _ y _).symm
  · rw [hvalue, hregs', hbus', hregs, hbus]
    rfl

theorem Spells.leavesByte_update {i : Place → Instruction} {f : UInt8 → UInt8 → Outcome UInt8}
    (h : Spells m (i (Place.select y)) bytes 1)
    (hi : ∀ q, (perform (i q) : Exec Board ω Unit) = update q none f) :
    let o := f (m.codedByte y) m.cpu.regs.f
    LeavesByte m bytes y o.value o.flags := by
  apply h.leaves
  intro m' hbus hregs
  have hupdate := update_select y f m'
  rw [hregs, hbus] at hupdate
  rw [hi]
  exact hupdate

theorem Spells.leavesA {op : AluOp} {src : Source} (h : Spells m (.alu op src) bytes 1) :
    LeavesA m bytes
      (op.apply m.cpu.regs.a (src.value (m.cpu.advanced bytes 1) m.bus.peek) m.cpu.regs.f) := by
  apply h.leaves
  intro m' hbus hregs
  obtain ⟨-, -, hbus'⟩ := readSource_board src m'
  refine ⟨(regs_perform_alu op src m').trans ?_, hbus'.trans hbus⟩
  rw [hregs, hbus]
  rfl

/-! ## Words -/

/-- A word register is replaced by what its value gives. -/
theorem Spells.leaves_setPair {i : Reg16 → Instruction} {f : UInt16 → UInt16}
    (h : Spells m (i (Reg16.select p)) bytes 1)
    (hi : ∀ x, (perform (i x) : Exec Board ω Unit) =
      modifyRegs fun r => r.setWord x (f (r.word x))) :
    Leaves m ((m.cpu.advanced bytes 1).setCodedPair p (f (m.cpu.regs.codedPair p)))
      m.bus.memory := by
  apply h.leaves
  intro m' hbus hregs
  rw [hi]
  refine ⟨?_, hbus⟩
  show m'.cpu.regs.setWord (Reg16.select p) (f (m'.cpu.regs.word (Reg16.select p))) = _
  rw [hregs, Registers.setCodedPair_select, Registers.codedPair_select]
  rfl

theorem Spells.leaves_pop (h : Spells m (.pop (Reg16.selectStacked p)) bytes 1) :
    Leaves m ({ m.cpu.advanced bytes 1 with sp := m.cpu.regs.sp + 2 }.setStackedPair p m.top)
      m.bus.memory := by
  apply h.leaves
  intro m' hbus hregs
  refine ⟨?_, hbus⟩
  show { m'.cpu.regs with sp := m'.cpu.regs.sp + 2 }.setWord (Reg16.selectStacked p) m'.top = _
  rw [Registers.setStackedPair_select, Machine.top, hregs, hbus]
  rfl

theorem Spells.leaves_push (h : Spells m (.push (Reg16.selectStacked p)) bytes 1) :
    Leaves m { m.cpu.advanced bytes 1 with sp := m.cpu.regs.sp - 2 }
      (m.bus.memory.pushed m.cpu.regs.sp (m.cpu.regs.stackedPair p)) := by
  apply h.leaves
  intro m' hbus hregs
  constructor
  · show { m'.cpu.regs with sp := m'.cpu.regs.sp - 2 } = _
    rw [hregs]
    rfl
  · let v := m'.cpu.regs.word (Reg16.selectStacked p)
    show { m'.bus with memory := m'.bus.memory.pushed m'.cpu.regs.sp v } = _
    simp only [v]
    rw [Registers.stackedPair_select, hregs, hbus]
    rfl

/-! ## Transfers -/

/-- A subroutine is called. -/
theorem leaves_call (a : UInt16) {m' : Machine Board ω} (hbus : m'.bus = m.bus)
    (hregs : m'.cpu.regs = m.cpu.advanced bytes 1) :
    (call a m').2.cpu.regs = { m.cpu.advanced bytes 1 with pc := a, sp := m.cpu.regs.sp - 2 } ∧
      (call a m').2.bus = { m.bus with
        memory := m.bus.memory.pushed m.cpu.regs.sp (m.cpu.regs.pc + UInt16.ofNat bytes) } := by
  constructor
  · show { m'.cpu.regs with pc := a, sp := m'.cpu.regs.sp - 2 } = _
    rw [hregs]
    rfl
  · show { m'.bus with memory := m'.bus.memory.pushed m'.cpu.regs.sp m'.cpu.regs.pc } = _
    rw [hregs, hbus]
    rfl

/-- An instruction with a condition does what it is for, or nothing. -/
theorem Spells.leavesIf {i : Instruction} {k : Fin 8} {x : Registers → Exec Board ω Unit}
    (h : Spells m i bytes 1)
    (hi : ∀ m', perform i m' =
      (if (Condition.select k).holds m'.cpu.regs.f then x m'.cpu.regs else pure ()) m')
    {regs : Registers} {memory : Memory}
    (hx : ∀ m' : Machine Board ω, m'.bus = m.bus → m'.cpu.regs = m.cpu.advanced bytes 1 →
      (x m'.cpu.regs m').2.cpu.regs = regs ∧
        (x m'.cpu.regs m').2.bus = { m.bus with memory := memory }) :
    LeavesIf m bytes k regs memory := by
  have hf : (m.cpu.advanced bytes 1).f = m.cpu.regs.f := rfl
  unfold LeavesIf
  split
  · next hholds =>
    apply h.leaves
    intro m' hbus hregs
    rw [hi, if_pos (by rw [codedCondition_select, hregs, hf, hholds])]
    exact hx m' hbus hregs
  · next hholds =>
    apply h.leaves
    intro m' hbus hregs
    rw [hi, if_neg (by rw [codedCondition_select, hregs, hf]; exact hholds)]
    exact ⟨hregs, hbus⟩

theorem Spells.leavesIf_jump {k : Fin 8} {nn : UInt16}
    (h : Spells m (.jump (some (Condition.select k)) nn) bytes 1) :
    LeavesIf m bytes k { m.cpu.advanced bytes 1 with pc := nn } m.bus.memory := by
  apply h.leavesIf (x := fun _ => setPC nn) fun _ => rfl
  intro m' hbus hregs
  refine ⟨?_, hbus⟩
  show { m'.cpu.regs with pc := nn } = _
  rw [hregs]

theorem Spells.leavesIf_jumpRelative {k : Fin 8} {d : UInt8}
    (h : Spells m (.jumpRelative (some (Condition.select k)) d) bytes 1) :
    LeavesIf m bytes k
      { m.cpu.advanced bytes 1 with pc := displace (m.cpu.regs.pc + UInt16.ofNat bytes) d }
      m.bus.memory := by
  apply h.leavesIf (x := fun r => setPC (displace r.pc d)) fun _ => rfl
  intro m' hbus hregs
  refine ⟨?_, hbus⟩
  show { m'.cpu.regs with pc := displace m'.cpu.regs.pc d } = _
  rw [hregs]
  rfl

theorem Spells.leavesIf_ret {k : Fin 8} (h : Spells m (.ret (some (Condition.select k))) bytes 1) :
    LeavesIf m bytes k { m.cpu.advanced bytes 1 with pc := m.top, sp := m.cpu.regs.sp + 2 }
      m.bus.memory := by
  apply h.leavesIf (x := fun _ => ret) fun _ => rfl
  intro m' hbus hregs
  refine ⟨?_, hbus⟩
  show { m'.cpu.regs with pc := m'.top, sp := m'.cpu.regs.sp + 2 } = _
  rw [Machine.top, hregs, hbus]
  rfl

theorem Spells.leavesIf_call {k : Fin 8} {nn : UInt16}
    (h : Spells m (.call (some (Condition.select k)) nn) bytes 1) :
    LeavesIf m bytes k { m.cpu.advanced bytes 1 with pc := nn, sp := m.cpu.regs.sp - 2 }
      (m.bus.memory.pushed m.cpu.regs.sp (m.cpu.regs.pc + UInt16.ofNat bytes)) :=
  h.leavesIf (x := fun _ => call nn) (fun _ => rfl) fun _ => leaves_call nn

theorem Spells.leaves_rst {a : UInt16} (h : Spells m (.rst a) bytes 1) :
    Leaves m { m.cpu.advanced bytes 1 with pc := a, sp := m.cpu.regs.sp - 2 }
      (m.bus.memory.pushed m.cpu.regs.sp (m.cpu.regs.pc + UInt16.ofNat bytes)) :=
  h.leaves fun _ => leaves_call a

end Forms

/-- Where a relative jump goes. -/
theorem toNat_jumpRelative (pc : UInt16) (d : UInt8) :
    ((displace (pc + 2) d).toNat : ℤ) = (pc.toNat + 2 + d.toInt8.toInt) % 65536 := by
  have hpc : (pc + 2).toNat = (pc.toNat + 2) % 65536 := UInt16.toNat_add pc 2
  rw [toNat_displace, hpc]
  omega

/-- On a board every opcode of a family does what its fields say, with nothing else changed. -/
theorem runOne_baseFamilies (m : Machine Board ω) : BaseFamilies m where
  load y z h hne := by
    have hleaves := (spells_plain (h.load hne)).leavesByte_load
    rwa [Source.value, codedByte_select] at hleaves
  alu y z h := by
    have hleaves := (spells_plain h.alu).leavesA
    rwa [Source.value, codedByte_select] at hleaves
  aluImm y h := (spells_plain h.aluImm).leavesA
  inc y h := by
    rw [← value_incByte]
    exact (spells_plain h.inc).leavesByte_update fun _ => rfl
  dec y h := by
    rw [← value_decByte]
    exact (spells_plain h.dec).leavesByte_update fun _ => rfl
  loadImm y h := (spells_plain h.loadImm).leavesByte_load
  loadPair p h := (spells_plain h.loadImm).leaves_setPair
    (i := fun x => .loadImm x m.operandWord) (f := fun _ => m.operandWord) fun _ => rfl
  incPair p h := (spells_plain h.incWord).leaves_setPair (f := (· + 1)) fun _ => rfl
  decPair p h := (spells_plain h.decWord).leaves_setPair (f := (· - 1)) fun _ => rfl
  jumpRelative y hy h :=
    ⟨_, toNat_jumpRelative _ _, (spells_plain (h.jumpRelative hy)).leavesIf_jumpRelative⟩
  ret y h := (spells_plain h.ret).leavesIf_ret
  jump y h := (spells_plain h.jump).leavesIf_jump
  call y h := (spells_plain h.call).leavesIf_call
  pop p h := (spells_plain h.pop).leaves_pop
  push p h := (spells_plain h.push).leaves_push
  rst y h := (spells_plain h.rst).leaves_rst

/-- LD H,(HL) takes the cell that HL led to before. -/
theorem runOne_baseFamilies_loadH :
    let memory := (Memory.zero.set 0 0x66).set 0x1234 0x5A
    let m : Machine Board Unit := ⟨{ regs := { h := 0x12, l := 0x34 } }, { memory }, ()⟩
    Opcode.HasFields (m.ahead 0) 1 4 6 ∧ (runOne m).2.cpu.regs.hl = 0x5A34 := by
  intro memory m
  have hop : m.ahead 0 = 0x66 := by
    simp [m, memory, Machine.ahead, Board.peek, Memory.get_set]
  have hfields : Opcode.HasFields (m.ahead 0) 1 4 6 := by
    rw [hop]
    rfl
  have hcell : m.codedByte 6 = 0x5A := by
    exact Memory.get_set_self _ _ _
  have hregs := ((runOne_baseFamilies m).load 4 6 hfields (by rw [hop]; decide)).regs
  rw [hcell] at hregs
  refine ⟨hfields, ?_⟩
  rw [hregs]
  rfl

end Exec

end Z80
