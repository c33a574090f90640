import Mathlib.Logic.Function.Iterate
import Z80.Board
import Z80.Proofs.Coupling

/-!
# Fetching from a board

On a board, reading memory changes nothing and always gives the byte that is
there. So while an instruction is being taken in, the machine is known up to what
its observer has seen: the program counter and R have advanced, the bytes passed
over are remembered, and all else is as it was.

Main definitions:
- `Cpu.advanced`: the registers once so many bytes have been taken in.
- `Board.bytesAt`: the bytes from an address on.
- `Exec.Fetching`: an instruction is being taken in, and has got so far.

Main statements: `fetching_takeFirst`, `Fetching.fetchByte` and
`Fetching.fetchOpcode` take the first and the next byte; `runOne_of_ed` runs an
instruction of the extension page.
-/

namespace Z80

/-- The registers once so many bytes of an instruction have been taken in, so many
of them opcodes or bytes that lead to one; these count in R if the configuration
says so. -/
def Cpu.advanced (c : Cpu) (bytes opcodes : Nat) : Registers :=
  { c.regs with
    pc := c.regs.pc + UInt16.ofNat bytes
    r := if c.config.incrementRefresh then (Registers.refresh^[opcodes] c.regs).r else c.regs.r }

/-- The bytes of so many cells from an address on, past the last address the first
one following. -/
def Board.bytesAt (b : Board) (a : UInt16) (n : Nat) : List UInt8 :=
  (List.range n).map fun i => b.peek (a + UInt16.ofNat i)

namespace Cpu

@[simp] theorem advanced_pc (c : Cpu) (bytes opcodes : Nat) :
    (c.advanced bytes opcodes).pc = c.regs.pc + UInt16.ofNat bytes := rfl

theorem advanced_zero (c : Cpu) : c.advanced 0 0 = c.regs := by
  simp [advanced]

/-- Taking in a byte moves the program counter by one. -/
theorem regs_takeByte {c c₀ : Cpu} {bytes opcodes : Nat} (h : c.regs = c₀.advanced bytes opcodes)
    (v : UInt8) : (c.takeByte v).regs = c₀.advanced (bytes + 1) opcodes := by
  show { c.regs with pc := c.regs.pc + 1 } = _
  rw [h, advanced_pc, UInt16.add_assoc]
  simp only [advanced, UInt16.ofNat_add]
  rfl

theorem countFetch_regs (c : Cpu) :
    c.countFetch.regs = if c.config.incrementRefresh then c.regs.refresh else c.regs := by
  unfold countFetch
  split <;> rfl

/-- Counting an opcode fetch moves R by one place, if it is counted there. -/
theorem regs_countFetch {c c₀ : Cpu} {bytes opcodes : Nat} (h : c.regs = c₀.advanced bytes opcodes)
    (hconfig : c.config = c₀.config) : c.countFetch.regs = c₀.advanced bytes (opcodes + 1) := by
  rw [countFetch_regs, hconfig, h]
  by_cases hrefresh : c₀.config.incrementRefresh = true
  · rw [if_pos hrefresh]
    simp only [advanced, hrefresh, if_true, Function.iterate_succ_apply']
    rfl
  · rw [if_neg hrefresh]
    simp only [advanced, hrefresh]
    rfl

theorem current_countFetch (c : Cpu) : c.countFetch.current = c.current := by
  unfold countFetch
  split <;> rfl

end Cpu

namespace Exec

variable {ω : Type} {m₀ m : Machine Board ω} {bytes opcodes : Nat}

/-- An instruction that began at the machine `m₀` is being taken in: so many bytes
have been, so many of them opcodes, and it has been counted. -/
structure Fetching (m₀ m : Machine Board ω) (bytes opcodes : Nat) : Prop where
  bus : m.bus = m₀.bus
  regs : m.cpu.regs = m₀.cpu.advanced bytes opcodes
  record : m.cpu.SameRecord m₀.cpu.countInstruction
  current : m.cpu.current = ⟨m₀.cpu.regs.pc, m₀.bus.bytesAt m₀.cpu.regs.pc bytes⟩

variable [Observer ω]

namespace Fetching

theorem fetchByte_fst (h : Fetching m₀ m bytes opcodes) :
    (fetchByte m).1 = m₀.bus.peek (m₀.cpu.regs.pc + UInt16.ofNat bytes) := by
  show m.bus.peek m.cpu.regs.pc = _
  rw [h.bus, h.regs, Cpu.advanced_pc]

theorem fetchByte (h : Fetching m₀ m bytes opcodes) :
    Fetching m₀ (fetchByte m).2 (bytes + 1) opcodes where
  bus := h.bus
  regs := Cpu.regs_takeByte h.regs _
  record := (Cpu.SameRecord.takeByte _ _).trans h.record
  current := by
    show Current.mk m.cpu.current.start (m.cpu.current.bytes ++ [(Exec.fetchByte m).1]) = _
    rw [h.current, h.fetchByte_fst, Board.bytesAt, Board.bytesAt, List.range_succ, List.map_append]
    rfl

omit [Observer ω] in
theorem countFetch (h : Fetching m₀ m bytes opcodes) :
    Fetching m₀ (modifyCpu Cpu.countFetch m).2 bytes (opcodes + 1) where
  bus := h.bus
  regs := Cpu.regs_countFetch h.regs h.record.config
  record := (Cpu.SameRecord.countFetch _).trans h.record
  current := (Cpu.current_countFetch _).trans h.current

theorem fetchOpcode_fst (h : Fetching m₀ m bytes opcodes) :
    (fetchOpcode m).1 = m₀.bus.peek (m₀.cpu.regs.pc + UInt16.ofNat bytes) :=
  h.countFetch.fetchByte_fst

theorem fetchOpcode (h : Fetching m₀ m bytes opcodes) :
    Fetching m₀ (fetchOpcode m).2 (bytes + 1) (opcodes + 1) :=
  h.countFetch.fetchByte

/-- Looking ahead shows what is in memory, and leaves the fetching where it is. -/
theorem read_fst (h : Fetching m₀ m bytes opcodes) (a : UInt16) :
    (read a m).1 = m₀.bus.peek a := by
  show m.bus.peek a = _
  rw [h.bus]

theorem read (h : Fetching m₀ m bytes opcodes) (a : UInt16) :
    Fetching m₀ (read a m).2 bytes opcodes :=
  ⟨h.bus, h.regs, h.record, h.current⟩

end Fetching

/-! ## The first byte -/

theorem regs_beginInstruction (c : Cpu) :
    c.beginInstruction.countFetch.regs = c.advanced 0 1 :=
  Cpu.regs_countFetch (c := c.beginInstruction) c.advanced_zero.symm rfl

theorem takeFirst_fst (m : Machine Board ω) : (takeFirst m).1 = m.bus.peek m.cpu.regs.pc := by
  show m.bus.peek m.cpu.beginInstruction.countFetch.regs.pc = _
  rw [regs_beginInstruction, Cpu.advanced_pc]
  exact congrArg m.bus.peek (UInt16.add_zero _)

theorem fetching_takeFirst (m : Machine Board ω) : Fetching m (takeFirst m).2 1 1 where
  bus := rfl
  regs := Cpu.regs_takeByte (regs_beginInstruction m.cpu) (takeFirst m).1
  record := takeFirst_sameRecord m
  current := by
    have hbegin := Cpu.current_countFetch m.cpu.beginInstruction
    show Current.mk m.cpu.beginInstruction.countFetch.current.start
      (m.cpu.beginInstruction.countFetch.current.bytes ++ [(takeFirst m).1]) = _
    rw [hbegin, takeFirst_fst]
    simp [Board.bytesAt, Cpu.beginInstruction]

/-! ## The page of extensions -/

/-- Behind ED the second byte tells the instruction, or that there is none. -/
theorem dispatch_takeFirst_ed {m : Machine Board ω} (hed : m.bus.peek m.cpu.regs.pc = 0xED) :
    dispatch (takeFirst m).1 (takeFirst m).2 =
      completeOr (Page.ed (m.bus.peek (m.cpu.regs.pc + 1))) (pure none)
        (fetchOpcode (takeFirst m).2).2 := by
  have hsecond : (fetchOpcode (takeFirst m).2).1 = m.bus.peek (m.cpu.regs.pc + 1) :=
    (fetching_takeFirst m).fetchOpcode_fst
  rw [takeFirst_fst, hed, dispatch, dispatchWithin_of_ed Lead.ofByte_ed, bind_apply, hsecond]

/-- An instruction behind ED without operand bytes is performed once its two bytes
have been taken in. -/
theorem runOne_of_ed {m : Machine Board ω} {i : Instruction}
    (hed : m.bus.peek m.cpu.regs.pc = 0xED)
    (hop : Page.ed (m.bus.peek (m.cpu.regs.pc + 1)) = some (.done i)) :
    ∃ m', Fetching m m' 2 2 ∧ runOne m = (.ok (), (perform i m').2) := by
  refine ⟨(fetchOpcode (takeFirst m).2).2, (fetching_takeFirst m).fetchOpcode, ?_⟩
  rw [runOne_apply, dispatch_takeFirst_ed hed, hop]
  rfl

/-- A byte without meaning behind ED is reported together with it. -/
theorem runOne_of_ed_invalid {m : Machine Board ω} (hed : m.bus.peek m.cpu.regs.pc = 0xED)
    (hop : Page.ed (m.bus.peek (m.cpu.regs.pc + 1)) = none) :
    (runOne m).1 = .error ⟨m.cpu.regs.pc, m.bus.bytesAt m.cpu.regs.pc 2⟩ := by
  have hcurrent := (fetching_takeFirst m).fetchOpcode.current
  rw [runOne_apply, dispatch_takeFirst_ed hed, hop]
  show Except.error (fetchOpcode (takeFirst m).2).2.cpu.invalidOpcode = _
  rw [Cpu.invalidOpcode, hcurrent]

end Exec

end Z80
