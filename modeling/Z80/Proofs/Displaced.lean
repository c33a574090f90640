import Mathlib.Data.Int.Notation
import Z80.Proofs.Spelling

/-!
# Displaced operands

Behind an index byte the operand at HL becomes the one at the index register moved by a
signed byte. The instruction does to that cell what its base form does to the one at HL, and
H and L stay what they are; behind CB a register may receive a copy of the new byte.

Main definition:
- `Exec.Leaves`: everything that an instruction leaves behind on a board.

Main statements: `runOne_displaced` for the index pages and `runOne_displacedBits` for the
bit operations behind them.
-/

namespace Z80

/-- A displacement is a number with a sign, and addresses are counted modulo 65536. -/
theorem toNat_displace (base : UInt16) (d : UInt8) :
    ((displace base d).toNat : ℤ) = (base.toNat + d.toInt8.toInt) % 65536 := by
  have hd : ∀ v : UInt8, (v.toInt8.toInt16.toUInt16.toNat : ℤ) = v.toInt8.toInt % 65536 := by
    apply byte_forall
    decide +kernel
  have hsum : (displace base d).toNat =
      (base.toNat + d.toInt8.toInt16.toUInt16.toNat) % 65536 := UInt16.toNat_add _ _
  have := hd d
  omega

/-- The registers with the byte `v` in the one that receives a copy of it, if any does. -/
def Registers.receive (r : Registers) (copy : Option Reg8) (v : UInt8) : Registers :=
  match copy with
  | some s => r.setByte s v
  | none => r

namespace Exec

variable {ω : Type} [Observer ω]

/-- The instruction at the program counter succeeds and leaves these registers and this
memory behind. Ports and logs are as before, and one instruction more has been counted. -/
structure Leaves (m : Machine Board ω) (regs : Registers) (memory : Memory) : Prop where
  result : (runOne m).1 = .ok ()
  regs : (runOne m).2.cpu.regs = regs
  bus : (runOne m).2.bus = { m.bus with memory := memory }
  record : (runOne m).2.cpu.SameRecord m.cpu.countInstruction

variable {m : Machine Board ω}

/-- What an instruction leaves behind is what it does once its bytes have been taken in. -/
theorem Spells.leaves {i : Instruction} {bytes opcodes : Nat} (h : Spells m i bytes opcodes)
    {regs : Registers} {memory : Memory}
    (hperform : ∀ m' : Machine Board ω, m'.bus = m.bus →
      m'.cpu.regs = m.cpu.advanced bytes opcodes →
      (perform i m').2.cpu.regs = regs ∧ (perform i m').2.bus = { m.bus with memory := memory }) :
    Leaves m regs memory := by
  obtain ⟨hregs, hbus⟩ := hperform (Exec.fetched m) h.fetched.bus h.fetched.regs
  have hrun := runOne_of_upcoming h.upcoming
  constructor
  · rw [hrun]
  · rw [hrun]
    exact hregs
  · rw [hrun]
    exact hbus
  · exact runOne_sameRecord m

/-- An operand in memory is replaced by what its value gives. -/
theorem update_mem (adr : Address) (copy : Option Reg8) (f : UInt8 → UInt8 → Outcome UInt8)
    (m : Machine Board ω) :
    let a := m.cpu.regs.address adr
    let o := f (m.bus.peek a) m.cpu.regs.f
    (update (.mem adr) copy f m).2.cpu.regs =
        { m.cpu.regs with f := o.flags }.receive copy o.value ∧
      (update (.mem adr) copy f m).2.bus = m.bus.poke a o.value := by
  cases copy with
  | none => exact ⟨rfl, rfl⟩
  | some s => exact ⟨rfl, rfl⟩

/-! ## The displaced forms -/

section Forms

variable {x : Index} {d : UInt8}

theorem Spells.leaves_update {i : Place → Instruction} {f : UInt8 → UInt8 → Outcome UInt8}
    (h : Spells m (i (.mem (.displaced x d))) 3 2)
    (hi : ∀ p, (perform (i p) : Exec Board ω Unit) = update p none f) :
    let a := displace (m.cpu.regs.index x) d
    let o := f (m.bus.peek a) m.cpu.regs.f
    Leaves m { m.cpu.advanced 3 2 with f := o.flags } (m.bus.memory.set a o.value) := by
  apply h.leaves
  intro m' hbus hregs
  obtain ⟨hregs', hbus'⟩ := update_mem (.displaced x d) none f m'
  rw [hregs, hbus] at hregs' hbus'
  rw [hi]
  exact ⟨hregs', hbus'⟩

theorem Spells.leaves_storeImm {n : UInt8}
    (h : Spells m (.load (.mem (.displaced x d)) (.imm n)) 4 2) :
    Leaves m (m.cpu.advanced 4 2) (m.bus.memory.set (displace (m.cpu.regs.index x) d) n) := by
  apply h.leaves
  intro m' hbus hregs
  refine ⟨hregs, ?_⟩
  show m'.bus.poke (displace (m'.cpu.regs.index x) d) n = _
  rw [hregs, hbus]
  rfl

theorem Spells.leaves_store {s : Reg8}
    (h : Spells m (.load (.mem (.displaced x d)) (.place (.reg s))) 3 2) :
    Leaves m (m.cpu.advanced 3 2)
      (m.bus.memory.set (displace (m.cpu.regs.index x) d) (m.cpu.regs.byte s)) := by
  have hbyte : (m.cpu.advanced 3 2).byte s = m.cpu.regs.byte s := by
    cases s <;> rfl
  apply h.leaves
  intro m' hbus hregs
  refine ⟨hregs, ?_⟩
  show m'.bus.poke (displace (m'.cpu.regs.index x) d) (m'.cpu.regs.byte s) = _
  rw [hregs, hbus, hbyte]
  rfl

theorem Spells.leaves_load {s : Reg8}
    (h : Spells m (.load (.reg s) (.place (.mem (.displaced x d)))) 3 2) :
    let v := m.bus.peek (displace (m.cpu.regs.index x) d)
    Leaves m ((m.cpu.advanced 3 2).setByte s v) m.bus.memory := by
  apply h.leaves
  intro m' hbus hregs
  refine ⟨?_, hbus⟩
  show m'.cpu.regs.setByte s (m'.bus.peek (displace (m'.cpu.regs.index x) d)) = _
  rw [hregs, hbus]
  rfl

theorem Spells.leaves_alu {op : AluOp}
    (h : Spells m (.alu op (.place (.mem (.displaced x d)))) 3 2) :
    let v := m.bus.peek (displace (m.cpu.regs.index x) d)
    let o := op.apply m.cpu.regs.a v m.cpu.regs.f
    Leaves m { m.cpu.advanced 3 2 with a := o.value, f := o.flags } m.bus.memory := by
  apply h.leaves
  intro m' hbus hregs
  let o := op.apply m'.cpu.regs.a (m'.bus.peek (displace (m'.cpu.regs.index x) d)) m'.cpu.regs.f
  refine ⟨?_, hbus⟩
  show { m'.cpu.regs with a := o.value, f := o.flags } = _
  simp only [o]
  rw [hregs, hbus]
  rfl

end Forms

/-! ## Their opcodes -/

section Opcodes

variable (x : Index) {k : Fin 8} {s : Reg8} (hs : Reg8.select k = some s)

theorem index_inc : Page.index x 0x34 = some (Page.displaced x .inc) := rfl

theorem index_dec : Page.index x 0x35 = some (Page.displaced x .dec) := rfl

theorem index_storeImm : Page.index x 0x36 =
    some (.operand fun d => .byte fun n => .load (.mem (.displaced x d)) (.imm n)) := rfl

-- code 6 selects no register: with both codes 6 the opcode would be that of HALT
include hs in
theorem index_load : Page.index x (0x46 + 8 * UInt8.ofNat k) =
    some (Page.displaced x fun p => .load (.reg s) (.place p)) := by
  unfold Reg8.select at hs
  split at hs <;> cases hs <;> rfl

include hs in
theorem index_store : Page.index x (0x70 + UInt8.ofNat k) =
    some (Page.displaced x fun p => .load p (.place (.reg s))) := by
  unfold Reg8.select at hs
  split at hs <;> cases hs <;> rfl

theorem index_alu (k : Fin 8) : Page.index x (0x86 + 8 * UInt8.ofNat k) =
    some (Page.displaced x fun p => .alu (AluOp.select k) (.place p)) :=
  match k with
  | 0 | 1 | 2 | 3 | 4 | 5 | 6 | 7 => rfl

end Opcodes

/-- Each displaced form of an index page acts on the cell at the index register moved by the
signed byte behind the opcode, modulo 65536, as its base form acts on the cell at HL. The
registers it names are the plain ones, and nothing else changes but the program counter and,
if opcode fetches are counted, R. -/
theorem runOne_displaced (x : Index) (m : Machine Board ω)
    (hlead : m.bus.peek m.cpu.regs.pc = x.lead) :
    let r := m.cpu.regs
    let op := m.bus.peek (r.pc + 1)
    let d := m.bus.peek (r.pc + 2)
    let n := m.bus.peek (r.pc + 3)
    let a := displace (r.index x) d
    let v := m.bus.peek a
    (a.toNat : ℤ) = ((r.index x).toNat + d.toInt8.toInt) % 65536 ∧
      (op = 0x34 → Leaves m { m.cpu.advanced 3 2 with f := (incByte v r.f).flags }
        (m.bus.memory.set a (incByte v r.f).value)) ∧
      (op = 0x35 → Leaves m { m.cpu.advanced 3 2 with f := (decByte v r.f).flags }
        (m.bus.memory.set a (decByte v r.f).value)) ∧
      (op = 0x36 → Leaves m (m.cpu.advanced 4 2) (m.bus.memory.set a n)) ∧
      (∀ k s, Reg8.select k = some s → op = 0x46 + 8 * UInt8.ofNat k →
        Leaves m ((m.cpu.advanced 3 2).setByte s v) m.bus.memory) ∧
      (∀ k s, Reg8.select k = some s → op = 0x70 + UInt8.ofNat k →
        Leaves m (m.cpu.advanced 3 2) (m.bus.memory.set a (r.byte s))) ∧
      ∀ k : Fin 8, op = 0x86 + 8 * UInt8.ofNat k →
        let o := (AluOp.select k).apply r.a v r.f
        Leaves m { m.cpu.advanced 3 2 with a := o.value, f := o.flags } m.bus.memory := by
  intro r op d n a v
  -- the entry of the page for the opcode says how far the instruction reaches
  have hspells {byte : UInt8} {entry : Decoding} (hop : op = byte)
      (hentry : Page.index x byte = some entry) :
      Spells m (entry.spelled m.ahead 2).1 (entry.spelled m.ahead 2).2 2 :=
    spells_index hlead ((congrArg (Page.index x) hop).trans hentry)
  refine ⟨toNat_displace _ _, ?_, ?_, ?_, ?_, ?_, ?_⟩
  · intro hop
    exact (hspells hop (index_inc x)).leaves_update fun _ => rfl
  · intro hop
    exact (hspells hop (index_dec x)).leaves_update fun _ => rfl
  · intro hop
    exact (hspells hop (index_storeImm x)).leaves_storeImm
  · intro k s hs hop
    exact (hspells hop (index_load x hs)).leaves_load
  · intro k s hs hop
    exact (hspells hop (index_store x hs)).leaves_store
  · intro k hop
    exact (hspells hop (index_alu x k)).leaves_alu

/-- LD H,(IY-1) with IY = 0 takes the last byte of memory, and leaves IY alone. -/
theorem runOne_displaced_loadH :
    let memory := (((Memory.zero.set 0 0xFD).set 1 0x66).set 2 0xFF).set 0xFFFF 0x5A
    let m : Machine Board Unit := ⟨{ regs := {} }, { memory }, ()⟩
    m.bus.peek m.cpu.regs.pc = Index.iy.lead ∧ (runOne m).2.cpu.regs.h = 0x5A ∧
      (runOne m).2.cpu.regs.iy = 0 := by
  intro memory m
  have hlead : m.bus.peek m.cpu.regs.pc = Index.iy.lead := by
    simp [m, memory, Board.peek, Memory.get_set, Index.lead]
  have hop : m.bus.peek (m.cpu.regs.pc + 1) = 0x46 + 8 * UInt8.ofNat 4 := by
    simp [m, memory, Board.peek, Memory.get_set]
  have hd : m.bus.peek (m.cpu.regs.pc + 2) = 0xFF := by
    simp [m, memory, Board.peek, Memory.get_set]
  have ha : displace (m.cpu.regs.index .iy) 0xFF = 0xFFFF := by
    decide +revert
  have hv : m.bus.peek 0xFFFF = 0x5A := by
    simp [m, memory, Board.peek]
  obtain ⟨-, -, -, -, hload, -⟩ := runOne_displaced .iy m hlead
  have hregs := (hload 4 .h rfl hop).regs
  rw [hd, ha, hv] at hregs
  rw [hregs]
  exact ⟨hlead, rfl, rfl⟩

/-! ## Bit operations -/

/-- The opcode with its lowest three bits forced to 6 is the same operation on the cell at
HL. -/
theorem cb_masked (op : UInt8) :
    Page.cb (op &&& 0xF8 ||| 0x06) = Page.bitOperation op (.mem (.indirect .hl)) none := by
  revert op
  apply byte_forall
  decide +kernel

/-- Testing a bit writes nothing. -/
theorem bus_perform_bitTest {op : UInt8} (hx : Opcode.x op = 1) (p : Place) (m : Machine Board ω) :
    (perform (Page.bitOperation op p none) m).2.bus = m.bus := by
  unfold Page.bitOperation
  rw [hx]
  cases p <;> rfl

section Moved

variable {m' : Machine Board ω} {adr adr' : Address} (hbus : m'.bus = m.bus)
  (hf : m'.cpu.regs.f = m.cpu.regs.f)
  (hadr : m'.cpu.regs.address adr' = m.cpu.regs.address adr)
include hbus hf hadr

/-- Replacing a cell does not depend on how its address is found, and the copy is what the
cell holds afterwards. -/
theorem update_moved (copy : Option Reg8) (f : UInt8 → UInt8 → Outcome UInt8) :
    let plain := (update (.mem adr) none f m).2
    let moved := (update (.mem adr') copy f m').2
    moved.cpu.regs = { m'.cpu.regs with f := plain.cpu.regs.f }.receive copy
        (plain.bus.peek (m.cpu.regs.address adr)) ∧
      moved.bus = plain.bus ∧ plain.bus = { m.bus with memory := plain.bus.memory } := by
  intro plain moved
  -- both make the same of the same byte and the same flags
  obtain ⟨hregs, hcell⟩ := update_mem adr none f m
  obtain ⟨hregs', hcell'⟩ := update_mem adr' copy f m'
  rw [hbus, hf, hadr] at hregs' hcell'
  have hflags : plain.cpu.regs.f =
      (f (m.bus.peek (m.cpu.regs.address adr)) m.cpu.regs.f).flags := by
    rw [hregs]
    rfl
  have hvalue : plain.bus.peek (m.cpu.regs.address adr) =
      (f (m.bus.peek (m.cpu.regs.address adr)) m.cpu.regs.f).value := by
    rw [hcell]
    exact Memory.get_set_self _ _ _
  refine ⟨?_, hcell'.trans hcell.symm, ?_⟩
  · rw [hvalue, hflags]
    exact hregs'
  · rw [hcell]
    rfl

/-- The same of the bit operations; one that tests a bit has nothing to copy. -/
theorem perform_bitOperation_moved (op : UInt8) (copy : Option Reg8) :
    let plain := (perform (Page.bitOperation op (.mem adr) none) m).2
    let moved := (perform (Page.bitOperation op (.mem adr') copy) m').2
    moved.cpu.regs = { m'.cpu.regs with f := plain.cpu.regs.f }.receive
        (if Opcode.x op = 1 then none else copy) (plain.bus.peek (m.cpu.regs.address adr)) ∧
      moved.bus = plain.bus ∧ plain.bus = { m.bus with memory := plain.bus.memory } := by
  unfold Page.bitOperation
  split
  · next hx =>
    rw [if_neg (by simp [hx])]
    exact update_moved hbus hf hadr copy _
  · next hx =>
    refine ⟨?_, hbus, rfl⟩
    rw [if_pos hx]
    show { m'.cpu.regs with
      f := bitFlags (Opcode.y op) (m'.bus.peek (m'.cpu.regs.address adr')) m'.cpu.regs.f } = _
    rw [hbus, hf, hadr]
    rfl
  · next hx =>
    rw [if_neg (by simp [hx])]
    exact update_moved hbus hf hadr copy _
  · next hx =>
    rw [if_neg (by simp [hx])]
    exact update_moved hbus hf hadr copy _

end Moved

/-- A bit operation on a displaced cell leaves the same memory and the same flags as the
plain operation would where HL holds the address. A register that the opcode names besides
receives a copy of the byte written, unless the operation only tests a bit, and nothing else
changes but the program counter and, if opcode fetches are counted, R. -/
theorem runOne_displacedBits (x : Index) (m : Machine Board ω)
    (hlead : m.bus.peek m.cpu.regs.pc = x.lead)
    (hcb : m.bus.peek (m.cpu.regs.pc + 1) = 0xCB) :
    let r := m.cpu.regs
    let d := m.bus.peek (r.pc + 2)
    let op := m.bus.peek (r.pc + 3)
    let a := displace (r.index x) d
    let direct : Machine Board ω := { m with cpu := { m.cpu with regs := r.setHL a } }
    let plain := (perform (Page.cb (op &&& 0xF8 ||| 0x06)) direct).2
    let copy := if Opcode.x op = 1 then none else Reg8.select (Opcode.z op)
    (a.toNat : ℤ) = ((r.index x).toNat + d.toInt8.toInt) % 65536 ∧
      Leaves m ({ m.cpu.advanced 4 2 with f := plain.cpu.regs.f }.receive copy (plain.bus.peek a))
        plain.bus.memory ∧
      (Opcode.x op = 1 → plain.bus.memory = m.bus.memory) := by
  intro r d op a direct plain copy
  have hentry : Page.index x (m.bus.peek (m.cpu.regs.pc + 1)) =
      some (.operand fun d => .byte fun sub => Page.displacedBits x d sub) := by
    rw [hcb]
    rfl
  have haddress : direct.cpu.regs.hl = a := join_high_low a
  have hplain : plain = (perform (Page.bitOperation op (.mem (.indirect .hl)) none) direct).2 :=
    congrArg (fun i => (perform i direct).2) (cb_masked op)
  have hspells : Spells m (Page.displacedBits x d op) 4 2 := spells_index hlead hentry
  refine ⟨toNat_displace _ _, ?_, ?_⟩
  · apply hspells.leaves
    intro m' hbus hregs
    have hf : m'.cpu.regs.f = direct.cpu.regs.f := by
      rw [hregs]
      rfl
    have hadr : m'.cpu.regs.address (.displaced x d) = direct.cpu.regs.address (.indirect .hl) := by
      rw [hregs]
      exact haddress.symm
    obtain ⟨hmoved, hcell, hmemory⟩ := perform_bitOperation_moved (m := direct) hbus hf hadr op
      (Reg8.select (Opcode.z op))
    rw [← hplain] at hmoved hcell hmemory
    rw [hregs] at hmoved
    rw [← haddress]
    exact ⟨hmoved, hcell.trans hmemory⟩
  · intro hx
    rw [hplain, bus_perform_bitTest hx]

/-- SET 0,(IY+5) with a copy to H. -/
theorem runOne_displacedBits_setH :
    let memory := (((Memory.zero.set 0 0xFD).set 1 0xCB).set 2 0x05).set 3 0xC4
    let m : Machine Board Unit := ⟨{ regs := { iy := 0x4000 } }, { memory }, ()⟩
    m.bus.peek m.cpu.regs.pc = Index.iy.lead ∧ m.bus.peek (m.cpu.regs.pc + 1) = 0xCB ∧
      (runOne m).2.cpu.regs.h = 1 ∧ (runOne m).2.bus.peek 0x4005 = 1 := by
  intro memory m
  have hlead : m.bus.peek m.cpu.regs.pc = Index.iy.lead := by
    simp [m, memory, Board.peek, Memory.get_set, Index.lead]
  have hcb : m.bus.peek (m.cpu.regs.pc + 1) = 0xCB := by
    simp [m, memory, Board.peek, Memory.get_set]
  have hd : m.bus.peek (m.cpu.regs.pc + 2) = 0x05 := by
    simp [m, memory, Board.peek, Memory.get_set]
  have hop : m.bus.peek (m.cpu.regs.pc + 3) = 0xC4 := by
    simp [m, memory, Board.peek]
  have ha : displace (m.cpu.regs.index .iy) 0x05 = 0x4005 := by
    decide +revert
  have hv : m.bus.peek 0x4005 = 0 := by
    simp [m, memory, Board.peek, Memory.get_set]
  obtain ⟨-, hleaves, -⟩ := runOne_displacedBits .iy m hlead hcb
  rw [hd, hop, ha] at hleaves
  let direct : Machine Board Unit :=
    { m with cpu := { m.cpu with regs := m.cpu.regs.setHL 0x4005 } }
  have hhl : direct.cpu.regs.hl = 0x4005 := join_high_low _
  have hplain : (perform (Page.cb (0xC4 &&& 0xF8 ||| 0x06)) direct).2.bus =
      m.bus.poke 0x4005 1 := by
    obtain ⟨-, hcell⟩ := update_mem (.indirect .hl) none (fun v f => ⟨setBit 0 v, f⟩) direct
    have haddress : direct.cpu.regs.address (.indirect .hl) = 0x4005 := hhl
    have hpeek : direct.bus.peek 0x4005 = 0 := hv
    rw [haddress, hpeek] at hcell
    exact hcell
  have hpeek : (m.bus.poke 0x4005 1).peek 0x4005 = 1 := Memory.get_set_self _ _ _
  rw [hplain, hpeek] at hleaves
  refine ⟨hlead, hcb, ?_, ?_⟩
  · rw [hleaves.regs]
    rfl
  · rw [hleaves.bus]
    exact hpeek

end Exec

end Z80
