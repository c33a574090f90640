import Z80.Proofs.BlockLoops
import Z80.Proofs.Meaning

/-!
# Encodings

Some bytes are an encoding of an instruction if they spell it in front of any others. Then a
machine on a board that finds them at its program counter performs that instruction, wherever in
memory this is and whatever stands behind them.

Main definition:
- `Encodes`: the bytes are an encoding of the instruction.

Main statements: `encodes_plain`, `encodes_ed`, `encodes_cb` and `encodes_index` for the pages,
`Encodes.spells` and `Encodes.step` for a machine.
-/

namespace Z80

/-- The bytes, so many of them opcodes, spell the instruction whatever stands behind them. -/
def Encodes (bytes : List UInt8) (opcodes : Nat) (i : Instruction) : Prop :=
  ∀ byte : Nat → UInt8, (∀ k (h : k < bytes.length), byte k = bytes[k]) →
    spell byte = ⟨some i, bytes.length, opcodes⟩

namespace Decoding

/-- A decoding takes its operands from where they stand. -/
theorem Ends.spelled {d : Decoding} {operands : List UInt8} {i : Instruction}
    (h : d.Ends operands i) {byte : Nat → UInt8} {k : Nat}
    (hbyte : ∀ j (hj : j < operands.length), byte (k + j) = operands[j]) :
    d.spelled byte k = (i, k + operands.length) := by
  induction h generalizing k with
  | done i => rfl
  | @operand next v operands i _ ih =>
    have hfirst : byte k = v := hbyte 0 (Nat.succ_pos _)
    rw [Decoding.spelled, hfirst, ih, List.length_cons, Nat.add_right_comm, Nat.add_assoc]
    intro j hj
    rw [Nat.add_assoc, Nat.add_comm 1]
    exact hbyte (j + 1) (Nat.succ_lt_succ hj)

theorem ends_word (f : UInt16 → Instruction) (nn : UInt16) :
    (word f).Ends [low nn, high nn] (f nn) := by
  have hends : (word f).Ends [low nn, high nn] (f (join (high nn) (low nn))) :=
    .operand (.operand (.done _))
  rwa [join_high_low] at hends

end Decoding

/-! ## The pages -/

section Pages

variable {op : UInt8} {d : Decoding} {operands : List UInt8} {i : Instruction}

theorem encodes_plain (hop : Lead.ofByte op = .plain d) (h : d.Ends operands i) :
    Encodes (op :: operands) 1 i := by
  intro byte hbyte
  have hfirst : byte 0 = op := hbyte 0 (Nat.succ_pos _)
  have hspelled : d.spelled byte 1 = (i, 1 + operands.length) := by
    apply h.spelled
    intro j hj
    rw [Nat.add_comm]
    exact hbyte (j + 1) (Nat.succ_lt_succ hj)
  rw [spell_of_not_index (hfirst ▸ isIndexByte_of_plain hop), spellAt_plain (hfirst ▸ hop),
    Spelled.complete, hspelled, List.length_cons, Nat.add_comm]

/-- What follows two bytes. -/
theorem Decoding.Ends.complete_two {v : UInt8} (h : d.Ends operands i) {byte : Nat → UInt8}
    (hbyte : ∀ k (hk : k < (v :: op :: operands).length), byte k = (v :: op :: operands)[k]) :
    Spelled.complete d byte 2 2 = ⟨some i, (v :: op :: operands).length, 2⟩ := by
  have hspelled : d.spelled byte 2 = (i, 2 + operands.length) := by
    apply h.spelled
    intro j hj
    rw [Nat.add_comm]
    exact hbyte (j + 2) (Nat.add_lt_add_right hj 2)
  rw [Spelled.complete, hspelled, Nat.add_comm]
  rfl

theorem encodes_ed (hop : Page.ed op = some d) (h : d.Ends operands i) :
    Encodes (0xED :: op :: operands) 2 i := by
  intro byte hbyte
  have hfirst : byte 0 = 0xED := hbyte 0 (Nat.succ_pos _)
  have hsecond : byte (0 + 1) = op := hbyte 1 (Nat.succ_lt_succ (Nat.succ_pos _))
  rw [spell_of_not_index (by rw [hfirst]; rfl), spellAt_ed hfirst (hsecond ▸ hop)]
  exact h.complete_two hbyte

/-- Every byte behind CB is an opcode. -/
theorem encodes_cb (op : UInt8) : Encodes [0xCB, op] 2 (Page.cb op) := by
  intro byte hbyte
  have hfirst : byte 0 = 0xCB := hbyte 0 (Nat.succ_pos _)
  have hsecond : byte (0 + 1) = op := hbyte 1 (Nat.succ_lt_succ (Nat.succ_pos _))
  rw [spell_of_not_index (by rw [hfirst]; rfl), spellAt, hfirst, Lead.ofByte_cb, hsecond]
  rfl

theorem encodes_index {x : Index} (hop : Page.index x op = some d) (h : d.Ends operands i) :
    Encodes (x.lead :: op :: operands) 2 i := by
  intro byte hbyte
  have hfirst : byte 0 = x.lead := hbyte 0 (Nat.succ_pos _)
  have hsecond : byte 1 = op := hbyte 1 (Nat.succ_lt_succ (Nat.succ_pos _))
  rw [spell_of_index hfirst (hsecond ▸ isIndexByte_of_index hop), hsecond, hop]
  exact h.complete_two hbyte

end Pages

namespace Encodes

open Exec

variable {ω : Type} [Observer ω] {m : Machine Board ω} {bytes : List UInt8} {opcodes : Nat}
  {i : Instruction} (h : Encodes bytes opcodes i)
include h

/-- A machine finds the instruction whose encoding is at its program counter. -/
theorem spells (hcode : m.bus.Holds m.cpu.regs.pc bytes) : Spells m i bytes.length opcodes :=
  spells_of_spell (h m.ahead fun _ hk => hcode.peek hk)

/-- A step takes in the encoding and performs the instruction. -/
theorem step {t : Machine Board ω} {a : UInt16} (htracks : Tracks t a m)
    (hcode : t.bus.Holds a bytes) :
    ∃ s, Tracks t (a + UInt16.ofNat bytes.length) s ∧
      Exec.step 1 m = (.ok (), (perform i s).2) :=
  htracks.step_one (h.spells (by rwa [htracks.bus, htracks.pc]))

end Encodes

end Z80
