import Mathlib.Logic.Relation
import Z80.Proofs.Fetching
import Z80.Proofs.Tap

/-!
# Taking in an instruction

Until an instruction is performed, or turns out to be none, all that has happened is
that its bytes were read. This holds on any bus, also on one that answers differently
each time: what has been taken in is then what the bus has answered, and may be found
nowhere in memory.

Main definitions:
- `OnlyRead`: a bus has been read, and not used in any other way.
- `Exec.Taken`: the bytes taken in so far, all of them counted as opcodes.

Main statements: `taken_takeFirst`, `Taken.read` and `Taken.fetchOpcode` for the moves
that lead on, and `OnlyRead.tapped` for what a record shows of them.
-/

namespace Z80

/-- The bus has been read any number of times, and not used in any other way. -/
def OnlyRead {β : Type} [Bus β] : β → β → Prop :=
  Relation.ReflTransGen fun b b' => ∃ a, (Bus.read a b).2 = b'

/-- Does the event tell of a byte read from memory? -/
def Event.isRead : Event → Bool
  | .read _ _ => true
  | _ => false

namespace OnlyRead

variable {β : Type} [Bus β]

theorem refl (b : β) : OnlyRead b b :=
  Relation.ReflTransGen.refl

theorem read {b b' : β} (h : OnlyRead b b') (a : UInt16) : OnlyRead b (Bus.read a b').2 :=
  Relation.ReflTransGen.tail h ⟨a, rfl⟩

/-- Behind the record is a bus that has only been read too. -/
theorem inner {t t' : Tapped β} (h : OnlyRead t t') : OnlyRead t.inner t'.inner := by
  refine h.lift Tapped.inner ?_
  rintro t₁ t₂ ⟨a, rfl⟩
  exact ⟨a, rfl⟩

/-- The record of a bus that has only been read has grown by these reads. -/
theorem tapped {t t' : Tapped β} (h : OnlyRead t t') :
    ∃ reads, t'.record.events.toList = t.record.events.toList ++ reads ∧
      ∀ e ∈ reads, e.isRead = true := by
  induction h with
  | refl => exact ⟨[], (List.append_nil _).symm, fun _ h => absurd h List.not_mem_nil⟩
  | @tail t' t'' _ hread ih =>
    obtain ⟨reads, hreads, hall⟩ := ih
    obtain ⟨a, rfl⟩ := hread
    refine ⟨reads ++ [.read a (Bus.read a t'.inner).1], ?_, ?_⟩
    · rw [← List.append_assoc, ← hreads]
      exact Recorder.events_notify _ _
    · intro e he
      rcases List.mem_append.mp he with hold | hnew
      · exact hall e hold
      · rw [List.mem_singleton.mp hnew, Event.isRead]

end OnlyRead

namespace Exec

variable {β ω : Type} [Bus β] {m₀ m : Machine β ω} {bytes : List UInt8}

/-- From an instruction that began at the machine `m₀` these bytes have been taken in,
each of them an opcode or a lead of one, and it has been counted. -/
structure Taken (m₀ m : Machine β ω) (bytes : List UInt8) : Prop where
  regs : m.cpu.regs = m₀.cpu.advanced bytes.length bytes.length
  record : m.cpu.SameRecord m₀.cpu.countInstruction
  current : m.cpu.current = ⟨m₀.cpu.regs.pc, bytes⟩
  bus : OnlyRead m₀.bus m.bus

namespace Taken

theorem halted (h : Taken m₀ m bytes) : m.cpu.regs.halted = m₀.cpu.regs.halted := by
  rw [h.regs]
  rfl

theorem pc (h : Taken m₀ m bytes) :
    m.cpu.regs.pc = m₀.cpu.regs.pc + UInt16.ofNat bytes.length := by
  rw [h.regs, Cpu.advanced_pc]

theorem invalidOpcode (h : Taken m₀ m bytes) :
    m.cpu.invalidOpcode = ⟨m₀.cpu.regs.pc, bytes⟩ := by
  rw [Cpu.invalidOpcode, h.current]

variable [Observer ω]

/-- Looking ahead takes nothing in. -/
theorem read (h : Taken m₀ m bytes) (a : UInt16) : Taken m₀ (read a m).2 bytes :=
  ⟨h.regs, h.record, h.current, h.bus.read a⟩

theorem fetchOpcode (h : Taken m₀ m bytes) :
    Taken m₀ (fetchOpcode m).2 (bytes ++ [(fetchOpcode m).1]) where
  regs := by
    rw [List.length_append]
    exact Cpu.regs_takeByte (Cpu.regs_countFetch h.regs h.record.config) _
  record :=
    ((Cpu.SameRecord.takeByte _ _).trans (Cpu.SameRecord.countFetch _)).trans h.record
  current := by
    have hcurrent := (Cpu.current_countFetch m.cpu).trans h.current
    show Current.mk m.cpu.countFetch.current.start
      (m.cpu.countFetch.current.bytes ++ [(Exec.fetchOpcode m).1]) = _
    rw [hcurrent]
  bus := h.bus.read _

end Taken

theorem taken_takeFirst [Observer ω] (m : Machine β ω) :
    Taken m (takeFirst m).2 [(takeFirst m).1] where
  regs := Cpu.regs_takeByte (regs_beginInstruction m.cpu) (takeFirst m).1
  record := takeFirst_sameRecord m
  current := by
    have hbegin := Cpu.current_countFetch m.cpu.beginInstruction
    show Current.mk m.cpu.beginInstruction.countFetch.current.start
      (m.cpu.beginInstruction.countFetch.current.bytes ++ [(takeFirst m).1]) = _
    rw [hbegin]
    rfl
  bus := (OnlyRead.refl m.bus).read _

end Exec

end Z80
