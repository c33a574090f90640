import Z80.Proofs.Coupling

/-!
# Invariants of an instruction

A property of a machine that every primitive step keeps is kept by everything that is made
of primitive steps. It is the coupling of a machine with itself.

Main definition:
- `Exec.Invariant`: the properties that the primitive steps of an instruction keep.

Main statements: `Invariant.perform` and `Invariant.dispatch` for the two halves of an
instruction, and `Invariant.runOne` for a whole one.
-/

namespace Z80.Exec

variable {β ω : Type} [Bus β] [Observer ω]

/-- The property survives the primitive steps that an instruction is made of. -/
structure Invariant (I : Machine β ω → Prop) : Prop where
  modifyRegs (f : Registers → Registers) : ∀ m, I m → I (modifyRegs f m).2
  read (a : UInt16) : ∀ m, I m → I (read a m).2
  write (a : UInt16) (v : UInt8) : ∀ m, I m → I (write a v m).2
  input (a : UInt16) : ∀ m, I m → I (input a m).2
  output (a : UInt16) (v : UInt8) : ∀ m, I m → I (output a v m).2
  halt : ∀ m : Machine β ω, I m → I (notify (.halt m.cpu.current.start) m).2
  takeByte (v : UInt8) : ∀ m, I m → I (modifyCpu (Cpu.takeByte v) m).2
  countFetch : ∀ m, I m → I (modifyCpu Cpu.countFetch m).2

namespace Invariant

variable {I : Machine β ω → Prop} (h : Invariant I)
include h

theorem coupling : Coupling fun m₁ m₂ : Machine β ω => m₁ = m₂ ∧ I m₁ where
  regs := fun _ _ ⟨heq, hI⟩ => heq ▸ ⟨rfl, rfl, hI⟩
  modifyRegs f := fun _ _ ⟨heq, hI⟩ => heq ▸ ⟨rfl, rfl, h.modifyRegs f _ hI⟩
  read a := fun _ _ ⟨heq, hI⟩ => heq ▸ ⟨rfl, rfl, h.read a _ hI⟩
  write a v := fun _ _ ⟨heq, hI⟩ => heq ▸ ⟨rfl, rfl, h.write a v _ hI⟩
  input a := fun _ _ ⟨heq, hI⟩ => heq ▸ ⟨rfl, rfl, h.input a _ hI⟩
  output a v := fun _ _ ⟨heq, hI⟩ => heq ▸ ⟨rfl, rfl, h.output a v _ hI⟩
  halt := fun _ _ ⟨heq, hI⟩ => heq ▸ ⟨rfl, rfl, h.halt _ hI⟩
  takeByte v := fun _ _ ⟨heq, hI⟩ => heq ▸ ⟨rfl, rfl, h.takeByte v _ hI⟩
  countFetch := fun _ _ ⟨heq, hI⟩ => heq ▸ ⟨rfl, rfl, h.countFetch _ hI⟩

theorem perform (i : Instruction) {m : Machine β ω} (hI : I m) : I (perform i m).2 :=
  (h.coupling.perform i m m ⟨rfl, hI⟩).2.2

theorem dispatch (op : UInt8) {m : Machine β ω} (hI : I m) : I (dispatch op m).2 :=
  (h.coupling.dispatch op m m ⟨rfl, hI⟩).2.2

/-- A whole instruction keeps the property, if its beginning does. -/
theorem runOne {m : Machine β ω} (hI : I (takeFirst m).2) : I (runOne m).2 := by
  have hdispatch := h.dispatch (takeFirst m).1 hI
  rw [runOne_apply]
  generalize Exec.dispatch (takeFirst m).1 (takeFirst m).2 = out at hdispatch
  obtain ⟨i?, m'⟩ := out
  cases i? with
  | some i => exact h.perform i hdispatch
  | none => exact hdispatch

end Invariant

end Z80.Exec
