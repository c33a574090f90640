import Z80.Proofs.Coupling

/-!
# What an execution keeps

A view of the registers, say one flag or one register, that no part of a program changes is
what it was when the program ends. Whatever the bus answers on the way is of no importance
to this.

Main definition:
- `Exec.Keeps`: the view is the same before and after.

Main statements: `Keeps.bind` puts programs together, `Keeps.blockRounds` repeats a round, and
`Keeps.dispatch` says that taking in an instruction keeps what depends neither on the program
counter nor on R.
-/

namespace Z80.Exec

variable {β ω α γ δ : Type}

/-- On every machine, the execution leaves the view of the registers as it was. -/
def Keeps (view : Registers → δ) (x : Exec β ω α) : Prop :=
  ∀ m, view (x m).2.cpu.regs = view m.cpu.regs

namespace Keeps

variable {view : Registers → δ}

theorem pure (a : α) : Keeps view (Pure.pure a : Exec β ω α) :=
  fun _ => rfl

theorem bind {x : Exec β ω α} {f : α → Exec β ω γ} (hx : Keeps view x)
    (hf : ∀ a, Keeps view (f a)) : Keeps view (x >>= f) := by
  intro m
  rw [bind_apply, hf, hx]

theorem ite {c : Prop} [Decidable c] {x y : Exec β ω α} (hx : Keeps view x) (hy : Keeps view y) :
    Keeps view (if c then x else y) := by
  split
  · exact hx
  · exact hy

theorem regs : Keeps view (regs : Exec β ω Registers) :=
  fun _ => rfl

theorem modifyRegs {f : Registers → Registers} (h : ∀ r, view (f r) = view r) :
    Keeps view (modifyRegs f : Exec β ω Unit) :=
  fun m => h m.cpu.regs

variable [Observer ω]

theorem notify (e : Event) : Keeps view (notify e : Exec β ω Unit) :=
  fun _ => rfl

variable [Bus β]

theorem read (a : UInt16) : Keeps view (read a : Exec β ω UInt8) :=
  fun _ => rfl

theorem write (a : UInt16) (v : UInt8) : Keeps view (write a v : Exec β ω Unit) :=
  fun _ => rfl

theorem input (a : UInt16) : Keeps view (input a : Exec β ω UInt8) :=
  fun _ => rfl

theorem output (a : UInt16) (v : UInt8) : Keeps view (output a v : Exec β ω Unit) :=
  fun _ => rfl

theorem readWord (a : UInt16) : Keeps view (readWord a : Exec β ω UInt16) :=
  (read _).bind fun _ => (read _).bind fun _ => .pure _

theorem writeWord (a v : UInt16) : Keeps view (writeWord a v : Exec β ω Unit) :=
  (write _ _).bind fun _ => write _ _

theorem readPlace (p : Place) : Keeps view (readPlace p : Exec β ω UInt8) := by
  cases p with
  | reg x => exact regs.bind fun _ => .pure _
  | mem a => exact regs.bind fun _ => read _

theorem readSource (s : Source) : Keeps view (readSource s : Exec β ω UInt8) := by
  cases s with
  | place p => exact readPlace p
  | imm n => exact .pure n

theorem writePlace (p : Place) (v : UInt8) (h : ∀ x r, view (r.setByte x v) = view r) :
    Keeps view (writePlace p v : Exec β ω Unit) := by
  cases p with
  | reg x => exact modifyRegs (h x)
  | mem a => exact regs.bind fun _ => write _ _

section Stack

variable (hsp : ∀ r v, view { r with sp := v } = view r)
include hsp

theorem push (v : UInt16) : Keeps view (push v : Exec β ω Unit) :=
  regs.bind fun _ => (write _ _).bind fun _ => (write _ _).bind fun _ => modifyRegs (hsp · _)

theorem pop : Keeps view (pop : Exec β ω UInt16) :=
  regs.bind fun _ => (readWord _).bind fun _ => (modifyRegs (hsp · _)).bind fun _ => .pure _

variable (hpc : ∀ r v, view { r with pc := v } = view r)
include hpc

theorem call (a : UInt16) : Keeps view (call a : Exec β ω Unit) :=
  regs.bind fun _ => (push hsp _).bind fun _ => modifyRegs (hpc · _)

theorem ret : Keeps view (ret : Exec β ω Unit) :=
  (pop hsp).bind fun _ => modifyRegs (hpc · _)

end Stack

theorem blockRounds {kind : BlockKind} {dir : Direction}
    (h : Keeps view (blockRound kind dir : Exec β ω Unit)) (n : Nat) :
    Keeps view (blockRounds kind dir n : Exec β ω Unit) := by
  induction n with
  | zero => exact .pure ()
  | succ n ih => exact h.bind fun _ => regs.bind fun _ => .ite ih (.pure ())

theorem block {kind : BlockKind} {dir : Direction}
    (h : Keeps view (blockRound kind dir : Exec β ω Unit)) (repeats : Bool) :
    Keeps view (block kind dir repeats : Exec β ω Unit) :=
  .ite (blockRounds h _) h

/-! ## Taking in an instruction -/

section Fetching

variable (hpc : ∀ r v, view { r with pc := v } = view r)
  (hr : ∀ r v, view { r with r := v } = view r)
include hpc hr

omit hpc [Observer ω] [Bus β] in
theorem countFetch (m : Machine β ω) : view m.cpu.countFetch.regs = view m.cpu.regs := by
  unfold Cpu.countFetch
  split
  · exact hr m.cpu.regs _
  · rfl

/-- One machine in two copies, on which the view is `v`. -/
theorem fetchCoupling (v : δ) :
    FetchCoupling fun m₁ m₂ : Machine β ω => m₁ = m₂ ∧ view m₁.cpu.regs = v where
  regs := fun _ _ ⟨h, hv⟩ => h ▸ ⟨rfl, rfl, hv⟩
  read _ := fun _ _ ⟨h, hv⟩ => h ▸ ⟨rfl, rfl, hv⟩
  takeByte _ := fun m _ ⟨h, hv⟩ => h ▸ ⟨rfl, rfl, (hpc m.cpu.regs _).trans hv⟩
  countFetch := fun m _ ⟨h, hv⟩ => h ▸ ⟨rfl, rfl, (countFetch hr m).trans hv⟩

theorem dispatch (op : UInt8) : Keeps view (dispatch op : Exec β ω (Option Instruction)) :=
  fun m => ((fetchCoupling hpc hr (view m.cpu.regs)).dispatch op m m ⟨rfl, rfl⟩).2.2

theorem takeFirst : Keeps view (takeFirst : Exec β ω UInt8) := by
  intro m
  rw [takeFirst_cpu]
  exact (hpc _ _).trans (countFetch hr { m with cpu := m.cpu.beginInstruction })

end Fetching

end Keeps

end Z80.Exec
