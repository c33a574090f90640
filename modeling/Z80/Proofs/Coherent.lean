import Z80.Proofs.Pages
import Z80.Proofs.Parts

/-!
# Between two requests

Whatever a host asks of a new machine, some registers stay in step: the two interrupt enables
agree, the interrupt mode is one of three, and a machine has halted or failed, not both. Each
instruction keeps the first two, since few instructions touch them at all; the last is part
of how a fault is recorded.

Main definitions:
- `Registers.Settled`: the enables agree, and the mode exists.
- `Machine.Coherent`: what holds of a machine between two requests.

Main statements: `settled_perform` for one instruction, `regs_session` from one instruction
to a session, and `session_coherent` for a new machine after any requests.
-/

namespace Z80

/-- Both interrupt enables agree, and the interrupt mode is one of the three. -/
structure Registers.Settled (r : Registers) : Prop where
  enables : r.iff1 = r.iff2
  mode : r.im ∈ ([0, 1, 2] : List UInt8)

theorem Registers.Settled.of_view {r r' : Registers} (h : r.Settled)
    (henables : Part.enables.view r' = Part.enables.view r)
    (hmode : Part.mode.view r' = Part.mode.view r) : r'.Settled where
  enables := by
    have hfirst : r'.iff1 = r.iff1 := (congrArg Registers.iff1 henables :)
    have hsecond : r'.iff2 = r.iff2 := (congrArg Registers.iff2 henables :)
    rw [hfirst, hsecond, h.enables]
  mode := by
    have him : r'.im = r.im := (congrArg Registers.im hmode :)
    rw [him]
    exact h.mode

/-- What holds of a machine between two requests. -/
structure Machine.Coherent {β ω : Type} (m : Machine β ω) : Prop where
  enables : m.cpu.regs.iff1 = m.cpu.regs.iff2
  mode : m.cpu.regs.im ∈ ([0, 1, 2] : List UInt8)
  /-- It has not both halted and failed. -/
  exclusive : ¬(m.cpu.regs.halted = true ∧ m.cpu.fault.isSome = true)
  /-- If it has failed, it is right behind the bytes that it reports, and these are an opcode
  that is not defined behind ED, with index bytes in front of both or without. -/
  fault : ∀ e, m.cpu.fault = some e →
    m.cpu.regs.pc = e.pc + UInt16.ofNat e.opcode.length ∧
      ∃ leads u, (∀ v ∈ leads, v = 0xDD ∨ v = 0xFD) ∧ u ∉ Page.extensions ∧
        e.opcode = leads ++ [0xED, u]

namespace Exec

variable {β ω : Type} [Bus β] [Observer ω]

/-! ## One instruction -/

/-- Of the instructions that have an opcode, each keeps the registers settled. -/
theorem settled_perform {i : Instruction} (hi : i.spellable = true) {m : Machine β ω}
    (h : m.cpu.regs.Settled) : (perform i m).2.cpu.regs.Settled := by
  have henables : Part.enables.isOperand = false := rfl
  have hmode : Part.mode.isOperand = false := rfl
  have hspecial : ∀ x : Special, .enables ≠ x.part := Special.part_ne (by decide) (by decide)
  have hspecial' : ∀ x : Special, .mode ≠ x.part := Special.part_ne (by decide) (by decide)
  cases i with
  | di | ei => exact ⟨rfl, h.mode⟩
  | im mode => exact ⟨h.enables, List.contains_iff_mem.mp hi⟩
  | retn =>
    -- the first enable is copied from the second, and the return touches neither
    let copied := (modifyRegs (fun r => { r with iff1 := r.iff2 }) m).2
    have hcopied : copied.cpu.regs.Settled := ⟨rfl, h.mode⟩
    exact hcopied.of_view (keeps_part_ret (by decide) copied) (keeps_part_ret (by decide) copied)
  | _ =>
    apply h.of_view
    · apply keeps_part_perform
      simp [Instruction.parts, Part.notMem_byte henables, Part.notMem_copy henables,
        Part.notMem_word henables, Part.notMem_place henables, hspecial]
    · apply keeps_part_perform
      simp [Instruction.parts, Part.notMem_byte hmode, Part.notMem_copy hmode,
        Part.notMem_word hmode, Part.notMem_place hmode, hspecial']

theorem settled_runOne {m : Machine β ω} (h : m.cpu.regs.Settled) :
    (runOne m).2.cpu.regs.Settled := by
  have hfetched : (fetched m).cpu.regs.Settled := by
    rw [regs_fetched]
    exact ⟨h.enables, h.mode⟩
  cases hnext : upcoming m with
  | some i =>
    rw [runOne_of_upcoming hnext]
    exact settled_perform (Instruction.onEveryPage_spellable.upcoming hnext) hfetched
  | none =>
    rw [runOne_of_upcoming_none hnext]
    exact hfetched

/-! ## From one instruction to a session -/

section Registers

variable {P : Registers → Prop}
  (hone : ∀ m : Machine β ω, P m.cpu.regs → P (runOne m).2.cpu.regs)
include hone

/-- What each instruction keeps, a run keeps. -/
theorem regs_run (count : Nat) {m : Machine β ω} (h : P m.cpu.regs) :
    P (run count m).2.cpu.regs := by
  induction count generalizing m with
  | zero => exact h
  | succ count ih =>
    rw [run_succ]
    by_cases hhalted : m.cpu.regs.halted = true
    · rw [if_pos hhalted]
      exact h
    · rw [if_neg hhalted]
      have hnext := hone m h
      generalize runOne m = out at hnext
      obtain ⟨r, m'⟩ := out
      cases r with
      | ok u => exact ih hnext
      | error e => exact hnext

/-- What a reset brings about and each instruction keeps holds after any requests. -/
theorem regs_session (hreset : P .powerOn) (requests : List Request) {m : Machine β ω}
    (h : P m.cpu.regs) : P (session requests m).2.cpu.regs := by
  induction requests generalizing m with
  | nil => exact h
  | cons q requests ih =>
    rw [session_cons]
    apply ih
    cases q with
    | step count =>
      rw [serve_step]
      cases hfault : m.cpu.fault with
      | some e =>
        rw [step_of_fault count hfault]
        exact h
      | none =>
        rw [step_of_running count hfault]
        exact regs_run hone count h
    | reset => exact hreset
    | clearFault => exact h

end Registers

/-- A new machine is coherent after any requests of its host, on any bus. -/
theorem session_coherent (config : Config) (bus : β) (observer : ω) (requests : List Request) :
    (session requests (Machine.new config bus observer)).2.Coherent := by
  let m : Machine β ω := Machine.new config bus observer
  have hreset : Registers.powerOn.Settled := ⟨rfl, by decide⟩
  have hsettled : (session requests m).2.cpu.regs.Settled :=
    regs_session (fun _ => settled_runOne) hreset requests hreset
  have hresumable : (session requests m).2.Resumable :=
    session_resumable requests (Machine.resumable_of_fault_none rfl)
  refine ⟨hsettled.enables, hsettled.mode, ?_, ?_⟩
  · rintro ⟨hhalted, hfault⟩
    rw [hresumable.fault_of_halted hhalted] at hfault
    cases hfault
  · intro e he
    obtain ⟨hopcode, -, hpc⟩ := hresumable e he
    obtain ⟨leads, u, hleads, hu, heq⟩ := hopcode.exists_leads
    refine ⟨hpc, leads, u, ?_, hu, heq⟩
    intro v hv
    simpa [isIndexByte] using hleads v hv

end Exec

end Z80
