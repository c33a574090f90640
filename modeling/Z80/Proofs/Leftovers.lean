import Z80.Proofs.Coupling

/-!
# Leftovers of earlier instructions

Besides its registers, its configuration and a recorded fault a processor keeps the bytes of
its last instruction and a count of all. Neither acts on what comes next: an instruction
begins by dropping those bytes, and to the count it only adds one.

Main definitions:
- `Machine.uncounted`: a machine without its count.
- `Machine.Alike`: two machines differ in leftovers at most.

Main statement: `runOne_alike` says that such machines run alike.
-/

namespace Z80

namespace Machine

variable {β ω : Type}

/-- The machine with its count of instructions set back to zero. -/
def uncounted (m : Machine β ω) : Machine β ω :=
  { m with cpu := { m.cpu with instructions := 0 } }

/-- The machines differ at most in how many instructions they have counted, and in what is
left of the last one. -/
structure Alike (m m' : Machine β ω) : Prop where
  bus : m.bus = m'.bus
  observer : m.observer = m'.observer
  regs : m.cpu.regs = m'.cpu.regs
  config : m.cpu.config = m'.cpu.config
  fault : m.cpu.fault = m'.cpu.fault

theorem uncounted_countFetch (m : Machine β ω) :
    (Exec.modifyCpu Cpu.countFetch m).2.uncounted =
      (Exec.modifyCpu Cpu.countFetch m.uncounted).2 := by
  cases hconfig : m.cpu.config.incrementRefresh with
  | true | false =>
    simp only [Exec.modifyCpu_apply, Cpu.countFetch, uncounted, hconfig]
    rfl

theorem uncounted_beginInstruction {m m' : Machine β ω} (h : m.Alike m') :
    (Exec.modifyCpu Cpu.beginInstruction m).2.uncounted =
      (Exec.modifyCpu Cpu.beginInstruction m').2.uncounted := by
  simp only [Exec.modifyCpu_apply, Cpu.beginInstruction, uncounted, h.bus, h.observer, h.regs,
    h.config, h.fault]

end Machine

namespace Exec

variable {β ω : Type} [Bus β] [Observer ω]

/-- No step of an instruction looks at the count. -/
theorem coupling_uncounted :
    Coupling fun m m' : Machine β ω => m.uncounted = m'.uncounted where
  regs := fun m m' (h : m.uncounted = m'.uncounted) => ⟨congrArg (·.cpu.regs) h, h⟩
  modifyRegs f := fun m m' (h : m.uncounted = m'.uncounted) =>
    ⟨rfl, congrArg (fun s => (modifyRegs f s).2) h⟩
  read a := fun m m' (h : m.uncounted = m'.uncounted) =>
    have hbus : m.bus = m'.bus := congrArg (·.bus) h
    ⟨congrArg (fun b => (Bus.read a b).1) hbus, congrArg (fun s => (read a s).2) h⟩
  write a v := fun m m' (h : m.uncounted = m'.uncounted) =>
    ⟨rfl, congrArg (fun s => (write a v s).2) h⟩
  input a := fun m m' (h : m.uncounted = m'.uncounted) =>
    have hbus : m.bus = m'.bus := congrArg (·.bus) h
    ⟨congrArg (fun b => (Bus.input a b).1) hbus, congrArg (fun s => (input a s).2) h⟩
  output a v := fun m m' (h : m.uncounted = m'.uncounted) =>
    ⟨rfl, congrArg (fun s => (output a v s).2) h⟩
  halt := fun m m' (h : m.uncounted = m'.uncounted) =>
    ⟨rfl, congrArg (fun s : Machine β ω => (notify (.halt s.cpu.current.start) s).2) h⟩
  takeByte v := fun m m' (h : m.uncounted = m'.uncounted) =>
    ⟨rfl, congrArg (fun s => (modifyCpu (Cpu.takeByte v) s).2) h⟩
  countFetch := fun m m' (h : m.uncounted = m'.uncounted) => by
    refine ⟨rfl, ?_⟩
    show (modifyCpu Cpu.countFetch m).2.uncounted = (modifyCpu Cpu.countFetch m').2.uncounted
    rw [m.uncounted_countFetch, m'.uncounted_countFetch, h]

variable {m m' : Machine β ω}

theorem takeFirst_alike (h : m.Alike m') :
    (takeFirst m).1 = (takeFirst m').1 ∧
      (takeFirst m).2.uncounted = (takeFirst m').2.uncounted := by
  let announced (op : UInt8) (s : Machine β ω) : Machine β ω :=
    (notify (.instruction s.cpu.current.start op s.cpu.regs) s).2
  -- to count the instruction is the last thing that is done, and not seen here
  have hfirst : ∀ s : Machine β ω, (takeFirst s).2.uncounted =
      announced (takeFirst s).1 (fetchOpcode (modifyCpu Cpu.beginInstruction s).2).2.uncounted :=
    fun _ => rfl
  obtain ⟨hop, hfetch⟩ := coupling_uncounted.toFetchCoupling.fetchOpcode _ _
    (Machine.uncounted_beginInstruction h)
  have hop' : (takeFirst m).1 = (takeFirst m').1 := hop
  refine ⟨hop', ?_⟩
  rw [hfirst m, hfirst m', hop', hfetch]

/-- Machines that differ in leftovers alone run their next instruction alike, and after it they
differ in their counts at most. -/
theorem runOne_alike (h : m.Alike m') :
    (runOne m).1 = (runOne m').1 ∧ (runOne m).2.uncounted = (runOne m').2.uncounted := by
  have hreport : ∀ s s' : Machine β ω, s.uncounted = s'.uncounted →
      s.cpu.invalidOpcode = s'.cpu.invalidOpcode :=
    fun _ _ hs => congrArg (·.cpu.invalidOpcode) hs
  obtain ⟨hop, hfirst⟩ := takeFirst_alike h
  exact coupling_uncounted.runOne hreport hop hfirst

theorem step_one_alike (h : m.Alike m') (hfault : m.cpu.fault = none)
    (hhalted : m.cpu.regs.halted = false) :
    (step 1 m).1 = (step 1 m').1 ∧ (step 1 m).2.uncounted = (step 1 m').2.uncounted := by
  obtain ⟨hresult, hafter⟩ := runOne_alike h
  rw [step_one hfault hhalted, step_one (h.fault ▸ hfault) (h.regs ▸ hhalted)]
  generalize runOne m = out at hresult hafter
  generalize runOne m' = out' at hresult hafter
  obtain ⟨r, s⟩ := out
  obtain ⟨r', s'⟩ := out'
  obtain rfl : r = r' := hresult
  cases r with
  | ok u => exact ⟨rfl, hafter⟩
  | error e => exact ⟨rfl, congrArg (recordFault e) hafter⟩

end Exec

end Z80
