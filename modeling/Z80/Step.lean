import Z80.Effect
import Z80.Fetch

/-!
# Running a machine

What a host can ask for: to run a number of instructions, to reset, and to go on
after a fault. Running stops early when the processor halts or fails. From then
on asking for more changes nothing: a halted machine idles, and a failed one
repeats its report.

Main definitions:
- `Exec.runOne`: one instruction.
- `Exec.step`: a batch of instructions.
- `Exec.reset`, `Exec.clearFault`.
-/

namespace Z80.Exec

variable {β ω : Type}

section Running

variable [Bus β] [Observer ω]

/-- Takes in and executes the instruction at the program counter. An instruction
that has no meaning has no effect but the bytes taken in. -/
def runOne : Exec β ω (Except InvalidOpcode Unit) := do
  modifyCpu Cpu.beginInstruction
  let op ← fetchOpcode
  let c ← cpu
  notify (.instruction c.current.start op c.regs)
  modifyCpu Cpu.countInstruction
  match ← dispatch op with
  | some i =>
    perform i
    return .ok ()
  | none => return .error (← cpu).invalidOpcode

/-- Runs up to `count` instructions on a machine without a recorded fault. -/
def run : Nat → Exec β ω (Except InvalidOpcode Unit)
  | 0 => return .ok ()
  | count + 1 => do
    if (← regs).halted then return .ok ()
    match ← runOne with
    | .ok () => run count
    | .error e =>
      reportFault e
      modifyCpu fun c => { c with fault := some e }
      return .error e

/-- Runs `count` instructions, idle ones of a halted processor included. A fault
is reported and recorded, and is the answer of every batch until it is cleared. -/
def step (count : Nat) : Exec β ω (Except InvalidOpcode Unit) := do
  match (← cpu).fault with
  | some e => return .error e
  | none => run count

end Running

/-- Resets the processor; bus and observer are kept. -/
def reset : Exec β ω Unit :=
  modifyCpu Cpu.reset

/-- Drops the recorded fault and gives it out, so that the machine can go on
behind the bytes that failed. -/
def clearFault : Exec β ω (Option InvalidOpcode) := do
  let fault := (← cpu).fault
  modifyCpu fun c => { c with fault := none }
  return fault

end Z80.Exec
