import Z80.Bus
import Z80.Event

/-!
# The machine

A processor, the bus it works on and the observer that watches it. An execution
is a state transformer of the three; it touches the bus through four accesses,
each of which is reported.

Main definitions:
- `Cpu`: registers, configuration, recorded fault, and the instruction under way.
- `Machine`, `Exec`: the state and its transformers.
- `Exec.read`, `write`, `input`, `output`: the accesses.
- `Exec.regs`, `Exec.modifyRegs`: the register file.
-/

namespace Z80

/-- The choices made when a processor is built. -/
structure Config where
  /-- Count opcode fetches in the register R. -/
  incrementRefresh : Bool := false
  deriving DecidableEq

/-- The bytes taken in for the instruction under way, and the address of the first. -/
structure Current where
  start : UInt16 := 0
  bytes : List UInt8 := []
  deriving DecidableEq

/-- A processor between or within instructions. A recorded fault stops it until
it is cleared. -/
structure Cpu where
  regs : Registers := .powerOn
  config : Config := {}
  fault : Option InvalidOpcode := none
  /-- Instructions started since the last reset. -/
  instructions : UInt64 := 0
  current : Current := {}
  deriving DecidableEq

namespace Cpu

/-- Back to the state after power on; the configuration is kept. -/
def reset (c : Cpu) : Cpu :=
  { config := c.config }

/-- The report for an instruction under way that turns out to have no meaning. -/
def invalidOpcode (c : Cpu) : InvalidOpcode :=
  ⟨c.current.start, c.current.bytes⟩

/-- Starts a new instruction at the program counter. -/
def beginInstruction (c : Cpu) : Cpu :=
  { c with current := { start := c.regs.pc } }

/-- Takes in the byte that the program counter points to. -/
def takeByte (v : UInt8) (c : Cpu) : Cpu :=
  { c with
    regs := { c.regs with pc := c.regs.pc + 1 }
    current := { c.current with bytes := c.current.bytes ++ [v] } }

/-- Counts an opcode fetch, if the configuration says so. -/
def countFetch (c : Cpu) : Cpu :=
  if c.config.incrementRefresh then { c with regs := c.regs.refresh } else c

/-- Counts an instruction. -/
def countInstruction (c : Cpu) : Cpu :=
  { c with instructions := c.instructions + 1 }

end Cpu

/-- A processor on a bus under observation. -/
structure Machine (β ω : Type) where
  cpu : Cpu := {}
  bus : β
  observer : ω

/-- A computation that runs a machine. -/
abbrev Exec (β ω α : Type) := StateM (Machine β ω) α

namespace Exec

variable {β ω : Type}

/-- Changes the processor alone. -/
def modifyCpu (f : Cpu → Cpu) : Exec β ω Unit :=
  modify fun ⟨cpu, bus, observer⟩ => ⟨f cpu, bus, observer⟩

/-- The processor. -/
def cpu : Exec β ω Cpu :=
  return (← get).cpu

/-- The register file. -/
def regs : Exec β ω Registers :=
  return (← get).cpu.regs

/-- Changes the register file alone. -/
def modifyRegs (f : Registers → Registers) : Exec β ω Unit :=
  modifyCpu fun c => { c with regs := f c.regs }

/-- Replaces the flag byte. -/
def setFlags (f : UInt8) : Exec β ω Unit :=
  modifyRegs fun r => { r with f }

/-- Sets the program counter. -/
def setPC (a : UInt16) : Exec β ω Unit :=
  modifyRegs fun r => { r with pc := a }

/-- Reports an event. -/
def notify [Observer ω] (e : Event) : Exec β ω Unit :=
  modify fun ⟨cpu, bus, observer⟩ => ⟨cpu, bus, Observer.notify e observer⟩

/-! ## Access to the bus -/

variable [Bus β] [Observer ω]

/-- Reads a byte of memory. -/
def read (a : UInt16) : Exec β ω UInt8 :=
  modifyGet fun ⟨cpu, bus, observer⟩ =>
    let (v, bus) := Bus.read a bus
    (v, ⟨cpu, bus, Observer.notify (.read a v) observer⟩)

/-- Writes a byte of memory. -/
def write (a : UInt16) (v : UInt8) : Exec β ω Unit :=
  modify fun ⟨cpu, bus, observer⟩ =>
    ⟨cpu, Bus.write a v bus, Observer.notify (.write a v) observer⟩

/-- Reads a port. -/
def input (a : UInt16) : Exec β ω UInt8 :=
  modifyGet fun ⟨cpu, bus, observer⟩ =>
    let (v, bus) := Bus.input a bus
    (v, ⟨cpu, bus, Observer.notify (.input a v) observer⟩)

/-- Writes a port. -/
def output (a : UInt16) (v : UInt8) : Exec β ω Unit :=
  modify fun ⟨cpu, bus, observer⟩ =>
    ⟨cpu, Bus.output a v bus, Observer.notify (.output a v) observer⟩

/-- Reports an invalid opcode to the bus and then to the observer. -/
def reportFault (e : InvalidOpcode) : Exec β ω Unit :=
  modify fun ⟨cpu, bus, observer⟩ =>
    ⟨cpu, Bus.fault e bus, Observer.notify (.fault e) observer⟩

/-- Reads a word of memory, its lower byte first. -/
def readWord (a : UInt16) : Exec β ω UInt16 := do
  let lo ← read a
  let hi ← read (a + 1)
  return join hi lo

/-- Writes a word of memory, its lower byte first. -/
def writeWord (a v : UInt16) : Exec β ω Unit := do
  write a (low v)
  write (a + 1) (high v)

/-- Puts a word on the stack, its upper byte first. -/
def push (v : UInt16) : Exec β ω Unit := do
  let sp := (← regs).sp
  write (sp - 1) (high v)
  write (sp - 2) (low v)
  modifyRegs fun r => { r with sp := sp - 2 }

/-- Takes a word off the stack. -/
def pop : Exec β ω UInt16 := do
  let sp := (← regs).sp
  let v ← readWord sp
  modifyRegs fun r => { r with sp := sp + 2 }
  return v

end Exec

end Z80
