import Z80.Machine
import Z80.Page.ED
import Z80.Page.Index
import Z80.Page.Base

/-!
# Fetching an instruction

All bytes of an instruction are taken in before it does anything, so fetching
yields the instruction as a value. What an index byte means depends on the byte
after it, and there the bus is asked twice: once to look ahead, and again if the
byte belongs to the same instruction.

Main definitions:
- `Exec.fetchByte`, `Exec.fetchOpcode`: one byte of the instruction.
- `Exec.complete`: the operand bytes.
- `Exec.dispatch`: from the first byte to the instruction, if the bytes have a
  meaning.
-/

namespace Z80

/-- How many index bytes one instruction can take in. Only a bus that changes its
answer between looking ahead and fetching can present a second one, and no host
can do so this many times. -/
def indexLimit : Nat := UInt64.size

/-- Is the byte the lead of an index page? -/
def isIndexByte (v : UInt8) : Bool :=
  v == 0xDD || v == 0xFD

namespace Exec

variable {β ω : Type} [Bus β] [Observer ω]

/-- Takes in the byte at the program counter. -/
def fetchByte : Exec β ω UInt8 := do
  let v ← read (← regs).pc
  modifyCpu (Cpu.takeByte v)
  return v

/-- Takes in a byte that is an opcode or leads to one; these are counted in R. -/
def fetchOpcode : Exec β ω UInt8 := do
  modifyCpu Cpu.countFetch
  fetchByte

/-- Takes in the operand bytes that an instruction still needs. -/
def complete : Decoding → Exec β ω Instruction
  | .done i => return i
  | .operand next => do complete (next (← fetchByte))

/-- Finds the instruction that starts with the byte `op`, which has been taken in
already, if no more than `limit` index bytes are passed over. -/
def dispatchWithin (limit : Nat) (op : UInt8) : Exec β ω (Option Instruction) := do
  match Lead.ofByte op with
  | .plain d => return some (← complete d)
  | .cb => return some (Page.cb (← fetchOpcode))
  | .ed =>
    match Page.ed (← fetchOpcode) with
    | some d => return some (← complete d)
    | none => return none
  | .index x =>
    let ahead ← read (← regs).pc
    if isIndexByte ahead then return some .nop
    match limit with
    | 0 => return some .nop
    | limit + 1 =>
      let next ← fetchOpcode
      match Page.index x next with
      | some d => return some (← complete d)
      | none => dispatchWithin limit next

/-- Finds the instruction that starts with the byte `op`, which has been taken in
already. An index byte before another one is an instruction of its own that
does nothing; before an opcode that its page lacks it is without effect, and the
opcode is looked up as if it came first. -/
def dispatch (op : UInt8) : Exec β ω (Option Instruction) :=
  dispatchWithin indexLimit op

end Exec

end Z80
