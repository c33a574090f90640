import Z80.InvalidOpcode
import Z80.Registers

/-!
# Events and observers

A running machine tells what it does as a stream of events: every access to the
bus, and the points at which an instruction starts, halts or fails. An observer
folds that stream into a state of its own and cannot act on the machine.

Main definitions:
- `Event`: one step of the stream.
- `Observer`: a state that takes in events.
- `Recorder`: the observer that keeps the stream.
-/

namespace Z80

/-- What a machine reports while it runs. -/
inductive Event where
  | read (address : UInt16) (value : UInt8)
  | write (address : UInt16) (value : UInt8)
  | input (port : UInt16) (value : UInt8)
  | output (port : UInt16) (value : UInt8)
  /-- An instruction starts at `pc`; its first byte has been fetched, and `regs`
  is the register file at that moment. -/
  | instruction (pc : UInt16) (opcode : UInt8) (regs : Registers)
  /-- The instruction at `pc` has halted the processor. -/
  | halt (pc : UInt16)
  | fault (e : InvalidOpcode)
  deriving DecidableEq

/-- A state that takes in the events of a machine. -/
class Observer (ω : Type) where
  notify : Event → ω → ω

/-- The observer that sees nothing. -/
instance : Observer Unit where
  notify _ u := u

/-- Two observers side by side. -/
instance {ω₁ ω₂ : Type} [Observer ω₁] [Observer ω₂] : Observer (ω₁ × ω₂) where
  notify e := fun (o₁, o₂) => (Observer.notify e o₁, Observer.notify e o₂)

/-- All events so far, oldest first. -/
structure Recorder where
  events : Array Event := #[]

instance : Observer Recorder where
  notify e := fun ⟨events⟩ => ⟨events.push e⟩

end Z80
