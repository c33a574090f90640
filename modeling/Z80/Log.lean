import Z80.Event
import Z80.Flag

/-!
# The log

What a machine has to say at run time, as leveled lines of text. Most lines come
from events; the two that a host causes by itself come from its calls.

Main definitions:
- `LogRecord`, `LogRecord.line`: a level and a message, and both as one line.
- `Event.log`: the records of an event.
- `LogRecord.reset`, `LogRecord.resuming`: the records of a reset and of clearing
  a fault.
-/

namespace Z80

/-- How much a record matters. -/
inductive LogLevel where
  | trace | debug | warn
  deriving DecidableEq

/-- The name of a level. -/
def LogLevel.name : LogLevel → String
  | trace => "TRACE"
  | debug => "DEBUG"
  | warn => "WARN"

/-- A line of the log. -/
structure LogRecord where
  level : LogLevel
  message : String
  deriving DecidableEq

namespace LogRecord

/-- Level and message, as they are shown. -/
def line (r : LogRecord) : String :=
  r.level.name ++ " " ++ r.message

/-- The record of a reset. -/
def reset : LogRecord :=
  ⟨.debug, "Z80 reset"⟩

/-- The record of going on after a fault. -/
def resuming (e : InvalidOpcode) : LogRecord :=
  ⟨.debug, "Z80 resuming after " ++ e.message⟩

end LogRecord

/-- The computed flags of a byte, each by its letter if it is set. -/
def flagLetters (f : UInt8) : List Char :=
  [(Flag.s, 'S'), (.z, 'Z'), (.h, 'H'), (.p, 'P'), (.n, 'N'), (.c, 'C')].map fun (g, letter) =>
    if g.isSet f then letter else '-'

/-- The line that traces an instruction: its address and first byte, the word
registers, and the flags. -/
def traceLine (pc : UInt16) (op : UInt8) (r : Registers) : String :=
  let named (name : String) (v : UInt16) := name ++ "=" ++ String.ofList (Hex.word v)
  String.ofList (Hex.word pc) ++ "  " ++ String.ofList (Hex.byte op) ++ "  " ++
    " ".intercalate [named "AF" r.af, named "BC" r.bc, named "DE" r.de, named "HL" r.hl,
      named "IX" r.ix, named "IY" r.iy, named "SP" r.sp] ++
    "  " ++ String.ofList (flagLetters r.f)

/-- The records of an event. Instructions are logged, and faults logged a second
time, only if the machine is traced. -/
def Event.log (traced : Bool) : Event → List LogRecord
  | .instruction pc op r => if traced then [⟨.trace, traceLine pc op r⟩] else []
  | .halt pc => [⟨.debug, "Z80 HALT at 0x" ++ String.ofList (Hex.word pc)⟩]
  | .fault e =>
    ⟨.warn, "Z80 fault: " ++ e.message⟩ ::
      if traced then [⟨.trace, "fault: " ++ e.message⟩] else []
  | _ => []

end Z80
