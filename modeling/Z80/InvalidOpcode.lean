import Z80.Hex

/-!
# Invalid opcodes

The one way in which an instruction can fail: its bytes spell nothing. The
report holds the address of the first byte and all bytes that were taken in.
-/

namespace Z80

/-- The report of an instruction that has no meaning. -/
structure InvalidOpcode where
  /-- The address of the first byte, index bytes included. -/
  pc : UInt16
  /-- The bytes taken in before the failure showed. -/
  opcode : List UInt8
  deriving DecidableEq

/-- The report as one line of text. -/
def InvalidOpcode.message (e : InvalidOpcode) : String :=
  String.ofList ("invalid opcode ".toList ++ Hex.spaced e.opcode ++ " at 0x".toList ++ Hex.word e.pc)

end Z80
