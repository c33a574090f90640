import Z80.InvalidOpcode

/-!
# The bus

Everything outside the processor: 64K of memory addresses, a separate space of
port addresses, and a host that hears of invalid opcodes. Any access may change
the bus, a read included, and no access fails.
-/

namespace Z80

/-- A state that answers the accesses of a processor. -/
class Bus (β : Type) where
  read : UInt16 → β → UInt8 × β
  write : UInt16 → UInt8 → β → β
  /-- Reads a port. -/
  input : UInt16 → β → UInt8 × β
  /-- Writes a port. -/
  output : UInt16 → UInt8 → β → β
  /-- Reports an instruction that has no meaning. -/
  fault : InvalidOpcode → β → β

end Z80
