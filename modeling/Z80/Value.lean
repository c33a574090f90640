import Z80.Hex

/-!
# Inspected values

A host that looks into a processor gets values of four widths, and their text
tells the width.

Main definitions:
- `Value`: the values.
- `Value.display`, `Value.toCount`: their text, and their widening to 64 bits.
-/

namespace Z80

/-- What an inspection can give: a truth value, a byte, a word or a count. -/
inductive Value where
  | bool (b : Bool)
  | byte (v : UInt8)
  | word (v : UInt16)
  | count (n : UInt64)
  deriving DecidableEq

namespace Value

/-- Truth values are words of English, bytes and words hexadecimal in full width
behind `0x`, counts decimal. -/
def display : Value → String
  | bool b => if b then "true" else "false"
  | byte v => String.ofList ('0' :: 'x' :: Hex.byte v)
  | word v => String.ofList ('0' :: 'x' :: Hex.word v)
  | count n => n.toNat.repr

/-- The value as a count; true counts one. -/
def toCount : Value → UInt64
  | bool b => b.toUInt64
  | byte v => v.toUInt64
  | word v => v.toUInt64
  | count n => n

end Value

end Z80
