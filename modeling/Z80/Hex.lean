import Z80.Word

/-!
# Hexadecimal digits

Bytes and words are shown with capital digits and in full width, so that the
number of digits tells the width of the value.

Main definitions:
- `Hex.byte`, `Hex.word`: the digits of a byte and of a word.
- `Hex.spaced`: the bytes of a list, one space between two of them.
-/

namespace Z80.Hex

/-- The digit of a number below sixteen. -/
def digit (n : Nat) : Char :=
  if n < 10 then Char.ofNat (48 + n) else Char.ofNat (55 + n)

/-- The two digits of a byte. -/
def byte (v : UInt8) : List Char :=
  [digit (v.toNat / 16), digit (v.toNat % 16)]

/-- The four digits of a word. -/
def word (v : UInt16) : List Char :=
  byte (high v) ++ byte (low v)

/-- The digits of several bytes, separated by single spaces. -/
def spaced : List UInt8 → List Char
  | [] => []
  | [v] => byte v
  | v :: w :: vs => byte v ++ ' ' :: spaced (w :: vs)

end Z80.Hex
