import Z80.Sum

/-!
# Operations on the accumulator

The eight two-operand operations that leave their result in A, and the decimal
adjustment that follows a sum or difference of packed decimal digits.

Main definitions:
- `AluOp`, `AluOp.apply`: the operations, from ADD to CP.
- `decimalAdjust`: DAA.
-/

namespace Z80

/-- The eight operations on the accumulator and one operand. -/
inductive AluOp where
  | add | adc | sub | sbc | and | xor | or | cp
  deriving DecidableEq

/-- The flags after a bitwise operation with result `v`. -/
def logicFlags (v : UInt8) (half : Bool) (f : UInt8) : UInt8 :=
  resultFlags v f |> Flag.h.put half |> Flag.n.put false |> Flag.c.put false

/-- The outcome of an operation on the accumulator `a`, an operand `b` and the
flags `f`. A comparison subtracts for the flags alone: its value is `a`. -/
def AluOp.apply (op : AluOp) (a b f : UInt8) : Outcome UInt8 :=
  match op with
  | add => addByte a b false f
  | adc => addByte a b (Flag.c.isSet f) f
  | sub => subByte a b false f
  | sbc => subByte a b (Flag.c.isSet f) f
  | and => ⟨a &&& b, logicFlags (a &&& b) true f⟩
  | xor => ⟨a ^^^ b, logicFlags (a ^^^ b) false f⟩
  | or => ⟨a ||| b, logicFlags (a ||| b) false f⟩
  | cp => ⟨a, (subByte a b false f).flags⟩

/-! ## Decimal adjustment

Bit 8 of the corrected value tells whether a decimal carry left the byte. It
can set the carry flag but never clears it: a carry that the sum itself produced
is a decimal carry too. -/

/-- The accumulator, widened to nine bits and more, corrected after a
subtraction, with the half-carry flag that this leaves in `f`. -/
def adjustAfterSubtraction (a f : UInt8) : UInt16 × UInt8 :=
  let lo := a &&& 0x0F
  let (acc, g) :=
    if Flag.h.isSet f || 9 < lo then
      ((a.toUInt16 - 6) &&& 0xFF, if 5 < lo then Flag.h.put false f else f)
    else (a.toUInt16, f)
  (if Flag.c.isSet f || 0x99 < a then acc - 0x160 else acc, g)

/-- The accumulator, widened to nine bits and more, corrected after an addition,
with the half-carry flag that this leaves in `f`. -/
def adjustAfterAddition (a f : UInt8) : UInt16 × UInt8 :=
  let lo := a &&& 0x0F
  let (acc, g) :=
    if Flag.h.isSet f || 9 < lo then (a.toUInt16 + 6, Flag.h.put (9 < lo) f)
    else (a.toUInt16, f)
  (if Flag.c.isSet f || 0x90 < acc &&& 0x1F0 then acc + 0x60 else acc, g)

/-- Corrects the accumulator so that it holds two decimal digits again after an
addition or, if the flag N says so, a subtraction of such bytes. -/
def decimalAdjust (a f : UInt8) : Outcome UInt8 :=
  let (acc, g) := if Flag.n.isSet f then adjustAfterSubtraction a f else adjustAfterAddition a f
  let g := resultFlags acc.toUInt8 g
  ⟨acc.toUInt8, if acc &&& 0x100 != 0 then Flag.c.put true g else g⟩

end Z80
