import Z80.Sum

/-!
# Rotates, shifts and single bits

Main definitions:
- `ShiftOp`, `ShiftOp.apply`: the eight operations that move a byte by one place.
- `Rotation.accumulate`: the short forms on the accumulator, which keep S, Z and P.
- `bitFlags`, `clearBit`, `setBit`: testing and changing one bit.
-/

namespace Z80

/-- The four ways of turning a byte round: to the left or to the right, through
the carry flag (nine places) or past it (eight). -/
inductive Rotation where
  | rlc | rrc | rl | rr
  deriving DecidableEq

/-- The eight ways of moving a byte by one place. -/
inductive ShiftOp where
  | rotate (r : Rotation)
  | sla | sra | sll | srl
  deriving DecidableEq

/-- The byte after the move, and the bit that left it. -/
def ShiftOp.move (op : ShiftOp) (v : UInt8) (carryIn : Bool) : UInt8 × Bool :=
  let top := isNegative v
  let bottom := v &&& 1 != 0
  match op with
  | rotate .rlc => (v <<< 1 ||| top.toUInt8, top)
  | rotate .rrc => (v >>> 1 ||| bottom.toUInt8 <<< 7, bottom)
  | rotate .rl => (v <<< 1 ||| carryIn.toUInt8, top)
  | rotate .rr => (v >>> 1 ||| carryIn.toUInt8 <<< 7, bottom)
  | sla => (v <<< 1, top)
  | sra => (v >>> 1 ||| v &&& 0x80, bottom)
  | sll => (v <<< 1 ||| 1, top)
  | srl => (v >>> 1, bottom)

/-- A move with all its flags: the bit that left goes to C, and H and N are cleared. -/
def ShiftOp.apply (op : ShiftOp) (v f : UInt8) : Outcome UInt8 :=
  let (value, out) := op.move v (Flag.c.isSet f)
  ⟨value, resultFlags value f |> Flag.h.put false |> Flag.n.put false |> Flag.c.put out⟩

/-- A rotation of the accumulator, which leaves S, Z and P as they are. -/
def Rotation.accumulate (r : Rotation) (v f : UInt8) : Outcome UInt8 :=
  let (value, out) := (ShiftOp.rotate r).move v (Flag.c.isSet f)
  ⟨value, f |> Flag.h.put false |> Flag.n.put false |> Flag.c.put out⟩

/-! ## Single bits -/

/-- The byte in which bit `n` alone is one. -/
def bitMask (n : Fin 8) : UInt8 :=
  1 <<< UInt8.ofNat n

/-- The flags after testing bit `n` of `v`: Z if it is zero, H set, N cleared. -/
def bitFlags (n : Fin 8) (v f : UInt8) : UInt8 :=
  f |> Flag.z.put (v &&& bitMask n == 0) |> Flag.h.put true |> Flag.n.put false

/-- The byte with bit `n` made zero. -/
def clearBit (n : Fin 8) (v : UInt8) : UInt8 :=
  v &&& ~~~bitMask n

/-- The byte with bit `n` made one. -/
def setBit (n : Fin 8) (v : UInt8) : UInt8 :=
  v ||| bitMask n

end Z80
