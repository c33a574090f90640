import Z80.Flag

/-!
# Sums and differences

One adder serves bytes and words. It computes in one bit more than its operands
have; the exclusive or of operands and result then holds, in each place, the
carry (or borrow) that came into it.

Main definitions:
- `Sum`, `Sum.add`, `Sum.sub`: the adder at any width.
- `Sum.flags`: the flag byte after an addition or subtraction.
- `Outcome`: a result with the flag byte that goes with it.
- `addWord`, `adcWord`, `sbcWord`: the 16-bit operations.
- `incByte`, `decByte`: stepping a byte by one.
-/

namespace Z80

/-- A computed value together with the flag byte after the computation. -/
structure Outcome (α : Type) where
  value : α
  flags : UInt8
  deriving DecidableEq

/-- What the adder of width `w` reports: the result, the carry out of the top
bit, the carry into the top four bits, and whether the result lies outside the
signed range. -/
structure Sum (w : Nat) where
  value : BitVec w
  carry : Bool
  half : Bool
  overflow : Bool
  deriving DecidableEq

namespace Sum

variable {w : Nat}

/-- Reads the report off the wide result `s` of adding or subtracting `a` and `b`.
Overflow is a carry into the top bit that differs from the carry out of it. -/
def ofWide (a b : BitVec w) (s : BitVec (w + 1)) : Sum w :=
  let carries := a.setWidth (w + 1) ^^^ b.setWidth (w + 1) ^^^ s
  { value := s.setWidth w
    carry := carries.getLsbD w
    half := carries.getLsbD (w - 4)
    overflow := carries.getLsbD w ^^ carries.getLsbD (w - 1) }

/-- `a + b`, plus one if there is a carry in. -/
def add (a b : BitVec w) (carryIn : Bool) : Sum w :=
  ofWide a b (a.setWidth (w + 1) + b.setWidth (w + 1) + (BitVec.ofBool carryIn).setWidth (w + 1))

/-- `a - b`, less one if there is a borrow in; the carries are borrows. -/
def sub (a b : BitVec w) (borrowIn : Bool) : Sum w :=
  ofWide a b (a.setWidth (w + 1) - b.setWidth (w + 1) - (BitVec.ofBool borrowIn).setWidth (w + 1))

/-- The byte `f` with every computed flag replaced by that of a sum, or of a
difference if `subtracted` holds. -/
def flags (s : Sum w) (subtracted : Bool) (f : UInt8) : UInt8 :=
  f |> Flag.s.put s.value.msb |> Flag.z.put (s.value == 0) |> Flag.h.put s.half
    |> Flag.p.put s.overflow |> Flag.n.put subtracted |> Flag.c.put s.carry

/-- The byte `f` after an addition that reports through H, N and C alone. -/
def carryFlags (s : Sum w) (f : UInt8) : UInt8 :=
  f |> Flag.h.put s.half |> Flag.n.put false |> Flag.c.put s.carry

/-- The byte `f` after counting by one: the carry is not touched, so that a
counter can run inside a longer sum. -/
def countFlags (s : Sum w) (subtracted : Bool) (f : UInt8) : UInt8 :=
  s.flags subtracted f |> Flag.c.put (Flag.c.isSet f)

end Sum

/-! ## Bytes -/

/-- Adds two bytes, with the given carry in. -/
def addByte (a b : UInt8) (carryIn : Bool) (f : UInt8) : Outcome UInt8 :=
  let s := Sum.add a.toBitVec b.toBitVec carryIn
  ⟨⟨s.value⟩, s.flags false f⟩

/-- Subtracts `b` from `a`, with the given borrow in. -/
def subByte (a b : UInt8) (borrowIn : Bool) (f : UInt8) : Outcome UInt8 :=
  let s := Sum.sub a.toBitVec b.toBitVec borrowIn
  ⟨⟨s.value⟩, s.flags true f⟩

/-- Counts a byte up; the carry flag stays. -/
def incByte (v f : UInt8) : Outcome UInt8 :=
  let s := Sum.add v.toBitVec 1 false
  ⟨⟨s.value⟩, s.countFlags false f⟩

/-- Counts a byte down; the carry flag stays. -/
def decByte (v f : UInt8) : Outcome UInt8 :=
  let s := Sum.sub v.toBitVec 1 false
  ⟨⟨s.value⟩, s.countFlags true f⟩

/-! ## Words -/

/-- Adds two words for address arithmetic: sign, zero and overflow stay. -/
def addWord (a b : UInt16) (f : UInt8) : Outcome UInt16 :=
  let s := Sum.add a.toBitVec b.toBitVec false
  ⟨⟨s.value⟩, s.carryFlags f⟩

/-- Adds two words and the carry flag. -/
def adcWord (a b : UInt16) (f : UInt8) : Outcome UInt16 :=
  let s := Sum.add a.toBitVec b.toBitVec (Flag.c.isSet f)
  ⟨⟨s.value⟩, s.flags false f⟩

/-- Subtracts `b` and the carry flag from `a`. -/
def sbcWord (a b : UInt16) (f : UInt8) : Outcome UInt16 :=
  let s := Sum.sub a.toBitVec b.toBitVec (Flag.c.isSet f)
  ⟨⟨s.value⟩, s.flags true f⟩

end Z80
