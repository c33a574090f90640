/-!
# The flag byte

The eight bits of the register F, named from bit 7 down to bit 0. Two of them,
`y` and `x`, are never computed: they only travel with the byte.

Main definitions:
- `Flag`, `Flag.mask`: the flags and the bit each one occupies.
- `Flag.isSet`, `Flag.put`: reading and replacing one flag of a byte.
- `resultFlags`: sign, zero and parity of a result.

Main statements: `isSet_put` says that replacing one flag leaves the other seven,
`Flag.ext` that the eight flags are all there is to a byte.
-/

namespace Z80

/-- The flags of the register F, from bit 7 to bit 0: sign, zero, the unused bit 5,
half carry, the unused bit 3, parity or overflow, subtraction, carry. -/
inductive Flag where
  | s | z | y | h | x | p | n | c
  deriving DecidableEq

namespace Flag

/-- All flags, from bit 7 down to bit 0. -/
def all : List Flag := [s, z, y, h, x, p, n, c]

/-- The number of the bit that a flag occupies. -/
def bit : Flag → Nat
  | s => 7
  | z => 6
  | y => 5
  | h => 4
  | x => 3
  | p => 2
  | n => 1
  | c => 0

/-- The byte in which one flag alone is set. -/
def mask : Flag → UInt8
  | s => 0x80
  | z => 0x40
  | y => 0x20
  | h => 0x10
  | x => 0x08
  | p => 0x04
  | n => 0x02
  | c => 0x01

/-- Is the flag set in the byte `f`? -/
def isSet (g : Flag) (f : UInt8) : Bool :=
  f &&& g.mask != 0

/-- The byte `f` with the flag set if `b` holds and cleared otherwise. -/
def put (g : Flag) (b : Bool) (f : UInt8) : UInt8 :=
  if b then f ||| g.mask else f &&& ~~~g.mask

end Flag

/-- The parity flag of a byte: its number of one bits is even. -/
def evenParity (v : UInt8) : Bool :=
  (List.finRange 8).countP v.toBitVec.getLsb % 2 == 0

/-- Is the top bit of a byte set, so that it is negative as a signed number? -/
def isNegative (v : UInt8) : Bool :=
  0x80 ≤ v

/-- The flag byte `f` with sign, zero and parity replaced by those of `v`. -/
def resultFlags (v f : UInt8) : UInt8 :=
  f |> Flag.s.put (isNegative v) |> Flag.z.put (v == 0) |> Flag.p.put (evenParity v)

/-! ## One flag at a time -/

namespace Flag

theorem mem_all (g : Flag) : g ∈ all := by
  cases g <;> decide

theorem toBitVec_mask (g : Flag) : g.mask.toBitVec = BitVec.twoPow 8 g.bit := by
  cases g <;> decide

theorem bit_lt (g : Flag) : g.bit < 8 := by
  cases g <;> decide

theorem bit_inj {g k : Flag} : g.bit = k.bit ↔ g = k := by
  cases g <;> cases k <;> decide

theorem isSet_eq (g : Flag) (f : UInt8) : g.isSet f = f.toBitVec.getLsbD g.bit := by
  have h : (f &&& g.mask = 0) ↔ f.toBitVec.getLsbD g.bit = false := by
    rw [← UInt8.toBitVec_inj, UInt8.toBitVec_and, toBitVec_mask, BitVec.and_twoPow]
    split
    · next hb => simpa [hb] using by cases g <;> decide
    · next hb => simpa using hb
  rw [isSet, Bool.eq_iff_iff, bne_iff_ne, ne_eq, h, Bool.not_eq_false]

theorem isSet_put (g k : Flag) (b : Bool) (f : UInt8) :
    k.isSet (g.put b f) = if k = g then b else k.isSet f := by
  rw [isSet_eq, isSet_eq]
  cases b <;>
    simp only [put, Bool.false_eq_true, if_false, if_true, UInt8.toBitVec_or, UInt8.toBitVec_and,
      UInt8.toBitVec_not, toBitVec_mask, BitVec.getLsbD_or, BitVec.getLsbD_and, BitVec.getLsbD_not,
      BitVec.getLsbD_twoPow, bit_lt, decide_true, Bool.true_and, bit_inj, eq_comm (a := g)] <;>
    by_cases hg : k = g <;> simp [hg]

theorem exists_bit {i : Nat} (h : i < 8) : ∃ g : Flag, g.bit = i := by
  have hall : ∀ j : Fin 8, ∃ g ∈ all, g.bit = j := by decide
  obtain ⟨g, -, hg⟩ := hall ⟨i, h⟩
  exact ⟨g, hg⟩

/-- A byte is determined by its flags. -/
theorem ext {f f' : UInt8} (h : ∀ g : Flag, g.isSet f = g.isSet f') : f = f' := by
  rw [← UInt8.toBitVec_inj]
  apply BitVec.eq_of_getLsbD_eq
  intro i hi
  obtain ⟨g, rfl⟩ := exists_bit hi
  rw [← isSet_eq, ← isSet_eq, h]

end Flag

end Z80
