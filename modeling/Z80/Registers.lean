import Z80.Word

/-!
# The register file

Main definitions:
- `Bank`: the eight registers of which the processor has two sets.
- `Registers`: the whole file, which is also the snapshot that a host sees.
- `Registers.powerOn`: the file after a reset.
- `Registers.exchangeAF`, `exchangeBanks`: the swaps with the second set.
- `Reg8`, `Reg16`, `Special`: the names by which instructions call registers,
  with `Registers.byte`, `word`, `special` to read and `setByte`, `setWord`,
  `setSpecial` to write them.
-/

namespace Z80

/-- The accumulator, the flags and the six general registers. -/
structure Bank where
  a : UInt8 := 0
  f : UInt8 := 0
  b : UInt8 := 0
  c : UInt8 := 0
  d : UInt8 := 0
  e : UInt8 := 0
  h : UInt8 := 0
  l : UInt8 := 0
  deriving DecidableEq

namespace Bank

/-- Accumulator and flags as a word. -/
def af (r : Bank) : UInt16 := join r.a r.f

/-- The pair BC as a word. -/
def bc (r : Bank) : UInt16 := join r.b r.c

/-- The pair DE as a word. -/
def de (r : Bank) : UInt16 := join r.d r.e

/-- The pair HL as a word. -/
def hl (r : Bank) : UInt16 := join r.h r.l

end Bank

/-- All registers: the bank in use, the alternate bank, the index registers, the
stack pointer and program counter, the interrupt and refresh registers, the two
interrupt enables, the interrupt mode, and whether the processor has halted. -/
structure Registers extends Bank where
  alt : Bank := {}
  ix : UInt16 := 0
  iy : UInt16 := 0
  sp : UInt16 := 0
  pc : UInt16 := 0
  i : UInt8 := 0
  r : UInt8 := 0
  iff1 : Bool := false
  iff2 : Bool := false
  im : UInt8 := 0
  halted : Bool := false
  deriving DecidableEq

/-- The two index registers. -/
inductive Index where
  | ix | iy
  deriving DecidableEq

namespace Registers

/-- The file after a reset: A and F all ones, the stack at the top of memory,
interrupts off, everything else zero. -/
def powerOn : Registers where
  a := 0xFF
  f := 0xFF
  sp := 0xFFFF

/-- Writes accumulator and flags. -/
def setAF (r : Registers) (v : UInt16) : Registers :=
  { r with a := high v, f := low v }

/-- Writes the pair BC. -/
def setBC (r : Registers) (v : UInt16) : Registers :=
  { r with b := high v, c := low v }

/-- Writes the pair DE. -/
def setDE (r : Registers) (v : UInt16) : Registers :=
  { r with d := high v, e := low v }

/-- Writes the pair HL. -/
def setHL (r : Registers) (v : UInt16) : Registers :=
  { r with h := high v, l := low v }

/-- The value of an index register. -/
def index (r : Registers) : Index → UInt16
  | .ix => r.ix
  | .iy => r.iy

/-- Writes an index register. -/
def setIndex (r : Registers) (x : Index) (v : UInt16) : Registers :=
  match x with
  | .ix => { r with ix := v }
  | .iy => { r with iy := v }

/-- Swaps accumulator and flags with the alternate bank. -/
def exchangeAF (r : Registers) : Registers :=
  { r with a := r.alt.a, f := r.alt.f, alt := { r.alt with a := r.a, f := r.f } }

/-- Swaps the six general registers with the alternate bank. -/
def exchangeBanks (r : Registers) : Registers :=
  { r with
    toBank := { r.alt with a := r.a, f := r.f }
    alt := { r.toBank with a := r.alt.a, f := r.alt.f } }

end Registers

/-! ## Registers as operands -/

/-- The byte registers that an instruction can name; those of the pairs IX and IY
are the halves of an index register. -/
inductive Reg8 where
  | a | b | c | d | e | h | l
  | upper (x : Index)
  | lower (x : Index)
  deriving DecidableEq

/-- The word registers that an instruction can name. -/
inductive Reg16 where
  | bc | de | hl | sp | af
  | index (x : Index)
  deriving DecidableEq

/-- The two byte registers that only the accumulator can reach. -/
inductive Special where
  | i | r
  deriving DecidableEq

namespace Registers

/-- The value of a byte register. -/
def byte (r : Registers) : Reg8 → UInt8
  | .a => r.a
  | .b => r.b
  | .c => r.c
  | .d => r.d
  | .e => r.e
  | .h => r.h
  | .l => r.l
  | .upper x => high (r.index x)
  | .lower x => low (r.index x)

/-- Writes a byte register. -/
def setByte (r : Registers) (x : Reg8) (v : UInt8) : Registers :=
  match x with
  | .a => { r with a := v }
  | .b => { r with b := v }
  | .c => { r with c := v }
  | .d => { r with d := v }
  | .e => { r with e := v }
  | .h => { r with h := v }
  | .l => { r with l := v }
  | .upper x => r.setIndex x (join v (low (r.index x)))
  | .lower x => r.setIndex x (join (high (r.index x)) v)

/-- The value of a word register. -/
def word (r : Registers) : Reg16 → UInt16
  | .bc => r.bc
  | .de => r.de
  | .hl => r.hl
  | .sp => r.sp
  | .af => r.af
  | .index x => r.index x

/-- Writes a word register. -/
def setWord (r : Registers) (x : Reg16) (v : UInt16) : Registers :=
  match x with
  | .bc => r.setBC v
  | .de => r.setDE v
  | .hl => r.setHL v
  | .sp => { r with sp := v }
  | .af => r.setAF v
  | .index x => r.setIndex x v

/-- The value of the interrupt or the refresh register. -/
def special (r : Registers) : Special → UInt8
  | .i => r.i
  | .r => r.r

/-- Writes the interrupt or the refresh register. -/
def setSpecial (r : Registers) (x : Special) (v : UInt8) : Registers :=
  match x with
  | .i => { r with i := v }
  | .r => { r with r := v }

/-- The register file after one opcode fetch with refresh counting on: the low
seven bits of R have gone up by one. -/
def refresh (r : Registers) : Registers :=
  { r with r := r.r &&& 0x80 ||| (r.r + 1) &&& 0x7F }

end Registers

end Z80
