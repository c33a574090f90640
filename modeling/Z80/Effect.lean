import Z80.Block

/-!
# The effects of instructions

The effect of each instruction once its bytes have been taken in, so that the
program counter already points behind it. Nothing here can fail.

Main definitions:
- `Exec.readPlace`, `writePlace`, `readSource`: byte operands.
- `Exec.update`: replacing an operand and the flags by an outcome.
- `Exec.perform`: the instructions.
-/

namespace Z80

/-- Does a transfer of control with this condition, if any, take place? -/
def Condition.taken (cc : Option Condition) (f : UInt8) : Bool :=
  match cc with
  | none => true
  | some cc => cc.holds f

/-- The flags after a byte `v` has come in other than by arithmetic. -/
def transferFlags (v f : UInt8) : UInt8 :=
  resultFlags v f |> Flag.h.put false |> Flag.n.put false

/-- The upper decimal digit of a byte. -/
def upperDigit (v : UInt8) : UInt8 :=
  v >>> 4

/-- The lower decimal digit of a byte. -/
def lowerDigit (v : UInt8) : UInt8 :=
  v &&& 0x0F

/-- The accumulator `a` and the cell `v` after RRD: the three digits below the
accumulator's upper one move one place to the right, round. -/
def digitsRight (a v : UInt8) : UInt8 × UInt8 :=
  (a &&& 0xF0 ||| lowerDigit v, a <<< 4 ||| upperDigit v)

/-- The accumulator `a` and the cell `v` after RLD: the same three digits move one
place to the left, round. -/
def digitsLeft (a v : UInt8) : UInt8 × UInt8 :=
  (a &&& 0xF0 ||| upperDigit v, v <<< 4 ||| lowerDigit a)

namespace Exec

variable {β ω : Type} [Bus β] [Observer ω]

/-- Reads a byte operand. -/
def readPlace : Place → Exec β ω UInt8
  | .reg x => return (← regs).byte x
  | .mem a => do read ((← regs).address a)

/-- Writes a byte operand. -/
def writePlace (p : Place) (v : UInt8) : Exec β ω Unit :=
  match p with
  | .reg x => modifyRegs (·.setByte x v)
  | .mem a => do write ((← regs).address a) v

/-- Reads a byte operand or an immediate value. -/
def readSource : Source → Exec β ω UInt8
  | .place p => readPlace p
  | .imm n => return n

/-- Replaces a byte operand by what `f` makes of it and the flags, and leaves a
copy in a register if one is named. -/
def update (p : Place) (copy : Option Reg8) (f : UInt8 → UInt8 → Outcome UInt8) : Exec β ω Unit := do
  let v ← readPlace p
  let o := f v (← regs).f
  writePlace p o.value
  setFlags o.flags
  match copy with
  | some x => modifyRegs (·.setByte x o.value)
  | none => return

/-- Replaces the accumulator and the flags by what `f` makes of them. -/
def updateA (f : UInt8 → UInt8 → Outcome UInt8) : Exec β ω Unit :=
  modifyRegs fun r =>
    let o := f r.a r.f
    { r with a := o.value, f := o.flags }

/-- Replaces a word register and the flags by what `f` makes of it, another word
register and the flags. -/
def updateWord (dst src : Reg16) (f : UInt16 → UInt16 → UInt8 → Outcome UInt16) : Exec β ω Unit :=
  modifyRegs fun r =>
    let o := f (r.word dst) (r.word src) r.f
    { r.setWord dst o.value with f := o.flags }

/-- Calls the subroutine at an address. -/
def call (a : UInt16) : Exec β ω Unit := do
  push (← regs).pc
  setPC a

/-- Returns from a subroutine. -/
def ret : Exec β ω Unit := do
  setPC (← pop)

/-- Runs one of the two digit rotations between the accumulator and the cell at
HL; `f` gives the new accumulator and the new cell. -/
def rotateDigits (f : UInt8 → UInt8 → UInt8 × UInt8) : Exec β ω Unit := do
  let r ← regs
  let v ← read r.hl
  let (a, v) := f r.a v
  write r.hl v
  modifyRegs fun r => { r with a, f := transferFlags a r.f }

/-- Performs an instruction. -/
def perform : Instruction → Exec β ω Unit
  | .nop => return
  | .halt => do
    notify (.halt (← cpu).current.start)
    modifyRegs fun r => { r with halted := true }
  | .load dst src => do writePlace dst (← readSource src)
  | .loadImm dst nn => modifyRegs (·.setWord dst nn)
  | .loadWord dst nn => do
    let v ← readWord nn
    modifyRegs (·.setWord dst v)
  | .storeWord nn src => do writeWord nn ((← regs).word src)
  | .loadSP src => modifyRegs fun r => { r with sp := r.word src }
  | .loadAFrom x => modifyRegs fun r =>
    let v := r.special x
    { r with a := v, f := transferFlags v r.f |> Flag.p.put r.iff2 }
  | .loadFromA x => modifyRegs fun r => r.setSpecial x r.a
  | .push src => do push ((← regs).word src)
  | .pop dst => do
    let v ← pop
    modifyRegs (·.setWord dst v)
  | .exchangeAF => modifyRegs Registers.exchangeAF
  | .exchangeBanks => modifyRegs Registers.exchangeBanks
  | .exchangeDEHL => modifyRegs fun r => (r.setDE r.hl).setHL r.de
  | .exchangeStack x => do
    let r ← regs
    let v ← readWord r.sp
    writeWord r.sp (r.word x)
    modifyRegs (·.setWord x v)
  | .alu op src => do
    let v ← readSource src
    updateA fun a f => op.apply a v f
  | .inc p => update p none incByte
  | .dec p => update p none decByte
  | .incWord x => modifyRegs fun r => r.setWord x (r.word x + 1)
  | .decWord x => modifyRegs fun r => r.setWord x (r.word x - 1)
  | .addWord dst src => updateWord dst src addWord
  | .adcWord src => updateWord .hl src adcWord
  | .sbcWord src => updateWord .hl src sbcWord
  | .daa => updateA decimalAdjust
  | .cpl => updateA fun a f => ⟨~~~a, f |> Flag.h.put true |> Flag.n.put true⟩
  | .neg => updateA fun a f => subByte 0 a false f
  | .ccf => updateA fun a f =>
    let carry := Flag.c.isSet f
    ⟨a, f |> Flag.h.put carry |> Flag.n.put false |> Flag.c.put !carry⟩
  | .scf => updateA fun a f =>
    ⟨a, f |> Flag.h.put false |> Flag.n.put false |> Flag.c.put true⟩
  | .rotateA op => updateA op.accumulate
  | .shift op p copy => update p copy op.apply
  | .bit n p => do
    let v ← readPlace p
    modifyRegs fun r => { r with f := bitFlags n v r.f }
  | .res n p copy => update p copy fun v f => ⟨clearBit n v, f⟩
  | .set n p copy => update p copy fun v f => ⟨setBit n v, f⟩
  | .rrd => rotateDigits digitsRight
  | .rld => rotateDigits digitsLeft
  | .jump cc nn => do
    if Condition.taken cc (← regs).f then setPC nn
  | .jumpTo x => do setPC ((← regs).word x)
  | .jumpRelative cc d => do
    let r ← regs
    if Condition.taken cc r.f then setPC (displace r.pc d)
  | .djnz d => do
    modifyRegs fun r => { r with b := r.b - 1 }
    let r ← regs
    if r.b != 0 then setPC (displace r.pc d)
  | .call cc nn => do
    if Condition.taken cc (← regs).f then call nn
  | .ret cc => do
    if Condition.taken cc (← regs).f then ret
  | .retn => do
    modifyRegs fun r => { r with iff1 := r.iff2 }
    ret
  | .reti => ret
  | .rst target => call target
  | .inA n => do
    let v ← input (join (← regs).a n)
    modifyRegs fun r => { r with a := v }
  | .outA n => do
    let a := (← regs).a
    output (join a n) a
  | .inC dst => do
    let v ← input (← regs).bc
    modifyRegs fun r => { r.setByte dst v with f := transferFlags v r.f }
  | .outC src => do
    let r ← regs
    output r.bc (r.byte src)
  | .di => modifyRegs fun r => { r with iff1 := false, iff2 := false }
  | .ei => modifyRegs fun r => { r with iff1 := true, iff2 := true }
  | .im mode => modifyRegs fun r => { r with im := mode }
  | .block kind dir repeats => block kind dir repeats

end Exec

end Z80
