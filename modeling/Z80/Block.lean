import Z80.Instruction
import Z80.Machine

/-!
# Block instructions

A block instruction does one round of its work, or repeats it until a counter
runs out. The repeating forms are single instructions: no byte is fetched
between two rounds.

Main definitions:
- `Exec.blockRound`: one round of each family.
- `BlockKind.continues`: does a repeating form go on after a round?
- `Exec.block`: the instruction.
-/

namespace Z80

/-- Does the repeating form go on with these registers? Copies and searches
count in BC, ports in B; a search also stops when it has found its byte. -/
def BlockKind.continues (kind : BlockKind) (r : Registers) : Bool :=
  match kind with
  | load => r.bc != 0
  | compare => r.bc != 0 && !Flag.z.isSet r.f
  | input => r.b != 0
  | output => r.b != 0

/-- The registers after a round of a copy. -/
def Registers.afterCopy (r : Registers) (dir : Direction) : Registers :=
  let r := (r.setHL (dir.next r.hl)).setDE (dir.next r.de)
  let r := r.setBC (r.bc - 1)
  { r with f := r.f |> Flag.h.put false |> Flag.n.put false |> Flag.p.put (r.bc != 0) }

/-- The registers after a round of a search that met the byte `v`. The carry is
that from before. -/
def Registers.afterCompare (r : Registers) (dir : Direction) (v : UInt8) : Registers :=
  let flags := (subByte r.a v false r.f).flags |> Flag.c.put (Flag.c.isSet r.f)
  let r := r.setHL (dir.next r.hl)
  let r := r.setBC (r.bc - 1)
  { r with f := flags |> Flag.p.put (r.bc != 0) }

/-- The registers after a round on a port: HL has moved, B has counted down. -/
def Registers.afterPort (r : Registers) (dir : Direction) : Registers :=
  let r := r.setHL (dir.next r.hl)
  let b := r.b - 1
  { r with b, f := r.f |> Flag.n.put true |> Flag.z.put (b == 0) }

namespace Exec

variable {β ω : Type} [Bus β] [Observer ω]

/-- One round of a block instruction. A port is read under the count from before
the round, but written under the one after it. -/
def blockRound (kind : BlockKind) (dir : Direction) : Exec β ω Unit := do
  let r ← regs
  match kind with
  | .load =>
    write r.de (← read r.hl)
    modifyRegs (·.afterCopy dir)
  | .compare =>
    let v ← read r.hl
    modifyRegs (·.afterCompare dir v)
  | .input =>
    write r.hl (← input r.bc)
    modifyRegs (·.afterPort dir)
  | .output =>
    let v ← read r.hl
    output (join (r.b - 1) r.c) v
    modifyRegs (·.afterPort dir)

/-- Rounds without end, up to a bound. -/
def blockRounds (kind : BlockKind) (dir : Direction) : Nat → Exec β ω Unit
  | 0 => return
  | n + 1 => do
    blockRound kind dir
    if kind.continues (← regs) then blockRounds kind dir n

/-- A block instruction. A counter of sixteen bits runs out within 65536 rounds. -/
def block (kind : BlockKind) (dir : Direction) (repeats : Bool) : Exec β ω Unit :=
  if repeats then blockRounds kind dir 65536 else blockRound kind dir

end Exec

end Z80
