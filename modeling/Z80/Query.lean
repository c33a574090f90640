import Z80.Flag
import Z80.Machine
import Z80.Value

/-!
# Inspecting a processor

A host looks into a processor by path, so that it need not know how the state is
laid out. Paths that end in a prime belong to the alternate bank.

Main definitions:
- `Cpu.query`: what a path reads.
- `Cpu.paths`: the paths, in the order in which a host is shown them.
-/

namespace Z80.Cpu

/-- What the path reads, if there is such a path. -/
def query (path : String) (c : Cpu) : Option Value :=
  let r := c.regs
  match path with
  | "a" => some (.byte r.a)
  | "f" => some (.byte r.f)
  | "b" => some (.byte r.b)
  | "c" => some (.byte r.c)
  | "d" => some (.byte r.d)
  | "e" => some (.byte r.e)
  | "h" => some (.byte r.h)
  | "l" => some (.byte r.l)
  | "af" => some (.word r.af)
  | "bc" => some (.word r.bc)
  | "de" => some (.word r.de)
  | "hl" => some (.word r.hl)
  | "a'" => some (.byte r.alt.a)
  | "f'" => some (.byte r.alt.f)
  | "b'" => some (.byte r.alt.b)
  | "c'" => some (.byte r.alt.c)
  | "d'" => some (.byte r.alt.d)
  | "e'" => some (.byte r.alt.e)
  | "h'" => some (.byte r.alt.h)
  | "l'" => some (.byte r.alt.l)
  | "af'" => some (.word r.alt.af)
  | "bc'" => some (.word r.alt.bc)
  | "de'" => some (.word r.alt.de)
  | "hl'" => some (.word r.alt.hl)
  | "ix" => some (.word r.ix)
  | "iy" => some (.word r.iy)
  | "ixh" => some (.byte (high r.ix))
  | "ixl" => some (.byte (low r.ix))
  | "iyh" => some (.byte (high r.iy))
  | "iyl" => some (.byte (low r.iy))
  | "sp" => some (.word r.sp)
  | "pc" => some (.word r.pc)
  | "i" => some (.byte r.i)
  | "r" => some (.byte r.r)
  | "flags.s" => some (.bool (Flag.s.isSet r.f))
  | "flags.z" => some (.bool (Flag.z.isSet r.f))
  | "flags.y" => some (.bool (Flag.y.isSet r.f))
  | "flags.h" => some (.bool (Flag.h.isSet r.f))
  | "flags.x" => some (.bool (Flag.x.isSet r.f))
  | "flags.p" => some (.bool (Flag.p.isSet r.f))
  | "flags.n" => some (.bool (Flag.n.isSet r.f))
  | "flags.c" => some (.bool (Flag.c.isSet r.f))
  | "iff1" => some (.bool r.iff1)
  | "iff2" => some (.bool r.iff2)
  | "im" => some (.byte r.im)
  | "halted" => some (.bool r.halted)
  | "faulted" => some (.bool c.fault.isSome)
  | "instructions" => some (.count c.instructions)
  | _ => none

/-- The paths that a host is told of. -/
def paths : List String := [
  "a", "f", "b", "c", "d", "e", "h", "l",
  "af", "bc", "de", "hl",
  "a'", "f'", "b'", "c'", "d'", "e'", "h'", "l'",
  "af'", "bc'", "de'", "hl'",
  "ix", "iy", "ixh", "ixl", "iyh", "iyl",
  "sp", "pc", "i", "r",
  "flags.s", "flags.z", "flags.y", "flags.h", "flags.x", "flags.p", "flags.n", "flags.c",
  "iff1", "iff2", "im",
  "halted", "faulted", "instructions"]

end Z80.Cpu
