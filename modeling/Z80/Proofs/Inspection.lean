import Z80.Query

/-!
# What inspection shows

A host can look at the same state in several ways: at pairs and at their halves, at the flag byte
and at its bits. All these views are of one register file, and together they show all of it.

Main definitions:
- `pairPaths`, `flagPaths`: the paths whose answers are parts of each other.
- `Shows`: what a processor answers to inspection.
- `registersOf`: the register file put together again from the answers.

Main statement: `shows_all` finds this in every processor.
-/

namespace Z80.Cpu

/-- The paths of words that have a path for each half, with the upper and the lower one. -/
def pairPaths : List (String × String × String) := [
  ("af", "a", "f"), ("bc", "b", "c"), ("de", "d", "e"), ("hl", "h", "l"),
  ("af'", "a'", "f'"), ("bc'", "b'", "c'"), ("de'", "d'", "e'"), ("hl'", "h'", "l'"),
  ("ix", "ixh", "ixl"), ("iy", "iyh", "iyl")]

/-- The paths of the flags, from bit 7 down to bit 0. -/
def flagPaths : Vector String 8 :=
  #v["flags.s", "flags.z", "flags.y", "flags.h", "flags.x", "flags.p", "flags.n", "flags.c"]

variable (c : Cpu)

/-! ## The paths -/

theorem mem_paths_of_query {path : String} {v : Value} (h : c.query path = some v) :
    path ∈ paths := by
  unfold query at h
  split at h
  -- a path that no case of the look-up names has no answer
  all_goals first | decide | cases h

theorem isSome_query {path : String} (h : path ∈ paths) : (c.query path).isSome = true := by
  have hall : paths.all (fun path => (c.query path).isSome) = true := rfl
  exact List.all_eq_true.mp hall path h

theorem isSome_query_iff (path : String) : (c.query path).isSome = true ↔ path ∈ paths := by
  constructor
  · intro h
    obtain ⟨v, hv⟩ := Option.isSome_iff_exists.mp h
    exact c.mem_paths_of_query hv
  · exact c.isSome_query

/-- Processors that answer alike to the listed paths answer alike to all. -/
theorem query_eq_of_paths {c c' : Cpu} (h : ∀ path ∈ paths, c.query path = c'.query path)
    (path : String) : c.query path = c'.query path := by
  by_cases hpath : path ∈ paths
  · exact h path hpath
  · have hnone (c : Cpu) : c.query path = none :=
      Option.not_isSome_iff_eq_none.mp (mt (c.isSome_query_iff path).mp hpath)
    rw [hnone, hnone]

/-! ## Words and their halves -/

/-- The path of a word reads 256 times what the path of its upper half reads, and what the one of
its lower half reads. -/
def Joins (pair upper lower : String) : Prop :=
  ∃ w hi lo, c.query pair = some (.word w) ∧ c.query upper = some (.byte hi) ∧
    c.query lower = some (.byte lo) ∧ w.toNat = 256 * hi.toNat + lo.toNat

theorem joins_of_bytes {pair upper lower : String} {hi lo : UInt8}
    (hpair : c.query pair = some (.word (join hi lo))) (hupper : c.query upper = some (.byte hi))
    (hlower : c.query lower = some (.byte lo)) : c.Joins pair upper lower :=
  ⟨join hi lo, hi, lo, hpair, hupper, hlower, toNat_join hi lo⟩

theorem joins_of_word {pair upper lower : String} {w : UInt16}
    (hpair : c.query pair = some (.word w)) (hupper : c.query upper = some (.byte (high w)))
    (hlower : c.query lower = some (.byte (low w))) : c.Joins pair upper lower := by
  apply c.joins_of_bytes _ hupper hlower
  rw [join_high_low, hpair]

theorem joins_pairPaths : ∀ t ∈ pairPaths, c.Joins t.1 t.2.1 t.2.2 := by
  simp only [pairPaths, List.forall_mem_cons, List.not_mem_nil, false_implies, implies_true,
    and_true]
  exact ⟨c.joins_of_bytes rfl rfl rfl, c.joins_of_bytes rfl rfl rfl, c.joins_of_bytes rfl rfl rfl,
    c.joins_of_bytes rfl rfl rfl, c.joins_of_bytes rfl rfl rfl, c.joins_of_bytes rfl rfl rfl,
    c.joins_of_bytes rfl rfl rfl, c.joins_of_bytes rfl rfl rfl, c.joins_of_word rfl rfl rfl,
    c.joins_of_word rfl rfl rfl⟩

/-! ## Flags -/

/-- A path that reads a flag reads the bit that the flag occupies. -/
theorem query_bit {path : String} (g : Flag)
    (hpath : c.query path = some (.bool (g.isSet c.regs.f))) :
    c.query path = some (.bool (c.regs.f.toNat.testBit g.bit)) := by
  rw [hpath, g.isSet_eq]
  rfl

theorem query_flagPaths (i : Fin 8) :
    c.query flagPaths[i] = some (.bool (c.regs.f.toNat.testBit (7 - i))) :=
  match i with
  | 0 => c.query_bit .s rfl
  | 1 => c.query_bit .z rfl
  | 2 => c.query_bit .y rfl
  | 3 => c.query_bit .h rfl
  | 4 => c.query_bit .x rfl
  | 5 => c.query_bit .p rfl
  | 6 => c.query_bit .n rfl
  | 7 => c.query_bit .c rfl

/-! ## The whole register file -/

/-- The byte of an answer. -/
def byteOf : Option Value → UInt8
  | some (.byte v) => v
  | _ => 0

/-- The word of an answer. -/
def wordOf : Option Value → UInt16
  | some (.word v) => v
  | _ => 0

/-- The truth value of an answer. -/
def truthOf : Option Value → Bool
  | some (.bool b) => b
  | _ => false

/-- The register file that the answers tell of. -/
def registersOf (answer : String → Option Value) : Registers :=
  let byte path := byteOf (answer path)
  let word path := wordOf (answer path)
  let truth path := truthOf (answer path)
  { a := byte "a", f := byte "f", b := byte "b", c := byte "c"
    d := byte "d", e := byte "e", h := byte "h", l := byte "l"
    alt := {
      a := byte "a'", f := byte "f'", b := byte "b'", c := byte "c'"
      d := byte "d'", e := byte "e'", h := byte "h'", l := byte "l'" }
    ix := word "ix", iy := word "iy", sp := word "sp", pc := word "pc"
    i := byte "i", r := byte "r"
    iff1 := truth "iff1", iff2 := truth "iff2", im := byte "im", halted := truth "halted" }

theorem registersOf_query : registersOf (fun path => c.query path) = c.regs := rfl

/-! ## All of it -/

/-- What a processor answers to inspection. -/
structure Shows : Prop where
  /-- Exactly the listed paths have an answer. -/
  listed : ∀ path, (c.query path).isSome = true ↔ path ∈ paths
  nodup : paths.Nodup
  pairs : ∀ t ∈ pairPaths, c.Joins t.1 t.2.1 t.2.2
  /-- The flags are the bits of the flag byte. -/
  flags : ∃ f, c.query "f" = some (.byte f) ∧
    ∀ i : Fin 8, c.query flagPaths[i] = some (.bool (f.toNat.testBit (7 - i)))
  faulted : c.query "faulted" = some (.bool c.fault.isSome)
  halted : c.query "halted" = some (.bool c.regs.halted)
  instructions : c.query "instructions" = some (.count c.instructions)
  /-- No other register file gives the same answers. -/
  determined : ∀ c' : Cpu, (∀ path ∈ paths, c'.query path = c.query path) → c'.regs = c.regs

/-- Inspection shows every processor as it is. -/
theorem shows_all : c.Shows where
  listed := c.isSome_query_iff
  nodup := by decide
  pairs := c.joins_pairPaths
  flags := ⟨c.regs.f, rfl, c.query_flagPaths⟩
  faulted := rfl
  halted := rfl
  instructions := rfl
  determined c' h := by
    have hanswers : (fun path => c'.query path) = fun path => c.query path :=
      funext (query_eq_of_paths h)
    rw [← registersOf_query, hanswers, registersOf_query]

end Z80.Cpu
