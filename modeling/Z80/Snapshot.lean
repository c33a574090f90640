import Z80.Machine
import Z80.Profile
import Z80.Value

/-!
# Snapshots

State that leaves the library and comes back is plain data: truth values,
numbers, text, lists, and objects with named members. A record is written as an
object with its fields in order. It is read from an object that has a member for
each field, others being ignored, or from a list of the fields in order.

Main definitions:
- `Datum`: plain data.
- `Snapshot`: types with a plain form, `Snapshot.write` and `Snapshot.read?`.
- `Field`, `writeRecord`, `readRecord?`: records by the table of their fields.
-/

namespace Z80

/-- Plain data. Numbers that are not whole are all alike: nothing here reads one. -/
inductive Datum where
  | null
  | bool (b : Bool)
  | int (n : Int)
  | fraction
  | text (s : String)
  | list (xs : List Datum)
  | object (members : List (String × Datum))
  deriving Inhabited

/-- A type whose values can be written as plain data and read back. -/
class Snapshot (α : Type) where
  write : α → Datum
  read? : Datum → Option α

/-! ## Numbers, truth values and lists -/

/-- A whole number below a bound. -/
def Datum.nat? (bound : Nat) : Datum → Option Nat
  | .int n => if 0 ≤ n ∧ n < bound then some n.toNat else none
  | _ => none

instance : Snapshot Bool where
  write := .bool
  read?
    | .bool b => some b
    | _ => none

instance : Snapshot UInt8 where
  write v := .int v.toNat
  read? d := (d.nat? UInt8.size).map UInt8.ofNat

instance : Snapshot UInt16 where
  write v := .int v.toNat
  read? d := (d.nat? UInt16.size).map UInt16.ofNat

instance : Snapshot UInt64 where
  write v := .int v.toNat
  read? d := (d.nat? UInt64.size).map UInt64.ofNat

instance {α : Type} [Snapshot α] : Snapshot (List α) where
  write xs := .list (xs.map Snapshot.write)
  read?
    | .list xs => xs.mapM Snapshot.read?
    | _ => none

/-! ## Records -/

/-- A field of the record `σ`: its name, how to write it, and how to read it into
a record. -/
structure Field (σ : Type) where
  name : String
  write : σ → Datum
  read? : Datum → σ → Option σ

/-- A field from its accessors. -/
def Field.of {σ α : Type} [Snapshot α] (name : String) (get : σ → α) (set : σ → α → σ) : Field σ where
  name
  write r := Snapshot.write (get r)
  read? d r := (Snapshot.read? d).map (set r)

/-- A record as an object. -/
def writeRecord {σ : Type} (fields : List (Field σ)) (r : σ) : Datum :=
  .object (fields.map fun f => (f.name, f.write r))

/-- The data of the fields, in order. -/
def Datum.fields? {σ : Type} (fields : List (Field σ)) : Datum → Option (List Datum)
  | .list xs => if xs.length = fields.length then some xs else none
  | .object members => fields.mapM fun f => members.lookup f.name
  | _ => none

/-- A record whose fields, all of them, are read over those of `start`. -/
def readRecord? {σ : Type} (fields : List (Field σ)) (start : σ) (d : Datum) : Option σ := do
  (fields.zip (← d.fields? fields)).foldlM (fun r (f, x) => f.read? x r) start

/-! ## The records of a machine -/

/-- The fields of a register file. Those of the alternate bank end in `_alt`. -/
def Registers.fields : List (Field Registers) := [
  .of "a" (·.a) fun r v => { r with a := v },
  .of "f" (·.f) fun r v => { r with f := v },
  .of "b" (·.b) fun r v => { r with b := v },
  .of "c" (·.c) fun r v => { r with c := v },
  .of "d" (·.d) fun r v => { r with d := v },
  .of "e" (·.e) fun r v => { r with e := v },
  .of "h" (·.h) fun r v => { r with h := v },
  .of "l" (·.l) fun r v => { r with l := v },
  .of "a_alt" (·.alt.a) fun r v => { r with alt.a := v },
  .of "f_alt" (·.alt.f) fun r v => { r with alt.f := v },
  .of "b_alt" (·.alt.b) fun r v => { r with alt.b := v },
  .of "c_alt" (·.alt.c) fun r v => { r with alt.c := v },
  .of "d_alt" (·.alt.d) fun r v => { r with alt.d := v },
  .of "e_alt" (·.alt.e) fun r v => { r with alt.e := v },
  .of "h_alt" (·.alt.h) fun r v => { r with alt.h := v },
  .of "l_alt" (·.alt.l) fun r v => { r with alt.l := v },
  .of "ix" (·.ix) fun r v => { r with ix := v },
  .of "iy" (·.iy) fun r v => { r with iy := v },
  .of "sp" (·.sp) fun r v => { r with sp := v },
  .of "pc" (·.pc) fun r v => { r with pc := v },
  .of "i" (·.i) fun r v => { r with i := v },
  .of "r" (·.r) fun r v => { r with r := v },
  .of "iff1" (·.iff1) fun r v => { r with iff1 := v },
  .of "iff2" (·.iff2) fun r v => { r with iff2 := v },
  .of "im" (·.im) fun r v => { r with im := v },
  .of "halted" (·.halted) fun r v => { r with halted := v }]

instance : Snapshot Registers where
  write := writeRecord Registers.fields
  read? := readRecord? Registers.fields {}

/-- The fields of a configuration. -/
def Config.fields : List (Field Config) := [
  .of "increment_refresh" (·.incrementRefresh) fun c b => { c with incrementRefresh := b }]

instance : Snapshot Config where
  write := writeRecord Config.fields
  read? := readRecord? Config.fields {}

/-- The fields of the report of an invalid opcode. -/
def InvalidOpcode.fields : List (Field InvalidOpcode) := [
  .of "pc" (·.pc) fun e v => { e with pc := v },
  .of "opcode" (·.opcode) fun e vs => { e with opcode := vs }]

instance : Snapshot InvalidOpcode where
  write := writeRecord InvalidOpcode.fields
  read? := readRecord? InvalidOpcode.fields ⟨0, []⟩

/-- The fields of a profile. -/
def Profile.fields : List (Field Profile) := [
  .of "counts" (·.counts.toList) fun p vs => { p with counts := vs.toArray },
  .of "total" (·.total) fun p n => { p with total := n }]

instance : Snapshot Profile where
  write := writeRecord Profile.fields
  read? := readRecord? Profile.fields {}

/-- A value is an object whose one member is named for the width. -/
instance : Snapshot Value where
  write
    | .bool b => .object [("Bool", Snapshot.write b)]
    | .byte v => .object [("U8", Snapshot.write v)]
    | .word v => .object [("U16", Snapshot.write v)]
    | .count n => .object [("U64", Snapshot.write n)]
  read?
    | .object [("Bool", d)] => (Snapshot.read? d).map .bool
    | .object [("U8", d)] => (Snapshot.read? d).map .byte
    | .object [("U16", d)] => (Snapshot.read? d).map .word
    | .object [("U64", d)] => (Snapshot.read? d).map .count
    | _ => none

end Z80
