import Z80.Bus

/-!
# Scripted reads

A bus that gives prepared answers to the next reads of chosen addresses before
it asks the bus behind it. With it the same address can answer differently each
time, as a device in the memory space does.
-/

namespace Z80

/-- The bus `inner` behind a list of answers, each for one read of its address. -/
structure Scripted (β : Type) where
  inner : β
  script : List (UInt16 × UInt8) := []

namespace Scripted

variable {β : Type}

/-- Adds answers for the next reads of the address `a`, after those it has. -/
def prepare (a : UInt16) (vs : List UInt8) : Scripted β → Scripted β
  | ⟨inner, script⟩ => ⟨inner, script ++ vs.map fun v => (a, v)⟩

/-- Reads the first answer for the address, or the bus behind if there is none. -/
def read [Bus β] (a : UInt16) : Scripted β → UInt8 × Scripted β
  | ⟨inner, script⟩ =>
    match script.find? (·.1 == a) with
    | some (_, v) => (v, ⟨inner, script.eraseP (·.1 == a)⟩)
    | none =>
      let (v, inner) := Bus.read a inner
      (v, ⟨inner, script⟩)

end Scripted

instance {β : Type} [Bus β] : Bus (Scripted β) where
  read := Scripted.read
  write a v := fun ⟨inner, script⟩ => ⟨Bus.write a v inner, script⟩
  input a := fun ⟨inner, script⟩ =>
    let (v, inner) := Bus.input a inner
    (v, ⟨inner, script⟩)
  output a v := fun ⟨inner, script⟩ => ⟨Bus.output a v inner, script⟩
  fault e := fun ⟨inner, script⟩ => ⟨Bus.fault e inner, script⟩

end Z80
