/-!
# Memory

64K of bytes without holes. Addresses wrap, so a block of any length can be
loaded anywhere.

Main definitions:
- `Memory`, `Memory.zero`: the cells.
- `Memory.get`, `Memory.set`: one cell.
- `Memory.load`: a block of bytes.

Main statement: `get_set` gives the cells after a write, one by one.
-/

namespace Z80

/-- A byte for each of the 65536 addresses. -/
structure Memory where
  cells : Vector UInt8 65536

namespace Memory

/-- All cells zero. -/
def zero : Memory :=
  ⟨Vector.replicate 65536 0⟩

/-- The byte at an address. -/
def get (m : Memory) (a : UInt16) : UInt8 :=
  have := a.toNat_lt
  m.cells[a.toNat]

/-- Replaces the byte at an address. -/
def set (m : Memory) (a : UInt16) (v : UInt8) : Memory :=
  ⟨m.cells.set a.toNat v a.toNat_lt⟩

/-- Stores the bytes one after the other from the address `a` on; past the last
address the first one follows. -/
def load (m : Memory) (a : UInt16) : List UInt8 → Memory
  | [] => m
  | v :: vs => (m.set a v).load (a + 1) vs

/-! ## Cells after a write -/

@[simp] theorem get_zero (a : UInt16) : zero.get a = 0 := by
  simp [get, zero]

theorem get_set (m : Memory) (a b : UInt16) (v : UInt8) :
    (m.set a v).get b = if a = b then v else m.get b := by
  simp only [get, set, Vector.getElem_set, UInt16.toNat_inj]

@[simp] theorem get_set_self (m : Memory) (a : UInt16) (v : UInt8) : (m.set a v).get a = v := by
  rw [get_set, if_pos rfl]

/-- Memories with equal cells are equal. -/
theorem ext_get {m n : Memory} (h : ∀ a, m.get a = n.get a) : m = n := by
  obtain ⟨cells⟩ := m
  obtain ⟨cells'⟩ := n
  congr 1
  apply Vector.ext
  intro i hi
  have := h (UInt16.ofNat i)
  simpa [get, Nat.mod_eq_of_lt hi] using this

end Memory

end Z80
