import Z80.Event

/-!
# Opcode profiles

An observer that counts instructions by their first byte.

Main definitions:
- `Profile`: the counters. A table read from outside may have any length; bytes
  beyond its end count in the total alone.
- `Profile.hit`, `Profile.count`, `Profile.clear`.
- `Profile.hottest`: the ranking.

Main statement: `count_hit` gives the counters after a hit, one by one.
-/

namespace Z80

/-- How often each byte has started an instruction, and how many instructions
there were. -/
structure Profile where
  counts : Array UInt64 := Array.replicate 256 0
  total : UInt64 := 0
  deriving DecidableEq

namespace Profile

/-- How often the byte `op` has started an instruction. -/
def count (p : Profile) (op : UInt8) : UInt64 :=
  p.counts.getD op.toNat 0

/-- Counts an instruction that starts with the byte `op`. -/
def hit (op : UInt8) : Profile → Profile
  | ⟨counts, total⟩ => ⟨counts.modify op.toNat (· + 1), total + 1⟩

@[simp] theorem size_hit (p : Profile) (op : UInt8) : (p.hit op).counts.size = p.counts.size :=
  Array.size_modify

@[simp] theorem total_hit (p : Profile) (op : UInt8) : (p.hit op).total = p.total + 1 := rfl

/-- If the table has room for the byte, its counter goes up, and no other. -/
theorem count_hit (p : Profile) {op : UInt8} (hop : op.toNat < p.counts.size) (op' : UInt8) :
    (p.hit op).count op' = if op = op' then p.count op' + 1 else p.count op' := by
  rw [count, count, hit, Array.getD_eq_getD_getElem?, Array.getD_eq_getD_getElem?,
    Array.getElem?_modify]
  by_cases hne : op = op'
  · subst hne
    rw [if_pos rfl, if_pos rfl, Array.getElem?_eq_getElem hop]
    rfl
  · rw [if_neg hne, if_neg fun heq => hne (UInt8.toNat_inj.mp heq)]

/-- Sets all counters to zero. -/
def clear (p : Profile) : Profile :=
  ⟨p.counts.map fun _ => 0, 0⟩

/-- The ranking: higher counts come first, and of equal counts the lower opcode. -/
def ranks (a b : UInt8 × UInt64) : Bool :=
  b.2 < a.2 || (a.2 == b.2 && a.1 ≤ b.1)

/-- The counters that are not zero, each with its place in the table as a byte. -/
def seen (p : Profile) : List (UInt8 × UInt64) :=
  (p.counts.toList.zipIdx.filter fun (n, _) => n != 0).map fun (n, i) => (UInt8.ofNat i, n)

/-- The first `n` of the ranking. -/
def hottest (p : Profile) (n : Nat) : List (UInt8 × UInt64) :=
  (p.seen.mergeSort ranks).take n

end Profile

instance : Observer Profile where
  notify
    | .instruction _ op _, p => p.hit op
    | _, p => p

end Z80
