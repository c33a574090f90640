import Z80.Instruction

/-!
# Walking through memory

The addresses that a block instruction visits: so many steps from a start, up or
down, round the end of memory if need be. All 65536 addresses are visited before
one is visited again.

Main definitions:
- `Direction.walk`: the address so many steps away.
- `Direction.distance`: the number of steps from one address to another.

Main statements: `walk_eq_walk_iff` says when two walks meet, `walk_distance` that
the distance leads to the other address.
-/

namespace Z80.Direction

/-- The address `n` steps from `a`. -/
def walk (dir : Direction) (a : UInt16) (n : Nat) : UInt16 :=
  match dir with
  | up => a + UInt16.ofNat n
  | down => a - UInt16.ofNat n

/-- The number of steps from `a` to `b`, less than 65536. -/
def distance (dir : Direction) (a b : UInt16) : Nat :=
  match dir with
  | up => (b - a).toNat
  | down => (a - b).toNat

variable (dir : Direction) (a b : UInt16) (m n : Nat)

@[simp] theorem walk_zero : dir.walk a 0 = a := by
  cases dir <;> simp [walk]

theorem walk_walk : dir.walk (dir.walk a m) n = dir.walk a (m + n) := by
  cases dir with
  | up => simp only [walk, UInt16.ofNat_add, UInt16.add_assoc]
  | down => simp only [walk, UInt16.ofNat_add]; grind

theorem next_eq_walk : dir.next a = dir.walk a 1 := by
  cases dir <;> rfl

/-- Two walks from one address meet only after whole rounds of memory. -/
theorem walk_eq_walk_iff : dir.walk a m = dir.walk a n ↔ m % 65536 = n % 65536 := by
  have := a.toNat_lt
  rw [← UInt16.toNat_inj]
  cases dir with
  | up => simp only [walk, UInt16.toNat_add, UInt16.toNat_ofNat']; omega
  | down => simp only [walk, UInt16.toNat_sub, UInt16.toNat_ofNat']; omega

theorem distance_lt : dir.distance a b < 65536 := by
  cases dir <;> exact UInt16.toNat_lt _

@[simp] theorem walk_distance : dir.walk a (dir.distance a b) = b := by
  cases dir with
  | up => simp only [walk, distance, UInt16.ofNat_toNat, UInt16.add_comm a, UInt16.sub_add_cancel]
  | down => simp only [walk, distance, UInt16.ofNat_toNat]; grind

end Z80.Direction
