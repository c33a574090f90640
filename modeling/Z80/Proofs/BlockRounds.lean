import Mathlib.Data.Nat.Find
import Mathlib.Logic.Function.Iterate
import Z80.Block
import Z80.Proofs.Execution

/-!
# Rounds of block instructions

The repeating forms of the block instructions loop inside a single instruction.
The loop stops at the first round after which its test fails, so it is that many
rounds in a row. How many a counter allows is known beforehand, whatever the bus
answers: only a search can stop before it has run out.

Main definitions:
- `BlockKind.opcode`: the byte behind ED.
- `Registers.bcCount`, `bCount`, `BlockKind.rounds`: the rounds that a counter stands for.
- `Exec.Repeats`: the loop makes so many rounds, and then its test fails.

Main statements: `blockRounds_eq_iterate`, and `exists_repeats` with `repeats_rounds`: the
loop of every block instruction comes to an end, and all but searches use up the counter.
-/

namespace Z80

/-! ## Opcodes -/

namespace BlockKind

/-- The opcode of a block instruction behind ED. -/
def opcode (kind : BlockKind) (dir : Direction) (repeats : Bool) : UInt8 :=
  let family : UInt8 :=
    match kind with
    | load => 0xA0
    | compare => 0xA1
    | input => 0xA2
    | output => 0xA3
  family + (if dir = .down then 0x08 else 0) + (if repeats then 0x10 else 0)

theorem ed_opcode (kind : BlockKind) (dir : Direction) (repeats : Bool) :
    Page.ed (kind.opcode dir repeats) = some (.done (.block kind dir repeats)) := by
  cases kind <;> cases dir <;> cases repeats <;> rfl

end BlockKind

/-! ## The counter -/

namespace Registers

/-- The number of rounds that BC stands for: its value, or 65536 for zero. -/
def bcCount (r : Registers) : Nat :=
  if r.bc = 0 then 65536 else r.bc.toNat

theorem bcCount_pos (r : Registers) : 0 < r.bcCount := by
  unfold bcCount
  split
  · exact Nat.zero_lt_succ _
  · next h => exact Nat.pos_of_ne_zero fun hzero => h (UInt16.toNat_inj.mp hzero)

theorem bcCount_le (r : Registers) : r.bcCount ≤ 65536 := by
  unfold bcCount
  split
  · exact Nat.le_refl _
  · exact Nat.le_of_lt r.bc.toNat_lt

/-- The counter has run out after so many rounds, and not before. -/
theorem sub_ofNat_eq_zero_iff {r : Registers} {j : Nat} (hpos : 0 < j) (hle : j ≤ r.bcCount) :
    r.bc - UInt16.ofNat j = 0 ↔ j = r.bcCount := by
  have hbc := r.bc.toNat_lt
  rw [← UInt16.toNat_inj, UInt16.toNat_sub, UInt16.toNat_ofNat']
  unfold bcCount at hle ⊢
  split at hle
  · next h =>
    rw [if_pos h, h]
    simp only [UInt16.toNat_zero]
    omega
  · next h =>
    rw [if_neg h]
    simp only [UInt16.toNat_zero]
    omega

theorem sub_bcCount (r : Registers) : r.bc - UInt16.ofNat r.bcCount = 0 :=
  (sub_ofNat_eq_zero_iff r.bcCount_pos (Nat.le_refl _)).mpr rfl

/-- To count B down once more. -/
theorem sub_ofNat_succ (b : UInt8) (n : Nat) :
    b - UInt8.ofNat n - 1 = b - UInt8.ofNat (n + 1) := by
  rw [UInt8.ofNat_add]
  grind

/-- The number of rounds that B stands for: its value, or 256 for zero. -/
def bCount (r : Registers) : Nat :=
  if r.b = 0 then 256 else r.b.toNat

theorem bCount_pos (r : Registers) : 0 < r.bCount := by
  unfold bCount
  split
  · exact Nat.zero_lt_succ _
  · next h => exact Nat.pos_of_ne_zero fun hzero => h (UInt8.toNat_inj.mp hzero)

theorem bCount_le (r : Registers) : r.bCount ≤ 256 := by
  unfold bCount
  split
  · exact Nat.le_refl _
  · exact Nat.le_of_lt r.b.toNat_lt

theorem b_sub_ofNat_eq_zero_iff {r : Registers} {j : Nat} (hpos : 0 < j) (hle : j ≤ r.bCount) :
    r.b - UInt8.ofNat j = 0 ↔ j = r.bCount := by
  have hb := r.b.toNat_lt
  rw [← UInt8.toNat_inj, UInt8.toNat_sub, UInt8.toNat_ofNat']
  unfold bCount at hle ⊢
  split at hle
  · next h =>
    rw [if_pos h, h]
    simp only [UInt8.toNat_zero]
    omega
  · next h =>
    rw [if_neg h]
    simp only [UInt8.toNat_zero]
    omega

theorem sub_bCount (r : Registers) : r.b - UInt8.ofNat r.bCount = 0 :=
  (b_sub_ofNat_eq_zero_iff r.bCount_pos (Nat.le_refl _)).mpr rfl

end Registers

namespace BlockKind

/-- The rounds that the counter of a block instruction allows: copies and searches count in BC,
ports in B. -/
def rounds (kind : BlockKind) (r : Registers) : Nat :=
  match kind with
  | load | compare => r.bcCount
  | input | output => r.bCount

/-- Has the counter run out? -/
def spent (kind : BlockKind) (r : Registers) : Bool :=
  match kind with
  | load | compare => r.bc == 0
  | input | output => r.b == 0

theorem rounds_pos (kind : BlockKind) (r : Registers) : 0 < kind.rounds r := by
  cases kind with
  | load | compare => exact r.bcCount_pos
  | input | output => exact r.bCount_pos

theorem rounds_le (kind : BlockKind) (r : Registers) : kind.rounds r ≤ 65536 := by
  have hb := r.bCount_le
  cases kind with
  | load | compare => exact r.bcCount_le
  | input | output => exact Nat.le_trans hb (by decide)

/-- Only a search has another reason to stop. -/
theorem continues_of_ne_compare {kind : BlockKind} (hkind : kind ≠ .compare) (r : Registers) :
    kind.continues r = !kind.spent r := by
  cases kind with
  | compare => exact absurd rfl hkind
  | _ => rfl

theorem continues_compare (r : Registers) :
    compare.continues r = (!compare.spent r && !Flag.z.isSet r.f) := rfl

theorem continues_of_spent {kind : BlockKind} {r : Registers} (h : kind.spent r = true) :
    kind.continues r = false := by
  by_cases hkind : kind = .compare
  · subst hkind
    rw [continues_compare, h]
    rfl
  · rw [continues_of_ne_compare hkind, h]
    rfl

end BlockKind

/-! ## The loop -/

namespace Exec

variable {β ω : Type} [Bus β] [Observer ω]

/-- The machine after one round of a block instruction. -/
def afterRound (kind : BlockKind) (dir : Direction) (m : Machine β ω) : Machine β ω :=
  (blockRound kind dir m).2

theorem blockRounds_succ (kind : BlockKind) (dir : Direction) (n : Nat) (m : Machine β ω) :
    blockRounds kind dir (n + 1) m =
      if kind.continues (afterRound kind dir m).cpu.regs then
        blockRounds kind dir n (afterRound kind dir m)
      else ((), afterRound kind dir m) := by
  rw [blockRounds, bind_apply, bind_apply, regs_apply]
  by_cases hgo : kind.continues (afterRound kind dir m).cpu.regs = true
  · rw [if_pos hgo]
    exact congrFun (if_pos hgo) _
  · rw [if_neg hgo]
    exact congrFun (if_neg hgo) _

/-- If the test of the loop holds after each of the first rounds and fails after the
`n`-th, then the loop amounts to `n` rounds. -/
theorem blockRounds_eq_iterate {kind : BlockKind} {dir : Direction} {n limit : Nat}
    {m : Machine β ω} (hpos : 0 < n) (hlimit : n ≤ limit)
    (hgo : ∀ j, 0 < j → j < n → kind.continues ((afterRound kind dir)^[j] m).cpu.regs = true)
    (hstop : kind.continues ((afterRound kind dir)^[n] m).cpu.regs = false) :
    blockRounds kind dir limit m = ((), (afterRound kind dir)^[n] m) := by
  induction n generalizing limit m with
  | zero => exact absurd hpos (Nat.lt_irrefl 0)
  | succ n ih =>
    cases limit with
    | zero => exact absurd hlimit (Nat.not_succ_le_zero n)
    | succ limit =>
      rw [blockRounds_succ, Function.iterate_succ_apply]
      cases n with
      | zero =>
        -- the test fails at once
        rw [if_neg (by simpa using hstop)]
        rfl
      | succ n =>
        have hfirst : kind.continues (afterRound kind dir m).cpu.regs = true :=
          hgo 1 Nat.one_pos (by omega)
        rw [if_pos hfirst]
        refine ih (Nat.succ_pos n) (Nat.le_of_succ_le_succ hlimit) (fun j hj hjn => ?_) hstop
        exact hgo (j + 1) (Nat.succ_pos j) (Nat.succ_lt_succ hjn)

/-- The loop of a block instruction makes so many rounds: its test holds after each of the
earlier ones, and fails after the last. -/
structure Repeats (kind : BlockKind) (dir : Direction) (m : Machine β ω) (n : Nat) : Prop where
  pos : 0 < n
  goes : ∀ j, 0 < j → j < n → kind.continues ((afterRound kind dir)^[j] m).cpu.regs = true
  stops : kind.continues ((afterRound kind dir)^[n] m).cpu.regs = false

/-- A loop of no more than 65536 rounds is not cut short. -/
theorem Repeats.perform {kind : BlockKind} {dir : Direction} {m : Machine β ω} {n : Nat}
    (h : Repeats kind dir m n) (hle : n ≤ 65536) :
    perform (.block kind dir true) m = ((), (afterRound kind dir)^[n] m) :=
  blockRounds_eq_iterate h.pos hle h.goes h.stops

/-- The rounds that are left after the first one. -/
theorem Repeats.tail {kind : BlockKind} {dir : Direction} {m : Machine β ω} {n : Nat}
    (h : Repeats kind dir m (n + 1)) (hpos : 0 < n) :
    Repeats kind dir (afterRound kind dir m) n where
  pos := hpos
  goes j _ hlt := h.goes (j + 1) (Nat.succ_pos j) (Nat.succ_lt_succ hlt)
  stops := h.stops

/-! ## How often it goes round -/

section Counters

variable (dir : Direction) (m : Machine β ω) (n : Nat)

theorem bc_afterRound {kind : BlockKind} (hkind : kind = .load ∨ kind = .compare) :
    (afterRound kind dir m).cpu.regs.bc = m.cpu.regs.bc - 1 := by
  rcases hkind with rfl | rfl <;> exact join_high_low _

theorem b_afterRound {kind : BlockKind} (hkind : kind = .input ∨ kind = .output) :
    (afterRound kind dir m).cpu.regs.b = m.cpu.regs.b - 1 := by
  rcases hkind with rfl | rfl <;> rfl

theorem bc_iterate_afterRound {kind : BlockKind} (hkind : kind = .load ∨ kind = .compare) :
    ((afterRound kind dir)^[n] m).cpu.regs.bc = m.cpu.regs.bc - UInt16.ofNat n := by
  induction n with
  | zero => exact (UInt16.sub_zero _).symm
  | succ n ih =>
    rw [Function.iterate_succ_apply', bc_afterRound dir _ hkind, ih, UInt16.ofNat_add]
    grind

theorem b_iterate_afterRound {kind : BlockKind} (hkind : kind = .input ∨ kind = .output) :
    ((afterRound kind dir)^[n] m).cpu.regs.b = m.cpu.regs.b - UInt8.ofNat n := by
  induction n with
  | zero => exact (UInt8.sub_zero _).symm
  | succ n ih =>
    rw [Function.iterate_succ_apply', b_afterRound dir _ hkind, ih, Registers.sub_ofNat_succ]

end Counters

variable (kind : BlockKind) (dir : Direction) (m : Machine β ω)

/-- No answer of the bus keeps the counter from running out in time. -/
theorem spent_iterate_afterRound {j : Nat} (hpos : 0 < j) (hle : j ≤ kind.rounds m.cpu.regs) :
    kind.spent ((afterRound kind dir)^[j] m).cpu.regs = true ↔ j = kind.rounds m.cpu.regs := by
  cases kind with
  | load =>
    rw [BlockKind.spent, beq_iff_eq, bc_iterate_afterRound dir m j (.inl rfl)]
    exact Registers.sub_ofNat_eq_zero_iff hpos hle
  | compare =>
    rw [BlockKind.spent, beq_iff_eq, bc_iterate_afterRound dir m j (.inr rfl)]
    exact Registers.sub_ofNat_eq_zero_iff hpos hle
  | input =>
    rw [BlockKind.spent, beq_iff_eq, b_iterate_afterRound dir m j (.inl rfl)]
    exact Registers.b_sub_ofNat_eq_zero_iff hpos hle
  | output =>
    rw [BlockKind.spent, beq_iff_eq, b_iterate_afterRound dir m j (.inr rfl)]
    exact Registers.b_sub_ofNat_eq_zero_iff hpos hle

/-- The loop of a block instruction comes to an end on any bus. -/
theorem exists_repeats : ∃ n ≤ kind.rounds m.cpu.regs, Repeats kind dir m n := by
  let Stops (n : Nat) : Prop :=
    0 < n ∧ kind.continues ((afterRound kind dir)^[n] m).cpu.regs = false
  have hspent : Stops (kind.rounds m.cpu.regs) :=
    ⟨kind.rounds_pos _, BlockKind.continues_of_spent
      ((spent_iterate_afterRound kind dir m (kind.rounds_pos _) (Nat.le_refl _)).mpr rfl)⟩
  have hexists : ∃ n, Stops n := ⟨_, hspent⟩
  refine ⟨Nat.find hexists, Nat.find_min' hexists hspent, ?_⟩
  obtain ⟨hpos, hstops⟩ := Nat.find_spec hexists
  refine ⟨hpos, fun j hj hlt => ?_, hstops⟩
  by_contra hgo
  exact Nat.find_min hexists hlt ⟨hj, Bool.not_eq_true _ ▸ hgo⟩

variable {kind} in
/-- Unless it searches, the counter alone says when. -/
theorem repeats_rounds (hkind : kind ≠ .compare) :
    Repeats kind dir m (kind.rounds m.cpu.regs) where
  pos := kind.rounds_pos _
  goes j hpos hlt := by
    have hspent := spent_iterate_afterRound kind dir m hpos (Nat.le_of_lt hlt)
    rw [BlockKind.continues_of_ne_compare hkind, Bool.not_eq_true', ← Bool.not_eq_true, hspent]
    exact Nat.ne_of_lt hlt
  stops := BlockKind.continues_of_spent
    ((spent_iterate_afterRound kind dir m (kind.rounds_pos _) (Nat.le_refl _)).mpr rfl)

end Exec

end Z80
