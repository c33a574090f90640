import Z80.Proofs.BlockRounds
import Z80.Proofs.Fetching
import Z80.Proofs.Walk

/-!
# Block copies

LDIR and LDDR copy byte by byte, so a copy onto a region that it has yet to read
reads what it has written. With `k` steps from the source to the destination, the
first `k` bytes of the source are then repeated over the whole destination, for
every overlap, also round the end of memory and over the instruction itself.

Main definitions:
- `Memory.filled`: memory after so many bytes have been written to it in a row.
- `Memory.copied`: memory after so many rounds of a copy.

Main statement: `runOne_blockCopy`.
-/

namespace Z80

/-! ## Memory -/

namespace Memory

/-- Memory after `n` bytes have been written to one cell after the other, from `dst` on. -/
def filled (mem : Memory) (dir : Direction) (dst : UInt16) (byte : Nat → UInt8) : Nat → Memory
  | 0 => mem
  | n + 1 => (mem.filled dir dst byte n).set (dir.walk dst n) (byte n)

/-- Memory after `n` rounds of a copy from `src` to `dst`. -/
def copied (mem : Memory) (dir : Direction) (src dst : UInt16) : Nat → Memory
  | 0 => mem
  | n + 1 =>
    let now := mem.copied dir src dst n
    now.set (dir.walk dst n) (now.get (dir.walk src n))

theorem set_get_self (mem : Memory) (a : UInt16) : mem.set a (mem.get a) = mem := by
  apply ext_get
  intro b
  rw [get_set]
  split
  · next h => rw [h]
  · rfl

section Filled

variable (mem : Memory) (dir : Direction) {dst : UInt16} {byte : Nat → UInt8} {n : Nat}

theorem get_filled_of_ne {a : UInt16} (h : ∀ i < n, a ≠ dir.walk dst i) :
    (mem.filled dir dst byte n).get a = mem.get a := by
  induction n with
  | zero => rfl
  | succ n ih =>
    rw [filled, get_set, if_neg (h n (Nat.lt_succ_self n)).symm]
    exact ih fun i hi => h i (Nat.lt_succ_of_lt hi)

/-- Within one round of memory no cell is written twice. -/
theorem get_filled (hn : n ≤ 65536) {i : Nat} (hi : i < n) :
    (mem.filled dir dst byte n).get (dir.walk dst i) = byte i := by
  induction n with
  | zero => exact absurd hi (Nat.not_lt_zero i)
  | succ n ih =>
    rw [filled, get_set]
    by_cases hlast : i = n
    · subst hlast
      rw [if_pos rfl]
    · have hne : dir.walk dst n ≠ dir.walk dst i := by
        rw [Ne, dir.walk_eq_walk_iff]
        omega
      rw [if_neg hne]
      exact ih (Nat.le_of_succ_le hn) (by omega)

end Filled

variable (mem : Memory) (dir : Direction) {src dst : UInt16} {n : Nat}

/-- A copy writes the bytes that its rounds read. -/
theorem copied_eq_filled (src dst : UInt16) (n : Nat) :
    mem.copied dir src dst n =
      mem.filled dir dst (fun i => (mem.copied dir src dst i).get (dir.walk src i)) n := by
  induction n with
  | zero => rfl
  | succ n ih => rw [copied, filled, ← ih]

theorem get_copied_of_ne {a : UInt16} (h : ∀ i < n, a ≠ dir.walk dst i) :
    (mem.copied dir src dst n).get a = mem.get a := by
  rw [copied_eq_filled]
  exact get_filled_of_ne mem dir h

/-- The `n`-th round reads a byte that is still the original one, or one that
an earlier round has put there, a whole distance back. -/
theorem get_copied_next (hn : n < 65536) (hk : 0 < dir.distance src dst)
    (ih : ∀ i < n, (mem.copied dir src dst n).get (dir.walk dst i) =
      mem.get (dir.walk src (i % dir.distance src dst))) :
    (mem.copied dir src dst n).get (dir.walk src n) =
      mem.get (dir.walk src (n % dir.distance src dst)) := by
  have hlt := dir.distance_lt src dst
  have hdst : ∀ i, dir.walk dst i = dir.walk src (dir.distance src dst + i) := by
    intro i
    rw [← dir.walk_walk, dir.walk_distance]
  by_cases h : n < dir.distance src dst
  · -- the destination has not come round to this cell of the source
    rw [Nat.mod_eq_of_lt h]
    apply get_copied_of_ne
    intro i hi
    rw [hdst, Ne, dir.walk_eq_walk_iff]
    omega
  · -- this cell of the source is a cell of the destination that an earlier round has written
    have hback : dir.walk src n = dir.walk dst (n - dir.distance src dst) := by
      rw [hdst, Nat.add_sub_cancel' (Nat.le_of_not_lt h)]
    rw [hback, ih _ (by omega), Nat.mod_eq_sub_mod (Nat.le_of_not_lt h)]

/-- The first bytes of the source, as many as it is away, are repeated over the
destination. -/
theorem get_copied (hn : n ≤ 65536) (hk : 0 < dir.distance src dst) {i : Nat} (hi : i < n) :
    (mem.copied dir src dst n).get (dir.walk dst i) =
      mem.get (dir.walk src (i % dir.distance src dst)) := by
  induction n using Nat.strong_induction_on generalizing i with
  | _ n ih =>
    have hlt : i < 65536 := Nat.lt_of_lt_of_le hi hn
    rw [copied_eq_filled, get_filled mem dir hn hi]
    exact get_copied_next mem dir hlt hk fun j hj => ih i hi (Nat.le_of_lt hlt) hj

/-- A copy of a region onto itself does nothing. -/
theorem copied_self (a : UInt16) : mem.copied dir a a n = mem := by
  induction n with
  | zero => rfl
  | succ n ih => rw [copied, ih, set_get_self]

end Memory

/-! ## Registers -/

/-- The flags after a copy: H and N are cleared, P tells whether more is to come. -/
def copyFlags (more : Bool) (f : UInt8) : UInt8 :=
  f |> Flag.h.put false |> Flag.n.put false |> Flag.p.put more

theorem copyFlags_copyFlags (b b' : Bool) (f : UInt8) :
    copyFlags b (copyFlags b' f) = copyFlags b f := by
  apply Flag.ext
  intro g
  simp only [copyFlags, Flag.isSet_put]
  cases g <;> rfl

namespace Registers

/-- The registers after `n` rounds of a copy, one at least. -/
def afterCopies (r : Registers) (dir : Direction) (n : Nat) : Registers :=
  let bc := r.bc - UInt16.ofNat n
  { ((r.setHL (dir.walk r.hl n)).setDE (dir.walk r.de n)).setBC bc with
    f := copyFlags (bc != 0) r.f }

variable (r : Registers) (dir : Direction) (n : Nat)

theorem hl_afterCopies : (r.afterCopies dir n).hl = dir.walk r.hl n :=
  join_high_low _

theorem de_afterCopies : (r.afterCopies dir n).de = dir.walk r.de n :=
  join_high_low _

theorem bc_afterCopies : (r.afterCopies dir n).bc = r.bc - UInt16.ofNat n :=
  join_high_low _

theorem f_afterCopies :
    (r.afterCopies dir n).f = copyFlags (r.bc - UInt16.ofNat n != 0) r.f := rfl

theorem afterCopies_one : r.afterCopies dir 1 = r.afterCopy dir := by
  have hbc : (r.setBC (r.bc - 1)).bc = r.bc - 1 := join_high_low _
  show _ = { ((r.setHL (dir.next r.hl)).setDE (dir.next r.de)).setBC (r.bc - 1) with
    f := copyFlags ((r.setBC (r.bc - 1)).bc != 0) r.f }
  rw [hbc, dir.next_eq_walk, dir.next_eq_walk]
  rfl

theorem afterCopy_afterCopies :
    (r.afterCopies dir n).afterCopy dir = r.afterCopies dir (n + 1) := by
  have hbc : r.bc - UInt16.ofNat n - UInt16.ofNat 1 = r.bc - UInt16.ofNat (n + 1) :=
    Direction.walk_walk .down r.bc n 1
  rw [← afterCopies_one, afterCopies, hl_afterCopies, de_afterCopies, bc_afterCopies, f_afterCopies,
    dir.walk_walk, dir.walk_walk, hbc, copyFlags_copyFlags]
  rfl

end Registers

/-! ## Rounds -/

namespace Exec

variable {ω : Type} [Observer ω]

theorem cpu_afterRound_load (dir : Direction) (m : Machine Board ω) :
    (afterRound .load dir m).cpu = { m.cpu with regs := m.cpu.regs.afterCopy dir } := rfl

theorem bus_afterRound_load (dir : Direction) (m : Machine Board ω) :
    (afterRound .load dir m).bus =
      { m.bus with
        memory := m.bus.memory.set m.cpu.regs.de (m.bus.memory.get m.cpu.regs.hl) } := rfl

/-- So many rounds of a copy, one at least, on a board. -/
theorem iterate_afterRound_load (dir : Direction) (n : Nat) (m : Machine Board ω) :
    ((afterRound .load dir)^[n + 1] m).cpu =
        { m.cpu with regs := m.cpu.regs.afterCopies dir (n + 1) } ∧
      ((afterRound .load dir)^[n + 1] m).bus =
        { m.bus with
          memory := m.bus.memory.copied dir m.cpu.regs.hl m.cpu.regs.de (n + 1) } := by
  induction n with
  | zero =>
    constructor
    · rw [Function.iterate_succ_apply', cpu_afterRound_load, Registers.afterCopies_one]
      rfl
    · rw [Function.iterate_succ_apply', bus_afterRound_load, Memory.copied, dir.walk_zero,
        dir.walk_zero]
      rfl
  | succ n ih =>
    obtain ⟨hcpu, hbus⟩ := ih
    constructor
    · rw [Function.iterate_succ_apply', cpu_afterRound_load, hcpu, Registers.afterCopy_afterCopies]
    · rw [Function.iterate_succ_apply', bus_afterRound_load, hcpu, hbus, Registers.hl_afterCopies,
        Registers.de_afterCopies]
      rfl

/-- A repeated copy on a board is `bcCount` rounds. -/
theorem perform_blockCopy (dir : Direction) (m : Machine Board ω) :
    (perform (.block .load dir true) m).2.cpu =
        { m.cpu with regs := m.cpu.regs.afterCopies dir m.cpu.regs.bcCount } ∧
      (perform (.block .load dir true) m).2.bus =
        { m.bus with
          memory := m.bus.memory.copied dir m.cpu.regs.hl m.cpu.regs.de m.cpu.regs.bcCount } := by
  have hrounds : perform (.block .load dir true) m =
      ((), (afterRound .load dir)^[m.cpu.regs.bcCount] m) :=
    (repeats_rounds dir m (by decide)).perform (BlockKind.rounds_le .load _)
  rw [hrounds]
  obtain ⟨i, hi⟩ := Nat.exists_eq_succ_of_ne_zero (Nat.ne_of_gt (m.cpu.regs.bcCount_pos))
  rw [hi]
  exact iterate_afterRound_load dir i m

/-- The opcode of the repeated copy behind ED. -/
def copyOpcode : Direction → UInt8
  | .up => 0xB0
  | .down => 0xB8

/-- LDIR and LDDR in closed form. With `k` steps from the source to the destination,
the first `k` bytes of the source fill the destination over and over; with `k` zero
nothing changes. All addresses wrap, and the bytes are those from before the
instruction, also where it overwrites the source or itself. -/
theorem runOne_blockCopy (dir : Direction) (m : Machine Board ω)
    (hed : m.bus.peek m.cpu.regs.pc = 0xED)
    (hop : m.bus.peek (m.cpu.regs.pc + 1) = copyOpcode dir) :
    let r := m.cpu.regs
    let n := r.bcCount
    let k := dir.distance r.hl r.de
    ∃ memory,
      (runOne m).1 = .ok () ∧
      (runOne m).2.bus = { m.bus with memory } ∧
      (k = 0 → memory = m.bus.memory) ∧
      (k ≠ 0 → ∀ i < n,
        memory.get (dir.walk r.de i) = m.bus.memory.get (dir.walk r.hl (i % k))) ∧
      (∀ a, (∀ i < n, a ≠ dir.walk r.de i) → memory.get a = m.bus.memory.get a) ∧
      (runOne m).2.cpu.regs =
        { (((m.cpu.advanced 2 2).setHL (dir.walk r.hl n)).setDE (dir.walk r.de n)).setBC 0 with
          f := r.f |> Flag.h.put false |> Flag.n.put false |> Flag.p.put false } ∧
      (runOne m).2.cpu.SameRecord m.cpu.countInstruction := by
  intro r n k
  have hpage : Page.ed (m.bus.peek (m.cpu.regs.pc + 1)) = some (.done (.block .load dir true)) := by
    rw [hop]
    cases dir <;> rfl
  obtain ⟨m', hfetch, hrun⟩ := runOne_of_ed hed hpage
  obtain ⟨hcpu, hbus⟩ := perform_blockCopy dir m'
  have hend : r.bc - UInt16.ofNat n = 0 := r.sub_bcCount
  rw [hfetch.regs] at hcpu
  rw [hfetch.regs, hfetch.bus] at hbus
  refine ⟨m.bus.memory.copied dir r.hl r.de n, by rw [hrun], ?_, ?_, ?_, ?_, ?_, ?_⟩
  · rw [hrun, hbus]
    rfl
  · intro hk
    have hself : r.de = r.hl := by
      rw [← dir.walk_distance r.hl r.de]
      exact (congrArg _ hk).trans (dir.walk_zero r.hl)
    rw [hself, Memory.copied_self]
  · exact fun hk i hi =>
      Memory.get_copied _ dir r.bcCount_le (Nat.pos_of_ne_zero hk) hi
  · exact fun a ha => Memory.get_copied_of_ne _ dir ha
  · rw [hrun, hcpu]
    -- fetching has moved PC and R alone, so the copy starts from the same pairs and flags
    show { (((m.cpu.advanced 2 2).setHL (dir.walk r.hl n)).setDE (dir.walk r.de n)).setBC
      (r.bc - UInt16.ofNat n) with f := copyFlags (r.bc - UInt16.ofNat n != 0) r.f } = _
    rw [hend]
    rfl
  · rw [hrun]
    exact (perform_sameRecord _ m').trans hfetch.record

/-- A copy by one place with the counter at zero, which starts over itself: the first
byte of the instruction fills all of memory. -/
theorem runOne_blockCopy_smear :
    let memory := (Memory.zero.set 0 0xED).set 1 0xB0
    let m : Machine Board Unit := ⟨{ regs := { e := 1 } }, { memory }, ()⟩
    m.bus.peek m.cpu.regs.pc = 0xED ∧ m.bus.peek (m.cpu.regs.pc + 1) = copyOpcode .up ∧
      ∀ a, (runOne m).2.bus.peek a = 0xED := by
  intro memory m
  have hed : m.bus.peek m.cpu.regs.pc = 0xED := by
    simp [m, memory, Board.peek, Memory.get_set]
  have hop : m.bus.peek (m.cpu.regs.pc + 1) = copyOpcode .up := by
    simp [m, memory, Board.peek, copyOpcode]
  refine ⟨hed, hop, fun a => ?_⟩
  obtain ⟨filled, -, hbus, -, hfill, -⟩ := runOne_blockCopy .up m hed hop
  have hcell := hfill (by decide) (Direction.up.distance m.cpu.regs.de a)
    (Direction.up.distance_lt _ a)
  have hone : Direction.up.distance m.cpu.regs.hl m.cpu.regs.de = 1 := by decide
  rw [Direction.walk_distance, hone, Nat.mod_one, Direction.walk_zero] at hcell
  rw [hbus]
  exact hcell.trans hed

end Exec

end Z80
