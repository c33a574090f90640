import Z80.Proofs.BlockRounds
import Z80.Proofs.Carries
import Z80.Proofs.Fetching
import Z80.Proofs.Walk

/-!
# Block searches

CPIR and CPDR compare the accumulator with one cell after the other, until they have found its
byte or the counter has run out; on the last cell both can happen at once. They write nothing, so
all cells are those from before the instruction.

Main definitions:
- `searchFlags`: the flags after the comparison with one cell.
- `Registers.afterCompares`: the registers after so many rounds of a search.

Main statements: `Exec.Repeats.search` says how many rounds a search takes, and
`runOne_blockSearch` what it leaves.
-/

namespace Z80

/-! ## Flags -/

/-- The flags after the accumulator `a` has been compared with the byte `v`: S and H are those of
the difference, Z tells whether the two are equal, P whether more is to come, and N is set. -/
def searchFlags (a v : UInt8) (more : Bool) (f : UInt8) : UInt8 :=
  f |> Flag.s.put (isNegative (a - v)) |> Flag.z.put (v == a)
    |> Flag.h.put (decide (a.toNat % 16 < v.toNat % 16)) |> Flag.p.put more |> Flag.n.put true

/-- A comparison replaces the flags of the one before. -/
theorem searchFlags_searchFlags (a v w : UInt8) (b b' : Bool) (f : UInt8) :
    searchFlags a v b (searchFlags a w b' f) = searchFlags a v b f := by
  apply Flag.ext
  intro g
  simp only [searchFlags, Flag.isSet_put]
  cases g <;> rfl

section Difference

variable (a v : UInt8)

theorem msb_sub_eq_isNegative :
    (Sum.sub a.toBitVec v.toBitVec false).value.msb = isNegative (a - v) := by
  have ha := a.toNat_lt
  have hv := v.toNat_lt
  rw [BitVec.msb_eq_decide, Sum.toNat_value_sub, isNegative, decide_eq_decide,
    UInt8.le_iff_toNat_le, UInt8.toNat_sub]
  simp only [UInt8.toNat_toBitVec, Bool.toNat_false]
  show 128 ≤ _ ↔ 128 ≤ _
  omega

theorem sub_eq_zero_iff : (Sum.sub a.toBitVec v.toBitVec false).value = 0 ↔ v = a := by
  have ha := a.toNat_lt
  have hv := v.toNat_lt
  rw [← BitVec.toNat_inj, Sum.toNat_value_sub, ← UInt8.toNat_inj]
  simp only [UInt8.toNat_toBitVec, Bool.toNat_false]
  show _ = 0 ↔ _
  omega

/-- To compare is to subtract, with the carry from before. -/
theorem flags_compare (more : Bool) (f : UInt8) :
    Flag.p.put more (Flag.c.put (Flag.c.isSet f) (subByte a v false f).flags) =
      searchFlags a v more f := by
  have hz : ((Sum.sub a.toBitVec v.toBitVec false).value == 0) = (v == a) := by
    rw [Bool.eq_iff_iff, beq_iff_eq, beq_iff_eq, sub_eq_zero_iff]
  have hh : (Sum.sub a.toBitVec v.toBitVec false).half =
      decide (a.toNat % 16 < v.toNat % 16) := Sum.half_sub _ _ _
  apply Flag.ext
  intro g
  simp only [subByte, searchFlags, Sum.flags, Flag.isSet_put]
  cases g
  case s => exact msb_sub_eq_isNegative a v
  case z => exact hz
  case h => exact hh
  all_goals rfl

end Difference

/-! ## Registers -/

namespace Registers

/-- The registers after `n` rounds of a search, one at least, the last of which met the byte `v`. -/
def afterCompares (r : Registers) (dir : Direction) (n : Nat) (v : UInt8) : Registers :=
  let bc := r.bc - UInt16.ofNat n
  { (r.setHL (dir.walk r.hl n)).setBC bc with f := searchFlags r.a v (bc != 0) r.f }

variable (r : Registers) (dir : Direction) (n : Nat) (v w : UInt8)

theorem hl_afterCompares : (r.afterCompares dir n v).hl = dir.walk r.hl n :=
  join_high_low _

theorem bc_afterCompares : (r.afterCompares dir n v).bc = r.bc - UInt16.ofNat n :=
  join_high_low _

theorem afterCompare_eq :
    r.afterCompare dir v =
      { (r.setHL (dir.next r.hl)).setBC (r.bc - 1) with
        f := searchFlags r.a v (r.bc - 1 != 0) r.f } := by
  have hbc : ((r.setHL (dir.next r.hl)).setBC (r.bc - 1)).bc = r.bc - 1 := join_high_low _
  show { (r.setHL (dir.next r.hl)).setBC (r.bc - 1) with
    f := Flag.p.put (((r.setHL (dir.next r.hl)).setBC (r.bc - 1)).bc != 0)
      (Flag.c.put (Flag.c.isSet r.f) (subByte r.a v false r.f).flags) } = _
  rw [hbc, flags_compare]

theorem afterCompares_one : r.afterCompares dir 1 v = r.afterCompare dir v := by
  rw [afterCompare_eq, dir.next_eq_walk]
  rfl

theorem afterCompare_afterCompares :
    (r.afterCompares dir n v).afterCompare dir w = r.afterCompares dir (n + 1) w := by
  have hbc : r.bc - UInt16.ofNat n - UInt16.ofNat 1 = r.bc - UInt16.ofNat (n + 1) :=
    Direction.walk_walk .down r.bc n 1
  have hf : (r.afterCompares dir n v).f = searchFlags r.a v (r.bc - UInt16.ofNat n != 0) r.f := rfl
  have ha : (r.afterCompares dir n v).a = r.a := rfl
  rw [← afterCompares_one, afterCompares, hl_afterCompares, bc_afterCompares, hf, ha, dir.walk_walk,
    hbc, searchFlags_searchFlags]
  rfl

/-- A search goes on while the counter lasts and the byte has not been met. -/
theorem continues_afterCompares :
    BlockKind.compare.continues (r.afterCompares dir n v) =
      (r.bc - UInt16.ofNat n != 0 && v != r.a) := by
  have hz : Flag.z.isSet (r.afterCompares dir n v).f = (v == r.a) := by
    simp [afterCompares, searchFlags, Flag.isSet_put]
  rw [BlockKind.continues, bc_afterCompares, hz]
  rfl

end Registers

namespace Exec

variable {ω : Type} [Observer ω]

/-! ## Rounds -/

theorem cpu_afterRound_compare (dir : Direction) (m : Machine Board ω) :
    (afterRound .compare dir m).cpu =
      { m.cpu with regs := m.cpu.regs.afterCompare dir (m.bus.peek m.cpu.regs.hl) } := rfl

/-- A round only reads. -/
theorem bus_afterRound_compare (dir : Direction) (m : Machine Board ω) :
    (afterRound .compare dir m).bus = m.bus := rfl

/-- So many rounds of a search, one at least, on a board. -/
theorem iterate_afterRound_compare (dir : Direction) (n : Nat) (m : Machine Board ω) :
    ((afterRound .compare dir)^[n + 1] m).cpu =
        { m.cpu with
          regs := m.cpu.regs.afterCompares dir (n + 1)
            (m.bus.peek (dir.walk m.cpu.regs.hl n)) } ∧
      ((afterRound .compare dir)^[n + 1] m).bus = m.bus := by
  induction n with
  | zero =>
    rw [Function.iterate_succ_apply', dir.walk_zero, Registers.afterCompares_one]
    exact ⟨rfl, rfl⟩
  | succ n ih =>
    obtain ⟨hcpu, hbus⟩ := ih
    rw [Function.iterate_succ_apply', cpu_afterRound_compare, bus_afterRound_compare, hcpu, hbus,
      Registers.hl_afterCompares, Registers.afterCompare_afterCompares]
    exact ⟨rfl, rfl⟩

section Search

variable {dir : Direction} {m : Machine Board ω} {k : Nat}

/-- The test of a search after so many rounds. -/
theorem continues_iterate_compare (j : Nat) :
    BlockKind.compare.continues ((afterRound .compare dir)^[j + 1] m).cpu.regs = true ↔
      m.cpu.regs.bc - UInt16.ofNat (j + 1) ≠ 0 ∧
        m.bus.peek (dir.walk m.cpu.regs.hl j) ≠ m.cpu.regs.a := by
  rw [(iterate_afterRound_compare dir j m).1, Registers.continues_afterCompares, Bool.and_eq_true,
    bne_iff_ne, bne_iff_ne]

/-- A search takes as many rounds as it needs to meet its byte, or as the counter allows. -/
theorem Repeats.search (h : Repeats .compare dir m k) (hle : k ≤ m.cpu.regs.bcCount) :
    let cell := fun i => m.bus.peek (dir.walk m.cpu.regs.hl i)
    (∀ j < m.cpu.regs.bcCount, cell j = m.cpu.regs.a → (∀ i < j, cell i ≠ m.cpu.regs.a) →
      k = j + 1) ∧
    ((∀ j < m.cpu.regs.bcCount, cell j ≠ m.cpu.regs.a) → k = m.cpu.regs.bcCount) := by
  intro cell
  obtain ⟨l, rfl⟩ := Nat.exists_eq_succ_of_ne_zero (Nat.ne_of_gt h.pos)
  -- the last round has met the byte, or used up the counter
  have hlast : l + 1 = m.cpu.regs.bcCount ∨ cell l = m.cpu.regs.a := by
    have hstops := (Bool.not_eq_true _).mpr h.stops
    rw [continues_iterate_compare, not_and_or, not_not, not_not] at hstops
    exact hstops.imp_left (Registers.sub_ofNat_eq_zero_iff (Nat.succ_pos l) hle).mp
  constructor
  · intro j hj hhit hfirst
    have hlower : ¬ l < j := by
      intro hlt
      rcases hlast with hspent | hmet
      · omega
      · exact hfirst l hlt hmet
    have hupper : ¬ j < l := fun hlt =>
      ((continues_iterate_compare j).mp (h.goes (j + 1) (Nat.succ_pos j) (by omega))).2 hhit
    omega
  · intro hmiss
    rcases hlast with hspent | hmet
    · exact hspent
    · exact absurd hmet (hmiss l hle)

/-- The byte that a search has met last is the one it was for, if that is there at all. -/
theorem Repeats.met_iff (h : Repeats .compare dir m k) (hle : k ≤ m.cpu.regs.bcCount) :
    m.bus.peek (dir.walk m.cpu.regs.hl (k - 1)) = m.cpu.regs.a ↔
      ∃ j < m.cpu.regs.bcCount, m.bus.peek (dir.walk m.cpu.regs.hl j) = m.cpu.regs.a := by
  have hpos := h.pos
  constructor
  · intro hmet
    exact ⟨k - 1, by omega, hmet⟩
  · intro hexists
    obtain ⟨hlt, hhit⟩ := Nat.find_spec hexists
    have hk := (h.search hle).1 _ hlt hhit fun i hi hhit' =>
      Nat.find_min hexists hi ⟨Nat.lt_trans hi hlt, hhit'⟩
    rw [hk]
    exact hhit

end Search

/-- CPIR and CPDR in closed form. With `n` cells to look at, a search ends with the first of them
that holds the byte of the accumulator, or with the last one. Only HL, BC and the flags have
changed then, apart from the program counter and R. -/
theorem runOne_blockSearch (dir : Direction) (m : Machine Board ω)
    (hed : m.bus.peek m.cpu.regs.pc = 0xED)
    (hop : m.bus.peek (m.cpu.regs.pc + 1) = BlockKind.compare.opcode dir true) :
    let r := m.cpu.regs
    let n := r.bcCount
    let cell := fun i => m.bus.peek (dir.walk r.hl i)
    ∃ k, 0 < k ∧ k ≤ n ∧
      (∀ j < n, cell j = r.a → (∀ i < j, cell i ≠ r.a) → k = j + 1) ∧
      ((∀ j < n, cell j ≠ r.a) → k = n) ∧
      (runOne m).1 = .ok () ∧
      (runOne m).2.bus = m.bus ∧
      (runOne m).2.cpu.regs =
        { ((m.cpu.advanced 2 2).setHL (dir.walk r.hl k)).setBC (r.bc - UInt16.ofNat k) with
          f := r.f |> Flag.s.put (isNegative (r.a - cell (k - 1)))
            |> Flag.z.put (decide (∃ j < n, cell j = r.a))
            |> Flag.h.put (decide (r.a.toNat % 16 < (cell (k - 1)).toNat % 16))
            |> Flag.p.put (r.bc - UInt16.ofNat k != 0) |> Flag.n.put true } ∧
      (runOne m).2.cpu.SameRecord m.cpu.countInstruction := by
  intro r n cell
  have hpage : Page.ed (m.bus.peek (m.cpu.regs.pc + 1)) =
      some (.done (.block .compare dir true)) := hop ▸ BlockKind.compare.ed_opcode dir true
  obtain ⟨m', hfetch, hrun⟩ := runOne_of_ed hed hpage
  obtain ⟨k, hle, hrepeats⟩ := exists_repeats .compare dir m'
  have hsearch := hrepeats.search hle
  have hmet := hrepeats.met_iff hle
  have hperform := hrepeats.perform (Nat.le_trans hle (BlockKind.rounds_le _ _))
  -- fetching has moved PC and R alone, so it is the same search
  have hcount : m'.cpu.regs.bcCount = n := by
    rw [hfetch.regs]
    rfl
  have hcells (i : Nat) : m'.bus.peek (dir.walk m'.cpu.regs.hl i) = cell i := by
    rw [hfetch.regs, hfetch.bus]
    rfl
  have ha : m'.cpu.regs.a = r.a := by
    rw [hfetch.regs]
    rfl
  simp only [hcells, hcount, ha] at hsearch hmet
  replace hle : k ≤ n := hcount ▸ hle
  obtain ⟨l, rfl⟩ := Nat.exists_eq_succ_of_ne_zero (Nat.ne_of_gt hrepeats.pos)
  obtain ⟨hcpu, hbus⟩ := iterate_afterRound_compare dir l m'
  rw [hfetch.regs, hfetch.bus] at hcpu
  refine ⟨l + 1, hrepeats.pos, hle, hsearch.1, hsearch.2, by rw [hrun], ?_, ?_, ?_⟩
  · rw [hrun, hperform]
    exact hbus.trans hfetch.bus
  · have hz : decide (∃ j < n, cell j = r.a) = (cell l == r.a) := by
      rw [Bool.eq_iff_iff, decide_eq_true_iff, beq_iff_eq]
      exact hmet.symm
    rw [hrun, hperform, hz]
    exact congrArg Cpu.regs hcpu
  · rw [hrun]
    exact (perform_sameRecord _ m').trans hfetch.record

/-- A search through two cells for the byte of the second one, which finds it as the counter runs
out. -/
theorem runOne_blockSearch_last :
    let memory := (Memory.zero.set 0 0xED).set 1 0xB1
    let m : Machine Board Unit := ⟨{ regs := { a := 0xB1, c := 2 } }, { memory }, ()⟩
    m.bus.peek m.cpu.regs.pc = 0xED ∧
      m.bus.peek (m.cpu.regs.pc + 1) = BlockKind.compare.opcode .up true ∧
      (runOne m).2.cpu.regs.hl = 2 ∧ (runOne m).2.cpu.regs.bc = 0 ∧
      Flag.z.isSet (runOne m).2.cpu.regs.f = true ∧
      Flag.p.isSet (runOne m).2.cpu.regs.f = false := by
  intro memory m
  have hed : m.bus.peek m.cpu.regs.pc = 0xED := by
    simp [m, memory, Board.peek, Memory.get_set]
  have hop : m.bus.peek (m.cpu.regs.pc + 1) = BlockKind.compare.opcode .up true := by
    simp [m, memory, Board.peek, BlockKind.opcode]
  obtain ⟨k, -, -, hfirst, -, -, -, hregs, -⟩ := runOne_blockSearch .up m hed hop
  have hspent : m.cpu.regs.bc - UInt16.ofNat 2 = 0 := m.cpu.regs.sub_bcCount
  have hfound : m.bus.peek (Direction.up.walk m.cpu.regs.hl 1) = m.cpu.regs.a := hop
  have hmissed : ∀ i < 1, m.bus.peek (Direction.up.walk m.cpu.regs.hl i) ≠ m.cpu.regs.a := by
    intro i hi
    obtain rfl : i = 0 := Nat.lt_one_iff.mp hi
    have hfirstcell : m.bus.peek (Direction.up.walk m.cpu.regs.hl 0) = 0xED := hed
    rw [hfirstcell]
    decide
  have hexists : ∃ j < m.cpu.regs.bcCount,
      m.bus.peek (Direction.up.walk m.cpu.regs.hl j) = m.cpu.regs.a := ⟨1, by decide, hfound⟩
  obtain rfl : k = 2 := hfirst 1 (by decide) hfound hmissed
  rw [decide_eq_true hexists, hspent] at hregs
  rw [hregs]
  refine ⟨hed, hop, join_high_low _, join_high_low _, ?_, ?_⟩
  · simp [Flag.isSet_put]
  · simp [Flag.isSet_put]

end Exec

end Z80
