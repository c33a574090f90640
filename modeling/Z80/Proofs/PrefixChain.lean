import Z80.Proofs.Batch
import Z80.Proofs.Leftovers
import Z80.Proofs.Spelling
import Z80.Proofs.Tap

/-!
# Chains of index bytes

Of several index bytes in a row the last one counts. Each of the others is an instruction of
its own, so that a batch can stop between any two of them: it looks at the byte behind it,
finds that it is superseded, and is done.

Main definitions:
- `Exec.after`: the machine after so many single steps.
- `Exec.PassesOver`: a step takes in one byte, looks at the next, and does nothing else.

Main statements: `passesOver` for one index byte before another one, `passed_after` for a
chain of them, and `step_chain` for the instruction at its end.
-/

namespace Z80

/-- To take in a byte behind others is to take in one more. -/
theorem Cpu.advanced_succ {c c₀ : Cpu} {n : Nat} (h : c.regs = c₀.advanced n n)
    (hconfig : c.config = c₀.config) : c.advanced 1 1 = c₀.advanced (n + 1) (n + 1) := by
  have hone : (c.countFetch.takeByte 0).regs = c.advanced 1 1 :=
    regs_takeByte (regs_countFetch c.advanced_zero.symm rfl) 0
  have hmore : (c.countFetch.takeByte 0).regs = c₀.advanced (n + 1) (n + 1) :=
    regs_takeByte (regs_countFetch h hconfig) 0
  exact hone.symm.trans hmore

namespace Exec

/-! ## One index byte before another -/

/-- An index byte and the look ahead are all of an instruction where another one follows. -/
theorem runOne_superseded {β ω : Type} [Bus β] [Observer ω] {m : Machine β ω} {x : Index}
    {a : UInt16} (hfirst : (takeFirst m).1 = x.lead) (hpc : (takeFirst m).2.cpu.regs.pc = a)
    (hahead : isIndexByte (Bus.read a (takeFirst m).2.bus).1 = true) :
    runOne m = (.ok (), (read a (takeFirst m).2).2) := by
  rw [runOne_apply, hfirst, dispatch_superseded x hpc hahead]
  rfl

variable {ω : Type} [Observer ω] {m : Machine Board ω}

/-- A single step takes in the byte at the program counter, an opcode, and looks at the one
behind it. It is counted, and nothing else changes. -/
structure PassesOver (m : Machine Board ω) : Prop where
  result : (step 1 m).1 = .ok ()
  regs : (step 1 m).2.cpu.regs = m.cpu.advanced 1 1
  record : (step 1 m).2.cpu.SameRecord m.cpu.countInstruction
  bus : (step 1 m).2.bus = m.bus
  accesses : (step 1 m.tap).2.accesses =
    [.read m.cpu.regs.pc (m.ahead 0), .read (m.cpu.regs.pc + 1) (m.ahead 1)]

theorem passesOver (hfault : m.cpu.fault = none) (hhalted : m.cpu.regs.halted = false)
    (hfirst : isIndexByte (m.ahead 0) = true) (hsecond : isIndexByte (m.ahead 1) = true) :
    PassesOver m := by
  obtain ⟨x, hx⟩ := exists_lead_of_isIndexByte hfirst
  have hfetch := fetching_takeFirst m
  have hpc : (takeFirst m).2.cpu.regs.pc = m.cpu.regs.pc + 1 := congrArg (·.pc) hfetch.regs
  have hlead : (takeFirst m).1 = x.lead := by
    rw [takeFirst_fst, ← ahead_zero, hx]
  -- the tapped machine runs the same instruction, and tells what it has read
  have hrun : step 1 m = (.ok (), (read (m.cpu.regs.pc + 1) (takeFirst m).2).2) := by
    rw [step_one hfault hhalted, runOne_superseded hlead hpc hsecond]
  have hrun' : step 1 m.tap = (.ok (), (read (m.cpu.regs.pc + 1) (takeFirst m.tap).2).2) := by
    rw [step_one (m := m.tap) hfault hhalted, runOne_superseded (m := m.tap) hlead hpc hsecond]
  have hread := hfetch.read (m.cpu.regs.pc + 1)
  constructor
  · rw [hrun]
  · rw [hrun]
    exact hread.regs
  · rw [hrun]
    exact hread.record
  · rw [hrun]
    exact hread.bus
  · have hsecond' : (read (m.cpu.regs.pc + 1) (takeFirst m.tap).2).1 = m.ahead 1 := rfl
    have hfirst' : (takeFirst m.tap).1 = m.ahead 0 := hlead.trans hx.symm
    rw [hrun', accesses_read, accesses_takeFirst, hsecond', hfirst']
    rfl

/-! ## Chains -/

/-- The machine after so many single steps. -/
def after (m : Machine Board ω) (n : Nat) : Machine Board ω :=
  (fun s => (step 1 s).2)^[n] m

theorem after_succ (m : Machine Board ω) (n : Nat) : after m (n + 1) = (step 1 (after m n)).2 :=
  Function.iterate_succ_apply' _ n m

/-- So many index bytes have been passed over. -/
structure Passed (m₀ m : Machine Board ω) (n : Nat) : Prop where
  bus : m.bus = m₀.bus
  regs : m.cpu.regs = m₀.cpu.advanced n n
  fault : m.cpu.fault = m₀.cpu.fault
  config : m.cpu.config = m₀.cpu.config
  instructions : m.cpu.instructions = m₀.cpu.instructions + UInt64.ofNat n

namespace Passed

variable {m₀ : Machine Board ω} {n : Nat}

omit [Observer ω] in
theorem halted (h : Passed m₀ m n) : m.cpu.regs.halted = m₀.cpu.regs.halted := by
  rw [h.regs]
  rfl

omit [Observer ω] in
theorem ahead (h : Passed m₀ m n) (k : Nat) : m.ahead k = m₀.ahead (n + k) := by
  rw [Machine.ahead, Machine.ahead, h.bus, h.regs, Cpu.advanced_pc, UInt16.ofNat_add,
    UInt16.add_assoc]

omit [Observer ω] in
theorem refl (m : Machine Board ω) : Passed m m 0 :=
  ⟨rfl, m.cpu.advanced_zero.symm, rfl, rfl, (UInt64.add_zero _).symm⟩

theorem step (h : Passed m₀ m n) (hpass : PassesOver m) : Passed m₀ (Exec.step 1 m).2 (n + 1) where
  bus := hpass.bus.trans h.bus
  regs := hpass.regs.trans (Cpu.advanced_succ h.regs h.config)
  fault := hpass.record.fault.trans h.fault
  config := hpass.record.config.trans h.config
  instructions := by
    rw [hpass.record.instructions, Cpu.countInstruction, h.instructions, UInt64.add_assoc,
      UInt64.ofNat_add]
    rfl

end Passed

section Chain

variable (hfault : m.cpu.fault = none) (hhalted : m.cpu.regs.halted = false)
include hfault hhalted

/-- All bytes of a chain but the last one are passed over. -/
theorem passed_after {n : Nat} (h : ∀ i ≤ n, isIndexByte (m.ahead i) = true) :
    Passed m (after m n) n ∧ ∀ j < n, PassesOver (after m j) := by
  induction n with
  | zero => exact ⟨.refl m, fun j hj => absurd hj (Nat.not_lt_zero j)⟩
  | succ n ih =>
    obtain ⟨hpassed, hover⟩ := ih fun i hi => h i (Nat.le_succ_of_le hi)
    have hnext : PassesOver (after m n) := by
      apply passesOver (hpassed.fault.trans hfault) (hpassed.halted.trans hhalted)
      · rw [hpassed.ahead]
        exact h n (Nat.le_succ n)
      · rw [hpassed.ahead]
        exact h (n + 1) (Nat.le_refl _)
    rw [after_succ]
    refine ⟨hpassed.step hnext, fun j hj => ?_⟩
    rcases Nat.lt_succ_iff_lt_or_eq.mp hj with hlt | rfl
    · exact hover j hlt
    · exact hnext

omit hhalted in
/-- Single steps come to the same as a batch. -/
theorem after_eq_step (n : Nat) : after m n = (step n m).2 := by
  induction n with
  | zero =>
    rw [step_of_running 0 hfault]
    rfl
  | succ n ih =>
    rw [after_succ, ih, step_add, bind_apply]

/-- In a memory of nothing but index bytes a batch comes to its end. -/
theorem step_of_all_index (h : ∀ a, isIndexByte (m.bus.peek a) = true) (n : Nat) :
    (step n m).1 = .ok () ∧ Passed m (step n m).2 n := by
  obtain ⟨hpassed, hover⟩ := passed_after (n := n) hfault hhalted fun i _ => h _
  rw [after_eq_step hfault] at hpassed
  refine ⟨?_, hpassed⟩
  cases n with
  | zero =>
    rw [step_of_running 0 hfault]
    rfl
  | succ n =>
    have hlast := (hover n (Nat.lt_succ_self n)).result
    rw [step_add, bind_apply, ← after_eq_step hfault, hlast]

end Chain

/-- An index byte without another one behind it leads the opcode there to its page, and is
without effect if the page has no entry for that. -/
theorem runOne_lead_end {x : Index} (hlead : m.ahead 0 = x.lead)
    (hnext : isIndexByte (m.ahead 1) = false) :
    ∃ s, Fetching m s 2 2 ∧ runOne m =
      (completeOr (Page.index x (m.ahead 1)) (dispatch (m.ahead 1)) >>= conclude) s := by
  obtain ⟨s, hfetch, hdispatch⟩ := dispatch_lead (x := x) (fetching_takeFirst m) hnext
  refine ⟨s, hfetch, ?_⟩
  have hfirst : (takeFirst m).1 = x.lead := by
    rw [takeFirst_fst, ← ahead_zero, hlead]
  rw [runOne_eq, bind_apply, hfirst, bind_apply, hdispatch]
  rfl

/-- Of a chain of index bytes in memory, all but the last one are passed over in a step each,
and the last one is where the next instruction begins: there the machine does what a new
processor with these registers does. If there is nothing but index bytes, every batch comes
to its end, and each of its steps has taken in one of them. -/
theorem step_chain (m : Machine Board ω) (hfault : m.cpu.fault = none)
    (hhalted : m.cpu.regs.halted = false) :
    (∀ k, 0 < k → (∀ i < k, isIndexByte (m.ahead i) = true) → isIndexByte (m.ahead k) = false →
      (∀ j < k - 1, PassesOver (after m j)) ∧
      let last := after m (k - 1)
      let start : Machine Board ω :=
        ⟨{ regs := m.cpu.advanced (k - 1) (k - 1), config := m.cpu.config }, m.bus, last.observer⟩
      (∃ x : Index, m.ahead (k - 1) = x.lead ∧ ∃ s, Fetching last s 2 2 ∧ runOne last =
        (completeOr (Page.index x (m.ahead k)) (dispatch (m.ahead k)) >>= conclude) s) ∧
      (step 1 last).1 = (step 1 start).1 ∧
      (step 1 last).2.uncounted = (step 1 start).2.uncounted ∧
      (step 1 last).2.cpu.instructions = m.cpu.instructions + UInt64.ofNat k) ∧
    ((∀ a, isIndexByte (m.bus.peek a) = true) → ∀ n,
      (step n m).1 = .ok () ∧
        (step n m).2.cpu.regs.pc = m.cpu.regs.pc + UInt16.ofNat n) := by
  constructor
  · intro k hk hchain hend
    obtain ⟨n, rfl⟩ := Nat.exists_eq_succ_of_ne_zero (Nat.ne_of_gt hk)
    obtain ⟨hpassed, hover⟩ :=
      passed_after hfault hhalted fun i hi => hchain i (Nat.lt_succ_of_le hi)
    refine ⟨hover, ?_⟩
    intro last start
    obtain ⟨x, hx⟩ := exists_lead_of_isIndexByte (hchain n (Nat.lt_succ_self n))
    have hlead : last.ahead 0 = x.lead := (hpassed.ahead 0).trans hx
    have hnext : last.ahead 1 = m.ahead (n + 1) := hpassed.ahead 1
    have hlastend := runOne_lead_end hlead (hnext ▸ hend)
    rw [hnext] at hlastend
    have hlast : last.cpu.fault = none := hpassed.fault.trans hfault
    have hrunning : last.cpu.regs.halted = false := hpassed.halted.trans hhalted
    have halike : last.Alike start := ⟨hpassed.bus, rfl, hpassed.regs, hpassed.config, hlast⟩
    obtain ⟨hresult, hafter⟩ := step_one_alike halike hlast hrunning
    refine ⟨⟨x, hx, hlastend⟩, hresult, hafter, ?_⟩
    have hcount : last.cpu.instructions = m.cpu.instructions + UInt64.ofNat n :=
      hpassed.instructions
    rw [instructions_step_one hlast hrunning, hcount, UInt64.add_assoc, Nat.succ_eq_add_one,
      UInt64.ofNat_add]
    rfl
  · intro h n
    obtain ⟨hresult, hpassed⟩ := step_of_all_index hfault hhalted h n
    refine ⟨hresult, ?_⟩
    rw [hpassed.regs, Cpu.advanced_pc]

/-- An index byte for IX at the last address, one for IY at the first, and INC HL: it is IY that
counts up. -/
theorem step_chain_around_end :
    let memory := ((Memory.zero.set 0xFFFF 0xDD).set 0 0xFD).set 1 0x23
    let m : Machine Board Unit := ⟨{ regs := { pc := 0xFFFF, iy := 7 } }, { memory }, ()⟩
    (∀ i < 2, isIndexByte (m.ahead i) = true) ∧ isIndexByte (m.ahead 2) = false ∧
      PassesOver m ∧ (runOne (after m 1)).2.cpu.regs.iy = 8 := by
  intro memory m
  have hfirst : m.ahead 0 = 0xDD := by
    simp [m, memory, Machine.ahead, Board.peek, Memory.get_set]
  have hsecond : m.ahead 1 = 0xFD := by
    simp [m, memory, Machine.ahead, Board.peek, Memory.get_set]
  have hop : m.ahead 2 = 0x23 := by
    simp [m, memory, Machine.ahead, Board.peek]
  have hchain : ∀ i < 2, isIndexByte (m.ahead i) = true := by
    intro i hi
    obtain rfl | rfl : i = 0 ∨ i = 1 := by omega
    · rw [hfirst]
      rfl
    · rw [hsecond]
      rfl
  have hend : isIndexByte (m.ahead 2) = false := by
    rw [hop]
    rfl
  obtain ⟨hover, ⟨x, hx, s, hfetch, hrun⟩, -⟩ :=
    (step_chain m rfl rfl).1 2 Nat.two_pos hchain hend
  have hlast : after m (2 - 1) = after m 1 := rfl
  rw [hlast] at hfetch hrun
  have hindex : x = .iy := by
    cases x with
    | ix => exact absurd (hsecond.symm.trans hx) (by decide)
    | iy => rfl
  refine ⟨hchain, hend, hover 0 Nat.one_pos, ?_⟩
  have hadvanced (c : Cpu) : (c.advanced 2 2).iy = c.regs.iy := rfl
  have hiy : s.cpu.regs.iy = (after m 1).cpu.regs.iy := by
    rw [hfetch.regs, hadvanced]
  have hone : (after m 1).cpu.regs.iy = 7 := by
    rw [after_succ, (hover 0 Nat.one_pos).regs]
    rfl
  rw [hrun, hop, hindex]
  show s.cpu.regs.iy + 1 = 8
  rw [hiy, hone]
  rfl

end Exec

end Z80
