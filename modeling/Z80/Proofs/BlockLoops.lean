import Z80.Proofs.Batch
import Z80.Proofs.BlockRounds
import Z80.Proofs.Spelling
import Z80.Proofs.Walk

/-!
# Block instructions as loops

A repeated block instruction does what a program can do that has the single form in a loop. The
single form leaves in P or Z what the jump behind it has to test, and no jump changes a flag.
Only the program counter and R tell the two apart, unless the loop overwrites itself.

Main definitions:
- `BlockKind.loop`: the program that stands for a repeated block instruction.
- `Exec.Tracks`: a machine is at an address with the board and the registers of another one.
- `Exec.Goes`: single steps lead from one machine to another, all of them inside some code.

Main statements: `Tracks.pass` goes through the loop once, `Tracks.loop` until it is left, and
`step_blockLoop` compares the whole loop with the instruction.
-/

namespace Z80

/-! ## Code -/

/-- The bytes stand in memory from the address on. -/
def Board.Holds (b : Board) (a : UInt16) (bytes : List UInt8) : Prop :=
  b.bytesAt a bytes.length = bytes

instance (b : Board) (a : UInt16) (bytes : List UInt8) : Decidable (b.Holds a bytes) :=
  inferInstanceAs (Decidable (_ = _))

/-- The address is one of so many from `start` on. -/
def Inside (start : UInt16) (length : Nat) (a : UInt16) : Prop :=
  ∃ i < length, a = start + UInt16.ofNat i

namespace Board

variable {b b' : Board} {a : UInt16} {bytes bytes' : List UInt8}

theorem holds_iff :
    b.Holds a bytes ↔ ∀ i (h : i < bytes.length), b.peek (a + UInt16.ofNat i) = bytes[i] := by
  rw [Holds, bytesAt, List.ext_getElem_iff]
  simp only [List.length_map, List.length_range, List.getElem_map, List.getElem_range, true_and]
  exact ⟨fun h i hi => h i hi hi, fun h i hi _ => h i hi⟩

namespace Holds

theorem peek (h : b.Holds a bytes) {i : Nat} (hi : i < bytes.length) :
    b.peek (a + UInt16.ofNat i) = bytes[i] :=
  holds_iff.mp h i hi

theorem left (h : b.Holds a (bytes ++ bytes')) : b.Holds a bytes := by
  refine holds_iff.mpr fun i hi => ?_
  rw [h.peek (Nat.lt_of_lt_of_le hi (List.length_append ▸ Nat.le_add_right _ _)),
    List.getElem_append_left hi]

theorem right (h : b.Holds a (bytes ++ bytes')) :
    b.Holds (a + UInt16.ofNat bytes.length) bytes' := by
  refine holds_iff.mpr fun i hi => ?_
  have hi' : bytes.length + i < (bytes ++ bytes').length := by
    rw [List.length_append]
    exact Nat.add_lt_add_left hi _
  rw [UInt16.add_assoc, ← UInt16.ofNat_add, h.peek hi', List.getElem_append_right (by omega)]
  simp

/-- Code stays where it is if none of its bytes changes. -/
theorem congr (h : b.Holds a bytes)
    (hpeek : ∀ c, Inside a bytes.length c → b'.peek c = b.peek c) : b'.Holds a bytes := by
  refine holds_iff.mpr fun i hi => ?_
  rw [hpeek _ ⟨i, hi, rfl⟩]
  exact h.peek hi

end Holds

end Board

/-- A jump: its opcode and the address that it leads to. -/
def jumpCode (op : UInt8) (target : UInt16) : List UInt8 :=
  [op, low target, high target]

namespace BlockKind

/-- What stands behind the single form in the loop at `start`: JP PE, or JP NZ where B counts. A
search that has found its byte leaves for `found` before that. -/
def jumps (kind : BlockKind) (start found : UInt16) : List UInt8 :=
  match kind with
  | load => jumpCode 0xEA start
  | compare => jumpCode 0xCA found ++ jumpCode 0xEA start
  | input | output => jumpCode 0xC2 start

/-- The loop that stands for the repeated form. -/
def loop (kind : BlockKind) (dir : Direction) (start found : UInt16) : List UInt8 :=
  [0xED, kind.opcode dir false] ++ kind.jumps start found

/-- How long that is. -/
def loopLength (kind : BlockKind) : Nat :=
  match kind with
  | compare => 8
  | load | input | output => 5

theorem length_loop (kind : BlockKind) (dir : Direction) (start found : UInt16) :
    (kind.loop dir start found).length = kind.loopLength := by
  cases kind <;> rfl

/-- Where the loop is left with these flags: behind it, unless a search has been successful. -/
def exit (kind : BlockKind) (start found : UInt16) (f : UInt8) : UInt16 :=
  if kind = compare ∧ Flag.z.isSet f then found else start + UInt16.ofNat kind.loopLength

/-- The cell that the first round writes to, if any. -/
def target (kind : BlockKind) (r : Registers) : Option UInt16 :=
  match kind with
  | load => some r.de
  | input => some r.hl
  | compare | output => none

end BlockKind

/-- The machine with its program counter at the address. -/
def Machine.startingAt {ω : Type} (m : Machine Board ω) (a : UInt16) : Machine Board ω :=
  { m with cpu := { m.cpu with regs := { m.cpu.regs with pc := a } } }

namespace Exec

variable {ω : Type} [Observer ω]

/-! ## Rounds -/

section Rounds

variable (kind : BlockKind) (dir : Direction) (t : Machine Board ω)

/-- The single form of an instruction that counts in BC tells P whether it is done. -/
theorem isSet_p_afterRound {kind : BlockKind} (hkind : kind = .load ∨ kind = .compare) :
    Flag.p.isSet (afterRound kind dir t).cpu.regs.f =
      !kind.spent (afterRound kind dir t).cpu.regs := by
  rcases hkind with rfl | rfl <;> exact (Flag.isSet_put _ _ _ _).trans (if_pos rfl)

/-- One that counts in B tells Z. -/
theorem isSet_z_afterRound {kind : BlockKind} (hkind : kind = .input ∨ kind = .output) :
    Flag.z.isSet (afterRound kind dir t).cpu.regs.f =
      kind.spent (afterRound kind dir t).cpu.regs := by
  rcases hkind with rfl | rfl <;> exact (Flag.isSet_put _ _ _ _).trans (if_pos rfl)

theorem target_afterRound :
    kind.target (afterRound kind dir t).cpu.regs = (kind.target t.cpu.regs).map dir.next := by
  cases kind with
  | load | input => exact congrArg some (join_high_low _)
  | compare | output => rfl

/-- A round writes to its target alone. -/
theorem peek_afterRound {a : UInt16} (h : kind.target t.cpu.regs ≠ some a) :
    (afterRound kind dir t).bus.peek a = t.bus.peek a := by
  cases kind with
  | load | input => exact (Memory.get_set _ _ _ _).trans (if_neg fun ha => h (congrArg some ha))
  | compare | output => rfl

/-- So do several rounds, while the target moves on. -/
theorem peek_iterate_afterRound {a : UInt16} (n : Nat)
    (h : ∀ b, kind.target t.cpu.regs = some b → ∀ i < n, dir.walk b i ≠ a) :
    ((afterRound kind dir)^[n] t).bus.peek a = t.bus.peek a := by
  induction n generalizing t with
  | zero => rfl
  | succ n ih =>
    have hfirst : kind.target t.cpu.regs ≠ some a := by
      intro ha
      exact h a ha 0 (Nat.succ_pos n) (dir.walk_zero a)
    rw [Function.iterate_succ_apply, ih (afterRound kind dir t), peek_afterRound kind dir t hfirst]
    intro b hb i hi
    rw [target_afterRound, Option.map_eq_some_iff] at hb
    obtain ⟨c, hc, rfl⟩ := hb
    rw [dir.next_eq_walk, dir.walk_walk, Nat.add_comm]
    exact h c hc (i + 1) (Nat.succ_lt_succ hi)

end Rounds

/-! ## Steps -/

/-- Single steps lead from one machine to the other, and each of them begins at an address for
which `P` holds. -/
inductive Goes (P : UInt16 → Prop) : Machine Board ω → Machine Board ω → Prop where
  | refl (m : Machine Board ω) : Goes P m m
  | head {m m₁ m₂ : Machine Board ω} : P m.cpu.regs.pc → step 1 m = (.ok (), m₁) →
      Goes P m₁ m₂ → Goes P m m₂

theorem Goes.trans {P : UInt16 → Prop} {m₁ m₂ m₃ : Machine Board ω} (h : Goes P m₁ m₂)
    (h' : Goes P m₂ m₃) : Goes P m₁ m₃ := by
  induction h with
  | refl => exact h'
  | head hpc hstep _ ih => exact .head hpc hstep (ih h')

/-- So many single steps are a batch. -/
theorem Goes.step {P : UInt16 → Prop} {m m' : Machine Board ω} (h : Goes P m m')
    (hfault : m'.cpu.fault = none) :
    ∃ count, step count m = (.ok (), m') ∧ ∀ j < count, P (step j m).2.cpu.regs.pc := by
  induction h with
  | refl m => exact ⟨0, step_of_running 0 hfault, fun j hj => absurd hj (Nat.not_lt_zero j)⟩
  | @head m m₁ m₂ hpc hstep _ ih =>
    obtain ⟨count, hcount, hinside⟩ := ih hfault
    have hmore (n : Nat) : Exec.step (1 + n) m = Exec.step n m₁ := by
      rw [step_add, bind_apply, hstep]
    have hrunning : m.cpu.fault = none := by
      cases hm : m.cpu.fault with
      | none => rfl
      | some e =>
        rw [step_of_fault 1 hm] at hstep
        cases hstep
    refine ⟨1 + count, (hmore count).trans hcount, fun j hj => ?_⟩
    cases j with
    | zero =>
      rw [step_of_running 0 hrunning]
      exact hpc
    | succ j =>
      rw [Nat.add_comm j 1, hmore]
      exact hinside j (by omega)

/-- The machine `m` is at the address, ready to go on, and it has the board of `t` and all of its
registers but the program counter and R. -/
structure Tracks (t : Machine Board ω) (a : UInt16) (m : Machine Board ω) : Prop where
  bus : m.bus = t.bus
  regs : m.cpu.regs = { t.cpu.regs with pc := a, r := m.cpu.regs.r }
  fault : m.cpu.fault = none
  halted : m.cpu.regs.halted = false

namespace Tracks

variable {t m : Machine Board ω} {a : UInt16}

omit [Observer ω] in
theorem pc (h : Tracks t a m) : m.cpu.regs.pc = a := by
  rw [h.regs]

omit [Observer ω] in
theorem flags (h : Tracks t a m) : m.cpu.regs.f = t.cpu.regs.f := by
  rw [h.regs]

omit [Observer ω] in
theorem ahead (h : Tracks t a m) (k : Nat) : m.ahead k = t.bus.peek (a + UInt16.ofNat k) := by
  rw [Machine.ahead, h.pc, h.bus]

/-- A step takes in the instruction at the program counter and performs it. -/
theorem step_one (h : Tracks t a m) {i : Instruction} {bytes opcodes : Nat}
    (hspells : Spells m i bytes opcodes) :
    ∃ s, Tracks t (a + UInt16.ofNat bytes) s ∧ Exec.step 1 m = (.ok (), (perform i s).2) := by
  have hfetch := hspells.fetched
  refine ⟨fetched m, ⟨hfetch.bus.trans h.bus, ?_, hfetch.record.fault.trans h.fault, ?_⟩, ?_⟩
  · rw [hfetch.regs, Cpu.advanced, h.regs]
  · rw [hfetch.regs]
    exact h.halted
  · rw [Exec.step_one h.fault h.halted, runOne_of_upcoming hspells.upcoming]

/-- Rounds do not depend on what may differ. -/
theorem round (kind : BlockKind) (dir : Direction) (h : Tracks t a m) :
    Tracks (afterRound kind dir t) a (afterRound kind dir m) := by
  obtain ⟨⟨regs, config, fault, instructions, current⟩, bus, observer⟩ := m
  obtain ⟨hbus, hregs, hfault, hhalted⟩ := h
  dsimp only at hbus hregs hfault hhalted
  subst hbus
  rw [hregs] at hhalted ⊢
  cases kind <;> exact ⟨rfl, rfl, hfault, hhalted⟩

theorem rounds (kind : BlockKind) (dir : Direction) (h : Tracks t a m) (n : Nat) :
    Tracks ((afterRound kind dir)^[n] t) a ((afterRound kind dir)^[n] m) := by
  induction n with
  | zero => exact h
  | succ n ih =>
    rw [Function.iterate_succ_apply', Function.iterate_succ_apply']
    exact ih.round kind dir

omit [Observer ω] in
theorem continues_eq (h : Tracks t a m) (kind : BlockKind) :
    kind.continues m.cpu.regs = kind.continues t.cpu.regs := by
  rw [h.regs]
  cases kind <;> rfl

/-- The test of the repeated form does not depend on it either. -/
theorem repeats {kind : BlockKind} {dir : Direction} {n : Nat} (h : Tracks t a m)
    (hrepeats : Repeats kind dir t n) : Repeats kind dir m n where
  pos := hrepeats.pos
  goes j hpos hlt := ((h.rounds kind dir j).continues_eq kind).trans (hrepeats.goes j hpos hlt)
  stops := ((h.rounds kind dir n).continues_eq kind).trans hrepeats.stops

/-- At a block instruction, a step takes in two bytes and performs it. -/
theorem step_block {kind : BlockKind} {dir : Direction} {again : Bool} (h : Tracks t a m)
    (hcode : t.bus.Holds a [0xED, kind.opcode dir again]) :
    ∃ s, Tracks t (a + 2) s ∧
      Exec.step 1 m = (.ok (), (perform (.block kind dir again) s).2) := by
  have hed : m.bus.peek m.cpu.regs.pc = 0xED := by
    rw [← ahead_zero, h.ahead]
    exact hcode.peek Nat.two_pos
  have hop : m.bus.peek (m.cpu.regs.pc + 1) = kind.opcode dir again :=
    (h.ahead 1).trans (hcode.peek Nat.one_lt_two)
  have hentry : Page.ed (m.bus.peek (m.cpu.regs.pc + 1)) = some (.done (.block kind dir again)) :=
    hop ▸ kind.ed_opcode dir again
  exact h.step_one (spells_ed hed hentry)

/-- The repeated form is so many rounds at once. -/
theorem step_repeats {kind : BlockKind} {dir : Direction} {n : Nat} (h : Tracks t a m)
    (hcode : t.bus.Holds a [0xED, kind.opcode dir true]) (hrepeats : Repeats kind dir t n)
    (hle : n ≤ 65536) :
    ∃ m', Exec.step 1 m = (.ok (), m') ∧ Tracks ((afterRound kind dir)^[n] t) (a + 2) m' := by
  obtain ⟨s, htracks, hstep⟩ := h.step_block hcode
  rw [(htracks.repeats hrepeats).perform hle] at hstep
  exact ⟨_, hstep, htracks.rounds kind dir n⟩

/-- The single form of a block instruction is a round. -/
theorem step_round {kind : BlockKind} {dir : Direction} (h : Tracks t a m)
    (hcode : t.bus.Holds a [0xED, kind.opcode dir false]) :
    ∃ m', Exec.step 1 m = (.ok (), m') ∧ Tracks (afterRound kind dir t) (a + 2) m' := by
  obtain ⟨s, htracks, hstep⟩ := h.step_block hcode
  exact ⟨_, hstep, htracks.round kind dir⟩

/-- A jump on a condition goes to its target or past its bytes. -/
theorem step_jump {op : UInt8} {target : UInt16} (h : Tracks t a m) (cc : Condition)
    (hop : Lead.ofByte op = .plain (.word (.jump (some cc))))
    (hcode : t.bus.Holds a (jumpCode op target)) :
    ∃ m', Exec.step 1 m = (.ok (), m') ∧
      Tracks t (if cc.holds t.cpu.regs.f then target else a + 3) m' := by
  have hfirst : m.ahead 0 = op := (h.ahead 0).trans (hcode.peek (by decide : 0 < 3))
  have hlow : m.ahead 1 = low target := (h.ahead 1).trans (hcode.peek (by decide : 1 < 3))
  have hhigh : m.ahead 2 = high target := (h.ahead 2).trans (hcode.peek (by decide : 2 < 3))
  have hspells : Spells m (.jump (some cc) target) 3 1 := by
    have hword : Spells m (.jump (some cc) (join (m.ahead 2) (m.ahead 1))) 3 1 :=
      spells_plain (hfirst ▸ hop)
    rwa [hlow, hhigh, join_high_low] at hword
  obtain ⟨s, htracks, hstep⟩ := h.step_one hspells
  refine ⟨_, hstep, ?_⟩
  have hflags : s.cpu.regs.f = t.cpu.regs.f := by
    rw [htracks.regs]
  have hperform : (perform (.jump (some cc) target) s).2 =
      if cc.holds s.cpu.regs.f then (setPC target s).2 else s := by
    show ((if cc.holds s.cpu.regs.f then setPC target else pure () : Exec Board ω Unit) s).2 = _
    split <;> rfl
  rw [hperform, hflags]
  split
  · exact ⟨htracks.bus, congrArg (fun r => { r with pc := target }) htracks.regs, htracks.fault,
      htracks.halted⟩
  · exact htracks

/-! ## The loop -/

section Pass

variable {kind : BlockKind} {dir : Direction} {l found : UInt16}

/-- The round at the beginning of the loop leads to the jumps. -/
theorem enter (h : Tracks t l m) (hcode : t.bus.Holds l (kind.loop dir l found)) :
    ∃ m', Goes (Inside l kind.loopLength) m m' ∧ Tracks (afterRound kind dir t) (l + 2) m' := by
  obtain ⟨m', hstep, h'⟩ := h.step_round hcode.left
  have hinside : Inside l kind.loopLength m.cpu.regs.pc :=
    ⟨0, by cases kind <;> decide, h.pc.trans (UInt16.add_zero l).symm⟩
  exact ⟨m', .head hinside hstep (.refl m'), h'⟩

/-- The jump of a loop with one test. -/
theorem jump {op : UInt8} (h : Tracks t (l + 2) m) (hkind : kind ≠ .compare) (cc : Condition)
    (hop : Lead.ofByte op = .plain (.word (.jump (some cc))))
    (hcode : t.bus.Holds (l + 2) (jumpCode op l))
    (htest : cc.holds t.cpu.regs.f = kind.continues t.cpu.regs) :
    ∃ m', Goes (Inside l kind.loopLength) m m' ∧
      Tracks t (if kind.continues t.cpu.regs then l else kind.exit l found t.cpu.regs.f) m' := by
  obtain ⟨m', hstep, h'⟩ := h.step_jump cc hop hcode
  have hinside : Inside l kind.loopLength m.cpu.regs.pc :=
    ⟨2, by cases kind <;> decide, h.pc⟩
  have hexit : kind.exit l found t.cpu.regs.f = l + 2 + 3 := by
    rw [BlockKind.exit, if_neg fun hz => hkind hz.1, UInt16.add_assoc]
    cases kind with
    | compare => exact absurd rfl hkind
    | load | input | output => rfl
  rw [htest] at h'
  rw [hexit]
  exact ⟨m', .head hinside hstep (.refl m'), h'⟩

/-- The jumps of a search: one of them leaves the loop, the other one repeats it. -/
theorem jumps_compare (h : Tracks t (l + 2) m)
    (hcode : t.bus.Holds (l + 2) (BlockKind.compare.jumps l found))
    (htest : Flag.p.isSet t.cpu.regs.f = !BlockKind.compare.spent t.cpu.regs) :
    ∃ m', Goes (Inside l BlockKind.compare.loopLength) m m' ∧
      Tracks t (if BlockKind.compare.continues t.cpu.regs then l
        else BlockKind.compare.exit l found t.cpu.regs.f) m' := by
  obtain ⟨m₁, hstep₁, h₁⟩ := h.step_jump .z rfl hcode.left
  rw [Condition.holds] at h₁
  have hinside : Inside l BlockKind.compare.loopLength m.cpu.regs.pc := ⟨2, by decide, h.pc⟩
  rw [BlockKind.continues_compare, ← htest, BlockKind.exit]
  cases hz : Flag.z.isSet t.cpu.regs.f with
  | true =>
    rw [if_pos hz] at h₁
    refine ⟨m₁, .head hinside hstep₁ (.refl m₁), ?_⟩
    simpa using h₁
  | false =>
    rw [if_neg (by rw [hz]; exact Bool.false_ne_true)] at h₁
    have hsecond : t.bus.Holds (l + 2 + 3) (jumpCode 0xEA l) := hcode.right
    obtain ⟨m₂, hstep₂, h₂⟩ := h₁.step_jump .pe rfl hsecond
    rw [Condition.holds] at h₂
    have hinside₁ : Inside l BlockKind.compare.loopLength m₁.cpu.regs.pc :=
      ⟨5, by decide, h₁.pc.trans (UInt16.add_assoc l 2 3)⟩
    have hend : l + 2 + 3 + 3 = l + UInt16.ofNat BlockKind.compare.loopLength := by
      rw [UInt16.add_assoc, UInt16.add_assoc]
      rfl
    refine ⟨m₂, .head hinside hstep₁ (.head hinside₁ hstep₂ (.refl m₂)), ?_⟩
    rw [hend] at h₂
    simpa using h₂

/-- Once through the loop is one round, and the jumps behind it tell whether there is another. -/
theorem pass (h : Tracks t l m) (hbefore : t.bus.Holds l (kind.loop dir l found))
    (hafter : (afterRound kind dir t).bus.Holds l (kind.loop dir l found)) :
    let t' := afterRound kind dir t
    ∃ m', Goes (Inside l kind.loopLength) m m' ∧
      Tracks t' (if kind.continues t'.cpu.regs then l else kind.exit l found t'.cpu.regs.f) m' := by
  intro t'
  obtain ⟨m₁, hgoes, h₁⟩ := h.enter hbefore
  have hjumps : t'.bus.Holds (l + 2) (kind.jumps l found) := hafter.right
  suffices hsuffices : ∃ m', Goes (Inside l kind.loopLength) m₁ m' ∧
      Tracks t' (if kind.continues t'.cpu.regs then l else kind.exit l found t'.cpu.regs.f) m' by
    obtain ⟨m', hgoes', h'⟩ := hsuffices
    exact ⟨m', hgoes.trans hgoes', h'⟩
  cases kind with
  | load =>
    have hp : Flag.p.isSet t'.cpu.regs.f = !BlockKind.load.spent t'.cpu.regs :=
      isSet_p_afterRound dir t (.inl rfl)
    exact h₁.jump (by decide) .pe rfl hjumps hp
  | compare => exact h₁.jumps_compare hjumps (isSet_p_afterRound dir t (.inr rfl))
  | input =>
    have hz : Flag.z.isSet t'.cpu.regs.f = BlockKind.input.spent t'.cpu.regs :=
      isSet_z_afterRound dir t (.inl rfl)
    exact h₁.jump (by decide) .nz rfl hjumps (congrArg not hz)
  | output =>
    have hz : Flag.z.isSet t'.cpu.regs.f = BlockKind.output.spent t'.cpu.regs :=
      isSet_z_afterRound dir t (.inr rfl)
    exact h₁.jump (by decide) .nz rfl hjumps (congrArg not hz)

/-- As long as it does not overwrite itself, the loop goes on for as many rounds as the repeated
form makes, and is left then. -/
theorem loop {n : Nat} (h : Tracks t l m) (hrepeats : Repeats kind dir t n)
    (hcode : ∀ j ≤ n, ((afterRound kind dir)^[j] t).bus.Holds l (kind.loop dir l found)) :
    let t' := (afterRound kind dir)^[n] t
    ∃ m', Goes (Inside l kind.loopLength) m m' ∧
      Tracks t' (kind.exit l found t'.cpu.regs.f) m' := by
  intro t'
  induction n generalizing t m with
  | zero => exact absurd hrepeats.pos (Nat.lt_irrefl 0)
  | succ n ih =>
    obtain ⟨m₁, hgoes, h₁⟩ := h.pass (hcode 0 (Nat.zero_le _)) (hcode 1 (Nat.succ_pos n))
    cases n with
    | zero =>
      have hstops : kind.continues (afterRound kind dir t).cpu.regs = false := hrepeats.stops
      rw [if_neg (by rw [hstops]; exact Bool.false_ne_true)] at h₁
      exact ⟨m₁, hgoes, h₁⟩
    | succ n =>
      have hgoes₁ : kind.continues (afterRound kind dir t).cpu.regs = true :=
        hrepeats.goes 1 Nat.one_pos (by omega)
      rw [if_pos hgoes₁] at h₁
      obtain ⟨m', hgoes', h'⟩ := ih h₁ (hrepeats.tail (Nat.succ_pos n))
        fun j hj => hcode (j + 1) (Nat.succ_le_succ hj)
      exact ⟨m', hgoes.trans hgoes', h'⟩

end Pass

end Tracks

/-! ## The instruction and the loop -/

/-- Where no round writes to it, code stays where it is. -/
theorem holds_iterate_afterRound {kind : BlockKind} {dir : Direction} {t : Machine Board ω}
    {a : UInt16} {bytes : List UInt8} {j n : Nat} (hcode : t.bus.Holds a bytes) (hle : j ≤ n)
    (hclear : ∀ b, kind.target t.cpu.regs = some b → ∀ i < n,
      ¬Inside a bytes.length (dir.walk b i)) :
    ((afterRound kind dir)^[j] t).bus.Holds a bytes := by
  apply hcode.congr
  intro c hc
  apply peek_iterate_afterRound
  intro b hb i hi hwalk
  exact hclear b hb i (Nat.lt_of_lt_of_le hi hle) (hwalk ▸ hc)

/-- A repeated block instruction at `p` and the loop at `l` over its single form, begun in the same
state, leave the same board behind, and the same registers but for the program counter and R,
provided that no round writes to the loop. Every step of the loop begins inside of it, and it ends
behind its last jump, or at `found` where a search has been successful. -/
theorem step_blockLoop (kind : BlockKind) (dir : Direction) (m : Machine Board ω)
    (p l found : UInt16) (hfault : m.cpu.fault = none) (hhalted : m.cpu.regs.halted = false)
    (honce : m.bus.Holds p [0xED, kind.opcode dir true])
    (hloop : m.bus.Holds l (kind.loop dir l found))
    (hclear : ∀ a, kind.target m.cpu.regs = some a → ∀ i < kind.rounds m.cpu.regs,
      ¬Inside l kind.loopLength (dir.walk a i)) :
    let once := step 1 (m.startingAt p)
    ∃ count,
      let after := step count (m.startingAt l)
      once.1 = .ok () ∧ after.1 = .ok () ∧
      (∀ j < count, Inside l kind.loopLength (step j (m.startingAt l)).2.cpu.regs.pc) ∧
      after.2.cpu.regs.pc = kind.exit l found once.2.cpu.regs.f ∧
      after.2.bus = once.2.bus ∧
      after.2.cpu.regs =
        { once.2.cpu.regs with pc := after.2.cpu.regs.pc, r := after.2.cpu.regs.r } := by
  intro once
  have hone : Tracks m p (m.startingAt p) := ⟨rfl, rfl, hfault, hhalted⟩
  have hmany : Tracks m l (m.startingAt l) := ⟨rfl, rfl, hfault, hhalted⟩
  obtain ⟨n, hle, hrepeats⟩ := exists_repeats kind dir m
  obtain ⟨m₁, hstep₁, h₁⟩ :=
    hone.step_repeats honce hrepeats (Nat.le_trans hle (kind.rounds_le _))
  obtain ⟨m₂, hgoes, h₂⟩ := hmany.loop hrepeats fun j hj =>
    holds_iterate_afterRound hloop (Nat.le_trans hj hle) (kind.length_loop dir l found ▸ hclear)
  obtain ⟨count, hstep₂, hinside⟩ := hgoes.step h₂.fault
  have honce : once = (.ok (), m₁) := hstep₁
  refine ⟨count, ?_⟩
  rw [honce, hstep₂]
  refine ⟨rfl, rfl, hinside, ?_, h₂.bus.trans h₁.bus.symm, ?_⟩
  · rw [h₂.pc, h₁.regs]
  · rw [h₁.regs]
    exact h₂.pc ▸ h₂.regs

/-- LDIR at the first address and the loop over LDI at 10, for a copy of two bytes. -/
theorem step_blockLoop_copy :
    let memory := (Memory.zero.load 0 [0xED, 0xB0]).load 0x10 [0xED, 0xA0, 0xEA, 0x10, 0x00]
    let m : Machine Board Unit := ⟨{ regs := { c := 2, d := 0x80 } }, { memory }, ()⟩
    m.bus.Holds 0 [0xED, BlockKind.load.opcode .up true] ∧
      m.bus.Holds 0x10 (BlockKind.load.loop .up 0x10 0) ∧
      ∃ count,
        (step count (m.startingAt 0x10)).2.cpu.regs.pc = 0x15 ∧
        (step count (m.startingAt 0x10)).2.bus = (step 1 (m.startingAt 0)).2.bus := by
  intro memory m
  have honce : m.bus.Holds 0 [0xED, BlockKind.load.opcode .up true] := by
    decide +kernel
  have hloop : m.bus.Holds 0x10 (BlockKind.load.loop .up 0x10 0) := by
    decide +kernel
  have hclear : ∀ a, BlockKind.load.target m.cpu.regs = some a →
      ∀ i < BlockKind.load.rounds m.cpu.regs,
        ¬Inside 0x10 BlockKind.load.loopLength (Direction.up.walk a i) := by
    rintro _ ⟨⟩
    unfold Inside
    decide
  obtain ⟨count, -, -, -, hpc, hbus, -⟩ :=
    step_blockLoop .load .up m 0 0x10 0 rfl rfl honce hloop hclear
  exact ⟨honce, hloop, count, hpc, hbus⟩

end Exec

end Z80
