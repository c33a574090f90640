import Mathlib.Data.List.GetD
import Z80.Proofs.BlockCopy
import Z80.Proofs.FetchOrder

/-!
# Block transfers through a port

INIR and INDR fill cells from a port, OTIR and OTDR send cells to one. The address of the port
counts down with B, after an input but before an output, while the port itself is told by C
alone, so all bytes come from one queue.

Main definitions:
- `Port.upcoming`, `Port.drained`: the bytes that a port gives out, and the port after them.
- `Registers.afterPorts`: the registers after so many rounds.

Main statements: `iterate_input` and `iterate_output` say what so many rounds do to a board and
by which accesses, and `runOne_blockPorts` is about whole instructions.
-/

namespace Z80

/-! ## A port that is read again and again -/

namespace Port

/-- The byte that a port gives out after `i` others: one that has been waiting, or the latch. -/
def upcoming (p : Port) (i : Nat) : UInt8 :=
  p.queue.getD i p.latch

/-- The port once `n` bytes have been read from it. -/
def drained (p : Port) (n : Nat) : Port :=
  { p with queue := p.queue.drop n }

theorem read_drained (p : Port) (n : Nat) :
    (p.drained n).read = (p.upcoming n, p.drained (n + 1)) := by
  by_cases h : n < p.queue.length
  · rw [read_of_cons (p := p.drained n) (List.drop_eq_getElem_cons h), upcoming,
      List.getD_eq_getElem _ _ h]
    rfl
  · -- the queue has run dry, and another byte leaves it so
    have hdry : p.queue.drop n = [] := List.drop_eq_nil_of_le (Nat.le_of_not_lt h)
    have hmore : p.queue.drop (n + 1) = [] :=
      List.drop_eq_nil_of_le (Nat.le_succ_of_le (Nat.le_of_not_lt h))
    rw [read_of_nil (p := p.drained n) hdry, upcoming,
      List.getD_eq_default _ _ (Nat.le_of_not_lt h), drained, drained, hdry, hmore]

end Port

theorem Board.putPort_putPort (b : Board) (n : UInt8) (p q : Port) :
    (b.putPort n p).putPort n q = b.putPort n q := by
  have hset : (b.ports.set n.toNat p n.toNat_lt).set n.toNat q n.toNat_lt =
      b.ports.set n.toNat q n.toNat_lt := Vector.set_set ..
  exact congrArg (fun ports => { b with ports }) hset

/-! ## Registers -/

/-- The flags after a round on a port: N is set, and Z tells whether it was the last. -/
def portFlags (last : Bool) (f : UInt8) : UInt8 :=
  f |> Flag.n.put true |> Flag.z.put last

theorem portFlags_portFlags (b b' : Bool) (f : UInt8) :
    portFlags b (portFlags b' f) = portFlags b f := by
  apply Flag.ext
  intro g
  simp only [portFlags, Flag.isSet_put]
  cases g <;> rfl

namespace Registers

/-- The registers after `n` rounds on a port, one at least. -/
def afterPorts (r : Registers) (dir : Direction) (n : Nat) : Registers :=
  let b := r.b - UInt8.ofNat n
  { r.setHL (dir.walk r.hl n) with b, f := portFlags (b == 0) r.f }

/-- The accesses of `n` rounds that take these bytes from the port at C: an input under the
address BC, and a store. -/
def inputAccesses (r : Registers) (dir : Direction) (byte : Nat → UInt8) (n : Nat) : List Event :=
  (List.range n).flatMap fun i =>
    [.input (join (r.b - UInt8.ofNat i) r.c) (byte i), .write (dir.walk r.hl i) (byte i)]

/-- The accesses of `n` rounds that send these cells to the port at C: a read, and an output under
the address BC, in which B is one less already. -/
def outputAccesses (r : Registers) (dir : Direction) (cell : Nat → UInt8) (n : Nat) : List Event :=
  (List.range n).flatMap fun i =>
    [.read (dir.walk r.hl i) (cell i), .output (join (r.b - UInt8.ofNat (i + 1)) r.c) (cell i)]

variable (r : Registers) (dir : Direction) (n : Nat)

theorem hl_afterPorts : (r.afterPorts dir n).hl = dir.walk r.hl n :=
  join_high_low _

theorem afterPorts_one : r.afterPorts dir 1 = r.afterPort dir := by
  rw [afterPorts, ← dir.next_eq_walk]
  rfl

theorem afterPort_afterPorts : (r.afterPorts dir n).afterPort dir = r.afterPorts dir (n + 1) := by
  have hb : (r.afterPorts dir n).b - UInt8.ofNat 1 = r.b - UInt8.ofNat (n + 1) :=
    sub_ofNat_succ r.b n
  have hf : (r.afterPorts dir n).f = portFlags (r.b - UInt8.ofNat n == 0) r.f := rfl
  rw [← afterPorts_one, afterPorts, hl_afterPorts, dir.walk_walk, hb, hf, portFlags_portFlags]
  rfl

end Registers

namespace Exec

/-! ## Rounds -/

section Rounds

variable {β ω : Type} [Bus β] [Observer ω]

theorem cpu_afterRound_port {kind : BlockKind} (hkind : kind = .input ∨ kind = .output)
    (dir : Direction) (m : Machine β ω) :
    (afterRound kind dir m).cpu = { m.cpu with regs := m.cpu.regs.afterPort dir } := by
  rcases hkind with rfl | rfl <;> rfl

/-- What comes through the port is of no importance to the registers. -/
theorem cpu_iterate_port {kind : BlockKind} (hkind : kind = .input ∨ kind = .output)
    (dir : Direction) (n : Nat) (m : Machine β ω) :
    ((afterRound kind dir)^[n + 1] m).cpu =
      { m.cpu with regs := m.cpu.regs.afterPorts dir (n + 1) } := by
  induction n with
  | zero =>
    rw [Function.iterate_succ_apply', cpu_afterRound_port hkind, Registers.afterPorts_one]
    rfl
  | succ n ih =>
    rw [Function.iterate_succ_apply', cpu_afterRound_port hkind, ih, Registers.afterPort_afterPorts]

/-- Where a round finds its cell and its port. -/
theorem addresses_iterate_port {kind : BlockKind} (hkind : kind = .input ∨ kind = .output)
    (dir : Direction) (n : Nat) (m : Machine β ω) :
    let r := ((afterRound kind dir)^[n] m).cpu.regs
    r.hl = dir.walk m.cpu.regs.hl n ∧ r.b = m.cpu.regs.b - UInt8.ofNat n ∧ r.c = m.cpu.regs.c := by
  cases n with
  | zero => exact ⟨(dir.walk_zero _).symm, (UInt8.sub_zero _).symm, rfl⟩
  | succ n =>
    simp only [cpu_iterate_port hkind]
    exact ⟨Registers.hl_afterPorts _ dir _, rfl, rfl⟩

end Rounds

variable {ω : Type} [Observer ω]

theorem input_bc (r : Registers) (b : Board) :
    b.input r.bc = ((b.port r.c).read.1, b.putPort r.c (b.port r.c).read.2) := by
  have hport : r.bc.toUInt8 = r.c := low_join r.b r.c
  rw [← hport]
  rfl

/-- A round of an input reads the port and stores what it gives. -/
theorem round_input (dir : Direction) (m : Machine (Tapped Board) ω) :
    let r := m.cpu.regs
    let v := (m.bus.inner.port r.c).read.1
    (afterRound .input dir m).bus.inner =
        { m.bus.inner.putPort r.c (m.bus.inner.port r.c).read.2 with
          memory := m.bus.inner.memory.set r.hl v } ∧
      (afterRound .input dir m).accesses = m.accesses ++ [.input r.bc v, .write r.hl v] := by
  intro r v
  have hinput := input_bc r m.bus.inner
  constructor
  · show (m.bus.inner.input r.bc).2.poke r.hl (m.bus.inner.input r.bc).1 = _
    rw [hinput]
    rfl
  · have hread : (Exec.input r.bc m).2.accesses = m.accesses ++ [.input r.bc v] := by
      refine (Recorder.events_notify _ _).trans ?_
      show _ ++ [Event.input r.bc (m.bus.inner.input r.bc).1] = _
      rw [hinput]
      rfl
    refine (Recorder.events_notify _ _).trans ?_
    show (Exec.input r.bc m).2.accesses ++ [.write r.hl (m.bus.inner.input r.bc).1] = _
    rw [hread, hinput, List.append_assoc]
    rfl

/-- A round of an output reads its cell and writes that to the port. -/
theorem round_output (dir : Direction) (m : Machine (Tapped Board) ω) :
    let r := m.cpu.regs
    let a := join (r.b - 1) r.c
    let v := m.bus.inner.peek r.hl
    (afterRound .output dir m).bus.inner = m.bus.inner.output a v ∧
      (afterRound .output dir m).accesses = m.accesses ++ [.read r.hl v, .output a v] := by
  intro r a v
  refine ⟨rfl, (Recorder.events_notify _ _).trans ?_⟩
  show (Exec.read r.hl m).2.accesses ++ [.output a v] = _
  rw [accesses_read, List.append_assoc]
  rfl

/-- What so many rounds of an input do to a board, and the accesses that they make. -/
theorem iterate_input (dir : Direction) (n : Nat) (m : Machine (Tapped Board) ω) :
    let r := m.cpu.regs
    let p := m.bus.inner.port r.c
    let m' := (afterRound .input dir)^[n] m
    m'.bus.inner =
        { m.bus.inner.putPort r.c (p.drained n) with
          memory := m.bus.inner.memory.filled dir r.hl p.upcoming n } ∧
      m'.accesses = m.accesses ++ r.inputAccesses dir p.upcoming n := by
  intro r p m'
  induction n with
  | zero =>
    refine ⟨?_, (List.append_nil _).symm⟩
    show m.bus.inner = { m.bus.inner.putPort r.c p with memory := m.bus.inner.memory }
    rw [Board.putPort_port]
  | succ n ih =>
    obtain ⟨hbus, haccesses⟩ := ih
    obtain ⟨hhl, hb, hc⟩ := addresses_iterate_port (.inl rfl) dir n m
    obtain ⟨hbus', haccesses'⟩ := round_input dir ((afterRound .input dir)^[n] m)
    -- the port has given out as many bytes as there have been rounds
    have hport : ((afterRound .input dir)^[n] m).bus.inner.port r.c = p.drained n := by
      rw [hbus]
      exact (Board.port_putPort _ _ _ _).trans (if_pos rfl)
    have hbc : ((afterRound .input dir)^[n] m).cpu.regs.bc = join (r.b - UInt8.ofNat n) r.c := by
      rw [Bank.bc, hb, hc]
    rw [hc, hport, Port.read_drained, hhl] at hbus' haccesses'
    rw [← Function.iterate_succ_apply' (afterRound .input dir)] at hbus' haccesses'
    constructor
    · refine hbus'.trans ?_
      rw [hbus]
      show { (m.bus.inner.putPort r.c (p.drained n)).putPort r.c (p.drained (n + 1)) with
        memory := m.bus.inner.memory.filled dir r.hl p.upcoming (n + 1) } = _
      rw [Board.putPort_putPort]
    · refine haccesses'.trans ?_
      rw [haccesses, hbc, Registers.inputAccesses, Registers.inputAccesses, List.range_succ,
        List.flatMap_append, List.append_assoc]
      rfl

/-- What so many rounds of an output do to a board, and the accesses that they make. -/
theorem iterate_output (dir : Direction) (n : Nat) (m : Machine (Tapped Board) ω) :
    let r := m.cpu.regs
    let cell := fun i => m.bus.inner.peek (dir.walk r.hl i)
    let address := fun i => join (r.b - UInt8.ofNat (i + 1)) r.c
    let m' := (afterRound .output dir)^[n] m
    m'.bus.inner =
        { m.bus.inner with
          written := m.bus.inner.written ++
            ((List.range n).map fun i => (address i, cell i)).toArray } ∧
      m'.accesses = m.accesses ++ r.outputAccesses dir cell n := by
  intro r cell address m'
  induction n with
  | zero => exact ⟨rfl, (List.append_nil _).symm⟩
  | succ n ih =>
    obtain ⟨hbus, haccesses⟩ := ih
    obtain ⟨hhl, hb, hc⟩ := addresses_iterate_port (.inr rfl) dir n m
    obtain ⟨hbus', haccesses'⟩ := round_output dir ((afterRound .output dir)^[n] m)
    have hcell : ((afterRound .output dir)^[n] m).bus.inner.peek (dir.walk r.hl n) = cell n := by
      rw [hbus]
      rfl
    rw [hb, hc, Registers.sub_ofNat_succ, hhl, hcell] at hbus' haccesses'
    rw [← Function.iterate_succ_apply' (afterRound .output dir)] at hbus' haccesses'
    constructor
    · have hlog : (m.bus.inner.written ++
          ((List.range n).map fun i => (address i, cell i)).toArray).push (address n, cell n) =
            m.bus.inner.written ++
              ((List.range (n + 1)).map fun i => (address i, cell i)).toArray := by
        rw [List.range_succ, List.map_append, ← List.append_toArray, Array.append_assoc.symm]
        rfl
      refine hbus'.trans ?_
      rw [hbus]
      exact congrArg (fun written => { m.bus.inner with written }) hlog
    · refine haccesses'.trans ?_
      rw [haccesses, Registers.outputAccesses, Registers.outputAccesses, List.range_succ,
        List.flatMap_append, List.append_assoc]
      rfl

/-! ## Whole instructions -/

section Instructions

variable {m : Machine Board ω}

/-- An instruction behind ED without operand bytes is taken in by two reads. -/
theorem accesses_fetched_ed {i : Instruction} (hed : m.bus.peek m.cpu.regs.pc = 0xED)
    (hop : Page.ed (m.bus.peek (m.cpu.regs.pc + 1)) = some (.done i)) :
    (fetched m.tap).accesses =
      [.read m.cpu.regs.pc 0xED, .read (m.cpu.regs.pc + 1) (m.bus.peek (m.cpu.regs.pc + 1))] := by
  obtain ⟨bytes, aheads, haccesses, hlooks, hcurrent, -⟩ := takesIn_fetched m
  have hfetch : Fetching m (fetched m) 2 2 := (spells_ed hed hop).fetched
  have hcpu : (fetched m.tap).cpu = (fetched m).cpu := congrArg Machine.cpu (upcoming_tap m).2
  have hbytes : m.bus.bytesAt m.cpu.regs.pc 2 = [0xED, m.bus.peek (m.cpu.regs.pc + 1)] := by
    show [m.bus.peek (m.cpu.regs.pc + 0), _] = _
    rw [UInt16.add_zero, hed]
    rfl
  rw [hcpu, hfetch.current, hbytes, Current.mk.injEq] at hcurrent
  rw [← hcurrent.2] at hlooks haccesses
  obtain rfl : aheads = [] := List.eq_nil_of_length_eq_zero hlooks
  exact haccesses

variable {kind : BlockKind} {dir : Direction}

/-- A repeated transfer through a port is `bCount` rounds behind two reads, also before a record
of what it does. -/
theorem runOne_tap_block (hkind : kind = .input ∨ kind = .output)
    (hed : m.bus.peek m.cpu.regs.pc = 0xED)
    (hop : Page.ed (m.bus.peek (m.cpu.regs.pc + 1)) = some (.done (.block kind dir true))) :
    ∃ t : Machine (Tapped Board) (ω × Recorder),
      t.bus.inner = m.bus ∧ t.cpu.regs = m.cpu.advanced 2 2 ∧
      t.accesses =
        [.read m.cpu.regs.pc 0xED, .read (m.cpu.regs.pc + 1) (m.bus.peek (m.cpu.regs.pc + 1))] ∧
      runOne m.tap = (.ok (), (afterRound kind dir)^[m.cpu.regs.bCount] t) := by
  have hspells : Spells m (.block kind dir true) 2 2 := spells_ed hed hop
  obtain ⟨hupcoming, hfetched⟩ := upcoming_tap m
  have hbus : (fetched m.tap).bus.inner = (fetched m).bus := congrArg Machine.bus hfetched
  have hcpu : (fetched m.tap).cpu = (fetched m).cpu := congrArg Machine.cpu hfetched
  have hregs : (fetched m.tap).cpu.regs = m.cpu.advanced 2 2 := by
    rw [hcpu, hspells.fetched.regs]
  refine ⟨fetched m.tap, hbus.trans hspells.fetched.bus, hregs, accesses_fetched_ed hed hop, ?_⟩
  have hrounds : kind.rounds (fetched m.tap).cpu.regs = m.cpu.regs.bCount := by
    rw [hregs]
    rcases hkind with rfl | rfl <;> rfl
  have hne : kind ≠ .compare := by
    rcases hkind with rfl | rfl <;> decide
  have hperform := (repeats_rounds dir (fetched m.tap) hne).perform (BlockKind.rounds_le _ _)
  rw [hrounds] at hperform
  rw [runOne_of_upcoming (hupcoming.trans hspells.upcoming), hperform]

/-- The registers after all rounds. -/
theorem regs_iterate_port (hkind : kind = .input ∨ kind = .output)
    {t : Machine (Tapped Board) (ω × Recorder)} (hregs : t.cpu.regs = m.cpu.advanced 2 2) :
    ((afterRound kind dir)^[m.cpu.regs.bCount] t).cpu.regs =
      { (m.cpu.advanced 2 2).setHL (dir.walk m.cpu.regs.hl m.cpu.regs.bCount) with
        b := 0
        f := m.cpu.regs.f |> Flag.n.put true |> Flag.z.put true } := by
  have hend := m.cpu.regs.sub_bCount
  obtain ⟨n, hn⟩ := Nat.exists_eq_succ_of_ne_zero (Nat.ne_of_gt m.cpu.regs.bCount_pos)
  rw [hn] at hend ⊢
  rw [cpu_iterate_port hkind, hregs]
  show { (m.cpu.advanced 2 2).setHL (dir.walk m.cpu.regs.hl (n + 1)) with
    b := m.cpu.regs.b - UInt8.ofNat (n + 1)
    f := portFlags (m.cpu.regs.b - UInt8.ofNat (n + 1) == 0) m.cpu.regs.f } = _
  rw [hend]
  rfl

/-- A repeated transfer through a port has been carried out, and these are the accesses that a
record at the bus shows behind those that take in its bytes. Of the registers HL, B and the flags N
and Z have changed, and the program counter and R. -/
structure PortTransfer (dir : Direction) (m : Machine Board ω) (data : List Event) : Prop where
  result : (runOne m).1 = .ok ()
  /-- The record makes no difference. -/
  untap : (runOne m.tap).2.untap = (runOne m).2
  accesses : (runOne m.tap).2.accesses =
    [.read m.cpu.regs.pc 0xED, .read (m.cpu.regs.pc + 1) (m.bus.peek (m.cpu.regs.pc + 1))] ++ data
  regs : (runOne m).2.cpu.regs =
    { (m.cpu.advanced 2 2).setHL (dir.walk m.cpu.regs.hl m.cpu.regs.bCount) with
      b := 0
      f := m.cpu.regs.f |> Flag.n.put true |> Flag.z.put true }
  record : (runOne m).2.cpu.SameRecord m.cpu.countInstruction

/-- All that is left is to say what the rounds do. -/
theorem portTransfer (hkind : kind = .input ∨ kind = .output)
    (hed : m.bus.peek m.cpu.regs.pc = 0xED)
    (hop : Page.ed (m.bus.peek (m.cpu.regs.pc + 1)) = some (.done (.block kind dir true)))
    {data : List Event} {b' : Board}
    (hrounds : ∀ t : Machine (Tapped Board) (ω × Recorder),
      t.bus.inner = m.bus → t.cpu.regs = m.cpu.advanced 2 2 →
      let t' := (afterRound kind dir)^[m.cpu.regs.bCount] t
      t'.bus.inner = b' ∧ t'.accesses = t.accesses ++ data) :
    PortTransfer dir m data ∧ (runOne m).2.bus = b' := by
  obtain ⟨t, hbus, hregs, haccesses, hrun⟩ := runOne_tap_block hkind hed hop
  obtain ⟨hbus', haccesses'⟩ := hrounds t hbus hregs
  obtain ⟨hresult, huntap⟩ := untap_runOne m.tap
  -- what the tapped machine leaves is what the machine inside it leaves
  have hinner : (runOne m.tap).2.bus.inner = (runOne m).2.bus := congrArg Machine.bus huntap
  have hcpu : (runOne m.tap).2.cpu = (runOne m).2.cpu := congrArg Machine.cpu huntap
  refine ⟨⟨?_, huntap, ?_, ?_, runOne_sameRecord m⟩, ?_⟩
  · refine hresult.symm.trans ?_
    rw [hrun]
  · rw [hrun]
    refine haccesses'.trans ?_
    rw [haccesses]
  · rw [← hcpu, hrun]
    exact regs_iterate_port hkind hregs
  · rw [← hinner, hrun]
    exact hbus'

end Instructions

/-- INIR, INDR, OTIR and OTDR in closed form. With `n` rounds, an input moves `n` bytes of one port
to as many cells, first those that wait in its queue and then its latch, and an output logs as many
cells under the addresses that its rounds give. -/
theorem runOne_blockPorts (dir : Direction) (m : Machine Board ω)
    (hed : m.bus.peek m.cpu.regs.pc = 0xED) :
    let r := m.cpu.regs
    let n := r.bCount
    let b' := (runOne m).2.bus
    (m.bus.peek (r.pc + 1) = BlockKind.input.opcode dir true →
      let p := m.bus.port r.c
      let byte := fun i => p.queue.getD i p.latch
      PortTransfer dir m (r.inputAccesses dir byte n) ∧
      (∀ i < n, b'.peek (dir.walk r.hl i) = byte i) ∧
      (∀ a, (∀ i < n, a ≠ dir.walk r.hl i) → b'.peek a = m.bus.peek a) ∧
      (∀ k, b'.port k = if r.c = k then { p with queue := p.queue.drop n } else m.bus.port k) ∧
      b'.written = m.bus.written ∧ b'.faults = m.bus.faults) ∧
    (m.bus.peek (r.pc + 1) = BlockKind.output.opcode dir true →
      let cell := fun i => m.bus.peek (dir.walk r.hl i)
      let entries := (List.range n).map fun i => (join (r.b - UInt8.ofNat (i + 1)) r.c, cell i)
      PortTransfer dir m (r.outputAccesses dir cell n) ∧
      b' = { m.bus with written := m.bus.written ++ entries.toArray }) := by
  intro r n b'
  constructor
  · intro h p byte
    have hop : Page.ed (m.bus.peek (m.cpu.regs.pc + 1)) = some (.done (.block .input dir true)) :=
      h ▸ BlockKind.input.ed_opcode dir true
    obtain ⟨htransfer, hbus⟩ :
        PortTransfer dir m (r.inputAccesses dir byte n) ∧
          b' = { m.bus.putPort r.c (p.drained n) with
            memory := m.bus.memory.filled dir r.hl byte n } :=
      portTransfer (.inl rfl) hed hop fun t hinner hregs => by
        have hrounds := iterate_input dir n t
        rw [hinner, hregs] at hrounds
        exact hrounds
    have hn : n ≤ 65536 := Nat.le_trans r.bCount_le (by decide)
    have hpeek (a : UInt16) : b'.peek a = (m.bus.memory.filled dir r.hl byte n).get a :=
      congrArg (·.peek a) hbus
    refine ⟨htransfer, ?_, ?_, ?_, ?_, ?_⟩
    · intro i hi
      rw [hpeek]
      exact Memory.get_filled _ dir hn hi
    · intro a ha
      rw [hpeek]
      exact Memory.get_filled_of_ne _ dir ha
    · intro k
      refine (congrArg (·.port k) hbus).trans ?_
      exact Board.port_putPort m.bus r.c k (p.drained n)
    · exact (congrArg Board.written hbus).trans rfl
    · exact (congrArg Board.faults hbus).trans rfl
  · intro h cell entries
    have hop : Page.ed (m.bus.peek (m.cpu.regs.pc + 1)) = some (.done (.block .output dir true)) :=
      h ▸ BlockKind.output.ed_opcode dir true
    exact portTransfer (.inr rfl) hed hop fun t hinner hregs => by
      have hrounds := iterate_output dir n t
      rw [hinner, hregs] at hrounds
      exact hrounds

/-- With B at zero there are 256 rounds: the two bytes that wait are not enough for an input, which
goes on with the latch, and an output logs as many cells as there are rounds. -/
theorem runOne_blockPorts_dry :
    let board (op : UInt8) : Board :=
      Board.enqueue 0 [1, 2] { memory := (Memory.zero.set 0 0xED).set 1 op }
    let m (op : UInt8) : Machine Board Unit := ⟨{ regs := { h := 0x80 } }, board op, ()⟩
    (∀ op, (m op).bus.peek (m op).cpu.regs.pc = 0xED ∧
      (m op).bus.peek ((m op).cpu.regs.pc + 1) = op) ∧
    (runOne (m 0xB2)).2.bus.peek 0x8001 = 2 ∧ (runOne (m 0xB2)).2.bus.peek 0x80FF = 0xFF ∧
    ((runOne (m 0xB2)).2.bus.port 0).queue = [] ∧
    (runOne (m 0xB3)).2.bus.written.size = 256 := by
  intro board m
  have hed (op : UInt8) : (m op).bus.peek (m op).cpu.regs.pc = 0xED := by
    simp [m, board, Board.enqueue, Board.putPort, Board.peek, Memory.get_set]
  have hop (op : UInt8) : (m op).bus.peek ((m op).cpu.regs.pc + 1) = op := by
    simp [m, board, Board.enqueue, Board.putPort, Board.peek]
  have hport : (m 0xB2).bus.port (m 0xB2).cpu.regs.c = { queue := [1, 2] } := by
    refine (Board.port_putPort _ 0 0 _).trans ?_
    rw [if_pos rfl]
    simp [Board.port]
  obtain ⟨-, hcells, -, hports, -⟩ := (runOne_blockPorts .up (m 0xB2) (hed _)).1 (hop _)
  obtain ⟨-, hbus⟩ := (runOne_blockPorts .up (m 0xB3) (hed _)).2 (hop _)
  rw [hport] at hcells hports
  refine ⟨fun op => ⟨hed op, hop op⟩, hcells 1 (by decide), hcells 255 (by decide), ?_, ?_⟩
  · rw [hports 0]
    rfl
  · rw [hbus]
    simp [m, board, Board.enqueue, Board.putPort]
    rfl

end Exec

end Z80
