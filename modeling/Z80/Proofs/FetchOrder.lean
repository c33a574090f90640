import Z80.Proofs.Parts
import Z80.Proofs.Spelling
import Z80.Proofs.Tap

/-!
# The order of accesses

An instruction first reads its own bytes, one address after the other, and looks ahead behind
each index byte that leads it. Only when the last byte has been taken in does it read or write
anything else. So an instruction that writes over itself is still the one that was there.

Main definitions:
- `instructionReads`: the reads that take in given bytes, with the looks ahead among them.
- `Exec.TakesIn`: between two machines these bytes have been taken in by these accesses.
- `Exec.FetchOrder`: the order of all accesses of an instruction.

Main statements: `takesInFrom_dispatchWithin` follows the look-up of an instruction byte by byte,
and `fetch_order` is about whole instructions, on any bus and in particular on a board.
-/

namespace Z80

/-- The reads by which an instruction takes in these bytes from the address `a` on. Behind the
first ones it looks ahead at the byte that follows, and these are the answers. -/
def instructionReads (a : UInt16) : List UInt8 → List UInt8 → List Event
  | [], _ => []
  | v :: bytes, [] => .read a v :: instructionReads (a + 1) bytes []
  | v :: bytes, w :: aheads =>
    .read a v :: .read (a + 1) w :: instructionReads (a + 1) bytes aheads

namespace Exec

variable {β ω : Type}

/-! ## Taking in bytes -/

section Taking

variable {m m' m'' : Machine (Tapped β) ω} {bytes bytes' : List UInt8} {reads reads' : List Event}

/-- From one machine to the other these bytes have been taken in, and these are the accesses
that the bus has seen. -/
structure TakesIn (m m' : Machine (Tapped β) ω) (bytes : List UInt8) (reads : List Event) :
    Prop where
  accesses : m'.accesses = m.accesses ++ reads
  current : m'.cpu.current = ⟨m.cpu.current.start, m.cpu.current.bytes ++ bytes⟩
  pc : m'.cpu.regs.pc = m.cpu.regs.pc + UInt16.ofNat bytes.length

theorem TakesIn.refl (m : Machine (Tapped β) ω) : TakesIn m m [] [] where
  accesses := (List.append_nil _).symm
  current := by rw [List.append_nil]
  pc := (UInt16.add_zero _).symm

theorem TakesIn.trans (h : TakesIn m m' bytes reads) (h' : TakesIn m' m'' bytes' reads') :
    TakesIn m m'' (bytes ++ bytes') (reads ++ reads') where
  accesses := by rw [h'.accesses, h.accesses, List.append_assoc]
  current := by rw [h'.current, h.current, List.append_assoc]
  pc := by rw [h'.pc, h.pc, List.length_append, UInt16.ofNat_add, UInt16.add_assoc]

/-- Behind the byte `op`, which was read at the address `a`, these bytes have been taken in and
these looks ahead been answered, in the order of instruction reads. -/
structure TakesInFrom (a : UInt16) (op : UInt8) (m m' : Machine (Tapped β) ω)
    (more aheads : List UInt8) : Prop where
  takesIn : ∃ reads, TakesIn m m' more reads ∧
    .read a op :: reads = instructionReads a (op :: more) aheads
  looks : aheads.length = ((op :: more).takeWhile isIndexByte).length

theorem TakesInFrom.plain {a : UInt16} {op : UInt8} (hop : isIndexByte op = false)
    (h : TakesIn m m' bytes (instructionReads (a + 1) bytes [])) :
    TakesInFrom a op m m' bytes [] where
  takesIn := ⟨_, h, rfl⟩
  looks := by rw [List.takeWhile_cons, hop, if_neg Bool.false_ne_true]

/-- An index byte is followed by a look ahead, and by the rest of the instruction. -/
theorem TakesInFrom.index {a : UInt16} {op next ahead : UInt8} {more aheads : List UInt8}
    (hop : isIndexByte op = true)
    (h : TakesIn m m' [next] [.read (a + 1) ahead, .read (a + 1) next])
    (hrest : TakesInFrom (a + 1) next m' m'' more aheads) :
    TakesInFrom a op m m'' (next :: more) (ahead :: aheads) where
  takesIn := by
    obtain ⟨reads, hreads, heq⟩ := hrest.takesIn
    refine ⟨_, h.trans hreads, ?_⟩
    rw [instructionReads, ← heq]
    rfl
  looks := by
    rw [List.takeWhile_cons, hop, if_pos rfl, List.length_cons, List.length_cons, hrest.looks]

/-- An index byte that is all of the instruction is followed by a look ahead too. -/
theorem TakesInFrom.superseded {a : UInt16} {op ahead : UInt8} (hop : isIndexByte op = true)
    (h : TakesIn m m' [] [.read (a + 1) ahead]) : TakesInFrom a op m m' [] [ahead] where
  takesIn := ⟨_, h, rfl⟩
  looks := by
    rw [List.takeWhile_cons, hop]
    rfl

/-! ## The moves -/

theorem takesIn_countFetch (m : Machine (Tapped β) ω) :
    TakesIn m (modifyCpu Cpu.countFetch m).2 [] [] where
  accesses := (List.append_nil _).symm
  current := by
    rw [List.append_nil]
    exact Cpu.current_countFetch m.cpu
  pc := (Cpu.pc_countFetch m.cpu).trans (UInt16.add_zero _).symm

variable [Bus β] [Observer ω]

/-- Looking ahead takes nothing in. -/
theorem takesIn_read (a : UInt16) (m : Machine (Tapped β) ω) :
    TakesIn m (read a m).2 [] [.read a (read a m).1] where
  accesses := accesses_read m a
  current := by
    rw [List.append_nil]
    rfl
  pc := (UInt16.add_zero _).symm

theorem takesIn_fetchByte (m : Machine (Tapped β) ω) :
    TakesIn m (fetchByte m).2 [(fetchByte m).1] [.read m.cpu.regs.pc (fetchByte m).1] where
  accesses := accesses_read m m.cpu.regs.pc
  current := rfl
  pc := rfl

theorem takesIn_fetchOpcode (m : Machine (Tapped β) ω) :
    TakesIn m (fetchOpcode m).2 [(fetchOpcode m).1] [.read m.cpu.regs.pc (fetchOpcode m).1] := by
  have h := (takesIn_countFetch m).trans (takesIn_fetchByte (modifyCpu Cpu.countFetch m).2)
  have hpc : (modifyCpu Cpu.countFetch m).2.cpu.regs.pc = m.cpu.regs.pc := Cpu.pc_countFetch m.cpu
  rw [hpc] at h
  exact h

/-- Operand bytes are taken in without a look ahead. -/
theorem takesIn_complete (d : Decoding) (m : Machine (Tapped β) ω) :
    ∃ bytes, TakesIn m (complete d m).2 bytes (instructionReads m.cpu.regs.pc bytes []) := by
  induction d generalizing m with
  | done i => exact ⟨[], .refl m⟩
  | operand next ih =>
    have hbyte := takesIn_fetchByte m
    obtain ⟨bytes, hrest⟩ := ih (fetchByte m).1 (fetchByte m).2
    rw [hbyte.pc] at hrest
    exact ⟨(fetchByte m).1 :: bytes, hbyte.trans hrest⟩

/-! ## Looking an instruction up -/

theorem takesIn_dispatch {op : UInt8} (hop : isIndexByte op = false) (m : Machine (Tapped β) ω) :
    ∃ bytes, TakesIn m (dispatch op m).2 bytes (instructionReads m.cpu.regs.pc bytes []) := by
  have hopcode := takesIn_fetchOpcode m
  unfold dispatch
  cases hlead : Lead.ofByte op with
  | plain d =>
    rw [dispatchWithin_of_plain hlead]
    exact takesIn_complete d m
  | cb =>
    rw [dispatchWithin_of_cb hlead]
    exact ⟨_, hopcode⟩
  | ed =>
    rw [dispatchWithin_of_ed hlead, bind_apply]
    cases Page.ed (fetchOpcode m).1 with
    | some d =>
      obtain ⟨bytes, hrest⟩ := takesIn_complete d (fetchOpcode m).2
      rw [hopcode.pc] at hrest
      exact ⟨(fetchOpcode m).1 :: bytes, hopcode.trans hrest⟩
    | none => exact ⟨_, hopcode⟩
  | index x => exact absurd hlead (Lead.ofByte_ne_index hop x)

section Lookup

variable {a : UInt16} (hpc : m.cpu.regs.pc = a + 1)
include hpc

theorem takesInFrom_dispatch {op : UInt8} (hop : isIndexByte op = false) :
    ∃ more aheads, TakesInFrom a op m (dispatch op m).2 more aheads := by
  obtain ⟨bytes, h⟩ := takesIn_dispatch hop m
  rw [hpc] at h
  exact ⟨bytes, [], .plain hop h⟩

/-- A byte that has been looked at ahead is read again to be taken in. -/
theorem takesIn_fetchOpcode_read :
    TakesIn m (fetchOpcode (read (a + 1) m).2).2 [(fetchOpcode (read (a + 1) m).2).1]
      [.read (a + 1) (read (a + 1) m).1, .read (a + 1) (fetchOpcode (read (a + 1) m).2).1] := by
  have hagain : (read (a + 1) m).2.cpu.regs.pc = a + 1 := hpc
  have h := (takesIn_read (a + 1) m).trans (takesIn_fetchOpcode (read (a + 1) m).2)
  rw [hagain] at h
  exact h

/-- However many index bytes lead it, an instruction is taken in byte by byte. -/
theorem takesInFrom_dispatchWithin (limit : Nat) (op : UInt8) :
    ∃ more aheads, TakesInFrom a op m (dispatchWithin limit op m).2 more aheads := by
  -- each index byte starts the look-up anew, from the byte and the address behind it
  induction limit generalizing op a m with
  | zero =>
    cases hindex : isIndexByte op with
    | false =>
      rw [dispatchWithin_eq_dispatch (Lead.ofByte_ne_index hindex)]
      exact takesInFrom_dispatch hpc hindex
    | true =>
      obtain ⟨x, rfl⟩ := exists_lead_of_isIndexByte hindex
      rw [dispatchWithin_zero_of_index (Lead.ofByte_lead x), bind_apply, regs_apply, bind_apply,
        ite_self, hpc]
      exact ⟨[], _, .superseded hindex (takesIn_read (a + 1) m)⟩
  | succ limit ih =>
    cases hindex : isIndexByte op with
    | false =>
      rw [dispatchWithin_eq_dispatch (Lead.ofByte_ne_index hindex)]
      exact takesInFrom_dispatch hpc hindex
    | true =>
      obtain ⟨x, rfl⟩ := exists_lead_of_isIndexByte hindex
      rw [dispatchWithin_succ_of_index (Lead.ofByte_lead x), bind_apply, regs_apply, bind_apply,
        hpc]
      by_cases hsuper : isIndexByte (read (a + 1) m).1 = true
      · rw [if_pos hsuper]
        exact ⟨[], _, .superseded hindex (takesIn_read (a + 1) m)⟩
      · rw [if_neg hsuper, bind_apply]
        have hnext := takesIn_fetchOpcode_read hpc
        have hpc' := hnext.pc.trans (congrArg (· + 1) hpc)
        generalize fetchOpcode (read (a + 1) m).2 = out at hnext hpc'
        obtain ⟨next, m'⟩ := out
        cases hentry : Page.index x next with
        | some d =>
          obtain ⟨bytes, hrest⟩ := takesIn_complete d m'
          rw [hpc'] at hrest
          exact ⟨_, _, .index hindex hnext (.plain (isIndexByte_of_index hentry) hrest)⟩
        | none =>
          obtain ⟨more, aheads, hrest⟩ := ih hpc' next
          exact ⟨_, _, .index hindex hnext hrest⟩

end Lookup

end Taking

/-! ## Whole instructions -/

variable [Bus β] [Observer ω]

/-- All accesses of the instruction at the program counter, in their order, as a record at the
bus shows them: the bytes of the instruction, the answers to its looks ahead, and then what it
does with data. -/
structure FetchOrder (m : Machine β ω) (bytes aheads : List UInt8) (data : List Event) : Prop where
  /-- The record makes no difference. -/
  untap : (runOne m.tap).1 = (runOne m).1 ∧ (runOne m.tap).2.untap = (runOne m).2
  accesses : (runOne m.tap).2.accesses = instructionReads m.cpu.regs.pc bytes aheads ++ data
  /-- There is a look ahead behind each index byte that leads the instruction, and no other. -/
  looks : aheads.length = (bytes.takeWhile isIndexByte).length
  /-- The bytes are the ones that the processor keeps as those of the instruction. -/
  current : (runOne m).2.cpu.current = ⟨m.cpu.regs.pc, bytes⟩
  /-- Until it is performed, these reads are all that the bus has seen of it. -/
  fetched : (Exec.fetched m.tap).accesses = instructionReads m.cpu.regs.pc bytes aheads
  performed : runOne m.tap = conclude (upcoming m) (Exec.fetched m.tap)
  /-- Then the program counter is behind the bytes, and there it stays if no jump, call or return
  takes place. -/
  pc : ∀ i, upcoming m = some i → i.transfers m.cpu.regs = false →
    (runOne m).2.cpu.regs.pc = m.cpu.regs.pc + UInt16.ofNat bytes.length

/-- The fetching half of an instruction, before a recorder at its bus. -/
theorem takesIn_fetched (m : Machine β ω) :
    ∃ bytes aheads, (fetched m.tap).accesses = instructionReads m.cpu.regs.pc bytes aheads ∧
      aheads.length = (bytes.takeWhile isIndexByte).length ∧
      (fetched m.tap).cpu.current = ⟨m.cpu.regs.pc, bytes⟩ ∧
      (fetched m.tap).cpu.regs.pc = m.cpu.regs.pc + UInt16.ofNat bytes.length := by
  have hfirst : Taken m.tap (takeFirst m.tap).2 [(takeFirst m.tap).1] := taken_takeFirst m.tap
  have hpc : (takeFirst m.tap).2.cpu.regs.pc = m.cpu.regs.pc + 1 := hfirst.pc
  have haccesses : (takeFirst m.tap).2.accesses = [.read m.cpu.regs.pc (takeFirst m.tap).1] :=
    accesses_takeFirst m.tap
  obtain ⟨more, aheads, ⟨reads, htakes, heq⟩, hlooks⟩ :=
    takesInFrom_dispatchWithin hpc indexLimit (takeFirst m.tap).1
  refine ⟨(takeFirst m.tap).1 :: more, aheads, ?_, hlooks, ?_, ?_⟩
  · rw [← heq]
    exact htakes.accesses.trans (congrArg (· ++ reads) haccesses)
  · refine htakes.current.trans ?_
    rw [hfirst.current]
    rfl
  · refine htakes.pc.trans ?_
    rw [hpc, List.length_cons, Nat.add_comm, UInt16.ofNat_add, UInt16.add_assoc]
    rfl

theorem upcoming_tap (m : Machine β ω) :
    upcoming m.tap = upcoming m ∧ (fetched m.tap).untap = fetched m :=
  coupling_untap.dispatch (takeFirst m).1 (takeFirst m.tap).2 (takeFirst m).2 rfl

/-- Whatever an instruction does with data is added to the record of its fetching half. -/
theorem accesses_runOne (m : Machine β ω) :
    ∃ data, (runOne m.tap).2.accesses = (fetched m.tap).accesses ++ data := by
  have hgrown : (fetched m.tap).bus.record.Grown (runOne m.tap).2.bus.record := by
    rw [runOne_conclude]
    cases upcoming m.tap with
    | some i => exact ((invariant_quiet _).perform i (.refl _)).bus
    | none => exact .refl _
  obtain ⟨data, hdata, -⟩ := hgrown
  exact ⟨data, hdata⟩

theorem current_runOne (m : Machine β ω) :
    (runOne m).2.cpu.current = (fetched m).cpu.current := by
  rw [runOne_conclude]
  cases upcoming m with
  | some i => exact current_perform i (fetched m)
  | none => rfl

/-- Whether an instruction transfers control does not depend on the program counter or on R. -/
theorem transfers_fetched (i : Instruction) (m : Machine β ω) :
    i.transfers (fetched m).cpu.regs = i.transfers m.cpu.regs := by
  rw [regs_fetched]
  cases i <;> rfl

/-- Without a jump, call or return the program counter stays where taking in the bytes has left
it. -/
theorem pc_runOne {m : Machine β ω}
    (h : ∀ i, upcoming m = some i → i.transfers m.cpu.regs = false) :
    (runOne m).2.cpu.regs.pc = (fetched m).cpu.regs.pc := by
  cases hnext : upcoming m with
  | some i => rw [runOne_of_upcoming hnext, pc_perform ((transfers_fetched i m).trans (h i hnext))]
  | none => rw [runOne_of_upcoming_none hnext]

theorem exists_fetchOrder (m : Machine β ω) :
    ∃ bytes aheads data, FetchOrder m bytes aheads data := by
  obtain ⟨bytes, aheads, haccesses, hlooks, hcurrent, hpc⟩ := takesIn_fetched m
  obtain ⟨data, hdata⟩ := accesses_runOne m
  obtain ⟨hupcoming, hfetched⟩ := upcoming_tap m
  have hcpu : (fetched m).cpu = (fetched m.tap).cpu := congrArg Machine.cpu hfetched.symm
  refine ⟨bytes, aheads, data, ?_⟩
  constructor
  case untap => exact untap_runOne m.tap
  case accesses => rw [hdata, haccesses]
  case looks => exact hlooks
  case current => rw [current_runOne, hcpu, hcurrent]
  case fetched => exact haccesses
  case performed => rw [runOne_conclude, hupcoming]
  case pc =>
    intro i hi htransfers
    have hstays : ∀ j, upcoming m = some j → j.transfers m.cpu.regs = false := by
      intro j hj
      obtain rfl : i = j := Option.some.inj (hi.symm.trans hj)
      exact htransfers
    rw [pc_runOne hstays, hcpu, hpc]

/-- On any bus an instruction reads its bytes one after the other, looks ahead behind each index
byte that leads it, and only then turns to data; without a jump, call or return the program
counter ends behind these bytes. On a board, then, it is the instruction that the bytes in memory
spell when it begins, whatever it does to them. -/
theorem fetch_order :
    (∀ m : Machine β ω, ∃ bytes aheads data, FetchOrder m bytes aheads data) ∧
    ∀ m : Machine Board ω,
      let s := spell m.ahead
      Fetching m (fetched m) s.bytes s.opcodes ∧
        runOne m = conclude s.instruction (fetched m) ∧
        (runOne m).2.cpu.current = ⟨m.cpu.regs.pc, m.bus.bytesAt m.cpu.regs.pc s.bytes⟩ := by
  refine ⟨exists_fetchOrder, ?_⟩
  intro m s
  obtain ⟨hinstruction, hfetching⟩ := spell_ahead m
  have hupcoming : upcoming m = s.instruction := hinstruction
  refine ⟨hfetching, ?_, ?_⟩
  · rw [runOne_conclude, hupcoming]
  · rw [current_runOne]
    exact hfetching.current

/-- LD (HL),n at address 0 with HL = 0 writes over its own opcode. -/
theorem fetch_order_overwriting :
    let memory := (Memory.zero.set 0 0x36).set 1 0x5A
    let m : Machine Board Unit := ⟨{ regs := {} }, { memory }, ()⟩
    (runOne m).2.bus.peek 0 = 0x5A ∧ (runOne m).2.cpu.current = ⟨0, [0x36, 0x5A]⟩ := by
  intro memory m
  have hop : m.ahead 0 = 0x36 := by
    simp [m, memory, Machine.ahead, Board.peek, Memory.get_set]
  have hn : m.ahead 1 = 0x5A := by
    simp [m, memory, Machine.ahead, Board.peek]
  have hplain : Lead.ofByte (m.ahead 0) = .plain (Page.quarter0 0x36) := by
    rw [hop]
    rfl
  have hindex : isIndexByte (m.ahead 0) = false := by
    rw [hop]
    rfl
  have hspell : spell m.ahead = ⟨some (.load (.mem (.indirect .hl)) (.imm 0x5A)), 2, 1⟩ := by
    rw [spell_of_not_index hindex, spellAt_plain hplain, ← hn]
    rfl
  obtain ⟨hfetching, hrun, hcurrent⟩ := (@fetch_order Board Unit _ _).2 m
  rw [hspell] at hfetching hrun hcurrent
  constructor
  · have hhl : (m.cpu.advanced 2 1).hl = 0 := by
      rfl
    rw [hrun]
    show ((fetched m).bus.poke (fetched m).cpu.regs.hl 0x5A).peek 0 = 0x5A
    rw [hfetching.regs, hhl]
    exact Memory.get_set_self _ _ _
  · rw [hcurrent]
    show Current.mk 0 [m.ahead 0, m.ahead 1] = _
    rw [hop, hn]

end Exec

end Z80
