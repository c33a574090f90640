import Z80.Proofs.Fetching

/-!
# Index bytes without effect

Before an opcode that its page lacks, an index byte costs one opcode fetch and does
nothing else. The machine that takes it in and the machine that starts behind it
are a pair that stays together: they agree on everything but where the instruction
began and which bytes it has, and of these only the report of a fault tells.

Main definitions:
- `Index.lead`: the byte that leads to an index page.
- `InvalidOpcode.behind`: a report with one more byte before the others.
- `Machine.skipOpcode`: the machine that has passed over an opcode.
- `Exec.Prefixed`: one machine has taken in a byte more than the other.

Main statements: `coupling_prefixed` says that no instruction separates the pair,
`dispatch_lead` that the pair is what the index byte leads to, and
`step_index_fallback` that the two machines end alike.
-/

namespace Z80

/-- The byte that leads to the page of an index register. -/
def Index.lead : Index → UInt8
  | .ix => 0xDD
  | .iy => 0xFD

theorem isIndexByte_lead (x : Index) : isIndexByte x.lead = true := by
  cases x <;> rfl

namespace Lead

theorem ofByte_lead (x : Index) : ofByte x.lead = .index x := by
  cases x with
  | ix => exact ofByte_dd
  | iy => exact ofByte_fd

/-- Only the byte ED leads to the page of extensions, and only the two index bytes lead to
the index pages. -/
theorem ofByte_inv (op : UInt8) :
    (match ofByte op with
      | .ed => op == 0xED
      | .index x => op == x.lead
      | _ => true) = true := by
  revert op
  apply byte_forall
  decide +kernel

theorem eq_of_ofByte_ed {op : UInt8} (h : ofByte op = .ed) : op = 0xED := by
  have hinv := ofByte_inv op
  rw [h] at hinv
  exact eq_of_beq hinv

theorem eq_of_ofByte_index {op : UInt8} {x : Index} (h : ofByte op = .index x) :
    op = x.lead := by
  have hinv := ofByte_inv op
  rw [h] at hinv
  exact eq_of_beq hinv

theorem ofByte_ne_index {op : UInt8} (h : isIndexByte op = false) (x : Index) :
    ofByte op ≠ .index x := by
  intro hop
  rw [eq_of_ofByte_index hop, isIndexByte_lead] at h
  cases h

end Lead

/-- The report of the same failure with one more byte taken in before the others. -/
def InvalidOpcode.behind (v : UInt8) (e : InvalidOpcode) : InvalidOpcode :=
  ⟨e.pc - 1, v :: e.opcode⟩

/-- The machine with the program counter behind an opcode at it, and the fetch
counted in R if the configuration says so. -/
def Machine.skipOpcode {β ω : Type} (m : Machine β ω) : Machine β ω :=
  { m with cpu := { m.cpu with regs := m.cpu.advanced 1 1 } }

namespace Exec

/-! ## A byte more and a byte less -/

/-- The machines differ in their observers and in the instruction under way at most,
to which the first one counts a byte before those of the second one. -/
structure Prefixed {β ω : Type} (v : UInt8) (m m' : Machine β ω) : Prop where
  bus : m.bus = m'.bus
  regs : m.cpu.regs = m'.cpu.regs
  record : m.cpu.SameRecord m'.cpu
  current : m.cpu.current = ⟨m'.cpu.current.start - 1, v :: m'.cpu.current.bytes⟩

section Coupled

variable {β ω : Type} {v : UInt8} {m m' : Machine β ω}

theorem Prefixed.takeByte (h : Prefixed v m m') (next : UInt8) :
    Prefixed v (modifyCpu (Cpu.takeByte next) m).2 (modifyCpu (Cpu.takeByte next) m').2 where
  bus := h.bus
  regs := congrArg (fun r : Registers => { r with pc := r.pc + 1 }) h.regs
  record := ⟨h.record.fault, h.record.config, h.record.instructions⟩
  current := by
    show Current.mk m.cpu.current.start (m.cpu.current.bytes ++ [next]) = _
    rw [h.current]
    rfl

theorem Prefixed.countFetch (h : Prefixed v m m') :
    Prefixed v (modifyCpu Cpu.countFetch m).2 (modifyCpu Cpu.countFetch m').2 where
  bus := h.bus
  regs := by
    show m.cpu.countFetch.regs = m'.cpu.countFetch.regs
    rw [Cpu.countFetch_regs, Cpu.countFetch_regs, h.record.config, h.regs]
  record := ((Cpu.SameRecord.countFetch _).trans h.record).trans (Cpu.SameRecord.countFetch _).symm
  current := by
    show m.cpu.countFetch.current =
      ⟨m'.cpu.countFetch.current.start - 1, v :: m'.cpu.countFetch.current.bytes⟩
    rw [Cpu.current_countFetch, Cpu.current_countFetch]
    exact h.current

variable [Bus β] [Observer ω]

/-- No instruction separates two machines that are a byte apart. -/
theorem coupling_prefixed (v : UInt8) :
    Coupling (Prefixed v : Machine β ω → Machine β ω → Prop) where
  regs := fun _ _ h => ⟨h.regs, h⟩
  modifyRegs f := fun _ _ h =>
    ⟨rfl, h.bus, congrArg f h.regs, ⟨h.record.fault, h.record.config, h.record.instructions⟩,
      h.current⟩
  read a := fun _ _ h =>
    ⟨congrArg (fun b => (Bus.read a b).1) h.bus, congrArg (fun b => (Bus.read a b).2) h.bus, h.regs,
      h.record, h.current⟩
  write a n := fun _ _ h => ⟨rfl, congrArg (Bus.write a n) h.bus, h.regs, h.record, h.current⟩
  input a := fun _ _ h =>
    ⟨congrArg (fun b => (Bus.input a b).1) h.bus, congrArg (fun b => (Bus.input a b).2) h.bus,
      h.regs, h.record, h.current⟩
  output a n := fun _ _ h => ⟨rfl, congrArg (Bus.output a n) h.bus, h.regs, h.record, h.current⟩
  halt := fun _ _ h => ⟨rfl, h.bus, h.regs, h.record, h.current⟩
  takeByte next := fun _ _ h => ⟨rfl, h.takeByte next⟩
  countFetch := fun _ _ h => ⟨rfl, h.countFetch⟩

theorem conclude_prefixed (i? : Option Instruction) (h : Prefixed v m m') :
    (conclude i? m).1 = (conclude i? m').1.mapError (·.behind v) ∧
      Prefixed v (conclude i? m).2 (conclude i? m').2 := by
  cases i? with
  | some i => exact ⟨rfl, ((coupling_prefixed v).perform i m m' h).2⟩
  | none =>
    refine ⟨?_, h⟩
    show Except.error m.cpu.invalidOpcode = Except.error (m'.cpu.invalidOpcode.behind v)
    rw [Cpu.invalidOpcode, h.current]
    rfl

/-- From an opcode on, the two machines end alike, and report a failure each from
where its own instruction began. -/
theorem dispatch_prefixed (op : UInt8) (h : Prefixed v m m') :
    ((dispatch op >>= conclude) m).1 = ((dispatch op >>= conclude) m').1.mapError (·.behind v) ∧
      Prefixed v ((dispatch op >>= conclude) m).2 ((dispatch op >>= conclude) m').2 := by
  obtain ⟨heq, hdispatch⟩ := (coupling_prefixed v).dispatch op m m' h
  rw [bind_apply, bind_apply, heq]
  exact conclude_prefixed _ hdispatch

end Coupled

/-! ## Passing over the index byte -/

/-- An index byte does nothing where another one stands ahead. -/
theorem dispatch_superseded {β ω : Type} [Bus β] [Observer ω] {m : Machine β ω} {a : UInt16}
    (x : Index) (hpc : m.cpu.regs.pc = a) (hahead : isIndexByte (Bus.read a m.bus).1 = true) :
    dispatch x.lead m = (some .nop, (read a m).2) := by
  have hahead' : isIndexByte (read a m).1 = true := hahead
  rw [dispatch_of_index (Lead.ofByte_lead x), bind_apply, regs_apply, hpc, bind_apply,
    if_pos hahead']
  rfl

variable {ω : Type} [Observer ω] {x : Index} {m m' : Machine Board ω}

/-- Two bytes have been taken in from one machine, and one byte from the machine
behind the first opcode. -/
theorem Fetching.prefixed (h : Fetching m m' 2 2) {v : UInt8}
    (hfirst : m.bus.peek m.cpu.regs.pc = v) : Prefixed v m' (takeFirst m.skipOpcode).2 where
  bus := h.bus
  regs := by
    have hcount : m.skipOpcode.cpu.beginInstruction.countFetch.regs = m.cpu.advanced 1 2 :=
      Cpu.regs_countFetch rfl rfl
    rw [h.regs, takeFirst_cpu]
    exact (Cpu.regs_takeByte hcount (takeFirst m.skipOpcode).1).symm
  record :=
    have hrecord := takeFirst_sameRecord m.skipOpcode
    ⟨h.record.fault.trans hrecord.fault.symm, h.record.config.trans hrecord.config.symm,
      h.record.instructions.trans hrecord.instructions.symm⟩
  current := by
    have hstart : m.cpu.regs.pc + 1 - 1 = m.cpu.regs.pc := UInt16.add_sub_cancel _ _
    have hbytes : m.bus.bytesAt m.cpu.regs.pc 2 = v :: m.bus.bytesAt (m.cpu.regs.pc + 1) 1 := by
      simp [Board.bytesAt, List.range_succ, hfirst]
    rw [h.current, (fetching_takeFirst m.skipOpcode).current, hbytes]
    show Current.mk m.cpu.regs.pc _ = Current.mk (m.cpu.regs.pc + 1 - 1) _
    rw [hstart]
    rfl

/-- An index byte leads to the opcode that follows, where the bus agrees with itself: to
what its page has for it, or else to the opcode on its own. -/
theorem dispatch_lead (h : Fetching m m' 1 1)
    (hnext : isIndexByte (m.bus.peek (m.cpu.regs.pc + 1)) = false) :
    ∃ m'', Fetching m m'' 2 2 ∧
      dispatch x.lead m' =
        completeOr (Page.index x (m.bus.peek (m.cpu.regs.pc + 1)))
          (dispatch (m.bus.peek (m.cpu.regs.pc + 1))) m'' := by
  have hpc : m'.cpu.regs.pc = m.cpu.regs.pc + 1 := congrArg (·.pc) h.regs
  have hahead := h.read_fst (m.cpu.regs.pc + 1)
  have hread := h.read (m.cpu.regs.pc + 1)
  have hopcode : (fetchOpcode (read (m.cpu.regs.pc + 1) m').2).1 =
      m.bus.peek (m.cpu.regs.pc + 1) := hread.fetchOpcode_fst
  refine ⟨_, hread.fetchOpcode, ?_⟩
  rw [dispatch_of_index (Lead.ofByte_lead x), bind_apply, regs_apply]
  simp only [bind_apply, hpc, hahead, hnext, Bool.false_eq_true, if_false, hopcode,
    dispatchWithin_eq_dispatch (Lead.ofByte_ne_index hnext)]

/-- Two machines, an index byte apart, that one instruction cannot tell from each
other. -/
theorem runOne_lead (hlead : m.bus.peek m.cpu.regs.pc = x.lead)
    (hnext : isIndexByte (m.bus.peek (m.cpu.regs.pc + 1)) = false)
    (hentry : Page.index x (m.bus.peek (m.cpu.regs.pc + 1)) = none) :
    (runOne m).1 = (runOne m.skipOpcode).1.mapError (·.behind x.lead) ∧
      Prefixed x.lead (runOne m).2 (runOne m.skipOpcode).2 := by
  obtain ⟨m', hfetch, hdispatch⟩ := dispatch_lead (x := x) (fetching_takeFirst m) hnext
  have hskip : (takeFirst m.skipOpcode).1 = m.bus.peek (m.cpu.regs.pc + 1) :=
    takeFirst_fst m.skipOpcode
  have hrun : runOne m = (dispatch (m.bus.peek (m.cpu.regs.pc + 1)) >>= conclude) m' := by
    rw [runOne_eq, bind_apply, takeFirst_fst, hlead, bind_apply, hdispatch, hentry]
    rfl
  have hrun' : runOne m.skipOpcode =
      (dispatch (m.bus.peek (m.cpu.regs.pc + 1)) >>= conclude) (takeFirst m.skipOpcode).2 := by
    rw [runOne_eq, bind_apply, hskip]
  rw [hrun, hrun']
  exact dispatch_prefixed _ (hfetch.prefixed hlead)

/-- Before an opcode that its page lacks, an index byte does nothing: the machine ends
like the one that starts behind the byte, except that a failure is reported from where
the byte was. -/
theorem step_index_fallback (x : Index) (m : Machine Board ω) (hfault : m.cpu.fault = none)
    (hhalted : m.cpu.regs.halted = false) (hlead : m.bus.peek m.cpu.regs.pc = x.lead)
    (hnext : isIndexByte (m.bus.peek (m.cpu.regs.pc + 1)) = false)
    (hentry : Page.index x (m.bus.peek (m.cpu.regs.pc + 1)) = none) :
    (step 1 m).2.cpu.regs = (step 1 m.skipOpcode).2.cpu.regs ∧
      (step 1 m).2.bus.memory = (step 1 m.skipOpcode).2.bus.memory ∧
      (step 1 m).2.bus.ports = (step 1 m.skipOpcode).2.bus.ports ∧
      (step 1 m).2.bus.written = (step 1 m.skipOpcode).2.bus.written ∧
      (step 1 m).2.cpu.instructions = m.cpu.instructions + 1 ∧
      (step 1 m.skipOpcode).2.cpu.instructions = m.cpu.instructions + 1 ∧
      (step 1 m).1 = (step 1 m.skipOpcode).1.mapError (·.behind x.lead) := by
  obtain ⟨hresult, hprefixed⟩ := runOne_lead hlead hnext hentry
  have hcount := (runOne_sameRecord m).instructions
  have hcount' := (runOne_sameRecord m.skipOpcode).instructions
  rw [step_one hfault hhalted, step_one (m := m.skipOpcode) hfault hhalted]
  generalize runOne m = out at hresult hprefixed hcount
  generalize runOne m.skipOpcode = out' at hresult hprefixed hcount'
  obtain ⟨r, s⟩ := out
  obtain ⟨r', s'⟩ := out'
  obtain rfl : r = r'.mapError (·.behind x.lead) := hresult
  -- a failure of both is recorded by the processor and logged by the board, nothing else
  cases r' with
  | ok u | error e =>
    exact ⟨hprefixed.regs, congrArg (·.memory) hprefixed.bus, congrArg (·.ports) hprefixed.bus,
      congrArg (·.written) hprefixed.bus, hcount, hcount', rfl⟩

/-- An invalid instruction behind an index byte is reported with all its three bytes. -/
theorem step_index_fallback_invalid :
    let memory := (Memory.zero.set 0 0xDD).set 1 0xED
    let m : Machine Board Unit := ⟨{}, { memory }, ()⟩
    m.cpu.fault = none ∧ m.cpu.regs.halted = false ∧ m.bus.peek m.cpu.regs.pc = Index.ix.lead ∧
      isIndexByte (m.bus.peek (m.cpu.regs.pc + 1)) = false ∧
      Page.index .ix (m.bus.peek (m.cpu.regs.pc + 1)) = none ∧
      (step 1 m).1 = .error ⟨0, [0xDD, 0xED, 0x00]⟩ := by
  intro memory m
  have hfirst : m.bus.peek m.cpu.regs.pc = Index.ix.lead := by
    simp [m, memory, Board.peek, Memory.get_set, Registers.powerOn, Index.lead]
  have hsecond : m.bus.peek (m.cpu.regs.pc + 1) = 0xED := by
    simp [m, memory, Board.peek, Registers.powerOn]
  have hnext : isIndexByte (m.bus.peek (m.cpu.regs.pc + 1)) = false := by
    rw [hsecond]
    rfl
  have hentry : Page.index .ix (m.bus.peek (m.cpu.regs.pc + 1)) = none := by
    rw [hsecond]
    rfl
  have hbytes : m.bus.bytesAt 1 2 = [0xED, 0x00] := by
    simp [m, memory, Board.bytesAt, Board.peek, List.range_succ, Memory.get_set]
  have hthird : m.bus.peek (m.cpu.regs.pc + 1 + 1) = 0x00 := by
    simp [m, memory, Board.peek, Registers.powerOn, Memory.get_set]
  have hskip : (step 1 m.skipOpcode).1 = .error ⟨1, [0xED, 0x00]⟩ := by
    have hinvalid : Page.ed (m.bus.peek (m.cpu.regs.pc + 1 + 1)) = none := by
      rw [hthird]
      rfl
    have hrun : (runOne m.skipOpcode).1 = .error ⟨1, m.bus.bytesAt 1 2⟩ :=
      runOne_of_ed_invalid hsecond hinvalid
    rw [step_one_fst rfl rfl, hrun, hbytes]
  obtain ⟨-, -, -, -, -, -, hresult⟩ :=
    step_index_fallback .ix m rfl rfl hfirst hnext hentry
  refine ⟨rfl, rfl, hfirst, hnext, hentry, ?_⟩
  rw [hresult, hskip]
  rfl

end Exec

end Z80
