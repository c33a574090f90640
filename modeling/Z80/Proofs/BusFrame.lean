import Z80.Proofs.BlockRounds
import Z80.Proofs.Samples

/-!
# What an instruction does to its bus

Apart from the block families an instruction stores into at most four cells and uses at most one
port, and which ones is known before it begins. On any bus the stores and the uses of ports are
these, each of them made once and in this order. On a board nothing else can change a cell, take
a byte from a queue or add to the log.

Main definitions:
- `Access`, `Event.access?`: a store or the use of a port, with its address.
- `Instruction.accesses`: those that an instruction makes, by the registers before it.
- `Board.After`: what given accesses can have changed of a board.
- `Exec.BusFrame`: a batch of one does to a board what these accesses do.

Main statements: `made_perform` and `made_runOne` say which accesses are made, on any bus, and
`bus_frame` what becomes of a board.
-/

namespace Z80

/-- An access to the bus other than to read memory. -/
inductive Access where
  | store (a : UInt16)
  | input (a : UInt16)
  | output (a : UInt16)
  deriving DecidableEq

/-- The access that an event tells of. -/
def Event.access? : Event → Option Access
  | .write a _ => some (.store a)
  | .input a _ => some (.input a)
  | .output a _ => some (.output a)
  | _ => none

/-- Does the access read the port that this low byte of an address selects? -/
def Access.takesFrom (n : UInt8) : Access → Bool
  | .input a => a.toUInt8 == n
  | _ => false

/-- The address under which an access writes a port. -/
def Access.output? : Access → Option UInt16
  | .output a => some a
  | _ => none

namespace Recorder

/-- The accesses in a record, reads of memory apart, oldest first. -/
def made (r : Recorder) : List Access :=
  r.events.toList.filterMap Event.access?

theorem made_notify (e : Event) (r : Recorder) :
    (Observer.notify e r).made = r.made ++ e.access?.toList := by
  rw [made, made, events_notify, List.filterMap_append]
  cases e <;> rfl

end Recorder

/-- What has been done to the bus since its record began, reads of memory apart. -/
def Machine.made {β ω : Type} (m : Machine (Tapped β) ω) : List Access :=
  m.bus.record.made

/-! ## The accesses of an instruction -/

/-- The cell that is stored into to write a byte operand, if it lies in memory. -/
def Place.stores (r : Registers) : Place → List Access
  | .reg _ => []
  | .mem a => [.store (r.address a)]

/-- The cells that a word on the stack is pushed into. -/
def Registers.pushes (r : Registers) : List Access :=
  [.store (r.sp - 1), .store (r.sp - 2)]

/-- Is the address one at BC, DE or HL, at an index register with a displacement, or a fixed one? -/
def Address.isOperand : Address → Bool
  | .indirect p => p == .bc || p == .de || p == .hl
  | _ => true

/-- Is the place a register, or a cell at such an address? -/
def Place.isOperand : Place → Bool
  | .reg _ => true
  | .mem a => a.isOperand

namespace Instruction

/-- The accesses that an instruction makes, in their order, by the registers before it. The block
families are left out. -/
def accesses (r : Registers) : Instruction → List Access
  | .load p _ | .inc p | .dec p | .shift _ p _ | .res _ p _ | .set _ p _ => p.stores r
  | .storeWord nn _ => [.store nn, .store (nn + 1)]
  | .push _ | .rst _ => r.pushes
  | .call cc _ => if Condition.taken cc r.f then r.pushes else []
  | .exchangeStack _ => [.store r.sp, .store (r.sp + 1)]
  | .rrd | .rld => [.store r.hl]
  | .inA n => [.input (join r.a n)]
  | .outA n => [.output (join r.a n)]
  | .inC _ => [.input r.bc]
  | .outC _ => [.output r.bc]
  | _ => []

/-- The byte operand that an instruction writes, if it has one. -/
def target? : Instruction → Option Place
  | .load p _ | .inc p | .dec p | .shift _ p _ | .res _ p _ | .set _ p _ => some p
  | _ => none

/-- Is it one of the block families that store into memory or use ports? -/
def movesBlock : Instruction → Bool
  | .block kind _ _ => kind != .compare
  | _ => false

end Instruction

namespace Exec

variable {β ω : Type} [Bus β] [Observer ω]

/-! ## Performing an instruction -/

section Steps

variable (m : Machine (Tapped β) ω)

theorem made_read (a : UInt16) : (read a m).2.made = m.made :=
  (Recorder.made_notify _ _).trans (List.append_nil _)

theorem made_write (a : UInt16) (v : UInt8) : (write a v m).2.made = m.made ++ [.store a] :=
  Recorder.made_notify _ _

theorem made_input (a : UInt16) : (input a m).2.made = m.made ++ [.input a] :=
  Recorder.made_notify _ _

theorem made_output (a : UInt16) (v : UInt8) : (output a v m).2.made = m.made ++ [.output a] :=
  Recorder.made_notify _ _

theorem made_readWord (a : UInt16) : (readWord a m).2.made = m.made :=
  (made_read _ (a + 1)).trans (made_read m a)

theorem made_writeWord (a v : UInt16) :
    (writeWord a v m).2.made = m.made ++ [.store a, .store (a + 1)] := by
  have hsecond := made_write (write a (low v) m).2 (a + 1) (high v)
  rw [made_write m, List.append_assoc] at hsecond
  exact hsecond

theorem made_push (v : UInt16) : (push v m).2.made = m.made ++ m.cpu.regs.pushes := by
  have hsecond := made_write (write (m.cpu.regs.sp - 1) (high v) m).2 (m.cpu.regs.sp - 2) (low v)
  rw [made_write m, List.append_assoc] at hsecond
  exact hsecond

theorem made_call (a : UInt16) : (call a m).2.made = m.made ++ m.cpu.regs.pushes :=
  made_push m m.cpu.regs.pc

theorem made_pop : (pop m).2.made = m.made :=
  made_readWord m m.cpu.regs.sp

theorem made_ret : (ret m).2.made = m.made :=
  made_pop m

theorem made_readPlace (p : Place) : (readPlace p m).2.made = m.made := by
  cases p with
  | reg x => rfl
  | mem a => exact made_read m _

theorem made_readSource (src : Source) : (readSource src m).2.made = m.made := by
  cases src with
  | place p => exact made_readPlace m p
  | imm n => rfl

theorem made_writePlace (p : Place) (v : UInt8) :
    (writePlace p v m).2.made = m.made ++ p.stores m.cpu.regs := by
  cases p with
  | reg x => exact (List.append_nil _).symm
  | mem a => exact made_write m _ v

/-- To replace an operand is to read it and to write it. -/
theorem made_update (p : Place) (copy : Option Reg8) (f : UInt8 → UInt8 → Outcome UInt8) :
    (update p copy f m).2.made = m.made ++ p.stores m.cpu.regs := by
  have hkeeps : Keeps id (readPlace p : Exec (Tapped β) ω UInt8) := .readPlace p
  have hregs : (readPlace p m).2.cpu.regs = m.cpu.regs := hkeeps m
  have hwritten (v : UInt8) :
      (writePlace p v (readPlace p m).2).2.made = m.made ++ p.stores m.cpu.regs := by
    rw [made_writePlace, made_readPlace, hregs]
  cases copy with
  | none | some x => exact hwritten _

theorem made_rotateDigits (f : UInt8 → UInt8 → UInt8 × UInt8) :
    (rotateDigits f m).2.made = m.made ++ [.store m.cpu.regs.hl] := by
  have hwritten := made_write (read m.cpu.regs.hl m).2 m.cpu.regs.hl
    (f m.cpu.regs.a (read m.cpu.regs.hl m).1).2
  rw [made_read] at hwritten
  exact hwritten

/-- A search reads memory only, for as many rounds as it goes on. -/
theorem made_compare (dir : Direction) (repeats : Bool) :
    (block .compare dir repeats m).2.made = m.made := by
  have hround (m : Machine (Tapped β) ω) : (blockRound .compare dir m).2.made = m.made :=
    made_read m m.cpu.regs.hl
  have hrounds (n : Nat) (m : Machine (Tapped β) ω) :
      (blockRounds .compare dir n m).2.made = m.made := by
    induction n generalizing m with
    | zero => rfl
    | succ n ih =>
      rw [blockRounds_succ]
      split
      · exact (ih _).trans (hround m)
      · exact hround m
  cases repeats with
  | true => exact hrounds 65536 m
  | false => exact hround m

omit [Bus β] [Observer ω] in
theorem made_if {c : Bool} {x : Exec (Tapped β) ω Unit} {made : List Access}
    (h : (x m).2.made = m.made ++ made) :
    ((if c then x else pure ()) m).2.made = m.made ++ if c then made else [] := by
  cases c with
  | true => exact h
  | false => exact (List.append_nil _).symm

omit [Bus β] [Observer ω] in
theorem made_if_silent {c : Bool} {x : Exec (Tapped β) ω Unit} (h : (x m).2.made = m.made) :
    ((if c then x else pure ()) m).2.made = m.made ++ [] := by
  rw [made_if m (h.trans (List.append_nil _).symm), ite_self]

/-- On any bus, an instruction that is no block transfer makes the accesses that its registers
tell, and no other. -/
theorem made_perform {i : Instruction} (h : i.movesBlock = false) :
    (perform i m).2.made = m.made ++ i.accesses m.cpu.regs := by
  cases i with
  | load dst src =>
    have hkeeps : Keeps id (readSource src : Exec (Tapped β) ω UInt8) := .readSource src
    have hregs : (readSource src m).2.cpu.regs = m.cpu.regs := hkeeps m
    exact (made_writePlace (readSource src m).2 dst _).trans (by rw [made_readSource, hregs]; rfl)
  | loadWord dst nn => exact (made_readWord m nn).trans (List.append_nil _).symm
  | storeWord nn src => exact made_writeWord m nn _
  | push src => exact made_push m _
  | pop dst => exact (made_pop m).trans (List.append_nil _).symm
  | exchangeStack x =>
    have hwritten := made_writeWord (readWord m.cpu.regs.sp m).2 m.cpu.regs.sp (m.cpu.regs.word x)
    rw [made_readWord] at hwritten
    exact hwritten
  | alu op src => exact (made_readSource m src).trans (List.append_nil _).symm
  | inc p | dec p | shift op p copy | res n p copy | set n p copy => exact made_update m p _ _
  | bit n p => exact (made_readPlace m p).trans (List.append_nil _).symm
  | rrd | rld => exact made_rotateDigits m _
  | jump cc nn | jumpRelative cc d => exact made_if_silent m rfl
  | djnz d => exact made_if_silent (modifyRegs (fun r => { r with b := r.b - 1 }) m).2 rfl
  | call cc nn => exact made_if m (made_call m nn)
  | ret cc => exact made_if_silent m (made_ret m)
  | retn =>
    have hret := made_ret (modifyRegs (fun r => { r with iff1 := r.iff2 }) m).2
    exact hret.trans (List.append_nil _).symm
  | reti => exact (made_ret m).trans (List.append_nil _).symm
  | rst target => exact made_call m target
  | inA n => exact made_input m _
  | outA n => exact made_output m _ _
  | inC dst => exact made_input m _
  | outC src => exact made_output m _ _
  | block kind dir repeats =>
    obtain rfl : kind = .compare := by
      simpa [Instruction.movesBlock] using h
    exact (made_compare m dir repeats).trans (List.append_nil _).symm
  -- all others compute on the register file alone
  | _ => exact (List.append_nil _).symm

end Steps

/-! ## Whole instructions -/

theorem access_instructionReads (a : UInt16) (bytes aheads : List UInt8) :
    (instructionReads a bytes aheads).filterMap Event.access? = [] := by
  induction bytes generalizing a aheads with
  | nil => rfl
  | cons v bytes ih =>
    cases aheads with
    | nil => exact ih (a + 1) []
    | cons w aheads => exact ih (a + 1) aheads

variable (m : Machine β ω)

/-- To take in an instruction is only to read. -/
theorem made_fetched : (fetched m.tap).made = [] := by
  obtain ⟨bytes, aheads, haccesses, -⟩ := takesIn_fetched m
  have hreads := access_instructionReads m.cpu.regs.pc bytes aheads
  rw [← haccesses] at hreads
  exact hreads

/-- Where an instruction stores to does not depend on the program counter or on R. -/
theorem accesses_fetched (i : Instruction) :
    i.accesses (fetched m.tap).cpu.regs = i.accesses m.cpu.regs := by
  have haddress (r : Registers) (pc : UInt16) (v : UInt8) (a : Address) :
      { r with pc := pc, r := v }.address a = r.address a := by
    cases a with
    | indirect q => cases q with
      | index x => cases x <;> rfl
      | _ => rfl
    | displaced x d => cases x <;> rfl
    | absolute nn => rfl
  have hstores (p : Place) : p.stores (fetched m.tap).cpu.regs = p.stores m.cpu.regs := by
    rw [regs_fetched]
    cases p with
    | reg x => rfl
    | mem a => exact congrArg (fun c => [Access.store c]) (haddress _ _ _ a)
  cases i with
  | load p _ | inc p | dec p | shift _ p _ | res _ p _ | set _ p _ => exact hstores p
  | _ =>
    rw [regs_fetched]
    rfl

theorem made_runOne {i : Instruction} (hi : upcoming m = some i) (h : i.movesBlock = false) :
    (runOne m.tap).2.made = i.accesses m.cpu.regs := by
  have hnext : upcoming m.tap = some i := (upcoming_tap m).1.trans hi
  rw [runOne_of_upcoming hnext, made_perform _ h, made_fetched, accesses_fetched]
  rfl

theorem made_runOne_none (hi : upcoming m = none) : (runOne m.tap).2.made = [] := by
  have hnext : upcoming m.tap = none := (upcoming_tap m).1.trans hi
  rw [runOne_of_upcoming_none hnext, made_fetched]

end Exec

/-! ## On a board -/

/-- A port after one byte has been read from it. -/
def Port.next (p : Port) : Port :=
  p.read.2

namespace Board

/-- What is left of the board `b` after these accesses. -/
structure After (b : Board) (made : List Access) (b' : Board) : Prop where
  /-- A cell that is not stored into keeps its byte. -/
  memory : ∀ a, .store a ∉ made → b'.peek a = b.peek a
  /-- Each input takes one byte from the port that it reads. -/
  ports : ∀ n, b'.port n = Port.next^[made.countP (Access.takesFrom n)] (b.port n)
  /-- Each output adds one entry to the log. -/
  written : ∃ entries, b'.written.toList = b.written.toList ++ entries ∧
    entries.map Prod.fst = made.filterMap Access.output?

namespace After

variable {b b' : Board} {made : List Access}

theorem refl (b : Board) : After b [] b where
  memory _ _ := rfl
  ports _ := rfl
  written := ⟨[], (List.append_nil _).symm, rfl⟩

theorem poke (h : After b made b') (a : UInt16) (v : UInt8) :
    After b (made ++ [.store a]) (b'.poke a v) where
  memory c hc := by
    rw [List.mem_append, not_or, List.mem_singleton] at hc
    have hne : a ≠ c := fun heq => hc.2 (heq ▸ rfl)
    refine Eq.trans ?_ (h.memory c hc.1)
    exact (Memory.get_set _ a c v).trans (if_neg hne)
  ports n := by
    rw [List.countP_append]
    exact h.ports n
  written := by
    rw [List.filterMap_append]
    obtain ⟨entries, hlog, hports⟩ := h.written
    exact ⟨entries, hlog, hports.trans (List.append_nil _).symm⟩

theorem input (h : After b made b') (a : UInt16) :
    After b (made ++ [.input a]) (b'.input a).2 where
  memory c hc := h.memory c fun hmem => hc (List.mem_append_left _ hmem)
  ports n := by
    rw [List.countP_append, List.countP_singleton, Access.takesFrom]
    refine (port_putPort b' a.toUInt8 n _).trans ?_
    by_cases hn : a.toUInt8 = n
    · subst hn
      rw [if_pos rfl, if_pos (beq_self_eq_true _), Function.iterate_succ_apply', ← h.ports]
      rfl
    · rw [if_neg hn, if_neg (by rwa [beq_iff_eq])]
      exact h.ports n
  written := by
    rw [List.filterMap_append]
    obtain ⟨entries, hlog, hports⟩ := h.written
    exact ⟨entries, hlog, hports.trans (List.append_nil _).symm⟩

theorem output (h : After b made b') (a : UInt16) (v : UInt8) :
    After b (made ++ [.output a]) (b'.output a v) where
  memory c hc := h.memory c fun hmem => hc (List.mem_append_left _ hmem)
  ports n := by
    rw [List.countP_append]
    exact h.ports n
  written := by
    obtain ⟨entries, hlog, hports⟩ := h.written
    refine ⟨entries ++ [(a, v)], ?_, ?_⟩
    · rw [← List.append_assoc, ← hlog]
      exact Array.toList_push
    · rw [List.map_append, List.filterMap_append, hports]
      rfl

/-- A board that is told of a fault adds it to a log of its own. -/
theorem fault (h : After b made b') (e : InvalidOpcode) : After b made (b'.fault e) :=
  ⟨h.memory, h.ports, h.written⟩

end After

end Board

namespace Exec

variable {ω : Type} [Observer ω]

/-- The record at its bus says what a board has been through. -/
theorem invariant_after (b : Board) :
    Invariant fun m : Machine (Tapped Board) ω => b.After m.made m.bus.inner where
  modifyRegs _ _ h := h
  read a m h := by
    rw [made_read]
    exact h
  write a v m h := by
    rw [made_write]
    exact h.poke a v
  input a m h := by
    rw [made_input]
    exact h.input a
  output a v m h := by
    rw [made_output]
    exact h.output a v
  halt _ h := h
  takeByte _ _ h := h
  countFetch _ h := h

theorem after_runOne (m : Machine Board ω) :
    m.bus.After (runOne m.tap).2.made (runOne m).2.bus := by
  have hfirst : m.bus.After (takeFirst m.tap).2.made (takeFirst m.tap).2.bus.inner := by
    have hread : (takeFirst m.tap).2.made = [] :=
      congrArg (List.filterMap Event.access?) (accesses_takeFirst m.tap)
    rw [hread]
    exact .refl m.bus
  have hone := (invariant_after m.bus).runOne hfirst
  have hbus : (runOne m.tap).2.bus.inner = (runOne m).2.bus :=
    congrArg Machine.bus (untap_runOne m.tap).2
  rw [hbus] at hone
  exact hone

/-- What a batch of one leaves of a board on which these accesses have been made. -/
structure BusFrame (m : Machine Board ω) (accesses : List Access) : Prop where
  /-- The record makes no difference. -/
  untap : (step 1 m.tap).2.untap = (step 1 m).2
  /-- Each access has been made once, in this order, and no other has. -/
  made : (step 1 m.tap).2.made = accesses
  after : m.bus.After accesses (step 1 m).2.bus

/-- Operands in memory have no other addresses. -/
theorem onEveryPage_target : OnEveryPage fun i =>
    ∀ a, i.target? = some (.mem a) → a.isOperand = true := by
  have haddress (a : Address) : a.bare.isOperand = a.isOperand := by
    cases a <;> rfl
  have htarget (i : Instruction) : i.bare.target? = i.target?.map Place.bare := by
    cases i <;> rfl
  apply onEveryPage_of_codes
  · intro i h a ha
    rw [← haddress]
    apply h
    rw [htarget, ha]
    rfl
  · intro code i hcode a ha
    have htable := Codes.of_checks (p := fun _ i => i.target?.all Place.isOperand)
      (by decide +kernel) hcode
    rw [ha] at htable
    exact htable

section

variable {m : Machine Board ω}

/-- A machine that has stopped leaves its bus alone. -/
theorem busFrame_of_stopped (h : (step 1 m).2 = m) (htap : (step 1 m.tap).2 = m.tap)
    (hnone : executedFor (.step 1) m = []) :
    BusFrame m ((executedFor (.step 1) m).flatMap (·.accesses m.cpu.regs)) := by
  rw [hnone]
  constructor
  case untap => rw [h, htap, Machine.untap_tap]
  case made =>
    rw [htap]
    rfl
  case after =>
    rw [h]
    exact .refl m.bus

theorem busFrame_of_running (hfault : m.cpu.fault = none) (hhalted : m.cpu.regs.halted = false)
    (h : ∀ i ∈ executedFor (.step 1) m, i.movesBlock = false) :
    BusFrame m ((executedFor (.step 1) m).flatMap (·.accesses m.cpu.regs)) := by
  have hexecuted : executedFor (.step 1) m = (upcoming m).toList := by
    simp only [executedFor, hfault, executedIn, hhalted]
    cases upcoming m <;> rfl
  obtain ⟨hresult, huntap⟩ := untap_step 1 m.tap
  have hafter := after_runOne m
  have hstep := step_one hfault hhalted
  have hsteptap := step_one (m := m.tap) hfault hhalted
  rw [hexecuted] at h ⊢
  cases hnext : upcoming m with
  | some i =>
    have hone := runOne_of_upcoming hnext
    have honetap := runOne_of_upcoming ((upcoming_tap m).1.trans hnext)
    have hmade := made_runOne m hnext (h i (by rw [hnext]; exact List.mem_singleton_self i))
    rw [hmade] at hafter
    rw [hone] at hstep hafter
    rw [honetap] at hsteptap hmade
    rw [Option.toList_some, List.flatMap_singleton]
    refine ⟨huntap, ?_, ?_⟩
    · rw [hsteptap]
      exact hmade
    · rw [hstep]
      exact hafter
  | none =>
    have hone := runOne_of_upcoming_none hnext
    have honetap := runOne_of_upcoming_none ((upcoming_tap m).1.trans hnext)
    have hmade := made_runOne_none m hnext
    rw [hmade] at hafter
    rw [hone] at hstep hafter
    rw [honetap] at hsteptap hmade
    refine ⟨huntap, ?_, ?_⟩
    · -- to report the fault is no access
      rw [hsteptap]
      exact (Recorder.made_notify _ _).trans ((List.append_nil _).trans hmade)
    · rw [hstep]
      exact hafter.fault _

end

/-- Apart from block transfers, all that a batch of one does to a board, reads of memory apart, are
the accesses of its instruction, and these have the addresses that the registers give before it.
So a board keeps each other cell, the bytes that wait at each other port, and its log. -/
theorem bus_frame (m : Machine Board ω) (h : ∀ i ∈ executedFor (.step 1) m, i.movesBlock = false) :
    BusFrame m ((executedFor (.step 1) m).flatMap (·.accesses m.cpu.regs)) ∧
      ∀ i ∈ executedFor (.step 1) m, ∀ a, i.target? = some (.mem a) → a.isOperand = true := by
  refine ⟨?_, ?_⟩
  · cases hfault : m.cpu.fault with
    | some e =>
      have hnone : executedFor (.step 1) m = [] := by
        simp only [executedFor, hfault]
      have hstep := step_of_fault 1 hfault
      have hsteptap := step_of_fault 1 (m := m.tap) hfault
      exact busFrame_of_stopped (congrArg Prod.snd hstep) (congrArg Prod.snd hsteptap) hnone
    | none =>
      cases hhalted : m.cpu.regs.halted with
      | true =>
        have hnone : executedFor (.step 1) m = [] := by
          simp only [executedFor, hfault, executedIn, hhalted, if_true]
        have hstep := (step_of_running 1 hfault).trans (run_of_halted 1 hhalted)
        have hsteptap := (step_of_running 1 (m := m.tap) hfault).trans
          (run_of_halted 1 (m := m.tap) hhalted)
        exact busFrame_of_stopped (congrArg Prod.snd hstep) (congrArg Prod.snd hsteptap) hnone
      | false => exact busFrame_of_running hfault hhalted h
  · have hexecuted : ∀ i ∈ executed [.step 1] m, ∀ a, i.target? = some (.mem a) →
        a.isOperand = true := onEveryPage_target.executed
    exact fun i hi => hexecuted i (List.mem_append_left _ hi)

/-- IN A,(n) reads one port, under the address that A and n make, and touches no cell. -/
theorem bus_frame_inA :
    let memory := (Memory.zero.set 0 0xDB).set 1 0x34
    let m : Machine Board Unit := ⟨{ regs := { a := 0x12 } }, { memory }, ()⟩
    executedFor (.step 1) m = [.inA 0x34] ∧ (step 1 m.tap).2.made = [.input 0x1234] ∧
      ∀ a, (step 1 m).2.bus.peek a = m.bus.peek a := by
  intro memory m
  have hop : m.ahead 0 = 0xDB := by
    simp [m, memory, Machine.ahead, Board.peek, Memory.get_set]
  have hn : m.ahead 1 = 0x34 := by
    simp [m, memory, Machine.ahead, Board.peek]
  have hlead : Lead.ofByte (m.ahead 0) = .plain (.byte .inA) := by
    rw [hop]
    rfl
  have hupcoming : upcoming m = some (.inA (m.ahead 1)) := (spells_plain hlead).upcoming
  rw [hn] at hupcoming
  have hexecuted : executedFor (.step 1) m = [.inA 0x34] := by
    show executedIn 1 m = _
    rw [executedIn, hupcoming]
    rfl
  obtain ⟨hframe, -⟩ := bus_frame m (by rw [hexecuted]; decide)
  rw [hexecuted] at hframe
  have haccesses : [Instruction.inA 0x34].flatMap (·.accesses m.cpu.regs) = [.input 0x1234] := by
    decide
  rw [haccesses] at hframe
  refine ⟨hexecuted, hframe.made, fun a => hframe.after.memory a ?_⟩
  intro hstore
  cases List.mem_singleton.mp hstore

end Exec

end Z80
