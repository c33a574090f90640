import Z80.Proofs.Execution

/-!
# Coupled machines

Two machines that start out related in some way can be run side by side. An
instruction consults the register file and the bus and nothing else, so whatever
relation fixes the registers, and survives the primitive steps, survives every
instruction. Taking the two machines equal gives an invariant of one machine.

Main definitions:
- `Exec.Agree`: from related machines, two executions give the same answer and
  leave related machines.
- `Exec.IntakeCoupling`: the relations that fix the program counter and survive the steps of
  fetching.
- `Exec.FetchCoupling`, `Exec.PerformCoupling`: the relations that fix the registers and
  survive the steps of fetching, or those of performing; `Exec.Coupling`: both.
- `Exec.BatchCoupling`: the relations that survive whole instructions and reports of faults.

Main statements: `PerformCoupling.perform` and `IntakeCoupling.dispatch` say that a coupling
survives the performing and the fetching of any instruction, `BatchCoupling.step` that one of
whole instructions survives a batch; `perform_sameRecord` and `dispatch_sameRecord` say that
neither touches the recorded fault, the configuration or the count of instructions,
`current_perform` that performing takes no byte in.
-/

namespace Z80.Exec

variable {β₁ β₂ ω₁ ω₂ α γ : Type} {R : Machine β₁ ω₁ → Machine β₂ ω₂ → Prop}

/-- From related machines the two executions give the same answer and leave
related machines. -/
def Agree (R : Machine β₁ ω₁ → Machine β₂ ω₂ → Prop) (x : Exec β₁ ω₁ α) (y : Exec β₂ ω₂ α) :
    Prop :=
  ∀ m₁ m₂, R m₁ m₂ → (x m₁).1 = (y m₂).1 ∧ R (x m₁).2 (y m₂).2

namespace Agree

theorem pure (a : α) : Agree R (Pure.pure a) (Pure.pure a) :=
  fun _ _ h => ⟨rfl, h⟩

theorem bind {x : Exec β₁ ω₁ α} {y : Exec β₂ ω₂ α} {f : α → Exec β₁ ω₁ γ} {g : α → Exec β₂ ω₂ γ}
    (hx : Agree R x y) (hf : ∀ a, Agree R (f a) (g a)) : Agree R (x >>= f) (y >>= g) := by
  intro m₁ m₂ h
  obtain ⟨heq, h'⟩ := hx m₁ m₂ h
  rw [bind_apply, bind_apply, heq]
  exact hf _ _ _ h'

theorem ite {c : Prop} [Decidable c] {x x' : Exec β₁ ω₁ α} {y y' : Exec β₂ ω₂ α}
    (h : Agree R x y) (h' : Agree R x' y') :
    Agree R (if c then x else x') (if c then y else y') := by
  split
  · exact h
  · exact h'

end Agree

/-- A relation that fixes the program counter and survives the steps by which an instruction is
taken in. These consult no other register. -/
structure IntakeCoupling [Bus β₁] [Bus β₂] [Observer ω₁] [Observer ω₂]
    (R : Machine β₁ ω₁ → Machine β₂ ω₂ → Prop) : Prop where
  pc : ∀ m₁ m₂, R m₁ m₂ → m₁.cpu.regs.pc = m₂.cpu.regs.pc
  read (a : UInt16) : Agree R (read a) (read a)
  takeByte (v : UInt8) : Agree R (modifyCpu (Cpu.takeByte v)) (modifyCpu (Cpu.takeByte v))
  countFetch : Agree R (modifyCpu Cpu.countFetch) (modifyCpu Cpu.countFetch)

namespace IntakeCoupling

variable [Bus β₁] [Bus β₂] [Observer ω₁] [Observer ω₂] (h : IntakeCoupling R)
include h

/-- Both machines read the byte at the program counter, and it is the same. -/
theorem readNext {f : UInt8 → Exec β₁ ω₁ α} {g : UInt8 → Exec β₂ ω₂ α}
    (hf : ∀ v, Agree R (f v) (g v)) :
    Agree R (regs >>= fun r => Exec.read r.pc >>= f) (regs >>= fun r => Exec.read r.pc >>= g) := by
  intro m₁ m₂ hR
  have hnext := (h.read m₁.cpu.regs.pc).bind hf m₁ m₂ hR
  have hpc : (Exec.read m₁.cpu.regs.pc >>= g) m₂ =
      (regs >>= fun r => Exec.read r.pc >>= g) m₂ := by
    rw [h.pc m₁ m₂ hR]
    rfl
  rw [hpc] at hnext
  exact hnext

theorem fetchByte : Agree R fetchByte fetchByte :=
  h.readNext fun v => (h.takeByte v).bind fun _ => .pure v

theorem fetchOpcode : Agree R fetchOpcode fetchOpcode :=
  h.countFetch.bind fun _ => h.fetchByte

theorem complete (d : Decoding) : Agree R (complete d) (complete d) := by
  induction d with
  | done i => exact .pure i
  | operand next ih => exact h.fetchByte.bind fun v => ih v

theorem completeOr (d? : Option Decoding) {x : Exec β₁ ω₁ (Option Instruction)}
    {y : Exec β₂ ω₂ (Option Instruction)} (hxy : Agree R x y) :
    Agree R (completeOr d? x) (completeOr d? y) := by
  cases d? with
  | none => exact hxy
  | some d => exact (h.complete d).bind fun _ => .pure _

theorem dispatch_of_ne_index {op : UInt8} (hop : ∀ x, Lead.ofByte op ≠ .index x) :
    Agree R (dispatch op) (dispatch op) := by
  unfold Exec.dispatch
  cases hlead : Lead.ofByte op with
  | plain d =>
    rw [dispatchWithin_of_plain hlead, dispatchWithin_of_plain hlead]
    exact (h.complete d).bind fun _ => .pure _
  | cb =>
    rw [dispatchWithin_of_cb hlead, dispatchWithin_of_cb hlead]
    exact h.fetchOpcode.bind fun _ => .pure _
  | ed =>
    rw [dispatchWithin_of_ed hlead, dispatchWithin_of_ed hlead]
    exact h.fetchOpcode.bind fun v => h.completeOr (Page.ed v) (.pure none)
  | index x => exact absurd hlead (hop x)

theorem dispatchWithin (limit : Nat) (op : UInt8) :
    Agree R (dispatchWithin limit op) (dispatchWithin limit op) := by
  induction limit generalizing op with
  | zero =>
    by_cases hop : ∃ x, Lead.ofByte op = .index x
    · obtain ⟨x, hop⟩ := hop
      rw [dispatchWithin_zero_of_index hop, dispatchWithin_zero_of_index hop]
      exact h.readNext fun _ => .ite (.pure _) (.pure _)
    · rw [not_exists] at hop
      rw [dispatchWithin_eq_dispatch hop, dispatchWithin_eq_dispatch hop]
      exact h.dispatch_of_ne_index hop
  | succ limit ih =>
    by_cases hop : ∃ x, Lead.ofByte op = .index x
    · obtain ⟨x, hop⟩ := hop
      rw [dispatchWithin_succ_of_index hop, dispatchWithin_succ_of_index hop]
      -- both machines see the same byte ahead, so both go the same way
      exact h.readNext fun _ => .ite (.pure _) <|
        h.fetchOpcode.bind fun next => h.completeOr (Page.index x next) (ih next)
    · rw [not_exists] at hop
      rw [dispatchWithin_eq_dispatch hop, dispatchWithin_eq_dispatch hop]
      exact h.dispatch_of_ne_index hop

/-- Fetching any instruction keeps the two machines related. -/
theorem dispatch (op : UInt8) : Agree R (dispatch op) (dispatch op) :=
  h.dispatchWithin indexLimit op

end IntakeCoupling

/-- A relation that fixes the registers and survives the steps by which an instruction is
taken in. -/
structure FetchCoupling [Bus β₁] [Bus β₂] [Observer ω₁] [Observer ω₂]
    (R : Machine β₁ ω₁ → Machine β₂ ω₂ → Prop) : Prop where
  regs : Agree R regs regs
  read (a : UInt16) : Agree R (read a) (read a)
  takeByte (v : UInt8) : Agree R (modifyCpu (Cpu.takeByte v)) (modifyCpu (Cpu.takeByte v))
  countFetch : Agree R (modifyCpu Cpu.countFetch) (modifyCpu Cpu.countFetch)

namespace FetchCoupling

variable [Bus β₁] [Bus β₂] [Observer ω₁] [Observer ω₂] (h : FetchCoupling R)
include h

theorem intake : IntakeCoupling R where
  pc m₁ m₂ hR := congrArg (·.pc) (h.regs m₁ m₂ hR).1
  read := h.read
  takeByte := h.takeByte
  countFetch := h.countFetch

theorem fetchOpcode : Agree R fetchOpcode fetchOpcode :=
  h.intake.fetchOpcode

theorem dispatch (op : UInt8) : Agree R (dispatch op) (dispatch op) :=
  h.intake.dispatch op

end FetchCoupling

/-- A relation that fixes the registers and survives the steps of which the effect of an
instruction is made. No byte is taken in by these. -/
structure PerformCoupling [Bus β₁] [Bus β₂] [Observer ω₁] [Observer ω₂]
    (R : Machine β₁ ω₁ → Machine β₂ ω₂ → Prop) : Prop where
  regs : Agree R regs regs
  modifyRegs (f : Registers → Registers) : Agree R (modifyRegs f) (modifyRegs f)
  read (a : UInt16) : Agree R (read a) (read a)
  write (a : UInt16) (v : UInt8) : Agree R (write a v) (write a v)
  input (a : UInt16) : Agree R (input a) (input a)
  output (a : UInt16) (v : UInt8) : Agree R (output a v) (output a v)
  halt : Agree R (do notify (.halt (← cpu).current.start)) (do notify (.halt (← cpu).current.start))

namespace PerformCoupling

variable [Bus β₁] [Bus β₂] [Observer ω₁] [Observer ω₂] (h : PerformCoupling R)
include h

theorem readWord (a : UInt16) : Agree R (readWord a) (readWord a) :=
  (h.read a).bind fun _ => (h.read (a + 1)).bind fun _ => .pure _

theorem writeWord (a v : UInt16) : Agree R (writeWord a v) (writeWord a v) :=
  (h.write a _).bind fun _ => h.write (a + 1) _

theorem push (v : UInt16) : Agree R (push v) (push v) :=
  h.regs.bind fun _ => (h.write _ _).bind fun _ => (h.write _ _).bind fun _ => h.modifyRegs _

theorem pop : Agree R pop pop :=
  h.regs.bind fun _ => (h.readWord _).bind fun _ => (h.modifyRegs _).bind fun _ => .pure _

theorem call (a : UInt16) : Agree R (call a) (call a) :=
  h.regs.bind fun _ => (h.push _).bind fun _ => h.modifyRegs _

theorem ret : Agree R ret ret :=
  h.pop.bind fun _ => h.modifyRegs _

theorem readPlace (p : Place) : Agree R (readPlace p) (readPlace p) := by
  cases p with
  | reg x => exact h.regs.bind fun _ => .pure _
  | mem a => exact h.regs.bind fun _ => h.read _

theorem writePlace (p : Place) (v : UInt8) : Agree R (writePlace p v) (writePlace p v) := by
  cases p with
  | reg x => exact h.modifyRegs _
  | mem a => exact h.regs.bind fun _ => h.write _ _

theorem readSource (s : Source) : Agree R (readSource s) (readSource s) := by
  cases s with
  | place p => exact h.readPlace p
  | imm n => exact .pure n

theorem update (p : Place) (copy : Option Reg8) (f : UInt8 → UInt8 → Outcome UInt8) :
    Agree R (update p copy f) (update p copy f) := by
  refine (h.readPlace p).bind fun _ => h.regs.bind fun _ => (h.writePlace p _).bind fun _ =>
    (h.modifyRegs _).bind fun _ => ?_
  cases copy with
  | none => exact .pure ()
  | some x => exact h.modifyRegs _

theorem rotateDigits (f : UInt8 → UInt8 → UInt8 × UInt8) :
    Agree R (rotateDigits f) (rotateDigits f) :=
  h.regs.bind fun _ => (h.read _).bind fun _ => (h.write _ _).bind fun _ => h.modifyRegs _

theorem blockRound (kind : BlockKind) (dir : Direction) :
    Agree R (blockRound kind dir) (blockRound kind dir) := by
  refine h.regs.bind fun _ => ?_
  cases kind with
  | load => exact (h.read _).bind fun _ => (h.write _ _).bind fun _ => h.modifyRegs _
  | compare => exact (h.read _).bind fun _ => h.modifyRegs _
  | input => exact (h.input _).bind fun _ => (h.write _ _).bind fun _ => h.modifyRegs _
  | output => exact (h.read _).bind fun _ => (h.output _ _).bind fun _ => h.modifyRegs _

theorem blockRounds (kind : BlockKind) (dir : Direction) (n : Nat) :
    Agree R (blockRounds kind dir n) (blockRounds kind dir n) := by
  induction n with
  | zero => exact .pure ()
  | succ n ih =>
    -- the registers are the same after a round, so both go on or neither
    exact (h.blockRound kind dir).bind fun _ => h.regs.bind fun _ => .ite ih (.pure ())

theorem block (kind : BlockKind) (dir : Direction) (repeats : Bool) :
    Agree R (block kind dir repeats) (block kind dir repeats) :=
  .ite (h.blockRounds kind dir _) (h.blockRound kind dir)

/-- A coupling survives every instruction. -/
theorem perform (i : Instruction) : Agree R (perform i) (perform i) := by
  cases i with
  | nop => exact .pure ()
  | halt => exact h.halt.bind fun _ => h.modifyRegs fun r => { r with halted := true }
  | load dst src => exact (h.readSource src).bind fun _ => h.writePlace dst _
  | loadWord dst nn => exact (h.readWord nn).bind fun _ => h.modifyRegs _
  | storeWord nn src => exact h.regs.bind fun _ => h.writeWord nn _
  | push src => exact h.regs.bind fun _ => h.push _
  | pop dst => exact h.pop.bind fun _ => h.modifyRegs _
  | exchangeStack x =>
    exact h.regs.bind fun _ => (h.readWord _).bind fun _ => (h.writeWord _ _).bind fun _ =>
      h.modifyRegs _
  | alu op src => exact (h.readSource src).bind fun _ => h.modifyRegs _
  | inc p | dec p => exact h.update p none _
  | shift op p copy => exact h.update p copy _
  | bit n p => exact (h.readPlace p).bind fun _ => h.modifyRegs _
  | res n p copy | set n p copy => exact h.update p copy _
  | rrd | rld => exact h.rotateDigits _
  | jump cc nn => exact h.regs.bind fun _ => .ite (h.modifyRegs _) (.pure ())
  | jumpTo x => exact h.regs.bind fun _ => h.modifyRegs _
  | jumpRelative cc d => exact h.regs.bind fun _ => .ite (h.modifyRegs _) (.pure ())
  | djnz d =>
    exact (h.modifyRegs _).bind fun _ => h.regs.bind fun _ => .ite (h.modifyRegs _) (.pure ())
  | call cc nn => exact h.regs.bind fun _ => .ite (h.call nn) (.pure ())
  | ret cc => exact h.regs.bind fun _ => .ite h.ret (.pure ())
  | retn => exact (h.modifyRegs _).bind fun _ => h.ret
  | reti => exact h.ret
  | rst target => exact h.call target
  | inA n => exact h.regs.bind fun _ => (h.input _).bind fun _ => h.modifyRegs _
  | outA n => exact h.regs.bind fun _ => h.output _ _
  | inC dst => exact h.regs.bind fun _ => (h.input _).bind fun _ => h.modifyRegs _
  | outC src => exact h.regs.bind fun _ => h.output _ _
  | block kind dir repeats => exact h.block kind dir repeats
  -- all others compute on the register file alone
  | _ => exact h.modifyRegs _

end PerformCoupling

/-- A relation that fixes the registers and survives the primitive steps that
instructions are made of. Where the instruction under way is shown to an observer
and where its bytes are taken in, the relation has to say what becomes of it. -/
structure Coupling [Bus β₁] [Bus β₂] [Observer ω₁] [Observer ω₂]
    (R : Machine β₁ ω₁ → Machine β₂ ω₂ → Prop) : Prop extends
    PerformCoupling R, FetchCoupling R

namespace Coupling

variable [Bus β₁] [Bus β₂] [Observer ω₁] [Observer ω₂] (h : Coupling R)
include h

/-- Machines that start an instruction related end it related, if what they would report
of it is the same. -/
theorem runOne (hreport : ∀ m₁ m₂, R m₁ m₂ → m₁.cpu.invalidOpcode = m₂.cpu.invalidOpcode)
    {m₁ : Machine β₁ ω₁} {m₂ : Machine β₂ ω₂} (hop : (takeFirst m₁).1 = (takeFirst m₂).1)
    (hfirst : R (takeFirst m₁).2 (takeFirst m₂).2) :
    (runOne m₁).1 = (runOne m₂).1 ∧ R (runOne m₁).2 (runOne m₂).2 := by
  have hconclude : ∀ i? : Option Instruction, Agree R (conclude i?) (conclude i?) := by
    intro i?
    cases i? with
    | some i => exact (h.perform i).bind fun _ => .pure _
    | none => exact fun s₁ s₂ hs => ⟨congrArg Except.error (hreport s₁ s₂ hs), hs⟩
  rw [runOne_eq, runOne_eq, bind_apply, bind_apply, hop]
  exact ((h.dispatch _).bind hconclude) _ _ hfirst

end Coupling

/-! ## Batches -/

/-- A relation that survives whole instructions and the report of a fault, and shows in which state
the machines are. -/
structure BatchCoupling [Bus β₁] [Bus β₂] [Observer ω₁] [Observer ω₂]
    (R : Machine β₁ ω₁ → Machine β₂ ω₂ → Prop) : Prop where
  halted : ∀ m₁ m₂, R m₁ m₂ → m₁.cpu.regs.halted = m₂.cpu.regs.halted
  fault : ∀ m₁ m₂, R m₁ m₂ → m₁.cpu.fault = m₂.cpu.fault
  runOne : Agree R runOne runOne
  recordFault : ∀ m₁ m₂ e, R m₁ m₂ → R (recordFault e m₁) (recordFault e m₂)

namespace BatchCoupling

variable [Bus β₁] [Bus β₂] [Observer ω₁] [Observer ω₂] (h : BatchCoupling R)
include h

theorem run (count : Nat) : Agree R (run count) (run count) := by
  intro m₁ m₂ hR
  induction count generalizing m₁ m₂ with
  | zero => exact ⟨rfl, hR⟩
  | succ count ih =>
    rw [run_succ, run_succ, ← h.halted m₁ m₂ hR]
    by_cases hhalted : m₁.cpu.regs.halted = true
    · rw [if_pos hhalted, if_pos hhalted]
      exact ⟨rfl, hR⟩
    · rw [if_neg hhalted, if_neg hhalted]
      obtain ⟨hresult, hafter⟩ := h.runOne m₁ m₂ hR
      generalize Exec.runOne m₁ = out at hresult hafter
      generalize Exec.runOne m₂ = out' at hresult hafter
      obtain ⟨r, s₁⟩ := out
      obtain ⟨r', s₂⟩ := out'
      obtain rfl : r = r' := hresult
      cases r with
      | ok u => exact ih s₁ s₂ hafter
      | error e => exact ⟨rfl, h.recordFault s₁ s₂ e hafter⟩

theorem step (count : Nat) : Agree R (step count) (step count) := by
  intro m₁ m₂ hR
  have hsame := h.fault m₁ m₂ hR
  cases hfault : m₁.cpu.fault with
  | some e =>
    rw [step_of_fault count hfault, step_of_fault count (hsame ▸ hfault)]
    exact ⟨rfl, hR⟩
  | none =>
    rw [step_of_running count hfault, step_of_running count (hsame ▸ hfault)]
    exact h.run count m₁ m₂ hR

end BatchCoupling

end Z80.Exec

/-! ## What instructions leave alone -/

namespace Z80

/-- The two processors differ in their registers and in the instruction under way
at most: they have recorded the same fault and counted as many instructions, and
are configured alike. -/
structure Cpu.SameRecord (c c' : Cpu) : Prop where
  fault : c.fault = c'.fault
  config : c.config = c'.config
  instructions : c.instructions = c'.instructions

namespace Cpu.SameRecord

theorem rfl {c : Cpu} : c.SameRecord c :=
  ⟨.refl _, .refl _, .refl _⟩

theorem symm {c c' : Cpu} (h : c.SameRecord c') : c'.SameRecord c :=
  ⟨h.fault.symm, h.config.symm, h.instructions.symm⟩

theorem trans {c c' c'' : Cpu} (h : c.SameRecord c') (h' : c'.SameRecord c'') : c.SameRecord c'' :=
  ⟨h.fault.trans h'.fault, h.config.trans h'.config, h.instructions.trans h'.instructions⟩

theorem takeByte (c : Cpu) (v : UInt8) : (c.takeByte v).SameRecord c :=
  ⟨.refl _, .refl _, .refl _⟩

theorem countFetch (c : Cpu) : c.countFetch.SameRecord c := by
  unfold Cpu.countFetch
  split <;> exact ⟨.refl _, .refl _, .refl _⟩

end Cpu.SameRecord

namespace Exec

variable {β ω : Type} [Bus β] [Observer ω]

/-- One machine in two copies that keep the record of the processor `c`. -/
theorem coupling_sameRecord (c : Cpu) :
    Coupling fun m₁ m₂ : Machine β ω => m₁ = m₂ ∧ m₁.cpu.SameRecord c where
  regs := fun _ _ ⟨h, hc⟩ => h ▸ ⟨rfl, rfl, hc⟩
  modifyRegs _ := fun _ _ ⟨h, hc⟩ => h ▸ ⟨rfl, rfl, hc.fault, hc.config, hc.instructions⟩
  read _ := fun _ _ ⟨h, hc⟩ => h ▸ ⟨rfl, rfl, hc⟩
  write _ _ := fun _ _ ⟨h, hc⟩ => h ▸ ⟨rfl, rfl, hc⟩
  input _ := fun _ _ ⟨h, hc⟩ => h ▸ ⟨rfl, rfl, hc⟩
  output _ _ := fun _ _ ⟨h, hc⟩ => h ▸ ⟨rfl, rfl, hc⟩
  halt := fun _ _ ⟨h, hc⟩ => h ▸ ⟨rfl, rfl, hc⟩
  takeByte v := fun _ _ ⟨h, hc⟩ => h ▸ ⟨rfl, rfl, (Cpu.SameRecord.takeByte _ v).trans hc⟩
  countFetch := fun _ _ ⟨h, hc⟩ => h ▸ ⟨rfl, rfl, (Cpu.SameRecord.countFetch _).trans hc⟩

theorem perform_sameRecord (i : Instruction) (m : Machine β ω) :
    (perform i m).2.cpu.SameRecord m.cpu :=
  ((coupling_sameRecord m.cpu).perform i m m ⟨rfl, .rfl⟩).2.2

theorem dispatch_sameRecord (op : UInt8) (m : Machine β ω) :
    (dispatch op m).2.cpu.SameRecord m.cpu :=
  ((coupling_sameRecord m.cpu).dispatch op m m ⟨rfl, .rfl⟩).2.2

/-- One machine in two copies, with `u` the instruction under way. -/
theorem performCoupling_current (u : Current) :
    PerformCoupling fun m₁ m₂ : Machine β ω => m₁ = m₂ ∧ m₁.cpu.current = u where
  regs := fun _ _ ⟨h, hu⟩ => h ▸ ⟨rfl, rfl, hu⟩
  modifyRegs _ := fun _ _ ⟨h, hu⟩ => h ▸ ⟨rfl, rfl, hu⟩
  read _ := fun _ _ ⟨h, hu⟩ => h ▸ ⟨rfl, rfl, hu⟩
  write _ _ := fun _ _ ⟨h, hu⟩ => h ▸ ⟨rfl, rfl, hu⟩
  input _ := fun _ _ ⟨h, hu⟩ => h ▸ ⟨rfl, rfl, hu⟩
  output _ _ := fun _ _ ⟨h, hu⟩ => h ▸ ⟨rfl, rfl, hu⟩
  halt := fun _ _ ⟨h, hu⟩ => h ▸ ⟨rfl, rfl, hu⟩

/-- Performing takes no byte in. -/
theorem current_perform (i : Instruction) (m : Machine β ω) :
    (perform i m).2.cpu.current = m.cpu.current :=
  ((performCoupling_current m.cpu.current).perform i m m ⟨rfl, rfl⟩).2.2

theorem takeFirst_sameRecord (m : Machine β ω) :
    (takeFirst m).2.cpu.SameRecord m.cpu.countInstruction := by
  rw [takeFirst_cpu]
  have h := Cpu.SameRecord.countFetch m.cpu.beginInstruction
  exact ⟨h.fault, h.config, congrArg (· + 1) h.instructions⟩

/-- An instruction is counted, and leaves the rest of the record to the batch. -/
theorem runOne_sameRecord (m : Machine β ω) :
    (runOne m).2.cpu.SameRecord m.cpu.countInstruction := by
  have hdispatch := (dispatch_sameRecord (takeFirst m).1 _).trans (takeFirst_sameRecord m)
  rw [runOne_apply]
  generalize dispatch (takeFirst m).1 (takeFirst m).2 = out at hdispatch
  obtain ⟨i?, m'⟩ := out
  cases i? with
  | some i => exact (perform_sameRecord i m').trans hdispatch
  | none => exact hdispatch

/-- A running machine counts the instruction of a single step. -/
theorem instructions_step_one {m : Machine β ω} (hfault : m.cpu.fault = none)
    (hhalted : m.cpu.regs.halted = false) :
    (step 1 m).2.cpu.instructions = m.cpu.instructions + 1 := by
  have hcount := (runOne_sameRecord m).instructions
  rw [step_one hfault hhalted]
  generalize runOne m = out at hcount
  obtain ⟨r, s⟩ := out
  cases r with
  | ok u | error e => exact hcount

end Exec

end Z80
