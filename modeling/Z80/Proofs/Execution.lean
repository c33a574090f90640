import Z80.Step

/-!
# Executions as functions

An execution is a function of the machine, so two executions are equal when they
give the same answer and leave the same machine everywhere. The lemmas here open
the sequencing of a program and its primitive steps, one at a time, so that
nothing else has to unfold them.

Main statements:
- `bind_apply` and its companions: a program applied to a machine.
- `run_zero`, `run_succ`: a batch, one instruction at a time.
- `step_of_fault`, `step_of_running`: a batch is refused or run.
-/

namespace Z80.Exec

variable {β ω α γ : Type}

theorem bind_apply (x : Exec β ω α) (f : α → Exec β ω γ) (m : Machine β ω) :
    (x >>= f) m = f (x m).1 (x m).2 := rfl

theorem pure_apply (a : α) (m : Machine β ω) : (pure a : Exec β ω α) m = (a, m) := rfl

theorem modifyCpu_apply (f : Cpu → Cpu) (m : Machine β ω) :
    modifyCpu f m = ((), { m with cpu := f m.cpu }) := rfl

theorem regs_apply (m : Machine β ω) : regs m = (m.cpu.regs, m) := rfl

theorem cpu_apply (m : Machine β ω) : cpu m = (m.cpu, m) := rfl

variable [Bus β] [Observer ω]

/-! ## Looking an instruction up -/

/-- What follows the look-up in a page: the operand bytes, or something else if the
page has no entry. -/
def completeOr (d? : Option Decoding) (otherwise : Exec β ω (Option Instruction)) :
    Exec β ω (Option Instruction) :=
  match d? with
  | some d => do return some (← complete d)
  | none => otherwise

theorem dispatchWithin_of_plain {op : UInt8} {d : Decoding} (h : Lead.ofByte op = .plain d)
    (limit : Nat) :
    (dispatchWithin limit op : Exec β ω _) = complete d >>= fun i => pure (some i) := by
  unfold dispatchWithin
  rw [h]

theorem dispatchWithin_of_cb {op : UInt8} (h : Lead.ofByte op = .cb) (limit : Nat) :
    (dispatchWithin limit op : Exec β ω _) = fetchOpcode >>= fun v => pure (some (Page.cb v)) := by
  unfold dispatchWithin
  rw [h]

theorem dispatchWithin_of_ed {op : UInt8} (h : Lead.ofByte op = .ed) (limit : Nat) :
    (dispatchWithin limit op : Exec β ω _) =
      fetchOpcode >>= fun v => completeOr (Page.ed v) (pure none) := by
  unfold dispatchWithin
  rw [h]
  rfl

theorem dispatchWithin_zero_of_index {op : UInt8} {x : Index} (h : Lead.ofByte op = .index x) :
    (dispatchWithin 0 op : Exec β ω _) =
      regs >>= fun r => read r.pc >>= fun ahead =>
        if isIndexByte ahead then pure (some .nop) else pure (some .nop) := by
  rw [dispatchWithin, h]

theorem dispatchWithin_succ_of_index {op : UInt8} {x : Index} (h : Lead.ofByte op = .index x)
    (limit : Nat) :
    (dispatchWithin (limit + 1) op : Exec β ω _) =
      regs >>= fun r => read r.pc >>= fun ahead =>
        if isIndexByte ahead then pure (some .nop)
        else fetchOpcode >>= fun next =>
          completeOr (Page.index x next) (dispatchWithin limit next) := by
  rw [dispatchWithin, h]
  rfl

/-- Behind an index byte the next one is looked at before it is taken in. -/
theorem dispatch_of_index {op : UInt8} {x : Index} (h : Lead.ofByte op = .index x) :
    (dispatch op : Exec β ω _) =
      regs >>= fun r => read r.pc >>= fun ahead =>
        if isIndexByte ahead then pure (some .nop)
        else fetchOpcode >>= fun next =>
          completeOr (Page.index x next) (dispatchWithin (indexLimit - 1) next) := by
  obtain ⟨limit, hlimit⟩ : ∃ limit, indexLimit = limit + 1 :=
    Nat.exists_eq_succ_of_ne_zero (by decide)
  rw [dispatch, hlimit]
  exact dispatchWithin_succ_of_index h limit

/-- A byte that is no index byte is looked up at once, whatever the bound. -/
theorem dispatchWithin_eq_dispatch {op : UInt8} (h : ∀ x, Lead.ofByte op ≠ .index x) (limit : Nat) :
    (dispatchWithin limit op : Exec β ω _) = dispatch op := by
  unfold dispatch
  cases hop : Lead.ofByte op with
  | plain d => rw [dispatchWithin_of_plain hop, dispatchWithin_of_plain hop]
  | cb => rw [dispatchWithin_of_cb hop, dispatchWithin_of_cb hop]
  | ed => rw [dispatchWithin_of_ed hop, dispatchWithin_of_ed hop]
  | index x => exact absurd hop (h x)

/-! ## One instruction -/

/-- Begins an instruction: takes in its first byte, announces it and counts it. -/
def takeFirst : Exec β ω UInt8 := do
  modifyCpu Cpu.beginInstruction
  let op ← fetchOpcode
  let c ← cpu
  notify (.instruction c.current.start op c.regs)
  modifyCpu Cpu.countInstruction
  return op

theorem takeFirst_cpu (m : Machine β ω) :
    (takeFirst m).2.cpu =
      (m.cpu.beginInstruction.countFetch.takeByte (takeFirst m).1).countInstruction := rfl

/-- Ends an instruction: performs it, or answers with the bytes that spell none. -/
def conclude : Option Instruction → Exec β ω (Except InvalidOpcode Unit)
  | some i => do
    perform i
    return .ok ()
  | none => return .error (← cpu).invalidOpcode

theorem runOne_eq : (runOne : Exec β ω _) = takeFirst >>= fun op => dispatch op >>= conclude := by
  rfl

/-- An instruction is begun, looked up, and performed if there is one. -/
theorem runOne_apply (m : Machine β ω) :
    runOne m =
      match dispatch (takeFirst m).1 (takeFirst m).2 with
      | (some i, m') => (.ok (), (perform i m').2)
      | (none, m') => (.error m'.cpu.invalidOpcode, m') := by
  rw [runOne_eq, bind_apply, bind_apply]
  obtain ⟨i?, m'⟩ := dispatch (takeFirst m).1 (takeFirst m).2
  cases i? with
  | some i => rfl
  | none => rfl

/-! ## Batches -/

/-- The machine after the report of a fresh fault: bus and observer have heard of
it, and the processor has recorded it. -/
def recordFault (e : InvalidOpcode) (m : Machine β ω) : Machine β ω where
  cpu := { m.cpu with fault := some e }
  bus := Bus.fault e m.bus
  observer := Observer.notify (.fault e) m.observer

theorem run_zero (m : Machine β ω) : run 0 m = (.ok (), m) := rfl

theorem run_succ (count : Nat) (m : Machine β ω) :
    run (count + 1) m =
      if m.cpu.regs.halted then (.ok (), m)
      else
        match runOne m with
        | (.ok (), m') => run count m'
        | (.error e, m') => (.error e, recordFault e m') := by
  rw [run, bind_apply, regs_apply]
  by_cases h : m.cpu.regs.halted = true
  · rw [if_pos h, if_pos h, pure_apply]
  · rw [if_neg h, if_neg h, bind_apply]
    obtain ⟨r, m'⟩ := runOne m
    cases r with
    | ok u => cases u; rfl
    | error e => rfl

theorem run_of_halted (count : Nat) {m : Machine β ω} (h : m.cpu.regs.halted = true) :
    run count m = (.ok (), m) := by
  cases count with
  | zero => rfl
  | succ count => rw [run_succ, if_pos h]

theorem step_of_fault (count : Nat) {m : Machine β ω} {e : InvalidOpcode}
    (h : m.cpu.fault = some e) : step count m = (.error e, m) := by
  unfold step
  rw [bind_apply, cpu_apply, h]
  rfl

theorem step_of_running (count : Nat) {m : Machine β ω} (h : m.cpu.fault = none) :
    step count m = run count m := by
  unfold step
  rw [bind_apply, cpu_apply, h]

/-- A batch of one on a machine that neither has halted nor failed. -/
theorem step_one {m : Machine β ω} (hfault : m.cpu.fault = none)
    (hhalted : m.cpu.regs.halted = false) :
    step 1 m =
      match runOne m with
      | (.ok (), m') => (.ok (), m')
      | (.error e, m') => (.error e, recordFault e m') := by
  rw [step_of_running 1 hfault, run_succ, hhalted]
  rfl

/-- Its answer is that of the instruction. -/
theorem step_one_fst {m : Machine β ω} (hfault : m.cpu.fault = none)
    (hhalted : m.cpu.regs.halted = false) : (step 1 m).1 = (runOne m).1 := by
  rw [step_one hfault hhalted]
  obtain ⟨r, m'⟩ := runOne m
  cases r with
  | ok u => rfl
  | error e => rfl

end Z80.Exec
