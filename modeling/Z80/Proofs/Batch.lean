import Z80.Proofs.Coupling

/-!
# Batches of instructions

A host asks for instructions in batches. How it cuts them does not show: a batch
does what its parts do one after the other, also where it runs into a halt or a
fault, for then the parts that are left find the machine halted or its fault
recorded, and change nothing.

Main statement: `step_batches`. The observer is arbitrary and is told of every
access to the bus, so equal executions have equal traces too.
-/

namespace Z80.Exec

variable {β ω : Type} [Bus β] [Observer ω]

/-- Runs one instruction and then so many more, each in a batch of its own and
whatever the answers are on the way; the answer is that of the last one. -/
def singly : Nat → Exec β ω (Except InvalidOpcode Unit)
  | 0 => step 1
  | more + 1 => do
    let _ ← step 1
    singly more

/-! ## The recorded fault tells the answer -/

/-- After a run the recorded fault is the one it has answered with, if any. -/
theorem run_fault (count : Nat) (m : Machine β ω) :
    (run count m).2.cpu.fault =
      match (run count m).1 with
      | .ok () => m.cpu.fault
      | .error e => some e := by
  induction count generalizing m with
  | zero => rfl
  | succ count ih =>
    rw [run_succ]
    by_cases hhalted : m.cpu.regs.halted = true
    · rw [if_pos hhalted]
    · -- an instruction leaves the record to the batch, so what is there was there before
      rw [if_neg hhalted]
      have hone : (runOne m).2.cpu.fault = m.cpu.fault := (runOne_sameRecord m).fault
      generalize runOne m = out at hone
      obtain ⟨r, m'⟩ := out
      cases r with
      | ok u => exact hone ▸ ih m'
      | error e => rfl

/-! ## Cutting a batch -/

/-- A run goes on after its first part, or ends with it if that has failed. -/
theorem run_add (m n : Nat) (s : Machine β ω) :
    run (m + n) s =
      match run m s with
      | (.ok (), s') => run n s'
      | (.error e, s') => (.error e, s') := by
  induction m generalizing s with
  | zero => rw [Nat.zero_add, run_zero]
  | succ m ih =>
    -- the first part is one instruction shorter after the first one, the second as long as ever
    rw [Nat.succ_add, run_succ, run_succ]
    by_cases hhalted : s.cpu.regs.halted = true
    · rw [if_pos hhalted, if_pos hhalted]
      exact (run_of_halted n hhalted).symm
    · rw [if_neg hhalted, if_neg hhalted]
      obtain ⟨r, s'⟩ := runOne s
      cases r with
      | ok u => exact ih s'
      | error e => rfl

theorem step_add (m n : Nat) :
    (step (m + n) : Exec β ω _) = step m >>= fun _ => step n := by
  funext s
  rw [bind_apply]
  cases hfault : s.cpu.fault with
  | some e =>
    rw [step_of_fault _ hfault, step_of_fault _ hfault, step_of_fault _ hfault]
  | none =>
    rw [step_of_running _ hfault, step_of_running _ hfault, run_add]
    have hrecord := run_fault m s
    generalize run m s = out at hrecord
    obtain ⟨r, s'⟩ := out
    -- what the second batch finds recorded is what the first one has answered
    cases r with
    | ok u => exact (step_of_running n (hrecord.trans hfault)).symm
    | error e => exact (step_of_fault n hrecord).symm

theorem step_succ_eq_singly (n : Nat) : (step (n + 1) : Exec β ω _) = singly n := by
  induction n with
  | zero => rfl
  | succ n ih =>
    rw [Nat.add_comm, step_add, ih]
    rfl

/-- Two batches do what one does that is as long as both, with the answer of the second
one; so a batch does what its instructions do one by one, whether or not the machine
halts or fails on the way. As the bus and the observer are arbitrary, what they see is
the same too. -/
theorem step_batches :
    (∀ m n, (step (m + n) : Exec β ω _) = step m >>= fun _ => step n) ∧
      ∀ n, (step (n + 1) : Exec β ω _) = singly n :=
  ⟨step_add, step_succ_eq_singly⟩

end Z80.Exec
