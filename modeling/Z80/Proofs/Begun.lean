import Z80.Proofs.Upcoming

/-!
# The instructions that a session begins

An instruction is begun by taking in its bytes, whether it is then performed or fails. The bytes
of all instructions that a session begins are what counts of instructions and of opcode fetches
go by: a block instruction is one of them however often it repeats, a superseded index byte is one
by itself, and a machine that idles begins none.

Main definitions:
- `Exec.begunIn`, `begunFor`, `begun`: the bytes of the instructions that a batch, a request or a
  session begins.
- `Exec.Accumulates`: the properties of a machine and of these bytes that one more instruction
  keeps.

Main statements: `Accumulates.session` goes from one instruction to a session, and
`instructions_session` says that the processor counts what is begun.
-/

namespace Z80.Exec

variable {β ω : Type} [Bus β] [Observer ω]

/-- The bytes of the instructions that a batch begins on a machine without a recorded fault: of
those that it performs, and of the one that fails. -/
def begunIn : Nat → Machine β ω → List (List UInt8)
  | 0, _ => []
  | count + 1, m =>
    if m.cpu.regs.halted then []
    else
      match runOne m with
      | (.ok (), m') => m'.cpu.current.bytes :: begunIn count m'
      | (.error _, m') => [m'.cpu.current.bytes]

/-- The bytes of the instructions that a machine begins to serve a request. -/
def begunFor : Request → Machine β ω → List (List UInt8)
  | .step count, m =>
    match m.cpu.fault with
    | none => begunIn count m
    | some _ => []
  | .reset, _ | .clearFault, _ => []

/-- The bytes of the instructions that a session begins, first one first. -/
def begun : List Request → Machine β ω → List (List UInt8)
  | [], _ => []
  | q :: requests, m => begunFor q m ++ begun requests (serve q m).2

theorem begunIn_of_halted (count : Nat) {m : Machine β ω} (h : m.cpu.regs.halted = true) :
    begunIn count m = [] := by
  cases count with
  | zero => rfl
  | succ count => rw [begunIn, if_pos h]

theorem begunFor_step_of_fault (count : Nat) {m : Machine β ω} (h : m.cpu.fault ≠ none) :
    begunFor (.step count) m = [] := by
  obtain ⟨e, he⟩ := Option.ne_none_iff_exists'.mp h
  rw [begunFor, he]

theorem begunFor_step_of_running (count : Nat) {m : Machine β ω} (h : m.cpu.fault = none) :
    begunFor (.step count) m = begunIn count m := by
  rw [begunFor, h]

theorem begun_append (before more : List Request) (m : Machine β ω) :
    begun (before ++ more) m = begun before m ++ begun more (session before m).2 := by
  induction before generalizing m with
  | nil => rfl
  | cons q before ih =>
    rw [List.cons_append, begun, begun, ih, List.append_assoc, session_cons]

/-! ## The records are in nobody's way -/

theorem begunIn_untap (count : Nat) (m : Machine (Tapped β) (ω × Recorder)) :
    begunIn count m = begunIn count m.untap := by
  induction count generalizing m with
  | zero => rfl
  | succ count ih =>
    have hhalted : m.cpu.regs.halted = m.untap.cpu.regs.halted := rfl
    obtain ⟨hresult, hafter⟩ := untap_runOne m
    rw [begunIn, begunIn, ← hhalted]
    generalize runOne m = out at hresult hafter
    generalize runOne m.untap = out' at hresult hafter
    obtain ⟨r, s⟩ := out
    obtain ⟨r', s'⟩ := out'
    obtain rfl : r = r' := hresult
    obtain rfl : s.untap = s' := hafter
    cases r with
    | ok u => simp only [ih s, Machine.untap]
    | error e => rfl

theorem begunFor_untap (q : Request) (m : Machine (Tapped β) (ω × Recorder)) :
    begunFor q m = begunFor q m.untap := by
  cases q with
  | step count =>
    have hfault : m.cpu.fault = m.untap.cpu.fault := rfl
    rw [begunFor, begunFor, ← hfault, begunIn_untap]
  | reset | clearFault => rfl

theorem begun_untap (requests : List Request) (m : Machine (Tapped β) (ω × Recorder)) :
    begun requests m = begun requests m.untap := by
  induction requests generalizing m with
  | nil => rfl
  | cons q requests ih => rw [begun, begun, begunFor_untap, ih, (untap_serve q m).2]

/-! ## From one instruction to a session -/

/-- A property of a machine and of the instructions that have been begun: it is kept by one more
instruction, and neither the report of a fault nor its clearing touches it. -/
structure Accumulates (Q : List (List UInt8) → Machine β ω → Prop) : Prop where
  runOne : ∀ past m, m.cpu.regs.halted = false → Q past m →
    Q (past ++ [(runOne m).2.cpu.current.bytes]) (runOne m).2
  recordFault : ∀ past m e, Q past m → Q past (recordFault e m)
  clearFault : ∀ past m, Q past m → Q past { m with cpu := { m.cpu with fault := none } }

namespace Accumulates

variable {Q : List (List UInt8) → Machine β ω → Prop} (h : Accumulates Q) {past : List (List UInt8)}
  {m : Machine β ω}
include h

theorem run (count : Nat) (hQ : Q past m) : Q (past ++ begunIn count m) (Exec.run count m).2 := by
  induction count generalizing past m with
  | zero =>
    rw [begunIn, List.append_nil]
    exact hQ
  | succ count ih =>
    rw [begunIn, run_succ]
    cases hhalted : m.cpu.regs.halted with
    | true =>
      rw [if_pos rfl, if_pos rfl, List.append_nil]
      exact hQ
    | false =>
      rw [if_neg Bool.false_ne_true, if_neg Bool.false_ne_true]
      have hone := h.runOne past m hhalted hQ
      generalize Exec.runOne m = out at hone
      obtain ⟨r, m'⟩ := out
      cases r with
      | ok u =>
        have hrest := ih hone
        rw [List.append_assoc] at hrest
        exact hrest
      | error e => exact h.recordFault _ _ e hone

theorem serve {q : Request} (hreset : q ≠ .reset) (hQ : Q past m) :
    Q (past ++ begunFor q m) (Exec.serve q m).2 := by
  cases q with
  | step count =>
    rw [serve_step]
    cases hfault : m.cpu.fault with
    | some e =>
      rw [begunFor, hfault, step_of_fault count hfault, List.append_nil]
      exact hQ
    | none =>
      rw [begunFor_step_of_running count hfault, step_of_running count hfault]
      exact h.run count hQ
  | reset => exact absurd rfl hreset
  | clearFault =>
    rw [begunFor, List.append_nil]
    exact h.clearFault past m hQ

/-- What one instruction keeps, a session without a reset keeps. -/
theorem session {requests : List Request} (hreset : .reset ∉ requests) (hQ : Q past m) :
    Q (past ++ begun requests m) (Exec.session requests m).2 := by
  induction requests generalizing past m with
  | nil =>
    rw [begun, List.append_nil]
    exact hQ
  | cons q requests ih =>
    rw [List.mem_cons, not_or] at hreset
    rw [begun, session_cons, ← List.append_assoc]
    exact ih hreset.2 (h.serve (fun hq => hreset.1 hq.symm) hQ)

end Accumulates

/-! ## What is counted -/

theorem accumulates_instructions (n : UInt64) :
    Accumulates fun past (m : Machine β ω) =>
      m.cpu.instructions = n + UInt64.ofNat past.length where
  runOne past m _ h := by
    have hone : (runOne m).2.cpu.instructions = m.cpu.instructions + 1 :=
      (runOne_sameRecord m).instructions
    rw [hone, h, List.length_append, UInt64.ofNat_add, UInt64.add_assoc]
    rfl
  recordFault _ _ _ h := h
  clearFault _ _ h := h

theorem instructions_run (count : Nat) (m : Machine β ω) :
    (run count m).2.cpu.instructions =
      m.cpu.instructions + UInt64.ofNat (begunIn count m).length := by
  have hnone : m.cpu.instructions =
      m.cpu.instructions + UInt64.ofNat ([] : List (List UInt8)).length :=
    (UInt64.add_zero _).symm
  exact (accumulates_instructions m.cpu.instructions).run count hnone

/-- The processor counts the instructions that are begun. -/
theorem instructions_session {requests : List Request} (hreset : .reset ∉ requests)
    (m : Machine β ω) :
    (session requests m).2.cpu.instructions =
      m.cpu.instructions + UInt64.ofNat (begun requests m).length := by
  have hnone : m.cpu.instructions =
      m.cpu.instructions + UInt64.ofNat ([] : List (List UInt8)).length :=
    (UInt64.add_zero _).symm
  exact (accumulates_instructions m.cpu.instructions).session hreset hnone

/-- A batch begins the instructions that it performs, and one more if it fails. -/
theorem length_begunIn (count : Nat) (m : Machine β ω) :
    (begunIn count m).length =
      (executedIn count m).length +
        match (run count m).1 with
        | .ok () => 0
        | .error _ => 1 := by
  induction count generalizing m with
  | zero => rfl
  | succ count ih =>
    rw [begunIn, executedIn, run_succ]
    by_cases hhalted : m.cpu.regs.halted = true
    · rw [if_pos hhalted, if_pos hhalted, if_pos hhalted]
      rfl
    · rw [if_neg hhalted, if_neg hhalted, if_neg hhalted]
      cases hnext : upcoming m with
      | some i =>
        rw [runOne_of_upcoming hnext]
        simp only [List.length_cons, ih]
        omega
      | none =>
        rw [runOne_of_upcoming_none hnext]
        rfl

end Z80.Exec
