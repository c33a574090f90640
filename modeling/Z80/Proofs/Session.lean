import Z80.Proofs.Batch
import Z80.Proofs.Faults

/-!
# Sessions

A host steps a machine, resets it and clears its fault, in any order. In between the
machine is running, has halted or has failed, and a failure is told in four places: the
reply, the processor, the bus and the observer.

Main definitions:
- `Request`, `Reply`, `Exec.session`: what a host asks for, and what it is answered.
- `Machine.Resumable`: a machine can go on behind the bytes of its recorded fault.
- `Exec.FaultProtocol`: how a machine treats its faults from now on.

Main statements: `serve_resumable`, `serve_reports` and `serve_silent` for one request,
`session_resumable` and `session_faultProtocol` for any number of them.
-/

namespace Z80

/-- What a host asks of a machine. -/
inductive Request where
  | step (count : Nat)
  | reset
  | clearFault
  deriving DecidableEq

/-- What the host is answered. -/
inductive Reply where
  | stepped (result : Except InvalidOpcode Unit)
  | done
  | cleared (fault : Option InvalidOpcode)

namespace Machine

variable {β ω : Type}

/-- The machine as it is built. -/
def new (config : Config) (bus : β) (observer : ω) : Machine β ω :=
  ⟨{ config }, bus, observer⟩

/-- The events that the recorder beside the observer has been told of. -/
def trace (m : Machine β (ω × Recorder)) : List Event :=
  m.observer.2.events.toList

/-- If a fault is recorded, its bytes have no meaning, the machine is right behind them, and
it has not halted. -/
def Resumable (m : Machine β ω) : Prop :=
  ∀ e, m.cpu.fault = some e →
    Meaningless e.opcode ∧ m.cpu.regs.halted = false ∧
      m.cpu.regs.pc = e.pc + UInt16.ofNat e.opcode.length

theorem resumable_of_fault_none {m : Machine β ω} (h : m.cpu.fault = none) : m.Resumable := by
  intro e he
  rw [h] at he
  cases he

/-- A machine that has halted has not failed. -/
theorem Resumable.fault_of_halted {m : Machine β ω} (h : m.Resumable)
    (hhalted : m.cpu.regs.halted = true) : m.cpu.fault = none := by
  cases hfault : m.cpu.fault with
  | none => rfl
  | some e =>
    obtain ⟨-, hrunning, -⟩ := h e hfault
    rw [hrunning] at hhalted
    cases hhalted

end Machine

namespace Exec

variable {β ω : Type} [Bus β] [Observer ω]

/-- Serves one request. -/
def serve : Request → Exec β ω Reply
  | .step count => return .stepped (← step count)
  | .reset => do
    reset
    return .done
  | .clearFault => return .cleared (← clearFault)

/-- Serves one request after the other. -/
def session (requests : List Request) : Exec β ω (List Reply) :=
  requests.mapM serve

theorem serve_step (count : Nat) (m : Machine β ω) :
    serve (.step count) m = (.stepped (step count m).1, (step count m).2) := rfl

theorem serve_clearFault (m : Machine β ω) :
    serve .clearFault m = (.cleared m.cpu.fault, { m with cpu := { m.cpu with fault := none } }) :=
  rfl

theorem session_cons (q : Request) (requests : List Request) (m : Machine β ω) :
    session (q :: requests) m =
      ((serve q m).1 :: (session requests (serve q m).2).1,
        (session requests (serve q m).2).2) := by
  rw [session, List.mapM_cons]
  rfl

/-! ## The records are in nobody's way -/

theorem untap_serve (q : Request) (m : Machine (Tapped β) (ω × Recorder)) :
    (serve q m).1 = (serve q m.untap).1 ∧ (serve q m).2.untap = (serve q m.untap).2 := by
  cases q with
  | step count =>
    obtain ⟨heq, huntap⟩ := untap_step count m
    rw [serve_step, serve_step]
    exact ⟨congrArg Reply.stepped heq, huntap⟩
  | reset => exact ⟨rfl, rfl⟩
  | clearFault => exact ⟨rfl, rfl⟩

theorem untap_session (requests : List Request) (m : Machine (Tapped β) (ω × Recorder)) :
    (session requests m).1 = (session requests m.untap).1 ∧
      (session requests m).2.untap = (session requests m.untap).2 := by
  induction requests generalizing m with
  | nil => exact ⟨rfl, rfl⟩
  | cons q requests ih =>
    obtain ⟨heq, huntap⟩ := untap_serve q m
    obtain ⟨ihreplies, ihuntap⟩ := ih (serve q m).2
    rw [session_cons, session_cons, ← heq, ← huntap, ← ihreplies, ← ihuntap]
    exact ⟨rfl, rfl⟩

/-! ## Between two requests -/

theorem step_resumable (count : Nat) {m : Machine β ω} (h : m.Resumable) :
    (step count m).2.Resumable := by
  cases hfault : m.cpu.fault with
  | some e =>
    rw [step_of_fault count hfault]
    exact h
  | none =>
    rw [step_of_running count hfault]
    have hrecorded := run_fault count m
    cases hresult : (run count m).1 with
    | ok u =>
      rw [hresult] at hrecorded
      exact Machine.resumable_of_fault_none (hrecorded.trans hfault)
    | error e =>
      obtain ⟨before, -, -, hhalted, hone, hafter⟩ := run_error hresult
      obtain ⟨hpc, hopcode, htaken⟩ := taken_of_runOne_error hone
      rw [hafter]
      intro e' he'
      obtain rfl : e = e' := Option.some.inj he'
      refine ⟨hopcode, htaken.halted.trans hhalted, ?_⟩
      rw [hpc]
      exact htaken.pc

theorem serve_resumable (q : Request) {m : Machine β ω} (h : m.Resumable) :
    (serve q m).2.Resumable := by
  cases q with
  | step count => exact step_resumable count h
  | reset => exact Machine.resumable_of_fault_none rfl
  | clearFault => exact Machine.resumable_of_fault_none rfl

theorem session_resumable (requests : List Request) {m : Machine β ω} (h : m.Resumable) :
    (session requests m).2.Resumable := by
  induction requests generalizing m with
  | nil => exact h
  | cons q requests ih =>
    rw [session_cons]
    exact ih (serve_resumable q h)

/-! ## What a batch adds to the records -/

section Records

variable {m : Machine (Tapped β) (ω × Recorder)}

theorem run_quiet {count : Nat} (h : (run count m).1 = .ok ()) : Quiet m (run count m).2 := by
  induction count generalizing m with
  | zero => exact .refl m
  | succ count ih =>
    rw [run_succ] at h ⊢
    by_cases hhalted : m.cpu.regs.halted = true
    · rw [if_pos hhalted]
      exact .refl m
    · rw [if_neg hhalted] at h ⊢
      have hone := runOne_quiet m
      generalize runOne m = out at h hone
      obtain ⟨r, m'⟩ := out
      cases r with
      | ok u => exact hone.trans (ih h)
      | error e => cases h

/-- A batch that runs into a failure tells the bus and the observer of it, once each. -/
theorem run_faults {count : Nat} {e : InvalidOpcode} (h : (run count m).1 = .error e) :
    (run count m).2.bus.record.faults = m.bus.record.faults ++ [e] ∧
      (run count m).2.observer.2.faults = m.observer.2.faults ++ [e] := by
  obtain ⟨before, -, hok, -, -, hafter⟩ := run_error h
  have hquiet := (run_quiet hok).trans (runOne_quiet _)
  rw [hafter, ← hquiet.bus.faults, ← hquiet.observer.faults]
  exact ⟨Recorder.faults_fault e _, Recorder.faults_fault e _⟩

/-- When a fault is recorded, it is answered, and bus and observer are told of it. -/
theorem serve_reports {q : Request} {e : InvalidOpcode} (hfault : m.cpu.fault = none)
    (hrecorded : (serve q m).2.cpu.fault = some e) :
    (serve q m).1 = .stepped (.error e) ∧
      (serve q m).2.bus.record.faults = m.bus.record.faults ++ [e] ∧
      (serve q m).2.observer.2.faults = m.observer.2.faults ++ [e] := by
  cases q with
  | step count =>
    have hanswered := run_fault count m
    rw [serve_step, step_of_running count hfault] at hrecorded ⊢
    cases hresult : (run count m).1 with
    | ok u =>
      rw [hresult, hrecorded, hfault] at hanswered
      cases hanswered
    | error e' =>
      rw [hresult, hrecorded] at hanswered
      obtain rfl : e = e' := Option.some.inj hanswered
      exact ⟨rfl, run_faults hresult⟩
  | reset => cases hrecorded
  | clearFault => cases hrecorded

/-- When no fault is recorded that was not before, bus and observer are told of none. -/
theorem serve_silent {q : Request}
    (h : m.cpu.fault ≠ none ∨ (serve q m).2.cpu.fault = none) :
    (serve q m).2.bus.record.faults = m.bus.record.faults ∧
      (serve q m).2.observer.2.faults = m.observer.2.faults := by
  cases q with
  | step count =>
    rw [serve_step] at h ⊢
    cases hfault : m.cpu.fault with
    | some e =>
      rw [step_of_fault count hfault]
      exact ⟨rfl, rfl⟩
    | none =>
      have hanswered := run_fault count m
      rw [step_of_running count hfault] at h ⊢
      have hrecorded : (run count m).2.cpu.fault = none := h.resolve_left fun hne => hne hfault
      cases hresult : (run count m).1 with
      | ok u =>
        have hquiet := run_quiet hresult
        exact ⟨hquiet.bus.faults, hquiet.observer.faults⟩
      | error e =>
        rw [hresult, hrecorded] at hanswered
        cases hanswered
  | reset => exact ⟨rfl, rfl⟩
  | clearFault => exact ⟨rfl, rfl⟩

/-! ## Where a batch begins -/

/-- An instruction begins by reading the byte at the program counter, and is announced. -/
theorem takeFirst_trace (m : Machine (Tapped β) (ω × Recorder)) :
    (takeFirst m).2.trace = m.trace ++
      [.read m.cpu.regs.pc (takeFirst m).1,
        .instruction m.cpu.regs.pc (takeFirst m).1 (m.cpu.advanced 1 1)] := by
  have hpc : m.cpu.beginInstruction.countFetch.regs.pc = m.cpu.regs.pc := Cpu.pc_countFetch _
  have hstart : m.cpu.beginInstruction.countFetch.current.start = m.cpu.regs.pc := by
    rw [Cpu.current_countFetch]
    rfl
  have hregs : (m.cpu.beginInstruction.countFetch.takeByte (takeFirst m).1).regs =
      m.cpu.advanced 1 1 := Cpu.regs_takeByte (regs_beginInstruction m.cpu) _
  rw [← hregs]
  show (Observer.notify
    (.instruction m.cpu.beginInstruction.countFetch.current.start (takeFirst m).1
      (m.cpu.beginInstruction.countFetch.takeByte (takeFirst m).1).regs)
    (Observer.notify (.read m.cpu.beginInstruction.countFetch.regs.pc (takeFirst m).1)
      m.observer.2)).events.toList = _
  rw [Recorder.events_notify, Recorder.events_notify, hpc, hstart, List.append_assoc]
  rfl

/-- If further instructions only add to the trace, so does what follows the first one. -/
theorem runOne_trace_isPrefix {count : Nat}
    (hrest : ∀ m : Machine (Tapped β) (ω × Recorder), m.trace <+: (run count m).2.trace)
    (hhalted : m.cpu.regs.halted = false) :
    (runOne m).2.trace <+: (run (count + 1) m).2.trace := by
  rw [run_succ, hhalted, if_neg Bool.false_ne_true]
  obtain ⟨r, m'⟩ := runOne m
  cases r with
  | ok u => exact hrest m'
  | error e => exact ⟨[.fault e], (Recorder.events_notify _ _).symm⟩

theorem run_trace_isPrefix (count : Nat) (m : Machine (Tapped β) (ω × Recorder)) :
    m.trace <+: (run count m).2.trace := by
  induction count generalizing m with
  | zero => exact List.prefix_rfl
  | succ count ih =>
    cases hhalted : m.cpu.regs.halted with
    | true => exact ⟨[], by rw [run_of_halted _ hhalted, List.append_nil]⟩
    | false => exact (runOne_quiet m).observer.isPrefix.trans (runOne_trace_isPrefix ih hhalted)

/-- A batch begins with the byte at the program counter. -/
theorem run_trace_begins (count : Nat) (hhalted : m.cpu.regs.halted = false) :
    ∃ v r, m.trace ++ [.read m.cpu.regs.pc v, .instruction m.cpu.regs.pc v r] <+:
      (run (count + 1) m).2.trace := by
  have hone : (takeFirst m).2.trace <+: (runOne m).2.trace :=
    ((invariant_quiet (takeFirst m).2).runOne (m := m) (.refl _)).observer.isPrefix
  rw [takeFirst_trace] at hone
  exact ⟨_, _, hone.trans (runOne_trace_isPrefix (run_trace_isPrefix count) hhalted)⟩

end Records

/-! ## A machine that has stopped -/

/-- A recorded fault is the answer to every batch, and nothing is done for it. -/
theorem session_step_of_fault (counts : List Nat) {m : Machine β ω} {e : InvalidOpcode}
    (h : m.cpu.fault = some e) :
    session (counts.map .step) m = (counts.map fun _ => .stepped (.error e), m) := by
  induction counts with
  | nil => rfl
  | cons count counts ih =>
    rw [List.map_cons, session_cons, serve_step, step_of_fault count h, ih]
    rfl

/-- A halted machine answers every batch, and does nothing for it. -/
theorem session_step_of_halted (counts : List Nat) {m : Machine β ω}
    (hfault : m.cpu.fault = none) (hhalted : m.cpu.regs.halted = true) :
    session (counts.map .step) m = (counts.map fun _ => .stepped (.ok ()), m) := by
  induction counts with
  | nil => rfl
  | cons count counts ih =>
    rw [List.map_cons, session_cons, serve_step, step_of_running count hfault,
      run_of_halted count hhalted, ih]
    rfl

/-- Only a reset changes a halted machine. -/
theorem session_of_halted {requests : List Request} (hreset : .reset ∉ requests)
    {m : Machine β ω} (hfault : m.cpu.fault = none) (hhalted : m.cpu.regs.halted = true) :
    (session requests m).2 = m := by
  induction requests with
  | nil => rfl
  | cons q requests ih =>
    rw [List.mem_cons, not_or] at hreset
    have hserve : (serve q m).2 = m := by
      cases q with
      | step count => rw [serve_step, step_of_running count hfault, run_of_halted count hhalted]
      | reset => exact absurd rfl hreset.1
      | clearFault =>
        rw [serve_clearFault, ← hfault]
    rw [session_cons, hserve]
    exact ih hreset.2

/-! ## The protocol -/

/-- How a machine treats its faults, whatever is asked of it next. -/
structure FaultProtocol (m : Machine (Tapped β) (ω × Recorder)) : Prop where
  /-- A fault that gets recorded is the answer, and bus and observer hear of it once. -/
  reports : ∀ q e, m.cpu.fault = none → (serve q m).2.cpu.fault = some e →
    (serve q m).1 = .stepped (.error e) ∧
      (serve q m).2.bus.record.faults = m.bus.record.faults ++ [e] ∧
      (serve q m).2.observer.2.faults = m.observer.2.faults ++ [e]
  /-- They hear of no other. -/
  silent : ∀ q, m.cpu.fault ≠ none ∨ (serve q m).2.cpu.fault = none →
    (serve q m).2.bus.record.faults = m.bus.record.faults ∧
      (serve q m).2.observer.2.faults = m.observer.2.faults
  /-- A recorded fault is the answer to every batch, and nothing is touched for it. -/
  repeats : ∀ e (counts : List Nat), m.cpu.fault = some e →
    session (counts.map .step) m = (counts.map fun _ => .stepped (.error e), m)
  /-- It can be taken from the record, which changes nothing else. -/
  clears : serve .clearFault m =
    (.cleared m.cpu.fault, { m with cpu := { m.cpu with fault := none } })
  /-- Then the next instruction begins behind its bytes. -/
  resumes : ∀ e count, m.cpu.fault = some e →
    let pc := e.pc + UInt16.ofNat e.opcode.length
    let cleared := (serve .clearFault m).2
    cleared.cpu.regs.pc = pc ∧
      ∃ v r, m.trace ++ [.read pc v, .instruction pc v r] <+:
        (serve (.step (count + 1)) cleared).2.trace
  /-- A halted machine is content with every batch, and does nothing for it. -/
  idles : ∀ counts : List Nat, m.cpu.regs.halted = true →
    session (counts.map .step) m = (counts.map fun _ => .stepped (.ok ()), m)
  /-- It stays halted until it is reset. -/
  halts : ∀ requests, m.cpu.regs.halted = true →
    (.reset ∉ requests → (session requests m).2.cpu.regs.halted = true) ∧
      (serve .reset m).2.cpu.regs.halted = false

theorem faultProtocol_of_resumable {m : Machine (Tapped β) (ω × Recorder)} (h : m.Resumable) :
    FaultProtocol m where
  reports q e := serve_reports
  silent q := serve_silent
  repeats e counts hfault := session_step_of_fault counts hfault
  clears := serve_clearFault m
  resumes e count hfault := by
    intro pc cleared
    obtain ⟨-, hhalted, hbehind⟩ := h e hfault
    have hpc : cleared.cpu.regs.pc = pc := hbehind
    have hbegins := run_trace_begins (m := cleared) count hhalted
    rw [hpc] at hbegins
    refine ⟨hpc, ?_⟩
    rw [serve_step, step_of_running (m := cleared) (count + 1) rfl]
    exact hbegins
  idles counts hhalted := session_step_of_halted counts (h.fault_of_halted hhalted) hhalted
  halts requests hhalted := by
    refine ⟨fun hreset => ?_, rfl⟩
    rw [session_of_halted hreset (h.fault_of_halted hhalted) hhalted, hhalted]

/-- A new machine treats its faults by the protocol after any requests of its host. The
taps that count what bus and observer are told of make no difference to them. -/
theorem session_faultProtocol (config : Config) (bus : β) (observer : ω)
    (requests : List Request) :
    let m := Machine.new config bus observer
    (session requests m.tap).1 = (session requests m).1 ∧
      (session requests m.tap).2.untap = (session requests m).2 ∧
      FaultProtocol (session requests m.tap).2 := by
  intro m
  obtain ⟨hreplies, huntap⟩ := untap_session requests m.tap
  have hnew : m.tap.Resumable := Machine.resumable_of_fault_none rfl
  exact ⟨hreplies, huntap, faultProtocol_of_resumable (session_resumable requests hnew)⟩

example :
    let bus : Scripted Board := { inner := {}, script := [(0, 0xED), (1, 0x00)] }
    let e : InvalidOpcode := ⟨0, [0xED, 0x00]⟩
    (session [.step 2, .step 0, .clearFault, .step 0] (Machine.new {} bus ())).1 =
      [.stepped (.error e), .stepped (.error e), .cleared (some e), .stepped (.ok ())] := by
  rfl

end Exec

end Z80
