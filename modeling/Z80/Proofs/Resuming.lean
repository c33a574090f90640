import Z80.Proofs.Leftovers
import Z80.Proofs.Session

/-!
# Resuming from registers

Machines that differ in leftovers alone have the same future: whatever a host asks of both,
they reply alike and use the bus alike, and their counts of instructions stay as far apart as
they are until a reset makes them equal. So the register file is all that has to be kept of a
machine without a recorded fault in order to go on later.

Main definitions:
- `Machine.AlikeBy`: two machines differ in leftovers, and in their counts by so much.
- `Machine.restored`: a new processor with the registers and the configuration of a machine.
- `Exec.SameFuture`: what a host gets from two machines that cannot be told apart.

Main statements: `runOne_alikeBy`, `serve_alikeBy` and `session_alikeBy` keep the difference from
an instruction to a session, and `session_sameFuture` is about any two such machines.
-/

namespace Z80

namespace Machine

variable {β ω : Type}

/-- The machines differ in leftovers at most, and the first one has counted `d` more. -/
structure AlikeBy (d : UInt64) (m m' : Machine β ω) : Prop extends m.Alike m' where
  instructions : m.cpu.instructions = m'.cpu.instructions + d

/-- A new processor in the place of the old one, with its registers and its configuration. -/
def restored (m : Machine β ω) : Machine β ω :=
  ⟨{ regs := m.cpu.regs, config := m.cpu.config }, m.bus, m.observer⟩

theorem Alike.alikeBy {m m' : Machine β ω} (h : m.Alike m') :
    m.AlikeBy (m.cpu.instructions - m'.cpu.instructions) m' where
  toAlike := h
  instructions := by rw [UInt64.add_comm, UInt64.sub_add_cancel]

theorem alike_of_uncounted {m m' : Machine β ω} (h : m.uncounted = m'.uncounted) : m.Alike m' where
  bus := congrArg (·.bus) h
  observer := congrArg (·.observer) h
  regs := congrArg (·.cpu.regs) h
  config := congrArg (·.cpu.config) h
  fault := congrArg (·.cpu.fault) h

theorem alike_restored {m : Machine β ω} (hfault : m.cpu.fault = none) : m.Alike m.restored :=
  ⟨rfl, rfl, rfl, rfl, hfault⟩

/-- The records that a tap begins do not tell the machines apart either. -/
theorem Alike.tap {m m' : Machine β ω} (h : m.Alike m') : m.tap.Alike m'.tap where
  bus := congrArg (fun b => Tapped.mk b {}) h.bus
  observer := congrArg (fun o => (o, Recorder.mk #[])) h.observer
  regs := h.regs
  config := h.config
  fault := h.fault

end Machine

namespace Exec

variable {β ω : Type} [Bus β] [Observer ω] {m m' : Machine β ω} {d : UInt64}

/-! ## From an instruction to a session -/

theorem runOne_alikeBy (h : m.AlikeBy d m') :
    (runOne m).1 = (runOne m').1 ∧ (runOne m).2.AlikeBy d (runOne m').2 := by
  obtain ⟨hresult, hafter⟩ := runOne_alike h.toAlike
  refine ⟨hresult, Machine.alike_of_uncounted hafter, ?_⟩
  have hcount : (runOne m).2.cpu.instructions = m.cpu.instructions + 1 :=
    (runOne_sameRecord m).instructions
  have hcount' : (runOne m').2.cpu.instructions = m'.cpu.instructions + 1 :=
    (runOne_sameRecord m').instructions
  rw [hcount, hcount', h.instructions, UInt64.add_assoc, UInt64.add_comm d, UInt64.add_assoc]

theorem batchCoupling_alikeBy (d : UInt64) :
    BatchCoupling (Machine.AlikeBy d : Machine β ω → Machine β ω → Prop) where
  halted _ _ h := congrArg Registers.halted h.regs
  fault _ _ h := h.fault
  runOne _ _ h := runOne_alikeBy h
  recordFault := by
    rintro m m' e h
    -- both record the fault, and tell the same bus and the same observer of it
    have hbus : Bus.fault e m.bus = Bus.fault e m'.bus := congrArg (Bus.fault e) h.bus
    have hobserver : Observer.notify (.fault e) m.observer =
        Observer.notify (.fault e) m'.observer :=
      congrArg (Observer.notify (.fault e)) h.observer
    exact ⟨⟨hbus, hobserver, h.regs, h.config, rfl⟩, h.instructions⟩

theorem serve_alikeBy (q : Request) (h : m.AlikeBy d m') :
    (serve q m).1 = (serve q m').1 ∧
      (serve q m).2.AlikeBy (if q = .reset then 0 else d) (serve q m').2 := by
  cases q with
  | step count =>
    obtain ⟨hresult, hafter⟩ := (batchCoupling_alikeBy d).step count m m' h
    rw [serve_step, serve_step]
    exact ⟨congrArg Reply.stepped hresult, hafter⟩
  | reset =>
    have hreset : m.cpu.reset = m'.cpu.reset := by
      rw [Cpu.reset, Cpu.reset, h.config]
    exact ⟨rfl, ⟨h.bus, h.observer, rfl, congrArg Cpu.config hreset, rfl⟩, rfl⟩
  | clearFault =>
    rw [serve_clearFault, serve_clearFault]
    exact ⟨congrArg Reply.cleared h.fault, ⟨h.bus, h.observer, h.regs, h.config, rfl⟩,
      h.instructions⟩

theorem session_alikeBy (requests : List Request) (h : m.AlikeBy d m') :
    (session requests m).1 = (session requests m').1 ∧
      (session requests m).2.AlikeBy (if .reset ∈ requests then 0 else d)
        (session requests m').2 := by
  induction requests generalizing m m' d with
  | nil => exact ⟨rfl, h⟩
  | cons q requests ih =>
    obtain ⟨hreply, hafter⟩ := serve_alikeBy q h
    obtain ⟨hreplies, hend⟩ := ih hafter
    rw [session_cons, session_cons]
    refine ⟨by rw [hreply, hreplies], ?_⟩
    by_cases hq : q = .reset <;> simpa [hq, eq_comm] using hend

theorem session_append (before more : List Request) (m : Machine β ω) :
    (session (before ++ more) m).2 = (session more (session before m).2).2 := by
  induction before generalizing m with
  | nil => rfl
  | cons q before ih =>
    rw [List.cons_append, session_cons, session_cons]
    exact ih (serve q m).2

/-! ## The same future -/

/-- A host that makes these requests cannot tell the two machines apart. -/
structure SameFuture (requests : List Request) (m m' : Machine β ω) : Prop where
  replies : (session requests m).1 = (session requests m').1
  /-- Registers, recorded fault and configuration are the same in the end, and bus and observer
  are in the same state. -/
  alike : (session requests m).2.Alike (session requests m').2
  /-- The calls that reach the bus are the same, reports of faults among them. -/
  accesses : (session requests m.tap).2.accesses = (session requests m'.tap).2.accesses
  /-- So are the events that the observer is told of. -/
  trace : (session requests m.tap).2.trace = (session requests m'.tap).2.trace
  /-- As long as there is no reset both count as many instructions. -/
  counted : ∀ before more, requests = before ++ more → .reset ∉ more →
    (session requests m).2.cpu.instructions - (session before m).2.cpu.instructions =
      (session requests m').2.cpu.instructions - (session before m').2.cpu.instructions

theorem sameFuture_of_alike (requests : List Request) (h : m.Alike m') :
    SameFuture requests m m' := by
  obtain ⟨hreplies, hafter⟩ := session_alikeBy requests h.alikeBy
  obtain ⟨-, htapped⟩ := session_alikeBy requests h.tap.alikeBy
  constructor
  case replies => exact hreplies
  case alike => exact hafter.toAlike
  case accesses => exact congrArg (·.record.events.toList) htapped.bus
  case trace => exact congrArg (·.2.events.toList) htapped.observer
  case counted =>
    rintro before more rfl hreset
    obtain ⟨-, hbefore⟩ := session_alikeBy before h.alikeBy
    obtain ⟨-, hmore⟩ := session_alikeBy more hbefore
    rw [if_neg hreset] at hmore
    rw [session_append, session_append, hmore.instructions, hbefore.instructions]
    grind

/-- What a host gets from a machine depends on its registers, its configuration and its recorded
fault, and on nothing else that the processor keeps. So a machine without a recorded fault goes on
from its registers alone, in a new processor. -/
theorem session_sameFuture (requests : List Request) :
    (∀ m m' : Machine β ω, m.Alike m' → SameFuture requests m m') ∧
      ∀ m : Machine β ω, m.cpu.fault = none → SameFuture requests m m.restored :=
  ⟨fun _ _ h => sameFuture_of_alike requests h,
    fun _ hfault => sameFuture_of_alike requests (Machine.alike_restored hfault)⟩

/-- A processor that has been at work, and a new one with its registers: the bytes of an earlier
instruction are in no report. -/
theorem session_sameFuture_invalid :
    let bus : Scripted Board := { inner := {}, script := [(0, 0xED), (1, 0x00)] }
    let m : Machine (Scripted Board) Unit :=
      ⟨{ instructions := 41, current := ⟨7, [0xDD, 0x36, 0x05]⟩ }, bus, ()⟩
    m.cpu.fault = none ∧ m.Alike m.restored ∧
      (session [.step 2] m.restored).1 = [.stepped (.error ⟨0, [0xED, 0x00]⟩)] ∧
      (session [.step 2] m.restored).2.cpu.instructions = 1 ∧
      (session [.step 2] m).2.cpu.instructions = 42 := by
  intro bus m
  have halike : m.Alike m.restored := Machine.alike_restored rfl
  have hsame : SameFuture [.step 2] m m.restored := (session_sameFuture [.step 2]).1 m _ halike
  have hsame' : SameFuture [.step 2] m m.restored := (session_sameFuture [.step 2]).2 m rfl
  have hreplies : (session [.step 2] m).1 = [.stepped (.error ⟨0, [0xED, 0x00]⟩)] := by
    rfl
  have hcount : (session [.step 2] m).2.cpu.instructions = 42 := by
    rfl
  refine ⟨rfl, halike, hsame'.replies ▸ hreplies, ?_, hcount⟩
  have hcounted := hsame.counted [] [.step 2] rfl (by decide)
  rw [hcount] at hcounted
  have hbefore : (session [] m).2.cpu.instructions = 41 := rfl
  have hbefore' : (session [] m.restored).2.cpu.instructions = 0 := rfl
  rw [hbefore, hbefore', UInt64.sub_zero] at hcounted
  exact hcounted.symm

end Exec

end Z80
