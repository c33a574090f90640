import Z80.Proofs.Begun
import Z80.Proofs.Secrecy

/-!
# The refresh option

Whether opcode fetches are counted in R is chosen when a processor is built. The choice reaches
nothing but R, and R is consulted by LD A,R alone, so a host that comes to no such instruction
cannot tell which way it was made.

Main definitions:
- `Machine.refreshing`: the machine with the option set or not.
- `Exec.InStep`: two machines that differ in a secret have counted the same.
- `Exec.SameSession`: a host and its bus find no difference between two machines.

Main statements: `InStep.session` is about any secret, by induction on the requests;
`session_refreshing` is about the option.
-/

namespace Z80

/-- The machine that counts opcode fetches in R, or does not. -/
def Machine.refreshing {β ω : Type} (m : Machine β ω) (on : Bool) : Machine β ω :=
  { m with cpu := { m.cpu with config := { m.cpu.config with incrementRefresh := on } } }

namespace Exec

variable {β ω : Type} [Bus β] [Observer ω] {m m' : Machine β ω} {p : Secret}

/-! ## Sessions that keep a secret -/

/-- The machines differ in the secret at most, and have counted the same instructions. -/
structure InStep (p : Secret) (m m' : Machine β ω) : Prop extends m.AgreeBut [p] m' where
  instructions : m.cpu.instructions = m'.cpu.instructions

namespace InStep

variable (h : InStep p m m')
include h

theorem run (count : Nat) (hsecret : ∀ i ∈ executedIn count m, p ∉ i.secrets) :
    (run count m).1 = (run count m').1 ∧ InStep p (run count m).2 (run count m').2 := by
  obtain ⟨hexecuted, hresult, hafter⟩ := run_agreeBut_one count h.toAgreeBut hsecret
  have hlength : (begunIn count m).length = (begunIn count m').length := by
    rw [length_begunIn, length_begunIn, hexecuted, hresult]
  refine ⟨hresult, hafter, ?_⟩
  rw [instructions_run, instructions_run, hlength, h.instructions]

theorem serve {q : Request} (hsecret : ∀ i ∈ executedFor q m, p ∉ i.secrets) :
    (serve q m).1 = (serve q m').1 ∧ InStep p (serve q m).2 (serve q m').2 := by
  cases q with
  | step count =>
    rw [serve_step, serve_step]
    cases hfault : m.cpu.fault with
    | some e =>
      rw [step_of_fault count hfault, step_of_fault count (h.fault ▸ hfault)]
      exact ⟨rfl, h⟩
    | none =>
      simp only [executedFor, hfault] at hsecret
      rw [step_of_running count hfault, step_of_running count (h.fault ▸ hfault)]
      obtain ⟨hresult, hafter⟩ := h.run count hsecret
      exact ⟨congrArg Reply.stepped hresult, hafter⟩
  | reset => exact ⟨rfl, ⟨h.bus, rfl, h.config, rfl⟩, rfl⟩
  | clearFault => exact ⟨congrArg Reply.cleared h.fault, { h with fault := rfl }⟩

/-- Machines that differ in a secret answer alike and go on to differ in it alone, if no
instruction of the session consults it. -/
theorem session {requests : List Request} (hsecret : ∀ i ∈ executed requests m, p ∉ i.secrets) :
    (session requests m).1 = (session requests m').1 ∧
      InStep p (session requests m).2 (session requests m').2 := by
  induction requests generalizing m m' with
  | nil => exact ⟨rfl, h⟩
  | cons q requests ih =>
    obtain ⟨hfirst, hrest⟩ := List.forall_mem_append.mp hsecret
    obtain ⟨hreply, hserved⟩ := h.serve hfirst
    obtain ⟨hreplies, hafter⟩ := ih hserved hrest
    rw [session_cons, session_cons, hreply, hreplies]
    exact ⟨rfl, hafter⟩

end InStep

/-! ## The record at the bus -/

/-- A host that makes these requests finds no difference between the machines but in the secret,
and neither does the bus. -/
structure SameSession (requests : List Request) (p : Secret) (m m' : Machine β ω) : Prop where
  replies : (session requests m).1 = (session requests m').1
  accesses : (session requests m.tap).2.accesses = (session requests m'.tap).2.accesses
  inStep : InStep p (session requests m).2 (session requests m').2

theorem executedFor_untap (q : Request) (m : Machine (Tapped β) (ω × Recorder)) :
    executedFor q m = executedFor q m.untap := by
  have hfault : m.cpu.fault = m.untap.cpu.fault := rfl
  unfold executedFor
  rw [← hfault]
  split
  · exact executedIn_untap _ m
  · rfl

theorem executed_untap (requests : List Request) (m : Machine (Tapped β) (ω × Recorder)) :
    executed requests m = executed requests m.untap := by
  induction requests generalizing m with
  | nil => rfl
  | cons q requests ih => rw [executed, executed, executedFor_untap, ih, (untap_serve q m).2]

theorem sameSession_of_inStep {requests : List Request} (h : InStep p m m')
    (hsecret : ∀ i ∈ executed requests m, p ∉ i.secrets) : SameSession requests p m m' := by
  obtain ⟨hreplies, hafter⟩ := h.session hsecret
  have htap : InStep p m.tap m'.tap := ⟨h.tap, h.instructions⟩
  rw [← m.untap_tap, ← executed_untap] at hsecret
  obtain ⟨-, htapped⟩ := htap.session hsecret
  exact ⟨hreplies, congrArg (·.record.events.toList) htapped.bus, hafter⟩

/-! ## The bytes of a session -/

theorem bytesIn_subset_begunIn (count : Nat) (m : Machine β ω) :
    bytesIn count m ⊆ begunIn count m := by
  induction count generalizing m with
  | zero => exact List.Subset.refl _
  | succ count ih =>
    rw [bytesIn, begunIn]
    split
    · exact List.Subset.refl _
    · cases hnext : upcoming m with
      | none => exact List.nil_subset _
      | some i =>
        have hbytes := current_runOne m
        rw [runOne_of_upcoming hnext] at hbytes ⊢
        rw [← hbytes]
        exact List.cons_subset_cons _ (ih _)

/-- Each instruction of a session comes from bytes that are begun. -/
theorem exists_means_of_executed {requests : List Request} {i : Instruction}
    (hi : i ∈ executed requests m) : ∃ bytes ∈ begun requests m, Means bytes i := by
  induction requests generalizing m with
  | nil => exact absurd hi List.not_mem_nil
  | cons q requests ih =>
    rw [begun]
    rcases List.mem_append.mp hi with hfirst | hrest
    · unfold executedFor at hfirst
      split at hfirst
      · next count hfault =>
        obtain ⟨bytes, hbytes, hmeans⟩ := exists_means_of_executedIn hfirst
        rw [begunFor_step_of_running count hfault]
        exact ⟨bytes, List.mem_append_left _ (bytesIn_subset_begunIn count m hbytes), hmeans⟩
      · exact absurd hfirst List.not_mem_nil
    · obtain ⟨bytes, hbytes, hmeans⟩ := ih hrest
      exact ⟨bytes, List.mem_append_right _ hbytes, hmeans⟩

/-! ## The option -/

omit [Bus β] [Observer ω] in
theorem inStep_refreshing (m : Machine β ω) (on on' : Bool) :
    InStep .refresh (m.refreshing on) (m.refreshing on') :=
  ⟨⟨rfl, rfl, .inl (List.mem_singleton_self _), rfl⟩, rfl⟩

/-- On any bus, from any state and for any requests, the refresh option makes a difference to R
alone, unless the session comes to LD A,R. -/
theorem session_refreshing (requests : List Request) (m : Machine β ω) (on on' : Bool)
    (h : ∀ bytes ∈ begun requests (m.refreshing on), ¬Opens bytes [0xED, 0x5F]) :
    SameSession requests .refresh (m.refreshing on) (m.refreshing on') := by
  refine sameSession_of_inStep (inStep_refreshing m on on') fun i hi hconsults => ?_
  obtain ⟨bytes, hbytes, hmeans⟩ := exists_means_of_executed hi
  obtain ⟨code, hcode, hopens⟩ := hmeans.exists_secret_code hconsults
  obtain rfl : code = [0xED, 0x5F] := List.mem_singleton.mp hcode
  exact h bytes hbytes hopens

/-- LD R,A and an instruction that fails, with and without the option. -/
theorem session_refreshing_loadR :
    let bus : Scripted Board :=
      { inner := {}, script := [(0, 0xED), (1, 0x4F), (2, 0xED), (3, 0x00)] }
    let m : Machine (Scripted Board) Unit := ⟨{ regs := { a := 0x12 } }, bus, ()⟩
    let requests := [Request.step 3, .clearFault]
    begun requests (m.refreshing true) = [[0xED, 0x4F], [0xED, 0x00]] ∧
      (session requests (m.refreshing true)).2.cpu.regs.r = 0x14 ∧
      (session requests (m.refreshing false)).2.cpu.regs.r = 0x12 ∧
      (session requests (m.refreshing false)).2.cpu.instructions =
        (session requests (m.refreshing true)).2.cpu.instructions := by
  intro bus m requests
  have hbytes : begun requests (m.refreshing true) = [[0xED, 0x4F], [0xED, 0x00]] := by
    decide +kernel
  have hsame := session_refreshing requests m true false (by rw [hbytes]; decide +kernel)
  exact ⟨hbytes, by decide +kernel, by decide +kernel, hsame.inStep.instructions.symm⟩

end Exec

end Z80
