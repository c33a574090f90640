import Mathlib.Algebra.BigOperators.Fin
import Mathlib.Algebra.Order.BigOperators.Group.Finset
import Z80.Profile
import Z80.Proofs.Begun
import Z80.Proofs.Parts

/-!
# Accounts of a session

The processor counts instructions, a profile counts them again by their first byte, and an
observer is told of each of them. All three count what is begun. How many instructions a batch
begins is told by the first of them that halts the processor or fails, if there is one.

Main definitions:
- `Profile.Tallies`: a profile has counted these opcodes.
- `Exec.Accounts`: a profile and a recorder side by side have seen the same instructions.
- `Exec.Ends`, `Exec.BatchLength`: where a batch stops, and how many instructions it begins.

Main statements: `Accounts.runOne` is about one instruction and `accounts_session` about a
session, `batchLength_begunFor` about a batch, and `session_accounts` puts them together.
-/

namespace Z80

/-! ## Profiles -/

/-- The profile has counted these opcodes since its counters were zero. -/
structure Profile.Tallies (p : Profile) (ops : List UInt8) : Prop where
  size : p.counts.size = 256
  total : p.total = UInt64.ofNat ops.length
  count : ∀ op, p.count op = UInt64.ofNat (ops.count op)

namespace Profile

theorem tallies_new : ({} : Profile).Tallies [] where
  size := Array.size_replicate
  total := rfl
  count op := by
    rw [Profile.count, Array.getD_eq_getD_getElem?, Array.getElem?_replicate,
      if_pos op.toNat_lt]
    rfl

namespace Tallies

variable {p : Profile} {ops : List UInt8} (h : p.Tallies ops)
include h

theorem hit (op : UInt8) : (p.hit op).Tallies (ops ++ [op]) where
  size := (p.size_hit op).trans h.size
  total := by
    rw [total_hit, h.total, List.length_append, UInt64.ofNat_add]
    rfl
  count op' := by
    have hop : op.toNat < p.counts.size := h.size.symm ▸ op.toNat_lt
    rw [count_hit p hop, h.count, List.count_append, List.count_singleton]
    by_cases hne : op = op'
    · rw [if_pos hne, if_pos (beq_iff_eq.mpr hne), UInt64.ofNat_add]
      rfl
    · rw [if_neg hne, if_neg (beq_iff_eq.not.mpr hne), Nat.add_zero]

section Small

variable (hlt : ops.length < 2 ^ 64)
include hlt

theorem toNat_total : p.total.toNat = ops.length := by
  rw [h.total, UInt64.toNat_ofNat', Nat.mod_eq_of_lt hlt]

theorem toNat_count (op : UInt8) : (p.count op).toNat = ops.count op := by
  rw [h.count, UInt64.toNat_ofNat', Nat.mod_eq_of_lt (List.count_le_length.trans_lt hlt)]

theorem toNat_getElem_counts {i : Nat} (hi : i < p.counts.size) :
    p.counts[i].toNat = ops.count (UInt8.ofNat i) := by
  have hbyte : (UInt8.ofNat i).toNat = i :=
    UInt8.toNat_ofNat_of_lt' (lt_of_lt_of_eq hi h.size)
  rw [← h.toNat_count hlt, Profile.count, hbyte, Array.getD_eq_getD_getElem?,
    Array.getElem?_eq_getElem hi]
  rfl

/-- The counters have the total for their sum. -/
theorem sum_counts : (p.counts.toList.map UInt64.toNat).sum = ops.length := by
  have hcounts : p.counts.toList.map UInt64.toNat =
      List.ofFn fun i : Fin 256 => (ops.map UInt8.toFin).count i := by
    apply List.ext_getElem
    · rw [List.length_map, Array.length_toList, h.size, List.length_ofFn]
    · intro i hi hi'
      rw [List.getElem_map, Array.getElem_toList, List.getElem_ofFn, h.toNat_getElem_counts hlt,
        ← List.count_map_of_injective ops UInt8.toFin fun _ _ => UInt8.toFin_inj.mp]
      congr 1
      rw [List.length_ofFn] at hi'
      exact Fin.ext (UInt8.toNat_ofNat_of_lt' hi')
  have hall : ∀ i ∈ (ops.map UInt8.toFin : Multiset (Fin 256)), i ∈ Finset.univ :=
    fun i _ => Finset.mem_univ i
  have hsum := Multiset.sum_count_eq_card hall
  rw [hcounts, List.sum_ofFn]
  simpa using hsum

end Small

end Tallies

end Profile

/-! ## What is announced -/

/-- The first byte of the instruction that an event announces. -/
def Event.opcode? : Event → Option UInt8
  | .instruction _ op _ => some op
  | _ => none

/-- The first bytes of the instructions that a record has been told of, oldest first. -/
def Recorder.opcodes (r : Recorder) : List UInt8 :=
  r.events.toList.filterMap Event.opcode?

theorem Recorder.opcodes_notify (e : Event) (r : Recorder) :
    (Observer.notify e r).opcodes = r.opcodes ++ e.opcode?.toList := by
  rw [opcodes, events_notify, List.filterMap_append]
  cases e <;> rfl

/-- Only an announcement adds to them. -/
theorem Recorder.opcodes_notify_of_none {e : Event} (he : e.opcode? = none) (r : Recorder) :
    (Observer.notify e r).opcodes = r.opcodes := by
  rw [opcodes_notify, he]
  exact List.append_nil _

namespace Exec

section Instructions

variable {β ω : Type} [Bus β] [Observer ω]

/-- An instruction begins with a read and is announced by the byte that has been read. -/
theorem takeFirst_observer (m : Machine β ω) :
    ∃ a v pc r, (takeFirst m).2.observer =
      Observer.notify (.instruction pc (takeFirst m).1 r)
        (Observer.notify (.read a v) m.observer) :=
  ⟨_, _, _, _, rfl⟩

theorem invariant_head (op : UInt8) :
    Invariant fun m : Machine β ω => m.cpu.current.bytes.head? = some op where
  modifyRegs _ := fun _ h => h
  read _ := fun _ h => h
  write _ _ := fun _ h => h
  input _ := fun _ h => h
  output _ _ := fun _ h => h
  halt := fun _ h => h
  takeByte v := fun m h => by
    show (m.cpu.current.bytes ++ [v]).head? = some op
    rw [List.head?_append, h]
    rfl
  countFetch := fun m h => by
    show m.cpu.countFetch.current.bytes.head? = some op
    rw [Cpu.current_countFetch, h]

/-- The byte that an instruction is announced by is the first one that it takes in. -/
theorem head_runOne (m : Machine β ω) :
    (runOne m).2.cpu.current.bytes.head? = some (takeFirst m).1 := by
  refine (invariant_head (takeFirst m).1).runOne ?_
  rw [(taken_takeFirst m).current]
  rfl

/-- The count of the processor is exact as long as it has not gone round. -/
theorem toNat_instructions_session {requests : List Request} (hreset : .reset ∉ requests)
    {m : Machine β ω}
    (hlt : m.cpu.instructions.toNat + (begun requests m).length < 2 ^ 64) :
    (session requests m).2.cpu.instructions.toNat =
      m.cpu.instructions.toNat + (begun requests m).length := by
  rw [instructions_session hreset, UInt64.toNat_add, UInt64.toNat_ofNat', Nat.add_mod_mod,
    Nat.mod_eq_of_lt hlt]

end Instructions

section Accounts

variable {β : Type} [Bus β] {past : List (List UInt8)} {m : Machine β (Profile × Recorder)}

/-- A profile and a recorder side by side have been told of the instructions with these bytes. -/
structure Accounts (past : List (List UInt8)) (m : Machine β (Profile × Recorder)) : Prop where
  announced : m.observer.2.opcodes.map some = past.map List.head?
  tallies : m.observer.1.Tallies m.observer.2.opcodes

/-- Behind its first byte, an instruction is neither counted nor announced again. -/
theorem invariant_accounts (p : Profile) (ops : List UInt8) :
    Invariant fun m : Machine β (Profile × Recorder) =>
      m.observer.1 = p ∧ m.observer.2.opcodes = ops where
  modifyRegs _ := fun _ h => h
  read _ := fun m h => ⟨h.1, (m.observer.2.opcodes_notify_of_none rfl).trans h.2⟩
  write _ _ := fun m h => ⟨h.1, (m.observer.2.opcodes_notify_of_none rfl).trans h.2⟩
  input _ := fun m h => ⟨h.1, (m.observer.2.opcodes_notify_of_none rfl).trans h.2⟩
  output _ _ := fun m h => ⟨h.1, (m.observer.2.opcodes_notify_of_none rfl).trans h.2⟩
  halt := fun m h => ⟨h.1, (m.observer.2.opcodes_notify_of_none rfl).trans h.2⟩
  takeByte _ := fun _ h => h
  countFetch := fun _ h => h

theorem Accounts.runOne (h : Accounts past m) :
    Accounts (past ++ [(runOne m).2.cpu.current.bytes]) (runOne m).2 := by
  have hfirst : (takeFirst m).2.observer.1 = m.observer.1.hit (takeFirst m).1 ∧
      (takeFirst m).2.observer.2.opcodes = m.observer.2.opcodes ++ [(takeFirst m).1] := by
    obtain ⟨a, v, pc, r, hobserver⟩ := takeFirst_observer m
    rw [hobserver]
    refine ⟨rfl, ?_⟩
    show (Observer.notify (Event.instruction pc (takeFirst m).1 r)
      (Observer.notify (Event.read a v) m.observer.2)).opcodes = _
    rw [Recorder.opcodes_notify, Recorder.opcodes_notify_of_none rfl]
    rfl
  obtain ⟨hprofile, hopcodes⟩ := (invariant_accounts _ _).runOne hfirst
  constructor
  · rw [hopcodes, List.map_append, List.map_append, h.announced, List.map_singleton,
      List.map_singleton, head_runOne]
  · rw [hprofile, hopcodes]
    exact h.tallies.hit _

theorem accumulates_accounts :
    Accumulates fun past (m : Machine β (Profile × Recorder)) => Accounts past m where
  runOne _ _ _ h := h.runOne
  recordFault _ m e h := by
    have hopcodes := m.observer.2.opcodes_notify_of_none (e := .fault e) rfl
    refine ⟨hopcodes ▸ h.announced, ?_⟩
    show m.observer.1.Tallies (Observer.notify (Event.fault e) m.observer.2).opcodes
    rw [hopcodes]
    exact h.tallies
  clearFault _ _ h := ⟨h.announced, h.tallies⟩

/-- A profile beside a recorder on a new machine accounts for its session. -/
theorem accounts_session {requests : List Request} (hreset : .reset ∉ requests)
    (config : Config) (bus : β) :
    let m := (Machine.new config bus ({} : Profile)).tap
    Accounts (begun requests m) (session requests m).2 := by
  intro m
  have hnew : Accounts [] m := ⟨rfl, Profile.tallies_new⟩
  exact accumulates_accounts.session hreset hnew

end Accounts

/-! ## The length of a batch -/

section Batches

variable {β ω : Type} [Bus β] [Observer ω] {m : Machine β ω} {n : Nat}

/-- The next instruction halts the processor, or fails. -/
def Ends (m : Machine β ω) : Prop :=
  upcoming m = none ∨ upcoming m = some .halt

/-- How many instructions a batch of `n` begins: those up to the first one that ends it, that one
included. -/
structure BatchLength (n : Nat) (m : Machine β ω) (length : Nat) : Prop where
  idle : m.cpu.fault ≠ none ∨ m.cpu.regs.halted = true → length = 0
  ended : m.cpu.fault = none → m.cpu.regs.halted = false → ∀ j < n,
    (∀ i < j, ¬Ends (step i m).2) → Ends (step j m).2 → length = j + 1
  whole : m.cpu.fault = none → m.cpu.regs.halted = false →
    (∀ j < n, ¬Ends (step j m).2) → length = n

theorem length_begunIn_of_ends (hhalted : m.cpu.regs.halted = false) (h : Ends m) :
    (begunIn (n + 1) m).length = 1 := by
  rw [begunIn, hhalted, if_neg Bool.false_ne_true]
  rcases h with hnone | hhalt
  · rw [runOne_of_upcoming_none hnone]
    rfl
  · have hafter : (perform .halt (fetched m)).2.cpu.regs.halted = true := rfl
    rw [runOne_of_upcoming hhalt]
    show (_ :: begunIn n (perform .halt (fetched m)).2).length = 1
    rw [begunIn_of_halted n hafter]
    rfl

/-- Any other instruction is performed, and the batch goes on. -/
theorem exists_runOne_of_not_ends (hhalted : m.cpu.regs.halted = false) (h : ¬Ends m) :
    ∃ m', m'.cpu.regs.halted = false ∧
      (∀ n, (begunIn (n + 1) m).length = (begunIn n m').length + 1) ∧
      ∀ n, (run (n + 1) m).2 = (run n m').2 := by
  cases hnext : upcoming m with
  | none => exact absurd (.inl hnext) h
  | some i =>
    have hne : i ≠ .halt := by
      rintro rfl
      exact h (.inr hnext)
    have hview : Part.halted.view (runOne m).2.cpu.regs = Part.halted.view m.cpu.regs := by
      refine view_runOne (fun _ _ => rfl) (fun _ _ => rfl) fun j hj => ?_
      obtain rfl : i = j := Option.some.inj (hnext.symm.trans hj)
      exact keeps_part_perform (Part.notMem_parts_of_ne rfl hne)
    rw [runOne_of_upcoming hnext] at hview
    refine ⟨_, (congrArg (·.halted) hview).trans hhalted, fun n => ?_, fun n => ?_⟩
    · rw [begunIn, hhalted, if_neg Bool.false_ne_true, runOne_of_upcoming hnext]
      rfl
    · rw [run_succ, hhalted, if_neg Bool.false_ne_true, runOne_of_upcoming hnext]

/-- The batch ends with the instruction behind the first `j`, if none of these has ended it. -/
theorem length_begunIn_ended {j : Nat} (hhalted : m.cpu.regs.halted = false) (hj : j < n)
    (hbefore : ∀ i < j, ¬Ends (run i m).2) (h : Ends (run j m).2) :
    (begunIn n m).length = j + 1 := by
  -- behind the first instruction, the one that ends the batch is one place nearer
  induction j generalizing n m with
  | zero =>
    obtain ⟨n, rfl⟩ := Nat.exists_eq_add_of_lt hj
    rw [Nat.zero_add]
    exact length_begunIn_of_ends hhalted h
  | succ j ih =>
    obtain ⟨m', hhalted', hlength, hrun⟩ :=
      exists_runOne_of_not_ends hhalted (hbefore 0 (Nat.succ_pos j))
    cases n with
    | zero => exact absurd hj (Nat.not_lt_zero _)
    | succ n =>
      rw [hrun] at h
      rw [hlength, ih hhalted' (Nat.lt_of_succ_lt_succ hj) (fun i hi => ?_) h]
      rw [← hrun]
      exact hbefore (i + 1) (Nat.succ_lt_succ hi)

theorem length_begunIn_whole (hhalted : m.cpu.regs.halted = false)
    (h : ∀ j < n, ¬Ends (run j m).2) : (begunIn n m).length = n := by
  induction n generalizing m with
  | zero => rfl
  | succ n ih =>
    obtain ⟨m', hhalted', hlength, hrun⟩ :=
      exists_runOne_of_not_ends hhalted (h 0 (Nat.succ_pos n))
    rw [hlength, ih hhalted' fun j hj => ?_]
    rw [← hrun]
    exact h (j + 1) (Nat.succ_lt_succ hj)

theorem batchLength_begunFor (n : Nat) (m : Machine β ω) :
    BatchLength n m (begunFor (.step n) m).length where
  idle := by
    rintro (hfault | hhalted)
    · rw [begunFor_step_of_fault n hfault, List.length_nil]
    · rw [begunFor, begunIn_of_halted n hhalted]
      cases m.cpu.fault <;> rfl
  ended hfault hhalted j hj := by
    rw [begunFor_step_of_running n hfault]
    simp only [step_of_running _ hfault]
    exact length_begunIn_ended hhalted hj
  whole hfault hhalted := by
    rw [begunFor_step_of_running n hfault]
    simp only [step_of_running _ hfault]
    exact length_begunIn_whole hhalted

end Batches

/-! ## Sessions -/

variable {β : Type} [Bus β]

/-- All counters of the session agree: each of the instructions that it begins is counted once by
the processor and once by the profile under its first byte, and is announced once, in order. -/
structure Accounted (requests : List Request) (m : Machine β Profile) : Prop where
  instructions : (session requests m).2.cpu.instructions.toNat = (begun requests m).length
  total : (session requests m).2.observer.total.toNat = (begun requests m).length
  size : (session requests m).2.observer.counts.size = 256
  sum : ((session requests m).2.observer.counts.toList.map UInt64.toNat).sum =
    (begun requests m).length
  calls : (session requests m.tap).2.observer.2.opcodes.length = (begun requests m).length
  announced : (session requests m.tap).2.observer.2.opcodes.map some =
    (begun requests m).map List.head?
  count : ∀ op, ((session requests m).2.observer.count op).toNat =
    ((begun requests m).map List.head?).count (some op)

theorem accounted_session {requests : List Request} (hreset : .reset ∉ requests)
    (config : Config) (bus : β)
    (hlt : (begun requests (Machine.new config bus ({} : Profile))).length < 2 ^ 64) :
    Accounted requests (Machine.new config bus ({} : Profile)) := by
  have hzero : (Machine.new config bus ({} : Profile)).cpu.instructions.toNat = 0 := rfl
  generalize hm : Machine.new config bus ({} : Profile) = m at hlt hzero
  have haccounts := accounts_session hreset config bus
  simp only [hm] at haccounts
  rw [begun_untap, Machine.untap_tap] at haccounts
  -- the profile beside the recorder is the one of the machine without
  have hprofile : (session requests m.tap).2.observer.1 = (session requests m).2.observer :=
    congrArg Machine.observer (untap_session requests m.tap).2
  have hcalls : (session requests m.tap).2.observer.2.opcodes.length =
      (begun requests m).length := by
    rw [← List.length_map some, haccounts.announced, List.length_map]
  have htallies := haccounts.tallies
  rw [hprofile] at htallies
  have hsmall := hcalls.trans_lt hlt
  refine ⟨?_, ?_, htallies.size, ?_, hcalls, haccounts.announced, fun op => ?_⟩
  · rw [toNat_instructions_session hreset (by omega), hzero, Nat.zero_add]
  · rw [htallies.toNat_total hsmall, hcalls]
  · rw [htallies.sum_counts hsmall, hcalls]
  · rw [htallies.toNat_count hsmall, ← haccounts.announced,
      List.count_map_of_injective _ _ (Option.some_injective UInt8)]

/-- On any bus, a new machine with a new profile accounts for each of its instructions under the
first byte, failing ones included, whatever batches its host asks for and whenever it clears a
fault. Each of the batches adds its instructions up to the first one that halts the machine or
fails. -/
theorem session_accounts (config : Config) (bus : β) (requests : List Request)
    (hreset : .reset ∉ requests)
    (hlt : (begun requests (Machine.new config bus ({} : Profile))).length < 2 ^ 64) :
    let m := Machine.new config bus ({} : Profile)
    Accounted requests m ∧
      ∀ before n after, requests = before ++ .step n :: after →
        let m₁ := (session before m).2
        ∃ length, BatchLength n m₁ length ∧
          (step n m₁).2.cpu.instructions.toNat = m₁.cpu.instructions.toNat + length := by
  intro m
  refine ⟨accounted_session hreset config bus hlt, ?_⟩
  rintro before n after rfl m₁
  refine ⟨_, batchLength_begunFor n m₁, ?_⟩
  have hbefore : .reset ∉ before := fun h => hreset (List.mem_append_left _ h)
  rw [begun_append, begun, List.length_append, List.length_append] at hlt
  have hparts : (begun before m).length + (begunFor (.step n) m₁).length < 2 ^ 64 :=
    (Nat.add_le_add_left (Nat.le_add_right _ _) _).trans_lt hlt
  have hm₁ : m₁.cpu.instructions.toNat = (begun before m).length :=
    (accounted_session hbefore config bus ((Nat.le_add_right _ _).trans_lt hparts)).instructions
  have hone : begun [.step n] m₁ = begunFor (.step n) m₁ := List.append_nil _
  rw [← hm₁, ← hone] at hparts
  have hsum : (session [.step n] m₁).2.cpu.instructions.toNat =
      m₁.cpu.instructions.toNat + (begun [.step n] m₁).length :=
    toNat_instructions_session (by simp) hparts
  rw [hone] at hsum
  exact hsum

/-- A superseded index byte, a fallback behind another, a failure, and HALT. -/
theorem session_accounts_halt :
    let memory := (((Memory.zero.set 0 0xDD).set 1 0xDD).set 2 0x04).set 3 0xED |>.set 5 0x76
    let bus : Board := { memory }
    let m := Machine.new {} bus ({} : Profile)
    let requests := [Request.step 9, .step 1, .clearFault, .step 9, .step 1]
    let after := (session requests m).2
    begun requests m = [[0xDD], [0xDD, 0x04], [0xED, 0x00], [0x76]] ∧
      after.cpu.instructions.toNat = 4 ∧ after.observer.total.toNat = 4 ∧
      (after.observer.count 0xDD).toNat = 2 ∧ (after.observer.count 0xED).toNat = 1 := by
  intro memory bus m requests after
  have hbytes : begun requests m = [[0xDD], [0xDD, 0x04], [0xED, 0x00], [0x76]] := by
    decide +kernel
  obtain ⟨haccounts, -⟩ :=
    session_accounts {} bus requests (by decide) (by rw [hbytes]; decide)
  have hcount := haccounts.count
  rw [hbytes] at hcount
  exact ⟨hbytes, haccounts.instructions.trans (congrArg List.length hbytes),
    haccounts.total.trans (congrArg List.length hbytes), hcount 0xDD, hcount 0xED⟩

end Exec

end Z80
