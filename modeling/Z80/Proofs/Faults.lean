import Z80.Proofs.IndexFallback
import Z80.Proofs.Taking
import Z80.Scripted

/-!
# Instructions that fail

Only the page of extensions has gaps, so an instruction fails where its bytes are ED and
an opcode that is missing there, behind index bytes or not. What a failure leaves is told
by the bytes alone, since they have been taken in and nothing else has been done.

Main definitions:
- `Page.extensions`: the opcodes that are defined behind ED.
- `Meaningless`: the strings of bytes that spell no instruction.
- `Exec.Failed`: what an instruction leaves that fails.

Main statements: `dispatchWithin_none` and `taken_of_runOne_error` say what has been taken in
where an instruction is missing, `run_error` finds it in a run, and `step_error_atomic` says
what a batch leaves that runs into it.
-/

namespace Z80

/-! ## Bytes without meaning -/

/-- The opcodes that the page of extensions defines. -/
def Page.extensions : List UInt8 :=
  [0x40, 0x41, 0x42, 0x43, 0x44, 0x45, 0x46, 0x47, 0x48, 0x49, 0x4A, 0x4B, 0x4D, 0x4F,
   0x50, 0x51, 0x52, 0x53, 0x56, 0x57, 0x58, 0x59, 0x5A, 0x5B, 0x5E, 0x5F,
   0x60, 0x61, 0x62, 0x63, 0x67, 0x68, 0x69, 0x6A, 0x6B, 0x6F,
   0x72, 0x73, 0x78, 0x79, 0x7A, 0x7B,
   0xA0, 0xA1, 0xA2, 0xA3, 0xA8, 0xA9, 0xAA, 0xAB,
   0xB0, 0xB1, 0xB2, 0xB3, 0xB8, 0xB9, 0xBA, 0xBB]

/-- The bytes spell no instruction: they end with ED and an opcode that is not defined
there, and begin with index bytes if there are others. -/
inductive Meaningless : List UInt8 → Prop
  | ed {u : UInt8} (hu : u ∉ Page.extensions) : Meaningless [0xED, u]
  | lead (x : Index) {bytes : List UInt8} (h : Meaningless bytes) : Meaningless (x.lead :: bytes)

theorem Page.ed_eq_none_iff (u : UInt8) : Page.ed u = none ↔ u ∉ Page.extensions := by
  have hbyte : (Page.ed u).isNone = decide (u ∉ Page.extensions) := by
    revert u
    apply byte_forall
    decide +kernel
  rw [← Option.isNone_iff_eq_none, hbyte, decide_eq_true_iff]

namespace Meaningless

variable {bytes : List UInt8}

theorem exists_leads (h : Meaningless bytes) :
    ∃ leads u, (∀ v ∈ leads, isIndexByte v = true) ∧ u ∉ Page.extensions ∧
      bytes = leads ++ [0xED, u] := by
  induction h with
  | @ed u hu => exact ⟨[], u, fun _ h => absurd h List.not_mem_nil, hu, rfl⟩
  | lead x _ ih =>
    obtain ⟨leads, u, hleads, hu, rfl⟩ := ih
    refine ⟨x.lead :: leads, u, ?_, hu, rfl⟩
    rintro v (- | ⟨-, hv⟩)
    · exact isIndexByte_lead x
    · exact hleads v hv

end Meaningless

namespace Exec

variable {β ω : Type} [Bus β] [Observer ω] {m₀ m : Machine β ω}

/-! ## Where the look-up fails -/

/-- Without index bytes, only the page of extensions can lack an opcode. -/
theorem dispatch_none {op : UInt8} (hop : ∀ x, Lead.ofByte op ≠ .index x)
    (hnone : (dispatch op m).1 = none) :
    op = 0xED ∧ (fetchOpcode m).1 ∉ Page.extensions ∧
      (dispatch op m).2 = (fetchOpcode m).2 := by
  unfold dispatch at hnone ⊢
  cases hlead : Lead.ofByte op with
  | plain d =>
    rw [dispatchWithin_of_plain hlead] at hnone
    cases hnone
  | cb =>
    rw [dispatchWithin_of_cb hlead] at hnone
    cases hnone
  | ed =>
    rw [dispatchWithin_of_ed hlead, bind_apply] at hnone ⊢
    cases hentry : Page.ed (fetchOpcode m).1 with
    | some d =>
      rw [hentry] at hnone
      cases hnone
    | none => exact ⟨Lead.eq_of_ofByte_ed hlead, (Page.ed_eq_none_iff _).mp hentry, rfl⟩
  | index x => exact absurd hlead (hop x)

/-- Where the look-up behind an index byte fails, the byte ahead is no index byte, and the
opcode that follows has been looked up by itself. -/
theorem dispatchWithin_none_of_index {limit : Nat} {op : UInt8} {x : Index}
    (hop : Lead.ofByte op = .index x) (hnone : (dispatchWithin limit op m).1 = none) :
    let m' := (read m.cpu.regs.pc m).2
    isIndexByte (read m.cpu.regs.pc m).1 = false ∧
      ∃ rest < limit, dispatchWithin limit op m =
        dispatchWithin rest (fetchOpcode m').1 (fetchOpcode m').2 := by
  intro m'
  by_cases hahead : isIndexByte (read m.cpu.regs.pc m).1 = true
  · -- another index byte ahead makes this one an instruction of its own
    cases limit with
    | zero =>
      rw [dispatchWithin_zero_of_index hop, bind_apply, regs_apply, bind_apply, if_pos hahead]
        at hnone
      cases hnone
    | succ rest =>
      rw [dispatchWithin_succ_of_index hop, bind_apply, regs_apply, bind_apply, if_pos hahead]
        at hnone
      cases hnone
  · refine ⟨Bool.eq_false_iff.mpr hahead, ?_⟩
    cases limit with
    | zero =>
      rw [dispatchWithin_zero_of_index hop, bind_apply, regs_apply, bind_apply, if_neg hahead]
        at hnone
      cases hnone
    | succ rest =>
      refine ⟨rest, Nat.lt_succ_self rest, ?_⟩
      rw [dispatchWithin_succ_of_index hop, bind_apply, regs_apply, bind_apply, if_neg hahead,
        bind_apply] at hnone ⊢
      cases hentry : Page.index x (fetchOpcode m').1 with
      | some d =>
        rw [hentry] at hnone
        cases hnone
      | none => rfl

/-- Where the look-up of an instruction fails, bytes without meaning have been taken in
from the first one on. -/
theorem dispatchWithin_none {limit : Nat} {op : UInt8} {bytes : List UInt8}
    (htaken : Taken m₀ m bytes) (hnone : (dispatchWithin limit op m).1 = none) :
    ∃ more, Meaningless (op :: more) ∧
      Taken m₀ (dispatchWithin limit op m).2 (bytes ++ more) := by
  -- each index byte uses up one of the limit
  induction limit using Nat.strongRecOn generalizing op m bytes with
  | ind limit ih =>
    by_cases hop : ∃ x, Lead.ofByte op = .index x
    · obtain ⟨x, hop⟩ := hop
      obtain ⟨-, rest, hrest, heq⟩ := dispatchWithin_none_of_index hop hnone
      rw [heq] at hnone ⊢
      obtain ⟨more, hmore, htaken'⟩ := ih rest hrest (htaken.read _).fetchOpcode hnone
      rw [List.append_assoc] at htaken'
      rw [Lead.eq_of_ofByte_index hop]
      exact ⟨_, .lead x hmore, htaken'⟩
    · rw [not_exists] at hop
      rw [dispatchWithin_eq_dispatch hop] at hnone ⊢
      obtain ⟨rfl, hu, hafter⟩ := dispatch_none hop hnone
      rw [hafter]
      exact ⟨_, .ed hu, htaken.fetchOpcode⟩

theorem runOne_error {e : InvalidOpcode} (h : (runOne m).1 = .error e) :
    (dispatch (takeFirst m).1 (takeFirst m).2).1 = none ∧
      (runOne m).2 = (dispatch (takeFirst m).1 (takeFirst m).2).2 ∧
      e = (runOne m).2.cpu.invalidOpcode := by
  rw [runOne_apply] at h ⊢
  generalize dispatch (takeFirst m).1 (takeFirst m).2 = out at h
  obtain ⟨i?, m'⟩ := out
  cases i? with
  | some i => cases h
  | none =>
    cases h
    exact ⟨rfl, rfl, rfl⟩

/-- An instruction fails with the bytes taken in, and these have no meaning. -/
theorem taken_of_runOne_error {e : InvalidOpcode} (h : (runOne m).1 = .error e) :
    e.pc = m.cpu.regs.pc ∧ Meaningless e.opcode ∧ Taken m (runOne m).2 e.opcode := by
  obtain ⟨hnone, hafter, he⟩ := runOne_error h
  obtain ⟨more, hmore, htaken⟩ := dispatchWithin_none (taken_takeFirst m) hnone
  rw [he, hafter, dispatch, htaken.invalidOpcode]
  exact ⟨rfl, hmore, htaken⟩

/-! ## What a failure leaves -/

/-- A run that fails is one that has not yet, and an instruction that fails. -/
theorem run_error {count : Nat} {e : InvalidOpcode} (h : (run count m).1 = .error e) :
    ∃ before < count, (run before m).1 = .ok () ∧
      (run before m).2.cpu.regs.halted = false ∧
      (runOne (run before m).2).1 = .error e ∧
      (run count m).2 = recordFault e (runOne (run before m).2).2 := by
  induction count generalizing m with
  | zero => cases h
  | succ count ih =>
    rw [run_succ] at h ⊢
    by_cases hhalted : m.cpu.regs.halted = true
    · rw [if_pos hhalted] at h
      cases h
    · rw [if_neg hhalted] at h ⊢
      rcases hone : runOne m with ⟨r, m'⟩
      rw [hone] at h
      cases r with
      | ok u =>
        obtain ⟨before, hlt, hbefore⟩ := ih h
        refine ⟨before + 1, Nat.succ_lt_succ hlt, ?_⟩
        rw [run_succ, if_neg hhalted, hone]
        exact hbefore
      | error e' =>
        cases h
        refine ⟨0, Nat.succ_pos count, rfl, Bool.eq_false_iff.mpr hhalted, ?_, ?_⟩
        · rw [run_zero, hone]
        · rw [run_zero, hone]

theorem step_one_error {e : InvalidOpcode} (hfault : m.cpu.fault = none)
    (hhalted : m.cpu.regs.halted = false) (h : (runOne m).1 = .error e) :
    step 1 m = (.error e, recordFault e (runOne m).2) := by
  rw [step_one hfault hhalted]
  generalize runOne m = out at h
  obtain ⟨r, m'⟩ := out
  cases h
  rfl

/-- What the machine `m₁` leaves by an instruction that fails: of the processor, the
registers have gone past the bytes taken in, and the bus has only been read before it
was told. -/
structure Failed (m₁ m₂ : Machine β ω) (e : InvalidOpcode) : Prop where
  cpu : m₂.cpu =
    { regs := m₁.cpu.advanced e.opcode.length e.opcode.length
      config := m₁.cpu.config
      fault := some e
      instructions := m₁.cpu.instructions + 1
      current := ⟨e.pc, e.opcode⟩ }
  pc : e.pc = m₁.cpu.regs.pc
  opcode : Meaningless e.opcode
  bus : ∃ b, OnlyRead m₁.bus b ∧ m₂.bus = Bus.fault e b

theorem failed_of_runOne_error {e : InvalidOpcode} (h : (runOne m).1 = .error e) :
    Failed m (recordFault e (runOne m).2) e := by
  obtain ⟨hpc, hopcode, htaken⟩ := taken_of_runOne_error h
  refine ⟨?_, hpc, hopcode, _, htaken.bus, rfl⟩
  show { (runOne m).2.cpu with fault := some e } = _
  rw [Cpu.mk.injEq, hpc]
  exact ⟨htaken.regs, htaken.record.config, rfl, htaken.record.instructions, htaken.current⟩

omit [Observer ω] in
/-- The records are in nobody's way here either. -/
theorem Failed.untap {m₁ m₂ : Machine (Tapped β) (ω × Recorder)} {e : InvalidOpcode}
    (h : Failed m₁ m₂ e) : Failed m₁.untap m₂.untap e := by
  obtain ⟨b, hread, hbus⟩ := h.bus
  exact ⟨h.cpu, h.pc, h.opcode, b.inner, hread.inner, congrArg Tapped.inner hbus⟩

/-- A batch that runs into a failure leaves the machine of the instructions before it, but
for the bytes of the failing one: these have been taken in and counted, the failure is
recorded, and no cell and no port has been written, nor a port been read. -/
theorem step_error_atomic (count : Nat) (m : Machine β ω) {e : InvalidOpcode}
    (hfault : m.cpu.fault = none) (herror : (step count m).1 = .error e) :
    (step count m.tap).2.untap = (step count m).2 ∧
      ∃ before < count, (step before m.tap).2.untap = (step before m).2 ∧
        (step before m).1 = .ok () ∧ (step before m).2.cpu.regs.halted = false ∧
        Failed (step before m).2 (step count m).2 e ∧
        (∃ reads, (step count m.tap).2.bus.record.events.toList =
          (step before m.tap).2.bus.record.events.toList ++ reads ++ [.fault e] ∧
          ∀ access ∈ reads, access.isRead = true) ∧
        ∃ leads u, (∀ v ∈ leads, v = 0xDD ∨ v = 0xFD) ∧ u ∉ Page.extensions ∧
          e.opcode = leads ++ [0xED, u] := by
  obtain ⟨heq, huntap⟩ := untap_step count m.tap
  rw [Machine.untap_tap] at heq huntap
  refine ⟨huntap, ?_⟩
  -- the instruction that fails is found in the tapped run, whose record is asked for
  have hrun : (run count m.tap).1 = .error e := by
    rw [← step_of_running count (m := m.tap) hfault, heq, herror]
  obtain ⟨before, hlt, hok, hhalted, hone, hafter⟩ := run_error hrun
  obtain ⟨heq', huntap'⟩ := untap_step before m.tap
  rw [Machine.untap_tap] at heq' huntap'
  rw [step_of_running count (m := m.tap) hfault] at huntap ⊢
  rw [step_of_running before (m := m.tap) hfault] at heq' huntap'
  have hfailed := failed_of_runOne_error hone
  rw [← hafter] at hfailed
  refine ⟨before, hlt, ?_⟩
  rw [step_of_running before (m := m.tap) hfault, ← heq', ← huntap', ← huntap]
  refine ⟨rfl, hok, hhalted, hfailed.untap, ?_, ?_⟩
  · obtain ⟨b, hread, hbus⟩ := hfailed.bus
    obtain ⟨reads, hreads, hall⟩ := hread.tapped
    refine ⟨reads, ?_, hall⟩
    rw [hbus, ← hreads]
    exact Recorder.events_notify _ _
  · obtain ⟨leads, u, hleads, hu, heq⟩ := hfailed.opcode.exists_leads
    refine ⟨leads, u, ?_, hu, heq⟩
    intro v hv
    simpa [isIndexByte] using hleads v hv

/-- A bus that shows no index byte ahead and then gives one leads to a second index byte
in one instruction. -/
theorem step_error_atomic_varying :
    let bus : Scripted Board :=
      { inner := {}, script := [(0, 0xDD), (1, 0x00), (1, 0xFD), (2, 0x00), (2, 0xED), (3, 0x00)] }
    let m : Machine (Scripted Board) Unit := ⟨{}, bus, ()⟩
    m.cpu.fault = none ∧ (step 1 m).1 = .error ⟨0, [0xDD, 0xFD, 0xED, 0x00]⟩ ∧
      (step 1 m).2.cpu.regs.pc = 4 := by
  intro bus m
  have herror : (step 1 m).1 = .error ⟨0, [0xDD, 0xFD, 0xED, 0x00]⟩ := by
    rfl
  obtain ⟨-, before, hlt, -, -, -, hfailed, -, -⟩ := step_error_atomic 1 m rfl herror
  obtain rfl : before = 0 := Nat.lt_one_iff.mp hlt
  refine ⟨rfl, herror, ?_⟩
  rw [hfailed.cpu]
  show (0 : UInt16) + UInt16.ofNat 4 = 4
  decide

end Exec

end Z80
