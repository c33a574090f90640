import Z80.Proofs.ExtensionArms
import Z80.Proofs.IndexArms
import Z80.Proofs.Meaning

/-!
# No gap is ever met

The pages by arms, put together as an interpreter that executes while it decodes: the first byte
chooses a page, and an opcode that an index page lacks goes back to the choice. The byte behind an
index byte is read twice, and nothing is assumed of the two answers. No code without an entry is
ever looked up, whatever the bus answers, and the base page is never entered with a lead.

Main definitions:
- `Guarded.executeWithin`: from the first byte on to the end of an instruction.
- `Guarded.runOneWithin`, `Guarded.runWithin`, `Guarded.stepWithin`: one instruction, and batches.

Main statements: `follows_executeWithin` says that an instruction is executed as the machine
decodes and performs it, and `step_gapless` that no batch comes upon a gap, and that every batch
is a batch of the machine.
-/

namespace Z80

namespace Guarded

open Exec

variable {β ω : Type} [Bus β] [Observer ω]

/-- Executes the instruction that starts with the byte `op`, which has been taken in already, if
no more than `limit` index bytes are passed over. -/
def executeWithin (limit : Nat) (op : UInt8) : Guarded β ω (Except InvalidOpcode Unit) := do
  if op == 0xCB then
    bitPage (← lift fetchOpcode)
    return .ok ()
  else if op == 0xED then
    extensionPage (← lift fetchOpcode)
  else if isIndexByte op then
    let x := if op == 0xDD then Index.ix else Index.iy
    let ahead ← lift (read (← lift regs).pc)
    if isIndexByte ahead then return .ok ()
    match limit with
    | 0 => return .ok ()
    | limit + 1 =>
      let next ← lift fetchOpcode
      if ← indexPage x next then return .ok ()
      executeWithin limit next
  else
    basePage op
    return .ok ()

/-- Takes in and executes the instruction at the program counter. -/
def runOneWithin (limit : Nat) : Guarded β ω (Except InvalidOpcode Unit) := do
  executeWithin limit (← lift takeFirst)

/-- Runs up to `count` instructions on a machine without a recorded fault. -/
def runWithin (limit : Nat) : Nat → Guarded β ω (Except InvalidOpcode Unit)
  | 0 => return .ok ()
  | count + 1 => do
    if (← lift regs).halted then return .ok ()
    match ← runOneWithin limit with
    | .ok () => runWithin limit count
    | .error e =>
      lift (reportFault e)
      lift (modifyCpu fun c => { c with fault := some e })
      return .error e

/-- Runs `count` instructions, or repeats the report of a recorded fault. -/
def stepWithin (limit count : Nat) : Guarded β ω (Except InvalidOpcode Unit) := do
  match (← lift cpu).fault with
  | some e => return .error e
  | none => runWithin limit count

/-! ## An instruction -/

theorem executeWithin_of_plain {op : UInt8} {d : Decoding} (h : Lead.ofByte op = .plain d)
    (limit : Nat) :
    (executeWithin limit op : Guarded β ω _) = basePage op >>= fun _ => pure (.ok ()) := by
  have hne (v : UInt8) (hv : Lead.ofByte v ≠ .plain d) : (op == v) = false :=
    beq_false_of_ne fun hop => hv (hop ▸ h)
  have hcb : (op == 0xCB) = false := hne 0xCB fun hlead => by cases hlead
  have hed : (op == 0xED) = false := hne 0xED fun hlead => by cases hlead
  have hdd : (op == 0xDD) = false := hne 0xDD fun hlead => by cases hlead
  have hfd : (op == 0xFD) = false := hne 0xFD fun hlead => by cases hlead
  rw [executeWithin, hcb, hed, isIndexByte, hdd, hfd]
  rfl

theorem executeWithin_cb (limit : Nat) :
    (executeWithin limit 0xCB : Guarded β ω _) =
      lift fetchOpcode >>= fun op => bitPage op >>= fun _ => pure (.ok ()) := by
  cases limit <;> rfl

theorem executeWithin_ed (limit : Nat) :
    (executeWithin limit 0xED : Guarded β ω _) = lift fetchOpcode >>= extensionPage := by
  cases limit <;> rfl

theorem executeWithin_zero_lead (x : Index) :
    (executeWithin 0 x.lead : Guarded β ω _) =
      lift regs >>= fun r => lift (read r.pc) >>= fun ahead =>
        if isIndexByte ahead then pure (.ok ()) else pure (.ok ()) := by
  cases x <;> rfl

theorem executeWithin_succ_lead (limit : Nat) (x : Index) :
    (executeWithin (limit + 1) x.lead : Guarded β ω _) =
      lift regs >>= fun r => lift (read r.pc) >>= fun ahead =>
        if isIndexByte ahead then pure (.ok ())
        else lift fetchOpcode >>= fun next => indexPage x next >>= fun handled =>
          if handled then pure (.ok ()) else executeWithin limit next := by
  cases x <;> rfl

/-- A byte that is no index byte is executed at once, whatever the bound. -/
theorem follows_executeWithin_of_ne {op : UInt8} (h : ∀ x, Lead.ofByte op ≠ .index x)
    (limit : Nat) :
    Follows (executeWithin limit op : Guarded β ω _) (dispatchWithin limit op >>= conclude) := by
  cases hop : Lead.ofByte op with
  | plain d =>
    rw [executeWithin_of_plain hop, dispatchWithin_of_plain hop, complete_conclude]
    exact (follows_basePage hop).bind fun _ => follows_pure _
  | cb =>
    rw [dispatchWithin_of_cb hop, Lead.eq_of_ofByte_cb hop, executeWithin_cb, bind_assoc]
    exact (follows_lift fetchOpcode).bind fun v =>
      (follows_bitPage v).bind fun _ => follows_pure _
  | ed =>
    rw [dispatchWithin_of_ed hop, Lead.eq_of_ofByte_ed hop, executeWithin_ed, bind_assoc]
    exact (follows_lift fetchOpcode).bind follows_extensionPage
  | index x => exact absurd hop (h x)

/-- An instruction is executed as the machine decodes and performs it. -/
theorem follows_executeWithin (limit : Nat) (op : UInt8) :
    Follows (executeWithin limit op : Guarded β ω _) (dispatchWithin limit op >>= conclude) := by
  -- each index byte uses up one of the limit
  induction limit generalizing op with
  | zero =>
    by_cases hindex : ∃ x, Lead.ofByte op = .index x
    · obtain ⟨x, hop⟩ := hindex
      cases Lead.eq_of_ofByte_index hop
      rw [executeWithin_zero_lead, dispatchWithin_zero_of_index hop, bind_assoc]
      refine (follows_lift regs).bind fun r => ?_
      rw [bind_assoc]
      refine (follows_lift (read r.pc)).bind fun ahead => ?_
      split
      · exact fun _ => rfl
      · exact fun _ => rfl
    · exact follows_executeWithin_of_ne (fun x hop => hindex ⟨x, hop⟩) 0
  | succ limit ih =>
    by_cases hindex : ∃ x, Lead.ofByte op = .index x
    · obtain ⟨x, hop⟩ := hindex
      cases Lead.eq_of_ofByte_index hop
      rw [executeWithin_succ_lead, dispatchWithin_succ_of_index hop, bind_assoc]
      refine (follows_lift regs).bind fun r => ?_
      rw [bind_assoc]
      refine (follows_lift (read r.pc)).bind fun ahead => ?_
      split
      · exact fun _ => rfl
      rw [bind_assoc]
      refine (follows_lift fetchOpcode).bind fun next => ?_
      cases hpage : Page.index x next with
      | some d =>
        intro m
        rw [completeOr, complete_conclude, run_bind, follows_indexPage hpage m]
        rfl
      | none =>
        rw [indexPage_of_none hpage]
        exact ih next
    · exact follows_executeWithin_of_ne (fun x hop => hindex ⟨x, hop⟩) _

/-- The base page comes upon a gap for the leads alone. -/
theorem basePage_gap_iff (op : UInt8) (m : Machine β ω) :
    (basePage op).run m = (.error .lead, m) ↔ op ∈ [0xCB, 0xDD, 0xED, 0xFD] := by
  refine ⟨fun hgap => ?_, fun h => basePage_of_lead h m⟩
  cases hop : Lead.ofByte op with
  | plain d =>
    rw [follows_basePage hop m] at hgap
    cases hgap
  | cb => simp [Lead.eq_of_ofByte_cb hop]
  | ed => simp [Lead.eq_of_ofByte_ed hop]
  | index x => cases x <;> simp [Lead.eq_of_ofByte_index hop, Index.lead]

/-! ## Batches -/

theorem gapless_runOneWithin (limit : Nat) : Gapless (runOneWithin limit : Guarded β ω _) :=
  ((follows_lift takeFirst).bind (follows_executeWithin limit)).gapless

theorem follows_runOneWithin : Follows (runOneWithin indexLimit : Guarded β ω _) runOne :=
  (follows_lift takeFirst).bind (follows_executeWithin indexLimit)

theorem gapless_runWithin (limit count : Nat) :
    Gapless (runWithin limit count : Guarded β ω _) := by
  induction count with
  | zero => exact (follows_pure _).gapless
  | succ count ih =>
    refine (follows_lift regs).gapless.bind fun r => ?_
    split
    · exact (follows_pure _).gapless
    · refine (gapless_runOneWithin limit).bind fun answer => ?_
      cases answer with
      | ok _ => exact ih
      | error e => exact fun _ => ⟨_, _, rfl⟩

theorem follows_runWithin (count : Nat) :
    Follows (runWithin indexLimit count : Guarded β ω _) (run count) := by
  induction count with
  | zero => exact follows_pure _
  | succ count ih =>
    refine (follows_lift regs).bind fun r => ?_
    split
    · exact follows_pure _
    · refine follows_runOneWithin.bind fun answer => ?_
      cases answer with
      | ok _ => exact ih
      | error e => exact fun _ => rfl

theorem gapless_stepWithin (limit count : Nat) :
    Gapless (stepWithin limit count : Guarded β ω _) := by
  refine (follows_lift cpu).gapless.bind fun c => ?_
  cases c.fault with
  | some e => exact (follows_pure _).gapless
  | none => exact gapless_runWithin limit count

theorem follows_stepWithin (count : Nat) :
    Follows (stepWithin indexLimit count : Guarded β ω _) (step count) := by
  refine (follows_lift cpu).bind fun c => ?_
  cases c.fault with
  | some e => exact follows_pure _
  | none => exact follows_runWithin count

/-- The base page has nothing for a lead, and neither an index page nor a port has a register for
the code of memory. Nothing of this is ever asked for: no batch comes upon a gap, and every batch is
one of the machine. -/
theorem step_gapless :
    (∀ (op : UInt8) (m : Machine β ω),
      (basePage op).run m = (.error .lead, m) ↔ op ∈ [0xCB, 0xDD, 0xED, 0xFD]) ∧
    (∀ (x : Index) (r : UInt8) (m : Machine β ω),
      (readHalf x r).run m = (.error .half, m) ↔ r &&& 7 = 6) ∧
    (∀ (x : Index) (r v : UInt8) (m : Machine β ω),
      (writeHalf x r v).run m = (.error .half, m) ↔ r &&& 7 = 6) ∧
    (∀ (r : UInt8) (m : Machine β ω), (readPort r).run m = (.error .port, m) ↔ r &&& 7 = 6) ∧
    (∀ (r v : UInt8) (m : Machine β ω), (writePort r v).run m = (.error .port, m) ↔ r &&& 7 = 6) ∧
    (∀ (limit count : Nat) (m : Machine β ω), ∃ answer m',
      (stepWithin limit count).run m = (.ok answer, m')) ∧
    ∀ (count : Nat) (m : Machine β ω),
      (stepWithin indexLimit count).run m = (.ok (step count m).1, (step count m).2) :=
  ⟨basePage_gap_iff, readHalf_gap_iff, writeHalf_gap_iff, readPort_gap_iff, writePort_gap_iff,
    gapless_stepWithin, follows_stepWithin⟩

/-- A byte that is looked at as 00 and taken in as FD leads to one more index page, where 74 has the
code of memory. -/
example :
    let bus : Scripted Board :=
      { inner := {}, script := [(0, 0xDD), (1, 0x00), (1, 0xFD), (2, 0x00), (2, 0x74)] }
    let m : Machine (Scripted Board) Unit := ⟨{}, bus, ()⟩
    ((stepWithin 2 1).run m).1 = .ok (.ok ()) ∧
      ((stepWithin 2 1).run m).2.cpu.current.bytes = [0xDD, 0xFD, 0x74, 0x00] := by
  exact ⟨rfl, rfl⟩

end Guarded

end Z80
