import Z80.Proofs.BaseFamilies
import Z80.Proofs.Samples

/-!
# The codes that write a register

Outside the bank in use each register is written under few codes. Which ones is read off the
pages, and told by the bytes that an instruction has taken in, on any bus.

Main definitions:
- `Part.codes`: the codes that write a part, whatever the flags are.
- `Exec.RegisterFrame`: all that an instruction with given bytes leaves alone.

Main statements: `Part.exists_opens` finds the code of an instruction that may change a part,
`registerFrame_runOne` is about every instruction and `pairs_exchanged` about runs between two EXX.
-/

namespace Z80

/-! ## The codes of a part -/

/-- The opcodes behind an index byte that write the index register or a half of it. -/
def Page.indexTargets : List UInt8 :=
  [0x09, 0x19, 0x29, 0x39, 0x21, 0x23, 0x24, 0x25, 0x26, 0x2A, 0x2B, 0x2C, 0x2D, 0x2E,
   0x60, 0x61, 0x62, 0x63, 0x64, 0x65, 0x67, 0x68, 0x69, 0x6A, 0x6B, 0x6C, 0x6D, 0x6F,
   0xE1, 0xE3]

/-- The codes that write SP under no condition: LD, INC and DEC, then POP, PUSH, RST, RET and CALL,
and behind ED the two returns and a load. -/
def Page.stackCodes : List (List UInt8) :=
  [[0x31], [0xF9], [0x33], [0x3B], [0xC1], [0xD1], [0xE1], [0xF1], [0xC5], [0xD5], [0xE5], [0xF5],
   [0xC7], [0xCF], [0xD7], [0xDF], [0xE7], [0xEF], [0xF7], [0xFF], [0xC9], [0xCD],
   [0xED, 0x45], [0xED, 0x4D], [0xED, 0x7B]]

/-- The condition of a conditional call or return. -/
def Instruction.condition : Instruction → Option Condition
  | .call cc _ | .ret cc => cc
  | _ => none

namespace Part

/-- The codes that write the part under no condition. The program counter, which every instruction
moves, is left out. -/
def codes : Part → List (List UInt8)
  | altAF => [[0x08]]
  | altPairs => [[0xD9]]
  | index x => Page.indexTargets.map fun op => [x.lead, op]
  | sp => Page.stackCodes
  | pc => []
  | i => [[0xED, 0x47]]
  | .r => [[0xED, 0x4F]]
  | enables => [[0xF3], [0xFB], [0xED, 0x45]]
  | mode => [[0xED, 0x46], [0xED, 0x56], [0xED, 0x5E]]
  | halted => [[0x76]]

variable {p : Part} {code bytes : List UInt8} {i : Instruction}

theorem parts_bare (i : Instruction) : i.bare.parts = i.parts ∧ i.bare.condition = i.condition := by
  have hplace (p : Place) : p.bare.parts = p.parts := by
    cases p <;> rfl
  cases i <;> simp [Instruction.bare, Instruction.parts, Instruction.condition, hplace]

/-- A code that may write a part is one of those of the part, as it stands or behind an index byte
that makes no difference to it. -/
theorem mem_codes (hcode : Codes code i) (hp : p ∈ i.parts) (hpc : p ≠ .pc)
    (hcondition : i.condition = none) : code ∈ p.codes ∨ code.dropWhile isIndexByte ∈ p.codes := by
  have htable := Codes.of_checks (p := fun code i => i.condition.isSome || i.parts.all fun p =>
    p == .pc || p.codes.contains code || p.codes.contains (code.dropWhile isIndexByte))
      (by decide +kernel) hcode
  simp only [hcondition, Option.isSome_none, Bool.false_or, List.all_eq_true, Bool.or_eq_true,
    beq_iff_eq, List.contains_iff_mem] at htable
  rcases htable p hp with (heq | hmem) | hmem
  · exact absurd heq hpc
  · exact .inl hmem
  · exact .inr hmem

/-- The bytes of an instruction that may change a part, under no condition, begin with one of the
codes of the part. -/
theorem exists_opens (h : Means bytes i) (hp : p ∈ i.parts) (hpc : p ≠ .pc)
    (hcondition : i.condition = none) : ∃ code ∈ p.codes, Opens bytes code := by
  obtain ⟨code, hcode, hopens⟩ := h.exists_code
  rw [← (parts_bare i).1] at hp
  rw [← (parts_bare i).2] at hcondition
  rcases mem_codes hcode hp hpc hcondition with hmem | hmem
  · exact ⟨code, hmem, hopens⟩
  · exact ⟨_, hmem, hopens.dropWhile⟩

end Part

/-- Conditional calls and returns have one code for each condition. -/
theorem Means.exists_conditional {bytes : List UInt8} {i : Instruction} {cc : Condition}
    (h : Means bytes i) (hcc : i.condition = some cc) :
    ∃ op y, cc = Condition.select y ∧
      (Opcode.HasFields op 3 y 0 ∨ Opcode.HasFields op 3 y 4) ∧ Opens bytes [op] := by
  obtain ⟨code, htable, hopens⟩ := h.exists_checked (p := fun code i => i.condition.all fun cc =>
    match code with
    | [op] => cc == Condition.select (Opcode.y op) &&
      (Opcode.HasFields op 3 (Opcode.y op) 0 || Opcode.HasFields op 3 (Opcode.y op) 4)
    | _ => false) (by decide +kernel)
  rw [(Part.parts_bare i).2, hcc] at htable
  match code with
  | [op] =>
    simp only [Option.all_some, Bool.and_eq_true, beq_iff_eq, Bool.or_eq_true,
      decide_eq_true_eq] at htable
    exact ⟨op, _, htable.1, htable.2, hopens⟩
  | [] | _ :: _ :: _ => cases htable

/-! ## Every instruction -/

theorem Part.view_r {p : Part} (h : p ≠ .r) (s : Registers) (v : UInt8) :
    p.view { s with r := v } = p.view s := by
  cases p <;> first | rfl | contradiction

namespace Exec

/-- What the instruction with these bytes leaves alone: the registers outside the bank in use are
those of `r` before it and of `r'` after it. -/
structure RegisterFrame (config : Config) (bytes : List UInt8) (r r' : Registers) : Prop where
  /-- EX AF,AF'. -/
  altAF : ¬Opens bytes [0x08] → r'.alt.a = r.alt.a ∧ r'.alt.f = r.alt.f
  /-- EXX. -/
  altPairs : ¬Opens bytes [0xD9] →
    r'.alt.bc = r.alt.bc ∧ r'.alt.de = r.alt.de ∧ r'.alt.hl = r.alt.hl
  /-- The last index byte before the opcode tells which index register can change. -/
  index : ∀ x : Index, (∀ op ∈ Page.indexTargets, ¬Opens bytes [x.lead, op]) →
    r'.index x = r.index x
  /-- LD I,A. -/
  interrupt : ¬Opens bytes [0xED, 0x47] → r'.i = r.i
  /-- Without LD R,A, opcode fetches alone are counted in R, if the configuration says so. -/
  refresh : ¬Opens bytes [0xED, 0x4F] → ∃ opcodes, 1 ≤ opcodes ∧ opcodes ≤ bytes.length ∧
    r'.r = if config.incrementRefresh then (Registers.refresh^[opcodes] r).r else r.r
  /-- DI, EI and RETN. -/
  enables : ¬Opens bytes [0xF3] → ¬Opens bytes [0xFB] → ¬Opens bytes [0xED, 0x45] →
    r'.iff1 = r.iff1 ∧ r'.iff2 = r.iff2
  /-- IM. -/
  mode : (∀ op ∈ [0x46, 0x56, 0x5E], ¬Opens bytes [0xED, op]) → r'.im = r.im
  /-- HALT. -/
  halted : ¬Opens bytes [0x76] → r'.halted = r.halted
  /-- Loads and counting of SP, the stack, restarts, and calls and returns where they are taken. -/
  sp : (∀ code ∈ Page.stackCodes, ¬Opens bytes code) →
    (∀ op y, Opcode.HasFields op 3 y 0 ∨ Opcode.HasFields op 3 y 4 →
      codedCondition r.f y = true → ¬Opens bytes [op]) →
    r'.sp = r.sp

variable {β ω : Type} [Bus β] [Observer ω]

/-- A conditional call or return that is not taken does nothing. -/
theorem perform_of_condition {i : Instruction} {cc : Condition} {m : Machine β ω}
    (hcc : i.condition = some cc) (h : cc.holds m.cpu.regs.f = false) :
    (perform i m).2 = m := by
  cases i with
  | call cc' nn | ret cc' =>
    obtain rfl : cc' = some cc := hcc
    exact congrArg Prod.snd (if_false_apply h _ m)
  | _ => cases hcc

/-- Only the stack pointer and the program counter are changed under a condition. -/
theorem eq_sp_of_condition {i : Instruction} {cc : Condition} {p : Part}
    (hcc : i.condition = some cc) (hp : p ∈ i.parts) (hpc : p ≠ .pc) : p = .sp := by
  cases i with
  | call cc' nn | ret cc' => simpa [Instruction.parts, hpc] using hp
  | _ => cases hcc

section

variable {m : Machine β ω} {bytes : List UInt8} {opcodes : Nat}
  (hgathered : Gathered m (fetched m) bytes opcodes)
include hgathered

/-- An instruction that changes a part has one of the codes of the part. It can also be a call or
return whose condition holds, which changes the stack pointer. -/
theorem opens_of_changed {p : Part} (hpc : p ≠ .pc)
    (hchanged : p.view (runOne m).2.cpu.regs ≠ p.view (fetched m).cpu.regs) :
    (∃ code ∈ p.codes, Opens bytes code) ∨
      p = .sp ∧ ∃ op y, (Opcode.HasFields op 3 y 0 ∨ Opcode.HasFields op 3 y 4) ∧
        codedCondition m.cpu.regs.f y = true ∧ Opens bytes [op] := by
  cases hnext : upcoming m with
  | none =>
    rw [runOne_of_upcoming_none hnext] at hchanged
    exact absurd rfl hchanged
  | some i =>
    rw [runOne_of_upcoming hnext] at hchanged
    have hp : p ∈ i.parts := by
      by_contra hp
      exact hchanged (keeps_part_perform hp _)
    obtain ⟨bytes', opcodes', hmeans, hgathered'⟩ := means_upcoming hnext
    obtain rfl : bytes' = bytes :=
      congrArg Current.bytes (hgathered'.current.symm.trans hgathered.current)
    cases hcc : i.condition with
    | none => exact .inl (Part.exists_opens hmeans hp hpc hcc)
    | some cc =>
      obtain ⟨op, y, rfl, hfields, hopens⟩ := hmeans.exists_conditional hcc
      refine .inr ⟨eq_sp_of_condition hcc hp hpc, op, y, hfields, ?_, hopens⟩
      have hf : (fetched m).cpu.regs.f = m.cpu.regs.f := by
        rw [regs_fetched]
      -- were the condition false, nothing would have changed
      by_contra hnot
      rw [← codedCondition_select, ← hf, Bool.not_eq_true] at hnot
      rw [perform_of_condition hcc hnot] at hchanged
      exact hchanged rfl

theorem view_runOne_of_not_opens {p : Part} (hpc : p ≠ .pc) (hr : p ≠ .r) (hsp : p ≠ .sp)
    (h : ∀ code ∈ p.codes, ¬Opens bytes code) :
    p.view (runOne m).2.cpu.regs = p.view m.cpu.regs := by
  by_contra hchanged
  rw [← view_fetched (Part.view_pc · hpc) (Part.view_r hr) m] at hchanged
  rcases opens_of_changed hgathered hpc hchanged with ⟨code, hcode, hopens⟩ | ⟨rfl, -⟩
  · exact h code hcode hopens
  · exact hsp rfl

/-- Only LD R,A does to R what fetching has not done. -/
theorem r_runOne_of_gathered (h : ¬Opens bytes [0xED, 0x4F]) :
    (runOne m).2.cpu.regs.r = (fetched m).cpu.regs.r := by
  have hview : Part.r.view (runOne m).2.cpu.regs = Part.r.view (fetched m).cpu.regs := by
    by_contra hchanged
    rcases opens_of_changed hgathered (by decide) hchanged with hcode | ⟨hsp, -⟩
    · simp [Part.codes, h] at hcode
    · cases hsp
  exact congrArg (·.r) hview

theorem registerFrame_of_gathered :
    RegisterFrame m.cpu.config bytes m.cpu.regs (runOne m).2.cpu.regs := by
  have hkept {p : Part} := view_runOne_of_not_opens hgathered (p := p)
  constructor
  case altAF =>
    intro h
    have hview := hkept (p := .altAF) (by decide) (by decide) (by decide)
      (by simp [Part.codes, h])
    exact ⟨congrArg (·.alt.a) hview, congrArg (·.alt.f) hview⟩
  case altPairs =>
    intro h
    have hview := hkept (p := .altPairs) (by decide) (by decide) (by decide)
      (by simp [Part.codes, h])
    exact ⟨congrArg (·.alt.bc) hview, congrArg (·.alt.de) hview, congrArg (·.alt.hl) hview⟩
  case index =>
    intro x h
    have hview := hkept (p := .index x) (by simp) (by simp) (by simp)
      (by simpa [Part.codes] using h)
    cases x with
    | ix => exact congrArg (·.ix) hview
    | iy => exact congrArg (·.iy) hview
  case interrupt =>
    intro h
    have hview := hkept (p := .i) (by decide) (by decide) (by decide)
      (by simp [Part.codes, h])
    exact congrArg (·.i) hview
  case refresh =>
    intro h
    refine ⟨opcodes, hgathered.one_le, hgathered.le, ?_⟩
    rw [r_runOne_of_gathered hgathered h, hgathered.regs]
    rfl
  case enables =>
    intro hdi hei hretn
    have hview := hkept (p := .enables) (by decide) (by decide) (by decide)
      (by simp [Part.codes, hdi, hei, hretn])
    exact ⟨congrArg (·.iff1) hview, congrArg (·.iff2) hview⟩
  case mode =>
    intro h
    have hview := hkept (p := .mode) (by decide) (by decide) (by decide)
      (by simpa [Part.codes] using h)
    exact congrArg (·.im) hview
  case halted =>
    intro h
    have hview := hkept (p := .halted) (by decide) (by decide) (by decide)
      (by simp [Part.codes, h])
    exact congrArg (·.halted) hview
  case sp =>
    intro hcodes htaken
    have hfetched : Part.sp.view (fetched m).cpu.regs = Part.sp.view m.cpu.regs :=
      view_fetched (fun _ _ => rfl) (fun _ _ => rfl) m
    have hview : Part.sp.view (runOne m).2.cpu.regs = Part.sp.view m.cpu.regs := by
      by_contra hchanged
      rw [← hfetched] at hchanged
      rcases opens_of_changed hgathered (by decide) hchanged with
        ⟨code, hcode, h⟩ | ⟨-, op, y, hop, hf, h⟩
      · exact hcodes code hcode h
      · exact htaken op y hop hf h
    exact congrArg (·.sp) hview

end

theorem registerFrame_runOne (m : Machine β ω) :
    RegisterFrame m.cpu.config (runOne m).2.cpu.current.bytes m.cpu.regs
      (runOne m).2.cpu.regs := by
  obtain ⟨bytes, opcodes, hgathered⟩ := gathered_fetched m
  rw [current_runOne, hgathered.current]
  exact registerFrame_of_gathered hgathered

/-! ## Runs between two exchanges -/

/-- EXX takes the six general registers from the alternate bank, and puts them there. -/
theorem serve_exchangeBanks {m : Machine β ω} (h : executedFor (.step 1) m = [.exchangeBanks]) :
    (serve (.step 1) m).2.cpu.regs = (fetched m).cpu.regs.exchangeBanks := by
  unfold executedFor at h
  split at h
  · next count hcount hfault =>
    cases hcount
    rw [executedIn] at h
    split at h
    · cases h
    · next hhalted =>
      cases hnext : upcoming m with
      | none =>
        rw [hnext] at h
        cases h
      | some i =>
        rw [hnext] at h
        obtain rfl : i = .exchangeBanks := (List.cons.inj h).1
        rw [serve_step, step_of_running 1 hfault, run_succ, if_neg hhalted,
          runOne_of_upcoming hnext]
        rfl
  · cases h

/-- Only EXX reaches the general registers of the alternate bank, so they come back from it as
they were put there. -/
theorem pairs_exchanged {m : Machine β ω} {requests : List Request} (hreset : .reset ∉ requests) :
    let m₁ := (serve (.step 1) m).2
    let m₂ := (session requests m₁).2
    executedFor (.step 1) m = [.exchangeBanks] → .exchangeBanks ∉ executed requests m₁ →
      executedFor (.step 1) m₂ = [.exchangeBanks] →
      let r := (serve (.step 1) m₂).2.cpu.regs
      r.bc = m.cpu.regs.bc ∧ r.de = m.cpu.regs.de ∧ r.hl = m.cpu.regs.hl := by
  intro m₁ m₂ hfirst hbetween hsecond r
  have hkept : Part.altPairs.view m₂.cpu.regs = Part.altPairs.view m₁.cpu.regs := by
    refine view_session (fun _ _ => rfl) (fun _ _ => rfl) hreset fun i hi => ?_
    exact keeps_part_perform (Part.notMem_parts_of_ne rfl fun heq => hbetween (heq ▸ hi))
  have hr : r = (fetched m₂).cpu.regs.exchangeBanks := serve_exchangeBanks hsecond
  have hm₁ : m₁.cpu.regs = (fetched m).cpu.regs.exchangeBanks := serve_exchangeBanks hfirst
  rw [regs_fetched] at hr hm₁
  rw [hm₁] at hkept
  rw [hr]
  exact ⟨congrArg (·.alt.bc) hkept, congrArg (·.alt.de) hkept, congrArg (·.alt.hl) hkept⟩

/-- On any bus, an instruction changes a register outside the bank in use under the codes of that
register alone. So two EXX, with no other between them, give back BC, DE and HL. -/
theorem register_frame (m : Machine β ω) :
    RegisterFrame m.cpu.config (runOne m).2.cpu.current.bytes m.cpu.regs
        (runOne m).2.cpu.regs ∧
      ∀ requests : List Request, .reset ∉ requests →
        let m₁ := (serve (.step 1) m).2
        let m₂ := (session requests m₁).2
        executedFor (.step 1) m = [.exchangeBanks] → .exchangeBanks ∉ executed requests m₁ →
          executedFor (.step 1) m₂ = [.exchangeBanks] →
          let r := (serve (.step 1) m₂).2.cpu.regs
          r.bc = m.cpu.regs.bc ∧ r.de = m.cpu.regs.de ∧ r.hl = m.cpu.regs.hl :=
  ⟨registerFrame_runOne m, fun _ hreset => pairs_exchanged hreset⟩

/-- LD B,n between two EXX. -/
theorem register_frame_loadB :
    let bus : Scripted Board :=
      { inner := {}, script := [(0, 0xD9), (1, 0x06), (2, 0x05), (3, 0xD9)] }
    let m : Machine (Scripted Board) Unit := ⟨{ regs := { b := 1, e := 2 } }, bus, ()⟩
    let m₁ := (serve (.step 1) m).2
    let m₂ := (session [.step 1] m₁).2
    let r := (serve (.step 1) m₂).2.cpu.regs
    m₂.cpu.regs.bc = 0x0500 ∧ r.bc = 0x0100 ∧ r.de = 0x0002 ∧
      (runOne m).2.cpu.regs.im = m.cpu.regs.im := by
  intro bus m m₁ m₂ r
  have hfirst : executedFor (.step 1) m = [.exchangeBanks] := by
    decide +kernel
  have hbetween : executed [.step 1] m₁ = [.load (.reg .b) (.imm 5)] := by
    decide +kernel
  have hsecond : executedFor (.step 1) m₂ = [.exchangeBanks] := by
    decide +kernel
  have hbytes : (runOne m).2.cpu.current.bytes = [0xD9] := by
    decide +kernel
  obtain ⟨hframe, hrun⟩ := register_frame m
  obtain ⟨hbc, hde, -⟩ := hrun [.step 1] (by decide) hfirst (by rw [hbetween]; decide) hsecond
  rw [hbytes] at hframe
  exact ⟨by decide +kernel, hbc, hde, hframe.mode (by decide +kernel)⟩

end Exec

end Z80
