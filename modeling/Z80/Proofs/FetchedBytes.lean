import Z80.Proofs.RegisterFrame

/-!
# The bytes that tell an instruction

The bytes that the processor keeps as those of an instruction tell which one it was, on any bus.
So what an instruction does can be looked up under its bytes. For the program counter this is done
here: it ends behind them, unless they begin with the code of a jump, call or return.

Main definitions:
- `Lead.Tells`: what bytes mean, by what the first of them opens.
- `Page.transferCodes`: the codes that jump, call or return under no condition.
- `Opcode.Tests`: the opcodes that do so under a condition.

Main statements: `Means.unique` says that bytes mean one instruction at most, `upcoming_of_means`
that a machine performs the one that its bytes mean, and `pc_runOne_of_codes` where the program
counter ends.
-/

namespace Z80

/-! ## One meaning at most -/

theorem Decoding.Ends.unique {d : Decoding} {bytes : List UInt8} {i j : Instruction}
    (h : d.Ends bytes i) (h' : d.Ends bytes j) : i = j := by
  induction h with
  | done i =>
    cases h'
    rfl
  | operand _ ih =>
    cases h' with
    | operand h' => exact ih h'

/-- What the bytes behind the first one say, if it opens this. -/
def Lead.Tells (lead : Lead) (rest : List UInt8) (i : Instruction) : Prop :=
  match lead with
  | .plain d => d.Ends rest i
  | .cb => ∃ op, rest = [op] ∧ i = Page.cb op
  | .ed => ∃ op d operands, rest = op :: operands ∧ Page.ed op = some d ∧ d.Ends operands i
  | .index x => rest = [] ∧ i = .nop ∨ ∃ op operands, rest = op :: operands ∧
      ((∃ d, Page.index x op = some d ∧ d.Ends operands i) ∨
        Page.index x op = none ∧ Means rest i)

namespace Means

variable {v : UInt8} {bytes : List UInt8} {i j : Instruction}

theorem tells (h : Means (v :: bytes) i) : (Lead.ofByte v).Tells bytes i := by
  cases h with
  | plain hop hends =>
    rw [hop]
    exact hends
  | cb op => exact ⟨op, rfl, rfl⟩
  | ed hop hends => exact ⟨_, _, _, rfl, hop, hends⟩
  | index hop hends =>
    rw [Lead.ofByte_lead]
    exact .inr ⟨_, _, rfl, .inl ⟨_, hop, hends⟩⟩
  | superseded x =>
    rw [Lead.ofByte_lead]
    exact .inl ⟨rfl, rfl⟩
  | lead hop hrest =>
    rw [Lead.ofByte_lead]
    exact .inr ⟨_, _, rfl, .inr ⟨hop, hrest⟩⟩

/-- Behind an index byte the page tells the instruction, or the bytes mean what they mean without
it. -/
theorem tells_index {x : Index} {op : UInt8} (h : Means (x.lead :: op :: bytes) i) :
    (∃ d, Page.index x op = some d ∧ d.Ends bytes i) ∨
      Page.index x op = none ∧ Means (op :: bytes) i := by
  have htells := h.tells
  rw [Lead.ofByte_lead] at htells
  rcases htells with ⟨hnil, -⟩ | ⟨op', operands, heq, hrest⟩
  · cases hnil
  · cases heq
    exact hrest

theorem unique (h : Means bytes i) (h' : Means bytes j) : i = j := by
  induction h with
  | plain hop hends =>
    have htells := h'.tells
    rw [hop] at htells
    exact hends.unique htells
  | cb op =>
    obtain ⟨op', heq, rfl⟩ := h'.tells
    cases heq
    rfl
  | ed hop hends =>
    obtain ⟨op', d, operands, heq, hop', hends'⟩ := h'.tells
    cases heq
    cases hop.symm.trans hop'
    exact hends.unique hends'
  | index hop hends =>
    rcases h'.tells_index with ⟨d, hop', hends'⟩ | ⟨hop', -⟩
    · cases hop.symm.trans hop'
      exact hends.unique hends'
    · cases hop.symm.trans hop'
  | superseded x =>
    have htells := h'.tells
    rw [Lead.ofByte_lead] at htells
    rcases htells with ⟨-, rfl⟩ | ⟨op, operands, heq, -⟩
    · rfl
    · cases heq
  | lead hop _ ih =>
    rcases h'.tells_index with ⟨d, hop', -⟩ | ⟨-, hrest⟩
    · cases hop.symm.trans hop'
    · exact ih hrest

end Means

/-- Bytes without a meaning mean no instruction. -/
theorem Meaningless.not_means {bytes : List UInt8} (h : Meaningless bytes) (i : Instruction) :
    ¬Means bytes i := by
  intro hmeans
  induction h with
  | @ed u hu =>
    obtain ⟨op, d, operands, heq, hop, -⟩ := hmeans.tells
    cases heq
    rw [(Page.ed_eq_none_iff u).mpr hu] at hop
    cases hop
  | lead x h ih =>
    -- neither ED nor an index byte is on an index page
    cases h with
    | ed hu =>
      rcases hmeans.tells_index with ⟨d, hop, -⟩ | ⟨-, hrest⟩
      · cases x <;> cases hop
      · exact ih hrest
    | lead y h =>
      rcases hmeans.tells_index with ⟨d, hop, -⟩ | ⟨-, hrest⟩
      · have hindex := isIndexByte_of_index hop
        rw [isIndexByte_lead] at hindex
        cases hindex
      · exact ih hrest

/-! ## Codes of transfers -/

/-- The codes that jump, call or return under no condition: JP, JR, CALL and RET, RST, JP (HL) with
its index forms, and behind ED the two returns. -/
def Page.transferCodes : List (List UInt8) :=
  [[0xC3], [0x18], [0xCD], [0xC9], [0xC7], [0xCF], [0xD7], [0xDF], [0xE7], [0xEF], [0xF7], [0xFF],
   [0xE9], [0xED, 0x45], [0xED, 0x4D]]

/-- The opcode is that of a return, jump or call under the condition of the code `k`. -/
inductive Opcode.Tests (op : UInt8) (k : Fin 8) : Prop
  | ret (h : HasFields op 3 k 0)
  | jump (h : HasFields op 3 k 2)
  | call (h : HasFields op 3 k 4)
  | jumpRelative (hk : k < 4) (h : HasFields op 0 (k + 4) 0)

namespace Instruction

/-- The condition under which an instruction jumps, calls or returns, if it names one. -/
def test : Instruction → Option Condition
  | .jump cc _ | .jumpRelative cc _ | .call cc _ | .ret cc => cc
  | _ => none

/-- Does the instruction jump, call or return under no condition? -/
def alwaysTransfers : Instruction → Bool
  | .jump none _ | .jumpRelative none _ | .call none _ | .ret none => true
  | .jumpTo _ | .retn | .reti | .rst _ => true
  | _ => false

theorem test_bare (i : Instruction) :
    i.bare.test = i.test ∧ i.bare.alwaysTransfers = i.alwaysTransfers := by
  cases i with
  | jump cc nn | jumpRelative cc d | call cc nn => cases cc <;> exact ⟨rfl, rfl⟩
  | _ => exact ⟨rfl, rfl⟩

/-- A transfer takes place under no condition, under a flag that is as it should be, or because B
has not run out. -/
theorem transfers_cases {i : Instruction} {r : Registers} (h : i.transfers r = true) :
    i.alwaysTransfers = true ∨ (∃ cc, i.test = some cc ∧ cc.holds r.f = true) ∨
      (∃ d, i = .djnz d) ∧ r.b ≠ 1 := by
  cases i with
  | jump cc nn | jumpRelative cc d | call cc nn | ret cc =>
    cases cc with
    | none => exact .inl rfl
    | some cc => exact .inr (.inl ⟨cc, rfl, h⟩)
  | djnz d =>
    have hcount : (r.b - 1 != 0) = true := h
    have hb : r.b ≠ 1 := by
      intro hb
      rw [hb] at hcount
      exact absurd hcount (by decide)
    exact .inr (.inr ⟨⟨d, rfl⟩, hb⟩)
  | jumpTo x | retn | reti | rst target => exact .inl rfl
  | _ => cases h

end Instruction

namespace Means

variable {bytes : List UInt8} {i : Instruction} (h : Means bytes i)
include h

theorem exists_transfer_code (halways : i.alwaysTransfers = true) :
    ∃ code ∈ Page.transferCodes, Opens bytes code := by
  obtain ⟨code, htable, hopens⟩ := h.exists_checked (p := fun code i => !i.alwaysTransfers ||
    Page.transferCodes.contains (code.dropWhile isIndexByte)) (by decide +kernel)
  rw [(Instruction.test_bare i).2, halways, Bool.not_true, Bool.false_or,
    List.contains_iff_mem] at htable
  exact ⟨_, htable, hopens.dropWhile⟩

theorem exists_tested {cc : Condition} (hcc : i.test = some cc) :
    ∃ op k, cc = Condition.select k ∧ Opcode.Tests op k ∧ Opens bytes [op] := by
  obtain ⟨code, htable, hopens⟩ := h.exists_checked (p := fun code i => i.test.all fun cc =>
    match code with
    | [op] =>
      let y := Opcode.y op
      cc == Condition.select y && (Opcode.HasFields op 3 y 0 || Opcode.HasFields op 3 y 2 ||
        Opcode.HasFields op 3 y 4) ||
      cc == Condition.select (y - 4) && y - 4 < 4 && Opcode.HasFields op 0 (y - 4 + 4) 0
    | _ => false) (by decide +kernel)
  rw [(Instruction.test_bare i).1, hcc] at htable
  match code with
  | [op] =>
    simp only [Option.all_some, Bool.and_eq_true, beq_iff_eq, Bool.or_eq_true,
      decide_eq_true_eq] at htable
    rcases htable with ⟨hselect, (hret | hjump) | hcall⟩ | ⟨⟨hselect, hk⟩, hrelative⟩
    · exact ⟨op, _, hselect, .ret hret, hopens⟩
    · exact ⟨op, _, hselect, .jump hjump, hopens⟩
    · exact ⟨op, _, hselect, .call hcall, hopens⟩
    · exact ⟨op, _, hselect, .jumpRelative hk hrelative, hopens⟩
  | [] | _ :: _ :: _ => cases htable

theorem opens_djnz (hdjnz : ∃ d, i = .djnz d) : Opens bytes [0x10] := by
  obtain ⟨d, rfl⟩ := hdjnz
  obtain ⟨code, htable, hopens⟩ := h.exists_checked
    (p := fun code i => i != .djnz 0 || code == [0x10]) (by decide +kernel)
  simp only [Instruction.bare, bne_self_eq_false, Bool.false_or, beq_iff_eq] at htable
  exact htable ▸ hopens

end Means

namespace Exec

variable {β ω : Type} [Bus β] [Observer ω] {m : Machine β ω} {i : Instruction}

/-! ## Whole instructions -/

/-- On any bus, the bytes that an instruction has taken in tell that it was the one they mean. -/
theorem upcoming_of_means (h : Means (runOne m).2.cpu.current.bytes i) : upcoming m = some i := by
  rw [current_runOne] at h
  cases hnext : upcoming m with
  | some j =>
    obtain ⟨bytes, opcodes, hmeans, hgathered⟩ := means_upcoming hnext
    rw [hgathered.current] at h
    rw [hmeans.unique h]
  | none =>
    obtain ⟨more, hmeaningless, htaken⟩ := dispatchWithin_none (taken_takeFirst m) hnext
    have hcurrent : (fetched m).cpu.current = ⟨m.cpu.regs.pc, _⟩ := htaken.current
    rw [hcurrent] at h
    exact absurd h (hmeaningless.not_means i)

/-- The bytes mean the instruction that has been performed. -/
theorem means_current (hi : upcoming m = some i) : Means (runOne m).2.cpu.current.bytes i := by
  obtain ⟨bytes, opcodes, hmeans, hgathered⟩ := means_upcoming hi
  rw [current_runOne, hgathered.current]
  exact hmeans

/-- On any bus the program counter ends behind the bytes of the instruction, whether it is
performed or fails, unless these begin with the code of a transfer that takes place. -/
theorem pc_runOne_of_codes (m : Machine β ω) :
    let bytes := (runOne m).2.cpu.current.bytes
    (∀ code ∈ Page.transferCodes, ¬Opens bytes code) →
    (∀ op k, Opcode.Tests op k → codedCondition m.cpu.regs.f k = true → ¬Opens bytes [op]) →
    (m.cpu.regs.b ≠ 1 → ¬Opens bytes [0x10]) →
    (runOne m).2.cpu.regs.pc = m.cpu.regs.pc + UInt16.ofNat bytes.length := by
  intro bytes hcodes htests hdjnz
  have hstays : ∀ i, upcoming m = some i → i.transfers m.cpu.regs = false := by
    intro i hi
    have hmeans : Means bytes i := means_current hi
    by_contra htransfers
    rw [Bool.not_eq_false] at htransfers
    rcases i.transfers_cases htransfers with halways | ⟨cc, hcc, hholds⟩ | ⟨hi, hb⟩
    · obtain ⟨code, hcode, hopens⟩ := hmeans.exists_transfer_code halways
      exact hcodes code hcode hopens
    · obtain ⟨op, k, rfl, hop, hopens⟩ := hmeans.exists_tested hcc
      rw [codedCondition_select] at hholds
      exact htests op k hop hholds hopens
    · exact hdjnz hb (hmeans.opens_djnz hi)
  obtain ⟨taken, opcodes, hgathered⟩ := gathered_fetched m
  have hbytes : bytes = taken := by
    show (runOne m).2.cpu.current.bytes = taken
    rw [current_runOne, hgathered.current]
  rw [pc_runOne hstays, hgathered.regs, hbytes]
  rfl

end Exec

end Z80
