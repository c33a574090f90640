import Z80.Proofs.FetchedBytes
import Z80.Proofs.FlagFrame
import Z80.Proofs.RefreshOption

/-!
# Flags by code

The class of an instruction among the flags is told by its opcode. The tables of the pages are
written out here, and an index byte before an opcode makes no difference to them, except that the
opcode of a displaced bit operation is the last of four bytes.

Main definitions:
- `Page.baseFlags`, `Page.cbFlags`, `Page.edFlags`: the flags that an opcode of a page may change.
- `codedFlags`: the flags that the instruction with given bytes may change.

Main statements: `Means.flags_eq` compares the tables with the instructions that bytes mean;
`flag_runOne_of_codes` is about whole instructions, `flag_session_of_codes` and
`bits_session_of_codes` are about sessions.
-/

namespace Z80

/-! ## The tables -/

namespace Page

/-- EX AF,AF' and POP AF bring in a whole flag byte. The other classes are DAA, CPL, the
rotations of A with SCF, CCF and ADD HL, INC and DEC of a byte, and the operations on A. -/
def baseFlags (op : UInt8) : List Flag :=
  if op ∈ [0x08, 0xF1] then Flag.all
  else if op = 0x27 then [.s, .z, .h, .p, .c]
  else if op = 0x2F then [.h, .n]
  else if op ∈ [0x07, 0x0F, 0x17, 0x1F, 0x37, 0x3F, 0x09, 0x19, 0x29, 0x39] then [.h, .n, .c]
  else if op ∈ [0x04, 0x0C, 0x14, 0x1C, 0x24, 0x2C, 0x34, 0x3C,
      0x05, 0x0D, 0x15, 0x1D, 0x25, 0x2D, 0x35, 0x3D] then [.s, .z, .h, .p, .n]
  else if 0x80 ≤ op ∧ op < 0xC0 ∨ op ∈ [0xC6, 0xCE, 0xD6, 0xDE, 0xE6, 0xEE, 0xF6, 0xFE] then
    [.s, .z, .h, .p, .n, .c]
  else []

/-- Shifts, then BIT, then RES and SET. -/
def cbFlags (op : UInt8) : List Flag :=
  if op < 0x40 then [.s, .z, .h, .p, .n, .c]
  else if op < 0x80 then [.z, .h, .n]
  else []

/-- NEG with ADC HL and SBC HL, IN r,(C) with LD A,I, LD A,R, RRD, RLD and the searches, the block
loads, and the block transfers through ports. -/
def edFlags (op : UInt8) : List Flag :=
  if op ∈ [0x44, 0x4A, 0x5A, 0x6A, 0x7A, 0x42, 0x52, 0x62, 0x72] then [.s, .z, .h, .p, .n, .c]
  else if op ∈ [0x40, 0x48, 0x50, 0x58, 0x60, 0x68, 0x78, 0x57, 0x5F, 0x67, 0x6F,
      0xA1, 0xA9, 0xB1, 0xB9] then [.s, .z, .h, .p, .n]
  else if op ∈ [0xA0, 0xA8, 0xB0, 0xB8] then [.h, .p, .n]
  else if op ∈ [0xA2, 0xAA, 0xB2, 0xBA, 0xA3, 0xAB, 0xB3, 0xBB] then [.z, .n]
  else []

end Page

/-- The flags that the instruction with these bytes may change. -/
def codedFlags : List UInt8 → List Flag
  | [] => []
  | [op] => Page.baseFlags op
  | lead :: op :: rest =>
    if isIndexByte lead then
      -- a displacement stands before the opcode of a bit operation
      if op = 0xCB then (rest[1]?).elim [] Page.cbFlags else codedFlags (op :: rest)
    else if lead = 0xCB then Page.cbFlags op
    else if lead = 0xED then Page.edFlags op
    else Page.baseFlags lead

section Lookup

variable {op : UInt8} {rest : List UInt8}

/-- Without an index byte, CB or ED in front an opcode is one of the base page. -/
theorem codedFlags_base (hindex : isIndexByte op = false) (hcb : op ≠ 0xCB) (hed : op ≠ 0xED) :
    codedFlags (op :: rest) = Page.baseFlags op := by
  cases rest with
  | nil => rfl
  | cons v rest =>
    rw [codedFlags, hindex, if_neg Bool.false_ne_true, if_neg hcb, if_neg hed]

theorem codedFlags_lead (x : Index) (hcb : op ≠ 0xCB) :
    codedFlags (x.lead :: op :: rest) = codedFlags (op :: rest) := by
  rw [codedFlags, isIndexByte_lead, if_pos rfl, if_neg hcb]

end Lookup

/-! ## What the pages say -/

namespace Instruction

theorem flags_bare (i : Instruction) : i.bare.flags = i.flags := by
  cases i <;> rfl

end Instruction

/-- The tables hold of all codes but those of displaced bit operations, which end before the
opcode. -/
theorem Codes.flags_eq {code : List UInt8} {i : Instruction} (h : Codes code i)
    (hbits : code ∉ [[0xDD, 0xCB], [0xFD, 0xCB]]) : i.flags = codedFlags code := by
  have htable := Codes.of_checks (p := fun code i =>
    i.flags == codedFlags code || code ∈ [[0xDD, 0xCB], [0xFD, 0xCB]]) (by decide +kernel) h
  rw [Bool.or_eq_true, decide_eq_true_eq, beq_iff_eq] at htable
  exact htable.resolve_right hbits

/-- The class of a bit operation does not depend on its operand. -/
theorem flags_bitOperation (op : UInt8) (p : Place) (copy : Option Reg8) :
    (Page.bitOperation op p copy).flags = Page.cbFlags op := by
  have hcb : (Page.cb op).flags = Page.cbFlags op := (Codes.cb op).flags_eq (by simp)
  rw [← hcb, Page.cb]
  unfold Page.bitOperation
  split <;> rfl

/-- The class of an instruction can be looked up under its bytes. -/
theorem Means.flags_eq {bytes : List UInt8} {i : Instruction} (h : Means bytes i) :
    i.flags = codedFlags bytes := by
  induction h with
  | @plain op d operands i hop hends =>
    have hcb : op ≠ 0xCB := by
      rintro rfl
      cases hop
    have hed : op ≠ 0xED := by
      rintro rfl
      cases hop
    rw [codedFlags_base (isIndexByte_of_plain hop) hcb hed, ← i.flags_bare,
      (all_bare_base hop).ends hends]
    exact (Codes.plain hop).flags_eq (by simp)
  | cb op => exact flags_bitOperation op _ _
  | @ed op d operands i hop hends =>
    rw [← i.flags_bare, (all_bare_ed hop).ends hends]
    exact (Codes.ed hop).flags_eq (by simp)
  | @index x op d operands i hop hends =>
    -- the code of a displaced bit operation ends before its opcode, so its bytes are taken apart
    by_cases hcb : op = 0xCB
    · subst hcb
      obtain rfl := Option.some.inj ((index_bits x).symm.trans hop)
      cases hends with
      | operand hends => cases hends with
        | operand hends =>
          cases hends
          rw [codedFlags, isIndexByte_lead, if_pos rfl, if_pos rfl]
          exact flags_bitOperation _ _ _
    · have hed : op ≠ 0xED := by
        rintro rfl
        cases x <;> cases hop
      have hbits : [x.lead, op] ∉ [[0xDD, 0xCB], [0xFD, 0xCB]] := by
        simp [hcb]
      have hentry := (Codes.index hop).flags_eq hbits
      rw [codedFlags_lead x hcb] at hentry ⊢
      rw [codedFlags_base (isIndexByte_of_index hop) hcb hed, ← i.flags_bare,
        (all_bare_index hop hcb).ends hends]
      exact hentry
  | superseded x => cases x <;> rfl
  | @lead x op bytes i hop _ ih =>
    have hcb : op ≠ 0xCB := by
      rintro rfl
      cases hop
    rw [codedFlags_lead x hcb, ih]

/-- A whole flag byte comes from the alternate bank or from the stack. -/
theorem Means.opens_of_flagByte {bytes : List UInt8} {i : Instruction} (h : Means bytes i)
    (hi : i = .exchangeAF ∨ i = .pop .af) : Opens bytes [0x08] ∨ Opens bytes [0xF1] := by
  obtain ⟨code, htable, hopens⟩ := h.exists_checked (p := fun code i =>
    (i != .exchangeAF || code == [0x08]) && (i != .pop .af || code == [0xF1])) (by decide +kernel)
  rcases hi with rfl | rfl
  · have hexchange : code = [0x08] := by
      simpa [Instruction.bare] using htable
    exact .inl (hexchange ▸ hopens)
  · have hpop : code = [0xF1] := by
      simpa [Instruction.bare] using htable
    exact .inr (hpop ▸ hopens)

namespace Exec

variable {β ω : Type} [Bus β] [Observer ω] {g : Flag}

/-! ## Whole instructions and sessions -/

/-- On any bus an instruction changes no flag but those under its bytes, and neither do bytes
without a meaning. -/
theorem flag_runOne_of_codes {m : Machine β ω}
    (h : g ∉ codedFlags (runOne m).2.cpu.current.bytes) :
    g.isSet (runOne m).2.cpu.regs.f = g.isSet m.cpu.regs.f := by
  let bit (r : Registers) : Bool := g.isSet r.f
  have hkept : ∀ i, upcoming m = some i → Keeps bit (perform i : Exec β ω Unit) := by
    intro i hi
    rw [← (means_current hi).flags_eq] at h
    exact keeps_flag_perform (Instruction.onEveryPage_writesAF.upcoming hi) h
  exact view_runOne (fun _ _ => rfl) (fun _ _ => rfl) hkept

/-- A flag outlasts every session that neither resets nor begins an instruction with the flag
under its bytes. -/
theorem flag_session_of_codes {requests : List Request} {m : Machine β ω}
    (hreset : .reset ∉ requests) (h : ∀ bytes ∈ begun requests m, g ∉ codedFlags bytes) :
    g.isSet (session requests m).2.cpu.regs.f = g.isSet m.cpu.regs.f := by
  apply flag_session hreset
  intro i hi
  obtain ⟨bytes, hbytes, hmeans⟩ := exists_means_of_executed hi
  rw [hmeans.flags_eq]
  exact h bytes hbytes

/-- Bits 3 and 5 of F outlast every session without a reset, EX AF,AF' and POP AF. -/
theorem bits_session_of_codes {requests : List Request} {m : Machine β ω}
    (hreset : .reset ∉ requests)
    (h : ∀ bytes ∈ begun requests m, ¬Opens bytes [0x08] ∧ ¬Opens bytes [0xF1])
    (hg : g = .x ∨ g = .y) :
    g.isSet (session requests m).2.cpu.regs.f = g.isSet m.cpu.regs.f := by
  apply flag_session hreset
  intro i hi
  obtain ⟨bytes, hbytes, hmeans⟩ := exists_means_of_executed hi
  obtain ⟨hexchange, hpop⟩ := h bytes hbytes
  have hplain : ¬(i = .exchangeAF ∨ i = .pop .af) := fun hwhole =>
    (hmeans.opens_of_flagByte hwhole).elim hexchange hpop
  rw [not_or] at hplain
  exact Instruction.notMem_flags hplain.2 hplain.1 hg

end Exec

end Z80
