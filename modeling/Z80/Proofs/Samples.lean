import Z80.Proofs.Meaning
import Z80.Proofs.Pages

/-!
# Instructions up to their operand bytes

Operand bytes fill in a value, a target or a displacement, and make no other difference. So what
holds of an instruction whatever its operand bytes are can be read off the opcode, and a table of
256 opcodes settles it for a page.

Main definitions:
- `Instruction.bare`: an instruction with zero for its operand bytes.
- `Decoding.sample`: the instruction that a decoding ends in for zero bytes.
- `Codes`: an opcode with the lead of its page, and the bare instruction that it spells.
- `Codes.checks`: a test of all codes with one opcode.

Main statements: `all_bare_base`, `all_bare_ed` and `all_bare_index` go through the pages once,
`Means.exists_code` finds the code of an instruction, `Codes.of_checks` tests all codes opcode by
opcode, `Means.exists_checked` does both, and `onEveryPage_of_codes` is for a property that the
operand bytes do not touch.
-/

namespace Z80

/-! ## Zero for operand bytes -/

/-- The address with zero for a displacement or for the bytes that give it. -/
def Address.bare : Address → Address
  | .indirect p => .indirect p
  | .displaced x _ => .displaced x 0
  | .absolute _ => .absolute 0

/-- The place with a bare address. -/
def Place.bare : Place → Place
  | .reg r => .reg r
  | .mem a => .mem a.bare

/-- The source with a bare place, or zero for an immediate value. -/
def Source.bare : Source → Source
  | .place p => .place p.bare
  | .imm _ => .imm 0

section

variable (a : Address) (p : Place) (x : Index) (d n : UInt8) (r : Reg8) (q : Reg16) (nn : UInt16)

@[simp] theorem Address.bare_indirect : (indirect q).bare = indirect q := rfl

@[simp] theorem Address.bare_displaced : (displaced x d).bare = displaced x 0 := rfl

@[simp] theorem Address.bare_absolute : (absolute nn).bare = absolute 0 := rfl

@[simp] theorem Place.bare_reg : (reg r).bare = reg r := rfl

@[simp] theorem Place.bare_mem : (mem a).bare = mem a.bare := rfl

@[simp] theorem Place.bare_select (n : Fin 8) : (select n).bare = select n := by
  revert n
  decide

@[simp] theorem Source.bare_place : (place p).bare = place p.bare := rfl

@[simp] theorem Source.bare_imm : (imm n).bare = imm 0 := rfl

end

/-- The instruction with zero for its operand bytes. -/
def Instruction.bare : Instruction → Instruction
  | .load dst src => .load dst.bare src.bare
  | .loadImm dst _ => .loadImm dst 0
  | .loadWord dst _ => .loadWord dst 0
  | .storeWord _ src => .storeWord 0 src
  | .alu op src => .alu op src.bare
  | .inc p => .inc p.bare
  | .dec p => .dec p.bare
  | .shift op p copy => .shift op p.bare copy
  | .bit n p => .bit n p.bare
  | .res n p copy => .res n p.bare copy
  | .set n p copy => .set n p.bare copy
  | .jump cc _ => .jump cc 0
  | .jumpRelative cc _ => .jumpRelative cc 0
  | .djnz _ => .djnz 0
  | .call cc _ => .call cc 0
  | .inA _ => .inA 0
  | .outA _ => .outA 0
  | i => i

/-- The instruction that a decoding ends in if all operand bytes are zero. -/
def Decoding.sample : Decoding → Instruction
  | .done i => i
  | .operand next => (next 0).sample

/-! ## Page by page -/

section Pages

variable {op : UInt8} {d : Decoding}

/-- The opcode of a bit operation says all but the place. -/
theorem bare_bitOperation (op : UInt8) (p : Place) (copy : Option Reg8) :
    (Page.bitOperation op p copy).bare = Page.bitOperation op p.bare copy := by
  unfold Page.bitOperation
  split <;> rfl

theorem bare_cb (op : UInt8) : (Page.cb op).bare = Page.cb op := by
  rw [Page.cb, bare_bitOperation, Place.bare_select]

theorem bare_displacedBits (x : Index) (d op : UInt8) :
    (Page.displacedBits x d op).bare = Page.displacedBits x 0 op :=
  bare_bitOperation op _ _

theorem join_zero : join 0 0 = 0 := rfl

theorem all_bare_base (h : Lead.ofByte op = .plain d) : d.All (·.bare = d.sample) := by
  unfold Lead.ofByte at h
  split at h
  · cases h
    unfold Page.quarter0
    split <;> (try split) <;>
      simp [Decoding.All, Decoding.byte, Decoding.word, Decoding.sample, Instruction.bare,
        join_zero]
  · cases h
    simp only [Page.quarter1]
    split <;> simp [Decoding.All, Decoding.sample, Instruction.bare]
  · cases h
    simp [Page.quarter2, Decoding.All, Decoding.sample, Instruction.bare]
  · unfold Page.quarter3 at h
    split at h <;> (try split at h) <;> cases h <;>
      simp [Decoding.All, Decoding.byte, Decoding.word, Decoding.sample, Instruction.bare,
        join_zero]

theorem all_bare_ed (h : Page.ed op = some d) : d.All (·.bare = d.sample) := by
  unfold Page.ed at h
  split at h
  · unfold Page.edControl at h
    split at h
    · obtain ⟨r, -, rfl⟩ := Option.map_eq_some_iff.mp h
      rfl
    · obtain ⟨r, -, rfl⟩ := Option.map_eq_some_iff.mp h
      rfl
    · cases h
      split <;> rfl
    · cases h
      split <;> exact fun _ _ => rfl
    all_goals
      split at h <;> cases h <;> rfl
  · split at h
    · obtain ⟨kind, -, rfl⟩ := Option.map_eq_some_iff.mp h
      rfl
    · cases h

/-- Behind an index byte and CB the last byte is an opcode of its own. -/
theorem all_bare_index {x : Index} (h : Page.index x op = some d) (hop : op ≠ 0xCB) :
    d.All (·.bare = d.sample) := by
  unfold Page.index at h
  split at h
  · unfold Page.indexQuarter0 at h
    split at h <;> (try split at h) <;> cases h <;>
      simp [Decoding.All, Page.displaced, Decoding.byte, Decoding.word, Decoding.sample,
        Instruction.bare, join_zero]
  · simp only [Page.indexQuarter1] at h
    split at h
    · cases h
    · cases h
      exact fun _ => rfl
    · cases h
      exact fun _ => rfl
    · split at h
      · obtain ⟨dst, -, h⟩ := Option.bind_eq_some_iff.mp h
        obtain ⟨src, -, h⟩ := Option.bind_eq_some_iff.mp h
        cases h
        rfl
      · cases h
  · unfold Page.indexQuarter2 at h
    split at h <;> cases h <;>
      simp [Decoding.All, Page.displaced, Decoding.byte, Decoding.sample, Instruction.bare]
  · unfold Page.indexQuarter3 at h
    split at h
    · exact absurd rfl hop
    all_goals
      cases h <;> rfl

theorem index_bits (x : Index) :
    Page.index x 0xCB = some (.operand fun d => .byte (Page.displacedBits x d)) := rfl

end Pages

/-! ## Codes -/

/-- The code, an opcode with the lead of its page, spells the bare instruction. Behind an index
byte and CB the opcode is the last byte, and the code ends before the displacement. -/
inductive Codes : List UInt8 → Instruction → Prop
  | plain {op : UInt8} {d : Decoding} (hop : Lead.ofByte op = .plain d) : Codes [op] d.sample
  | cb (op : UInt8) : Codes [0xCB, op] (Page.cb op)
  | ed {op : UInt8} {d : Decoding} (hop : Page.ed op = some d) : Codes [0xED, op] d.sample
  | index {x : Index} {op : UInt8} {d : Decoding} (hop : Page.index x op = some d) :
    Codes [x.lead, op] d.sample
  | indexBits (x : Index) (op : UInt8) : Codes [x.lead, 0xCB] (Page.displacedBits x 0 op)
  | superseded (x : Index) : Codes [x.lead] .nop

/-- Bytes that mean an instruction begin with its code, behind index bytes if there are any. -/
theorem Means.exists_code {bytes : List UInt8} {i : Instruction} (h : Means bytes i) :
    ∃ code, Codes code i.bare ∧ Opens bytes code := by
  induction h with
  | @plain op d operands i hop hends =>
    refine ⟨[op], ?_, .append [op] operands⟩
    rw [(all_bare_base hop).ends hends]
    exact .plain hop
  | cb op =>
    refine ⟨_, ?_, .append [0xCB, op] []⟩
    rw [bare_cb]
    exact .cb op
  | @ed op d operands i hop hends =>
    refine ⟨[0xED, op], ?_, .append [0xED, op] operands⟩
    rw [(all_bare_ed hop).ends hends]
    exact .ed hop
  | @index x op d operands i hop hends =>
    refine ⟨[x.lead, op], ?_, .append [x.lead, op] operands⟩
    by_cases hcb : op = 0xCB
    · subst hcb
      obtain rfl := Option.some.inj ((index_bits x).symm.trans hop)
      have hall : Decoding.All (fun i => ∃ sub, i.bare = Page.displacedBits x 0 sub)
          (.operand fun d => .byte (Page.displacedBits x d)) :=
        fun d sub => ⟨sub, bare_displacedBits x d sub⟩
      obtain ⟨sub, hsub⟩ := hall.ends hends
      rw [hsub]
      exact .indexBits x sub
    · rw [(all_bare_index hop hcb).ends hends]
      exact .index hop
  | superseded x => exact ⟨_, .superseded x, .append [x.lead] []⟩
  | @lead x op bytes i _ _ ih =>
    obtain ⟨code, hcode, hopens⟩ := ih
    exact ⟨code, hcode, hopens.lead x⟩

namespace Codes

/-- Does the test succeed for all codes that have this opcode? -/
def checks (p : List UInt8 → Instruction → Bool) (op : UInt8) : Bool :=
  (match Lead.ofByte op with
    | .plain d => p [op] d.sample
    | _ => true) &&
  p [0xCB, op] (Page.cb op) && (Page.ed op).all (fun d => p [0xED, op] d.sample) &&
  [Index.ix, Index.iy].all fun x => (Page.index x op).all (fun d => p [x.lead, op] d.sample) &&
    p [x.lead, 0xCB] (Page.displacedBits x 0 op) && p [x.lead] .nop

/-- A test that succeeds for all opcodes does so for all codes. -/
theorem of_checks {p : List UInt8 → Instruction → Bool}
    (h : ∀ n : Fin 256, checks p (UInt8.ofNat n) = true) {code : List UInt8} {i : Instruction}
    (hcode : Codes code i) : p code i = true := by
  have h : ∀ op, checks p op = true := byte_forall h
  have hindex (x : Index) (op : UInt8) :
      (Page.index x op).all (fun d => p [x.lead, op] d.sample) = true ∧
        p [x.lead, 0xCB] (Page.displacedBits x 0 op) = true ∧ p [x.lead] .nop = true := by
    have hop := h op
    simp only [checks, Bool.and_eq_true, List.all_cons, List.all_nil] at hop
    cases x with
    | ix => exact ⟨hop.2.1.1.1, hop.2.1.1.2, hop.2.1.2⟩
    | iy => exact ⟨hop.2.2.1.1.1, hop.2.2.1.1.2, hop.2.2.1.2⟩
  cases hcode with
  | @plain op d hop =>
    have hbase := h op
    simp only [checks, hop, Bool.and_eq_true] at hbase
    exact hbase.1.1.1
  | cb op =>
    have hbits := h op
    simp only [checks, Bool.and_eq_true] at hbits
    exact hbits.1.1.2
  | @ed op d hop =>
    have hext := h op
    simp only [checks, hop, Bool.and_eq_true] at hext
    exact hext.1.2
  | @index x op d hop =>
    have hentry := (hindex x op).1
    rw [hop] at hentry
    exact hentry
  | indexBits x op => exact (hindex x op).2.1
  | superseded x => exact (hindex x 0).2.2

end Codes

/-- Bytes that mean an instruction begin with a code for which such a test succeeds. -/
theorem Means.exists_checked {p : List UInt8 → Instruction → Bool} {bytes : List UInt8}
    {i : Instruction} (h : Means bytes i)
    (hp : ∀ n : Fin 256, Codes.checks p (UInt8.ofNat n) = true) :
    ∃ code, p code i.bare = true ∧ Opens bytes code := by
  obtain ⟨code, hcode, hopens⟩ := h.exists_code
  exact ⟨code, Codes.of_checks hp hcode, hopens⟩

/-- A property that the operand bytes do not touch holds of every instruction that can be looked
up, if it holds of those with a code. -/
theorem onEveryPage_of_codes {P : Instruction → Prop} (hbare : ∀ i, P i.bare → P i)
    (h : ∀ code i, Codes code i → P i) : OnEveryPage P := by
  have hP {code : List UInt8} {i s : Instruction} (hcode : Codes code s) (hi : i.bare = s) : P i :=
    hbare i (hi.symm ▸ h code s hcode)
  constructor
  case nop => exact h _ _ (.superseded .ix)
  case base => exact fun hop => (all_bare_base hop).mono fun i hi => hP (.plain hop) hi
  case cb => exact fun op => h _ _ (.cb op)
  case ed => exact fun hop => (all_bare_ed hop).mono fun i hi => hP (.ed hop) hi
  case index =>
    intro x op d hop
    by_cases hcb : op = 0xCB
    · subst hcb
      obtain rfl := Option.some.inj ((index_bits x).symm.trans hop)
      exact fun d sub => hP (.indexBits x sub) (bare_displacedBits x d sub)
    · exact (all_bare_index hop hcb).mono fun i hi => hP (.index hop) hi

end Z80
