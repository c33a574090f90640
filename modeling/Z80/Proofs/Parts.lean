import Z80.Proofs.Upcoming

/-!
# Registers that an instruction leaves alone

Most instructions compute in the bank in use. The alternate bank, the index registers, the
stack pointer, the program counter and the registers that control the processor are written
by few of them, each in its own way.

Main definitions:
- `Part`, `Part.view`: a part of the register file outside the bank in use.
- `Instruction.parts`: the parts that an instruction may change.
- `Part.writer`: the instruction that is alone to write a part.
- `Instruction.transfers`: an instruction sends the program counter elsewhere.

Main statements: `keeps_part_perform` says that an instruction keeps every part that is not
among its own, and `pc_perform` that the program counter stays where there is no transfer.
-/

namespace Z80

/-- A part of the register file outside the bank in use. -/
inductive Part where
  /-- A and F of the alternate bank. -/
  | altAF
  /-- Its six general registers. -/
  | altPairs
  | index (x : Index)
  | sp
  | pc
  | i
  | r
  /-- Both interrupt enables. -/
  | enables
  | mode
  | halted
  deriving DecidableEq

/-- The register file with this part of it alone. -/
def Part.view (p : Part) (r : Registers) : Registers :=
  match p with
  | altAF => { alt := { a := r.alt.a, f := r.alt.f } }
  | altPairs => { alt := { r.alt with a := 0, f := 0 } }
  | index x => ({} : Registers).setIndex x (r.index x)
  | sp => { sp := r.sp }
  | pc => { pc := r.pc }
  | i => { i := r.i }
  | .r => { r := r.r }
  | enables => { iff1 := r.iff1, iff2 := r.iff2 }
  | mode => { im := r.im }
  | halted => { halted := r.halted }

/-- Is the part a register that instructions name as an operand? -/
def Part.isOperand : Part → Bool
  | index _ | sp => true
  | _ => false

/-! ## Parts that are written -/

/-- The part that holds a byte register, unless it is one of the bank in use. -/
def Reg8.parts : Reg8 → List Part
  | .upper x | .lower x => [.index x]
  | _ => []

/-- The part that holds a word register, unless it is a pair of the bank in use. -/
def Reg16.parts : Reg16 → List Part
  | .sp => [.sp]
  | .index x => [.index x]
  | _ => []

/-- The part that is the interrupt or the refresh register. -/
def Special.part : Special → Part
  | .i => .i
  | .r => .r

theorem Special.part_ne {p : Part} (hi : p ≠ .i) (hr : p ≠ .r) (x : Special) : p ≠ x.part := by
  cases x with
  | i => exact hi
  | r => exact hr

/-- The part that holds a byte operand, if it is in a register outside the bank in use. -/
def Place.parts : Place → List Part
  | .reg x => x.parts
  | .mem _ => []

namespace Instruction

/-- The parts that an instruction may change. -/
def parts : Instruction → List Part
  | .halt => [.halted]
  | .load p _ | .inc p | .dec p => p.parts
  | .shift _ p copy | .res _ p copy | .set _ p copy => p.parts ++ copy.elim [] Reg8.parts
  | .inC x => x.parts
  | .loadImm x _ | .loadWord x _ | .incWord x | .decWord x | .addWord x _ | .exchangeStack x =>
    x.parts
  | .pop x => .sp :: x.parts
  | .loadSP _ | .push _ => [.sp]
  | .loadFromA x => [x.part]
  | .exchangeAF => [.altAF]
  | .exchangeBanks => [.altPairs]
  | .jump _ _ | .jumpTo _ | .jumpRelative _ _ | .djnz _ => [.pc]
  | .call _ _ | .ret _ | .reti | .rst _ => [.pc, .sp]
  | .retn => [.pc, .sp, .enables]
  | .di | .ei => [.enables]
  | .im _ => [.mode]
  -- these stay in the bank in use, or in memory and ports
  | .nop | .storeWord _ _ | .loadAFrom _ | .exchangeDEHL | .alu _ _ | .adcWord _ | .sbcWord _
  | .daa | .cpl | .neg | .ccf | .scf | .rotateA _ | .bit _ _ | .rrd | .rld
  | .inA _ | .outA _ | .outC _ | .block _ _ _ => []

/-- Does the instruction jump, call or return, with these registers? -/
def transfers (i : Instruction) (r : Registers) : Bool :=
  match i with
  | .jump cc _ | .jumpRelative cc _ | .call cc _ | .ret cc => Condition.taken cc r.f
  | .djnz _ => r.b - 1 != 0
  | .jumpTo _ | .retn | .reti | .rst _ => true
  | _ => false

end Instruction

/-- The register file without the bank in use. -/
def Registers.rest (r : Registers) : Registers :=
  { r with toBank := {} }

namespace Part

variable {p : Part}

/-! ## Parts that no operand names -/

section Operands

variable (hp : p.isOperand = false)
include hp

theorem notMem_byte (x : Reg8) : p ∉ x.parts := by
  cases x with
  | upper x | lower x =>
    rw [Reg8.parts, List.mem_singleton]
    rintro rfl
    cases hp
  | _ => exact List.not_mem_nil

theorem notMem_copy (copy : Option Reg8) : p ∉ copy.elim [] Reg8.parts := by
  cases copy with
  | none => exact List.not_mem_nil
  | some x => exact notMem_byte hp x

theorem notMem_word (x : Reg16) : p ∉ x.parts := by
  cases x with
  | sp | index x =>
    rw [Reg16.parts, List.mem_singleton]
    rintro rfl
    cases hp
  | _ => exact List.not_mem_nil

theorem notMem_place (q : Place) : p ∉ q.parts := by
  cases q with
  | reg x => exact notMem_byte hp x
  | mem a => exact List.not_mem_nil

end Operands

/-! ## Parts that one instruction writes -/

/-- The only instruction that writes the part, if there is only one. -/
def writer : Part → Option Instruction
  | altAF => some .exchangeAF
  | altPairs => some .exchangeBanks
  | i => some (.loadFromA .i)
  | .r => some (.loadFromA .r)
  | halted => some .halt
  | index _ | sp | pc | enables | mode => none

theorem notMem_parts_of_ne {i only : Instruction} (hp : p.writer = some only) (h : i ≠ only) :
    p ∉ i.parts := by
  have hoperand : p.isOperand = false := by
    cases p <;> first | rfl | cases hp
  have hne {q : Part} (hq : q.writer = none) : p ≠ q := by
    rintro rfl
    rw [hp] at hq
    cases hq
  cases i with
  | halt | exchangeAF | exchangeBanks =>
    rw [Instruction.parts, List.mem_singleton]
    rintro rfl
    exact h (Option.some.inj hp)
  | loadFromA x =>
    rw [Instruction.parts, List.mem_singleton]
    rintro rfl
    cases x <;> exact h (Option.some.inj hp)
  | _ =>
    simp [Instruction.parts, notMem_byte hoperand, notMem_copy hoperand, notMem_word hoperand,
      notMem_place hoperand, hne (q := .pc) rfl, hne (q := .sp) rfl, hne (q := .enables) rfl,
      hne (q := .mode) rfl]

/-! ## What each part depends on -/

/-- No part depends on the bank in use. -/
theorem view_of_rest {r r' : Registers} (h : r'.rest = r.rest) : p.view r' = p.view r := by
  have hrest : ∀ s : Registers, p.view s = p.view s.rest := by
    intro s
    cases p <;> rfl
  rw [hrest r', h, ← hrest]

theorem pc_of_view {r r' : Registers} (h : pc.view r' = pc.view r) : r'.pc = r.pc :=
  (congrArg Registers.pc h :)

section Written

variable (r : Registers)

theorem view_setByte {x : Reg8} (h : p ∉ x.parts) (v : UInt8) :
    p.view (r.setByte x v) = p.view r := by
  cases x with
  | upper x | lower x =>
    have hne : p ≠ .index x := List.ne_of_not_mem_cons h
    cases x <;> cases p <;> first | rfl | (next y => cases y <;> first | rfl | contradiction)
  | _ => exact view_of_rest rfl

theorem view_setWord {x : Reg16} (h : p ∉ x.parts) (v : UInt16) :
    p.view (r.setWord x v) = p.view r := by
  cases x with
  | index x =>
    have hne : p ≠ .index x := List.ne_of_not_mem_cons h
    cases x <;> cases p <;> first | rfl | (next y => cases y <;> first | rfl | contradiction)
  | sp =>
    have hne : p ≠ .sp := List.ne_of_not_mem_cons h
    cases p <;> first | rfl | contradiction
  | _ => exact view_of_rest rfl

theorem view_setSpecial {x : Special} (h : p ≠ x.part) (v : UInt8) :
    p.view (r.setSpecial x v) = p.view r := by
  cases x <;> cases p <;> first | rfl | contradiction

theorem view_sp (h : p ≠ .sp) (v : UInt16) : p.view { r with sp := v } = p.view r :=
  view_setWord r (x := .sp) (fun hp => h (List.mem_singleton.mp hp)) v

theorem view_pc (h : p ≠ .pc) (v : UInt16) : p.view { r with pc := v } = p.view r := by
  cases p <;> first | rfl | contradiction

theorem view_enables (h : p ≠ .enables) (v w : Bool) :
    p.view { r with iff1 := v, iff2 := w } = p.view r := by
  cases p <;> first | rfl | contradiction

theorem view_mode (h : p ≠ .mode) (v : UInt8) : p.view { r with im := v } = p.view r := by
  cases p <;> first | rfl | contradiction

theorem view_halted (h : p ≠ .halted) (v : Bool) : p.view { r with halted := v } = p.view r := by
  cases p <;> first | rfl | contradiction

theorem view_exchangeAF (h : p ≠ .altAF) : p.view r.exchangeAF = p.view r := by
  cases p <;> first | rfl | contradiction

theorem view_exchangeBanks (h : p ≠ .altPairs) : p.view r.exchangeBanks = p.view r := by
  cases p <;> first | rfl | contradiction

end Written

end Part

/-! ## Performing an instruction -/

namespace Exec

variable {β ω : Type} [Bus β] [Observer ω] {p : Part}

omit [Bus β] [Observer ω] in
/-- What an execution does to the bank in use is of no importance to a part. -/
theorem keeps_part_modifyRegs {f : Registers → Registers} (h : ∀ r, (f r).rest = r.rest) :
    Keeps p.view (modifyRegs f : Exec β ω Unit) :=
  .modifyRegs fun r => Part.view_of_rest (h r)

theorem keeps_part_update {q : Place} {copy : Option Reg8}
    (h : p ∉ q.parts ++ copy.elim [] Reg8.parts) (f : UInt8 → UInt8 → Outcome UInt8) :
    Keeps p.view (update q copy f : Exec β ω Unit) := by
  rw [List.mem_append, not_or] at h
  refine (Keeps.readPlace q).bind fun v => .bind .regs fun r => .bind ?_ fun _ =>
    .bind (keeps_part_modifyRegs fun _ => rfl) fun _ => ?_
  · cases q with
    | reg x => exact .modifyRegs fun r => Part.view_setByte r h.1 _
    | mem a => exact .bind .regs fun _ => .write _ _
  · cases copy with
    | none => exact .pure ()
    | some x => exact .modifyRegs fun r => Part.view_setByte r h.2 _

theorem keeps_part_blockRound (kind : BlockKind) (dir : Direction) :
    Keeps p.view (blockRound kind dir : Exec β ω Unit) := by
  refine .bind .regs fun _ => ?_
  cases kind with
  | load =>
    exact (Keeps.read _).bind fun _ => (Keeps.write _ _).bind fun _ =>
      keeps_part_modifyRegs fun _ => rfl
  | compare => exact (Keeps.read _).bind fun _ => keeps_part_modifyRegs fun _ => rfl
  | input =>
    exact (Keeps.input _).bind fun _ => (Keeps.write _ _).bind fun _ =>
      keeps_part_modifyRegs fun _ => rfl
  | output =>
    exact (Keeps.read _).bind fun _ => (Keeps.output _ _).bind fun _ =>
      keeps_part_modifyRegs fun _ => rfl

section Subroutines

variable (h : p ∉ [Part.pc, .sp])
include h

theorem keeps_part_call (a : UInt16) : Keeps p.view (call a : Exec β ω Unit) := by
  have hsp : p ≠ .sp := List.ne_of_not_mem_cons (List.not_mem_of_not_mem_cons h)
  exact .call (Part.view_sp · hsp) (Part.view_pc · (List.ne_of_not_mem_cons h)) a

theorem keeps_part_ret : Keeps p.view (ret : Exec β ω Unit) := by
  have hsp : p ≠ .sp := List.ne_of_not_mem_cons (List.not_mem_of_not_mem_cons h)
  exact .ret (Part.view_sp · hsp) (Part.view_pc · (List.ne_of_not_mem_cons h))

end Subroutines

/-- An instruction keeps every part that is not among its own. -/
theorem keeps_part_perform {i : Instruction} (h : p ∉ i.parts) :
    Keeps p.view (perform i : Exec β ω Unit) := by
  cases i with
  | nop => exact .pure ()
  | halt => exact fun m => Part.view_halted m.cpu.regs (List.ne_of_not_mem_cons h) true
  | load dst src =>
    refine (Keeps.readSource src).bind fun v => ?_
    cases dst with
    | reg x => exact .modifyRegs fun r => Part.view_setByte r h v
    | mem a => exact .bind .regs fun _ => .write _ _
  | loadImm x nn => exact .modifyRegs fun r => Part.view_setWord r h nn
  | loadWord x nn =>
    exact (Keeps.readWord nn).bind fun v => .modifyRegs fun r => Part.view_setWord r h v
  | storeWord nn src => exact .bind .regs fun _ => .writeWord nn _
  | loadSP src => exact .modifyRegs fun r => Part.view_sp r (List.ne_of_not_mem_cons h) _
  | loadFromA x => exact .modifyRegs fun r => Part.view_setSpecial r (List.ne_of_not_mem_cons h) _
  | push src => exact .bind .regs fun _ => .push (Part.view_sp · (List.ne_of_not_mem_cons h)) _
  | pop x =>
    rw [Instruction.parts, List.mem_cons, not_or] at h
    exact (Keeps.pop (Part.view_sp · h.1)).bind fun v =>
      .modifyRegs fun r => Part.view_setWord r h.2 v
  | exchangeAF => exact .modifyRegs fun r => Part.view_exchangeAF r (List.ne_of_not_mem_cons h)
  | exchangeBanks =>
    exact .modifyRegs fun r => Part.view_exchangeBanks r (List.ne_of_not_mem_cons h)
  | exchangeStack x =>
    exact .bind .regs fun _ => (Keeps.readWord _).bind fun v => (Keeps.writeWord _ _).bind fun _ =>
      .modifyRegs fun r => Part.view_setWord r h v
  | alu op src => exact (Keeps.readSource src).bind fun _ => keeps_part_modifyRegs fun _ => rfl
  | inc q | dec q =>
    have hcopy : p ∉ q.parts ++ none.elim [] Reg8.parts := by
      rwa [Option.elim_none, List.append_nil]
    exact keeps_part_update hcopy _
  | incWord x | decWord x => exact .modifyRegs fun r => Part.view_setWord r h _
  | addWord dst src =>
    exact .modifyRegs fun r => (Part.view_of_rest rfl).trans (Part.view_setWord r h _)
  | shift op q copy => exact keeps_part_update h _
  | bit n q => exact (Keeps.readPlace q).bind fun _ => keeps_part_modifyRegs fun _ => rfl
  | res n q copy | set n q copy => exact keeps_part_update h _
  | rrd | rld =>
    exact .bind .regs fun _ => (Keeps.read _).bind fun _ => (Keeps.write _ _).bind fun _ =>
      keeps_part_modifyRegs fun _ => rfl
  | jump cc nn =>
    exact .bind .regs fun _ =>
      .ite (.modifyRegs fun r => Part.view_pc r (List.ne_of_not_mem_cons h) nn) (.pure ())
  | jumpTo x =>
    exact .bind .regs fun _ => .modifyRegs fun r => Part.view_pc r (List.ne_of_not_mem_cons h) _
  | jumpRelative cc d =>
    exact .bind .regs fun _ =>
      .ite (.modifyRegs fun r => Part.view_pc r (List.ne_of_not_mem_cons h) _) (.pure ())
  | djnz d =>
    have hcount : Keeps p.view (modifyRegs fun r => { r with b := r.b - 1 } : Exec β ω Unit) :=
      keeps_part_modifyRegs fun _ => rfl
    exact hcount.bind fun _ => .bind .regs fun _ =>
      .ite (.modifyRegs fun r => Part.view_pc r (List.ne_of_not_mem_cons h) _) (.pure ())
  | call cc nn => exact .bind .regs fun _ => .ite (keeps_part_call h nn) (.pure ())
  | ret cc => exact .bind .regs fun _ => .ite (keeps_part_ret h) (.pure ())
  | retn =>
    have hstack : p ∉ [Part.pc, .sp] := fun hp => h (List.mem_append_left [Part.enables] hp)
    have henables : p ≠ .enables := fun hp => h (hp ▸ by decide)
    exact (Keeps.modifyRegs fun r => Part.view_enables r henables _ _).bind fun _ =>
      keeps_part_ret hstack
  | reti => exact keeps_part_ret h
  | rst target => exact keeps_part_call h target
  | inA n =>
    exact .bind .regs fun _ => (Keeps.input _).bind fun _ => keeps_part_modifyRegs fun _ => rfl
  | outA n => exact .bind .regs fun _ => .output _ _
  | inC x =>
    exact .bind .regs fun _ => (Keeps.input _).bind fun v =>
      .modifyRegs fun r => (Part.view_of_rest rfl).trans (Part.view_setByte r h v)
  | outC src => exact .bind .regs fun _ => .output _ _
  | di | ei => exact .modifyRegs fun r => Part.view_enables r (List.ne_of_not_mem_cons h) _ _
  | im mode => exact .modifyRegs fun r => Part.view_mode r (List.ne_of_not_mem_cons h) mode
  | block kind dir repeats => exact .block (keeps_part_blockRound kind dir) repeats
  -- all others compute in the bank in use
  | _ => exact keeps_part_modifyRegs fun _ => rfl

/-! ## The program counter -/

omit [Bus β] [Observer ω] in
theorem if_false_apply {c : Bool} (h : c = false) (x : Exec β ω Unit) (m : Machine β ω) :
    (if c then x else pure ()) m = ((), m) := by
  rw [h, if_neg Bool.false_ne_true, pure_apply]

/-- Where an instruction does not jump, call or return, it leaves the program counter as
fetching has left it. -/
theorem pc_perform {i : Instruction} {m : Machine β ω} (h : i.transfers m.cpu.regs = false) :
    (perform i m).2.cpu.regs.pc = m.cpu.regs.pc := by
  have hpc : Part.pc.isOperand = false := rfl
  have hspecial : ∀ x : Special, .pc ≠ x.part := Special.part_ne (by decide) (by decide)
  cases i with
  | jump cc nn | jumpRelative cc d | call cc nn | ret cc =>
    exact congrArg (·.2.cpu.regs.pc) (if_false_apply h _ m)
  | djnz d =>
    have hzero : (m.cpu.regs.b - 1 != 0) = false := h
    let counted := (modifyRegs (fun r => { r with b := r.b - 1 }) m).2
    exact congrArg (·.2.cpu.regs.pc)
      (if_false_apply hzero (setPC (displace counted.cpu.regs.pc d)) counted)
  | jumpTo x | retn | reti | rst target => cases h
  | _ =>
    refine Part.pc_of_view (keeps_part_perform ?_ m)
    simp [Instruction.parts, Part.notMem_byte hpc, Part.notMem_copy hpc, Part.notMem_word hpc,
      Part.notMem_place hpc, hspecial]

end Exec

end Z80
