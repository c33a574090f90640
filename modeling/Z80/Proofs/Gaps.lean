import Z80.Proofs.Codes

/-!
# Tables with gaps

An interpreter that goes from an opcode straight to its effect looks operands up in tables, each
under a code of a few bits. A table has an entry for the codes that opcodes may ask for, and a
code without an entry is a gap: there is nothing that could be done. An execution over such
tables comes to its end at the first gap.

Main definitions:
- `Gap`: what can be asked for in vain.
- `Table.operand`, `Table.pair`, `Table.half`, `Table.port`, …: the tables.
- `Guarded`: the executions that end at a gap, with `Guarded.ask` to look something up.
- `Guarded.Follows`: an execution comes upon no gap and is a given one.
- `Arm.first`: a choice among opcodes, in which the first arm that takes an opcode wins.

Main statements: `operand_eq`, `pair_eq` and their companions compare the tables with what the
pages select, `half_eq_none_iff` and `port_eq_none_iff` say where a code has no entry, and
`Follows.bind` and `follows_if_test` put executions together.
-/

namespace Z80

/-- What can be asked for in vain. -/
inductive Gap where
  /-- A byte operand, a word register, a condition, an operation or a shift of a code. -/
  | operand | pair | condition | alu | shift
  /-- The bit operation of an opcode behind CB. -/
  | bits
  /-- A register of a code that stands for memory, on an index page or for a port. -/
  | half | port
  /-- An instruction of the base page for a byte that leads to another page. -/
  | lead
  /-- An arm for an opcode. -/
  | arm
  deriving DecidableEq

/-! ## The tables

No table is asked for more bits of a code than it has. Only `half` and `port` leave a code out,
the one that stands for memory. -/

namespace Table

/-- The byte operands: registers and the cell at HL. -/
def operand (r : UInt8) : Option Place :=
  match r &&& 7 with
  | 0 => some (.reg .b)
  | 1 => some (.reg .c)
  | 2 => some (.reg .d)
  | 3 => some (.reg .e)
  | 4 => some (.reg .h)
  | 5 => some (.reg .l)
  | 6 => some (.mem (.indirect .hl))
  | 7 => some (.reg .a)
  | _ => none

/-- The byte registers with the halves of an index register for H and L. -/
def half (x : Index) (r : UInt8) : Option Reg8 :=
  match r &&& 7 with
  | 0 => some .b
  | 1 => some .c
  | 2 => some .d
  | 3 => some .e
  | 4 => some (.upper x)
  | 5 => some (.lower x)
  | 7 => some .a
  | _ => none

/-- The registers that a port addressed by BC can exchange a byte with. -/
def port (r : UInt8) : Option Reg8 :=
  match r &&& 7 with
  | 0 => some .b
  | 1 => some .c
  | 2 => some .d
  | 3 => some .e
  | 4 => some .h
  | 5 => some .l
  | 7 => some .a
  | _ => none

/-- The word registers. -/
def pair (rp : UInt8) : Option Reg16 :=
  match rp &&& 3 with
  | 0 => some .bc
  | 1 => some .de
  | 2 => some .hl
  | 3 => some .sp
  | _ => none

/-- The conditions. -/
def condition (cc : UInt8) : Option Condition :=
  match cc &&& 7 with
  | 0 => some .nz
  | 1 => some .z
  | 2 => some .nc
  | 3 => some .c
  | 4 => some .po
  | 5 => some .pe
  | 6 => some .p
  | 7 => some .m
  | _ => none

/-- The operations on the accumulator. -/
def alu (n : UInt8) : Option AluOp :=
  match n &&& 7 with
  | 0 => some .add
  | 1 => some .adc
  | 2 => some .sub
  | 3 => some .sbc
  | 4 => some .and
  | 5 => some .xor
  | 6 => some .or
  | 7 => some .cp
  | _ => none

/-- The shifts. -/
def shift (n : UInt8) : Option ShiftOp :=
  match n &&& 7 with
  | 0 => some (.rotate .rlc)
  | 1 => some (.rotate .rrc)
  | 2 => some (.rotate .rl)
  | 3 => some (.rotate .rr)
  | 4 => some .sla
  | 5 => some .sra
  | 6 => some .sll
  | 7 => some .srl
  | _ => none

end Table

namespace Opcode

/-! ## Codes -/

variable (op : UInt8)

theorem and_seven : op &&& 7 = UInt8.ofNat (z op) := by
  revert op
  apply byte_forall
  decide +kernel

theorem and_three : op &&& 3 = UInt8.ofNat (Fin.ofNat 4 op.toNat) := by
  revert op
  apply byte_forall
  decide +kernel

theorem z_and : z (op &&& 7) = z op := by
  rw [and_seven]
  generalize z op = k
  revert k
  decide

theorem z_shiftRight : z (op >>> 3) = y op := by
  revert op
  apply byte_forall
  decide +kernel

end Opcode

/-- The halves of an index register have the codes of registers. -/
theorem Page.Half.exists_select (x : Index) {k : Fin 8} {r : Reg8} (h : Reg8.select k = some r) :
    ∃ q, select x k = some q := by
  rw [select, h]
  cases r with
  | h | l | a | b | c | d | e | upper i | lower i => exact ⟨_, rfl⟩

namespace Table

/-! ## What the tables have -/

variable (r rp cc n : UInt8) (x : Index)

theorem operand_eq : operand r = some (Place.select (Opcode.z r)) := by
  rw [operand, Opcode.and_seven]
  generalize Opcode.z r = k
  revert k
  decide

theorem condition_eq : condition cc = some (Condition.select (Opcode.z cc)) := by
  rw [condition, Opcode.and_seven]
  generalize Opcode.z cc = k
  revert k
  decide

theorem alu_eq : alu n = some (AluOp.select (Opcode.z n)) := by
  rw [alu, Opcode.and_seven]
  generalize Opcode.z n = k
  revert k
  decide

theorem shift_eq : shift n = some (ShiftOp.select (Opcode.z n)) := by
  rw [shift, Opcode.and_seven]
  generalize Opcode.z n = k
  revert k
  decide

theorem half_eq : half x r = Page.Half.select x (Opcode.z r) := by
  rw [half, Opcode.and_seven]
  generalize Opcode.z r = k
  cases x <;>
  · revert k
    decide

theorem port_eq : port r = Reg8.select (Opcode.z r) := by
  rw [port, Opcode.and_seven]
  generalize Opcode.z r = k
  revert k
  decide

theorem pair_eq : pair rp = some (Reg16.select (Fin.ofNat 4 rp.toNat)) := by
  rw [pair, Opcode.and_three]
  generalize Fin.ofNat 4 rp.toNat = k
  revert k
  decide

theorem pair_shiftRight : pair (r >>> 4) = some (Reg16.select (Opcode.p r)) := by
  have hp : Fin.ofNat 4 (r >>> 4).toNat = Opcode.p r := by
    revert r
    apply byte_forall
    decide +kernel
  rw [pair_eq, hp]

theorem pair_and : pair (rp &&& 3) = pair rp := by
  have hmask : (rp &&& 3) &&& 3 = rp &&& 3 := by
    rw [UInt8.and_assoc]
    rfl
  rw [pair, pair, hmask]

/-- The code that stands for memory has no half of an index register. -/
theorem half_eq_none_iff : half x r = none ↔ r &&& 7 = 6 := by
  rw [half, Opcode.and_seven]
  generalize Opcode.z r = k
  cases x <;>
  · revert k
    decide

/-- Nor does it have a register for a port. -/
theorem port_eq_none_iff : port r = none ↔ r &&& 7 = 6 := by
  rw [port, Opcode.and_seven]
  generalize Opcode.z r = k
  revert k
  decide

end Table

/-! ## Choosing by opcode -/

/-- An arm of a choice: the opcodes that it takes, and what is chosen for them. -/
structure Arm (α : Type) where
  takes : UInt8 → Bool
  choice : α

namespace Arm

variable {α : Type}

/-- An arm for the opcodes of a list. -/
def of (opcodes : List UInt8) (choice : α) : Arm α where
  takes op := opcodes.any fun v => v.toNat == op.toNat
  choice

/-- The choice of the first arm that takes the opcode. -/
def first (arms : List (Arm α)) (op : UInt8) : Option α :=
  (arms.find? (·.takes op)).map (·.choice)

end Arm

/-! ## Executions that end at a gap -/

/-- The executions that end where they come upon a gap. -/
abbrev Guarded (β ω α : Type) := ExceptT Gap (StateM (Machine β ω)) α

namespace Guarded

variable {β ω α γ : Type}

/-- Goes on with what has been looked up, if there is an entry. -/
def ask (g : Gap) (entry : Option α) : Guarded β ω α :=
  match entry with
  | some a => return a
  | none => throw g

@[simp] theorem ask_some_bind (g : Gap) (a : α) (f : α → Guarded β ω γ) :
    ask g (some a) >>= f = f a :=
  rfl

/-- An execution that looks nothing up. -/
def lift (x : Exec β ω α) : Guarded β ω α :=
  ExceptT.lift x

/-- On every machine the first execution comes upon no gap, and is the second one. -/
def Follows (x : Guarded β ω α) (y : Exec β ω α) : Prop :=
  ∀ m, x.run m = (.ok (y m).1, (y m).2)

theorem follows_lift (x : Exec β ω α) : Follows (lift x) x :=
  fun _ => rfl

theorem follows_pure (a : α) : Follows (pure a : Guarded β ω α) (pure a) :=
  fun _ => rfl

theorem run_bind (x : Guarded β ω α) (f : α → Guarded β ω γ) (m : Machine β ω) :
    (x >>= f).run m =
      match x.run m with
      | (.ok a, m') => (f a).run m'
      | (.error g, m') => (.error g, m') := by
  show ExceptT.bindCont f (x.run m).1 (x.run m).2 = _
  obtain ⟨r, m'⟩ := x.run m
  cases r with
  | ok a => rfl
  | error g => rfl

theorem Follows.bind {x : Guarded β ω α} {y : Exec β ω α} {f : α → Guarded β ω γ}
    {g : α → Exec β ω γ} (hx : Follows x y) (hf : ∀ a, Follows (f a) (g a)) :
    Follows (x >>= f) (y >>= g) := by
  intro m
  rw [run_bind, hx m]
  exact hf _ _

/-- On every machine the execution comes upon no gap. -/
def Gapless (x : Guarded β ω α) : Prop :=
  ∀ m, ∃ a m', x.run m = (.ok a, m')

theorem Follows.gapless {x : Guarded β ω α} {y : Exec β ω α} (h : Follows x y) : Gapless x :=
  fun m => ⟨_, _, h m⟩

theorem Gapless.bind {x : Guarded β ω α} {f : α → Guarded β ω γ} (hx : Gapless x)
    (hf : ∀ a, Gapless (f a)) : Gapless (x >>= f) := by
  intro m
  obtain ⟨a, m', hrun⟩ := hx m
  rw [run_bind, hrun]
  exact hf a m'

/-- What looks one thing up comes upon a gap if there is no entry. -/
theorem run_ask_bind_iff {g : Gap} {entry : Option α} {f : α → Guarded β ω γ}
    (hf : ∀ a, Gapless (f a)) (m : Machine β ω) :
    (ask g entry >>= f).run m = (.error g, m) ↔ entry = none := by
  cases entry with
  | none => exact iff_of_true rfl rfl
  | some a =>
    obtain ⟨b, m', hrun⟩ := hf a m
    rw [ask_some_bind, hrun]
    exact iff_of_false nofun nofun

open Exec

variable [Bus β] [Observer ω]

/-- Reads the byte operand of a code. -/
def readOperand (r : UInt8) : Guarded β ω UInt8 := do
  let p ← ask .operand (Table.operand r)
  lift (readPlace p)

/-- Writes the byte operand of a code. -/
def writeOperand (r v : UInt8) : Guarded β ω Unit := do
  let p ← ask .operand (Table.operand r)
  lift (writePlace p v)

/-- Reads the word register of a code. -/
def readPair (rp : UInt8) : Guarded β ω UInt16 := do
  let q ← ask .pair (Table.pair rp)
  return (← lift regs).word q

/-- Writes the word register of a code. -/
def writePair (rp : UInt8) (v : UInt16) : Guarded β ω Unit := do
  let q ← ask .pair (Table.pair rp)
  lift (modifyRegs (·.setWord q v))

/-- Does the condition of a code hold? -/
def test (cc : UInt8) : Guarded β ω Bool := do
  let condition ← ask .condition (Table.condition cc)
  return condition.holds (← lift regs).f

/-- Combines the accumulator with a byte by the operation of a code. -/
def combine (n v : UInt8) : Guarded β ω Unit := do
  let operation ← ask .alu (Table.alu n)
  lift (updateA fun a f => operation.apply a v f)

/-! ## What they come to -/

variable (r rp cc n v : UInt8)

theorem readOperand_eq :
    (readOperand r : Guarded β ω _) = lift (readPlace (Place.select (Opcode.z r))) := by
  rw [readOperand, Table.operand_eq]
  rfl

theorem writeOperand_eq :
    (writeOperand r v : Guarded β ω _) = lift (writePlace (Place.select (Opcode.z r)) v) := by
  rw [writeOperand, Table.operand_eq]
  rfl

omit [Bus β] [Observer ω] in
theorem combine_eq :
    (combine n v : Guarded β ω _) =
      lift (updateA fun a f => (AluOp.select (Opcode.z n)).apply a v f) := by
  rw [combine, Table.alu_eq]
  rfl

omit [Bus β] [Observer ω] in
/-- What a condition decides over can start from the registers that it has looked at. -/
theorem follows_if_test (x : Guarded β ω Unit) (y : Registers → Exec β ω Unit)
    (h : ∀ m, x.run m = (.ok (y m.cpu.regs m).1, (y m.cpu.regs m).2)) :
    Follows (do if ← test cc then x)
      (do
        let r ← regs
        if (Condition.select (Opcode.z cc)).holds r.f then y r) := by
  intro m
  rw [test, Table.condition_eq]
  show (if (Condition.select (Opcode.z cc)).holds m.cpu.regs.f = true then x else pure ()).run m =
    let z := if (Condition.select (Opcode.z cc)).holds m.cpu.regs.f = true then y m.cpu.regs
      else pure ()
    (.ok (z m).1, (z m).2)
  split
  · exact h m
  · rfl

end Guarded

end Z80
