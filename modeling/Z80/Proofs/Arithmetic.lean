import Mathlib.Algebra.Group.Int.Defs
import Z80.Proofs.Carries
import Z80.Proofs.FlagFrame
import Z80.Scripted

/-!
# Arithmetic in numbers

An instruction that adds or subtracts leaves the exact result modulo the width of its
operands, and its flags tell how far that is from the exact one: C and H by unsigned
numbers, overflow by signed ones.

Main definitions:
- `Arithmetic`: a sum or a difference, with `Arithmetic.value` and `Arithmetic.Says` for its
  value and flags in integers.
- `Instruction.arithmetic`: the sum or difference that an instruction computes.
- `Target.Receives`: a result is left where it belongs.

Main statement: `runOne_arithmetic`.
-/

namespace Z80

/-- Where a result is left. -/
inductive Target where
  | nowhere
  | byte (x : Reg8)
  | cell (a : UInt16)
  | word (x : Reg16)
  deriving DecidableEq

/-- The sum or difference of two numbers of one width and a carry, and where it is left. -/
structure Arithmetic where
  width : Nat
  width_pos : 0 < width
  subtracts : Bool
  left : BitVec width
  right : BitVec width
  carry : Bool
  target : Target
  deriving DecidableEq

namespace Arithmetic

/-- A sum or difference of bytes. -/
def bytes (subtracts : Bool) (a b : UInt8) (carry : Bool) (target : Target) : Arithmetic :=
  ⟨8, by decide, subtracts, a.toBitVec, b.toBitVec, carry, target⟩

/-- A sum or difference of words. -/
def words (subtracts : Bool) (a b : UInt16) (carry : Bool) (target : Target) : Arithmetic :=
  ⟨16, by decide, subtracts, a.toBitVec, b.toBitVec, carry, target⟩

variable (x : Arithmetic)

/-- The result in integers, for one way to read the operands. -/
def exact (read : BitVec x.width → ℤ) : ℤ :=
  if x.subtracts then read x.left - read x.right - x.carry.toNat
  else read x.left + read x.right + x.carry.toNat

/-- The result, without a sign, in the width of the operands. -/
def value : ℤ :=
  x.exact (fun v => v.toNat) % 2 ^ x.width

/-- The lowest `k` bits of the operands give a carry, or borrow. -/
def CarriesOut (k : Nat) : Prop :=
  if x.subtracts then x.left.toNat % 2 ^ k < x.right.toNat % 2 ^ k + x.carry.toNat
  else 2 ^ k ≤ x.left.toNat % 2 ^ k + x.right.toNat % 2 ^ k + x.carry.toNat

instance (k : Nat) : Decidable (x.CarriesOut k) :=
  inferInstanceAs (Decidable (ite (x.subtracts = true) _ _))

/-- What each flag says of the operands and the result. -/
def Says : Flag → Prop
  | .s => 2 ^ (x.width - 1) ≤ x.value
  | .z => x.value = 0
  | .h => x.CarriesOut (x.width - 4)
  | .p => x.exact BitVec.toInt < -2 ^ (x.width - 1) ∨ 2 ^ (x.width - 1) ≤ x.exact BitVec.toInt
  | .n => x.subtracts = true
  | .c => x.CarriesOut x.width
  | .x | .y => False

instance (g : Flag) : Decidable (x.Says g) :=
  match g with
  | .s => inferInstanceAs (Decidable (_ ≤ _))
  | .z => inferInstanceAs (Decidable (_ = _))
  | .h | .c => inferInstanceAs (Decidable (x.CarriesOut _))
  | .p => inferInstanceAs (Decidable (_ ∨ _))
  | .n => inferInstanceAs (Decidable (_ = _))
  | .x | .y => inferInstanceAs (Decidable False)

/-- What the adder reports. -/
def report : Sum x.width :=
  if x.subtracts then .sub x.left x.right x.carry else .add x.left x.right x.carry

theorem toNat_report : (x.report.value.toNat : ℤ) = x.value := by
  obtain ⟨w, hw, subtracts, a, b, c, target⟩ := x
  have ha := a.isLt
  have hb := b.isLt
  have hc := c.toNat_le
  cases subtracts with
  | false =>
    show ((Sum.add a b c).value.toNat : ℤ) = (a.toNat + b.toNat + c.toNat : ℤ) % 2 ^ w
    rw [Sum.toNat_value_add]
    push_cast
    rfl
  | true =>
    show ((Sum.sub a b c).value.toNat : ℤ) = (a.toNat - b.toNat - c.toNat : ℤ) % 2 ^ w
    have hwide : ((2 ^ w + a.toNat - b.toNat - c.toNat : ℕ) : ℤ) =
        a.toNat - b.toNat - c.toNat + 2 ^ w := by
      have hpow : ((2 ^ w : ℕ) : ℤ) = 2 ^ w := by
        push_cast
        rfl
      omega
    rw [Sum.toNat_value_sub, Int.natCast_emod, hwide]
    push_cast
    rw [Int.add_emod_right]

theorem carry_report : x.report.carry = true ↔ x.CarriesOut x.width := by
  obtain ⟨w, hw, subtracts, a, b, c, target⟩ := x
  cases subtracts with
  | false =>
    show (Sum.add a b c).carry = true ↔ 2 ^ w ≤ a.toNat % 2 ^ w + b.toNat % 2 ^ w + c.toNat
    rw [Sum.carry_add, decide_eq_true_eq, Nat.mod_eq_of_lt a.isLt, Nat.mod_eq_of_lt b.isLt]
  | true =>
    show (Sum.sub a b c).carry = true ↔ a.toNat % 2 ^ w < b.toNat % 2 ^ w + c.toNat
    rw [Sum.carry_sub, decide_eq_true_eq, Nat.mod_eq_of_lt a.isLt, Nat.mod_eq_of_lt b.isLt]

theorem half_report : x.report.half = true ↔ x.CarriesOut (x.width - 4) := by
  obtain ⟨w, hw, subtracts, a, b, c, target⟩ := x
  cases subtracts with
  | false =>
    show (Sum.add a b c).half = true ↔ _
    rw [Sum.half_add, decide_eq_true_eq]
    rfl
  | true =>
    show (Sum.sub a b c).half = true ↔ _
    rw [Sum.half_sub, decide_eq_true_eq]
    rfl

theorem overflow_report : x.report.overflow = true ↔
    x.exact BitVec.toInt < -2 ^ (x.width - 1) ∨ 2 ^ (x.width - 1) ≤ x.exact BitVec.toInt := by
  obtain ⟨w, hw, subtracts, a, b, c, target⟩ := x
  have hpow : 2 ^ w = 2 * 2 ^ (w - 1) := by
    rw [Nat.mul_comm, Nat.two_pow_pred_mul_two hw]
  cases subtracts with
  | false =>
    show (Sum.add a b c).overflow = true ↔ _
    rw [Sum.overflow_add, Sum.signed_add_out_of_range_iff hpow]
    push_cast
    rfl
  | true =>
    show (Sum.sub a b c).overflow = true ↔ _
    rw [Sum.overflow_sub, Sum.signed_sub_out_of_range_iff hpow]
    push_cast
    rfl

theorem msb_report : x.report.value.msb = true ↔ 2 ^ (x.width - 1) ≤ x.value := by
  have hpow : ((2 ^ (x.width - 1) : ℕ) : ℤ) = 2 ^ (x.width - 1) := by
    push_cast
    rfl
  rw [BitVec.msb_eq_decide, decide_eq_true_eq, ← x.toNat_report, ← hpow, Int.ofNat_le]

theorem report_eq_zero : x.report.value = 0 ↔ x.value = 0 := by
  rw [← x.toNat_report, Int.natCast_eq_zero, ← BitVec.toNat_inj]
  rfl

/-- The flags of the report say what they should. -/
theorem isSet_report {g : Flag} (hg : ¬(g = .x ∨ g = .y)) (f : UInt8) :
    g.isSet (x.report.flags x.subtracts f) = true ↔ x.Says g := by
  cases g with
  | s =>
    rw [Sum.isSet_s_flags]
    exact x.msb_report
  | z =>
    rw [Sum.isSet_z_flags, beq_iff_eq]
    exact x.report_eq_zero
  | h =>
    rw [Sum.isSet_h_flags]
    exact x.half_report
  | p =>
    rw [Sum.isSet_p_flags]
    exact x.overflow_report
  | n =>
    rw [Sum.isSet_n_flags]
    rfl
  | c =>
    rw [Sum.isSet_c_flags]
    exact x.carry_report
  | x | y => exact absurd (by decide) hg

end Arithmetic

section Partial

variable {g : Flag} {w : Nat} (s : Sum w) (f : UInt8)

/-- Counting reports as a sum does, except for the carry. -/
theorem isSet_countFlags_of_ne (hg : g ≠ .c) (subtracted : Bool) :
    g.isSet (s.countFlags subtracted f) = g.isSet (s.flags subtracted f) := by
  rw [Sum.countFlags, Flag.isSet_put, if_neg hg]

theorem isSet_incByte_of_ne (hg : g ≠ .c) (v f : UInt8) :
    g.isSet (incByte v f).flags = g.isSet ((Sum.add v.toBitVec 1 false).flags false f) :=
  isSet_countFlags_of_ne _ f hg false

theorem isSet_decByte_of_ne (hg : g ≠ .c) (v f : UInt8) :
    g.isSet (decByte v f).flags = g.isSet ((Sum.sub v.toBitVec 1 false).flags true f) :=
  isSet_countFlags_of_ne _ f hg true

/-- The sum of addresses reports as a sum does through the flags it has. -/
theorem isSet_carryFlags_of_mem (hg : g ∈ [Flag.h, .n, .c]) :
    g.isSet (s.carryFlags f) = g.isSet (s.flags false f) := by
  cases g with
  | h | n | c => simp [Sum.carryFlags, Flag.isSet_put]
  | _ => simp at hg

end Partial

/-! ## Operands of instructions -/

/-- The value of a place, in a memory with the given cells. -/
def Place.value (p : Place) (r : Registers) (cell : UInt16 → UInt8) : UInt8 :=
  match p with
  | .reg x => r.byte x
  | .mem a => cell (r.address a)

/-- The value of a source, in a memory with the given cells. -/
def Source.value (s : Source) (r : Registers) (cell : UInt16 → UInt8) : UInt8 :=
  match s with
  | .place p => p.value r cell
  | .imm n => n

/-- A place as the target of a result. -/
def Place.target (p : Place) (r : Registers) : Target :=
  match p with
  | .reg x => .byte x
  | .mem a => .cell (r.address a)

/-- The sum or difference that an instruction computes with these registers and cells. -/
def Instruction.arithmetic (i : Instruction) (r : Registers) (cell : UInt16 → UInt8) :
    Option Arithmetic :=
  let carry := Flag.c.isSet r.f
  match i with
  | .alu .add src => some (.bytes false r.a (src.value r cell) false (.byte .a))
  | .alu .adc src => some (.bytes false r.a (src.value r cell) carry (.byte .a))
  | .alu .sub src => some (.bytes true r.a (src.value r cell) false (.byte .a))
  | .alu .sbc src => some (.bytes true r.a (src.value r cell) carry (.byte .a))
  | .alu .cp src => some (.bytes true r.a (src.value r cell) false .nowhere)
  | .neg => some (.bytes true 0 r.a false (.byte .a))
  | .inc p => some (.bytes false (p.value r cell) 1 false (p.target r))
  | .dec p => some (.bytes true (p.value r cell) 1 false (p.target r))
  | .addWord dst src => some (.words false (r.word dst) (r.word src) false (.word dst))
  | .adcWord src => some (.words false r.hl (r.word src) carry (.word .hl))
  | .sbcWord src => some (.words true r.hl (r.word src) carry (.word .hl))
  | _ => none

/-- Neither operands nor target depend on the program counter or on R. -/
theorem Instruction.arithmetic_moved (i : Instruction) (r : Registers) (cell : UInt16 → UInt8)
    (pc : UInt16) (refresh : UInt8) :
    i.arithmetic { r with pc := pc, r := refresh } cell = i.arithmetic r cell := by
  unfold arithmetic
  split <;> rfl

namespace Registers

variable (r : Registers)

theorem byte_setByte (x : Reg8) (v f : UInt8) : { r.setByte x v with f := f }.byte x = v := by
  cases x with
  | upper x => cases x <;> exact high_join _ _
  | lower x => cases x <;> exact low_join _ _
  | _ => rfl

theorem word_setWord {x : Reg16} (hx : x ≠ .af) (v : UInt16) (f : UInt8) :
    { r.setWord x v with f := f }.word x = v := by
  cases x with
  | af => exact absurd rfl hx
  | index x => cases x <;> rfl
  | sp => rfl
  | bc | de | hl => exact join_high_low v

end Registers

/-! ## Performing an instruction -/

section Performing

variable {β ω : Type} [Bus β] [Observer ω]

/-- Between two machines the result `v` has arrived at its target: the accumulator is as it
was if the result is dropped, and a cell is written right after it has been read. -/
def Target.Receives (t : Target) (v : ℤ) (m m' : Machine β ω) : Prop :=
  match t with
  | .nowhere => m'.cpu.regs.a = m.cpu.regs.a
  | .byte x => (m'.cpu.regs.byte x).toNat = v
  | .cell a => ∃ n : UInt8, n.toNat = v ∧ m'.bus = Bus.write a n (Bus.read a m.bus).2
  | .word x => (m'.cpu.regs.word x).toNat = v

namespace Exec

variable {i : Instruction} {x : Arithmetic} {m : Machine β ω}

theorem readPlace_fst (p : Place) (m : Machine β ω) :
    (readPlace p m).1 = p.value m.cpu.regs fun a => (Bus.read a m.bus).1 := by
  cases p <;> rfl

theorem regs_perform_alu (op : AluOp) (src : Source) (m : Machine β ω) :
    (perform (.alu op src) m).2.cpu.regs =
      let v := src.value m.cpu.regs fun a => (Bus.read a m.bus).1
      let o := op.apply m.cpu.regs.a v m.cpu.regs.f
      { m.cpu.regs with a := o.value, f := o.flags } := by
  cases src with
  | place p => cases p <;> rfl
  | imm n => rfl

/-- An operand that is replaced receives what its value gives. -/
theorem receives_update (p : Place) (f : UInt8 → UInt8 → Outcome UInt8) (m : Machine β ω) :
    (p.target m.cpu.regs).Receives
      (f (p.value m.cpu.regs fun a => (Bus.read a m.bus).1) m.cpu.regs.f).value.toNat
      m (update p none f m).2 := by
  cases p with
  | reg x =>
    have h : (update (.reg x) none f m).2.cpu.regs.byte x =
        (f (m.cpu.regs.byte x) m.cpu.regs.f).value := Registers.byte_setByte _ x _ _
    exact congrArg (fun v : UInt8 => (v.toNat : ℤ)) h
  | mem a => exact ⟨_, rfl, rfl⟩

omit [Observer ω] in
theorem receives_updateWord {dst : Reg16} (hdst : dst ≠ .af) (src : Reg16)
    (f : UInt16 → UInt16 → UInt8 → Outcome UInt16) (m : Machine β ω) :
    (Target.word dst).Receives
      (f (m.cpu.regs.word dst) (m.cpu.regs.word src) m.cpu.regs.f).value.toNat
      m (updateWord dst src f m).2 := by
  have h : (updateWord dst src f m).2.cpu.regs.word dst =
      (f (m.cpu.regs.word dst) (m.cpu.regs.word src) m.cpu.regs.f).value :=
    Registers.word_setWord _ hdst _ _
  exact congrArg (fun v : UInt16 => (v.toNat : ℤ)) h

/-- The result goes where the table says. -/
theorem receives_perform (haf : i.writesAF = false)
    (hx : i.arithmetic m.cpu.regs (fun a => (Bus.read a m.bus).1) = some x) :
    x.target.Receives x.report.value.toNat m (perform i m).2 := by
  have halu (op : AluOp) (src : Source) : ((perform (.alu op src) m).2.cpu.regs.a.toNat : ℤ) =
      (op.apply m.cpu.regs.a (src.value m.cpu.regs fun a => (Bus.read a m.bus).1)
        m.cpu.regs.f).value.toNat := by
    rw [regs_perform_alu]
  unfold Instruction.arithmetic at hx
  -- one case for each row of the table, the five operations on the accumulator first
  split at hx <;> cases hx
  · next src => exact halu .add src
  · next src => exact halu .adc src
  · next src => exact halu .sub src
  · next src => exact halu .sbc src
  · next src =>
    show (perform (.alu .cp src) m).2.cpu.regs.a = m.cpu.regs.a
    rw [regs_perform_alu]
    rfl
  · rfl
  · next p => exact receives_update p incByte m
  · next p => exact receives_update p decByte m
  · next dst src => exact receives_updateWord (by rintro rfl; cases haf) src addWord m
  · next src => exact receives_updateWord (by decide) src adcWord m
  · next src => exact receives_updateWord (by decide) src sbcWord m

/-- The flags that the instruction reports through come from the adder. -/
theorem isSet_perform {g : Flag} (hg : g ∈ i.flags)
    (hx : i.arithmetic m.cpu.regs (fun a => (Bus.read a m.bus).1) = some x) :
    g.isSet (perform i m).2.cpu.regs.f = g.isSet (x.report.flags x.subtracts m.cpu.regs.f) := by
  have halu (op : AluOp) (src : Source) : g.isSet (perform (.alu op src) m).2.cpu.regs.f =
      g.isSet (op.apply m.cpu.regs.a (src.value m.cpu.regs fun a => (Bus.read a m.bus).1)
        m.cpu.regs.f).flags := by
    rw [regs_perform_alu]
  unfold Instruction.arithmetic at hx
  split at hx <;> cases hx
  · next src => exact halu .add src
  · next src => exact halu .adc src
  · next src => exact halu .sub src
  · next src => exact halu .sbc src
  · next src => exact halu .cp src
  · rfl
  · next p =>
    have hcarry : g ≠ .c := by
      rintro rfl
      simp [Instruction.flags] at hg
    show g.isSet (update p none incByte m).2.cpu.regs.f = _
    rw [f_update, readPlace_fst]
    exact isSet_incByte_of_ne hcarry _ _
  · next p =>
    have hcarry : g ≠ .c := by
      rintro rfl
      simp [Instruction.flags] at hg
    show g.isSet (update p none decByte m).2.cpu.regs.f = _
    rw [f_update, readPlace_fst]
    exact isSet_decByte_of_ne hcarry _ _
  · next dst src => exact isSet_carryFlags_of_mem _ m.cpu.regs.f hg
  · rfl
  · rfl

section Whole

variable (hi : upcoming m = some i)
  (hx : i.arithmetic m.cpu.regs (fun a => (Bus.read a (fetched m).bus).1) = some x)
include hi hx

/-- The operands are those before the instruction has been taken in. -/
theorem arithmetic_fetched : i.writesAF = false ∧
    i.arithmetic (fetched m).cpu.regs (fun a => (Bus.read a (fetched m).bus).1) = some x := by
  refine ⟨Instruction.onEveryPage_writesAF.upcoming hi, ?_⟩
  rw [regs_fetched, Instruction.arithmetic_moved]
  exact hx

theorem receives_runOne : x.target.Receives x.value (fetched m) (runOne m).2 := by
  obtain ⟨haf, hx'⟩ := arithmetic_fetched hi hx
  rw [runOne_of_upcoming hi, ← x.toNat_report]
  exact receives_perform haf hx'

theorem isSet_runOne (g : Flag) : g.isSet (runOne m).2.cpu.regs.f = true ↔
    if g ∈ i.flags then x.Says g else g.isSet m.cpu.regs.f = true := by
  obtain ⟨haf, hx'⟩ := arithmetic_fetched hi hx
  rw [runOne_of_upcoming hi]
  split
  · next hg =>
    have hcomputed : ¬(g = .x ∨ g = .y) := fun h =>
      Instruction.notMem_flags (by rintro rfl; cases hx) (by rintro rfl; cases hx) h hg
    rw [isSet_perform hg hx', x.isSet_report hcomputed]
  · next hg =>
    have hkept : g.isSet (perform i (fetched m)).2.cpu.regs.f = _ := keeps_flag_perform haf hg _
    rw [hkept, regs_fetched]

end Whole

/-- An instruction that adds or subtracts leaves the exact result modulo the width of its
operands, its flags say what they should of it, and the other flags are as before. -/
theorem runOne_arithmetic {m : Machine β ω} {i : Instruction} {x : Arithmetic}
    (hi : upcoming m = some i)
    (hx : i.arithmetic m.cpu.regs (fun a => (Bus.read a (fetched m).bus).1) = some x) :
    (runOne m).1 = .ok () ∧
      x.target.Receives x.value (fetched m) (runOne m).2 ∧
      ∀ g : Flag, g.isSet (runOne m).2.cpu.regs.f = true ↔
        if g ∈ i.flags then x.Says g else g.isSet m.cpu.regs.f = true := by
  refine ⟨?_, receives_runOne hi hx, isSet_runOne hi hx⟩
  rw [runOne_of_upcoming hi]

/-- ADC HL,DE with HL = 7FFF, DE = 0 and a carry leaves the signed range. -/
theorem runOne_arithmetic_adcHLDE :
    let bus : Scripted Board := { inner := {}, script := [(0, 0xED), (1, 0x5A)] }
    let m : Machine (Scripted Board) Unit :=
      ⟨{ regs := { f := 0x01, h := 0x7F, l := 0xFF } }, bus, ()⟩
    upcoming m = some (.adcWord .de) ∧ ((runOne m).2.cpu.regs.hl.toNat : ℤ) = 0x8000 ∧
      Flag.p.isSet (runOne m).2.cpu.regs.f = true := by
  intro bus m
  let x : Arithmetic := .words false 0x7FFF 0 true (.word .hl)
  have hi : upcoming m = some (.adcWord .de) := by
    decide +revert
  have hx : (Instruction.adcWord .de).arithmetic m.cpu.regs
      (fun a => (Bus.read a (fetched m).bus).1) = some x := by
    decide +revert
  have hp : x.Says .p := by
    decide
  obtain ⟨-, hvalue, hflags⟩ := runOne_arithmetic hi hx
  exact ⟨hi, hvalue, (hflags .p).mpr hp⟩

end Exec

end Performing

end Z80
