import Mathlib.Data.Nat.Digits.Lemmas
import Z80.Proofs.Decimal
import Z80.Proofs.NumberParts
import Z80.Proofs.WordTransfers

/-!
# Long arithmetic

Numbers of any length are added and subtracted digit by digit from the lowest one on, and the
carry flag takes the carry from one digit to the next. A digit is a byte for ADC and SBC of the
accumulator and a word for those of HL. In the end all flags but Z are those of one sum or
difference of the whole numbers.

Main definitions:
- `digitNumber`, `byteNumber`, `wordNumber`: the number that digits spell.
- `Exec.digitPass`, `Exec.bytePass`, `Exec.wordPass`: an operation on each digit of two numbers.
- `Exec.Adds`, `Exec.Computes`: an operation adds or subtracts digits, and the same of numbers.
- `Exec.LongArithmetic`: what comes out of bytes and of words.

Main statements: `digitPass_whole` for a pass over digits of any width, and `longArithmetic`.
-/

namespace Z80

/-- The number that digits of equally many bits spell, the lowest one first. -/
def digitNumber {α : Type} {w : Nat} (bits : α → BitVec w) (xs : List α) : Nat :=
  Nat.ofDigits (2 ^ w) (xs.map fun x => (bits x).toNat)

theorem digitNumber_cons {α : Type} {w : Nat} (bits : α → BitVec w) (x : α) (xs : List α) :
    digitNumber bits (x :: xs) = (bits x).toNat + 2 ^ w * digitNumber bits xs := by
  rw [digitNumber, List.map_cons, Nat.ofDigits_cons]
  rfl

namespace Exec

open Arithmetic

variable {α β ω : Type}

/-- An operation on the digits of two numbers, from the lowest ones on. -/
def digitPass (step : α → α → Exec β ω α) (xs ys : List α) : Exec β ω (List α) :=
  (xs.zip ys).mapM fun (x, y) => step x y

theorem digitPass_cons (step : α → α → Exec β ω α) (x y : α) (xs ys : List α)
    (m : Machine β ω) :
    digitPass step (x :: xs) (y :: ys) m =
      ((step x y m).1 :: (digitPass step xs ys (step x y m).2).1,
        (digitPass step xs ys (step x y m).2).2) := by
  simp only [digitPass, List.zip_cons_cons, List.mapM_cons]
  rfl

/-- The carry flag of the machine. -/
def carryIn (m : Machine β ω) : Bool :=
  Flag.c.isSet m.cpu.regs.f

section Passes

variable {w : Nat} (bits : α → BitVec w) (hw : 0 < w) (subtracts : Bool)

/-- The operation adds or subtracts digits and the carry flag, and leaves the flags of that. -/
def Adds (step : α → α → Exec β ω α) : Prop :=
  ∀ x y m,
    let o : Arithmetic := ⟨w, hw, subtracts, bits x, bits y, carryIn m, .nowhere⟩
    bits (step x y m).1 = o.report.value ∧
      (step x y m).2.cpu.regs.f = o.report.flags subtracts m.cpu.regs.f

/-- Between two machines these digits have come out of a sum or difference, with its flags, but
for Z. -/
structure Computes (o : Arithmetic) (m : Machine β ω) (out : List α × Machine β ω) : Prop where
  value : (digitNumber bits out.1 : ℤ) = o.value
  flags : ∀ g : Flag, g ≠ .z → ¬(g = .x ∨ g = .y) → (g.isSet out.2.cpu.regs.f = true ↔ o.Says g)
  kept : ∀ g : Flag, g = .x ∨ g = .y → g.isSet out.2.cpu.regs.f = g.isSet m.cpu.regs.f

variable {bits}

/-- A digit and the flags with it are what the adder reports. -/
theorem computes_of_report {o : Arithmetic} {bits : α → BitVec o.width} {m m' : Machine β ω} {v : α}
    (hvalue : bits v = o.report.value)
    (hflags : m'.cpu.regs.f = o.report.flags o.subtracts m.cpu.regs.f) :
    Computes bits o m ([v], m') where
  value := by
    rw [← o.toNat_report, digitNumber_cons, hvalue]
    rfl
  flags g _ hg := by
    rw [hflags]
    exact o.isSet_report hg _
  kept g hg := by
    rw [hflags]
    rcases hg with rfl | rfl <;> simp [Sum.flags, Flag.isSet_put]

variable {hw subtracts} {step : α → α → Exec β ω α} (hstep : Adds bits hw subtracts step)
include hstep

theorem Adds.digit (x y : α) (m : Machine β ω) :
    let o := numbers w hw subtracts (bits x).toNat (bits y).toNat (carryIn m)
    Computes bits o m ([(step x y m).1], (step x y m).2) ∧
      carryIn (step x y m).2 = o.report.carry := by
  intro o
  have ho : o = ⟨w, hw, subtracts, bits x, bits y, carryIn m, .nowhere⟩ := numbers_toNat _ _ _ _ _
  obtain ⟨hvalue, hflags⟩ := hstep x y m
  rw [ho]
  refine ⟨computes_of_report hvalue hflags, ?_⟩
  rw [carryIn, hflags, Sum.isSet_c_flags]

/-- A pass over the digits of two numbers computes the sum or difference of the numbers. -/
theorem digitPass_whole (h4 : 4 ≤ w) {xs ys : List α} (hlen : xs.length = ys.length)
    (hpos : 0 < w * xs.length) (m : Machine β ω) :
    (digitPass step xs ys m).1.length = xs.length ∧
      Computes bits (numbers (w * xs.length) hpos subtracts (digitNumber bits xs)
        (digitNumber bits ys) (carryIn m)) m (digitPass step xs ys m) := by
  induction xs generalizing ys m with
  | nil => exact absurd hpos (Nat.lt_irrefl 0)
  | cons x xs ih =>
    cases ys with
    | nil => cases hlen
    | cons y ys =>
      have hlen := Nat.succ.inj hlen
      obtain ⟨hfirst, hcarry⟩ := hstep.digit x y m
      rw [digitPass_cons]
      -- there are no numbers of no bits, so the induction starts at the last digit
      cases xs with
      | nil =>
        obtain rfl : ys = [] := List.eq_nil_of_length_eq_zero hlen.symm
        have hwhole : numbers (w * [x].length) hpos subtracts (digitNumber bits [x])
            (digitNumber bits [y]) (carryIn m) =
            numbers w hw subtracts (bits x).toNat (bits y).toNat (carryIn m) := by
          rw [digitNumber_cons, digitNumber_cons]
          exact numbers_congr (Nat.mul_one w) _ _ _ _ _ _
        rw [hwhole]
        exact ⟨rfl, hfirst⟩
      | cons x' xs =>
        have hpos' : 0 < w * (x' :: xs).length := Nat.mul_pos hw (Nat.succ_pos _)
        obtain ⟨hlength, hrest⟩ := ih hlen hpos' (step x y m).2
        rw [hcarry] at hrest
        -- the carry out of the digit is the carry into the rest
        have hwhole : numbers (w * (x :: x' :: xs).length) hpos subtracts
            (digitNumber bits (x :: x' :: xs)) (digitNumber bits (y :: ys)) (carryIn m) =
            append hw hpos' subtracts (bits x).toNat (bits y).toNat (digitNumber bits (x' :: xs))
              (digitNumber bits ys) (carryIn m) := by
          rw [digitNumber_cons, digitNumber_cons]
          exact numbers_congr (Nat.mul_succ _ _ ▸ Nat.add_comm _ _) _ _ _ _ _ _
        have hlow : ((bits (step x y m).1).toNat : ℤ) =
            (numbers w hw subtracts (bits x).toNat (bits y).toNat (carryIn m)).value := by
          rw [← hfirst.value, digitNumber_cons]
          rfl
        have hwide : 4 ≤ w * (x' :: xs).length :=
          Nat.le_trans h4 (Nat.le_mul_of_pos_right w (Nat.succ_pos _))
        rw [hwhole]
        refine ⟨congrArg (· + 1) hlength, ?_, ?_, ?_⟩
        · rw [value_append hw hpos' subtracts (bits x).isLt (bits y).isLt, digitNumber_cons]
          push_cast
          rw [hrest.value, ← hlow]
          rfl
        · intro g hz hg
          rw [flags_append hw hpos' subtracts (bits x).isLt (bits y).isLt _ _ _ hwide hz]
          exact hrest.flags g hz hg
        · intro g hg
          exact (hrest.kept g hg).trans (hfirst.kept g hg)

end Passes

/-! ## Bytes and words -/

section Instructions

variable [Bus β] [Observer ω]

/-- ADC and SBC of the accumulator. -/
def byteOp (subtracts : Bool) : AluOp :=
  if subtracts then .sbc else .adc

/-- ADC and SBC of HL. -/
def wordOp (subtracts : Bool) (src : Reg16) : Instruction :=
  if subtracts then .sbcWord src else .adcWord src

/-- The accumulator takes in `x`, and `y` is added to it or subtracted from it. -/
def byteStep (op : AluOp) (x y : UInt8) : Exec β ω UInt8 := do
  perform (.load (.reg .a) (.imm x))
  perform (.alu op (.imm y))
  return (← regs).a

/-- HL takes in `x`, another register `y`, and this is added to HL or subtracted from it. -/
def wordStep (op : Reg16 → Instruction) (src : Reg16) (x y : UInt16) : Exec β ω UInt16 := do
  perform (.loadImm .hl x)
  perform (.loadImm src y)
  perform (op src)
  return (← regs).hl

/-- A pass over the bytes of two numbers, from the lowest on. -/
def bytePass (op : AluOp) : List UInt8 → List UInt8 → Exec β ω (List UInt8) :=
  digitPass (byteStep op)

/-- A pass over the words of two numbers, from the lowest on. -/
def wordPass (op : Reg16 → Instruction) (src : Reg16) :
    List UInt16 → List UInt16 → Exec β ω (List UInt16) :=
  digitPass (wordStep op src)

theorem adds_byteStep (subtracts : Bool) : Adds UInt8.toBitVec (by decide) subtracts
    (byteStep (byteOp subtracts) : UInt8 → UInt8 → Exec β ω UInt8) := by
  intro x y m o
  cases subtracts <;> exact ⟨rfl, rfl⟩

/-- What HL and the flags hold after ADC or SBC. -/
theorem report_wordOp (subtracts : Bool) {src : Reg16} {m : Machine β ω} {x y : UInt16}
    (hx : m.cpu.regs.hl = x) (hy : m.cpu.regs.word src = y) :
    let o : Arithmetic :=
      ⟨16, by decide, subtracts, x.toBitVec, y.toBitVec, carryIn m, .nowhere⟩
    (perform (wordOp subtracts src) m).2.cpu.regs.hl.toBitVec = o.report.value ∧
      (perform (wordOp subtracts src) m).2.cpu.regs.f = o.report.flags subtracts m.cpu.regs.f := by
  subst hx hy
  have hhl (v : UInt16) (f : UInt8) : { m.cpu.regs.setHL v with f := f }.hl = v := join_high_low v
  cases subtracts with
  | false => exact ⟨congrArg UInt16.toBitVec (hhl _ _), rfl⟩
  | true => exact ⟨congrArg UInt16.toBitVec (hhl _ _), rfl⟩

theorem adds_wordStep (subtracts : Bool) {src : Reg16} (hsrc : src ∈ [Reg16.bc, .de, .sp]) :
    Adds UInt16.toBitVec (by decide) subtracts
      (wordStep (wordOp subtracts) src : UInt16 → UInt16 → Exec β ω UInt16) := by
  intro x y m o
  let loaded : Machine β ω :=
    { m with cpu := { m.cpu with regs := (m.cpu.regs.setHL x).setWord src y } }
  have hword : loaded.cpu.regs.word src = y := Registers.word_setWord_self _ _ _
  simp only [List.mem_cons, List.not_mem_nil, or_false] at hsrc
  rcases hsrc with rfl | rfl | rfl <;>
    exact report_wordOp subtracts (m := loaded) (join_high_low x) hword

/-! ## Numbers of so many bytes -/

/-- The number that bytes spell, the lowest one first. -/
def byteNumber (vs : List UInt8) : Nat :=
  Nat.ofDigits 256 (vs.map UInt8.toNat)

/-- The number that words spell, the lowest one first. -/
def wordNumber (vs : List UInt16) : Nat :=
  Nat.ofDigits 65536 (vs.map UInt16.toNat)

/-- A number of `n` bytes read with a sign. -/
def signedNumber (n X : Nat) : ℤ :=
  if 2 * X < 256 ^ n then X else X - 256 ^ n

/-- The integer is none that `n` bytes with a sign can hold. -/
def OutOfRange (n : Nat) (t : ℤ) : Prop :=
  2 * t < -256 ^ n ∨ 256 ^ n ≤ 2 * t

theorem byteNumber_lt (vs : List UInt8) : byteNumber vs < 256 ^ vs.length := by
  have hdigit : ∀ d ∈ vs.map UInt8.toNat, d < 256 := by
    intro d hd
    obtain ⟨v, -, rfl⟩ := List.mem_map.mp hd
    exact v.toNat_lt
  have hlt := Nat.ofDigits_lt_base_pow_length (by decide : 1 < 256) hdigit
  rwa [List.length_map] at hlt

theorem byteNumber_low_high (w : UInt16) : byteNumber [low w, high w] = w.toNat := by
  show (low w).toNat + 256 * ((high w).toNat + 256 * 0) = w.toNat
  rw [toNat_low, toNat_high]
  omega

/-- Two bytes that spell a word are those of the word. -/
theorem eq_low_high_of_byteNumber {vs : List UInt8} {w : UInt16} (hlen : vs.length = 2)
    (h : byteNumber vs = w.toNat) : vs = [low w, high w] := by
  obtain ⟨lo, hi, rfl⟩ := List.length_eq_two.mp hlen
  have hw : w = join hi lo := by
    rw [← UInt16.toNat_inj, ← h, toNat_join]
    show lo.toNat + 256 * (hi.toNat + 256 * 0) = 256 * hi.toNat + lo.toNat
    omega
  rw [hw, low_join, high_join]

theorem wordNumber_singleton (w : UInt16) : wordNumber [w] = w.toNat :=
  Nat.ofDigits_singleton

theorem two_pow_eight_mul (n : Nat) : 2 ^ (8 * n) = 256 ^ n :=
  Nat.pow_mul 2 8 n

theorem two_mul_two_pow_pred {n : Nat} (hpos : 0 < 8 * n) : 2 * 2 ^ (8 * n - 1) = 256 ^ n := by
  rw [Nat.mul_comm, Nat.two_pow_pred_mul_two hpos, two_pow_eight_mul]

theorem toInt_ofNat_bytes {n X : Nat} (hX : X < 256 ^ n) :
    (BitVec.ofNat (8 * n) X).toInt = signedNumber n X := by
  rw [BitVec.toInt_eq_toNat_cond, BitVec.toNat_ofNat, two_pow_eight_mul, Nat.mod_eq_of_lt hX,
    signedNumber]
  push_cast
  rfl

section Reports

variable {n : Nat} (hpos : 0 < 8 * n) (subtracts : Bool) {X Y : Nat} (hX : X < 256 ^ n)
  (hY : Y < 256 ^ n) (c : Bool)
include hX hY

theorem value_numbers_bytes : (numbers (8 * n) hpos subtracts X Y c).value =
    combine subtracts X Y c % 256 ^ n := by
  rw [value_numbers, BitVec.toNat_ofNat, BitVec.toNat_ofNat, two_pow_eight_mul,
    Nat.mod_eq_of_lt hX, Nat.mod_eq_of_lt hY]
  congr 1
  exact_mod_cast two_pow_eight_mul n

theorem carriesOut_numbers_bytes : (numbers (8 * n) hpos subtracts X Y c).CarriesOut (8 * n) ↔
    if subtracts then X < Y + c.toNat else 256 ^ n ≤ X + Y + c.toNat := by
  unfold CarriesOut
  simp only [numbers, BitVec.toNat_ofNat, two_pow_eight_mul, Nat.mod_eq_of_lt hX,
    Nat.mod_eq_of_lt hY]

theorem overflow_numbers_bytes : (numbers (8 * n) hpos subtracts X Y c).Says .p ↔
    OutOfRange n (combine subtracts (signedNumber n X) (signedNumber n Y) c) := by
  have hpow : 2 * (2 : ℤ) ^ (8 * n - 1) = 256 ^ n := by
    exact_mod_cast two_mul_two_pow_pred hpos
  show combine subtracts (BitVec.ofNat (8 * n) X).toInt (BitVec.ofNat (8 * n) Y).toInt c <
      -2 ^ (8 * n - 1) ∨
    2 ^ (8 * n - 1) ≤ combine subtracts (BitVec.ofNat (8 * n) X).toInt
      (BitVec.ofNat (8 * n) Y).toInt c ↔ _
  rw [toInt_ofNat_bytes hX, toInt_ofNat_bytes hY, OutOfRange, ← hpow]
  apply or_congr
  · constructor <;> intro h <;> linarith
  · constructor <;> intro h <;> linarith

end Reports

/-! ## All of it -/

/-- What a pass over bytes leaves, what one over words does, and what a single operation on words
has in common with one over its two bytes. -/
structure LongArithmetic (m : Machine β ω) : Prop where
  /-- ADC on each byte gives the sum, and the last flags are those of it. -/
  sum : ∀ xs ys : List UInt8, xs ≠ [] → xs.length = ys.length →
    let n := xs.length
    let X := byteNumber xs
    let Y := byteNumber ys
    let c := carryOf m.cpu.regs.f
    let out := bytePass .adc xs ys m
    let V := byteNumber out.1
    out.1.length = n ∧ V = (X + Y + c) % 256 ^ n ∧
      (Flag.c.isSet out.2.cpu.regs.f = true ↔ 256 ^ n ≤ X + Y + c) ∧
      (Flag.s.isSet out.2.cpu.regs.f = true ↔ 256 ^ n ≤ 2 * V) ∧
      (Flag.p.isSet out.2.cpu.regs.f = true ↔
        OutOfRange n (signedNumber n X + signedNumber n Y + c))
  /-- SBC on each byte gives the difference, and the last flags are those of it. -/
  difference : ∀ xs ys : List UInt8, xs ≠ [] → xs.length = ys.length →
    let n := xs.length
    let X := byteNumber xs
    let Y := byteNumber ys
    let c := carryOf m.cpu.regs.f
    let out := bytePass .sbc xs ys m
    let V := byteNumber out.1
    out.1.length = n ∧ (V : ℤ) = ((X : ℤ) - Y - c) % 256 ^ n ∧
      (Flag.c.isSet out.2.cpu.regs.f = true ↔ X < Y + c) ∧
      (Flag.s.isSet out.2.cpu.regs.f = true ↔ 256 ^ n ≤ 2 * V) ∧
      (Flag.p.isSet out.2.cpu.regs.f = true ↔
        OutOfRange n (signedNumber n X - signedNumber n Y - c))
  /-- The same numbers in words give the same number and the same flags, but for Z. -/
  words : ∀ (xs ys : List UInt8) (us vs : List UInt16), xs ≠ [] → xs.length = ys.length →
    us.length = vs.length → 2 * us.length = xs.length → wordNumber us = byteNumber xs →
    wordNumber vs = byteNumber ys → ∀ src ∈ [Reg16.bc, .de, .sp], ∀ subtracts : Bool,
    let narrow := bytePass (byteOp subtracts) xs ys m
    let wide := wordPass (wordOp subtracts) src us vs m
    wide.1.length = us.length ∧ wordNumber wide.1 = byteNumber narrow.1 ∧
      ∀ g : Flag, g ≠ .z → g.isSet wide.2.cpu.regs.f = g.isSet narrow.2.cpu.regs.f
  /-- One operation on HL does what two on its bytes do, lower ones first, but Z tells of the
  whole word. -/
  word : ∀ (src : Reg16) (subtracts : Bool),
    let x := m.cpu.regs.hl
    let y := m.cpu.regs.word src
    let narrow := bytePass (byteOp subtracts) [low x, high x] [low y, high y] m
    let wide := (perform (wordOp subtracts src) m).2.cpu.regs
    narrow.1 = [low wide.hl, high wide.hl] ∧
      (∀ g : Flag, g ≠ .z → g.isSet wide.f = g.isSet narrow.2.cpu.regs.f) ∧
      (Flag.z.isSet wide.f = true ↔ wide.hl = 0)

/-- A pass over bytes computes with the numbers that they spell. -/
theorem bytePass_computes {xs ys : List UInt8} (hlen : xs.length = ys.length)
    (hpos : 0 < 8 * xs.length) (subtracts : Bool) (m : Machine β ω) :
    (bytePass (byteOp subtracts) xs ys m).1.length = xs.length ∧
      Computes UInt8.toBitVec (numbers (8 * xs.length) hpos subtracts (byteNumber xs)
        (byteNumber ys) (carryIn m)) m (bytePass (byteOp subtracts) xs ys m) :=
  digitPass_whole (adds_byteStep subtracts) (by decide) hlen hpos m

omit [Bus β] [Observer ω] in
/-- Passes that compute the same agree in number and flags. -/
theorem Computes.agree {o : Arithmetic} {m : Machine β ω} {out : List UInt8 × Machine β ω}
    {out' : List UInt16 × Machine β ω} (h : Computes UInt8.toBitVec o m out)
    (h' : Computes UInt16.toBitVec o m out') :
    wordNumber out'.1 = byteNumber out.1 ∧
      ∀ g : Flag, g ≠ .z → g.isSet out'.2.cpu.regs.f = g.isSet out.2.cpu.regs.f := by
  refine ⟨Int.natCast_inj.mp (h'.value.trans h.value.symm), fun g hz => ?_⟩
  by_cases hg : g = .x ∨ g = .y
  · exact (h'.kept g hg).trans (h.kept g hg).symm
  · rw [Bool.eq_iff_iff]
    exact (h'.flags g hz hg).trans (h.flags g hz hg).symm

/-- The flags of a pass over bytes, in numbers. -/
theorem bytePass_flags {xs ys : List UInt8} (hne : xs ≠ []) (hlen : xs.length = ys.length)
    (subtracts : Bool) (m : Machine β ω) :
    let n := xs.length
    let X := byteNumber xs
    let Y := byteNumber ys
    let out := bytePass (byteOp subtracts) xs ys m
    let V := byteNumber out.1
    out.1.length = n ∧ (V : ℤ) = combine subtracts X Y (carryIn m) % 256 ^ n ∧
      (Flag.c.isSet out.2.cpu.regs.f = true ↔
        if subtracts then X < Y + (carryIn m).toNat else 256 ^ n ≤ X + Y + (carryIn m).toNat) ∧
      (Flag.s.isSet out.2.cpu.regs.f = true ↔ 256 ^ n ≤ 2 * V) ∧
      (Flag.p.isSet out.2.cpu.regs.f = true ↔ OutOfRange n
        (combine subtracts (signedNumber n X) (signedNumber n Y) (carryIn m))) := by
  intro n X Y out V
  have hpos : 0 < 8 * xs.length := Nat.mul_pos (by decide) (List.length_pos_iff.mpr hne)
  have hX : X < 256 ^ n := byteNumber_lt xs
  have hY : Y < 256 ^ n := by
    show Y < 256 ^ xs.length
    rw [hlen]
    exact byteNumber_lt ys
  obtain ⟨hlength, hcomputes⟩ := bytePass_computes hlen hpos subtracts m
  have hvalue : (V : ℤ) = _ := hcomputes.value
  refine ⟨hlength, ?_, ?_, ?_, ?_⟩
  · rw [hvalue, value_numbers_bytes hpos subtracts hX hY]
  · rw [hcomputes.flags .c (by decide) (by decide)]
    exact carriesOut_numbers_bytes hpos subtracts hX hY (carryIn m)
  · rw [hcomputes.flags .s (by decide) (by decide)]
    show 2 ^ (8 * n - 1) ≤ (numbers (8 * n) hpos subtracts X Y (carryIn m)).value ↔ _
    have hpow : 2 * 2 ^ (8 * n - 1) = 256 ^ n := two_mul_two_pow_pred hpos
    rw [← hvalue, ← hpow, Nat.mul_le_mul_left_iff Nat.two_pos]
    exact_mod_cast Iff.rfl
  · rw [hcomputes.flags .p (by decide) (by decide)]
    exact overflow_numbers_bytes hpos subtracts hX hY (carryIn m)

/-- A pass over words agrees with one over bytes that spell the same numbers. -/
theorem wordPass_agrees {xs ys : List UInt8} {us vs : List UInt16} (hne : xs ≠ [])
    (hlen : xs.length = ys.length) (hlen' : us.length = vs.length)
    (hdouble : 2 * us.length = xs.length) (hX : wordNumber us = byteNumber xs)
    (hY : wordNumber vs = byteNumber ys) {src : Reg16} (hsrc : src ∈ [Reg16.bc, .de, .sp])
    (subtracts : Bool) (m : Machine β ω) :
    let narrow := bytePass (byteOp subtracts) xs ys m
    let wide := wordPass (wordOp subtracts) src us vs m
    wide.1.length = us.length ∧ wordNumber wide.1 = byteNumber narrow.1 ∧
      ∀ g : Flag, g ≠ .z → g.isSet wide.2.cpu.regs.f = g.isSet narrow.2.cpu.regs.f := by
  intro narrow wide
  have hpos : 0 < 8 * xs.length := Nat.mul_pos (by decide) (List.length_pos_iff.mpr hne)
  have hpos' : 0 < 16 * us.length := by omega
  obtain ⟨-, hnarrow⟩ := bytePass_computes hlen hpos subtracts m
  obtain ⟨hlength, hwide⟩ :=
    digitPass_whole (adds_wordStep subtracts hsrc) (by decide) hlen' hpos' m
  have hsame : numbers (16 * us.length) hpos' subtracts (digitNumber UInt16.toBitVec us)
      (digitNumber UInt16.toBitVec vs) (carryIn m) =
      numbers (8 * xs.length) hpos subtracts (byteNumber xs) (byteNumber ys) (carryIn m) := by
    rw [← hX, ← hY]
    exact numbers_congr (by omega) _ _ _ _ _ _
  rw [hsame] at hwide
  exact ⟨hlength, hnarrow.agree hwide⟩

/-- An operation on HL agrees with a pass over the bytes of its operands. -/
theorem wordOp_agrees (src : Reg16) (subtracts : Bool) (m : Machine β ω) :
    let x := m.cpu.regs.hl
    let y := m.cpu.regs.word src
    let narrow := bytePass (byteOp subtracts) [low x, high x] [low y, high y] m
    let wide := (perform (wordOp subtracts src) m).2.cpu.regs
    narrow.1 = [low wide.hl, high wide.hl] ∧
      (∀ g : Flag, g ≠ .z → g.isSet wide.f = g.isSet narrow.2.cpu.regs.f) ∧
      (Flag.z.isSet wide.f = true ↔ wide.hl = 0) := by
  intro x y narrow wide
  have hpos : 0 < 8 * [low x, high x].length := Nat.succ_pos _
  have hlen : [low x, high x].length = [low y, high y].length := rfl
  obtain ⟨hlength, hnarrow⟩ := bytePass_computes hlen hpos subtracts m
  rw [byteNumber_low_high, byteNumber_low_high] at hnarrow
  obtain ⟨hvalue, hflags⟩ := report_wordOp (m := m) subtracts (rfl : _ = x) (rfl : _ = y)
  have hwide : Computes UInt16.toBitVec (numbers (8 * [low x, high x].length) hpos subtracts
      x.toNat y.toNat (carryIn m)) m ([wide.hl], (perform (wordOp subtracts src) m).2) := by
    have ho : numbers (8 * [low x, high x].length) hpos subtracts x.toNat y.toNat (carryIn m) =
        ⟨16, by decide, subtracts, x.toBitVec, y.toBitVec, carryIn m, .nowhere⟩ :=
      numbers_toNat _ _ x.toBitVec y.toBitVec _
    rw [ho]
    exact computes_of_report hvalue hflags
  obtain ⟨hnumber, hagree⟩ := hnarrow.agree hwide
  refine ⟨?_, hagree, ?_⟩
  · refine eq_low_high_of_byteNumber hlength (hnumber.symm.trans ?_)
    exact wordNumber_singleton _
  · rw [hflags, Sum.isSet_z_flags, beq_iff_eq, ← hvalue]
    exact UInt16.toBitVec_inj

/-- Sums and differences of numbers of any length come out right, with the flags of the whole, in
bytes as well as in words. -/
theorem longArithmetic (m : Machine β ω) : LongArithmetic m where
  sum xs ys hne hlen := by
    obtain ⟨hlength, hvalue, hflags⟩ := bytePass_flags hne hlen false m
    refine ⟨hlength, Int.natCast_inj.mp (hvalue.trans ?_), hflags⟩
    push_cast
    rfl
  difference xs ys hne hlen := bytePass_flags hne hlen true m
  words _ _ _ _ hne hlen hlen' hdouble hX hY _ hsrc subtracts :=
    wordPass_agrees hne hlen hlen' hdouble hX hY hsrc subtracts m
  word src subtracts := wordOp_agrees src subtracts m

end Instructions

/-- 7FFF and 0001, in bytes and in words. -/
theorem longArithmetic_7FFF_0001 :
    let m : Machine Board Unit := ⟨{ regs := {} }, {}, ()⟩
    let narrow := bytePass .adc [0xFF, 0x7F] [0x01, 0x00] m
    let wide := wordPass .adcWord .de [0x7FFF] [0x0001] m
    byteNumber narrow.1 = 0x8000 ∧ wordNumber wide.1 = 0x8000 ∧
      Flag.c.isSet wide.2.cpu.regs.f = false ∧ Flag.p.isSet wide.2.cpu.regs.f = true := by
  intro m narrow wide
  obtain ⟨-, hvalue, hcarry, -, hoverflow⟩ :=
    (longArithmetic m).sum [0xFF, 0x7F] [0x01, 0x00] (List.cons_ne_nil _ _) rfl
  obtain ⟨-, hnumber, hagree⟩ := (longArithmetic m).words [0xFF, 0x7F] [0x01, 0x00] [0x7FFF]
    [0x0001] (List.cons_ne_nil _ _) rfl rfl rfl rfl rfl .de (by decide) false
  have hsum : byteNumber narrow.1 = 0x8000 := hvalue.trans (by decide)
  have hnone : Flag.c.isSet narrow.2.cpu.regs.f ≠ true := fun h => absurd (hcarry.mp h) (by decide)
  refine ⟨hsum, hnumber.trans hsum, ?_, ?_⟩
  · exact (hagree .c (by decide)).trans (Bool.eq_false_iff.mpr hnone)
  · exact (hagree .p (by decide)).trans (hoverflow.mpr (.inr (by decide)))

end Exec

end Z80
