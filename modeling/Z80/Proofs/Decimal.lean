import Mathlib.Data.Nat.Digits.Lemmas
import Mathlib.Tactic.LinearCombination
import Z80.Board
import Z80.Proofs.Carries
import Z80.Proofs.DecimalAdjust
import Z80.Proofs.Execution

/-!
# Decimal arithmetic

Numbers of any length, two decimal digits to a byte, are added and subtracted byte by
byte from the lowest one on. ADC or SBC works on a byte, DAA puts its digits right, and C
carries over to the next one.

Main definitions:
- `IsPacked`, `packed`, `packedNumber`: bytes of two decimal digits, and their numbers.
- `Exec.decimalPass`: ADC or SBC, and then DAA, on each byte of two numbers.
- `Balanced`: what one byte of such a pass does to digits and carry.

Main statements: `balanced_adc` and `balanced_sbc` for one byte, `decimalPass_balanced` for
a pass, and `decimalPass_sum_and_difference` for what comes out of it.
-/

namespace Z80

/-! ## Decimal digits -/

/-- Are both digits of the byte decimal? -/
def IsPacked (v : UInt8) : Prop :=
  upperDigit v ≤ 9 ∧ lowerDigit v ≤ 9

instance (v : UInt8) : Decidable (IsPacked v) :=
  inferInstanceAs (Decidable (_ ∧ _))

/-- The number below a hundred that two decimal digits spell. -/
def packed (v : UInt8) : Nat :=
  10 * (upperDigit v).toNat + (lowerDigit v).toNat

/-- The number that bytes of two decimal digits spell, the lowest one first. -/
def packedNumber (vs : List UInt8) : Nat :=
  Nat.ofDigits 100 (vs.map packed)

theorem isPacked_iff (v : UInt8) : IsPacked v ↔ v.toNat / 16 ≤ 9 ∧ v.toNat % 16 ≤ 9 := by
  rw [← toNat_upperDigit, ← toNat_lowerDigit]
  exact Iff.rfl

theorem packed_eq (v : UInt8) : packed v = 10 * (v.toNat / 16) + v.toNat % 16 := by
  rw [packed, toNat_upperDigit, toNat_lowerDigit]

theorem packed_lt {v : UInt8} (h : IsPacked v) : packed v < 100 := by
  rw [isPacked_iff] at h
  rw [packed_eq]
  omega

theorem packedNumber_cons (v : UInt8) (vs : List UInt8) :
    packedNumber (v :: vs) = packed v + 100 * packedNumber vs := by
  rw [packedNumber, List.map_cons, Nat.ofDigits_cons]
  rfl

theorem packedNumber_lt {vs : List UInt8} (h : ∀ v ∈ vs, IsPacked v) :
    packedNumber vs < 100 ^ vs.length := by
  have hdigit : ∀ d ∈ vs.map packed, d < 100 := by
    intro d hd
    obtain ⟨v, hv, rfl⟩ := List.mem_map.mp hd
    exact packed_lt (h v hv)
  have hlt := Nat.ofDigits_lt_base_pow_length (by decide : 1 < 100) hdigit
  rwa [List.length_map] at hlt

/-! ## One byte -/

/-- The digits of a sum of two pairs: where the lower ones reach ten, six is missing to the
next multiple of sixteen, and likewise for the upper ones. -/
theorem digits_of_added {x y c a low acc : Nat} {half carry : Prop} [Decidable half]
    [Decidable carry] (hx : x / 16 ≤ 9 ∧ x % 16 ≤ 9) (hy : y / 16 ≤ 9 ∧ y % 16 ≤ 9) (hc : c ≤ 1)
    (ha : a = (x + y + c) % 256) (hhalf : half ↔ 16 ≤ x % 16 + y % 16 + c)
    (hcarry : carry ↔ 256 ≤ x + y + c)
    (hlow : low = a + if half ∨ 9 < a % 16 then 6 else 0)
    (hacc : acc = low + if carry ∨ 160 ≤ low then 96 else 0) :
    (acc % 256 / 16 ≤ 9 ∧ acc % 256 % 16 ≤ 9) ∧
      10 * (acc % 256 / 16) + acc % 256 % 16 + 100 * (if carry ∨ 256 ≤ acc then 1 else 0) =
        10 * (x / 16) + x % 16 + (10 * (y / 16) + y % 16) + c := by
  -- `k` is the carry of the lower decimal digits
  obtain ⟨k, hk, hlow'⟩ : ∃ k,
      (10 ≤ x % 16 + y % 16 + c ∧ k = 1 ∨ x % 16 + y % 16 + c < 10 ∧ k = 0) ∧
        low = a + 6 * k := by
    by_cases h : 10 ≤ x % 16 + y % 16 + c
    · have hcorrect : half ∨ 9 < a % 16 := by
        rw [hhalf]
        omega
      exact ⟨1, Or.inl ⟨h, rfl⟩, by rw [hlow, if_pos hcorrect]⟩
    · have hcorrect : ¬(half ∨ 9 < a % 16) := by
        rw [hhalf]
        omega
      exact ⟨0, Or.inr ⟨Nat.lt_of_not_le h, rfl⟩, by rw [hlow, if_neg hcorrect]⟩
  by_cases h : 10 ≤ x / 16 + y / 16 + k
  · have hcorrect : carry ∨ 160 ≤ low := by
      rw [hcarry]
      omega
    rw [if_pos hcorrect] at hacc
    have hout : carry ∨ 256 ≤ acc := by
      rw [hcarry]
      omega
    rw [if_pos hout]
    omega
  · have hcorrect : ¬(carry ∨ 160 ≤ low) := by
      rw [hcarry]
      omega
    rw [if_neg hcorrect] at hacc
    have hout : ¬(carry ∨ 256 ≤ acc) := by
      rw [hcarry]
      omega
    rw [if_neg hout]
    omega

/-- The digits of a difference of two pairs: where a lower digit borrows it borrows sixteen,
which is six too much, and likewise for an upper one. -/
theorem digits_of_subtracted {x y c a low v : Nat} {half carry : Prop} [Decidable half]
    [Decidable carry] (hx : x / 16 ≤ 9 ∧ x % 16 ≤ 9) (hy : y / 16 ≤ 9 ∧ y % 16 ≤ 9) (hc : c ≤ 1)
    (ha : a = (256 + x - y - c) % 256) (hhalf : half ↔ x % 16 < y % 16 + c)
    (hcarry : carry ↔ x < y + c)
    (hlow : low = (a + if half ∨ 9 < a % 16 then 250 else 0) % 256)
    (hv : v = (low + if carry then 160 else 0) % 256) :
    (v / 16 ≤ 9 ∧ v % 16 ≤ 9) ∧
      10 * (v / 16) + v % 16 + (10 * (y / 16) + y % 16) + c =
        10 * (x / 16) + x % 16 + 100 * (if carry then 1 else 0) := by
  -- `k` is the borrow of the lower decimal digits
  obtain ⟨k, hk, hlow'⟩ : ∃ k, (x % 16 < y % 16 + c ∧ k = 1 ∨ y % 16 + c ≤ x % 16 ∧ k = 0) ∧
      low = (a + 250 * k) % 256 := by
    by_cases h : x % 16 < y % 16 + c
    · exact ⟨1, Or.inl ⟨h, rfl⟩, by rw [hlow, if_pos (Or.inl (hhalf.mpr h))]⟩
    · have hcorrect : ¬(half ∨ 9 < a % 16) := by
        rw [hhalf]
        omega
      exact ⟨0, Or.inr ⟨Nat.le_of_not_lt h, rfl⟩, by rw [hlow, if_neg hcorrect]⟩
  by_cases h : x < y + c
  · rw [if_pos (hcarry.mpr h)] at hv ⊢
    omega
  · rw [if_neg (mt hcarry.mp h)] at hv ⊢
    omega

/-- The carry flag as a number. -/
def carryOf (f : UInt8) : Nat :=
  (Flag.c.isSet f).toNat

theorem carryOf_eq_ite (f : UInt8) : carryOf f = if Flag.c.isSet f = true then 1 else 0 := by
  unfold carryOf
  cases Flag.c.isSet f <;> rfl

theorem adjust_added {x y : UInt8} (hx : IsPacked x) (hy : IsPacked y) (f : UInt8) :
    let o := AluOp.adc.apply x y f
    let p := decimalAdjust o.value o.flags
    IsPacked p.value ∧
      packed p.value + 100 * carryOf p.flags = packed x + packed y + carryOf f := by
  intro o p
  have hn : Flag.n.isSet o.flags = false := Sum.isSet_n_flags _ _ _
  have hcarry : Flag.c.isSet o.flags = true ↔ 256 ≤ x.toNat + y.toNat + carryOf f := by
    simp [o, AluOp.apply, addByte, Sum.carry_add, carryOf]
  have hhalf : Flag.h.isSet o.flags = true ↔ 16 ≤ x.toNat % 16 + y.toNat % 16 + carryOf f := by
    simp [o, AluOp.apply, addByte, Sum.half_add, carryOf]
  have hvalue : o.value.toNat = (x.toNat + y.toNat + carryOf f) % 256 :=
    Sum.toNat_value_add x.toBitVec y.toBitVec (Flag.c.isSet f)
  obtain ⟨hp, hc⟩ := decimalAdjust_of_added (a := o.value) hn
  rw [isPacked_iff] at hx hy
  rw [isPacked_iff, packed_eq, packed_eq, packed_eq, carryOf_eq_ite p.flags, if_congr hc rfl rfl,
    hp]
  exact digits_of_added hx hy (Bool.toNat_le _) hvalue hhalf hcarry rfl rfl

theorem adjust_subtracted {x y : UInt8} (hx : IsPacked x) (hy : IsPacked y) (f : UInt8) :
    let o := AluOp.sbc.apply x y f
    let p := decimalAdjust o.value o.flags
    IsPacked p.value ∧
      packed p.value + packed y + carryOf f = packed x + 100 * carryOf p.flags := by
  intro o p
  have hn : Flag.n.isSet o.flags = true := Sum.isSet_n_flags _ _ _
  have hcarry : Flag.c.isSet o.flags = true ↔ x.toNat < y.toNat + carryOf f := by
    simp [o, AluOp.apply, subByte, Sum.carry_sub, carryOf]
  have hhalf : Flag.h.isSet o.flags = true ↔ x.toNat % 16 < y.toNat % 16 + carryOf f := by
    simp [o, AluOp.apply, subByte, Sum.half_sub, carryOf]
  have hvalue : o.value.toNat = (256 + x.toNat - y.toNat - carryOf f) % 256 :=
    Sum.toNat_value_sub x.toBitVec y.toBitVec (Flag.c.isSet f)
  rw [isPacked_iff] at hx hy
  have hsmall : Flag.c.isSet o.flags = true ∨ o.value.toNat ≤ 0x99 := by
    rw [hcarry, hvalue]
    omega
  obtain ⟨hp, hc⟩ := decimalAdjust_of_subtracted hn hsmall
  rw [isPacked_iff, packed_eq, packed_eq, packed_eq, carryOf_eq_ite p.flags, hc, hp]
  exact digits_of_subtracted hx hy (Bool.toNat_le _) hvalue hhalf hcarry rfl rfl

/-- One byte of a decimal sum (`σ` is 1) or difference (`σ` is -1): from decimal digits come
decimal digits, and what is added to the byte in all ends up in the byte and its carry. -/
def Balanced (op : AluOp) (σ : ℤ) : Prop :=
  ∀ x y f : UInt8, IsPacked x → IsPacked y →
    let o := op.apply x y f
    let p := decimalAdjust o.value o.flags
    IsPacked p.value ∧
      (packed p.value : ℤ) + σ * (100 * carryOf p.flags) = packed x + σ * (packed y + carryOf f)

theorem balanced_adc : Balanced .adc 1 := by
  intro x y f hx hy o p
  obtain ⟨hpacked, hsum⟩ := adjust_added hx hy f
  have hcast : (packed p.value : ℤ) + 100 * carryOf p.flags = packed x + packed y + carryOf f := by
    exact_mod_cast hsum
  exact ⟨hpacked, by linear_combination hcast⟩

theorem balanced_sbc : Balanced .sbc (-1) := by
  intro x y f hx hy o p
  obtain ⟨hpacked, hdifference⟩ := adjust_subtracted hx hy f
  have hcast : (packed p.value : ℤ) + packed y + carryOf f = packed x + 100 * carryOf p.flags := by
    exact_mod_cast hdifference
  exact ⟨hpacked, by linear_combination hcast⟩

/-! ## All bytes -/

namespace Exec

variable {β ω : Type} [Bus β] [Observer ω]

/-- One byte of a pass: the accumulator takes in `x`, `y` is added to or subtracted from it,
and DAA puts the digits right. -/
def decimalByte (op : AluOp) (x y : UInt8) : Exec β ω UInt8 := do
  perform (.load (.reg .a) (.imm x))
  perform (.alu op (.imm y))
  perform .daa
  return (← regs).a

/-- A pass over the bytes of two numbers, from the lowest on. Between two bytes only the flags
carry something over. -/
def decimalPass (op : AluOp) (xs ys : List UInt8) : Exec β ω (List UInt8) :=
  (xs.zip ys).mapM fun (x, y) => decimalByte op x y

theorem decimalByte_apply (op : AluOp) (x y : UInt8) (m : Machine β ω) :
    let o := op.apply x y m.cpu.regs.f
    let p := decimalAdjust o.value o.flags
    (decimalByte op x y m).1 = p.value ∧ (decimalByte op x y m).2.cpu.regs.f = p.flags :=
  ⟨rfl, rfl⟩

theorem decimalPass_nil (op : AluOp) (ys : List UInt8) (m : Machine β ω) :
    decimalPass op [] ys m = ([], m) := rfl

theorem decimalPass_cons (op : AluOp) (x y : UInt8) (xs ys : List UInt8) (m : Machine β ω) :
    decimalPass op (x :: xs) (y :: ys) m =
      ((decimalByte op x y m).1 :: (decimalPass op xs ys (decimalByte op x y m).2).1,
        (decimalPass op xs ys (decimalByte op x y m).2).2) := by
  simp only [decimalPass, List.zip_cons_cons, List.mapM_cons]
  rfl

/-- A pass keeps the balance of its bytes. -/
theorem decimalPass_balanced {op : AluOp} {σ : ℤ} (hop : Balanced op σ) {xs ys : List UInt8}
    (hlen : xs.length = ys.length) (hxs : ∀ x ∈ xs, IsPacked x) (hys : ∀ y ∈ ys, IsPacked y)
    (m : Machine β ω) :
    let out := decimalPass op xs ys m
    out.1.length = xs.length ∧ (∀ v ∈ out.1, IsPacked v) ∧
      (packedNumber out.1 : ℤ) + σ * (100 ^ xs.length * carryOf out.2.cpu.regs.f) =
        packedNumber xs + σ * (packedNumber ys + carryOf m.cpu.regs.f) := by
  induction xs generalizing ys m with
  | nil =>
    obtain rfl : ys = [] := List.eq_nil_of_length_eq_zero hlen.symm
    simp [decimalPass_nil, packedNumber]
  | cons x xs ih =>
    cases ys with
    | nil => cases hlen
    | cons y ys =>
      obtain ⟨hx, hxs⟩ := List.forall_mem_cons.mp hxs
      obtain ⟨hy, hys⟩ := List.forall_mem_cons.mp hys
      obtain ⟨hvalue, hflags⟩ := decimalByte_apply op x y m
      obtain ⟨hpacked, hbyte⟩ := hop x y m.cpu.regs.f hx hy
      rw [← hvalue] at hpacked
      rw [← hvalue, ← hflags] at hbyte
      obtain ⟨hlength, hpackeds, hrest⟩ := ih (Nat.succ.inj hlen) hxs hys (decimalByte op x y m).2
      rw [decimalPass_cons]
      refine ⟨congrArg (· + 1) hlength, List.forall_mem_cons.mpr ⟨hpacked, hpackeds⟩, ?_⟩
      simp only [packedNumber_cons, List.length_cons, pow_succ]
      push_cast
      -- the carry out of the byte is the carry into the rest, a hundred times the weight
      linear_combination hbyte + 100 * hrest

section Pass

variable {xs ys : List UInt8} (hlen : xs.length = ys.length) (hxs : ∀ x ∈ xs, IsPacked x)
  (hys : ∀ y ∈ ys, IsPacked y) (m : Machine β ω)
include hlen hxs hys

theorem decimalPass_adc :
    let X := packedNumber xs
    let Y := packedNumber ys
    let c := carryOf m.cpu.regs.f
    let sum := decimalPass .adc xs ys m
    sum.1.length = xs.length ∧ (∀ v ∈ sum.1, IsPacked v) ∧
      packedNumber sum.1 = (X + Y + c) % 100 ^ xs.length ∧
      (Flag.c.isSet sum.2.cpu.regs.f = true ↔ 100 ^ xs.length ≤ X + Y + c) := by
  intro X Y c sum
  obtain ⟨hlength, hpacked, hsum⟩ := decimalPass_balanced balanced_adc hlen hxs hys m
  have hlt := packedNumber_lt hpacked
  rw [hlength] at hlt
  have hnat : packedNumber sum.1 + 100 ^ xs.length * carryOf sum.2.cpu.regs.f = X + Y + c := by
    zify
    linear_combination hsum
  rw [← hnat, Nat.add_mul_mod_self_left, Nat.mod_eq_of_lt hlt]
  refine ⟨hlength, hpacked, rfl, ?_⟩
  rw [carryOf_eq_ite]
  split
  · next h => simp [h]
  · next h => simpa [h] using hlt

theorem decimalPass_sbc :
    let X := packedNumber xs
    let Y := packedNumber ys
    let c := carryOf m.cpu.regs.f
    let difference := decimalPass .sbc xs ys m
    difference.1.length = xs.length ∧ (∀ v ∈ difference.1, IsPacked v) ∧
      (packedNumber difference.1 : ℤ) = ((X : ℤ) - Y - c) % 100 ^ xs.length ∧
      (Flag.c.isSet difference.2.cpu.regs.f = true ↔ X < Y + c) := by
  intro X Y c difference
  obtain ⟨hlength, hpacked, hdifference⟩ := decimalPass_balanced balanced_sbc hlen hxs hys m
  have hnat := packedNumber_lt hpacked
  rw [hlength] at hnat
  have hint : (X : ℤ) - Y - c =
      packedNumber difference.1 - 100 ^ xs.length * carryOf difference.2.cpu.regs.f := by
    linear_combination -hdifference
  have hlt : (packedNumber difference.1 : ℤ) < 100 ^ xs.length := by exact_mod_cast hnat
  rw [hint, Int.sub_mul_emod_self_left, Int.emod_eq_of_lt (Int.natCast_nonneg _) hlt]
  refine ⟨hlength, hpacked, rfl, ?_⟩
  rw [carryOf_eq_ite] at hint
  split at hint
  · next h =>
    rw [h]
    push_cast at hint
    constructor
    · intro _
      omega
    · intro _
      rfl
  · next h =>
    push_cast at hint
    constructor
    · intro h'
      exact absurd h' h
    · omega

end Pass

/-- Two numbers of equally many decimal digits, in bytes of two, and a carry: a pass with ADC
gives their sum and a pass with SBC their difference, modulo the number of values that so many
digits have, and C tells whether the true result was one of these. -/
theorem decimalPass_sum_and_difference {xs ys : List UInt8} (hlen : xs.length = ys.length)
    (hxs : ∀ x ∈ xs, IsPacked x) (hys : ∀ y ∈ ys, IsPacked y) (m : Machine β ω) :
    let X := packedNumber xs
    let Y := packedNumber ys
    let c := carryOf m.cpu.regs.f
    let sum := decimalPass .adc xs ys m
    let difference := decimalPass .sbc xs ys m
    (sum.1.length = xs.length ∧ (∀ v ∈ sum.1, IsPacked v) ∧
      packedNumber sum.1 = (X + Y + c) % 100 ^ xs.length ∧
      (Flag.c.isSet sum.2.cpu.regs.f = true ↔ 100 ^ xs.length ≤ X + Y + c)) ∧
    (difference.1.length = xs.length ∧ (∀ v ∈ difference.1, IsPacked v) ∧
      (packedNumber difference.1 : ℤ) = ((X : ℤ) - Y - c) % 100 ^ xs.length ∧
      (Flag.c.isSet difference.2.cpu.regs.f = true ↔ X < Y + c)) :=
  ⟨decimalPass_adc hlen hxs hys m, decimalPass_sbc hlen hxs hys m⟩

/-- With 9905 and 0996 the sum carries out of the highest digit, and the difference borrows
in the lower byte alone. -/
theorem decimalPass_sum_and_difference_9905_0996 :
    let xs : List UInt8 := [0x05, 0x99]
    let ys : List UInt8 := [0x96, 0x09]
    let m : Machine Board Unit := ⟨{ regs := {} }, {}, ()⟩
    xs.length = ys.length ∧ (∀ x ∈ xs, IsPacked x) ∧ (∀ y ∈ ys, IsPacked y) ∧
      packedNumber (decimalPass .adc xs ys m).1 = 0901 ∧
      Flag.c.isSet (decimalPass .adc xs ys m).2.cpu.regs.f = true ∧
      packedNumber (decimalPass .sbc xs ys m).1 = 8909 ∧
      Flag.c.isSet (decimalPass .sbc xs ys m).2.cpu.regs.f = false := by
  intro xs ys m
  have hxs : ∀ x ∈ xs, IsPacked x := by decide +kernel
  have hys : ∀ y ∈ ys, IsPacked y := by decide +kernel
  have hX : packedNumber xs = 9905 := rfl
  have hY : packedNumber ys = 0996 := rfl
  have hc : carryOf m.cpu.regs.f = 0 := by decide
  obtain ⟨⟨-, -, hsum, hcarry⟩, -, -, hdifference, hborrow⟩ :=
    decimalPass_sum_and_difference (show xs.length = ys.length from rfl) hxs hys m
  rw [hX, hY, hc] at hsum hcarry hdifference hborrow
  refine ⟨rfl, hxs, hys, hsum.trans (by decide), hcarry.mpr (by decide), ?_, ?_⟩
  · exact Int.natCast_inj.mp (hdifference.trans (by decide))
  · exact Bool.eq_false_iff.mpr (mt hborrow.mp (by decide))

end Exec

end Z80
