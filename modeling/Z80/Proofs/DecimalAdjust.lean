import Z80.Accumulator
import Z80.Effect

/-!
# Decimal adjustment

A byte can hold two decimal digits. After a sum or a difference of such bytes DAA puts
the accumulator right again: a digit that has gone past nine, or has borrowed, is off by
six, the difference between the two bases.

Main statements: `decimalAdjust_of_added` and `decimalAdjust_of_subtracted` say in numbers
what DAA does to the accumulator and to C.
-/

namespace Z80

/-! ## Digits -/

theorem toNat_upperDigit (v : UInt8) : (upperDigit v).toNat = v.toNat / 16 := by
  simp [upperDigit, Nat.shiftRight_eq_div_pow]

theorem toNat_lowerDigit (v : UInt8) : (lowerDigit v).toNat = v.toNat % 16 := by
  rw [lowerDigit, UInt8.toNat_and]
  exact Nat.and_two_pow_sub_one_eq_mod v.toNat 4

/-! ## The two corrections -/

theorem lt_lowerDigit_iff (n v : UInt8) : n < v &&& 0x0F ↔ n.toNat < v.toNat % 16 := by
  rw [← toNat_lowerDigit, ← UInt8.lt_iff_toNat_lt]
  rfl

/-- The lower correction is due after a half carry, and for a digit that is not decimal. -/
theorem correctsLower_eq (a f : UInt8) :
    (Flag.h.isSet f || decide (9 < a &&& 0x0F)) =
      decide (Flag.h.isSet f = true ∨ 9 < a.toNat % 16) := by
  rw [Bool.eq_iff_iff, Bool.or_eq_true, decide_eq_true_eq, decide_eq_true_eq, lt_lowerDigit_iff]
  rfl

theorem and_0x100_bne_zero (acc : UInt16) : (acc &&& 0x100 != 0) = acc.toNat.testBit 8 := by
  have h : (acc &&& 0x100 = 0) ↔ acc.toNat.testBit 8 = false := by
    rw [← UInt16.toBitVec_inj, UInt16.toBitVec_and]
    show acc.toBitVec &&& BitVec.twoPow 16 8 = 0#16 ↔ acc.toBitVec.getLsbD 8 = false
    rw [BitVec.and_twoPow]
    cases acc.toBitVec.getLsbD 8 <;> decide
  rw [Bool.eq_iff_iff, bne_iff_ne, ne_eq, h, Bool.not_eq_false]

theorem testBit_eight {n : Nat} (h : n < 512) : n.testBit 8 = decide (256 ≤ n) := by
  rw [Nat.testBit_eq_decide_div_mod_eq, decide_eq_decide]
  omega

theorem lt_and_0x1F0_iff {acc : UInt16} (h : acc.toNat < 512) :
    0x90 < acc &&& 0x1F0 ↔ 160 ≤ acc.toNat := by
  have hall : ∀ n : Fin 512, 0x90 < n.val &&& 0x1F0 ↔ 160 ≤ n.val := by decide +kernel
  rw [UInt16.lt_iff_toNat_lt, UInt16.toNat_and]
  exact hall ⟨acc.toNat, h⟩

theorem toNat_adjustAfterAddition (a f : UInt8) :
    (adjustAfterAddition a f).1.toNat =
      let low := a.toNat + if Flag.h.isSet f = true ∨ 9 < a.toNat % 16 then 6 else 0
      low + if Flag.c.isSet f = true ∨ 160 ≤ low then 96 else 0 := by
  have ha := a.toNat_lt
  -- the upper correction, on whatever the lower one has left
  have hupper : ∀ acc : UInt16, acc.toNat ≤ 261 →
      (if Flag.c.isSet f || 0x90 < acc &&& 0x1F0 then acc + 0x60 else acc).toNat =
        acc.toNat + if Flag.c.isSet f = true ∨ 160 ≤ acc.toNat then 96 else 0 := by
    intro acc hacc
    have hsum : (acc + 0x60).toNat = acc.toNat + 96 := by
      rw [UInt16.toNat_add]
      exact Nat.mod_eq_of_lt (by simp only [UInt16.reduceToNat]; omega)
    simp only [Bool.or_eq_true, decide_eq_true_eq, lt_and_0x1F0_iff (by omega : acc.toNat < 512)]
    split
    · exact hsum
    · rfl
  have hsix : (a.toUInt16 + 6).toNat = a.toNat + 6 := by
    rw [UInt16.toNat_add, UInt8.toNat_toUInt16]
    exact Nat.mod_eq_of_lt (by simp only [UInt16.reduceToNat]; omega)
  unfold adjustAfterAddition
  by_cases h : Flag.h.isSet f = true ∨ 9 < a.toNat % 16
  · simp only [correctsLower_eq, decide_eq_true h, if_true, if_pos h]
    rw [hupper _ (by omega), hsix]
  · simp only [correctsLower_eq, decide_eq_false h, Bool.false_eq_true, if_false, if_neg h]
    rw [hupper _ (by rw [UInt8.toNat_toUInt16]; omega), UInt8.toNat_toUInt16]
    rfl

/-- The lower correction after a subtraction stays within the byte. The upper one is made
after a borrow, and to a byte above the largest pair of decimal digits. -/
theorem adjustAfterSubtraction_eq (a f : UInt8) :
    ∃ low : UInt16,
      low.toNat =
        (a.toNat + if Flag.h.isSet f = true ∨ 9 < a.toNat % 16 then 250 else 0) % 256 ∧
      (adjustAfterSubtraction a f).1 =
        if Flag.c.isSet f = true ∨ 0x99 < a then low - 0x160 else low := by
  have ha := a.toNat_lt
  have hsix : ((a.toUInt16 - 6) &&& 0xFF).toNat = (a.toNat + 250) % 256 := by
    rw [UInt16.toNat_and, UInt16.toNat_sub, UInt8.toNat_toUInt16]
    show (2 ^ 16 - 6 + a.toNat) % 2 ^ 16 &&& 2 ^ 8 - 1 = _
    rw [Nat.and_two_pow_sub_one_eq_mod]
    omega
  unfold adjustAfterSubtraction
  by_cases h : Flag.h.isSet f = true ∨ 9 < a.toNat % 16
  · refine ⟨(a.toUInt16 - 6) &&& 0xFF, by rw [hsix, if_pos h], ?_⟩
    simp only [correctsLower_eq, decide_eq_true h, if_true, Bool.or_eq_true, decide_eq_true_eq]
  · refine ⟨a.toUInt16, by rw [UInt8.toNat_toUInt16, if_neg h]; omega, ?_⟩
    simp only [correctsLower_eq, decide_eq_false h, Bool.false_eq_true, if_false, Bool.or_eq_true,
      decide_eq_true_eq]

/-! ## DAA -/

/-- The accumulator, in a wide word, and the flags, corrected in the direction that N
asks for. -/
def adjusted (a f : UInt8) : UInt16 × UInt8 :=
  if Flag.n.isSet f then adjustAfterSubtraction a f else adjustAfterAddition a f

theorem decimalAdjust_eq (a f : UInt8) :
    decimalAdjust a f =
      { value := (adjusted a f).1.toUInt8
        flags := if (adjusted a f).1 &&& 0x100 != 0
          then Flag.c.put true (resultFlags (adjusted a f).1.toUInt8 (adjusted a f).2)
          else resultFlags (adjusted a f).1.toUInt8 (adjusted a f).2 } := rfl

theorem toNat_value_decimalAdjust (a f : UInt8) :
    (decimalAdjust a f).value.toNat = (adjusted a f).1.toNat % 256 :=
  UInt16.toNat_toUInt8 _

/-- Of the flags, the correction by itself changes the half carry alone. -/
theorem isSet_adjusted {g : Flag} (hg : g ≠ .h) (a f : UInt8) :
    g.isSet (adjusted a f).2 = g.isSet f := by
  have hput : ∀ (p q : Prop) [Decidable p] [Decidable q] (acc acc' : UInt16) (b : Bool),
      g.isSet (if p then (acc, if q then Flag.h.put b f else f) else (acc', f)).2 =
        g.isSet f := by
    intro p q _ _ acc acc' b
    split
    · split <;> simp [Flag.isSet_put, hg]
    · rfl
  unfold adjusted
  split
  · exact hput _ _ _ _ _
  · exact hput _ True _ _ _

/-- A decimal carry that leaves the byte joins the carry that is there. -/
theorem isSet_c_decimalAdjust (a f : UInt8) :
    Flag.c.isSet (decimalAdjust a f).flags =
      (Flag.c.isSet f || (adjusted a f).1.toNat.testBit 8) := by
  have hresult : ∀ v, Flag.c.isSet (resultFlags v (adjusted a f).2) = Flag.c.isSet f := by
    intro v
    have hc : Flag.c ≠ .h := by decide
    rw [← isSet_adjusted hc a f]
    simp [resultFlags, Flag.isSet_put]
  rw [decimalAdjust_eq, and_0x100_bne_zero]
  cases (adjusted a f).1.toNat.testBit 8 with
  | false => simp [hresult]
  | true => simp [Flag.isSet_put]

/-- DAA after an addition: 6 corrects the lower digit, 96 the upper one. -/
theorem decimalAdjust_of_added {a f : UInt8} (hn : Flag.n.isSet f = false) :
    let low := a.toNat + if Flag.h.isSet f = true ∨ 9 < a.toNat % 16 then 6 else 0
    let acc := low + if Flag.c.isSet f = true ∨ 160 ≤ low then 96 else 0
    (decimalAdjust a f).value.toNat = acc % 256 ∧
      (Flag.c.isSet (decimalAdjust a f).flags = true ↔ Flag.c.isSet f = true ∨ 256 ≤ acc) := by
  intro low acc
  have hacc : (adjusted a f).1.toNat = acc := by
    rw [adjusted, hn]
    exact toNat_adjustAfterAddition a f
  have hlt : acc < 512 := by
    have ha := a.toNat_lt
    have hlow : low ≤ a.toNat + 6 := by grind
    grind
  rw [toNat_value_decimalAdjust, isSet_c_decimalAdjust, hacc, testBit_eight hlt, Bool.or_eq_true,
    decide_eq_true_eq]
  exact ⟨rfl, Iff.rfl⟩

/-- DAA after a subtraction that has borrowed, or has left a pair of decimal digits at
most: 250 and 160 are what corrects the digits modulo 256, and C stays. -/
theorem decimalAdjust_of_subtracted {a f : UInt8} (hn : Flag.n.isSet f = true)
    (ha : Flag.c.isSet f = true ∨ a.toNat ≤ 0x99) :
    let low := (a.toNat + if Flag.h.isSet f = true ∨ 9 < a.toNat % 16 then 250 else 0) % 256
    (decimalAdjust a f).value.toNat = (low + if Flag.c.isSet f = true then 160 else 0) % 256 ∧
      Flag.c.isSet (decimalAdjust a f).flags = Flag.c.isSet f := by
  intro low
  have hadjusted : adjusted a f = adjustAfterSubtraction a f := by
    rw [adjusted, hn]
    rfl
  obtain ⟨acc, hacc, hsub⟩ := adjustAfterSubtraction_eq a f
  rw [isSet_c_decimalAdjust, toNat_value_decimalAdjust, hadjusted, hsub]
  by_cases hc : Flag.c.isSet f = true
  · constructor
    · rw [if_pos (Or.inl hc), if_pos hc, UInt16.toNat_sub, hacc]
      show (2 ^ 16 - 0x160 + low) % 2 ^ 16 % 256 = _
      omega
    · rw [hc, Bool.true_or]
  · -- without a borrow the upper digit is decimal already, and no carry leaves the byte
    have hle : ¬0x99 < a := by
      rw [UInt8.lt_iff_toNat_lt]
      exact Nat.not_lt.mpr (ha.resolve_left hc)
    have hlt : low < 256 := Nat.mod_lt _ (by decide)
    rw [if_neg (not_or.mpr ⟨hc, hle⟩), if_neg hc, hacc]
    refine ⟨rfl, ?_⟩
    rw [testBit_eight (by omega), decide_eq_false (by omega), Bool.or_false]

end Z80
