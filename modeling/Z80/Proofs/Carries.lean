import Mathlib.Algebra.Group.Nat.Defs
import Z80.Sum

/-!
# Carries and borrows

The adder finds its carries by comparing operands and result bit by bit. What comes
into a place that way is what the places below it give: a carry if their sum does not
fit, a borrow if the subtrahend is larger there.

Main statements: `getLsbD_carries_add` and `getLsbD_carries_sub` for one place, and from
them the value, the carry, the half carry and the overflow that `Sum.add` and `Sum.sub`
report at any width; `isSet_c_flags` and its five companions take them to the flag byte, and
`signed_add_out_of_range_iff` and `signed_sub_out_of_range_iff` say what overflow means for
numbers with a sign.
-/

namespace Z80.Sum

section Places

variable {w : Nat} (x y : BitVec w) (c : Bool) {i : Nat}

/-- In each place the operands and their sum show the carry that comes into it. -/
theorem getLsbD_carries_add (hi : i < w) :
    (x ^^^ y ^^^ (x + y + (BitVec.ofBool c).setWidth w)).getLsbD i =
      decide (2 ^ i ≤ x.toNat % 2 ^ i + y.toNat % 2 ^ i + c.toNat) := by
  rw [BitVec.getLsbD_xor, BitVec.getLsbD_xor, BitVec.getLsbD_add_add_bool hi, BitVec.carry]
  cases x.getLsbD i <;> cases y.getLsbD i <;> simp

/-- A difference is a sum with the complement, into which a carry comes where no borrow
goes out. -/
theorem sub_sub_eq_add_not :
    x - y - (BitVec.ofBool c).setWidth w = x + ~~~y + (BitVec.ofBool !c).setWidth w := by
  have hone : (1#1).setWidth w = 1#w := by
    apply BitVec.eq_of_toNat_eq
    simp
  have hnot : (BitVec.ofBool !c).setWidth w = 1#w - (BitVec.ofBool c).setWidth w := by
    cases c <;> simp [BitVec.ofBool, hone]
  rw [hnot, BitVec.not_eq_neg_add]
  grind

theorem mod_two_pow_not (hi : i < w) : (~~~y).toNat % 2 ^ i = 2 ^ i - 1 - y.toNat % 2 ^ i := by
  have h : (~~~y).setWidth i = ~~~(y.setWidth i) := BitVec.setWidth_not (Nat.le_of_lt hi)
  simpa using congrArg BitVec.toNat h

/-- In each place the operands and their difference show the borrow that comes into it. -/
theorem getLsbD_carries_sub (hi : i < w) :
    (x ^^^ y ^^^ (x - y - (BitVec.ofBool c).setWidth w)).getLsbD i =
      decide (x.toNat % 2 ^ i < y.toNat % 2 ^ i + c.toNat) := by
  have hflip : ∀ s : BitVec w, (x ^^^ y ^^^ s).getLsbD i = !(x ^^^ ~~~y ^^^ s).getLsbD i := by
    intro s
    simp [hi]
  have hx := Nat.mod_lt x.toNat (Nat.two_pow_pos i)
  have hy := Nat.mod_lt y.toNat (Nat.two_pow_pos i)
  rw [hflip, sub_sub_eq_add_not, getLsbD_carries_add _ _ _ hi, mod_two_pow_not y hi, ← decide_not,
    decide_eq_decide]
  cases c with
  | false => simp only [Bool.not_false, Bool.toNat_true, Bool.toNat_false]; omega
  | true => simp only [Bool.not_true, Bool.toNat_true, Bool.toNat_false]; omega

end Places

/-! ## Signed readings -/

section Signs

variable {w half : Nat} (hw : 2 ^ w = 2 * half)
include hw

/-- A number in the lower half of its range reads the same with a sign, and one in the upper
half as less by the whole range. -/
theorem toInt_cases (x : BitVec w) :
    (x.toNat < half ∧ x.toNat % half = x.toNat ∧ x.toInt = x.toNat) ∨
    (half ≤ x.toNat ∧ x.toNat % half + half = x.toNat ∧ x.toInt = x.toNat - 2 * half) := by
  have hx := x.isLt
  rw [hw] at hx
  rw [BitVec.toInt_eq_toNat_cond, hw]
  by_cases hlt : x.toNat < half
  · rw [if_pos (by omega)]
    exact .inl ⟨hlt, Nat.mod_eq_of_lt hlt, rfl⟩
  · have hmod : x.toNat % half = x.toNat - half := by
      rw [Nat.mod_eq_sub_mod (by omega), Nat.mod_eq_of_lt (by omega)]
    rw [if_neg (by omega)]
    exact .inr ⟨by omega, by omega, by omega⟩

variable (a b : BitVec w) (c : Bool)

/-- A sum has left the signed range if the carries into and out of the top bit differ. -/
theorem signed_add_out_of_range_iff :
    (decide (2 ^ w ≤ a.toNat + b.toNat + c.toNat) ^^
        decide (half ≤ a.toNat % half + b.toNat % half + c.toNat)) = true ↔
      a.toInt + b.toInt + c.toNat < -half ∨ half ≤ a.toInt + b.toInt + c.toNat := by
  have hc := c.toNat_le
  have ha := toInt_cases hw a
  have hb := toInt_cases hw b
  rw [bne_iff_ne, ne_eq, decide_eq_decide, hw]
  omega

/-- A difference has left the signed range if the borrows into and out of the top bit
differ. -/
theorem signed_sub_out_of_range_iff :
    (decide (a.toNat < b.toNat + c.toNat) ^^
        decide (a.toNat % half < b.toNat % half + c.toNat)) = true ↔
      a.toInt - b.toInt - c.toNat < -half ∨ half ≤ a.toInt - b.toInt - c.toNat := by
  have hc := c.toNat_le
  have ha := toInt_cases hw a
  have hb := toInt_cases hw b
  rw [bne_iff_ne, ne_eq, decide_eq_decide]
  omega

end Signs

/-! ## The reports of the adder -/

variable {w : Nat} (a b : BitVec w) (c : Bool)

theorem toNat_value_add : (add a b c).value.toNat = (a.toNat + b.toNat + c.toNat) % 2 ^ w := by
  simp [add, ofWide, Nat.pow_succ]

theorem carry_add : (add a b c).carry = decide (2 ^ w ≤ a.toNat + b.toNat + c.toNat) := by
  have h := getLsbD_carries_add (a.setWidth (w + 1)) (b.setWidth (w + 1)) c (Nat.lt_succ_self w)
  simpa [add, ofWide] using h

theorem half_add : (add a b c).half =
    decide (2 ^ (w - 4) ≤ a.toNat % 2 ^ (w - 4) + b.toNat % 2 ^ (w - 4) + c.toNat) := by
  have hi : w - 4 < w + 1 := by omega
  have h := getLsbD_carries_add (a.setWidth (w + 1)) (b.setWidth (w + 1)) c hi
  simpa [add, ofWide] using h

theorem overflow_add : (add a b c).overflow =
    (decide (2 ^ w ≤ a.toNat + b.toNat + c.toNat) ^^
      decide (2 ^ (w - 1) ≤ a.toNat % 2 ^ (w - 1) + b.toNat % 2 ^ (w - 1) + c.toNat)) := by
  have hi : w - 1 < w + 1 := by omega
  have hout := getLsbD_carries_add (a.setWidth (w + 1)) (b.setWidth (w + 1)) c (Nat.lt_succ_self w)
  have hin := getLsbD_carries_add (a.setWidth (w + 1)) (b.setWidth (w + 1)) c hi
  have h : (add a b c).overflow = _ := congrArg₂ xor hout hin
  simpa using h

theorem toNat_value_sub :
    (sub a b c).value.toNat = (2 ^ w + a.toNat - b.toNat - c.toNat) % 2 ^ w := by
  have hvalue : (sub a b c).value.toNat =
      (a.toNat + (2 ^ w - 1 - b.toNat) + (!c).toNat) % 2 ^ w := by
    show ((a.setWidth (w + 1) - b.setWidth (w + 1) -
      (BitVec.ofBool c).setWidth (w + 1)).setWidth w).toNat = _
    rw [sub_sub_eq_add_not]
    simp [BitVec.setWidth_add, BitVec.setWidth_not]
  have hnot : (!c).toNat = 1 - c.toNat := by cases c <;> rfl
  have hb := b.isLt
  have hc := c.toNat_le
  rw [hvalue, hnot]
  congr 1
  omega

theorem carry_sub : (sub a b c).carry = decide (a.toNat < b.toNat + c.toNat) := by
  have h := getLsbD_carries_sub (a.setWidth (w + 1)) (b.setWidth (w + 1)) c (Nat.lt_succ_self w)
  simpa [sub, ofWide] using h

theorem half_sub : (sub a b c).half =
    decide (a.toNat % 2 ^ (w - 4) < b.toNat % 2 ^ (w - 4) + c.toNat) := by
  have hi : w - 4 < w + 1 := by omega
  have h := getLsbD_carries_sub (a.setWidth (w + 1)) (b.setWidth (w + 1)) c hi
  simpa [sub, ofWide] using h

theorem overflow_sub : (sub a b c).overflow =
    (decide (a.toNat < b.toNat + c.toNat) ^^
      decide (a.toNat % 2 ^ (w - 1) < b.toNat % 2 ^ (w - 1) + c.toNat)) := by
  have hi : w - 1 < w + 1 := by omega
  have hout := getLsbD_carries_sub (a.setWidth (w + 1)) (b.setWidth (w + 1)) c (Nat.lt_succ_self w)
  have hin := getLsbD_carries_sub (a.setWidth (w + 1)) (b.setWidth (w + 1)) c hi
  have h : (sub a b c).overflow = _ := congrArg₂ xor hout hin
  simpa using h

/-! ## The flags of a report -/

variable (s : Sum w) (subtracted : Bool) (f : UInt8)

@[simp] theorem isSet_s_flags : Flag.s.isSet (s.flags subtracted f) = s.value.msb := by
  simp [flags, Flag.isSet_put]

@[simp] theorem isSet_z_flags : Flag.z.isSet (s.flags subtracted f) = (s.value == 0) := by
  simp [flags, Flag.isSet_put]

@[simp] theorem isSet_p_flags : Flag.p.isSet (s.flags subtracted f) = s.overflow := by
  simp [flags, Flag.isSet_put]

@[simp] theorem isSet_c_flags : Flag.c.isSet (s.flags subtracted f) = s.carry := by
  simp [flags, Flag.isSet_put]

@[simp] theorem isSet_h_flags : Flag.h.isSet (s.flags subtracted f) = s.half := by
  simp [flags, Flag.isSet_put]

@[simp] theorem isSet_n_flags : Flag.n.isSet (s.flags subtracted f) = subtracted := by
  simp [flags, Flag.isSet_put]

end Z80.Sum
