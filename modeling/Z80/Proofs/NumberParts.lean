import Mathlib.Tactic.Linarith
import Mathlib.Tactic.LinearCombination
import Mathlib.Tactic.Positivity
import Z80.Proofs.Arithmetic

/-!
# Numbers in two parts

Two numbers can be added or subtracted in two parts: first the lower ones, and then the upper ones
with the carry of the lower ones. The result consists of both results, and all flags but Z are
those that the upper parts leave.

Main definitions:
- `Arithmetic.numbers`: the sum or difference of two numbers, in so many bits.
- `Arithmetic.append`, `Arithmetic.above`: that of numbers in two parts, and of their upper ones.

Main statements: `value_append`, `carriesOut_append` and `flags_append`.
-/

namespace Z80

namespace Arithmetic

/-! ## Numbers in two parts -/

/-- The sum or difference of two numbers and a carry, in so many bits. -/
def numbers (width : Nat) (hwidth : 0 < width) (subtracts : Bool) (X Y : Nat) (carry : Bool) :
    Arithmetic :=
  ⟨width, hwidth, subtracts, BitVec.ofNat width X, BitVec.ofNat width Y, carry, .nowhere⟩

/-- The result in integers is the one in the width of the operands and the carry behind it. -/
theorem exact_eq (x : Arithmetic) : x.exact (fun v => v.toNat) =
    x.value + (if x.subtracts then -1 else 1) * (2 ^ x.width * x.report.carry.toNat) := by
  rw [← x.toNat_report]
  obtain ⟨w, hw, subtracts, a, b, c, target⟩ := x
  have ha := a.isLt
  have hb := b.isLt
  have hc := c.toNat_le
  have hpow : ((2 ^ w : ℕ) : ℤ) = 2 ^ w := by
    push_cast
    rfl
  cases subtracts with
  | false =>
    show (a.toNat + b.toNat + c.toNat : ℤ) = (Sum.add a b c).value.toNat +
      1 * (2 ^ w * (Sum.add a b c).carry.toNat)
    rw [Sum.toNat_value_add, Sum.carry_add, ← hpow]
    -- a sum is below twice the range, so what the width cannot hold is one carry
    by_cases h : 2 ^ w ≤ a.toNat + b.toNat + c.toNat
    · rw [decide_eq_true h, Nat.mod_eq_sub_mod h, Nat.mod_eq_of_lt (by omega), Bool.toNat_true]
      omega
    · rw [decide_eq_false h, Nat.mod_eq_of_lt (by omega), Bool.toNat_false]
      omega
  | true =>
    show (a.toNat - b.toNat - c.toNat : ℤ) = (Sum.sub a b c).value.toNat +
      -1 * (2 ^ w * (Sum.sub a b c).carry.toNat)
    rw [Sum.toNat_value_sub, Sum.carry_sub, ← hpow]
    by_cases h : a.toNat < b.toNat + c.toNat
    · rw [decide_eq_true h, Nat.mod_eq_of_lt (by omega), Bool.toNat_true]
      omega
    · rw [decide_eq_false h, Nat.mod_eq_sub_mod (by omega), Nat.mod_eq_of_lt (by omega),
        Bool.toNat_false]
      omega

theorem value_nonneg (x : Arithmetic) : 0 ≤ x.value :=
  Int.emod_nonneg _ (by positivity)

theorem value_lt (x : Arithmetic) : x.value < 2 ^ x.width :=
  Int.emod_lt_of_pos _ (by positivity)

/-- The sum or difference of two integers and a carry. -/
def combine (subtracts : Bool) (u v : ℤ) (c : Bool) : ℤ :=
  if subtracts then u - v - c.toNat else u + v + c.toNat

theorem value_numbers {w : Nat} (hw : 0 < w) (subtracts : Bool) (X Y : Nat) (c : Bool) :
    (numbers w hw subtracts X Y c).value =
      combine subtracts (BitVec.ofNat w X).toNat (BitVec.ofNat w Y).toNat c % 2 ^ w := rfl

/-- The sum or difference of two more numbers, which takes over the carry. -/
def above (x : Arithmetic) {w : Nat} (hw : 0 < w) (X Y : Nat) : Arithmetic :=
  numbers w hw x.subtracts X Y x.report.carry

/-- The sum or difference of two numbers in two parts, of which the lower ones have `n` bits. -/
def append {n w : Nat} (hn : 0 < n) (_hw : 0 < w) (subtracts : Bool) (a b X Y : Nat) (c : Bool) :
    Arithmetic :=
  numbers (n + w) (Nat.add_pos_left hn w) subtracts (a + 2 ^ n * X) (b + 2 ^ n * Y) c

section Append

variable {n w : Nat} (hn : 0 < n) (hw : 0 < w) (subtracts : Bool) {a b : Nat} (ha : a < 2 ^ n)
  (hb : b < 2 ^ n) (X Y : Nat) (c : Bool)

/-- The lowest bits of a number in two parts. -/
theorem add_mul_mod_mul {q : Nat} (r : Nat) {a : Nat} (ha : a < q) (X : Nat) :
    (a + q * X) % (q * r) = a + q * (X % r) := by
  rw [Nat.mod_mul, Nat.add_mul_mod_self_left, Nat.mod_eq_of_lt ha,
    Nat.add_mul_div_left _ _ (Nat.zero_lt_of_lt ha), Nat.div_eq_of_lt ha, Nat.zero_add]

/-- Where a multiple of `q` lies against another one does not depend on a remainder. -/
theorem mul_le_add_mul_iff {q s : ℤ} (hs : 0 ≤ s) (hsq : s < q) (r t : ℤ) :
    q * r ≤ s + q * t ↔ r ≤ t := by
  constructor
  · intro h
    by_contra hlt
    have : q * (t + 1) ≤ q * r := mul_le_mul_of_nonneg_left (by omega) (by omega)
    linarith
  · intro h
    have : q * r ≤ q * t := mul_le_mul_of_nonneg_left h (by omega)
    omega

theorem add_mul_emod_mul {q v : ℤ} (hv : 0 ≤ v) (hvq : v < q) (t : ℤ) {r : ℤ} (hr : 0 < r) :
    (v + q * t) % (q * r) = v + q * (t % r) := by
  have hpos := Int.emod_nonneg t hr.ne'
  have hlt : q * (t % r + 1) ≤ q * r :=
    mul_le_mul_of_nonneg_left (Int.emod_lt_of_pos t hr) (by omega)
  have hsplit : v + q * t = v + q * (t % r) + q * r * (t / r) := by
    linear_combination -q * Int.emod_add_mul_ediv t r
  rw [hsplit, Int.add_mul_emod_self_left, Int.emod_eq_of_lt]
  · have := mul_nonneg (by omega : 0 ≤ q) hpos
    omega
  · linarith

include ha in
theorem toNat_append : (BitVec.ofNat (n + w) (a + 2 ^ n * X)).toNat =
    a + 2 ^ n * (BitVec.ofNat w X).toNat := by
  rw [BitVec.toNat_ofNat, BitVec.toNat_ofNat, Nat.pow_add, add_mul_mod_mul _ ha]

include ha hw in
theorem toInt_append : (BitVec.ofNat (n + w) (a + 2 ^ n * X)).toInt =
    a + 2 ^ n * (BitVec.ofNat w X).toInt := by
  have hhalf : 2 ^ w = 2 * 2 ^ (w - 1) := by
    rw [Nat.mul_comm, Nat.two_pow_pred_mul_two hw]
  have hhalf' : 2 ^ (n + w) = 2 * (2 ^ n * 2 ^ (w - 1)) := by
    rw [Nat.pow_add, hhalf, Nat.mul_left_comm]
  have htop := Sum.toInt_cases hhalf (BitVec.ofNat w X)
  have hall := Sum.toInt_cases hhalf' (BitVec.ofNat (n + w) (a + 2 ^ n * X))
  have hle : 2 ^ n * 2 ^ (w - 1) ≤ a + 2 ^ n * (BitVec.ofNat w X).toNat ↔
      2 ^ (w - 1) ≤ (BitVec.ofNat w X).toNat := by
    have hint := mul_le_add_mul_iff (Int.natCast_nonneg a) (q := 2 ^ n) (by exact_mod_cast ha)
      (2 ^ (w - 1)) (BitVec.ofNat w X).toNat
    exact_mod_cast hint
  rw [toNat_append ha X] at hall
  push_cast at hall htop
  -- both have their top bit set, or none has
  by_cases htopbit : 2 ^ (w - 1) ≤ (BitVec.ofNat w X).toNat
  · obtain ⟨-, -, htop⟩ := htop.resolve_left fun h => absurd h.1 (Nat.not_lt.mpr htopbit)
    obtain ⟨-, -, hall⟩ := hall.resolve_left fun h => absurd h.1 (Nat.not_lt.mpr (hle.mpr htopbit))
    linear_combination hall - 2 ^ n * htop
  · obtain ⟨-, -, htop⟩ := htop.resolve_right fun h => htopbit h.1
    obtain ⟨-, -, hall⟩ := hall.resolve_right fun h => htopbit (hle.mp h.1)
    linear_combination hall - 2 ^ n * htop

include ha hb

/-- What the lower parts give, in integers: a result in their width and a carry. -/
theorem combine_low : combine subtracts a b c =
    (numbers n hn subtracts a b c).value + (if subtracts then -1 else 1) *
      (2 ^ n * (numbers n hn subtracts a b c).report.carry.toNat) := by
  refine Eq.trans ?_ (numbers n hn subtracts a b c).exact_eq
  show _ = combine subtracts (BitVec.ofNat n a).toNat (BitVec.ofNat n b).toNat c
  rw [BitVec.toNat_ofNat, BitVec.toNat_ofNat, Nat.mod_eq_of_lt ha, Nat.mod_eq_of_lt hb]

/-- Numbers in two parts are added or subtracted part by part. -/
theorem combine_append (x y : ℤ) : combine subtracts (a + 2 ^ n * x) (b + 2 ^ n * y) c =
    (numbers n hn subtracts a b c).value +
      2 ^ n * combine subtracts x y (numbers n hn subtracts a b c).report.carry := by
  have hlow := combine_low hn subtracts ha hb c
  unfold combine at hlow ⊢
  cases subtracts with
  | false =>
    simp only [Bool.false_eq_true, if_false] at hlow ⊢
    linear_combination hlow
  | true =>
    simp only [if_true] at hlow ⊢
    linear_combination hlow

/-- The lower part of the result, and the upper one. -/
theorem value_append : (append hn hw subtracts a b X Y c).value =
    (numbers n hn subtracts a b c).value + 2 ^ n *
      ((numbers n hn subtracts a b c).above hw X Y).value := by
  have hpos := (numbers n hn subtracts a b c).value_nonneg
  have hlt : (numbers n hn subtracts a b c).value < 2 ^ n :=
    (numbers n hn subtracts a b c).value_lt
  rw [append, above, value_numbers, value_numbers, toNat_append ha, toNat_append hb]
  push_cast
  rw [combine_append hn subtracts ha hb, pow_add]
  exact add_mul_emod_mul hpos hlt _ (by positivity)

/-- A carry out of the upper parts is one out of the whole. -/
theorem carriesOut_append (k : Nat) : (append hn hw subtracts a b X Y c).CarriesOut (n + k) ↔
    ((numbers n hn subtracts a b c).above hw X Y).CarriesOut k := by
  have hpos := (numbers n hn subtracts a b c).value_nonneg
  have hlt : (numbers n hn subtracts a b c).value < 2 ^ n :=
    (numbers n hn subtracts a b c).value_lt
  let x := (BitVec.ofNat w X).toNat % 2 ^ k
  let y := (BitVec.ofNat w Y).toNat % 2 ^ k
  have hx : (BitVec.ofNat (n + w) (a + 2 ^ n * X)).toNat % 2 ^ (n + k) = a + 2 ^ n * x := by
    rw [toNat_append ha, Nat.pow_add, add_mul_mod_mul _ ha]
  have hy : (BitVec.ofNat (n + w) (b + 2 ^ n * Y)).toNat % 2 ^ (n + k) = b + 2 ^ n * y := by
    rw [toNat_append hb, Nat.pow_add, add_mul_mod_mul _ hb]
  have hall := combine_append hn subtracts ha hb c x y
  have hiff := mul_le_add_mul_iff hpos hlt
  cases subtracts with
  | false =>
    show 2 ^ (n + k) ≤ (BitVec.ofNat (n + w) (a + 2 ^ n * X)).toNat % 2 ^ (n + k) +
      (BitVec.ofNat (n + w) (b + 2 ^ n * Y)).toNat % 2 ^ (n + k) + c.toNat ↔
      2 ^ k ≤ x + y + (numbers n hn false a b c).report.carry.toNat
    rw [hx, hy]
    have := hiff (2 ^ k) (combine false x y (numbers n hn false a b c).report.carry)
    rw [← hall] at this
    simp only [combine, Bool.false_eq_true, if_false] at this
    rw [pow_add]
    exact_mod_cast this
  | true =>
    show (BitVec.ofNat (n + w) (a + 2 ^ n * X)).toNat % 2 ^ (n + k) <
      (BitVec.ofNat (n + w) (b + 2 ^ n * Y)).toNat % 2 ^ (n + k) + c.toNat ↔
      x < y + (numbers n hn true a b c).report.carry.toNat
    rw [hx, hy]
    have := hiff 0 (combine true x y (numbers n hn true a b c).report.carry)
    rw [← hall] at this
    simp only [combine, if_true, mul_zero, sub_sub, sub_nonneg] at this
    rw [← not_le, ← not_le, not_iff_not]
    exact_mod_cast this

/-- All flags but Z tell of the whole what they tell of the upper parts. -/
theorem flags_append (h4 : 4 ≤ w) {g : Flag} (hg : g ≠ .z) :
    (append hn hw subtracts a b X Y c).Says g ↔
      ((numbers n hn subtracts a b c).above hw X Y).Says g := by
  have hpos := (numbers n hn subtracts a b c).value_nonneg
  have hlt : (numbers n hn subtracts a b c).value < 2 ^ n :=
    (numbers n hn subtracts a b c).value_lt
  cases g with
  | s =>
    -- half of the whole range is a multiple of `2 ^ n`, and the lower part does not reach it
    show 2 ^ (n + w - 1) ≤ (append hn hw subtracts a b X Y c).value ↔
      2 ^ (w - 1) ≤ ((numbers n hn subtracts a b c).above hw X Y).value
    rw [value_append hn hw subtracts ha hb, Nat.add_sub_assoc hw, pow_add]
    exact mul_le_add_mul_iff hpos hlt _ _
  | z => exact absurd rfl hg
  | h =>
    show (append hn hw subtracts a b X Y c).CarriesOut (n + w - 4) ↔
      ((numbers n hn subtracts a b c).above hw X Y).CarriesOut (w - 4)
    rw [Nat.add_sub_assoc h4]
    exact carriesOut_append hn hw subtracts ha hb X Y c (w - 4)
  | p =>
    have hexact : (append hn hw subtracts a b X Y c).exact BitVec.toInt =
        (numbers n hn subtracts a b c).value +
          2 ^ n * ((numbers n hn subtracts a b c).above hw X Y).exact BitVec.toInt := by
      show combine subtracts (BitVec.ofNat (n + w) (a + 2 ^ n * X)).toInt
          (BitVec.ofNat (n + w) (b + 2 ^ n * Y)).toInt c =
        (numbers n hn subtracts a b c).value + 2 ^ n * combine subtracts (BitVec.ofNat w X).toInt
          (BitVec.ofNat w Y).toInt (numbers n hn subtracts a b c).report.carry
      rw [toInt_append hw ha, toInt_append hw hb, combine_append hn subtracts ha hb]
    have hpow : (2 : ℤ) ^ (n + w - 1) = 2 ^ n * 2 ^ (w - 1) := by
      rw [Nat.add_sub_assoc hw, pow_add]
    show _ < -2 ^ (n + w - 1) ∨ 2 ^ (n + w - 1) ≤ _ ↔ _ < -2 ^ (w - 1) ∨ 2 ^ (w - 1) ≤ _
    rw [hexact, hpow, ← mul_neg, ← not_le, mul_le_add_mul_iff hpos hlt,
      mul_le_add_mul_iff hpos hlt, not_le]
  | n => exact Iff.rfl
  | c => exact carriesOut_append hn hw subtracts ha hb X Y c w
  | x | y => exact Iff.rfl

end Append

theorem numbers_congr {w w' : Nat} (h : w = w') (hw : 0 < w) (hw' : 0 < w') (subtracts : Bool)
    (X Y : Nat) (c : Bool) : numbers w hw subtracts X Y c = numbers w' hw' subtracts X Y c := by
  subst h
  rfl

/-- Digits are numbers. -/
theorem numbers_toNat {w : Nat} (hw : 0 < w) (subtracts : Bool) (a b : BitVec w) (c : Bool) :
    numbers w hw subtracts a.toNat b.toNat c = ⟨w, hw, subtracts, a, b, c, .nowhere⟩ := by
  simp only [numbers, BitVec.ofNat_toNat, BitVec.setWidth_eq]

end Arithmetic

end Z80
