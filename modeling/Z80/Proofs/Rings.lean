import Mathlib.Algebra.Group.Fin.Basic
import Mathlib.Algebra.Ring.Nat
import Mathlib.Logic.Function.Iterate
import Z80.Proofs.DecimalAdjust

/-!
# Places in a ring

Rotations move what is in some places on by one, and the last place is next to the first one. There
are eight places for RLC and RRC, the bits of a byte; nine for RL and RR, with the carry flag; and
three for RRD and RLD, the digits of the cell and the lower one of the accumulator. A move down
undoes a move up, and as many moves as there are places lead all the way round.

Main definitions:
- `MovesUp`, `MovesDown`: what is in the places moves on by one.
- `bits`, `bitsAndCarry`, `threeDigits`: the places.
- `Rotation.turn`, `DigitTurn.turn`: what is turned.
- `changeBit`: one bit is made one or zero.

Main statements: `MovesUp.round` and `MovesDown.round`; `Rotation.turn_inverse` and
`DigitTurn.turn_inverse` say what is undone.
-/

namespace Z80

/-! ## Rings -/

section Rings

variable {σ δ : Type} {n : Nat} [NeZero n] {places : σ → Fin n → δ} {up down : σ → σ}

/-- What is in each place moves to the next one up. -/
def MovesUp (places : σ → Fin n → δ) (f : σ → σ) : Prop :=
  ∀ x i, places (f x) (i + 1) = places x i

/-- What is in each place moves to the next one down. -/
def MovesDown (places : σ → Fin n → δ) (f : σ → σ) : Prop :=
  ∀ x i, places (f x) i = places x (i + 1)

theorem MovesUp.undone (hup : MovesUp places up) (hdown : MovesDown places down) (x : σ) :
    places (down (up x)) = places x := by
  funext i
  rw [hdown, hup]

theorem MovesDown.undone (hdown : MovesDown places down) (hup : MovesUp places up) (x : σ) :
    places (up (down x)) = places x := by
  funext i
  have hi : i - 1 + 1 = i := sub_add_cancel i 1
  rw [← hi, hup, hdown]

/-- As many places on as there are is the same place. -/
theorem iterate_next (i : Fin n) : (· + 1)^[n] i = i := by
  have hval (k : Nat) : ((· + 1)^[k] i).val = (i.val + k) % n := by
    induction k with
    | zero => exact (Nat.mod_eq_of_lt i.isLt).symm
    | succ k ih =>
      rw [Function.iterate_succ_apply', Fin.val_add, ih, Fin.val_one', Nat.add_mod_mod,
        Nat.mod_add_mod, Nat.add_assoc]
  apply Fin.ext
  rw [hval, Nat.add_mod_right, Nat.mod_eq_of_lt i.isLt]

theorem MovesUp.round (h : MovesUp places up) (x : σ) : places (up^[n] x) = places x := by
  have hmoves (k : Nat) (i : Fin n) : places (up^[k] x) ((· + 1)^[k] i) = places x i := by
    induction k with
    | zero => rfl
    | succ k ih => rw [Function.iterate_succ_apply', Function.iterate_succ_apply', h, ih]
  funext i
  rw [← hmoves n i, iterate_next]

theorem MovesDown.round (h : MovesDown places down) (x : σ) : places (down^[n] x) = places x := by
  have hmoves (k : Nat) (i : Fin n) : places (down^[k] x) i = places x ((· + 1)^[k] i) := by
    induction k generalizing i with
    | zero => rfl
    | succ k ih => rw [Function.iterate_succ_apply', h, ih, Function.iterate_succ_apply]
  funext i
  rw [hmoves, iterate_next]

end Rings

/-! ## Bits -/

/-- The bits of a byte. -/
def bits (v : UInt8) (i : Fin 8) : Bool :=
  v.toBitVec.getLsbD i

/-- The bits of a byte, and above them the carry flag. -/
def bitsAndCarry (p : UInt8 × Bool) (i : Fin 9) : Bool :=
  if i = 8 then p.2 else p.1.toBitVec.getLsbD i

theorem eq_of_bits {v w : UInt8} (h : bits v = bits w) : v = w := by
  rw [← UInt8.toBitVec_inj]
  apply BitVec.eq_of_getLsbD_eq
  intro i hi
  exact congrFun h ⟨i, hi⟩

theorem eq_of_bitsAndCarry {p q : UInt8 × Bool} (h : bitsAndCarry p = bitsAndCarry q) : p = q := by
  have hbit (i : Fin 8) : bits p.1 i = bits q.1 i := by
    have hi : i.castSucc ≠ 8 := Fin.ne_of_lt (Fin.castSucc_lt_last i)
    have := congrFun h i.castSucc
    rwa [bitsAndCarry, bitsAndCarry, if_neg hi, if_neg hi] at this
  exact Prod.ext (eq_of_bits (funext hbit)) (congrFun h 8)

namespace Rotation

/-- The byte and the carry flag after a rotation. -/
def turn (r : Rotation) (p : UInt8 × Bool) : UInt8 × Bool :=
  (ShiftOp.rotate r).move p.1 p.2

/-- A byte and all flags after a rotation. -/
def apply (r : Rotation) (o : Outcome UInt8) : Outcome UInt8 :=
  (ShiftOp.rotate r).apply o.value o.flags

/-- The byte and the carry flag. -/
def withCarry (o : Outcome UInt8) : UInt8 × Bool :=
  (o.value, Flag.c.isSet o.flags)

/-- The same after several rotations. -/
def turnAll (rs : List Rotation) (p : UInt8 × Bool) : UInt8 × Bool :=
  rs.foldl (fun p r => r.turn p) p

def applyAll (rs : List Rotation) (o : Outcome UInt8) : Outcome UInt8 :=
  rs.foldl (fun o r => r.apply o) o

theorem withCarry_apply (r : Rotation) (o : Outcome UInt8) :
    withCarry (r.apply o) = r.turn (withCarry o) :=
  Prod.ext rfl ((Flag.isSet_put _ _ _ _).trans (if_pos rfl))

theorem withCarry_applyAll (rs : List Rotation) (o : Outcome UInt8) :
    withCarry (applyAll rs o) = turnAll rs (withCarry o) :=
  (List.foldl_hom withCarry fun o r => (withCarry_apply r o).symm).symm

/-- The rotation by as many places the other way. -/
def inverse : Rotation → Rotation
  | rlc => rrc
  | rrc => rlc
  | rl => rr
  | rr => rl

theorem rlc_movesUp : MovesUp (fun p => bits p.1) rlc.turn := by
  have hall : ∀ v c, ∀ i : Fin 8, bits (rlc.turn (v, c)).1 (i + 1) = bits v i := by
    apply byte_forall
    decide +kernel
  exact fun p => hall p.1 p.2

theorem rrc_movesDown : MovesDown (fun p => bits p.1) rrc.turn := by
  have hall : ∀ v c, ∀ i : Fin 8, bits (rrc.turn (v, c)).1 i = bits v (i + 1) := by
    apply byte_forall
    decide +kernel
  exact fun p => hall p.1 p.2

theorem rl_movesUp : MovesUp bitsAndCarry rl.turn := by
  have hall : ∀ v c, ∀ i : Fin 9,
      bitsAndCarry (rl.turn (v, c)) (i + 1) = bitsAndCarry (v, c) i := by
    apply byte_forall
    decide +kernel
  exact fun p => hall p.1 p.2

theorem rr_movesDown : MovesDown bitsAndCarry rr.turn := by
  have hall : ∀ v c, ∀ i : Fin 9,
      bitsAndCarry (rr.turn (v, c)) i = bitsAndCarry (v, c) (i + 1) := by
    apply byte_forall
    decide +kernel
  exact fun p => hall p.1 p.2

/-- Through the carry flag, a rotation and its inverse leave all as it was. -/
theorem turn_inverse {r : Rotation} (hr : r = rl ∨ r = rr) (p : UInt8 × Bool) :
    r.inverse.turn (r.turn p) = p := by
  apply eq_of_bitsAndCarry
  rcases hr with rfl | rfl
  · exact rl_movesUp.undone rr_movesDown p
  · exact rr_movesDown.undone rl_movesUp p

/-- Past it, they leave the byte. -/
theorem fst_turn_inverse (r : Rotation) (p : UInt8 × Bool) :
    (r.inverse.turn (r.turn p)).1 = p.1 := by
  cases r with
  | rlc => exact eq_of_bits (rlc_movesUp.undone rrc_movesDown p)
  | rrc => exact eq_of_bits (rrc_movesDown.undone rlc_movesUp p)
  | rl => exact congrArg Prod.fst (turn_inverse (.inl rfl) p)
  | rr => exact congrArg Prod.fst (turn_inverse (.inr rfl) p)

theorem iterate_turn_nine {r : Rotation} (hr : r = rl ∨ r = rr) (p : UInt8 × Bool) :
    r.turn^[9] p = p := by
  apply eq_of_bitsAndCarry
  rcases hr with rfl | rfl
  · exact rl_movesUp.round p
  · exact rr_movesDown.round p

end Rotation

/-! ## Single bits -/

/-- The byte with bit `n` made one or zero. -/
def changeBit (b : Bool) (n : Fin 8) (v : UInt8) : UInt8 :=
  if b then setBit n v else clearBit n v

theorem toBitVec_bitMask (n : Fin 8) : (bitMask n).toBitVec = BitVec.twoPow 8 n := by
  revert n
  decide

theorem bits_changeBit (b : Bool) (n : Fin 8) (v : UInt8) (i : Fin 8) :
    bits (changeBit b n v) i = if i = n then b else bits v i := by
  cases b <;>
    simp only [bits, changeBit, setBit, clearBit, if_true, Bool.false_eq_true, if_false,
      UInt8.toBitVec_or, UInt8.toBitVec_and, UInt8.toBitVec_not, toBitVec_bitMask,
      BitVec.getLsbD_or, BitVec.getLsbD_and, BitVec.getLsbD_not, BitVec.getLsbD_twoPow, n.isLt,
      i.isLt, decide_true, Bool.true_and, Fin.ext_iff, eq_comm (a := n.val)] <;>
    by_cases hi : i.val = n.val <;> simp [hi]

/-- BIT tells Z whether the bit is zero. -/
theorem isSet_z_bitFlags (n : Fin 8) (v f : UInt8) :
    Flag.z.isSet (bitFlags n v f) = !bits v n := by
  have hzero : (v &&& bitMask n = 0) ↔ bits v n = false := by
    have hmask : BitVec.twoPow 8 n ≠ 0#8 := by
      revert n
      decide
    rw [← UInt8.toBitVec_inj, UInt8.toBitVec_and, toBitVec_bitMask, BitVec.and_twoPow, bits]
    cases v.toBitVec.getLsbD n with
    | true => exact ⟨fun h => absurd h hmask, fun h => absurd h (by decide)⟩
    | false => exact ⟨fun _ => rfl, fun _ => rfl⟩
  rw [bitFlags, Flag.isSet_put, if_neg (by decide), Flag.isSet_put, if_neg (by decide),
    Flag.isSet_put, if_pos rfl, Bool.eq_iff_iff, beq_iff_eq, hzero, Bool.not_eq_true']

/-! ## Digits -/

theorem eq_of_digits {v w : UInt8} (hupper : upperDigit v = upperDigit w)
    (hlower : lowerDigit v = lowerDigit w) : v = w := by
  have hupper := congrArg UInt8.toNat hupper
  have hlower := congrArg UInt8.toNat hlower
  rw [toNat_upperDigit, toNat_upperDigit] at hupper
  rw [toNat_lowerDigit, toNat_lowerDigit] at hlower
  rw [← UInt8.toNat_inj]
  omega

/-- A digit comes in from below, and the lower one moves up. -/
theorem digits_shiftLeft_or {d : UInt8} (hd : d < 16) (a : UInt8) :
    upperDigit (a <<< 4 ||| d) = lowerDigit a ∧ lowerDigit (a <<< 4 ||| d) = d := by
  have hd : d.toNat < 2 ^ 4 := hd
  have hmoved : (a <<< 4).toNat = 2 ^ 4 * (a.toNat % 16) := by
    show a.toNat <<< 4 % 256 = _
    rw [Nat.shiftLeft_eq]
    omega
  have hvalue : (a <<< 4 ||| d).toNat = 16 * (a.toNat % 16) + d.toNat := by
    rw [UInt8.toNat_or, hmoved, ← Nat.two_pow_add_eq_or_of_lt hd]
  rw [← UInt8.toNat_inj, ← UInt8.toNat_inj, toNat_upperDigit, toNat_lowerDigit, toNat_lowerDigit,
    hvalue]
  omega

/-- A digit takes the place of the lower one. -/
theorem digits_and_or {d : UInt8} (hd : d < 16) (a : UInt8) :
    upperDigit (a &&& 0xF0 ||| d) = upperDigit a ∧ lowerDigit (a &&& 0xF0 ||| d) = d := by
  have hall : ∀ a : UInt8, (a &&& 0xF0 : UInt8) = upperDigit a <<< 4 ∧
      lowerDigit (upperDigit a) = upperDigit a := by
    apply byte_forall
    decide +kernel
  obtain ⟨hmoved, hsingle⟩ := hall a
  obtain ⟨hupper, hlower⟩ := digits_shiftLeft_or hd (upperDigit a)
  rw [hmoved]
  exact ⟨hupper.trans hsingle, hlower⟩

theorem upperDigit_lt (v : UInt8) : upperDigit v < 16 := by
  have := v.toNat_lt
  rw [UInt8.lt_iff_toNat_lt, toNat_upperDigit]
  show v.toNat / 16 < 16
  omega

theorem lowerDigit_lt (v : UInt8) : lowerDigit v < 16 := by
  rw [UInt8.lt_iff_toNat_lt, toNat_lowerDigit]
  exact Nat.mod_lt _ (by decide)

/-- The digits that are turned: those of the cell, and above them the lower one of the
accumulator. -/
def threeDigits (p : UInt8 × UInt8) : Fin 3 → UInt8
  | 0 => lowerDigit p.2
  | 1 => upperDigit p.2
  | 2 => lowerDigit p.1

/-- RRD and RLD. -/
inductive DigitTurn where
  | right | left
  deriving DecidableEq

namespace DigitTurn

/-- The accumulator and the cell after a turn of their digits. -/
def turn (t : DigitTurn) (p : UInt8 × UInt8) : UInt8 × UInt8 :=
  match t with
  | right => digitsRight p.1 p.2
  | left => digitsLeft p.1 p.2

/-- Accumulator and cell, and the flags that tell of the accumulator. -/
def apply (t : DigitTurn) (o : Outcome (UInt8 × UInt8)) : Outcome (UInt8 × UInt8) :=
  ⟨t.turn o.value, transferFlags (t.turn o.value).1 o.flags⟩

/-- The same after several turns. -/
def turnAll (ts : List DigitTurn) (p : UInt8 × UInt8) : UInt8 × UInt8 :=
  ts.foldl (fun p t => t.turn p) p

def applyAll (ts : List DigitTurn) (o : Outcome (UInt8 × UInt8)) : Outcome (UInt8 × UInt8) :=
  ts.foldl (fun o t => t.apply o) o

theorem value_applyAll (ts : List DigitTurn) (o : Outcome (UInt8 × UInt8)) :
    (applyAll ts o).value = turnAll ts o.value :=
  (List.foldl_hom Outcome.value fun _ _ => rfl).symm

/-- The turn the other way. -/
def inverse : DigitTurn → DigitTurn
  | right => left
  | left => right

theorem left_movesUp : MovesUp threeDigits left.turn
  | (a, v), 0 => (digits_shiftLeft_or (lowerDigit_lt a) v).1
  | (_, v), 1 => (digits_and_or (upperDigit_lt v) _).2
  | (a, v), 2 => (digits_shiftLeft_or (lowerDigit_lt a) v).2

theorem right_movesDown : MovesDown threeDigits right.turn
  | (a, v), 0 => (digits_shiftLeft_or (upperDigit_lt v) a).2
  | (a, v), 1 => (digits_shiftLeft_or (upperDigit_lt v) a).1
  | (_, v), 2 => (digits_and_or (lowerDigit_lt v) _).2

/-- The upper digit of the accumulator stays where it is. -/
theorem upperDigit_turn (t : DigitTurn) (p : UInt8 × UInt8) :
    upperDigit (t.turn p).1 = upperDigit p.1 := by
  cases t with
  | right => exact (digits_and_or (lowerDigit_lt p.2) p.1).1
  | left => exact (digits_and_or (upperDigit_lt p.2) p.1).1

theorem eq_of_threeDigits {p q : UInt8 × UInt8} (hupper : upperDigit p.1 = upperDigit q.1)
    (h : threeDigits p = threeDigits q) : p = q :=
  Prod.ext (eq_of_digits hupper (congrFun h 2)) (eq_of_digits (congrFun h 1) (congrFun h 0))

theorem turn_inverse (t : DigitTurn) (p : UInt8 × UInt8) : t.inverse.turn (t.turn p) = p := by
  apply eq_of_threeDigits
  · rw [upperDigit_turn, upperDigit_turn]
  · cases t with
    | right => exact right_movesDown.undone left_movesUp p
    | left => exact left_movesUp.undone right_movesDown p

theorem iterate_turn_three (t : DigitTurn) (p : UInt8 × UInt8) : t.turn^[3] p = p := by
  apply eq_of_threeDigits
  · exact ((upperDigit_turn t _).trans (upperDigit_turn t _)).trans (upperDigit_turn t p)
  · cases t with
    | right => exact right_movesDown.round p
    | left => exact left_movesUp.round p

end DigitTurn

end Z80
