/-!
# Bytes and words

The processor computes on bytes (`UInt8`) and on words (`UInt16`); both wrap.
A word is two bytes, and the order in which memory holds them is decided where
memory is touched, not here.

Main definitions:
- `join`, `high`, `low`: a word from its bytes, and the bytes of a word.
- `displace`: a word moved by a signed byte, as branches and indexed operands do.

Main statements: `join_high_low` with `high_join` and `low_join` say that a word
and its pair of bytes determine each other.
-/

namespace Z80

/-- The word with `hi` as its upper and `lo` as its lower byte. -/
def join (hi lo : UInt8) : UInt16 :=
  256 * hi.toUInt16 + lo.toUInt16

/-- The upper byte of a word. -/
def high (w : UInt16) : UInt8 :=
  (w / 256).toUInt8

/-- The lower byte of a word. -/
def low (w : UInt16) : UInt8 :=
  w.toUInt8

/-- `base` moved by the byte `d` read as a number from -128 to 127, modulo 65536. -/
def displace (base : UInt16) (d : UInt8) : UInt16 :=
  base + d.toInt8.toInt16.toUInt16

/-! ## A word and its bytes determine each other -/

theorem toNat_join (hi lo : UInt8) : (join hi lo).toNat = 256 * hi.toNat + lo.toNat := by
  have := hi.toNat_lt
  have := lo.toNat_lt
  simp only [join, UInt16.toNat_add, UInt16.toNat_mul, UInt16.reduceToNat, UInt8.toNat_toUInt16]
  omega

theorem toNat_high (w : UInt16) : (high w).toNat = w.toNat / 256 := by
  have := w.toNat_lt
  simp only [high, UInt16.toNat_toUInt8, UInt16.toNat_div, UInt16.reduceToNat]
  omega

theorem toNat_low (w : UInt16) : (low w).toNat = w.toNat % 256 := by
  simp only [low, UInt16.toNat_toUInt8]

@[simp] theorem high_join (hi lo : UInt8) : high (join hi lo) = hi := by
  have := lo.toNat_lt
  apply UInt8.toNat_inj.mp
  rw [toNat_high, toNat_join]
  omega

@[simp] theorem low_join (hi lo : UInt8) : low (join hi lo) = lo := by
  have := lo.toNat_lt
  apply UInt8.toNat_inj.mp
  rw [toNat_low, toNat_join]
  omega

@[simp] theorem join_high_low (w : UInt16) : join (high w) (low w) = w := by
  apply UInt16.toNat_inj.mp
  rw [toNat_join, toNat_high, toNat_low]
  omega

/-! ## All bytes -/

/-- What holds of the 256 bytes, one after the other, holds of a byte. -/
theorem byte_forall {P : UInt8 → Prop} (h : ∀ n : Fin 256, P (UInt8.ofNat n)) : ∀ v, P v := by
  intro v
  have hv := h ⟨v.toNat, v.toNat_lt⟩
  rwa [UInt8.ofNat_toNat] at hv

end Z80
