import Mathlib.Data.List.Basic
import Z80.InvalidOpcode
import Z80.Value

/-!
# Reading texts back

The texts that a host is shown can be read back, so no two of them mean the same. The report of an
invalid opcode has its address in the last four digits, and what stands before is cut at its
spaces; values are told apart by how they begin and by how many digits they have.

Main definitions:
- `Hex.byte?`, `Hex.word?`, `Hex.spaced?`: what digits spell.
- `InvalidOpcode.cut?`: a text between two others.
- `Value.Format`: how values are written.
- `InvalidOpcode.ofMessage?`, `Value.ofDisplay?`: what a text tells of.
- `Unambiguous`: all texts can be read back.

Main statements: `InvalidOpcode.ofMessage?_eq_some_iff` says that exactly the reports are read,
`Value.ofDisplay?_display` that values are, and `unambiguous` puts them together.
-/

namespace Z80

/-! ## Digits -/

namespace Hex

/-- The sixteen digits in order. -/
def digits : List Char :=
  ['0', '1', '2', '3', '4', '5', '6', '7', '8', '9', 'A', 'B', 'C', 'D', 'E', 'F']

/-- The number of a digit, if the character is one. -/
def digit? (c : Char) : Option Nat :=
  digits.idxOf? c

/-- The byte that two digits spell. -/
def byte? : List Char → Option UInt8
  | [hi, lo] => do return UInt8.ofNat (16 * (← digit? hi) + (← digit? lo))
  | _ => none

/-- The word that four digits spell. -/
def word? : List Char → Option UInt16
  | [a, b, c, d] => do return join (← byte? [a, b]) (← byte? [c, d])
  | _ => none

/-- The bytes that pairs of digits spell, with one space between two of them. -/
def spaced? (cs : List Char) : Option (List UInt8) :=
  if cs = [] then some [] else (cs.splitOn ' ').mapM byte?

theorem digit?_digit {n : Nat} (h : n < 16) : digit? (digit n) = some n := by
  have hall : ∀ n : Fin 16, digit? (digit n) = some n.val := by decide
  exact hall ⟨n, h⟩

theorem eq_digit_of_digit? {c : Char} {n : Nat} (h : digit? c = some n) :
    n < 16 ∧ c = digit n := by
  obtain ⟨hn, hc, -⟩ := List.idxOf?_eq_some_iff.mp h
  have hall : ∀ n : Fin 16, digits[n.val] = digit n := by decide
  exact ⟨hn, hc.symm.trans (hall ⟨n, hn⟩)⟩

theorem byte?_eq_some_iff {cs : List Char} {v : UInt8} : byte? cs = some v ↔ cs = byte v := by
  have hv := v.toNat_lt
  constructor
  · intro h
    unfold byte? at h
    split at h
    · obtain ⟨m, hm, hrest⟩ := Option.bind_eq_some_iff.mp h
      obtain ⟨n, hn, hsum⟩ := Option.bind_eq_some_iff.mp hrest
      obtain ⟨hm, rfl⟩ := eq_digit_of_digit? hm
      obtain ⟨hn, rfl⟩ := eq_digit_of_digit? hn
      have hval : v.toNat = 16 * m + n := by
        rw [← Option.some.inj hsum]
        exact UInt8.toNat_ofNat_of_lt' (by show _ < 256; omega)
      have hhigh : (16 * m + n) / 16 = m := by omega
      have hlow : (16 * m + n) % 16 = n := by omega
      rw [byte, hval, hhigh, hlow]
    · cases h
  · rintro rfl
    have hsum : 16 * (v.toNat / 16) + v.toNat % 16 = v.toNat := Nat.div_add_mod _ _
    show (digit? (digit (v.toNat / 16)) >>= fun m => digit? (digit (v.toNat % 16)) >>= fun n =>
      some (UInt8.ofNat (16 * m + n))) = some v
    rw [digit?_digit (by omega), digit?_digit (by omega)]
    show some (UInt8.ofNat (16 * (v.toNat / 16) + v.toNat % 16)) = some v
    rw [hsum, UInt8.ofNat_toNat]

theorem word?_eq_some_iff {cs : List Char} {w : UInt16} : word? cs = some w ↔ cs = word w := by
  constructor
  · intro h
    unfold word? at h
    split at h
    · obtain ⟨hi, hhi, hrest⟩ := Option.bind_eq_some_iff.mp h
      obtain ⟨lo, hlo, hjoin⟩ := Option.bind_eq_some_iff.mp hrest
      obtain rfl : join hi lo = w := Option.some.inj hjoin
      rw [word, high_join, low_join, ← byte?_eq_some_iff.mp hhi, ← byte?_eq_some_iff.mp hlo]
      rfl
    · cases h
  · rintro rfl
    have hbyte (v : UInt8) : byte? (byte v) = some v := byte?_eq_some_iff.mpr rfl
    show (byte? (byte (high w)) >>= fun hi => byte? (byte (low w)) >>= fun lo =>
      some (join hi lo)) = some w
    rw [hbyte, hbyte]
    exact congrArg some (join_high_low w)

/-! ## Bytes between spaces -/

theorem spaced_eq_intercalate (vs : List UInt8) : spaced vs = [' '].intercalate (vs.map byte) := by
  induction vs with
  | nil => rfl
  | cons v vs ih =>
    cases vs with
    | nil => exact List.intercalate_singleton.symm
    | cons w vs =>
      rw [List.map_cons, List.map_cons, List.intercalate_cons_cons, ← List.map_cons, ← ih,
        List.append_assoc]
      rfl

/-- The pieces between spaces are read one by one. -/
theorem mapM_byte?_eq_some_iff {css : List (List Char)} {vs : List UInt8} :
    css.mapM byte? = some vs ↔ css = vs.map byte := by
  induction css generalizing vs with
  | nil =>
    rw [List.mapM_nil, eq_comm (a := []), List.map_eq_nil_iff]
    exact ⟨fun h => (Option.some.inj h).symm, fun h => congrArg some h.symm⟩
  | cons cs css ih =>
    rw [List.mapM_cons]
    constructor
    · intro h
      obtain ⟨v, hv, hrest⟩ := Option.bind_eq_some_iff.mp h
      obtain ⟨vs', hvs', hcons⟩ := Option.bind_eq_some_iff.mp hrest
      rw [← Option.some.inj hcons, List.map_cons, byte?_eq_some_iff.mp hv, ih.mp hvs']
    · intro h
      cases vs with
      | nil => cases h
      | cons v vs =>
        obtain ⟨hcs, hcss⟩ := List.cons.inj h
        rw [byte?_eq_some_iff.mpr hcs, ih.mpr hcss]
        rfl

theorem digit_mem_digits {n : Nat} (h : n < 16) : digit n ∈ digits := by
  have hall : ∀ n : Fin 16, digit n ∈ digits := by decide
  exact hall ⟨n, h⟩

theorem mem_digits_of_mem_byte {v : UInt8} {c : Char} (h : c ∈ byte v) : c ∈ digits := by
  have := v.toNat_lt
  rcases List.mem_cons.mp h with rfl | h
  · exact digit_mem_digits (by omega)
  · rw [List.mem_singleton.mp h]
    exact digit_mem_digits (by omega)

theorem mem_digits_of_mem_word {w : UInt16} {c : Char} (h : c ∈ word w) : c ∈ digits :=
  (List.mem_append.mp h).elim mem_digits_of_mem_byte mem_digits_of_mem_byte

theorem space_notMem_byte (v : UInt8) : ' ' ∉ byte v :=
  fun h => absurd (mem_digits_of_mem_byte h) (by decide)

theorem spaced?_eq_some_iff {cs : List Char} {vs : List UInt8} :
    spaced? cs = some vs ↔ cs = spaced vs := by
  rw [spaced?, spaced_eq_intercalate]
  constructor
  · intro h
    split at h
    · next hnil =>
      rw [hnil, ← Option.some.inj h]
      rfl
    · rw [← mapM_byte?_eq_some_iff.mp h, List.intercalate_splitOn]
  · rintro rfl
    cases vs with
    | nil => rfl
    | cons v vs =>
      have hne : [' '].intercalate ((v :: vs).map byte) ≠ [] := by
        rw [← spaced_eq_intercalate]
        cases vs <;> exact List.cons_ne_nil _ _
      rw [if_neg hne, mapM_byte?_eq_some_iff]
      apply List.splitOn_intercalate
      · intro cs hcs
        obtain ⟨w, -, rfl⟩ := List.mem_map.mp hcs
        exact space_notMem_byte w
      · exact List.cons_ne_nil _ _

end Hex

/-! ## Reports -/

namespace InvalidOpcode

/-- What stands between two texts, and the last characters behind the second. -/
def cut? (front back : List Char) (n : Nat) (cs : List Char) :
    Option (List Char × List Char) := do
  let behind ← cs.dropPrefix? front
  let between ← (behind.take (behind.length - n)).dropSuffix? back
  return (between, behind.drop (behind.length - n))

theorem cut?_eq_of_append {front between back last : List Char} {n : Nat}
    (h : last.length = n) :
    cut? front back n (front ++ (between ++ back ++ last)) = some (between, last) := by
  have hlength : (between ++ back ++ last).length - n = (between ++ back).length := by
    rw [List.length_append, h, Nat.add_sub_cancel]
  have hback : (between ++ back).dropSuffix? back = some between :=
    List.dropSuffix?_eq_some_iff.mpr ⟨back, rfl, beq_self_eq_true back⟩
  rw [cut?, List.dropPrefix?_append_of_beq _ (beq_self_eq_true front), Option.bind_eq_bind,
    Option.bind_some, hlength, List.take_left, List.drop_left, hback]
  rfl

theorem eq_append_of_cut? {front between back last cs : List Char} {n : Nat}
    (h : cut? front back n cs = some (between, last)) :
    cs = front ++ (between ++ back ++ last) := by
  obtain ⟨behind, hbehind, hrest⟩ := Option.bind_eq_some_iff.mp h
  obtain ⟨codes, hcodes, hpair⟩ := Option.bind_eq_some_iff.mp hrest
  obtain ⟨rfl, rfl⟩ := Prod.mk.inj (Option.some.inj hpair)
  obtain ⟨front', rfl, hfront⟩ := List.dropPrefix?_eq_some_iff.mp hbehind
  obtain ⟨back', htake, hback⟩ := List.dropSuffix?_eq_some_iff.mp hcodes
  rw [eq_of_beq hfront, ← eq_of_beq hback, ← htake, List.take_append_drop]

/-- The report that a text tells of: behind the words stand the bytes, and then the address. -/
def ofMessage? (s : String) : Option InvalidOpcode := do
  let (codes, address) ← cut? "invalid opcode ".toList " at 0x".toList 4 s.toList
  return ⟨← Hex.word? address, ← Hex.spaced? codes⟩

theorem toList_message (e : InvalidOpcode) :
    e.message.toList =
      "invalid opcode ".toList ++ (Hex.spaced e.opcode ++ " at 0x".toList ++ Hex.word e.pc) := by
  have happend (front codes back address : List Char) :
      front ++ codes ++ back ++ address = front ++ (codes ++ back ++ address) := by
    simp only [List.append_assoc]
  exact String.toList_ofList.trans (happend _ _ _ _)

/-- Exactly the reports are read, and each for what it is. -/
theorem ofMessage?_eq_some_iff {s : String} {e : InvalidOpcode} :
    ofMessage? s = some e ↔ s = e.message := by
  rw [← String.toList_inj, toList_message]
  constructor
  · intro h
    obtain ⟨⟨codes, address⟩, hcut, hrest⟩ := Option.bind_eq_some_iff.mp h
    obtain ⟨pc, hpc, hrest⟩ := Option.bind_eq_some_iff.mp hrest
    obtain ⟨vs, hvs, hreport⟩ := Option.bind_eq_some_iff.mp hrest
    obtain rfl : InvalidOpcode.mk pc vs = e := Option.some.inj hreport
    rw [eq_append_of_cut? hcut, Hex.word?_eq_some_iff.mp hpc, Hex.spaced?_eq_some_iff.mp hvs]
  · intro h
    have hlength : (Hex.word e.pc).length = 4 := rfl
    have hword : Hex.word? (Hex.word e.pc) = some e.pc := Hex.word?_eq_some_iff.mpr rfl
    have hspaced : Hex.spaced? (Hex.spaced e.opcode) = some e.opcode :=
      Hex.spaced?_eq_some_iff.mpr rfl
    rw [ofMessage?, h, cut?_eq_of_append hlength]
    simp only [Option.bind_eq_bind, Option.bind_some, hword, hspaced, Option.pure_def]

end InvalidOpcode

/-! ## Values -/

namespace Value

/-- How each kind of value is written: by a word of English, in full width behind `0x`, or by
decimal digits and nothing else. -/
def Format : Value → List Char → Prop
  | bool _, cs => cs = ['t', 'r', 'u', 'e'] ∨ cs = ['f', 'a', 'l', 's', 'e']
  | byte _, cs => ∃ ds, cs = '0' :: 'x' :: ds ∧ ds.length = 2 ∧ ∀ c ∈ ds, c ∈ Hex.digits
  | word _, cs => ∃ ds, cs = '0' :: 'x' :: ds ∧ ds.length = 4 ∧ ∀ c ∈ ds, c ∈ Hex.digits
  | count _, cs => cs ≠ [] ∧ ∀ c ∈ cs, c.isDigit

/-- The count that decimal digits spell. -/
def decimal? (cs : List Char) : Option UInt64 :=
  if cs ≠ [] ∧ cs.all Char.isDigit then some (UInt64.ofNat (Nat.ofDigitChars 10 cs 0)) else none

/-- The value that a text tells of: behind `0x`, two digits are a byte and four a word. -/
def ofDisplay? (s : String) : Option Value :=
  match s.toList with
  | ['t', 'r', 'u', 'e'] => some (bool true)
  | ['f', 'a', 'l', 's', 'e'] => some (bool false)
  | '0' :: 'x' :: cs => ((Hex.byte? cs).map byte).or ((Hex.word? cs).map word)
  | cs => (decimal? cs).map count

theorem isDigit_of_mem {n : Nat} {c : Char} (h : c ∈ Nat.toDigits 10 n) : c.isDigit :=
  Nat.isDigit_of_mem_toDigits (Nat.succ_pos 9) (Nat.le_refl 10) h

theorem decimal?_toDigits (n : UInt64) : decimal? (Nat.toDigits 10 n.toNat) = some n := by
  have hdigits : (Nat.toDigits 10 n.toNat).all Char.isDigit :=
    List.all_eq_true.mpr fun _ => isDigit_of_mem
  rw [decimal?, if_pos ⟨Nat.toDigits_ne_nil, hdigits⟩, Nat.ofDigitChars_ten_toDigits,
    UInt64.ofNat_toNat]

theorem format_display (v : Value) : v.Format v.display.toList := by
  cases v with
  | bool b => cases b <;> simp [Format, display]
  | byte v => exact ⟨Hex.byte v, String.toList_ofList, rfl, fun _ => Hex.mem_digits_of_mem_byte⟩
  | word w => exact ⟨Hex.word w, String.toList_ofList, rfl, fun _ => Hex.mem_digits_of_mem_word⟩
  | count n =>
    rw [display, Nat.repr_eq_ofList_toDigits, String.toList_ofList]
    exact ⟨Nat.toDigits_ne_nil, fun _ => isDigit_of_mem⟩

/-- A value is read back from its text, with its width. -/
theorem ofDisplay?_display (v : Value) : ofDisplay? v.display = some v := by
  cases v with
  | bool b => cases b <;> rfl
  | byte v =>
    have hbyte : Hex.byte? (Hex.byte v) = some v := Hex.byte?_eq_some_iff.mpr rfl
    rw [ofDisplay?, display, String.toList_ofList]
    show ((Hex.byte? (Hex.byte v)).map byte).or _ = _
    rw [hbyte]
    rfl
  | word w =>
    have hword : Hex.word? (Hex.word w) = some w := Hex.word?_eq_some_iff.mpr rfl
    rw [ofDisplay?, display, String.toList_ofList]
    show ((Hex.byte? (Hex.word w)).map byte).or ((Hex.word? (Hex.word w)).map word) = _
    rw [hword]
    rfl
  | count n =>
    rw [ofDisplay?, display, Nat.repr_eq_ofList_toDigits, String.toList_ofList]
    -- a word of English or an `x` in the text would be a digit
    split
    · next htext =>
      have : 't'.isDigit := isDigit_of_mem (htext ▸ List.mem_cons_self)
      exact absurd this (by decide)
    · next htext =>
      have : 'f'.isDigit := isDigit_of_mem (htext ▸ List.mem_cons_self)
      exact absurd this (by decide)
    · next htext =>
      have : 'x'.isDigit :=
        isDigit_of_mem (htext ▸ List.mem_cons_of_mem _ List.mem_cons_self)
      exact absurd this (by decide)
    · rw [decimal?_toDigits]
      rfl

end Value

/-! ## No two alike -/

/-- The texts that a host is shown can be told apart. -/
structure Unambiguous : Prop where
  /-- A text is the report of at most one failure, and the reader finds it. -/
  report (s : String) (e : InvalidOpcode) : InvalidOpcode.ofMessage? s = some e ↔ s = e.message
  reports {e e' : InvalidOpcode} : e.message = e'.message → e.pc = e'.pc ∧ e.opcode = e'.opcode
  format (v : Value) : v.Format v.display.toList
  /-- The text of a value gives it back. -/
  value (v : Value) : Value.ofDisplay? v.display = some v
  values {v v' : Value} : v.display = v'.display → v = v'

theorem unambiguous : Unambiguous where
  report _ _ := InvalidOpcode.ofMessage?_eq_some_iff
  reports := by
    intro e e' h
    have hread : InvalidOpcode.ofMessage? e.message = some e :=
      InvalidOpcode.ofMessage?_eq_some_iff.mpr rfl
    obtain rfl : e' = e := by
      rw [h, InvalidOpcode.ofMessage?_eq_some_iff.mpr rfl] at hread
      exact Option.some.inj hread
    exact ⟨rfl, rfl⟩
  format := Value.format_display
  value := Value.ofDisplay?_display
  values := by
    intro v v' h
    have hread : Value.ofDisplay? v.display = some v' := h ▸ Value.ofDisplay?_display v'
    rw [Value.ofDisplay?_display] at hread
    exact Option.some.inj hread

end Z80
