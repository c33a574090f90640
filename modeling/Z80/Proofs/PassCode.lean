import Z80.Proofs.BaseFamilies
import Z80.Proofs.LongArithmetic
import Z80.Proofs.Stack

/-!
# Passes as code

A pass over the digits of two numbers is a program without jumps, with the digits as operands: a
few instructions for each two of them. A machine that finds this code at its program counter goes
through it in single steps, and a register holds one digit of the result after the other.

Main definitions:
- `byteCode`, `decimalCode`, `wordCode`: the code for one digit of each number.
- `passCode`: the code for all of them.
- `Exec.Leads`: single steps lead through some code and do to a machine what a function does.
- `Exec.readings`: what a register holds, digit after digit.
- `Exec.RanThrough`: a machine has gone through its code.

Main statements: `DigitCode.pass` compares the code with the pass. `decimalCode_sum` and
`decimalCode_difference` say what comes out of decimal code, `byteCode_combines` what out of code
on bytes, and `wordCode_agrees` and `wordCode_agrees_once` compare it with code on words.
-/

namespace Z80

/-! ## The code -/

/-- LD A,n and then ADC A,n or SBC A,n. -/
def byteCode (subtracts : Bool) (x y : UInt8) : List UInt8 :=
  [0x3E, x] ++ [if subtracts then 0xDE else 0xCE, y]

/-- The same with DAA behind it. -/
def decimalCode (subtracts : Bool) (x y : UInt8) : List UInt8 :=
  byteCode subtracts x y ++ [0x27]

/-- LD HL,nn and then a load of a pair and an operation behind ED. -/
def wordCode (load op : UInt8) (x y : UInt16) : List UInt8 :=
  [0x21, low x, high x] ++ [load, low y, high y] ++ [0xED, op]

/-- The code for all digits, from the lowest ones on. -/
def passCode {α : Type} (code : α → α → List UInt8) (xs ys : List α) : List UInt8 :=
  (List.zipWith code xs ys).flatten

/-- The opcodes behind ED of ADC HL and SBC HL. -/
theorem ed_wordOp {op : UInt8} {p : Fin 4} {subtracts : Bool}
    (h : Opcode.HasPairFields op 1 p (if subtracts then 0 else 1) 2) :
    Page.ed op = some (.done (Exec.wordOp subtracts (Reg16.select p))) := by
  cases subtracts with
  | false => exact h.adcWord
  | true => exact h.sbcWord

namespace Exec

open Arithmetic

variable {α ω : Type} [Observer ω]

/-! ## Code without jumps -/

/-- So many single steps lead any machine that finds the code through it, and do to its registers
but PC and R what `f` does. The board stays as it is, and with it the code. -/
def Leads (code : List UInt8) (count : Nat) (f : Machine Board ω → Machine Board ω) : Prop :=
  ∀ t a m, Tracks t a m → t.bus.Holds a code →
    (f t).bus = t.bus ∧
      ∃ m', step count m = (.ok (), m') ∧ Tracks (f t) (a + UInt16.ofNat code.length) m'

namespace Leads

theorem nil : Leads [] 0 (id : Machine Board ω → Machine Board ω) := by
  intro t a m hm _
  exact ⟨rfl, m, step_of_running 0 hm.fault, (UInt16.add_zero a).symm ▸ hm⟩

theorem append {code code' : List UInt8} {count count' : Nat}
    {f f' : Machine Board ω → Machine Board ω} (h : Leads code count f)
    (h' : Leads code' count' f') :
    Leads (code ++ code') (count + count') fun t => f' (f t) := by
  intro t a m hm hcode
  obtain ⟨hbus, s, hstep, hs⟩ := h t a m hm hcode.left
  obtain ⟨hbus', m', hstep', hm'⟩ := h' (f t) _ s hs (hbus.symm ▸ hcode.right)
  refine ⟨hbus'.trans hbus, m', ?_, ?_⟩
  · rw [step_add, bind_apply, hstep]
    exact hstep'
  · rw [List.length_append, UInt16.ofNat_add, ← UInt16.add_assoc]
    exact hm'

end Leads

/-- An instruction that makes `g` of the registers leads through its encoding, if PC and R have no
part in this. -/
theorem leads_of_encodes {code : List UInt8} {opcodes : Nat} {i : Instruction}
    (h : Encodes code opcodes i) {g : Registers → Registers}
    (hperform : ∀ s : Machine Board ω,
      (perform i s).2 = { s with cpu := { s.cpu with regs := g s.cpu.regs } })
    (hg : ∀ (x : Registers) a v, g { x with pc := a, r := v } = { g x with pc := a, r := v })
    (hhalted : ∀ x, (g x).halted = x.halted) :
    Leads code 1 fun t : Machine Board ω => (perform i t).2 := by
  intro t a m hm hcode
  obtain ⟨s, hs, hstep⟩ := h.step hm hcode
  have hbus : (perform i t).2.bus = t.bus := by
    rw [hperform]
  have hregs : g s.cpu.regs =
      { g t.cpu.regs with pc := a + UInt16.ofNat code.length, r := (g s.cpu.regs).r } := by
    rw [hs.regs, hg]
  have hafter : Tracks (perform i t).2 (a + UInt16.ofNat code.length) (perform i s).2 := by
    rw [hperform, hperform]
    exact ⟨hs.bus, hregs, hs.fault, (hhalted _).trans hs.halted⟩
  exact ⟨hbus, _, hstep, hafter⟩

/-! ## One digit -/

section Digits

variable (subtracts : Bool)

theorem leads_byteStep (x y : UInt8) : Leads (byteCode subtracts x y) 2
    fun t : Machine Board ω => (byteStep (byteOp subtracts) x y t).2 := by
  have hload : Encodes [0x3E, x] 1 (.load (.reg .a) (.imm x)) :=
    encodes_plain rfl (.operand (.done _))
  have halu : Encodes [if subtracts then 0xDE else 0xCE, y] 1
      (.alu (byteOp subtracts) (.imm y)) := by
    cases subtracts <;> exact encodes_plain rfl (.operand (.done _))
  exact (leads_of_encodes hload (g := fun r => { r with a := x }) (fun _ => rfl)
    (fun _ _ _ => rfl) fun _ => rfl).append
      (leads_of_encodes halu (g := fun r =>
        let o := (byteOp subtracts).apply r.a y r.f
        { r with a := o.value, f := o.flags }) (fun _ => rfl) (fun _ _ _ => rfl) fun _ => rfl)

theorem leads_decimalByte (x y : UInt8) : Leads (decimalCode subtracts x y) 3
    fun t : Machine Board ω => (decimalByte (byteOp subtracts) x y t).2 := by
  have hadjust : Encodes [0x27] 1 .daa := encodes_plain rfl (.done _)
  exact (leads_byteStep subtracts x y).append
    (leads_of_encodes hadjust (g := fun r =>
      let o := decimalAdjust r.a r.f
      { r with a := o.value, f := o.flags }) (fun _ => rfl) (fun _ _ _ => rfl) fun _ => rfl)

theorem leads_loadImm {op : UInt8} {p : Fin 4} (hop : Opcode.HasPairFields op 0 p 0 1)
    (nn : UInt16) : Leads [op, low nn, high nn] 1
      fun t : Machine Board ω => (perform (.loadImm (Reg16.select p) nn) t).2 := by
  have hload := encodes_plain hop.loadImm (Decoding.ends_word _ nn)
  refine leads_of_encodes hload (g := fun r => r.setWord (Reg16.select p) nn) (fun _ => rfl) ?_ ?_
  · intro x a v
    exact match p with
      | 0 | 1 | 2 | 3 => rfl
  · intro x
    exact match p with
      | 0 | 1 | 2 | 3 => rfl

theorem leads_wordOp {op : UInt8} {p : Fin 4}
    (hop : Opcode.HasPairFields op 1 p (if subtracts then 0 else 1) 2) : Leads [0xED, op] 1
      fun t : Machine Board ω => (perform (wordOp subtracts (Reg16.select p)) t).2 := by
  have hencodes := encodes_ed (ed_wordOp hop) (.done _)
  refine leads_of_encodes hencodes (g := fun r =>
    let o := (if subtracts then sbcWord else adcWord) r.hl (r.word (Reg16.select p)) r.f
    { r.setHL o.value with f := o.flags }) ?_ ?_ ?_
  · intro s
    cases subtracts <;> rfl
  · intro x a v
    exact match p with
      | 0 | 1 | 2 | 3 => rfl
  · intro x
    rfl

theorem leads_wordStep {load op : UInt8} {p : Fin 4} (hload : Opcode.HasPairFields load 0 p 0 1)
    (hop : Opcode.HasPairFields op 1 p (if subtracts then 0 else 1) 2) (x y : UInt16) :
    Leads (wordCode load op x y) 3
      fun t : Machine Board ω => (wordStep (wordOp subtracts) (Reg16.select p) x y t).2 := by
  have hhl : Opcode.HasPairFields 0x21 0 2 0 1 := rfl
  exact ((leads_loadImm hhl x).append (leads_loadImm hload y)).append (leads_wordOp subtracts hop)

end Digits

/-! ## All digits -/

/-- What a register holds each time that so many steps have been taken. -/
def readings (read : Registers → α) (count n : Nat) (m : Machine Board ω) : List α :=
  (List.range n).map fun k => read (step (count * (k + 1)) m).2.cpu.regs

theorem readings_succ {read : Registers → α} {count : Nat} (n : Nat) {m s : Machine Board ω}
    (hstep : step count m = (.ok (), s)) :
    readings read count (n + 1) m = read s.cpu.regs :: readings read count n s := by
  have hmore (k : Nat) : step (count * (k + 1)) m = step (count * k) s := by
    rw [Nat.mul_succ, Nat.add_comm, step_add, bind_apply, hstep]
  rw [readings, readings, List.range_succ_eq_map, List.map_cons, List.map_map, Nat.zero_add,
    Nat.mul_one, hstep]
  simp only [Function.comp_def, Nat.succ_eq_add_one, hmore]

/-- The code does one digit of a pass, and leaves the digit in a register. -/
structure DigitCode (step : α → α → Exec Board ω α) (code : α → α → List UInt8) (count : Nat)
    (read : Registers → α) : Prop where
  leads : ∀ x y, Leads (code x y) count fun t => (step x y t).2
  result : ∀ x y t, (step x y t).1 = read (step x y t).2.cpu.regs
  apart : ∀ (r : Registers) a v, read { r with pc := a, r := v } = read r

/-- The code for all digits does the pass. -/
theorem DigitCode.pass {step : α → α → Exec Board ω α} {code : α → α → List UInt8} {count : Nat}
    {read : Registers → α} (h : DigitCode step code count read) {xs ys : List α}
    (hlen : xs.length = ys.length) {t m : Machine Board ω} {a : UInt16} (hm : Tracks t a m)
    (hcode : t.bus.Holds a (passCode code xs ys)) :
    let out := digitPass step xs ys t
    out.2.bus = t.bus ∧ readings read count xs.length m = out.1 ∧
      ∃ m', Exec.step (count * xs.length) m = (.ok (), m') ∧
        Tracks out.2 (a + UInt16.ofNat (passCode code xs ys).length) m' := by
  induction xs generalizing ys t a m with
  | nil =>
    obtain ⟨hbus, hsteps⟩ := Leads.nil t a m hm hcode
    exact ⟨hbus, rfl, hsteps⟩
  | cons x xs ih =>
    cases ys with
    | nil => cases hlen
    | cons y ys =>
      obtain ⟨hbus, s, hstep, hs⟩ := h.leads x y t a m hm hcode.left
      -- the first digit has not touched the board, so the code for the rest is still there
      obtain ⟨hbus', hreadings, m', hrest, hm'⟩ :=
        ih (Nat.succ.inj hlen) hs (hbus.symm ▸ hcode.right)
      have hdigit : read s.cpu.regs = (step x y t).1 := by
        rw [hs.regs, h.apart, h.result]
      rw [digitPass_cons]
      refine ⟨hbus'.trans hbus, ?_, m', ?_, ?_⟩
      · rw [List.length_cons, readings_succ _ hstep, hdigit, hreadings]
      · rw [List.length_cons, Nat.mul_succ, Nat.add_comm, step_add, bind_apply, hstep]
        exact hrest
      · rw [passCode, List.zipWith_cons_cons, List.flatten_cons, List.length_append,
          UInt16.ofNat_add, ← UInt16.add_assoc]
        exact hm'

theorem digitCode_byte (subtracts : Bool) :
    DigitCode (byteStep (byteOp subtracts) : UInt8 → UInt8 → Exec Board ω UInt8)
      (byteCode subtracts) 2 (·.a) where
  leads := leads_byteStep subtracts
  result _ _ _ := rfl
  apart _ _ _ := rfl

theorem digitCode_decimal (subtracts : Bool) :
    DigitCode (decimalByte (byteOp subtracts) : UInt8 → UInt8 → Exec Board ω UInt8)
      (decimalCode subtracts) 3 (·.a) where
  leads := leads_decimalByte subtracts
  result _ _ _ := rfl
  apart _ _ _ := rfl

theorem digitCode_word (subtracts : Bool) {load op : UInt8} {p : Fin 4}
    (hload : Opcode.HasPairFields load 0 p 0 1)
    (hop : Opcode.HasPairFields op 1 p (if subtracts then 0 else 1) 2) :
    DigitCode
      (wordStep (wordOp subtracts) (Reg16.select p) : UInt16 → UInt16 → Exec Board ω UInt16)
      (wordCode load op) 3 (·.hl) where
  leads := leads_wordStep subtracts hload hop
  result _ _ _ := rfl
  apart _ _ _ := rfl

/-! ## Whole passes -/

/-- So many single steps have led from one machine to the other, which is behind the code and has
the same board. -/
structure RanThrough (code : List UInt8) (count : Nat) (m m' : Machine Board ω) : Prop where
  steps : step count m = (.ok (), m')
  pc : m'.cpu.regs.pc = m.cpu.regs.pc + UInt16.ofNat code.length
  bus : m'.bus = m.bus

section Runs

variable {m : Machine Board ω} (hm : Running m)
include hm

omit [Observer ω] in
theorem Running.tracks (a : UInt16) : Tracks m a (m.startingAt a) :=
  ⟨rfl, rfl, hm.fault, hm.halted⟩

/-- The code for all digits, wherever it stands, leaves the digits and the flags of the pass. -/
theorem DigitCode.ranThrough {step : α → α → Exec Board ω α} {code : α → α → List UInt8}
    {count : Nat} {read : Registers → α} (h : DigitCode step code count read) {xs ys : List α}
    (hlen : xs.length = ys.length) {a : UInt16} (hcode : m.bus.Holds a (passCode code xs ys)) :
    let out := digitPass step xs ys m
    ∃ m', RanThrough (passCode code xs ys) (count * xs.length) (m.startingAt a) m' ∧
      readings read count xs.length (m.startingAt a) = out.1 ∧
      m'.cpu.regs.f = out.2.cpu.regs.f := by
  obtain ⟨hbus, hreadings, m', hsteps, hm'⟩ := h.pass hlen (hm.tracks a) hcode
  exact ⟨m', ⟨hsteps, hm'.pc, hm'.bus.trans hbus⟩, hreadings, hm'.flags⟩

/-! ### Decimal digits -/

section Decimal

variable {xs ys : List UInt8} (hlen : xs.length = ys.length) (hxs : ∀ x ∈ xs, IsPacked x)
  (hys : ∀ y ∈ ys, IsPacked y)
include hlen hxs hys

/-- LD A,n, ADC A,n and DAA for each byte of two decimal numbers leave their sum in A, byte after
byte, and in C whether it is too large for so many digits. -/
theorem decimalCode_sum (hcode : m.bus.Holds m.cpu.regs.pc (passCode (decimalCode false) xs ys)) :
    let n := xs.length
    let total := packedNumber xs + packedNumber ys + carryOf m.cpu.regs.f
    let sum := readings (·.a) 3 n m
    ∃ m', RanThrough (passCode (decimalCode false) xs ys) (3 * n) m m' ∧ (∀ v ∈ sum, IsPacked v) ∧
      packedNumber sum = total % 100 ^ n ∧
      (Flag.c.isSet m'.cpu.regs.f = true ↔ 100 ^ n ≤ total) := by
  intro n total sum
  obtain ⟨m', hran, hsum, hflags⟩ := (digitCode_decimal false).ranThrough hm hlen hcode
  obtain ⟨-, hpacked, hnumber, hcarry⟩ := decimalPass_adc hlen hxs hys m
  refine ⟨m', hran, ?_, ?_, ?_⟩
  · intro v hv
    exact hpacked v (hsum ▸ hv)
  · exact (congrArg packedNumber hsum).trans hnumber
  · rw [hflags]
    exact hcarry

/-- SBC A,n in place of ADC A,n leaves their difference, and in C whether it is negative. -/
theorem decimalCode_difference
    (hcode : m.bus.Holds m.cpu.regs.pc (passCode (decimalCode true) xs ys)) :
    let n := xs.length
    let X := packedNumber xs
    let Y := packedNumber ys
    let c := carryOf m.cpu.regs.f
    let difference := readings (·.a) 3 n m
    ∃ m', RanThrough (passCode (decimalCode true) xs ys) (3 * n) m m' ∧
      (∀ v ∈ difference, IsPacked v) ∧
      (packedNumber difference : ℤ) = ((X : ℤ) - Y - c) % 100 ^ n ∧
      (Flag.c.isSet m'.cpu.regs.f = true ↔ X < Y + c) := by
  intro n X Y c difference
  obtain ⟨m', hran, hdifference, hflags⟩ := (digitCode_decimal true).ranThrough hm hlen hcode
  obtain ⟨-, hpacked, hnumber, hborrow⟩ := decimalPass_sbc hlen hxs hys m
  refine ⟨m', hran, ?_, ?_, ?_⟩
  · intro v hv
    exact hpacked v (hdifference ▸ hv)
  · exact (congrArg (fun vs => (packedNumber vs : ℤ)) hdifference).trans hnumber
  · rw [hflags]
    exact hborrow

end Decimal

/-! ### Bytes and words -/

/-- LD A,n and ADC A,n or SBC A,n for each byte of two numbers leave their sum or difference in A,
byte after byte, and the flags of it. -/
theorem byteCode_combines {xs ys : List UInt8} (hne : xs ≠ []) (hlen : xs.length = ys.length)
    (subtracts : Bool)
    (hcode : m.bus.Holds m.cpu.regs.pc (passCode (byteCode subtracts) xs ys)) :
    let n := xs.length
    let X := byteNumber xs
    let Y := byteNumber ys
    let c := carryIn m
    let V := byteNumber (readings (·.a) 2 n m)
    ∃ m', RanThrough (passCode (byteCode subtracts) xs ys) (2 * n) m m' ∧
      (V : ℤ) = combine subtracts X Y c % 256 ^ n ∧
      (Flag.c.isSet m'.cpu.regs.f = true ↔
        if subtracts then X < Y + c.toNat else 256 ^ n ≤ X + Y + c.toNat) ∧
      (Flag.s.isSet m'.cpu.regs.f = true ↔ 256 ^ n ≤ 2 * V) ∧
      (Flag.p.isSet m'.cpu.regs.f = true ↔
        OutOfRange n (combine subtracts (signedNumber n X) (signedNumber n Y) c)) := by
  intro n X Y c V
  obtain ⟨m', hran, hdigits, hflags⟩ := (digitCode_byte subtracts).ranThrough hm hlen hcode
  have hV : V = byteNumber (bytePass (byteOp subtracts) xs ys m).1 := congrArg byteNumber hdigits
  obtain ⟨-, hpass⟩ := bytePass_flags hne hlen subtracts m
  refine ⟨m', hran, ?_⟩
  rw [hflags, hV]
  exact hpass

/-- Code on words that spell the same numbers leaves the same number in HL, word after word, and
the same flags, but for Z. -/
theorem wordCode_agrees {xs ys : List UInt8} {us vs : List UInt16} (hne : xs ≠ [])
    (hlen : xs.length = ys.length) (hlen' : us.length = vs.length)
    (hdouble : 2 * us.length = xs.length) (hX : wordNumber us = byteNumber xs)
    (hY : wordNumber vs = byteNumber ys) {subtracts : Bool} {load op : UInt8} {p : Fin 4}
    (hload : Opcode.HasPairFields load 0 p 0 1)
    (hop : Opcode.HasPairFields op 1 p (if subtracts then 0 else 1) 2) (hp : p ≠ 2) {a b : UInt16}
    (hbytes : m.bus.Holds a (passCode (byteCode subtracts) xs ys))
    (hwords : m.bus.Holds b (passCode (wordCode load op) us vs)) :
    let narrow := readings (·.a) 2 xs.length (m.startingAt a)
    let wide := readings (·.hl) 3 us.length (m.startingAt b)
    ∃ m₁ m₂, RanThrough (passCode (byteCode subtracts) xs ys) (2 * xs.length) (m.startingAt a) m₁ ∧
      RanThrough (passCode (wordCode load op) us vs) (3 * us.length) (m.startingAt b) m₂ ∧
      wordNumber wide = byteNumber narrow ∧
      ∀ g : Flag, g ≠ .z → g.isSet m₂.cpu.regs.f = g.isSet m₁.cpu.regs.f := by
  intro narrow wide
  have hsrc : Reg16.select p ∈ [Reg16.bc, .de, .sp] :=
    match p with
    | 0 | 1 | 3 => by decide
    | 2 => absurd rfl hp
  obtain ⟨m₁, hran, hnarrow, hflags⟩ := (digitCode_byte subtracts).ranThrough hm hlen hbytes
  obtain ⟨m₂, hran', hwide, hflags'⟩ :=
    (digitCode_word subtracts hload hop).ranThrough hm hlen' hwords
  obtain ⟨-, hnumber, hagree⟩ := wordPass_agrees hne hlen hlen' hdouble hX hY hsrc subtracts m
  refine ⟨m₁, m₂, hran, hran', ?_, ?_⟩
  · rw [show narrow = _ from hnarrow, show wide = _ from hwide]
    exact hnumber
  · rw [hflags, hflags']
    exact hagree

/-- ADC HL or SBC HL does what code on the bytes of its operands does, lower ones first, but Z
tells of the whole word. -/
theorem wordCode_agrees_once {subtracts : Bool} {op : UInt8} {p : Fin 4}
    (hop : Opcode.HasPairFields op 1 p (if subtracts then 0 else 1) 2) {x y a b : UInt16}
    (hx : m.cpu.regs.hl = x) (hy : m.cpu.regs.codedPair p = y)
    (hbytes : m.bus.Holds a (passCode (byteCode subtracts) [low x, high x] [low y, high y]))
    (hword : m.bus.Holds b [0xED, op]) :
    ∃ m₁ m₂,
      RanThrough (passCode (byteCode subtracts) [low x, high x] [low y, high y]) 4
        (m.startingAt a) m₁ ∧
      RanThrough [0xED, op] 1 (m.startingAt b) m₂ ∧
      readings (·.a) 2 2 (m.startingAt a) = [low m₂.cpu.regs.hl, high m₂.cpu.regs.hl] ∧
      (∀ g : Flag, g ≠ .z → g.isSet m₂.cpu.regs.f = g.isSet m₁.cpu.regs.f) ∧
      (Flag.z.isSet m₂.cpu.regs.f = true ↔ m₂.cpu.regs.hl = 0) := by
  rw [← Registers.codedPair_select] at hy
  subst hx hy
  have hlen : [low m.cpu.regs.hl, high m.cpu.regs.hl].length = 2 := rfl
  obtain ⟨m₁, hran, hnarrow, hflags⟩ := (digitCode_byte subtracts).ranThrough hm hlen hbytes
  obtain ⟨hbus, m₂, hstep, hm₂⟩ := leads_wordOp subtracts hop m b _ (hm.tracks b) hword
  obtain ⟨hdigits, hagree, hzero⟩ := wordOp_agrees (Reg16.select p) subtracts m
  have hhl : m₂.cpu.regs.hl =
      (perform (wordOp subtracts (Reg16.select p)) m).2.cpu.regs.hl := by
    rw [hm₂.regs]
  refine ⟨m₁, m₂, hran, ⟨hstep, hm₂.pc, hm₂.bus.trans hbus⟩, ?_, ?_⟩
  · rw [hhl]
    exact hnarrow.trans hdigits
  · rw [hflags, hm₂.flags, hhl]
    exact ⟨hagree, hzero⟩

end Runs

end Exec

end Z80
