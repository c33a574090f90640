import Z80.Proofs.BlockCopy
import Z80.Proofs.Rings
import Z80.Proofs.Stack

/-!
# Rotations and single bits in memory

The laws of rotations and single bits hold for code. Instructions that stand one behind the other
and work on the same operand, a register or the cell at HL, do to it what their operations do one
after the other, as long as the operand is not part of the code.

Main definitions:
- `bitCode`, `Rotation.code`, `testCode`, `changeCode`, `DigitTurn.code`: the encodings.
- `Machine.withOperand`, `Machine.withDigits`: a machine with something else in its operand.
- `Exec.Acts`: an encoding that leads from one machine of a family to another.
- `Exec.BitAlgebra`: what courses of such instructions leave.

Main statements: `Acts.course` for a course of instructions, and `bitAlgebra`.
-/

namespace Z80

/-! ## Encodings -/

/-- The encoding of the bit operation with the fields `x` and `y` on the operand of the code `k`. -/
def bitCode (x y k : Nat) : List UInt8 :=
  [0xCB, UInt8.ofNat (64 * x + 8 * y + k)]

/-- The encodings of the rotations RLC, RRC, RL and RR. -/
def Rotation.code (k : Fin 8) : Rotation → List UInt8
  | rlc => bitCode 0 0 k
  | rrc => bitCode 0 1 k
  | rl => bitCode 0 2 k
  | rr => bitCode 0 3 k

/-- The encoding of BIT. -/
def testCode (n k : Fin 8) : List UInt8 :=
  bitCode 1 n k

/-- The encoding of SET, or of RES. -/
def changeCode (b : Bool) (n k : Fin 8) : List UInt8 :=
  if b then bitCode 3 n k else bitCode 2 n k

/-- The encodings of RRD and RLD. -/
def DigitTurn.code : DigitTurn → List UInt8
  | right => [0xED, 0x67]
  | left => [0xED, 0x6F]

theorem length_changeCode (b : Bool) (n k : Fin 8) : (changeCode b n k).length = 2 := by
  cases b <;> rfl

theorem hasFields_ofNat (x : Fin 4) (y k : Fin 8) :
    Opcode.HasFields (UInt8.ofNat (64 * x + 8 * y + k)) x y k :=
  UInt8.toNat_ofNat_of_lt' (by show _ < 256; omega)

section Encodings

variable (n y k : Fin 8)

theorem encodes_bitCode {x : Fin 4} {i : Instruction}
    (hi : ∀ op, Opcode.x op = x → Opcode.y op = y →
      Page.bitOperation op (Place.select k) none = i) :
    Encodes (bitCode x y k) 2 i := by
  have hfields := hasFields_ofNat x y k
  have hcb : Page.cb (UInt8.ofNat (64 * x + 8 * y + k)) = i := by
    rw [Page.cb, hfields.z_eq]
    exact hi _ hfields.x_eq hfields.y_eq
  rw [← hcb]
  exact encodes_cb _

theorem encodes_shift :
    Encodes (bitCode 0 y k) 2 (.shift (ShiftOp.select y) (Place.select k) none) :=
  encodes_bitCode (x := 0) y k fun _ hx hy => by rw [Page.bitOperation, hx, hy]

theorem Rotation.encodes (r : Rotation) :
    Encodes (r.code k) 2 (.shift (.rotate r) (Place.select k) none) :=
  match r with
  | rlc => encodes_shift 0 k
  | rrc => encodes_shift 1 k
  | rl => encodes_shift 2 k
  | rr => encodes_shift 3 k

theorem encodes_testCode : Encodes (testCode n k) 2 (.bit n (Place.select k)) :=
  encodes_bitCode (x := 1) n k fun _ hx hy => by rw [Page.bitOperation, hx, hy]

theorem encodes_changeCode (b : Bool) : Encodes (changeCode b n k) 2
    (if b then .set n (Place.select k) none else .res n (Place.select k) none) :=
  match b with
  | true => encodes_bitCode (x := 3) n k fun _ hx hy => by rw [Page.bitOperation, hx, hy]; rfl
  | false => encodes_bitCode (x := 2) n k fun _ hx hy => by rw [Page.bitOperation, hx, hy]; rfl

end Encodings

/-- The instruction of a turn of the digits. -/
def DigitTurn.instruction : DigitTurn → Instruction
  | right => .rrd
  | left => .rld

theorem DigitTurn.encodes (t : DigitTurn) : Encodes t.code 2 t.instruction := by
  cases t <;> exact encodes_ed rfl (.done _)

/-! ## Families of machines -/

namespace Machine

variable {ω : Type} (m : Machine Board ω)

/-- The machine with other flags. -/
def withFlags (f : UInt8) : Machine Board ω :=
  { m with cpu := { m.cpu with regs := { m.cpu.regs with f } } }

/-- The machine with another byte in the operand of the code `k`, and other flags. -/
def withOperand (k : Fin 8) (o : Outcome UInt8) : Machine Board ω :=
  { m with
    cpu := { m.cpu with regs := { m.cpu.regs.setCodedByte k o.value with f := o.flags } }
    bus := { m.bus with memory := m.bus.memory.setCoded m.cpu.regs.hl k o.value } }

/-- The machine with another accumulator and another cell at HL, and other flags. -/
def withDigits (o : Outcome (UInt8 × UInt8)) : Machine Board ω :=
  { m with
    cpu := { m.cpu with regs := { m.cpu.regs with a := o.value.1, f := o.flags } }
    bus := { m.bus with memory := m.bus.memory.set m.cpu.regs.hl o.value.2 } }

end Machine

namespace Registers

theorem setCodedByte_codedByte (r : Registers) (cell : UInt16 → UInt8) (k : Fin 8) :
    r.setCodedByte k (r.codedByte cell k) = r :=
  match k with
  | 0 | 1 | 2 | 3 | 4 | 5 | 6 | 7 => rfl

end Registers

namespace Memory

variable (memory : Memory) (hl : UInt16)

theorem set_set (v w : UInt8) : (memory.set hl v).set hl w = memory.set hl w := by
  apply ext_get
  intro a
  rw [get_set, get_set, get_set]
  split <;> rfl

/-- A byte operand that is a cell is that cell alone. -/
theorem get_setCoded {k : Fin 8} {a : UInt16} (h : k = 6 → hl ≠ a) (v : UInt8) :
    (memory.setCoded hl k v).get a = memory.get a :=
  match k with
  | 0 | 1 | 2 | 3 | 4 | 5 | 7 => rfl
  | 6 => (get_set memory hl a v).trans (if_neg (h rfl))

end Memory

namespace Machine

variable {ω : Type} (m : Machine Board ω) (k : Fin 8)

/-- An operand that gets what it has. -/
theorem withOperand_codedByte (f : UInt8) : m.withOperand k ⟨m.codedByte k, f⟩ = m.withFlags f := by
  have hmemory : m.bus.memory.setCoded m.cpu.regs.hl k (m.codedByte k) = m.bus.memory :=
    match k with
    | 0 | 1 | 2 | 3 | 4 | 5 | 7 => rfl
    | 6 => Memory.set_get_self m.bus.memory m.cpu.regs.hl
  have hregs : m.cpu.regs.setCodedByte k (m.codedByte k) = m.cpu.regs :=
    m.cpu.regs.setCodedByte_codedByte m.bus.peek k
  rw [withOperand, hmemory, hregs]
  rfl

theorem withDigits_self (f : UInt8) :
    m.withDigits ⟨(m.cpu.regs.a, m.bus.peek m.cpu.regs.hl), f⟩ = m.withFlags f := by
  have hmemory : m.bus.memory.set m.cpu.regs.hl (m.bus.peek m.cpu.regs.hl) = m.bus.memory :=
    Memory.set_get_self m.bus.memory m.cpu.regs.hl
  rw [withDigits, hmemory]
  rfl

/-- Only what an operand gets last counts. -/
theorem withOperand_withOperand (o o' : Outcome UInt8) :
    (m.withOperand k o).withOperand k o' = m.withOperand k o' :=
  match k with
  | 0 | 1 | 2 | 3 | 4 | 5 | 7 => rfl
  | 6 => congrArg (fun memory => { m.withOperand 6 o' with bus := { m.bus with memory } })
    (m.bus.memory.set_set m.cpu.regs.hl o.value o'.value)

theorem codedByte_withOperand (o : Outcome UInt8) : (m.withOperand k o).codedByte k = o.value :=
  match k with
  | 0 | 1 | 2 | 3 | 4 | 5 | 7 => rfl
  | 6 => m.bus.memory.get_set_self m.cpu.regs.hl o.value

end Machine

namespace Exec

variable {ω : Type} [Observer ω] {m t s m' : Machine Board ω} {a : UInt16} {k : Fin 8}

/-! ## Courses -/

section Courses

variable {σ ι : Type} {T : σ → Machine Board ω}

/-- The bytes encode an instruction that leads from each machine of a family to another one of it,
wherever the program counter is. -/
def Acts (T : σ → Machine Board ω) (code : List UInt8) (g : σ → σ) : Prop :=
  ∃ opcodes i, Encodes code opcodes i ∧
    ∀ x a s, Tracks (T x) a s → Tracks (T (g x)) a (perform i s).2

theorem Acts.step {code : List UInt8} {g : σ → σ} (h : Acts T code g) {x : σ}
    (hm : Tracks (T x) a m) (hcode : (T x).bus.Holds a code) :
    ∃ m', Exec.step 1 m = (.ok (), m') ∧ Tracks (T (g x)) (a + UInt16.ofNat code.length) m' := by
  obtain ⟨opcodes, i, hencodes, hperform⟩ := h
  obtain ⟨s, hs, hstep⟩ := hencodes.step hm hcode
  exact ⟨_, hstep, hperform x _ s hs⟩

/-- Instructions one behind the other act one after the other, if none of them changes the code. -/
theorem Acts.course {code : ι → List UInt8} {g : ι → σ → σ} (h : ∀ i, Acts T (code i) (g i))
    (is : List ι) {x : σ} (hcode : ∀ y, (T y).bus.Holds a (is.map code).flatten)
    (hm : Tracks (T x) a m) :
    ∃ m', Exec.step (is.map code).length m = (.ok (), m') ∧
      Tracks (T (is.foldl (fun y i => g i y) x))
        (a + UInt16.ofNat (is.map code).flatten.length) m' := by
  induction is generalizing a x m with
  | nil => exact ⟨m, step_of_running 0 hm.fault, (UInt16.add_zero a).symm ▸ hm⟩
  | cons i is ih =>
    obtain ⟨s, hstep, hs⟩ := (h i).step hm (hcode x).left
    obtain ⟨m', hrest, hm'⟩ := ih (fun y => (hcode y).right) hs
    refine ⟨m', ?_, ?_⟩
    · rw [List.map_cons, List.length_cons, Nat.add_comm, step_add, bind_apply, hstep]
      exact hrest
    · rw [List.map_cons, List.flatten_cons, List.length_append, UInt16.ofNat_add,
        ← UInt16.add_assoc]
      exact hm'

end Courses

/-! ## Operands -/

omit [Observer ω] in
/-- A machine follows another one when both get the same in their operand. -/
theorem Tracks.withOperand {o : Outcome UInt8} (h : Tracks t a s)
    (hregs : m'.cpu.regs = (s.withOperand k o).cpu.regs) (hbus : m'.bus = (s.withOperand k o).bus)
    (hfault : m'.cpu.fault = s.cpu.fault) : Tracks (t.withOperand k o) a m' where
  bus := by
    rw [hbus, Machine.withOperand, Machine.withOperand, h.bus, h.regs]
  regs := by
    have hset : (s.withOperand k o).cpu.regs =
        { (t.withOperand k o).cpu.regs with pc := a, r := s.cpu.regs.r } := by
      rw [Machine.withOperand, h.regs]
      exact match k with
        | 0 | 1 | 2 | 3 | 4 | 5 | 6 | 7 => rfl
    rw [hregs, hset]
  fault := hfault.trans h.fault
  halted := by
    have hset : (s.withOperand k o).cpu.regs.halted = s.cpu.regs.halted :=
      match k with
      | 0 | 1 | 2 | 3 | 4 | 5 | 6 | 7 => rfl
    rw [hregs, hset, h.halted]

omit [Observer ω] in
theorem Tracks.codedByte (h : Tracks t a s) (k : Fin 8) : s.codedByte k = t.codedByte k := by
  rw [Machine.codedByte, Machine.codedByte, h.bus, h.regs]
  exact match k with
    | 0 | 1 | 2 | 3 | 4 | 5 | 6 | 7 => rfl

/-- An instruction that replaces its operand leads from each operand to another. -/
theorem acts_operand {code : List UInt8} {opcodes : Nat} {i : Instruction}
    {f : UInt8 → UInt8 → Outcome UInt8} (hencodes : Encodes code opcodes i)
    (hperform : ∀ s : Machine Board ω,
      let o := f (s.codedByte k) s.cpu.regs.f
      (perform i s).2.cpu.regs = (s.withOperand k o).cpu.regs ∧
        (perform i s).2.bus = (s.withOperand k o).bus) :
    Acts (m.withOperand k) code fun o => f o.value o.flags := by
  refine ⟨opcodes, i, hencodes, fun o a s hs => ?_⟩
  have hvalue : s.codedByte k = o.value := (hs.codedByte k).trans (m.codedByte_withOperand k o)
  have hflags : s.cpu.regs.f = o.flags := by
    rw [hs.regs]
    rfl
  obtain ⟨hregs, hbus⟩ := hperform s
  rw [hvalue, hflags] at hregs hbus
  rw [← m.withOperand_withOperand k o]
  exact hs.withOperand hregs hbus (perform_sameRecord i s).fault

variable (m k)

theorem acts_rotation (r : Rotation) :
    Acts (m.withOperand k) (r.code k) r.apply :=
  acts_operand (r.encodes k) fun s => update_select k (ShiftOp.rotate r).apply s

theorem acts_change (b : Bool) (n : Fin 8) :
    Acts (m.withOperand k) (changeCode b n k) fun o => ⟨changeBit b n o.value, o.flags⟩ := by
  refine acts_operand (f := fun v f => ⟨changeBit b n v, f⟩) (encodes_changeCode n k b) ?_
  intro s
  cases b with
  | true => exact update_select k (fun v f => ⟨setBit n v, f⟩) s
  | false => exact update_select k (fun v f => ⟨clearBit n v, f⟩) s

theorem acts_test (n : Fin 8) :
    Acts (m.withOperand k) (testCode n k) fun o => ⟨o.value, bitFlags n o.value o.flags⟩ := by
  refine acts_operand (f := fun v f => ⟨v, bitFlags n v f⟩) (encodes_testCode n k) ?_
  intro s
  simp only [s.withOperand_codedByte]
  exact match k with
    | 0 | 1 | 2 | 3 | 4 | 5 | 6 | 7 => ⟨rfl, rfl⟩

theorem acts_digits (t : DigitTurn) : Acts m.withDigits t.code t.apply := by
  refine ⟨2, t.instruction, t.encodes, fun o a s hs => ?_⟩
  have hread : s.bus.peek s.cpu.regs.hl = o.value.2 := by
    rw [hs.bus, hs.regs]
    exact m.bus.memory.get_set_self m.cpu.regs.hl o.value.2
  have hregs : (perform t.instruction s).2.cpu.regs =
      let a := (t.turn (s.cpu.regs.a, s.bus.peek s.cpu.regs.hl)).1
      { s.cpu.regs with a, f := transferFlags a s.cpu.regs.f } := by
    cases t <;> rfl
  have hbus : (perform t.instruction s).2.bus =
      { s.bus with
        memory := s.bus.memory.set s.cpu.regs.hl
          (t.turn (s.cpu.regs.a, s.bus.peek s.cpu.regs.hl)).2 } := by
    cases t <;> rfl
  rw [hread, hs.regs] at hregs hbus
  refine ⟨?_, ?_, (perform_sameRecord _ s).fault.trans hs.fault, ?_⟩
  · rw [hbus, hs.bus]
    exact congrArg (fun memory => { m.bus with memory }) (m.bus.memory.set_set _ _ _)
  · rw [hregs]
    rfl
  · rw [hregs]
    have := hs.halted
    rwa [hs.regs] at this

variable {m k}

/-! ## Runs -/

/-- The codes stand one behind the other at the program counter of a machine that can execute them,
and if the operand is the cell at HL, it is not part of them. -/
structure Ready (m : Machine Board ω) (k : Fin 8) (codes : List (List UInt8)) : Prop where
  running : Running m
  code : m.bus.Holds m.cpu.regs.pc codes.flatten
  apart : k = 6 → ¬Inside m.cpu.regs.pc codes.flatten.length m.cpu.regs.hl

/-- Single steps execute the codes, and after them all is as before but the flags, the program
counter, which is behind the codes, and R. -/
structure Restores (m : Machine Board ω) (codes : List (List UInt8)) (m' : Machine Board ω) :
    Prop where
  steps : step codes.length m = (.ok (), m')
  regs : m'.cpu.regs =
    { m.cpu.regs with
      f := m'.cpu.regs.f
      pc := m.cpu.regs.pc + UInt16.ofNat codes.flatten.length
      r := m'.cpu.regs.r }
  bus : m'.bus = m.bus
  operands : ∀ k, m'.codedByte k = m.codedByte k

/-- A step has made one bit of the operand one or zero, and all else is as before, the flags
included, but the program counter and R. -/
structure Changes (m : Machine Board ω) (b : Bool) (n k : Fin 8) (m' : Machine Board ω) : Prop where
  steps : step 1 m = (.ok (), m')
  bits : ∀ i, bits (m'.codedByte k) i = if i = n then b else bits (m.codedByte k) i
  regs : m'.cpu.regs =
    { m.cpu.regs.setCodedByte k (m'.codedByte k) with
      pc := m.cpu.regs.pc + 2
      r := m'.cpu.regs.r }
  bus : m'.bus =
    { m.bus with memory := m.bus.memory.setCoded m.cpu.regs.hl k (m'.codedByte k) }

section Runs

variable {codes : List (List UInt8)}

omit [Observer ω] in
/-- A machine begins with what is in its operand. -/
theorem Running.tracks_operand (h : Running m) (k : Fin 8) (a : UInt16) :
    Tracks (m.withOperand k ⟨m.codedByte k, m.cpu.regs.f⟩) a (m.startingAt a) := by
  rw [m.withOperand_codedByte]
  exact ⟨rfl, rfl, h.fault, h.halted⟩

omit [Observer ω] in
theorem Running.tracks_digits (h : Running m) :
    Tracks (m.withDigits ⟨(m.cpu.regs.a, m.bus.peek m.cpu.regs.hl), m.cpu.regs.f⟩)
      m.cpu.regs.pc m := by
  rw [m.withDigits_self]
  exact ⟨rfl, rfl, h.fault, h.halted⟩

omit [Observer ω] in
/-- Nothing in the operand changes the code. -/
theorem Ready.holds_withOperand (h : Ready m k codes) (o : Outcome UInt8) :
    (m.withOperand k o).bus.Holds m.cpu.regs.pc codes.flatten := by
  refine h.code.congr fun c hc => m.bus.memory.get_setCoded _ (fun hk hhl => ?_) _
  exact h.apart hk (hhl ▸ hc)

omit [Observer ω] in
theorem Ready.holds_withDigits (h : Ready m 6 codes) (o : Outcome (UInt8 × UInt8)) :
    (m.withDigits o).bus.Holds m.cpu.regs.pc codes.flatten :=
  h.holds_withOperand ⟨o.value.2, o.flags⟩

theorem restores_of_tracks {f : UInt8} (hsteps : step codes.length m = (.ok (), m'))
    (h : Tracks (m.withFlags f) (m.cpu.regs.pc + UInt16.ofNat codes.flatten.length) m') :
    Restores m codes m' where
  steps := hsteps
  regs := by
    rw [h.flags]
    exact h.regs
  bus := h.bus
  operands k := by
    rw [h.codedByte, ← m.withOperand_codedByte k, m.codedByte_withOperand]

/-- Rotations of an operand that leave a byte as it was restore the machine, and they leave in the
carry flag what they leave beside the byte. -/
theorem Ready.rotations (rs : List Rotation) (h : Ready m k (rs.map (·.code k)))
    (hrs : ∀ p, (Rotation.turnAll rs p).1 = p.1) :
    ∃ m', Restores m (rs.map (·.code k)) m' ∧ Flag.c.isSet m'.cpu.regs.f =
      (Rotation.turnAll rs (m.codedByte k, Flag.c.isSet m.cpu.regs.f)).2 := by
  let o : Outcome UInt8 := ⟨m.codedByte k, m.cpu.regs.f⟩
  have hm : Tracks (m.withOperand k o) m.cpu.regs.pc m := h.running.tracks_operand k _
  obtain ⟨m', hsteps, hm'⟩ := Acts.course (acts_rotation m k) rs h.holds_withOperand hm
  have hturned : Rotation.withCarry (Rotation.applyAll rs o) =
      Rotation.turnAll rs (m.codedByte k, Flag.c.isSet m.cpu.regs.f) :=
    Rotation.withCarry_applyAll rs o
  have hvalue : (Rotation.applyAll rs o).value = m.codedByte k :=
    (congrArg Prod.fst hturned).trans (hrs _)
  refine ⟨m', restores_of_tracks (f := (Rotation.applyAll rs o).flags) hsteps ?_, ?_⟩
  · rw [← m.withOperand_codedByte k, ← hvalue]
    exact hm'
  · rw [hm'.flags]
    exact congrArg Prod.snd hturned

/-- Turns of the digits that come to nothing restore the machine. -/
theorem Ready.turns (ts : List DigitTurn) (h : Ready m 6 (ts.map DigitTurn.code))
    (hts : ∀ p, DigitTurn.turnAll ts p = p) : ∃ m', Restores m (ts.map DigitTurn.code) m' := by
  let o : Outcome (UInt8 × UInt8) := ⟨(m.cpu.regs.a, m.bus.peek m.cpu.regs.hl), m.cpu.regs.f⟩
  have hm : Tracks (m.withDigits o) m.cpu.regs.pc m := h.running.tracks_digits
  obtain ⟨m', hsteps, hm'⟩ := Acts.course (acts_digits m) ts h.holds_withDigits hm
  have hvalue : (DigitTurn.applyAll ts o).value = (m.cpu.regs.a, m.bus.peek m.cpu.regs.hl) :=
    (DigitTurn.value_applyAll ts o).trans (hts o.value)
  refine ⟨m', restores_of_tracks (f := (DigitTurn.applyAll ts o).flags) hsteps ?_⟩
  rw [← m.withDigits_self, ← hvalue]
  exact hm'

/-- The first of the codes changes a bit of the operand. -/
theorem Ready.change {b : Bool} {n : Fin 8} (h : Ready m k (changeCode b n k :: codes)) :
    ∃ s, step 1 m = (.ok (), s) ∧
      Tracks (m.withOperand k ⟨changeBit b n (m.codedByte k), m.cpu.regs.f⟩)
        (m.cpu.regs.pc + 2) s := by
  have hm : Tracks (m.withOperand k ⟨m.codedByte k, m.cpu.regs.f⟩) m.cpu.regs.pc m :=
    h.running.tracks_operand k _
  have := (acts_change m k b n).step hm (h.holds_withOperand _).left
  rwa [length_changeCode] at this

/-- The second one tests a bit of what is in the operand then. -/
theorem Ready.test {b : Bool} {n j : Fin 8} (h : Ready m k [changeCode b n k, testCode j k])
    {o : Outcome UInt8} (hs : Tracks (m.withOperand k o) (m.cpu.regs.pc + 2) s) :
    ∃ m', step 1 s = (.ok (), m') ∧ Flag.z.isSet m'.cpu.regs.f = !bits o.value j := by
  have hcode := (h.holds_withOperand o).right.left
  rw [length_changeCode] at hcode
  obtain ⟨m', hstep, hm'⟩ := (acts_test m k j).step hs hcode
  refine ⟨m', hstep, ?_⟩
  rw [hm'.flags]
  exact isSet_z_bitFlags j o.value o.flags

end Runs

/-- What rotations, changes and tests of bits leave where their codes are at the program counter. -/
structure BitAlgebra (m : Machine Board ω) : Prop where
  /-- RLC and RRC, in either order, restore the operand, and so do RL and RR. -/
  rotations : ∀ (k : Fin 8) (r : Rotation), Ready m k [r.code k, r.inverse.code k] →
    ∃ m', Restores m [r.code k, r.inverse.code k] m'
  /-- RL and RR restore C as well. -/
  throughCarry : ∀ (k : Fin 8) (r : Rotation), r = .rl ∨ r = .rr →
    Ready m k [r.code k, r.inverse.code k] →
    ∃ m', Restores m [r.code k, r.inverse.code k] m' ∧
      Flag.c.isSet m'.cpu.regs.f = Flag.c.isSet m.cpu.regs.f
  /-- So do nine of the same kind. -/
  nine : ∀ (k : Fin 8) (r : Rotation), r = .rl ∨ r = .rr →
    Ready m k (List.replicate 9 (r.code k)) →
    ∃ m', Restores m (List.replicate 9 (r.code k)) m' ∧
      Flag.c.isSet m'.cpu.regs.f = Flag.c.isSet m.cpu.regs.f
  /-- SET and RES change one bit of the operand and nothing else. -/
  changes : ∀ (k : Fin 8) (b : Bool) (n : Fin 8), Ready m k [changeCode b n k] →
    ∃ m', Changes m b n k m'
  /-- BIT finds what they have made of this bit, and finds any other as it would have done without
  them. -/
  tests : ∀ (k : Fin 8) (b : Bool) (n j : Fin 8),
    Ready m k [changeCode b n k, testCode j k] →
    ∃ m' alone, step 2 m = (.ok (), m') ∧
      step 1 (m.startingAt (m.cpu.regs.pc + 2)) = (.ok (), alone) ∧
      Flag.z.isSet m'.cpu.regs.f = if j = n then !b else Flag.z.isSet alone.cpu.regs.f
  /-- RRD and RLD, in either order, restore the accumulator and the cell at HL. -/
  digits : ∀ t : DigitTurn, Ready m 6 [t.code, t.inverse.code] →
    ∃ m', Restores m [t.code, t.inverse.code] m'
  /-- So do three of the same kind. -/
  three : ∀ t : DigitTurn, Ready m 6 (List.replicate 3 t.code) →
    ∃ m', Restores m (List.replicate 3 t.code) m'

theorem bitAlgebra (m : Machine Board ω) : BitAlgebra m where
  rotations k r h := by
    obtain ⟨m', hm', -⟩ := h.rotations [r, r.inverse] r.fst_turn_inverse
    exact ⟨m', hm'⟩
  throughCarry k r hr h := by
    have hall : ∀ p, Rotation.turnAll [r, r.inverse] p = p := Rotation.turn_inverse hr
    obtain ⟨m', hm', hcarry⟩ := h.rotations [r, r.inverse] r.fst_turn_inverse
    exact ⟨m', hm', hcarry.trans (by rw [hall])⟩
  nine k r hr h := by
    have hall : ∀ p, Rotation.turnAll (List.replicate 9 r) p = p := Rotation.iterate_turn_nine hr
    obtain ⟨m', hm', hcarry⟩ :=
      h.rotations (List.replicate 9 r) fun p => congrArg Prod.fst (hall p)
    exact ⟨m', hm', hcarry.trans (by rw [hall])⟩
  changes k b n h := by
    obtain ⟨m', hstep, hm'⟩ := h.change
    have hvalue : m'.codedByte k = changeBit b n (m.codedByte k) :=
      (hm'.codedByte k).trans (m.codedByte_withOperand k _)
    refine ⟨m', hstep, ?_, ?_, ?_⟩
    · intro i
      rw [hvalue, bits_changeBit]
    · rw [hvalue]
      refine hm'.regs.trans ?_
      exact match k with
        | 0 | 1 | 2 | 3 | 4 | 5 | 6 | 7 => rfl
    · rw [hvalue]
      exact hm'.bus
  tests k b n j h := by
    obtain ⟨s, hfirst, hs⟩ := h.change
    obtain ⟨m', hsecond, hm'⟩ := h.test hs
    obtain ⟨alone, hstep, halone⟩ := h.test (h.running.tracks_operand k (m.cpu.regs.pc + 2))
    refine ⟨m', alone, ?_, hstep, ?_⟩
    · rw [step_add 1 1, bind_apply, hfirst]
      exact hsecond
    · rw [hm', halone, bits_changeBit]
      split <;> rfl
  digits t h := h.turns [t, t.inverse] t.turn_inverse
  three t h := h.turns (List.replicate 3 t) t.iterate_turn_three

/-- RL (HL) and RR (HL), with the cell apart from the code. -/
theorem bitAlgebra_rl_rr :
    let memory := (Memory.zero.load 0x100 [0xCB, 0x16, 0xCB, 0x1E]).set 0x200 0x85
    let m : Machine Board Unit :=
      ⟨{ regs := { h := 0x02, l := 0x00, pc := 0x100 } }, { memory }, ()⟩
    let turned := (step 1 m).2
    let last := (step 2 m).2
    turned.bus.peek 0x200 = 0x0A ∧ Flag.c.isSet turned.cpu.regs.f = true ∧
      last.bus.peek 0x200 = 0x85 ∧ Flag.c.isSet last.cpu.regs.f = false := by
  intro memory m turned last
  have hready : Ready m 6 [Rotation.code 6 .rl, Rotation.code 6 .rr] := by
    refine ⟨⟨rfl, rfl⟩, by decide +kernel, fun _ ⟨i, hi, hhl⟩ => ?_⟩
    have hall : ∀ i < 4, (0x200 : UInt16) ≠ 0x100 + UInt16.ofNat i := by decide
    exact hall i hi hhl
  obtain ⟨m', hm', hcarry⟩ := (bitAlgebra m).throughCarry 6 .rl (.inl rfl) hready
  have hlast : last = m' := congrArg Prod.snd hm'.steps
  refine ⟨by decide +kernel, by decide +kernel, ?_, ?_⟩
  · rw [hlast, hm'.bus]
    decide +kernel
  · rw [hlast, hcarry]
    decide

end Exec

end Z80
