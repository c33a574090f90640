import Z80.Board
import Z80.Proofs.Execution

/-!
# The index pages mirror the base page

Where an index page has an instruction without a displaced operand, it is the one
that the base page has under the same opcode, with the index register in the place
of HL. Exchanging the two registers before and after therefore turns the one
instruction into the other, down to the order of its accesses to the bus.

Main definitions:
- `Registers.exchangeIndex`, `Exec.exchanged`: HL and an index register exchanged,
  and an execution between two such exchanges.
- `Instruction.Mirrors`: the instructions that differ in HL and the index register
  alone.
- `Page.mirrorsBase`, `Page.takesDisplacement`: the opcodes of an index page.

Main statement: `conclude_index_eq_exchanged`.
-/

namespace Z80

/-! ## Exchanging HL and an index register -/

/-- The byte register in the same place of the other word: H and L stand against the
halves of the index register. -/
def Reg8.mirror (x : Index) : Reg8 → Reg8
  | .h => .upper x
  | .l => .lower x
  | .upper y => if y = x then .h else .upper y
  | .lower y => if y = x then .l else .lower y
  | r => r

/-- HL for the index register, the index register for HL, and any other word register
for itself. -/
def Reg16.mirror (x : Index) : Reg16 → Reg16
  | .hl => .index x
  | .index y => if y = x then .hl else .index y
  | r => r

namespace Registers

/-- Exchanges HL with an index register. -/
def exchangeIndex (x : Index) (r : Registers) : Registers :=
  (r.setHL (r.index x)).setIndex x r.hl

variable (x : Index) (r : Registers)

@[simp] theorem exchangeIndex_exchangeIndex : (r.exchangeIndex x).exchangeIndex x = r := by
  cases x <;> simp [exchangeIndex, setHL, setIndex, index, Bank.hl]

theorem byte_exchangeIndex (y : Reg8) : (r.exchangeIndex x).byte y = r.byte (y.mirror x) := by
  cases y with
  | upper z | lower z =>
    cases x <;> cases z <;> simp [exchangeIndex, byte, setHL, setIndex, index, Reg8.mirror, Bank.hl]
  | _ => cases x <;> rfl

theorem word_exchangeIndex (y : Reg16) : (r.exchangeIndex x).word y = r.word (y.mirror x) := by
  cases y with
  | hl => cases x <;> simp [exchangeIndex, word, setHL, setIndex, index, Reg16.mirror, Bank.hl]
  | index z => cases x <;> cases z <;> rfl
  | _ => cases x <;> rfl

theorem setByte_exchangeIndex (y : Reg8) (v : UInt8) :
    ((r.exchangeIndex x).setByte y v).exchangeIndex x = r.setByte (y.mirror x) v := by
  cases y with
  | upper z | lower z =>
    cases x <;> cases z <;>
      simp [exchangeIndex, setByte, setHL, setIndex, index, Reg8.mirror, Bank.hl]
  | _ => cases x <;> simp [exchangeIndex, setByte, setHL, setIndex, index, Reg8.mirror, Bank.hl]

theorem setWord_exchangeIndex (y : Reg16) (v : UInt16) :
    ((r.exchangeIndex x).setWord y v).exchangeIndex x = r.setWord (y.mirror x) v := by
  cases y with
  | index z =>
    cases x <;> cases z <;>
      simp [exchangeIndex, setWord, setHL, setIndex, index, Reg16.mirror, Bank.hl]
  | _ =>
    cases x <;>
      simp [exchangeIndex, setWord, setHL, setBC, setDE, setAF, setIndex, index, Reg16.mirror,
        Bank.hl]

/-! The exchange touches neither PC, SP, the accumulator nor the flags. -/

@[simp] theorem pc_exchangeIndex : (r.exchangeIndex x).pc = r.pc := by
  cases x <;> rfl

@[simp] theorem sp_exchangeIndex : (r.exchangeIndex x).sp = r.sp := by
  cases x <;> rfl

@[simp] theorem a_exchangeIndex : (r.exchangeIndex x).a = r.a := by
  cases x <;> rfl

@[simp] theorem f_exchangeIndex : (r.exchangeIndex x).f = r.f := by
  cases x <;> rfl

theorem exchangeIndex_setPC (v : UInt16) :
    exchangeIndex x { r with pc := v } = { r.exchangeIndex x with pc := v } := by
  cases x <;> rfl

theorem exchangeIndex_setSP (v : UInt16) :
    exchangeIndex x { r with sp := v } = { r.exchangeIndex x with sp := v } := by
  cases x <;> rfl

theorem exchangeIndex_setF (f : UInt8) :
    exchangeIndex x { r with f } = { r.exchangeIndex x with f } := by
  cases x <;> rfl

theorem exchangeIndex_setA (a f : UInt8) :
    exchangeIndex x { r with a, f } = { r.exchangeIndex x with a, f } := by
  cases x <;> rfl

end Registers

/-- The machine with HL and an index register exchanged. -/
def Machine.exchangeIndex {β ω : Type} (x : Index) (m : Machine β ω) : Machine β ω :=
  { m with cpu := { m.cpu with regs := m.cpu.regs.exchangeIndex x } }

@[simp] theorem Machine.exchangeIndex_exchangeIndex {β ω : Type} (x : Index) (m : Machine β ω) :
    (m.exchangeIndex x).exchangeIndex x = m := by
  simp [exchangeIndex]

namespace Exec

variable {β ω α γ : Type}

/-- Exchanges HL and an index register, executes, and exchanges them back. -/
def exchanged (x : Index) (y : Exec β ω α) : Exec β ω α := do
  modifyRegs (·.exchangeIndex x)
  let a ← y
  modifyRegs (·.exchangeIndex x)
  return a

variable (x : Index)

theorem exchanged_apply (y : Exec β ω α) (m : Machine β ω) :
    exchanged x y m = ((y (m.exchangeIndex x)).1, (y (m.exchangeIndex x)).2.exchangeIndex x) := rfl

@[simp] theorem exchanged_pure (a : α) : exchanged x (pure a : Exec β ω α) = pure a := by
  funext m
  rw [exchanged_apply, pure_apply, pure_apply, Machine.exchangeIndex_exchangeIndex]

/-- The exchanges between two parts of an execution cancel. -/
@[simp] theorem exchanged_bind (y : Exec β ω α) (f : α → Exec β ω γ) :
    exchanged x (y >>= f) = exchanged x y >>= fun a => exchanged x (f a) := by
  funext m
  rw [exchanged_apply, bind_apply, bind_apply, exchanged_apply, exchanged_apply,
    Machine.exchangeIndex_exchangeIndex]

@[simp] theorem exchanged_map (f : α → γ) (y : Exec β ω α) :
    exchanged x (f <$> y) = f <$> exchanged x y := by
  rw [← bind_pure_comp, exchanged_bind, ← bind_pure_comp]
  simp

@[simp] theorem exchanged_regs :
    exchanged x (regs : Exec β ω Registers) = regs >>= fun r => pure (r.exchangeIndex x) := by
  funext m
  rw [exchanged_apply, regs_apply, Machine.exchangeIndex_exchangeIndex]
  rfl

theorem exchanged_modifyRegs {f g : Registers → Registers}
    (h : ∀ r, (f (r.exchangeIndex x)).exchangeIndex x = g r) :
    exchanged x (modifyRegs f : Exec β ω Unit) = modifyRegs g := by
  obtain rfl : (fun r => (f (r.exchangeIndex x)).exchangeIndex x) = g := funext h
  rfl

@[simp] theorem exchanged_setSP (v : UInt16) :
    exchanged x (modifyRegs fun r => { r with sp := v } : Exec β ω Unit) =
      modifyRegs fun r => { r with sp := v } := by
  apply exchanged_modifyRegs
  intro r
  rw [Registers.exchangeIndex_setSP, Registers.exchangeIndex_exchangeIndex]

@[simp] theorem exchanged_setPC (v : UInt16) :
    exchanged x (setPC v : Exec β ω Unit) = setPC v := by
  apply exchanged_modifyRegs
  intro r
  rw [Registers.exchangeIndex_setPC, Registers.exchangeIndex_exchangeIndex]

@[simp] theorem exchanged_setFlags (f : UInt8) :
    exchanged x (setFlags f : Exec β ω Unit) = setFlags f := by
  apply exchanged_modifyRegs
  intro r
  rw [Registers.exchangeIndex_setF, Registers.exchangeIndex_exchangeIndex]

@[simp] theorem exchanged_updateA (f : UInt8 → UInt8 → Outcome UInt8) :
    exchanged x (updateA f : Exec β ω Unit) = updateA f := by
  apply exchanged_modifyRegs
  intro r
  rw [Registers.exchangeIndex_setA, Registers.exchangeIndex_exchangeIndex,
    Registers.a_exchangeIndex, Registers.f_exchangeIndex]

@[simp] theorem exchanged_setByte (y : Reg8) (v : UInt8) :
    exchanged x (modifyRegs (·.setByte y v) : Exec β ω Unit) =
      modifyRegs (·.setByte (y.mirror x) v) :=
  exchanged_modifyRegs x fun r => r.setByte_exchangeIndex x y v

@[simp] theorem exchanged_setWord (y : Reg16) (v : UInt16) :
    exchanged x (modifyRegs (·.setWord y v) : Exec β ω Unit) =
      modifyRegs (·.setWord (y.mirror x) v) :=
  exchanged_modifyRegs x fun r => r.setWord_exchangeIndex x y v

@[simp] theorem exchanged_takeByte (v : UInt8) :
    exchanged x (modifyCpu (Cpu.takeByte v) : Exec β ω Unit) = modifyCpu (Cpu.takeByte v) := by
  funext m
  cases x <;> simp [exchanged_apply, modifyCpu_apply, Cpu.takeByte, Machine.exchangeIndex,
    Registers.exchangeIndex, Registers.setHL, Registers.setIndex, Registers.index, Bank.hl]

variable [Bus β] [Observer ω]

@[simp] theorem exchanged_read (a : UInt16) :
    exchanged x (read a : Exec β ω UInt8) = read a := by
  funext m
  show ((read a m).1, { (read a m).2 with cpu := ((m.exchangeIndex x).exchangeIndex x).cpu }) =
    read a m
  rw [Machine.exchangeIndex_exchangeIndex]
  rfl

@[simp] theorem exchanged_write (a : UInt16) (v : UInt8) :
    exchanged x (write a v : Exec β ω Unit) = write a v := by
  funext m
  show ((), { (write a v m).2 with cpu := ((m.exchangeIndex x).exchangeIndex x).cpu }) = write a v m
  rw [Machine.exchangeIndex_exchangeIndex]
  rfl

@[simp] theorem exchanged_fetchByte : exchanged x (fetchByte : Exec β ω UInt8) = fetchByte := by
  simp [fetchByte, Registers.pc_exchangeIndex]

@[simp] theorem exchanged_readWord (a : UInt16) :
    exchanged x (readWord a : Exec β ω UInt16) = readWord a := by
  simp [readWord]

@[simp] theorem exchanged_writeWord (a v : UInt16) :
    exchanged x (writeWord a v : Exec β ω Unit) = writeWord a v := by
  simp [writeWord]

@[simp] theorem exchanged_push (v : UInt16) : exchanged x (push v : Exec β ω Unit) = push v := by
  simp [push]

@[simp] theorem exchanged_pop : exchanged x (pop : Exec β ω UInt16) = pop := by
  simp [pop]

end Exec

/-! ## Mirrored instructions -/

/-- The second instruction is the first one with HL and the index register exchanged.
These are the instructions of the base page that reach HL by name, and not through
memory. -/
inductive Instruction.Mirrors (x : Index) : Instruction → Instruction → Prop where
  | load (dst src : Reg8) :
    Mirrors x (.load (.reg dst) (.place (.reg src)))
      (.load (.reg (dst.mirror x)) (.place (.reg (src.mirror x))))
  | loadByte (dst : Reg8) (n : UInt8) :
    Mirrors x (.load (.reg dst) (.imm n)) (.load (.reg (dst.mirror x)) (.imm n))
  | loadImm (dst : Reg16) (nn : UInt16) : Mirrors x (.loadImm dst nn) (.loadImm (dst.mirror x) nn)
  | loadWord (dst : Reg16) (nn : UInt16) :
    Mirrors x (.loadWord dst nn) (.loadWord (dst.mirror x) nn)
  | storeWord (nn : UInt16) (src : Reg16) :
    Mirrors x (.storeWord nn src) (.storeWord nn (src.mirror x))
  | loadSP (src : Reg16) : Mirrors x (.loadSP src) (.loadSP (src.mirror x))
  | push (src : Reg16) : Mirrors x (.push src) (.push (src.mirror x))
  | pop (dst : Reg16) : Mirrors x (.pop dst) (.pop (dst.mirror x))
  | exchangeStack (y : Reg16) : Mirrors x (.exchangeStack y) (.exchangeStack (y.mirror x))
  | alu (op : AluOp) (src : Reg8) :
    Mirrors x (.alu op (.place (.reg src))) (.alu op (.place (.reg (src.mirror x))))
  | inc (y : Reg8) : Mirrors x (.inc (.reg y)) (.inc (.reg (y.mirror x)))
  | dec (y : Reg8) : Mirrors x (.dec (.reg y)) (.dec (.reg (y.mirror x)))
  | incWord (y : Reg16) : Mirrors x (.incWord y) (.incWord (y.mirror x))
  | decWord (y : Reg16) : Mirrors x (.decWord y) (.decWord (y.mirror x))
  | addWord (dst src : Reg16) :
    Mirrors x (.addWord dst src) (.addWord (dst.mirror x) (src.mirror x))
  | jumpTo (y : Reg16) : Mirrors x (.jumpTo y) (.jumpTo (y.mirror x))

namespace Exec

variable {β ω : Type} [Bus β] [Observer ω] (x : Index)

/-- A mirrored instruction is the other one between two exchanges. -/
theorem perform_mirror {i j : Instruction} (h : i.Mirrors x j) :
    (perform j : Exec β ω Unit) = exchanged x (perform i) := by
  cases h with
  | load dst src => simp [perform, readSource, readPlace, writePlace, Registers.byte_exchangeIndex]
  | loadByte dst n => simp [perform, readSource, writePlace]
  | loadImm dst nn => simp [perform]
  | loadWord dst nn => simp [perform]
  | storeWord nn src => simp [perform, Registers.word_exchangeIndex]
  | loadSP src =>
    simp only [perform]
    refine (exchanged_modifyRegs x fun r => ?_).symm
    rw [Registers.exchangeIndex_setSP, Registers.exchangeIndex_exchangeIndex,
      Registers.word_exchangeIndex]
  | push src => simp [perform, Registers.word_exchangeIndex]
  | pop dst => simp [perform]
  | exchangeStack y => simp [perform, Registers.word_exchangeIndex]
  | alu op src => simp [perform, readSource, readPlace, Registers.byte_exchangeIndex]
  | inc y | dec y => simp [perform, update, readPlace, writePlace, Registers.byte_exchangeIndex]
  | incWord y | decWord y =>
    simp only [perform]
    refine (exchanged_modifyRegs x fun r => ?_).symm
    rw [Registers.setWord_exchangeIndex, Registers.word_exchangeIndex]
  | addWord dst src =>
    simp only [perform, updateWord]
    refine (exchanged_modifyRegs x fun r => ?_).symm
    rw [Registers.exchangeIndex_setF, Registers.setWord_exchangeIndex, Registers.word_exchangeIndex,
      Registers.word_exchangeIndex, Registers.f_exchangeIndex]
  | jumpTo y => simp [perform, Registers.word_exchangeIndex]

end Exec

/-! ## Mirrored opcodes -/

/-- The two decodings ask for the same operand bytes and end in mirrored instructions. -/
inductive Decoding.Mirrors (x : Index) : Decoding → Decoding → Prop where
  | done {i j : Instruction} (h : i.Mirrors x j) : Mirrors x (.done i) (.done j)
  | operand {next next' : UInt8 → Decoding} (h : ∀ v, Mirrors x (next v) (next' v)) :
    Mirrors x (.operand next) (.operand next')

namespace Exec

variable {β ω : Type} [Bus β] [Observer ω]

/-- Takes in the operand bytes of an instruction and performs it. -/
def execute (d : Decoding) : Exec β ω Unit :=
  complete d >>= perform

theorem execute_mirror {x : Index} {d d' : Decoding} (h : d.Mirrors x d') :
    (execute d' : Exec β ω Unit) = exchanged x (execute d) := by
  induction h with
  | done h => simp [execute, complete, perform_mirror x h]
  | operand h ih =>
    simp only [execute, complete, bind_assoc, exchanged_bind, exchanged_fetchByte] at ih ⊢
    simp only [ih]

end Exec

namespace Page

/-- The opcodes that an index page shares with the base page, with the index register
in the place of HL. Among the loads and the sums these are the ones with a code for H
or L, and none for memory. -/
def mirrorsBase (op : UInt8) : Bool :=
  let y := Opcode.y op
  let z := Opcode.z op
  match Opcode.x op with
  | 0 => [0x09, 0x19, 0x29, 0x39, 0x21, 0x22, 0x2A, 0x23, 0x2B, 0x24, 0x25, 0x26, 0x2C, 0x2D,
      0x2E].contains op
  | 1 => (namesHalf y || namesHalf z) && (Reg8.select y).isSome && (Reg8.select z).isSome
  | 2 => namesHalf z
  | 3 => [0xE1, 0xE3, 0xE5, 0xE9, 0xF9].contains op

/-- The opcodes of an index page that are followed by a displacement. -/
def takesDisplacement (op : UInt8) : Bool :=
  let y := Opcode.y op
  let z := Opcode.z op
  match Opcode.x op with
  | 0 => [0x34, 0x35, 0x36].contains op
  | 1 => (Reg8.select y).isNone != (Reg8.select z).isNone
  | 2 => (Reg8.select z).isNone
  | 3 => op == 0xCB

theorem isSome_index (x : Index) (op : UInt8) :
    (index x op).isSome = (mirrorsBase op || takesDisplacement op) := by
  revert op
  apply byte_forall
  cases x <;> decide +kernel

theorem Half.select_eq (x : Index) (n : Fin 8) :
    Half.select x n = (Reg8.select n).map (Reg8.mirror x) := by
  revert n
  cases x <;> decide

variable (x : Index) {op : UInt8}

/-- The base page and an index page have mirrored entries for the opcode. -/
def Mirrored (x : Index) (op : UInt8) : Prop :=
  ∃ d d', Lead.ofByte op = .plain d ∧ index x op = some d' ∧ d.Mirrors x d'

theorem mirrored_quarter0 (h : op ∈ [0x09, 0x19, 0x29, 0x39, 0x21, 0x22, 0x2A, 0x23, 0x2B, 0x24,
    0x25, 0x26, 0x2C, 0x2D, 0x2E]) : Mirrored x op := by
  simp only [List.mem_cons, List.not_mem_nil, or_false] at h
  rcases h with rfl | rfl | rfl | rfl | rfl | rfl | rfl | rfl | rfl | rfl | rfl | rfl | rfl | rfl |
    rfl
  · exact ⟨_, _, rfl, rfl, .done (.addWord .hl .bc)⟩
  · exact ⟨_, _, rfl, rfl, .done (.addWord .hl .de)⟩
  · exact ⟨_, _, rfl, rfl, .done (.addWord .hl .hl)⟩
  · exact ⟨_, _, rfl, rfl, .done (.addWord .hl .sp)⟩
  · exact ⟨_, _, rfl, rfl, .operand fun lo => .operand fun hi => .done (.loadImm .hl (join hi lo))⟩
  · exact ⟨_, _, rfl, rfl,
      .operand fun lo => .operand fun hi => .done (.storeWord (join hi lo) .hl)⟩
  · exact ⟨_, _, rfl, rfl, .operand fun lo => .operand fun hi => .done (.loadWord .hl (join hi lo))⟩
  · exact ⟨_, _, rfl, rfl, .done (.incWord .hl)⟩
  · exact ⟨_, _, rfl, rfl, .done (.decWord .hl)⟩
  · exact ⟨_, _, rfl, rfl, .done (.inc .h)⟩
  · exact ⟨_, _, rfl, rfl, .done (.dec .h)⟩
  · exact ⟨_, _, rfl, rfl, .operand fun n => .done (.loadByte .h n)⟩
  · exact ⟨_, _, rfl, rfl, .done (.inc .l)⟩
  · exact ⟨_, _, rfl, rfl, .done (.dec .l)⟩
  · exact ⟨_, _, rfl, rfl, .operand fun n => .done (.loadByte .l n)⟩

theorem mirrored_quarter1 (hx : Opcode.x op = 1)
    (hhalf : (namesHalf (Opcode.y op) || namesHalf (Opcode.z op)) = true)
    (hy : (Reg8.select (Opcode.y op)).isSome) (hz : (Reg8.select (Opcode.z op)).isSome) :
    Mirrored x op := by
  obtain ⟨dst, hdst⟩ := Option.isSome_iff_exists.mp hy
  obtain ⟨src, hsrc⟩ := Option.isSome_iff_exists.mp hz
  -- HALT stands where the load of memory from memory would be
  have hnot : (op == 0x76) = false := by
    rw [beq_eq_false_iff_ne]
    rintro rfl
    cases hdst
  refine ⟨.done (.load (.reg dst) (.place (.reg src))),
    .done (.load (.reg (dst.mirror x)) (.place (.reg (src.mirror x)))), ?_, ?_,
    .done (.load dst src)⟩
  · simp [Lead.ofByte, hx, quarter1, hnot, Place.select, hdst, hsrc]
  · simp only [index, hx, indexQuarter1, Half.select_eq, hdst, hsrc, hhalf, if_true]
    rfl

theorem mirrored_quarter2 (hx : Opcode.x op = 2) (hz : namesHalf (Opcode.z op) = true) :
    Mirrored x op := by
  have hcases : ∀ z : Fin 8, namesHalf z = true → z = 4 ∨ z = 5 := by decide
  rcases hcases _ hz with hz | hz
  · refine ⟨_, _, ?_, ?_, .done (.alu (AluOp.select (Opcode.y op)) .h)⟩
    · simp only [Lead.ofByte, hx, quarter2, hz]
      rfl
    · simp only [index, hx, indexQuarter2, hz]
      rfl
  · refine ⟨_, _, ?_, ?_, .done (.alu (AluOp.select (Opcode.y op)) .l)⟩
    · simp only [Lead.ofByte, hx, quarter2, hz]
      rfl
    · simp only [index, hx, indexQuarter2, hz]
      rfl

theorem mirrored_quarter3 (h : op ∈ [0xE1, 0xE3, 0xE5, 0xE9, 0xF9]) : Mirrored x op := by
  simp only [List.mem_cons, List.not_mem_nil, or_false] at h
  rcases h with rfl | rfl | rfl | rfl | rfl
  · exact ⟨_, _, rfl, rfl, .done (.pop .hl)⟩
  · exact ⟨_, _, rfl, rfl, .done (.exchangeStack .hl)⟩
  · exact ⟨_, _, rfl, rfl, .done (.push .hl)⟩
  · exact ⟨_, _, rfl, rfl, .done (.jumpTo .hl)⟩
  · exact ⟨_, _, rfl, rfl, .done (.loadSP .hl)⟩

theorem mirrored_of_mirrorsBase (h : mirrorsBase op = true) : Mirrored x op := by
  unfold mirrorsBase at h
  split at h
  · exact mirrored_quarter0 x (List.contains_iff_mem.mp h)
  · next hx =>
    simp only [Bool.and_eq_true] at h
    exact mirrored_quarter1 x hx h.1.1 h.1.2 h.2
  · next hx => exact mirrored_quarter2 x hx h
  · exact mirrored_quarter3 x (List.contains_iff_mem.mp h)

end Page

namespace Exec

/-- An index page has exactly the mirrored opcodes and those with a displacement. What
follows a mirrored one, operand bytes included, is what follows the same opcode on the
base page between two exchanges of HL and the index register: on every bus and before
every observer, so with the same bytes fetched and the same accesses in the same order. -/
theorem conclude_index_eq_exchanged (x : Index) (op : UInt8) :
    ((Page.index x op).isSome = (Page.mirrorsBase op || Page.takesDisplacement op)) ∧
      (Page.mirrorsBase op = true →
        ∀ {β ω : Type} [Bus β] [Observer ω] (otherwise : Exec β ω (Option Instruction)),
          completeOr (Page.index x op) otherwise >>= conclude =
            exchanged x (dispatch op >>= conclude)) := by
  refine ⟨Page.isSome_index x op, fun h β ω _ _ otherwise => ?_⟩
  obtain ⟨base, indexed, hbase, hindexed, hmirrors⟩ := Page.mirrored_of_mirrorsBase x h
  have hexecute : (execute indexed : Exec β ω Unit) = exchanged x (execute base) :=
    execute_mirror hmirrors
  calc completeOr (Page.index x op) otherwise >>= conclude
      = execute indexed >>= fun _ => pure (.ok ()) := by
        simp [hindexed, completeOr, execute, conclude]
    _ = exchanged x (execute base >>= fun _ => pure (.ok ())) := by
        rw [hexecute, exchanged_bind]
        simp only [exchanged_pure]
    _ = exchanged x (dispatch op >>= conclude) := by
        rw [dispatch, dispatchWithin_of_plain hbase]
        simp [execute, conclude]

/-- The doubling of IX mirrors that of HL. -/
theorem conclude_index_eq_exchanged_addIX :
    Page.mirrorsBase 0x29 = true ∧
      completeOr (Page.index .ix 0x29) (pure none) >>= conclude =
        exchanged .ix (dispatch 0x29 >>= conclude : Exec Board Recorder _) :=
  have h : Page.mirrorsBase 0x29 = true := by decide
  ⟨h, (conclude_index_eq_exchanged .ix 0x29).2 h (pure none)⟩

end Exec

end Z80
