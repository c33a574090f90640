import Z80.Proofs.BaseFamilies
import Z80.Proofs.Gaps
import Z80.Proofs.IndexMirror

/-!
# The base page by arms

The base page as an interpreter goes through it: the arms of one choice among its opcodes, and
for each arm what is looked up and what is done. The bytes that lead to another page are an arm
as well, with nothing to be done for them.

Main definitions:
- `BaseArm`, `BaseArm.arms`: the arms and the opcodes that they take.
- `BaseArm.run`: what an arm does.
- `Guarded.basePage`: the page.

Main statements: `follows_basePage` says that the page does what the base page of the machine
has, and `basePage_of_lead` that it comes upon a gap for a lead.
-/

namespace Z80

/-- The arms of the base page. -/
inductive BaseArm where
  /-- Nothing is looked up. -/
  | whole
  | loadPair | incPair | decPair | addPair
  | inc | dec | loadByte | rotate | jumpRelative
  | load | alu
  | ret | pop | jump | call | push | aluByte
  /-- Another page. -/
  | lead
  deriving DecidableEq

/-- The arms with their opcodes. One opcode is in two of them: HALT stands before the loads. -/
def BaseArm.arms : List (Arm BaseArm) := [
  .of [0x00, 0x02, 0x12, 0x0A, 0x1A, 0x22, 0x2A, 0x32, 0x3A] whole,
  .of [0x01, 0x11, 0x21, 0x31] loadPair,
  .of [0x03, 0x13, 0x23, 0x33] incPair,
  .of [0x0B, 0x1B, 0x2B, 0x3B] decPair,
  .of [0x09, 0x19, 0x29, 0x39] addPair,
  .of [0x04, 0x0C, 0x14, 0x1C, 0x24, 0x2C, 0x34, 0x3C] inc,
  .of [0x05, 0x0D, 0x15, 0x1D, 0x25, 0x2D, 0x35, 0x3D] dec,
  .of [0x06, 0x0E, 0x16, 0x1E, 0x26, 0x2E, 0x36, 0x3E] loadByte,
  .of [0x07, 0x0F, 0x17, 0x1F] rotate,
  .of [0x20, 0x28, 0x30, 0x38] jumpRelative,
  .of [0x08, 0x10, 0x18, 0x27, 0x2F, 0x37, 0x3F, 0x76] whole,
  ⟨fun op => 0x40 ≤ op && op ≤ 0x7F, load⟩,
  ⟨fun op => 0x80 ≤ op && op ≤ 0xBF, alu⟩,
  .of [0xC0, 0xC8, 0xD0, 0xD8, 0xE0, 0xE8, 0xF0, 0xF8] ret,
  .of [0xC1, 0xD1, 0xE1] pop,
  .of [0xC2, 0xCA, 0xD2, 0xDA, 0xE2, 0xEA, 0xF2, 0xFA] jump,
  .of [0xC4, 0xCC, 0xD4, 0xDC, 0xE4, 0xEC, 0xF4, 0xFC] call,
  .of [0xC5, 0xD5, 0xE5] push,
  .of [0xC6, 0xCE, 0xD6, 0xDE, 0xE6, 0xEE, 0xF6, 0xFE] aluByte,
  .of [0xC7, 0xCF, 0xD7, 0xDF, 0xE7, 0xEF, 0xF7, 0xFF] whole,
  .of [0xC3, 0xC9, 0xCD, 0xD3, 0xD9, 0xDB, 0xE3, 0xE9, 0xEB, 0xF1, 0xF3, 0xF5, 0xF9, 0xFB] whole,
  .of [0xCB, 0xDD, 0xED, 0xFD] lead]

/-- The decoding of a byte that begins an instruction of the base page. -/
def Lead.decoding? : Lead → Option Decoding
  | .plain d => some d
  | _ => none

/-- An outcome of which the carry alone is taken over into the flags `f`; H and N are cleared. -/
def Outcome.carryOnly (o : Outcome UInt8) (f : UInt8) : Outcome UInt8 :=
  ⟨o.value, f |> Flag.h.put false |> Flag.n.put false |> Flag.c.put (Flag.c.isSet o.flags)⟩

namespace Exec

variable {β ω : Type} [Bus β] [Observer ω]

/-- Takes in a word, its lower byte first. -/
def fetchWord : Exec β ω UInt16 := do
  let lo ← fetchByte
  let hi ← fetchByte
  return join hi lo

theorem execute_done (i : Instruction) : (execute (.done i) : Exec β ω Unit) = perform i :=
  rfl

theorem execute_byte (f : UInt8 → Instruction) :
    (execute (.byte f) : Exec β ω Unit) = fetchByte >>= fun n => perform (f n) :=
  rfl

theorem execute_word (f : UInt16 → Instruction) :
    (execute (.word f) : Exec β ω Unit) = fetchWord >>= fun nn => perform (f nn) :=
  rfl

/-- An instruction that has been looked up is executed, and is not invalid. -/
theorem complete_conclude (d : Decoding) :
    ((complete d >>= fun i => pure (some i)) >>= conclude : Exec β ω _) =
      execute d >>= fun _ => pure (.ok ()) :=
  rfl

end Exec

namespace Guarded

open Exec

variable {β ω : Type} [Bus β] [Observer ω]

/-- Executes an entry of a page. -/
def executeEntry (d? : Option Decoding) : Guarded β ω Unit := do
  let d ← ask .arm d?
  lift (execute d)

/-- Replaces the byte operand of a code and the flags by what `f` makes of them. -/
def updateOperand (r : UInt8) (f : UInt8 → UInt8 → Outcome UInt8) : Guarded β ω Unit := do
  let v ← readOperand r
  let o := f v (← lift regs).f
  writeOperand r o.value
  lift (setFlags o.flags)

end Guarded

open Exec Guarded in
/-- What an arm does with one of its opcodes. -/
def BaseArm.run {β ω : Type} [Bus β] [Observer ω] (arm : BaseArm) (op : UInt8) :
    Guarded β ω Unit := do
  match arm with
  | whole => executeEntry (Lead.ofByte op).decoding?
  | loadPair =>
    let nn ← lift fetchWord
    writePair (op >>> 4) nn
  | incPair =>
    let v ← readPair (op >>> 4)
    writePair (op >>> 4) (v + 1)
  | decPair =>
    let v ← readPair (op >>> 4)
    writePair (op >>> 4) (v - 1)
  | addPair =>
    let v ← readPair (op >>> 4)
    lift (modifyRegs fun r =>
      let o := addWord r.hl v r.f
      { r.setHL o.value with f := o.flags })
  | inc => updateOperand ((op >>> 3) &&& 7) incByte
  | dec => updateOperand ((op >>> 3) &&& 7) decByte
  | loadByte =>
    let n ← lift fetchByte
    writeOperand ((op >>> 3) &&& 7) n
  | rotate =>
    let shift ← ask .shift (Table.shift ((op >>> 3) &&& 3))
    lift (updateA fun a f => (shift.apply a f).carryOnly f)
  | jumpRelative =>
    let d ← lift fetchByte
    if ← test ((op >>> 3) &&& 3) then
      lift (modifyRegs fun r => { r with pc := displace r.pc d })
  | load =>
    let v ← readOperand (op &&& 7)
    writeOperand ((op >>> 3) &&& 7) v
  | alu =>
    let v ← readOperand (op &&& 7)
    combine (op >>> 3) v
  | ret => if ← test ((op >>> 3) &&& 7) then lift Exec.ret
  | pop =>
    let v ← lift Exec.pop
    writePair ((op >>> 4) &&& 3) v
  | jump =>
    let nn ← lift fetchWord
    if ← test ((op >>> 3) &&& 7) then lift (setPC nn)
  | call =>
    let nn ← lift fetchWord
    if ← test ((op >>> 3) &&& 7) then lift (Exec.call nn)
  | push =>
    let v ← readPair ((op >>> 4) &&& 3)
    lift (Exec.push v)
  | aluByte =>
    let n ← lift fetchByte
    combine (op >>> 3) n
  | lead => throw .lead

/-- Executes the instruction of the base page that begins with the byte `op`. -/
def Guarded.basePage {β ω : Type} [Bus β] [Observer ω] (op : UInt8) : Guarded β ω Unit := do
  let arm ← ask .arm (Arm.first BaseArm.arms op)
  arm.run op

/-! ## The opcodes of an arm -/

namespace Opcode

/-- The fields of the opcode have these numbers. It says the same as `HasFields`, and the same as
`HasPairFields` with `2 * p + q` for `y`. -/
def IsCoded (op : UInt8) (x y z : Nat) : Prop :=
  op.toNat = 64 * x + 8 * y + z

instance {op : UInt8} {x y z : Nat} : Decidable (IsCoded op x y z) :=
  inferInstanceAs (Decidable (_ = _))

end Opcode

/-- What the fields of an opcode are if the arm takes it. -/
def BaseArm.Fits (op : UInt8) : BaseArm → Prop
  | whole => True
  | loadPair => Opcode.IsCoded op 0 (2 * Opcode.p op + 0) 1
  | incPair => Opcode.IsCoded op 0 (2 * Opcode.p op + 0) 3
  | decPair => Opcode.IsCoded op 0 (2 * Opcode.p op + 1) 3
  | addPair => Opcode.IsCoded op 0 (2 * Opcode.p op + 1) 1
  | inc => Opcode.IsCoded op 0 (Opcode.y op) 4
  | dec => Opcode.IsCoded op 0 (Opcode.y op) 5
  | loadByte => Opcode.IsCoded op 0 (Opcode.y op) 6
  | rotate => op ∈ [0x07, 0x0F, 0x17, 0x1F]
  | jumpRelative => Opcode.IsCoded op 0 (Opcode.y op) 0 ∧ 4 ≤ (Opcode.y op).val
  | load => Opcode.IsCoded op 1 (Opcode.y op) (Opcode.z op) ∧ op ≠ 0x76
  | alu => Opcode.IsCoded op 2 (Opcode.y op) (Opcode.z op)
  | ret => Opcode.IsCoded op 3 (Opcode.y op) 0
  | pop => Opcode.IsCoded op 3 (2 * Opcode.p op + 0) 1 ∧
      Reg16.selectStacked (Opcode.p op) = Reg16.select (Opcode.p op)
  | jump => Opcode.IsCoded op 3 (Opcode.y op) 2
  | call => Opcode.IsCoded op 3 (Opcode.y op) 4
  | push => Opcode.IsCoded op 3 (2 * Opcode.p op + 0) 5 ∧
      Reg16.selectStacked (Opcode.p op) = Reg16.select (Opcode.p op)
  | aluByte => Opcode.IsCoded op 3 (Opcode.y op) 6
  | lead => op ∈ [0xCB, 0xDD, 0xED, 0xFD]

instance BaseArm.decidableFits (op : UInt8) : (arm : BaseArm) → Decidable (arm.Fits op)
  | .whole => inferInstanceAs (Decidable True)
  | .rotate | .lead => inferInstanceAs (Decidable (op ∈ _))
  | .loadPair | .incPair | .decPair | .addPair | .inc | .dec | .loadByte | .alu | .ret | .jump |
      .call | .aluByte =>
    inferInstanceAs (Decidable (Opcode.IsCoded ..))
  | .jumpRelative | .load | .pop | .push => inferInstanceAs (Decidable (_ ∧ _))

/-- Every opcode has an arm, and has the fields that the arm goes by. -/
theorem BaseArm.fits_first (op : UInt8) :
    (Arm.first arms op).any (fun arm => decide (arm.Fits op)) = true := by
  revert op
  apply byte_forall
  decide +kernel

namespace Guarded

open Exec

variable {β ω : Type} [Bus β] [Observer ω]

theorem follows_executeEntry {d? : Option Decoding} {d : Decoding} (h : d? = some d) :
    Follows (executeEntry d? : Guarded β ω Unit) (execute d) := by
  rw [h]
  exact fun _ => rfl

theorem follows_updateOperand (r : UInt8) (f : UInt8 → UInt8 → Outcome UInt8) :
    Follows (updateOperand r f : Guarded β ω Unit) (update (Place.select (Opcode.z r)) none f) := by
  intro m
  rw [updateOperand, readOperand_eq]
  simp only [writeOperand_eq]
  rfl

end Guarded

namespace BaseArm

open Exec Guarded

variable {β ω : Type} [Bus β] [Observer ω] {op : UInt8}

/-- The arm does what the base page has for the opcode. -/
def Serves (β ω : Type) [Bus β] [Observer ω] (arm : BaseArm) (op : UInt8) : Prop :=
  ∃ d, Lead.ofByte op = .plain d ∧ Follows (arm.run op : Guarded β ω Unit) (execute d)

/-! ## Byte operands -/

theorem serves_inc (h : Opcode.HasFields op 0 (Opcode.y op) 4) : inc.Serves β ω op := by
  refine ⟨_, h.inc, ?_⟩
  rw [← Opcode.z_shiftRight, ← Opcode.z_and]
  exact follows_updateOperand _ incByte

theorem serves_dec (h : Opcode.HasFields op 0 (Opcode.y op) 5) : dec.Serves β ω op := by
  refine ⟨_, h.dec, ?_⟩
  rw [← Opcode.z_shiftRight, ← Opcode.z_and]
  exact follows_updateOperand _ decByte

theorem serves_loadByte (h : Opcode.HasFields op 0 (Opcode.y op) 6) : loadByte.Serves β ω op := by
  refine ⟨_, h.loadImm, fun m => ?_⟩
  simp only [run, writeOperand_eq, Opcode.z_and, Opcode.z_shiftRight]
  rfl

theorem serves_load (h : Opcode.HasFields op 1 (Opcode.y op) (Opcode.z op)) (hop : op ≠ 0x76) :
    load.Serves β ω op := by
  refine ⟨_, h.load hop, fun m => ?_⟩
  simp only [run, readOperand_eq, writeOperand_eq, Opcode.z_and, Opcode.z_shiftRight]
  rfl

theorem serves_alu (h : Opcode.HasFields op 2 (Opcode.y op) (Opcode.z op)) :
    alu.Serves β ω op := by
  refine ⟨_, h.alu, fun m => ?_⟩
  simp only [run, readOperand_eq, combine_eq, Opcode.z_and, Opcode.z_shiftRight]
  rfl

theorem serves_aluByte (h : Opcode.HasFields op 3 (Opcode.y op) 6) : aluByte.Serves β ω op := by
  refine ⟨_, h.aluImm, fun m => ?_⟩
  simp only [run, combine_eq, Opcode.z_shiftRight]
  rfl

/-- A short rotation is the shift of its code, of which only the carry is taken over. -/
theorem carryOnly_apply (r : Rotation) (a f : UInt8) :
    ((ShiftOp.rotate r).apply a f).carryOnly f = r.accumulate a f := by
  simp only [ShiftOp.apply, Rotation.accumulate, Outcome.carryOnly, Flag.isSet_put, if_pos]

theorem serves_rotate (h : rotate.Fits op) : rotate.Serves β ω op := by
  have hserves (r : Rotation) (hop : Lead.ofByte op = .plain (.done (.rotateA r)))
      (hcode : Table.shift ((op >>> 3) &&& 3) = some (.rotate r)) : rotate.Serves β ω op := by
    refine ⟨_, hop, fun m => ?_⟩
    simp only [run, hcode, ask_some_bind, carryOnly_apply]
    rfl
  obtain rfl | rfl | rfl | rfl : op = 0x07 ∨ op = 0x0F ∨ op = 0x17 ∨ op = 0x1F := by
    simpa [Fits] using h
  · exact hserves .rlc rfl rfl
  · exact hserves .rrc rfl rfl
  · exact hserves .rl rfl rfl
  · exact hserves .rr rfl rfl

/-! ## Word registers -/

theorem serves_loadPair (h : Opcode.HasPairFields op 0 (Opcode.p op) 0 1) :
    loadPair.Serves β ω op := by
  refine ⟨_, h.loadImm, fun m => ?_⟩
  simp only [run, writePair, Table.pair_shiftRight]
  rfl

theorem serves_incPair (h : Opcode.HasPairFields op 0 (Opcode.p op) 0 3) :
    incPair.Serves β ω op := by
  refine ⟨_, h.incWord, fun m => ?_⟩
  simp only [run, readPair, writePair, Table.pair_shiftRight]
  rfl

theorem serves_decPair (h : Opcode.HasPairFields op 0 (Opcode.p op) 1 3) :
    decPair.Serves β ω op := by
  refine ⟨_, h.decWord, fun m => ?_⟩
  simp only [run, readPair, writePair, Table.pair_shiftRight]
  rfl

theorem serves_addPair (h : Opcode.HasPairFields op 0 (Opcode.p op) 1 1) :
    addPair.Serves β ω op := by
  refine ⟨_, h.addWord, fun m => ?_⟩
  simp only [run, readPair, Table.pair_shiftRight]
  rfl

theorem serves_pop (h : Opcode.HasPairFields op 3 (Opcode.p op) 0 1)
    (hstack : Reg16.selectStacked (Opcode.p op) = Reg16.select (Opcode.p op)) :
    pop.Serves β ω op := by
  refine ⟨_, h.pop, fun m => ?_⟩
  simp only [run, writePair, Table.pair_and, Table.pair_shiftRight, hstack]
  rfl

theorem serves_push (h : Opcode.HasPairFields op 3 (Opcode.p op) 0 5)
    (hstack : Reg16.selectStacked (Opcode.p op) = Reg16.select (Opcode.p op)) :
    push.Serves β ω op := by
  refine ⟨_, h.push, fun m => ?_⟩
  simp only [run, readPair, Table.pair_and, Table.pair_shiftRight, hstack]
  rfl

/-! ## Conditions -/

theorem serves_jumpRelative (h : Opcode.HasFields op 0 (Opcode.y op) 0) (hy : 4 ≤ Opcode.y op) :
    jumpRelative.Serves β ω op := by
  have hcode : ∀ v, 4 ≤ Opcode.y v → Opcode.z ((v >>> 3) &&& 3) = Opcode.y v - 4 := by
    apply byte_forall
    decide +kernel
  refine ⟨_, h.jumpRelative hy, ?_⟩
  rw [execute_byte, ← hcode op hy]
  exact (follows_lift fetchByte).bind fun d =>
    follows_if_test _ _ (fun r => setPC (displace r.pc d)) fun _ => rfl

theorem serves_ret (h : Opcode.HasFields op 3 (Opcode.y op) 0) : ret.Serves β ω op := by
  refine ⟨_, h.ret, ?_⟩
  rw [execute_done, ← Opcode.z_shiftRight, ← Opcode.z_and]
  exact follows_if_test _ _ (fun _ => Exec.ret) fun _ => rfl

theorem serves_jump (h : Opcode.HasFields op 3 (Opcode.y op) 2) : jump.Serves β ω op := by
  refine ⟨_, h.jump, ?_⟩
  rw [execute_word, ← Opcode.z_shiftRight, ← Opcode.z_and]
  exact (follows_lift fetchWord).bind fun nn =>
    follows_if_test _ _ (fun _ => setPC nn) fun _ => rfl

theorem serves_call (h : Opcode.HasFields op 3 (Opcode.y op) 4) : call.Serves β ω op := by
  refine ⟨_, h.call, ?_⟩
  rw [execute_word, ← Opcode.z_shiftRight, ← Opcode.z_and]
  exact (follows_lift fetchWord).bind fun nn =>
    follows_if_test _ _ (fun _ => Exec.call nn) fun _ => rfl

/-- Every arm but that of the leads does what the page has for its opcodes. -/
theorem serves_of_fits {arm : BaseArm} {d : Decoding} (hop : Lead.ofByte op = .plain d)
    (h : arm.Fits op) : arm.Serves β ω op := by
  cases arm with
  | whole => exact ⟨d, hop, follows_executeEntry (congrArg Lead.decoding? hop)⟩
  | loadPair => exact serves_loadPair h
  | incPair => exact serves_incPair h
  | decPair => exact serves_decPair h
  | addPair => exact serves_addPair h
  | inc => exact serves_inc h
  | dec => exact serves_dec h
  | loadByte => exact serves_loadByte h
  | rotate => exact serves_rotate h
  | jumpRelative => exact serves_jumpRelative h.1 h.2
  | load => exact serves_load h.1 h.2
  | alu => exact serves_alu h
  | ret => exact serves_ret h
  | pop => exact serves_pop h.1 h.2
  | jump => exact serves_jump h
  | call => exact serves_call h
  | push => exact serves_push h.1 h.2
  | aluByte => exact serves_aluByte h
  | lead =>
    obtain rfl | rfl | rfl | rfl : op = 0xCB ∨ op = 0xDD ∨ op = 0xED ∨ op = 0xFD := by
      simpa [Fits] using h
    all_goals cases hop

end BaseArm

namespace Guarded

open Exec

variable {β ω : Type} [Bus β] [Observer ω] {op : UInt8}

/-- For a byte that begins an instruction of its own, the page does what the machine does. -/
theorem follows_basePage {d : Decoding} (h : Lead.ofByte op = .plain d) :
    Follows (basePage op : Guarded β ω Unit) (execute d) := by
  have hfits := BaseArm.fits_first op
  unfold basePage
  cases harm : Arm.first BaseArm.arms op with
  | none =>
    rw [harm] at hfits
    cases hfits
  | some arm =>
    rw [harm] at hfits
    have hserves : arm.Serves β ω op := BaseArm.serves_of_fits h (of_decide_eq_true hfits)
    obtain ⟨d', hd', hfollows⟩ := hserves
    cases h.symm.trans hd'
    exact hfollows

/-- For a byte that leads to another page it comes upon a gap, before anything is done. -/
theorem basePage_of_lead (h : op ∈ [0xCB, 0xDD, 0xED, 0xFD]) (m : Machine β ω) :
    (basePage op).run m = (.error .lead, m) := by
  obtain rfl | rfl | rfl | rfl : op = 0xCB ∨ op = 0xDD ∨ op = 0xED ∨ op = 0xFD := by
    simpa using h
  all_goals rfl

end Guarded

end Z80
