import Z80.Proofs.BaseArms
import Z80.Proofs.FlagFrame

/-!
# The page of extensions by arms

The page behind ED as an interpreter goes through it. The ports that BC addresses exchange bytes
with registers alone, so the arms that look such a register up must not take the opcode with the
code of memory. An opcode that no arm takes is invalid.

Main definitions:
- `ExtensionArm`, `ExtensionArm.arms`: the arms and the opcodes that they take.
- `ExtensionArm.run`: what an arm does.
- `Guarded.extensionPage`: the page.

Main statement: `follows_extensionPage` says that the page does what the machine does behind ED.
-/

namespace Z80

/-- The arms of the page of extensions. -/
inductive ExtensionArm where
  /-- Nothing is looked up. -/
  | whole
  | inPort | outPort
  | sbcPair | adcPair | storePair | loadPair
  deriving DecidableEq

/-- The arms with their opcodes. -/
def ExtensionArm.arms : List (Arm ExtensionArm) := [
  .of [0x40, 0x48, 0x50, 0x58, 0x60, 0x68, 0x78] inPort,
  .of [0x41, 0x49, 0x51, 0x59, 0x61, 0x69, 0x79] outPort,
  .of [0x42, 0x52, 0x62, 0x72] sbcPair,
  .of [0x4A, 0x5A, 0x6A, 0x7A] adcPair,
  .of [0x43, 0x53, 0x63, 0x73] storePair,
  .of [0x4B, 0x5B, 0x6B, 0x7B] loadPair,
  .of [0x44, 0x45, 0x4D, 0x46, 0x56, 0x5E, 0x47, 0x4F, 0x57, 0x5F, 0x67, 0x6F] whole,
  .of [0xA0, 0xA8, 0xB0, 0xB8, 0xA1, 0xA9, 0xB1, 0xB9] whole,
  .of [0xA2, 0xAA, 0xB2, 0xBA, 0xA3, 0xAB, 0xB3, 0xBB] whole]

namespace Guarded

open Exec

variable {β ω : Type}

/-- Reads the register of a code, for a port to receive. -/
def readPort (r : UInt8) : Guarded β ω UInt8 := do
  let q ← ask .port (Table.port r)
  return (← lift regs).byte q

/-- Writes the register of a code, with what a port has given. -/
def writePort (r v : UInt8) : Guarded β ω Unit := do
  let q ← ask .port (Table.port r)
  lift (modifyRegs (·.setByte q v))

/-- What a port has given goes to a register and to the flags, which the register is not
part of. -/
theorem follows_writePort {r : UInt8} {q : Reg8} (hq : Table.port r = some q) (v : UInt8) :
    Follows (do
        writePort r v
        lift (modifyRegs fun r => { r with f := transferFlags v r.f }) : Guarded β ω Unit)
      (modifyRegs fun r => { r.setByte q v with f := transferFlags v r.f }) := by
  have hregs : (fun r : Registers => { r.setByte q v with f := transferFlags v r.f }) =
      fun r => { r.setByte q v with f := transferFlags v (r.setByte q v).f } := by
    funext r
    rw [Registers.f_setByte]
  rw [writePort, hq, hregs]
  exact fun _ => rfl

theorem readPort_gap_iff (r : UInt8) (m : Machine β ω) :
    (readPort r).run m = (.error .port, m) ↔ r &&& 7 = 6 :=
  (run_ask_bind_iff (fun _ _ => ⟨_, _, rfl⟩) m).trans (Table.port_eq_none_iff r)

theorem writePort_gap_iff (r v : UInt8) (m : Machine β ω) :
    (writePort r v).run m = (.error .port, m) ↔ r &&& 7 = 6 :=
  (run_ask_bind_iff (fun _ => (follows_lift _).gapless) m).trans (Table.port_eq_none_iff r)

end Guarded

open Exec Guarded in
/-- What an arm does with one of its opcodes. -/
def ExtensionArm.run {β ω : Type} [Bus β] [Observer ω] (arm : ExtensionArm) (op : UInt8) :
    Guarded β ω Unit := do
  let y := (op >>> 3) &&& 7
  match arm with
  | whole => executeEntry (Page.ed op)
  | inPort =>
    let v ← lift (do input (← regs).bc)
    writePort y v
    lift (modifyRegs fun r => { r with f := transferFlags v r.f })
  | outPort =>
    let v ← readPort y
    lift (do output (← regs).bc v)
  | sbcPair =>
    let v ← readPair (y >>> 1)
    lift (modifyRegs fun r =>
      let o := sbcWord r.hl v r.f
      { r.setHL o.value with f := o.flags })
  | adcPair =>
    let v ← readPair (y >>> 1)
    lift (modifyRegs fun r =>
      let o := adcWord r.hl v r.f
      { r.setHL o.value with f := o.flags })
  | storePair =>
    let nn ← lift fetchWord
    let v ← readPair (y >>> 1)
    lift (writeWord nn v)
  | loadPair =>
    let nn ← lift fetchWord
    let v ← lift (readWord nn)
    writePair (y >>> 1) v

/-- Executes the instruction of the opcode `op` behind ED, or answers with its bytes. -/
def Guarded.extensionPage {β ω : Type} [Bus β] [Observer ω] (op : UInt8) :
    Guarded β ω (Except InvalidOpcode Unit) := do
  match Arm.first ExtensionArm.arms op with
  | some arm =>
    arm.run op
    return .ok ()
  | none => return .error (← lift Exec.cpu).invalidOpcode

/-! ## The opcodes of an arm -/

/-- What the fields of an opcode are if the arm takes it. -/
def ExtensionArm.Fits (op : UInt8) : ExtensionArm → Prop
  | whole => (Page.ed op).isSome
  | inPort => Opcode.IsCoded op 1 (Opcode.y op) 0 ∧ (Reg8.select (Opcode.y op)).isSome
  | outPort => Opcode.IsCoded op 1 (Opcode.y op) 1 ∧ (Reg8.select (Opcode.y op)).isSome
  | sbcPair => Opcode.IsCoded op 1 (2 * Opcode.p op + 0) 2
  | adcPair => Opcode.IsCoded op 1 (2 * Opcode.p op + 1) 2
  | storePair => Opcode.IsCoded op 1 (2 * Opcode.p op + 0) 3
  | loadPair => Opcode.IsCoded op 1 (2 * Opcode.p op + 1) 3

instance ExtensionArm.decidableFits (op : UInt8) : (arm : ExtensionArm) → Decidable (arm.Fits op)
  | .whole => inferInstanceAs (Decidable (_ = true))
  | .inPort | .outPort => inferInstanceAs (Decidable (_ ∧ _))
  | .sbcPair | .adcPair | .storePair | .loadPair =>
    inferInstanceAs (Decidable (Opcode.IsCoded ..))

/-- The arms take the opcodes that the page has, with the fields that they go by. -/
theorem ExtensionArm.fits_first (op : UInt8) :
    (Arm.first arms op).elim (Page.ed op).isNone (fun arm => decide (arm.Fits op)) = true := by
  revert op
  apply byte_forall
  decide +kernel

namespace ExtensionArm

open Exec Guarded

variable {β ω : Type} [Bus β] [Observer ω] {op : UInt8}

/-- The arm does what the page has for the opcode. -/
def Serves (β ω : Type) [Bus β] [Observer ω] (arm : ExtensionArm) (op : UInt8) : Prop :=
  ∃ d, Page.ed op = some d ∧ Follows (arm.run op : Guarded β ω Unit) (execute d)

theorem port_code (op : UInt8) : Table.port ((op >>> 3) &&& 7) = Reg8.select (Opcode.y op) := by
  rw [Table.port_eq, Opcode.z_and, Opcode.z_shiftRight]

theorem pair_code (op : UInt8) :
    Table.pair (((op >>> 3) &&& 7) >>> 1) = some (Reg16.select (Opcode.p op)) := by
  revert op
  apply byte_forall
  decide +kernel

theorem serves_inPort (h : Opcode.HasFields op 1 (Opcode.y op) 0)
    (hy : (Reg8.select (Opcode.y op)).isSome) :
    inPort.Serves β ω op := by
  obtain ⟨x, hx⟩ := Option.isSome_iff_exists.mp hy
  exact ⟨.done (.inC x), h.inC hx, (follows_lift (do input (← regs).bc)).bind
    (follows_writePort ((port_code op).trans hx))⟩

theorem serves_outPort (h : Opcode.HasFields op 1 (Opcode.y op) 1)
    (hy : (Reg8.select (Opcode.y op)).isSome) :
    outPort.Serves β ω op := by
  obtain ⟨x, hx⟩ := Option.isSome_iff_exists.mp hy
  refine ⟨.done (.outC x), h.outC hx, fun m => ?_⟩
  simp only [run, readPort, port_code, hx]
  rfl

theorem serves_sbcPair (h : Opcode.HasPairFields op 1 (Opcode.p op) 0 2) :
    sbcPair.Serves β ω op := by
  refine ⟨_, h.sbcWord, fun m => ?_⟩
  simp only [run, readPair, pair_code]
  rfl

theorem serves_adcPair (h : Opcode.HasPairFields op 1 (Opcode.p op) 1 2) :
    adcPair.Serves β ω op := by
  refine ⟨_, h.adcWord, fun m => ?_⟩
  simp only [run, readPair, pair_code]
  rfl

theorem serves_storePair (h : Opcode.HasPairFields op 1 (Opcode.p op) 0 3) :
    storePair.Serves β ω op := by
  refine ⟨_, h.storeWord, fun m => ?_⟩
  simp only [run, readPair, pair_code]
  rfl

theorem serves_loadPair (h : Opcode.HasPairFields op 1 (Opcode.p op) 1 3) :
    loadPair.Serves β ω op := by
  refine ⟨_, h.loadWord, fun m => ?_⟩
  simp only [run, writePair, pair_code]
  rfl

theorem serves_of_fits {arm : ExtensionArm} (h : arm.Fits op) : arm.Serves β ω op := by
  cases arm with
  | whole =>
    obtain ⟨d, hd⟩ := Option.isSome_iff_exists.mp h
    exact ⟨d, hd, follows_executeEntry hd⟩
  | inPort => exact serves_inPort h.1 h.2
  | outPort => exact serves_outPort h.1 h.2
  | sbcPair => exact serves_sbcPair h
  | adcPair => exact serves_adcPair h
  | storePair => exact serves_storePair h
  | loadPair => exact serves_loadPair h

end ExtensionArm

namespace Guarded

open Exec

variable {β ω : Type} [Bus β] [Observer ω]

theorem follows_extensionPage (op : UInt8) :
    Follows (extensionPage op : Guarded β ω _)
      (completeOr (Page.ed op) (pure none) >>= conclude) := by
  have hfits := ExtensionArm.fits_first op
  unfold extensionPage
  cases harm : Arm.first ExtensionArm.arms op with
  | none =>
    rw [harm] at hfits
    rw [Option.isNone_iff_eq_none.mp hfits]
    exact fun _ => rfl
  | some arm =>
    rw [harm] at hfits
    have hserves : arm.Serves β ω op := ExtensionArm.serves_of_fits (of_decide_eq_true hfits)
    obtain ⟨d, hd, hfollows⟩ := hserves
    rw [hd, completeOr, complete_conclude]
    exact hfollows.bind fun _ => follows_pure _

end Guarded

end Z80
