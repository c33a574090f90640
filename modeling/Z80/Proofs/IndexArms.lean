import Z80.Proofs.BitArms

/-!
# The index pages by arms

The pages behind DD and FD as an interpreter goes through them. Two ranges of opcodes are shared
by arms for a displaced cell and arms for the halves of the index register. The code of memory has
no half; where it stands in an opcode of such a range, an arm further up has taken the opcode, or
none does.

Main definitions:
- `IndexArm`, `IndexArm.arms`: the arms and the opcodes that they take, in their order.
- `IndexArm.run`: what an arm does.
- `Guarded.indexPage`: the page, which tells whether it has the opcode.

Main statements: `follows_indexPage` says that the page does what the machine does behind an index
byte, and `loadHalf_gap` what would happen if an arm took an opcode of memory from those above it.
-/

namespace Z80

/-- The arms of an index page. -/
inductive IndexArm where
  /-- Nothing is looked up. -/
  | whole
  | addPair | incHalf | decHalf | loadHalfByte
  /-- A displaced cell and a plain register, the accumulator included. -/
  | loadFrom | storeTo | aluFrom
  | loadHalf | aluHalf
  /-- What stands behind CB. -/
  | bits
  deriving DecidableEq

/-- Is the code that of H or L? -/
def namesHalfCode (r : UInt8) : Bool :=
  r == 4 || r == 5

/-- The arms with their opcodes. -/
def IndexArm.arms : List (Arm IndexArm) := [
  .of [0x09, 0x19, 0x29, 0x39] addPair,
  .of [0x21, 0x22, 0x2A, 0x23, 0x2B] whole,
  .of [0x24, 0x2C] incHalf,
  .of [0x25, 0x2D] decHalf,
  .of [0x26, 0x2E] loadHalfByte,
  .of [0x34, 0x35, 0x36] whole,
  .of [0x46, 0x4E, 0x56, 0x5E, 0x66, 0x6E, 0x7E] loadFrom,
  .of [0x70, 0x71, 0x72, 0x73, 0x74, 0x75, 0x77] storeTo,
  -- of these, 66, 6E, 74 and 75 are taken already
  ⟨fun op => 0x40 ≤ op && op ≤ 0x7F && op != 0x76 &&
    (namesHalfCode (op &&& 7) || namesHalfCode ((op >>> 3) &&& 7)), loadHalf⟩,
  .of [0x86, 0x8E, 0x96, 0x9E, 0xA6, 0xAE, 0xB6, 0xBE] aluFrom,
  ⟨fun op => 0x80 ≤ op && op ≤ 0xBF && namesHalfCode (op &&& 7), aluHalf⟩,
  .of [0xCB] bits,
  .of [0xE1, 0xE3, 0xE5, 0xE9, 0xF9] whole]

namespace Guarded

open Exec

variable {β ω : Type}

/-- Reads the register of a code, with the halves of an index register for H and L. -/
def readHalf (x : Index) (r : UInt8) : Guarded β ω UInt8 := do
  let q ← ask .half (Table.half x r)
  return (← lift regs).byte q

/-- Writes the register of a code, with the halves of an index register for H and L. -/
def writeHalf (x : Index) (r v : UInt8) : Guarded β ω Unit := do
  let q ← ask .half (Table.half x r)
  lift (modifyRegs (·.setByte q v))

theorem readHalf_gap_iff (x : Index) (r : UInt8) (m : Machine β ω) :
    (readHalf x r).run m = (.error .half, m) ↔ r &&& 7 = 6 :=
  (run_ask_bind_iff (fun _ _ => ⟨_, _, rfl⟩) m).trans (Table.half_eq_none_iff r x)

theorem writeHalf_gap_iff (x : Index) (r v : UInt8) (m : Machine β ω) :
    (writeHalf x r v).run m = (.error .half, m) ↔ r &&& 7 = 6 :=
  (run_ask_bind_iff (fun _ => (follows_lift _).gapless) m).trans (Table.half_eq_none_iff r x)

/-- Replaces such a register and the flags by what `f` makes of them. -/
def updateHalf (x : Index) (r : UInt8) (f : UInt8 → UInt8 → Outcome UInt8) : Guarded β ω Unit := do
  let v ← readHalf x r
  let o := f v (← lift regs).f
  writeHalf x r o.value
  lift (setFlags o.flags)

end Guarded

open Exec Guarded in
/-- What an arm does with one of its opcodes. -/
def IndexArm.run {β ω : Type} [Bus β] [Observer ω] (x : Index) (arm : IndexArm) (op : UInt8) :
    Guarded β ω Unit := do
  match arm with
  | whole => executeEntry (Page.index x op)
  | addPair =>
    let rp := (op >>> 4) &&& 3
    let v ← if rp == 2 then lift (do return (← regs).index x) else readPair rp
    lift (modifyRegs fun r =>
      let o := addWord (r.index x) v r.f
      { r.setIndex x o.value with f := o.flags })
  | incHalf => updateHalf x ((op >>> 3) &&& 7) incByte
  | decHalf => updateHalf x ((op >>> 3) &&& 7) decByte
  | loadHalfByte =>
    let n ← lift fetchByte
    writeHalf x ((op >>> 3) &&& 7) n
  | loadFrom =>
    let a ← lift (fetchDisplaced x)
    let v ← lift (read a)
    writeOperand ((op >>> 3) &&& 7) v
  | storeTo =>
    let a ← lift (fetchDisplaced x)
    let v ← readOperand (op &&& 7)
    lift (write a v)
  | aluFrom =>
    let a ← lift (fetchDisplaced x)
    let v ← lift (read a)
    combine (op >>> 3) v
  | loadHalf =>
    let v ← readHalf x (op &&& 7)
    writeHalf x ((op >>> 3) &&& 7) v
  | aluHalf =>
    let v ← readHalf x (op &&& 7)
    combine (op >>> 3) v
  | bits => displacedBits x

/-- Executes the instruction of the opcode `op` behind the byte of an index register, if the page
has one. -/
def Guarded.indexPage {β ω : Type} [Bus β] [Observer ω] (x : Index) (op : UInt8) :
    Guarded β ω Bool := do
  match Arm.first IndexArm.arms op with
  | some arm =>
    arm.run x op
    return true
  | none => return false

/-! ## The opcodes of an arm -/

/-- What the fields of an opcode are if the arm takes it. -/
def IndexArm.Fits (op : UInt8) : IndexArm → Prop
  | whole => (Page.index .ix op).isSome ∧ (Page.index .iy op).isSome
  | addPair => op ∈ [0x09, 0x19, 0x29, 0x39]
  | incHalf => op ∈ [0x24, 0x2C]
  | decHalf => op ∈ [0x25, 0x2D]
  | loadHalfByte => op ∈ [0x26, 0x2E]
  | loadFrom => Opcode.IsCoded op 1 (Opcode.y op) 6 ∧ (Reg8.select (Opcode.y op)).isSome
  | storeTo => Opcode.IsCoded op 1 6 (Opcode.z op) ∧ (Reg8.select (Opcode.z op)).isSome
  | aluFrom => Opcode.IsCoded op 2 (Opcode.y op) 6
  | loadHalf => Opcode.IsCoded op 1 (Opcode.y op) (Opcode.z op) ∧
      (Reg8.select (Opcode.y op)).isSome ∧ (Reg8.select (Opcode.z op)).isSome ∧
      (Page.namesHalf (Opcode.y op) || Page.namesHalf (Opcode.z op)) = true
  | aluHalf => Opcode.IsCoded op 2 (Opcode.y op) (Opcode.z op) ∧
      Page.namesHalf (Opcode.z op) = true
  | bits => op = 0xCB

instance IndexArm.decidableFits (op : UInt8) : (arm : IndexArm) → Decidable (arm.Fits op)
  | .whole | .loadFrom | .storeTo | .loadHalf | .aluHalf => inferInstanceAs (Decidable (_ ∧ _))
  | .addPair | .incHalf | .decHalf | .loadHalfByte => inferInstanceAs (Decidable (op ∈ _))
  | .aluFrom => inferInstanceAs (Decidable (Opcode.IsCoded ..))
  | .bits => inferInstanceAs (Decidable (op = _))

/-- The arms take the opcodes that the page has, with the fields that they go by. No load between
halves is left with the code of memory. -/
theorem IndexArm.fits_first (op : UInt8) :
    (Arm.first arms op).elim ((Page.index .ix op).isNone && (Page.index .iy op).isNone)
      (fun arm => decide (arm.Fits op)) = true := by
  revert op
  apply byte_forall
  decide +kernel

/-- The page in its second quarter. -/
theorem index_of_x_one {op : UInt8} (x : Index) (h : Opcode.x op = 1) :
    Page.index x op = Page.indexQuarter1 x op := by
  rw [Page.index, h]

/-- The page in its third quarter. -/
theorem index_of_x_two {op : UInt8} (x : Index) (h : Opcode.x op = 2) :
    Page.index x op = Page.indexQuarter2 x op := by
  rw [Page.index, h]

namespace IndexArm

open Exec Guarded

variable {β ω : Type} [Bus β] [Observer ω] {x : Index} {op : UInt8}

/-- The arm does what the page has for the opcode. -/
def Serves (β ω : Type) [Bus β] [Observer ω] (x : Index) (arm : IndexArm) (op : UInt8) : Prop :=
  ∃ d, Page.index x op = some d ∧ Follows (arm.run x op : Guarded β ω Unit) (execute d)

theorem serves_addPair (h : addPair.Fits op) : addPair.Serves β ω x op := by
  obtain rfl | rfl | rfl | rfl : op = 0x09 ∨ op = 0x19 ∨ op = 0x29 ∨ op = 0x39 := by
    simpa [Fits] using h
  · exact ⟨.done (.addWord (.index x) .bc), rfl, fun _ => rfl⟩
  · exact ⟨.done (.addWord (.index x) .de), rfl, fun _ => rfl⟩
  · exact ⟨.done (.addWord (.index x) (.index x)), rfl, fun _ => rfl⟩
  · exact ⟨.done (.addWord (.index x) .sp), rfl, fun _ => rfl⟩

theorem serves_incHalf (h : incHalf.Fits op) : incHalf.Serves β ω x op := by
  obtain rfl | rfl : op = 0x24 ∨ op = 0x2C := by simpa [Fits] using h
  · exact ⟨.done (.inc (.reg (.upper x))), rfl, fun _ => rfl⟩
  · exact ⟨.done (.inc (.reg (.lower x))), rfl, fun _ => rfl⟩

theorem serves_decHalf (h : decHalf.Fits op) : decHalf.Serves β ω x op := by
  obtain rfl | rfl : op = 0x25 ∨ op = 0x2D := by simpa [Fits] using h
  · exact ⟨.done (.dec (.reg (.upper x))), rfl, fun _ => rfl⟩
  · exact ⟨.done (.dec (.reg (.lower x))), rfl, fun _ => rfl⟩

theorem serves_loadHalfByte (h : loadHalfByte.Fits op) : loadHalfByte.Serves β ω x op := by
  obtain rfl | rfl : op = 0x26 ∨ op = 0x2E := by simpa [Fits] using h
  · exact ⟨.byte fun n => .load (.reg (.upper x)) (.imm n), rfl, fun _ => rfl⟩
  · exact ⟨.byte fun n => .load (.reg (.lower x)) (.imm n), rfl, fun _ => rfl⟩

theorem serves_loadFrom (h : Opcode.HasFields op 1 (Opcode.y op) 6)
    (hy : (Reg8.select (Opcode.y op)).isSome) : loadFrom.Serves β ω x op := by
  obtain ⟨r, hr⟩ := Option.isSome_iff_exists.mp hy
  refine ⟨Page.displaced x fun p => .load (.reg r) (.place p), ?_, fun m => ?_⟩
  · rw [index_of_x_one x h.x_eq, Page.indexQuarter1, h.z_eq, hr]
    rfl
  · simp only [run, writeOperand_eq, Opcode.z_and, Opcode.z_shiftRight, Place.select, hr]
    rfl

theorem serves_storeTo (h : Opcode.HasFields op 1 6 (Opcode.z op))
    (hz : (Reg8.select (Opcode.z op)).isSome) : storeTo.Serves β ω x op := by
  obtain ⟨r, hr⟩ := Option.isSome_iff_exists.mp hz
  refine ⟨Page.displaced x fun p => .load p (.place (.reg r)), ?_, fun m => ?_⟩
  · rw [index_of_x_one x h.x_eq, Page.indexQuarter1, h.y_eq, hr]
    rfl
  · simp only [run, readOperand_eq, Opcode.z_and, Place.select, hr]
    rfl

theorem serves_aluFrom (h : Opcode.HasFields op 2 (Opcode.y op) 6) : aluFrom.Serves β ω x op := by
  refine ⟨Page.displaced x fun p => .alu (AluOp.select (Opcode.y op)) (.place p), ?_, fun m => ?_⟩
  · rw [index_of_x_two x h.x_eq, Page.indexQuarter2, h.z_eq]
    rfl
  · simp only [run, combine_eq, Opcode.z_shiftRight]
    rfl

theorem serves_loadHalf (h : Opcode.HasFields op 1 (Opcode.y op) (Opcode.z op))
    (hy : (Reg8.select (Opcode.y op)).isSome) (hz : (Reg8.select (Opcode.z op)).isSome)
    (hhalf : (Page.namesHalf (Opcode.y op) || Page.namesHalf (Opcode.z op)) = true) :
    loadHalf.Serves β ω x op := by
  obtain ⟨_, hry⟩ := Option.isSome_iff_exists.mp hy
  obtain ⟨_, hrz⟩ := Option.isSome_iff_exists.mp hz
  obtain ⟨dst, hdst⟩ := Page.Half.exists_select x hry
  obtain ⟨src, hsrc⟩ := Page.Half.exists_select x hrz
  refine ⟨.done (.load (.reg dst) (.place (.reg src))), ?_, fun m => ?_⟩
  · simp only [index_of_x_one x h.x_eq, Page.indexQuarter1, hry, hrz, hhalf, hdst, hsrc]
    rfl
  · simp only [run, readHalf, writeHalf, Table.half_eq, Opcode.z_and, Opcode.z_shiftRight, hdst,
      hsrc]
    rfl

/-- The range of these loads has opcodes of memory, too. With them the arm would come upon a gap,
so that it depends on the arms above it. -/
theorem loadHalf_gap (x : Index) (h : Opcode.z op = 6 ∨ Opcode.y op = 6) (m : Machine β ω) :
    (loadHalf.run x op).run m = (.error .half, m) := by
  rw [run, run_bind]
  by_cases hz : Opcode.z op = 6
  · rw [readHalf, Table.half_eq, Opcode.z_and, hz]
    cases x <;> rfl
  · have hwrite (v : UInt8) :
        (writeHalf x ((op >>> 3) &&& 7) v).run m = (.error .half, m) := by
      rw [writeHalf, Table.half_eq, Opcode.z_and, Opcode.z_shiftRight, h.resolve_left hz]
      cases x <;> rfl
    rw [readHalf]
    cases Table.half x (op &&& 7) with
    | none => rfl
    | some q => exact hwrite _

theorem serves_aluHalf (h : Opcode.HasFields op 2 (Opcode.y op) (Opcode.z op))
    (hhalf : Page.namesHalf (Opcode.z op) = true) : aluHalf.Serves β ω x op := by
  have hserves (q : Reg8) (hq : Page.Half.select x (Opcode.z op) = some q)
      (hop : Page.index x op =
        some (.done (.alu (AluOp.select (Opcode.y op)) (.place (.reg q))))) :
      aluHalf.Serves β ω x op := by
    refine ⟨_, hop, fun m => ?_⟩
    simp only [run, readHalf, combine_eq, Table.half_eq, Opcode.z_and, Opcode.z_shiftRight, hq]
    rfl
  have hz : Opcode.z op = 4 ∨ Opcode.z op = 5 := by
    revert hhalf
    generalize Opcode.z op = k
    revert k
    decide
  cases hz with
  | inl hz =>
    refine hserves (.upper x) (by rw [hz]; rfl) ?_
    rw [index_of_x_two x h.x_eq, Page.indexQuarter2, hz]
    rfl
  | inr hz =>
    refine hserves (.lower x) (by rw [hz]; rfl) ?_
    rw [index_of_x_two x h.x_eq, Page.indexQuarter2, hz]
    rfl

theorem serves_bits (h : bits.Fits op) : bits.Serves β ω x op := by
  cases h
  refine ⟨.operand fun d => .byte fun sub => Page.displacedBits x d sub, rfl, ?_⟩
  exact follows_displacedBits x

theorem serves_of_fits {arm : IndexArm} (h : arm.Fits op) : arm.Serves β ω x op := by
  cases arm with
  | whole =>
    have hsome : (Page.index x op).isSome := by
      cases x with
      | ix => exact h.1
      | iy => exact h.2
    obtain ⟨d, hd⟩ := Option.isSome_iff_exists.mp hsome
    exact ⟨d, hd, follows_executeEntry hd⟩
  | addPair => exact serves_addPair h
  | incHalf => exact serves_incHalf h
  | decHalf => exact serves_decHalf h
  | loadHalfByte => exact serves_loadHalfByte h
  | loadFrom => exact serves_loadFrom h.1 h.2
  | storeTo => exact serves_storeTo h.1 h.2
  | aluFrom => exact serves_aluFrom h
  | loadHalf => exact serves_loadHalf h.1 h.2.1 h.2.2.1 h.2.2.2
  | aluHalf => exact serves_aluHalf h.1 h.2
  | bits => exact serves_bits h

end IndexArm

namespace Guarded

open Exec

variable {β ω : Type} [Bus β] [Observer ω]

/-- If the page has the opcode, it does what the machine does with it. -/
theorem follows_indexPage {x : Index} {op : UInt8} {d : Decoding} (h : Page.index x op = some d) :
    Follows (indexPage x op : Guarded β ω Bool) (execute d >>= fun _ => pure true) := by
  have hfits := IndexArm.fits_first op
  unfold indexPage
  cases harm : Arm.first IndexArm.arms op with
  | none =>
    rw [harm] at hfits
    cases x <;> simp [h] at hfits
  | some arm =>
    rw [harm] at hfits
    have hserves : arm.Serves β ω x op := IndexArm.serves_of_fits (of_decide_eq_true hfits)
    obtain ⟨d', hd', hfollows⟩ := hserves
    cases h.symm.trans hd'
    exact hfollows.bind fun _ => follows_pure _

/-- Otherwise nothing is done. -/
theorem indexPage_of_none {x : Index} {op : UInt8} (h : Page.index x op = none) :
    (indexPage x op : Guarded β ω Bool) = pure false := by
  have hfits := IndexArm.fits_first op
  unfold indexPage
  cases harm : Arm.first IndexArm.arms op with
  | none => rfl
  | some arm =>
    rw [harm] at hfits
    have hserves : arm.Serves β ω x op := IndexArm.serves_of_fits (of_decide_eq_true hfits)
    obtain ⟨d, hd, _⟩ := hserves
    cases h.symm.trans hd

end Guarded

end Z80
