import Z80.Proofs.DecimalAdjust
import Z80.Proofs.Pages

/-!
# Flags that an instruction leaves alone

Each instruction reports through some of the flags and keeps the others. Bits 3 and 5 of F are
reported through by none: only an instruction that brings in a whole flag byte changes them.

Main definition:
- `Instruction.flags`: the flags that an instruction may change.

Main statements: `keeps_flag_perform` for performing an instruction, and `flag_frame` for
whole instructions and for sessions.
-/

namespace Z80

namespace Instruction

/-- The flags that an instruction may change. -/
def flags : Instruction → List Flag
  | .pop .af | .exchangeAF => Flag.all
  | .alu _ _ | .neg | .adcWord _ | .sbcWord _ | .shift _ _ _ => [.s, .z, .h, .p, .n, .c]
  | .daa => [.s, .z, .h, .p, .c]
  | .inc _ | .dec _ | .inC _ | .loadAFrom _ | .rrd | .rld | .block .compare _ _ =>
    [.s, .z, .h, .p, .n]
  | .addWord _ _ | .rotateA _ | .scf | .ccf => [.h, .n, .c]
  | .cpl => [.h, .n]
  | .bit _ _ => [.z, .h, .n]
  | .block .load _ _ => [.h, .p, .n]
  | .block .input _ _ | .block .output _ _ => [.z, .n]
  | _ => []

end Instruction

/-! ## Flags of a computed byte -/

section Bytes

variable {g : Flag} (a b v f : UInt8)

/-- Replacing a flag of a list changes no flag outside the list. -/
theorem isSet_put_of_notMem {gs : List Flag} (hg : g ∉ gs) {k : Flag} (hk : k ∈ gs) (x : Bool) :
    g.isSet (k.put x f) = g.isSet f := by
  have hne : g ≠ k := by
    rintro rfl
    exact hg hk
  rw [Flag.isSet_put, if_neg hne]

theorem isSet_resultFlags {gs : List Flag} (hg : g ∉ gs) (hs : .s ∈ gs) (hz : .z ∈ gs)
    (hp : .p ∈ gs) : g.isSet (resultFlags v f) = g.isSet f := by
  rw [resultFlags, isSet_put_of_notMem _ hg hp, isSet_put_of_notMem _ hg hz,
    isSet_put_of_notMem _ hg hs]

theorem isSet_transferFlags (hg : g ∉ [Flag.s, .z, .h, .p, .n]) :
    g.isSet (transferFlags v f) = g.isSet f := by
  simp [transferFlags, isSet_put_of_notMem _ hg, isSet_resultFlags _ _ hg]

section Sums

variable {w : Nat} (s : Sum w) (subtracted : Bool)

theorem isSet_flags_sum (hg : g ∉ [Flag.s, .z, .h, .p, .n, .c]) :
    g.isSet (s.flags subtracted f) = g.isSet f := by
  simp [Sum.flags, isSet_put_of_notMem _ hg]

theorem isSet_carryFlags (hg : g ∉ [Flag.h, .n, .c]) : g.isSet (s.carryFlags f) = g.isSet f := by
  simp [Sum.carryFlags, isSet_put_of_notMem _ hg]

/-- A carry that is put back afterwards is as good as kept. -/
theorem isSet_countFlags (hg : g ∉ [Flag.s, .z, .h, .p, .n]) :
    g.isSet (s.countFlags subtracted f) = g.isSet f := by
  rw [Sum.countFlags, Flag.isSet_put]
  split
  · next hc => rw [hc]
  · next hc => exact isSet_flags_sum f s subtracted (by simpa [hc] using hg)

end Sums

theorem isSet_incByte (hg : g ∉ [Flag.s, .z, .h, .p, .n]) :
    g.isSet (incByte v f).flags = g.isSet f :=
  isSet_countFlags f _ false hg

theorem isSet_decByte (hg : g ∉ [Flag.s, .z, .h, .p, .n]) :
    g.isSet (decByte v f).flags = g.isSet f :=
  isSet_countFlags f _ true hg

theorem isSet_apply_alu (op : AluOp) (hg : g ∉ [Flag.s, .z, .h, .p, .n, .c]) :
    g.isSet (op.apply a b f).flags = g.isSet f := by
  cases op with
  | add | adc | sub | sbc | cp => exact isSet_flags_sum f _ _ hg
  | and | xor | or =>
    simp [AluOp.apply, logicFlags, isSet_put_of_notMem _ hg, isSet_resultFlags _ _ hg]

theorem isSet_decimalAdjust (hg : g ∉ [Flag.s, .z, .h, .p, .c]) :
    g.isSet (decimalAdjust a f).flags = g.isSet f := by
  have hh : g ≠ .h := by
    rintro rfl
    exact hg (by decide)
  have hresult : g.isSet (resultFlags (adjusted a f).1.toUInt8 (adjusted a f).2) = g.isSet f := by
    rw [isSet_resultFlags _ _ hg (by decide) (by decide) (by decide), isSet_adjusted hh]
  rw [decimalAdjust_eq]
  split
  · exact (isSet_put_of_notMem _ hg (by decide) true).trans hresult
  · exact hresult

theorem isSet_apply_shift (op : ShiftOp) (hg : g ∉ [Flag.s, .z, .h, .p, .n, .c]) :
    g.isSet (op.apply v f).flags = g.isSet f := by
  simp [ShiftOp.apply, isSet_put_of_notMem _ hg, isSet_resultFlags _ _ hg]

theorem isSet_accumulate (op : Rotation) (hg : g ∉ [Flag.h, .n, .c]) :
    g.isSet (op.accumulate v f).flags = g.isSet f := by
  simp [Rotation.accumulate, isSet_put_of_notMem _ hg]

theorem isSet_bitFlags (n : Fin 8) (hg : g ∉ [Flag.z, .h, .n]) :
    g.isSet (bitFlags n v f) = g.isSet f := by
  simp [bitFlags, isSet_put_of_notMem _ hg]

end Bytes

/-! ## Flags of the register file -/

namespace Registers

variable (r : Registers)

@[simp] theorem f_setByte (x : Reg8) (v : UInt8) : (r.setByte x v).f = r.f := by
  cases x with
  | upper x | lower x => cases x <;> rfl
  | _ => rfl

theorem f_setWord {x : Reg16} (hx : x ≠ .af) (v : UInt16) : (r.setWord x v).f = r.f := by
  cases x with
  | af => exact absurd rfl hx
  | index x => cases x <;> rfl
  | _ => rfl

theorem f_setSpecial (x : Special) (v : UInt8) : (r.setSpecial x v).f = r.f := by
  cases x <;> rfl

section Rounds

variable {g : Flag} (dir : Direction) (v : UInt8)

theorem isSet_afterCopy (hg : g ∉ [Flag.h, .p, .n]) :
    g.isSet (r.afterCopy dir).f = g.isSet r.f := by
  simp [afterCopy, isSet_put_of_notMem _ hg, setBC, setDE, setHL]

theorem isSet_afterCompare (hg : g ∉ [Flag.s, .z, .h, .p, .n]) :
    g.isSet (r.afterCompare dir v).f = g.isSet r.f :=
  (isSet_put_of_notMem _ hg (by decide) _).trans (isSet_countFlags r.f _ true hg)

theorem isSet_afterPort (hg : g ∉ [Flag.z, .n]) :
    g.isSet (r.afterPort dir).f = g.isSet r.f := by
  simp [afterPort, isSet_put_of_notMem _ hg, setHL]

end Rounds

end Registers

namespace Instruction

/-- No instruction reports through bit 3 or bit 5. -/
theorem notMem_flags {i : Instruction} (hpop : i ≠ .pop .af) (hex : i ≠ .exchangeAF) {g : Flag}
    (hg : g = .x ∨ g = .y) : g ∉ i.flags := by
  unfold flags
  split <;> first | contradiction | (rcases hg with rfl | rfl <;> decide)

end Instruction

/-! ## Performing an instruction -/

namespace Exec

variable {β ω : Type} [Bus β] [Observer ω] {g : Flag}

/-- Replacing an operand leaves the flags that come with its new value. -/
theorem f_update (p : Place) (copy : Option Reg8) (f : UInt8 → UInt8 → Outcome UInt8)
    (m : Machine β ω) :
    (update p copy f m).2.cpu.regs.f = (f (readPlace p m).1 m.cpu.regs.f).flags := by
  cases copy with
  | none => cases p <;> rfl
  | some x => cases p <;> exact Registers.f_setByte _ x _

theorem keeps_flag_update {f : UInt8 → UInt8 → Outcome UInt8}
    (h : ∀ v flags, g.isSet (f v flags).flags = g.isSet flags) (p : Place) (copy : Option Reg8) :
    Keeps (fun r => g.isSet r.f) (update p copy f : Exec β ω Unit) := by
  intro m
  show g.isSet (update p copy f m).2.cpu.regs.f = g.isSet m.cpu.regs.f
  rw [f_update, h]

theorem keeps_flag_blockRound (kind : BlockKind) (dir : Direction) (repeats : Bool)
    (hg : g ∉ (Instruction.block kind dir repeats).flags) :
    Keeps (fun r => g.isSet r.f) (blockRound kind dir : Exec β ω Unit) := by
  refine .bind .regs fun _ => ?_
  cases kind with
  | load =>
    exact (Keeps.read _).bind fun _ => (Keeps.write _ _).bind fun _ =>
      .modifyRegs fun r => r.isSet_afterCopy dir hg
  | compare =>
    exact (Keeps.read _).bind fun v => .modifyRegs fun r => r.isSet_afterCompare dir v hg
  | input =>
    exact (Keeps.input _).bind fun _ => (Keeps.write _ _).bind fun _ =>
      .modifyRegs fun r => r.isSet_afterPort dir hg
  | output =>
    exact (Keeps.read _).bind fun _ => (Keeps.output _ _).bind fun _ =>
      .modifyRegs fun r => r.isSet_afterPort dir hg

/-- An instruction keeps every flag that is not among its own. -/
theorem keeps_flag_perform {i : Instruction} (haf : i.writesAF = false) (hg : g ∉ i.flags) :
    Keeps (fun r => g.isSet r.f) (perform i : Exec β ω Unit) := by
  have hsp : ∀ (r : Registers) v, g.isSet { r with sp := v }.f = g.isSet r.f := fun _ _ => rfl
  have hpc : ∀ (r : Registers) v, g.isSet { r with pc := v }.f = g.isSet r.f := fun _ _ => rfl
  have hbyte : ∀ x v (r : Registers), g.isSet (r.setByte x v).f = g.isSet r.f := by
    intro x v r
    rw [Registers.f_setByte]
  have hword : ∀ x v (r : Registers), x ≠ .af → g.isSet (r.setWord x v).f = g.isSet r.f := by
    intro x v r hx
    rw [Registers.f_setWord r hx]
  cases i with
  | nop => exact .pure ()
  | halt => exact fun _ => rfl
  | load dst src => exact (Keeps.readSource src).bind fun v => .writePlace dst v (hbyte · v)
  | loadImm dst nn => exact fun m => hword dst nn m.cpu.regs (by rintro rfl; cases haf)
  | loadWord dst nn =>
    exact (Keeps.readWord nn).bind fun v m => hword dst v m.cpu.regs (by rintro rfl; cases haf)
  | storeWord nn src => exact .bind .regs fun _ => .writeWord nn _
  | loadSP src => exact fun _ => rfl
  | loadAFrom x =>
    exact fun m => (isSet_put_of_notMem _ hg (by simp [Instruction.flags]) _).trans
      (isSet_transferFlags _ m.cpu.regs.f hg)
  | loadFromA x => exact fun m => congrArg g.isSet (m.cpu.regs.f_setSpecial x _)
  | push src => exact .bind .regs fun _ => .push hsp _
  | pop dst =>
    by_cases hdst : dst = .af
    · subst hdst
      exact absurd (Flag.mem_all g) hg
    · exact (Keeps.pop hsp).bind fun v m => hword dst v m.cpu.regs hdst
  | exchangeAF => exact absurd (Flag.mem_all g) hg
  | exchangeBanks => exact fun _ => rfl
  | exchangeDEHL => exact fun _ => rfl
  | exchangeStack x =>
    exact .bind .regs fun _ => (Keeps.readWord _).bind fun v =>
      (Keeps.writeWord _ _).bind fun _ m => hword x v m.cpu.regs (by rintro rfl; cases haf)
  -- from here on most instructions put flags of their own class, and `hg` is about that class
  | alu op src =>
    exact (Keeps.readSource src).bind fun v m => isSet_apply_alu m.cpu.regs.a v m.cpu.regs.f op hg
  | inc p => exact keeps_flag_update (fun v f => isSet_incByte v f hg) p none
  | dec p => exact keeps_flag_update (fun v f => isSet_decByte v f hg) p none
  | incWord x | decWord x => exact fun m => hword x _ m.cpu.regs (by rintro rfl; cases haf)
  | addWord dst src => exact fun m => isSet_carryFlags m.cpu.regs.f _ hg
  | adcWord src | sbcWord src => exact fun m => isSet_flags_sum m.cpu.regs.f _ _ hg
  | daa => exact fun m => isSet_decimalAdjust m.cpu.regs.a m.cpu.regs.f hg
  | cpl =>
    exact fun m => (isSet_put_of_notMem _ hg (by decide) true).trans
      (isSet_put_of_notMem m.cpu.regs.f hg (by decide) true)
  | neg => exact fun m => isSet_flags_sum m.cpu.regs.f _ _ hg
  | ccf | scf =>
    exact fun m => (isSet_put_of_notMem _ hg (by decide) _).trans <|
      (isSet_put_of_notMem _ hg (by decide) _).trans <|
      isSet_put_of_notMem m.cpu.regs.f hg (by decide) _
  | rotateA op => exact fun m => isSet_accumulate m.cpu.regs.a m.cpu.regs.f op hg
  | shift op p copy => exact keeps_flag_update (fun v f => isSet_apply_shift v f op hg) p copy
  | bit n p => exact (Keeps.readPlace p).bind fun v m => isSet_bitFlags v m.cpu.regs.f n hg
  | res n p copy | set n p copy => exact keeps_flag_update (fun _ _ => rfl) p copy
  | rrd | rld =>
    exact .bind .regs fun _ => (Keeps.read _).bind fun _ => (Keeps.write _ _).bind fun _ m =>
      isSet_transferFlags _ m.cpu.regs.f hg
  | jump cc nn => exact .bind .regs fun _ => .ite (fun _ => rfl) (.pure ())
  | jumpTo x => exact fun _ => rfl
  | jumpRelative cc d => exact .bind .regs fun _ => .ite (fun _ => rfl) (.pure ())
  | djnz d =>
    exact .bind (fun _ => rfl) fun _ => .bind .regs fun _ => .ite (fun _ => rfl) (.pure ())
  | call cc nn => exact .bind .regs fun _ => .ite (.call hsp hpc nn) (.pure ())
  | ret cc => exact .bind .regs fun _ => .ite (.ret hsp hpc) (.pure ())
  | retn => exact .bind (fun _ => rfl) fun _ => .ret hsp hpc
  | reti => exact .ret hsp hpc
  | rst target => exact .call hsp hpc target
  | inA n => exact .bind .regs fun _ => (Keeps.input _).bind fun _ _ => rfl
  | outA n => exact .bind .regs fun _ => .output _ _
  | inC dst =>
    exact .bind .regs fun _ => (Keeps.input _).bind fun v m => isSet_transferFlags v m.cpu.regs.f hg
  | outC src => exact .bind .regs fun _ => .output _ _
  | di | ei => exact fun _ => rfl
  | im mode => exact fun _ => rfl
  | block kind dir repeats => exact .block (keeps_flag_blockRound kind dir repeats hg) repeats

/-- A flag outlasts a session of instructions that do not have it in their classes. -/
theorem flag_session {requests : List Request} {m : Machine β ω} (hreset : .reset ∉ requests)
    (h : ∀ i ∈ executed requests m, g ∉ i.flags) :
    g.isSet (session requests m).2.cpu.regs.f = g.isSet m.cpu.regs.f := by
  let bit (r : Registers) : Bool := g.isSet r.f
  have hkept : ∀ i ∈ executed requests m, Keeps bit (perform i : Exec β ω Unit) := by
    intro i hi
    exact keeps_flag_perform (Instruction.onEveryPage_writesAF.executed i hi) (h i hi)
  exact view_session (fun _ _ => rfl) (fun _ _ => rfl) hreset hkept

/-- An instruction changes no flag but those of its class, and bytes without a meaning change
none. So bits 3 and 5 of F outlast every session that neither resets nor brings in a flag byte. -/
theorem flag_frame :
    (∀ m : Machine β ω,
      match upcoming m with
      | some i => ∀ g, g ∉ i.flags → g.isSet (runOne m).2.cpu.regs.f = g.isSet m.cpu.regs.f
      | none => (runOne m).2.cpu.regs.f = m.cpu.regs.f) ∧
    ∀ (requests : List Request) (m : Machine β ω), .reset ∉ requests →
      (∀ i ∈ executed requests m, i ≠ .pop .af ∧ i ≠ .exchangeAF) →
      ∀ g : Flag, g = .x ∨ g = .y →
        g.isSet (session requests m).2.cpu.regs.f = g.isSet m.cpu.regs.f := by
  constructor
  · intro m
    split
    · next i hi =>
      intro g hg
      have haf : i.writesAF = false := Instruction.onEveryPage_writesAF.upcoming hi
      have hperform := keeps_flag_perform haf hg (fetched m)
      rw [regs_fetched] at hperform
      rw [runOne_of_upcoming hi]
      exact hperform
    · next hi =>
      rw [runOne_of_upcoming_none hi, regs_fetched]
  · intro requests m hreset hplain g hg
    apply flag_session hreset
    intro i hi
    obtain ⟨hpop, hex⟩ := hplain i hi
    exact Instruction.notMem_flags hpop hex hg

/-- XOR A keeps bit 5 of the flag byte. -/
theorem flag_frame_xorA :
    let bus : Scripted Board := { inner := {}, script := [(0, 0xAF)] }
    let m : Machine (Scripted Board) Unit := ⟨{ regs := { f := 0x21 } }, bus, ()⟩
    .reset ∉ [Request.step 1] ∧
      executed [.step 1] m = [.alu .xor (.place (.reg .a))] ∧
      Flag.y.isSet (session [.step 1] m).2.cpu.regs.f = true := by
  intro bus m
  have hexecuted : executed [.step 1] m = [.alu .xor (.place (.reg .a))] := by
    decide +revert
  have hplain : ∀ i ∈ executed [.step 1] m, i ≠ .pop .af ∧ i ≠ .exchangeAF := by
    rw [hexecuted]
    decide
  have hreset : .reset ∉ [Request.step 1] := by
    decide
  refine ⟨hreset, hexecuted, ?_⟩
  rw [flag_frame.2 [.step 1] m hreset hplain .y (.inr rfl)]
  decide +revert

end Exec

end Z80
