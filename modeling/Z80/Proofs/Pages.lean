import Z80.Proofs.Upcoming

/-!
# What the pages leave out

Some instructions could be performed but have no opcode. AF is a pair for PUSH and POP alone,
and of the interrupt modes there are three.

Main definitions:
- `Instruction.writesAF`: an instruction writes to AF as it would to another pair.
- `Instruction.spellable`: an instruction is none of those that no opcode spells.

Main statement: `onEveryPage_spellable` goes through the pages once, so that a property of
spellable instructions is one of every instruction that can be looked up.
-/

namespace Z80

theorem Decoding.All.mono {P Q : Instruction → Prop} (h : ∀ i, P i → Q i) {d : Decoding}
    (hd : d.All P) : d.All Q := by
  induction d with
  | done i => exact h i hd
  | operand next ih => exact fun v => ih v (hd v)

theorem OnEveryPage.mono {P Q : Instruction → Prop} (h : ∀ i, P i → Q i) (hP : OnEveryPage P) :
    OnEveryPage Q where
  nop := h _ hP.nop
  base hop := (hP.base hop).mono h
  cb op := h _ (hP.cb op)
  ed hop := (hP.ed hop).mono h
  index hop := (hP.index hop).mono h

namespace Instruction

/-- Would the instruction write to AF as it does to other pairs? POP is not counted. -/
def writesAF : Instruction → Bool
  | .loadImm x _ | .loadWord x _ | .exchangeStack x | .incWord x | .decWord x
  | .addWord x _ => x == .af
  | _ => false

/-- Is the instruction none of those that no opcode spells, for want of a code for AF or for
a fourth interrupt mode? -/
def spellable : Instruction → Bool
  | .im mode => [0, 1, 2].contains mode
  | i => !i.writesAF

/-! ## Page by page -/

section Pages

variable {op : UInt8} {d : Decoding}

-- AF has no code among the pairs, only among those of PUSH and POP
theorem select_ne_af (n : Fin 4) : Reg16.select n ≠ .af := by
  revert n
  decide

theorem spellable_bitOperation (op : UInt8) (p : Place) (copy : Option Reg8) :
    (Page.bitOperation op p copy).spellable = true := by
  unfold Page.bitOperation
  split <;> rfl

theorem all_spellable_quarter0 (op : UInt8) : (Page.quarter0 op).All (·.spellable = true) := by
  unfold Page.quarter0
  split <;> (try split) <;>
    simp [Decoding.All, Decoding.byte, Decoding.word, spellable, writesAF, select_ne_af]

theorem all_spellable_base (h : Lead.ofByte op = .plain d) : d.All (·.spellable = true) := by
  unfold Lead.ofByte at h
  split at h
  · cases h
    exact all_spellable_quarter0 op
  · cases h
    unfold Page.quarter1
    split <;> rfl
  · cases h
    rfl
  · unfold Page.quarter3 at h
    split at h <;> (try split at h) <;> cases h <;>
      simp [Decoding.All, Decoding.byte, Decoding.word, spellable, writesAF]

theorem all_spellable_edControl (h : Page.edControl op = some d) :
    d.All (·.spellable = true) := by
  unfold Page.edControl at h
  split at h
  · obtain ⟨r, -, rfl⟩ := Option.map_eq_some_iff.mp h
    rfl
  · obtain ⟨r, -, rfl⟩ := Option.map_eq_some_iff.mp h
    rfl
  · cases h
    split <;> rfl
  · cases h
    split <;> simp [Decoding.All, Decoding.word, spellable, writesAF, select_ne_af]
  all_goals
    split at h <;> cases h <;> rfl

theorem all_spellable_ed (h : Page.ed op = some d) : d.All (·.spellable = true) := by
  unfold Page.ed at h
  split at h
  · exact all_spellable_edControl h
  · split at h
    · obtain ⟨kind, -, rfl⟩ := Option.map_eq_some_iff.mp h
      rfl
    · cases h

theorem all_spellable_index {x : Index} (h : Page.index x op = some d) :
    d.All (·.spellable = true) := by
  unfold Page.index at h
  split at h
  · unfold Page.indexQuarter0 at h
    split at h <;> (try split at h) <;> cases h <;>
      simp [Decoding.All, Page.displaced, Decoding.byte, Decoding.word, spellable, writesAF]
  · simp only [Page.indexQuarter1] at h
    split at h
    · cases h
    · cases h
      exact fun _ => rfl
    · cases h
      exact fun _ => rfl
    · split at h
      · obtain ⟨dst, -, h⟩ := Option.bind_eq_some_iff.mp h
        obtain ⟨src, -, h⟩ := Option.bind_eq_some_iff.mp h
        cases h
        rfl
      · cases h
  · unfold Page.indexQuarter2 at h
    split at h <;> cases h <;>
      simp [Decoding.All, Page.displaced, Decoding.byte, spellable, writesAF]
  · unfold Page.indexQuarter3 at h
    split at h
    · cases h
      exact fun _ _ => spellable_bitOperation _ _ _
    all_goals
      cases h <;> rfl

end Pages

/-- Every instruction that can be looked up has an opcode, so it is none of those without. -/
theorem onEveryPage_spellable : OnEveryPage (·.spellable = true) where
  nop := rfl
  base := all_spellable_base
  cb op := spellable_bitOperation op _ none
  ed := all_spellable_ed
  index := all_spellable_index

theorem writesAF_of_spellable {i : Instruction} (h : i.spellable = true) : i.writesAF = false := by
  cases i with
  | im mode => rfl
  | _ => simpa only [spellable, Bool.not_eq_true'] using h

/-- No opcode makes AF the operand of such an instruction. -/
theorem onEveryPage_writesAF : OnEveryPage (·.writesAF = false) :=
  onEveryPage_spellable.mono fun _ => writesAF_of_spellable

end Instruction

end Z80
