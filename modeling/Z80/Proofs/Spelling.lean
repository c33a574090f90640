import Z80.Proofs.IndexFallback
import Z80.Proofs.Upcoming

/-!
# Instructions in memory

On a board the bytes at the program counter settle the instruction that comes next, how
many of them it takes, and so the machine that goes on to perform it.

Main definitions:
- `Decoding.spelled`: the instruction that a decoding ends in, for given bytes.
- `spell`: the instruction that bytes come to, with its length.
- `Exec.Spells`: the instruction at the program counter, with its length.

Main statements: `spell_ahead` says that what a board takes in is what its bytes spell;
`spells_plain`, `spells_ed` and `spells_index` are the cases of the base page, of the page of
extensions and of the index pages.
-/

namespace Z80

/-- The instruction that the bytes from place `k` on complete, and the place behind it. -/
def Decoding.spelled : Decoding → (Nat → UInt8) → Nat → Instruction × Nat
  | .done i, _, k => (i, k)
  | .operand next, byte, k => (next (byte k)).spelled byte (k + 1)

/-- What bytes come to: the instruction, if they have a meaning, how many of them it takes, and
how many of these are opcodes or lead to one. -/
structure Spelled where
  instruction : Option Instruction
  bytes : Nat
  opcodes : Nat

/-- The instruction that a decoding ends in, whose operand bytes begin at place `k`. -/
def Spelled.complete (d : Decoding) (byte : Nat → UInt8) (k opcodes : Nat) : Spelled :=
  ⟨some (d.spelled byte k).1, (d.spelled byte k).2, opcodes⟩

/-- What the bytes come to from place `k` on, where the ones before are without effect. -/
def spellAt (byte : Nat → UInt8) (k : Nat) : Spelled :=
  match Lead.ofByte (byte k) with
  | .plain d => .complete d byte (k + 1) (k + 1)
  | .cb => ⟨some (Page.cb (byte (k + 1))), k + 2, k + 2⟩
  | .ed =>
    match Page.ed (byte (k + 1)) with
    | some d => .complete d byte (k + 2) (k + 2)
    | none => ⟨none, k + 2, k + 2⟩
  | .index _ => ⟨some .nop, k + 1, k + 1⟩

/-- What the bytes come to. In front of another one, an index byte is all of an instruction; in
front of an opcode that its page lacks, it is without effect. -/
def spell (byte : Nat → UInt8) : Spelled :=
  match Lead.ofByte (byte 0) with
  | .index x =>
    if isIndexByte (byte 1) then ⟨some .nop, 1, 1⟩
    else
      match Page.index x (byte 1) with
      | some d => .complete d byte 2 2
      | none => spellAt byte 1
  | _ => spellAt byte 0

section Spell

variable {byte : Nat → UInt8} {k : Nat} {x : Index} {d : Decoding}

theorem spellAt_plain (h : Lead.ofByte (byte k) = .plain d) :
    spellAt byte k = .complete d byte (k + 1) (k + 1) := by
  rw [spellAt, h]

theorem spellAt_ed (hed : byte k = 0xED) (h : Page.ed (byte (k + 1)) = some d) :
    spellAt byte k = .complete d byte (k + 2) (k + 2) := by
  rw [spellAt, hed, Lead.ofByte_ed]
  simp only [h]

theorem spell_of_not_index (h : isIndexByte (byte 0) = false) : spell byte = spellAt byte 0 := by
  unfold spell
  split
  · next x hx => exact absurd hx (Lead.ofByte_ne_index h x)
  · rfl

theorem spell_superseded (hlead : byte 0 = x.lead) (h : isIndexByte (byte 1) = true) :
    spell byte = ⟨some .nop, 1, 1⟩ := by
  simp only [spell, hlead, Lead.ofByte_lead, h, if_true]

theorem spell_of_index (hlead : byte 0 = x.lead) (h : isIndexByte (byte 1) = false) :
    spell byte =
      match Page.index x (byte 1) with
      | some d => .complete d byte 2 2
      | none => spellAt byte 1 := by
  simp only [spell, hlead, Lead.ofByte_lead, h, Bool.false_eq_true, if_false]

end Spell

/-- The byte so many places behind the program counter. -/
def Machine.ahead {ω : Type} (m : Machine Board ω) (k : Nat) : UInt8 :=
  m.bus.peek (m.cpu.regs.pc + UInt16.ofNat k)

theorem exists_lead_of_isIndexByte {v : UInt8} (h : isIndexByte v = true) :
    ∃ x : Index, v = x.lead := by
  rw [isIndexByte, Bool.or_eq_true, beq_iff_eq, beq_iff_eq] at h
  rcases h with rfl | rfl
  · exact ⟨.ix, rfl⟩
  · exact ⟨.iy, rfl⟩

/-- The index bytes are opcodes as well, but lead to a page and have no decoding of their own. -/
theorem isIndexByte_of_plain {op : UInt8} {d : Decoding} (h : Lead.ofByte op = .plain d) :
    isIndexByte op = false := by
  by_contra hop
  rw [Bool.not_eq_false] at hop
  obtain ⟨x, rfl⟩ := exists_lead_of_isIndexByte hop
  rw [Lead.ofByte_lead] at h
  cases h

/-- The index pages have no entry for the index bytes. -/
theorem isIndexByte_of_index {x : Index} {op : UInt8} {d : Decoding}
    (h : Page.index x op = some d) : isIndexByte op = false := by
  by_contra hop
  rw [Bool.not_eq_false, isIndexByte, Bool.or_eq_true, beq_iff_eq, beq_iff_eq] at hop
  rcases hop with rfl | rfl <;> cases h

namespace Exec

variable {ω : Type} [Observer ω] {m₀ m : Machine Board ω} {bytes opcodes : Nat}

/-- The operand bytes of an instruction come from memory. -/
theorem Fetching.complete (h : Fetching m₀ m bytes opcodes) (d : Decoding) :
    (complete d m).1 = (d.spelled m₀.ahead bytes).1 ∧
      Fetching m₀ (complete d m).2 (d.spelled m₀.ahead bytes).2 opcodes := by
  induction d generalizing m bytes with
  | done i => exact ⟨rfl, h⟩
  | operand next ih =>
    rw [Exec.complete, bind_apply, h.fetchByte_fst]
    exact ih _ h.fetchByte

/-- A look-up finds what is spelled, and has taken in the bytes of that. -/
structure Finds (m₀ : Machine Board ω) (out : Option Instruction × Machine Board ω)
    (s : Spelled) : Prop where
  instruction : out.1 = s.instruction
  fetching : Fetching m₀ out.2 s.bytes s.opcodes

theorem Fetching.completeOr_some (h : Fetching m₀ m bytes opcodes) (d : Decoding)
    (otherwise : Exec Board ω (Option Instruction)) :
    Finds m₀ (completeOr (some d) otherwise m) (.complete d m₀.ahead bytes opcodes) := by
  obtain ⟨hi, hfetch⟩ := h.complete d
  exact ⟨congrArg some hi, hfetch⟩

/-- An opcode that is no index byte is looked up at once. -/
theorem Fetching.finds_dispatch {k : Nat} (h : Fetching m₀ m (k + 1) (k + 1))
    (hop : isIndexByte (m₀.ahead k) = false) :
    Finds m₀ (Exec.dispatch (m₀.ahead k) m) (spellAt m₀.ahead k) := by
  have hnext : (Exec.fetchOpcode m).1 = m₀.ahead (k + 1) := h.fetchOpcode_fst
  unfold Exec.dispatch spellAt
  cases hlead : Lead.ofByte (m₀.ahead k) with
  | plain d =>
    rw [dispatchWithin_of_plain hlead]
    exact h.completeOr_some d (pure none)
  | cb =>
    rw [dispatchWithin_of_cb hlead, bind_apply, hnext]
    exact ⟨rfl, h.fetchOpcode⟩
  | ed =>
    rw [dispatchWithin_of_ed hlead, bind_apply, hnext]
    cases Page.ed (m₀.ahead (k + 1)) with
    | some d => exact h.fetchOpcode.completeOr_some d (pure none)
    | none => exact ⟨rfl, h.fetchOpcode⟩
  | index x => exact absurd hlead (Lead.ofByte_ne_index hop x)

omit [Observer ω] in
theorem ahead_zero (m : Machine Board ω) : m.ahead 0 = m.bus.peek m.cpu.regs.pc :=
  congrArg m.bus.peek (UInt16.add_zero _)

/-- On a board the instruction that is taken in is the one that the bytes at the program
counter spell. -/
theorem spell_ahead (m : Machine Board ω) : Finds m (upcoming m, fetched m) (spell m.ahead) := by
  have hfetch := fetching_takeFirst m
  have hfirst : (takeFirst m).1 = m.ahead 0 := (takeFirst_fst m).trans (ahead_zero m).symm
  show Finds m (Exec.dispatch (takeFirst m).1 (takeFirst m).2) _
  rw [hfirst]
  cases hindex : isIndexByte (m.ahead 0) with
  | false =>
    rw [spell_of_not_index hindex]
    exact hfetch.finds_dispatch (k := 0) hindex
  | true =>
    obtain ⟨x, hx⟩ := exists_lead_of_isIndexByte hindex
    rw [hx]
    cases hahead : isIndexByte (m.ahead 1) with
    | true =>
      have hpc : (takeFirst m).2.cpu.regs.pc = m.cpu.regs.pc + 1 := congrArg (·.pc) hfetch.regs
      rw [spell_superseded hx hahead, dispatch_superseded x hpc hahead]
      exact ⟨rfl, hfetch.read _⟩
    | false =>
      obtain ⟨s, hs, hdispatch⟩ := dispatch_lead (x := x) hfetch hahead
      have hnext : m.bus.peek (m.cpu.regs.pc + 1) = m.ahead 1 := rfl
      rw [spell_of_index hx hahead, hdispatch, hnext]
      cases Page.index x (m.ahead 1) with
      | some d => exact hs.completeOr_some d _
      | none => exact hs.finds_dispatch hahead

/-- The bytes at the program counter spell the instruction, so many bytes long and so many of
them opcodes. -/
structure Spells (m : Machine Board ω) (i : Instruction) (bytes opcodes : Nat) : Prop where
  upcoming : upcoming m = some i
  fetched : Fetching m (fetched m) bytes opcodes

theorem spells_of_spell {i : Instruction} (h : spell m.ahead = ⟨some i, bytes, opcodes⟩) :
    Spells m i bytes opcodes := by
  have hfinds := spell_ahead m
  rw [h] at hfinds
  exact ⟨hfinds.instruction, hfinds.fetching⟩

/-- An opcode of the base page tells the instruction. -/
theorem spells_plain {d : Decoding} (hop : Lead.ofByte (m.ahead 0) = .plain d) :
    Spells m (d.spelled m.ahead 1).1 (d.spelled m.ahead 1).2 1 := by
  have hindex : isIndexByte (m.ahead 0) = false := by
    by_contra h
    obtain ⟨x, hx⟩ := exists_lead_of_isIndexByte (Bool.not_eq_false _ ▸ h)
    rw [hx, Lead.ofByte_lead] at hop
    cases hop
  apply spells_of_spell
  rw [spell_of_not_index hindex, spellAt_plain hop]
  rfl

/-- Behind ED the second byte tells the instruction. -/
theorem spells_ed {d : Decoding} (hed : m.bus.peek m.cpu.regs.pc = 0xED)
    (hop : Page.ed (m.bus.peek (m.cpu.regs.pc + 1)) = some d) :
    Spells m (d.spelled m.ahead 2).1 (d.spelled m.ahead 2).2 2 := by
  have hfirst : m.ahead 0 = 0xED := (ahead_zero m).trans hed
  have hentry : Page.ed (m.ahead (0 + 1)) = some d := hop
  apply spells_of_spell
  rw [spell_of_not_index (by rw [hfirst]; rfl), spellAt_ed hfirst hentry]
  rfl

/-- Behind an index byte the second byte tells the instruction, if the index page has it. -/
theorem spells_index {x : Index} {d : Decoding} (hlead : m.bus.peek m.cpu.regs.pc = x.lead)
    (hop : Page.index x (m.bus.peek (m.cpu.regs.pc + 1)) = some d) :
    Spells m (d.spelled m.ahead 2).1 (d.spelled m.ahead 2).2 2 := by
  have hentry : Page.index x (m.ahead 1) = some d := hop
  apply spells_of_spell
  rw [spell_of_index ((ahead_zero m).trans hlead) (isIndexByte_of_index hentry), hentry]
  rfl

end Exec

end Z80
