import Z80.Proofs.FetchOrder

/-!
# What bytes mean

The bytes that an instruction has taken in settle which one it is, on any bus. A bus that changes
its answers can present any number of index bytes before the opcode, but the opcode is looked up
behind the last of them.

Main definitions:
- `Decoding.Ends`: operand bytes end a decoding in an instruction.
- `Means`: bytes mean an instruction.
- `Opens`: bytes begin with a code, behind index bytes if there are any.
- `Exec.Gathered`: these bytes have been taken in, so many of them opcodes.

Main statements: `exists_means_dispatchWithin` follows the look-up of an instruction, and
`means_upcoming` says that the bytes taken in mean the instruction at the program counter.
-/

namespace Z80

/-- With these operand bytes the decoding ends in the instruction. -/
inductive Decoding.Ends : Decoding → List UInt8 → Instruction → Prop
  | done (i : Instruction) : Ends (.done i) [] i
  | operand {next : UInt8 → Decoding} {v : UInt8} {bytes : List UInt8} {i : Instruction}
    (h : Ends (next v) bytes i) : Ends (.operand next) (v :: bytes) i

theorem Decoding.All.ends {P : Instruction → Prop} {d : Decoding} {bytes : List UInt8}
    {i : Instruction} (h : d.All P) (hends : d.Ends bytes i) : P i := by
  induction hends with
  | done i => exact h
  | operand _ ih => exact ih (h _)

/-- The bytes mean the instruction. An index byte means one by itself where another has been seen
behind it, and is without effect before an opcode that its page lacks. -/
inductive Means : List UInt8 → Instruction → Prop
  | plain {op : UInt8} {d : Decoding} {bytes : List UInt8} {i : Instruction}
    (hop : Lead.ofByte op = .plain d) (h : d.Ends bytes i) : Means (op :: bytes) i
  | cb (op : UInt8) : Means [0xCB, op] (Page.cb op)
  | ed {op : UInt8} {d : Decoding} {bytes : List UInt8} {i : Instruction}
    (hop : Page.ed op = some d) (h : d.Ends bytes i) : Means (0xED :: op :: bytes) i
  | index {x : Index} {op : UInt8} {d : Decoding} {bytes : List UInt8} {i : Instruction}
    (hop : Page.index x op = some d) (h : d.Ends bytes i) : Means (x.lead :: op :: bytes) i
  | superseded (x : Index) : Means [x.lead] .nop
  | lead {x : Index} {op : UInt8} {bytes : List UInt8} {i : Instruction}
    (hop : Page.index x op = none) (h : Means (op :: bytes) i) : Means (x.lead :: op :: bytes) i

/-- The bytes begin with the code, behind index bytes if there are any. -/
def Opens (bytes code : List UInt8) : Prop :=
  ∃ leads operands, (∀ v ∈ leads, isIndexByte v = true) ∧ bytes = leads ++ code ++ operands

namespace Opens

variable {bytes code : List UInt8}

theorem append (code operands : List UInt8) : Opens (code ++ operands) code :=
  ⟨[], operands, fun _ h => absurd h List.not_mem_nil, rfl⟩

theorem lead (x : Index) (h : Opens bytes code) : Opens (x.lead :: bytes) code := by
  obtain ⟨leads, operands, hleads, rfl⟩ := h
  refine ⟨x.lead :: leads, operands, ?_, rfl⟩
  rintro v (- | ⟨-, hv⟩)
  · exact isIndexByte_lead x
  · exact hleads v hv

/-- A code is one without its index bytes too. -/
theorem dropWhile (h : Opens bytes code) : Opens bytes (code.dropWhile isIndexByte) := by
  obtain ⟨leads, operands, hleads, rfl⟩ := h
  refine ⟨leads ++ code.takeWhile isIndexByte, operands, ?_, ?_⟩
  · intro v hv
    rcases List.mem_append.mp hv with hlead | hcode
    · exact hleads v hlead
    · exact List.all_eq_true.mp List.all_takeWhile v hcode
  · rw [List.append_assoc leads (code.takeWhile _), List.takeWhile_append_dropWhile]

/-- Bytes that begin with a code begin with its first bytes. -/
theorem of_isPrefix {first : List UInt8} (h : Opens bytes code) (hfirst : first <+: code) :
    Opens bytes first := by
  obtain ⟨leads, operands, hleads, rfl⟩ := h
  obtain ⟨rest, rfl⟩ := hfirst
  refine ⟨leads, rest ++ operands, hleads, ?_⟩
  rw [List.append_assoc, List.append_assoc, List.append_assoc]

end Opens

theorem opens_nil_iff {code : List UInt8} : Opens [] code ↔ code = [] := by
  constructor
  · rintro ⟨leads, operands, -, heq⟩
    exact (List.append_eq_nil_iff.mp (List.append_eq_nil_iff.mp heq.symm).1).2
  · rintro rfl
    exact .append [] []

/-- The code is there, or the first byte is an index byte and the code is behind it. -/
theorem opens_cons_iff {v : UInt8} {bytes code : List UInt8} :
    Opens (v :: bytes) code ↔ code <+: v :: bytes ∨ isIndexByte v = true ∧ Opens bytes code := by
  constructor
  · rintro ⟨leads, operands, hleads, heq⟩
    cases leads with
    | nil => exact .inl ⟨operands, heq.symm⟩
    | cons w leads =>
      obtain ⟨rfl, rfl⟩ := List.cons.inj heq
      obtain ⟨hv, hrest⟩ := List.forall_mem_cons.mp hleads
      exact .inr ⟨hv, leads, operands, hrest, rfl⟩
  · rintro (⟨operands, heq⟩ | ⟨hv, hopens⟩)
    · exact heq ▸ .append code operands
    · obtain ⟨x, rfl⟩ := exists_lead_of_isIndexByte hv
      exact hopens.lead x

instance Opens.decidable : (bytes code : List UInt8) → Decidable (Opens bytes code)
  | [], _ => decidable_of_iff _ opens_nil_iff.symm
  | _ :: bytes, code =>
    have := Opens.decidable bytes code
    decidable_of_iff _ opens_cons_iff.symm

/-- Only the byte CB leads to the page of bit operations. -/
theorem Lead.eq_of_ofByte_cb {op : UInt8} (h : ofByte op = .cb) : op = 0xCB := by
  have hinv : ∀ v : UInt8, (match ofByte v with | .cb => v == 0xCB | _ => true) = true := by
    apply byte_forall
    decide +kernel
  have hop := hinv op
  rw [h] at hop
  exact eq_of_beq hop

namespace Exec

variable {β ω : Type} {m₀ m : Machine β ω} {bytes : List UInt8} {opcodes : Nat}

/-- From an instruction that began at the machine `m₀` these bytes have been taken in, and so many
of them, the first one at least, have been counted as opcodes. -/
structure Gathered (m₀ m : Machine β ω) (bytes : List UInt8) (opcodes : Nat) : Prop where
  regs : m.cpu.regs = m₀.cpu.advanced bytes.length opcodes
  current : m.cpu.current = ⟨m₀.cpu.regs.pc, bytes⟩
  one_le : 1 ≤ opcodes
  le : opcodes ≤ bytes.length

variable [Bus β]

theorem Taken.gathered (h : Taken m₀ m bytes) (hne : bytes ≠ []) :
    Gathered m₀ m bytes bytes.length :=
  ⟨h.regs, h.current, List.length_pos_iff.mpr hne, Nat.le_refl _⟩

variable [Observer ω]

theorem Gathered.fetchByte (h : Gathered m₀ m bytes opcodes) :
    Gathered m₀ (fetchByte m).2 (bytes ++ [(fetchByte m).1]) opcodes where
  regs := by
    rw [List.length_append]
    exact Cpu.regs_takeByte h.regs _
  current := by
    show Current.mk m.cpu.current.start (m.cpu.current.bytes ++ [(Exec.fetchByte m).1]) = _
    rw [h.current]
  one_le := h.one_le
  le := by
    rw [List.length_append]
    exact Nat.le_add_right_of_le h.le

theorem Gathered.complete (h : Gathered m₀ m bytes opcodes) (d : Decoding) :
    ∃ operands, d.Ends operands (complete d m).1 ∧
      Gathered m₀ (complete d m).2 (bytes ++ operands) opcodes := by
  induction d generalizing m bytes with
  | done i =>
    refine ⟨[], .done i, ?_⟩
    rw [List.append_nil]
    exact h
  | operand next ih =>
    obtain ⟨operands, hends, hrest⟩ := ih (Exec.fetchByte m).1 h.fetchByte
    rw [List.append_assoc] at hrest
    exact ⟨_, .operand hends, hrest⟩

/-! ## Looking an instruction up -/

variable {op : UInt8} {i : Instruction}

/-- What the page of an opcode says, or another look-up. -/
theorem Taken.completeOr (h : Taken m₀ m bytes) (hne : bytes ≠ []) (d : Decoding)
    (otherwise : Exec β ω (Option Instruction))
    (hi : (completeOr (some d) otherwise m).1 = some i) :
    ∃ operands opcodes, d.Ends operands i ∧
      Gathered m₀ (completeOr (some d) otherwise m).2 (bytes ++ operands) opcodes := by
  obtain ⟨operands, hends, hrest⟩ := (h.gathered hne).complete d
  obtain rfl : (Exec.complete d m).1 = i := Option.some.inj hi
  exact ⟨operands, _, hends, hrest⟩

/-- An index byte by itself is all of an instruction, and the byte behind it is only looked at. -/
theorem Taken.superseded (h : Taken m₀ m bytes) (hne : bytes ≠ []) (x : Index) (a : UInt16) :
    ∃ more opcodes, Means (x.lead :: more) .nop ∧
      Gathered m₀ (Exec.read a m).2 (bytes ++ more) opcodes := by
  refine ⟨[], bytes.length, .superseded x, ?_⟩
  rw [List.append_nil]
  exact (h.read a).gathered hne

/-- Without index bytes, the page of the opcode tells the instruction. -/
theorem exists_means_dispatch (hop : ∀ x, Lead.ofByte op ≠ .index x) (h : Taken m₀ m bytes)
    (hne : bytes ≠ []) (hi : (dispatch op m).1 = some i) :
    ∃ more opcodes, Means (op :: more) i ∧
      Gathered m₀ (dispatch op m).2 (bytes ++ more) opcodes := by
  have hnext : bytes ++ [(fetchOpcode m).1] ≠ [] := List.append_ne_nil_of_left_ne_nil hne _
  unfold dispatch at hi ⊢
  cases hlead : Lead.ofByte op with
  | plain d =>
    rw [dispatchWithin_of_plain hlead] at hi ⊢
    obtain ⟨operands, opcodes, hends, hrest⟩ := h.completeOr hne d (pure none) hi
    exact ⟨operands, opcodes, .plain hlead hends, hrest⟩
  | cb =>
    rw [dispatchWithin_of_cb hlead] at hi ⊢
    obtain rfl : Page.cb (fetchOpcode m).1 = i := Option.some.inj hi
    rw [Lead.eq_of_ofByte_cb hlead]
    exact ⟨_, _, .cb _, h.fetchOpcode.gathered hnext⟩
  | ed =>
    rw [dispatchWithin_of_ed hlead, bind_apply] at hi ⊢
    rw [Lead.eq_of_ofByte_ed hlead]
    cases hentry : Page.ed (fetchOpcode m).1 with
    | some d =>
      rw [hentry] at hi
      obtain ⟨operands, opcodes, hends, hrest⟩ := h.fetchOpcode.completeOr hnext d _ hi
      rw [List.append_assoc] at hrest
      exact ⟨_, opcodes, .ed hentry hends, hrest⟩
    | none =>
      rw [hentry] at hi
      cases hi
  | index x => exact absurd hlead (hop x)

/-- However many index bytes lead it, the bytes taken in mean the instruction that is found. -/
theorem exists_means_dispatchWithin {limit : Nat} (h : Taken m₀ m bytes) (hne : bytes ≠ [])
    (hi : (dispatchWithin limit op m).1 = some i) :
    ∃ more opcodes, Means (op :: more) i ∧
      Gathered m₀ (dispatchWithin limit op m).2 (bytes ++ more) opcodes := by
  -- each index byte starts the look-up anew, from the byte behind it
  induction limit generalizing op m bytes with
  | zero =>
    cases hindex : isIndexByte op with
    | false =>
      rw [dispatchWithin_eq_dispatch (Lead.ofByte_ne_index hindex)] at hi ⊢
      exact exists_means_dispatch (Lead.ofByte_ne_index hindex) h hne hi
    | true =>
      obtain ⟨x, rfl⟩ := exists_lead_of_isIndexByte hindex
      rw [dispatchWithin_zero_of_index (Lead.ofByte_lead x), bind_apply, regs_apply, bind_apply,
        ite_self] at hi ⊢
      cases hi
      exact h.superseded hne x _
  | succ limit ih =>
    cases hindex : isIndexByte op with
    | false =>
      rw [dispatchWithin_eq_dispatch (Lead.ofByte_ne_index hindex)] at hi ⊢
      exact exists_means_dispatch (Lead.ofByte_ne_index hindex) h hne hi
    | true =>
      obtain ⟨x, rfl⟩ := exists_lead_of_isIndexByte hindex
      rw [dispatchWithin_succ_of_index (Lead.ofByte_lead x), bind_apply, regs_apply, bind_apply]
        at hi ⊢
      by_cases hahead : isIndexByte (read m.cpu.regs.pc m).1 = true
      · rw [if_pos hahead] at hi ⊢
        cases hi
        exact h.superseded hne x _
      · rw [if_neg hahead, bind_apply] at hi ⊢
        have hnext := (h.read m.cpu.regs.pc).fetchOpcode
        have hne' := List.append_ne_nil_of_left_ne_nil hne
          [(fetchOpcode (read m.cpu.regs.pc m).2).1]
        cases hentry : Page.index x (fetchOpcode (read m.cpu.regs.pc m).2).1 with
        | some d =>
          rw [hentry] at hi
          obtain ⟨operands, opcodes, hends, hrest⟩ := hnext.completeOr hne' d _ hi
          rw [List.append_assoc] at hrest
          exact ⟨_, opcodes, .index hentry hends, hrest⟩
        | none =>
          rw [hentry] at hi
          obtain ⟨more, opcodes, hmeans, hrest⟩ := ih hnext hne' hi
          rw [List.append_assoc] at hrest
          exact ⟨_, opcodes, .lead hentry hmeans, hrest⟩

/-- The bytes that have been taken in mean the instruction at the program counter. -/
theorem means_upcoming (hi : upcoming m = some i) :
    ∃ bytes opcodes, Means bytes i ∧ Gathered m (fetched m) bytes opcodes := by
  obtain ⟨more, opcodes, hmeans, hrest⟩ :=
    exists_means_dispatchWithin (taken_takeFirst m) (List.cons_ne_nil _ _) hi
  exact ⟨_, opcodes, hmeans, hrest⟩

/-- Whether there is an instruction or not, bytes have been taken in. -/
theorem gathered_fetched (m : Machine β ω) :
    ∃ bytes opcodes, Gathered m (fetched m) bytes opcodes := by
  cases hnext : upcoming m with
  | some i =>
    obtain ⟨bytes, opcodes, -, h⟩ := means_upcoming hnext
    exact ⟨bytes, opcodes, h⟩
  | none =>
    obtain ⟨more, -, h⟩ := dispatchWithin_none (taken_takeFirst m) hnext
    exact ⟨_, _, h.gathered (List.append_ne_nil_of_left_ne_nil (List.cons_ne_nil _ _) _)⟩

end Exec

end Z80
