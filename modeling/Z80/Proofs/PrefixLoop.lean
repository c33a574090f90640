import Z80.Proofs.FetchOrder

/-!
# The loop over index bytes

Behind an index byte that is without effect the look-up of an instruction starts anew, and
nothing but what the bus answers puts an end to that. The loop is stated here without a bound. The
bus is asked for each byte twice, and only where it changes its mind can one instruction
contain a second index byte.

Main definitions:
- `Exec.prefixRound`: once round the loop.
- `Exec.prefixRounds`: so many rounds, unless the loop ends before.

Main statements: `dispatchWithin_of_prefixRounds` says that the loop is the look-up, and
`accesses_prefixRounds` what a bus has answered to keep it going.
-/

namespace Z80

namespace Exec

section Loop

variable {β ω : Type} [Bus β] [Observer ω]

/-- Looks a byte up that has been taken in. The loop over index bytes ends with an instruction or
with bytes that have no meaning, or goes on with another byte. -/
def prefixRound (op : UInt8) : Exec β ω (Option Instruction ⊕ UInt8) := do
  match Lead.ofByte op with
  | .plain d => return .inl (some (← complete d))
  | .cb => return .inl (some (Page.cb (← fetchOpcode)))
  | .ed =>
    match Page.ed (← fetchOpcode) with
    | some d => return .inl (some (← complete d))
    | none => return .inl none
  | .index x =>
    let ahead ← read (← regs).pc
    if isIndexByte ahead then return .inl (some .nop)
    let next ← fetchOpcode
    match Page.index x next with
    | some d => return .inl (some (← complete d))
    | none => return .inr next

/-- So many rounds of the loop, unless it ends before: what it has found, or the byte that it goes
on with. -/
def prefixRounds : Nat → UInt8 → Exec β ω (Option Instruction ⊕ UInt8)
  | 0, op => return .inr op
  | n + 1, op => do
    match ← prefixRound op with
    | .inl i? => return .inl i?
    | .inr next => prefixRounds n next

/-! ## One round -/

/-- The operand bytes of an entry, or the next round if there is none. -/
def completeOrNext (d? : Option Decoding) (next : UInt8) : Exec β ω (Option Instruction ⊕ UInt8) :=
  match d? with
  | some d => do return .inl (some (← complete d))
  | none => return .inr next

theorem prefixRound_of_index {op : UInt8} {x : Index} (h : Lead.ofByte op = .index x) :
    (prefixRound op : Exec β ω _) =
      regs >>= fun r => read r.pc >>= fun ahead =>
        if isIndexByte ahead then pure (.inl (some .nop))
        else fetchOpcode >>= fun next => completeOrNext (Page.index x next) next := by
  rw [prefixRound, h]
  rfl

theorem dispatchWithin_succ (limit : Nat) (op : UInt8) (m : Machine β ω) :
    dispatchWithin (limit + 1) op m =
      match prefixRound op m with
      | (.inl i?, m') => (i?, m')
      | (.inr next, m') => dispatchWithin limit next m' := by
  cases hlead : Lead.ofByte op with
  | plain d =>
    rw [dispatchWithin_of_plain hlead, prefixRound, hlead]
    rfl
  | cb =>
    rw [dispatchWithin_of_cb hlead, prefixRound, hlead]
    rfl
  | ed =>
    rw [dispatchWithin_of_ed hlead, prefixRound, hlead]
    simp only [bind_apply]
    cases Page.ed (fetchOpcode m).1 <;> rfl
  | index x =>
    rw [dispatchWithin_succ_of_index hlead, prefixRound_of_index hlead]
    simp only [bind_apply, regs_apply]
    by_cases hahead : isIndexByte (read m.cpu.regs.pc m).1 = true
    · simp only [if_pos hahead, pure_apply]
    · simp only [if_neg hahead, bind_apply]
      cases Page.index x (fetchOpcode (read m.cpu.regs.pc m).2).1 <;> rfl

/-- The loop goes on only behind an index byte, if the byte ahead is none, and with the byte that
is then taken in from the same address. -/
theorem prefixRound_inr {op next : UInt8} {m m' : Machine β ω}
    (h : prefixRound op m = (.inr next, m')) :
    isIndexByte op = true ∧ isIndexByte (read m.cpu.regs.pc m).1 = false ∧
      fetchOpcode (read m.cpu.regs.pc m).2 = (next, m') := by
  cases hlead : Lead.ofByte op with
  | plain d =>
    rw [prefixRound, hlead] at h
    cases h
  | cb =>
    rw [prefixRound, hlead] at h
    cases h
  | ed =>
    rw [prefixRound, hlead] at h
    simp only [bind_apply] at h
    generalize Page.ed (fetchOpcode m).1 = d? at h
    cases d? <;> cases h
  | index x =>
    have hop : isIndexByte op = true := by
      by_contra hop
      exact Lead.ofByte_ne_index (Bool.not_eq_true _ ▸ hop) x hlead
    rw [prefixRound_of_index hlead] at h
    simp only [bind_apply, regs_apply] at h
    cases hahead : isIndexByte (read m.cpu.regs.pc m).1 with
    | true =>
      rw [if_pos hahead] at h
      cases h
    | false =>
      rw [if_neg (Bool.not_eq_true _ ▸ hahead), bind_apply] at h
      refine ⟨hop, rfl, ?_⟩
      generalize fetchOpcode (read m.cpu.regs.pc m).2 = out at h ⊢
      obtain ⟨v, m₁⟩ := out
      generalize Page.index x v = d? at h
      cases d? with
      | some d => cases h
      | none =>
        cases h
        rfl

/-! ## The whole loop -/

theorem prefixRounds_succ (n : Nat) (op : UInt8) (m : Machine β ω) :
    prefixRounds (n + 1) op m =
      match prefixRound op m with
      | (.inl i?, m') => (.inl i?, m')
      | (.inr next, m') => prefixRounds n next m' := by
  rw [prefixRounds, bind_apply]
  obtain ⟨i? | next, m'⟩ := prefixRound op m <;> rfl

/-- The loop ends in its first round, or that one leads to the others. -/
theorem prefixRounds_cases {n : Nat} {op : UInt8} {m : Machine β ω}
    {out : (Option Instruction ⊕ UInt8) × Machine β ω} (h : prefixRounds (n + 1) op m = out) :
    (∃ i? m₁, prefixRound op m = (.inl i?, m₁) ∧ out = (.inl i?, m₁)) ∨
      ∃ next m₁, prefixRound op m = (.inr next, m₁) ∧ prefixRounds n next m₁ = out := by
  rw [prefixRounds_succ] at h
  generalize prefixRound op m = first at h ⊢
  obtain ⟨i? | next, m₁⟩ := first
  · exact .inl ⟨i?, m₁, rfl, h.symm⟩
  · exact .inr ⟨next, m₁, rfl, h⟩

/-- The loop is the look-up, if that allows for as many rounds. -/
theorem dispatchWithin_of_prefixRounds {n limit : Nat} {op : UInt8} {i? : Option Instruction}
    {m m' : Machine β ω} (h : prefixRounds n op m = (.inl i?, m')) (hle : n ≤ limit) :
    dispatchWithin limit op m = (i?, m') := by
  induction n generalizing limit op m with
  | zero => cases h
  | succ n ih =>
    obtain ⟨limit, rfl⟩ := Nat.exists_eq_add_of_le' (Nat.le_trans (Nat.succ_pos n) hle)
    rw [dispatchWithin_succ]
    obtain ⟨j?, m₁, hround, hlast⟩ | ⟨next, m₁, hround, hrest⟩ := prefixRounds_cases h
    · rw [hround]
      cases hlast
      rfl
    · rw [hround]
      exact ih hrest (Nat.le_of_succ_le_succ hle)

end Loop

/-! ## What keeps it going -/

section Accesses

variable {β ω : Type} [Bus β] [Observer ω] {a : UInt16} {m m' : Machine (Tapped β) ω}
  {op next : UInt8}

/-- In a round that leads to another one, the bus is asked twice for the byte behind an index byte,
and its first answer is no index byte. -/
theorem takesIn_prefixRound (hpc : m.cpu.regs.pc = a + 1)
    (h : prefixRound op m = (.inr next, m')) :
    isIndexByte op = true ∧ ∃ ahead, isIndexByte ahead = false ∧
      TakesIn m m' [next] [.read (a + 1) ahead, .read (a + 1) next] := by
  obtain ⟨hop, hahead, hfetch⟩ := prefixRound_inr h
  rw [hpc] at hahead hfetch
  have htakes := takesIn_fetchOpcode_read hpc
  rw [hfetch] at htakes
  exact ⟨hop, _, hahead, htakes⟩

/-- The accesses of so many rounds that all lead on. -/
theorem accesses_prefixRounds {n : Nat} (hpc : m.cpu.regs.pc = a + 1)
    (h : prefixRounds n op m = (.inr next, m')) :
    ∃ bytes aheads reads, m'.accesses = m.accesses ++ reads ∧
      .read a op :: reads = instructionReads a (bytes ++ [next]) aheads ∧
      bytes.length = n ∧ aheads.length = n ∧
      (∀ v ∈ bytes, isIndexByte v = true) ∧ ∀ w ∈ aheads, isIndexByte w = false := by
  induction n generalizing a op m with
  | zero =>
    cases h
    exact ⟨[], [], [], (List.append_nil _).symm, rfl, rfl, rfl,
      fun _ hv => absurd hv List.not_mem_nil, fun _ hw => absurd hw List.not_mem_nil⟩
  | succ n ih =>
    obtain ⟨_, _, _, hlast⟩ | ⟨v, m₁, hround, hrest⟩ := prefixRounds_cases h
    · cases hlast
    · obtain ⟨hop, ahead, hahead, htakes⟩ := takesIn_prefixRound hpc hround
      have hpc₁ : m₁.cpu.regs.pc = a + 1 + 1 := htakes.pc.trans (congrArg (· + 1) hpc)
      obtain ⟨bytes, aheads, reads, hreads, hread, hbytes, haheads, hall, hnone⟩ := ih hpc₁ hrest
      refine ⟨op :: bytes, ahead :: aheads, .read (a + 1) ahead :: .read (a + 1) v :: reads,
        ?_, ?_, congrArg (· + 1) hbytes, congrArg (· + 1) haheads,
        List.forall_mem_cons.mpr ⟨hop, hall⟩, List.forall_mem_cons.mpr ⟨hahead, hnone⟩⟩
      · rw [hreads, htakes.accesses, List.append_assoc]
        rfl
      · rw [hread]
        rfl

end Accesses

end Exec

end Z80
