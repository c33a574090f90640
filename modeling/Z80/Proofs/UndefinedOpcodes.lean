import Z80.Proofs.Faults

/-!
# Undefined opcodes in memory

On a board the byte that an instruction takes in is the one that was seen ahead, and the
one that is in memory. So an instruction has no more than one index byte, and whether it
fails can be read off the two or three bytes at the program counter.

Main definition:
- `Undefined`: the bytes that fail.

Main statements: `runOne_of_undefined` and `undefined_of_runOne_error` for the two
directions, and `step_error_iff` for both.
-/

namespace Z80

/-- The bytes spell no instruction, and a memory that holds them will present them as one:
of two index bytes in memory the first is an instruction of its own. -/
def Undefined (bytes : List UInt8) : Prop :=
  ∃ u ∉ Page.extensions, bytes = [0xED, u] ∨ ∃ x : Index, bytes = [x.lead, 0xED, u]

namespace Board

theorem bytesAt_succ (b : Board) (a : UInt16) (n : Nat) :
    b.bytesAt a (n + 1) = b.peek a :: b.bytesAt (a + 1) n := by
  have hshift (i : Nat) : a + UInt16.ofNat (i + 1) = a + 1 + UInt16.ofNat i := by
    rw [UInt16.add_assoc, UInt16.ofNat_add, UInt16.add_comm (UInt16.ofNat i)]
    rfl
  have hstart : a + UInt16.ofNat 0 = a := UInt16.add_zero a
  rw [bytesAt, bytesAt, List.range_succ_eq_map, List.map_cons, List.map_map, hstart]
  simp only [Function.comp_def, hshift]

/-- A string of bytes stands in memory if its first byte does, and the others behind it. -/
theorem bytesAt_eq_cons (b : Board) (a : UInt16) (v : UInt8) (vs : List UInt8) :
    b.bytesAt a (v :: vs).length = v :: vs ↔
      b.peek a = v ∧ b.bytesAt (a + 1) vs.length = vs := by
  rw [List.length_cons, bytesAt_succ, List.cons.injEq]

end Board

namespace Exec

variable {ω : Type} [Observer ω] {m : Machine Board ω}

/-- Bytes of memory without meaning are reported, whatever follows them. -/
theorem runOne_of_undefined {bytes : List UInt8} (h : Undefined bytes)
    (hbytes : m.bus.bytesAt m.cpu.regs.pc bytes.length = bytes) :
    (runOne m).1 = .error ⟨m.cpu.regs.pc, bytes⟩ := by
  have hnone (u : UInt8) (hu : u ∉ Page.extensions) : Page.ed u = none :=
    (Page.ed_eq_none_iff u).mpr hu
  obtain ⟨u, hu, rfl | ⟨x, rfl⟩⟩ := h
  · obtain ⟨hed, hrest⟩ := (Board.bytesAt_eq_cons ..).mp hbytes
    obtain ⟨rfl, -⟩ := (Board.bytesAt_eq_cons ..).mp hrest
    have hstring : m.bus.bytesAt m.cpu.regs.pc 2 = _ := hbytes
    rw [runOne_of_ed_invalid hed (hnone _ hu), hstring]
  · obtain ⟨hlead, hrest⟩ := (Board.bytesAt_eq_cons ..).mp hbytes
    obtain ⟨hed, hlast⟩ := (Board.bytesAt_eq_cons ..).mp hrest
    obtain ⟨rfl, -⟩ := (Board.bytesAt_eq_cons ..).mp hlast
    have hnext : isIndexByte (m.bus.peek (m.cpu.regs.pc + 1)) = false := by
      rw [hed]
      rfl
    have hentry : Page.index x (m.bus.peek (m.cpu.regs.pc + 1)) = none := by
      rw [hed]
      cases x <;> rfl
    have hskip : (runOne m.skipOpcode).1 =
        .error ⟨m.cpu.regs.pc + 1, m.bus.bytesAt (m.cpu.regs.pc + 1) 2⟩ :=
      runOne_of_ed_invalid hed (hnone _ hu)
    have hstring : m.bus.bytesAt (m.cpu.regs.pc + 1) 2 = _ := hrest
    obtain ⟨hresult, -⟩ := runOne_lead hlead hnext hentry
    rw [hresult, hskip, hstring]
    show Except.error (InvalidOpcode.mk (m.cpu.regs.pc + 1 - 1) _) = _
    rw [UInt16.add_sub_cancel]

/-- On a board, only bytes of memory without meaning are reported. -/
theorem undefined_of_runOne_error {e : InvalidOpcode} (h : (runOne m).1 = .error e) :
    ∃ bytes, Undefined bytes ∧ m.bus.bytesAt m.cpu.regs.pc bytes.length = bytes := by
  obtain ⟨hnone, -, -⟩ := runOne_error h
  have hfirst := takeFirst_fst m
  have hfetch := fetching_takeFirst m
  by_cases hop : ∃ x, Lead.ofByte (takeFirst m).1 = .index x
  · obtain ⟨x, hop⟩ := hop
    obtain ⟨hahead, rest, -, heq⟩ := dispatchWithin_none_of_index hop hnone
    have hpc : (takeFirst m).2.cpu.regs.pc = m.cpu.regs.pc + 1 := congrArg (·.pc) hfetch.regs
    have hread := hfetch.read (m.cpu.regs.pc + 1)
    rw [hpc] at hahead heq
    rw [hfetch.read_fst] at hahead
    -- memory gives the byte that was ahead once more, so this one is no index byte either
    have hsecond : (fetchOpcode (read (m.cpu.regs.pc + 1) (takeFirst m).2).2).1 =
        m.bus.peek (m.cpu.regs.pc + 1) := hread.fetchOpcode_fst
    rw [dispatch, heq, hsecond, dispatchWithin_eq_dispatch (Lead.ofByte_ne_index hahead)] at hnone
    obtain ⟨hed, hu, -⟩ := dispatch_none (Lead.ofByte_ne_index hahead) hnone
    rw [hread.fetchOpcode.fetchOpcode_fst] at hu
    refine ⟨[x.lead, 0xED, _], ⟨_, hu, .inr ⟨x, rfl⟩⟩, ?_⟩
    rw [Board.bytesAt_eq_cons, Board.bytesAt_eq_cons, Board.bytesAt_eq_cons]
    refine ⟨hfirst.symm.trans (Lead.eq_of_ofByte_index hop), hed, ?_, rfl⟩
    rw [UInt16.add_assoc]
    rfl
  · rw [not_exists] at hop
    obtain ⟨hed, hu, -⟩ := dispatch_none hop hnone
    rw [hfetch.fetchOpcode_fst] at hu
    refine ⟨[0xED, _], ⟨_, hu, .inl rfl⟩, ?_⟩
    rw [Board.bytesAt_eq_cons, Board.bytesAt_eq_cons]
    exact ⟨hfirst.symm.trans hed, rfl, rfl⟩

/-- On a board, one instruction fails exactly where memory holds ED and an opcode not
defined behind it, or an index byte and these. The report has the address and these
bytes, and the program counter is behind them. Any other bytes are executed. -/
theorem step_error_iff (m : Machine Board ω) (hfault : m.cpu.fault = none)
    (hhalted : m.cpu.regs.halted = false) :
    (∀ e, (step 1 m).1 = .error e ↔ ∃ bytes, Undefined bytes ∧
      m.bus.bytesAt m.cpu.regs.pc bytes.length = bytes ∧ e = ⟨m.cpu.regs.pc, bytes⟩) ∧
    (∀ e, (step 1 m).1 = .error e →
      (step 1 m).2.cpu.regs.pc = m.cpu.regs.pc + UInt16.ofNat e.opcode.length) ∧
    ((∀ bytes, Undefined bytes → m.bus.bytesAt m.cpu.regs.pc bytes.length ≠ bytes) →
      (step 1 m).1 = .ok ()) := by
  have hresult := step_one_fst hfault hhalted
  have hiff (e : InvalidOpcode) : (step 1 m).1 = .error e ↔ ∃ bytes, Undefined bytes ∧
      m.bus.bytesAt m.cpu.regs.pc bytes.length = bytes ∧ e = ⟨m.cpu.regs.pc, bytes⟩ := by
    rw [hresult]
    constructor
    · intro herror
      obtain ⟨bytes, hundefined, hbytes⟩ := undefined_of_runOne_error herror
      rw [runOne_of_undefined hundefined hbytes] at herror
      cases herror
      exact ⟨bytes, hundefined, hbytes, rfl⟩
    · rintro ⟨bytes, hundefined, hbytes, rfl⟩
      exact runOne_of_undefined hundefined hbytes
  refine ⟨hiff, ?_, ?_⟩
  · intro e herror
    rw [hresult] at herror
    obtain ⟨-, -, htaken⟩ := taken_of_runOne_error herror
    rw [step_one_error hfault hhalted herror]
    exact htaken.pc
  · intro hdefined
    cases herror : (step 1 m).1 with
    | ok u => rfl
    | error e =>
      obtain ⟨bytes, hundefined, hbytes, -⟩ := (hiff e).mp herror
      exact absurd hbytes (hdefined bytes hundefined)

/-- An index byte at the last address, and behind it the first two. -/
theorem step_error_iff_around_end :
    let memory := ((Memory.zero.set 0xFFFF 0xFD).set 0 0xED).set 1 0x77
    let m : Machine Board Unit :=
      ⟨{ regs := { Registers.powerOn with pc := 0xFFFF } }, { memory }, ()⟩
    m.cpu.fault = none ∧ m.cpu.regs.halted = false ∧
      (step 1 m).1 = .error ⟨0xFFFF, [0xFD, 0xED, 0x77]⟩ ∧ (step 1 m).2.cpu.regs.pc = 2 := by
  intro memory m
  have hbytes : m.bus.bytesAt m.cpu.regs.pc 3 = [0xFD, 0xED, 0x77] := by
    simp [m, memory, Board.bytesAt, Board.peek, List.range_succ, Memory.get_set]
  obtain ⟨hiff, hpc, -⟩ := step_error_iff m rfl rfl
  have herror : (step 1 m).1 = .error ⟨0xFFFF, [0xFD, 0xED, 0x77]⟩ :=
    (hiff _).mpr ⟨_, ⟨0x77, by decide, .inr ⟨.iy, rfl⟩⟩, hbytes, rfl⟩
  refine ⟨rfl, rfl, herror, ?_⟩
  rw [hpc _ herror]
  show (0xFFFF : UInt16) + UInt16.ofNat 3 = 2
  decide

end Exec

end Z80
