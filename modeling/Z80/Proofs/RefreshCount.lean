import Mathlib.Algebra.Ring.Nat
import Z80.Proofs.Begun
import Z80.Proofs.RegisterFrame

/-!
# Opcode fetches in R

With the refresh option on, the low seven bits of R count opcode fetches. How many an instruction
makes is told by its first two bytes: operands are no opcodes, nor is the last byte of an indexed
bit operation or what is only looked at ahead, and a block instruction is fetched once however
often it repeats.

Main definitions:
- `opcodeFetches`: the opcode fetches of an instruction with given bytes.
- `Exec.Refreshed`: what R has come to after some instructions.

Main statements: `opcodes_spell` counts the opcodes that a board takes in, `Refreshed.runOne` is
about one instruction and `session_refreshed` about a session.
-/

namespace Z80

/-- An opcode that leads to another page is fetched before the opcode there. -/
def pageFetches (op : UInt8) : Nat :=
  if op = 0xCB ∨ op = 0xED then 2 else 1

/-- How many bytes of an instruction are fetched as opcodes: the first one and the one that it leads
to, if it does. An index byte leads to an opcode, and that one leads on if it is ED; it does not if
it is CB, as the index pages have bit operations of their own. -/
def opcodeFetches : List UInt8 → Nat
  | [] => 0
  | [op] => pageFetches op
  | op :: next :: _ =>
    if isIndexByte op then
      if next = 0xED then 3 else 2
    else pageFetches op

/-! ## The opcodes of a board -/

theorem pageFetches_of_plain {op : UInt8} {d : Decoding} (h : Lead.ofByte op = .plain d) :
    pageFetches op = 1 := by
  unfold pageFetches
  rw [if_neg]
  rintro (rfl | rfl) <;> cases h

theorem Decoding.le_spelled (d : Decoding) (byte : Nat → UInt8) (k : Nat) :
    k ≤ (d.spelled byte k).2 := by
  induction d generalizing k with
  | done i => exact Nat.le_refl k
  | operand next ih => exact Nat.le_of_succ_le (ih _ (k + 1))

section Spell

variable {byte : Nat → UInt8} {k : Nat}

/-- An opcode that is no index byte is fetched, and so is the one behind it on another page. -/
theorem opcodes_spellAt (h : isIndexByte (byte k) = false) :
    k + 1 ≤ (spellAt byte k).bytes ∧ (spellAt byte k).opcodes = k + pageFetches (byte k) := by
  unfold spellAt
  cases hlead : Lead.ofByte (byte k) with
  | plain d =>
    rw [pageFetches_of_plain hlead]
    exact ⟨d.le_spelled byte (k + 1), rfl⟩
  | cb =>
    rw [Lead.eq_of_ofByte_cb hlead]
    exact ⟨Nat.le_succ _, rfl⟩
  | ed =>
    rw [Lead.eq_of_ofByte_ed hlead]
    cases Page.ed (byte (k + 1)) with
    | some d => exact ⟨Nat.le_of_succ_le (d.le_spelled byte (k + 2)), rfl⟩
    | none => exact ⟨Nat.le_succ _, rfl⟩
  | index x => exact absurd hlead (Lead.ofByte_ne_index h x)

theorem opcodeFetches_of_not_index {n : Nat} (h : isIndexByte (byte 0) = false) (hn : 1 ≤ n) :
    opcodeFetches ((List.range n).map byte) = pageFetches (byte 0) := by
  obtain ⟨n, rfl⟩ := Nat.exists_eq_add_of_le' hn
  cases n with
  | zero => rfl
  | succ n =>
    rw [List.range_succ_eq_map, List.map_cons, List.range_succ_eq_map, List.map_cons, List.map_cons,
      opcodeFetches, h, if_neg Bool.false_ne_true]

theorem opcodeFetches_of_index {n : Nat} (h : isIndexByte (byte 0) = true) (hn : 2 ≤ n) :
    opcodeFetches ((List.range n).map byte) = if byte 1 = 0xED then 3 else 2 := by
  obtain ⟨n, rfl⟩ := Nat.exists_eq_add_of_le' hn
  rw [List.range_succ_eq_map, List.map_cons, List.range_succ_eq_map, List.map_cons, List.map_cons,
    opcodeFetches, h, if_pos rfl]

/-- Behind an index byte, either the index page has the opcode or it is passed on: ED is never on
an index page, and CB always. -/
theorem opcodes_spell_of_index {x : Index} (hx : byte 0 = x.lead)
    (hahead : isIndexByte (byte 1) = false) :
    2 ≤ (spell byte).bytes ∧ (spell byte).opcodes = if byte 1 = 0xED then 3 else 2 := by
  rw [spell_of_index hx hahead]
  cases hentry : Page.index x (byte 1) with
  | some d =>
    have hed : byte 1 ≠ 0xED := by
      intro hed
      rw [hed] at hentry
      cases hentry
    rw [if_neg hed]
    exact ⟨d.le_spelled byte 2, rfl⟩
  | none =>
    have hcb : byte 1 ≠ 0xCB := by
      intro hcb
      rw [hcb] at hentry
      cases hentry
    obtain ⟨hbytes, hopcodes⟩ := opcodes_spellAt hahead
    refine ⟨hbytes, hopcodes.trans ?_⟩
    unfold pageFetches
    by_cases hed : byte 1 = 0xED
    · rw [if_pos (.inr hed), if_pos hed]
    · rw [if_neg (not_or.mpr ⟨hcb, hed⟩), if_neg hed]

/-- The opcodes that are spelled are told by the bytes. -/
theorem opcodes_spell (byte : Nat → UInt8) :
    (spell byte).opcodes = opcodeFetches ((List.range (spell byte).bytes).map byte) := by
  cases hindex : isIndexByte (byte 0) with
  | false =>
    obtain ⟨hbytes, hopcodes⟩ := opcodes_spellAt hindex
    rw [spell_of_not_index hindex, hopcodes, opcodeFetches_of_not_index hindex hbytes,
      Nat.zero_add]
  | true =>
    obtain ⟨x, hx⟩ := exists_lead_of_isIndexByte hindex
    cases hahead : isIndexByte (byte 1) with
    | true =>
      rw [spell_superseded hx hahead]
      show 1 = pageFetches (byte 0)
      rw [hx]
      cases x <;> rfl
    | false =>
      obtain ⟨hbytes, hopcodes⟩ := opcodes_spell_of_index hx hahead
      rw [hopcodes, opcodeFetches_of_index hindex hbytes]

end Spell

/-! ## LD R,A by its code -/

/-- An index byte is no part of a code of the page of extensions. -/
theorem opens_of_lead {x : Index} {bytes : List UInt8} {op : UInt8}
    (h : Opens (x.lead :: bytes) [0xED, op]) : Opens bytes [0xED, op] := by
  rcases opens_cons_iff.mp h with hprefix | ⟨-, hopens⟩
  · have hlead := (List.cons_prefix_cons.mp hprefix).1
    cases x <;> cases hlead
  · exact hopens

/-- Bytes that begin with a code of the page of extensions mean an instruction that this code
decodes to. -/
theorem Means.ends_of_opens_ed {bytes : List UInt8} {i : Instruction} {op : UInt8} {d : Decoding}
    (h : Means bytes i) (hop : Page.ed op = some d) (hopens : Opens bytes [0xED, op]) :
    ∃ operands, d.Ends operands i := by
  induction h with
  | @plain op' d' bytes i hlead _ =>
    rcases opens_cons_iff.mp hopens with hprefix | ⟨hindex, -⟩
    · rw [← (List.cons_prefix_cons.mp hprefix).1] at hlead
      cases hlead
    · obtain ⟨x, rfl⟩ := exists_lead_of_isIndexByte hindex
      rw [Lead.ofByte_lead] at hlead
      cases hlead
  | cb op' =>
    rcases opens_cons_iff.mp hopens with hprefix | ⟨hindex, -⟩
    · cases (List.cons_prefix_cons.mp hprefix).1
    · cases hindex
  | @ed op' d' bytes i hop' hends =>
    rcases opens_cons_iff.mp hopens with hprefix | ⟨hindex, -⟩
    · obtain ⟨-, hprefix⟩ := List.cons_prefix_cons.mp hprefix
      obtain ⟨rfl, -⟩ := List.cons_prefix_cons.mp hprefix
      obtain rfl : d = d' := Option.some.inj (hop.symm.trans hop')
      exact ⟨bytes, hends⟩
    · cases hindex
  | @index x op' d' bytes i hentry _ =>
    have hbehind : Opens (op' :: bytes) [0xED, op] := opens_of_lead hopens
    rcases opens_cons_iff.mp hbehind with hprefix | ⟨hindex, -⟩
    · rw [← (List.cons_prefix_cons.mp hprefix).1] at hentry
      cases hentry
    · rw [isIndexByte_of_index hentry] at hindex
      cases hindex
  | superseded x => exact absurd (opens_nil_iff.mp (opens_of_lead hopens)) (List.cons_ne_nil _ _)
  | lead _ _ ih => exact ih (opens_of_lead hopens)

/-- Bytes without meaning do not begin with such a code. -/
theorem Meaningless.not_opens_ed {bytes : List UInt8} {op : UInt8} (h : Meaningless bytes)
    (hop : op ∈ Page.extensions) : ¬Opens bytes [0xED, op] := by
  induction h with
  | @ed u hu =>
    intro hopens
    rcases opens_cons_iff.mp hopens with hprefix | ⟨hindex, -⟩
    · obtain ⟨-, hprefix⟩ := List.cons_prefix_cons.mp hprefix
      exact hu ((List.cons_prefix_cons.mp hprefix).1 ▸ hop)
    · cases hindex
  | lead x _ ih => exact fun hopens => ih (opens_of_lead hopens)

namespace Exec

/-! ## One instruction -/

section AnyBus

variable {β ω : Type} [Bus β] [Observer ω] {m : Machine β ω}

/-- Any other instruction leaves in R what fetching has left there. -/
theorem r_runOne_of_not_opens (h : ¬Opens (runOne m).2.cpu.current.bytes [0xED, 0x4F]) :
    (runOne m).2.cpu.regs.r = (fetched m).cpu.regs.r := by
  obtain ⟨bytes, opcodes, hgathered⟩ := gathered_fetched m
  rw [current_runOne, hgathered.current] at h
  exact r_runOne_of_gathered hgathered h

/-- LD R,A leaves A in R. -/
theorem r_runOne_of_opens (h : Opens (runOne m).2.cpu.current.bytes [0xED, 0x4F]) :
    (runOne m).2.cpu.regs.r = (runOne m).2.cpu.regs.a := by
  cases hnext : upcoming m with
  | none =>
    obtain ⟨-, hmeaningless, -⟩ := taken_of_runOne_error (congrArg Prod.fst
      (runOne_of_upcoming_none hnext))
    rw [runOne_of_upcoming_none hnext] at h
    exact absurd h (hmeaningless.not_opens_ed (by decide))
  | some i =>
    obtain ⟨bytes, opcodes, hmeans, hgathered⟩ := means_upcoming hnext
    rw [current_runOne, hgathered.current] at h
    obtain ⟨operands, hends⟩ := hmeans.ends_of_opens_ed (d := .done (.loadFromA .r)) rfl h
    cases hends
    rw [runOne_of_upcoming hnext]
    rfl

end AnyBus

variable {ω : Type} [Observer ω]

/-- From a board, as many opcodes are fetched as the bytes tell. -/
theorem r_fetched {m : Machine Board ω} (hcounting : m.cpu.config.incrementRefresh = true) :
    (fetched m).cpu.regs.r =
      (Registers.refresh^[opcodeFetches (fetched m).cpu.current.bytes] m.cpu.regs).r := by
  have hfetching := (spell_ahead m).fetching
  have hbytes : (fetched m).cpu.current.bytes =
      (List.range (spell m.ahead).bytes).map m.ahead :=
    congrArg Current.bytes hfetching.current
  rw [hbytes, ← opcodes_spell, hfetching.regs]
  exact if_pos hcounting

theorem r_refresh (r : Registers) :
    r.refresh.r.toNat / 128 = r.r.toNat / 128 ∧
      r.refresh.r.toNat % 128 = (r.r.toNat + 1) % 128 := by
  have hbyte : ∀ v : UInt8, (v &&& 0x80 ||| (v + 1) &&& 0x7F).toNat / 128 = v.toNat / 128 ∧
      (v &&& 0x80 ||| (v + 1) &&& 0x7F).toNat % 128 = (v.toNat + 1) % 128 := by
    apply byte_forall
    decide +kernel
  exact hbyte r.r

/-- So many fetches leave the upper bit of R, and go round in the seven others. -/
theorem r_refresh_iterate (n : Nat) (r : Registers) :
    (Registers.refresh^[n] r).r.toNat / 128 = r.r.toNat / 128 ∧
      (Registers.refresh^[n] r).r.toNat % 128 = (r.r.toNat + n) % 128 := by
  induction n with
  | zero => exact ⟨rfl, rfl⟩
  | succ n ih =>
    obtain ⟨hupper, hlower⟩ := r_refresh (Registers.refresh^[n] r)
    rw [Function.iterate_succ_apply', hupper, hlower]
    refine ⟨ih.1, ?_⟩
    rw [Nat.add_mod, ih.2, ← Nat.add_mod, Nat.add_assoc]

/-! ## Sessions -/

/-- R had the value `r`, and since then instructions with these bytes have been begun. -/
structure Refreshed (r : UInt8) (past : List (List UInt8)) (m : Machine Board ω) : Prop where
  counting : m.cpu.config.incrementRefresh = true
  /-- Without LD R,A, the upper bit is as it was and the others have counted. -/
  counted : (∀ bytes ∈ past, ¬Opens bytes [0xED, 0x4F]) →
    m.cpu.regs.r.toNat / 128 = r.toNat / 128 ∧
      m.cpu.regs.r.toNat % 128 = (r.toNat + (past.map opcodeFetches).sum) % 128
  /-- Right behind LD R,A it is A. -/
  loaded : ∀ bytes, past.getLast? = some bytes → Opens bytes [0xED, 0x4F] →
    m.cpu.regs.r = m.cpu.regs.a

theorem Refreshed.runOne {r : UInt8} {past : List (List UInt8)} {m : Machine Board ω}
    (h : Refreshed r past m) :
    Refreshed r (past ++ [(runOne m).2.cpu.current.bytes]) (runOne m).2 where
  counting := by
    rw [(runOne_sameRecord m).config]
    exact h.counting
  counted hnot := by
    obtain ⟨hpast, hlast⟩ := List.forall_mem_append.mp hnot
    obtain ⟨hupper, hlower⟩ := h.counted hpast
    have hr := r_runOne_of_not_opens (hlast _ (List.mem_singleton_self _))
    rw [r_fetched h.counting, ← current_runOne] at hr
    obtain ⟨hupper', hlower'⟩ :=
      r_refresh_iterate (opcodeFetches (Exec.runOne m).2.cpu.current.bytes) m.cpu.regs
    -- the sum so far is only known modulo 128
    rw [hr, hupper', hlower', List.map_append, List.sum_append, List.map_singleton,
      List.sum_singleton]
    refine ⟨hupper, ?_⟩
    rw [Nat.add_mod, hlower, ← Nat.add_mod, Nat.add_assoc]
  loaded bytes hbytes hopens := by
    rw [List.getLast?_concat] at hbytes
    obtain rfl := Option.some.inj hbytes
    exact r_runOne_of_opens hopens

theorem accumulates_refreshed (r : UInt8) :
    Accumulates fun past (m : Machine Board ω) => Refreshed r past m where
  runOne _ _ _ h := h.runOne
  recordFault _ _ _ h := ⟨h.counting, h.counted, h.loaded⟩
  clearFault _ _ h := ⟨h.counting, h.counted, h.loaded⟩

/-- With the refresh option on, a session on a board without LD R,A keeps the upper bit of R and
adds the opcode fetches of its instructions, failing ones included, to the others. If LD R,A is
the last of its instructions, R is A. -/
theorem session_refreshed (requests : List Request) (m : Machine Board ω)
    (hreset : .reset ∉ requests) (hcounting : m.cpu.config.incrementRefresh = true) :
    let r := m.cpu.regs.r
    let after := (session requests m).2.cpu.regs
    ((∀ bytes ∈ begun requests m, ¬Opens bytes [0xED, 0x4F]) →
      after.r.toNat / 128 = r.toNat / 128 ∧
        after.r.toNat % 128 = (r.toNat + ((begun requests m).map opcodeFetches).sum) % 128) ∧
      ∀ bytes, (begun requests m).getLast? = some bytes → Opens bytes [0xED, 0x4F] →
        after.r = after.a := by
  intro r after
  have hnew : Refreshed r [] m := by
    refine ⟨hcounting, fun _ => ⟨rfl, rfl⟩, ?_⟩
    rintro bytes ⟨⟩
  have hafter := (accumulates_refreshed r).session hreset hnew
  exact ⟨hafter.counted, hafter.loaded⟩

/-- From R = FE, a fallback behind an index byte, a bit operation, and a failure behind an index
byte; then LD R,A. -/
theorem session_refreshed_loadR :
    let memory := ((((((Memory.zero.set 0 0xDD).set 1 0x04).set 2 0xCB).set 4 0xFD).set 5 0xED).set
      7 0xED).set 8 0x4F
    let m : Machine Board Unit :=
      ⟨{ regs := { a := 0x12, r := 0xFE }, config := { incrementRefresh := true } },
        { memory }, ()⟩
    let requests := [Request.step 5, .step 1, .clearFault]
    begun requests m = [[0xDD, 0x04], [0xCB, 0x00], [0xFD, 0xED, 0x00]] ∧
      (session requests m).2.cpu.regs.r = 0x85 ∧
      (session (requests ++ [.step 1]) m).2.cpu.regs.r =
        (session (requests ++ [.step 1]) m).2.cpu.regs.a := by
  intro memory m requests
  have hbytes : begun requests m = [[0xDD, 0x04], [0xCB, 0x00], [0xFD, 0xED, 0x00]] := by
    decide +kernel
  have hlast : (begun (requests ++ [.step 1]) m).getLast? = some [0xED, 0x4F] := by
    decide +kernel
  obtain ⟨hcounted, -⟩ := session_refreshed requests m (by decide) rfl
  obtain ⟨-, hloaded⟩ := session_refreshed (requests ++ [.step 1]) m (by decide) rfl
  rw [hbytes] at hcounted
  obtain ⟨hupper, hlower⟩ := hcounted (by decide +kernel)
  have hr : (session requests m).2.cpu.regs.r.toNat = 0x85 := by
    have hbefore : m.cpu.regs.r.toNat = 0xFE := rfl
    have hsum : ([[0xDD, 0x04], [0xCB, 0x00], [0xFD, 0xED, 0x00]].map opcodeFetches).sum = 7 := by
      decide
    omega
  exact ⟨hbytes, UInt8.toNat_inj.mp hr, hloaded _ hlast (by decide +kernel)⟩

end Exec

end Z80
