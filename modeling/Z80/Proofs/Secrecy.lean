import Z80.Proofs.FetchOrder
import Z80.Proofs.Samples
import Z80.Proofs.Secrets

/-!
# Runs that keep a secret

Two machines that differ in some secrets run alike as long as no instruction consults one of
them: they give the same answers, use the bus alike, and differ in these secrets at most when they
stop. Which instructions consult a secret is told by the bytes they begin with, and none of them
consults the interrupt mode or the first interrupt enable.

Main definitions:
- `Secret.codes`: the codes of the instructions that consult a secret.
- `Exec.bytesIn`: the bytes of the instructions that a batch performs.
- `Exec.SameRun`: two machines run alike, and differ in the secrets at most.

Main statements: `run_agreeBut_one` is about one secret, by induction on the run; `run_agreeBut`
takes several of them one after the other. `Means.exists_secret_code` finds the code of an
instruction that consults a secret, and `sameRun_of_codes` is for runs without such codes.
-/

namespace Z80

/-! ## Machines that differ in several secrets -/

theorem Registers.without_erase (r : Registers) (p : Secret) (secrets : List Secret) :
    (r.erase p).without secrets = (r.without secrets).erase p := by
  induction secrets generalizing r with
  | nil => rfl
  | cons q secrets ih =>
    show ((r.erase p).erase q).without secrets = ((r.erase q).without secrets).erase p
    rw [Registers.erase_comm, ih]

namespace Machine

variable {β ω : Type}

/-- The machine without a secret. -/
def erase (m : Machine β ω) (p : Secret) : Machine β ω :=
  { m with cpu := { m.cpu with regs := m.cpu.regs.erase p } }

theorem agreeBut_erase (m : Machine β ω) (p : Secret) : m.AgreeBut [p] (m.erase p) :=
  ⟨rfl, (Registers.erase_erase _).symm, .inr rfl, rfl⟩

namespace AgreeBut

variable {p : Secret} {secrets : List Secret} {m m' m'' : Machine β ω}

theorem symm (h : m.AgreeBut secrets m') : m'.AgreeBut secrets m :=
  ⟨h.bus.symm, h.regs.symm, h.config.imp_right Eq.symm, h.fault.symm⟩

theorem trans (h : m.AgreeBut secrets m') (h' : m'.AgreeBut secrets m'') :
    m.AgreeBut secrets m'' where
  bus := h.bus.trans h'.bus
  regs := h.regs.trans h'.regs
  config := by
    rcases h.config with hmem | hconfig
    · exact .inl hmem
    · exact h'.config.imp_right hconfig.trans
  fault := h.fault.trans h'.fault

theorem cons (h : m.AgreeBut secrets m') : m.AgreeBut (p :: secrets) m' where
  bus := h.bus
  regs := by
    show (m.cpu.regs.erase p).without secrets = (m'.cpu.regs.erase p).without secrets
    rw [Registers.without_erase, Registers.without_erase, h.regs]
  config := h.config.imp_left (List.mem_cons_of_mem p)
  fault := h.fault

theorem of_one (h : m.AgreeBut [p] m') : m.AgreeBut (p :: secrets) m' where
  bus := h.bus
  regs := congrArg (·.without secrets) h.regs
  config := h.config.imp_left fun hmem => List.mem_cons.mpr (.inl (List.mem_singleton.mp hmem))
  fault := h.fault

theorem erase (h : m.AgreeBut (p :: secrets) m') (hconfig : m.cpu.config = m'.cpu.config) :
    (m.erase p).AgreeBut secrets (m'.erase p) :=
  ⟨h.bus, h.regs, .inr hconfig, h.fault⟩

/-- The records that a tap begins do not tell the machines apart. -/
theorem tap (h : m.AgreeBut secrets m') : m.tap.AgreeBut secrets m'.tap :=
  ⟨congrArg (fun b => Tapped.mk b {}) h.bus, h.regs, h.config, h.fault⟩

end AgreeBut

end Machine

namespace Exec

variable {β ω : Type} [Bus β] [Observer ω] {m m' : Machine β ω} {p : Secret}
  {secrets : List Secret}

/-! ## Runs -/

/-- A run in which no instruction consults the secret goes alike on machines that differ in it. -/
theorem run_agreeBut_one (count : Nat) (h : m.AgreeBut [p] m')
    (hsecret : ∀ i ∈ executedIn count m, p ∉ i.secrets) :
    executedIn count m = executedIn count m' ∧ (run count m).1 = (run count m').1 ∧
      (run count m).2.AgreeBut [p] (run count m').2 := by
  induction count generalizing m m' with
  | zero => exact ⟨rfl, rfl, h⟩
  | succ count ih =>
    rw [executedIn] at hsecret
    rw [executedIn, executedIn, run_succ, run_succ, ← h.halted]
    by_cases hhalted : m.cpu.regs.halted = true
    · rw [if_pos hhalted, if_pos hhalted, if_pos hhalted, if_pos hhalted]
      exact ⟨rfl, rfl, h⟩
    · rw [if_neg hhalted] at hsecret
      rw [if_neg hhalted, if_neg hhalted, if_neg hhalted, if_neg hhalted]
      cases hnext : upcoming m with
      | some i =>
        rw [hnext] at hsecret
        obtain ⟨hi, hrest⟩ := List.forall_mem_cons.mp hsecret
        have hone : ∀ j, upcoming m = some j → p ∉ j.secrets := by
          intro j hj
          obtain rfl : i = j := Option.some.inj (hnext.symm.trans hj)
          exact hi
        obtain ⟨hupcoming, -, hafter⟩ := runOne_agreeBut h hone
        rw [hnext] at hupcoming
        obtain ⟨hexecuted, hresult, hend⟩ := ih hafter hrest
        rw [runOne_of_upcoming hnext, runOne_of_upcoming hupcoming.symm] at hexecuted hresult hend ⊢
        rw [← hupcoming]
        exact ⟨congrArg (i :: ·) hexecuted, hresult, hend⟩
      | none =>
        have hone : ∀ j, upcoming m = some j → p ∉ j.secrets := by
          rw [hnext]
          rintro j ⟨⟩
        obtain ⟨hupcoming, hresult, hafter⟩ := runOne_agreeBut h hone
        rw [hnext] at hupcoming
        rw [runOne_of_upcoming_none hnext, runOne_of_upcoming_none hupcoming.symm]
          at hresult hafter ⊢
        -- both record the same fault, and tell the same bus of it
        have hreport := Except.error.inj hresult
        rw [← hupcoming, hreport]
        have hbus := congrArg (Bus.fault (fetched m').cpu.invalidOpcode) hafter.bus
        exact ⟨rfl, rfl, hbus, hafter.regs, hafter.config, rfl⟩

/-- Several secrets are given up one after the other, by way of machines without the first. -/
theorem run_agreeBut (count : Nat) (h : m.AgreeBut (p :: secrets) m')
    (hconfig : m.cpu.config = m'.cpu.config)
    (hsecret : ∀ i ∈ executedIn count m, ∀ q ∈ p :: secrets, q ∉ i.secrets) :
    executedIn count m = executedIn count m' ∧ (run count m).1 = (run count m').1 ∧
      (run count m).2.AgreeBut (p :: secrets) (run count m').2 := by
  induction secrets generalizing p m m' with
  | nil => exact run_agreeBut_one count h fun i hi => (hsecret i hi) p (List.mem_singleton_self p)
  | cons q secrets ih =>
    have hfirst : ∀ i ∈ executedIn count m, p ∉ i.secrets :=
      fun i hi => hsecret i hi p List.mem_cons_self
    obtain ⟨hsame, hresult, hend⟩ := run_agreeBut_one count (m.agreeBut_erase p) hfirst
    have hothers : ∀ i ∈ executedIn count (m.erase p), ∀ q' ∈ q :: secrets, q' ∉ i.secrets := by
      rw [← hsame]
      exact fun i hi q' hq' => hsecret i hi q' (List.mem_cons_of_mem p hq')
    obtain ⟨hsame', hresult', hend'⟩ := ih (h.erase hconfig) hconfig hothers
    rw [hsame, hsame'] at hfirst
    obtain ⟨hsame'', hresult'', hend''⟩ :=
      run_agreeBut_one count (m'.agreeBut_erase p).symm hfirst
    refine ⟨?_, ?_, ?_⟩
    · rw [hsame, hsame', hsame'']
    · rw [hresult, hresult', hresult'']
    · exact (hend.of_one.trans hend'.cons).trans hend''.of_one

theorem step_agreeBut (count : Nat) (h : m.AgreeBut (p :: secrets) m')
    (hconfig : m.cpu.config = m'.cpu.config)
    (hsecret : ∀ i ∈ executedIn count m, ∀ q ∈ p :: secrets, q ∉ i.secrets) :
    (step count m).1 = (step count m').1 ∧
      (step count m).2.AgreeBut (p :: secrets) (step count m').2 := by
  cases hfault : m.cpu.fault with
  | some e =>
    rw [step_of_fault count hfault, step_of_fault count (h.fault ▸ hfault)]
    exact ⟨rfl, h⟩
  | none =>
    rw [step_of_running count hfault, step_of_running count (h.fault ▸ hfault)]
    exact (run_agreeBut count h hconfig hsecret).2

/-! ## The record at the bus -/

/-- Two machines run alike for so many instructions, with the same calls to the bus, and differ
in the secrets at most when they stop. -/
structure SameRun (count : Nat) (secrets : List Secret) (m m' : Machine β ω) : Prop where
  result : (step count m).1 = (step count m').1
  accesses : (step count m.tap).2.accesses = (step count m'.tap).2.accesses
  agreeBut : (step count m).2.AgreeBut secrets (step count m').2

theorem executedIn_untap (count : Nat) (m : Machine (Tapped β) (ω × Recorder)) :
    executedIn count m = executedIn count m.untap := by
  induction count generalizing m with
  | zero => rfl
  | succ count ih =>
    have hupcoming : upcoming m = upcoming m.untap :=
      (coupling_untap.dispatch (takeFirst m).1 (takeFirst m).2 (takeFirst m.untap).2 rfl).1
    rw [executedIn, executedIn, hupcoming, ih, (untap_runOne m).2]
    rfl

theorem sameRun_of_agreeBut (count : Nat) (h : m.AgreeBut (p :: secrets) m')
    (hconfig : m.cpu.config = m'.cpu.config)
    (hsecret : ∀ i ∈ executedIn count m, ∀ q ∈ p :: secrets, q ∉ i.secrets) :
    SameRun count (p :: secrets) m m' := by
  obtain ⟨hresult, hafter⟩ := step_agreeBut count h hconfig hsecret
  rw [← m.untap_tap, ← executedIn_untap] at hsecret
  obtain ⟨-, htapped⟩ := step_agreeBut count h.tap hconfig hsecret
  exact ⟨hresult, congrArg (·.record.events.toList) htapped.bus, hafter⟩

/-- The bytes of the instructions that a batch performs on a machine without a recorded fault. -/
def bytesIn : Nat → Machine β ω → List (List UInt8)
  | 0, _ => []
  | count + 1, m =>
    if m.cpu.regs.halted then []
    else
      match upcoming m with
      | some _ => (fetched m).cpu.current.bytes :: bytesIn count (runOne m).2
      | none => []

/-- Each instruction of a batch comes from its bytes. -/
theorem exists_means_of_executedIn {count : Nat} {i : Instruction} (hi : i ∈ executedIn count m) :
    ∃ bytes ∈ bytesIn count m, Means bytes i := by
  induction count generalizing m with
  | zero => exact absurd hi List.not_mem_nil
  | succ count ih =>
    rw [executedIn] at hi
    rw [bytesIn]
    split at hi
    · exact absurd hi List.not_mem_nil
    · next hhalted =>
      rw [if_neg hhalted]
      cases hnext : upcoming m with
      | none =>
        rw [hnext] at hi
        exact absurd hi List.not_mem_nil
      | some j =>
        rw [hnext] at hi
        rcases List.mem_cons.mp hi with rfl | hrest
        · obtain ⟨bytes, opcodes, hmeans, hgathered⟩ := means_upcoming hnext
          rw [hgathered.current]
          exact ⟨bytes, List.mem_cons_self, hmeans⟩
        · obtain ⟨bytes, hbytes, hmeans⟩ := ih hrest
          exact ⟨bytes, List.mem_cons_of_mem _ hbytes, hmeans⟩

end Exec

/-! ## Secrets by the codes -/

/-- The codes of the instructions that consult the secret. -/
def Secret.codes : Secret → List (List UInt8)
  | alternates => [[0x08], [0xD9]]
  | ix => [[0xDD]]
  | iy => [[0xFD]]
  | interrupt => [[0xED, 0x57]]
  | refresh => [[0xED, 0x5F]]
  | mode | enable => []

theorem secrets_bare (i : Instruction) : i.bare.secrets = i.secrets := by
  have haddress (a : Address) : a.bare.secrets = a.secrets := by
    cases a <;> rfl
  have hplace (q : Place) : q.bare.secrets = q.secrets := by
    cases q with
    | reg x => rfl
    | mem a => exact haddress a
  have hsource (src : Source) : src.bare.secrets = src.secrets := by
    cases src with
    | place q => exact hplace q
    | imm n => rfl
  cases i <;> simp [Instruction.bare, Instruction.secrets, hplace, hsource]

/-- The bytes of an instruction that consults a secret begin with one of the codes of the secret. -/
theorem Means.exists_secret_code {bytes : List UInt8} {i : Instruction} {p : Secret}
    (h : Means bytes i) (hp : p ∈ i.secrets) : ∃ code ∈ p.codes, Opens bytes code := by
  obtain ⟨code, htable, hopens⟩ := h.exists_checked (p := fun code i =>
    i.secrets.all fun p => p.codes.any (·.isPrefixOf code)) (by decide +kernel)
  rw [secrets_bare, List.all_eq_true] at htable
  obtain ⟨first, hfirst, hprefix⟩ := List.any_eq_true.mp (htable p hp)
  exact ⟨first, hfirst, hopens.of_isPrefix (List.isPrefixOf_iff_prefix.mp hprefix)⟩

namespace Exec

variable {β ω : Type} [Bus β] [Observer ω] {m m' : Machine β ω} {p : Secret}
  {secrets : List Secret}

/-- Machines run alike if none of the instructions begins with a code of a secret in which they
differ. -/
theorem sameRun_of_codes (count : Nat) (h : m.AgreeBut (p :: secrets) m')
    (hrefresh : .refresh ∉ p :: secrets)
    (hcodes : ∀ bytes ∈ bytesIn count m, ∀ code ∈ (p :: secrets).flatMap Secret.codes,
      ¬Opens bytes code) : SameRun count (p :: secrets) m m' := by
  refine sameRun_of_agreeBut count h (h.config.resolve_left hrefresh) fun i hi q hq hconsults => ?_
  obtain ⟨bytes, hbytes, hmeans⟩ := exists_means_of_executedIn hi
  obtain ⟨code, hcode, hopens⟩ := hmeans.exists_secret_code hconsults
  exact hcodes bytes hbytes code (List.mem_flatMap.mpr ⟨q, hq, hcode⟩) hopens

/-- On any bus and for any number of instructions, machines that differ in the alternate bank, an
index register, I, the interrupt mode and the first interrupt enable run alike, unless they come to
EX AF,AF', EXX, LD A,I or the index byte of that register. Machines that differ in the interrupt
mode and the first interrupt enable alone run alike whatever they come to. -/
theorem banked_sameRun (count : Nat) (m m' : Machine β ω) :
    (∀ x : Index, m.AgreeBut [.alternates, x.secret, .interrupt, .mode, .enable] m' →
      (∀ bytes ∈ bytesIn count m, ∀ code ∈ [[0x08], [0xD9], [x.lead], [0xED, 0x57]],
        ¬Opens bytes code) →
      SameRun count [.alternates, x.secret, .interrupt, .mode, .enable] m m') ∧
    (m.AgreeBut [.mode, .enable] m' → SameRun count [.mode, .enable] m m') := by
  constructor
  · intro x h hcodes
    refine sameRun_of_codes count h (by cases x <;> decide) ?_
    -- the list of codes is the one that the secrets have between them
    cases x <;> exact hcodes
  · intro h
    exact sameRun_of_codes count h (by decide) fun _ _ _ hcode => absurd hcode List.not_mem_nil

/-- PUSH IX with another IY, another alternate bank and another interrupt mode. -/
theorem banked_sameRun_pushIX :
    let bus : Scripted Board := { inner := {}, script := [(0, 0xDD), (1, 0xE5), (1, 0xE5)] }
    let m : Machine (Scripted Board) Unit := ⟨{ regs := { ix := 0x1234 } }, bus, ()⟩
    let m' : Machine (Scripted Board) Unit :=
      ⟨{ regs := { ix := 0x1234, iy := 0x5678, alt := { a := 3 }, im := 2 } }, bus, ()⟩
    let m'' : Machine (Scripted Board) Unit :=
      ⟨{ regs := { ix := 0x1234, im := 1, iff1 := true } }, bus, ()⟩
    bytesIn 1 m = [[0xDD, 0xE5]] ∧ (step 1 m.tap).2.accesses.length = 5 ∧
      (step 1 m'.tap).2.accesses = (step 1 m.tap).2.accesses ∧
      (step 1 m''.tap).2.accesses = (step 1 m.tap).2.accesses := by
  intro bus m m' m''
  have hbytes : bytesIn 1 m = [[0xDD, 0xE5]] := by
    decide +kernel
  have hlength : (step 1 m.tap).2.accesses.length = 5 := by
    decide +kernel
  have hcodes : ∀ bytes ∈ bytesIn 1 m, ∀ code ∈ [[0x08], [0xD9], [0xFD], [0xED, 0x57]],
      ¬Opens bytes code := by
    rw [hbytes]
    decide +kernel
  have hbanked : SameRun 1 _ m m' := (banked_sameRun 1 m m').1 .iy ⟨rfl, rfl, .inr rfl, rfl⟩ hcodes
  have henable : SameRun 1 _ m m'' := (banked_sameRun 1 m m'').2 ⟨rfl, rfl, .inr rfl, rfl⟩
  exact ⟨hbytes, hlength, hbanked.accesses.symm, henable.accesses.symm⟩

end Exec

end Z80
