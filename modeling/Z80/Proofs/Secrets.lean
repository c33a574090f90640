import Z80.Proofs.Upcoming

/-!
# Registers that an instruction does not consult

The alternate bank, an index register, the registers I and R, the interrupt mode and the first
interrupt enable are read by few instructions. Two machines that differ in one of them alone are
not told apart by the others, on any bus.

Main definitions:
- `Secret`, `Registers.erase`: a part of the register file, and the file without it.
- `Instruction.secrets`: the secrets that an instruction may consult.
- `Machine.AgreeBut`: two machines differ in secrets at most.
- `Exec.Within`: they do so in the middle of an instruction.
- `Exec.Hides`: an execution tells such machines nothing of a secret.

Main statements: `Hides.perform` says that an instruction hides all secrets but its own, and
`runOne_agreeBut` that machines that agree but for a hidden secret run alike.
-/

namespace Z80

/-- A part of the register file that few instructions consult. -/
inductive Secret where
  | alternates | ix | iy
  /-- The register I. -/
  | interrupt
  /-- The register R. -/
  | refresh
  | mode
  /-- The first interrupt enable. -/
  | enable
  deriving DecidableEq

/-- An index register as a secret. -/
def Index.secret : Index → Secret
  | .ix => .ix
  | .iy => .iy

/-- The interrupt or the refresh register as a secret. -/
def Special.secret : Special → Secret
  | .i => .interrupt
  | .r => .refresh

/-- The register file without a secret. -/
def Registers.erase (r : Registers) : Secret → Registers
  | .alternates => { r with alt := {} }
  | .ix => { r with ix := 0 }
  | .iy => { r with iy := 0 }
  | .interrupt => { r with i := 0 }
  | .refresh => { r with r := 0 }
  | .mode => { r with im := 0 }
  | .enable => { r with iff1 := false }

/-! ## Secrets that are consulted -/

/-- The secret that a byte register is half of. -/
def Reg8.secrets : Reg8 → List Secret
  | .upper x | .lower x => [x.secret]
  | _ => []

/-- The secret that a word register is. -/
def Reg16.secrets : Reg16 → List Secret
  | .index x => [x.secret]
  | _ => []

/-- The secret that an address depends on. -/
def Address.secrets : Address → List Secret
  | .indirect q => q.secrets
  | .displaced x _ => [x.secret]
  | .absolute _ => []

/-- The secret that a byte operand lies in, or that its address depends on. -/
def Place.secrets : Place → List Secret
  | .reg x => x.secrets
  | .mem a => a.secrets

/-- The secret that a source depends on. -/
def Source.secrets : Source → List Secret
  | .place q => q.secrets
  | .imm _ => []

/-- The secrets that an instruction may consult. -/
def Instruction.secrets : Instruction → List Secret
  | .load dst src => dst.secrets ++ src.secrets
  | .loadImm x _ | .loadWord x _ | .storeWord _ x | .loadSP x | .push x | .pop x
  | .exchangeStack x | .incWord x | .decWord x | .adcWord x | .sbcWord x | .jumpTo x => x.secrets
  | .addWord dst src => dst.secrets ++ src.secrets
  | .loadAFrom x => [x.secret]
  | .exchangeAF | .exchangeBanks => [.alternates]
  | .alu _ src => src.secrets
  | .inc q | .dec q | .bit _ q => q.secrets
  | .shift _ q copy | .res _ q copy | .set _ q copy => q.secrets ++ copy.elim [] Reg8.secrets
  | .inC x | .outC x => x.secrets
  -- these stay in the rest of the register file, or write to a secret only
  | .nop | .halt | .loadFromA _ | .exchangeDEHL | .daa | .cpl | .neg | .ccf | .scf | .rotateA _
  | .rrd | .rld | .jump _ _ | .jumpRelative _ _ | .djnz _ | .call _ _ | .ret _ | .retn | .reti
  | .rst _ | .inA _ | .outA _ | .di | .ei | .im _ | .block _ _ _ => []

namespace Registers

variable {p : Secret} (r : Registers)

theorem erase_erase : (r.erase p).erase p = r.erase p := by
  cases p <;> rfl

theorem erase_comm (q : Secret) : (r.erase p).erase q = (r.erase q).erase p := by
  cases p <;> cases q <;> rfl

/-- Files that agree but for a secret still do when both have been changed, if what becomes of the
rest does not depend on the secret. -/
theorem erase_congr {f : Registers → Registers} {r r' : Registers}
    (hf : ∀ r, (f (r.erase p)).erase p = (f r).erase p) (h : r.erase p = r'.erase p) :
    (f r).erase p = (f r').erase p := by
  rw [← hf, h, hf]

/-- What does not depend on a secret is the same of files that agree but for it. -/
theorem view_congr {δ : Type} {view : Registers → δ} {r r' : Registers}
    (hview : ∀ r, view (r.erase p) = view r) (h : r.erase p = r'.erase p) : view r = view r' := by
  rw [← hview, h, hview]

theorem byte_erase {x : Reg8} (h : p ∉ x.secrets) : (r.erase p).byte x = r.byte x := by
  cases x with
  | upper x | lower x =>
    have hne : p ≠ x.secret := List.ne_of_not_mem_cons h
    cases x <;> cases p <;> first | rfl | contradiction
  | _ => cases p <;> rfl

theorem word_erase {x : Reg16} (h : p ∉ x.secrets) : (r.erase p).word x = r.word x := by
  cases x with
  | index x =>
    have hne : p ≠ x.secret := List.ne_of_not_mem_cons h
    cases x <;> cases p <;> first | rfl | contradiction
  | _ => cases p <;> rfl

theorem address_erase {a : Address} (h : p ∉ a.secrets) : (r.erase p).address a = r.address a := by
  cases a with
  | indirect q => exact r.word_erase h
  | displaced x d => exact congrArg (displace · d) (r.word_erase (x := .index x) h)
  | absolute nn => rfl

theorem special_erase {x : Special} (h : p ≠ x.secret) :
    (r.erase p).special x = r.special x := by
  cases x <;> cases p <;> first | rfl | contradiction

theorem setByte_erase {x : Reg8} (h : p ∉ x.secrets) (v : UInt8) :
    (r.erase p).setByte x v = (r.setByte x v).erase p := by
  cases x with
  | upper x | lower x =>
    have hne : p ≠ x.secret := List.ne_of_not_mem_cons h
    cases x <;> cases p <;> first | rfl | contradiction
  | _ => cases p <;> rfl

theorem setWord_erase {x : Reg16} (h : p ∉ x.secrets) (v : UInt16) :
    (r.erase p).setWord x v = (r.setWord x v).erase p := by
  cases x with
  | index x =>
    have hne : p ≠ x.secret := List.ne_of_not_mem_cons h
    cases x <;> cases p <;> first | rfl | contradiction
  | _ => cases p <;> rfl

end Registers

/-- The register file without some secrets. -/
def Registers.without (r : Registers) (secrets : List Secret) : Registers :=
  secrets.foldl Registers.erase r

/-- The machines differ in the secrets at most, and in what no instruction consults: leftovers of
earlier ones, and the observer. Whether opcode fetches are counted is told by R alone. -/
structure Machine.AgreeBut {β ω : Type} (secrets : List Secret) (m m' : Machine β ω) : Prop where
  bus : m.bus = m'.bus
  regs : m.cpu.regs.without secrets = m'.cpu.regs.without secrets
  config : .refresh ∈ secrets ∨ m.cpu.config = m'.cpu.config
  fault : m.cpu.fault = m'.cpu.fault

namespace Machine.AgreeBut

variable {β ω : Type} {p : Secret} {m m' : Machine β ω} (h : m.AgreeBut [p] m')
include h

theorem pc : m.cpu.regs.pc = m'.cpu.regs.pc := by
  refine Registers.view_congr (fun r => ?_) h.regs
  cases p <;> rfl

theorem halted : m.cpu.regs.halted = m'.cpu.regs.halted := by
  refine Registers.view_congr (fun r => ?_) h.regs
  cases p <;> rfl

end Machine.AgreeBut

namespace Exec

variable {β ω α γ : Type}

/-- In the middle of an instruction, the machines differ in the secret at most. -/
structure Within (p : Secret) (m m' : Machine β ω) : Prop extends m.AgreeBut [p] m' where
  current : m.cpu.current = m'.cpu.current

/-- The execution goes alike on machines that differ in the secret at most. -/
def Hides (p : Secret) (x : Exec β ω α) : Prop :=
  Agree (Within p) x x

namespace Hides

variable {p : Secret}

theorem pure (a : α) : Hides p (Pure.pure a : Exec β ω α) :=
  Agree.pure a

theorem bind {x : Exec β ω α} {f : α → Exec β ω γ} (hx : Hides p x) (hf : ∀ a, Hides p (f a)) :
    Hides p (x >>= f) :=
  Agree.bind hx hf

theorem ite {c : Prop} [Decidable c] {x y : Exec β ω α} (hx : Hides p x) (hy : Hides p y) :
    Hides p (if c then x else y) :=
  Agree.ite hx hy

/-- To consult the registers is harmless, if what follows does not depend on the secret. -/
theorem regs_bind {f : Registers → Exec β ω α} (hvisible : ∀ r, f (r.erase p) = f r)
    (hf : ∀ r, Hides p (f r)) : Hides p (regs >>= f) := by
  intro m m' h
  have heq : f m.cpu.regs = f m'.cpu.regs := Registers.view_congr hvisible h.regs
  rw [bind_apply, bind_apply, regs_apply, regs_apply, heq]
  exact hf m'.cpu.regs m m' h

/-- To change the registers is harmless, if the rest does not depend on the secret afterwards. -/
theorem modifyRegs {f : Registers → Registers} (h : ∀ r, (f (r.erase p)).erase p = (f r).erase p) :
    Hides p (modifyRegs f : Exec β ω Unit) := by
  intro m m' hm
  exact ⟨rfl, { hm with regs := Registers.erase_congr h hm.regs }⟩

theorem setPC (a : UInt16) : Hides p (setPC a : Exec β ω Unit) := by
  refine modifyRegs fun r => ?_
  cases p <;> rfl

theorem setFlags (f : UInt8) : Hides p (setFlags f : Exec β ω Unit) := by
  refine modifyRegs fun r => ?_
  cases p <;> rfl

theorem setByte {x : Reg8} (h : p ∉ x.secrets) (v : UInt8) :
    Hides p (Exec.modifyRegs (·.setByte x v) : Exec β ω Unit) :=
  modifyRegs fun r => by rw [r.setByte_erase h, Registers.erase_erase]

theorem setWord {x : Reg16} (h : p ∉ x.secrets) (v : UInt16) :
    Hides p (Exec.modifyRegs (·.setWord x v) : Exec β ω Unit) :=
  modifyRegs fun r => by rw [r.setWord_erase h, Registers.erase_erase]

theorem updateA (f : UInt8 → UInt8 → Outcome UInt8) : Hides p (updateA f : Exec β ω Unit) := by
  refine modifyRegs fun r => ?_
  cases p <;> rfl

theorem updateWord {dst src : Reg16} (hdst : p ∉ dst.secrets) (hsrc : p ∉ src.secrets)
    (f : UInt16 → UInt16 → UInt8 → Outcome UInt16) :
    Hides p (updateWord dst src f : Exec β ω Unit) := by
  refine modifyRegs fun r => ?_
  have hf : (r.erase p).f = r.f := by
    cases p <;> rfl
  have hflags (s : Registers) (v : UInt8) :
      { s.erase p with f := v }.erase p = { s with f := v }.erase p := by
    cases p <;> rfl
  simp only [r.word_erase hdst, r.word_erase hsrc, hf, r.setWord_erase hdst, hflags]

/-- A word register is consulted, but it is no secret. -/
theorem word_bind {x : Reg16} (h : p ∉ x.secrets) {f : UInt16 → Exec β ω α}
    (hf : ∀ v, Hides p (f v)) : Hides p (regs >>= fun r => f (r.word x)) :=
  regs_bind (fun r => congrArg f (r.word_erase h)) fun _ => hf _

variable [Observer ω]

theorem halt : Hides p (do notify (.halt (← cpu).current.start) : Exec β ω Unit) :=
  fun _ _ h => ⟨rfl, { h with }⟩

variable [Bus β]

theorem read (a : UInt16) : Hides p (read a : Exec β ω UInt8) := by
  intro m m' h
  have hvalue : (Exec.read a m).1 = (Exec.read a m').1 :=
    congrArg (fun b => (Bus.read a b).1) h.bus
  exact ⟨hvalue, { h with bus := congrArg (fun b => (Bus.read a b).2) h.bus }⟩

theorem write (a : UInt16) (v : UInt8) : Hides p (write a v : Exec β ω Unit) :=
  fun _ _ h => ⟨rfl, { h with bus := congrArg (Bus.write a v) h.bus }⟩

theorem input (a : UInt16) : Hides p (input a : Exec β ω UInt8) := by
  intro m m' h
  have hvalue : (Exec.input a m).1 = (Exec.input a m').1 :=
    congrArg (fun b => (Bus.input a b).1) h.bus
  exact ⟨hvalue, { h with bus := congrArg (fun b => (Bus.input a b).2) h.bus }⟩

theorem output (a : UInt16) (v : UInt8) : Hides p (output a v : Exec β ω Unit) :=
  fun _ _ h => ⟨rfl, { h with bus := congrArg (Bus.output a v) h.bus }⟩

/-! ## Words, the stack and operands -/

theorem readWord (a : UInt16) : Hides p (readWord a : Exec β ω UInt16) :=
  (read a).bind fun _ => (read (a + 1)).bind fun _ => .pure _

theorem writeWord (a v : UInt16) : Hides p (writeWord a v : Exec β ω Unit) :=
  (write a _).bind fun _ => write (a + 1) _

theorem push (v : UInt16) : Hides p (push v : Exec β ω Unit) := by
  refine regs_bind (fun r => ?_) fun r => (write _ _).bind fun _ => (write _ _).bind fun _ =>
    modifyRegs fun r => ?_
  · cases p <;> rfl
  · cases p <;> rfl

theorem pop : Hides p (pop : Exec β ω UInt16) := by
  refine regs_bind (fun r => ?_) fun r => (readWord _).bind fun _ =>
    (modifyRegs fun r => ?_).bind fun _ => .pure _
  · cases p <;> rfl
  · cases p <;> rfl

theorem call (a : UInt16) : Hides p (call a : Exec β ω Unit) := by
  refine regs_bind (fun r => ?_) fun r => (push _).bind fun _ => setPC a
  cases p <;> rfl

theorem ret : Hides p (ret : Exec β ω Unit) :=
  pop.bind fun a => setPC a

theorem readPlace {q : Place} (h : p ∉ q.secrets) : Hides p (readPlace q : Exec β ω UInt8) := by
  cases q with
  | reg x => exact regs_bind (fun r => congrArg Pure.pure (r.byte_erase h)) fun _ => .pure _
  | mem a => exact regs_bind (fun r => congrArg Exec.read (r.address_erase h)) fun _ => read _

theorem readSource {src : Source} (h : p ∉ src.secrets) :
    Hides p (readSource src : Exec β ω UInt8) := by
  cases src with
  | place q => exact readPlace h
  | imm n => exact .pure n

theorem writePlace {q : Place} (h : p ∉ q.secrets) (v : UInt8) :
    Hides p (writePlace q v : Exec β ω Unit) := by
  cases q with
  | reg x => exact setByte h v
  | mem a =>
    exact regs_bind (fun r => congrArg (Exec.write · v) (r.address_erase h)) fun _ => write _ v

theorem update {q : Place} {copy : Option Reg8} (h : p ∉ q.secrets ++ copy.elim [] Reg8.secrets)
    (f : UInt8 → UInt8 → Outcome UInt8) : Hides p (update q copy f : Exec β ω Unit) := by
  rw [List.mem_append, not_or] at h
  refine (readPlace h.1).bind fun v => regs_bind (fun r => ?_) fun r =>
    (writePlace h.1 _).bind fun _ => (setFlags _).bind fun _ => ?_
  · cases p <;> rfl
  · cases copy with
    | none => exact .pure ()
    | some x => exact setByte h.2 _

theorem rotateDigits (f : UInt8 → UInt8 → UInt8 × UInt8) :
    Hides p (rotateDigits f : Exec β ω Unit) := by
  refine regs_bind (fun r => ?_) fun r => (read _).bind fun _ => (write _ _).bind fun _ =>
    modifyRegs fun r => ?_
  · cases p <;> rfl
  · cases p <;> rfl

/-! ## Instructions -/

theorem blockRound (kind : BlockKind) (dir : Direction) :
    Hides p (blockRound kind dir : Exec β ω Unit) := by
  have hmodify (f : Registers → Registers) (h : ∀ r, f (r.erase p) = (f r).erase p) :
      Hides p (Exec.modifyRegs f : Exec β ω Unit) :=
    modifyRegs fun r => by rw [h, Registers.erase_erase]
  refine regs_bind (fun r => ?_) fun r => ?_
  · cases kind <;> cases p <;> rfl
  · cases kind with
    | load =>
      exact (read _).bind fun _ => (write _ _).bind fun _ => hmodify _ fun r => by cases p <;> rfl
    | compare => exact (read _).bind fun _ => hmodify _ fun r => by cases p <;> rfl
    | input =>
      exact (input _).bind fun _ => (write _ _).bind fun _ => hmodify _ fun r => by cases p <;> rfl
    | output =>
      exact (read _).bind fun _ => (output _ _).bind fun _ => hmodify _ fun r => by cases p <;> rfl

theorem blockRounds (kind : BlockKind) (dir : Direction) (n : Nat) :
    Hides p (blockRounds kind dir n : Exec β ω Unit) := by
  induction n with
  | zero => exact .pure ()
  | succ n ih =>
    -- whether there is another round is told by BC and the flags
    refine (blockRound kind dir).bind fun _ => regs_bind (fun r => ?_) fun r => .ite ih (.pure ())
    cases kind <;> cases p <;> rfl

theorem block (kind : BlockKind) (dir : Direction) (repeats : Bool) :
    Hides p (block kind dir repeats : Exec β ω Unit) :=
  .ite (blockRounds kind dir _) (blockRound kind dir)

/-- An instruction hides every secret that is not among its own. -/
theorem perform {i : Instruction} (h : p ∉ i.secrets) : Hides p (perform i : Exec β ω Unit) := by
  cases i with
  | nop => exact .pure ()
  | halt =>
    have hhalted : Hides p (Exec.modifyRegs fun r => { r with halted := true } : Exec β ω Unit) :=
      modifyRegs fun r => by cases p <;> rfl
    have hnotify : Hides p (do notify (.halt (← cpu).current.start) : Exec β ω Unit) := halt
    exact hnotify.bind fun _ => hhalted
  | load dst src =>
    rw [Instruction.secrets, List.mem_append, not_or] at h
    exact (readSource h.2).bind fun _ => writePlace h.1 _
  | loadImm x nn => exact setWord h nn
  | loadWord x nn => exact (readWord nn).bind fun _ => setWord h _
  | storeWord nn src => exact word_bind h fun _ => writeWord nn _
  | loadSP src =>
    refine modifyRegs fun r => ?_
    rw [r.word_erase h]
    cases p <;> rfl
  | loadAFrom x =>
    refine modifyRegs fun r => ?_
    simp only [r.special_erase (List.ne_of_not_mem_cons h)]
    cases p <;> rfl
  | loadFromA x =>
    refine modifyRegs fun r => ?_
    cases x <;> cases p <;> rfl
  | push src => exact word_bind h fun _ => push _
  | pop dst => exact pop.bind fun _ => setWord h _
  | exchangeAF | exchangeBanks =>
    refine modifyRegs fun r => ?_
    have hne : p ≠ .alternates := List.ne_of_not_mem_cons h
    cases p <;> first | rfl | contradiction
  | exchangeStack x =>
    refine regs_bind (fun r => ?_) fun r => (readWord _).bind fun _ => (writeWord _ _).bind fun _ =>
      setWord h _
    rw [r.word_erase h]
    cases p <;> rfl
  | alu op src => exact (readSource h).bind fun _ => updateA _
  | inc q | dec q => exact update (by rwa [Option.elim_none, List.append_nil]) _
  | incWord x | decWord x =>
    refine modifyRegs fun r => ?_
    rw [r.word_erase h, r.setWord_erase h, Registers.erase_erase]
  | addWord dst src =>
    rw [Instruction.secrets, List.mem_append, not_or] at h
    exact updateWord h.1 h.2 _
  | adcWord src | sbcWord src => exact updateWord List.not_mem_nil h _
  | daa | cpl | neg | ccf | scf | rotateA _ => exact updateA _
  | shift op q copy | res n q copy | set n q copy => exact update h _
  | bit n q =>
    refine (readPlace h).bind fun _ => modifyRegs fun r => ?_
    cases p <;> rfl
  | rrd | rld => exact rotateDigits _
  | jump cc nn =>
    refine regs_bind (fun r => ?_) fun r => .ite (setPC nn) (.pure ())
    cases p <;> rfl
  | jumpTo x => exact word_bind h fun _ => setPC _
  | jumpRelative cc d =>
    refine regs_bind (fun r => ?_) fun r => .ite (setPC _) (.pure ())
    cases p <;> rfl
  | djnz d =>
    refine (modifyRegs fun r => ?_).bind fun _ => regs_bind (fun r => ?_) fun r =>
      .ite (setPC _) (.pure ())
    · cases p <;> rfl
    · cases p <;> rfl
  | call cc nn =>
    refine regs_bind (fun r => ?_) fun r => .ite (call nn) (.pure ())
    cases p <;> rfl
  | ret cc =>
    refine regs_bind (fun r => ?_) fun r => .ite ret (.pure ())
    cases p <;> rfl
  | retn =>
    refine (modifyRegs fun r => ?_).bind fun _ => ret
    cases p <;> rfl
  | reti => exact ret
  | rst target => exact call target
  | inA n =>
    refine regs_bind (fun r => ?_) fun r => (input _).bind fun _ => modifyRegs fun r => ?_
    · cases p <;> rfl
    · cases p <;> rfl
  | outA n =>
    refine regs_bind (fun r => ?_) fun r => output _ _
    cases p <;> rfl
  | inC dst =>
    refine regs_bind (fun r => ?_) fun r => (input _).bind fun v => modifyRegs fun r => ?_
    · cases p <;> rfl
    · rw [r.setByte_erase h]
      cases p <;> rfl
  | outC src =>
    refine regs_bind (fun r => ?_) fun r => output _ _
    rw [r.byte_erase h]
    cases p <;> rfl
  | exchangeDEHL | di | ei | im _ =>
    refine modifyRegs fun r => ?_
    cases p <;> rfl
  | block kind dir repeats => exact block kind dir repeats

end Hides

/-! ## Whole instructions -/

variable [Bus β] [Observer ω] {p : Secret} {m m' : Machine β ω}

omit [Bus β] [Observer ω] in
/-- Whether an opcode fetch is counted makes a difference to R alone. -/
theorem erase_countFetch (h : m.AgreeBut [p] m') :
    m.cpu.countFetch.regs.erase p = m'.cpu.countFetch.regs.erase p := by
  have hregs : m.cpu.regs.erase p = m'.cpu.regs.erase p := h.regs
  rw [Cpu.countFetch_regs, Cpu.countFetch_regs]
  rcases h.config with hp | hconfig
  · obtain rfl : p = .refresh := (List.mem_singleton.mp hp).symm
    have hcounted (c : Bool) (r : Registers) :
        (if c then r.refresh else r).erase .refresh = r.erase .refresh := by
      cases c <;> rfl
    rw [hcounted, hcounted, hregs]
  · rw [hconfig]
    cases m'.cpu.config.incrementRefresh with
    | true =>
      refine Registers.erase_congr (f := Registers.refresh) (fun r => ?_) hregs
      cases p <;> rfl
    | false => exact hregs

/-- No byte of an instruction is found with the help of a secret. -/
theorem intakeCoupling_within (p : Secret) :
    IntakeCoupling (Within p : Machine β ω → Machine β ω → Prop) where
  pc _ _ h := h.pc
  read a := Hides.read a
  takeByte v := by
    intro m m' h
    refine ⟨rfl, { h with regs := ?_, current := ?_ }⟩
    · refine Registers.erase_congr (f := fun r => { r with pc := r.pc + 1 }) (fun r => ?_) h.regs
      cases p <;> rfl
    · exact congrArg (fun c : Current => { c with bytes := c.bytes ++ [v] }) h.current
  countFetch := by
    intro m m' h
    have hrecord := Cpu.SameRecord.countFetch m.cpu
    have hrecord' := Cpu.SameRecord.countFetch m'.cpu
    refine ⟨rfl, ⟨⟨h.bus, ?_, ?_, ?_⟩, ?_⟩⟩
    · exact erase_countFetch h.toAgreeBut
    · exact h.config.imp_right fun hconfig =>
        hrecord.config.trans (hconfig.trans hrecord'.config.symm)
    · exact hrecord.fault.trans (h.fault.trans hrecord'.fault.symm)
    · exact (Cpu.current_countFetch _).trans (h.current.trans (Cpu.current_countFetch _).symm)

/-- Machines that agree but for a secret begin their next instruction alike. -/
theorem takeFirst_agreeBut (h : m.AgreeBut [p] m') :
    (takeFirst m).1 = (takeFirst m').1 ∧ Within p (takeFirst m).2 (takeFirst m').2 := by
  have hbegin : Within p (modifyCpu Cpu.beginInstruction m).2
      (modifyCpu Cpu.beginInstruction m').2 :=
    { h with current := congrArg (fun a => (⟨a, []⟩ : Current)) h.pc }
  obtain ⟨hop, hfetch⟩ := (intakeCoupling_within p).fetchOpcode _ _ hbegin
  -- the announcement and the count are seen by nobody who is asked here
  exact ⟨hop, { hfetch with }⟩

/-- Machines that agree but for a secret run their next instruction alike, unless it is one that
may consult the secret. -/
theorem runOne_agreeBut (h : m.AgreeBut [p] m')
    (hsecret : ∀ i, upcoming m = some i → p ∉ i.secrets) :
    upcoming m = upcoming m' ∧ (runOne m).1 = (runOne m').1 ∧
      (runOne m).2.AgreeBut [p] (runOne m').2 := by
  obtain ⟨hop, hfirst⟩ := takeFirst_agreeBut h
  obtain ⟨hsame, hfetched⟩ := (intakeCoupling_within p).dispatch (takeFirst m).1 _ _ hfirst
  have hupcoming : upcoming m = upcoming m' := by
    rw [upcoming, upcoming, ← hop]
    exact hsame
  have hwithin : Within p (fetched m) (fetched m') := by
    rw [fetched, fetched, ← hop]
    exact hfetched
  refine ⟨hupcoming, ?_⟩
  rw [runOne_conclude, runOne_conclude, ← hupcoming]
  cases hnext : upcoming m with
  | some i =>
    obtain ⟨-, hafter⟩ := Hides.perform (hsecret i hnext) _ _ hwithin
    exact ⟨rfl, hafter.toAgreeBut⟩
  | none =>
    have hreport : (fetched m).cpu.invalidOpcode = (fetched m').cpu.invalidOpcode :=
      congrArg (fun c : Current => (⟨c.start, c.bytes⟩ : InvalidOpcode)) hwithin.current
    exact ⟨congrArg Except.error hreport, hwithin.toAgreeBut⟩

end Exec

end Z80
