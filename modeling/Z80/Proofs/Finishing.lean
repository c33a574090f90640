import Z80.Proofs.BlockRounds
import Z80.Proofs.PrefixLoop

/-!
# Every instruction finishes

The processor has two loops that no counter of their own bounds: over the index bytes of an
instruction and over the rounds of a block instruction. The first one ends soon on a bus that does
not change its mind between two reads, and the second one ends on any bus. So a batch returns,
also if neither loop is given a bound.

Main definitions:
- `Decoding.AtMost`: an instruction needs no more than so many operand bytes.
- `Bus.Steady`: reads of an address agree as long as nothing else is done.
- `Exec.Performs`, `Exec.Completes`, `Exec.Returns`: instructions and batches without bounds.

Main statements: `prefixRounds_two` for the index bytes, `byteCount_prefixRounds` for the length of
an instruction, `exists_rounds` for its block loop, and `step_finishes` for all of them.
-/

namespace Z80

/-! ## The length of an instruction -/

/-- No more than so many operand bytes are needed. -/
def Decoding.AtMost : Nat → Decoding → Prop
  | _, .done _ => True
  | 0, .operand _ => False
  | n + 1, .operand next => ∀ v, (next v).AtMost n

section Pages

variable {op : UInt8} {d : Decoding}

theorem atMost_base (h : Lead.ofByte op = .plain d) : d.AtMost 2 := by
  unfold Lead.ofByte at h
  split at h
  · cases h
    unfold Page.quarter0
    split <;> (try split) <;> simp [Decoding.AtMost, Decoding.byte, Decoding.word]
  · cases h
    trivial
  · cases h
    trivial
  · unfold Page.quarter3 at h
    split at h <;> (try split at h) <;> cases h <;>
      simp [Decoding.AtMost, Decoding.byte, Decoding.word]

theorem atMost_ed (h : Page.ed op = some d) : d.AtMost 2 := by
  unfold Page.ed at h
  split at h
  · unfold Page.edControl at h
    split at h
    · obtain ⟨r, -, rfl⟩ := Option.map_eq_some_iff.mp h
      trivial
    · obtain ⟨r, -, rfl⟩ := Option.map_eq_some_iff.mp h
      trivial
    · cases h
      trivial
    · cases h
      split <;> simp [Decoding.AtMost, Decoding.word]
    all_goals
      split at h <;> cases h <;> trivial
  · split at h
    · obtain ⟨kind, -, rfl⟩ := Option.map_eq_some_iff.mp h
      trivial
    · cases h

theorem atMost_index {x : Index} (h : Page.index x op = some d) : d.AtMost 2 := by
  unfold Page.index at h
  split at h
  · unfold Page.indexQuarter0 at h
    split at h <;> (try split at h) <;> cases h <;>
      simp [Decoding.AtMost, Page.displaced, Decoding.byte, Decoding.word]
  · simp only [Page.indexQuarter1] at h
    split at h
    · cases h
    · cases h
      exact fun _ => trivial
    · cases h
      exact fun _ => trivial
    · split at h
      · obtain ⟨dst, -, h⟩ := Option.bind_eq_some_iff.mp h
        obtain ⟨src, -, h⟩ := Option.bind_eq_some_iff.mp h
        cases h
        trivial
      · cases h
  · unfold Page.indexQuarter2 at h
    split at h <;> cases h <;> simp [Decoding.AtMost, Page.displaced, Decoding.byte]
  · unfold Page.indexQuarter3 at h
    split at h <;> cases h <;> simp [Decoding.AtMost, Decoding.byte]

end Pages

namespace Exec

variable {β ω : Type} [Bus β] [Observer ω] {m m' : Machine β ω}

/-- How many bytes have been taken in for the instruction under way. -/
def byteCount (m : Machine β ω) : Nat :=
  m.cpu.current.bytes.length

theorem byteCount_fetchByte (m : Machine β ω) : byteCount (fetchByte m).2 = byteCount m + 1 :=
  List.length_append

theorem byteCount_fetchOpcode (m : Machine β ω) :
    byteCount (fetchOpcode m).2 = byteCount m + 1 := by
  have hcount : byteCount (modifyCpu Cpu.countFetch m).2 = byteCount m :=
    congrArg (·.bytes.length) (Cpu.current_countFetch m.cpu)
  exact (byteCount_fetchByte _).trans (congrArg (· + 1) hcount)

theorem byteCount_complete {d : Decoding} {n : Nat} (h : d.AtMost n) (m : Machine β ω) :
    byteCount (complete d m).2 ≤ byteCount m + n := by
  induction d generalizing m n with
  | done i => exact Nat.le_add_right _ _
  | operand next ih =>
    cases n with
    | zero => exact h.elim
    | succ n =>
      have hrest := ih (fetchByte m).1 (h (fetchByte m).1) (fetchByte m).2
      rw [byteCount_fetchByte] at hrest
      rw [complete, bind_apply]
      omega

/-- The operand bytes of an entry in a page come last. -/
theorem byteCount_completeOrNext {d? : Option Decoding} (h : ∀ d, d? = some d → d.AtMost 2)
    (next : UInt8) (m : Machine β ω) :
    byteCount (completeOrNext d? next m).2 ≤ byteCount m + 2 := by
  cases d? with
  | some d => exact byteCount_complete (h d rfl) m
  | none => exact Nat.le_add_right _ _

theorem byteCount_prefixRound (op : UInt8) (m : Machine β ω) :
    byteCount (prefixRound op m).2 ≤ byteCount m + 3 := by
  cases hlead : Lead.ofByte op with
  | plain d =>
    rw [prefixRound, hlead]
    exact Nat.le_succ_of_le (byteCount_complete (atMost_base hlead) m)
  | cb =>
    have hopcode := byteCount_fetchOpcode m
    rw [prefixRound, hlead]
    show byteCount (fetchOpcode m).2 ≤ byteCount m + 3
    omega
  | ed =>
    have hopcode := byteCount_fetchOpcode m
    rw [prefixRound, hlead]
    simp only [bind_apply]
    cases hentry : Page.ed (fetchOpcode m).1 with
    | some d =>
      have hrest := byteCount_complete (atMost_ed hentry) (fetchOpcode m).2
      show byteCount (complete d (fetchOpcode m).2).2 ≤ byteCount m + 3
      omega
    | none =>
      show byteCount (fetchOpcode m).2 ≤ byteCount m + 3
      omega
  | index x =>
    have hopcode := byteCount_fetchOpcode (read m.cpu.regs.pc m).2
    rw [prefixRound_of_index hlead]
    simp only [bind_apply, regs_apply]
    split
    · exact Nat.le_add_right _ _
    · rw [bind_apply]
      generalize fetchOpcode (read m.cpu.regs.pc m).2 = out at hopcode ⊢
      obtain ⟨next, s⟩ := out
      have hrest : byteCount (completeOrNext (Page.index x next) next s).2 ≤ byteCount s + 2 :=
        byteCount_completeOrNext (fun _ => atMost_index) next s
      have hnext : byteCount s = byteCount m + 1 := hopcode
      rw [hnext] at hrest
      exact hrest

/-- On any bus an instruction is no more than three bytes longer than its rounds. -/
theorem byteCount_prefixRounds {n : Nat} {op : UInt8} {i? : Option Instruction}
    (h : prefixRounds n op m = (.inl i?, m')) : byteCount m' ≤ byteCount m + n + 2 := by
  induction n generalizing op m with
  | zero => cases h
  | succ n ih =>
    obtain ⟨j?, m₁, hround, hlast⟩ | ⟨next, m₁, hround, hrest⟩ := prefixRounds_cases h
    · have hthree := byteCount_prefixRound op m
      rw [hround] at hthree
      cases hlast
      exact Nat.le_trans hthree (by omega)
    · obtain ⟨-, -, hfetch⟩ := prefixRound_inr hround
      have hone : byteCount m₁ = byteCount m + 1 := by
        have hopcode := byteCount_fetchOpcode (read m.cpu.regs.pc m).2
        rw [hfetch] at hopcode
        exact hopcode
      have hothers := ih hrest
      omega

end Exec

/-! ## Steady buses -/

section Buses

variable {β : Type} [Bus β] {b b' : β}

/-- A call of the processor changes the one state of the bus into the other. -/
inductive Bus.Called : β → β → Prop where
  | read (a : UInt16) (b : β) : Called b (Bus.read a b).2
  | write (a : UInt16) (v : UInt8) (b : β) : Called b (Bus.write a v b)
  | input (a : UInt16) (b : β) : Called b (Bus.input a b).2
  | output (a : UInt16) (v : UInt8) (b : β) : Called b (Bus.output a v b)
  | fault (e : InvalidOpcode) (b : β) : Called b (Bus.fault e b)

/-- Whatever the bus is asked to do, from then on reads of an address agree as long as there are
only reads. -/
def Bus.Steady (b : β) : Prop :=
  ∀ b₁, Relation.ReflTransGen Bus.Called b b₁ → ∀ b₂, OnlyRead b₁ b₂ →
    ∀ a, (Bus.read a b₂).1 = (Bus.read a b₁).1

theorem Bus.Steady.called (h : Bus.Steady b) (hcall : Bus.Called b b') : Bus.Steady b' :=
  fun _ hreach => h _ (.head hcall hreach)

/-- Two reads in a row of one address agree. -/
theorem Bus.Steady.read_read (h : Bus.Steady b) (a : UInt16) :
    (Bus.read a (Bus.read a b).2).1 = (Bus.read a b).1 :=
  h b .refl _ ((OnlyRead.refl b).read a) a

/-- To read a board changes nothing. -/
theorem Board.steady (b : Board) : Bus.Steady b := by
  intro b₁ _ b₂ hread a
  have hsame : b₂ = b₁ := by
    induction hread with
    | refl => rfl
    | tail _ hlast ih =>
      obtain ⟨c, rfl⟩ := hlast
      exact ih
  rw [hsame]

end Buses

namespace Exec

variable {β ω : Type} [Bus β] [Observer ω] {m m' : Machine β ω}

theorem invariant_steady : Invariant fun m : Machine β ω => Bus.Steady m.bus where
  modifyRegs _ := fun _ h => h
  read _ := fun _ h => h.called (.read _ _)
  write _ _ := fun _ h => h.called (.write _ _ _)
  input _ := fun _ h => h.called (.input _ _)
  output _ _ := fun _ h => h.called (.output _ _ _)
  halt := fun _ h => h
  takeByte _ := fun _ h => h
  countFetch := fun _ h => h

section Steady

variable (h : Bus.Steady m.bus)
include h

theorem steady_takeFirst : Bus.Steady (takeFirst m).2.bus :=
  h.called (.read _ _)

/-- A steady bus does not present an index byte where it has shown another byte ahead. -/
theorem not_index_of_steady {op next : UInt8} (hround : prefixRound op m = (.inr next, m')) :
    isIndexByte next = false := by
  obtain ⟨-, hahead, hfetch⟩ := prefixRound_inr hround
  have hpc : (read m.cpu.regs.pc m).2.cpu.countFetch.regs.pc = m.cpu.regs.pc :=
    Cpu.pc_countFetch m.cpu
  have hagain : (fetchOpcode (read m.cpu.regs.pc m).2).1 = (read m.cpu.regs.pc m).1 := by
    show (Bus.read (read m.cpu.regs.pc m).2.cpu.countFetch.regs.pc
      (Bus.read m.cpu.regs.pc m.bus).2).1 = (Bus.read m.cpu.regs.pc m.bus).1
    rw [hpc]
    exact h.read_read _
  have hnext : next = (read m.cpu.regs.pc m).1 :=
    (congrArg Prod.fst hfetch).symm.trans hagain
  rw [hnext]
  exact hahead

/-- Two rounds are enough. -/
theorem exists_prefixRounds_two (op : UInt8) :
    ∃ i? m', prefixRounds 2 op m = (.inl i?, m') := by
  rw [prefixRounds_succ]
  rcases hfirst : prefixRound op m with ⟨i? | next, m₁⟩
  · exact ⟨i?, m₁, rfl⟩
  · have hnext := not_index_of_steady h hfirst
    show ∃ i? m', prefixRounds 1 next m₁ = (.inl i?, m')
    rw [prefixRounds_succ]
    rcases hsecond : prefixRound next m₁ with ⟨i? | v, m₂⟩
    · exact ⟨i?, m₂, rfl⟩
    · -- only an index byte leads on
      rw [(prefixRound_inr hsecond).1] at hnext
      cases hnext

theorem prefixRounds_two :
    prefixRounds 2 (takeFirst m).1 (takeFirst m).2 = (.inl (upcoming m), fetched m) := by
  obtain ⟨i?, m', hrounds⟩ := exists_prefixRounds_two (steady_takeFirst h) (takeFirst m).1
  have hdispatch : dispatch (takeFirst m).1 (takeFirst m).2 = (i?, m') :=
    dispatchWithin_of_prefixRounds hrounds (by decide)
  rw [hrounds, upcoming, fetched, hdispatch]

theorem byteCount_runOne_le : byteCount (runOne m).2 ≤ 5 := by
  have hlength := byteCount_prefixRounds (prefixRounds_two h)
  have hfirst : byteCount (takeFirst m).2 = 1 :=
    congrArg (·.bytes.length) (taken_takeFirst m).current
  have hcurrent : byteCount (runOne m).2 = byteCount (fetched m) :=
    congrArg (·.bytes.length) (current_runOne m)
  omega

end Steady

/-! ## Executions without bounds -/

/-- An instruction that has been taken in is performed. A repeated block instruction goes round
for as long as its test holds. -/
inductive Performs : Instruction → Machine β ω → Machine β ω → Prop where
  | once {i : Instruction} (m : Machine β ω) : (∀ kind dir, i ≠ .block kind dir true) →
      Performs i m (perform i m).2
  | repeated {kind : BlockKind} {dir : Direction} {m : Machine β ω} {n : Nat} :
      Repeats kind dir m n → Performs (.block kind dir true) m ((afterRound kind dir)^[n] m)

/-- The instruction at the program counter has been run, with this answer. The loop over its index
bytes goes round for as long as it has to. -/
inductive Completes (m : Machine β ω) : Except InvalidOpcode Unit → Machine β ω → Prop where
  | ok {n : Nat} {i : Instruction} {s m' : Machine β ω} :
      prefixRounds n (takeFirst m).1 (takeFirst m).2 = (.inl (some i), s) → Performs i s m' →
      Completes m (.ok ()) m'
  | error {n : Nat} {s : Machine β ω} :
      prefixRounds n (takeFirst m).1 (takeFirst m).2 = (.inl none, s) →
      Completes m (.error s.cpu.invalidOpcode) s

/-- A batch on a machine without a recorded fault has returned, with this answer. -/
inductive Returns : Nat → Machine β ω → Except InvalidOpcode Unit → Machine β ω → Prop where
  | done (m : Machine β ω) : Returns 0 m (.ok ()) m
  | idle {count : Nat} {m : Machine β ω} : m.cpu.regs.halted = true →
      Returns (count + 1) m (.ok ()) m
  | next {count : Nat} {m m₁ m' : Machine β ω} {r : Except InvalidOpcode Unit} :
      m.cpu.regs.halted = false → Completes m (.ok ()) m₁ → Returns count m₁ r m' →
      Returns (count + 1) m r m'
  | failed {count : Nat} {m m₁ : Machine β ω} {e : InvalidOpcode} :
      m.cpu.regs.halted = false → Completes m (.error e) m₁ →
      Returns (count + 1) m (.error e) (recordFault e m₁)

/-- No bus keeps an instruction from being performed to its end. -/
theorem performs (i : Instruction) (m : Machine β ω) : Performs i m (perform i m).2 := by
  by_cases hi : ∃ kind dir, i = .block kind dir true
  · obtain ⟨kind, dir, rfl⟩ := hi
    obtain ⟨n, hle, hrepeats⟩ := exists_repeats kind dir m
    rw [hrepeats.perform (Nat.le_trans hle (kind.rounds_le _))]
    exact .repeated hrepeats
  · exact .once m fun kind dir h => hi ⟨kind, dir, h⟩

theorem completes_of_steady (h : Bus.Steady m.bus) : Completes m (runOne m).1 (runOne m).2 := by
  have hrounds := prefixRounds_two h
  cases hnext : upcoming m with
  | some i =>
    rw [hnext] at hrounds
    rw [runOne_of_upcoming hnext]
    exact .ok hrounds (performs i (fetched m))
  | none =>
    rw [hnext] at hrounds
    rw [runOne_of_upcoming_none hnext]
    exact .error hrounds

/-- A steady bus is still steady behind an instruction, so there the next one completes too. -/
theorem returns_run (count : Nat) (h : Bus.Steady m.bus) :
    Returns count m (run count m).1 (run count m).2 := by
  induction count generalizing m with
  | zero => exact .done m
  | succ count ih =>
    rw [run_succ]
    cases hhalted : m.cpu.regs.halted with
    | true => exact .idle hhalted
    | false =>
      have hone := completes_of_steady h
      have hsteady : Bus.Steady (runOne m).2.bus := invariant_steady.runOne (steady_takeFirst h)
      rw [if_neg Bool.false_ne_true]
      generalize runOne m = out at hone hsteady
      obtain ⟨r, m₁⟩ := out
      cases r with
      | ok u => exact .next hhalted hone (ih hsteady)
      | error e => exact .failed hhalted hone

/-! ## Instructions and batches -/

/-- All loops of the instruction at the program counter end, and so do those of a batch that
begins with it. -/
structure Finishes (m : Machine β ω) : Prop where
  /-- The loop over index bytes makes no more than two rounds. -/
  rounds : prefixRounds 2 (takeFirst m).1 (takeFirst m).2 = (.inl (upcoming m), fetched m)
  /-- No more than five bytes are taken in. -/
  bytes : (runOne m).2.cpu.current.bytes.length ≤ 5
  /-- A repeated block instruction makes as many rounds as its counter stands for. Only a search
  can make less. -/
  block : ∀ kind dir, upcoming m = some (.block kind dir true) →
    ∃ k, Repeats kind dir (fetched m) k ∧ 0 < k ∧ k ≤ kind.rounds m.cpu.regs ∧
      (kind ≠ .compare → k = kind.rounds m.cpu.regs) ∧
      runOne m = (.ok (), (afterRound kind dir)^[k] (fetched m))
  returns : ∀ count, m.cpu.fault = none → Returns count m (step count m).1 (step count m).2
  refused : ∀ count e, m.cpu.fault = some e → step count m = (.error e, m)

/-- The counter of a block instruction is that from before it has been taken in. -/
theorem exists_rounds {kind : BlockKind} {dir : Direction}
    (hnext : upcoming m = some (.block kind dir true)) :
    ∃ k, Repeats kind dir (fetched m) k ∧ 0 < k ∧ k ≤ kind.rounds m.cpu.regs ∧
      (kind ≠ .compare → k = kind.rounds m.cpu.regs) ∧
      runOne m = (.ok (), (afterRound kind dir)^[k] (fetched m)) := by
  have hrounds : kind.rounds (fetched m).cpu.regs = kind.rounds m.cpu.regs := by
    rw [regs_fetched]
    cases kind <;> rfl
  obtain ⟨k, hrepeats, hle, hall⟩ : ∃ k, Repeats kind dir (fetched m) k ∧
      k ≤ kind.rounds m.cpu.regs ∧ (kind ≠ .compare → k = kind.rounds m.cpu.regs) := by
    rw [← hrounds]
    by_cases hkind : kind = .compare
    · obtain ⟨k, hle, hrepeats⟩ := exists_repeats kind dir (fetched m)
      exact ⟨k, hrepeats, hle, fun hne => absurd hkind hne⟩
    · exact ⟨_, repeats_rounds dir (fetched m) hkind, Nat.le_refl _, fun _ => rfl⟩
  refine ⟨k, hrepeats, hrepeats.pos, hle, hall, ?_⟩
  rw [runOne_of_upcoming hnext, hrepeats.perform (Nat.le_trans hle (kind.rounds_le _))]

theorem finishes_of_steady (h : Bus.Steady m.bus) : Finishes m where
  rounds := prefixRounds_two h
  bytes := byteCount_runOne_le h
  block _ _ hnext := exists_rounds hnext
  returns count hfault := by
    rw [step_of_running count hfault]
    exact returns_run count h
  refused count _ hfault := step_of_fault count hfault

/-- On a steady bus every instruction and every batch finishes. On any bus, an instruction is what
the loop over its index bytes ends with; and that loop has gone round `n` times only if there were
`n` index bytes, the bus has answered a look ahead behind each of them with another byte, and the
next read of the same address has given the byte that the loop goes on with. -/
theorem step_finishes :
    (∀ m : Machine β ω, Bus.Steady m.bus → Finishes m) ∧
    ∀ m : Machine β ω,
      (∀ n ≤ indexLimit, ∀ i? s, prefixRounds n (takeFirst m).1 (takeFirst m).2 = (.inl i?, s) →
        upcoming m = i? ∧ fetched m = s) ∧
      ∀ n next s, prefixRounds n (takeFirst m.tap).1 (takeFirst m.tap).2 = (.inr next, s) →
        ∃ bytes aheads, bytes.length = n ∧ aheads.length = n ∧
          (∀ v ∈ bytes, isIndexByte v = true) ∧ (∀ w ∈ aheads, isIndexByte w = false) ∧
          s.accesses = instructionReads m.cpu.regs.pc (bytes ++ [next]) aheads := by
  refine ⟨fun m h => finishes_of_steady h, fun m => ⟨fun n hle i? s h => ?_, fun n next s h => ?_⟩⟩
  · have hdispatch : dispatch (takeFirst m).1 (takeFirst m).2 = (i?, s) :=
      dispatchWithin_of_prefixRounds h hle
    rw [upcoming, fetched, hdispatch]
    exact ⟨rfl, rfl⟩
  · have hfirst : Taken m.tap (takeFirst m.tap).2 [(takeFirst m.tap).1] := taken_takeFirst m.tap
    have hpc : (takeFirst m.tap).2.cpu.regs.pc = m.cpu.regs.pc + 1 := hfirst.pc
    have haccesses : (takeFirst m.tap).2.accesses = [.read m.cpu.regs.pc (takeFirst m.tap).1] :=
      accesses_takeFirst m.tap
    obtain ⟨bytes, aheads, reads, hreads, hread, hbytes, haheads, hall, hnone⟩ :=
      accesses_prefixRounds hpc h
    refine ⟨bytes, aheads, hbytes, haheads, hall, hnone, ?_⟩
    rw [hreads, haccesses, ← hread]
    rfl

/-- A copy behind an index byte that is without effect, with the counter at zero: two rounds of
the one loop, and 65536 of the other. -/
theorem step_finishes_copy :
    let memory := ((Memory.zero.set 0 0xDD).set 1 0xED).set 2 0xB0
    let m : Machine Board Unit := ⟨{ regs := {} }, { memory }, ()⟩
    Bus.Steady m.bus ∧ Repeats .load .up (fetched m) 65536 ∧
      (runOne m).2.cpu.current.bytes.length ≤ 5 ∧
      Returns 9 m (step 9 m).1 (step 9 m).2 ∧
      ∃ s v w, prefixRounds 1 (takeFirst m.tap).1 (takeFirst m.tap).2 = (.inr 0xED, s) ∧
        isIndexByte w = false ∧ s.accesses = [.read 0 v, .read 1 w, .read 1 0xED] := by
  intro memory m
  have hsteady : Bus.Steady m.bus := m.bus.steady
  have hround : (prefixRounds 1 (takeFirst m.tap).1 (takeFirst m.tap).2).1 = .inr 0xED := by
    decide +kernel
  have hrounds : (prefixRounds 2 (takeFirst m).1 (takeFirst m).2).1 =
      .inl (some (.block .load .up true)) := by
    decide +kernel
  obtain ⟨hfinishes, hloop⟩ := @step_finishes Board Unit _ _
  have h := hfinishes m hsteady
  obtain ⟨hnext, -⟩ := (hloop m).1 2 (by decide) _ _ (Prod.ext hrounds rfl)
  obtain ⟨k, hrepeats, -, -, hk, -⟩ := h.block .load .up hnext
  obtain rfl : k = 65536 := hk (by decide)
  refine ⟨hsteady, hrepeats, h.bytes, h.returns 9 rfl, ?_⟩
  rcases hs : prefixRounds 1 (takeFirst m.tap).1 (takeFirst m.tap).2 with ⟨r, s⟩
  obtain rfl : r = .inr 0xED := (congrArg Prod.fst hs).symm.trans hround
  obtain ⟨bytes, aheads, hbytes, haheads, -, hnone, haccesses⟩ := (hloop m).2 1 0xED s hs
  obtain ⟨v, rfl⟩ := List.length_eq_one_iff.mp hbytes
  obtain ⟨w, rfl⟩ := List.length_eq_one_iff.mp haheads
  exact ⟨s, v, w, rfl, hnone w (List.mem_singleton_self w), haccesses⟩

end Exec

end Z80
