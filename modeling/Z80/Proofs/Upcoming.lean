import Z80.Proofs.Keeping
import Z80.Proofs.Session

/-!
# The instructions of a run

Fetching settles which instruction comes next, and only then is it performed. So a run comes
with the list of its instructions, and a property of the pages that these were looked up in
is a property of all of them.

Main definitions:
- `Decoding.All`, `OnEveryPage`: every instruction that can be looked up has a property.
- `Exec.upcoming`, `Exec.fetched`: the instruction at the program counter, and the machine
  that has taken it in.
- `Exec.executed`: the instructions that a session performs.

Main statements: `OnEveryPage.upcoming` takes a property of the pages to a machine and
`OnEveryPage.executed` to a session; `regs_fetched` says that fetching moves the program
counter and R alone, and `view_session` that a session keeps what each of its instructions
keeps.
-/

namespace Z80

/-- Every instruction that the decoding can end in has the property. -/
def Decoding.All (P : Instruction → Prop) : Decoding → Prop
  | .done i => P i
  | .operand next => ∀ v, (next v).All P

/-- Every instruction has the property: those of the four pages, and the one that an index
byte is in front of another. -/
structure OnEveryPage (P : Instruction → Prop) : Prop where
  nop : P .nop
  base {op : UInt8} {d : Decoding} : Lead.ofByte op = .plain d → d.All P
  cb (op : UInt8) : P (Page.cb op)
  ed {op : UInt8} {d : Decoding} : Page.ed op = some d → d.All P
  index {x : Index} {op : UInt8} {d : Decoding} : Page.index x op = some d → d.All P

namespace Exec

/-! ## The instruction at the program counter -/

section

variable {β ω : Type} [Bus β] [Observer ω]

/-- The instruction at the program counter, if its bytes have a meaning. -/
def upcoming (m : Machine β ω) : Option Instruction :=
  (dispatch (takeFirst m).1 (takeFirst m).2).1

/-- The machine once the bytes of the instruction at the program counter have been taken in. -/
def fetched (m : Machine β ω) : Machine β ω :=
  (dispatch (takeFirst m).1 (takeFirst m).2).2

/-- An instruction is taken in, and then performed if there is one. -/
theorem runOne_conclude (m : Machine β ω) : runOne m = conclude (upcoming m) (fetched m) := by
  rw [runOne_eq]
  rfl

theorem runOne_of_upcoming {m : Machine β ω} {i : Instruction} (h : upcoming m = some i) :
    runOne m = (.ok (), (perform i (fetched m)).2) := by
  rw [runOne_conclude, h]
  rfl

theorem runOne_of_upcoming_none {m : Machine β ω} (h : upcoming m = none) :
    runOne m = (.error (fetched m).cpu.invalidOpcode, fetched m) := by
  rw [runOne_conclude, h]
  rfl

end

/-! ## What can be looked up -/

variable {β ω α γ : Type}

/-- On every machine, what the execution answers has the property. -/
def Answers (Q : α → Prop) (x : Exec β ω α) : Prop :=
  ∀ m, Q (x m).1

namespace Answers

variable {Q : α → Prop} {S : γ → Prop}

theorem pure {a : α} (h : Q a) : Answers Q (Pure.pure a : Exec β ω α) :=
  fun _ => h

theorem bind {x : Exec β ω α} {f : α → Exec β ω γ} (hx : Answers Q x)
    (hf : ∀ a, Q a → Answers S (f a)) : Answers S (x >>= f) :=
  fun m => hf _ (hx m) (x m).2

/-- What is answered on the way may be of no importance. -/
theorem bind_of_forall {x : Exec β ω α} {f : α → Exec β ω γ} (hf : ∀ a, Answers S (f a)) :
    Answers S (x >>= f) :=
  fun m => hf _ (x m).2

theorem ite {c : Prop} [Decidable c] {x y : Exec β ω α} (hx : Answers Q x) (hy : Answers Q y) :
    Answers Q (if c then x else y) := by
  split
  · exact hx
  · exact hy

end Answers

variable [Bus β] [Observer ω] {P : Instruction → Prop}

theorem answers_complete {d : Decoding} (h : d.All P) :
    Answers P (complete d : Exec β ω Instruction) := by
  induction d with
  | done i => exact .pure h
  | operand next ih => exact .bind_of_forall fun v => ih v (h v)

/-- An instruction, if there is one, has the property. -/
def IfAny (P : Instruction → Prop) (i? : Option Instruction) : Prop :=
  ∀ i, i? = some i → P i

theorem ifAny_some {i : Instruction} (h : P i) : IfAny P (some i) := by
  rintro _ ⟨⟩
  exact h

theorem ifAny_none : IfAny P none := by
  rintro _ ⟨⟩

theorem answers_completeOr {d? : Option Decoding} {x : Exec β ω (Option Instruction)}
    (h : ∀ d, d? = some d → d.All P) (hx : Answers (IfAny P) x) :
    Answers (IfAny P) (completeOr d? x) := by
  cases d? with
  | none => exact hx
  | some d => exact (answers_complete (h d rfl)).bind fun i hi => .pure (ifAny_some hi)

end Exec

namespace OnEveryPage

open Exec

variable {β ω : Type} [Bus β] [Observer ω] {P : Instruction → Prop} (h : OnEveryPage P)
include h

theorem answers_dispatch {op : UInt8} (hop : ∀ x, Lead.ofByte op ≠ .index x) :
    Answers (IfAny P) (dispatch op : Exec β ω (Option Instruction)) := by
  unfold Exec.dispatch
  cases hlead : Lead.ofByte op with
  | plain d =>
    rw [dispatchWithin_of_plain hlead]
    exact (answers_complete (h.base hlead)).bind fun i hi => .pure (ifAny_some hi)
  | cb =>
    rw [dispatchWithin_of_cb hlead]
    exact .bind_of_forall fun v => .pure (ifAny_some (h.cb v))
  | ed =>
    rw [dispatchWithin_of_ed hlead]
    exact .bind_of_forall fun v => answers_completeOr (fun _ => h.ed) (.pure ifAny_none)
  | index x => exact absurd hlead (hop x)

theorem answers_dispatchWithin (limit : Nat) (op : UInt8) :
    Answers (IfAny P) (dispatchWithin limit op : Exec β ω (Option Instruction)) := by
  have hnop : Answers (IfAny P) (pure (some .nop) : Exec β ω (Option Instruction)) :=
    .pure (ifAny_some h.nop)
  induction limit generalizing op with
  | zero =>
    by_cases hop : ∃ x, Lead.ofByte op = .index x
    · obtain ⟨x, hop⟩ := hop
      rw [dispatchWithin_zero_of_index hop]
      exact .bind_of_forall fun _ => .bind_of_forall fun _ => .ite hnop hnop
    · rw [not_exists] at hop
      rw [dispatchWithin_eq_dispatch hop]
      exact h.answers_dispatch hop
  | succ limit ih =>
    by_cases hop : ∃ x, Lead.ofByte op = .index x
    · obtain ⟨x, hop⟩ := hop
      rw [dispatchWithin_succ_of_index hop]
      exact .bind_of_forall fun _ => .bind_of_forall fun _ => .ite hnop <|
        .bind_of_forall fun next => answers_completeOr (fun _ => h.index) (ih next)
    · rw [not_exists] at hop
      rw [dispatchWithin_eq_dispatch hop]
      exact h.answers_dispatch hop

theorem upcoming {m : Machine β ω} {i : Instruction} (hi : upcoming m = some i) : P i :=
  h.answers_dispatchWithin indexLimit _ _ i hi

end OnEveryPage

namespace Exec

variable {β ω δ : Type} [Bus β] [Observer ω]

/-! ## What one instruction keeps -/

section Views

variable {view : Registers → δ} (hpc : ∀ r v, view { r with pc := v } = view r)
  (hr : ∀ r v, view { r with r := v } = view r)
include hpc hr

/-- What depends neither on the program counter nor on R is not changed by fetching. -/
theorem view_fetched (m : Machine β ω) :
    view (fetched m).cpu.regs = view m.cpu.regs :=
  (Keeps.dispatch hpc hr _ _).trans (Keeps.takeFirst hpc hr m)

theorem view_runOne {m : Machine β ω}
    (h : ∀ i, upcoming m = some i → Keeps view (perform i : Exec β ω Unit)) :
    view (runOne m).2.cpu.regs = view m.cpu.regs := by
  have hfetched := view_fetched hpc hr m
  cases hnext : upcoming m with
  | some i =>
    rw [runOne_of_upcoming hnext]
    exact (h i hnext _).trans hfetched
  | none =>
    rw [runOne_of_upcoming_none hnext]
    exact hfetched

end Views

/-- Fetching moves the program counter and R alone. -/
theorem regs_fetched (m : Machine β ω) :
    (fetched m).cpu.regs =
      { m.cpu.regs with pc := (fetched m).cpu.regs.pc, r := (fetched m).cpu.regs.r } := by
  let view (r : Registers) : Registers := { r with pc := 0, r := 0 }
  have h : view (fetched m).cpu.regs = view m.cpu.regs :=
    view_fetched (fun _ _ => rfl) (fun _ _ => rfl) m
  exact congrArg
    (fun r : Registers => { r with pc := (fetched m).cpu.regs.pc, r := (fetched m).cpu.regs.r }) h

/-! ## The instructions of a run -/

/-- The instructions that a batch performs on a machine without a recorded fault. -/
def executedIn : Nat → Machine β ω → List Instruction
  | 0, _ => []
  | count + 1, m =>
    if m.cpu.regs.halted then []
    else
      match upcoming m with
      | some i => i :: executedIn count (runOne m).2
      | none => []

/-- The instructions that a machine performs to serve a request. -/
def executedFor (q : Request) (m : Machine β ω) : List Instruction :=
  match q, m.cpu.fault with
  | .step count, none => executedIn count m
  | _, _ => []

/-- The instructions that a session performs, first one first. -/
def executed : List Request → Machine β ω → List Instruction
  | [], _ => []
  | q :: requests, m => executedFor q m ++ executed requests (serve q m).2

section Views

variable {view : Registers → δ} (hpc : ∀ r v, view { r with pc := v } = view r)
  (hr : ∀ r v, view { r with r := v } = view r)
include hpc hr

theorem view_run {count : Nat} {m : Machine β ω}
    (h : ∀ i ∈ executedIn count m, Keeps view (perform i : Exec β ω Unit)) :
    view (run count m).2.cpu.regs = view m.cpu.regs := by
  induction count generalizing m with
  | zero => rfl
  | succ count ih =>
    rw [run_succ]
    by_cases hhalted : m.cpu.regs.halted = true
    · rw [if_pos hhalted]
    · rw [executedIn, if_neg hhalted] at h
      rw [if_neg hhalted]
      cases hnext : upcoming m with
      | some i =>
        rw [hnext] at h
        obtain ⟨hi, hrest⟩ := List.forall_mem_cons.mp h
        have hone : view (runOne m).2.cpu.regs = view m.cpu.regs := by
          apply view_runOne hpc hr
          intro j hj
          obtain rfl : i = j := Option.some.inj (hnext.symm.trans hj)
          exact hi
        rw [runOne_of_upcoming hnext] at hrest hone ⊢
        exact (ih hrest).trans hone
      | none =>
        rw [runOne_of_upcoming_none hnext]
        exact view_fetched hpc hr m

theorem view_serve {q : Request} {m : Machine β ω} (hreset : q ≠ .reset)
    (h : ∀ i ∈ executedFor q m, Keeps view (perform i : Exec β ω Unit)) :
    view (serve q m).2.cpu.regs = view m.cpu.regs := by
  cases q with
  | step count =>
    rw [serve_step]
    cases hfault : m.cpu.fault with
    | some e => rw [step_of_fault count hfault]
    | none =>
      simp only [executedFor, hfault] at h
      rw [step_of_running count hfault]
      exact view_run hpc hr h
  | reset => exact absurd rfl hreset
  | clearFault => rfl

/-- A session without a reset keeps what each of its instructions keeps. -/
theorem view_session {requests : List Request} {m : Machine β ω} (hreset : .reset ∉ requests)
    (h : ∀ i ∈ executed requests m, Keeps view (perform i : Exec β ω Unit)) :
    view (session requests m).2.cpu.regs = view m.cpu.regs := by
  induction requests generalizing m with
  | nil => rfl
  | cons q requests ih =>
    rw [List.mem_cons, not_or] at hreset
    obtain ⟨hfirst, hrest⟩ := List.forall_mem_append.mp h
    rw [session_cons]
    refine (ih hreset.2 hrest).trans (view_serve hpc hr (fun hq => hreset.1 hq.symm) hfirst)

end Views

end Exec

namespace OnEveryPage

variable {β ω : Type} [Bus β] [Observer ω] {P : Instruction → Prop} (h : OnEveryPage P)
include h

theorem executedIn {count : Nat} {m : Machine β ω} : ∀ i ∈ Exec.executedIn count m, P i := by
  induction count generalizing m with
  | zero => exact fun _ hi => absurd hi List.not_mem_nil
  | succ count ih =>
    rw [Exec.executedIn]
    split
    · exact fun _ hi => absurd hi List.not_mem_nil
    · split
      · next i hi => exact List.forall_mem_cons.mpr ⟨h.upcoming hi, ih⟩
      · exact fun _ hi => absurd hi List.not_mem_nil

/-- A property of the pages is one of every instruction that a session performs. -/
theorem executed {requests : List Request} {m : Machine β ω} :
    ∀ i ∈ Exec.executed requests m, P i := by
  induction requests generalizing m with
  | nil => exact fun _ hi => absurd hi List.not_mem_nil
  | cons q requests ih =>
    refine List.forall_mem_append.mpr ⟨?_, ih⟩
    unfold Exec.executedFor
    split
    · exact h.executedIn
    · exact fun _ hi => absurd hi List.not_mem_nil

end OnEveryPage

end Z80
