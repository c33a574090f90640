import Z80.Proofs.Invariant

/-!
# Tapped machines

To count what happens at a bus and before an observer, both can be given a recorder of
their own: one is told of the calls that reach the bus, the other of the events that reach
the observer. Nothing else depends on them, so a tapped machine runs like the one inside.

Main definitions:
- `Recorder.faults`: the invalid opcodes in a record.
- `Recorder.Grown`: a record has grown, and not by faults.
- `Tapped`: a bus with a record of the calls that reach it.
- `Machine.tap`, `Machine.untap`: a machine with both records, and the one inside.
- `Machine.accesses`: the record at the bus, as a list.

Main statements: `untap_step` says that the records are in nobody's way, `runOne_quiet`
that an instruction by itself reports no fault, however it ends.
-/

namespace Z80

/-! ## Records -/

/-- The invalid opcode that an event reports. -/
def Event.fault? : Event → Option InvalidOpcode
  | .fault e => some e
  | _ => none

namespace Recorder

/-- The invalid opcodes in a record, oldest first. -/
def faults (r : Recorder) : List InvalidOpcode :=
  r.events.toList.filterMap Event.fault?

theorem events_notify (e : Event) (r : Recorder) :
    (Observer.notify e r).events.toList = r.events.toList ++ [e] :=
  Array.toList_push

theorem faults_fault (e : InvalidOpcode) (r : Recorder) :
    (Observer.notify (.fault e) r).faults = r.faults ++ [e] := by
  rw [faults, events_notify, List.filterMap_append]
  rfl

/-- The record has grown since, but no fault has been added to it. -/
def Grown (r r' : Recorder) : Prop :=
  ∃ es, r'.events.toList = r.events.toList ++ es ∧ ∀ e ∈ es, e.fault? = none

namespace Grown

variable {r r' r'' : Recorder}

theorem refl (r : Recorder) : r.Grown r :=
  ⟨[], (List.append_nil _).symm, fun _ h => absurd h List.not_mem_nil⟩

theorem notify {e : Event} (h : r.Grown r') (he : e.fault? = none) :
    r.Grown (Observer.notify e r') := by
  obtain ⟨es, hes, hquiet⟩ := h
  refine ⟨es ++ [e], ?_, ?_⟩
  · rw [events_notify, hes, List.append_assoc]
  · intro e' he'
    rcases List.mem_append.mp he' with hold | hnew
    · exact hquiet e' hold
    · rw [List.mem_singleton.mp hnew, he]

theorem trans (h : r.Grown r') (h' : r'.Grown r'') : r.Grown r'' := by
  obtain ⟨es, hes, hquiet⟩ := h
  obtain ⟨es', hes', hquiet'⟩ := h'
  refine ⟨es ++ es', by rw [hes', hes, List.append_assoc], ?_⟩
  intro e he
  exact (List.mem_append.mp he).elim (hquiet e) (hquiet' e)

theorem faults (h : r.Grown r') : r'.faults = r.faults := by
  obtain ⟨es, hes, hquiet⟩ := h
  rw [Recorder.faults, hes, List.filterMap_append, List.filterMap_eq_nil_iff.mpr hquiet]
  exact List.append_nil _

theorem isPrefix (h : r.Grown r') : r.events.toList <+: r'.events.toList := by
  obtain ⟨es, hes, -⟩ := h
  exact ⟨es, hes.symm⟩

end Grown

end Recorder

/-- A bus with a record of the calls that reach it. -/
structure Tapped (β : Type) where
  inner : β
  record : Recorder := {}

instance {β : Type} [Bus β] : Bus (Tapped β) where
  read a t :=
    let (v, inner) := Bus.read a t.inner
    (v, ⟨inner, Observer.notify (.read a v) t.record⟩)
  write a v t := ⟨Bus.write a v t.inner, Observer.notify (.write a v) t.record⟩
  input a t :=
    let (v, inner) := Bus.input a t.inner
    (v, ⟨inner, Observer.notify (.input a v) t.record⟩)
  output a v t := ⟨Bus.output a v t.inner, Observer.notify (.output a v) t.record⟩
  fault e t := ⟨Bus.fault e t.inner, Observer.notify (.fault e) t.record⟩

namespace Machine

variable {β ω : Type}

/-- The machine with an empty record at its bus and another beside its observer. -/
def tap (m : Machine β ω) : Machine (Tapped β) (ω × Recorder) :=
  ⟨m.cpu, { inner := m.bus }, (m.observer, {})⟩

/-- The machine inside a tapped one. -/
def untap (m : Machine (Tapped β) (ω × Recorder)) : Machine β ω :=
  ⟨m.cpu, m.bus.inner, m.observer.1⟩

theorem untap_tap (m : Machine β ω) : m.tap.untap = m := rfl

/-- The calls that the record at the bus has been told of, oldest first. -/
def accesses (m : Machine (Tapped β) ω) : List Event :=
  m.bus.record.events.toList

end Machine

theorem Cpu.pc_countFetch (c : Cpu) : c.countFetch.regs.pc = c.regs.pc := by
  unfold Cpu.countFetch
  split <;> rfl

namespace Exec

variable {β ω : Type} [Bus β] [Observer ω]

/-! ## The records are in nobody's way -/

theorem coupling_untap :
    Coupling fun (m : Machine (Tapped β) (ω × Recorder)) (m' : Machine β ω) => m.untap = m' where
  regs := fun _ _ h => h ▸ ⟨rfl, rfl⟩
  modifyRegs _ := fun _ _ h => h ▸ ⟨rfl, rfl⟩
  read _ := fun _ _ h => h ▸ ⟨rfl, rfl⟩
  write _ _ := fun _ _ h => h ▸ ⟨rfl, rfl⟩
  input _ := fun _ _ h => h ▸ ⟨rfl, rfl⟩
  output _ _ := fun _ _ h => h ▸ ⟨rfl, rfl⟩
  halt := fun _ _ h => h ▸ ⟨rfl, rfl⟩
  takeByte _ := fun _ _ h => h ▸ ⟨rfl, rfl⟩
  countFetch := fun _ _ h => h ▸ ⟨rfl, rfl⟩

theorem untap_runOne (m : Machine (Tapped β) (ω × Recorder)) :
    (runOne m).1 = (runOne m.untap).1 ∧ (runOne m).2.untap = (runOne m.untap).2 := by
  have hreport : ∀ (s : Machine (Tapped β) (ω × Recorder)) (s' : Machine β ω), s.untap = s' →
      s.cpu.invalidOpcode = s'.cpu.invalidOpcode := by
    rintro s _ rfl
    rfl
  have hop : (takeFirst m).1 = (takeFirst m.untap).1 := rfl
  exact coupling_untap.runOne hreport hop rfl

theorem batchCoupling_untap :
    BatchCoupling fun (m : Machine (Tapped β) (ω × Recorder)) (m' : Machine β ω) =>
      m.untap = m' where
  halted := fun _ _ h => h ▸ rfl
  fault := fun _ _ h => h ▸ rfl
  runOne := fun m _ h => h ▸ untap_runOne m
  recordFault := fun _ _ _ h => h ▸ rfl

/-- A batch on a tapped machine is the same batch on the machine inside. -/
theorem untap_step (count : Nat) (m : Machine (Tapped β) (ω × Recorder)) :
    (step count m).1 = (step count m.untap).1 ∧
      (step count m).2.untap = (step count m.untap).2 :=
  batchCoupling_untap.step count m m.untap rfl

/-! ## What an instruction adds to the records -/

section Accesses

variable (m : Machine (Tapped β) ω)

theorem accesses_read (a : UInt16) : (read a m).2.accesses = m.accesses ++ [.read a (read a m).1] :=
  Recorder.events_notify _ _

/-- An instruction begins by reading the byte at the program counter. -/
theorem accesses_takeFirst :
    (takeFirst m).2.accesses = m.accesses ++ [.read m.cpu.regs.pc (takeFirst m).1] := by
  have hpc : m.cpu.beginInstruction.countFetch.regs.pc = m.cpu.regs.pc := Cpu.pc_countFetch _
  rw [← hpc]
  exact Recorder.events_notify _ _

end Accesses

/-- Both records have grown since the machine `m₀`, and neither has heard of a fault. -/
structure Quiet (m₀ m : Machine (Tapped β) (ω × Recorder)) : Prop where
  bus : m₀.bus.record.Grown m.bus.record
  observer : m₀.observer.2.Grown m.observer.2

variable {m₀ m m' : Machine (Tapped β) (ω × Recorder)}

omit [Bus β] [Observer ω] in
theorem Quiet.refl (m : Machine (Tapped β) (ω × Recorder)) : Quiet m m :=
  ⟨.refl _, .refl _⟩

omit [Bus β] [Observer ω] in
theorem Quiet.trans (h : Quiet m₀ m) (h' : Quiet m m') : Quiet m₀ m' :=
  ⟨h.bus.trans h'.bus, h.observer.trans h'.observer⟩

theorem invariant_quiet (m₀ : Machine (Tapped β) (ω × Recorder)) : Invariant (Quiet m₀) where
  modifyRegs _ := fun _ h => ⟨h.bus, h.observer⟩
  read _ := fun _ h => ⟨h.bus.notify rfl, h.observer.notify rfl⟩
  write _ _ := fun _ h => ⟨h.bus.notify rfl, h.observer.notify rfl⟩
  input _ := fun _ h => ⟨h.bus.notify rfl, h.observer.notify rfl⟩
  output _ _ := fun _ h => ⟨h.bus.notify rfl, h.observer.notify rfl⟩
  halt := fun _ h => ⟨h.bus, h.observer.notify rfl⟩
  takeByte _ := fun _ h => ⟨h.bus, h.observer⟩
  countFetch := fun _ h => ⟨h.bus, h.observer⟩

/-- The first byte is read, and the instruction announced. -/
theorem takeFirst_quiet (m : Machine (Tapped β) (ω × Recorder)) : Quiet m (takeFirst m).2 :=
  ⟨(Recorder.Grown.refl _).notify rfl, ((Recorder.Grown.refl _).notify rfl).notify rfl⟩

/-- An instruction by itself reports no fault: that is left to the batch. -/
theorem runOne_quiet (m : Machine (Tapped β) (ω × Recorder)) : Quiet m (runOne m).2 :=
  (invariant_quiet m).runOne (takeFirst_quiet m)

end Exec

end Z80
