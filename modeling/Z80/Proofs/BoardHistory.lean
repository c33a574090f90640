import Z80.Board

/-!
# Histories of a board

A host prepares the ports of a board, a processor reads and writes them, and both use its memory.
Whatever the order of all this, what a port gives out is what has been queued for it, and what it
is sent stays in the log until it is taken from there.

Main definitions:
- `Board.Operation`, `Board.Answer`, `Board.run`: what can be asked of a board, and what it
  answers.
- `Operation.queued`, `Operation.latch`, `Operation.written`: what an operation does to a port and
  to the log, by itself.
- `Board.takenFrom`, `Board.inputs`: what the reads of a port take from its queue, and what all
  reads are answered.
- `Board.KeepsHistory`: the ports of a board are told by its history.

Main statements: `takenFrom_append_queue`, `latch_run`, `entries_append_written` and `inputs_filter`
go from one operation to a history, and `keepsHistory` is about new boards.
-/

namespace Z80.Board

/-- What a host or a processor can ask of a board. -/
inductive Operation where
  | setLatch (port value : UInt8)
  | enqueue (port : UInt8) (values : List UInt8)
  /-- Takes the log of port writes. -/
  | takeWritten
  | input (address : UInt16)
  | output (address : UInt16) (value : UInt8)
  | read (address : UInt16)
  | write (address : UInt16) (value : UInt8)
  | fault (report : InvalidOpcode)
  | peek (address : UInt16)
  | poke (address : UInt16) (value : UInt8)
  | load (address : UInt16) (values : List UInt8)

/-- What a board answers. -/
inductive Answer where
  | done
  /-- From memory. -/
  | cell (value : UInt8)
  /-- From a port. -/
  | input (value : UInt8)
  | log (entries : List (UInt16 × UInt8))

namespace Answer

def input? : Answer → Option UInt8
  | input v => some v
  | _ => none

def entries : Answer → List (UInt16 × UInt8)
  | log entries => entries
  | _ => []

end Answer

namespace Operation

def perform : Operation → Board → Answer × Board
  | setLatch n v, b => (.done, b.setLatch n v)
  | enqueue n vs, b => (.done, b.enqueue n vs)
  | takeWritten, b => (.log b.takeWritten.1.toList, b.takeWritten.2)
  | input a, b => (.input (Bus.input a b).1, (Bus.input a b).2)
  | output a v, b => (.done, Bus.output a v b)
  | read a, b => (.cell (Bus.read a b).1, (Bus.read a b).2)
  | write a v, b => (.done, Bus.write a v b)
  | fault e, b => (.done, Bus.fault e b)
  | peek a, b => (.cell (b.peek a), b)
  | poke a v, b => (.done, b.poke a v)
  | load a vs, b => (.done, b.load a vs)

/-- The bytes that the operation queues for the port `p`. -/
def queued (p : UInt8) : Operation → List UInt8
  | enqueue n vs => if n = p then vs else []
  | _ => []

/-- The latch of the port `p` after the operation, if it was `v` before. -/
def latch (p v : UInt8) : Operation → UInt8
  | setLatch n w => if n = p then w else v
  | _ => v

/-- What the operation sends to a port. -/
def written : Operation → List (UInt16 × UInt8)
  | output a v => [(a, v)]
  | _ => []

/-- Does the operation read a port, or prepare what is read there? -/
def concernsInput : Operation → Bool
  | setLatch _ _ | enqueue _ _ | input _ => true
  | _ => false

/-- The byte that the operation takes from the queue of the port `p`, if it does. -/
def taken (p : UInt8) (b : Board) : Operation → List UInt8
  | input a => if a.toUInt8 = p ∧ (b.port p).queue ≠ [] then [(Bus.input a b).1] else []
  | _ => []

end Operation

/-- Asks one operation after the other. -/
def run : List Operation → Board → List Answer × Board
  | [], b => ([], b)
  | op :: ops, b =>
    let (answer, b) := op.perform b
    let (answers, b) := run ops b
    (answer :: answers, b)

/-- What the reads of the port `p` take from its queue, in order. -/
def takenFrom (p : UInt8) : List Operation → Board → List UInt8
  | [], _ => []
  | op :: ops, b => op.taken p b ++ takenFrom p ops (op.perform b).2

/-- What all reads of ports are answered, in order. -/
def inputs (ops : List Operation) (b : Board) : List UInt8 :=
  (run ops b).1.filterMap Answer.input?

variable (op : Operation) (ops : List Operation) (p : UInt8) (b : Board)

/-! ## One operation -/

theorem input_eq (a : UInt16) :
    b.input a = ((b.port a.toUInt8).read.1, b.putPort a.toUInt8 (b.port a.toUInt8).read.2) := rfl

/-- A port whose queue is empty gives its latch, and nothing changes. -/
theorem input_of_nil {a : UInt16} (h : (b.port a.toUInt8).queue = []) :
    b.input a = ((b.port a.toUInt8).latch, b) := by
  rw [input_eq, Port.read_of_nil h, putPort_port]

theorem input_of_cons {a : UInt16} {v : UInt8} {rest : List UInt8}
    (h : (b.port a.toUInt8).queue = v :: rest) :
    b.input a = (v, b.putPort a.toUInt8 { b.port a.toUInt8 with queue := rest }) := by
  rw [input_eq, Port.read_of_cons h]

theorem taken_append_queue_input (a : UInt16) :
    (Operation.input a).taken p b ++ ((b.input a).2.port p).queue = (b.port p).queue := by
  rw [Operation.taken]
  by_cases hp : a.toUInt8 = p
  · subst hp
    cases hqueue : (b.port a.toUInt8).queue with
    | nil => rw [if_neg fun h => h.2 rfl, input_of_nil b hqueue, hqueue, List.nil_append]
    | cons v rest =>
      have hinput : Bus.input a b = b.input a := rfl
      rw [if_pos ⟨rfl, List.cons_ne_nil v rest⟩, hinput, input_of_cons b hqueue, port_putPort,
        if_pos rfl]
      rfl
  · rw [if_neg fun h => hp h.1, input_eq, port_putPort, if_neg hp, List.nil_append]

/-- What waits at a port, and what is queued, is taken or still waits. -/
theorem taken_append_queue :
    op.taken p b ++ ((op.perform b).2.port p).queue = (b.port p).queue ++ op.queued p := by
  cases op with
  | setLatch n v =>
    have hkept : ((b.setLatch n v).port p).queue = (b.port p).queue :=
      view_putPort Port.queue b (p := { b.port n with latch := v }) rfl p
    exact hkept.trans (List.append_nil _).symm
  | enqueue n vs =>
    show ((b.putPort n _).port p).queue = (b.port p).queue ++ if n = p then vs else []
    rw [port_putPort]
    by_cases hn : n = p
    · rw [if_pos hn, if_pos hn, hn]
    · rw [if_neg hn, if_neg hn, List.append_nil]
  | input a => exact (taken_append_queue_input p b a).trans (List.append_nil _).symm
  | _ => exact (List.append_nil _).symm

theorem latch_perform : ((op.perform b).2.port p).latch = op.latch p (b.port p).latch := by
  cases op with
  | setLatch n v =>
    show ((b.putPort n _).port p).latch = if n = p then v else (b.port p).latch
    rw [port_putPort]
    by_cases hn : n = p
    · rw [if_pos hn, if_pos hn]
    · rw [if_neg hn, if_neg hn]
  | enqueue n vs =>
    exact view_putPort Port.latch b
      (p := { b.port n with queue := (b.port n).queue ++ vs }) rfl p
  | input a => exact view_putPort Port.latch b (Port.latch_read (b.port a.toUInt8)) p
  | _ => rfl

/-- What was in the log, and what is sent, is handed out or still in the log. -/
theorem entries_append_log :
    (op.perform b).1.entries ++ (op.perform b).2.written.toList =
      b.written.toList ++ op.written := by
  cases op with
  | output a v => exact Array.toList_push
  | takeWritten => rfl
  | _ => exact (List.append_nil _).symm

/-- Boards with the same ports give the same bytes out, and are prepared alike. -/
theorem perform_congr {b b' : Board} (h : b.ports = b'.ports) (hop : op.concernsInput = true) :
    (op.perform b).1 = (op.perform b').1 ∧
      (op.perform b).2.ports = (op.perform b').2.ports := by
  obtain ⟨memory, ports, written, faults⟩ := b
  obtain ⟨memory', ports', written', faults'⟩ := b'
  obtain rfl : ports = ports' := h
  cases op with
  | setLatch | enqueue | input => exact ⟨rfl, rfl⟩
  | _ => cases hop

/-- Any other operation neither reads a port nor changes one. -/
theorem perform_of_not_concernsInput (hop : op.concernsInput = false) :
    (op.perform b).1.input? = none ∧ (op.perform b).2.ports = b.ports := by
  cases op with
  | setLatch | enqueue | input => cases hop
  | _ => exact ⟨rfl, rfl⟩

/-! ## Histories -/

/-- What waits at a port, and what is queued in the course of a history, is taken or still waits,
in the same order. -/
theorem takenFrom_append_queue :
    takenFrom p ops b ++ ((run ops b).2.port p).queue =
      (b.port p).queue ++ ops.flatMap (Operation.queued p) := by
  induction ops generalizing b with
  | nil => exact (List.append_nil _).symm
  | cons op ops ih =>
    rw [takenFrom, List.flatMap_cons, List.append_assoc, ← List.append_assoc (b.port p).queue,
      ← taken_append_queue, List.append_assoc]
    exact congrArg (op.taken p b ++ ·) (ih (op.perform b).2)

theorem latch_run :
    ((run ops b).2.port p).latch =
      ops.foldl (fun v op => op.latch p v) (b.port p).latch := by
  induction ops generalizing b with
  | nil => rfl
  | cons op ops ih =>
    rw [List.foldl_cons, ← latch_perform]
    exact ih (op.perform b).2

/-- What was in the log, and what is sent in the course of a history, is handed out or still in
the log, in the same order. -/
theorem entries_append_written :
    (run ops b).1.flatMap Answer.entries ++ (run ops b).2.written.toList =
      b.written.toList ++ ops.flatMap Operation.written := by
  induction ops generalizing b with
  | nil => exact (List.append_nil _).symm
  | cons op ops ih =>
    rw [List.flatMap_cons, ← List.append_assoc b.written.toList, ← entries_append_log,
      List.append_assoc, ← ih (op.perform b).2, ← List.append_assoc]
    rfl

theorem inputs_cons :
    inputs (op :: ops) b = (op.perform b).1.input?.toList ++ inputs ops (op.perform b).2 := by
  show ((op.perform b).1 :: (run ops (op.perform b).2).1).filterMap Answer.input? = _
  rw [List.filterMap_cons]
  cases (op.perform b).1.input? <;> rfl

/-- All other operations can be left out, and the rest of the board can be another. -/
theorem inputs_filter {b b' : Board} (h : b.ports = b'.ports) :
    inputs (ops.filter Operation.concernsInput) b' = inputs ops b := by
  induction ops generalizing b b' with
  | nil => rfl
  | cons op ops ih =>
    cases hop : op.concernsInput with
    | true =>
      obtain ⟨hanswer, hports⟩ := perform_congr op h hop
      rw [List.filter_cons_of_pos hop, inputs_cons, inputs_cons, ih hports, hanswer]
    | false =>
      -- what is left out would have left the ports as they are
      obtain ⟨hanswer, hports⟩ := perform_of_not_concernsInput op b hop
      rw [List.filter_cons_of_neg (Bool.eq_false_iff.mp hop), inputs_cons, hanswer,
        ih (hports.trans h)]
      rfl

/-- The ports of a new board, after a history, are told by the history. -/
structure KeepsHistory (ops : List Operation) : Prop where
  /-- What reads of a port have taken from its queue is a first part of what has been queued, and
  the queue is the rest. -/
  taken : ∀ p, takenFrom p ops {} ++ ((run ops {}).2.port p).queue =
    ops.flatMap (Operation.queued p)
  /-- A read that finds the queue empty gives the last latch, and changes nothing. -/
  latched : ∀ a : UInt16, ((run ops {}).2.port a.toUInt8).queue = [] →
    (run ops {}).2.input a =
      (ops.foldl (fun v op => op.latch a.toUInt8 v) 0xFF, (run ops {}).2)
  /-- Writes to ports, the log, memory and faults make no difference to what is read. -/
  inputs : inputs (ops.filter Operation.concernsInput) {} = inputs ops {}
  /-- What has been handed out of the log, and what is in it, is what has been written. -/
  written : (run ops {}).1.flatMap Answer.entries ++ (run ops {}).2.written.toList =
    ops.flatMap Operation.written

/-- The ports of a new board keep their history, whatever the operations are and in whatever
order. -/
theorem keepsHistory (ops : List Operation) : KeepsHistory ops where
  taken p := by
    rw [takenFrom_append_queue, port_new, List.nil_append]
  latched a h := by
    rw [input_of_nil _ h, latch_run, port_new]
  inputs := inputs_filter ops rfl
  written := entries_append_written ops {}

example :
    (run [.enqueue 0x10 [1], .input 0xFF10, .setLatch 0x10 0x55, .input 0x0010, .enqueue 0x10 [2],
      .output 0x1210 7, .input 0x0010, .takeWritten] {}).1 =
      [.done, .input 1, .done, .input 0x55, .done, .done, .input 2, .log [(0x1210, 7)]] := by
  rfl

end Z80.Board
