import Z80.Bus
import Z80.Memory

/-!
# A board of plain memory and ports

The simplest complete bus. Memory covers all addresses. Ports are told apart by
the low byte of their address alone; each gives out the bytes queued for it, and
then its latch for ever. What is written to ports is only logged.

Main definitions:
- `Port`, `Port.read`: a queue in front of a latch.
- `Board`: memory, ports, and the logs of port writes and of faults.

Main statement: `port_putPort` gives the ports after one has been replaced, one by one.
-/

namespace Z80

/-- One input port: the bytes waiting to be read, and the value that is read
when none waits. -/
structure Port where
  latch : UInt8 := 0xFF
  queue : List UInt8 := []

/-- Takes the next byte of a port. -/
def Port.read : Port → UInt8 × Port
  | ⟨latch, []⟩ => (latch, ⟨latch, []⟩)
  | ⟨latch, v :: rest⟩ => (v, ⟨latch, rest⟩)

theorem Port.read_of_nil {p : Port} (h : p.queue = []) : p.read = (p.latch, p) := by
  obtain ⟨latch, queue⟩ := p
  cases h
  rfl

theorem Port.read_of_cons {p : Port} {v : UInt8} {rest : List UInt8} (h : p.queue = v :: rest) :
    p.read = (v, { p with queue := rest }) := by
  obtain ⟨latch, queue⟩ := p
  cases h
  rfl

/-- Reading never changes the latch. -/
@[simp] theorem Port.latch_read (p : Port) : p.read.2.latch = p.latch := by
  obtain ⟨latch, queue⟩ := p
  cases queue <;> rfl

/-- Memory, 256 ports, the writes to ports and the reported faults. -/
structure Board where
  memory : Memory := .zero
  ports : Vector Port 256 := Vector.replicate 256 {}
  written : Array (UInt16 × UInt8) := #[]
  faults : Array InvalidOpcode := #[]

namespace Board

/-- The byte at an address. -/
def peek (b : Board) (a : UInt16) : UInt8 :=
  b.memory.get a

/-- Replaces the byte at an address. -/
def poke (a : UInt16) (v : UInt8) : Board → Board
  | ⟨memory, ports, written, faults⟩ => ⟨memory.set a v, ports, written, faults⟩

/-- Stores bytes from an address on. -/
def load (a : UInt16) (vs : List UInt8) : Board → Board
  | ⟨memory, ports, written, faults⟩ => ⟨memory.load a vs, ports, written, faults⟩

/-- The port with the number `n`. -/
def port (b : Board) (n : UInt8) : Port :=
  have := n.toNat_lt
  b.ports[n.toNat]

/-- Replaces the port with the number `n`. -/
def putPort (n : UInt8) (p : Port) : Board → Board
  | ⟨memory, ports, written, faults⟩ => ⟨memory, ports.set n.toNat p n.toNat_lt, written, faults⟩

/-- The port that has been put back is the one that is found there. -/
theorem port_putPort (b : Board) (n k : UInt8) (p : Port) :
    (b.putPort n p).port k = if n = k then p else b.port k := by
  simp only [port, putPort, Vector.getElem_set, UInt8.toNat_inj]

/-- What a replaced port has in common with the old one is the same of every port. -/
theorem view_putPort {δ : Type} (view : Port → δ) (b : Board) {n : UInt8} {p : Port}
    (h : view p = view (b.port n)) (k : UInt8) :
    view ((b.putPort n p).port k) = view (b.port k) := by
  rw [port_putPort]
  by_cases hn : n = k
  · rw [if_pos hn, h, hn]
  · rw [if_neg hn]

theorem putPort_port (b : Board) (n : UInt8) : b.putPort n (b.port n) = b := by
  have hset : b.ports.set n.toNat (b.port n) n.toNat_lt = b.ports := Vector.set_getElem_self _
  exact congrArg (fun ports => { b with ports }) hset

@[simp] theorem port_new (n : UInt8) : ({} : Board).port n = {} :=
  Vector.getElem_replicate n.toNat_lt

/-- Sets the value that a port gives once its queue is empty. -/
def setLatch (n v : UInt8) (b : Board) : Board :=
  b.putPort n { b.port n with latch := v }

/-- Adds bytes to the end of the queue of a port. -/
def enqueue (n : UInt8) (vs : List UInt8) (b : Board) : Board :=
  b.putPort n { b.port n with queue := (b.port n).queue ++ vs }

/-- Takes the log of port writes, oldest first, and leaves it empty. -/
def takeWritten : Board → Array (UInt16 × UInt8) × Board
  | ⟨memory, ports, written, faults⟩ => (written, ⟨memory, ports, #[], faults⟩)

/-- Reads the port that the low byte of an address selects. -/
def input (a : UInt16) (b : Board) : UInt8 × Board :=
  let (v, p) := (b.port a.toUInt8).read
  (v, b.putPort a.toUInt8 p)

/-- Logs a write to a port, under its whole address. -/
def output (a : UInt16) (v : UInt8) : Board → Board
  | ⟨memory, ports, written, faults⟩ => ⟨memory, ports, written.push (a, v), faults⟩

/-- Logs the report of an invalid opcode. -/
def fault (e : InvalidOpcode) : Board → Board
  | ⟨memory, ports, written, faults⟩ => ⟨memory, ports, written, faults.push e⟩

end Board

instance : Bus Board where
  read a b := (b.peek a, b)
  write := Board.poke
  input := Board.input
  output := Board.output
  fault := Board.fault

end Z80
