import Z80.Proofs.BoardHistory

/-!
# The memory of a board as a map

A host loads and pokes, a processor writes, and in between both read, use the ports and report
faults. Whatever the order of all this, memory holds at each address the byte that was stored there
last, and zero where none has been stored. A load stores its bytes one after the other, past the
last address from the first one on, so where it comes round to a cell again the later byte stays.

Main definitions:
- `Memory.storeAll`: memory after bytes have been stored at given addresses, in order.
- `Board.lastStored`: the byte that was stored last at an address.
- `Operation.stores`: the bytes that an operation stores, by itself.
- `Board.KeepsMemory`: the memory of a board is told by its history.

Main statements: `load_eq_storeAll` and `get_load_of_last` for a load of any length, `memory_run`
for a history, and `keepsMemory` for new boards.
-/

namespace Z80

/-! ## Memory -/

namespace Memory

/-- Memory after the bytes have been stored, each at its address, one after the other. -/
def storeAll (m : Memory) (stores : List (UInt16 × UInt8)) : Memory :=
  stores.foldl (fun m s => m.set s.1 s.2) m

/-- The bytes with the addresses from `a` on, round the end of memory. -/
def placed (a : UInt16) (vs : List UInt8) : List (UInt16 × UInt8) :=
  vs.mapIdx fun j v => (a + UInt16.ofNat j, v)

variable (m : Memory) (a c : UInt16)

theorem add_ofNat_zero : a + UInt16.ofNat 0 = a :=
  UInt16.add_zero a

theorem succ_add_ofNat (j : Nat) : a + 1 + UInt16.ofNat j = a + UInt16.ofNat (j + 1) := by
  rw [UInt16.add_assoc, UInt16.add_comm 1, UInt16.ofNat_add]
  rfl

theorem placed_cons (v : UInt8) (vs : List UInt8) :
    placed a (v :: vs) = (a, v) :: placed (a + 1) vs := by
  simp only [placed, List.mapIdx_cons, succ_add_ofNat, add_ofNat_zero]

/-- A load stores its bytes at addresses that count up from the first. -/
theorem load_eq_storeAll (vs : List UInt8) : m.load a vs = m.storeAll (placed a vs) := by
  induction vs generalizing m a with
  | nil => rfl
  | cons v vs ih =>
    rw [load, ih, placed_cons]
    rfl

section Load

variable {m a c} {vs : List UInt8}

/-- A load leaves the cells that it does not come to. -/
theorem get_load_of_ne (h : ∀ j < vs.length, a + UInt16.ofNat j ≠ c) :
    (m.load a vs).get c = m.get c := by
  induction vs generalizing m a with
  | nil => rfl
  | cons v vs ih =>
    have hfirst : a ≠ c := by
      have h0 := h 0 (Nat.succ_pos _)
      rwa [add_ofNat_zero] at h0
    rw [load, ih, get_set, if_neg hfirst]
    intro j hj
    rw [succ_add_ofNat]
    exact h (j + 1) (Nat.succ_lt_succ hj)

/-- Of the bytes that a load stores in one cell the last one stays. -/
theorem get_load_of_last {j : Nat} (hj : j < vs.length) (hc : a + UInt16.ofNat j = c)
    (hlast : ∀ k, j < k → k < vs.length → a + UInt16.ofNat k ≠ c) :
    (m.load a vs).get c = vs[j] := by
  induction vs generalizing m a j with
  | nil => exact absurd hj (Nat.not_lt_zero j)
  | cons v vs ih =>
    rw [load]
    -- the byte that stays is the first one, or it is among the rest of the load
    cases j with
    | zero =>
      rw [add_ofNat_zero] at hc
      rw [get_load_of_ne, get_set, if_pos hc]
      · rfl
      · intro k hk
        rw [succ_add_ofNat]
        exact hlast (k + 1) (Nat.succ_pos k) (Nat.succ_lt_succ hk)
    | succ j =>
      rw [ih (Nat.lt_of_succ_lt_succ hj) ((succ_add_ofNat a j).trans hc)]
      · rfl
      · intro k hjk hk
        rw [succ_add_ofNat]
        exact hlast (k + 1) (Nat.succ_lt_succ hjk) (Nat.succ_lt_succ hk)

end Load

end Memory

namespace Board

/-- The byte that was stored last at an address, if one has been. -/
def lastStored (stores : List (UInt16 × UInt8)) (a : UInt16) : Option UInt8 :=
  stores.reverse.lookup a

theorem lastStored_cons (s : UInt16 × UInt8) (stores : List (UInt16 × UInt8)) (a : UInt16) :
    lastStored (s :: stores) a = (lastStored stores a).or (if s.1 = a then some s.2 else none) := by
  have hone : [s].lookup a = if s.1 = a then some s.2 else none := by
    obtain ⟨b, v⟩ := s
    rw [List.lookup_cons]
    by_cases h : b = a
    · rw [if_pos h, h, beq_self_eq_true]
    · rw [if_neg h, beq_false_of_ne (Ne.symm h)]
      rfl
  rw [lastStored, List.reverse_cons, List.lookup_append, hone]
  rfl

/-- A cell holds what was stored there last, or what it held before. -/
theorem get_storeAll (m : Memory) (stores : List (UInt16 × UInt8)) (a : UInt16) :
    (m.storeAll stores).get a = (lastStored stores a).getD (m.get a) := by
  induction stores generalizing m with
  | nil => rfl
  | cons s stores ih =>
    have hrest : (m.storeAll (s :: stores)).get a = ((m.set s.1 s.2).storeAll stores).get a := rfl
    rw [hrest, ih, lastStored_cons, Memory.get_set]
    cases lastStored stores a with
    | some v => rfl
    | none => split <;> rfl

namespace Operation

/-- The bytes that the operation stores, with their addresses, first one first. -/
def stores : Operation → List (UInt16 × UInt8)
  | write a v | poke a v => [(a, v)]
  | load a vs => Memory.placed a vs
  | _ => []

/-- Is it one of the operations that store bytes? The others read, use ports or report faults. -/
def isStore : Operation → Bool
  | write _ _ | poke _ _ | load _ _ => true
  | _ => false

end Operation

variable (op : Operation) (ops ops' : List Operation) (b : Board)

/-! ## One operation -/

theorem memory_perform : (op.perform b).2.memory = b.memory.storeAll op.stores := by
  cases op with
  | load a vs => exact Memory.load_eq_storeAll b.memory a vs
  | _ => rfl

/-- Reads, the use of ports and reports of faults leave the memory as it is. -/
theorem memory_perform_of_not_isStore {op : Operation} (h : op.isStore = false) (b : Board) :
    (op.perform b).2.memory = b.memory := by
  cases op with
  | write | poke | load => cases h
  | _ => rfl

/-- A read and a peek are answered with the byte that is there. -/
theorem perform_reading {op : Operation} {a : UInt16} (h : op = .read a ∨ op = .peek a)
    (b : Board) : (op.perform b).1 = .cell (b.peek a) := by
  rcases h with rfl | rfl <;> rfl

/-! ## Histories -/

theorem run_append :
    run (ops ++ ops') b =
      ((run ops b).1 ++ (run ops' (run ops b).2).1, (run ops' (run ops b).2).2) := by
  induction ops generalizing b with
  | nil => rfl
  | cons op ops ih =>
    show ((op.perform b).1 :: (run (ops ++ ops') (op.perform b).2).1,
      (run (ops ++ ops') (op.perform b).2).2) = _
    rw [ih]
    rfl

theorem length_run : (run ops b).1.length = ops.length := by
  induction ops generalizing b with
  | nil => rfl
  | cons op ops ih => exact congrArg (· + 1) (ih (op.perform b).2)

/-- The answer to an operation in the course of a history is the one on the board at that time. -/
theorem getElem?_run (op : Operation) (after : List Operation) :
    (run (ops ++ op :: after) b).1[ops.length]? = some (op.perform (run ops b).2).1 := by
  rw [run_append, ← length_run ops b, List.getElem?_append_right (Nat.le_refl _), Nat.sub_self]
  rfl

/-- The memory after a history is the memory before it with all that has been stored. -/
theorem memory_run : (run ops b).2.memory = b.memory.storeAll (ops.flatMap Operation.stores) := by
  induction ops generalizing b with
  | nil => rfl
  | cons op ops ih =>
    -- what the first operation stores comes before what all others do
    rw [List.flatMap_cons, Memory.storeAll, List.foldl_append]
    refine (ih (op.perform b).2).trans ?_
    rw [memory_perform]
    rfl

/-- On a new board a cell holds what has been stored there last, or zero. -/
theorem peek_run_new (a : UInt16) :
    (run ops {}).2.peek a = (lastStored (ops.flatMap Operation.stores) a).getD 0 := by
  rw [peek, memory_run, get_storeAll, Memory.get_zero]

/-- The memory of a new board, in the course of a history, is told by the history. -/
structure KeepsMemory (ops : List Operation) : Prop where
  /-- A read or a peek is answered with the byte that was stored last at its address, before it. -/
  answers : ∀ before op after a, ops = before ++ op :: after → op = .read a ∨ op = .peek a →
    (run ops {}).1[before.length]? =
      some (.cell ((lastStored (before.flatMap Operation.stores) a).getD 0))
  /-- After the history each cell holds the byte that was stored last there. -/
  cells : ∀ a, (run ops {}).2.peek a = (lastStored (ops.flatMap Operation.stores) a).getD 0
  /-- A load of any length stores its byte `j` at the address `j` places from its own, modulo
  65536. The last of the bytes for a cell stays there, and cells without one are left. -/
  loads : ∀ before a vs after, ops = before ++ .load a vs :: after →
    let b := (run before {}).2
    let b' := (run (before ++ [.load a vs]) {}).2
    ∀ c,
      (∀ j (hj : j < vs.length), a + UInt16.ofNat j = c →
        (∀ k, j < k → k < vs.length → a + UInt16.ofNat k ≠ c) → b'.peek c = vs[j]) ∧
      ((∀ j < vs.length, a + UInt16.ofNat j ≠ c) → b'.peek c = b.peek c)
  /-- Operations that do not store leave the whole memory as it is. -/
  kept : ∀ before op after, ops = before ++ op :: after → op.isStore = false →
    (run (before ++ [op]) {}).2.memory = (run before {}).2.memory

/-- The memory of a new board keeps what has been stored last, whatever the operations are and in
whatever order. -/
theorem keepsMemory (ops : List Operation) : KeepsMemory ops where
  answers before op after a heq hop := by
    rw [heq, getElem?_run, perform_reading hop, peek_run_new]
  cells := peek_run_new ops
  loads := by
    intro before a vs after _ b b' c
    have hload : b' = b.load a vs := by
      show (run (before ++ [.load a vs]) {}).2 = _
      rw [run_append]
      rfl
    rw [hload]
    exact ⟨fun j hj hc hlast => Memory.get_load_of_last hj hc hlast, Memory.get_load_of_ne⟩
  kept before op after _ hop := by
    rw [run_append]
    exact memory_perform_of_not_isStore hop _

example :
    let ops : List Operation := [.load 0xFFFF [0x11, 0x22], .write 0 0x33, .input 0x10]
    (run ops {}).2.peek 0 = 0x33 ∧ (run ops {}).2.peek 0xFFFF = 0x11 := by
  simp only [peek_run_new]
  decide

end Board

end Z80
