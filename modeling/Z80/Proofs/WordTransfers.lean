import Z80.Proofs.Encoding
import Z80.Proofs.Displaced

/-!
# Words between registers and memory

Twelve encodings on three pages store a word register at an address or load one from there, and
three exchange one with the top of the stack. All of them have the lower byte at the address and
the upper one behind it, past the last address at the first one.

Main definitions:
- `storeCodes`, `loadCodes`, `exchangeCodes`: the encodings without their operands, with the
  register that each one names.
- `Memory.word`, `Memory.stored`: a word in memory.
- `Exec.Alike`: two machines with everything in common but the program counter and R.
- `Exec.WordTransfers`: what the encodings do, one by one and one after the other.

Main statement: `runOne_wordTransfers` finds all this in every machine on a board.
-/

namespace Z80

/-! ## The encodings -/

/-- LD (nn),rp. -/
def storeCodes : List (List UInt8 × Reg16) :=
  [([0x22], .hl), ([0xED, 0x43], .bc), ([0xED, 0x53], .de), ([0xED, 0x63], .hl),
    ([0xED, 0x73], .sp), ([0xDD, 0x22], .index .ix), ([0xFD, 0x22], .index .iy)]

/-- LD rp,(nn). -/
def loadCodes : List (List UInt8 × Reg16) :=
  [([0x2A], .hl), ([0xED, 0x4B], .bc), ([0xED, 0x5B], .de), ([0xED, 0x6B], .hl),
    ([0xED, 0x7B], .sp), ([0xDD, 0x2A], .index .ix), ([0xFD, 0x2A], .index .iy)]

/-- EX (SP),HL and its index forms. -/
def exchangeCodes : List (List UInt8 × Reg16) :=
  [([0xE3], .hl), ([0xDD, 0xE3], .index .ix), ([0xFD, 0xE3], .index .iy)]

/-- The code with the word behind it, lower byte first. -/
def withWord (code : List UInt8) (nn : UInt16) : List UInt8 :=
  code ++ [low nn, high nn]

section Codes

variable (nn : UInt16)

theorem encodes_storeCodes :
    ∀ e ∈ storeCodes, Encodes (withWord e.1 nn) e.1.length (.storeWord nn e.2) := by
  have hword (x : Reg16) := Decoding.ends_word (fun nn => .storeWord nn x) nn
  simp only [storeCodes, List.forall_mem_cons, List.not_mem_nil, false_implies, implies_true]
  exact ⟨encodes_plain rfl (hword .hl), encodes_ed rfl (hword .bc), encodes_ed rfl (hword .de),
    encodes_ed rfl (hword .hl), encodes_ed rfl (hword .sp),
    encodes_index (x := .ix) rfl (hword (.index .ix)),
    encodes_index (x := .iy) rfl (hword (.index .iy)), trivial⟩

theorem encodes_loadCodes :
    ∀ e ∈ loadCodes, Encodes (withWord e.1 nn) e.1.length (.loadWord e.2 nn) := by
  have hword (x : Reg16) := Decoding.ends_word (fun nn => .loadWord x nn) nn
  simp only [loadCodes, List.forall_mem_cons, List.not_mem_nil, false_implies, implies_true]
  exact ⟨encodes_plain rfl (hword .hl), encodes_ed rfl (hword .bc), encodes_ed rfl (hword .de),
    encodes_ed rfl (hword .hl), encodes_ed rfl (hword .sp),
    encodes_index (x := .ix) rfl (hword (.index .ix)),
    encodes_index (x := .iy) rfl (hword (.index .iy)), trivial⟩

theorem encodes_exchangeCodes :
    ∀ e ∈ exchangeCodes, Encodes e.1 e.1.length (.exchangeStack e.2) := by
  simp only [exchangeCodes, List.forall_mem_cons, List.not_mem_nil, false_implies, implies_true]
  exact ⟨encodes_plain rfl (.done _), encodes_index (x := .ix) rfl (.done _),
    encodes_index (x := .iy) rfl (.done _), trivial⟩

end Codes

/-! ## Words in memory -/

namespace Memory

/-- The word at an address, lower byte first. -/
def word (m : Memory) (a : UInt16) : UInt16 :=
  join (m.get (a + 1)) (m.get a)

/-- The memory with a word at an address, lower byte first. -/
def stored (m : Memory) (a w : UInt16) : Memory :=
  (m.set a (low w)).set (a + 1) (high w)

variable (m : Memory) (a w v : UInt16)

theorem succ_ne_self : a + 1 ≠ a := by
  intro h
  have hval : (a.toNat + 1) % 65536 = a.toNat := (UInt16.toNat_add a 1).symm.trans (congrArg _ h)
  have := a.toNat_lt
  omega

theorem get_stored_low : (m.stored a w).get a = low w := by
  rw [stored, get_set, if_neg (succ_ne_self a), get_set_self]

theorem get_stored_high : (m.stored a w).get (a + 1) = high w :=
  get_set_self _ _ _

theorem get_stored_of_ne {c : UInt16} (h : c ≠ a) (h' : c ≠ a + 1) :
    (m.stored a w).get c = m.get c := by
  rw [stored, get_set, if_neg h'.symm, get_set, if_neg h.symm]

theorem word_stored : (m.stored a w).word a = w := by
  rw [word, get_stored_high, get_stored_low, join_high_low]

/-- Memory is as before once the word from before has been stored again. -/
theorem stored_stored_self :
    (m.stored a w).stored a (m.word a) = m := by
  apply ext_get
  intro c
  by_cases hhigh : c = a + 1
  · rw [hhigh, get_stored_high, word, high_join]
  · by_cases hlow : c = a
    · rw [hlow, get_stored_low, word, low_join]
    · rw [get_stored_of_ne _ _ _ hlow hhigh, get_stored_of_ne _ _ _ hlow hhigh]

end Memory

namespace Registers

variable (r : Registers) (x : Reg16) (v : UInt16)

/-- A word register holds what has been written to it. -/
theorem word_setWord_self : (r.setWord x v).word x = v := by
  cases x with
  | bc | de | hl | af => exact join_high_low v
  | sp => rfl
  | index x => cases x <;> rfl

/-- To write a word register twice is to write it once. -/
theorem setWord_setWord (w : UInt16) : (r.setWord x v).setWord x w = r.setWord x w := by
  cases x with
  | index x => cases x <;> rfl
  | _ => rfl

theorem setWord_word : r.setWord x (r.word x) = r := by
  have hpair (hi lo : UInt8) : high (join hi lo) = hi ∧ low (join hi lo) = lo :=
    ⟨high_join hi lo, low_join hi lo⟩
  cases x with
  | bc | de | hl | af => simp only [setWord, word, setBC, setDE, setHL, setAF, Bank.bc, Bank.de,
      Bank.hl, Bank.af, hpair]
  | sp => rfl
  | index x => cases x <;> rfl

/-- Word registers are apart from the program counter and R. -/
theorem setWord_with (pc : UInt16) (r' : UInt8) :
    { r with pc := pc, r := r' }.setWord x v = { r.setWord x v with pc := pc, r := r' } := by
  cases x with
  | index x => cases x <;> rfl
  | _ => rfl

theorem word_with (pc : UInt16) (r' : UInt8) :
    { r with pc := pc, r := r' }.word x = r.word x := by
  cases x with
  | index x => cases x <;> rfl
  | _ => rfl

theorem sp_setWord {x : Reg16} (hx : x ≠ .sp) : (r.setWord x v).sp = r.sp := by
  cases x with
  | sp => exact absurd rfl hx
  | index x => cases x <;> rfl
  | _ => rfl

end Registers

namespace Exec

variable {ω : Type} [Observer ω] {m : Machine Board ω}

/-! ## One instruction -/

section Forms

variable {x : Reg16} {nn : UInt16} {bytes opcodes : Nat}

theorem Spells.leaves_storeWord (h : Spells m (.storeWord nn x) bytes opcodes) :
    Leaves m (m.cpu.advanced bytes opcodes) (m.bus.memory.stored nn (m.cpu.regs.word x)) := by
  apply h.leaves
  intro m' hbus hregs
  refine ⟨hregs, ?_⟩
  show { m'.bus with memory := m'.bus.memory.stored nn (m'.cpu.regs.word x) } = _
  rw [hbus, hregs, Cpu.advanced, Registers.word_with]

theorem Spells.leaves_loadWord (h : Spells m (.loadWord x nn) bytes opcodes) :
    Leaves m ((m.cpu.advanced bytes opcodes).setWord x (m.bus.memory.word nn)) m.bus.memory := by
  apply h.leaves
  intro m' hbus hregs
  refine ⟨?_, hbus⟩
  show m'.cpu.regs.setWord x (m'.bus.memory.word nn) = _
  rw [hbus, hregs]

theorem Spells.leaves_exchangeStack (h : Spells m (.exchangeStack x) bytes opcodes) :
    Leaves m ((m.cpu.advanced bytes opcodes).setWord x (m.bus.memory.word m.cpu.regs.sp))
      (m.bus.memory.stored m.cpu.regs.sp (m.cpu.regs.word x)) := by
  apply h.leaves
  intro m' hbus hregs
  constructor
  · show m'.cpu.regs.setWord x (m'.bus.memory.word m'.cpu.regs.sp) = _
    rw [hbus, hregs]
    rfl
  · show { m'.bus with memory :=
      m'.bus.memory.stored m'.cpu.regs.sp (m'.cpu.regs.word x) } = _
    rw [hbus, hregs, Cpu.advanced, Registers.word_with]

end Forms

/-- The machines have everything in common but the program counter and R. -/
structure Alike (s t : Machine Board ω) : Prop where
  regs : t.cpu.regs = { s.cpu.regs with pc := t.cpu.regs.pc, r := t.cpu.regs.r }
  bus : t.bus = s.bus
  record : t.cpu.SameRecord s.cpu

/-- Encodings of different lengths, at different places, can do the same. -/
theorem Leaves.alike {p q : UInt16} {n n' k k' : Nat} {f : Registers → Registers} {memory : Memory}
    (hf : ∀ r pc r', f { r with pc := pc, r := r' } = { f r with pc := pc, r := r' })
    (h : Leaves (m.startingAt p) (f ((m.startingAt p).cpu.advanced n k)) memory)
    (h' : Leaves (m.startingAt q) (f ((m.startingAt q).cpu.advanced n' k')) memory) :
    Alike (runOne (m.startingAt p)).2 (runOne (m.startingAt q)).2 where
  regs := by
    have hadvanced (a : UInt16) (n k : Nat) : f ((m.startingAt a).cpu.advanced n k) =
        { f m.cpu.regs with
          pc := a + UInt16.ofNat n
          r := ((m.startingAt a).cpu.advanced n k).r } :=
      hf m.cpu.regs _ _
    rw [h.regs, h'.regs, hadvanced, hadvanced]
  bus := h'.bus.trans h.bus.symm
  record := ⟨h'.record.fault.trans h.record.fault.symm, h'.record.config.trans h.record.config.symm,
    h'.record.instructions.trans h.record.instructions.symm⟩

/-! ## All of them -/

/-- What the encodings do where they are at the program counter, and what two of them do one after
the other. -/
structure WordTransfers (m : Machine Board ω) : Prop where
  /-- A store puts the lower byte at its address and the upper one behind it. Nothing else changes
  but the program counter and, if opcode fetches are counted, R. -/
  store : ∀ e ∈ storeCodes, ∀ nn, m.bus.Holds m.cpu.regs.pc (withWord e.1 nn) →
    let memory := (runOne m).2.bus.memory
    Leaves m (m.cpu.advanced (e.1.length + 2) e.1.length) memory ∧
      memory.get nn = low (m.cpu.regs.word e.2) ∧
      memory.get (nn + 1) = high (m.cpu.regs.word e.2) ∧
      ∀ c, c ≠ nn → c ≠ nn + 1 → memory.get c = m.bus.memory.get c
  /-- A load replaces its register by the word in the same order. -/
  load : ∀ e ∈ loadCodes, ∀ nn, m.bus.Holds m.cpu.regs.pc (withWord e.1 nn) →
    Leaves m ((m.cpu.advanced (e.1.length + 2) e.1.length).setWord e.2
      (join (m.bus.peek (nn + 1)) (m.bus.peek nn))) m.bus.memory
  /-- What any of the stores has stored, any of the loads takes back, on whatever processor the
  bus is then, where the store has not come to the code of the load. -/
  storeLoad : ∀ e ∈ storeCodes, ∀ e' ∈ loadCodes, ∀ nn,
    m.bus.Holds m.cpu.regs.pc (withWord e.1 nn) →
    ∀ m' : Machine Board ω, m'.bus = (runOne m).2.bus →
    m.bus.Holds m'.cpu.regs.pc (withWord e'.1 nn) →
    (∀ c, Inside m'.cpu.regs.pc (withWord e'.1 nn).length c → c ≠ nn ∧ c ≠ nn + 1) →
    Leaves m' ((m'.cpu.advanced (e'.1.length + 2) e'.1.length).setWord e'.2
        (m.cpu.regs.word e.2)) m'.bus.memory ∧
      (runOne m').2.cpu.regs.word e'.2 = m.cpu.regs.word e.2
  /-- ED 63 leaves what 22 leaves and ED 6B what 2A leaves, but for the program counter and R. -/
  alike : ∀ e ∈ [([0x22], [0xED, 0x63]), ([0x2A], [0xED, 0x6B])], ∀ nn p q,
    m.bus.Holds p (withWord e.1 nn) → m.bus.Holds q (withWord e.2 nn) →
    (runOne (m.startingAt p)).1 = .ok () ∧ (runOne (m.startingAt q)).1 = .ok () ∧
      Alike (runOne (m.startingAt p)).2 (runOne (m.startingAt q)).2
  /-- To exchange twice is to do nothing, where the first exchange has not come to the code of the
  second one. -/
  exchange : ∀ e ∈ exchangeCodes, ∀ q, m.bus.Holds m.cpu.regs.pc e.1 → m.bus.Holds q e.1 →
    (∀ c, Inside q e.1.length c → c ≠ m.cpu.regs.sp ∧ c ≠ m.cpu.regs.sp + 1) →
    let second := (runOne m).2.startingAt q
    (runOne m).1 = .ok () ∧ (runOne second).1 = .ok () ∧
      (runOne second).2.bus = m.bus ∧
      (runOne second).2.cpu.regs = { m.cpu.regs with
        pc := (runOne second).2.cpu.regs.pc, r := (runOne second).2.cpu.regs.r }

section Transfers

variable {e e' : List UInt8 × Reg16} {nn : UInt16}

omit [Observer ω] in
theorem length_withWord (code : List UInt8) (nn : UInt16) :
    (withWord code nn).length = code.length + 2 :=
  List.length_append

theorem leaves_store (he : e ∈ storeCodes)
    (hcode : m.bus.Holds m.cpu.regs.pc (withWord e.1 nn)) :
    Leaves m (m.cpu.advanced (e.1.length + 2) e.1.length)
      (m.bus.memory.stored nn (m.cpu.regs.word e.2)) := by
  have h := ((encodes_storeCodes nn e he).spells hcode).leaves_storeWord
  rwa [length_withWord] at h

theorem leaves_load (he : e ∈ loadCodes)
    (hcode : m.bus.Holds m.cpu.regs.pc (withWord e.1 nn)) :
    Leaves m ((m.cpu.advanced (e.1.length + 2) e.1.length).setWord e.2 (m.bus.memory.word nn))
      m.bus.memory := by
  have h := ((encodes_loadCodes nn e he).spells hcode).leaves_loadWord
  rwa [length_withWord] at h

theorem leaves_exchange (he : e ∈ exchangeCodes) (hcode : m.bus.Holds m.cpu.regs.pc e.1) :
    Leaves m ((m.cpu.advanced e.1.length e.1.length).setWord e.2 (m.bus.memory.word m.cpu.regs.sp))
      (m.bus.memory.stored m.cpu.regs.sp (m.cpu.regs.word e.2)) :=
  ((encodes_exchangeCodes e he).spells hcode).leaves_exchangeStack

/-- Code stays where it is if a word is stored outside of it. -/
theorem holds_stored {b : Board} {a nn w : UInt16} {code : List UInt8} (h : b.Holds a code)
    (hout : ∀ c, Inside a code.length c → c ≠ nn ∧ c ≠ nn + 1) :
    { b with memory := b.memory.stored nn w }.Holds a code :=
  h.congr fun c hc => Memory.get_stored_of_ne _ _ _ (hout c hc).1 (hout c hc).2

theorem leaves_storeLoad {m' : Machine Board ω} (he : e ∈ storeCodes) (he' : e' ∈ loadCodes)
    (hcode : m.bus.Holds m.cpu.regs.pc (withWord e.1 nn)) (hbus : m'.bus = (runOne m).2.bus)
    (hcode' : m.bus.Holds m'.cpu.regs.pc (withWord e'.1 nn))
    (hout : ∀ c, Inside m'.cpu.regs.pc (withWord e'.1 nn).length c → c ≠ nn ∧ c ≠ nn + 1) :
    Leaves m' ((m'.cpu.advanced (e'.1.length + 2) e'.1.length).setWord e'.2
      (m.cpu.regs.word e.2)) m'.bus.memory := by
  rw [(leaves_store he hcode).bus] at hbus
  have h := leaves_load (m := m') he' (hbus ▸ holds_stored hcode' hout)
  rwa [hbus, Memory.word_stored, ← hbus] at h

/-- The second exchange takes back what the first one has put on the stack. -/
theorem leaves_exchange_exchange {q : UInt16} (he : e ∈ exchangeCodes)
    (hcode : m.bus.Holds m.cpu.regs.pc e.1) (hcode' : m.bus.Holds q e.1)
    (hout : ∀ c, Inside q e.1.length c → c ≠ m.cpu.regs.sp ∧ c ≠ m.cpu.regs.sp + 1) :
    let second := (runOne m).2.startingAt q
    let advanced := second.cpu.advanced e.1.length e.1.length
    Leaves second { m.cpu.regs with pc := advanced.pc, r := advanced.r } m.bus.memory := by
  intro second advanced
  let v := m.bus.memory.word m.cpu.regs.sp
  have hfirst := leaves_exchange he hcode
  have hbus : second.bus = { m.bus with
      memory := m.bus.memory.stored m.cpu.regs.sp (m.cpu.regs.word e.2) } := hfirst.bus
  have hregs : second.cpu.regs = { m.cpu.regs.setWord e.2 v with
      pc := q, r := second.cpu.regs.r } := by
    show { (runOne m).2.cpu.regs with pc := q } =
      { m.cpu.regs.setWord e.2 v with pc := q, r := (runOne m).2.cpu.regs.r }
    rw [hfirst.regs, Cpu.advanced, Registers.setWord_with]
  have hsp : second.cpu.regs.sp = m.cpu.regs.sp := by
    rw [hregs]
    exact Registers.sp_setWord _ _ ((by decide : ∀ e ∈ exchangeCodes, e.2 ≠ .sp) e he)
  have hword : second.cpu.regs.word e.2 = v := by
    rw [hregs, Registers.word_with, Registers.word_setWord_self]
  have hadvanced : advanced = { m.cpu.regs.setWord e.2 v with
      pc := advanced.pc, r := advanced.r } := by
    show { second.cpu.regs with pc := advanced.pc, r := advanced.r } = _
    rw [hregs]
  -- the second exchange finds in its register and in memory what the first one has put there
  have h := leaves_exchange (m := second) he (hbus ▸ holds_stored hcode' hout)
  rw [hsp, hword, hbus, Memory.word_stored] at h
  have hmemory : (m.bus.memory.stored m.cpu.regs.sp (m.cpu.regs.word e.2)).stored
      m.cpu.regs.sp v = m.bus.memory := Memory.stored_stored_self _ _ _
  rw [hmemory] at h
  have hrestored : advanced.setWord e.2 (m.cpu.regs.word e.2) =
      { m.cpu.regs with pc := advanced.pc, r := advanced.r } := by
    rw [hadvanced, Registers.setWord_with, Registers.setWord_setWord, Registers.setWord_word]
  rwa [← hrestored]

end Transfers

/-- On a board words go between registers and memory as they should. -/
theorem runOne_wordTransfers (m : Machine Board ω) : WordTransfers m where
  store e he nn hcode := by
    have h := leaves_store he hcode
    have hmemory : (runOne m).2.bus.memory = m.bus.memory.stored nn (m.cpu.regs.word e.2) :=
      congrArg Board.memory h.bus
    rw [hmemory]
    exact ⟨h, Memory.get_stored_low _ _ _, Memory.get_stored_high _ _ _,
      fun c => Memory.get_stored_of_ne _ _ _⟩
  load e he nn := leaves_load he
  storeLoad e he e' he' nn hcode m' hbus hcode' hout := by
    have h := leaves_storeLoad he he' hcode hbus hcode' hout
    exact ⟨h, h.regs ▸ Registers.word_setWord_self _ _ _⟩
  alike := by
    simp only [List.forall_mem_cons, List.not_mem_nil, false_implies, implies_true, and_true]
    constructor
    · intro nn p q hp hq
      have h := leaves_store (m := m.startingAt p) (e := ([0x22], .hl)) (by decide) hp
      have h' := leaves_store (m := m.startingAt q) (e := ([0xED, 0x63], .hl)) (by decide) hq
      exact ⟨h.result, h'.result, h.alike (f := id) (fun _ _ _ => rfl) h'⟩
    · intro nn p q hp hq
      have h := leaves_load (m := m.startingAt p) (e := ([0x2A], .hl)) (by decide) hp
      have h' := leaves_load (m := m.startingAt q) (e := ([0xED, 0x6B], .hl)) (by decide) hq
      exact ⟨h.result, h'.result,
        h.alike (f := (·.setWord .hl (m.bus.memory.word nn))) (fun _ _ _ => rfl) h'⟩
  exchange e he q hcode hcode' hout := by
    have hfirst := leaves_exchange he hcode
    have hsecond := leaves_exchange_exchange he hcode hcode' hout
    refine ⟨hfirst.result, hsecond.result, hsecond.bus.trans ?_, ?_⟩
    · show { (runOne m).2.bus with memory := m.bus.memory } = m.bus
      rw [hfirst.bus]
    · rw [hsecond.regs]

/-- LD (FFFF),SP over its own first byte, and then LD IX,(FFFF). -/
theorem runOne_wordTransfers_around_end :
    let memory := Memory.zero.load 0 [0xED, 0x73, 0xFF, 0xFF, 0xDD, 0x2A, 0xFF, 0xFF]
    let m : Machine Board Unit := ⟨{ regs := { sp := 0x1234 } }, { memory }, ()⟩
    m.bus.Holds 0 (withWord [0xED, 0x73] 0xFFFF) ∧
      m.bus.Holds 4 (withWord [0xDD, 0x2A] 0xFFFF) ∧
      (runOne m).2.bus.memory.get 0 = 0x12 ∧
      (runOne ((runOne m).2.startingAt 4)).2.cpu.regs.ix = 0x1234 := by
  intro memory m
  have hstore : m.bus.Holds 0 (withWord [0xED, 0x73] 0xFFFF) := by
    decide +kernel
  have hload : m.bus.Holds 4 (withWord [0xDD, 0x2A] 0xFFFF) := by
    decide +kernel
  have hout : ∀ c, Inside 4 4 c → c ≠ 0xFFFF ∧ c ≠ 0xFFFF + 1 := by
    rintro c ⟨i, hi, rfl⟩
    revert i
    decide
  have h := runOne_wordTransfers m
  obtain ⟨-, -, hhigh, -⟩ := h.store ([0xED, 0x73], .sp) (by decide) 0xFFFF hstore
  obtain ⟨-, hword⟩ := h.storeLoad ([0xED, 0x73], .sp) (by decide) ([0xDD, 0x2A], .index .ix)
    (by decide) 0xFFFF hstore ((runOne m).2.startingAt 4) rfl hload hout
  have hfirst : (0xFFFF + 1 : UInt16) = 0 := rfl
  rw [hfirst] at hhigh
  exact ⟨hstore, hload, hhigh.trans (by decide), hword⟩

end Exec

end Z80
