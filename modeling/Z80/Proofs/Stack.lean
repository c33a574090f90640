import Z80.Proofs.WordTransfers
import Z80.Proofs.BaseFamilies

/-!
# The stack

A word that goes onto the stack lies in the two cells below the stack pointer, its upper byte
above its lower one, and the stack pointer moves down to it. Addresses wrap, so all of memory can
be a stack, of 32768 words. Up to that depth what comes off the stack is what has gone onto it
last, whichever instructions move the words.

Main definitions:
- `Stacked`: what memory and stack pointer have in common with a list of words.
- `StackMove`, `lifo`, `Fits`: words that go onto the stack and come off it, and what is left.
- `Exec.pushAll`, `Exec.popAll`: several words, one after the other.
- `StackCode`, `Instruction.pushes`, `Instruction.pops`: the instructions that move words.
- `Exec.StackRun`: a course of such instructions, with anything in between that leaves memory and
  the stack pointer alone.
- `Exec.LastInFirstOut`: what comes off the stack, and what is left in memory.

Main statements: `Stacked.push` and `Stacked.pop` for one word, `StackRun.stacked` for a course of
instructions, and `lastInFirstOut`.
-/

namespace Z80

/-! ## Words in memory -/

/-- The address is one of so many below `sp`. -/
def Below (sp : UInt16) (n : Nat) (a : UInt16) : Prop :=
  ∃ i < n, a = sp - UInt16.ofNat (i + 1)

/-- Different distances, less than all of memory apart, lead to different addresses. -/
theorem sub_ofNat_ne (sp : UInt16) {i j : Nat} (hlt : i < j) (hle : j < i + 65536) :
    sp - UInt16.ofNat i ≠ sp - UInt16.ofNat j := by
  intro h
  have := (Direction.down.walk_eq_walk_iff sp i j).mp h
  omega

theorem sub_sub_ofNat (sp : UInt16) (i j : Nat) :
    sp - UInt16.ofNat i - UInt16.ofNat j = sp - UInt16.ofNat (i + j) :=
  Direction.down.walk_walk sp i j

namespace Memory

/-- The words lie below `sp`, each one below those before it in the list, with its upper byte above
its lower one. -/
def HoldsBelow (m : Memory) (sp : UInt16) (vs : List UInt16) : Prop :=
  ∀ k v, vs[k]? = some v →
    m.get (sp - UInt16.ofNat (2 * k + 1)) = high v ∧ m.get (sp - UInt16.ofNat (2 * k + 2)) = low v

end Memory

/-- From a stack pointer `sp₀` and a memory `mem₀` on, words have gone onto the stack, those of
`ws` are left of them, the last one first, and there have never been more than `limit`. -/
structure Stacked (sp₀ : UInt16) (mem₀ : Memory) (limit : Nat) (ws : List UInt16) (sp : UInt16)
    (mem : Memory) : Prop where
  sp : sp = sp₀ - UInt16.ofNat (2 * ws.length)
  words : mem.HoldsBelow sp₀ ws.reverse
  frame : ∀ a, ¬Below sp₀ (2 * limit) a → mem.get a = mem₀.get a

namespace Stacked

variable {sp₀ sp : UInt16} {mem₀ mem : Memory} {limit : Nat} {ws : List UInt16} {v : UInt16}

theorem nil (sp : UInt16) (mem : Memory) (limit : Nat) : Stacked sp mem limit [] sp mem where
  sp := (UInt16.sub_zero sp).symm
  words k v h := by
    cases h
  frame _ _ := rfl

theorem push (h : Stacked sp₀ mem₀ limit ws sp mem) (hlt : ws.length < limit)
    (hlimit : limit ≤ 32768) (v : UInt16) :
    Stacked sp₀ mem₀ limit (v :: ws) (sp - 2) (mem.pushed sp v) := by
  have hhigh : sp - 1 = sp₀ - UInt16.ofNat (2 * ws.length + 1) := by
    rw [h.sp]
    exact sub_sub_ofNat sp₀ (2 * ws.length) 1
  have hlow : sp - 2 = sp₀ - UInt16.ofNat (2 * ws.length + 2) := by
    rw [h.sp]
    exact sub_sub_ofNat sp₀ (2 * ws.length) 2
  have hget (a : UInt16) : (mem.pushed sp v).get a =
      if sp₀ - UInt16.ofNat (2 * ws.length + 2) = a then low v
      else if sp₀ - UInt16.ofNat (2 * ws.length + 1) = a then high v else mem.get a := by
    rw [Memory.pushed, hhigh, hlow, Memory.get_set, Memory.get_set]
  -- the new cells are none of those that are in use, down to the last two of all
  have hkept {j : Nat} (hpos : 0 < j) (hle : j ≤ 2 * ws.length) :
      (mem.pushed sp v).get (sp₀ - UInt16.ofNat j) = mem.get (sp₀ - UInt16.ofNat j) := by
    rw [hget, if_neg (sub_ofNat_ne sp₀ (by omega) (by omega)).symm,
      if_neg (sub_ofNat_ne sp₀ (by omega) (by omega)).symm]
  refine ⟨hlow, ?_, ?_⟩
  · intro k w hk
    rw [List.reverse_cons] at hk
    by_cases hold : k < ws.length
    · rw [List.getElem?_append_left (by rwa [List.length_reverse])] at hk
      rw [hkept (by omega) (by omega), hkept (by omega) (by omega)]
      exact h.words k w hk
    · rw [List.getElem?_append_right (by rw [List.length_reverse]; omega),
        List.length_reverse, List.getElem?_singleton] at hk
      split at hk
      · obtain rfl : v = w := Option.some.inj hk
        obtain rfl : k = ws.length := by omega
        refine ⟨?_, ?_⟩
        · rw [hget, if_neg (sub_ofNat_ne sp₀ (by omega) (by omega)).symm, if_pos rfl]
        · rw [hget, if_pos rfl]
      · cases hk
  · intro a ha
    rw [hget, if_neg, if_neg, h.frame a ha]
    · rintro rfl
      exact ha ⟨2 * ws.length, by omega, rfl⟩
    · rintro rfl
      exact ha ⟨2 * ws.length + 1, by omega, rfl⟩

/-- The word that comes off the stack is the one that has gone onto it last. -/
theorem word_sp (h : Stacked sp₀ mem₀ limit (v :: ws) sp mem) : mem.word sp = v := by
  have hlast : (v :: ws).reverse[ws.length]? = some v := by
    rw [List.reverse_cons, List.getElem?_append_right (by rw [List.length_reverse]),
      List.length_reverse, Nat.sub_self]
    rfl
  obtain ⟨hhigh, hlow⟩ := h.words ws.length v hlast
  have hsp : sp = sp₀ - UInt16.ofNat (2 * ws.length + 2) := h.sp
  have hnext : sp + 1 = sp₀ - UInt16.ofNat (2 * ws.length + 1) := by
    rw [hsp, ← sub_sub_ofNat sp₀ (2 * ws.length + 1) 1]
    exact UInt16.sub_add_cancel _ _
  rw [Memory.word, hnext, hhigh, hsp, hlow, join_high_low]

theorem pop (h : Stacked sp₀ mem₀ limit (v :: ws) sp mem) :
    Stacked sp₀ mem₀ limit ws (sp + 2) mem where
  sp := by
    have hsp : sp = sp₀ - UInt16.ofNat (2 * ws.length + 2) := h.sp
    rw [hsp, ← sub_sub_ofNat sp₀ (2 * ws.length) 2]
    exact UInt16.sub_add_cancel _ _
  words k w hk := by
    obtain ⟨hlt, -⟩ := List.getElem?_eq_some_iff.mp hk
    apply h.words k w
    rw [List.reverse_cons, List.getElem?_append_left hlt, hk]
  frame := h.frame

end Stacked

/-! ## Moves -/

/-- A word goes onto the stack, or comes off it. -/
inductive StackMove where
  | push (v : UInt16)
  | pop (v : UInt16)
  deriving DecidableEq

/-- The words that are left on the stack, last one first, if each word that comes off it is the one
that has gone onto it last. -/
def lifo : List StackMove → List UInt16 → Option (List UInt16)
  | [], ws => some ws
  | .push v :: moves, ws => lifo moves (v :: ws)
  | .pop v :: moves, w :: ws => if v = w then lifo moves ws else none
  | .pop _ :: _, [] => none

/-- On a stack of `n` words, none is to come off it when it is empty, and there are never to be
more than `limit`. -/
def Fits (limit : Nat) : Nat → List StackMove → Prop
  | _, [] => True
  | n, .push _ :: moves => n < limit ∧ Fits limit (n + 1) moves
  | n + 1, .pop _ :: moves => Fits limit n moves
  | 0, .pop _ :: _ => False

section Moves

variable (vs ws : List UInt16)

/-- All words go onto the stack. -/
def pushes : List StackMove := vs.map .push

/-- All words come off the stack. -/
def pops : List StackMove := vs.map .pop

theorem lifo_pushes_from : lifo (pushes vs) ws = some (vs.reverse ++ ws) := by
  induction vs generalizing ws with
  | nil => rfl
  | cons v vs ih =>
    rw [List.reverse_cons, List.append_assoc]
    exact ih (v :: ws)

theorem lifo_pushes : lifo (pushes vs) [] = some vs.reverse :=
  (lifo_pushes_from vs []).trans (congrArg some (List.append_nil _))

theorem eq_append_of_lifo_pops {us rest : List UInt16} (h : lifo (pops us) ws = some rest) :
    ws = us ++ rest := by
  induction us generalizing ws with
  | nil => exact Option.some.inj h
  | cons u us ih =>
    cases ws with
    | nil => cases h
    | cons w ws =>
      simp only [pops, List.map_cons, lifo] at h
      split at h
      · next hu => rw [hu, ih ws h, List.cons_append]
      · cases h

theorem fits_pops {limit n : Nat} (h : ws.length ≤ n) : Fits limit n (pops ws) := by
  induction ws generalizing n with
  | nil => exact trivial
  | cons w ws ih =>
    cases n with
    | zero => exact absurd h (Nat.not_succ_le_zero _)
    | succ n => exact ih (Nat.le_of_succ_le_succ h)

theorem fits_pushes {limit n : Nat} (h : n + vs.length ≤ limit) : Fits limit n (pushes vs) := by
  induction vs generalizing n with
  | nil => exact trivial
  | cons v vs ih =>
    rw [List.length_cons] at h
    exact ⟨by omega, ih (by omega)⟩

end Moves

/-! ## Instructions that move words -/

/-- The encodings of the instructions that move a word, the conditional ones included. -/
inductive StackCode : List UInt8 → Instruction → Prop
  /-- PUSH BC, DE, HL and AF. -/
  | push {op : UInt8} {p : Fin 4} (hop : Opcode.HasPairFields op 3 p 0 5) :
    StackCode [op] (.push (Reg16.selectStacked p))
  /-- PUSH IX and IY. -/
  | pushIndex (x : Index) : StackCode [x.lead, 0xE5] (.push (.index x))
  /-- CALL nn. -/
  | call (nn : UInt16) : StackCode (withWord [0xCD] nn) (.call none nn)
  /-- CALL cc,nn. -/
  | callIf {op : UInt8} {y : Fin 8} (hop : Opcode.HasFields op 3 y 4) (nn : UInt16) :
    StackCode (withWord [op] nn) (.call (some (Condition.select y)) nn)
  | rst {op : UInt8} {y : Fin 8} (hop : Opcode.HasFields op 3 y 7) :
    StackCode [op] (.rst (8 * UInt16.ofNat y))
  /-- POP BC, DE, HL and AF. -/
  | pop {op : UInt8} {p : Fin 4} (hop : Opcode.HasPairFields op 3 p 0 1) :
    StackCode [op] (.pop (Reg16.selectStacked p))
  /-- POP IX and IY. -/
  | popIndex (x : Index) : StackCode [x.lead, 0xE1] (.pop (.index x))
  | ret : StackCode [0xC9] (.ret none)
  /-- RET cc. -/
  | retIf {op : UInt8} {y : Fin 8} (hop : Opcode.HasFields op 3 y 0) :
    StackCode [op] (.ret (some (Condition.select y)))
  | retn : StackCode [0xED, 0x45] .retn
  | reti : StackCode [0xED, 0x4D] .reti

namespace StackCode

variable {code : List UInt8} {i : Instruction}

theorem encodes (h : StackCode code i) : ∃ opcodes, Encodes code opcodes i := by
  cases h with
  | push hop => exact ⟨1, encodes_plain hop.push (.done _)⟩
  | pushIndex x => exact ⟨2, encodes_index (x := x) rfl (.done _)⟩
  | call nn => exact ⟨1, encodes_plain rfl (Decoding.ends_word _ nn)⟩
  | callIf hop nn => exact ⟨1, encodes_plain hop.call (Decoding.ends_word _ nn)⟩
  | rst hop => exact ⟨1, encodes_plain hop.rst (.done _)⟩
  | pop hop => exact ⟨1, encodes_plain hop.pop (.done _)⟩
  | popIndex x => exact ⟨2, encodes_index (x := x) rfl (.done _)⟩
  | ret => exact ⟨1, encodes_plain rfl (.done _)⟩
  | retIf hop => exact ⟨1, encodes_plain hop.ret (.done _)⟩
  | retn => exact ⟨2, encodes_ed rfl (.done _)⟩
  | reti => exact ⟨2, encodes_ed rfl (.done _)⟩

/-- No word comes off the stack into the stack pointer. -/
theorem ne_popSP (h : StackCode code i) : i ≠ .pop .sp := by
  cases h with
  | @pop _ p hop =>
    match p with
    | 0 | 1 | 2 | 3 => rintro ⟨⟩
  | _ => rintro ⟨⟩

end StackCode

namespace Instruction

/-- The word that the instruction puts on the stack, if it does: a register, or the address that it
is to return to, which is the one behind it. -/
def pushes (r : Registers) (behind : UInt16) : Instruction → Option UInt16
  | .push x => some (r.word x)
  | .call cc _ => if Condition.taken cc r.f then some behind else none
  | .rst _ => some behind
  | _ => none

/-- The word that the instruction takes off the stack, if it does: it has arrived in a register or
in the program counter of the registers `r'`. -/
def pops (r r' : Registers) : Instruction → Option UInt16
  | .pop x => some (r'.word x)
  | .ret cc => if Condition.taken cc r.f then some r'.pc else none
  | .retn | .reti => some r'.pc
  | _ => none

end Instruction

namespace Exec

variable {ω : Type} [Observer ω] {m m' s : Machine Board ω} {i : Instruction} {v : UInt16}

/-- The machine has no fault on record and has not halted, so a step takes in an instruction. -/
structure Running (m : Machine Board ω) : Prop where
  fault : m.cpu.fault = none
  halted : m.cpu.regs.halted = false

/-- The word has gone onto the stack. -/
structure Pushed (m : Machine Board ω) (v : UInt16) (m' : Machine Board ω) : Prop where
  sp : m'.cpu.regs.sp = m.cpu.regs.sp - 2
  memory : m'.bus.memory = m.bus.memory.pushed m.cpu.regs.sp v

/-- The word has come off the stack. -/
structure Popped (m : Machine Board ω) (v : UInt16) (m' : Machine Board ω) : Prop where
  word : v = m.bus.memory.word m.cpu.regs.sp
  sp : m'.cpu.regs.sp = m.cpu.regs.sp + 2
  memory : m'.bus.memory = m.bus.memory

theorem if_true_apply {β ω : Type} {c : Bool} (h : c = true) (x : Exec β ω Unit)
    (m : Machine β ω) : (if c then x else pure ()) m = x m := by
  rw [h, if_pos rfl]

theorem perform_pushes {i : Instruction} (h : i.pushes s.cpu.regs s.cpu.regs.pc = some v) :
    Pushed s v (perform i s).2 ∧ (perform i s).2.cpu.regs.halted = s.cpu.regs.halted := by
  cases i with
  | push x =>
    obtain rfl : s.cpu.regs.word x = v := Option.some.inj h
    exact ⟨⟨rfl, rfl⟩, rfl⟩
  | call cc nn =>
    simp only [Instruction.pushes] at h
    split at h
    · next htaken =>
      obtain rfl : s.cpu.regs.pc = v := Option.some.inj h
      have hperform : perform (.call cc nn) s = call nn s := if_true_apply htaken _ s
      rw [hperform]
      exact ⟨⟨rfl, rfl⟩, rfl⟩
    · cases h
  | rst target =>
    obtain rfl : s.cpu.regs.pc = v := Option.some.inj h
    exact ⟨⟨rfl, rfl⟩, rfl⟩
  | _ => cases h

theorem perform_pops {i : Instruction} (hi : i ≠ .pop .sp)
    (h : i.pops s.cpu.regs (perform i s).2.cpu.regs = some v) :
    Popped s v (perform i s).2 ∧ (perform i s).2.cpu.regs.halted = s.cpu.regs.halted := by
  cases i with
  | pop x =>
    have hx : x ≠ .sp := fun hx => hi (congrArg _ hx)
    have hregs : (perform (.pop x) s).2.cpu.regs =
        { s.cpu.regs with sp := s.cpu.regs.sp + 2 }.setWord x
          (s.bus.memory.word s.cpu.regs.sp) := rfl
    have hv : (perform (.pop x) s).2.cpu.regs.word x = v := Option.some.inj h
    rw [hregs] at hv ⊢
    refine ⟨⟨?_, Registers.sp_setWord _ _ hx, rfl⟩, ?_⟩
    · rw [← hv, Registers.word_setWord_self]
    · cases x with
      | index x => cases x <;> rfl
      | _ => rfl
  | ret cc =>
    simp only [Instruction.pops] at h
    split at h
    · next htaken =>
      have hperform : perform (.ret cc) s = ret s := if_true_apply htaken _ s
      rw [hperform] at h ⊢
      exact ⟨⟨(Option.some.inj h).symm, rfl, rfl⟩, rfl⟩
    · cases h
  | retn | reti => exact ⟨⟨(Option.some.inj h).symm, rfl, rfl⟩, rfl⟩
  | _ => cases h

/-! ## Steps -/

theorem Running.of_perform (h : Running s)
    (hhalted : (perform i s).2.cpu.regs.halted = s.cpu.regs.halted) :
    Running (perform i s).2 :=
  ⟨(perform_sameRecord i s).fault.trans h.fault, hhalted.trans h.halted⟩

section Steps

variable {code : List UInt8} (hrunning : Running m) (hcode : StackCode code i)
  (hholds : m.bus.Holds m.cpu.regs.pc code)
include hrunning hcode hholds

/-- A step takes in an instruction that moves a word and performs it. -/
theorem step_stackCode :
    ∃ s, Tracks m (m.cpu.regs.pc + UInt16.ofNat code.length) s ∧
      step 1 m = (.ok (), (perform i s).2) := by
  obtain ⟨opcodes, hencodes⟩ := hcode.encodes
  exact hencodes.step ⟨rfl, rfl, hrunning.fault, hrunning.halted⟩ hholds

theorem step_pushes
    (hv : i.pushes m.cpu.regs (m.cpu.regs.pc + UInt16.ofNat code.length) = some v) :
    Running (step 1 m).2 ∧ Pushed m v (step 1 m).2 := by
  obtain ⟨s, hs, hstep⟩ := step_stackCode hrunning hcode hholds
  have hpushes : i.pushes s.cpu.regs s.cpu.regs.pc = some v := by
    rw [← hv, hs.pc, hs.regs]
    cases i <;> simp only [Instruction.pushes, Registers.word_with]
  obtain ⟨⟨hsp, hmemory⟩, hhalted⟩ := perform_pushes hpushes
  rw [hstep]
  refine ⟨Running.of_perform ⟨hs.fault, hs.halted⟩ hhalted, hsp.trans ?_, hmemory.trans ?_⟩
  · rw [hs.regs]
  · rw [hs.regs, hs.bus]

theorem step_pops (hv : i.pops m.cpu.regs (step 1 m).2.cpu.regs = some v) :
    Running (step 1 m).2 ∧ Popped m v (step 1 m).2 := by
  obtain ⟨s, hs, hstep⟩ := step_stackCode hrunning hcode hholds
  rw [hstep] at hv ⊢
  have hpops : i.pops s.cpu.regs (perform i s).2.cpu.regs = some v := by
    rw [← hv, hs.regs]
    cases i <;> rfl
  obtain ⟨⟨hword, hsp, hmemory⟩, hhalted⟩ := perform_pops hcode.ne_popSP hpops
  refine ⟨Running.of_perform ⟨hs.fault, hs.halted⟩ hhalted, hword.trans ?_, hsp.trans ?_,
    hmemory.trans ?_⟩
  · rw [hs.regs, hs.bus]
  · rw [hs.regs]
  · rw [hs.bus]

end Steps

/-! ## Courses of instructions -/

/-- Whatever has happened has left memory and the stack pointer as they were, and the processor can
go on. -/
structure Undisturbed (m m' : Machine Board ω) : Prop where
  sp : m'.cpu.regs.sp = m.cpu.regs.sp
  memory : m'.bus.memory = m.bus.memory
  running : Running m'

/-- In a course of steps from one machine to another these words have been moved. Each of the
instructions that move them stands in memory when it is its turn. In between, other instructions
and the host do what they like, but not to memory and the stack pointer. -/
inductive StackRun : Machine Board ω → List StackMove → Machine Board ω → Prop
  | done (m : Machine Board ω) : StackRun m [] m
  | between {m m₁ m' : Machine Board ω} {moves : List StackMove} (h : Undisturbed m m₁)
    (hrest : StackRun m₁ moves m') : StackRun m moves m'
  | push {m m' : Machine Board ω} {moves : List StackMove} {code : List UInt8} {i : Instruction}
    {v : UInt16} (hcode : StackCode code i) (hholds : m.bus.Holds m.cpu.regs.pc code)
    (hv : i.pushes m.cpu.regs (m.cpu.regs.pc + UInt16.ofNat code.length) = some v)
    (hrest : StackRun (step 1 m).2 moves m') : StackRun m (.push v :: moves) m'
  | pop {m m' : Machine Board ω} {moves : List StackMove} {code : List UInt8} {i : Instruction}
    {v : UInt16} (hcode : StackCode code i) (hholds : m.bus.Holds m.cpu.regs.pc code)
    (hv : i.pops m.cpu.regs (step 1 m).2.cpu.regs = some v)
    (hrest : StackRun (step 1 m).2 moves m') : StackRun m (.pop v :: moves) m'

namespace StackRun

variable {moves moves' : List StackMove}

/-- While the words fit into memory, each one that comes off the stack is the one that has gone
onto it last. -/
theorem stacked (hrun : StackRun m moves m') (hrunning : Running m) {sp₀ : UInt16} {mem₀ : Memory}
    {limit : Nat} {ws : List UInt16} (hlimit : limit ≤ 32768)
    (hstacked : Stacked sp₀ mem₀ limit ws m.cpu.regs.sp m.bus.memory)
    (hfits : Fits limit ws.length moves) :
    Running m' ∧ ∃ ws', lifo moves ws = some ws' ∧
      Stacked sp₀ mem₀ limit ws' m'.cpu.regs.sp m'.bus.memory := by
  -- along the course every move keeps `Stacked`, and `hfits` keeps words from meeting others
  induction hrun generalizing ws with
  | done m => exact ⟨hrunning, ws, rfl, hstacked⟩
  | between h _ ih =>
    apply ih h.running _ hfits
    rwa [h.sp, h.memory]
  | @push m _ _ _ _ v hcode hholds hv _ ih =>
    obtain ⟨hrunning', hpushed⟩ := step_pushes hrunning hcode hholds hv
    have hnext : Stacked sp₀ mem₀ limit (v :: ws) (step 1 m).2.cpu.regs.sp
        (step 1 m).2.bus.memory := by
      rw [hpushed.sp, hpushed.memory]
      exact hstacked.push hfits.1 hlimit v
    exact ih hrunning' hnext hfits.2
  | @pop m _ _ _ _ v hcode hholds hv _ ih =>
    obtain ⟨hrunning', hpopped⟩ := step_pops hrunning hcode hholds hv
    cases ws with
    | nil => exact absurd hfits id
    | cons w ws =>
      obtain rfl : v = w := hpopped.word.trans hstacked.word_sp
      rw [lifo, if_pos rfl]
      apply ih hrunning' _ hfits
      rw [hpopped.sp, hpopped.memory]
      exact hstacked.pop

/-- What moves words in two parts does so in one part after the other. -/
theorem exists_of_append (hrun : StackRun m (moves ++ moves') m') :
    ∃ m₁, StackRun m moves m₁ ∧ StackRun m₁ moves' m' := by
  generalize hall : moves ++ moves' = all at hrun
  induction hrun generalizing moves with
  | done m =>
    obtain ⟨rfl, rfl⟩ := List.append_eq_nil_iff.mp hall
    exact ⟨m, .done m, .done m⟩
  | between h _ ih =>
    obtain ⟨m₁, hfirst, hsecond⟩ := ih hall
    exact ⟨m₁, .between h hfirst, hsecond⟩
  | push hcode hholds hv hrest ih =>
    cases moves with
    | nil =>
      obtain rfl : moves' = _ :: _ := hall
      exact ⟨_, .done _, .push hcode hholds hv hrest⟩
    | cons move moves =>
      obtain ⟨rfl, htail⟩ := List.cons.inj hall
      obtain ⟨m₁, hfirst, hsecond⟩ := ih htail
      exact ⟨m₁, .push hcode hholds hv hfirst, hsecond⟩
  | pop hcode hholds hv hrest ih =>
    cases moves with
    | nil =>
      obtain rfl : moves' = _ :: _ := hall
      exact ⟨_, .done _, .pop hcode hholds hv hrest⟩
    | cons move moves =>
      obtain ⟨rfl, htail⟩ := List.cons.inj hall
      obtain ⟨m₁, hfirst, hsecond⟩ := ih htail
      exact ⟨m₁, .pop hcode hholds hv hfirst, hsecond⟩

/-- Memory stays as it is while words come off the stack. -/
theorem memory_pops {ws : List UInt16} (hrun : StackRun m (pops ws) m') (hrunning : Running m) :
    m'.bus.memory = m.bus.memory := by
  -- the course may still wait in between, but none of its moves is a push
  generalize hall : pops ws = moves at hrun
  induction hrun generalizing ws with
  | done m => rfl
  | between h _ ih => exact (ih h.running hall).trans h.memory
  | push =>
    cases ws with
    | nil => cases hall
    | cons w ws => cases (List.cons.inj hall).1
  | pop hcode hholds hv _ ih =>
    obtain ⟨hrunning', hpopped⟩ := step_pops hrunning hcode hholds hv
    cases ws with
    | nil => cases hall
    | cons w ws => exact (ih hrunning' (List.cons.inj hall).2).trans hpopped.memory

end StackRun

/-! ## Words without instructions -/

/-- Puts words on the stack, first one first. -/
def pushAll {β ω : Type} [Bus β] [Observer ω] : List UInt16 → Exec β ω Unit
  | [] => return
  | v :: vs => do
    push v
    pushAll vs

/-- Takes so many words off the stack. -/
def popAll {β ω : Type} [Bus β] [Observer ω] : Nat → Exec β ω (List UInt16)
  | 0 => return []
  | n + 1 => do
    let v ← pop
    let vs ← popAll n
    return v :: vs

/-- Nothing but the stack pointer and memory has changed. -/
structure OnlyStack (m m' : Machine Board ω) : Prop where
  cpu : m'.cpu = { m.cpu with regs := { m.cpu.regs with sp := m'.cpu.regs.sp } }
  bus : m'.bus = { m.bus with memory := m'.bus.memory }

omit [Observer ω] in
theorem OnlyStack.trans {m₁ m₂ m₃ : Machine Board ω} (h : OnlyStack m₁ m₂) (h' : OnlyStack m₂ m₃) :
    OnlyStack m₁ m₃ where
  cpu := by
    rw [h'.cpu, h.cpu]
  bus := by
    rw [h'.bus, h.bus]

section Words

variable {sp₀ : UInt16} {mem₀ : Memory} {limit : Nat} {ws : List UInt16}

theorem stacked_pushAll (hlimit : limit ≤ 32768) (vs : List UInt16)
    (h : Stacked sp₀ mem₀ limit ws m.cpu.regs.sp m.bus.memory)
    (hle : ws.length + vs.length ≤ limit) :
    let m' := (pushAll vs m).2
    OnlyStack m m' ∧ Stacked sp₀ mem₀ limit (vs.reverse ++ ws) m'.cpu.regs.sp m'.bus.memory := by
  induction vs generalizing m ws with
  | nil => exact ⟨⟨rfl, rfl⟩, h⟩
  | cons v vs ih =>
    rw [List.length_cons] at hle
    have hfirst : OnlyStack m (push v m).2 := ⟨rfl, rfl⟩
    have hpushed : Stacked sp₀ mem₀ limit (v :: ws) (push v m).2.cpu.regs.sp
        (push v m).2.bus.memory := h.push (by omega) hlimit v
    obtain ⟨hrest, hall⟩ := ih hpushed (by rw [List.length_cons]; omega)
    rw [List.reverse_cons, List.append_assoc]
    exact ⟨hfirst.trans hrest, hall⟩

theorem popAll_of_stacked (us : List UInt16)
    (h : Stacked sp₀ mem₀ limit (us ++ ws) m.cpu.regs.sp m.bus.memory) :
    let m' := (popAll us.length m).2
    (popAll us.length m).1 = us ∧ OnlyStack m m' ∧ m'.bus = m.bus ∧
      Stacked sp₀ mem₀ limit ws m'.cpu.regs.sp m'.bus.memory := by
  induction us generalizing m with
  | nil => exact ⟨rfl, ⟨rfl, rfl⟩, rfl, h⟩
  | cons u us ih =>
    have hfirst : OnlyStack m (pop m).2 := ⟨rfl, rfl⟩
    have hword : (pop m).1 = u := h.word_sp
    obtain ⟨hwords, hrest, hbus, hall⟩ := ih (m := (pop m).2) h.pop
    refine ⟨?_, hfirst.trans hrest, hbus, hall⟩
    show (pop m).1 :: (popAll us.length (pop m).2).1 = u :: us
    rw [hword, hwords]

end Words

/-! ## All of it -/

/-- What comes off the stack of a machine, and what is left in memory. -/
structure LastInFirstOut (m : Machine Board ω) : Prop where
  /-- Words come back in opposite order, and with them the stack pointer. They are left in memory,
  and nothing else has changed. -/
  words : ∀ vs : List UInt16, vs.length ≤ 32768 →
    let after := popAll vs.length (pushAll vs m).2
    after.1 = vs.reverse ∧ after.2.cpu = m.cpu ∧
      after.2.bus = { m.bus with memory := after.2.bus.memory } ∧
      after.2.bus.memory.HoldsBelow m.cpu.regs.sp vs ∧
      ∀ a, ¬Below m.cpu.regs.sp (2 * vs.length) a → after.2.bus.peek a = m.bus.peek a
  /-- The same where instructions have moved the words. -/
  instructions : Running m → ∀ (vs ws : List UInt16) (m' : Machine Board ω), vs.length ≤ 32768 →
    ws.length = vs.length → StackRun m (pushes vs ++ pops ws) m' →
    ws = vs.reverse ∧ Running m' ∧ m'.cpu.regs.sp = m.cpu.regs.sp ∧
      m'.bus.memory.HoldsBelow m.cpu.regs.sp vs ∧
      ∀ a, ¬Below m.cpu.regs.sp (2 * vs.length) a → m'.bus.peek a = m.bus.peek a
  /-- Words can go onto the stack and come off it in any order. What is on the stack is in memory
  then, below the first stack pointer and down to the current one. -/
  nested : Running m → ∀ (moves : List StackMove) (limit : Nat) (m' : Machine Board ω),
    limit ≤ 32768 → Fits limit 0 moves → StackRun m moves m' →
    Running m' ∧ ∃ ws, lifo moves [] = some ws ∧
      Stacked m.cpu.regs.sp m.bus.memory limit ws m'.cpu.regs.sp m'.bus.memory
  /-- So code that is out of the reach of the stack is still there when it is its turn. -/
  code : Running m → ∀ (moves : List StackMove) (limit : Nat) (m' : Machine Board ω),
    limit ≤ 32768 → Fits limit 0 moves → StackRun m moves m' →
    ∀ a bytes, (∀ c, Inside a bytes.length c → ¬Below m.cpu.regs.sp (2 * limit) c) →
      m.bus.Holds a bytes → m'.bus.Holds a bytes

/-- On a board, what comes off the stack is what has gone onto it last, wherever the stack is,
unless it grows over itself. -/
theorem lastInFirstOut (m : Machine Board ω) : LastInFirstOut m := by
  have hnil (limit : Nat) :
      Stacked m.cpu.regs.sp m.bus.memory limit [] m.cpu.regs.sp m.bus.memory :=
    .nil m.cpu.regs.sp m.bus.memory limit
  have hempty {sp : UInt16} {mem : Memory} {limit : Nat}
      (h : Stacked m.cpu.regs.sp m.bus.memory limit [] sp mem) : sp = m.cpu.regs.sp :=
    h.sp.trans (UInt16.sub_zero _)
  refine ⟨?_, ?_, ?_, ?_⟩
  · intro vs hle
    obtain ⟨honly, hpushed⟩ :=
      stacked_pushAll hle vs (hnil vs.length) (Nat.le_of_eq (Nat.zero_add _))
    rw [← List.length_reverse]
    obtain ⟨hwords, honly', hbus, hpopped⟩ := popAll_of_stacked vs.reverse hpushed
    have honly := honly.trans honly'
    refine ⟨hwords, ?_, honly.bus, ?_, ?_⟩
    · rw [honly.cpu, hempty hpopped]
    · rw [hbus]
      have := hpushed.words
      rwa [List.append_nil, List.reverse_reverse] at this
    · rw [List.length_reverse] at hpopped ⊢
      exact hpopped.frame
  · intro hrunning vs ws m' hle hlength hrun
    obtain ⟨m₁, hpushes, hpops⟩ := hrun.exists_of_append
    obtain ⟨hrunning₁, ws₁, hlifo₁, hstacked₁⟩ :=
      hpushes.stacked hrunning hle (hnil vs.length) (fits_pushes vs (Nat.le_of_eq (Nat.zero_add _)))
    obtain rfl : vs.reverse = ws₁ := Option.some.inj ((lifo_pushes vs).symm.trans hlifo₁)
    obtain ⟨hrunning', ws', hlifo', hstacked'⟩ := hpops.stacked hrunning₁ hle hstacked₁
      (fits_pops ws (by rw [List.length_reverse, hlength]))
    have hwords : vs.reverse = ws ++ ws' := eq_append_of_lifo_pops _ hlifo'
    -- as many words have come off the stack as had gone onto it
    have hnone : ws' = [] := by
      have hcount := congrArg List.length hwords
      rw [List.length_reverse, List.length_append, hlength] at hcount
      exact List.eq_nil_of_length_eq_zero (by omega)
    subst hnone
    have hleft := hstacked₁.words
    rw [List.reverse_reverse, ← hpops.memory_pops hrunning₁] at hleft
    exact ⟨(List.append_nil ws ▸ hwords).symm, hrunning', hempty hstacked', hleft,
      hstacked'.frame⟩
  · intro hrunning moves limit m' hlimit hfits hrun
    exact hrun.stacked hrunning hlimit (hnil limit) hfits
  · intro hrunning moves limit m' hlimit hfits hrun a bytes hout hholds
    obtain ⟨-, ws, -, hstacked⟩ := hrun.stacked hrunning hlimit (hnil limit) hfits
    exact hholds.congr fun c hc => hstacked.frame c (hout c hc)

/-- PUSH BC and CALL 0105, then RET and POP DE. -/
theorem lastInFirstOut_call :
    let memory := Memory.zero.load 0x100 [0xC5, 0xCD, 0x05, 0x01, 0xD1, 0xC9]
    let m : Machine Board Unit :=
      ⟨{ regs := { b := 0x12, c := 0x34, sp := 0x200, pc := 0x100 } }, { memory }, ()⟩
    let returned := (step 1 (step 1 (step 1 m).2).2).2
    let last := (step 1 returned).2
    Running m ∧ StackRun m
        (pushes [0x1234, 0x0104] ++ pops [returned.cpu.regs.pc, last.cpu.regs.de]) last ∧
      returned.cpu.regs.pc = 0x0104 ∧ last.cpu.regs.de = 0x1234 ∧ last.cpu.regs.sp = 0x200 := by
  intro memory m returned last
  have hrunning : Running m := ⟨rfl, rfl⟩
  have hrun : StackRun m
      (pushes [0x1234, 0x0104] ++ pops [returned.cpu.regs.pc, last.cpu.regs.de]) last := by
    have hpushBC : StackCode [0xC5] (.push .bc) := .push (p := 0) rfl
    have hpopDE : StackCode [0xD1] (.pop .de) := .pop (p := 1) rfl
    refine .push hpushBC (by decide +kernel) (by decide +kernel) ?_
    refine .push (.call 0x0105) (by decide +kernel) (by decide +kernel) ?_
    refine .pop .ret (by decide +kernel) rfl ?_
    refine .pop hpopDE (by decide +kernel) rfl ?_
    exact .done _
  obtain ⟨hwords, -, hsp, -⟩ := (lastInFirstOut m).instructions hrunning [0x1234, 0x0104]
    [returned.cpu.regs.pc, last.cpu.regs.de] last (by decide) rfl hrun
  obtain ⟨hfirst, hrest⟩ := List.cons.inj hwords
  exact ⟨hrunning, hrun, hfirst, (List.cons.inj hrest).1, hsp⟩

end Exec

end Z80
