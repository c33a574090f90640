import Z80.Proofs.BusFrame
import Z80.Proofs.Encoding
import Z80.Proofs.FetchedBytes

/-!
# Accesses by code

What an instruction stores and which port it uses is told by its bytes and the registers before
it. The encodings that do either are written out here, apart from the block families, and an
instruction with other codes does neither.

Main definitions:
- `AccessCode`: the encodings, with the accesses that each of them makes.
- `Page.accessCodes`: the codes that they begin with, and those of the block families.

Main statements: `made_runOne_of_codes` finds the accesses of an instruction under its bytes on
any bus, and `after_runOne_of_codes` what they leave of a board.
-/

namespace Z80

/-! ## The encodings -/

/-- With these registers, the instruction with these bytes makes these accesses. -/
inductive AccessCode (r : Registers) : List UInt8 → List Access → Prop
  /-- LD (HL),r. -/
  | load {op : UInt8} {z : Fin 8} (hop : Opcode.HasFields op 1 6 z) (hne : op ≠ 0x76) :
    AccessCode r [op] [.store r.hl]
  | loadImm (n : UInt8) : AccessCode r [0x36, n] [.store r.hl]
  | inc : AccessCode r [0x34] [.store r.hl]
  | dec : AccessCode r [0x35] [.store r.hl]
  /-- LD (IX+d),r and its companions. -/
  | displacedLoad {op : UInt8} {z : Fin 8} (hop : Opcode.HasFields op 1 6 z) (hne : op ≠ 0x76)
    (x : Index) (d : UInt8) : AccessCode r [x.lead, op, d] [.store (displace (r.index x) d)]
  | displacedImm (x : Index) (d n : UInt8) :
    AccessCode r [x.lead, 0x36, d, n] [.store (displace (r.index x) d)]
  | displacedInc (x : Index) (d : UInt8) :
    AccessCode r [x.lead, 0x34, d] [.store (displace (r.index x) d)]
  | displacedDec (x : Index) (d : UInt8) :
    AccessCode r [x.lead, 0x35, d] [.store (displace (r.index x) d)]
  /-- Bit operations on the cell at HL. Those with the field `f` equal to 1 are BIT. -/
  | bits {op : UInt8} {f : Fin 4} {y : Fin 8} (hop : Opcode.HasFields op f y 6) :
    AccessCode r [0xCB, op] (if f = 1 then [] else [.store r.hl])
  | displacedBits {op : UInt8} {f : Fin 4} {y z : Fin 8} (hop : Opcode.HasFields op f y z)
    (x : Index) (d : UInt8) : AccessCode r [x.lead, 0xCB, d, op]
      (if f = 1 then [] else [.store (displace (r.index x) d)])
  /-- LD (BC),A, LD (DE),A and LD (nn),A. -/
  | loadBC : AccessCode r [0x02] [.store r.bc]
  | loadDE : AccessCode r [0x12] [.store r.de]
  | loadFixed (nn : UInt16) : AccessCode r [0x32, low nn, high nn] [.store nn]
  /-- LD (nn),HL, with IX or IY in place of HL, or with the register of a code. -/
  | storeHL (nn : UInt16) :
    AccessCode r [0x22, low nn, high nn] [.store nn, .store (nn + 1)]
  | storeIndex (x : Index) (nn : UInt16) :
    AccessCode r [x.lead, 0x22, low nn, high nn] [.store nn, .store (nn + 1)]
  | storePair {op : UInt8} {p : Fin 4} (hop : Opcode.HasPairFields op 1 p 0 3) (nn : UInt16) :
    AccessCode r [0xED, op, low nn, high nn] [.store nn, .store (nn + 1)]
  | push {op : UInt8} {p : Fin 4} (hop : Opcode.HasPairFields op 3 p 0 5) :
    AccessCode r [op] [.store (r.sp - 1), .store (r.sp - 2)]
  | pushIndex (x : Index) :
    AccessCode r [x.lead, 0xE5] [.store (r.sp - 1), .store (r.sp - 2)]
  | rst {op : UInt8} {y : Fin 8} (hop : Opcode.HasFields op 3 y 7) :
    AccessCode r [op] [.store (r.sp - 1), .store (r.sp - 2)]
  | call (nn : UInt16) :
    AccessCode r [0xCD, low nn, high nn] [.store (r.sp - 1), .store (r.sp - 2)]
  /-- CALL cc. -/
  | callIf {op : UInt8} {y : Fin 8} (hop : Opcode.HasFields op 3 y 4) (nn : UInt16) :
    AccessCode r [op, low nn, high nn]
      (if codedCondition r.f y then [.store (r.sp - 1), .store (r.sp - 2)] else [])
  /-- EX (SP),HL, or IX, or IY. -/
  | exchange : AccessCode r [0xE3] [.store r.sp, .store (r.sp + 1)]
  | exchangeIndex (x : Index) : AccessCode r [x.lead, 0xE3] [.store r.sp, .store (r.sp + 1)]
  | rrd : AccessCode r [0xED, 0x67] [.store r.hl]
  | rld : AccessCode r [0xED, 0x6F] [.store r.hl]
  /-- IN A,(n) and OUT (n),A. -/
  | inA (n : UInt8) : AccessCode r [0xDB, n] [.input (join r.a n)]
  | outA (n : UInt8) : AccessCode r [0xD3, n] [.output (join r.a n)]
  /-- IN r,(C) and OUT (C),r. -/
  | inC {op : UInt8} {y : Fin 8} (hop : Opcode.HasFields op 1 y 0) (hy : y ≠ 6) :
    AccessCode r [0xED, op] [.input r.bc]
  | outC {op : UInt8} {y : Fin 8} (hop : Opcode.HasFields op 1 y 1) (hy : y ≠ 6) :
    AccessCode r [0xED, op] [.output r.bc]
  /-- An index byte is without effect before an opcode that its page lacks. -/
  | lead {x : Index} {op : UInt8} {bytes : List UInt8} {accesses : List Access}
    (hop : Page.index x op = none) (h : AccessCode r (op :: bytes) accesses) :
    AccessCode r (x.lead :: op :: bytes) accesses

theorem select_of_ne {y : Fin 8} (hy : y ≠ 6) : ∃ r, Reg8.select y = some r :=
  match y with
  | 0 | 1 | 2 | 3 | 4 | 5 | 7 => ⟨_, rfl⟩
  | 6 => absurd rfl hy

/-- Code 6 does not stand for a register, and with this code the load of memory would be HALT. -/
theorem Opcode.HasFields.indexStore {op : UInt8} {z : Fin 8} (h : HasFields op 1 6 z)
    (hne : op ≠ 0x76) (x : Index) :
    ∃ s, Page.index x op = some (Page.displaced x fun p => .load p (.place (.reg s))) := by
  have hz : z ≠ 6 := by
    rintro rfl
    exact hne (UInt8.toNat_inj.mp h)
  obtain ⟨s, hs⟩ := select_of_ne hz
  have hcell : Reg8.select 6 = none := rfl
  refine ⟨s, ?_⟩
  rw [Page.index, h.x_eq]
  simp only [Page.indexQuarter1, h.y_eq, h.z_eq, hs, hcell]

/-- Shifts, RES and SET store into their place, and BIT stores nothing. -/
theorem accesses_bitOperation {op : UInt8} {f : Fin 4} {y z : Fin 8}
    (h : Opcode.HasFields op f y z) (r : Registers) (p : Place) (copy : Option Reg8) :
    (Page.bitOperation op p copy).movesBlock = false ∧
      (Page.bitOperation op p copy).accesses r = if f = 1 then [] else p.stores r := by
  unfold Page.bitOperation
  rw [h.x_eq]
  match f with
  | 0 | 1 | 2 | 3 => exact ⟨rfl, rfl⟩

/-- The bytes mean an instruction that makes these accesses. -/
theorem AccessCode.exists_means {r : Registers} {bytes : List UInt8} {accesses : List Access}
    (h : AccessCode r bytes accesses) :
    ∃ i, Means bytes i ∧ i.movesBlock = false ∧ i.accesses r = accesses := by
  induction h with
  | load hop hne => exact ⟨_, .plain (hop.load hne) (.done _), rfl, rfl⟩
  | loadImm n => exact ⟨_, .plain rfl (.operand (.done _)), rfl, rfl⟩
  | inc | dec => exact ⟨_, .plain rfl (.done _), rfl, rfl⟩
  | displacedLoad hop hne x d =>
    obtain ⟨s, hs⟩ := hop.indexStore hne x
    exact ⟨_, .index hs (.operand (.done _)), rfl, rfl⟩
  | displacedImm x d n =>
    exact ⟨_, .index (Exec.index_storeImm x) (.operand (.operand (.done _))), rfl, rfl⟩
  | displacedInc x d => exact ⟨_, .index (Exec.index_inc x) (.operand (.done _)), rfl, rfl⟩
  | displacedDec x d => exact ⟨_, .index (Exec.index_dec x) (.operand (.done _)), rfl, rfl⟩
  | @bits op f y hop =>
    have hcb : Page.cb op = Page.bitOperation op (Place.select 6) none := by
      rw [Page.cb, hop.z_eq]
    refine ⟨_, .cb op, ?_⟩
    rw [hcb]
    exact accesses_bitOperation hop r (Place.select 6) none
  | displacedBits hop x d =>
    exact ⟨_, .index (index_bits x) (.operand (.operand (.done _))),
      accesses_bitOperation hop r (.mem (.displaced x d)) _⟩
  | loadBC | loadDE => exact ⟨_, .plain rfl (.done _), rfl, rfl⟩
  | loadFixed nn =>
    let f (nn : UInt16) : Instruction := .load (.mem (.absolute nn)) (.place (.reg .a))
    exact ⟨f nn, .plain rfl (Decoding.ends_word f nn), rfl, rfl⟩
  | storeHL nn =>
    let f (nn : UInt16) : Instruction := .storeWord nn .hl
    exact ⟨f nn, .plain rfl (Decoding.ends_word f nn), rfl, rfl⟩
  | storeIndex x nn =>
    let f (nn : UInt16) : Instruction := .storeWord nn (.index x)
    exact ⟨f nn, .index rfl (Decoding.ends_word f nn), rfl, rfl⟩
  | storePair hop nn => exact ⟨_, .ed hop.storeWord (Decoding.ends_word _ nn), rfl, rfl⟩
  | push hop => exact ⟨_, .plain hop.push (.done _), rfl, rfl⟩
  | pushIndex x => exact ⟨_, .index rfl (.done _), rfl, rfl⟩
  | rst hop => exact ⟨_, .plain hop.rst (.done _), rfl, rfl⟩
  | call nn => exact ⟨_, .plain rfl (Decoding.ends_word _ nn), rfl, rfl⟩
  | @callIf op y hop nn =>
    refine ⟨_, .plain hop.call (Decoding.ends_word _ nn), rfl, ?_⟩
    rw [← codedCondition_select]
    rfl
  | exchange => exact ⟨_, .plain rfl (.done _), rfl, rfl⟩
  | exchangeIndex x => exact ⟨_, .index rfl (.done _), rfl, rfl⟩
  | rrd | rld => exact ⟨_, .ed rfl (.done _), rfl, rfl⟩
  | inA n | outA n => exact ⟨_, .plain rfl (.operand (.done _)), rfl, rfl⟩
  | inC hop hy =>
    obtain ⟨s, hs⟩ := select_of_ne hy
    exact ⟨_, .ed (hop.inC hs) (.done _), rfl, rfl⟩
  | outC hop hy =>
    obtain ⟨s, hs⟩ := select_of_ne hy
    exact ⟨_, .ed (hop.outC hs) (.done _), rfl, rfl⟩
  | lead hop _ ih =>
    obtain ⟨i, hmeans, haccesses⟩ := ih
    exact ⟨i, .lead hop hmeans, haccesses⟩

/-! ## Silent instructions -/

/-- The codes that store or use a port: those of the base page, then bit operations on the cell at
HL and the displaced ones, then those behind ED, and last those of the block families. -/
def Page.accessCodes : List (List UInt8) :=
  [[0x70], [0x71], [0x72], [0x73], [0x74], [0x75], [0x77], [0x36], [0x34], [0x35],
   [0x02], [0x12], [0x32], [0x22], [0xC5], [0xD5], [0xE5], [0xF5],
   [0xC7], [0xCF], [0xD7], [0xDF], [0xE7], [0xEF], [0xF7], [0xFF],
   [0xCD], [0xC4], [0xCC], [0xD4], [0xDC], [0xE4], [0xEC], [0xF4], [0xFC],
   [0xE3], [0xDB], [0xD3]] ++
  [0x06, 0x0E, 0x16, 0x1E, 0x26, 0x2E, 0x36, 0x3E, 0x86, 0x8E, 0x96, 0x9E, 0xA6, 0xAE, 0xB6, 0xBE,
   0xC6, 0xCE, 0xD6, 0xDE, 0xE6, 0xEE, 0xF6, 0xFE].map (fun op => [0xCB, op]) ++
  [[0xDD, 0xCB], [0xFD, 0xCB]] ++
  [0x43, 0x53, 0x63, 0x73, 0x67, 0x6F, 0x40, 0x48, 0x50, 0x58, 0x60, 0x68, 0x78,
   0x41, 0x49, 0x51, 0x59, 0x61, 0x69, 0x79,
   0xA0, 0xA8, 0xB0, 0xB8, 0xA2, 0xAA, 0xB2, 0xBA, 0xA3, 0xAB, 0xB3, 0xBB].map
    (fun op => [0xED, op])

namespace Instruction

/-- Does the instruction store nothing and use no port, whatever the registers are? -/
def isSilent : Instruction → Bool
  | .load (.mem _) _ | .inc (.mem _) | .dec (.mem _) => false
  | .shift _ (.mem _) _ | .res _ (.mem _) _ | .set _ (.mem _) _ => false
  | .storeWord _ _ | .push _ | .rst _ | .call _ _ | .exchangeStack _ | .rrd | .rld => false
  | .inA _ | .outA _ | .inC _ | .outC _ => false
  | .block kind _ _ => kind == .compare
  | _ => true

theorem isSilent_bare (i : Instruction) : i.bare.isSilent = i.isSilent := by
  cases i with
  | load p _ | inc p | dec p | shift _ p _ | res _ p _ | set _ p _ => cases p <;> rfl
  | _ => rfl

theorem accesses_of_isSilent {i : Instruction} (h : i.isSilent = true) (r : Registers) :
    i.movesBlock = false ∧ i.accesses r = [] := by
  cases i with
  | load p _ | inc p | dec p | shift _ p _ | res _ p _ | set _ p _ =>
    cases p with
    | reg x => exact ⟨rfl, rfl⟩
    | mem a => cases h
  | block kind dir repeats =>
    obtain rfl : kind = .compare := eq_of_beq h
    exact ⟨rfl, rfl⟩
  | storeWord | push | rst | call | exchangeStack | rrd | rld | inA | outA | inC | outC => cases h
  | _ => exact ⟨rfl, rfl⟩

end Instruction

/-- Without one of the codes an instruction is silent. -/
theorem Means.isSilent_of_not_opens {bytes : List UInt8} {i : Instruction} (h : Means bytes i)
    (hcodes : ∀ code ∈ Page.accessCodes, ¬Opens bytes code) : i.isSilent = true := by
  obtain ⟨code, htable, hopens⟩ := h.exists_checked (p := fun code i => i.isSilent ||
    Page.accessCodes.contains code || Page.accessCodes.contains (code.dropWhile isIndexByte))
      (by decide +kernel)
  simp only [Bool.or_eq_true, List.contains_iff_mem] at htable
  rcases htable with (hsilent | hmem) | hmem
  · rwa [i.isSilent_bare] at hsilent
  · exact absurd hopens (hcodes _ hmem)
  · exact absurd hopens.dropWhile (hcodes _ hmem)

namespace Exec

variable {β ω : Type} [Bus β] [Observer ω]

/-! ## Whole instructions -/

/-- On any bus, the accesses of an instruction other than to read memory are those under its bytes,
and if these begin with none of the codes, there are none. -/
theorem made_runOne_of_codes (m : Machine β ω) :
    let bytes := (runOne m).2.cpu.current.bytes
    (∀ accesses, AccessCode m.cpu.regs bytes accesses → (runOne m.tap).2.made = accesses) ∧
      ((∀ code ∈ Page.accessCodes, ¬Opens bytes code) → (runOne m.tap).2.made = []) := by
  intro bytes
  constructor
  · intro accesses h
    obtain ⟨i, hmeans, hblock, haccesses⟩ := h.exists_means
    rw [made_runOne m (upcoming_of_means hmeans) hblock, haccesses]
  · intro hcodes
    cases hnext : upcoming m with
    -- bytes without a meaning have been read, and nothing else
    | none => exact made_runOne_none m hnext
    | some i =>
      have hsilent := (means_current hnext).isSilent_of_not_opens hcodes
      obtain ⟨hblock, haccesses⟩ := Instruction.accesses_of_isSilent hsilent m.cpu.regs
      rw [made_runOne m hnext hblock, haccesses]

/-- So a board keeps each other cell, the bytes that wait at each other port, and its log. -/
theorem after_runOne_of_codes (m : Machine Board ω) :
    let bytes := (runOne m).2.cpu.current.bytes
    (∀ accesses, AccessCode m.cpu.regs bytes accesses → m.bus.After accesses (runOne m).2.bus) ∧
      ((∀ code ∈ Page.accessCodes, ¬Opens bytes code) → m.bus.After [] (runOne m).2.bus) := by
  intro bytes
  obtain ⟨hmade, hsilent⟩ := made_runOne_of_codes m
  have hafter := after_runOne m
  constructor
  · intro accesses h
    rwa [hmade accesses h] at hafter
  · intro hcodes
    rwa [hsilent hcodes] at hafter

end Exec

end Z80
