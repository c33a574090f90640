import Z80.Proofs.Accounting

/-!
# The ranking of opcodes

A profile counts in a table of any length. However long that is, there is one way to put the
counters that are not zero in order, and `hottest` gives the front of it. What the profile is told
later adds to the counters that are there, one by one.

Main definitions:
- `Outranks`, `Ranked`: the order of entries, and lists that keep to it.
- `entries`: the counters that are not zero, each with its place as a byte.
- `watch`: a profile that has been told of events.
- `RanksAndCounts`: what a profile ranks and counts.

Main statement: `ranksAndCounts` finds this in every profile.
-/

namespace Z80.Profile

/-! ## The order -/

/-- An entry with more hits outranks one with fewer, and of equal hits the lower opcode does. -/
def Outranks (a b : UInt8 × UInt64) : Prop :=
  b.2 < a.2 ∨ a.2 = b.2 ∧ a.1 < b.1

/-- No entry is outranked by one behind it. -/
def Ranked (es : List (UInt8 × UInt64)) : Prop :=
  es.Pairwise fun a b => ¬Outranks b a

instance (a b : UInt8 × UInt64) : Decidable (Outranks a b) :=
  inferInstanceAs (Decidable (_ ∨ _))

instance (es : List (UInt8 × UInt64)) : Decidable (Ranked es) :=
  inferInstanceAs (Decidable (es.Pairwise _))

section Order

variable (a b c : UInt8 × UInt64)

theorem outranks_iff : Outranks a b ↔
    b.2.toNat < a.2.toNat ∨ a.2.toNat = b.2.toNat ∧ a.1.toNat < b.1.toNat := by
  rw [Outranks, UInt64.lt_iff_toNat_lt, UInt8.lt_iff_toNat_lt, UInt64.toNat_inj]

theorem ranks_iff : ranks a b = true ↔ ¬Outranks b a := by
  simp only [ranks, Bool.or_eq_true, Bool.and_eq_true, decide_eq_true_eq, beq_iff_eq,
    outranks_iff, UInt64.lt_iff_toNat_lt, UInt8.le_iff_toNat_le, ← UInt64.toNat_inj]
  omega

theorem ranks_trans (hab : ranks a b = true) (hbc : ranks b c = true) : ranks a c = true := by
  rw [ranks_iff, outranks_iff] at *
  omega

theorem ranks_total : (ranks a b || ranks b a) = true := by
  rw [Bool.or_eq_true, ranks_iff, ranks_iff, outranks_iff, outranks_iff]
  omega

/-- Entries neither of which outranks the other are the same. -/
theorem eq_of_not_outranks {a b : UInt8 × UInt64} (hab : ¬Outranks b a) (hba : ¬Outranks a b) :
    a = b := by
  rw [outranks_iff] at hab hba
  apply Prod.ext
  · rw [← UInt8.toNat_inj]
    omega
  · rw [← UInt64.toNat_inj]
    omega

end Order

/-- There is only one way to put a list in order. -/
theorem Ranked.eq_of_perm {es es' : List (UInt8 × UInt64)} (h : Ranked es) (h' : Ranked es')
    (hperm : es.Perm es') : es = es' :=
  hperm.eq_of_pairwise (fun _ _ _ _ hab hba => eq_of_not_outranks hab hba) h h'

theorem ranked_mergeSort (es : List (UInt8 × UInt64)) : Ranked (es.mergeSort ranks) :=
  (List.pairwise_mergeSort ranks_trans ranks_total es).imp fun h => (ranks_iff _ _).mp h

/-! ## The entries -/

/-- The counters that are not zero, each with its place as a byte. -/
def entries (p : Profile) : List (UInt8 × UInt64) :=
  (List.finRange p.counts.size).filterMap fun i : Fin p.counts.size =>
    if p.counts[i] = 0 then none else some (UInt8.ofNat i, p.counts[i])

section Entries

variable (p : Profile)

theorem zipIdx_counts :
    p.counts.toList.zipIdx =
      (List.finRange p.counts.size).map fun i : Fin p.counts.size => (p.counts[i], i.val) := by
  apply List.ext_getElem
  · rw [List.length_zipIdx, List.length_map, List.length_finRange, Array.length_toList]
  · intro i hi hi'
    rw [List.getElem_zipIdx, List.getElem_map, List.getElem_finRange, Array.getElem_toList,
      Nat.zero_add]
    rfl

theorem seen_eq_entries : p.seen = p.entries := by
  rw [seen, entries, zipIdx_counts]
  induction List.finRange p.counts.size with
  | nil => rfl
  | cons i is ih =>
    rw [List.map_cons, List.filterMap_cons]
    by_cases hzero : p.counts[i] = 0
    · rw [List.filter_cons_of_neg (by simpa using hzero), if_pos hzero, ih]
    · rw [List.filter_cons_of_pos (by simpa using hzero), List.map_cons, if_neg hzero, ih]

theorem mem_entries {e : UInt8 × UInt64} (he : e ∈ p.entries) :
    ∃ i, ∃ hi : i < p.counts.size, e = (UInt8.ofNat i, p.counts[i]) := by
  obtain ⟨i, -, hi⟩ := List.mem_filterMap.mp he
  split at hi
  · cases hi
  · exact ⟨i, i.isLt, (Option.some.inj hi).symm⟩

variable {p} (hsize : p.counts.size ≤ 256)
include hsize

/-- In a table without places beyond the bytes, the counter of an entry is that of its opcode. -/
theorem count_of_mem_entries {e : UInt8 × UInt64} (he : e ∈ p.entries) : p.count e.1 = e.2 := by
  obtain ⟨i, hi, rfl⟩ := p.mem_entries he
  have hplace : (UInt8.ofNat i).toNat = i := UInt8.toNat_ofNat_of_lt' (hi.trans_le hsize)
  rw [count, hplace, Array.getD_eq_getD_getElem?, Array.getElem?_eq_getElem hi]
  rfl

theorem nodup_entries : (p.entries.map Prod.fst).Nodup := by
  rw [entries, List.map_filterMap]
  refine (List.nodup_finRange _).filterMap ?_
  intro i j op hi hj
  have hop (k : Fin p.counts.size) (hk : op ∈ Option.map Prod.fst
      (if p.counts[k] = 0 then none else some (UInt8.ofNat k, p.counts[k]))) : op.toNat = k := by
    split at hk
    · cases hk
    · obtain rfl : UInt8.ofNat k = op := Option.some.inj hk
      exact UInt8.toNat_ofNat_of_lt' (k.isLt.trans_le hsize)
  exact Fin.ext ((hop i hi).symm.trans (hop j hj))

end Entries

/-! ## The front of the ranking -/

section Hottest

variable (p : Profile) (n : Nat)

/-- All entries in order. -/
def ranking : List (UInt8 × UInt64) :=
  p.entries.mergeSort ranks

theorem perm_ranking : p.ranking.Perm p.entries :=
  List.mergeSort_perm _ _

theorem hottest_eq_take : p.hottest n = p.ranking.take n := by
  rw [hottest, ranking, seen_eq_entries]

/-- What is left out is behind what is given. -/
theorem perm_hottest_append_drop : (p.hottest n ++ p.ranking.drop n).Perm p.entries := by
  rw [hottest_eq_take, List.take_append_drop]
  exact p.perm_ranking

theorem not_outranks_of_drop {e e' : UInt8 × UInt64} (he : e ∈ p.hottest n)
    (he' : e' ∈ p.ranking.drop n) : ¬Outranks e' e := by
  have hranked : Ranked (p.hottest n ++ p.ranking.drop n) := by
    rw [hottest_eq_take, List.take_append_drop]
    exact ranked_mergeSort _
  exact (List.pairwise_append.mp hranked).2.2 e he e' he'

end Hottest

/-! ## Hits -/

/-- The profile that has been told of the events. -/
def watch (p : Profile) (events : List Event) : Profile :=
  events.foldl (fun p e => Observer.notify e p) p

section Watch

variable (p : Profile) (events : List Event)

/-- A counter beyond the end of the table counts nothing. -/
theorem count_of_size_le {op : UInt8} (hop : p.counts.size ≤ op.toNat) : p.count op = 0 := by
  rw [count, Array.getD_eq_getD_getElem?, Array.getElem?_eq_none hop]
  rfl

theorem count_hit_of_ne {op op' : UInt8} (h : op' ≠ op) : (p.hit op').count op = p.count op := by
  rw [count, count, hit, Array.getD_eq_getD_getElem?, Array.getD_eq_getD_getElem?,
    Array.getElem?_modify, if_neg fun heq => h (UInt8.toNat_inj.mp heq)]

theorem size_watch : (p.watch events).counts.size = p.counts.size := by
  induction events generalizing p with
  | nil => rfl
  | cons e events ih =>
    refine (ih _).trans ?_
    cases e with
    | instruction pc op r => exact p.size_hit op
    | _ => rfl

theorem total_watch :
    (p.watch events).total = p.total + UInt64.ofNat (events.filterMap Event.opcode?).length := by
  induction events generalizing p with
  | nil => exact (UInt64.add_zero _).symm
  | cons e events ih =>
    refine (ih _).trans ?_
    cases e with
    | instruction pc op r =>
      show p.total + 1 + UInt64.ofNat (events.filterMap Event.opcode?).length =
        p.total + UInt64.ofNat ((events.filterMap Event.opcode?).length + 1)
      rw [UInt64.ofNat_add, UInt64.add_assoc, UInt64.add_comm 1]
      rfl
    | _ => rfl

theorem count_watch {op : UInt8} (hop : op.toNat < p.counts.size) :
    (p.watch events).count op =
      p.count op + UInt64.ofNat ((events.filterMap Event.opcode?).count op) := by
  induction events generalizing p with
  | nil => exact (UInt64.add_zero _).symm
  | cons e events ih =>
    cases e with
    | instruction pc op' r =>
      have hsize : op.toNat < (p.hit op').counts.size := (p.size_hit op').symm ▸ hop
      show ((p.hit op').watch events).count op =
        p.count op + UInt64.ofNat ((op' :: events.filterMap Event.opcode?).count op)
      rw [ih _ hsize]
      by_cases hop' : op' = op
      · subst hop'
        rw [p.count_hit hop, if_pos rfl, List.count_cons_self, UInt64.ofNat_add, UInt64.add_assoc,
          UInt64.add_comm 1]
        rfl
      · rw [p.count_hit_of_ne hop', List.count_cons_of_ne hop']
    | _ => exact ih p hop

end Watch

/-! ## All of it -/

/-- What a profile ranks, and what it counts from there on. -/
structure RanksAndCounts (p : Profile) : Prop where
  /-- There is one way to put the counters that are not zero in order, and `hottest` gives the
  first entries of it. -/
  first : ∃ ranking : List (UInt8 × UInt64), ranking.Perm p.entries ∧ Ranked ranking ∧
    (∀ other, other.Perm p.entries → Ranked other → other = ranking) ∧
    ∀ n, p.hottest n = ranking.take n
  /-- Who asks for more gets the same entries and then others. -/
  nested : ∀ n n', n ≤ n' → p.hottest n <+: p.hottest n'
  /-- No entry that is left out outranks one that is given. -/
  omitted : ∀ n, ∃ rest, (p.hottest n ++ rest).Perm p.entries ∧
    ∀ e ∈ p.hottest n, ∀ e' ∈ rest, ¬Outranks e' e
  /-- If every place of the table is a byte, no opcode is given twice, and each comes with its
  own counter. -/
  distinct : p.counts.size ≤ 256 → ∀ n,
    ((p.hottest n).map Prod.fst).Nodup ∧ ∀ e ∈ p.hottest n, p.count e.1 = e.2
  /-- While no counter runs over, each one grows by its hits, if it has a place in the table, and
  the total by all of them. -/
  hits : ∀ events : List Event,
    let ops := events.filterMap Event.opcode?
    let p' := p.watch events
    p.total.toNat + ops.length < 2 ^ 64 →
    (∀ op, op.toNat < p.counts.size → (p.count op).toNat + ops.count op < 2 ^ 64) →
    p'.counts.size = p.counts.size ∧ p'.total.toNat = p.total.toNat + ops.length ∧
      ∀ op, if op.toNat < p.counts.size then (p'.count op).toNat = (p.count op).toNat + ops.count op
        else p.count op = 0 ∧ p'.count op = 0

/-- A sum of counters is the sum of the numbers while it is below the bound. -/
theorem toNat_add_ofNat {v : UInt64} {n : Nat} (h : v.toNat + n < 2 ^ 64) :
    (v + UInt64.ofNat n).toNat = v.toNat + n := by
  rw [UInt64.toNat_add, UInt64.toNat_ofNat', Nat.mod_eq_of_lt (by omega : n < 2 ^ 64),
    Nat.mod_eq_of_lt h]

/-- Every profile, whatever the length of its table, ranks and counts as it should. -/
theorem ranksAndCounts (p : Profile) : RanksAndCounts p where
  first := by
    refine ⟨p.ranking, p.perm_ranking, ranked_mergeSort _, ?_, p.hottest_eq_take⟩
    intro other hperm hranked
    exact hranked.eq_of_perm (ranked_mergeSort _) (hperm.trans p.perm_ranking.symm)
  nested n n' h := by
    rw [hottest_eq_take, hottest_eq_take]
    exact List.take_prefix_take_left h
  omitted n :=
    ⟨p.ranking.drop n, p.perm_hottest_append_drop n,
      fun _ he _ he' => p.not_outranks_of_drop n he he'⟩
  distinct hsize n := by
    have hall := p.perm_hottest_append_drop n
    constructor
    · have hnodup := (hall.map Prod.fst).nodup_iff.mpr (nodup_entries hsize)
      rw [List.map_append] at hnodup
      exact hnodup.of_append_left
    · intro e he
      exact count_of_mem_entries hsize (hall.subset (List.mem_append_left _ he))
  hits := by
    intro events ops p' htotal hcount
    have hsize : p'.counts.size = p.counts.size := p.size_watch events
    refine ⟨hsize, ?_, fun op => ?_⟩
    · rw [p.total_watch events, toNat_add_ofNat htotal]
    · split
      · next hop => rw [p.count_watch events hop, toNat_add_ofNat (hcount op hop)]
      · next hop =>
        have hbeyond : p.counts.size ≤ op.toNat := Nat.le_of_not_lt hop
        exact ⟨p.count_of_size_le hbeyond, p'.count_of_size_le (hsize ▸ hbeyond)⟩

/-- A table of three places with a tie, and hits inside and outside of it. -/
theorem ranksAndCounts_short :
    let p : Profile := ⟨#[3, 0, 3], 6⟩
    let p' := p.watch [.instruction 0 1 {}, .read 1 5, .instruction 1 5 {}]
    p.hottest 1 = [(0, 3)] ∧ p'.total.toNat = 8 ∧ (p'.count 1).toNat = 1 ∧ p'.count 5 = 0 := by
  intro p p'
  have h := ranksAndCounts p
  obtain ⟨ranking, -, -, honly, hfirst⟩ := h.first
  have hranking : [(0, 3), (2, 3)] = ranking := honly _ (by decide) (by decide)
  obtain ⟨-, htotal, hcount⟩ :=
    h.hits [.instruction 0 1 {}, .read 1 5, .instruction 1 5 {}] (by decide)
      (byte_forall (by decide +kernel))
  refine ⟨?_, htotal, ?_, ?_⟩
  · rw [hfirst, ← hranking]
    rfl
  · exact hcount 1
  · exact (hcount 5).2

end Z80.Profile
