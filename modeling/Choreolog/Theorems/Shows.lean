import Choreolog.Lib.LedgerStep
import Choreolog.Raft.Cluster

/-! # Full logs

A durable state keeps only the entries after its snapshot boundary. `Shows L d` says that `L` is the full
log behind it: the retained entries follow the boundary, and the boundary has the term that `L` has
there. Everything that `step` reads from a durable log is a reading of the full log. -/

namespace Choreolog.Raft
open Lib Lib.Ledger

instance : Stamped Entry := ⟨Entry.term⟩

theorem stamped_term (e : Entry) : Stamped.term e = e.term := rfl

/-- `L` is the full log of which `d` retains the part after its snapshot boundary. -/
structure Shows (L : List Entry) (d : Durable) : Prop where
  boundary_le : d.snapshotIndex ≤ L.length
  log : d.log = L.drop d.snapshotIndex
  boundary : d.snapshotTerm = lastTerm (L.take d.snapshotIndex)

theorem lastTerm_take {L : List Entry} {i : Nat} (h : i < L.length) : lastTerm (L.take (i + 1)) = (L[i]).term := by
  rw [List.take_add_one, List.getElem?_eq_getElem h, Option.toList_some, lastTerm_append]
  rfl

@[simp] theorem lastTerm_nil : lastTerm ([] : List Entry) = 0 := rfl

namespace Shows
variable {L : List Entry} {d : Durable}

theorem initial : Shows [] {} := ⟨le_rfl, rfl, rfl⟩

theorem lastIndex (h : Shows L d) : d.lastIndex = L.length := by
  have := h.boundary_le
  rw [Durable.lastIndex, h.log, List.length_drop]
  omega

theorem entryAt (h : Shows L d) {i : Nat} (hi : d.snapshotIndex < i) : d.entryAt i = L[i - 1]? := by
  rw [Durable.entryAt, if_neg (by omega), h.log, List.getElem?_drop]
  congr 1
  omega

theorem entryAt_some (h : Shows L d) {i : Nat} {e : Entry} (he : d.entryAt i = some e) :
    d.snapshotIndex < i ∧ L[i - 1]? = some e := by
  have hi : d.snapshotIndex < i := by
    by_contra hn
    rw [Durable.entryAt, if_pos (by omega)] at he
    cases he
  exact ⟨hi, h.entryAt hi ▸ he⟩

theorem termAt_iff (h : Shows L d) {i t : Nat} :
    d.termAt i = some t ↔ d.snapshotIndex ≤ i ∧ i ≤ L.length ∧ t = lastTerm (L.take i) := by
  have hb := h.boundary_le
  unfold Durable.termAt
  rw [h.lastIndex]
  split
  · rename_i hi
    rw [h.boundary, ← hi, Option.some.injEq]
    exact ⟨fun ht => ⟨le_rfl, by omega, ht.symm⟩, fun ht => ht.2.2.symm⟩
  · split
    · rename_i hi
      constructor
      · intro ht
        cases ht
      · intro ht
        omega
    · rename_i hne hi
      push Not at hi
      obtain ⟨j, rfl⟩ : ∃ j, i = j + 1 := ⟨i - 1, by omega⟩
      have hj : j < L.length := by omega
      rw [h.log, List.getElem?_drop, show d.snapshotIndex + (j + 1 - d.snapshotIndex - 1) = j by omega,
        List.getElem?_eq_getElem hj, Option.map_some, Option.some.injEq, lastTerm_take hj]
      exact ⟨fun ht => ⟨by omega, by omega, ht.symm⟩, fun ht => ht.2.2.symm⟩

theorem lastTerm (h : Shows L d) : d.lastTerm = Ledger.lastTerm L := by
  have hb := h.boundary_le
  unfold Durable.lastTerm
  rw [h.log]
  rcases List.eq_nil_or_concat' (L.drop d.snapshotIndex) with hn | ⟨P, e, hP⟩
  · rw [hn, List.getLast?_nil]
    simp only
    rw [h.boundary, List.take_of_length_le (List.drop_eq_nil_iff.mp hn)]
  · have hL : L = (L.take d.snapshotIndex ++ P) ++ [e] := by
      rw [List.append_assoc, ← hP, List.take_append_drop]
    rw [hP, List.getLast?_concat, hL, lastTerm_append]
    rfl

theorem upToDate (h : Shows L d) {t i : Nat} :
    d.upToDate t i = true ↔ Ledger.lastTerm L < t ∨ (t = Ledger.lastTerm L ∧ L.length ≤ i) := by
  simp [Durable.upToDate, h.lastTerm, h.lastIndex]

/-- Changes outside the log and its boundary do not matter. -/
theorem congr (h : Shows L d) {d' : Durable} (hl : d'.log = d.log) (hi : d'.snapshotIndex = d.snapshotIndex)
    (ht : d'.snapshotTerm = d.snapshotTerm) : Shows L d' :=
  ⟨hi ▸ h.boundary_le, by rw [hl, hi, h.log], by rw [hi, ht, h.boundary]⟩

theorem append (h : Shows L d) (e : Entry) : Shows (L ++ [e]) { d with log := d.log ++ [e] } where
  boundary_le := h.boundary_le.trans (by simp)
  log := by simp [h.log, List.drop_append_of_le_length h.boundary_le]
  boundary := by
    simp only [List.take_append_of_le_length h.boundary_le]
    exact h.boundary

theorem cut (h : Shows L d) {k : Nat} (hk : d.snapshotIndex ≤ k) :
    Shows (L.take k) { d with log := d.log.take (k - d.snapshotIndex) } where
  boundary_le := by
    have := h.boundary_le
    simp only [List.length_take]
    omega
  log := by simp only [h.log, List.drop_take]
  boundary := by
    simp only [List.take_take, Nat.min_eq_left hk]
    exact h.boundary

/-- The boundary moves up within the full log. -/
theorem raise (h : Shows L d) {k : Nat} (hk : d.snapshotIndex ≤ k) (hL : k ≤ L.length) :
    Shows L { d with
      snapshotIndex := k, snapshotTerm := Ledger.lastTerm (L.take k), log := d.log.drop (k - d.snapshotIndex) } where
  boundary_le := hL
  log := by
    simp only [h.log, List.drop_drop]
    congr 1
    omega
  boundary := rfl

/-- Two full logs of one durable state that agree up to the boundary are equal. -/
theorem unique {L' : List Entry} (h : Shows L d) (h' : Shows L' d)
    (hb : L.take d.snapshotIndex = L'.take d.snapshotIndex) : L = L' := by
  rw [← List.take_append_drop d.snapshotIndex L, ← List.take_append_drop d.snapshotIndex L', hb, ← h.log, ← h'.log]

end Shows

/-! ### Log matching on full logs -/

/-- Two backed logs with the same term at `i` agree up to `i`. -/
theorem take_eq_of_lastTerm {a : State String Entry} {L B : List Entry} (hL : Backed a L)
    (hB : Backed a B) {i : Nat} (hi : i ≤ L.length) (hi' : i ≤ B.length)
    (ht : lastTerm (L.take i) = lastTerm (B.take i)) : L.take i = B.take i := by
  rcases Nat.eq_zero_or_pos i with rfl | hpos
  · simp
  · have hne : L.take i ≠ [] := by
      rw [← List.length_pos_iff_ne_nil, List.length_take]
      omega
    have hne' : B.take i ≠ [] := by
      rw [← List.length_pos_iff_ne_nil, List.length_take]
      omega
    have h1 := (hL.of_sub (List.take_prefix i L)).sub_lastTerm hne
    have h2 := (hB.of_sub (List.take_prefix i B)).sub_lastTerm hne'
    rw [ht] at h1
    have hlen : (L.take i).length = (B.take i).length := by simp [hi, hi']
    exact (List.prefix_of_prefix_length_le h1 h2 hlen.le).eq_of_length hlen

/-! ### What a valid durable state promises -/

theorem Durable.valid_iff {d : Durable} (h : d.valid = true) :
    ((d.snapshotIndex = 0) ↔ (d.snapshotTerm = 0)) ∧ d.snapshotTerm ≤ d.term ∧ d.lastIndex ≠ maximum ∧
      d.snapshotIndex ≤ d.applied ∧ d.applied ≤ d.commit ∧ d.commit ≤ d.lastIndex ∧
      d.log.length ≤ EntryLog.maximumEntries := by
  unfold Durable.valid at h
  split at h
  · cases h
  · rename_i hc
    simp only [Bool.or_eq_true, bne_iff_ne, ne_eq, decide_eq_true_eq, beq_iff_eq, not_or,
      not_lt] at hc
    obtain ⟨⟨⟨⟨⟨⟨h1, h2⟩, h3⟩, h4⟩, h5⟩, h6⟩, h7⟩ := hc
    simp only [Bool.and_eq_true, decide_eq_true_eq] at h
    refine ⟨?_, h2, h4, h5, h6, h7, h.1⟩
    rw [Decidable.not_not] at h1
    rw [← beq_iff_eq, ← beq_iff_eq (a := d.snapshotTerm), h1]

end Choreolog.Raft
