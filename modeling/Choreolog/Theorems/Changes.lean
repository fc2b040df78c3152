import Choreolog.Theorems.Frames
import Choreolog.Theorems.Shows

/-! # Changes of the durable state

Whatever a node is told, the write it stages takes its durable state through a few kinds of change, and
each of them keeps a valid state valid. So the invalid-state halt of `step` is never taken. -/

namespace Choreolog.Raft
open Lib Lib.Ledger

/-- What `valid` checks of a state with 64-bit indexes. -/
structure WellFormed (d : Durable) : Prop where
  boundary : d.snapshotIndex = 0 ↔ d.snapshotTerm = 0
  term : d.snapshotTerm ≤ d.term
  last : d.lastIndex < maximum
  applied : d.snapshotIndex ≤ d.applied
  commit : d.applied ≤ d.commit
  reach : d.commit ≤ d.lastIndex
  size : d.log.length ≤ EntryLog.maximumEntries
  ordered : d.log.Pairwise fun a b => a.term ≤ b.term
  positive : ∀ e ∈ d.log, 0 < e.term
  lower : ∀ e ∈ d.log, d.snapshotTerm ≤ e.term
  upper : ∀ e ∈ d.log, e.term ≤ d.term

/-- Bounds on the first and the last term bound all terms of an ordered log. -/
theorem validTerms_iff {log : EntryLog} {before limit : Nat} : log.validTerms before limit = true ↔
    log.Pairwise (fun a b => a.term ≤ b.term) ∧ (∀ e ∈ log, 0 < e.term) ∧ (∀ e ∈ log, before ≤ e.term) ∧
      ∀ e ∈ log, e.term ≤ limit := by
  unfold EntryLog.validTerms EntryLog.valid
  simp only [Bool.and_eq_true, decide_eq_true_eq, List.all_eq_true, bne_iff_ne, ne_eq, Bool.or_eq_true,
    List.isEmpty_iff, Nat.pos_iff_ne_zero, and_assoc]
  refine and_congr_right fun hord => and_congr_right fun _ => ?_
  cases log with
  | nil => simp
  | cons first rest =>
    obtain ⟨P, e, hP⟩ := (List.eq_nil_or_concat' (first :: rest)).resolve_left (List.cons_ne_nil _ _)
    have hget : (first :: rest).getLast? = some e := by rw [hP, List.getLast?_concat]
    have hhead : ∀ x ∈ first :: rest, first.term ≤ x.term := by
      intro x hx
      rcases List.mem_cons.mp hx with rfl | hx
      · exact le_rfl
      · exact List.rel_of_pairwise_cons hord hx
    have hlast : ∀ x ∈ first :: rest, x.term ≤ e.term := by
      rw [hP] at hord ⊢
      intro x hx
      rcases List.mem_append.mp hx with hx | hx
      · exact (List.pairwise_append.mp hord).2.2 x hx e (List.mem_singleton_self e)
      · rw [List.mem_singleton.mp hx]
    simp only [reduceCtorEq, hget, List.head?_cons, Option.all_some, decide_eq_true_eq, false_or]
    constructor
    · rintro ⟨h1, h2⟩
      exact ⟨fun x hx => h1.trans (hhead x hx), fun x hx => (hlast x hx).trans h2⟩
    · rintro ⟨h1, h2⟩
      exact ⟨h1 first List.mem_cons_self, h2 e (hP ▸ by simp)⟩

theorem valid_iff {d : Durable} (hs : d.snapshotIndex ≤ maximum) : d.valid = true ↔ WellFormed d := by
  have key : d.valid = true ↔ ((d.snapshotIndex = 0 ↔ d.snapshotTerm = 0) ∧ d.snapshotTerm ≤ d.term ∧
      d.log.length ≤ maximum - d.snapshotIndex ∧ d.lastIndex ≠ maximum ∧ d.snapshotIndex ≤ d.applied ∧
      d.applied ≤ d.commit ∧ d.commit ≤ d.lastIndex) ∧ d.log.length ≤ EntryLog.maximumEntries ∧
      EntryLog.validTerms d.log d.snapshotTerm d.term = true := by
    have hzero : ((d.snapshotIndex == 0) = (d.snapshotTerm == 0)) ↔ (d.snapshotIndex = 0 ↔ d.snapshotTerm = 0) := by
      rw [Bool.eq_iff_iff, beq_iff_eq, beq_iff_eq]
    unfold Durable.valid
    split
    · rename_i hc
      refine iff_of_false Bool.false_ne_true fun h => ?_
      obtain ⟨⟨h1, h2, h3, h4, h5, h6, h7⟩, -⟩ := h
      simp only [Bool.or_eq_true, decide_eq_true_eq, beq_iff_eq, bne_iff_ne, ne_eq, hzero] at hc
      omega
    · rename_i hc
      simp only [Bool.or_eq_true, decide_eq_true_eq, beq_iff_eq, bne_iff_ne, ne_eq, not_or, not_lt, not_not, hzero] at hc
      obtain ⟨⟨⟨⟨⟨⟨h1, h2⟩, h3⟩, h4⟩, h5⟩, h6⟩, h7⟩ := hc
      simp only [Bool.and_eq_true, decide_eq_true_eq]
      exact ⟨fun h => ⟨⟨h1, h2, h3, h4, h5, h6, h7⟩, h⟩, fun h => h.2⟩
  have hlast : d.lastIndex = d.snapshotIndex + d.log.length := rfl
  rw [key, validTerms_iff]
  constructor
  · rintro ⟨⟨h1, h2, h3, h4, h5, h6, h7⟩, h8, h9, h10, h11, h12⟩
    exact ⟨h1, h2, by omega, h5, h6, h7, h8, h9, h10, h11, h12⟩
  · rintro ⟨h1, h2, h3, h4, h5, h6, h7, h8, h9, h10, h11⟩
    exact ⟨⟨h1, h2, by omega, h3.ne, h4, h5, h6⟩, h7, h8, h9, h10, h11⟩

theorem WellFormed.valid {d : Durable} (h : WellFormed d) : d.valid = true :=
  (valid_iff (by have := h.last; unfold Durable.lastIndex at this; omega)).mpr h

/-- One change of a durable state. -/
inductive Change (d : Durable) : Durable → Prop
  | raise (T : Nat) (vote : Option String) (higher : d.term < T) : Change d { d with term := T, votedFor := vote }
  | vote (candidate : String) (free : d.votedFor = none) : Change d { d with votedFor := some candidate }
  | cut (k : Nat) (kept : d.commit ≤ d.snapshotIndex + k) : Change d { d with log := d.log.take k }
  | append (e : Entry) (positive : 0 < e.term) (ordered : d.lastTerm ≤ e.term) (current : e.term ≤ d.term)
      (room : d.log.length < EntryLog.maximumEntries) (below : d.lastIndex < maximum - 1) :
      Change d { d with log := d.log ++ [e] }
  | commit (n : Nat) (lower : d.commit ≤ n) (upper : n ≤ d.lastIndex) : Change d { d with commit := n }
  | apply (n : Nat) (lower : d.applied ≤ n) (upper : n ≤ d.commit) : Change d { d with applied := n }
  | compact (t : Nat) (applied : d.applied = d.commit) (known : d.termAt d.commit = some t) :
      Change d { d with
        snapshotIndex := d.commit, snapshotTerm := t, log := d.log.drop (d.commit - d.snapshotIndex) }
  | install (i t : Nat) (above : d.commit < i) (below : i < maximum) (positive : 0 < t) (current : t ≤ d.term) :
      Change d { d with
        snapshotIndex := i, snapshotTerm := t, commit := i, applied := i
        log := if d.termAt i = some t then d.log.drop (i - d.snapshotIndex) else [] }

theorem termAt_bounds {d : Durable} {i t : Nat} (h : d.termAt i = some t) : d.snapshotIndex ≤ i ∧ i ≤ d.lastIndex := by
  unfold Durable.termAt at h
  split at h
  · rename_i hi
    exact ⟨hi.ge, by rw [hi]; exact Nat.le_add_right _ _⟩
  · split at h
    · cases h
    · omega

theorem termAt_retained {d : Durable} {i t : Nat} (h : d.termAt i = some t) (hi : d.snapshotIndex < i) :
    ∃ e, d.log[i - d.snapshotIndex - 1]? = some e ∧ e.term = t := by
  unfold Durable.termAt at h
  rw [if_neg (by omega)] at h
  split at h
  · cases h
  · exact Option.map_eq_some_iff.mp h

theorem lastTerm_le {d : Durable} {t : Nat} (h : d.lastTerm ≤ t) (hw : WellFormed d) : ∀ e ∈ d.log, e.term ≤ t := by
  intro e he
  rcases List.eq_nil_or_concat' d.log with hn | ⟨P, x, hP⟩
  · simp [hn] at he
  · have hord := hw.ordered
    unfold Durable.lastTerm at h
    rw [hP, List.getLast?_concat] at h
    rw [hP] at he hord
    rcases List.mem_append.mp he with he | he
    · exact ((List.pairwise_append.mp hord).2.2 e he x (List.mem_singleton_self x)).trans h
    · rw [List.mem_singleton.mp he]
      exact h

theorem le_lastTerm {d : Durable} (hw : WellFormed d) : d.snapshotTerm ≤ d.lastTerm := by
  unfold Durable.lastTerm
  split
  · exact le_rfl
  · rename_i e he
    exact hw.lower e (List.mem_of_getLast? he)

/-- A later part of the log whose first dropped entry has term `t` has terms from `t` on. -/
theorem drop_lower {d : Durable} (hw : WellFormed d) {i t : Nat} (h : d.termAt i = some t) :
    ∀ e ∈ d.log.drop (i - d.snapshotIndex), t ≤ e.term := by
  intro e he
  rcases Nat.eq_or_lt_of_le (termAt_bounds h).1 with hi | hi
  · have ht : d.snapshotTerm = t := by
      unfold Durable.termAt at h
      rw [if_pos hi.symm] at h
      exact Option.some.inj h
    rw [← ht]
    exact hw.lower e (List.mem_of_mem_drop he)
  · obtain ⟨x, hx, rfl⟩ := termAt_retained h hi
    obtain ⟨j, hj⟩ := List.getElem?_of_mem he
    rw [List.getElem?_drop] at hj
    obtain ⟨h1, rfl⟩ := List.getElem?_eq_some_iff.mp hx
    obtain ⟨h2, rfl⟩ := List.getElem?_eq_some_iff.mp hj
    exact List.pairwise_iff_getElem.mp hw.ordered _ _ h1 h2 (by omega)

theorem Change.wellFormed {d t : Durable} (h : Change d t) (hw : WellFormed d) : WellFormed t := by
  have hlast : d.lastIndex = d.snapshotIndex + d.log.length := rfl
  cases h with
  | raise T vote higher =>
    exact { hw with term := hw.term.trans higher.le, upper := fun e he => (hw.upper e he).trans higher.le }
  | vote candidate free => exact { hw with }
  | cut k kept =>
    have hlen : (d.log.take k).length = min k d.log.length := List.length_take
    have := hw.reach
    have := hw.last
    have := hw.size
    refine ⟨hw.boundary, hw.term, ?_, hw.applied, hw.commit, ?_, ?_, hw.ordered.sublist (List.take_sublist _ _),
      fun e he => hw.positive e (List.mem_of_mem_take he), fun e he => hw.lower e (List.mem_of_mem_take he),
      fun e he => hw.upper e (List.mem_of_mem_take he)⟩
    · dsimp only [Durable.lastIndex]
      omega
    · dsimp only [Durable.lastIndex]
      omega
    · dsimp only [Durable.lastIndex]
      omega
  | append e positive ordered current room below =>
    have hlen : (d.log ++ [e]).length = d.log.length + 1 := by simp
    have := hw.reach
    have hle := lastTerm_le ordered hw
    have hmem : ∀ x ∈ d.log ++ [e], x ∈ d.log ∨ x = e := fun x hx => by simpa using hx
    refine ⟨hw.boundary, hw.term, ?_, hw.applied, hw.commit, ?_, ?_, ?_, fun x hx => ?_, fun x hx => ?_, fun x hx => ?_⟩
    · dsimp only [Durable.lastIndex]
      omega
    · dsimp only [Durable.lastIndex]
      omega
    · dsimp only [Durable.lastIndex]
      omega
    · refine List.pairwise_append.mpr ⟨hw.ordered, List.pairwise_singleton _ _, fun x hx y hy => ?_⟩
      rw [List.mem_singleton.mp hy]
      exact hle x hx
    · rcases hmem x hx with hx | rfl
      · exact hw.positive x hx
      · exact positive
    · rcases hmem x hx with hx | rfl
      · exact hw.lower x hx
      · exact (le_lastTerm hw).trans ordered
    · rcases hmem x hx with hx | rfl
      · exact hw.upper x hx
      · exact current
  | commit n lower upper => exact { hw with commit := hw.commit.trans lower, reach := upper }
  | apply n lower upper => exact { hw with applied := hw.applied.trans lower, commit := upper }
  | compact t applied known =>
    have hlen : (d.log.drop (d.commit - d.snapshotIndex)).length = d.log.length - (d.commit - d.snapshotIndex) :=
      List.length_drop
    have := hw.reach
    have := hw.last
    have := hw.size
    have hbase := hw.applied.trans hw.commit
    have hlower := drop_lower hw known
    have hterm : (d.commit = 0 ↔ t = 0) ∧ t ≤ d.term := by
      rcases Nat.eq_or_lt_of_le hbase with hi | hi
      · unfold Durable.termAt at known
        rw [if_pos hi.symm] at known
        obtain rfl := Option.some.inj known
        exact ⟨by rw [← hi]; exact hw.boundary, hw.term⟩
      · obtain ⟨x, hx, rfl⟩ := termAt_retained known hi
        have hmem := List.mem_of_getElem? hx
        have := hw.positive x hmem
        exact ⟨by omega, hw.upper x hmem⟩
    refine ⟨hterm.1, hterm.2, ?_, applied.ge, hw.commit, ?_, ?_, hw.ordered.sublist (List.drop_sublist _ _),
      fun e he => hw.positive e (List.mem_of_mem_drop he), hlower, fun e he => hw.upper e (List.mem_of_mem_drop he)⟩
    · dsimp only [Durable.lastIndex]
      omega
    · dsimp only [Durable.lastIndex]
      omega
    · dsimp only [Durable.lastIndex]
      omega
  | install i t above below positive current =>
    have hzero : i = 0 ↔ t = 0 := by omega
    by_cases hs : d.termAt i = some t
    · have hlen : (d.log.drop (i - d.snapshotIndex)).length = d.log.length - (i - d.snapshotIndex) := List.length_drop
      have := (termAt_bounds hs).2
      have := hw.reach
      have := hw.last
      have := hw.size
      have hbase := hw.applied.trans hw.commit
      simp only [if_pos hs]
      refine ⟨hzero, current, ?_, le_rfl, le_rfl, Nat.le_add_right _ _, ?_, hw.ordered.sublist (List.drop_sublist _ _),
        fun e he => hw.positive e (List.mem_of_mem_drop he), drop_lower hw hs,
        fun e he => hw.upper e (List.mem_of_mem_drop he)⟩
      · dsimp only [Durable.lastIndex]
        omega
      · dsimp only [Durable.lastIndex]
        omega
    · simp only [if_neg hs]
      exact ⟨hzero, current, below, le_rfl, le_rfl, Nat.le_add_right _ _, Nat.zero_le _, .nil, nofun, nofun,
        nofun⟩

/-! ### Sequences of changes -/

abbrev Changes : Durable → Durable → Prop := Relation.ReflTransGen Change

theorem Change.changes {d t : Durable} (h : Change d t) : Changes d t := .single h

theorem Changes.wellFormed {d t : Durable} (h : Changes d t) (hw : WellFormed d) : WellFormed t := by
  induction h with
  | refl => exact hw
  | tail _ hc ih => exact hc.wellFormed ih

theorem Changes.term_le {d t : Durable} (h : Changes d t) : d.term ≤ t.term := by
  induction h with
  | refl => exact le_rfl
  | tail _ hc ih =>
    refine ih.trans ?_
    cases hc with
    | raise T vote higher => exact higher.le
    | vote | cut | append | commit | apply | compact | install => exact le_rfl

theorem changes_adoptTerm (d : Durable) (T : Nat) : Changes d (adoptTerm d T) := by
  unfold adoptTerm
  split
  · rename_i higher
    exact (Change.raise T none higher).changes
  · exact .refl

/-! ### Merging -/

theorem lastTerm_of_termAt {d : Durable} {t : Nat} (h : d.termAt d.lastIndex = some t) : d.lastTerm = t := by
  unfold Durable.lastTerm
  rcases List.eq_nil_or_concat' d.log with hn | ⟨P, x, hP⟩
  · unfold Durable.termAt Durable.lastIndex at h
    simpa [hn] using h
  · have hlast : d.lastIndex = d.snapshotIndex + P.length + 1 := by
      simp [Durable.lastIndex, hP, Nat.add_assoc]
    obtain ⟨e, he, rfl⟩ := termAt_retained h (by omega)
    rw [hlast, show d.snapshotIndex + P.length + 1 - d.snapshotIndex - 1 = P.length by omega, hP] at he
    simp only [List.length_append, List.length_singleton, Nat.lt_add_one, List.getElem?_eq_getElem,
      List.getElem_concat_length, Option.some.injEq] at he
    rw [hP, List.getLast?_concat, he]

theorem termAt_append {d : Durable} (e : Entry) : ({ d with log := d.log ++ [e] } : Durable).termAt (d.lastIndex + 1) = some e.term := by
  have hlast : d.lastIndex = d.snapshotIndex + d.log.length := rfl
  unfold Durable.termAt
  rw [if_neg (by dsimp only; omega), if_neg (by dsimp only [Durable.lastIndex]; simp; omega)]
  dsimp only
  rw [hlast, show d.snapshotIndex + d.log.length + 1 - d.snapshotIndex - 1 = d.log.length by omega]
  simp

theorem termAt_take {d : Durable} {i t : Nat} (h : d.termAt i = some t) :
    ({ d with log := d.log.take (i - d.snapshotIndex) } : Durable).termAt i = some t := by
  obtain ⟨hb, hl⟩ := termAt_bounds h
  rcases Nat.eq_or_lt_of_le hb with hi | hi
  · unfold Durable.termAt at h ⊢
    rwa [if_pos hi.symm] at h ⊢
  · obtain ⟨e, he, rfl⟩ := termAt_retained h hi
    have hlast : d.lastIndex = d.snapshotIndex + d.log.length := rfl
    unfold Durable.termAt
    rw [if_neg (by dsimp only; omega), if_neg (by dsimp only [Durable.lastIndex]; rw [List.length_take]; omega)]
    dsimp only
    rw [List.getElem?_take_of_lt (by omega), he]
    rfl

theorem termAt_of_entryAt {d : Durable} {i : Nat} {e : Entry} (h : d.entryAt i = some e) : d.termAt i = some e.term := by
  unfold Durable.entryAt at h
  split at h
  · cases h
  · have hlt := (List.getElem?_eq_some_iff.mp h).1
    unfold Durable.termAt
    rw [if_neg (by omega), if_neg (by unfold Durable.lastIndex; omega), h]
    rfl

/-- A message that covers nothing beyond the limits merges by cuts above the commit index and appends, and
    the log then reaches what it covers. -/
theorem mergeEntries_changes (entries : List Entry) {t : Durable} {i previous : Nat} (hw : WellFormed t)
    (known : t.termAt i = some previous) (ordered : entriesOrdered t.term previous entries = true)
    (fits : entries.length ≤ maximum - 1 - i) (room : i + entries.length ≤ t.snapshotIndex + EntryLog.maximumEntries)
    (success : (mergeEntries t (i + 1) entries).2 = true) :
    Changes t (mergeEntries t (i + 1) entries).1 ∧ i + entries.length ≤ (mergeEntries t (i + 1) entries).1.lastIndex := by
  induction entries generalizing t i previous with
  | nil => exact ⟨.refl, (termAt_bounds known).2⟩
  | cons e rest ih =>
    simp only [entriesOrdered, Bool.and_eq_true, Bool.not_eq_true', Bool.or_eq_false_iff, beq_eq_false_iff_ne,
      ne_eq, decide_eq_false_iff_not, not_lt] at ordered
    obtain ⟨⟨⟨hpos, hprev⟩, hterm⟩, hrest⟩ := ordered
    rw [List.length_cons] at fits
    rw [List.length_cons, ← Nat.add_assoc, Nat.add_right_comm] at room ⊢
    obtain ⟨hbase, hlast⟩ := termAt_bounds known
    -- The entry goes to the end of a log that ends at `i`.
    have extend : ∀ t' : Durable, WellFormed t' → t'.term = t.term → t'.snapshotIndex = t.snapshotIndex →
        t'.lastIndex = i → t'.termAt i = some previous →
        (mergeEntries { t' with log := t'.log ++ [e] } (i + 1 + 1) rest).2 = true →
        Changes t' (mergeEntries { t' with log := t'.log ++ [e] } (i + 1 + 1) rest).1 ∧
          i + 1 + rest.length ≤ (mergeEntries { t' with log := t'.log ++ [e] } (i + 1 + 1) rest).1.lastIndex := by
      intro t' hw' hT hs hl hk hsuc
      have happ : Change t' { t' with log := t'.log ++ [e] } := by
        refine .append e (by omega) ?_ (by omega) ?_ (by omega)
        · rw [lastTerm_of_termAt (hl.symm ▸ hk)]
          exact hprev
        · have : t'.lastIndex = t'.snapshotIndex + t'.log.length := rfl
          omega
      have hk' := termAt_append (d := t') e
      rw [hl] at hk'
      rw [← hT] at hrest
      obtain ⟨h1, h2⟩ := ih (happ.wellFormed hw') hk' hrest (by omega) (by dsimp only; omega) hsuc
      exact ⟨happ.changes.trans h1, h2⟩
    unfold mergeEntries at success ⊢
    dsimp only at success ⊢
    split at success
    · rename_i hconflict
      rw [if_pos hconflict]
      split at success
      · cases success
      · rename_i hfree
        rw [if_neg hfree]
        have hcut : Change t { t with log := t.log.take (i - t.snapshotIndex) } := .cut _ (by omega)
        rw [show i + 1 - t.snapshotIndex - 1 = i - t.snapshotIndex by omega] at success ⊢
        have hl : ({ t with log := t.log.take (i - t.snapshotIndex) } : Durable).lastIndex = i := by
          have : t.lastIndex = t.snapshotIndex + t.log.length := rfl
          dsimp only [Durable.lastIndex]
          rw [List.length_take]
          omega
        rw [if_pos (by rw [hl])] at success ⊢
        obtain ⟨h1, h2⟩ := extend _ (hcut.wellFormed hw) rfl rfl hl (termAt_take known) success
        exact ⟨hcut.changes.trans h1, h2⟩
    · rename_i hconflict
      rw [if_neg hconflict]
      by_cases hend : i + 1 = t.lastIndex + 1
      · rw [if_pos hend] at success ⊢
        exact extend t hw rfl rfl (by omega) known success
      · rw [if_neg hend] at success ⊢
        have hentry : t.entryAt (i + 1) = some e := by
          by_contra hne
          exact hconflict ⟨by omega, hne⟩
        exact ih hw (termAt_of_entryAt hentry) hrest (by omega) room success

end Choreolog.Raft
