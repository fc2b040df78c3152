import Choreolog.Theorems.Install
import Choreolog.Theorems.SnapshotFiles

/-! # What a directory holds

The record that a store keeps: its term, its vote, how far it has committed, and the whole log, of which the
file may hold only an end. A disk represents a record if opening it has to find that record. -/

namespace Choreolog.State

/-! ### Logs with a dropped front -/

section Logs
variable {log : List Event} {b n : Nat} {event : Event}

theorem Indexed.head (h : Indexed log) (hd : (log.drop b).head? = some event) : event.index = b + 1 := by
  rw [List.head?_drop] at hd
  exact h b event hd

theorem Indexed.getLast (h : Indexed log) (hl : (log.drop b).getLast? = some event) : event.index = log.length ∧ b < log.length := by
  rw [List.getLast?_drop] at hl
  split at hl
  · cases hl
  · rename_i hlt
    rw [List.getLast?_eq_getElem?] at hl
    have := h _ _ hl
    omega

theorem Indexed.takeWhile (h : Indexed log) (n : Nat) : (log.drop b).takeWhile (·.index ≤ n) = (log.drop b).take (n - b) := by
  induction hk : log.length - b generalizing b with
  | zero =>
    rw [List.drop_eq_nil_of_le (by omega)]
    simp
  | succ k ih =>
    have hlt : b < log.length := by omega
    have hindex := h b log[b] (List.getElem?_eq_getElem hlt)
    rw [List.drop_eq_getElem_cons hlt, List.takeWhile_cons]
    split
    · rename_i hle
      rw [hindex, decide_eq_true_eq] at hle
      rw [ih (by omega), show n - b = n - (b + 1) + 1 by omega, List.take_succ_cons]
    · rename_i hgt
      rw [hindex, decide_eq_true_eq] at hgt
      rw [show n - b = 0 by omega, List.take_zero]

/-- The events after one index, up to another. -/
theorem Indexed.filter (h : Indexed log) (s n : Nat) (hb : b ≤ s) :
    ((log.drop b).take (n - b)).filter (s < ·.index) = (log.take n).drop s := by
  have hall : ∀ e ∈ (log.take n).drop s, s < e.index := by
    intro e he
    obtain ⟨i, hi⟩ := List.getElem?_of_mem he
    rw [List.getElem?_drop] at hi
    have := h.take n (s + i) e hi
    omega
  have hnone : ∀ e ∈ ((log.take n).drop b).take (s - b), ¬ s < e.index := by
    intro e he
    obtain ⟨i, hi⟩ := List.getElem?_of_mem he
    rw [List.getElem?_take] at hi
    split at hi
    · rw [List.getElem?_drop] at hi
      have := h.take n (b + i) e hi
      omega
    · cases hi
  have hsplit : (log.drop b).take (n - b) = ((log.take n).drop b).take (s - b) ++ (log.take n).drop s := by
    rw [← List.drop_take, show (log.take n).drop s = ((log.take n).drop b).drop (s - b) by rw [List.drop_drop]; congr 1; omega,
      List.take_append_drop]
  rw [hsplit, List.filter_append, List.filter_eq_nil_iff.mpr (by simpa using hnone), List.nil_append,
    List.filter_eq_self.mpr (by simpa using hall)]

/-- The events from one index on. -/
theorem Indexed.filter_from (h : Indexed log) {n : Nat} (hb : b < n) : (log.drop b).filter (n ≤ ·.index) = log.drop (n - 1) := by
  have hall := h.filter (n - 1) (b + log.length) (show b ≤ n - 1 by omega)
  rw [Nat.add_sub_cancel_left, List.take_of_length_le (by simp), List.take_of_length_le (by simp)] at hall
  rw [← hall]
  congr 1
  funext x
  rw [decide_eq_decide]
  omega

end Logs

end Choreolog.State

namespace Choreolog.Storage
open Lib State

theorem logEntry_walOf {log : List Event} (h : Indexed log) (b i : Nat) :
    (walOf (log.drop b)).logEntry i = if b < i then log[i - 1]? else none := by
  unfold WriteAheadLog.logEntry walOf
  dsimp only
  by_cases hlt : b < log.length
  · obtain ⟨first, hfirst⟩ : ∃ e, (log.drop b).head? = some e := by
      rw [List.head?_drop]
      exact ⟨_, List.getElem?_eq_getElem hlt⟩
    obtain ⟨last, hlast⟩ : ∃ e, (log.drop b).getLast? = some e := by
      refine Option.ne_none_iff_exists'.mp fun hnone => ?_
      have hnil := List.drop_eq_nil_iff.mp (List.getLast?_eq_none_iff.mp hnone)
      omega
    rw [hfirst, hlast]
    dsimp only
    rw [h.head hfirst, (h.getLast hlast).1, List.getElem?_drop]
    by_cases hi : b < i
    · rw [if_pos hi]
      split
      · rw [List.getElem?_eq_none (by omega)]
      · congr 1
        omega
    · rw [if_neg hi, if_pos (.inl (by omega))]
  · rw [List.drop_eq_nil_of_le (by omega)]
    dsimp only [List.head?_nil]
    split
    · rw [List.getElem?_eq_none (by omega)]
    · rfl

theorem contiguous_drop {log : List Event} (h : Indexed log) (b : Nat) : FileEngine.contiguous (log.drop b) = true := by
  induction hk : log.length - b generalizing b with
  | zero =>
    rw [List.drop_eq_nil_of_le (by omega)]
    rfl
  | succ k ih =>
    have hlt : b < log.length := by omega
    have hindex := h b log[b] (List.getElem?_eq_getElem hlt)
    have hrest := ih (b + 1) (by omega)
    rw [List.drop_eq_getElem_cons hlt]
    by_cases hnext : b + 1 < log.length
    · have hindex' := h (b + 1) log[b + 1] (List.getElem?_eq_getElem hnext)
      rw [List.drop_eq_getElem_cons hnext] at hrest ⊢
      rw [FileEngine.contiguous, hrest]
      simp [hindex, hindex']
    · rw [List.drop_eq_nil_of_le (by omega)]
      simp [FileEngine.contiguous, hindex]

/-! ### Records -/

structure Record where
  term : Nat := 1
  vote : Option NodeId := none
  commit : Nat := 0
  log : List Event := []
  /-- The state that the log is replayed from: the empty one, or one that a snapshot restored. -/
  origin : ChoreographyState := {}

namespace Record

def metadata (r : Record) : NodeMetadata := ⟨r.term, r.commit, r.vote⟩

/-- How many entries the origin has applied. -/
def offset (r : Record) : Nat := r.origin.lastApplied

/-- The state after the first `n` entries. -/
def replay (r : Record) (n : Nat) : Result ChoreographyState := ((r.log.take n).drop r.offset).foldlM apply r.origin

end Record

/-- The log joins its origin. While the file has the whole log, the origin has the receipts of its first entries. -/
structure Rooted (r : Record) (b : Nat) : Prop where
  lawful : Lawful r.origin
  empty : r.offset = 0 → r.origin = {}
  fits : ∀ e ∈ r.log.drop r.offset, e.Fits
  anchor : ∀ e, r.log[r.offset - 1]? = some e → 0 < r.offset → e.term = r.origin.term
  receipts : b = 0 → ∀ e ∈ r.log.take r.offset, e.type ≠ .noOp →
    r.origin.receipts.find? e.commandId.value = some (receiptFromEvent e)

/-- The snapshot of a state covers the log up to an index, and its file gives the state back. -/
structure Covers (r : Record) (b : Nat) (c : ChoreographyState) : Prop where
  regular : Regular c
  positive : 0 < c.lastApplied
  committed : c.lastApplied ≤ r.commit
  base : b ≤ c.lastApplied
  offset : r.offset ≤ c.lastApplied
  faithful : c.toDomain.dashless = c.toDomain
  view : ∃ u, r.replay c.lastApplied = .ok u ∧ View u (restored c)

/-- A record with a log from which the first `b` entries may be gone, as long as a snapshot covers them. -/
structure Sound (r : Record) (b : Nat) (newest : Option ChoreographyState) : Prop where
  rooted : Rooted r b
  logged : ∀ e ∈ r.log.drop b, Logged e
  indexed : Indexed r.log
  short : r.log.length < maxIndex
  base : b ≤ r.commit
  offset : r.offset ≤ r.commit
  commit : r.commit ≤ r.log.length
  positive : 0 < r.term
  term : r.term < 2 ^ 64
  history : ∃ u, r.replay r.commit = .ok u
  bare : newest = none → b = 0 ∧ r.offset = 0
  newest : ∀ c, newest = some c → Covers r b c

section Replays
variable {r : Record} {b n m : Nat} {newest : Option ChoreographyState} {u : ChoreographyState}

theorem Record.replay_extend (offset : r.offset ≤ n) (le : n ≤ m) (h : r.replay n = .ok u) :
    r.replay m = ((r.log.take m).drop n).foldlM apply u := by
  have hsplit : (r.log.take m).drop r.offset = (r.log.take n).drop r.offset ++ (r.log.take m).drop n := by
    have hparts := List.take_append_drop (n - r.offset) ((r.log.take m).drop r.offset)
    rw [List.drop_drop, Nat.add_sub_cancel' offset, ← List.drop_take, List.take_take, Nat.min_eq_left le] at hparts
    exact hparts.symm
  unfold Record.replay at h ⊢
  rw [hsplit, List.foldlM_append, h]
  rfl

/-- The entries after a place follow a state that has applied those before it. -/
theorem Record.follows (indexed : Indexed r.log) (fits : ∀ e ∈ r.log.drop r.offset, e.Fits) (offset : r.offset ≤ n)
    (last : u.lastApplied = n) : Follows u ((r.log.take m).drop n) where
  fits e he := by
    refine fits e ?_
    rw [List.drop_take] at he
    have hmem := List.mem_of_mem_take he
    rw [← Nat.add_sub_cancel' offset, ← List.drop_drop] at hmem
    exact List.mem_of_mem_drop hmem
  indexed i e hi := by
    rw [List.getElem?_drop] at hi
    rw [indexed.take _ _ _ hi, last]

theorem Sound.replayed (sound : Sound r b newest) (offset : r.offset ≤ n) (le : n ≤ r.log.length) (h : r.replay n = .ok u) :
    Lawful u ∧ u.lastApplied = n ∧ u.term = lastTerm (r.log.take n) := by
  have hfollows : Follows r.origin ((r.log.take n).drop r.offset) := Record.follows sound.indexed sound.rooted.fits le_rfl rfl
  obtain ⟨hlawful, hlast, hterm⟩ := sound.rooted.lawful.fold hfollows h
  have hlength : ((r.log.take n).drop r.offset).length = n - r.offset := by
    rw [List.length_drop, List.length_take, Nat.min_eq_left le]
  refine ⟨hlawful, ?_, ?_⟩
  · rw [hlast, hlength]
    exact Nat.add_sub_cancel' offset
  · rw [hterm, lastTerm, List.getLast?_drop, List.length_take, Nat.min_eq_left le]
    split
    · -- Nothing was replayed: the origin has the term of its last entry.
      rename_i hle
      obtain rfl : r.offset = n := le_antisymm offset hle
      rcases Nat.eq_zero_or_pos r.offset with hzero | hpos
      · rw [hzero, sound.rooted.empty hzero]
        rfl
      · obtain ⟨e, he⟩ : ∃ e, r.log[r.offset - 1]? = some e := ⟨_, List.getElem?_eq_getElem (by omega)⟩
        rw [List.getLast?_take, if_neg hpos.ne', he, Option.some_or]
        exact (sound.rooted.anchor e he hpos).symm
    · rename_i hlt
      obtain ⟨e, he⟩ : ∃ e, (r.log.take n).getLast? = some e := by
        refine Option.ne_none_iff_exists'.mp fun hnone => ?_
        have hnil := congrArg List.length (List.getLast?_eq_none_iff.mp hnone)
        rw [List.length_take, Nat.min_eq_left le, List.length_nil] at hnil
        omega
      rw [he]
      rfl

theorem Sound.receipts (sound : Sound r 0 newest) (offset : r.offset ≤ n) (h : r.replay n = .ok u) :
    ∀ e ∈ r.log.take n, e.type ≠ .noOp → u.receipts.find? e.commandId.value = some (receiptFromEvent e) := by
  have hfollows : Follows r.origin ((r.log.take n).drop r.offset) := Record.follows sound.indexed sound.rooted.fits le_rfl rfl
  obtain ⟨hkept, hnew⟩ := sound.rooted.lawful.fold_receipts hfollows h
  intro e he htype
  rw [← List.take_append_drop r.offset (r.log.take n), List.take_take, Nat.min_eq_left offset] at he
  rcases List.mem_append.mp he with he | he
  · exact hkept _ _ (sound.rooted.receipts rfl e he htype)
  · exact hnew e he htype

end Replays

theorem Sound.fits {r : Record} {b : Nat} {newest : Option ChoreographyState} (h : Sound r b newest) : r.metadata.Fits :=
  ⟨h.positive, h.term, (h.commit.trans_lt h.short).trans (by decide)⟩

/-- The metadata that the file holds. -/
def MetaHeld (metadata : NodeMetadata) : Option File → Prop
  | none => metadata = {}
  | some file => decodeMetadata file = .ok metadata

/-- The log file holds these events and perhaps a torn record, also if cut off bytes come back. -/
def LogHeld (events : List Event) (wal : Option File) (tail : File) : Prop :=
  ∃ part, wal = some (walFile events ++ part) ∧ Torn part ∧ Torn (part ++ tail)

/-- The newest snapshot file is that of this state. -/
def NewestHeld (newest : Option ChoreographyState) (files pruned : OrdMap String File) : Prop :=
  match newest with
  | none => SnapsHeld none files pruned
  | some c => ∃ bytes, encodeSnapshot c = .ok bytes ∧ SnapsHeld (some (c.lastApplied, bytes)) files pruned

/-- The disk has the files of a record, and no install is pending. -/
structure Held (r : Record) (b : Nat) (newest : Option ChoreographyState) (d : Disk) : Prop where
  wal : LogHeld (r.log.drop b) d.wal d.tail
  metadata : MetaHeld r.metadata d.metadata
  snapshots : NewestHeld newest d.snapshots d.pruned
  journal : d.journal = none
  removed : d.removed = none

theorem NewestHeld.crashed {newest : Option ChoreographyState} {d d' : Disk} (h : NewestHeld newest d.snapshots d.pruned)
    (c : Crashed d d') : NewestHeld newest d'.snapshots d'.pruned := by
  cases newest with
  | none => exact (show SnapsHeld none d.snapshots d.pruned from h).crashed c
  | some state =>
    obtain ⟨bytes, hbytes, hheld⟩ := h
    exact ⟨bytes, hbytes, hheld.crashed c⟩

theorem LogHeld.crashed {events : List Event} {d d' : Disk} (h : LogHeld events d.wal d.tail) (c : Crashed d d') :
    LogHeld events d'.wal d'.tail := by
  obtain ⟨part, hwal, htorn, htail⟩ := h
  rw [c.tail]
  rcases c.wal with heq | heq
  · exact ⟨part, heq.trans hwal, htorn, by rwa [List.append_nil]⟩
  · refine ⟨part ++ d.tail, ?_, htail, by rwa [List.append_nil]⟩
    rw [heq, hwal, Option.map_some, List.append_assoc]

theorem Held.crashed {r : Record} {b : Nat} {newest : Option ChoreographyState} {d d' : Disk} (h : Held r b newest d)
    (c : Crashed d d') : Held r b newest d' where
  wal := h.wal.crashed c
  metadata := c.metadata ▸ h.metadata
  snapshots := h.snapshots.crashed c
  journal := by
    rcases c.journal with hj | ⟨-, hj⟩
    · exact hj.trans h.journal
    · exact hj.trans h.removed
  removed := c.removed

end Choreolog.Storage
