import Choreolog.Theorems.Open

/-! # The operations of a store

Each operation of a store that shows a record leads to a store that shows the next one. A crash inside it
leaves a disk that represents the one or the other. -/

namespace Choreolog.Storage
open Lib State

/-! ### Records of an operation -/

/-- Whatever a crash settles, the disk represents one of the two records. -/
def Leaves (r r' : Record) (d : Disk) : Prop := ∀ d', Crashed d d' → Represents r d' ∨ Represents r' d'

/-- What an operation may do: it succeeds and the store shows the next record, or it fails and nothing has
    changed, or it fails and the store has to be opened again. -/
def Achieves (r r' : Record) (m : Store FileEngine Unit) : Prop :=
  Program.Triple (fun e d => Running r e d) m (fun _ e d => Running r' e d)
    (fun _ e d => Running r e d ∨ e.recoveryRequired = true ∧ (Represents r d ∨ Represents r' d)) (Leaves r r')

/-- What a stop inside an operation leaves that does not touch the snapshots: after a crash the disk has the
    files of one of the two records. It has them at once unless whole records were cut off and not flushed. -/
structure Between (r r' : Record) (b : Nat) (newest : Option ChoreographyState) (d : Disk) : Prop where
  crashed : ∀ d', Crashed d d' → Held r b newest d' ∨ Held r' b newest d'
  flushed : Torn d.tail → Held r b newest d ∨ Held r' b newest d

section Rules
variable {r r' : Record} {b : Nat} {newest : Option ChoreographyState} {e : FileEngine} {d : Disk}

theorem Represents.leaves_before (h : Represents r d) : Leaves r r' d := fun _ c => .inl (h.crashed c)

theorem Represents.leaves_after (h : Represents r' d) : Leaves r r' d := fun _ c => .inr (h.crashed c)

theorem Held.represents (h : Held r b newest d) (sound : Sound r b newest) : Represents r d := .inl ⟨b, newest, sound, h⟩

theorem Held.between_before (h : Held r b newest d) : Between r r' b newest d := ⟨fun _ c => .inl (h.crashed c), fun _ => .inl h⟩

theorem Held.between_after (h : Held r' b newest d) : Between r r' b newest d := ⟨fun _ c => .inr (h.crashed c), fun _ => .inr h⟩

theorem Between.leaves (h : Between r r' b newest d) (sound : Sound r b newest) (sound' : Sound r' b newest) : Leaves r r' d :=
  fun d' c => (h.crashed d' c).imp (·.represents sound) (·.represents sound')

theorem Serves.represents (h : Serves r b newest e d) (sound : Sound r b newest) : Represents r d := h.toHeld.represents sound

theorem Running.represents (h : Running r e d) : Represents r d := by
  obtain ⟨b, newest, sound, h⟩ := h
  exact h.represents sound

theorem requireWritable_ok (h : e.recoveryRequired = false) : FileEngine.requireWritable e d = ⟨.ok (), e, d, []⟩ := by
  unfold FileEngine.requireWritable
  rw [Program.bind_of_ok (a := e) rfl]
  simp only [Program.memory, h]
  rfl

/-- An operation first checks that the store can be written, then reads its memory. -/
theorem reads_memory {pre : FileEngine → Disk → Prop} (known : ∀ s d, pre s d → s = e ∧ e.recoveryRequired = false)
    {f : FileEngine → Store FileEngine Unit} {post : Unit → FileEngine → Disk → Prop} {error : Error → FileEngine → Disk → Prop}
    {crash : Disk → Prop} (h : Program.Triple pre (f e) post error crash) :
    Program.Triple pre (do FileEngine.requireWritable; f (← .memory)) post error crash := by
  refine .bind_returns (a := ()) (fun s d hs => ?_) (.bind_memory fun t => ?_)
  · obtain ⟨rfl, hwritable⟩ := known s d hs
    exact requireWritable_ok hwritable
  · refine .fact (fun s d hs => (hs.1.symm.trans (known s d hs.2).1 : t = e)) fun ht => ?_
    subst ht
    exact .strengthen h fun _ _ hs => hs.2

theorem writable {f : FileEngine → Store FileEngine Unit} {post : Unit → FileEngine → Disk → Prop}
    {error : Error → FileEngine → Disk → Prop} {crash : Disk → Prop}
    (h : Program.Triple (fun s d => s = e ∧ Serves r b newest s d) (f e) post error crash) :
    Program.Triple (fun s d => s = e ∧ Serves r b newest s d) (do FileEngine.requireWritable; f (← .memory)) post error crash :=
  reads_memory (fun _ _ hs => ⟨hs.1, hs.1 ▸ hs.2.writable⟩) h

theorem achieves {m : Store FileEngine Unit}
    (h : ∀ e b newest, Sound r b newest → Program.Triple (fun s d => s = e ∧ Serves r b newest s d) m
      (fun _ e d => Running r' e d)
      (fun _ e d => Running r e d ∨ e.recoveryRequired = true ∧ (Represents r d ∨ Represents r' d)) (Leaves r r')) :
    Achieves r r' m := by
  rintro e d ⟨b, newest, sound, hserves⟩
  exact h e b newest sound e d ⟨rfl, hserves⟩

/-- A mutation that fails only before the disk has anything but one of the two records. -/
theorem checked {pre : FileEngine → Disk → Prop} {α : Type} {m : Store FileEngine α} {post : α → FileEngine → Disk → Prop}
    {crash : Disk → Prop} (h : Program.Triple pre m post (fun _ _ d => Represents r d ∨ Represents r' d) crash) :
    Program.Triple pre (FileEngine.checkedMutation m) post
      (fun _ e d => Running r e d ∨ e.recoveryRequired = true ∧ (Represents r d ∨ Represents r' d)) crash :=
  .onError h fun _ _ _ hd => .inr ⟨rfl, hd⟩

/-- A failure before anything was written. -/
theorem refuses {pre : FileEngine → Disk → Prop} {α : Type} {error : Error} {post : α → FileEngine → Disk → Prop} {crash : Disk → Prop}
    (h : ∀ e d, pre e d → Running r e d) : Program.Triple pre (.fail error : Store FileEngine α) post
      (fun _ e d => Running r e d ∨ e.recoveryRequired = true ∧ (Represents r d ∨ Represents r' d)) crash :=
  .strengthen .fail fun e d hs => .inl (h e d hs)

/-- An operation that succeeds and leaves the snapshots alone. -/
theorem succeeds {m : Store FileEngine Unit} (sound : Sound r b newest) (sound' : Sound r' b newest) {e' : FileEngine}
    {error : Error → FileEngine → Disk → Prop}
    (h : Program.Triple (fun s d => s = e ∧ Serves r b newest s d) m (fun _ s d => s = e' ∧ Serves r' b newest s d)
      (fun _ _ _ => False) (Between r r' b newest)) :
    Program.Triple (fun s d => s = e ∧ Serves r b newest s d) m (fun _ e d => Running r' e d) error (Leaves r r') :=
  h.consequence (fun _ _ h => h) (fun _ _ _ h => ⟨b, newest, sound', h.2⟩) (fun _ _ _ h => h.elim) fun _ h => h.leaves sound sound'

/-- The operation fails before it has done anything. -/
def Refuses (e : FileEngine) (d : Disk) (m : Store FileEngine Unit) : Prop :=
  Program.Triple (fun s d' => s = e ∧ d' = d) m (fun _ _ _ => False) (fun _ s d' => s = e ∧ d' = d) fun _ => False

theorem Refuses.fail (x : Error) : Refuses e d (.fail x) := .strengthen .fail fun _ _ h => h

theorem Refuses.writable (serves : Serves r b newest e d) {f : FileEngine → Store FileEngine Unit} (h : Refuses e d (f e)) :
    Refuses e d (do FileEngine.requireWritable; f (← .memory)) :=
  reads_memory (fun _ _ hs => ⟨hs.1, serves.writable⟩) h

theorem Refuses.achieves {m : Store FileEngine Unit} (h : ∀ d, Serves r b newest e d → Refuses e d m) (sound : Sound r b newest)
    {post : Unit → FileEngine → Disk → Prop} {crash : Disk → Prop} :
    Program.Triple (fun s d => s = e ∧ Serves r b newest s d) m post
      (fun _ e d => Running r e d ∨ e.recoveryRequired = true ∧ (Represents r d ∨ Represents r' d)) crash := by
  refine .each ?_
  rintro s d ⟨rfl, hserves⟩
  refine (h d hserves).consequence (fun _ _ h => h) (fun _ _ _ h => h.elim) ?_ fun _ h => h.elim
  rintro _ _ _ ⟨rfl, rfl⟩
  exact .inl ⟨b, newest, sound, hserves⟩

/-- The store has applied what is committed. -/
theorem Serves.applied (h : Serves r b newest e d) (sound : Sound r b newest) : e.state.lastApplied = r.commit := by
  obtain ⟨u, hreplay, hview⟩ := h.state
  rw [hview.domain, (sound.replayed sound.offset sound.commit hreplay).2.1]

/-! ### Changing the log -/

theorem logHeld_file (events : List Event) {tail : File} (torn : Torn tail) : LogHeld events (some (walFile events)) tail :=
  ⟨[], by rw [List.append_nil], .inl rfl, torn⟩

theorem Serves.torn (h : Serves r b newest e d) : Torn d.tail := by
  obtain ⟨part, hfile, -, htorn⟩ := h.wal
  obtain rfl : part = [] := by
    rw [h.file] at hfile
    exact List.append_cancel_left ((Option.some.inj hfile).symm.trans (List.append_nil _).symm)
  exact htorn

/-- The log file is another one, and the rest stays. -/
theorem Held.withLog (h : Held r b newest d) (same : r'.metadata = r.metadata) {b' : Nat} {wal : Option File} {tail : File}
    (log : LogHeld (r'.log.drop b') wal tail) : Held r' b' newest { d with wal, tail } :=
  ⟨log, same ▸ h.metadata, h.snapshots, h.journal, h.removed⟩

theorem Record.replay_congr {n : Nat} (origin : r'.origin = r.origin) (same : r'.log.take n = r.log.take n) :
    r'.replay n = r.replay n := by
  unfold Record.replay Record.offset
  rw [origin, same]

theorem Serves.withLog (h : Serves r b newest e d) (r' : Record) (same : r'.metadata = r.metadata) (origin : r'.origin = r.origin)
    (history : r'.log.take r.commit = r.log.take r.commit) (b' : Nat) :
    Serves r' b' newest { e with wal := walOf (r'.log.drop b') } { d with wal := some (walFile (r'.log.drop b')), tail := [] } := by
  have hcommit : r'.commit = r.commit := congrArg NodeMetadata.commitIndex same
  refine { h with toHeld := h.toHeld.withLog same (logHeld_file _ (.inl rfl)), file := rfl, events := rfl, state := ?_, commitIndex := ?_ }
  · rw [hcommit, Record.replay_congr origin history]
    exact h.state
  · exact h.commitIndex.trans hcommit.symm

theorem Covers.withLog {c : ChoreographyState} (h : Covers r b c) {log : List Event} (same : log.take r.commit = r.log.take r.commit) :
    Covers { r with log } b c := by
  have htake : log.take c.lastApplied = r.log.take c.lastApplied := by
    rw [← Nat.min_eq_left h.committed, ← List.take_take, same, List.take_take]
  have hreplay : ({ r with log } : Record).replay c.lastApplied = r.replay c.lastApplied := Record.replay_congr rfl htake
  exact { h with view := hreplay ▸ h.view }

/-- Only entries that are not committed change. -/
theorem Sound.withLog (h : Sound r b newest) {log : List Event} (logged : ∀ e ∈ log.drop r.commit, Logged e) (indexed : Indexed log)
    (short : log.length < maxIndex) (commit : r.commit ≤ log.length) (same : log.take r.commit = r.log.take r.commit) :
    Sound { r with log } b newest := by
  have hmem : ∀ n ≤ r.commit, ∀ e ∈ log.drop n, e ∈ r.log.drop n ∨ Logged e := by
    intro n hn e he
    rw [← List.take_append_drop (r.commit - n) (log.drop n), List.drop_drop, Nat.add_sub_cancel' hn, ← List.drop_take, same,
      List.mem_append, List.drop_take] at he
    exact he.imp List.mem_of_mem_take (logged e)
  have htake : log.take r.offset = r.log.take r.offset := by
    rw [← Nat.min_eq_left h.offset, ← List.take_take, same, List.take_take]
  refine { h with
    rooted := { h.rooted with fits := ?_, anchor := ?_, receipts := ?_ }
    logged := ?_
    indexed := indexed
    short := short
    commit := commit
    history := ?_
    newest := fun c hc => (h.newest c hc).withLog same }
  · exact fun e he => (hmem _ h.offset e he).elim (h.rooted.fits e) Logged.fits
  · intro e he (hpos : 0 < r.offset)
    have hlast : (log.take r.offset)[r.offset - 1]? = (r.log.take r.offset)[r.offset - 1]? := by rw [htake]
    rw [List.getElem?_take_of_lt (Nat.sub_one_lt hpos.ne'), List.getElem?_take_of_lt (Nat.sub_one_lt hpos.ne')] at hlast
    exact h.rooted.anchor e (hlast.symm.trans he) hpos
  · intro hb e he
    exact h.rooted.receipts hb e (htake ▸ he)
  · exact fun e he => (hmem _ h.base e he).elim (h.logged e) id
  · have hreplay : ({ r with log } : Record).replay r.commit = r.replay r.commit := Record.replay_congr rfl same
    exact hreplay ▸ h.history

end Rules

/-! ### Appending -/

section Append
variable {r : Record} {b : Nat} {newest : Option ChoreographyState} {event : Event}

def Record.append (r : Record) (event : Event) : Record := { r with log := r.log ++ [event] }

theorem Sound.append (h : Sound r b newest) (logged : Logged event) (next : event.index = r.log.length + 1)
    (short : r.log.length + 1 < maxIndex) : Sound (r.append event) b newest := by
  refine h.withLog (fun e he => ?_) (h.indexed.append next) ?_ ?_ (List.take_append_of_le_length h.commit)
  · rw [List.drop_append_of_le_length h.commit] at he
    rcases List.mem_append.mp he with he | he
    · rw [← Nat.add_sub_cancel' h.base, ← List.drop_drop] at he
      exact h.logged e (List.mem_of_mem_drop he)
    · exact List.mem_singleton.mp he ▸ logged
  · rw [List.length_append]
    exact short
  · rw [List.length_append]
    exact h.commit.trans (Nat.le_add_right _ _)

theorem Serves.lastLogIndex {e : FileEngine} {d : Disk} (h : Serves r b newest e d) (sound : Sound r b newest) :
    e.lastLogIndex = r.log.length := by
  unfold FileEngine.lastLogIndex
  rw [h.events, walOf]
  dsimp only
  cases hlast : (r.log.drop b).getLast? with
  | none =>
    have hle := List.drop_eq_nil_iff.mp (List.getLast?_eq_none_iff.mp hlast)
    have hbase := sound.base
    have hcommit := sound.commit
    change e.state.lastApplied = _
    rw [h.applied sound]
    omega
  | some last => exact (sound.indexed.getLast hlast).1

theorem recordsOf_append (events events' : List Event) : recordsOf (events ++ events') = recordsOf events ++ recordsOf events' := by
  rw [recordsOf, recordsOf, recordsOf, List.map_append, List.flatten_append]

theorem walFile_append (events events' : List Event) : walFile (events ++ events') = walFile events ++ recordsOf events' := by
  rw [walFile, walFile, recordsOf_append, List.append_assoc]

theorem recordsOf_singleton (event : Event) : recordsOf [event] = recordOf event := by
  rw [recordsOf_cons]
  exact List.append_nil _

theorem endsFrom_append (offset : Nat) (events : List Event) (event : Event) : endsFrom offset (events ++ [event]) =
    endsFrom offset events ++ [offset + (recordsOf events).length + (recordOf event).length] := by
  induction events generalizing offset with
  | nil => rfl
  | cons e events ih =>
    rw [List.cons_append, endsFrom, endsFrom, ih, recordsOf_cons, List.length_append, List.cons_append]
    simp only [Nat.add_assoc]

theorem walOf_append (events : List Event) (event : Event) : walOf (events ++ [event]) =
    ⟨events ++ [event], (walOf events).recordEnds ++ [(walOf events).fileEnd + (recordOf event).length]⟩ := by
  rw [fileEnd_walOf, walFile, List.length_append, length_walFileHeader]
  unfold walOf
  rw [endsFrom_append]

/-- The next event is appended. -/
theorem appendEvent_spec {e : FileEngine} (sound : Sound r b newest) (logged : Logged event) (next : event.index = r.log.length + 1) :
    Program.Triple (fun s d => s = e ∧ Serves r b newest s d) (FileEngine.appendEvent event)
      (fun _ s d => s = { e with wal := walOf ((r.append event).log.drop b) } ∧ Serves (r.append event) b newest s d)
      (fun _ _ _ => False) (Between r (r.append event) b newest) := by
  refine writable (.fact (fun _ _ h => (h.1 ▸ h.2.lastLogIndex sound : e.lastLogIndex = r.log.length)) fun hlast => ?_)
  rw [hlast]
  refine .ite (fun hindex => absurd next hindex) fun _ => .ite (fun hsize => absurd logged.size (not_le.mpr hsize)) fun _ =>
    .onError ?_ fun _ _ _ (h : False) => h
  have hdrop : (r.append event).log.drop b = r.log.drop b ++ [event] :=
    List.drop_append_of_le_length (sound.base.trans sound.commit)
  let after (d : Disk) : Disk := { d with wal := some (d.wal.getD [] ++ recordOf event), tail := [] }
  have hafter : ∀ d, Serves r b newest e d →
      Serves (r.append event) b newest { e with wal := walOf ((r.append event).log.drop b) } (after d) := by
    intro d h
    have hfile : d.wal.getD [] ++ recordOf event = walFile ((r.append event).log.drop b) := by
      rw [h.file, hdrop, walFile_append, recordsOf_singleton]
      rfl
    unfold after
    rw [hfile]
    exact h.withLog (r.append event) rfl rfl (List.take_append_of_le_length sound.commit) b
  refine .bind (fun wal s d => wal = walOf ((r.append event).log.drop b) ∧ s = e ∧ ∃ d₀, Serves r b newest e d₀ ∧ d = after d₀)
    ?_ fun wal => .assign ?_
  · refine .bind_of (encodeRecord_ok logged.size) (.bind (fun _ s d => s = e ∧ ∃ d₀, Serves r b newest e d₀ ∧ d = after d₀)
      (.write ?_ ?_) fun _ => .strengthen (.pure _) ?_)
    · rintro s d ⟨rfl, h⟩
      exact ⟨rfl, d, h, rfl⟩
    · rintro s d ⟨rfl, h⟩
      refine ⟨h.toHeld.between_before, fun i hi => ?_, (hafter d h).toHeld.between_after⟩
      obtain ⟨part, hpart, rfl⟩ := List.mem_map.mp hi
      have hpart := (List.mem_inits _ _).mp hpart
      by_cases hless : part.length < (recordOf event).length
      · -- A part of the record is a torn tail.
        have htorn : Torn part := .inr ⟨event, logged, hpart, hless⟩
        have hheld : Held r b newest { d with wal := some (d.wal.getD [] ++ part), tail := [] } :=
          h.toHeld.withLog rfl ⟨part, by rw [h.file]; rfl, htorn, by rwa [List.append_nil]⟩
        exact hheld.between_before
      · obtain rfl := hpart.eq_of_length_le (not_lt.mp hless)
        exact (hafter d h).toHeld.between_after
    · rintro s d ⟨rfl, d₀, h, hd⟩
      refine ⟨?_, rfl, d₀, h, hd⟩
      rw [h.events, hdrop, walOf_append]
      rfl
  · rintro s d ⟨rfl, rfl, d₀, h, rfl⟩
    exact ⟨rfl, hafter d₀ h⟩

theorem appendEvent_refuses {e : FileEngine} {d : Disk} (sound : Sound r b newest) (serves : Serves r b newest e d)
    (refused : ¬(event.index = r.log.length + 1 ∧ (canonicalEvent event).toList.length ≤ maxPayloadBytes)) :
    Refuses e d (FileEngine.appendEvent event) := by
  refine .writable serves ?_
  rw [serves.lastLogIndex sound]
  refine .ite (fun _ => Refuses.fail _) fun hindex => .ite (fun _ => Refuses.fail _) fun hsize => ?_
  exact absurd ⟨not_not.mp hindex, not_lt.mp hsize⟩ refused

theorem appendEvent_achieves (fits : event.Fits) (text : parseEvent (canonicalEvent event) = .ok event) (short : r.log.length + 1 < maxIndex) :
    Achieves r (r.append event) (FileEngine.appendEvent event) := by
  refine achieves fun e b newest sound => ?_
  by_cases haccepted : event.index = r.log.length + 1 ∧ (canonicalEvent event).toList.length ≤ maxPayloadBytes
  · have hlogged : Logged event := ⟨fits, text, haccepted.2⟩
    exact succeeds sound (sound.append hlogged haccepted.1 short) (appendEvent_spec sound hlogged haccepted.1)
  · exact Refuses.achieves (fun d h => appendEvent_refuses sound h haccepted) sound

end Append

/-! ### Truncating -/

section Truncate
variable {r : Record} {b : Nat} {newest : Option ChoreographyState} {index : Nat}

def Record.truncate (r : Record) (index : Nat) : Record := if index < r.commit then r else { r with log := r.log.take index }

theorem Record.truncate_of_le (h : r.commit ≤ index) : r.truncate index = { r with log := r.log.take index } := if_neg (not_lt.mpr h)

theorem Sound.truncate (h : Sound r b newest) (committed : r.commit ≤ index) : Sound (r.truncate index) b newest := by
  rw [Record.truncate_of_le committed]
  refine h.withLog (fun e he => ?_) (h.indexed.take index) ((List.length_take_le' _ _).trans_lt h.short) ?_ ?_
  · rw [List.drop_take] at he
    have hmem := List.mem_of_mem_take he
    rw [← Nat.add_sub_cancel' h.base, ← List.drop_drop] at hmem
    exact h.logged e (List.mem_of_mem_drop hmem)
  · rw [List.length_take]
    exact le_min committed h.commit
  · rw [List.take_take, Nat.min_eq_left committed]

theorem endsFrom_take (offset : Nat) (events : List Event) (n : Nat) :
    (endsFrom offset events).take n = endsFrom offset (events.take n) := by
  induction events generalizing offset n with
  | nil => simp [endsFrom]
  | cons e events ih =>
    cases n with
    | zero => rfl
    | succ n => rw [endsFrom, List.take_succ_cons, List.take_succ_cons, endsFrom, ih]

theorem walOf_take (events : List Event) (n : Nat) :
    (⟨(walOf events).events.take n, (walOf events).recordEnds.take n⟩ : WriteAheadLog) = walOf (events.take n) := by
  unfold walOf
  rw [endsFrom_take]

/-- A torn tail has no whole record. -/
theorem not_torn {events : List Event} (logged : ∀ e ∈ events, Logged e) {rest : File} (torn : Torn (recordsOf events ++ rest)) :
    events = [] := by
  cases events with
  | nil => rfl
  | cons e events =>
    rw [recordsOf_cons, List.append_assoc] at torn
    have hread := readRecord_record (logged e List.mem_cons_self) 0 (recordsOf events ++ rest)
    rw [readRecord_torn torn] at hread
    cases hread

/-- The entries after an index are dropped. -/
theorem truncateAfter_spec {e : FileEngine} (sound : Sound r b newest) (committed : r.commit ≤ index) :
    Program.Triple (fun s d => s = e ∧ Serves r b newest s d) (FileEngine.truncateAfter index)
      (fun _ s d => s = { e with wal := walOf ((r.truncate index).log.drop b) } ∧ Serves (r.truncate index) b newest s d)
      (fun _ _ _ => False) (Between r (r.truncate index) b newest) := by
  refine writable (.fact (fun _ _ h => (h.1 ▸ h.2.events : e.wal = walOf (r.log.drop b))) fun hwal => ?_)
  refine .fact (fun _ _ h => (h.1 ▸ h.2.commitIndex : e.commitIndex = r.commit)) fun hcommit => ?_
  refine .ite (fun hless => absurd committed (not_le.mpr (hcommit ▸ hless))) fun _ => .onError ?_ fun _ _ _ (h : False) => h
  have htruncate := Record.truncate_of_le committed
  have hdrop : (r.truncate index).log.drop b = (r.log.drop b).take (index - b) := by
    rw [htruncate, List.drop_take]
  have hsplit : walFile (r.log.drop b) = walFile ((r.truncate index).log.drop b) ++ recordsOf ((r.log.drop b).drop (index - b)) := by
    rw [← walFile_append, hdrop, List.take_append_drop]
  have hkept : (⟨e.wal.events.take (e.wal.events.takeWhile (·.index ≤ index)).length,
      e.wal.recordEnds.take (e.wal.events.takeWhile (·.index ≤ index)).length⟩ : WriteAheadLog) =
      walOf ((r.truncate index).log.drop b) := by
    rw [hwal, walOf_take, show (walOf (r.log.drop b)).events = r.log.drop b from rfl, sound.indexed.takeWhile, List.length_take,
      hdrop]
    congr 1
    rw [List.take_eq_take_iff]
    omega
  have hafter : ∀ d, Serves r b newest e d → Serves (r.truncate index) b newest { e with wal := walOf ((r.truncate index).log.drop b) }
      { d with wal := some (walFile ((r.truncate index).log.drop b)), tail := [] } := by
    intro d h
    refine h.withLog (r.truncate index) ?_ ?_ ?_ b
    · rw [htruncate]
      rfl
    · rw [htruncate]
    · rw [htruncate, List.take_take, Nat.min_eq_left committed]
  have hshrunk : ∀ d, Serves r b newest e d → ({ d with
      wal := d.wal.map (·.take (walFile ((r.truncate index).log.drop b)).length)
      tail := (d.wal.getD []).drop (walFile ((r.truncate index).log.drop b)).length ++ d.tail } : Disk) = { d with
      wal := some (walFile ((r.truncate index).log.drop b))
      tail := recordsOf ((r.log.drop b).drop (index - b)) ++ d.tail } := by
    intro d h
    simp only [h.file, hsplit, Option.map_some, Option.getD_some, List.take_left, List.drop_left]
  -- Until the sync, a crash may bring back what was cut off.
  have hbetween : ∀ d, Serves r b newest e d → Between r (r.truncate index) b newest { d with
      wal := some (walFile ((r.truncate index).log.drop b))
      tail := recordsOf ((r.log.drop b).drop (index - b)) ++ d.tail } := by
    refine fun d h => ⟨fun d' c => ?_, fun htorn => .inr ?_⟩
    · rcases c.wal with hw | hw
      · refine .inr ((hafter d h).toHeld.crashed ?_)
        exact ⟨c.snapshots, c.metadata, .inl hw, c.journal, c.pruned, c.tail, c.removed⟩
      · refine .inl (h.toHeld.crashed ?_)
        refine ⟨c.snapshots, c.metadata, .inr ?_, c.journal, c.pruned, c.tail, c.removed⟩
        rw [hw, h.file, hsplit]
        simp only [Option.map_some, List.append_assoc]
    · have hnil := not_torn (fun e he => sound.logged e (List.mem_of_mem_drop he)) htorn
      rw [hnil]
      exact (hafter d h).toHeld.withLog rfl (logHeld_file _ h.torn)
  refine .bind (fun wal s d => wal = walOf ((r.truncate index).log.drop b) ∧ s = e ∧ ∃ d₀, Serves r b newest e d₀ ∧
    d = { d₀ with wal := some (walFile ((r.truncate index).log.drop b)), tail := [] }) ?_ fun wal => .assign ?_
  · unfold WriteAheadLog.truncateAfter
    dsimp only
    rw [hkept, fileEnd_walOf]
    refine .bind (fun _ s d => s = e ∧ ∃ d₀, Serves r b newest e d₀ ∧ d = { d₀ with
      wal := some (walFile ((r.truncate index).log.drop b))
      tail := recordsOf ((r.log.drop b).drop (index - b)) ++ d₀.tail }) (.write ?_ ?_) fun _ =>
      .bind (fun _ s d => s = e ∧ ∃ d₀, Serves r b newest e d₀ ∧
        d = { d₀ with wal := some (walFile ((r.truncate index).log.drop b)), tail := [] }) (.write ?_ ?_) fun _ => .strengthen (.pure _) ?_
    · rintro s d ⟨rfl, h⟩
      exact ⟨rfl, d, h, hshrunk d h⟩
    · rintro s d ⟨rfl, h⟩
      exact ⟨h.toHeld.between_before, nofun, hshrunk d h ▸ hbetween d h⟩
    · rintro s d ⟨rfl, d₀, h, rfl⟩
      exact ⟨rfl, d₀, h, rfl⟩
    · rintro s d ⟨rfl, d₀, h, rfl⟩
      exact ⟨hbetween d₀ h, nofun, (hafter d₀ h).toHeld.between_after⟩
    · exact fun s d h => ⟨rfl, h⟩
  · rintro s d ⟨rfl, rfl, d₀, h, rfl⟩
    exact ⟨rfl, hafter d₀ h⟩

theorem truncateAfter_refuses {e : FileEngine} {d : Disk} (serves : Serves r b newest e d) (less : index < r.commit) :
    Refuses e d (FileEngine.truncateAfter index) := by
  refine .writable serves ?_
  rw [serves.commitIndex, if_pos less]
  exact Refuses.fail _

theorem truncateAfter_achieves (index : Nat) : Achieves r (r.truncate index) (FileEngine.truncateAfter index) := by
  refine achieves fun e b newest sound => ?_
  rcases le_or_gt r.commit index with hle | hless
  · exact succeeds sound (sound.truncate hle) (truncateAfter_spec sound hle)
  · exact Refuses.achieves (fun d h => truncateAfter_refuses h hless) sound

end Truncate

/-! ### Terms and votes -/

section Persist
variable {r : Record} {b : Nat} {newest : Option ChoreographyState}

def Record.persist (r : Record) (term : Nat) (vote : Option NodeId) : Record := { r with term, vote }

/-- The metadata file is replaced. -/
theorem storeMetadata_spec (r' : Record) {pre : FileEngine → Disk → Prop} {post : Unit → FileEngine → Disk → Prop}
    {error : Error → FileEngine → Disk → Prop} {crash : Disk → Prop} (fits : r'.metadata.Fits)
    (before : ∀ s d, pre s d → crash d)
    (after : ∀ s d bytes, pre s d → MetaHeld r'.metadata (some bytes) → post () s { d with metadata := some bytes } ∧
      crash { d with metadata := some bytes }) :
    Program.Triple pre (storeMetadata r'.metadata) post error crash := by
  have hencoded := encodeMetadata_eq r'.metadata
  have hheld : ∀ bytes, encodeMetadata r'.metadata = .ok bytes → MetaHeld r'.metadata (some bytes) := fun bytes h =>
    decodeMetadata_encode fits h
  refine .bind_of hencoded (.write (fun s d h => (after s d _ h (hheld _ hencoded)).1) fun s d h => ?_)
  exact ⟨before s d h, nofun, (after s d _ h (hheld _ hencoded)).2⟩

theorem checkedMutation_loadMetadata {m : NodeMetadata} {d : Disk} (h : MetaHeld m d.metadata) (s : FileEngine) :
    FileEngine.checkedMutation loadMetadata s d = ⟨.ok m, s, d, []⟩ := by
  rw [FileEngine.checkedMutation, Program.onError_of_ok (a := m) (by rw [loadMetadata_held h]), loadMetadata_held h]

theorem Sound.persist (h : Sound r b newest) {term : Nat} (vote : Option NodeId) (later : r.term ≤ term) (bound : term < 2 ^ 64) :
    Sound (r.persist term vote) b newest :=
  { h with
    rooted := { h.rooted with }
    positive := h.positive.trans_le later
    term := bound
    newest := fun c hc => { h.newest c hc with } }

theorem persistConsensus_spec {e : FileEngine} {term : Nat} (vote : Option NodeId) (sound : Sound r b newest) (later : r.term ≤ term)
    (bound : term < 2 ^ 64) :
    Program.Triple (fun s d => s = e ∧ Serves r b newest s d) (FileEngine.persistConsensus term vote)
      (fun _ s d => s = e ∧ Serves (r.persist term vote) b newest s d) (fun _ _ _ => False)
      (Between r (r.persist term vote) b newest) := by
  refine .bind_returns (fun _ _ hs => requireWritable_ok hs.2.writable) (.bind_returns
    (fun s d h => checkedMutation_loadMetadata h.2.metadata s) (.ite (fun hterm => absurd later (not_le.mpr hterm)) fun _ =>
      .onError ?_ fun _ _ _ (h : False) => h))
  refine storeMetadata_spec (r.persist term vote) (sound.persist vote later bound).fits (fun s d h => h.2.toHeld.between_before)
    fun s d bytes h held => ?_
  have hserves : Serves (r.persist term vote) b newest s { d with metadata := some bytes } :=
    { h.2 with metadata := held }
  exact ⟨⟨h.1, hserves⟩, hserves.toHeld.between_after⟩

theorem persistConsensus_refuses {e : FileEngine} {d : Disk} (serves : Serves r b newest e d) {term : Nat} (vote : Option NodeId)
    (less : term < r.term) : Refuses e d (FileEngine.persistConsensus term vote) := by
  refine .bind_returns (fun _ _ hs => hs.1 ▸ requireWritable_ok serves.writable) (.bind_returns
    (fun s d' hs => hs.2 ▸ checkedMutation_loadMetadata serves.metadata s) ?_)
  rw [if_pos (show term < r.metadata.term from less)]
  exact Refuses.fail _

theorem persistConsensus_achieves (term : Nat) (vote : Option NodeId) (bound : term < 2 ^ 64) :
    Achieves r (r.persist term vote) (FileEngine.persistConsensus term vote) := by
  refine achieves fun e b newest sound => ?_
  rcases le_or_gt r.term term with hle | hless
  · exact succeeds sound (sound.persist vote hle bound) (persistConsensus_spec vote sound hle bound)
  · exact Refuses.achieves (fun d h => persistConsensus_refuses h vote hless) sound

end Persist

end Choreolog.Storage
