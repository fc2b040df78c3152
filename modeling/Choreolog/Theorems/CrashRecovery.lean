import Choreolog.Theorems.Installs

/-! # Crash recovery of a store

The calls of a store in cluster mode, with a crash at any write of any of them. Opening the directory again
finds the record before the interrupted call or the one after it. -/

namespace Choreolog.Storage
open Lib State

/-! ### Whole histories -/

/-- The record of a whole history: it is replayed from the empty state, and what is committed has a faithful
    snapshot. -/
structure Record.Whole (r : Record) : Prop where
  origin : r.origin = {}
  faithful : r.commit ≤ r.log.length → r.Faithful

namespace Record.Whole
variable {r : Record}

theorem withLog (h : r.Whole) (committed : r.commit ≤ r.log.length) {log : List Event} (same : log.take r.commit = r.log.take r.commit) :
    Whole { r with log } := by
  refine ⟨h.origin, fun _ u hu => h.faithful committed u ?_⟩
  have hreplay : ({ r with log } : Record).replay r.commit = r.replay r.commit := Record.replay_congr rfl same
  exact hreplay.symm.trans hu

theorem commitTo {index : Nat} (h : r.Whole) (told : r.commit ≤ index → index ≤ r.log.length → ∃ u, Told (r.log.take index) u) :
    (r.commitTo index).Whole := by
  unfold Record.commitTo
  split
  · exact h
  · rename_i hge
    refine ⟨h.origin, fun hpresent u hu => ?_⟩
    obtain ⟨v, hv⟩ := told (not_lt.mp hge) hpresent
    have hreplay := (Record.replay_whole h.origin index).trans hv.replay
    obtain rfl : v = u := Except.ok.inj (hreplay.symm.trans hu)
    exact hv.faithful

theorem install {snapshot : Snapshot} {history : List Event} {state : ChoreographyState} (h : r.Whole) (offers : Offers snapshot history state) :
    (r.install snapshot history).Whole := by
  unfold Record.install
  split
  · exact h
  · refine ⟨h.origin, fun _ u hu => ?_⟩
    obtain ⟨v, hv, -⟩ := offers.told
    have hreplay := (Record.replay_whole (r := { r with
      commit := snapshot.index
      term := max r.term snapshot.term
      log := history ++ (if r.agrees snapshot then r.log.drop snapshot.index else []) }) h.origin snapshot.index).symm.trans hu
    rw [← offers.length, List.take_left] at hreplay
    obtain rfl : v = u := Except.ok.inj (hv.replay.symm.trans hreplay)
    exact hv.faithful

end Record.Whole

/-! ### Calls -/

/-- The calls of a store. An install names the history that its snapshot is of; the store does not see it. -/
inductive Op
  | append (event : Event)
  | truncate (index : Nat)
  | commit (index : Nat)
  | persist (term : Nat) (vote : Option NodeId)
  | checkpoint
  | discard
  | install (snapshot : Snapshot) (history : List Event)

namespace Op

def program : Op → Store FileEngine Unit
  | append event => FileEngine.appendEvent event
  | truncate index => FileEngine.truncateAfter index
  | commit index => FileEngine.commitThrough index
  | persist term vote => FileEngine.persistConsensus term vote
  | checkpoint => FileEngine.checkpoint
  | discard => FileEngine.discardCompactedPrefix
  | install snapshot _ => FileEngine.installSnapshot snapshot

/-- The record after a call that returned. -/
def after (r : Record) : Op → Record
  | append event => r.append event
  | truncate index => r.truncate index
  | commit index => r.commitTo index
  | persist term vote => r.persist term vote
  | checkpoint => r
  | discard => r
  | install snapshot history => r.install snapshot history

/-- What a call may be made with. An appended event re-parses and its numbers fit. What is committed replays
    from the empty state, and the snapshot of what it replays to gives the domain back. What is installed is
    the snapshot of such a history, and a local entry of its term at its index is the last one of it. -/
def Meets (r : Record) : Op → Prop
  | append event => event.Fits ∧ parseEvent (canonicalEvent event) = .ok event ∧ r.log.length + 1 < maxIndex
  | commit index => r.commit ≤ index → index ≤ r.log.length → ∃ u, Told (r.log.take index) u
  | persist term _ => term < 2 ^ 64
  | install snapshot history => r.commit < snapshot.index → ∀ state, FileEngine.replacement snapshot = .ok state →
      Offers snapshot history state ∧ Matches r snapshot history
  | _ => True

theorem achieves {r : Record} {op : Op} (whole : r.Whole) (committed : r.commit ≤ r.log.length) (meets : op.Meets r) :
    Achieves r (op.after r) op.program := by
  cases op with
  | append event => exact appendEvent_achieves meets.1 meets.2.1 meets.2.2
  | truncate index => exact truncateAfter_achieves index
  | commit index =>
    refine commitThrough_achieves index (fun hlater hpresent => ?_) fun hlater hpresent => ?_
    · obtain ⟨u, htold⟩ := meets hlater hpresent
      exact ⟨u, (Record.replay_whole whole.origin index).trans htold.replay⟩
    · exact (whole.commitTo meets).faithful (by rw [Record.commitTo_of_le hlater]; exact hpresent)
  | persist term vote => exact persistConsensus_achieves term vote meets
  | checkpoint => exact checkpoint_achieves (whole.faithful committed)
  | discard => exact discardCompactedPrefix_achieves
  | install snapshot history => exact installSnapshot_achieves whole.origin snapshot history meets

theorem origin (r : Record) (op : Op) : (op.after r).origin = r.origin := by
  cases op with
  | truncate index => exact apply_ite Record.origin _ _ _ |>.trans (ite_self _)
  | commit index => exact apply_ite Record.origin _ _ _ |>.trans (ite_self _)
  | install snapshot history => exact apply_ite Record.origin _ _ _ |>.trans (ite_self _)
  | _ => rfl

/-- The call only fails, and nothing changes. -/
def Refused (r : Record) (op : Op) : Prop :=
  Program.Triple (fun e d => Running r e d) op.program (fun _ _ _ => False) (fun _ e d => Running r e d) fun _ => False

/-- The calls that neither install a snapshot nor drop the log up to one. -/
def Ordinary : Op → Prop
  | discard => False
  | install _ _ => False
  | _ => True

theorem Ordinary.whole {r : Record} {op : Op} (ordinary : op.Ordinary) (whole : r.Whole) (committed : r.commit ≤ r.log.length)
    (meets : op.Meets r) : (op.after r).Whole := by
  cases op with
  | append event => exact whole.withLog committed (List.take_append_of_le_length committed)
  | truncate index =>
    change (r.truncate index).Whole
    unfold Record.truncate
    split
    · exact whole
    · rename_i hge
      exact whole.withLog committed (by rw [List.take_take, Nat.min_eq_left (not_lt.mp hge)])
  | commit index => exact whole.commitTo meets
  | persist term vote => exact ⟨whole.origin, whole.faithful⟩
  | checkpoint => exact whole
  | discard => exact ordinary.elim
  | install snapshot history => exact ordinary.elim

/-- A call leads from a whole history to a whole history, or is refused. -/
theorem whole {r : Record} {op : Op} (whole : r.Whole) (committed : r.commit ≤ r.log.length) (meets : op.Meets r) :
    (op.after r).Whole ∨ op.Refused r := by
  cases op with
  | discard => exact .inl whole
  | install snapshot history =>
    rcases Nat.lt_or_ge r.commit snapshot.index with hlater | hle
    · cases hstate : FileEngine.replacement snapshot with
      | ok state => exact .inl (whole.install (meets hlater state hstate).1)
      | error x => exact .inr (installSnapshot_refused hlater hstate)
    · refine .inl (?_ : (r.install snapshot history).Whole)
      rw [Record.install, if_pos hle]
      exact whole
  | _ => exact .inl (Ordinary.whole trivial whole committed meets)

/-- A call that leaves the commit index leaves what is committed. -/
theorem committed {r : Record} (h : r.commit ≤ r.log.length) (op : Op) (same : (op.after r).commit = r.commit) :
    (op.after r).log.take r.commit = r.log.take r.commit := by
  cases op with
  | append event => exact List.take_append_of_le_length h
  | truncate index =>
    change (r.truncate index).log.take r.commit = _
    unfold Record.truncate
    split
    · rfl
    · rename_i hge
      rw [List.take_take, Nat.min_eq_left (not_lt.mp hge)]
  | commit index =>
    change (r.commitTo index).log.take r.commit = _
    unfold Record.commitTo
    split <;> rfl
  | persist term vote => rfl
  | checkpoint => rfl
  | discard => rfl
  | install snapshot history =>
    change (r.install snapshot history).commit = _ at same
    change (r.install snapshot history).log.take r.commit = _
    unfold Record.install at same ⊢
    split at same
    · rw [if_pos ‹_›]
    · rename_i hgt
      exact absurd same.le hgt

end Op

/-! ### What a store shows -/

/-- The store shows a record: its metadata, the replay of what is committed, and every entry of the log from
    some committed one on. -/
structure Shows (r : Record) (e : FileEngine) (d : Disk) : Prop where
  metadata : (loadMetadata e d).result = .ok ⟨r.term, r.commit, r.vote⟩
  commitIndex : e.commitIndex = r.commit
  state : ∃ u, replay (r.log.take r.commit) none none = .ok u ∧ e.state.toDomain = u.toDomain ∧ e.state.receipts = u.receipts
  log : ∃ b ≤ r.commit, ∀ i, e.wal.logEntry i = if b < i then r.log[i - 1]? else none

section Showing
variable {r r' : Record} {e : FileEngine} {d : Disk}

theorem Running.shows (h : Running r e d) (whole : r.Whole) : Shows r e d := by
  obtain ⟨b, newest, sound, h⟩ := h
  obtain ⟨u, hreplay, hview⟩ := h.state
  refine ⟨?_, h.commitIndex, ⟨u, (Record.replay_whole whole.origin _).symm.trans hreplay, hview.domain, hview.receipts⟩, b, sound.base, fun i => ?_⟩
  · rw [loadMetadata_held h.metadata]
    rfl
  · rw [h.events, logEntry_walOf sound.indexed]

theorem Running.committed (h : Running r e d) : r.commit ≤ r.log.length := by
  obtain ⟨b, newest, sound, _⟩ := h
  exact sound.commit

/-- A store shows one record only, among those with the same committed entries. -/
theorem Shows.unique (h : Shows r e d) (h' : Shows r' e d) (origin : r'.origin = r.origin)
    (committed : r'.commit = r.commit → r'.log.take r.commit = r.log.take r.commit) : r' = r := by
  obtain ⟨b, hb, hlog⟩ := h.log
  obtain ⟨b', hb', hlog'⟩ := h'.log
  have hmetadata := Except.ok.inj (h'.metadata.symm.trans h.metadata)
  have hcommit : r'.commit = r.commit := congrArg NodeMetadata.commitIndex hmetadata
  have hentries : r'.log = r.log := by
    refine List.ext_getElem? fun i => ?_
    by_cases hi : i < r.commit
    · have htake := congrArg (·[i]?) (committed hcommit)
      simpa only [List.getElem?_take, if_pos hi] using htake
    · have hentry := (hlog' (i + 1)).symm.trans (hlog (i + 1))
      rwa [if_pos (by omega), if_pos (by omega), Nat.add_sub_cancel] at hentry
  obtain ⟨term, vote, commit, log, state⟩ := r
  obtain ⟨term', vote', commit', log', state'⟩ := r'
  obtain rfl : state' = state := origin
  obtain rfl : term' = term := congrArg NodeMetadata.term hmetadata
  obtain rfl : vote' = vote := congrArg NodeMetadata.votedFor hmetadata
  obtain rfl : commit' = commit := hcommit
  obtain rfl : log' = log := hentries
  rfl

end Showing

/-! ### Creating a directory -/

/-- The directory that a store creates. -/
def created : Disk := { wal := some walFileHeader }

theorem open_created (error : Error → Unit → Disk → Prop) : Program.Triple (fun _ d => d = {}) (WriteAheadLog.open : Store Unit WriteAheadLog)
    (fun wal _ d => wal = walOf [] ∧ d = created) error fun _ => True := by
  have hfile : created.wal = some (walFile []) := rfl
  refine .bind_disk fun d => .fact (fun _ _ h => (h.1 ▸ h.2 : d = {})) fun hd => ?_
  subst hd
  refine .bind (fun _ _ d => d = created) (.write ?_ fun _ _ _ => ⟨trivial, fun _ _ => trivial, trivial⟩) fun _ =>
    .bind (fun _ _ d => d = created) (.write ?_ fun _ _ _ => ⟨trivial, nofun, trivial⟩) fun _ => ?_
  · rintro _ d ⟨-, rfl⟩
    rfl
  · rintro _ d rfl
    rfl
  · rintro s d rfl
    rw [load_file (List.forall_mem_nil _) s hfile]
    exact ⟨nofun, rfl, rfl⟩

/-- A new directory opens as the one with an empty log. -/
theorem open_fresh {α : Type} (f : WriteAheadLog → Store Unit α) :
    ((recoverSnapshotTransaction >>= fun _ => WriteAheadLog.open >>= f) () {}).result =
      ((recoverSnapshotTransaction >>= fun _ => WriteAheadLog.open >>= f) () created).result ∧
    ((recoverSnapshotTransaction >>= fun _ => WriteAheadLog.open >>= f) () {}).disk =
      ((recoverSnapshotTransaction >>= fun _ => WriteAheadLog.open >>= f) () created).disk := by
  have hfile : created.wal = some (walFile []) := rfl
  have hidle := recoverSnapshotTransaction_idle () (rfl : ({} : Disk).journal = none) rfl
  have hidle' := recoverSnapshotTransaction_idle () (rfl : created.journal = none) rfl
  have hopen := steady_open (List.forall_mem_nil _) () hfile
  obtain ⟨wal, hwal, rfl, hdisk⟩ := (open_created fun _ _ _ => False).returns (s := ()) rfl
  rw [Program.bind_of_ok (a := ()) (by rw [hidle]), Program.bind_of_ok (a := ()) (by rw [hidle']), hidle, hidle']
  dsimp only
  rw [Program.bind_of_ok hwal, Program.bind_of_ok (a := walOf []) (by rw [hopen]), hdisk, hopen,
    Subsingleton.elim ((WriteAheadLog.open : Store Unit WriteAheadLog) () {}).memory ()]
  exact ⟨rfl, rfl⟩

theorem sound_created : Sound {} 0 none :=
  ⟨⟨Reached.empty.lawful, fun _ => rfl, nofun, nofun, nofun⟩, nofun, nofun, by decide, le_rfl, le_rfl, le_rfl, by decide, by decide,
    ⟨{}, rfl⟩, fun _ => ⟨rfl, rfl⟩, nofun⟩

theorem held_created : Held {} 0 none created := ⟨logHeld_file [] (.inl rfl), rfl, fun _ => ⟨rfl, rfl⟩, rfl, rfl⟩

theorem represents_created : Represents {} created := held_created.represents sound_created

theorem whole_created : Record.Whole {} := ⟨rfl, fun _ u hu => by cases hu; decide⟩

/-! ### Runs -/

/-- Where a store stands: open, or stopped with a disk that has one of two records. -/
inductive Situation
  | running (record : Record) (engine : FileEngine) (disk : Disk)
  | stopped (before after : Record) (disk : Disk)

section Runs
variable (options : StoreOptions)

/-- The directory opens as this store. -/
def Opens (d : Disk) (e : FileEngine) (d' : Disk) : Prop :=
  (FileEngine.open options () d).result = .ok e ∧ (FileEngine.open options () d).disk = d'

theorem Opens.fresh {options : StoreOptions} {e : FileEngine} {d : Disk} (h : Opens options {} e d) : Opens options created e d := by
  obtain ⟨hresult, hdisk⟩ := open_fresh _
  exact ⟨hresult.symm.trans h.1, hdisk.symm.trans h.2⟩

theorem Opens.unique {options : StoreOptions} {e e' : FileEngine} {d d₁ d₂ : Disk} (h : Opens options d e d₁) (h' : Opens options d e' d₂) :
    e = e' ∧ d₁ = d₂ :=
  ⟨Except.ok.inj (h.1.symm.trans h'.1), h.2.symm.trans h'.2⟩

/-- All that may happen to a store. A call returns, or is refused, or fails; a crash comes in the middle of a
    call, of opening, or while nothing runs. Opened again, the store has the record that it shows. -/
inductive Step : Situation → Situation → Prop
  | call {r : Record} {e : FileEngine} {d : Disk} {op : Op} (meets : op.Meets r) (ok : (op.program e d).result = .ok ()) :
      Step (.running r e d) (.running (op.after r) (op.program e d).memory (op.program e d).disk)
  | refuse {r : Record} {e : FileEngine} {d : Disk} {op : Op} {x : Error} (meets : op.Meets r) (failed : (op.program e d).result = .error x)
      (writable : (op.program e d).memory.recoveryRequired = false) :
      Step (.running r e d) (.running r (op.program e d).memory (op.program e d).disk)
  | fail {r : Record} {e : FileEngine} {d : Disk} {op : Op} {x : Error} (meets : op.Meets r) (failed : (op.program e d).result = .error x) :
      Step (.running r e d) (.stopped r (op.after r) (op.program e d).disk)
  | crash {r : Record} {e : FileEngine} {d i d' : Disk} {op : Op} (meets : op.Meets r) (image : i ∈ (op.program e d).images) (crashed : Crashed i d') :
      Step (.running r e d) (.stopped r (op.after r) d')
  | close {r : Record} {e : FileEngine} {d : Disk} : Step (.running r e d) (.stopped r r d)
  | lose {r r' : Record} {d d' : Disk} (crashed : Crashed d d') : Step (.stopped r r' d) (.stopped r r' d')
  | interrupt {r r' : Record} {d i d' : Disk} (image : i ∈ (FileEngine.open options () d).images) (crashed : Crashed i d') :
      Step (.stopped r r' d) (.stopped r r' d')
  | reopen {r r' shown : Record} {e : FileEngine} {d d' : Disk} (opens : Opens options d e d') (one : shown = r ∨ shown = r') (shows : Shows shown e d') :
      Step (.stopped r r' d) (.running shown e d')

/-- The runs of a store that starts in a new directory. -/
inductive Run : Situation → Prop
  | start {e : FileEngine} {d : Disk} (opens : Opens options {} e d) : Run (.running {} e d)
  | step {s t : Situation} (run : Run s) (step : Step options s t) : Run t

/-- What recovery promises: an open store shows its record, and a stopped one opens and shows the record
    before the call that was stopped or the one after it. -/
def Situation.Recovers : Situation → Prop
  | running r e d => Shows r e d
  | stopped r r' d => ∃ e d', Opens options d e d' ∧ (Shows r e d' ∨ Shows r' e d')

/-- The invariant of a run. -/
def Situation.Holds : Situation → Prop
  | running r e d => Running r e d ∧ r.Whole
  | stopped r r' d => (r'.origin = r.origin ∧ (r'.commit = r.commit → r'.log.take r.commit = r.log.take r.commit)) ∧
      (Represents r d ∧ r.Whole ∨ Represents r' d ∧ r'.Whole)

variable {options} (cluster : options.commitOnAppend = false)
include cluster

theorem Represents.opens {r : Record} {d : Disk} (h : Represents r d) : ∃ e d', Opens options d e d' ∧ Running r e d' := by
  obtain ⟨e, hopen, hrunning, -⟩ := (open_spec cluster fun _ _ _ => False).returns (s := ()) h
  exact ⟨e, _, ⟨hopen, rfl⟩, hrunning⟩

theorem Represents.interrupted {r : Record} {d i : Disk} (h : Represents r d) (image : i ∈ (FileEngine.open options () d).images) :
    Represents r i :=
  (open_spec cluster (fun _ _ _ => True) () d h).1 i image

theorem Situation.Holds.recovers {s : Situation} (h : s.Holds) : s.Recovers options := by
  cases s with
  | running r e d => exact h.1.shows h.2
  | stopped r r' d =>
    rcases h.2 with ⟨hdisk, hwhole⟩ | ⟨hdisk, hwhole⟩
    · obtain ⟨e, d', hopens, hrunning⟩ := hdisk.opens cluster
      exact ⟨e, d', hopens, .inl (hrunning.shows hwhole)⟩
    · obtain ⟨e, d', hopens, hrunning⟩ := hdisk.opens cluster
      exact ⟨e, d', hopens, .inr (hrunning.shows hwhole)⟩

theorem Run.holds {s : Situation} (run : Run options s) : s.Holds := by
  induction run with
  | start opens =>
    obtain ⟨e', d', hopens, hrunning⟩ := represents_created.opens cluster
    obtain ⟨rfl, rfl⟩ := opens.fresh.unique hopens
    exact ⟨hrunning, whole_created⟩
  | step _ step ih =>
    cases step with
    | call meets ok =>
      obtain ⟨hrunning, hwhole⟩ := ih
      obtain ⟨-, hresult⟩ := Op.achieves hwhole hrunning.committed meets _ _ hrunning
      rw [ok] at hresult
      refine ⟨hresult, (Op.whole hwhole hrunning.committed meets).resolve_right fun hrefused => ?_⟩
      obtain ⟨-, hrefused⟩ := hrefused _ _ hrunning
      rwa [ok] at hrefused
    | refuse meets failed writable =>
      obtain ⟨hrunning, hwhole⟩ := ih
      obtain ⟨-, hresult⟩ := Op.achieves hwhole hrunning.committed meets _ _ hrunning
      rw [failed] at hresult
      rcases hresult with hrunning | ⟨hrequired, -⟩
      · exact ⟨hrunning, hwhole⟩
      · exact nomatch hrequired.symm.trans writable
    | fail meets failed =>
      obtain ⟨hrunning, hwhole⟩ := ih
      obtain ⟨-, hresult⟩ := Op.achieves hwhole hrunning.committed meets _ _ hrunning
      rw [failed] at hresult
      refine ⟨⟨Op.origin _ _, Op.committed hrunning.committed _⟩, ?_⟩
      rcases hresult with hrunning | ⟨-, hdisk | hdisk⟩
      · exact .inl ⟨hrunning.represents, hwhole⟩
      · exact .inl ⟨hdisk, hwhole⟩
      · rcases Op.whole hwhole hrunning.committed meets with hwhole' | hrefused
        · exact .inr ⟨hdisk, hwhole'⟩
        · obtain ⟨-, hrefused⟩ := hrefused _ _ hrunning
          rw [failed] at hrefused
          exact .inl ⟨hrefused.represents, hwhole⟩
    | crash meets image crashed =>
      obtain ⟨hrunning, hwhole⟩ := ih
      obtain ⟨himages, -⟩ := Op.achieves hwhole hrunning.committed meets _ _ hrunning
      refine ⟨⟨Op.origin _ _, Op.committed hrunning.committed _⟩, ?_⟩
      rcases himages _ image _ crashed with hdisk | hdisk
      · exact .inl ⟨hdisk, hwhole⟩
      · refine .inr ⟨hdisk, (Op.whole hwhole hrunning.committed meets).resolve_right fun hrefused => ?_⟩
        exact (hrefused _ _ hrunning).1 _ image
    | close => exact ⟨⟨rfl, fun _ => rfl⟩, .inl ⟨ih.1.represents, ih.2⟩⟩
    | lose crashed =>
      obtain ⟨hsame, hdisk⟩ := ih
      exact ⟨hsame, hdisk.imp (fun h => ⟨h.1.crashed crashed, h.2⟩) fun h => ⟨h.1.crashed crashed, h.2⟩⟩
    | interrupt image crashed =>
      obtain ⟨hsame, hdisk⟩ := ih
      exact ⟨hsame, hdisk.imp (fun h => ⟨(h.1.interrupted cluster image).crashed crashed, h.2⟩)
        fun h => ⟨(h.1.interrupted cluster image).crashed crashed, h.2⟩⟩
    | reopen opens one shows =>
      obtain ⟨⟨horigin, hsame⟩, hdisk⟩ := ih
      rcases hdisk with ⟨hdisk, hwhole⟩ | ⟨hdisk, hwhole⟩
      · obtain ⟨e', d', hopens, hrunning⟩ := hdisk.opens cluster
        obtain ⟨rfl, rfl⟩ := opens.unique hopens
        rcases one with rfl | rfl
        · exact ⟨hrunning, hwhole⟩
        · exact (hrunning.shows hwhole).unique shows horigin hsame ▸ ⟨hrunning, hwhole⟩
      · obtain ⟨e', d', hopens, hrunning⟩ := hdisk.opens cluster
        obtain ⟨rfl, rfl⟩ := opens.unique hopens
        rcases one with rfl | rfl
        · exact shows.unique (hrunning.shows hwhole) horigin hsame ▸ ⟨hrunning, hwhole⟩
        · exact ⟨hrunning, hwhole⟩

end Runs

/-! ### A reused name -/

/-- The store after calls that all return. -/
def calls : List Op → FileEngine → Disk → Option (FileEngine × Disk)
  | [], e, d => some (e, d)
  | op :: ops, e, d =>
    match op.program e d with
    | ⟨.ok _, e', d', _⟩ => calls ops e' d'
    | _ => none

def reopened (options : StoreOptions) (d : Disk) : Option (FileEngine × Disk) :=
  match FileEngine.open options () d with
  | ⟨.ok e, _, d', _⟩ => some (e, d')
  | _ => none

theorem opens_of_reopened {options : StoreOptions} {e : FileEngine} {d d' : Disk} (h : reopened options d = some (e, d')) :
    Opens options d e d' := by
  unfold reopened at h
  unfold Opens
  cases hopen : FileEngine.open options () d with
  | mk result memory disk images =>
    rw [hopen] at h
    cases result with
    | error x => cases h
    | ok e' =>
      cases h
      exact ⟨rfl, rfl⟩

/-- Nothing that a crash could bring back. -/
def Settles (d : Disk) : Prop := d.pruned = .empty ∧ d.tail = [] ∧ d.removed = none

instance (d : Disk) : Decidable (Settles d) := inferInstanceAs (Decidable (_ ∧ _ ∧ _))

theorem Settles.crashed {d : Disk} (h : Settles d) : Crashed d d :=
  ⟨fun _ => .inl rfl, rfl, .inl rfl, .inl rfl, h.1, h.2.1, h.2.2⟩

def clusterOptions : StoreOptions := { commitOnAppend := false }

/-- A creation with the ids of the no-op. -/
def reused : Event := { creation ⟨"show", Eq.refl true⟩ with id := firstNoOp.id, commandId := firstNoOp.commandId, index := 2 }

/-- The snapshot of the state restores it. -/
def restores (s : ChoreographyState) : Bool :=
  match restoreState (snapshotPayload s) with
  | .ok t => t.toDomain = s.toDomain ∧ t.receipts = s.receipts ∧ snapshotPayload t = snapshotPayload s
  | .error _ => false

/-- The no-op is committed and a snapshot taken; after a crash, the other event is committed; after another
    crash, the store is opened. -/
def reuse : Option ((FileEngine × Disk) × (FileEngine × Disk) × (FileEngine × Disk)) := do
  let start ← reopened clusterOptions {}
  let first ← calls [.append firstNoOp, .commit 1, .checkpoint] start.1 start.2
  let again ← reopened clusterOptions first.2
  let second ← calls [.append reused, .commit 2] again.1 again.2
  return (first, second, ← reopened clusterOptions second.2)

set_option maxRecDepth 20000 in
theorem reuse_returns : (reuse.any fun run => Settles run.1.2 ∧ Settles run.2.1.2 ∧ restores run.1.1.state ∧ restores run.2.1.1.state ∧
    run.2.2.1.commitIndex = 2 ∧ run.2.2.1.wal.events = [firstNoOp, reused]) = true := by
  decide +kernel

/-- Calls that each meet their condition where they are made. -/
def AllMeet : Record → List Op → Prop
  | _, [] => True
  | r, op :: ops => op.Meets r ∧ AllMeet (op.after r) ops

theorem Run.calls {options : StoreOptions} {ops : List Op} {r : Record} {e : FileEngine} {d : Disk} {last : FileEngine × Disk}
    (run : Run options (.running r e d)) (meets : AllMeet r ops) (h : calls ops e d = some last) :
    Run options (.running (ops.foldl Op.after r) last.1 last.2) := by
  induction ops generalizing r e d with
  | nil =>
    cases h
    exact run
  | cons op ops ih =>
    unfold Storage.calls at h
    have hcall := @Step.call options r e d op meets.1
    cases hprogram : op.program e d with
    | mk result memory disk images =>
      rw [hprogram] at h hcall
      cases result with
      | error x => cases h
      | ok a => exact ih (.step run (hcall rfl)) meets.2 h

end Choreolog.Storage
