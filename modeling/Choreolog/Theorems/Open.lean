import Choreolog.Theorems.Held

/-! # Opening a directory

A disk that represents a record opens, whatever was cut short on it, and the store shows that record. -/

namespace Choreolog.Storage
open Lib State

/-! ### Reading the files -/

section Reading
variable {μ : Type} {r : Record} {b : Nat} {newest : Option ChoreographyState} {d : Disk}

theorem loadMetadata_held {m : NodeMetadata} (h : MetaHeld m d.metadata) (s : μ) : loadMetadata s d = ⟨.ok m, s, d, []⟩ := by
  unfold loadMetadata
  rw [Program.bind_of_ok (a := d) rfl]
  unfold MetaHeld at h
  cases hfile : d.metadata with
  | none =>
    rw [hfile] at h
    simp only [Program.disk, h]
    rfl
  | some file =>
    rw [hfile] at h
    simp only [Program.disk, h]
    rfl

/-- The snapshot of a state is read back. -/
theorem Covers.readSnapshot {c : ChoreographyState} (h : Covers r b c) {bytes : File} (encoded : encodeSnapshot c = .ok bytes) :
    Storage.readSnapshot bytes = .ok (.ofState c) := by
  obtain ⟨hlen, rfl⟩ := encodeSnapshot_cases encoded
  exact (fileOf h.regular hlen).readSnapshot h.regular (verifySnapshot_ofState h.regular h.faithful)

theorem loadLatestSnapshot_held (sound : Sound r b newest) (h : NewestHeld newest d.snapshots d.pruned) (s : μ) :
    loadLatestSnapshot s d = ⟨.ok (newest.map Snapshot.ofState), s, d, []⟩ := by
  unfold loadLatestSnapshot
  rw [Program.bind_of_ok (a := d) rfl]
  cases newest with
  | none =>
    rw [snapshotFiles_bare h]
    rfl
  | some c =>
    obtain ⟨bytes, hbytes, hheld⟩ := h
    have hcovers := sound.newest c rfl
    obtain ⟨rest, hfiles, -⟩ := snapshotFiles_newest hheld ((hcovers.committed.trans sound.commit).trans_lt sound.short)
    rw [hfiles, List.findSome?_cons, hcovers.readSnapshot hbytes]
    rfl

theorem load_spec {events : List Event} (logged : ∀ e ∈ events, Logged e) {P : Disk → Prop}
    (held : ∀ d, P d → LogHeld events d.wal d.tail)
    (shrink : ∀ d part, P d → d.wal = some (walFile events ++ part) →
      P { d with wal := some (walFile events), tail := part ++ d.tail }) (error : Error → μ → Disk → Prop) :
    Program.Triple (fun _ d => P d) (WriteAheadLog.load : Store μ WriteAheadLog)
      (fun wal _ d => wal = walOf events ∧ P d ∧ d.wal = some (walFile events)) error P := by
  refine .bind_disk fun d => .fact (fun _ _ h => (h.1 ▸ h.2 : P d)) fun hP => ?_
  obtain ⟨part, hwal, htorn, -⟩ := held d hP
  have hlog : (⟨(events.zip (endsFrom fileHeaderBytes events)).map Prod.fst, (events.zip (endsFrom fileHeaderBytes events)).map Prod.snd⟩ :
      WriteAheadLog) = walOf events := by
    rw [List.map_fst_zip (length_endsFrom _ _).ge, List.map_snd_zip (length_endsFrom _ _).le]
    rfl
  simp only [hwal]
  refine .bind_of (readWal_file logged htorn) ?_
  simp only [hlog, fileEnd_walOf]
  refine .ite (fun _ => ?_) fun hge => ?_
  · -- The torn record is cut off; it may still come back.
    have hcut : ∀ e, e = d ∧ P e → ({ e with
        wal := e.wal.map (·.take (walFile events).length)
        tail := (e.wal.getD []).drop (walFile events).length ++ e.tail } : Disk) =
        { d with wal := some (walFile events), tail := part ++ d.tail } := by
      rintro e ⟨rfl, -⟩
      simp only [hwal, Option.map_some, Option.getD_some, List.take_left, List.drop_left]
    refine .bind (fun _ _ e => e = { d with wal := some (walFile events), tail := part ++ d.tail }) (.write ?_ ?_) fun _ => ?_
    · exact fun _ e he => hcut e he
    · intro _ e he
      refine ⟨he.2, nofun, ?_⟩
      rw [hcut e he]
      exact shrink d part hP hwal
    · refine .strengthen (.pure _) ?_
      rintro _ _ rfl
      exact ⟨rfl, shrink d part hP hwal, rfl⟩
  · refine .strengthen (.pure _) ?_
    rintro _ _ ⟨rfl, -⟩
    have hnil : part = [] := by
      rw [List.length_append] at hge
      exact List.length_eq_zero_iff.mp (by omega)
    exact ⟨rfl, hP, by rw [hwal, hnil, List.append_nil]⟩

end Reading

/-! ### Rebuilding the state -/

section Rebuilding
variable {r : Record} {b : Nat} {newest : Option ChoreographyState}

/-- The state from which a log is replayed. -/
def startState (newest : Option ChoreographyState) : ChoreographyState := (newest.map restored).getD {}

def startIndex (newest : Option ChoreographyState) : Nat := (newest.map (·.lastApplied)).getD 0

theorem mem_historyThrough {log : List Event} (h : Indexed log) {n : Nat} {e : Event}
    (he : e ∈ FileEngine.historyThrough (log.drop b) n) : b = 0 ∧ e ∈ log.take n := by
  unfold FileEngine.historyThrough at he
  split at he
  · rename_i hwhole
    rw [Bool.and_eq_true, Option.any_eq_true] at hwhole
    obtain ⟨⟨first, hfirst, hone⟩, -⟩ := hwhole
    rw [decide_eq_true_eq, h.head hfirst] at hone
    obtain rfl : b = 0 := by omega
    rw [h.takeWhile] at he
    exact ⟨rfl, he⟩
  · cases he

theorem restoreSnapshot_sound (sound : Sound r b newest) :
    FileEngine.restoreSnapshot (r.log.drop b) r.commit (newest.map Snapshot.ofState) =
      .ok ⟨startState newest, newest.map Snapshot.ofState, startIndex newest⟩ := by
  cases newest with
  | none => rfl
  | some c =>
    have hcovers := sound.newest c rfl
    obtain ⟨u, hreplay, hview⟩ := hcovers.view
    have hhistory : restoreReceipts (restored c) (FileEngine.historyThrough (r.log.drop b) c.lastApplied) = restored c := by
      refine View.restoreReceipts_eq fun e he htype => ?_
      obtain ⟨rfl, hmem⟩ := mem_historyThrough sound.indexed he
      rw [hview.receipts]
      exact sound.receipts hcovers.offset hreplay e hmem htype
    unfold FileEngine.restoreSnapshot
    change (if r.commit < c.lastApplied then _ else _) = _
    rw [if_neg (not_lt.mpr hcovers.committed), verifySnapshot_ofState hcovers.regular hcovers.faithful]
    change (if (Snapshot.ofState c).legacy = true then _ else _) = _
    rw [legacy_ofState, if_neg Bool.false_ne_true]
    change Except.ok _ = _
    rw [show (Snapshot.ofState c).index = c.lastApplied from rfl, hhistory]
    rfl

/-- What the store starts from is a part of the history up to there. -/
structure Starts (r : Record) (b : Nat) (newest : Option ChoreographyState) : Prop where
  base : b ≤ startIndex newest
  offset : r.offset ≤ startIndex newest
  committed : startIndex newest ≤ r.commit
  lawful : Lawful (startState newest)
  index : (startState newest).lastApplied = startIndex newest
  view : ∃ v, r.replay (startIndex newest) = .ok v ∧ View v (startState newest)

theorem Sound.starts (sound : Sound r b newest) : Starts r b newest := by
  cases hnewest : newest with
  | none =>
    obtain ⟨rfl, hoffset⟩ := sound.bare hnewest
    have horigin := sound.rooted.empty hoffset
    refine ⟨le_rfl, hoffset.le, Nat.zero_le _, Reached.empty.lawful, rfl, {}, ?_, .refl .empty⟩
    unfold Record.replay
    rw [horigin, startIndex, Option.map_none, Option.getD_none, List.take_zero, List.drop_nil]
    rfl
  | some c =>
    have hcovers := sound.newest c hnewest
    exact ⟨hcovers.base, hcovers.offset, hcovers.committed, .restored hcovers.regular, rfl, hcovers.view⟩

theorem replayed_eq (sound : Sound r b newest) : FileEngine.replayed (r.log.drop b) (startIndex newest) r.commit =
    (r.log.take r.commit).drop (startIndex newest) := by
  unfold FileEngine.replayed
  rw [← sound.indexed.filter _ _ sound.starts.base, ← sound.indexed.takeWhile]
  congr 2
  funext e
  have := sound.starts.committed
  rw [decide_eq_decide]
  omega

/-- The log after the start leads to a view of the committed history. -/
theorem replayed_sound (sound : Sound r b newest) {u : ChoreographyState} (replays : r.replay r.commit = .ok u) :
    ∃ state, (FileEngine.replayed (r.log.drop b) (startIndex newest) r.commit).foldlM apply (startState newest) = .ok state ∧
      View u state := by
  have hstarts := sound.starts
  obtain ⟨v, hv, hview⟩ := hstarts.view
  obtain ⟨hlawful, hlast, -⟩ := sound.replayed hstarts.offset (hstarts.committed.trans sound.commit) hv
  rw [Record.replay_extend hstarts.offset hstarts.committed hv] at replays
  rw [replayed_eq sound]
  exact hview.replay hlawful (Record.follows sound.indexed sound.rooted.fits hstarts.offset hlast) replays

/-- A snapshot has the term of the entry that it ends with. -/
theorem Sound.term_newest (sound : Sound r b newest) {c : ChoreographyState} (hc : newest = some c) {e : Event}
    (entry : r.log[c.lastApplied - 1]? = some e) : e.term = c.term := by
  have hcovers := sound.newest c hc
  obtain ⟨u, hreplay, hview⟩ := hcovers.view
  obtain ⟨-, -, hterm⟩ := sound.replayed hcovers.offset (hcovers.committed.trans sound.commit) hreplay
  rw [lastTerm, List.getLast?_take, if_neg hcovers.positive.ne', entry, Option.some_or] at hterm
  have hsame : c.term = u.term := congrArg Domain.term (hcovers.faithful.symm.trans hview.domain)
  rw [hsame, hterm]
  rfl

/-- The record as the opened store replays it: from the newest snapshot. -/
def Record.reroot (r : Record) (newest : Option ChoreographyState) : Record := { r with origin := startState newest }

theorem Sound.offset_reroot (sound : Sound r b newest) : (r.reroot newest).offset = startIndex newest :=
  sound.starts.index

theorem Sound.reroot (sound : Sound r b newest) : Sound (r.reroot newest) b newest := by
  have hstarts := sound.starts
  have hoffset := sound.offset_reroot
  obtain ⟨v, hv, hview⟩ := hstarts.view
  obtain ⟨u, hu⟩ := sound.history
  obtain ⟨state, hstate, -⟩ := replayed_sound sound hu
  refine ⟨⟨hstarts.lawful, ?_, ?_, ?_, ?_⟩, sound.logged, sound.indexed, sound.short, sound.base, ?_, sound.commit,
    sound.positive, sound.term, ⟨state, ?_⟩, ?_, ?_⟩
  · intro hzero
    cases hnewest : newest with
    | none => rfl
    | some c =>
      have hpositive := (sound.newest c hnewest).positive
      rw [hoffset, hnewest] at hzero
      exact absurd hzero hpositive.ne'
  · rw [hoffset]
    intro e he
    refine sound.rooted.fits e ?_
    rw [← Nat.add_sub_cancel' hstarts.offset, ← List.drop_drop] at he
    exact List.mem_of_mem_drop he
  · rw [hoffset]
    intro e he hpos
    cases hnewest : newest with
    | none =>
      rw [hnewest] at hpos
      exact absurd hpos (lt_irrefl 0)
    | some c =>
      rw [hnewest] at he
      exact sound.term_newest hnewest he
  · rw [hoffset]
    rintro rfl e he htype
    rw [show (r.reroot newest).origin = startState newest from rfl, hview.receipts]
    exact sound.receipts hstarts.offset hv e he htype
  · rw [hoffset]
    exact hstarts.committed
  · unfold Record.replay
    rw [hoffset]
    exact (congrArg _ (replayed_eq sound).symm).trans hstate
  · intro hnone
    rw [hoffset, hnone]
    exact ⟨(sound.bare hnone).1, rfl⟩
  · rintro c rfl
    have hcovers := sound.newest c rfl
    refine { hcovers with offset := (hoffset.trans rfl).le, view := ⟨restored c, ?_, .refl ?_⟩ }
    · unfold Record.replay
      rw [hoffset, show startIndex (some c) = c.lastApplied from rfl, List.drop_take, Nat.sub_self, List.take_zero]
      rfl
    · exact hstarts.lawful.regular

theorem joinSnapshot_sound {μ : Type} (sound : Sound r b newest) (s : μ) (d : Disk) :
    FileEngine.joinSnapshot (walOf (r.log.drop b)) r.metadata (newest.map Snapshot.ofState) s d =
      ⟨.ok (walOf (r.log.drop b)), s, d, []⟩ := by
  cases hnewest : newest with
  | none => rfl
  | some c =>
    have hcovers := sound.newest c hnewest
    have hle := hcovers.committed
    have hbase := hcovers.base
    have hcommit := sound.commit
    unfold FileEngine.joinSnapshot
    simp only [Option.map_some, walOf]
    cases hfirst : (r.log.drop b).head? with
    | none => rfl
    | some first =>
      cases hlast : (r.log.drop b).getLast? with
      | none => rfl
      | some last =>
        have hf := sound.indexed.head hfirst
        obtain ⟨hl, -⟩ := sound.indexed.getLast hlast
        have hterm : ((walOf (r.log.drop b)).logEntry c.lastApplied).any (fun e => e.term ≠ c.term) = false := by
          rw [logEntry_walOf sound.indexed, Option.any_eq_false]
          intro e he
          split at he
          · rw [sound.term_newest hnewest he]
            simp
          · cases he
        change (if last.index < c.lastApplied then _ else if c.lastApplied < first.index ∧ first.index - c.lastApplied ≠ 1 then _
          else if ((walOf (r.log.drop b)).logEntry c.lastApplied).any (fun e => e.term ≠ c.term) = true then _ else _ : Store μ _) s d = _
        rw [if_neg (by omega), if_neg (by omega), if_neg (by rw [hterm]; exact Bool.false_ne_true)]
        rfl

end Rebuilding

/-! ### The open store -/

/-- A store that can be written and shows the record of its disk. -/
structure Serves (r : Record) (b : Nat) (newest : Option ChoreographyState) (e : FileEngine) (d : Disk) : Prop
    extends Held r b newest d where
  file : d.wal = some (walFile (r.log.drop b))
  events : e.wal = walOf (r.log.drop b)
  state : ∃ u, r.replay r.commit = .ok u ∧ View u e.state
  commitIndex : e.commitIndex = r.commit
  snapshot : e.snapshot = newest.map Snapshot.ofState
  cluster : e.options.commitOnAppend = false
  writable : e.recoveryRequired = false

/-- The disk has the files of the record. -/
def Resting (r : Record) (d : Disk) : Prop := ∃ b newest, Sound r b newest ∧ Held r b newest d

def Running (r : Record) (e : FileEngine) (d : Disk) : Prop := ∃ b newest, Sound r b newest ∧ Serves r b newest e d

/-- A decided install leads to the record. -/
def Pending (r : Record) (d : Disk) : Prop := ∃ t bytes other, SnapshotTransaction.encode t = .ok bytes ∧
  Basis t (fun _ => False) other ∧ Stage t bytes (fun _ => False) other d ∧ ∀ d', Installed t other d' → d'.removed = none → Resting r d'

/-- Opening the disk has to find the record. -/
def Represents (r : Record) (d : Disk) : Prop := Resting r d ∨ Pending r d

section Opening
variable {r : Record} {b : Nat} {newest : Option ChoreographyState} {μ : Type}

theorem Represents.crashed {d d' : Disk} (h : Represents r d) (c : Crashed d d') : Represents r d' := by
  rcases h with ⟨b, newest, hsound, hheld⟩ | ⟨t, bytes, other, hencoded, hbasis, hstage, hdone⟩
  · exact .inl ⟨b, newest, hsound, hheld.crashed c⟩
  · exact .inr ⟨t, bytes, other, hencoded, hbasis, hstage.crashed hbasis c, hdone⟩

/-- The store shows the record as it replays it. -/
theorem Serves.reroot {e : FileEngine} {d : Disk} (h : Serves r b newest e d) {u : ChoreographyState}
    (replays : (r.reroot newest).replay r.commit = .ok u) (view : View u e.state) : Serves (r.reroot newest) b newest e d :=
  { h with toHeld := { h.toHeld with }, state := ⟨u, replays, view⟩ }

theorem retained_view {u : ChoreographyState} (store : FileEngine) (h : View u store.state) (history : History u) (anchor : Nat) :
    ∃ state, store.retained anchor = .ok { store with state } ∧ View u state := by
  unfold FileEngine.retained
  split
  · obtain ⟨state, hstate, hview⟩ := h.retains history anchor
    exact ⟨state, by rw [hstate]; rfl, hview⟩
  · exact ⟨store.state, rfl, h⟩

theorem recover_represents (error : Error → μ → Disk → Prop) :
    Program.Triple (fun _ d => Represents r d) (recoverSnapshotTransaction : Store μ Unit) (fun _ _ d => Resting r d) error
      (Represents r) := by
  rintro s d (⟨b, newest, hsound, hheld⟩ | ⟨t, bytes, other, hencoded, hbasis, hstage, hdone⟩)
  · rw [recoverSnapshotTransaction_idle s hheld.journal hheld.removed]
    refine ⟨fun i hi => ?_, b, newest, hsound, hheld⟩
    obtain rfl : i = d := by simpa using hi
    exact .inl ⟨b, newest, hsound, hheld⟩
  · have htriple : Program.Triple (fun _ d => Stage t bytes (fun _ => False) other d) (recoverSnapshotTransaction : Store μ Unit)
        (fun _ _ d => Resting r d) error (Represents r) :=
      (recoverSnapshotTransaction_spec hbasis hencoded error).consequence (fun _ _ h => h)
        (fun _ _ d' h => hdone d' (h.files.resolve_left id) h.removed) (fun _ _ _ h => h)
        fun d' h => .inr ⟨t, bytes, other, hencoded, hbasis, h, hdone⟩
    exact htriple s d hstage

/-- What an opened store is: it shows the record, also as it replays it, and then exactly unless it forgets
    history. -/
structure Opened (r : Record) (b : Nat) (newest : Option ChoreographyState) (options : StoreOptions) (e : FileEngine) (d : Disk) : Prop
    extends Serves r b newest e d where
  opened : e.options = options
  rerooted : Serves (r.reroot newest) b newest e d
  exact : options.compactLog = false → (r.reroot newest).replay r.commit = .ok e.state

/-- The log is read, and a torn record is cut off. -/
theorem openLog_held (sound : Sound r b newest) (error : Error → μ → Disk → Prop) :
    Program.Triple (fun _ d => Held r b newest d) (WriteAheadLog.open : Store μ WriteAheadLog)
      (fun wal _ d => wal = walOf (r.log.drop b) ∧ Held r b newest d ∧ d.wal = some (walFile (r.log.drop b))) error
      (Held r b newest) := by
  refine .bind_disk fun d => .fact (fun _ _ h => (h.1 ▸ h.2 : Held r b newest d)) fun hheld => .ite (fun hnone => ?_) fun _ => ?_
  · obtain ⟨part, hwal, -⟩ := hheld.wal
    rw [hwal] at hnone
    cases hnone
  · refine .strengthen (load_spec sound.logged (fun _ h => h.wal) (fun d part h hwal => ?_) error) fun _ _ h => h.2
    obtain ⟨part', hwal', -, htail⟩ := h.wal
    obtain rfl : part' = part := List.append_cancel_left (Option.some.inj (hwal'.symm.trans hwal))
    exact ⟨⟨[], by rw [List.append_nil], .inl rfl, htail⟩, h.metadata, h.snapshots, h.journal, h.removed⟩

/-- Once a pending install is finished, the rest of opening finds the record. -/
theorem open_recovered {options : StoreOptions} (cluster : options.commitOnAppend = false) {pre : μ → Disk → Prop}
    {error : Error → μ → Disk → Prop} {crash : Disk → Prop} {choice : Nat → Option ChoreographyState → Prop}
    (recovered : Program.Triple pre (recoverSnapshotTransaction : Store μ Unit)
      (fun _ _ d => ∃ b newest, (choice b newest ∧ Sound r b newest) ∧ Held r b newest d) error crash)
    (resting : ∀ b newest d, choice b newest → Sound r b newest → Held r b newest d → crash d) :
    Program.Triple pre (FileEngine.open options : Store μ FileEngine)
      (fun e _ d => ∃ b newest, (choice b newest ∧ Sound r b newest) ∧ Opened r b newest options e d) error crash := by
  refine .bind _ recovered fun _ => .any fun b => .any fun newest => .fact (fun _ _ h => h.1) fun ⟨hchoice, sound⟩ => ?_
  have hcrash : ∀ d, Held r b newest d → crash d := fun d h => resting b newest d hchoice sound h
  refine .bind _ ((openLog_held sound error).consequence (fun _ _ h => h.2) (fun _ _ _ h => h) (fun _ _ _ h => h) hcrash) fun wal =>
    .fact (fun _ _ h => h.1) fun hwal => ?_
  subst hwal
  obtain ⟨u, hreplay⟩ := sound.history
  obtain ⟨state, hstate, hview⟩ := replayed_sound sound hreplay
  obtain ⟨hlawful, hlast, -⟩ := sound.replayed sound.offset sound.commit hreplay
  have hrerooted : (r.reroot newest).replay r.commit = .ok state := by
    rw [replayed_eq sound] at hstate
    unfold Record.replay
    rw [sound.offset_reroot]
    exact hstate
  obtain ⟨hlawful', -⟩ := sound.reroot.replayed sound.reroot.offset sound.commit hrerooted
  have happlied : state.lastApplied = r.commit := by rw [hview.domain, hlast]
  have hlimit : (if options.commitOnAppend = true then 2 ^ 64 - 1 else r.metadata.commitIndex) = r.commit := by
    rw [cluster]
    rfl
  refine .ite (fun hnot => absurd (contiguous_drop sound.indexed b) hnot) fun _ => ?_
  refine .bind_returns (fun s d h => loadLatestSnapshot_held sound h.2.1.snapshots s) ?_
  refine .bind_returns (fun s d h => loadMetadata_held h.2.1.metadata s) ?_
  rw [hlimit]
  refine .bind_of (restoreSnapshot_sound sound) (.ite (fun hbad => ?_) fun _ => ?_)
  · obtain ⟨hstart, hfirst⟩ := hbad
    obtain ⟨first, hfirst, hlate⟩ := (Option.any_eq_true _ _).mp hfirst
    rw [decide_eq_true_eq, sound.indexed.head hfirst] at hlate
    cases hnewest : newest with
    | none =>
      obtain ⟨hbase, -⟩ := sound.bare hnewest
      omega
    | some c =>
      have hpos := (sound.newest c hnewest).positive
      rw [hnewest] at hstart
      exact absurd hstart hpos.ne'
  refine .bind_returns (fun s d _ => joinSnapshot_sound sound s d) (.bind_of hstate (.ite (fun hshort => ?_) fun _ => ?_))
  · exact absurd hshort (by rw [happlied]; exact lt_irrefl _)
  refine .bind_returns (a := r.commit) (fun s d _ => ?_) ?_
  · unfold FileEngine.updateMetadata
    rw [cluster]
    rfl
  let store : FileEngine := { options, wal := walOf (r.log.drop b), state, commitIndex := r.commit, snapshot := newest.map Snapshot.ofState }
  obtain ⟨state', hretained, hview'⟩ := retained_view store hview hlawful.history store.logFirstIndex
  obtain ⟨state'', hretained', hview''⟩ := retained_view store (.refl hlawful'.regular) hlawful'.history store.logFirstIndex
  obtain rfl : state'' = state' := congrArg FileEngine.state (Except.ok.inj (hretained'.symm.trans hretained))
  change Program.Triple _ (Program.of (store.retained store.logFirstIndex)) _ _ _
  rw [hretained]
  refine .of (fun e _ d he h => ?_) nofun
  cases he
  have hserves : Serves r b newest { store with state := state'' } d :=
    ⟨h.2.1, h.2.2, rfl, ⟨u, hreplay, hview'⟩, rfl, rfl, cluster, rfl⟩
  refine ⟨b, newest, ⟨hchoice, sound⟩, hserves, rfl, hserves.reroot hrerooted hview'', fun hkeep => ?_⟩
  have hsame : state = state'' := by
    unfold FileEngine.retained at hretained
    rw [if_neg (ne_true_of_eq_false hkeep)] at hretained
    exact congrArg FileEngine.state (Except.ok.inj hretained)
  exact hsame ▸ hrerooted

/-- The disk has the files, with this much of the log dropped and this snapshot. -/
theorem open_held {options : StoreOptions} (cluster : options.commitOnAppend = false) (sound : Sound r b newest)
    (error : Error → μ → Disk → Prop) : Program.Triple (fun _ d => Held r b newest d) (FileEngine.open options : Store μ FileEngine)
      (fun e _ d => Opened r b newest options e d) error (Held r b newest) := by
  have htriple : Program.Triple (fun (_ : μ) d => Held r b newest d) (FileEngine.open options : Store μ FileEngine)
      (fun e _ d => ∃ b' newest', ((b' = b ∧ newest' = newest) ∧ Sound r b' newest') ∧ Opened r b' newest' options e d) error
      (Held r b newest) := by
    refine open_recovered cluster (fun s d held => ?_) ?_
    · rw [recoverSnapshotTransaction_idle s held.journal held.removed]
      refine ⟨fun i hi => ?_, b, newest, ⟨⟨rfl, rfl⟩, sound⟩, held⟩
      obtain rfl : i = d := by simpa using hi
      exact held
    · rintro _ _ d ⟨rfl, rfl⟩ - held
      exact held
  refine htriple.consequence (fun _ _ h => h) ?_ (fun _ _ _ h => h) fun _ h => h
  rintro e _ d ⟨_, _, ⟨⟨rfl, rfl⟩, -⟩, hopened⟩
  exact hopened

theorem open_spec {options : StoreOptions} (cluster : options.commitOnAppend = false) (error : Error → μ → Disk → Prop) :
    Program.Triple (fun _ d => Represents r d) (FileEngine.open options : Store μ FileEngine)
      (fun e _ d => Running r e d ∧ e.options = options) error (Represents r) := by
  have htriple : Program.Triple (fun (_ : μ) d => Represents r d) (FileEngine.open options : Store μ FileEngine)
      (fun e _ d => ∃ b newest, (True ∧ Sound r b newest) ∧ Opened r b newest options e d) error (Represents r) := by
    refine open_recovered cluster ((recover_represents error).consequence (fun _ _ h => h) ?_ (fun _ _ _ h => h) fun _ h => h) ?_
    · rintro _ _ d ⟨b, newest, sound, held⟩
      exact ⟨b, newest, ⟨trivial, sound⟩, held⟩
    · exact fun b newest d _ sound held => .inl ⟨b, newest, sound, held⟩
  refine htriple.consequence (fun _ _ h => h) ?_ (fun _ _ _ h => h) fun _ h => h
  rintro e _ d ⟨b, newest, ⟨-, sound⟩, hopened⟩
  exact ⟨⟨b, newest, sound, hopened.toServes⟩, hopened.opened⟩

end Opening

end Choreolog.Storage
