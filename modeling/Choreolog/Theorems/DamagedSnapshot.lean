import Choreolog.Theorems.Fallback

/-! # A damaged snapshot

In every run of a store without installs, the newest snapshot file can be damaged at any moment: the directory
still opens, with the same commit index, state and receipts. -/

namespace Choreolog.Storage
open Lib State

/-- The newest snapshot file is replaced by bytes that do not verify. -/
def Damaged (d d' : Disk) : Prop := ∃ file rest bytes x, snapshotFiles d = file :: rest ∧ readSnapshot bytes = .error x ∧
  d' = d.withSnapshot file.name bytes

/-! ### Opening a damaged directory -/

section Opening
variable {r : Record} {b : Nat} {newest older : Option ChoreographyState} {d : Disk}

theorem Held.selected (held : Held r b newest d) (sound : Sound r b newest) : selected d = newest.map Snapshot.ofState := by
  have hload := loadLatestSnapshot_held sound held.snapshots ()
  exact Except.ok.inj (congrArg Outcome.result hload)

/-- Opening reads the log and the metadata of the record, whatever the snapshot files are. -/
theorem Held.reads (held : Held r b newest d) (sound : Sound r b newest) (snapshots : OrdMap String File) :
    ∃ read, Reads { d with snapshots } (walOf (r.log.drop b)) r.metadata read ∧ read.snapshots = snapshots := by
  obtain ⟨wal, hwal, rfl, hread, -⟩ := (openLog_held sound fun _ _ _ => False).returns (s := ()) held
  obtain ⟨hresult, -, hdisk⟩ := Blind.open () d snapshots
  refine ⟨{ (WriteAheadLog.open () d).disk with snapshots }, ⟨contiguous_drop sound.indexed b, ?_, { d with snapshots }, ?_, hresult.trans hwal, hdisk⟩, rfl⟩
  · rw [(Blind.loadMetadata () _ snapshots).1, loadMetadata_held hread.metadata]
  · exact (recovers_idle_iff (d := { d with snapshots }) held.journal).mpr (by rw [← held.removed])

/-- The store that is assembled from the log and a snapshot that covers what is gone from it. -/
theorem assemble_sound (options : StoreOptions) (sound : Sound r b newest) {u : ChoreographyState} (replays : r.replay r.commit = .ok u) :
    ∃ e, assemble options (walOf (r.log.drop b)) r.metadata (newest.map Snapshot.ofState) = .ok e ∧ e.commitIndex = r.commit ∧
      e.wal = walOf (r.log.drop b) ∧ View u e.state := by
  obtain ⟨state, hstate, hview⟩ := replayed_sound sound replays
  obtain ⟨hlawful, hlast, -⟩ := sound.replayed sound.offset sound.commit replays
  have hjoined : joined (walOf (r.log.drop b)) r.metadata (newest.map Snapshot.ofState) = .ok (walOf (r.log.drop b)) := by
    rw [← joinSnapshot_result _ _ _ () {}, joinSnapshot_sound sound]
  have hstart : ¬(startIndex newest = 0 ∧ (r.log.drop b).head?.any (1 < ·.index)) := by
    rintro ⟨hzero, hlate⟩
    obtain ⟨first, hfirst, hlate⟩ := (Option.any_eq_true _ _).mp hlate
    rw [decide_eq_true_eq, sound.indexed.head hfirst] at hlate
    have hbase := sound.starts.base
    omega
  let store : FileEngine := { options, wal := walOf (r.log.drop b), state, commitIndex := r.commit, snapshot := newest.map Snapshot.ofState }
  obtain ⟨state', hretained, hview'⟩ := retained_view store hview hlawful.history store.logFirstIndex
  refine ⟨{ store with state := state' }, ?_, rfl, rfl, hview'⟩
  unfold assemble
  rw [show (walOf (r.log.drop b)).events = r.log.drop b from rfl, show r.metadata.commitIndex = r.commit from rfl,
    restoreSnapshot_sound sound]
  change (if startIndex newest = 0 ∧ _ then _ else _ : Result FileEngine) = _
  rw [if_neg hstart]
  change (joined (walOf (r.log.drop b)) r.metadata (newest.map Snapshot.ofState) >>= _) = _
  rw [hjoined]
  change ((FileEngine.replayed (r.log.drop b) (startIndex newest) r.commit).foldlM apply (startState newest) >>= _) = _
  rw [hstate]
  change (if state.lastApplied < r.commit then _ else _ : Result FileEngine) = _
  rw [if_neg (by rw [hview.domain, hlast]; exact lt_irrefl _)]
  exact hretained

/-- With other snapshot files the directory opens as well, if the selected one covers what is gone from the log. -/
theorem Held.opens_selected {options : StoreOptions} (cluster : options.commitOnAppend = false) (held : Held r b newest d)
    (sound : Sound r b newest) (sound' : Sound r b older) {snapshots : OrdMap String File}
    (selects : Storage.selected { d with snapshots } = older.map Snapshot.ofState) {u : ChoreographyState} (replays : r.replay r.commit = .ok u) :
    ∃ e, (FileEngine.open options () { d with snapshots }).result = .ok e ∧ e.commitIndex = r.commit ∧ e.wal = walOf (r.log.drop b) ∧
      View u e.state := by
  obtain ⟨read, hreads, hsnapshots⟩ := held.reads sound snapshots
  obtain ⟨e, he, hfacts⟩ := assemble_sound options sound' replays
  refine ⟨e, (open_reads_iff cluster hreads).mpr ?_, hfacts⟩
  have hsame : Storage.selected read = Storage.selected { d with snapshots } := by
    unfold Storage.selected snapshotFiles
    rw [hsnapshots]
  rw [hsame, selects]
  exact he

/-- Without its newest snapshot file, the directory has another one that covers what is gone from the log, or
    nothing is gone. -/
theorem Archives.falls_back {c : ChoreographyState} (h : Archives r b (some c) d.snapshots d.pruned) (sound : Sound r b (some c))
    (origin : r.offset = 0) :
    ∃ older, selected { d with snapshots := d.snapshots.erase (snapshotName c.lastApplied) } = older.map Snapshot.ofState ∧
      Sound r b older := by
  have hbound : c.lastApplied < maxIndex := ((sound.newest c rfl).committed.trans sound.commit).trans_lt sound.short
  have hbig : maxIndex < 2 ^ 64 := by decide
  generalize hd : ({ d with snapshots := d.snapshots.erase (snapshotName c.lastApplied) } : Disk) = d₀
  have hfind : ∀ name, d₀.snapshots.find? name = if name = snapshotName c.lastApplied then none else d.snapshots.find? name := by
    intro name
    rw [← hd]
    exact OrdMap.find?_erase
  -- The file that the archive falls back to is still there.
  have hfallback : b = 0 ∨ ∃ i bytes, b ≤ i ∧ i < maxIndex ∧ (⟨i, snapshotName i, bytes⟩ : SnapshotFile) ∈ snapshotFiles d₀ := by
    refine h.fallback.imp_right fun ⟨i, hb, hi, hfile⟩ => ?_
    have hi : i < c.lastApplied := hi
    obtain ⟨bytes, hbytes⟩ := Option.isSome_iff_exists.mp hfile
    refine ⟨i, bytes, hb, hi.trans hbound, mem_snapshotFiles.mpr ⟨?_, snapshotIndex_snapshotName ((hi.trans hbound).trans hbig)⟩⟩
    rw [hfind, if_neg (snapshotName_lt hi hbound).ne]
    exact hbytes
  cases hfiles : snapshotFiles d₀ with
  | nil =>
    refine ⟨none, by rw [selected, hfiles]; rfl, { sound with bare := fun _ => ⟨?_, origin⟩, newest := fun _ hc => nomatch hc }⟩
    rw [hfiles] at hfallback
    exact hfallback.resolve_right fun ⟨_, _, _, _, hmem⟩ => nomatch hmem
  | cons file more =>
    obtain ⟨hfile, -⟩ := mem_snapshotFiles.mp (hfiles ▸ List.mem_cons_self : file ∈ snapshotFiles d₀)
    rw [hfind] at hfile
    split at hfile
    · cases hfile
    obtain ⟨c', hbytes, hname, hcovers⟩ := h.states _ _ (.inl hfile)
    refine ⟨some c', ?_, { sound with bare := nofun, newest := ?_ }⟩
    · rw [selected, hfiles, List.findSome?_cons, hcovers.readSnapshot hbytes]
      rfl
    · rintro _ ⟨⟩
      refine { hcovers with base := ?_ }
      rcases hfallback with rfl | ⟨i, bytes, hb, hi, hmem⟩
      · exact Nat.zero_le _
      · refine hb.trans (snapshotName_le hi ?_)
        rw [← hname]
        have hsorted := snapshotFiles_sorted d₀
        rw [hfiles, List.pairwise_cons] at hsorted
        rw [hfiles] at hmem
        rcases List.mem_cons.mp hmem with rfl | hmem
        · exact le_rfl
        · exact (hsorted.1 _ hmem).le

theorem Safe.survives {options : StoreOptions} (cluster : options.commitOnAppend = false) (h : Safe r d) (origin : r.origin = {})
    {d' : Disk} (damaged : Damaged d d') :
    ∃ e e', (FileEngine.open options () d).result = .ok e ∧ (FileEngine.open options () d').result = .ok e' ∧ Same e e' := by
  obtain ⟨b, newest, sound, held, archives⟩ := h
  obtain ⟨file, rest, bytes, x, hfiles, hfails, rfl⟩ := damaged
  obtain ⟨u, hu⟩ := sound.history
  have hselected : Storage.selected { d with snapshots := d.snapshots } = newest.map Snapshot.ofState := held.selected sound
  obtain ⟨e, hopen, hcommit, hwal, hview⟩ := held.opens_selected cluster sound sound hselected hu
  cases newest with
  | none =>
    rw [snapshotFiles_bare held.snapshots] at hfiles
    cases hfiles
  | some c =>
    have hbound : c.lastApplied < maxIndex := ((sound.newest c rfl).committed.trans sound.commit).trans_lt sound.short
    obtain ⟨bytes₀, -, hheld⟩ := held.snapshots
    obtain ⟨rest', hfiles', -⟩ := snapshotFiles_newest hheld hbound
    obtain ⟨rfl, -⟩ := List.cons.inj (hfiles'.symm.trans hfiles)
    obtain ⟨older, hselected, sound'⟩ := archives.falls_back sound (by rw [Record.offset, origin])
    have habsent : (d.snapshots.erase (snapshotName c.lastApplied)).find? (snapshotName c.lastApplied) = none := by
      rw [OrdMap.find?_erase, if_pos rfl]
    have hinsert : (d.snapshots.erase (snapshotName c.lastApplied)).insert (snapshotName c.lastApplied) bytes =
        d.snapshots.insert (snapshotName c.lastApplied) bytes := by
      refine OrdMap.ext_find? fun name => ?_
      rw [OrdMap.find?_insert, OrdMap.find?_insert, OrdMap.find?_erase]
      by_cases hname : snapshotName c.lastApplied = name
      · rw [if_pos hname, if_pos hname]
      · rw [if_neg hname, if_neg hname, if_neg (Ne.symm hname)]
    have hunverified := selected_unverified (d := { d with snapshots := d.snapshots.erase (snapshotName c.lastApplied) }) habsent hfails
    rw [Disk.withSnapshot, hinsert, hselected] at hunverified
    obtain ⟨e', hopen', hcommit', hwal', hview'⟩ := held.opens_selected cluster sound sound' hunverified hu
    exact ⟨e, e', hopen, hopen', hcommit'.trans hcommit.symm, by rw [hwal, hwal'], by rw [hview.domain, hview'.domain],
      hview'.receipts.trans hview.receipts.symm⟩

end Opening

/-! ### Runs without installs -/

theorem Op.guards {r : Record} {op : Op} (ordinary : op.Ordinary) (whole : r.Whole) (committed : r.commit ≤ r.log.length)
    (meets : op.Meets r) : Guards r (op.after r) op.program := by
  cases op with
  | append event => exact appendEvent_guards meets.1 meets.2.1 meets.2.2
  | truncate index => exact truncateAfter_guards index
  | commit index =>
    refine commitThrough_guards index (fun hlater hpresent => ?_) fun hlater hpresent => ?_
    · obtain ⟨u, htold⟩ := meets hlater hpresent
      exact ⟨u, (Record.replay_whole whole.origin index).trans htold.replay⟩
    · exact (whole.commitTo meets).faithful (by rw [Record.commitTo_of_le hlater]; exact hpresent)
  | persist term vote => exact persistConsensus_guards term vote meets
  | checkpoint => exact checkpoint_guards (whole.faithful committed)
  | discard => exact ordinary.elim
  | install snapshot history => exact ordinary.elim

/-- What a call may come to. -/
inductive Called (op : Op) (r : Record) (e : FileEngine) (d : Disk) : Situation → Prop
  | returned (ok : (op.program e d).result = .ok ()) :
      Called op r e d (.running (op.after r) (op.program e d).memory (op.program e d).disk)
  | refused {x : Error} (failed : (op.program e d).result = .error x) (writable : (op.program e d).memory.recoveryRequired = false) :
      Called op r e d (.running r (op.program e d).memory (op.program e d).disk)
  | failed {x : Error} (failed : (op.program e d).result = .error x) : Called op r e d (.stopped r (op.after r) (op.program e d).disk)
  | crashed {i d' : Disk} (image : i ∈ (op.program e d).images) (crashed : Crashed i d') : Called op r e d (.stopped r (op.after r) d')

section Runs
variable (options : StoreOptions)

/-- The runs of a store without installs: calls, crashes in the middle of a call, of opening or while nothing
    runs, and opening again. -/
inductive LocalRun : Situation → Prop
  | start {e : FileEngine} {d : Disk} (opens : Opens options {} e d) : LocalRun (.running {} e d)
  | call {r : Record} {e : FileEngine} {d : Disk} {op : Op} {s : Situation} (run : LocalRun (.running r e d)) (ordinary : op.Ordinary)
      (meets : op.Meets r) (called : Called op r e d s) : LocalRun s
  | close {r : Record} {e : FileEngine} {d : Disk} (run : LocalRun (.running r e d)) : LocalRun (.stopped r r d)
  | lose {r r' : Record} {d d' : Disk} (run : LocalRun (.stopped r r' d)) (crashed : Crashed d d') : LocalRun (.stopped r r' d')
  | interrupt {r r' : Record} {d i d' : Disk} (run : LocalRun (.stopped r r' d)) (image : i ∈ (FileEngine.open options () d).images)
      (crashed : Crashed i d') : LocalRun (.stopped r r' d')
  | reopen {r r' shown : Record} {e : FileEngine} {d d' : Disk} (run : LocalRun (.stopped r r' d)) (opens : Opens options d e d')
      (one : shown = r ∨ shown = r') (shows : Shows shown e d') : LocalRun (.running shown e d')

def Situation.disk : Situation → Disk
  | running _ _ d => d
  | stopped _ _ d => d

/-- The invariant of these runs. -/
def Situation.Guards : Situation → Prop
  | running r e d => Guarded r e d ∧ r.Whole
  | stopped r r' d => (r'.origin = r.origin ∧ (r'.commit = r.commit → r'.log.take r.commit = r.log.take r.commit)) ∧
      (Safe r d ∧ r.Whole ∨ Safe r' d ∧ r'.Whole)

variable {options} {r r' : Record} {e : FileEngine} {d : Disk}

theorem Guarded.running (h : Guarded r e d) : Running r e d := by
  obtain ⟨b, newest, sound, serves, -⟩ := h
  exact ⟨b, newest, sound, serves⟩

/-- One call. -/
theorem Called.guards {op : Op} {s : Situation} (called : Called op r e d s) (guarded : Guarded r e d) (whole : r.Whole)
    (ordinary : op.Ordinary) (meets : op.Meets r) : s.Guards := by
  have hcommitted := guarded.running.committed
  have hwhole := ordinary.whole whole hcommitted meets
  have hsame := And.intro (Op.origin r op) (Op.committed hcommitted op)
  obtain ⟨himages, hresult⟩ := Op.guards ordinary whole hcommitted meets e d guarded
  cases called with
  | returned ok =>
    rw [ok] at hresult
    exact ⟨hresult, hwhole⟩
  | refused failed writable =>
    rw [failed] at hresult
    rcases hresult with hguarded | ⟨hrequired, -⟩
    · exact ⟨hguarded, whole⟩
    · exact nomatch hrequired.symm.trans writable
  | failed failed =>
    rw [failed] at hresult
    refine ⟨hsame, ?_⟩
    rcases hresult with hguarded | ⟨-, hsafe | hsafe⟩
    · exact .inl ⟨hguarded.safe, whole⟩
    · exact .inl ⟨hsafe, whole⟩
    · exact .inr ⟨hsafe, hwhole⟩
  | crashed image crashed =>
    exact ⟨hsame, (himages _ image _ crashed).imp (⟨·, whole⟩) (⟨·, hwhole⟩)⟩

theorem safe_created : Safe {} created := ⟨0, none, sound_created, held_created, nofun, .inl rfl⟩

variable (cluster : options.commitOnAppend = false)
include cluster

/-- Opening leaves the snapshot files alone. -/
theorem open_safe (error : Error → Unit → Disk → Prop) : Program.Triple (fun _ d => Safe r d) (FileEngine.open options : Store Unit FileEngine)
    (fun e _ d => Guarded r e d) error (Safe r) := by
  refine .any fun b => .any fun newest => .fact (fun _ _ h => h.1) fun sound => ?_
  have hframe : Program.Triple (fun _ d => (d.journal = none ∧ d.removed = none) ∧ Archives r b newest d.snapshots d.pruned)
      (FileEngine.open options : Store Unit FileEngine) (fun _ _ d => Archives r b newest d.snapshots d.pruned)
      (fun _ _ d => Archives r b newest d.snapshots d.pruned) fun d => Archives r b newest d.snapshots d.pruned := by
    refine .bind (fun _ _ d => Archives r b newest d.snapshots d.pruned) ?_ fun _ =>
      Program.Triple.frame (show Program.Frames Disk.archive _ from ?_) fun files => Archives r b newest files.1 files.2
    · rintro s d ⟨⟨hjournal, hremoved⟩, harchives⟩
      rw [recoverSnapshotTransaction_idle s hjournal hremoved]
      refine ⟨fun i hi => ?_, harchives⟩
      obtain rfl : i = d := by simpa using hi
      exact harchives
    · exact .bind frames_open fun _ => .ite (.fail _) (.bind (.bind .disk fun _ => .pure _) fun _ => .bind frames_loadMetadata fun _ =>
        .bind (.of _) fun _ => .ite (.fail _) (.bind (frames_joinSnapshot _ _ _) fun _ => .bind (.of _) fun _ => .ite (.fail _)
          (.bind (frames_updateMetadata _ _ _) fun _ => .of _)))
  refine ((open_held cluster sound fun _ _ _ => False).and hframe).consequence ?_ ?_ (fun _ _ _ h => h.1.elim) ?_
  · rintro _ d ⟨-, held, archives⟩
    exact ⟨held, ⟨held.journal, held.removed⟩, archives⟩
  · rintro e _ d ⟨opened, archives⟩
    exact ⟨b, newest, sound, opened.toServes, archives⟩
  · rintro d ⟨held, archives⟩
    exact ⟨b, newest, sound, held, archives⟩

theorem Safe.opens (h : Safe r d) : ∃ e d', Opens options d e d' ∧ Guarded r e d' := by
  obtain ⟨e, hopen, hguarded⟩ := (open_safe cluster fun _ _ _ => False).returns (s := ()) h
  exact ⟨e, _, ⟨hopen, rfl⟩, hguarded⟩

theorem Safe.interrupted {i : Disk} (h : Safe r d) (image : i ∈ (FileEngine.open options () d).images) : Safe r i :=
  (open_safe cluster (fun _ _ _ => True) () d h).1 i image

theorem LocalRun.guards {s : Situation} (run : LocalRun options s) : s.Guards := by
  induction run with
  | start opens =>
    obtain ⟨e', d', hopens, hguarded⟩ := safe_created.opens cluster
    obtain ⟨rfl, rfl⟩ := opens.fresh.unique hopens
    exact ⟨hguarded, whole_created⟩
  | call _ ordinary meets called ih => exact called.guards ih.1 ih.2 ordinary meets
  | close _ ih => exact ⟨⟨rfl, fun _ => rfl⟩, .inl ⟨ih.1.safe, ih.2⟩⟩
  | lose _ crashed ih => exact ⟨ih.1, ih.2.imp (fun h => ⟨h.1.crashed crashed, h.2⟩) fun h => ⟨h.1.crashed crashed, h.2⟩⟩
  | interrupt _ image crashed ih =>
    exact ⟨ih.1, ih.2.imp (fun h => ⟨(h.1.interrupted cluster image).crashed crashed, h.2⟩)
      fun h => ⟨(h.1.interrupted cluster image).crashed crashed, h.2⟩⟩
  | reopen _ opens one shows ih =>
    obtain ⟨⟨horigin, hsame⟩, ⟨hsafe, hwhole⟩ | ⟨hsafe, hwhole⟩⟩ := ih
    · obtain ⟨e', d', hopens, hguarded⟩ := hsafe.opens cluster
      obtain ⟨rfl, rfl⟩ := opens.unique hopens
      rcases one with rfl | rfl
      · exact ⟨hguarded, hwhole⟩
      · exact (hguarded.running.shows hwhole).unique shows horigin hsame ▸ ⟨hguarded, hwhole⟩
    · obtain ⟨e', d', hopens, hguarded⟩ := hsafe.opens cluster
      obtain ⟨rfl, rfl⟩ := opens.unique hopens
      rcases one with rfl | rfl
      · exact shows.unique (hguarded.running.shows hwhole) horigin hsame ▸ ⟨hguarded, hwhole⟩
      · exact ⟨hguarded, hwhole⟩

end Runs

/-! ### A reused name -/

def compactingOptions : StoreOptions := { commitOnAppend := false, compactLog := true }

/-- The no-op is committed and a snapshot taken; the store is opened again and commits the other event. -/
def reuseCompacting : Option ((FileEngine × Disk) × (FileEngine × Disk)) := do
  let start ← reopened compactingOptions {}
  let first ← calls [.append firstNoOp, .commit 1, .checkpoint] start.1 start.2
  let again ← reopened compactingOptions first.2
  let second ← calls [.append reused, .commit 2] again.1 again.2
  return (first, second)

/-- The only snapshot file is emptied. -/
def Disk.emptied (d : Disk) : Disk := d.withSnapshot (snapshotName 1) []

set_option maxRecDepth 20000 in
theorem reuseCompacting_returns : (reuseCompacting.any fun run => Settles run.1.2 ∧ restores run.1.1.state ∧ restores run.2.1.state ∧
    (snapshotFiles run.1.2).map (·.name) = [snapshotName 1] ∧ (snapshotFiles run.2.2).map (·.name) = [snapshotName 1] ∧
    run.2.1.commitIndex = 2 ∧ run.2.1.wal.events = [firstNoOp, reused] ∧
    (FileEngine.open compactingOptions () run.2.2.emptied).result.isOk = false) = true := by
  decide +kernel

theorem damaged_emptied {d : Disk} (files : (snapshotFiles d).map (·.name) = [snapshotName 1]) : Damaged d d.emptied := by
  cases hfiles : snapshotFiles d with
  | nil =>
    rw [hfiles] at files
    cases files
  | cons file rest =>
    rw [hfiles, List.map_cons] at files
    exact ⟨file, rest, [], _, hfiles, rfl, by rw [(List.cons.inj files).1]; rfl⟩

theorem LocalRun.calls {options : StoreOptions} {ops : List Op} {r : Record} {e : FileEngine} {d : Disk} {last : FileEngine × Disk}
    (run : LocalRun options (.running r e d)) (ordinary : ∀ op ∈ ops, op.Ordinary) (meets : AllMeet r ops) (h : calls ops e d = some last) :
    LocalRun options (.running (ops.foldl Op.after r) last.1 last.2) := by
  induction ops generalizing r e d with
  | nil =>
    cases h
    exact run
  | cons op ops ih =>
    unfold Storage.calls at h
    have hcall := @Called.returned op r e d
    cases hprogram : op.program e d with
    | mk result memory disk images =>
      rw [hprogram] at h hcall
      cases result with
      | error x => cases h
      | ok a =>
        exact ih (.call run (ordinary op List.mem_cons_self) meets.1 (hcall rfl)) (fun op hop => ordinary op (List.mem_cons_of_mem _ hop))
          meets.2 h

end Choreolog.Storage
