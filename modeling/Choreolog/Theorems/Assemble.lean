import Choreolog.Theorems.Checkpoints

/-! # Opening as a function of what is read

Opening a directory in cluster mode recovers a pending install, reads the log, selects the first snapshot file that
verifies and reads the metadata. The store is a function of the three. -/

namespace Choreolog.Storage
open Lib State

/-- The newest snapshot file that verifies. -/
def selected (d : Disk) : Option Snapshot := (snapshotFiles d).findSome? fun file => (readSnapshot file.bytes).toOption

/-- The log that joins the snapshot; `joinSnapshot` without its write. -/
def joined (wal : WriteAheadLog) (metadata : NodeMetadata) : Option Snapshot → Result WriteAheadLog
  | none => .ok wal
  | some boundary =>
    match wal.events.head?, wal.events.getLast? with
    | some first, some last =>
      if last.index < boundary.index then
        if metadata.commitIndex ≠ boundary.index ∨ metadata.term < boundary.term then
          .error (FileEngine.storeError "snapshot and WAL cannot cover durable commit metadata")
        else .ok {}
      else if boundary.index < first.index ∧ first.index - boundary.index ≠ 1 then
        .error (FileEngine.storeError "retained WAL does not join the recovered snapshot boundary")
      else if (wal.logEntry boundary.index).any (·.term ≠ boundary.term) then
        .error (FileEngine.storeError "retained WAL anchor disagrees with recovered snapshot term")
      else .ok wal
    | _, _ => .ok wal

/-- The store of a log, the metadata and the selected snapshot, in cluster mode. -/
def assemble (options : StoreOptions) (wal : WriteAheadLog) (metadata : NodeMetadata) (snapshot : Option Snapshot) :
    Result FileEngine := do
  let restored ← FileEngine.restoreSnapshot wal.events metadata.commitIndex snapshot
  if restored.startAfter = 0 ∧ wal.events.head?.any (1 < ·.index) then
    .error (FileEngine.storeError "the log was compacted but no valid snapshot covers its missing prefix")
  else do
    let wal ← joined wal metadata restored.snapshot
    let state ← (FileEngine.replayed wal.events restored.startAfter metadata.commitIndex).foldlM apply restored.state
    if state.lastApplied < metadata.commitIndex then
      .error (FileEngine.storeError "committed history is missing from snapshot and WAL")
    else
      let store : FileEngine :=
        { options, wal, state, commitIndex := metadata.commitIndex, snapshot := restored.snapshot }
      store.retained store.logFirstIndex

section Results
variable {μ α β : Type}

/-- A sequence returns when both parts do. -/
theorem bind_result {m : Store μ α} {f : α → Store μ β} {s : μ} {d : Disk} {b : β} :
    ((m >>= f) s d).result = .ok b ↔ ∃ a, (m s d).result = .ok a ∧ (f a (m s d).memory (m s d).disk).result = .ok b := by
  cases hm : (m s d).result with
  | error e =>
    rw [Program.bind_of_error hm]
    refine iff_of_false (fun h => nomatch h) ?_
    rintro ⟨a, h, -⟩
    cases h
  | ok a =>
    rw [Program.bind_of_ok hm]
    refine ⟨fun h => ⟨a, rfl, h⟩, ?_⟩
    rintro ⟨a', ha, h⟩
    cases ha
    exact h

theorem bind_of_result (x : Result α) (f : α → Store μ β) (s : μ) (d : Disk) :
    ((Program.of x >>= f) s d).result = x >>= fun a => (f a s d).result := by
  cases x <;> rfl

theorem rewrite_nil (s : μ) (d : Disk) : (WriteAheadLog.rewrite [] s d).result = .ok {} := by
  have hlogged : ∀ e ∈ ([] : List Event), Logged e := nofun
  have hencode := encodeWal_ok fun e he => (hlogged e he).size
  generalize hfile : walFile [] = file at hencode
  unfold WriteAheadLog.rewrite
  refine bind_result.mpr ⟨file, hencode, bind_result.mpr ⟨(), rfl, ?_⟩⟩
  rw [load_file hlogged _ (by rw [hfile]; rfl)]
  rfl

theorem joinSnapshot_result (wal : WriteAheadLog) (metadata : NodeMetadata) (snapshot : Option Snapshot) (s : μ) (d : Disk) :
    (FileEngine.joinSnapshot wal metadata snapshot s d).result = joined wal metadata snapshot := by
  unfold FileEngine.joinSnapshot joined
  cases snapshot with
  | none => rfl
  | some boundary =>
    cases hfirst : wal.events.head? with
    | none => rfl
    | some first =>
      cases hlast : wal.events.getLast? with
      | none => rfl
      | some last =>
        dsimp only
        split
        · split
          · rfl
          · exact rewrite_nil s d
        · split
          · rfl
          · split
            · rfl
            · rfl

/-- What opening reads. -/
structure Reads (d : Disk) (wal : WriteAheadLog) (metadata : NodeMetadata) (read : Disk) : Prop where
  contiguous : FileEngine.contiguous wal.events = true
  metadata : (loadMetadata () read).result = .ok metadata
  log : ∃ recovered, Recovers d recovered ∧ (WriteAheadLog.open () recovered).result = .ok wal ∧
    (WriteAheadLog.open () recovered).disk = read

theorem bind_joinSnapshot_result (wal : WriteAheadLog) (metadata : NodeMetadata) (snapshot : Option Snapshot)
    {f : WriteAheadLog → Store μ β} {g : WriteAheadLog → Result β} (h : ∀ wal s d, (f wal s d).result = g wal) (s : μ) (d : Disk) :
    ((FileEngine.joinSnapshot wal metadata snapshot >>= f) s d).result = joined wal metadata snapshot >>= g := by
  have hjoin := joinSnapshot_result wal metadata snapshot s d
  cases hm : (FileEngine.joinSnapshot wal metadata snapshot s d).result with
  | error e =>
    rw [Program.bind_of_error hm, ← hjoin, hm]
    rfl
  | ok w =>
    rw [Program.bind_of_ok hm, ← hjoin, hm]
    exact h w _ _

/-- The part of opening after the reads. -/
theorem open_rest_result {options : StoreOptions} (cluster : options.commitOnAppend = false) (wal : WriteAheadLog)
    (metadata : NodeMetadata) (snapshot : Option Snapshot) (s : μ) (d : Disk) :
    ((do
      let applyLimit := if options.commitOnAppend then 2 ^ 64 - 1 else metadata.commitIndex
      let restored ← .of (FileEngine.restoreSnapshot wal.events applyLimit snapshot)
      if restored.startAfter = 0 ∧ wal.events.head?.any (1 < ·.index) then
        .fail (FileEngine.storeError "the log was compacted but no valid snapshot covers its missing prefix")
      else do
        let wal ← FileEngine.joinSnapshot wal metadata restored.snapshot
        let state ← .of ((FileEngine.replayed wal.events restored.startAfter applyLimit).foldlM apply restored.state)
        if state.lastApplied < metadata.commitIndex then
          .fail (FileEngine.storeError "committed history is missing from snapshot and WAL")
        else do
          let commitIndex ← FileEngine.updateMetadata options metadata state
          let store : FileEngine := { options, wal, state, commitIndex, snapshot := restored.snapshot }
          .of (store.retained store.logFirstIndex) : Store μ FileEngine) s d).result = assemble options wal metadata snapshot := by
  have hlimit : (if options.commitOnAppend = true then 2 ^ 64 - 1 else metadata.commitIndex) = metadata.commitIndex := by
    rw [cluster]
    rfl
  unfold assemble
  simp only [hlimit]
  rw [bind_of_result]
  refine bind_congr fun restored => ?_
  by_cases hbad : restored.startAfter = 0 ∧ wal.events.head?.any (1 < ·.index)
  · rw [if_pos hbad, if_pos hbad]
    rfl
  · rw [if_neg hbad, if_neg hbad]
    refine bind_joinSnapshot_result wal metadata restored.snapshot (fun wal s d => ?_) s d
    rw [bind_of_result]
    refine bind_congr fun state => ?_
    by_cases hshort : state.lastApplied < metadata.commitIndex
    · rw [if_pos hshort, if_pos hshort]
      rfl
    · rw [if_neg hshort, if_neg hshort]
      unfold FileEngine.updateMetadata
      rw [cluster]
      rfl

theorem open_iff {options : StoreOptions} (cluster : options.commitOnAppend = false) {d : Disk} {e : FileEngine} :
    (FileEngine.open options () d).result = .ok e ↔
      ∃ wal metadata read, Reads d wal metadata read ∧ assemble options wal metadata (selected read) = .ok e := by
  unfold FileEngine.open
  constructor
  · intro h
    obtain ⟨_, hrecover, h⟩ := bind_result.mp h
    obtain ⟨wal, hwal, h⟩ := bind_result.mp h
    split at h
    · cases h
    · rename_i hcontiguous
      obtain ⟨snapshot, hsnapshot, h⟩ := bind_result.mp h
      cases hsnapshot
      obtain ⟨metadata, hmetadata, h⟩ := bind_result.mp h
      rw [open_rest_result cluster] at h
      exact ⟨wal, metadata, _, ⟨not_not.mp hcontiguous, hmetadata, _, ⟨hrecover, rfl⟩, hwal, rfl⟩, h⟩
  · rintro ⟨wal, metadata, read, ⟨hcontiguous, hmetadata, recovered, ⟨hrecover, rfl⟩, hwal, rfl⟩, h⟩
    refine bind_result.mpr ⟨(), hrecover, bind_result.mpr ⟨wal, hwal, ?_⟩⟩
    rw [if_neg (not_not.mpr hcontiguous)]
    refine bind_result.mpr ⟨_, rfl, bind_result.mpr ⟨metadata, hmetadata, ?_⟩⟩
    rw [open_rest_result cluster]
    exact h

end Results

end Choreolog.Storage
