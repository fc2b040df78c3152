import Choreolog.Storage.Metadata
import Choreolog.Storage.Transaction
import Choreolog.Storage.Wal

/-! # The directory store

The snapshot files of a directory (`cpp-runtime/src/storage/snapshot.cpp`) and `FileEngine`
(`cpp-runtime/src/state/store.cpp`): a log of which a prefix is committed, the state of that prefix, and the
newest snapshot. Writes are always synced. -/

namespace Choreolog.Storage
open Lib State

/-! ## Snapshot files -/

structure SnapshotFile where
  index : Nat
  name : String
  bytes : File

/-- The index in the name of a snapshot file: digits before `.snap`. -/
def snapshotIndex (name : String) : Option Nat :=
  let stem := name.toList.dropLast.dropLast.dropLast.dropLast.dropLast
  if name.toList = stem ++ ".snap".toList ∧ stem ≠ [] ∧ stem.all (·.isDigit) then
    let index := Nat.ofDigitChars 10 stem 0
    if index < 2 ^ 64 then some index else none
  else none

/-- The snapshot files by descending name. -/
def snapshotFiles (d : Disk) : List SnapshotFile :=
  (d.snapshots.entries.filterMap fun entry => (snapshotIndex entry.1).map fun index => ⟨index, entry.1, entry.2⟩).reverse

structure PruneResult where
  remaining : Nat := 0
  oldestIndex : Nat := 0

section Snapshots
variable {μ : Type}

def saveSnapshot (state : ChoreographyState) : Store μ Unit := do
  let bytes ← .of (encodeSnapshot state)
  syncDirectory
  writeSnapshot (snapshotName state.lastApplied) bytes

/-- The newest file that verifies. -/
def loadLatestSnapshot : Store μ (Option Snapshot) := do
  return (snapshotFiles (← .disk)).findSome? fun file => (readSnapshot file.bytes).toOption

def removeSnapshots : List SnapshotFile → Store μ Unit
  | [] => return ()
  | file :: rest => do
    removeSnapshot file.name
    removeSnapshots rest

def pruneSnapshots (keep : Nat) : Store μ PruneResult := do
  let files := snapshotFiles (← .disk)
  removeSnapshots (files.drop keep)
  match (files.take keep).getLast? with
  | none => return {}
  | some oldest => return ⟨min keep files.length, oldest.index⟩

end Snapshots

/-! ## The store -/

structure StoreOptions where
  snapshotEvery : Nat := 100
  commitOnAppend : Bool := true
  compactLog : Bool := false
  deriving DecidableEq

structure FileEngine where
  options : StoreOptions
  wal : WriteAheadLog := {}
  state : ChoreographyState := {}
  commitIndex : Nat := 0
  snapshot : Option Snapshot := none
  recoveryRequired : Bool := false
  deriving DecidableEq

/-- `FileEngine::log_entry` -/
def WriteAheadLog.logEntry (wal : WriteAheadLog) (index : Nat) : Option Event :=
  match wal.events.head?, wal.events.getLast? with
  | some first, some last =>
    if index < first.index ∨ last.index < index then none else wal.events[index - first.index]?
  | _, _ => none

namespace FileEngine

def storeError (message : String) : Error := ⟨.storeError, message⟩

def lastLogIndex (store : FileEngine) : Nat :=
  match store.wal.events.getLast? with
  | none => store.state.lastApplied
  | some last => last.index

def logFirstIndex (store : FileEngine) : Nat :=
  match store.wal.events.head? with
  | none => store.state.lastApplied + 1
  | some first => first.index

def logTermAt (store : FileEngine) (index : Nat) : Option Nat :=
  if index = 0 then some 0
  else
    match store.wal.logEntry index with
    | some entry => some entry.term
    | none => (store.snapshot.filter (·.index = index)).map (·.term)

/-! ### Opening a directory -/

/-- Each record has the index after the one before it, and none has index zero. -/
def contiguous : List Event → Bool
  | [] => true
  | [event] => event.index ≠ 0
  | event :: next :: rest => event.index ≠ 0 && next.index = event.index + 1 && contiguous (next :: rest)

/-- What a store starts from before it replays its log. -/
structure Restored where
  state : ChoreographyState := {}
  snapshot : Option Snapshot := none
  startAfter : Nat := 0

/-- The committed history up to a snapshot, if the log still holds all of it. -/
def historyThrough (records : List Event) (index : Nat) : List Event :=
  if records.head?.any (·.index = 1) && records.getLast?.any (index ≤ ·.index) then records.takeWhile (·.index ≤ index)
  else []

def restoreSnapshot (records : List Event) (applyLimit : Nat) : Option Snapshot → Result Restored
  | none => .ok {}
  | some selected =>
    if applyLimit < selected.index then .ok {}
    else do
      let restored ← verifySnapshot selected
      if selected.legacy then do
        let state ← selected.events.foldlM apply {}
        return ⟨state, some { selected with statePayload := snapshotPayload restored, events := [] }, selected.index⟩
      else return ⟨restoreReceipts restored (historyThrough records selected.index), some selected, selected.index⟩

/-- The log must join the snapshot. One that ends before it is dropped, where an install stopped in between. -/
def joinSnapshot {μ : Type} (wal : WriteAheadLog) (metadata : NodeMetadata) : Option Snapshot → Store μ WriteAheadLog
  | none => return wal
  | some boundary =>
    match wal.events.head?, wal.events.getLast? with
    | some first, some last => do
      if last.index < boundary.index then
        if metadata.commitIndex ≠ boundary.index ∨ metadata.term < boundary.term then
          .fail (storeError "snapshot and WAL cannot cover durable commit metadata")
        else WriteAheadLog.rewrite []
      else if boundary.index < first.index ∧ first.index - boundary.index ≠ 1 then
        .fail (storeError "retained WAL does not join the recovered snapshot boundary")
      else if (wal.logEntry boundary.index).any (·.term ≠ boundary.term) then
        .fail (storeError "retained WAL anchor disagrees with recovered snapshot term")
      else return wal
    | _, _ => return wal

/-- The records after a snapshot, through the last one that is to be applied. -/
def replayed (records : List Event) (startAfter applyLimit : Nat) : List Event :=
  (records.takeWhile fun event => event.index ≤ startAfter ∨ event.index ≤ applyLimit).filter (startAfter < ·.index)

/-- With `commitOnAppend` the metadata follows what was applied. -/
def updateMetadata {μ : Type} (options : StoreOptions) (metadata : NodeMetadata) (state : ChoreographyState) : Store μ Nat := do
  if options.commitOnAppend then
    if metadata.commitIndex < state.lastApplied ∨ metadata.term < state.term then do
      storeMetadata { metadata with commitIndex := state.lastApplied, term := max metadata.term state.term }
      return state.lastApplied
    else return state.lastApplied
  else return metadata.commitIndex

def retained (store : FileEngine) (anchor : Nat) : Result FileEngine :=
  if store.options.compactLog then do
    let state ← retainStateHistoryFrom store.state anchor
    return { store with state }
  else .ok store

def «open» {μ : Type} (options : StoreOptions) : Store μ FileEngine := do
  recoverSnapshotTransaction
  let wal ← WriteAheadLog.open
  if ¬ contiguous wal.events then .fail (storeError "retained WAL indexes are not contiguous")
  else do
    let snapshot ← loadLatestSnapshot
    let metadata ← loadMetadata
    let applyLimit := if options.commitOnAppend then 2 ^ 64 - 1 else metadata.commitIndex
    let restored ← .of (restoreSnapshot wal.events applyLimit snapshot)
    if restored.startAfter = 0 ∧ wal.events.head?.any (1 < ·.index) then
      .fail (storeError "the log was compacted but no valid snapshot covers its missing prefix")
    else do
      let wal ← joinSnapshot wal metadata restored.snapshot
      let state ← .of ((replayed wal.events restored.startAfter applyLimit).foldlM apply restored.state)
      if state.lastApplied < metadata.commitIndex then
        .fail (storeError "committed history is missing from snapshot and WAL")
      else do
        let commitIndex ← updateMetadata options metadata state
        let store : FileEngine := { options, wal, state, commitIndex, snapshot := restored.snapshot }
        .of (store.retained store.logFirstIndex)

/-! ### Operations -/

def requireWritable : Store FileEngine Unit := do
  if (← .memory).recoveryRequired then .fail (storeError "storage failure requires reopen before further writes")
  else return ()

/-- `checked_mutation`: after a failure the store has to be opened again. -/
def checkedMutation {α : Type} (m : Store FileEngine α) : Store FileEngine α :=
  .onError (fun store => { store with recoveryRequired := true }) m

def appendEvent (event : Event) : Store FileEngine Unit := do
  requireWritable
  let store ← .memory
  if event.index ≠ store.lastLogIndex + 1 then .fail ⟨.indexGap, "appended event is not the next log index"⟩
  else if maxPayloadBytes < (canonicalEvent event).toList.length then .fail (storeError "event payload exceeds 1 MiB")
  else checkedMutation do
    let wal ← store.wal.append event
    .assign fun store => { store with wal }

def truncateAfter (index : Nat) : Store FileEngine Unit := do
  requireWritable
  let store ← .memory
  if index < store.commitIndex then .fail (storeError "committed log prefix cannot be truncated")
  else checkedMutation do
    let wal ← store.wal.truncateAfter index
    .assign fun store => { store with wal }

/-- The next `count` entries from an index on, as far as the log has them. -/
def batch (wal : WriteAheadLog) : Nat → Nat → List Event
  | 0, _ => []
  | count + 1, next =>
    match wal.logEntry next with
    | none => []
    | some event => event :: batch wal count (next + 1)

/-- Drops the records below an anchor, whose own record stays. -/
def compact (anchor : Nat) : Store FileEngine Unit := do
  let store ← .memory
  match store.wal.events.head?, store.wal.events.getLast? with
  | some first, some last =>
    if anchor ≤ first.index ∨ last.index < anchor then return ()
    else checkedMutation do
      let wal ← WriteAheadLog.rewrite (store.wal.events.drop (anchor - first.index))
      .assign fun store => { store with wal }
      let store ← .of ({ store with wal }.retained anchor)
      .assign fun _ => store
  | _, _ => return ()

def takeSnapshot : Store FileEngine Unit := do
  let store ← .memory
  saveSnapshot store.state
  .assign fun store => { store with snapshot := some (.ofState store.state) }
  let pruned ← pruneSnapshots 2
  -- A fallback has to exist before records are dropped, and only those below it are.
  if store.options.compactLog ∧ 2 ≤ pruned.remaining then compact pruned.oldestIndex
  else return ()

def maybeSnapshot : Store FileEngine Unit := do
  let store ← .memory
  let every := store.options.snapshotEvery
  if every = 0 then return ()
  else if store.state.lastApplied / every ≤ ((store.snapshot.map (·.index)).getD 0) / every then return ()
  else takeSnapshot

def commitThrough (index : Nat) : Store FileEngine Unit := do
  requireWritable
  let store ← .memory
  if index < store.commitIndex then return ()
  else do
    let staged ← .of (prepareCommitted store.state (batch store.wal (index - store.commitIndex) (store.commitIndex + 1)))
    if staged.lastApplied ≠ index then .fail ⟨.indexGap, "commit index is not present in the log"⟩
    else checkedMutation do
      let metadata ← loadMetadata
      storeMetadata { metadata with commitIndex := index, term := max metadata.term staged.term }
      .assign fun store => { store with state := publishCommitted store.state staged, commitIndex := index }
      maybeSnapshot

def persistConsensus (term : Nat) (votedFor : Option NodeId) : Store FileEngine Unit := do
  requireWritable
  let metadata ← checkedMutation loadMetadata
  if term < metadata.term then .fail (storeError "consensus term cannot move backwards")
  else checkedMutation (storeMetadata { metadata with term, votedFor })

/-- The state that a snapshot installs. -/
def replacement (snapshot : Snapshot) : Result ChoreographyState := do
  let restored ← verifySnapshot snapshot
  if snapshot.legacy then snapshot.events.foldlM apply {} else return restored

/-- The records kept by an install: those from the snapshot on, if the log agrees with it there. -/
def keptSuffix (wal : WriteAheadLog) (snapshot : Snapshot) : List Event :=
  if (wal.logEntry snapshot.index).any (·.term = snapshot.term) then wal.events.filter (snapshot.index ≤ ·.index) else []

def installSnapshot (snapshot : Snapshot) : Store FileEngine Unit := do
  requireWritable
  let store ← .memory
  if snapshot.index ≤ store.commitIndex then return ()
  else do
    let state ← .of (replacement snapshot)
    let metadata ← checkedMutation loadMetadata
    let snapshotBytes ← .of (encodeSnapshot state)
    let metadataBytes ← .of (encodeMetadata
      { metadata with commitIndex := snapshot.index, term := max metadata.term state.term })
    let walBytes ← .of (encodeWal (keptSuffix store.wal snapshot))
    checkedMutation do
      commitSnapshotTransaction ⟨UInt64.ofNat snapshot.index, snapshotBytes, metadataBytes, walBytes⟩
      let wal ← WriteAheadLog.open
      .assign fun store => { store with
        wal, state, commitIndex := snapshot.index
        snapshot := some { snapshot with events := [], statePayload := snapshotPayload state } }
      -- An older snapshot does not join a log that starts at this one.
      let _ ← pruneSnapshots 1
      let store ← .memory
      let store ← .of (store.retained store.logFirstIndex)
      .assign fun _ => store

def discardCompactedPrefix : Store FileEngine Unit := do
  requireWritable
  match (← .memory).snapshot with
  | none => .fail (storeError "no snapshot to compact against")
  | some snapshot => compact snapshot.index

def checkpoint : Store FileEngine Unit := do
  requireWritable
  if (← .memory).state.lastApplied = 0 then return ()
  else checkedMutation takeSnapshot

end FileEngine

end Choreolog.Storage
