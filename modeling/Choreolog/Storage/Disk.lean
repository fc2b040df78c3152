import Choreolog.Lib.Bytes
import Choreolog.Lib.Crash
import Choreolog.Lib.OrdMap
import Choreolog.State.Types

/-! # The files of a store

`cpp-runtime/src/storage/file_util.cpp`: a store directory holds the log, the metadata, the snapshots and the
journal of an install. `write_atomic` replaces a file as a whole and durably. An append may be cut short.
Shrinking the log and removing a file last only once they are synced. -/

namespace Choreolog.Storage
open Lib State

abbrev File := List UInt8

/-- What is on the disk. Snapshot files are listed by name. -/
structure Files where
  snapshots : OrdMap String File := .empty
  metadata : Option File := none
  wal : Option File := none
  journal : Option File := none
  deriving DecidableEq

/-- The files as a process sees them, and what a crash may bring back: removed snapshots, bytes cut off the
    log, a removed journal. -/
structure Disk extends Files where
  pruned : OrdMap String File := .empty
  tail : File := []
  removed : Option File := none
  deriving DecidableEq

/-- The disk that a crash leaves. -/
structure Crashed (d d' : Disk) : Prop where
  snapshots : ∀ name, d'.snapshots.find? name = d.snapshots.find? name ∨
    d.snapshots.find? name = none ∧ d'.snapshots.find? name = d.pruned.find? name
  metadata : d'.metadata = d.metadata
  wal : d'.wal = d.wal ∨ d'.wal = d.wal.map (· ++ d.tail)
  journal : d'.journal = d.journal ∨ d.journal = none ∧ d'.journal = d.removed
  pruned : d'.pruned = .empty
  tail : d'.tail = []
  removed : d'.removed = none

/-- Programs over a store directory. -/
abbrev Store (μ : Type) := Program Error μ Disk

section Writes
variable {μ : Type}

/-! ## Replacing a file: `write_atomic` -/

def writeMetadata (bytes : File) : Store μ Unit := .write (fun d => { d with metadata := some bytes }) fun _ => []

def writeWal (bytes : File) : Store μ Unit := .write (fun d => { d with wal := some bytes, tail := [] }) fun _ => []

def writeJournal (bytes : File) : Store μ Unit :=
  .write (fun d => { d with journal := some bytes, removed := none }) fun _ => []

def writeSnapshot (name : String) (bytes : File) : Store μ Unit :=
  .write (fun d => { d with snapshots := d.snapshots.insert name bytes, pruned := d.pruned.erase name }) fun _ => []

/-! ## The log file -/

/-- `write_new_header`: the new file is written in place -/
def createWal (header : File) : Store μ Unit :=
  .write (fun d => { d with wal := some header, tail := [] }) fun d =>
    header.inits.map fun part => { d with wal := some part, tail := [] }

/-- `append_bytes` with a sync -/
def appendWal (bytes : File) : Store μ Unit :=
  .write (fun d => { d with wal := some (d.wal.getD [] ++ bytes), tail := [] }) fun d =>
    bytes.inits.map fun part => { d with wal := some (d.wal.getD [] ++ part), tail := [] }

/-- `resize_file` to a smaller size -/
def shrinkWal (size : Nat) : Store μ Unit :=
  .write (fun d => { d with wal := d.wal.map (·.take size), tail := (d.wal.getD []).drop size ++ d.tail }) fun _ => []

/-- `sync_file` -/
def syncWal : Store μ Unit := .write (fun d => { d with tail := [] }) fun _ => []

/-! ## Removing a file -/

def removeJournal : Store μ Unit := .write (fun d => { d with journal := none, removed := d.journal }) fun _ => []

def removeSnapshot (name : String) : Store μ Unit :=
  .write (fun d => { d with
    snapshots := d.snapshots.erase name
    pruned := match d.snapshots.find? name with
      | some bytes => d.pruned.insert name bytes
      | none => d.pruned }) fun _ => []

/-- `sync_directory` makes the removal of the journal last. -/
def syncDirectory : Store μ Unit := .write (fun d => { d with removed := none }) fun _ => []

end Writes

end Choreolog.Storage
