import Choreolog.Storage.Disk

/-! # The journal of a snapshot install

`cpp-runtime/src/storage/transaction.cpp`: one redo record holds the three replacement files. Once it is on
the disk the install is decided, and recovery completes it before any other file is read. -/

namespace Choreolog.Storage
open Lib State

structure SnapshotTransaction where
  index : UInt64
  snapshot : File
  metadata : File
  wal : File
  deriving DecidableEq

def maximumBytes : Nat := 128 * 1024 * 1024

def headerBytes : Nat := 32

def invalidTransaction (why : String) : Error := ⟨.storeError, "snapshot transaction: " ++ why⟩

namespace SnapshotTransaction

/-- Everything before the checksum. -/
def body (value : SnapshotTransaction) : File :=
  Bytes.ofText "CHOSTXN1" ++ Bytes.ofNat 4 1 ++ Bytes.ofNat 8 value.index.toNat ++ Bytes.ofNat 4 value.snapshot.length ++
    Bytes.ofNat 4 value.metadata.length ++ Bytes.ofNat 4 value.wal.length ++ value.snapshot ++ value.metadata ++ value.wal

def encode (value : SnapshotTransaction) : Result File :=
  if maximumBytes - headerBytes - 4 < value.snapshot.length + value.metadata.length + value.wal.length then
    .error (invalidTransaction "replacement images exceed 128 MiB")
  else if value.index = 0 ∨ value.snapshot = [] ∨ value.metadata = [] ∨ value.wal = [] then
    .error (invalidTransaction "missing index or replacement image")
  else .ok (value.body ++ Bytes.ofNat 4 (Bytes.crc32 value.body).toNat)

/-- The image at `cursor` whose length is in the header at `field`, and where it ends. -/
def readPart (bytes : File) (field cursor : Nat) : Result (File × Nat) :=
  let length := Bytes.toNat (Bytes.slice field 4 bytes)
  if length = 0 ∨ bytes.length - 4 - cursor < length then
    .error (invalidTransaction "invalid replacement image length")
  else .ok (Bytes.slice cursor length bytes, cursor + length)

def decode (bytes : File) : Result SnapshotTransaction :=
  if bytes.length < headerBytes + 4 ∨ maximumBytes < bytes.length then
    .error (invalidTransaction "invalid journal size")
  else if Bytes.toText (Bytes.slice 0 8 bytes) ≠ "CHOSTXN1" ∨ Bytes.toNat (Bytes.slice 8 4 bytes) ≠ 1 ∨
      Bytes.toNat (Bytes.slice 12 8 bytes) = 0 ∨
      (Bytes.crc32 (bytes.take (bytes.length - 4))).toNat ≠ Bytes.toNat (Bytes.slice (bytes.length - 4) 4 bytes) then
    .error (invalidTransaction "invalid journal header or checksum")
  else do
    let (snapshot, cursor) ← readPart bytes 20 headerBytes
    let (metadata, cursor) ← readPart bytes 24 cursor
    let (wal, cursor) ← readPart bytes 28 cursor
    if cursor ≠ bytes.length - 4 then .error (invalidTransaction "trailing journal data")
    else return { index := UInt64.ofNat (Bytes.toNat (Bytes.slice 12 8 bytes)), snapshot, metadata, wal }

end SnapshotTransaction

/-- `name << std::setw(16) << std::setfill('0') << index << ".snap"` -/
def snapshotName (index : Nat) : String :=
  String.ofList (List.replicate (16 - (Text.ofNat index).length) '0' ++ Text.ofNat index ++ ".snap".toList)

section Programs
variable {μ : Type}

def applyTransaction (value : SnapshotTransaction) : Store μ Unit := do
  syncDirectory
  writeSnapshot (snapshotName value.index.toNat) value.snapshot
  writeMetadata value.metadata
  writeWal value.wal
  if (← .disk).journal.isNone then .fail (invalidTransaction "cannot remove completed journal")
  else
    removeJournal
    syncDirectory

def commitSnapshotTransaction (value : SnapshotTransaction) : Store μ Unit := do
  if (← .disk).journal.isSome then .fail (invalidTransaction "pending install requires recovery")
  else
    let bytes ← .of value.encode
    syncDirectory
    writeJournal bytes
    applyTransaction value

def recoverSnapshotTransaction : Store μ Unit := do
  match (← .disk).journal with
  | none => syncDirectory
  | some bytes =>
    if maximumBytes < bytes.length then .fail (invalidTransaction "unreadable or oversized journal")
    else
      let value ← .of (SnapshotTransaction.decode bytes)
      applyTransaction value

end Programs

end Choreolog.Storage
