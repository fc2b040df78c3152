import Choreolog.Storage.Disk
import Choreolog.Storage.Snapshot

/-! # The write-ahead log

`cpp-runtime/src/storage/wal.cpp`: a header and one framed record for each event. Loading cuts off a record
that was not written to its end and refuses any other damage. -/

namespace Choreolog.Storage
open Lib State

/-! ## Bytes -/

def maxPayloadBytes : Nat := 1024 * 1024

/-- The bytes `LOG1`. -/
def recordMagic : Nat := 0x31474F4C

def fileHeaderBytes : Nat := 16

def recordPrefixBytes : Nat := 28

def corrupt (detail : String) : Error := ⟨.storeError, detail⟩

def walFileHeader : File :=
  let header := Bytes.ofText "CHOSWAL1" ++ Bytes.ofNat 2 1 ++ Bytes.ofNat 2 0
  header ++ Bytes.ofNat 4 (Bytes.crc32 header).toNat

/-- Everything before the checksum. -/
def recordBody (event : Event) : File :=
  Bytes.ofNat 4 recordMagic ++ Bytes.ofNat 2 1 ++ Bytes.ofNat 2 0 ++ Bytes.ofNat 4 (canonicalEvent event).toList.length ++
    Bytes.ofNat 8 event.term ++ Bytes.ofNat 8 event.index ++ Bytes.ofText (canonicalEvent event)

def encodeRecord (event : Event) : Result File :=
  if maxPayloadBytes < (canonicalEvent event).toList.length then .error (corrupt "event payload exceeds 1 MiB")
  else .ok (recordBody event ++ Bytes.ofNat 4 (Bytes.crc32 (recordBody event)).toNat)

def encodeWal (events : List Event) : Result File := do
  let records ← events.mapM encodeRecord
  return walFileHeader ++ records.flatten

/-- Whether the mark of a record occurs in the bytes. -/
def laterMagic (bytes : File) : Bool := bytes.tails.any fun rest => (Bytes.ofText "LOG1").isPrefixOf rest

/-- The record at the start of `rest` and its size; `none` for a torn tail. -/
def readRecord (offset : Nat) (rest : File) : Result (Option (Event × Nat)) :=
  if rest.length < recordPrefixBytes + 4 then .ok none
  else if readU 4 0 rest ≠ recordMagic ∨ readU 2 4 rest ≠ 1 then
    -- Garbage is a tail only if no later record follows it.
    if laterMagic (rest.drop 1) then .error (corrupt ("corrupt write-ahead record at offset " ++ toString offset))
    else .ok none
  else
    let payloadLen := readU 4 8 rest
    if maxPayloadBytes < payloadLen then .error (corrupt "write-ahead record exceeds the 1 MiB limit")
    else if rest.length < recordPrefixBytes + payloadLen + 4 then .ok none
    else if (Bytes.crc32 (rest.take (recordPrefixBytes + payloadLen))).toNat ≠ readU 4 (recordPrefixBytes + payloadLen) rest then
      .error (corrupt ("write-ahead record checksum mismatch at offset " ++ toString offset))
    else
      match parseEvent (Bytes.toText (Bytes.slice recordPrefixBytes payloadLen rest)) with
      | .error _ => .error (corrupt "write-ahead payload is not a canonical event")
      | .ok event =>
        if event.index ≠ readU 8 20 rest ∨ event.term ≠ readU 8 12 rest then
          .error (corrupt "write-ahead envelope does not match its payload")
        else .ok (some (event, recordPrefixBytes + payloadLen + 4))

/-- The records of `rest` with the offset at which each ends. A record is longer than one byte, so the number
    of bytes is enough fuel. -/
def readRecords : Nat → Nat → File → Result (List (Event × Nat))
  | 0, _, _ => .ok []
  | fuel + 1, offset, rest =>
    if rest = [] then .ok []
    else do
      match ← readRecord offset rest with
      | none => return []
      | some (event, size) =>
        let more ← readRecords fuel (offset + size) (rest.drop size)
        return (event, offset + size) :: more

def readWal (file : File) : Result (List (Event × Nat)) :=
  if file.length < fileHeaderBytes then .error (corrupt "write-ahead log header is incomplete")
  else if Bytes.toText (Bytes.slice 0 8 file) ≠ "CHOSWAL1" then .error (corrupt "write-ahead log magic is invalid")
  else if readU 2 8 file ≠ 1 then .error (corrupt "write-ahead log version is unsupported")
  else if (Bytes.crc32 (file.take 12)).toNat ≠ readU 4 12 file then
    .error (corrupt "write-ahead log header checksum mismatch")
  else readRecords file.length fileHeaderBytes (file.drop fileHeaderBytes)

/-! ## The log of an open store -/

structure WriteAheadLog where
  events : List Event := []
  recordEnds : List Nat := []
  deriving DecidableEq

namespace WriteAheadLog
variable {μ : Type}

/-- Where the last record ends. -/
def fileEnd (wal : WriteAheadLog) : Nat := wal.recordEnds.getLast?.getD fileHeaderBytes

def load : Store μ WriteAheadLog := do
  match (← .disk).wal with
  | none => .fail (corrupt "unable to open wal.bin")
  | some file =>
    let records ← .of (readWal file)
    let wal : WriteAheadLog := ⟨records.map Prod.fst, records.map Prod.snd⟩
    if wal.fileEnd < file.length then do
      shrinkWal wal.fileEnd
      return wal
    else return wal

def «open» : Store μ WriteAheadLog := do
  if (← .disk).wal.isNone then do
    createWal walFileHeader
    syncDirectory
    load
  else load

def append (wal : WriteAheadLog) (event : Event) : Store μ WriteAheadLog := do
  let record ← .of (encodeRecord event)
  appendWal record
  return ⟨wal.events ++ [event], wal.recordEnds ++ [wal.fileEnd + record.length]⟩

def truncateAfter (wal : WriteAheadLog) (index : Nat) : Store μ WriteAheadLog := do
  let keep := (wal.events.takeWhile (·.index ≤ index)).length
  let kept : WriteAheadLog := ⟨wal.events.take keep, wal.recordEnds.take keep⟩
  shrinkWal kept.fileEnd
  syncWal
  return kept

def rewrite (events : List Event) : Store μ WriteAheadLog := do
  writeWal (← .of (encodeWal events))
  load

end WriteAheadLog

end Choreolog.Storage
