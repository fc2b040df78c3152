import Choreolog.Lib.Bytes
import Choreolog.Raft.DurableNode

/-! # Checkpoint files

`cpp-runtime/src/raft/checkpoint.cpp`: the bytes of a checkpoint. Votes and commands are any bytes here, and indexes have
64 bits, as in the file. -/

namespace Choreolog.Raft.Checkpoint
open Lib

structure Entry where
  term : UInt64
  command : List UInt8

/-- A durable state with the widths of the source. -/
structure Value where
  term : UInt64
  commit : UInt64
  applied : UInt64
  votedFor : Option (List UInt8)
  snapshotIndex : UInt64 := 0
  snapshotTerm : UInt64 := 0
  log : List Entry

def noVote : Nat := 2 ^ 32 - 1

def validState (value : Value) : Except String Unit :=
  if value.snapshotIndex ≠ 0 ∨ value.snapshotTerm ≠ 0 then
    .error "Raft v1 checkpoint cannot store a snapshot boundary"
  else if value.log.length < value.commit.toNat ∨ value.commit < value.applied then
    .error "Raft checkpoint indexes violate applied <= commit <= log length"
  else if value.applied ≠ 0 then
    .error "Raft checkpoint cannot persist applied progress without state-machine snapshot"
  else if value.votedFor.any (64 < ·.length) then .error "Raft checkpoint vote ID too large"
  else if maximumCheckpointEntries < value.log.length then .error "Raft checkpoint log too long"
  else if value.log.any fun entry =>
      entry.term == 0 || value.term < entry.term || entry.command.isEmpty ||
        maximumCommandBytes < entry.command.length then
    .error "Raft checkpoint entry has invalid term or command length"
  else .ok ()

/-! ## Writing -/

def encodeVote : Option (List UInt8) → List UInt8
  | none => Bytes.ofNat 4 noVote
  | some vote => Bytes.ofNat 4 vote.length ++ vote

def encodeEntry (entry : Entry) : List UInt8 :=
  Bytes.ofNat 8 entry.term.toNat ++ Bytes.ofNat 4 entry.command.length ++ entry.command

def payload (value : Value) : List UInt8 :=
  Bytes.ofNat 8 value.term.toNat ++ Bytes.ofNat 8 value.commit.toNat ++ Bytes.ofNat 8 value.applied.toNat ++
    encodeVote value.votedFor ++ Bytes.ofNat 4 value.log.length ++ value.log.flatMap encodeEntry

/-- Everything before the checksum. The source fills in the length of the payload at last. -/
def body (value : Value) : List UInt8 :=
  Bytes.ofText "CHRAFT01" ++ Bytes.ofNat 4 1 ++ Bytes.ofNat 4 (payload value).length ++ payload value

def encode (value : Value) : Except String (List UInt8) := do
  validState value
  if maximumFileBytes - 4 < (body value).length then .error "Raft checkpoint exceeds maximum encoded size"
  else return body value ++ Bytes.ofNat 4 (Bytes.crc32 (body value)).toNat

/-! ## Reading

A reader holds the bytes behind its cursor. -/

def takeString (length : Nat) (rest : List UInt8) : Option (List UInt8 × List UInt8) :=
  if rest.length < length then none else some (rest.take length, rest.drop length)

/-- `take_u32` and `take_u64` -/
def takeU (width : Nat) (rest : List UInt8) : Option (Nat × List UInt8) :=
  (takeString width rest).map fun r => (Bytes.toNat r.1, r.2)

def takeEntry (rest : List UInt8) : Option (Entry × List UInt8) := do
  let (term, rest) ← takeU 8 rest
  let (length, rest) ← takeU 4 rest
  if maximumCommandBytes < length then none
  else
    let (command, rest) ← takeString length rest
    return (⟨UInt64.ofNat term, command⟩, rest)

def takeEntries : Nat → List UInt8 → Option (List Entry × List UInt8)
  | 0, rest => some ([], rest)
  | count + 1, rest => do
    let (entry, rest) ← takeEntry rest
    let (entries, rest) ← takeEntries count rest
    return (entry :: entries, rest)

def orError {α : Type} (message : String) : Option α → Except String α
  | none => .error message
  | some a => .ok a

def takeVote (length : Nat) (rest : List UInt8) : Except String (Option (List UInt8) × List UInt8) :=
  if length = noVote then .ok (none, rest)
  else if 64 < length then .error "Raft checkpoint vote ID too long"
  else do
    let (vote, rest) ← orError "Raft checkpoint vote incomplete" (takeString length rest)
    return (some vote, rest)

/-- The part of `decode` behind the header. -/
def read (rest : List UInt8) : Except String Value := do
  let truncated := "Raft checkpoint has truncated metadata"
  let (term, rest) ← orError truncated (takeU 8 rest)
  let (commit, rest) ← orError truncated (takeU 8 rest)
  let (applied, rest) ← orError truncated (takeU 8 rest)
  let (voteLength, rest) ← orError truncated (takeU 4 rest)
  let (votedFor, rest) ← takeVote voteLength rest
  let (count, rest) ← orError "Raft checkpoint log count invalid" (takeU 4 rest)
  if maximumCheckpointEntries < count then .error "Raft checkpoint log count invalid"
  else
    let (log, rest) ← orError "Raft checkpoint log entry malformed" (takeEntries count rest)
    if rest.length ≠ 4 then .error "Raft checkpoint trailing data"
    else
      let value : Value := { term := .ofNat term, commit := .ofNat commit, applied := .ofNat applied, votedFor, log }
      validState value
      return value

def decode (bytes : List UInt8) : Except String Value :=
  if bytes.length < 16 + 8 * 3 + 4 + 4 + 4 ∨ maximumFileBytes < bytes.length then
    .error "Raft checkpoint has invalid file size"
  else if Bytes.slice 0 8 bytes ≠ Bytes.ofText "CHRAFT01" ∨ Bytes.toNat (Bytes.slice 8 4 bytes) ≠ 1 ∨
      Bytes.toNat (Bytes.slice 12 4 bytes) ≠ bytes.length - 20 then
    .error "Raft checkpoint magic, version, or length invalid"
  else if (Bytes.crc32 (bytes.take (bytes.length - 4))).toNat ≠ Bytes.toNat (Bytes.slice (bytes.length - 4) 4 bytes) then
    .error "Raft checkpoint checksum mismatch"
  else read (bytes.drop 16)

end Choreolog.Raft.Checkpoint
