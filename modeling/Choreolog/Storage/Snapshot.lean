import Choreolog.Lib.Bytes
import Choreolog.State.Snapshot

/-! # Snapshot files

`cpp-runtime/src/storage/snapshot.cpp`: the bytes of a snapshot file and the checks on reading them. The
second format holds the payload of a state, the first one the events that produced it. -/

namespace Choreolog.Storage
open Lib State

structure Snapshot where
  index : Nat := 0
  term : Nat := 1
  stateHash : String
  events : List Event := []
  statePayload : String := ""
  deriving DecidableEq

def Snapshot.legacy (snapshot : Snapshot) : Bool := snapshot.statePayload == ""

def verifySnapshot (snapshot : Snapshot) : Result ChoreographyState := do
  let state ← if snapshot.legacy then replay snapshot.events none none else restoreState snapshot.statePayload
  if State.stateHash state.toDomain ≠ snapshot.stateHash ∨ state.lastApplied ≠ snapshot.index ∨ state.term ≠ snapshot.term then
    .error ⟨.storeError, "snapshot state hash does not match its contents"⟩
  else .ok state

/-- `UINT32_MAX - 64` -/
def maxPayload : Nat := 2 ^ 32 - 1 - 64

/-- Everything before the checksum. -/
def snapshotBody (state : ChoreographyState) : List UInt8 :=
  Bytes.ofText "CHOSSNAP" ++ Bytes.ofNat 2 2 ++ Bytes.ofNat 2 currentSchemaVersion.toNat ++
    Bytes.ofNat 8 state.lastApplied ++ Bytes.ofNat 8 state.term ++ Bytes.ofText (State.stateHash state.toDomain) ++
    Bytes.ofNat 4 (snapshotPayload state).toList.length ++ Bytes.ofText (snapshotPayload state)

def encodeSnapshot (state : ChoreographyState) : Result (List UInt8) :=
  if (State.stateHash state.toDomain).toList.length ≠ 16 then
    .error ⟨.storeError, "state hash must be 16 hex characters"⟩
  else if maxPayload < (snapshotPayload state).toList.length then
    .error ⟨.storeError, "snapshot payload is too large"⟩
  else
    let body := snapshotBody state
    .ok (body ++ Bytes.ofNat 4 (Bytes.crc32 body).toNat)

def readU (width offset : Nat) (file : List UInt8) : Nat := Bytes.toNat (Bytes.slice offset width file)

def readSnapshot (file : List UInt8) : Result Snapshot := do
  if file.length < 52 then .error ⟨.storeError, "snapshot is incomplete"⟩
  if Bytes.toText (Bytes.slice 0 8 file) ≠ "CHOSSNAP" then .error ⟨.storeError, "snapshot magic is invalid"⟩
  let format := readU 2 8 file
  if (format ≠ 1 ∧ format ≠ 2) ∨ readU 2 10 file ≠ currentSchemaVersion.toNat then
    .error ⟨.storeError, "snapshot version is unsupported"⟩
  let payloadLen := readU 4 44 file
  if file.length ≠ 52 + payloadLen then .error ⟨.storeError, "snapshot length is invalid"⟩
  if (Bytes.crc32 (file.take (file.length - 4))).toNat ≠ readU 4 (file.length - 4) file then
    .error ⟨.storeError, "snapshot checksum mismatch"⟩
  let term ← orElseError "snapshot index or term is invalid" (parseTerm (readU 8 20 file))
  let payload := Bytes.toText (Bytes.slice 48 payloadLen file)
  let snapshot : Snapshot :=
    { index := readU 8 12 file, term, stateHash := Bytes.toText (Bytes.slice 28 16 file) }
  let snapshot ←
    if format = 2 then .ok { snapshot with statePayload := payload }
    else do
      let lines := (Text.getlines '\n' payload.toList).filter (· ≠ [])
      let events ← lines.mapM fun line => parseEvent (String.ofList line)
      .ok { snapshot with events }
  let _ ← verifySnapshot snapshot
  return snapshot

/-- The snapshot that the file of a state holds. -/
def Snapshot.ofState (state : ChoreographyState) : Snapshot :=
  { index := state.lastApplied, term := state.term, stateHash := State.stateHash state.toDomain
    statePayload := snapshotPayload state }

end Choreolog.Storage
