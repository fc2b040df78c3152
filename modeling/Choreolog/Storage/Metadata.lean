import Choreolog.Storage.Disk
import Choreolog.Storage.Snapshot

/-! # Consensus metadata

`cpp-runtime/src/storage/metadata.cpp`: the term, the commit index and the vote of a node. A directory
without the file has the metadata of a new node. -/

namespace Choreolog.Storage
open Lib State

structure NodeMetadata where
  term : Nat := 1
  commitIndex : Nat := 0
  votedFor : Option NodeId := none
  deriving DecidableEq

def maxVoteLength : Nat := 64

/-- Everything before the checksum. -/
def metadataBody (metadata : NodeMetadata) (voted : String) : File :=
  Bytes.ofText "CHOSMETA" ++ Bytes.ofNat 2 1 ++ Bytes.ofNat 2 voted.toList.length ++ Bytes.ofNat 8 metadata.term ++
    Bytes.ofNat 8 metadata.commitIndex ++ Bytes.ofText voted

def encodeMetadata (metadata : NodeMetadata) : Result File :=
  let voted := (metadata.votedFor.map (·.value)).getD ""
  if maxVoteLength < voted.toList.length then .error ⟨.storeError, "voted_for exceeds 64 characters"⟩
  else
    let body := metadataBody metadata voted
    .ok (body ++ Bytes.ofNat 4 (Bytes.crc32 body).toNat)

def decodeMetadata (file : File) : Result NodeMetadata :=
  if file.length < 32 then .error ⟨.storeError, "metadata file is incomplete"⟩
  else if Bytes.toText (Bytes.slice 0 8 file) ≠ "CHOSMETA" then .error ⟨.storeError, "metadata magic is invalid"⟩
  else if readU 2 8 file ≠ 1 then .error ⟨.storeError, "metadata version is unsupported"⟩
  else
    let votedLen := readU 2 10 file
    if maxVoteLength < votedLen ∨ file.length ≠ 32 + votedLen then .error ⟨.storeError, "metadata length is invalid"⟩
    else if (Bytes.crc32 (file.take (file.length - 4))).toNat ≠ readU 4 (file.length - 4) file then
      .error ⟨.storeError, "metadata checksum mismatch"⟩
    else do
      let term ← orElseError "metadata contains an invalid term or index" (parseTerm (readU 8 12 file))
      let metadata : NodeMetadata := { term, commitIndex := readU 8 20 file }
      if votedLen = 0 then return metadata
      else do
        let votedFor ← StrongId.parse (Bytes.toText (Bytes.slice 28 votedLen file))
        return { metadata with votedFor := some votedFor }

section Programs
variable {μ : Type}

def loadMetadata : Store μ NodeMetadata := do
  match (← .disk).metadata with
  | none => return {}
  | some file => .of (decodeMetadata file)

def storeMetadata (metadata : NodeMetadata) : Store μ Unit := do
  writeMetadata (← .of (encodeMetadata metadata))

end Programs

end Choreolog.Storage
