import Choreolog.Lib.Bytes
import Choreolog.Lib.Wire
import Choreolog.State.Model

/-! # Replication messages and their encoding

`cpp-runtime/include/choreoos/protocol/messages.hpp`, `frame.hpp` and `cpp-runtime/src/protocol/codec.cpp`: the
messages that replicas exchange, as protobuf bytes. A `std::string` is a `String` with one byte a character. -/

namespace Choreolog.Protocol
open Lib State

/-- `kMaxFramePayload` -/
def maxFramePayload : Nat := 2 ^ 20

inductive MessageType where
  | handshake
  | appendEntries
  | appendEntriesResponse
  | requestVote
  | requestVoteResponse
  | installSnapshot
  | installSnapshotResponse
  | protocolError
  | clientCommand
  | clientResponse
  | statusQuery
  | statusResponse
  | managementQuery
  | managementReply
  deriving DecidableEq, Repr

structure Frame where
  type : MessageType
  correlation : Nat
  payload : List UInt8
  deriving DecidableEq

@[ext] structure AppendEntries where
  term : Nat := 1
  leaderId : String := ""
  prevLogIndex : Nat := 0
  prevLogTerm : Nat := 0
  entries : List Event := []
  leaderCommit : Nat := 0
  deriving DecidableEq

@[ext] structure AppendEntriesResponse where
  term : Nat := 1
  followerId : String := ""
  success : Bool := false
  matchIndex : Nat := 0
  hintIndex : Nat := 0
  deriving DecidableEq

@[ext] structure RequestVote where
  term : Nat := 1
  candidateId : String := ""
  lastLogIndex : Nat := 0
  lastLogTerm : Nat := 0
  deriving DecidableEq

@[ext] structure RequestVoteResponse where
  term : Nat := 1
  voterId : String := ""
  voteGranted : Bool := false
  deriving DecidableEq

/-- One chunk of a snapshot payload: where it starts, and whether another one follows. -/
@[ext] structure InstallSnapshot where
  term : Nat := 1
  leaderId : String := ""
  lastIncludedIndex : Nat := 0
  lastIncludedTerm : Nat := 0
  stateHash : String := ""
  payload : String := ""
  offset : Nat := 0
  more : Bool := false
  deriving DecidableEq

/-- The offset that the follower expects next; 0 after a chunk that it refused. -/
@[ext] structure InstallSnapshotResponse where
  term : Nat := 1
  followerId : String := ""
  success : Bool := false
  nextOffset : Nat := 0
  deriving DecidableEq

/-! ## Encoders -/

def writeText (field : Nat) (text : String) : List UInt8 := Wire.bytes field (Bytes.ofText text)

/-- An event inside a message: a record whose one field is its text. -/
def writeEvent (field : Nat) (event : Event) : List UInt8 := Wire.bytes field (writeText 1 (canonicalEvent event))

def AppendEntries.encode (message : AppendEntries) : List UInt8 :=
  Wire.uint 1 message.term ++ writeText 2 message.leaderId ++ Wire.uint 3 message.prevLogIndex ++
    Wire.uint 4 message.prevLogTerm ++ message.entries.flatMap (writeEvent 5) ++ Wire.uint 6 message.leaderCommit

def AppendEntriesResponse.encode (message : AppendEntriesResponse) : List UInt8 :=
  Wire.uint 1 message.term ++ writeText 2 message.followerId ++ Wire.bool 3 message.success ++
    Wire.uint 4 message.matchIndex ++ Wire.uint 5 message.hintIndex

def RequestVote.encode (message : RequestVote) : List UInt8 :=
  Wire.uint 1 message.term ++ writeText 2 message.candidateId ++ Wire.uint 3 message.lastLogIndex ++
    Wire.uint 4 message.lastLogTerm

def RequestVoteResponse.encode (message : RequestVoteResponse) : List UInt8 :=
  Wire.uint 1 message.term ++ writeText 2 message.voterId ++ Wire.bool 3 message.voteGranted

def InstallSnapshot.encode (message : InstallSnapshot) : List UInt8 :=
  Wire.uint 1 message.term ++ writeText 2 message.leaderId ++ Wire.uint 3 message.lastIncludedIndex ++
    Wire.uint 4 message.lastIncludedTerm ++ writeText 5 message.stateHash ++ writeText 6 message.payload ++
    Wire.uint 7 message.offset ++ Wire.bool 8 message.more

def InstallSnapshotResponse.encode (message : InstallSnapshotResponse) : List UInt8 :=
  Wire.uint 1 message.term ++ writeText 2 message.followerId ++ Wire.bool 3 message.success ++
    Wire.uint 4 message.nextOffset

/-! ## Decoders -/

def protocolError (message : String) : Error := ⟨.protocolError, message⟩

/-- The text of the record of an event; the last one if there are several. -/
def eventRecord (text : String) (field : Nat) (value : Wire.Value) : Result String :=
  match field, value with
  | 1, .bytes content => .ok (Bytes.toText content)
  | _, _ => .ok text

def decodeEvent (record : List UInt8) : Result Event := do
  parseEvent (← Wire.decode protocolError eventRecord "" record)

def AppendEntries.set (message : AppendEntries) (field : Nat) (value : Wire.Value) : Result AppendEntries :=
  match field, value with
  | 1, .varint n => .ok { message with term := n }
  | 2, .bytes content => .ok { message with leaderId := Bytes.toText content }
  | 3, .varint n => .ok { message with prevLogIndex := n }
  | 4, .varint n => .ok { message with prevLogTerm := n }
  | 5, .bytes content => do
    let event ← decodeEvent content
    return { message with entries := message.entries ++ [event] }
  | 6, .varint n => .ok { message with leaderCommit := n }
  | _, _ => .ok message

def AppendEntriesResponse.set (message : AppendEntriesResponse) (field : Nat) (value : Wire.Value) : Result AppendEntriesResponse :=
  match field, value with
  | 1, .varint n => .ok { message with term := n }
  | 2, .bytes content => .ok { message with followerId := Bytes.toText content }
  | 3, .varint n => .ok { message with success := n ≠ 0 }
  | 4, .varint n => .ok { message with matchIndex := n }
  | 5, .varint n => .ok { message with hintIndex := n }
  | _, _ => .ok message

def RequestVote.set (message : RequestVote) (field : Nat) (value : Wire.Value) : Result RequestVote :=
  match field, value with
  | 1, .varint n => .ok { message with term := n }
  | 2, .bytes content => .ok { message with candidateId := Bytes.toText content }
  | 3, .varint n => .ok { message with lastLogIndex := n }
  | 4, .varint n => .ok { message with lastLogTerm := n }
  | _, _ => .ok message

def RequestVoteResponse.set (message : RequestVoteResponse) (field : Nat) (value : Wire.Value) : Result RequestVoteResponse :=
  match field, value with
  | 1, .varint n => .ok { message with term := n }
  | 2, .bytes content => .ok { message with voterId := Bytes.toText content }
  | 3, .varint n => .ok { message with voteGranted := n ≠ 0 }
  | _, _ => .ok message

def InstallSnapshot.set (message : InstallSnapshot) (field : Nat) (value : Wire.Value) : Result InstallSnapshot :=
  match field, value with
  | 1, .varint n => .ok { message with term := n }
  | 2, .bytes content => .ok { message with leaderId := Bytes.toText content }
  | 3, .varint n => .ok { message with lastIncludedIndex := n }
  | 4, .varint n => .ok { message with lastIncludedTerm := n }
  | 5, .bytes content => .ok { message with stateHash := Bytes.toText content }
  | 6, .bytes content => .ok { message with payload := Bytes.toText content }
  | 7, .varint n => .ok { message with offset := n }
  | 8, .varint n => .ok { message with more := n ≠ 0 }
  | _, _ => .ok message

def InstallSnapshotResponse.set (message : InstallSnapshotResponse) (field : Nat) (value : Wire.Value) :
    Result InstallSnapshotResponse :=
  match field, value with
  | 1, .varint n => .ok { message with term := n }
  | 2, .bytes content => .ok { message with followerId := Bytes.toText content }
  | 3, .varint n => .ok { message with success := n ≠ 0 }
  | 4, .varint n => .ok { message with nextOffset := n }
  | _, _ => .ok message

def decodeAppendEntries (bytes : List UInt8) : Result AppendEntries := Wire.decode protocolError AppendEntries.set {} bytes

def decodeAppendResponse (bytes : List UInt8) : Result AppendEntriesResponse :=
  Wire.decode protocolError AppendEntriesResponse.set {} bytes

def decodeRequestVote (bytes : List UInt8) : Result RequestVote := Wire.decode protocolError RequestVote.set {} bytes

def decodeVoteResponse (bytes : List UInt8) : Result RequestVoteResponse := Wire.decode protocolError RequestVoteResponse.set {} bytes

def decodeInstallSnapshot (bytes : List UInt8) : Result InstallSnapshot := Wire.decode protocolError InstallSnapshot.set {} bytes

def decodeSnapshotResponse (bytes : List UInt8) : Result InstallSnapshotResponse :=
  Wire.decode protocolError InstallSnapshotResponse.set {} bytes

end Choreolog.Protocol
