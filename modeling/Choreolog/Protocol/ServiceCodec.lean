import Choreolog.Protocol.Codec

/-! # Handshakes, clients and management

The other messages of `cpp-runtime/include/choreoos/protocol/messages.hpp` and their encoding in
`cpp-runtime/src/protocol/codec.cpp`. The decoders for management messages compare the whole field number; all
others first cast it to an `int`. -/

namespace Choreolog.Protocol
open Lib State

@[ext] structure Handshake where
  nodeId : String := ""
  major : Nat := 1
  minor : Nat := 0
  deriving DecidableEq

@[ext] structure ProtocolError where
  code : String := ""
  detail : String := ""
  deriving DecidableEq

@[ext] structure ClientCommand where
  canonical : String := ""
  deriving DecidableEq

@[ext] structure ClientResponse where
  ok : Bool := false
  duplicate : Bool := false
  errorCode : String := ""
  errorMessage : String := ""
  leaderId : String := ""
  index : Nat := 0
  eventCanonical : String := ""
  stateHash : String := ""
  deriving DecidableEq

@[ext] structure StatusResponse where
  nodeId : String := ""
  leaderId : String := ""
  role : String := ""
  term : Nat := 1
  commitIndex : Nat := 0
  lastLogIndex : Nat := 0
  stateHash : String := ""
  canonicalState : String := ""
  deriving DecidableEq

@[ext] structure ManagementQuery where
  operation : String := ""
  afterIndex : Nat := 0
  pageSize : Nat := 0
  peerId : String := ""
  delayMs : Nat := 0
  expectedStateHash : String := ""
  deriving DecidableEq

@[ext] structure ManagementReply where
  errorCode : String := ""
  errorMessage : String := ""
  events : List String := []
  nextAfterIndex : Nat := 0
  hasMore : Bool := false
  roleChanges : Nat := 0
  electionsStarted : Nat := 0
  votesGranted : Nat := 0
  stepDowns : Nat := 0
  messagesDroppedOversize : Nat := 0
  snapshotChunksSent : Nat := 0
  transportFramesSent : Nat := 0
  transportFramesReceived : Nat := 0
  transportDropped : Nat := 0
  snapshotIndex : Nat := 0
  snapshotStateHash : String := ""
  recoveryReport : String := ""
  stateChunk : String := ""
  stateSize : Nat := 0
  deriving DecidableEq

/-! ## Encoders -/

def Handshake.encode (message : Handshake) : List UInt8 :=
  writeText 1 message.nodeId ++ Wire.uint 2 message.major ++ Wire.uint 3 message.minor

def ProtocolError.encode (message : ProtocolError) : List UInt8 := writeText 1 message.code ++ writeText 2 message.detail

def ClientCommand.encode (message : ClientCommand) : List UInt8 := writeText 1 message.canonical

def ClientResponse.encode (message : ClientResponse) : List UInt8 :=
  Wire.bool 1 message.ok ++ Wire.bool 2 message.duplicate ++ writeText 3 message.errorCode ++ writeText 4 message.errorMessage ++
    writeText 5 message.leaderId ++ Wire.uint 6 message.index ++ writeText 7 message.eventCanonical ++ writeText 8 message.stateHash

def StatusResponse.encode (message : StatusResponse) : List UInt8 :=
  writeText 1 message.nodeId ++ writeText 2 message.leaderId ++ writeText 3 message.role ++ Wire.uint 4 message.term ++
    Wire.uint 5 message.commitIndex ++ Wire.uint 6 message.lastLogIndex ++ writeText 7 message.stateHash ++
    writeText 8 message.canonicalState

def ManagementQuery.encode (message : ManagementQuery) : List UInt8 :=
  writeText 1 message.operation ++ Wire.uint 2 message.afterIndex ++ Wire.uint 3 message.pageSize ++ writeText 4 message.peerId ++
    Wire.uint 5 message.delayMs ++ writeText 6 message.expectedStateHash

def ManagementReply.encode (message : ManagementReply) : List UInt8 :=
  writeText 1 message.errorCode ++ writeText 2 message.errorMessage ++ message.events.flatMap (writeText 3) ++
    Wire.uint 4 message.nextAfterIndex ++ Wire.bool 5 message.hasMore ++ Wire.uint 6 message.roleChanges ++
    Wire.uint 7 message.electionsStarted ++ Wire.uint 8 message.votesGranted ++ Wire.uint 9 message.stepDowns ++
    Wire.uint 10 message.messagesDroppedOversize ++ Wire.uint 11 message.snapshotChunksSent ++
    Wire.uint 12 message.transportFramesSent ++ Wire.uint 13 message.transportFramesReceived ++
    Wire.uint 14 message.transportDropped ++ Wire.uint 15 message.snapshotIndex ++ writeText 16 message.snapshotStateHash ++
    writeText 17 message.recoveryReport ++ writeText 18 message.stateChunk ++ Wire.uint 19 message.stateSize

/-! ## Decoders -/

def Handshake.set (message : Handshake) (field : Nat) (value : Wire.Value) : Result Handshake :=
  match field, value with
  | 1, .bytes content => .ok { message with nodeId := Bytes.toText content }
  | 2, .varint n =>
    if 2 ^ 32 ≤ n then .error (protocolError "handshake version exceeds uint32") else .ok { message with major := n }
  | 3, .varint n =>
    if 2 ^ 32 ≤ n then .error (protocolError "handshake version exceeds uint32") else .ok { message with minor := n }
  | _, _ => .ok message

def ProtocolError.set (message : ProtocolError) (field : Nat) (value : Wire.Value) : Result ProtocolError :=
  match field, value with
  | 1, .bytes content => .ok { message with code := Bytes.toText content }
  | 2, .bytes content => .ok { message with detail := Bytes.toText content }
  | _, _ => .ok message

def ClientCommand.set (message : ClientCommand) (field : Nat) (value : Wire.Value) : Result ClientCommand :=
  match field, value with
  | 1, .bytes content => .ok { message with canonical := Bytes.toText content }
  | _, _ => .ok message

def ClientResponse.set (message : ClientResponse) (field : Nat) (value : Wire.Value) : Result ClientResponse :=
  match field, value with
  | 1, .varint n => .ok { message with ok := n ≠ 0 }
  | 2, .varint n => .ok { message with duplicate := n ≠ 0 }
  | 3, .bytes content => .ok { message with errorCode := Bytes.toText content }
  | 4, .bytes content => .ok { message with errorMessage := Bytes.toText content }
  | 5, .bytes content => .ok { message with leaderId := Bytes.toText content }
  | 6, .varint n => .ok { message with index := n }
  | 7, .bytes content => .ok { message with eventCanonical := Bytes.toText content }
  | 8, .bytes content => .ok { message with stateHash := Bytes.toText content }
  | _, _ => .ok message

def StatusResponse.set (message : StatusResponse) (field : Nat) (value : Wire.Value) : Result StatusResponse :=
  match field, value with
  | 1, .bytes content => .ok { message with nodeId := Bytes.toText content }
  | 2, .bytes content => .ok { message with leaderId := Bytes.toText content }
  | 3, .bytes content => .ok { message with role := Bytes.toText content }
  | 4, .varint n => .ok { message with term := n }
  | 5, .varint n => .ok { message with commitIndex := n }
  | 6, .varint n => .ok { message with lastLogIndex := n }
  | 7, .bytes content => .ok { message with stateHash := Bytes.toText content }
  | 8, .bytes content => .ok { message with canonicalState := Bytes.toText content }
  | _, _ => .ok message

def ManagementQuery.set (message : ManagementQuery) (field : Nat) (value : Wire.Value) : Result ManagementQuery :=
  match field, value with
  | 1, .bytes content => .ok { message with operation := Bytes.toText content }
  | 2, .varint n => .ok { message with afterIndex := n }
  | 3, .varint n =>
    if 128 < n then .error (protocolError "management page size exceeds 128") else .ok { message with pageSize := n }
  | 4, .bytes content => .ok { message with peerId := Bytes.toText content }
  | 5, .varint n =>
    if 5000 < n then .error (protocolError "management delay exceeds 5000 ms") else .ok { message with delayMs := n }
  | 6, .bytes content => .ok { message with expectedStateHash := Bytes.toText content }
  | _, _ => .ok message

def ManagementReply.set (message : ManagementReply) (field : Nat) (value : Wire.Value) : Result ManagementReply :=
  match field, value with
  | 1, .bytes content => .ok { message with errorCode := Bytes.toText content }
  | 2, .bytes content => .ok { message with errorMessage := Bytes.toText content }
  | 3, .bytes content => .ok { message with events := message.events ++ [Bytes.toText content] }
  | 4, .varint n => .ok { message with nextAfterIndex := n }
  | 5, .varint n => .ok { message with hasMore := n ≠ 0 }
  | 6, .varint n => .ok { message with roleChanges := n }
  | 7, .varint n => .ok { message with electionsStarted := n }
  | 8, .varint n => .ok { message with votesGranted := n }
  | 9, .varint n => .ok { message with stepDowns := n }
  | 10, .varint n => .ok { message with messagesDroppedOversize := n }
  | 11, .varint n => .ok { message with snapshotChunksSent := n }
  | 12, .varint n => .ok { message with transportFramesSent := n }
  | 13, .varint n => .ok { message with transportFramesReceived := n }
  | 14, .varint n => .ok { message with transportDropped := n }
  | 15, .varint n => .ok { message with snapshotIndex := n }
  | 16, .bytes content => .ok { message with snapshotStateHash := Bytes.toText content }
  | 17, .bytes content => .ok { message with recoveryReport := Bytes.toText content }
  | 18, .bytes content => .ok { message with stateChunk := Bytes.toText content }
  | 19, .varint n => .ok { message with stateSize := n }
  | _, _ => .ok message

def decodeHandshake (bytes : List UInt8) : Result Handshake := Wire.decode protocolError Handshake.set {} bytes

def decodeProtocolError (bytes : List UInt8) : Result ProtocolError := Wire.decode protocolError ProtocolError.set {} bytes

def decodeClientCommand (bytes : List UInt8) : Result ClientCommand := Wire.decode protocolError ClientCommand.set {} bytes

def decodeClientResponse (bytes : List UInt8) : Result ClientResponse := Wire.decode protocolError ClientResponse.set {} bytes

def decodeStatusResponse (bytes : List UInt8) : Result StatusResponse := Wire.decode protocolError StatusResponse.set {} bytes

def decodeManagementQuery (bytes : List UInt8) : Result ManagementQuery :=
  Wire.decodeWith id protocolError ManagementQuery.set {} bytes

def decodeManagementReply (bytes : List UInt8) : Result ManagementReply :=
  Wire.decodeWith id protocolError ManagementReply.set {} bytes

/-! ## All messages -/

/-- The messages that have a decoder; a status query is empty and has none. -/
inductive Kind where
  | handshake
  | appendEntries
  | appendResponse
  | requestVote
  | voteResponse
  | installSnapshot
  | snapshotResponse
  | protocolError
  | clientCommand
  | clientResponse
  | statusResponse
  | managementQuery
  | managementReply
  deriving DecidableEq, Repr

namespace Kind

def Message : Kind → Type
  | handshake => Handshake
  | appendEntries => AppendEntries
  | appendResponse => AppendEntriesResponse
  | requestVote => RequestVote
  | voteResponse => RequestVoteResponse
  | installSnapshot => InstallSnapshot
  | snapshotResponse => InstallSnapshotResponse
  | protocolError => ProtocolError
  | clientCommand => ClientCommand
  | clientResponse => ClientResponse
  | statusResponse => StatusResponse
  | managementQuery => ManagementQuery
  | managementReply => ManagementReply

def encode : (kind : Kind) → kind.Message → List UInt8
  | handshake => Handshake.encode
  | appendEntries => AppendEntries.encode
  | appendResponse => AppendEntriesResponse.encode
  | requestVote => RequestVote.encode
  | voteResponse => RequestVoteResponse.encode
  | installSnapshot => InstallSnapshot.encode
  | snapshotResponse => InstallSnapshotResponse.encode
  | protocolError => ProtocolError.encode
  | clientCommand => ClientCommand.encode
  | clientResponse => ClientResponse.encode
  | statusResponse => StatusResponse.encode
  | managementQuery => ManagementQuery.encode
  | managementReply => ManagementReply.encode

def decode : (kind : Kind) → List UInt8 → Result kind.Message
  | handshake => decodeHandshake
  | appendEntries => decodeAppendEntries
  | appendResponse => decodeAppendResponse
  | requestVote => decodeRequestVote
  | voteResponse => decodeVoteResponse
  | installSnapshot => decodeInstallSnapshot
  | snapshotResponse => decodeSnapshotResponse
  | protocolError => decodeProtocolError
  | clientCommand => decodeClientCommand
  | clientResponse => decodeClientResponse
  | statusResponse => decodeStatusResponse
  | managementQuery => decodeManagementQuery
  | managementReply => decodeManagementReply

end Kind

end Choreolog.Protocol
