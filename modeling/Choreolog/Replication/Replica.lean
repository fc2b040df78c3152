import Choreolog.Protocol.Codec
import Choreolog.Storage.Store

/-! # The replica

`cpp-runtime/src/replication/replica.cpp`: the log of a `FileEngine`, a role, a term and a vote that are kept on
disk, progress records of the peers, and chunked snapshots. Without elections the configured leader leads for ever.
What a replica sends goes to the outside together with what it writes, so that a crash has sent exactly the frames
before it. -/

namespace Choreolog.Replication
open Lib State Storage Protocol

inductive Role where
  | follower
  | candidate
  | leader
  deriving DecidableEq, Repr

structure ReplicaConfig where
  id : String
  leaderId : String := ""
  peers : List String
  elections : Bool := false
  rngSeed : UInt64 := 1
  electionTimeoutMin : Int := 3
  electionTimeoutMax : Int := 6
  snapshotEvery : Nat := 100
  maxAppendEntries : Nat := 512
  maxAppendBytes : Nat := 256 * 1024
  maxSnapshotChunkBytes : Nat := 256 * 1024
  deriving DecidableEq

structure EnqueueResult where
  event : Event
  duplicate : Bool
  committed : Bool
  leaderId : String
  deriving DecidableEq

/-- The one request in flight to a peer: the last append index or the snapshot index, and the end of the chunk. -/
structure Probe where
  frame : Frame
  term : Nat
  index : Nat
  offset : Nat
  deriving DecidableEq

structure Peer where
  id : String
  nextIndex : Nat := 1
  matchIndex : Nat := 0
  snapshotIndex : Nat := 0
  snapshotOffset : Nat := 0
  snapshotSentTick : Option Nat := none
  probe : Option Probe := none
  deriving DecidableEq

/-- A snapshot that is being assembled from chunks. -/
structure IncomingSnapshot where
  index : Nat
  term : Nat
  hash : String
  data : String := ""
  deriving DecidableEq

structure Replica where
  config : ReplicaConfig
  store : FileEngine
  speculative : ChoreographyState := {}
  speculativeDirty : Bool := false
  historyAnchor : Nat := 0
  commandIndex : OrdMap String Nat := .empty
  peers : List Peer := []
  incomingSnapshot : Option IncomingSnapshot := none
  ticks : Nat := 0
  nextCorrelation : Nat := 1
  role : Role := .follower
  halted : Bool := false
  currentTerm : Nat := 1
  votedFor : Option String := none
  votesFrom : List String := []
  electionElapsed : Int := 0
  electionTimeout : Int := 3
  rng : UInt64 := 1
  messagesDroppedOversize : Nat := 0
  deriving DecidableEq

/-- The directory, and every frame that was sent with the peer it was sent to. -/
structure World where
  disk : Disk := {}
  sent : List (String × Frame) := []
  deriving DecidableEq

abbrev Node := Program Error Replica World

/-- A call of the store, whose failure the replica looks at. -/
def onStore {α : Type} (m : Store FileEngine α) : Node (Result α) :=
  .inside (·.store) (fun store r => { r with store }) (·.disk) (fun disk w => { w with disk }) m

namespace Replica

/-! ## What a replica knows -/

def isLeader (r : Replica) : Bool :=
  !r.halted && if r.config.elections then r.role = .leader else r.config.id = r.config.leaderId

def isConfiguredPeer (r : Replica) (id : String) : Bool := r.peers.any (·.id = id)

def findIndex (r : Replica) (index : Nat) : Option Event := r.store.wal.logEntry index

def lastIndex (r : Replica) : Nat := r.store.lastLogIndex

def lastTerm (r : Replica) : Nat := (r.store.logTermAt r.lastIndex).getD 0

def majority (r : Replica) : Nat := (r.peers.length + 1) / 2 + 1

def logIsUpToDate (r : Replica) (lastLogTerm lastLogIndex : Nat) : Bool :=
  if lastLogTerm ≠ r.lastTerm then r.lastTerm < lastLogTerm else r.lastIndex ≤ lastLogIndex

def findCommand (r : Replica) (commandId : String) : Option Event :=
  match r.commandIndex.find? commandId with
  | none => none
  | some index => (r.findIndex index).filter (·.commandId.value = commandId)

/-! ## Changes in memory -/

def haltAfterStorageFailure (r : Replica) : Replica :=
  { r with halted := true, role := .follower, votesFrom := [], config := { r.config with leaderId := "" } }

/-- The uncommitted entries of the log, one after the other. -/
def applyUncommitted (store : FileEngine) : Nat → Nat → ChoreographyState → Result ChoreographyState
  | 0, _, state => .ok state
  | count + 1, index, state =>
    match store.wal.logEntry index with
    | none => .error ⟨.indexGap, "log is missing an uncommitted entry"⟩
    | some entry => do applyUncommitted store count (index + 1) (← apply state entry)

/-- The committed state plus every uncommitted entry. -/
def buildSpeculative (store : FileEngine) : Result ChoreographyState :=
  applyUncommitted store (store.lastLogIndex - store.commitIndex) (store.commitIndex + 1) store.state

/-- A failure leaves the stale state. -/
def rebuildSpeculative (r : Replica) : Replica :=
  match buildSpeculative r.store with
  | .ok speculative => { r with speculative, speculativeDirty := false }
  | .error _ => r

def trimRetainedHistory (r : Replica) : Replica :=
  let anchor := r.store.logFirstIndex
  if anchor ≤ r.historyAnchor then r
  else
    match retainStateHistoryFrom r.speculative anchor with
    | .error _ => { r with historyAnchor := anchor }.haltAfterStorageFailure
    | .ok speculative =>
      { r with historyAnchor := anchor, speculative, commandIndex := r.commandIndex.filter fun _ index => anchor ≤ index }

def ensureSpeculative (r : Replica) : Replica :=
  let r := r.trimRetainedHistory
  if r.speculativeDirty then r.rebuildSpeculative else r

def rebuildCommandIndex (r : Replica) : Replica :=
  { r with commandIndex := r.store.wal.events.foldl (fun index event => index.insert event.commandId.value event.index) .empty }

def nextRandom (r : Replica) : UInt64 :=
  let x := r.rng ^^^ (r.rng <<< 13)
  let x := x ^^^ (x >>> 7)
  x ^^^ (x <<< 17)

/-- `draw_timeout`, into the election timeout. -/
def drawTimeout (r : Replica) : Replica :=
  let span := r.config.electionTimeoutMax - r.config.electionTimeoutMin + 1
  if span ≤ 1 then { r with electionTimeout := r.config.electionTimeoutMin }
  else { r with rng := r.nextRandom, electionTimeout := r.config.electionTimeoutMin + (r.nextRandom.toNat : Int) % span }

def setPeer (r : Replica) (i : Nat) (f : Peer → Peer) : Replica := { r with peers := r.peers.modify i f }

/-! ## Sending -/

def transmit (peer : String) (frame : Frame) : Node Unit :=
  .write (fun w => { w with sent := w.sent ++ [(peer, frame)] }) fun _ => []

def send (peer : String) (frame : Frame) : Node Unit := do
  let r ← .memory
  if r.halted then return ()
  else if maxFramePayload < frame.payload.length then
    .assign fun r => { r with messagesDroppedOversize := r.messagesDroppedOversize + 1 }
  else transmit peer frame

/-- Sends a new request to the peer at position `i` and remembers it for retries. -/
def request (i : Nat) (peer : String) (type : MessageType) (payload : List UInt8) (index offset : Nat) : Node Unit := do
  let r ← .memory
  let frame : Frame := ⟨type, r.nextCorrelation, payload⟩
  .assign fun r => { r with nextCorrelation := r.nextCorrelation + 1 }.setPeer i fun p =>
    { p with probe := some ⟨frame, r.currentTerm, index, offset⟩ }
  send peer frame

/-- The chunk of a snapshot that starts at an offset. -/
def chunk (r : Replica) (snapshot : Snapshot) (offset : Nat) : InstallSnapshot :=
  let data := snapshot.statePayload.toList
  let length := min r.config.maxSnapshotChunkBytes (data.length - offset)
  { term := r.currentTerm, leaderId := r.config.id, lastIncludedIndex := snapshot.index, lastIncludedTerm := snapshot.term
    stateHash := snapshot.stateHash, payload := String.ofList ((data.drop offset).take length), offset
    more := offset + length < data.length }

def sendSnapshotChunk (i : Nat) (snapshot : Snapshot) (force : Bool) : Node Unit := do
  let r ← .memory
  match r.peers[i]? with
  | none => return ()
  | some peer =>
    -- A newer snapshot was taken in the middle of a transfer: that one is sent instead.
    let peer := if peer.snapshotIndex = snapshot.index then peer
      else { peer with snapshotIndex := snapshot.index, snapshotOffset := 0, probe := none }
    .assign fun r => r.setPeer i fun _ => peer
    if !force ∧ peer.snapshotSentTick = some r.ticks then return ()
    else do
      .assign fun r => r.setPeer i fun _ => { peer with snapshotSentTick := some r.ticks }
      match peer.probe.filter fun p => p.term = r.currentTerm ∧ p.frame.type = .installSnapshot with
      | some probe => send peer.id probe.frame
      | none =>
        let message := r.chunk snapshot (min peer.snapshotOffset snapshot.statePayload.toList.length)
        request i peer.id .installSnapshot message.encode snapshot.index (message.offset + message.payload.toList.length)

/-- What counts as the size of an entry in a batch. -/
def entryCost (event : Event) : Nat := (canonicalEvent event).toList.length + 32

/-- The entries of one message: the first one always, then as many as the limits allow. -/
def collect (r : Replica) : Nat → Nat → Nat → Nat → List Event
  | 0, _, _, _ => []
  | left + 1, next, count, bytes =>
    match r.findIndex next with
    | none => []
    | some entry =>
      if count ≠ 0 ∧ (r.config.maxAppendEntries ≤ count ∨ r.config.maxAppendBytes < bytes + entryCost entry) then []
      else entry :: r.collect left (next + 1) (count + 1) (bytes + entryCost entry)

/-- The message for a peer, from its next index on. -/
def batch (r : Replica) (peer : Peer) : AppendEntries :=
  let previous := peer.nextIndex - 1
  let (prevLogIndex, prevLogTerm) :=
    if previous = 0 then (0, 0)
    else
      match r.store.logTermAt previous with
      | some term => (previous, term)
      | none => (0, 0)
  { term := r.currentTerm, leaderId := r.config.id, prevLogIndex, prevLogTerm
    entries := r.collect (r.lastIndex + 1 - peer.nextIndex) peer.nextIndex 0 0
    leaderCommit := r.store.commitIndex }

/-- The last index of a message: its last entry, or the one before the first. -/
def covered (message : AppendEntries) : Nat := (message.entries.getLast?.map (·.index)).getD message.prevLogIndex

/-- Whether the log still holds, or knows the term of, the entry before the next one for the peer. -/
def canAppend (r : Replica) (peer : Peer) : Bool :=
  let previous := peer.nextIndex - 1
  if previous = 0 then r.store.logFirstIndex ≤ 1 else (r.store.logTermAt previous).isSome

def replicate (i : Nat) (force : Bool) : Node Unit := do
  let r ← .memory
  match r.peers[i]? with
  | none => return ()
  | some peer =>
    match peer.probe.filter (·.term = r.currentTerm) with
    | some probe => send peer.id probe.frame
    | none =>
      .assign fun r => r.setPeer i fun p => { p with probe := none }
      match (if r.canAppend peer then none else r.store.snapshot.filter (!·.legacy)) with
      | some snapshot => sendSnapshotChunk i snapshot force
      | none =>
        let message := r.batch peer
        request i peer.id .appendEntries message.encode (covered message) 0

def replicateAll : Node Unit := do
  let r ← .memory
  .forEach (replicate · false) (List.range r.peers.length)

/-! ## Terms, votes and commits -/

/-- `step_down`: a newer term is on disk before it is in memory. -/
def stepDown (term : Nat) : Node Bool := do
  let r ← .memory
  if term < r.currentTerm then return false
  else if term = r.currentTerm then
    if r.role = .leader then do
      .assign fun r => { r with role := .follower, config := { r.config with leaderId := "" } }
      return true
    else return true
  else
    match ← onStore (FileEngine.persistConsensus term none) with
    | .error _ => do
      .assign haltAfterStorageFailure
      return false
    | .ok _ => do
      .assign fun r => { r with
        currentTerm := term, votedFor := none, votesFrom := [], role := .follower, config := { r.config with leaderId := "" } }
      return true

/-- The vote in memory goes to disk. A term is never zero. -/
def persistVote : Node (Result Unit) := do
  let r ← .memory
  match r.votedFor with
  | none => onStore (FileEngine.persistConsensus r.currentTerm none)
  | some voted =>
    match (StrongId.parse voted : Result NodeId) with
    | .error e => return .error e
    | .ok vote => onStore (FileEngine.persistConsensus r.currentTerm (some vote))

def copies (r : Replica) (index : Nat) : Nat := 1 + (r.peers.filter (index ≤ ·.matchIndex)).length

/-- The greatest uncommitted index of the current term that a majority holds. -/
def committable (r : Replica) : Nat → Option Nat
  | 0 => none
  | index + 1 =>
    if index + 1 ≤ r.store.commitIndex then none
    else if (r.findIndex (index + 1)).any (·.term = r.currentTerm) && r.majority ≤ r.copies (index + 1) then some (index + 1)
    else r.committable index

def advanceCommit : Node Unit := do
  let r ← .memory
  if !r.isLeader then return ()
  else
    match r.committable r.lastIndex with
    | none => return ()
    | some index =>
      match ← onStore (FileEngine.commitThrough index) with
      | .error _ => .assign haltAfterStorageFailure
      | .ok _ => replicateAll

/-! ## Elections -/

/-- The no-op that opens a term; its ids have to be valid. -/
def noop (r : Replica) (index : Nat) : Result Event := do
  let serial := toString r.currentTerm ++ "-" ++ toString index
  let id ← StrongId.parse ("noop-" ++ r.config.id ++ "-" ++ serial)
  let commandId ← StrongId.parse ("noop-" ++ serial)
  let choreographyId ← match r.speculative.id with
    | some id => .ok id
    | none => StrongId.parse "system"
  let term ← parseTerm r.currentTerm
  return { id, commandId, choreographyId, type := .noOp, schemaVersion := currentSchemaVersion, tick := ⟨0, by decide⟩, index, term
           payload := .create { choreographyId, stage := unitStage, overlap := .forbidden, maxTravelMm := 0 } }

/-- The progress records of a new leader. -/
def resetPeers (r : Replica) (next : Nat) : Replica :=
  { r with peers := r.peers.map fun p => { p with nextIndex := next, matchIndex := 0, snapshotIndex := 0, probe := none } }

def becomeLeader : Node Unit := do
  let r ← .memory
  if r.role = .leader then return ()
  else do
    .assign fun r =>
      let r := r.ensureSpeculative
      { r with role := .leader, config := { r.config with leaderId := r.config.id } }.resetPeers (r.lastIndex + 1)
    let r ← .memory
    match r.noop (r.lastIndex + 1) with
    | .error _ => .assign fun r => { r with role := .candidate }
    | .ok noop =>
      match ← onStore (FileEngine.appendEvent noop) with
      | .error _ => .assign haltAfterStorageFailure
      | .ok _ =>
        .assign fun r => { r with commandIndex := r.commandIndex.insert noop.commandId.value noop.index }
        match apply r.speculative noop with
        | .error _ => .assign fun r => { r with role := .candidate }
        | .ok speculative =>
          .assign fun r => { r with speculative }
          replicateAll
          advanceCommit

def requestVotes : Node Unit := do
  let r ← .memory
  let request : RequestVote :=
    { term := r.currentTerm, candidateId := r.config.id, lastLogIndex := r.lastIndex, lastLogTerm := r.lastTerm }
  .forEach (fun (peer : Peer) => do
    let r ← .memory
    .assign fun r => { r with nextCorrelation := r.nextCorrelation + 1 }
    send peer.id ⟨.requestVote, r.nextCorrelation, request.encode⟩) r.peers

def startElection : Node Unit := do
  let r ← .memory
  if r.currentTerm = 2 ^ 64 - 1 then return ()
  else
    match (StrongId.parse r.config.id : Result NodeId) with
    | .error _ => return ()
    | .ok self =>
      match ← onStore (FileEngine.persistConsensus (r.currentTerm + 1) (some self)) with
      | .error _ => .assign haltAfterStorageFailure
      | .ok _ =>
        .assign fun r => { r with
          role := .candidate, currentTerm := r.currentTerm + 1, votedFor := some r.config.id, votesFrom := [r.config.id]
          config := { r.config with leaderId := "" }, electionElapsed := 0 }.drawTimeout
        if r.majority ≤ 1 then becomeLeader else requestVotes

/-! ## Messages -/

def respondAppend (leader : String) (correlation : Nat) (response : AppendEntriesResponse) : Node Unit :=
  send leader ⟨.appendEntriesResponse, correlation, response.encode⟩

/-- Whether the entries follow the previous one, with terms that do not decrease or pass the message's. -/
def wellFormed (term : Nat) : Nat → Nat → List Event → Bool
  | _, _, [] => true
  | index, previous, entry :: rest =>
    index ≠ 2 ^ 64 - 1 && entry.index = index + 1 && previous ≤ entry.term && entry.term ≤ term &&
      wellFormed term entry.index entry.term rest

/-- Whether the entry before the first one of a message is there; if not, a hint where to go on. -/
def previousMatches (r : Replica) (message : AppendEntries) : Except Nat Unit :=
  if message.prevLogIndex = 0 then .ok ()
  else if r.lastIndex < message.prevLogIndex then .error r.lastIndex
  else
    match r.store.logTermAt message.prevLogIndex with
    | some term => if term = message.prevLogTerm then .ok () else .error (message.prevLogIndex - 1)
    | none =>
      -- Compacted away, so it is committed and the leader has the same.
      if message.prevLogIndex < r.store.logFirstIndex then .ok () else .error (message.prevLogIndex - 1)

inductive Stored where
  | stored
  | refused (hint : Nat)
  | failed

/-- Appends one entry; `false` if the storage failed. -/
def storeEntry (entry : Event) : Node Bool := do
  match ← onStore (FileEngine.appendEvent entry) with
  | .error _ => do
    .assign haltAfterStorageFailure
    return false
  | .ok _ => do
    .assign fun r => { r with commandIndex := r.commandIndex.insert entry.commandId.value entry.index, speculativeDirty := true }
    return true

/-- Cuts the log before an entry that differs; `false` if the storage failed. -/
def cutBefore (entry : Event) : Node Bool := do
  match ← onStore (FileEngine.truncateAfter (entry.index - 1)) with
  | .error _ => do
    .assign haltAfterStorageFailure
    return false
  | .ok _ => do
    .assign fun r => { r.rebuildCommandIndex with speculativeDirty := true }
    return true

def storeEntries : List Event → Node Stored
  | [] => return .stored
  | entry :: rest => do
    let r ← .memory
    if entry.index < r.store.logFirstIndex then storeEntries rest
    else
      match r.findIndex entry.index with
      | some existing =>
        if canonicalEvent existing = canonicalEvent entry then storeEntries rest
        else if existing.index ≤ r.store.commitIndex then return .refused r.store.commitIndex
        else do
          if ← cutBefore entry then
            if ← storeEntry entry then storeEntries rest else return .failed
          else return .failed
      | none =>
        if entry.index ≠ r.lastIndex + 1 then return .refused r.lastIndex
        else do
          if ← storeEntry entry then storeEntries rest else return .failed

/-- The commit index of a message, as far as the message itself reaches; `false` if the storage failed. -/
def followCommit (message : AppendEntries) : Node Bool := do
  let r ← .memory
  let index := min message.leaderCommit (covered message)
  if index ≤ r.store.commitIndex then return true
  else
    match ← onStore (FileEngine.commitThrough index) with
    | .error _ => do
      .assign haltAfterStorageFailure
      return false
    | .ok _ => return true

/-- Takes the entries of a message from the leader and answers. -/
def acceptEntries (message : AppendEntries) (correlation : Nat) : Node Unit := do
  let r ← .memory
  let response : AppendEntriesResponse := { term := r.currentTerm, followerId := r.config.id, hintIndex := r.lastIndex }
  match r.previousMatches message with
  | .error hint => respondAppend message.leaderId correlation { response with hintIndex := hint }
  | .ok _ =>
    match ← storeEntries message.entries with
    | .failed => return ()
    | .refused hint => respondAppend message.leaderId correlation { response with hintIndex := hint }
    | .stored => do
      if ← followCommit message then
        let r ← .memory
        respondAppend message.leaderId correlation
          { response with success := true, matchIndex := covered message, hintIndex := r.lastIndex }
      else return ()

def onAppend (message : AppendEntries) (correlation : Nat) : Node Unit := do
  let r ← .memory
  let response : AppendEntriesResponse := { term := r.currentTerm, followerId := r.config.id, hintIndex := r.lastIndex }
  if !r.isConfiguredPeer message.leaderId then return ()
  else if (decide (message.prevLogIndex = 0) ≠ decide (message.prevLogTerm = 0)) ∨ message.term < message.prevLogTerm ∨
      !wellFormed message.term message.prevLogIndex message.prevLogTerm message.entries then return ()
  else if r.config.elections then
    if message.term < r.currentTerm then respondAppend message.leaderId correlation response
    else do
      if ← (if r.currentTerm < message.term then stepDown message.term else return true) then
        .assign fun r => { r with role := .follower, config := { r.config with leaderId := message.leaderId }, electionElapsed := 0 }
        acceptEntries message correlation
      else return ()
  else if message.leaderId ≠ r.config.leaderId ∨ r.isLeader then respondAppend message.leaderId correlation response
  else acceptEntries message correlation

/-- The peer with an id and its position; the last one. -/
def lastPeer (r : Replica) (id : String) : Option (Nat × Peer) :=
  (r.peers.zipIdx.reverse.find? fun (peer, _) => peer.id = id).map fun (peer, i) => (i, peer)

def onAppendResponse (message : AppendEntriesResponse) (correlation : Nat) : Node Unit := do
  let r ← .memory
  if !r.isConfiguredPeer message.followerId then return ()
  else if r.config.elections ∧ r.currentTerm < message.term then do
    let _ ← stepDown message.term
    return ()
  else if r.config.elections ∧ message.term < r.currentTerm then return ()
  else if !r.isLeader then return ()
  else
    match r.lastPeer message.followerId with
    | none => return ()
    | some (i, peer) =>
      match peer.probe.filter fun p =>
          p.frame.type = .appendEntries ∧ p.frame.correlation = correlation ∧ p.term = message.term with
      | none => return ()
      | some probe =>
        if message.success ∧ message.matchIndex ≠ probe.index then return ()
        else if !message.success then
          let hinted := min message.hintIndex r.lastIndex + 1
          let next := if hinted < peer.nextIndex then hinted else if 1 < peer.nextIndex then peer.nextIndex - 1 else peer.nextIndex
          .assign fun r => r.setPeer i fun p => { p with probe := none, nextIndex := next }
          if next < peer.nextIndex then replicate i false else return ()
        else do
          .assign fun r => r.setPeer i fun p => { p with probe := none }
          if r.lastIndex < message.matchIndex then return ()
          else do
            let matched := max peer.matchIndex message.matchIndex
            .assign fun r => r.setPeer i fun p => { p with matchIndex := matched, nextIndex := matched + 1 }
            advanceCommit
            let r ← .memory
            if r.isLeader ∧ matched + 1 ≤ r.lastIndex then replicate i false else return ()

def onVote (message : RequestVote) (correlation : Nat) : Node Unit := do
  let r ← .memory
  if !r.isConfiguredPeer message.candidateId then return ()
  else if !r.config.elections then
    send message.candidateId
      ⟨.requestVoteResponse, correlation, ({ term := r.currentTerm, voterId := r.config.id } : RequestVoteResponse).encode⟩
  else do
    if ← (if r.currentTerm < message.term then stepDown message.term else return true) then
      let r ← .memory
      let response : RequestVoteResponse := { term := r.currentTerm, voterId := r.config.id }
      if message.term = r.currentTerm ∧ (r.votedFor = none ∨ r.votedFor = some message.candidateId) ∧
          r.logIsUpToDate message.lastLogTerm message.lastLogIndex then do
        .assign fun r => { r with votedFor := some message.candidateId }
        match ← persistVote with
        | .error _ => .assign fun r' => { r' with votedFor := r.votedFor }.haltAfterStorageFailure
        | .ok _ => do
          .assign fun r => { r with electionElapsed := 0 }
          send message.candidateId ⟨.requestVoteResponse, correlation, { response with voteGranted := true }.encode⟩
      else send message.candidateId ⟨.requestVoteResponse, correlation, response.encode⟩
    else return ()

def onVoteResponse (message : RequestVoteResponse) : Node Unit := do
  let r ← .memory
  if !r.isConfiguredPeer message.voterId then return ()
  else if !r.config.elections then return ()
  else if r.currentTerm < message.term then do
    let _ ← stepDown message.term
    return ()
  else if r.role ≠ .candidate ∨ message.term ≠ r.currentTerm ∨ !message.voteGranted then return ()
  else if message.voterId ∈ r.votesFrom then return ()
  else do
    .assign fun r => { r with votesFrom := r.votesFrom ++ [message.voterId] }
    if r.majority ≤ r.votesFrom.length + 1 then becomeLeader else return ()

def replyInstall (leader : String) (correlation : Nat) (success : Bool) (nextOffset : Nat) : Node Unit := do
  let r ← .memory
  let response : InstallSnapshotResponse := { term := r.currentTerm, followerId := r.config.id, success, nextOffset }
  send leader ⟨.installSnapshotResponse, correlation, response.encode⟩

/-- A refused chunk also drops what was assembled before it. -/
def refuseInstall (leader : String) (correlation : Nat) : Node Unit := do
  .assign fun r => { r with incomingSnapshot := none }
  replyInstall leader correlation false 0

def maxSnapshotBytes : Nat := 64 * 1024 * 1024

/-- The whole payload has arrived: it is verified and installed, or nothing is. -/
def finishInstall (message : InstallSnapshot) (correlation : Nat) (data : String) : Node Unit := do
  .assign fun r => { r with incomingSnapshot := none }
  let snapshot : Snapshot :=
    { index := message.lastIncludedIndex, term := message.lastIncludedTerm, stateHash := message.stateHash, statePayload := data }
  match verifySnapshot snapshot with
  | .error _ => replyInstall message.leaderId correlation false 0
  | .ok _ =>
    match ← onStore (FileEngine.installSnapshot snapshot) with
    | .error _ => .assign haltAfterStorageFailure
    | .ok _ => do
      .assign fun r => r.rebuildCommandIndex.rebuildSpeculative
      replyInstall message.leaderId correlation true data.toList.length

/-- Chunk assembly: offset 0 starts a transfer or starts it over. -/
def acceptChunk (message : InstallSnapshot) (correlation : Nat) : Node Unit := do
  if message.lastIncludedTerm = 0 ∨ message.term < message.lastIncludedTerm ∨ message.stateHash.toList.length ≠ 16 then
    refuseInstall message.leaderId correlation
  else do
    .assign fun r => if message.offset = 0 then { r with
      incomingSnapshot := some ⟨message.lastIncludedIndex, message.lastIncludedTerm, message.stateHash, ""⟩ } else r
    let r ← .memory
    match r.incomingSnapshot.filter fun s =>
        s.index = message.lastIncludedIndex ∧ s.term = message.lastIncludedTerm ∧ s.hash = message.stateHash with
    | none => refuseInstall message.leaderId correlation
    | some incoming =>
      let held := incoming.data.toList.length
      if held < message.offset then refuseInstall message.leaderId correlation
      else if message.offset < held then replyInstall message.leaderId correlation true held
      else if maxSnapshotBytes < held + message.payload.toList.length then refuseInstall message.leaderId correlation
      else
        let data := incoming.data ++ message.payload
        if message.more then do
          .assign fun r => { r with incomingSnapshot := some { incoming with data } }
          replyInstall message.leaderId correlation true data.toList.length
        else finishInstall message correlation data

def onInstall (message : InstallSnapshot) (correlation : Nat) : Node Unit := do
  let r ← .memory
  let response : InstallSnapshotResponse := { term := r.currentTerm, followerId := r.config.id }
  let refusal : Frame := ⟨.installSnapshotResponse, correlation, response.encode⟩
  if !r.isConfiguredPeer message.leaderId then return ()
  else if r.config.elections then
    if message.term < r.currentTerm then send message.leaderId refusal
    else do
      if ← (if r.currentTerm < message.term then stepDown message.term else return true) then
        .assign fun r => { r with role := .follower, config := { r.config with leaderId := message.leaderId }, electionElapsed := 0 }
        acceptChunk message correlation
      else return ()
  else if message.leaderId ≠ r.config.leaderId ∨ r.isLeader then send message.leaderId refusal
  else acceptChunk message correlation

/-- The peer with an id and its position; the first one. -/
def firstPeer (r : Replica) (id : String) : Option (Nat × Peer) :=
  (r.peers.zipIdx.find? fun (peer, _) => peer.id = id).map fun (peer, i) => (i, peer)

def onInstallResponse (message : InstallSnapshotResponse) (correlation : Nat) : Node Unit := do
  let r ← .memory
  if !r.isConfiguredPeer message.followerId then return ()
  else if r.config.elections ∧ r.currentTerm < message.term then do
    let _ ← stepDown message.term
    return ()
  else if !r.isLeader then return ()
  else
    match r.firstPeer message.followerId with
    | none => return ()
    | some (i, peer) =>
      match peer.probe.filter fun p =>
          p.frame.type = .installSnapshot ∧ p.frame.correlation = correlation ∧ p.term = message.term with
      | none => return ()
      | some probe =>
        if message.success ∧ message.nextOffset ≠ probe.offset then return ()
        else do
          .assign fun r => r.setPeer i fun p => { p with probe := none }
          match r.store.snapshot.filter fun s => message.success ∧ peer.snapshotIndex = s.index with
          | none => .assign fun r => r.setPeer i fun p => { p with snapshotOffset := 0 }
          | some snapshot =>
            if message.nextOffset < snapshot.statePayload.toList.length then do
              .assign fun r => r.setPeer i fun p => { p with snapshotOffset := message.nextOffset }
              sendSnapshotChunk i snapshot true
            else do
              let matched := max peer.matchIndex peer.snapshotIndex
              .assign fun r => r.setPeer i fun p =>
                { p with snapshotOffset := 0, matchIndex := matched, nextIndex := matched + 1 }
              advanceCommit
              replicate i true

/-- `handle`: the origin that a message names has to be the one of the connection, if that is known -/
def handle (frame : Frame) (transportPeer : String) : Node Unit := do
  let r ← .memory
  let trusted (origin : String) : Bool := transportPeer = "" || origin = transportPeer
  if r.halted ∨ (transportPeer ≠ "" ∧ !r.isConfiguredPeer transportPeer) then return ()
  else
    match frame.type with
    | .appendEntries =>
      match (decodeAppendEntries frame.payload).toOption.filter (trusted ·.leaderId) with
      | some message => onAppend message frame.correlation
      | none => return ()
    | .appendEntriesResponse =>
      match (decodeAppendResponse frame.payload).toOption.filter (trusted ·.followerId) with
      | some message => onAppendResponse message frame.correlation
      | none => return ()
    | .requestVote =>
      match (decodeRequestVote frame.payload).toOption.filter (trusted ·.candidateId) with
      | some message => onVote message frame.correlation
      | none => return ()
    | .requestVoteResponse =>
      match (decodeVoteResponse frame.payload).toOption.filter (trusted ·.voterId) with
      | some message => onVoteResponse message
      | none => return ()
    | .installSnapshot =>
      match (decodeInstallSnapshot frame.payload).toOption.filter (trusted ·.leaderId) with
      | some message => onInstall message frame.correlation
      | none => return ()
    | .installSnapshotResponse =>
      match (decodeSnapshotResponse frame.payload).toOption.filter (trusted ·.followerId) with
      | some message => onInstallResponse message frame.correlation
      | none => return ()
    | _ => return ()

/-! ## Commands and ticks -/

/-- The answer to a command whose entry is already in the log. -/
def retryOf (r : Replica) (command : Command) (known : Event) : Result EnqueueResult :=
  let conflict : Error := ⟨.commandConflict, "command ID reused with a different request"⟩
  if known.type ≠ eventTypeFor command.type then .error conflict
  else
    let original : Command :=
      { id := known.commandId, choreographyId := known.choreographyId, type := command.type
        schemaVersion := known.schemaVersion, tick := known.tick, payload := known.payload }
    if canonicalCommand original ≠ canonicalCommand (normalizeCommand command) then .error conflict
    else .ok ⟨known, true, known.index ≤ r.store.commitIndex, r.config.leaderId⟩

/-- The event of a command, with the current term. With a new term the event is applied already here. -/
def propose (r : Replica) (command : Command) : Result (Event × Replica) := do
  let proposed ← State.propose r.speculative command
  if r.config.elections ∧ proposed.term ≠ r.currentTerm then
    let restamped := { proposed with term := ← parseTerm r.currentTerm }
    match apply r.speculative restamped with
    | .ok speculative => return (restamped, { r with speculative })
    | .error _ =>
      let r := r.rebuildSpeculative
      return (restamped, { r with speculative := ← apply r.speculative restamped })
  else return (proposed, r)

/-- A failure after the proposal, when `propose` has rebuilt the state. -/
def proposeFailed (r : Replica) (command : Command) : Replica :=
  match State.propose r.speculative command with
  | .ok proposed =>
    if r.config.elections ∧ proposed.term ≠ r.currentTerm ∧ r.currentTerm ≠ 0 then r.rebuildSpeculative else r
  | .error _ => r

def enqueue (command : Command) : Node EnqueueResult := do
  let r ← .memory
  if r.halted then .fail (FileEngine.storeError "replica halted after storage failure; reopen from disk")
  else if !r.isLeader then .fail ⟨.notLeader, "leader is " ++ r.config.leaderId⟩
  else if r.store.state.appliedCommands.contains command.id.value ∨ r.store.state.receipts.contains command.id.value then do
    let event ← .of (resolveReceipt r.store.state command)
    return ⟨event, true, true, r.config.leaderId⟩
  else
    match r.findCommand command.id.value with
    | some known => .of (r.retryOf command known)
    | none => do
      .assign ensureSpeculative
      let r ← .memory
      match r.propose command with
      | .error e => do
        .assign fun r => r.proposeFailed command
        .fail e
      | .ok (event, proposed) => do
        .assign fun _ => proposed
        match ← onStore (FileEngine.appendEvent event) with
        | .error e => do
          .assign haltAfterStorageFailure
          .fail e
        | .ok _ => do
          .assign fun r => { r with commandIndex := r.commandIndex.insert event.commandId.value event.index }
          let r ← .memory
          let speculative ← .of (if !r.config.elections ∨ r.speculative.lastApplied ≠ event.index then apply r.speculative event
            else .ok r.speculative)
          .assign fun r => { r with speculative }
          replicateAll
          advanceCommit
          let r ← .memory
          return ⟨event, false, event.index ≤ r.store.commitIndex, r.config.leaderId⟩

def tick : Node Unit := do
  .assign trimRetainedHistory
  let r ← .memory
  if r.halted then return ()
  else do
    .assign fun r => { r with ticks := r.ticks + 1 }
    if !r.config.elections then
      if r.isLeader then replicateAll else return ()
    else if r.role = .leader then replicateAll
    else do
      .assign fun r => { r with electionElapsed := r.electionElapsed + 1 }
      if r.electionTimeout ≤ r.electionElapsed + 1 then startElection else return ()

/-! ## Opening a directory -/

/-- The constructor. -/
def create (config : ReplicaConfig) (store : FileEngine) (speculative : ChoreographyState) : Replica :=
  let config := if config.electionTimeoutMax < config.electionTimeoutMin then
    { config with electionTimeoutMin := config.electionTimeoutMax, electionTimeoutMax := config.electionTimeoutMin } else config
  let seed := (Bytes.ofText config.id).foldl (fun rng byte => rng * 131 + byte.toUInt64) (if config.rngSeed = 0 then 1 else config.rngSeed)
  drawTimeout { config, store, speculative
                peers := config.peers.map fun id => { id }
                rng := if seed = 0 then 1 else seed
                role := if !config.elections ∧ config.id = config.leaderId then .leader else .follower }

/-- Terms in the log do not decrease, nor pass the durable term, nor disagree with the snapshot. -/
def termsAgree (term : Nat) (snapshot : Option Snapshot) : Nat → List Event → Bool
  | _, [] => true
  | previous, event :: rest =>
    previous ≤ event.term && event.term ≤ term && !snapshot.any (fun s => event.index = s.index ∧ event.term ≠ s.term) &&
      termsAgree term snapshot event.term rest

/-- The replica of an open store: a follower until it hears of a leader, or the configured leader. -/
def resume (config : ReplicaConfig) (store : FileEngine) (speculative : ChoreographyState) (metadata : NodeMetadata) : Replica :=
  let r := create config store speculative
  let r : Replica := { r with currentTerm := metadata.term, votedFor := metadata.votedFor.map fun (id : NodeId) => id.value }
  let r : Replica := if r.config.elections then { r with role := .follower, config := { r.config with leaderId := "" } }
    else { r with
      role := if r.config.id = r.config.leaderId then .leader else .follower
      currentTerm := max metadata.term store.state.term }
  ({ r with peers := r.peers.map fun p => { p with nextIndex := r.lastIndex + 1 } } : Replica).rebuildCommandIndex

def «open» {μ : Type} (config : ReplicaConfig) : Store μ Replica := do
  let store ← FileEngine.open { snapshotEvery := config.snapshotEvery, commitOnAppend := false, compactLog := true }
  let speculative ← .of (buildSpeculative store)
  let metadata ← loadMetadata
  if store.snapshot.any (metadata.term < ·.term) then
    .fail (FileEngine.storeError "snapshot term exceeds durable consensus term")
  else if !termsAgree metadata.term store.snapshot 0 store.wal.events then
    .fail (FileEngine.storeError "recovered WAL terms disagree with consensus metadata or snapshot")
  else return resume config store speculative metadata

end Replica

/-- What a replica reacts to. -/
inductive Input where
  | frame (frame : Frame) (transportPeer : String)
  | tick
  | command (command : Command)

/-- The reaction to one input. The answer to a command goes to its client. -/
def Replica.receive : Input → Node Unit
  | .frame frame transportPeer => handle frame transportPeer
  | .tick => tick
  | .command command => do
    let _ ← enqueue command
    return ()

end Choreolog.Replication
