import Choreolog.Lib.OrdMap

/-! # The Raft transition core

`cpp-runtime/src/raft/transition.cpp` and `cpp-runtime/include/choreoos/raft/transition.hpp`: one node's
state, the inputs it takes and the effects it asks of its host. Terms, indexes and sizes are `Nat`, with
the source's own comparisons against the largest 64-bit value; tokens and request ids are counters.
`std::map` is an `OrdMap`, `std::set` a `Finset`, and an entry log the list of its entries. -/

namespace Choreolog.Raft
open Lib

/-- `std::numeric_limits<std::uint64_t>::max()` -/
def maximum : Nat := 2 ^ 64 - 1

abbrev PersistToken := Nat
abbrev RequestId := Nat

inductive Role where
  | follower
  | candidate
  | leader
  deriving DecidableEq, Repr

/-! ## Entries -/

structure Entry where
  term : Nat := 0
  command : String
  deriving DecidableEq, Repr

abbrev EntryLog := List Entry

namespace EntryLog

/-- `EntryLog::kMaximumEntries` -/
def maximumEntries : Nat := 100000

/-- No term is zero and terms never decrease (the cached `Data::valid`). -/
def valid (log : EntryLog) : Bool := decide (log.Pairwise fun a b => a.term ≤ b.term) && log.all (·.term != 0)

/-- `valid_terms`: a valid log whose terms lie between two bounds. -/
def validTerms (log : EntryLog) (before limit : Nat) : Bool :=
  log.valid && (log.isEmpty || (log.head?.all (before ≤ ·.term) && log.getLast?.all (·.term ≤ limit)))

/-- How many entries two logs have in common at the front. -/
def commonPrefixSize : EntryLog → EntryLog → Nat
  | a :: as, b :: bs => if a = b then commonPrefixSize as bs + 1 else 0
  | _, _ => 0

end EntryLog

/-! ## Durable state -/

/-- `log` holds only the entries after the snapshot boundary. -/
structure Durable where
  term : Nat := 0
  votedFor : Option String := none
  log : EntryLog := []
  commit : Nat := 0
  applied : Nat := 0
  snapshotIndex : Nat := 0
  snapshotTerm : Nat := 0
  deriving DecidableEq, Repr

namespace Durable

def lastIndex (state : Durable) : Nat := state.snapshotIndex + state.log.length

/-- The entry retained at an absolute index. -/
def entryAt (state : Durable) (index : Nat) : Option Entry :=
  if index ≤ state.snapshotIndex then none else state.log[index - state.snapshotIndex - 1]?

def valid (state : Durable) : Bool :=
  if (state.snapshotIndex == 0) != (state.snapshotTerm == 0) ||
      state.term < state.snapshotTerm || maximum - state.snapshotIndex < state.log.length ||
      state.lastIndex == maximum || state.applied < state.snapshotIndex ||
      state.commit < state.applied || state.lastIndex < state.commit then false
  else state.log.length ≤ EntryLog.maximumEntries && EntryLog.validTerms state.log state.snapshotTerm state.term

def termAt (state : Durable) (index : Nat) : Option Nat :=
  if index = state.snapshotIndex then some state.snapshotTerm
  else if index < state.snapshotIndex ∨ state.lastIndex < index then none
  else (state.log[index - state.snapshotIndex - 1]?).map (·.term)

def lastTerm (state : Durable) : Nat :=
  match state.log.getLast? with
  | none => state.snapshotTerm
  | some entry => entry.term

def upToDate (self : Durable) (term index : Nat) : Bool :=
  self.lastTerm < term || (term == self.lastTerm && self.lastIndex ≤ index)

end Durable

/-! ## Messages -/

structure RequestVote where
  term : Nat
  candidate : String
  lastIndex : Nat
  lastTerm : Nat
  requestId : RequestId
  deriving DecidableEq, Repr

structure VoteReply where
  term : Nat
  voter : String
  granted : Bool
  requestId : RequestId
  deriving DecidableEq, Repr

structure AppendEntries where
  term : Nat
  leader : String
  prevIndex : Nat
  prevTerm : Nat
  entries : List Entry
  leaderCommit : Nat
  requestId : RequestId
  deriving DecidableEq, Repr

structure AppendReply where
  term : Nat
  follower : String
  success : Bool
  hint : Nat
  requestId : RequestId
  matched : Nat := 0
  deriving DecidableEq, Repr

/-- The host validates and assembles the snapshot; a request that is not `ready` only establishes the
    term and the leader. -/
structure SnapshotRequest where
  term : Nat
  leader : String
  index : Nat
  snapshotTerm : Nat
  requestId : RequestId
  ready : Bool := true
  deriving DecidableEq, Repr

structure SnapshotReply where
  term : Nat
  follower : String
  success : Bool
  index : Nat
  requestId : RequestId
  deriving DecidableEq, Repr

inductive WireMessage where
  | requestVote (message : RequestVote)
  | voteReply (message : VoteReply)
  | appendEntries (message : AppendEntries)
  | appendReply (message : AppendReply)
  | snapshotReply (message : SnapshotReply)
  deriving DecidableEq, Repr

structure Outbound where
  dest : String
  message : WireMessage
  deriving DecidableEq, Repr

/-- A work request to the host: a peer needs the snapshot at this boundary. -/
structure SnapshotNeeded where
  peer : String
  index : Nat := 0
  term : Nat := 0
  requestId : RequestId := 0
  deriving DecidableEq, Repr

/-! ## Volatile state -/

structure Probe where
  requestId : RequestId := 0
  term : Nat := 0
  prev : Nat := 0
  count : Nat := 0
  request : Option AppendEntries := none
  deriving DecidableEq, Repr

structure PeerProgress where
  next : Nat := 1
  matched : Nat := 0
  inFlight : Option Probe := none
  snapshotInFlight : Option SnapshotNeeded := none
  deriving DecidableEq, Repr

structure ReadBarrier where
  context : RequestId
  term : Nat
  index : Nat
  acknowledgements : Finset String
  probes : OrdMap String RequestId

inductive ReadStatus where
  | ready
  | notLeader
  | notReady
  | busy
  | cancelled
  | unavailable
  deriving DecidableEq, Repr

structure ReadResult where
  context : RequestId
  status : ReadStatus
  term : Nat := 0
  index : Nat := 0
  deriving DecidableEq, Repr

structure Volatile where
  role : Role := .follower
  votes : Finset String := ∅
  peers : OrdMap String PeerProgress := .empty
  leadershipEpoch : Nat := 0
  read : Option ReadBarrier := none

structure PendingWrite where
  token : PersistToken
  target : Durable
  after : List Outbound
  applyAfter : List Entry
  selfVote : Bool := false
  snapshotAfter : List SnapshotNeeded := []

structure Node where
  durable : Durable := {}
  volatile : Volatile := {}
  pending : Option PendingWrite := none
  nextToken : PersistToken := 1
  nextRequestId : RequestId := 1
  halted : Bool := false

structure Config where
  self : String
  peers : List String

/-! ## Inputs and effects -/

inductive Input where
  | electionTimeout
  | heartbeatTimeout
  | clientPropose (command : String)
  | recvRequestVote (message : RequestVote)
  | recvVoteReply (message : VoteReply)
  | recvAppend (message : AppendEntries)
  | recvAppendReply (message : AppendReply)
  | advanceCommit
  | applyCommitted
  | compactCommitted
  | recvSnapshot (message : SnapshotRequest)
  | recvSnapshotReply (message : SnapshotReply)
  | beginRead (context : RequestId)
  | cancelRead (context : RequestId)
  | persistCompleted (token : PersistToken)
  | persistFailed (token : PersistToken)
  | restart
  deriving DecidableEq, Repr

inductive PersistKind where
  | stateUpdate
  | localCompaction
  | snapshotInstall
  deriving DecidableEq, Repr

structure PersistRequest where
  token : PersistToken
  target : Durable
  kind : PersistKind := .stateUpdate
  deriving DecidableEq, Repr

structure Effects where
  persist : Option PersistRequest := none
  sendNow : List Outbound := []
  apply : List Entry := []
  halt : Bool := false
  capacityExhausted : Bool := false
  snapshotNeeded : List SnapshotNeeded := []
  read : Option ReadResult := none
  deriving DecidableEq, Repr

/-! ## Helpers of `step` -/

def quorum (config : Config) : Nat := (config.peers.length + 1) / 2 + 1

/-- The core refuses protocol input attributed to a non-member. -/
def knownPeer (state : Node) (id : String) : Bool := state.volatile.peers.contains id

def beginWrite (state : Node) (effects : Effects) (target : Durable) (after : List Outbound)
    (applyAfter : List Entry) (selfVote : Bool) (snapshotAfter : List SnapshotNeeded) (kind : PersistKind) :
    Node × Effects :=
  let token := state.nextToken
  ({ state with
      nextToken := token + 1
      pending := some { token, target, after, applyAfter, selfVote, snapshotAfter } },
    { effects with persist := some { token, target, kind } })

/-- `begin_write` with its default arguments after `after`. -/
def stage (state : Node) (effects : Effects) (target : Durable) (after : List Outbound) : Node × Effects :=
  beginWrite state effects target after [] false [] .stateUpdate

def setProgress (state : Node) (peer : String) (f : PeerProgress → PeerProgress) : Node :=
  { state with volatile := { state.volatile with peers := state.volatile.peers.update peer f } }

def setRead (state : Node) (read : Option ReadBarrier) : Node :=
  { state with volatile := { state.volatile with read } }

/-- The node together with the messages and snapshot requests that a send loop has produced so far. -/
structure Sending where
  state : Node
  out : List Outbound
  snapshots : List SnapshotNeeded

/-- One-entry batches make the request's acknowledged index unambiguous. A peer with a probe in flight
    gets nothing new; one with a snapshot in flight gets that snapshot again. -/
def sendAppend (config : Config) (log : Durable) (sending : Sending) (peer : String) : Sending :=
  let state := sending.state
  match state.volatile.peers.find? peer with
  | none => sending
  | some progress =>
    if progress.inFlight.isSome then sending
    else match progress.snapshotInFlight with
    | some request => { sending with snapshots := sending.snapshots ++ [request] }
    | none =>
      let next := max 1 progress.next
      if next ≤ log.snapshotIndex then
        let request : SnapshotNeeded :=
          { peer, index := log.snapshotIndex, term := log.snapshotTerm, requestId := state.nextRequestId }
        let state := setProgress state peer fun p => { p with snapshotInFlight := some request }
        { sending with
          state := { state with nextRequestId := state.nextRequestId + 1 }
          snapshots := sending.snapshots ++ [request] }
      else if log.lastIndex + 1 < next then sending
      else
        let prev := next - 1
        match log.termAt prev with
        | none => sending
        | some prevTerm =>
          let entries := if next ≤ log.lastIndex then (log.entryAt next).toList else []
          let id := state.nextRequestId
          let message : AppendEntries :=
            { term := log.term, leader := config.self, prevIndex := prev, prevTerm, entries
              leaderCommit := log.commit, requestId := id }
          let probe : Probe := { requestId := id, term := log.term, prev, count := entries.length, request := some message }
          let state := setProgress state peer fun p => { p with inFlight := some probe }
          let state := setRead state (state.volatile.read.map fun r => { r with probes := r.probes.insert peer id })
          { sending with
            state := { state with nextRequestId := id + 1 }
            out := sending.out ++ [{ dest := peer, message := .appendEntries message }] }

/-- The first probe of a new leader starts past its own log. -/
def sendFirst (config : Config) (durable : Durable) (sending : Sending) (peer : String) : Sending :=
  let fresh : PeerProgress := { next := durable.lastIndex + 1 }
  sendAppend config durable { sending with state := setProgress sending.state peer fun _ => fresh } peer

def becomeLeader (config : Config) (state : Node) (effects : Effects) : Node × Effects :=
  let state := { state with
    volatile := { state.volatile with role := .leader, leadershipEpoch := state.volatile.leadershipEpoch + 1 } }
  let sending := state.volatile.peers.keys.foldl (sendFirst config state.durable)
    { state, out := effects.sendNow, snapshots := effects.snapshotNeeded }
  (sending.state, { effects with sendNow := sending.out, snapshotNeeded := sending.snapshots })

def stepDown (state : Node) (effects : Effects) : Node × Effects :=
  ({ state with
      volatile := { state.volatile with
        role := .follower
        votes := ∅
        peers := state.volatile.peers.mapWithKey fun _ p => { p with inFlight := none, snapshotInFlight := none }
        read := none } },
    { effects with
      read := match state.volatile.read with
        | some read => some { context := read.context, status := .notLeader }
        | none => effects.read })

/-- The peers whose match index has reached `n`, and the durable leader log itself. -/
def matchVotes (state : Node) (n : Nat) : Nat :=
  1 + (state.volatile.peers.entries.filter fun e => n ≤ e.2.matched).length

/-- The loop `for (n = last_index; n > commit; --n)`, started at `commit + distance`. -/
def highestCommittableFrom (config : Config) (state : Node) : Nat → Nat
  | 0 => state.durable.commit
  | distance + 1 =>
    let n := state.durable.commit + (distance + 1)
    -- Raft Figure 8: an entry of an older term is not committed by counting.
    if state.durable.entryAt n |>.any (·.term == state.durable.term) then
      if quorum config ≤ matchVotes state n then n else highestCommittableFrom config state distance
    else highestCommittableFrom config state distance

def highestCommittable (config : Config) (state : Node) : Nat :=
  highestCommittableFrom config state (state.durable.lastIndex - state.durable.commit)

/-- A completed quorum round is usable only once its captured committed prefix has been applied. -/
def completeRead (config : Config) (state : Node) (effects : Effects) : Node × Effects :=
  match state.volatile.read with
  | none => (state, effects)
  | some read =>
    if state.volatile.role = .leader ∧ read.term = state.durable.term ∧
        quorum config ≤ read.acknowledgements.card ∧ read.index ≤ state.durable.applied then
      (setRead state none,
        { effects with read := some { context := read.context, status := .ready, term := read.term, index := read.index } })
    else (state, effects)

def initial (config : Config) : Node :=
  { volatile := { peers := config.peers.foldl (fun m peer => m.tryEmplace peer {}) .empty } }

/-! ## Transitions -/

/-- The node stops serving: nothing staged survives and the outstanding read is unavailable. -/
def failStop (state : Node) : Node × Effects :=
  let (state, effects) := stepDown { state with pending := none } {}
  ({ state with halted := true },
    { effects with halt := true, read := effects.read.map fun r => { r with status := .unavailable } })

def persistCompleted (config : Config) (state : Node) (token : PersistToken) : Node × Effects :=
  match state.pending with
  | none => (state, {})
  | some pending =>
    if pending.token = token ∧ state.halted = false then
      let state := { state with pending := none, durable := pending.target }
      let effects : Effects :=
        { sendNow := pending.after, apply := pending.applyAfter, snapshotNeeded := pending.snapshotAfter }
      let (state, effects) := completeRead config state effects
      if pending.selfVote then
        let state := { state with volatile := { state.volatile with votes := insert config.self state.volatile.votes } }
        if quorum config ≤ state.volatile.votes.card then becomeLeader config state effects
        else (state, effects)
      else (state, effects)
    else (state, {})

def persistFailed (state : Node) (token : PersistToken) : Node × Effects :=
  match state.pending with
  | none => (state, {})
  | some pending => if pending.token = token ∧ state.halted = false then failStop state else (state, {})

/-- The host must rehydrate `durable` from disk before; nothing volatile or staged survives. -/
def restart (config : Config) (state : Node) : Node × Effects :=
  ({ state with pending := none, halted := false, volatile := (initial config).volatile },
    { read := state.volatile.read.map fun read => { context := read.context, status := .cancelled } })

def cancelRead (state : Node) (context : RequestId) : Node × Effects :=
  match state.volatile.read with
  | some read =>
    if read.context = context then (setRead state none, { read := some { context, status := .cancelled } })
    else (state, {})
  | none => (state, {})

def beginRead (config : Config) (state : Node) (context : RequestId) : Node × Effects :=
  if state.halted ∨ state.pending.isSome then
    (state, { read := some { context, status := if state.halted then .unavailable else .busy } })
  else if state.volatile.read.isSome then (state, { read := some { context, status := .busy } })
  else if state.volatile.role ≠ .leader then (state, { read := some { context, status := .notLeader } })
  else if state.durable.commit = 0 ∨ state.durable.termAt state.durable.commit ≠ some state.durable.term then
    (state, { read := some { context, status := .notReady } })
  else
    let read : ReadBarrier :=
      { context, term := state.durable.term, index := state.durable.commit
        acknowledgements := {config.self}, probes := .empty }
    let sending := config.peers.foldl (sendAppend config state.durable)
      { state := setRead state (some read), out := [], snapshots := [] }
    completeRead config sending.state { sendNow := sending.out, snapshotNeeded := sending.snapshots }

/-- Maintenance keeps every entry above the commit index. -/
def compactCommitted (state : Node) : Node × Effects :=
  let durable := state.durable
  if durable.applied ≠ durable.commit ∨ durable.commit = durable.snapshotIndex then (state, {})
  else match durable.termAt durable.commit with
  | none => (state, {})
  | some boundaryTerm =>
    let target := { durable with
      snapshotIndex := durable.commit
      snapshotTerm := boundaryTerm
      log := durable.log.drop (durable.commit - durable.snapshotIndex) }
    beginWrite state {} target [] [] false [] .localCompaction

/-- The new term of a message from a newer leader, with no vote in it. -/
def adoptTerm (durable : Durable) (term : Nat) : Durable :=
  if durable.term < term then { durable with term, votedFor := none } else durable

def recvSnapshot (config : Config) (state : Node) (m : SnapshotRequest) : Node × Effects :=
  if !knownPeer state m.leader || m.term == 0 || m.index == 0 || m.index == maximum || m.snapshotTerm == 0 ||
      m.term < m.snapshotTerm then (state, {})
  else if state.durable.commit < m.index ∧
      (state.durable.termAt state.durable.commit).any (m.snapshotTerm < ·) then (state, {})
  else
    let reply (term : Nat) (success : Bool) : Outbound :=
      { dest := m.leader, message := .snapshotReply
          { term, follower := config.self, success, index := if success then m.index else 0, requestId := m.requestId } }
    if m.term < state.durable.term then (state, { sendNow := [reply state.durable.term false] })
    else
      let durable := state.durable
      let target := adoptTerm durable m.term
      let (state, effects) := stepDown state {}
      if !m.ready then
        if target ≠ durable then stage state effects target [] else (state, effects)
      else
        let installed := decide (target.commit < m.index)
        let target :=
          if installed then
            let suffix := if target.termAt m.index = some m.snapshotTerm then target.log.drop (m.index - target.snapshotIndex) else []
            { target with
              snapshotIndex := m.index
              snapshotTerm := m.snapshotTerm
              log := suffix
              commit := m.index
              applied := m.index }
          else target
        let success := installed || target.termAt m.index == some m.snapshotTerm
        let response := reply target.term success
        if target ≠ durable then
          beginWrite state effects target [response] [] false []
            (if installed then .snapshotInstall else .stateUpdate)
        else (state, { effects with sendNow := [response] })

/-- A reply of a newer term ends this node's candidacy or leadership. -/
def adoptHigherTerm (state : Node) (term : Nat) : Node × Effects :=
  let target := { state.durable with term, votedFor := none }
  let (state, effects) := stepDown state {}
  stage state effects target []

def recvSnapshotReply (state : Node) (m : SnapshotReply) : Node × Effects :=
  if !knownPeer state m.follower then (state, {})
  else if state.durable.term < m.term then adoptHigherTerm state m.term
  else if m.term = state.durable.term ∧ state.volatile.role = .leader then
    (setProgress state m.follower fun progress =>
      match progress.snapshotInFlight with
      | none => progress
      | some probe =>
        if probe.requestId = m.requestId ∧ (m.success = false ∨ probe.index = m.index) then
          let progress :=
            if m.success then
              let matched := max progress.matched probe.index
              { progress with matched, next := matched + 1 }
            else progress
          { progress with snapshotInFlight := none }
        else progress, {})
  else (state, {})

def voteRequests (config : Config) (target : Durable) : List String → RequestId → List Outbound
  | [], _ => []
  | peer :: peers, id =>
    { dest := peer, message := .requestVote
        { term := target.term, candidate := config.self, lastIndex := target.lastIndex, lastTerm := target.lastTerm
          requestId := id } } :: voteRequests config target peers (id + 1)

def electionTimeout (config : Config) (state : Node) : Node × Effects :=
  if state.volatile.role ≠ .leader ∧ state.durable.term ≠ maximum then
    let target := { state.durable with term := state.durable.term + 1, votedFor := some config.self }
    let (state, effects) := stepDown state {}
    let after := voteRequests config target config.peers state.nextRequestId
    let state := { state with
      volatile := { state.volatile with role := .candidate }
      nextRequestId := state.nextRequestId + config.peers.length }
    beginWrite state effects target after [] true [] .stateUpdate
  else (state, {})

def recvRequestVote (config : Config) (state : Node) (m : RequestVote) : Node × Effects :=
  if !knownPeer state m.candidate || m.term == 0 || m.term < m.lastTerm || ((m.lastIndex == 0) != (m.lastTerm == 0)) then
    (state, {})
  else
    let reply (term : Nat) (granted : Bool) : Outbound :=
      { dest := m.candidate, message := .voteReply { term, voter := config.self, granted, requestId := m.requestId } }
    if m.term < state.durable.term then (state, { sendNow := [reply state.durable.term false] })
    else
      let durable := state.durable
      let target := adoptTerm durable m.term
      let (state, effects) := if durable.term < m.term then stepDown state {} else (state, {})
      let grant := (target.votedFor.isNone || target.votedFor == some m.candidate) &&
        target.upToDate m.lastTerm m.lastIndex
      let target := if grant then { target with votedFor := some m.candidate } else target
      let response := reply target.term grant
      if target ≠ durable then stage state effects target [response]
      else (state, { effects with sendNow := [response] })

def recvVoteReply (config : Config) (state : Node) (m : VoteReply) : Node × Effects :=
  if !knownPeer state m.voter then (state, {})
  else if state.durable.term < m.term then adoptHigherTerm state m.term
  else if m.term = state.durable.term ∧ m.granted ∧ state.volatile.role = .candidate then
    let state := { state with volatile := { state.volatile with votes := insert m.voter state.volatile.votes } }
    if quorum config ≤ state.volatile.votes.card then becomeLeader config state {} else (state, {})
  else (state, {})

def clientPropose (config : Config) (state : Node) (command : String) : Node × Effects :=
  if state.volatile.role = .leader ∧ EntryLog.maximumEntries ≤ state.durable.log.length then
    (state, { capacityExhausted := true })
  else if state.volatile.role = .leader ∧ command ≠ "" ∧ state.durable.lastIndex < maximum - 1 then
    let target := { state.durable with log := state.durable.log ++ [{ term := state.durable.term, command }] }
    let sending := config.peers.foldl (sendAppend config target) { state, out := [], snapshots := [] }
    beginWrite sending.state {} target sending.out [] false sending.snapshots .stateUpdate
  else (state, {})

/-- A probe in flight is sent again as it was; replacing it each tick would starve slow followers. -/
def sendAgain (config : Config) (durable : Durable) (sending : Sending) (peer : String) : Sending :=
  match (sending.state.volatile.peers.find? peer).bind (·.inFlight) with
  | none => sendAppend config durable sending peer
  | some probe =>
    match probe.request with
    | none => sending
    | some request => { sending with out := sending.out ++ [{ dest := peer, message := .appendEntries request }] }

def heartbeatTimeout (config : Config) (state : Node) : Node × Effects :=
  if state.volatile.role = .leader then
    let sending := state.volatile.peers.keys.foldl (sendAgain config state.durable) { state, out := [], snapshots := [] }
    (sending.state, { sendNow := sending.out, snapshotNeeded := sending.snapshots })
  else (state, {})

/-- The entries of a message have positive terms that neither decrease nor exceed the leader's. -/
def entriesOrdered (term : Nat) : Nat → List Entry → Bool
  | _, [] => true
  | previous, entry :: rest =>
    !(entry.term == 0 || entry.term < previous || term < entry.term) && entriesOrdered term entry.term rest

/-- The loop over the message's entries, from absolute index `index` on. The flag turns false at an
    entry that conflicts with the committed prefix. -/
def mergeEntries : Durable → Nat → List Entry → Durable × Bool
  | target, _, [] => (target, true)
  | target, index, entry :: rest =>
    if index ≤ target.lastIndex ∧ target.entryAt index ≠ some entry then
      if index ≤ target.commit then (target, false)
      else
        let target := { target with log := target.log.take (index - target.snapshotIndex - 1) }
        let target := if index = target.lastIndex + 1 then { target with log := target.log ++ [entry] } else target
        mergeEntries target (index + 1) rest
    else
      let target := if index = target.lastIndex + 1 then { target with log := target.log ++ [entry] } else target
      mergeEntries target (index + 1) rest

def recvAppend (config : Config) (state : Node) (m : AppendEntries) : Node × Effects :=
  if !knownPeer state m.leader then (state, {})
  else if m.term == 0 || m.prevIndex == maximum || maximum - 1 - m.prevIndex < m.entries.length ||
      m.term < m.prevTerm || ((m.prevIndex == 0) != (m.prevTerm == 0)) then (state, {})
  else if !entriesOrdered m.term m.prevTerm m.entries then (state, {})
  else
    let reply (term : Nat) (success : Bool) (hint matched : Nat) : Outbound :=
      { dest := m.leader, message := .appendReply
          { term, follower := config.self, success, hint, requestId := m.requestId, matched } }
    if m.term < state.durable.term then
      (state, { sendNow := [reply state.durable.term false state.durable.lastIndex 0] })
    else
      let durable := state.durable
      let target := adoptTerm durable m.term
      let (state, effects) := stepDown state {}
      let prevOk := target.termAt m.prevIndex == some m.prevTerm
      let covered := m.prevIndex + m.entries.length
      if prevOk && EntryLog.maximumEntries < covered - target.snapshotIndex then
        -- The matched prefix can still commit, so that maintenance can free the window.
        let effects := { effects with capacityExhausted := true }
        let target := { target with commit := max target.commit (min m.leaderCommit m.prevIndex) }
        let response := reply target.term false target.lastIndex 0
        if target ≠ durable then stage state effects target [response]
        else (state, { effects with sendNow := [response] })
      else
        let hint := if m.prevIndex < target.snapshotIndex then target.snapshotIndex else target.lastIndex
        let (merged, success) := if prevOk then mergeEntries target (m.prevIndex + 1) m.entries else (target, false)
        let hint :=
          if success then hint
          else if prevOk then merged.commit
          else if target.snapshotIndex < m.prevIndex ∧ m.prevIndex ≤ target.lastIndex then m.prevIndex - 1
          else hint
        -- An incomplete or conflicting append persists nothing but a higher term.
        let target :=
          if success then { merged with commit := max merged.commit (min m.leaderCommit covered) }
          else { merged with log := durable.log, commit := durable.commit }
        let response := reply target.term success hint (if success then covered else 0)
        if target ≠ durable then stage state effects target [response]
        else (state, { effects with sendNow := [response] })

/-- The leader's bookkeeping for a reply to the probe in flight. -/
def progressAfter (progress : PeerProgress) (probe : Probe) (m : AppendReply) : PeerProgress :=
  if m.success then
    -- The match derives from the sent request, never from the follower's extra suffix.
    let matched := max progress.matched (probe.prev + probe.count)
    { progress with matched, next := max progress.next (matched + 1), inFlight := none }
  else
    let hintNext := if m.hint = maximum then progress.next else m.hint + 1
    { progress with
      next := if 1 < progress.next then max (progress.matched + 1) (min (progress.next - 1) hintNext) else progress.next
      inFlight := none }

/-- A read counts a success only for a probe that was sent after its admission. -/
def acknowledge (read : ReadBarrier) (probe : Probe) (m : AppendReply) : ReadBarrier :=
  if read.probes.find? m.follower = some m.requestId ∧ m.matched = probe.prev + probe.count then
    { read with acknowledgements := insert m.follower read.acknowledgements }
  else read

def recvAppendReply (config : Config) (state : Node) (m : AppendReply) : Node × Effects :=
  if !knownPeer state m.follower then (state, {})
  else if state.durable.term < m.term then
    let (state, effects) := adoptHigherTerm state m.term
    completeRead config state effects
  else if state.volatile.role = .leader ∧ m.term = state.durable.term then
    match (state.volatile.peers.find? m.follower).bind (·.inFlight) with
    | none => (state, {})
    | some probe =>
      if probe.requestId ≠ m.requestId ∨ probe.term ≠ m.term then (state, {})
      else
        let state := if m.success then setRead state (state.volatile.read.map fun r => acknowledge r probe m) else state
        let state := setProgress state m.follower fun progress => progressAfter progress probe m
        completeRead config state {}
  else completeRead config state {}

def advanceCommit (config : Config) (state : Node) : Node × Effects :=
  if state.volatile.role = .leader then
    let n := highestCommittable config state
    if state.durable.commit < n then stage state {} { state.durable with commit := n } [] else (state, {})
  else (state, {})

def applyCommitted (state : Node) : Node × Effects :=
  if state.durable.applied < state.durable.commit ∧ state.durable.applied < state.durable.lastIndex then
    let target := { state.durable with applied := state.durable.applied + 1 }
    beginWrite state {} target [] (target.entryAt target.applied).toList false [] .stateUpdate
  else (state, {})

/-- One durable operation is in flight per node, and a halted node serves nothing: the inputs below are
    ignored then. -/
def handle (config : Config) (state : Node) (input : Input) : Node × Effects :=
  match input with
  | .compactCommitted => compactCommitted state
  | .recvSnapshot m => recvSnapshot config state m
  | .recvSnapshotReply m => recvSnapshotReply state m
  | .electionTimeout => electionTimeout config state
  | .recvRequestVote m => recvRequestVote config state m
  | .recvVoteReply m => recvVoteReply config state m
  | .clientPropose command => clientPropose config state command
  | .heartbeatTimeout => heartbeatTimeout config state
  | .recvAppend m => recvAppend config state m
  | .recvAppendReply m => recvAppendReply config state m
  | .advanceCommit => advanceCommit config state
  | .applyCommitted => applyCommitted state
  | _ => (state, {})

def step (config : Config) (state : Node) (input : Input) : Node × Effects :=
  if !state.durable.valid || state.pending.any (fun pending => !pending.target.valid) then failStop state
  else match input with
  | .persistCompleted token => persistCompleted config state token
  | .persistFailed token => persistFailed state token
  | .restart => restart config state
  | .cancelRead context => cancelRead state context
  | .beginRead context => beginRead config state context
  | _ => if state.halted ∨ state.pending.isSome then (state, {}) else handle config state input

end Choreolog.Raft
