import Choreolog.Protocol.ServiceCodec
import Choreolog.State.Snapshot
import Choreolog.Storage.Store

/-! # Management pages

The `state` and `events` operations of `NodeServer::on_management` (`cpp-runtime/src/network/node_server.cpp`) for a
loopback client, and `fetch_state` (`cpp-runtime/src/protocol/client.cpp`), which puts a state together from pages. -/

namespace Choreolog.Network
open State Protocol Storage

/-! ## State pages -/

/-- What the pages of a server's state depend on. The hash of the committed state is its `stateHash` after every commit. -/
structure StateServer where
  state : Domain
  commitIndex : Nat := 0
  cachedStateHash : String := ""
  cachedState : String := ""

namespace StateServer

/-- The canonical text is cached under the hash of its state. -/
def refresh (server : StateServer) : StateServer :=
  if server.cachedStateHash ≠ stateHash server.state then
    { server with cachedState := canonicalState server.state, cachedStateHash := stateHash server.state }
  else server

/-- A chunk of the cached text. -/
def chunk (server : StateServer) (query : ManagementQuery) : ManagementReply :=
  let reply : ManagementReply :=
    { snapshotIndex := server.commitIndex, snapshotStateHash := stateHash server.state, stateSize := server.cachedState.length }
  if server.cachedState.length < query.afterIndex then
    { reply with errorCode := "InvalidCursor", errorMessage := "state byte cursor exceeds state size" }
  else
    -- The page size is in KiB.
    let kib := if query.pageSize = 0 then 64 else min query.pageSize 64
    let stateChunk := String.ofList ((server.cachedState.toList.drop query.afterIndex).take (kib * 1024))
    let nextAfterIndex := query.afterIndex + stateChunk.length
    { reply with stateChunk, nextAfterIndex, hasMore := nextAfterIndex < server.cachedState.length }

def statePage (server : StateServer) (query : ManagementQuery) : ManagementReply × StateServer :=
  if (query.afterIndex ≠ 0 ∧ query.expectedStateHash = "") ∨
      (query.expectedStateHash ≠ "" ∧ query.expectedStateHash ≠ stateHash server.state) then
    ({ errorCode := "StateChanged", errorMessage := "state changed or continuation token missing; restart pagination" }, server)
  else (server.refresh.chunk query, server.refresh)

end StateServer

/-- What happens at a server between two pages of a client: commits, and the queries of others. -/
inductive ServerEvent where
  | commit (state : Domain) (index : Nat)
  | other (query : ManagementQuery)

def StateServer.handle (server : StateServer) : ServerEvent → StateServer
  | .commit state index => { server with state, commitIndex := index }
  | .other query => (server.statePage query).2

/-- What the client requires of a page. -/
structure Accepts (maximum : Nat) (assembled hash : String) (value : ManagementReply) : Prop where
  hash : if hash = "" then value.snapshotStateHash ≠ "" else hash = value.snapshotStateHash
  room : value.stateChunk.length ≤ maximum - assembled.length
  next : value.nextAfterIndex = assembled.length + value.stateChunk.length
  size : value.nextAfterIndex ≤ value.stateSize
  more : value.hasMore = decide (value.nextAfterIndex < value.stateSize)
  nonempty : value.hasMore = true → value.stateChunk ≠ ""

instance (maximum : Nat) (assembled hash : String) (value : ManagementReply) : Decidable (Accepts maximum assembled hash value) :=
  decidable_of_iff (_ ∧ _ ∧ _ ∧ _ ∧ _ ∧ _) ⟨fun ⟨a, b, c, d, e, f⟩ => ⟨a, b, c, d, e, f⟩, fun ⟨a, b, c, d, e, f⟩ => ⟨a, b, c, d, e, f⟩⟩

theorem Accepts.shorter {maximum : Nat} {assembled hash : String} {value : ManagementReply}
    (h : Accepts maximum assembled hash value) (more : value.hasMore = true) :
    maximum - (assembled ++ value.stateChunk).length < maximum - assembled.length := by
  have hroom := h.room
  have hpos : value.stateChunk.length ≠ 0 := fun hzero => h.nonempty more (String.length_eq_zero_iff.mp hzero)
  rw [String.length_append]
  omega

/-- `fetch_state` from one page on. `schedule` says what happens at the server before each page, or that the page does
    not come; the server is returned as the last page leaves it. -/
def fetchState (maximum : Nat) (schedule : Nat → Option (List ServerEvent)) (page : Nat) (server : StateServer)
    (assembled hash : String) : Result String × StateServer :=
  match schedule page with
  | none => (.error ⟨.unavailable, "state pagination timed out"⟩, server)
  | some events =>
    let query : ManagementQuery := { operation := "state", afterIndex := assembled.length, expectedStateHash := hash }
    let reply := ((events.foldl StateServer.handle server).statePage query).1
    let server := ((events.foldl StateServer.handle server).statePage query).2
    if reply.errorCode ≠ "" then (.error ⟨.unavailable, reply.errorMessage⟩, server)
    else if maximum < reply.stateSize then
      (.error ⟨.protocolError, "state exceeds unary response limit; use paginated state queries"⟩, server)
    else if accepted : Accepts maximum assembled hash reply then
      if more : reply.hasMore = true then
        fetchState maximum schedule (page + 1) server (assembled ++ reply.stateChunk) reply.snapshotStateHash
      else (.ok (assembled ++ reply.stateChunk), server)
    else (.error ⟨.protocolError, "invalid state page cursor or hash"⟩, server)
termination_by maximum - assembled.length
decreasing_by
  exact accepted.shorter more

/-! ## Event pages -/

/-- `kMaxEventPageBytes` -/
def maxEventPageBytes : Nat := maxFramePayload - 4096

/-- The loop over the log, with the bytes of the page so far. -/
def collectEvents (committed limit : Nat) : List Event → Nat → ManagementReply → ManagementReply
  | [], _, reply => reply
  | event :: rest, pageBytes, reply =>
    if committed < event.index then reply
    else
      let canonical := canonicalEvent event
      if maxEventPageBytes < canonical.length then
        { reply with errorCode := "EventTooLarge", errorMessage := "committed event exceeds the management page limit", events := [] }
      else if reply.events.length = limit ∨ maxEventPageBytes - pageBytes < canonical.length then { reply with hasMore := true }
      else
        collectEvents committed limit rest (pageBytes + canonical.length)
          { reply with events := reply.events ++ [canonical], nextAfterIndex := event.index }

/-- Where the log continues after a cursor. -/
def seekAfter (log : List Event) (after : Nat) : Nat :=
  match log.head? with
  | none => 0
  | some front => if front.index ≤ after then min (after - front.index + 1) log.length else 0

def eventPage (store : FileEngine) (after pageSize : Nat) : ManagementReply :=
  let first := store.logFirstIndex
  let limit := if pageSize = 0 then 64 else pageSize
  let reply : ManagementReply := { nextAfterIndex := after }
  if 1 < first ∧ after < first - 1 then
    { reply with errorCode := "Compacted", errorMessage := "requested event range has been compacted; bootstrap from snapshot" }
  else collectEvents store.commitIndex limit (store.wal.events.drop (seekAfter store.wal.events after)) 0 reply

end Choreolog.Network
