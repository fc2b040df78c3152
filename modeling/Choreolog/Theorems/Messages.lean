import Choreolog.Protocol.ServiceCodec
import Choreolog.Theorems.Codec

/-! # Messages read back

The fields of a message are written one after the other, and those that hold their default are left out. Reading
starts from a message with all defaults and sets one field after the other, so it ends at the message that was
written. The one exception is a list: an element that is empty is left out as well. -/

namespace Choreolog.Protocol
open Lib State

/-- A `std::string`, one character a byte. -/
def IsBytes (text : String) : Prop := ∃ content : List UInt8, content.length < 2 ^ 64 ∧ text = Bytes.toText content

/-! ### One field -/

section Fields
variable {M : Type} {cast : Nat → Nat} {set : M → Nat → Wire.Value → Result M} {before : M} {number : Nat}

theorem reads_number {update : Nat → M} {n : Nat} (keeps : Wire.Keeps cast) (small : number < 2 ^ 32)
    (hset : ∀ n, set before number (.varint n) = .ok (update n)) (h : n < 2 ^ 64) (hzero : n = 0 → before = update 0) :
    Wire.Reads cast protocolError set (Wire.uint number n) before (update n) := by
  refine .uint keeps small h (fun _ => hset n) ?_
  rintro rfl
  exact hzero rfl

theorem reads_flag {update : Bool → M} {flag : Bool} (keeps : Wire.Keeps cast) (small : number < 2 ^ 32)
    (hset : set before number (.varint 1) = .ok (update true)) (hfalse : before = update false) :
    Wire.Reads cast protocolError set (Wire.bool number flag) before (update flag) := by
  refine .bool keeps small ?_ ?_
  · rintro rfl
    exact hset
  · rintro rfl
    exact hfalse

theorem reads_text {update : List UInt8 → M} {content : List UInt8} (keeps : Wire.Keeps cast) (small : number < 2 ^ 32)
    (hset : ∀ content, set before number (.bytes content) = .ok (update content)) (h : content.length < 2 ^ 64)
    (hempty : before = update []) :
    Wire.Reads cast protocolError set (writeText number (Bytes.toText content)) before (update content) := by
  unfold writeText
  rw [Bytes.ofText_toText]
  refine .bytes keeps small h (fun _ => hset content) ?_
  rintro rfl
  exact hempty

end Fields

/-! ### Messages between replicas -/

theorem writeText_ne_nil {number : Nat} {text : String} (h : text ≠ "") : writeText number text ≠ [] := by
  have hbytes : Bytes.ofText text ≠ [] := by
    simpa [Bytes.ofText] using h
  unfold writeText Wire.bytes
  rw [if_neg hbytes]
  simp [hbytes]

/-- An event that its own record is read as. -/
structure Reparses (event : Event) : Prop where
  parses : parseEvent (canonicalEvent event) = .ok event
  size : (writeText 1 (canonicalEvent event)).length < 2 ^ 64

theorem Reparses.decodeEvent {event : Event} (h : Reparses event) : decodeEvent (writeText 1 (canonicalEvent event)) = .ok event := by
  have hlength : (Bytes.ofText (canonicalEvent event)).length < 2 ^ 64 := by
    refine lt_of_le_of_lt ?_ h.size
    unfold writeText Wire.bytes
    split
    · rename_i hnil
      rw [hnil]
    · rw [List.length_append]
      exact Nat.le_add_left _ _
  have hread : Wire.Reads Wire.narrow protocolError eventRecord (writeText 1 (canonicalEvent event)) "" (canonicalEvent event) := by
    refine .bytes Wire.keeps_narrow (by decide) hlength (fun _ => ?_) fun hnil => absurd hnil ?_
    · exact congrArg Except.ok (Ascii.canonicalEvent event).toText_ofText
    · simpa [Bytes.ofText] using canonicalEvent_ne_empty event
  unfold Protocol.decodeEvent Wire.decode
  rw [hread.decodeWith]
  exact h.parses

structure AppendEntries.Fits (message : AppendEntries) : Prop where
  term : 1 ≤ message.term ∧ message.term < 2 ^ 64
  leaderId : IsBytes message.leaderId
  prevLogIndex : message.prevLogIndex < 2 ^ 64
  prevLogTerm : message.prevLogTerm < 2 ^ 64
  entries : ∀ event ∈ message.entries, Reparses event
  leaderCommit : message.leaderCommit < 2 ^ 64

theorem AppendEntries.reads_entries {before : AppendEntries} {entries : List Event} (h : ∀ event ∈ entries, Reparses event) :
    Wire.Reads Wire.narrow protocolError AppendEntries.set (entries.flatMap (writeEvent 5)) before
      { before with entries := before.entries ++ entries } := by
  induction entries generalizing before with
  | nil =>
    rw [List.append_nil]
    exact .nil before
  | cons event entries ih =>
    have hevent := h event List.mem_cons_self
    have hset : AppendEntries.set before 5 (.bytes (writeText 1 (canonicalEvent event))) =
        .ok { before with entries := before.entries ++ [event] } := by
      simp only [AppendEntries.set, hevent.decodeEvent, bind, Except.bind, pure, Except.pure]
    have hrest := @ih { before with entries := before.entries ++ [event] } fun e he => h e (List.mem_cons_of_mem _ he)
    rw [List.flatMap_cons]
    refine .append (.bytes Wire.keeps_narrow (by decide) hevent.size (fun _ => hset) ?_) ?_
    · exact fun hnil => absurd hnil (writeText_ne_nil (canonicalEvent_ne_empty event))
    · simpa using hrest

theorem AppendEntries.decode_encode {message : AppendEntries} (h : message.Fits) : decodeAppendEntries message.encode = .ok message := by
  obtain ⟨term, leaderId, prevLogIndex, prevLogTerm, entries, leaderCommit⟩ := message
  obtain ⟨leaderId, hleader, rfl⟩ := h.leaderId
  refine Wire.Reads.decodeWith ?_
  simp only [encode, List.append_assoc]
  refine .append (reads_number Wire.keeps_narrow (by decide) (fun _ => rfl) h.term.2 fun hz => absurd hz (Nat.ne_of_gt h.term.1)) ?_
  refine .append (reads_text Wire.keeps_narrow (by decide) (fun _ => rfl) hleader rfl) ?_
  refine .append (reads_number Wire.keeps_narrow (by decide) (fun _ => rfl) h.prevLogIndex fun _ => rfl) ?_
  refine .append (reads_number Wire.keeps_narrow (by decide) (fun _ => rfl) h.prevLogTerm fun _ => rfl) ?_
  refine .append (reads_entries h.entries) ?_
  exact reads_number Wire.keeps_narrow (by decide) (fun _ => rfl) h.leaderCommit fun _ => rfl

structure AppendEntriesResponse.Fits (message : AppendEntriesResponse) : Prop where
  term : 1 ≤ message.term ∧ message.term < 2 ^ 64
  followerId : IsBytes message.followerId
  matchIndex : message.matchIndex < 2 ^ 64
  hintIndex : message.hintIndex < 2 ^ 64

theorem AppendEntriesResponse.decode_encode {message : AppendEntriesResponse} (h : message.Fits) :
    decodeAppendResponse message.encode = .ok message := by
  obtain ⟨term, followerId, success, matchIndex, hintIndex⟩ := message
  obtain ⟨followerId, hfollower, rfl⟩ := h.followerId
  refine Wire.Reads.decodeWith ?_
  simp only [encode, List.append_assoc]
  refine .append (reads_number Wire.keeps_narrow (by decide) (fun _ => rfl) h.term.2 fun hz => absurd hz (Nat.ne_of_gt h.term.1)) ?_
  refine .append (reads_text Wire.keeps_narrow (by decide) (fun _ => rfl) hfollower rfl) ?_
  refine .append (@reads_flag _ _ _ _ _ (fun flag => ⟨term, Bytes.toText followerId, flag, 0, 0⟩) _ Wire.keeps_narrow (by decide) rfl rfl) ?_
  refine .append (reads_number Wire.keeps_narrow (by decide) (fun _ => rfl) h.matchIndex fun _ => rfl) ?_
  exact reads_number Wire.keeps_narrow (by decide) (fun _ => rfl) h.hintIndex fun _ => rfl

structure RequestVote.Fits (message : RequestVote) : Prop where
  term : 1 ≤ message.term ∧ message.term < 2 ^ 64
  candidateId : IsBytes message.candidateId
  lastLogIndex : message.lastLogIndex < 2 ^ 64
  lastLogTerm : message.lastLogTerm < 2 ^ 64

theorem RequestVote.decode_encode {message : RequestVote} (h : message.Fits) : decodeRequestVote message.encode = .ok message := by
  obtain ⟨term, candidateId, lastLogIndex, lastLogTerm⟩ := message
  obtain ⟨candidateId, hcandidate, rfl⟩ := h.candidateId
  refine Wire.Reads.decodeWith ?_
  simp only [encode, List.append_assoc]
  refine .append (reads_number Wire.keeps_narrow (by decide) (fun _ => rfl) h.term.2 fun hz => absurd hz (Nat.ne_of_gt h.term.1)) ?_
  refine .append (reads_text Wire.keeps_narrow (by decide) (fun _ => rfl) hcandidate rfl) ?_
  refine .append (reads_number Wire.keeps_narrow (by decide) (fun _ => rfl) h.lastLogIndex fun _ => rfl) ?_
  exact reads_number Wire.keeps_narrow (by decide) (fun _ => rfl) h.lastLogTerm fun _ => rfl

structure RequestVoteResponse.Fits (message : RequestVoteResponse) : Prop where
  term : 1 ≤ message.term ∧ message.term < 2 ^ 64
  voterId : IsBytes message.voterId

theorem RequestVoteResponse.decode_encode {message : RequestVoteResponse} (h : message.Fits) :
    decodeVoteResponse message.encode = .ok message := by
  obtain ⟨term, voterId, voteGranted⟩ := message
  obtain ⟨voterId, hvoter, rfl⟩ := h.voterId
  refine Wire.Reads.decodeWith ?_
  simp only [encode, List.append_assoc]
  refine .append (reads_number Wire.keeps_narrow (by decide) (fun _ => rfl) h.term.2 fun hz => absurd hz (Nat.ne_of_gt h.term.1)) ?_
  refine .append (reads_text Wire.keeps_narrow (by decide) (fun _ => rfl) hvoter rfl) ?_
  exact .trans_eq (@reads_flag _ _ _ _ _ (fun flag => ⟨term, Bytes.toText voterId, flag⟩) _ Wire.keeps_narrow (by decide) rfl rfl) rfl

structure InstallSnapshot.Fits (message : InstallSnapshot) : Prop where
  term : 1 ≤ message.term ∧ message.term < 2 ^ 64
  leaderId : IsBytes message.leaderId
  lastIncludedIndex : message.lastIncludedIndex < 2 ^ 64
  lastIncludedTerm : message.lastIncludedTerm < 2 ^ 64
  stateHash : IsBytes message.stateHash
  payload : IsBytes message.payload
  offset : message.offset < 2 ^ 64

theorem InstallSnapshot.decode_encode {message : InstallSnapshot} (h : message.Fits) :
    decodeInstallSnapshot message.encode = .ok message := by
  obtain ⟨term, leaderId, lastIncludedIndex, lastIncludedTerm, stateHash, payload, offset, more⟩ := message
  obtain ⟨leaderId, hleader, rfl⟩ := h.leaderId
  obtain ⟨stateHash, hhash, rfl⟩ := h.stateHash
  obtain ⟨payload, hpayload, rfl⟩ := h.payload
  refine Wire.Reads.decodeWith ?_
  simp only [encode, List.append_assoc]
  refine .append (reads_number Wire.keeps_narrow (by decide) (fun _ => rfl) h.term.2 fun hz => absurd hz (Nat.ne_of_gt h.term.1)) ?_
  refine .append (reads_text Wire.keeps_narrow (by decide) (fun _ => rfl) hleader rfl) ?_
  refine .append (reads_number Wire.keeps_narrow (by decide) (fun _ => rfl) h.lastIncludedIndex fun _ => rfl) ?_
  refine .append (reads_number Wire.keeps_narrow (by decide) (fun _ => rfl) h.lastIncludedTerm fun _ => rfl) ?_
  refine .append (reads_text Wire.keeps_narrow (by decide) (fun _ => rfl) hhash rfl) ?_
  refine .append (reads_text Wire.keeps_narrow (by decide) (fun _ => rfl) hpayload rfl) ?_
  refine .append (reads_number Wire.keeps_narrow (by decide) (fun _ => rfl) h.offset fun _ => rfl) ?_
  exact .trans_eq (@reads_flag _ _ _ _ _ (fun flag => ⟨term, Bytes.toText leaderId, lastIncludedIndex, lastIncludedTerm, Bytes.toText stateHash,
    Bytes.toText payload, offset, flag⟩) _ Wire.keeps_narrow (by decide) rfl rfl) rfl

structure InstallSnapshotResponse.Fits (message : InstallSnapshotResponse) : Prop where
  term : 1 ≤ message.term ∧ message.term < 2 ^ 64
  followerId : IsBytes message.followerId
  nextOffset : message.nextOffset < 2 ^ 64

theorem InstallSnapshotResponse.decode_encode {message : InstallSnapshotResponse} (h : message.Fits) :
    decodeSnapshotResponse message.encode = .ok message := by
  obtain ⟨term, followerId, success, nextOffset⟩ := message
  obtain ⟨followerId, hfollower, rfl⟩ := h.followerId
  refine Wire.Reads.decodeWith ?_
  simp only [encode, List.append_assoc]
  refine .append (reads_number Wire.keeps_narrow (by decide) (fun _ => rfl) h.term.2 fun hz => absurd hz (Nat.ne_of_gt h.term.1)) ?_
  refine .append (reads_text Wire.keeps_narrow (by decide) (fun _ => rfl) hfollower rfl) ?_
  refine .append (@reads_flag _ _ _ _ _ (fun flag => ⟨term, Bytes.toText followerId, flag, 0⟩) _ Wire.keeps_narrow (by decide) rfl rfl) ?_
  exact reads_number Wire.keeps_narrow (by decide) (fun _ => rfl) h.nextOffset fun _ => rfl

/-! ### Handshakes and clients -/

structure Handshake.Fits (message : Handshake) : Prop where
  nodeId : IsBytes message.nodeId
  major : 1 ≤ message.major ∧ message.major < 2 ^ 32
  minor : message.minor < 2 ^ 32

theorem Handshake.decode_encode {message : Handshake} (h : message.Fits) : decodeHandshake message.encode = .ok message := by
  obtain ⟨nodeId, major, minor⟩ := message
  obtain ⟨nodeId, hnode, rfl⟩ := h.nodeId
  have hmajor : major < 2 ^ 32 := h.major.2
  have hminor : minor < 2 ^ 32 := h.minor
  refine Wire.Reads.decodeWith ?_
  simp only [encode, List.append_assoc]
  refine .append (reads_text Wire.keeps_narrow (by decide) (fun _ => rfl) hnode rfl) ?_
  refine .append (.uint Wire.keeps_narrow (by decide) (hmajor.trans (by decide)) (fun _ => if_neg (Nat.not_le.mpr hmajor))
    fun hz => absurd hz (Nat.ne_of_gt h.major.1)) ?_
  refine .uint Wire.keeps_narrow (by decide) (hminor.trans (by decide)) (fun _ => if_neg (Nat.not_le.mpr hminor)) ?_
  rintro rfl
  rfl

structure ProtocolError.Fits (message : ProtocolError) : Prop where
  code : IsBytes message.code
  detail : IsBytes message.detail

theorem ProtocolError.decode_encode {message : ProtocolError} (h : message.Fits) : decodeProtocolError message.encode = .ok message := by
  obtain ⟨code, detail⟩ := message
  obtain ⟨code, hcode, rfl⟩ := h.code
  obtain ⟨detail, hdetail, rfl⟩ := h.detail
  refine Wire.Reads.decodeWith ?_
  unfold encode
  refine .append (reads_text Wire.keeps_narrow (by decide) (fun _ => rfl) hcode rfl) ?_
  exact .trans_eq (reads_text Wire.keeps_narrow (by decide) (fun _ => rfl) hdetail rfl) rfl

structure ClientCommand.Fits (message : ClientCommand) : Prop where
  canonical : IsBytes message.canonical

theorem ClientCommand.decode_encode {message : ClientCommand} (h : message.Fits) : decodeClientCommand message.encode = .ok message := by
  obtain ⟨canonical⟩ := message
  obtain ⟨canonical, hcanonical, rfl⟩ := h.canonical
  exact Wire.Reads.decodeWith (.trans_eq (reads_text Wire.keeps_narrow (by decide) (fun _ => rfl) hcanonical rfl) rfl)

structure ClientResponse.Fits (message : ClientResponse) : Prop where
  errorCode : IsBytes message.errorCode
  errorMessage : IsBytes message.errorMessage
  leaderId : IsBytes message.leaderId
  index : message.index < 2 ^ 64
  eventCanonical : IsBytes message.eventCanonical
  stateHash : IsBytes message.stateHash

theorem ClientResponse.decode_encode {message : ClientResponse} (h : message.Fits) : decodeClientResponse message.encode = .ok message := by
  obtain ⟨ok, duplicate, errorCode, errorMessage, leaderId, index, eventCanonical, stateHash⟩ := message
  obtain ⟨errorCode, hcode, rfl⟩ := h.errorCode
  obtain ⟨errorMessage, hmessage, rfl⟩ := h.errorMessage
  obtain ⟨leaderId, hleader, rfl⟩ := h.leaderId
  obtain ⟨eventCanonical, hevent, rfl⟩ := h.eventCanonical
  obtain ⟨stateHash, hhash, rfl⟩ := h.stateHash
  refine Wire.Reads.decodeWith ?_
  simp only [encode, List.append_assoc]
  refine .append (@reads_flag _ _ _ _ _ (fun flag => { ok := flag }) _ Wire.keeps_narrow (by decide) rfl rfl) ?_
  refine .append (@reads_flag _ _ _ _ _ (fun flag => { ok := ok, duplicate := flag }) _ Wire.keeps_narrow (by decide) rfl rfl) ?_
  refine .append (reads_text Wire.keeps_narrow (by decide) (fun _ => rfl) hcode rfl) ?_
  refine .append (reads_text Wire.keeps_narrow (by decide) (fun _ => rfl) hmessage rfl) ?_
  refine .append (reads_text Wire.keeps_narrow (by decide) (fun _ => rfl) hleader rfl) ?_
  refine .append (reads_number Wire.keeps_narrow (by decide) (fun _ => rfl) h.index fun _ => rfl) ?_
  refine .append (reads_text Wire.keeps_narrow (by decide) (fun _ => rfl) hevent rfl) ?_
  exact .trans_eq (reads_text Wire.keeps_narrow (by decide) (fun _ => rfl) hhash rfl) rfl

structure StatusResponse.Fits (message : StatusResponse) : Prop where
  nodeId : IsBytes message.nodeId
  leaderId : IsBytes message.leaderId
  role : IsBytes message.role
  term : 1 ≤ message.term ∧ message.term < 2 ^ 64
  commitIndex : message.commitIndex < 2 ^ 64
  lastLogIndex : message.lastLogIndex < 2 ^ 64
  stateHash : IsBytes message.stateHash
  canonicalState : IsBytes message.canonicalState

theorem StatusResponse.decode_encode {message : StatusResponse} (h : message.Fits) : decodeStatusResponse message.encode = .ok message := by
  obtain ⟨nodeId, leaderId, role, term, commitIndex, lastLogIndex, stateHash, canonicalState⟩ := message
  obtain ⟨nodeId, hnode, rfl⟩ := h.nodeId
  obtain ⟨leaderId, hleader, rfl⟩ := h.leaderId
  obtain ⟨role, hrole, rfl⟩ := h.role
  obtain ⟨stateHash, hhash, rfl⟩ := h.stateHash
  obtain ⟨canonicalState, hstate, rfl⟩ := h.canonicalState
  refine Wire.Reads.decodeWith ?_
  simp only [encode, List.append_assoc]
  refine .append (reads_text Wire.keeps_narrow (by decide) (fun _ => rfl) hnode rfl) ?_
  refine .append (reads_text Wire.keeps_narrow (by decide) (fun _ => rfl) hleader rfl) ?_
  refine .append (reads_text Wire.keeps_narrow (by decide) (fun _ => rfl) hrole rfl) ?_
  refine .append (reads_number Wire.keeps_narrow (by decide) (fun _ => rfl) h.term.2 fun hz => absurd hz (Nat.ne_of_gt h.term.1)) ?_
  refine .append (reads_number Wire.keeps_narrow (by decide) (fun _ => rfl) h.commitIndex fun _ => rfl) ?_
  refine .append (reads_number Wire.keeps_narrow (by decide) (fun _ => rfl) h.lastLogIndex fun _ => rfl) ?_
  refine .append (reads_text Wire.keeps_narrow (by decide) (fun _ => rfl) hhash rfl) ?_
  exact .trans_eq (reads_text Wire.keeps_narrow (by decide) (fun _ => rfl) hstate rfl) rfl

/-! ### Management -/

structure ManagementQuery.Fits (message : ManagementQuery) : Prop where
  operation : IsBytes message.operation
  afterIndex : message.afterIndex < 2 ^ 64
  pageSize : message.pageSize ≤ 128
  peerId : IsBytes message.peerId
  delayMs : message.delayMs ≤ 5000
  expectedStateHash : IsBytes message.expectedStateHash

theorem ManagementQuery.decode_encode {message : ManagementQuery} (h : message.Fits) :
    decodeManagementQuery message.encode = .ok message := by
  obtain ⟨operation, afterIndex, pageSize, peerId, delayMs, expectedStateHash⟩ := message
  obtain ⟨operation, hoperation, rfl⟩ := h.operation
  obtain ⟨peerId, hpeer, rfl⟩ := h.peerId
  obtain ⟨expectedStateHash, hhash, rfl⟩ := h.expectedStateHash
  have hpage : pageSize ≤ 128 := h.pageSize
  have hdelay : delayMs ≤ 5000 := h.delayMs
  refine Wire.Reads.decodeWith ?_
  simp only [encode, List.append_assoc]
  refine .append (reads_text Wire.keeps_id (by decide) (fun _ => rfl) hoperation rfl) ?_
  refine .append (reads_number Wire.keeps_id (by decide) (fun _ => rfl) h.afterIndex fun _ => rfl) ?_
  refine .append (.uint Wire.keeps_id (by decide) (hpage.trans_lt (by decide)) (fun _ => if_neg (Nat.not_lt.mpr hpage)) ?_) ?_
  · rintro rfl
    rfl
  refine .append (reads_text Wire.keeps_id (by decide) (fun _ => rfl) hpeer rfl) ?_
  refine .append (.uint Wire.keeps_id (by decide) (hdelay.trans_lt (by decide)) (fun _ => if_neg (Nat.not_lt.mpr hdelay)) ?_) ?_
  · rintro rfl
    rfl
  exact .trans_eq (reads_text Wire.keeps_id (by decide) (fun _ => rfl) hhash rfl) rfl

/-- The numbers and texts of a reply, whatever its events are. -/
structure ManagementReply.Fits (message : ManagementReply) : Prop where
  errorCode : IsBytes message.errorCode
  errorMessage : IsBytes message.errorMessage
  events : ∀ text ∈ message.events, IsBytes text
  nextAfterIndex : message.nextAfterIndex < 2 ^ 64
  roleChanges : message.roleChanges < 2 ^ 64
  electionsStarted : message.electionsStarted < 2 ^ 64
  votesGranted : message.votesGranted < 2 ^ 64
  stepDowns : message.stepDowns < 2 ^ 64
  messagesDroppedOversize : message.messagesDroppedOversize < 2 ^ 64
  snapshotChunksSent : message.snapshotChunksSent < 2 ^ 64
  transportFramesSent : message.transportFramesSent < 2 ^ 64
  transportFramesReceived : message.transportFramesReceived < 2 ^ 64
  transportDropped : message.transportDropped < 2 ^ 64
  snapshotIndex : message.snapshotIndex < 2 ^ 64
  snapshotStateHash : IsBytes message.snapshotStateHash
  recoveryReport : IsBytes message.recoveryReport
  stateChunk : IsBytes message.stateChunk
  stateSize : message.stateSize < 2 ^ 64

/-- An empty element of a list is not written. -/
theorem ManagementReply.reads_events {before : ManagementReply} {events : List String} (h : ∀ text ∈ events, IsBytes text) :
    Wire.Reads id protocolError ManagementReply.set (events.flatMap (writeText 3)) before
      { before with events := before.events ++ events.filter (· ≠ "") } := by
  induction events generalizing before with
  | nil =>
    rw [List.filter_nil, List.append_nil]
    exact .nil before
  | cons text events ih =>
    have hevents : ∀ text ∈ events, IsBytes text := fun t ht => h t (List.mem_cons_of_mem _ ht)
    obtain ⟨content, hlength, rfl⟩ := h text List.mem_cons_self
    rw [List.flatMap_cons, writeText, Bytes.ofText_toText]
    by_cases hnil : content = []
    · subst hnil
      exact ih hevents
    · have htext : Bytes.toText content ≠ "" := by
        simpa [Bytes.toText] using hnil
      have hrest := @ih { before with events := before.events ++ [Bytes.toText content] } hevents
      rw [List.filter_cons_of_pos (by simpa using htext)]
      refine .append (.bytes Wire.keeps_id (by decide) hlength (fun _ => rfl) fun h => absurd h hnil) ?_
      simpa using hrest

theorem ManagementReply.decode_encode {message : ManagementReply} (h : message.Fits) :
    decodeManagementReply message.encode = .ok { message with events := message.events.filter (· ≠ "") } := by
  obtain ⟨errorCode, errorMessage, events, nextAfterIndex, hasMore, roleChanges, electionsStarted, votesGranted, stepDowns,
    messagesDroppedOversize, snapshotChunksSent, transportFramesSent, transportFramesReceived, transportDropped, snapshotIndex,
    snapshotStateHash, recoveryReport, stateChunk, stateSize⟩ := message
  obtain ⟨errorCode, hcode, rfl⟩ := h.errorCode
  obtain ⟨errorMessage, hmessage, rfl⟩ := h.errorMessage
  obtain ⟨snapshotStateHash, hhash, rfl⟩ := h.snapshotStateHash
  obtain ⟨recoveryReport, hreport, rfl⟩ := h.recoveryReport
  obtain ⟨stateChunk, hchunk, rfl⟩ := h.stateChunk
  refine Wire.Reads.decodeWith ?_
  simp only [encode, List.append_assoc]
  refine .append (reads_text Wire.keeps_id (by decide) (fun _ => rfl) hcode rfl) ?_
  refine .append (reads_text Wire.keeps_id (by decide) (fun _ => rfl) hmessage rfl) ?_
  refine .append (reads_events h.events) ?_
  refine .append (reads_number Wire.keeps_id (by decide) (fun _ => rfl) h.nextAfterIndex fun _ => rfl) ?_
  refine .append (@reads_flag _ _ _ _ _ (fun flag =>
    { errorCode := Bytes.toText errorCode, errorMessage := Bytes.toText errorMessage, events := events.filter (· ≠ "")
      nextAfterIndex := nextAfterIndex, hasMore := flag }) _ Wire.keeps_id (by decide) rfl rfl) ?_
  refine .append (reads_number Wire.keeps_id (by decide) (fun _ => rfl) h.roleChanges fun _ => rfl) ?_
  refine .append (reads_number Wire.keeps_id (by decide) (fun _ => rfl) h.electionsStarted fun _ => rfl) ?_
  refine .append (reads_number Wire.keeps_id (by decide) (fun _ => rfl) h.votesGranted fun _ => rfl) ?_
  refine .append (reads_number Wire.keeps_id (by decide) (fun _ => rfl) h.stepDowns fun _ => rfl) ?_
  refine .append (reads_number Wire.keeps_id (by decide) (fun _ => rfl) h.messagesDroppedOversize fun _ => rfl) ?_
  refine .append (reads_number Wire.keeps_id (by decide) (fun _ => rfl) h.snapshotChunksSent fun _ => rfl) ?_
  refine .append (reads_number Wire.keeps_id (by decide) (fun _ => rfl) h.transportFramesSent fun _ => rfl) ?_
  refine .append (reads_number Wire.keeps_id (by decide) (fun _ => rfl) h.transportFramesReceived fun _ => rfl) ?_
  refine .append (reads_number Wire.keeps_id (by decide) (fun _ => rfl) h.transportDropped fun _ => rfl) ?_
  refine .append (reads_number Wire.keeps_id (by decide) (fun _ => rfl) h.snapshotIndex fun _ => rfl) ?_
  refine .append (reads_text Wire.keeps_id (by decide) (fun _ => rfl) hhash rfl) ?_
  refine .append (reads_text Wire.keeps_id (by decide) (fun _ => rfl) hreport rfl) ?_
  refine .append (reads_text Wire.keeps_id (by decide) (fun _ => rfl) hchunk rfl) ?_
  exact reads_number Wire.keeps_id (by decide) (fun _ => rfl) h.stateSize fun _ => rfl

/-- A reply comes back whole exactly if none of its events is an empty text. -/
theorem ManagementReply.decode_encode_iff {message : ManagementReply} (h : message.Fits) :
    decodeManagementReply message.encode = .ok message ↔ "" ∉ message.events := by
  rw [decode_encode h]
  constructor
  · intro heq hmem
    have hevents : message.events.filter (· ≠ "") = message.events := congrArg ManagementReply.events (Except.ok.inj heq)
    rw [← hevents] at hmem
    simp at hmem
  · intro hnone
    have hevents : message.events.filter (· ≠ "") = message.events := by
      refine List.filter_eq_self.mpr fun text htext => ?_
      rw [decide_eq_true_eq]
      rintro rfl
      exact hnone htext
    rw [hevents]

/-! ### All messages -/

/-- Numbers and texts of the source's types, a term or a major version that is not zero, a page size and a delay within the
    limits, and events that parse back from their texts. -/
def Kind.Fits : (kind : Kind) → kind.Message → Prop
  | handshake => Handshake.Fits
  | appendEntries => AppendEntries.Fits
  | appendResponse => AppendEntriesResponse.Fits
  | requestVote => RequestVote.Fits
  | voteResponse => RequestVoteResponse.Fits
  | installSnapshot => InstallSnapshot.Fits
  | snapshotResponse => InstallSnapshotResponse.Fits
  | protocolError => ProtocolError.Fits
  | clientCommand => ClientCommand.Fits
  | clientResponse => ClientResponse.Fits
  | statusResponse => StatusResponse.Fits
  | managementQuery => ManagementQuery.Fits
  | managementReply => fun message => ManagementReply.Fits message ∧
      ∀ text ∈ ManagementReply.events message, ∃ event, parseEvent text = .ok event ∧ canonicalEvent event = text

theorem messages_round_trip (kind : Kind) (message : kind.Message) (h : kind.Fits message) :
    kind.decode (kind.encode message) = .ok message := by
  cases kind with
  | handshake => exact Handshake.decode_encode h
  | appendEntries => exact AppendEntries.decode_encode h
  | appendResponse => exact AppendEntriesResponse.decode_encode h
  | requestVote => exact RequestVote.decode_encode h
  | voteResponse => exact RequestVoteResponse.decode_encode h
  | installSnapshot => exact InstallSnapshot.decode_encode h
  | snapshotResponse => exact InstallSnapshotResponse.decode_encode h
  | protocolError => exact ProtocolError.decode_encode h
  | clientCommand => exact ClientCommand.decode_encode h
  | clientResponse => exact ClientResponse.decode_encode h
  | statusResponse => exact StatusResponse.decode_encode h
  | managementQuery => exact ManagementQuery.decode_encode h
  | managementReply =>
    obtain ⟨hfits, hevents⟩ := h
    refine (ManagementReply.decode_encode_iff hfits).mpr fun hempty => ?_
    obtain ⟨event, -, htext⟩ := hevents "" hempty
    exact canonicalEvent_ne_empty event htext

/-- The largest term, no leader, and a chunk of bytes that are no text. -/
def binaryChunk : InstallSnapshot := { term := 2 ^ 64 - 1, payload := Bytes.toText [0, 255, 128, 10], more := true }

theorem messages_round_trip_binary : decodeInstallSnapshot binaryChunk.encode = .ok binaryChunk :=
  messages_round_trip .installSnapshot binaryChunk
    { term := by decide, leaderId := ⟨[], by decide, rfl⟩, lastIncludedIndex := by decide, lastIncludedTerm := by decide
      stateHash := ⟨[], by decide, rfl⟩, payload := ⟨[0, 255, 128, 10], by decide, rfl⟩, offset := by decide }

end Choreolog.Protocol
