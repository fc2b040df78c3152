import Choreolog.Raft.Transition

/-! # Clusters of transition cores

Any number of nodes that each run `step`, a network that may lose, duplicate, delay and reorder whatever
was ever sent, and hosts that may crash at any point of a write. A host asks for the durable writes that
`step` requests one at a time; `writes` keeps the last request that is not known to be complete, since
after a failed write the disk may hold the old state, the new one or a torn one. -/

namespace Choreolog.Raft
open Function

/-- A finite set of members, each of which knows the others as its peers. -/
structure Membership where
  members : Finset String
  peers : String → List String
  nodup : ∀ n, (peers n).Nodup
  mem_peers : ∀ n ∈ members, ∀ p, p ∈ peers n ↔ p ∈ members ∧ p ≠ n

def Membership.config (M : Membership) (n : String) : Config := { self := n, peers := M.peers n }

/-- A snapshot boundary that a leader has offered to a peer: the leader's term, and the index and term of
    a `SnapshotNeeded` it released. -/
structure Offer where
  dest : String
  term : Nat
  leader : String
  index : Nat
  snapshotTerm : Nat
  deriving DecidableEq, Repr

structure Cluster where
  nodes : String → Node
  writes : String → Option PersistRequest
  network : List Outbound
  offers : List Offer

namespace Cluster

def init (M : Membership) : Cluster where
  nodes n := initial (M.config n)
  writes _ := none
  network := []
  offers := []

/-- The host's outstanding write after a step: a new request, or the old one while it is pending or after
    it failed. -/
def writeAfter (old : Option PersistRequest) (node : Node) (effects : Effects) : Option PersistRequest :=
  match effects.persist with
  | some request => some request
  | none => if node.halted ∨ node.pending.isSome then old else none

def offerOf (leader : String) (term : Nat) (needed : SnapshotNeeded) : Offer :=
  { dest := needed.peer, term, leader, index := needed.index, snapshotTerm := needed.term }

/-- Node `n` takes an input, and its effects are carried out. -/
def fire (M : Membership) (c : Cluster) (n : String) (input : Input) : Cluster :=
  let (node, effects) := step (M.config n) (c.nodes n) input
  { nodes := update c.nodes n node
    writes := update c.writes n (writeAfter (c.writes n) node effects)
    network := c.network ++ effects.sendNow
    offers := c.offers ++ effects.snapshotNeeded.map (offerOf n node.durable.term) }

/-- The inputs that the environment may give to node `n`: any timer, proposal, read, maintenance or
    persistence callback, any message ever sent to it, and any snapshot ever offered to it. -/
inductive Allowed (c : Cluster) (n : String) : Input → Prop
  | electionTimeout : Allowed c n .electionTimeout
  | heartbeatTimeout : Allowed c n .heartbeatTimeout
  | clientPropose (command : String) : Allowed c n (.clientPropose command)
  | advanceCommit : Allowed c n .advanceCommit
  | applyCommitted : Allowed c n .applyCommitted
  | compactCommitted : Allowed c n .compactCommitted
  | beginRead (context : RequestId) : Allowed c n (.beginRead context)
  | cancelRead (context : RequestId) : Allowed c n (.cancelRead context)
  | persistCompleted (token : PersistToken) : Allowed c n (.persistCompleted token)
  | persistFailed (token : PersistToken) : Allowed c n (.persistFailed token)
  | recvRequestVote (m : RequestVote) (sent : ⟨n, .requestVote m⟩ ∈ c.network) : Allowed c n (.recvRequestVote m)
  | recvVoteReply (m : VoteReply) (sent : ⟨n, .voteReply m⟩ ∈ c.network) : Allowed c n (.recvVoteReply m)
  | recvAppend (m : AppendEntries) (sent : ⟨n, .appendEntries m⟩ ∈ c.network) : Allowed c n (.recvAppend m)
  | recvAppendReply (m : AppendReply) (sent : ⟨n, .appendReply m⟩ ∈ c.network) : Allowed c n (.recvAppendReply m)
  | recvSnapshot (o : Offer) (id : RequestId) (ready : Bool) (offered : o ∈ c.offers) (dest : o.dest = n) :
      Allowed c n (.recvSnapshot
        { term := o.term, leader := o.leader, index := o.index, snapshotTerm := o.snapshotTerm, requestId := id, ready })
  | recvSnapshotReply (m : SnapshotReply) (sent : ⟨n, .snapshotReply m⟩ ∈ c.network) :
      Allowed c n (.recvSnapshotReply m)

end Cluster

/-- What a host may find on disk after a crash: the last acknowledged state, the target of the outstanding
    write, or a state between them. An ordinary update writes the term and vote, then the log (the part
    that differs is cut and then written entry by entry), then the commit index, then the applied
    index; a snapshot install writes the term and vote first and the rest at once. A host that replays
    its log on recovery has applied more of the committed prefix. -/
inductive Recovers (old : Durable) : Option PersistRequest → Durable → Prop
  | old (w : Option PersistRequest) : Recovers old w old
  | target (r : PersistRequest) : Recovers old (some r) r.target
  | termAndVote (r : PersistRequest) (kind : r.kind ≠ .localCompaction) :
      Recovers old (some r) { old with term := r.target.term, votedFor := r.target.votedFor }
  | log (r : PersistRequest) (kind : r.kind = .stateUpdate) (k : Nat)
      (kept : EntryLog.commonPrefixSize old.log r.target.log ≤ k) :
      Recovers old (some r)
        { old with term := r.target.term, votedFor := r.target.votedFor, log := r.target.log.take k }
  | commit (r : PersistRequest) (kind : r.kind = .stateUpdate) :
      Recovers old (some r) { r.target with applied := old.applied }
  | replayed {w : Option PersistRequest} {d : Durable} (found : Recovers old w d) (applied : Nat)
      (lower : d.applied ≤ applied) (upper : applied ≤ d.commit) : Recovers old w { d with applied }

namespace Cluster

/-- Node `n` restarts from the recovered state, in a new process or in place: nothing volatile survives,
    and in a new process the tokens and request ids start again. -/
def crash (M : Membership) (c : Cluster) (n : String) (recovered : Durable) (inPlace : Bool) : Cluster :=
  let host := if inPlace then c.nodes n else initial (M.config n)
  { c with
    nodes := update c.nodes n (step (M.config n) { host with durable := recovered } .restart).1
    writes := update c.writes n none }

inductive Step (M : Membership) : Cluster → Cluster → Prop
  | input {c : Cluster} (n : String) (member : n ∈ M.members) (input : Input) (allowed : c.Allowed n input) :
      Step M c (c.fire M n input)
  | crash {c : Cluster} (n : String) (member : n ∈ M.members) (recovered : Durable) (inPlace : Bool)
      (found : Recovers (c.nodes n).durable (c.writes n) recovered) : Step M c (c.crash M n recovered inPlace)

/-- `t` is a later state of a run through `s`. -/
def Later (M : Membership) : Cluster → Cluster → Prop := Relation.ReflTransGen (Step M)

def Reachable (M : Membership) (c : Cluster) : Prop := Later M (init M) c

end Cluster

end Choreolog.Raft
