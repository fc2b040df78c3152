import Choreolog.Raft.Transition

/-! # What the helpers of `step` leave alone

Only `persistCompleted` and `restart` change the durable state, and only a few places change the role or
the tally. These lemmas say which part of the node and of the effects each helper can touch. -/

namespace Choreolog.Raft
open Lib

theorem idle_of_not {s : Node} (h : ¬(s.halted = true ∨ s.pending.isSome = true)) :
    s.halted = false ∧ s.pending = none := by
  simpa only [not_or, Bool.not_eq_true, Option.isSome_eq_false_iff, Option.isNone_iff_eq_none] using h

/-! ### Stepping down, reads and writes -/

section Stepping
variable (s : Node) (e : Effects)

@[simp] theorem stepDown_durable : (stepDown s e).1.durable = s.durable := rfl
@[simp] theorem stepDown_pending : (stepDown s e).1.pending = s.pending := rfl
@[simp] theorem stepDown_halted : (stepDown s e).1.halted = s.halted := rfl
@[simp] theorem stepDown_role : (stepDown s e).1.volatile.role = .follower := rfl
@[simp] theorem stepDown_votes : (stepDown s e).1.volatile.votes = ∅ := rfl
@[simp] theorem stepDown_read : (stepDown s e).1.volatile.read = none := rfl
@[simp] theorem stepDown_nextRequestId : (stepDown s e).1.nextRequestId = s.nextRequestId := rfl
@[simp] theorem stepDown_keys : (stepDown s e).1.volatile.peers.keys = s.volatile.peers.keys := by
  simp [stepDown]
@[simp] theorem stepDown_persist : (stepDown s e).2.persist = e.persist := rfl
@[simp] theorem stepDown_sendNow : (stepDown s e).2.sendNow = e.sendNow := rfl
@[simp] theorem stepDown_apply : (stepDown s e).2.apply = e.apply := rfl
@[simp] theorem stepDown_snapshotNeeded : (stepDown s e).2.snapshotNeeded = e.snapshotNeeded := rfl

theorem stepDown_read_status {r : ReadResult} (h : (stepDown s e).2.read = some r) :
    r.status = .notLeader ∨ e.read = some r := by
  unfold stepDown at h
  cases hr : s.volatile.read with
  | none => exact Or.inr (by simpa [hr] using h)
  | some b =>
    simp only [hr, Option.some.injEq] at h
    exact Or.inl (by rw [← h])

@[simp] theorem failStop_durable : (failStop s).1.durable = s.durable := rfl
@[simp] theorem failStop_pending : (failStop s).1.pending = none := rfl
@[simp] theorem failStop_halted : (failStop s).1.halted = true := rfl
@[simp] theorem failStop_role : (failStop s).1.volatile.role = .follower := rfl
@[simp] theorem failStop_keys : (failStop s).1.volatile.peers.keys = s.volatile.peers.keys := by
  simp [failStop, stepDown]
@[simp] theorem failStop_persist : (failStop s).2.persist = none := rfl
@[simp] theorem failStop_sendNow : (failStop s).2.sendNow = [] := rfl
@[simp] theorem failStop_apply : (failStop s).2.apply = [] := rfl
@[simp] theorem failStop_snapshotNeeded : (failStop s).2.snapshotNeeded = [] := rfl

/-- Completing a read touches the read and its result only. -/
theorem completeRead_eq (config : Config) :
    completeRead config s e = (s, e) ∨ ∃ b, s.volatile.read = some b ∧ s.volatile.role = .leader ∧
      b.term = s.durable.term ∧ quorum config ≤ b.acknowledgements.card ∧ b.index ≤ s.durable.applied ∧
      completeRead config s e = (setRead s none,
        { e with read := some { context := b.context, status := .ready, term := b.term, index := b.index } }) := by
  unfold completeRead
  cases hr : s.volatile.read with
  | none => exact Or.inl rfl
  | some b =>
    by_cases hc : s.volatile.role = .leader ∧ b.term = s.durable.term ∧
        quorum config ≤ b.acknowledgements.card ∧ b.index ≤ s.durable.applied
    · exact Or.inr ⟨b, rfl, hc.1, hc.2.1, hc.2.2.1, hc.2.2.2, by simp [hc]⟩
    · exact Or.inl (by simp only [if_neg hc])

variable (config : Config)

@[simp] theorem completeRead_persist : (completeRead config s e).2.persist = e.persist := by
  rcases completeRead_eq s e config with h | ⟨b, -, -, -, -, -, h⟩ <;> rw [h]

@[simp] theorem completeRead_sendNow : (completeRead config s e).2.sendNow = e.sendNow := by
  rcases completeRead_eq s e config with h | ⟨b, -, -, -, -, -, h⟩ <;> rw [h]

@[simp] theorem completeRead_apply : (completeRead config s e).2.apply = e.apply := by
  rcases completeRead_eq s e config with h | ⟨b, -, -, -, -, -, h⟩ <;> rw [h]

@[simp] theorem completeRead_snapshotNeeded : (completeRead config s e).2.snapshotNeeded = e.snapshotNeeded := by
  rcases completeRead_eq s e config with h | ⟨b, -, -, -, -, -, h⟩ <;> rw [h]

@[simp] theorem completeRead_durable : (completeRead config s e).1.durable = s.durable := by
  rcases completeRead_eq s e config with h | ⟨b, -, -, -, -, -, h⟩ <;> simp [h, setRead]

@[simp] theorem completeRead_pending : (completeRead config s e).1.pending = s.pending := by
  rcases completeRead_eq s e config with h | ⟨b, -, -, -, -, -, h⟩ <;> simp [h, setRead]

@[simp] theorem completeRead_halted : (completeRead config s e).1.halted = s.halted := by
  rcases completeRead_eq s e config with h | ⟨b, -, -, -, -, -, h⟩ <;> simp [h, setRead]

@[simp] theorem completeRead_role : (completeRead config s e).1.volatile.role = s.volatile.role := by
  rcases completeRead_eq s e config with h | ⟨b, -, -, -, -, -, h⟩ <;> simp [h, setRead]

@[simp] theorem completeRead_peers : (completeRead config s e).1.volatile.peers = s.volatile.peers := by
  rcases completeRead_eq s e config with h | ⟨b, -, -, -, -, -, h⟩ <;> simp [h, setRead]

end Stepping

/-! ### Sends -/

/-- The request that `sendAppend` builds: the entry at `next`, if the log has it. -/
def appendRequest (config : Config) (log : Durable) (next prevTerm : Nat) (id : RequestId) : AppendEntries where
  term := log.term
  leader := config.self
  prevIndex := next - 1
  prevTerm := prevTerm
  entries := if next ≤ log.lastIndex then (log.entryAt next).toList else []
  leaderCommit := log.commit
  requestId := id

def probeOf (m : AppendEntries) : Probe where
  requestId := m.requestId
  term := m.term
  prev := m.prevIndex
  count := m.entries.length
  request := some m

/-- The node after sending request `m` to `peer`. -/
def afterProbe (s : Node) (peer : String) (m : AppendEntries) : Node :=
  let sent := setProgress s peer fun p => { p with inFlight := some (probeOf m) }
  let sent := setRead sent (s.volatile.read.map fun r => { r with probes := r.probes.insert peer m.requestId })
  { sent with nextRequestId := s.nextRequestId + 1 }

/-- The node after asking its host for a snapshot for `peer`. -/
def afterSnapshot (s : Node) (peer : String) (r : SnapshotNeeded) : Node :=
  { setProgress s peer fun p => { p with snapshotInFlight := some r } with nextRequestId := s.nextRequestId + 1 }

/-- All that `sendAppend` may do for one peer. -/
inductive SendCase (config : Config) (log : Durable) (x : Sending) (peer : String) : Sending → Prop
  | nothing : SendCase config log x peer x
  | again (p : PeerProgress) (r : SnapshotNeeded) (found : x.state.volatile.peers.find? peer = some p)
      (inFlight : p.snapshotInFlight = some r) :
      SendCase config log x peer { x with snapshots := x.snapshots ++ [r] }
  | snapshot (p : PeerProgress) (found : x.state.volatile.peers.find? peer = some p) (idle : p.inFlight = none)
      (behind : p.next ≤ log.snapshotIndex) (r : SnapshotNeeded)
      (request : r = ⟨peer, log.snapshotIndex, log.snapshotTerm, x.state.nextRequestId⟩) :
      SendCase config log x peer { x with state := afterSnapshot x.state peer r, snapshots := x.snapshots ++ [r] }
  | probe (p : PeerProgress) (found : x.state.volatile.peers.find? peer = some p) (idle : p.inFlight = none)
      (quiet : p.snapshotInFlight = none) (prevTerm : Nat)
      (known : log.termAt (max 1 p.next - 1) = some prevTerm) (ahead : log.snapshotIndex < max 1 p.next)
      (m : AppendEntries) (request : m = appendRequest config log (max 1 p.next) prevTerm x.state.nextRequestId) :
      SendCase config log x peer { x with
        state := afterProbe x.state peer m, out := x.out ++ [⟨peer, .appendEntries m⟩] }

theorem sendAppend_cases (config : Config) (log : Durable) (x : Sending) (peer : String) :
    SendCase config log x peer (sendAppend config log x peer) := by
  unfold sendAppend
  dsimp only
  split
  · exact .nothing
  · rename_i p found
    split
    · exact .nothing
    · rename_i idle
      split
      · rename_i r inFlight
        exact .again p r found inFlight
      · rename_i quiet
        split
        · rename_i behind
          exact .snapshot p found (by simpa using idle) (by omega) _ rfl
        · rename_i ahead
          split
          · exact .nothing
          · split
            · exact .nothing
            · rename_i prevTerm known
              exact .probe p found (by simpa using idle) quiet prevTerm known (by omega) _ rfl

/-- A send changes peer records, the read's probes and the request counter only. -/
structure SendFrame (s t : Node) : Prop where
  durable : t.durable = s.durable
  pending : t.pending = s.pending
  halted : t.halted = s.halted
  token : t.nextToken = s.nextToken
  role : t.volatile.role = s.volatile.role
  votes : t.volatile.votes = s.volatile.votes
  keys : t.volatile.peers.keys = s.volatile.peers.keys
  nextRequestId : s.nextRequestId ≤ t.nextRequestId

namespace SendFrame

theorem refl (s : Node) : SendFrame s s := ⟨rfl, rfl, rfl, rfl, rfl, rfl, rfl, le_rfl⟩

theorem trans {s t u : Node} (h : SendFrame s t) (h' : SendFrame t u) : SendFrame s u where
  durable := h'.durable.trans h.durable
  pending := h'.pending.trans h.pending
  halted := h'.halted.trans h.halted
  token := h'.token.trans h.token
  role := h'.role.trans h.role
  votes := h'.votes.trans h.votes
  keys := h'.keys.trans h.keys
  nextRequestId := h.nextRequestId.trans h'.nextRequestId

theorem setProgress (s : Node) (peer : String) (f : PeerProgress → PeerProgress) :
    SendFrame s (setProgress s peer f) :=
  ⟨rfl, rfl, rfl, rfl, rfl, rfl, by simp [Raft.setProgress], le_rfl⟩

theorem setRead (s : Node) (read : Option ReadBarrier) : SendFrame s (setRead s read) :=
  ⟨rfl, rfl, rfl, rfl, rfl, rfl, rfl, le_rfl⟩

theorem of_case {config : Config} {log : Durable} {x y : Sending} {peer : String} (h : SendCase config log x peer y) :
    SendFrame x.state y.state := by
  cases h with
  | nothing => exact refl _
  | again p r found inFlight => exact refl _
  | snapshot p found idle behind r request =>
    exact ⟨rfl, rfl, rfl, rfl, rfl, rfl, by simp [afterSnapshot, Raft.setProgress], Nat.le_succ _⟩
  | probe p found idle quiet prevTerm known ahead m request =>
    exact ⟨rfl, rfl, rfl, rfl, rfl, rfl, by simp [afterProbe, Raft.setRead, Raft.setProgress], Nat.le_succ _⟩

theorem sendAppend (config : Config) (log : Durable) (x : Sending) (peer : String) :
    SendFrame x.state (sendAppend config log x peer).state := of_case (sendAppend_cases config log x peer)

theorem sendFirst (config : Config) (log : Durable) (x : Sending) (peer : String) :
    SendFrame x.state (sendFirst config log x peer).state := by
  have hset := setProgress x.state peer fun _ => { next := log.lastIndex + 1 }
  exact hset.trans (sendAppend config log { x with state := _ } peer)

theorem sendAgain (config : Config) (log : Durable) (x : Sending) (peer : String) :
    SendFrame x.state (sendAgain config log x peer).state := by
  unfold Raft.sendAgain
  split
  · exact sendAppend config log x peer
  · split
    · exact refl _
    · exact refl _

/-- A loop of such sends is one. -/
theorem foldl {f : Sending → String → Sending} (hf : ∀ x peer, SendFrame x.state (f x peer).state)
    (peers : List String) (x : Sending) : SendFrame x.state (peers.foldl f x).state := by
  induction peers generalizing x with
  | nil => exact refl _
  | cons peer peers ih => exact (hf x peer).trans (ih (f x peer))

end SendFrame

/-! ### Messages of the send loops

A loop adds requests only, so what holds of requests and of the old messages holds of all it sends. -/

namespace Sending

section Requests
variable {P : Outbound → Prop} (hP : ∀ peer m, P ⟨peer, .appendEntries m⟩) {config : Config} (log : Durable) {x : Sending}
include hP

theorem concat {out : List Outbound} (h : ∀ o ∈ out, P o) (peer : String) (m : AppendEntries) :
    ∀ o ∈ out ++ [⟨peer, .appendEntries m⟩], P o := by
  intro o ho
  rcases List.mem_append.mp ho with ho | ho
  · exact h o ho
  · rw [List.mem_singleton.mp ho]
    exact hP peer m

theorem sendAppend (peer : String) (h : ∀ o ∈ x.out, P o) : ∀ o ∈ (sendAppend config log x peer).out, P o := by
  have hc := sendAppend_cases config log x peer
  generalize Raft.sendAppend config log x peer = y at hc ⊢
  cases hc with
  | nothing => exact h
  | again p r found inFlight => exact h
  | snapshot p found idle behind r request => exact h
  | probe p found idle quiet prevTerm known ahead m request => exact concat hP h peer m

theorem sendFirst (peer : String) (h : ∀ o ∈ x.out, P o) : ∀ o ∈ (sendFirst config log x peer).out, P o :=
  sendAppend hP log (x := { x with state := _ }) peer h

theorem sendAgain (peer : String) (h : ∀ o ∈ x.out, P o) : ∀ o ∈ (sendAgain config log x peer).out, P o := by
  unfold Raft.sendAgain
  split
  · exact sendAppend hP log peer h
  · split
    · exact h
    · exact concat hP h peer _

end Requests

theorem foldl {P : Outbound → Prop} {f : Sending → String → Sending}
    (hf : ∀ x peer, (∀ o ∈ x.out, P o) → ∀ o ∈ (f x peer).out, P o) (peers : List String) (x : Sending)
    (h : ∀ o ∈ x.out, P o) : ∀ o ∈ (peers.foldl f x).out, P o := by
  induction peers generalizing x with
  | nil => exact h
  | cons peer peers ih => exact ih _ (hf x peer h)

end Sending

/-! ### Durable changes -/

/-- A handler changes nothing durable and releases nothing to apply. -/
structure Inert (s : Node) (r : Node × Effects) : Prop where
  durable : r.1.durable = s.durable
  apply : r.2.apply = []

section Inert
variable (config : Config) (s : Node)

theorem becomeLeader_frame (e : Effects) : (becomeLeader config s e).1.durable = s.durable ∧
    (becomeLeader config s e).1.pending = s.pending ∧ (becomeLeader config s e).2.apply = e.apply := by
  have h := SendFrame.foldl (SendFrame.sendFirst config s.durable) s.volatile.peers.keys
    ⟨{ s with volatile := { s.volatile with role := .leader, leadershipEpoch := s.volatile.leadershipEpoch + 1 } },
      e.sendNow, e.snapshotNeeded⟩
  exact ⟨h.durable, h.pending, rfl⟩

theorem Inert.ite {s : Node} {c : Prop} [Decidable c] {r r' : Node × Effects} (h : Inert s r) (h' : Inert s r') :
    Inert s (if c then r else r') := by
  split
  · exact h
  · exact h'

theorem Inert.completeRead {e : Effects} (h : e.apply = []) : Inert s (completeRead config s e) :=
  ⟨by simp, by simpa using h⟩

theorem Inert.adoptHigherTerm (T : Nat) : Inert s (adoptHigherTerm s T) := ⟨rfl, rfl⟩

theorem Inert.electionTimeout : Inert s (electionTimeout config s) := by
  unfold Raft.electionTimeout
  split <;> exact ⟨rfl, rfl⟩

theorem Inert.heartbeatTimeout : Inert s (heartbeatTimeout config s) := by
  unfold Raft.heartbeatTimeout
  split
  · exact ⟨(SendFrame.foldl (SendFrame.sendAgain config s.durable) _ ⟨s, [], []⟩).durable, rfl⟩
  · exact ⟨rfl, rfl⟩

theorem Inert.clientPropose (command : String) : Inert s (clientPropose config s command) := by
  unfold Raft.clientPropose
  split
  · exact ⟨rfl, rfl⟩
  · split
    · exact ⟨(SendFrame.foldl (SendFrame.sendAppend config _) _ ⟨s, [], []⟩).durable, rfl⟩
    · exact ⟨rfl, rfl⟩

theorem Inert.recvRequestVote (m : RequestVote) : Inert s (recvRequestVote config s m) := by
  unfold Raft.recvRequestVote
  refine ite ⟨rfl, rfl⟩ ?_
  dsimp only
  refine ite ⟨rfl, rfl⟩ ?_
  by_cases hterm : s.durable.term < m.term
  · rw [if_pos hterm]
    exact ite ⟨rfl, rfl⟩ ⟨rfl, rfl⟩
  · rw [if_neg hterm]
    exact ite ⟨rfl, rfl⟩ ⟨rfl, rfl⟩

theorem Inert.recvVoteReply (m : VoteReply) : Inert s (recvVoteReply config s m) := by
  unfold Raft.recvVoteReply
  dsimp only
  split
  · exact ⟨rfl, rfl⟩
  · split
    · exact adoptHigherTerm s m.term
    · split
      · split
        · have h := becomeLeader_frame config
            { s with volatile := { s.volatile with votes := insert m.voter s.volatile.votes } } {}
          exact ⟨h.1, h.2.2⟩
        · exact ⟨rfl, rfl⟩
      · exact ⟨rfl, rfl⟩

theorem Inert.recvAppend (m : AppendEntries) : Inert s (recvAppend config s m) := by
  unfold Raft.recvAppend
  refine ite ⟨rfl, rfl⟩ (ite ⟨rfl, rfl⟩ (ite ⟨rfl, rfl⟩ ?_))
  dsimp only
  refine ite ⟨rfl, rfl⟩ (ite (ite ⟨rfl, rfl⟩ ⟨rfl, rfl⟩) ?_)
  exact ite ⟨rfl, rfl⟩ ⟨rfl, rfl⟩

theorem Inert.recvSnapshot (m : SnapshotRequest) : Inert s (recvSnapshot config s m) := by
  unfold Raft.recvSnapshot
  refine ite ⟨rfl, rfl⟩ (ite ⟨rfl, rfl⟩ ?_)
  dsimp only
  exact ite ⟨rfl, rfl⟩ (ite (ite ⟨rfl, rfl⟩ ⟨rfl, rfl⟩) (ite ⟨rfl, rfl⟩ ⟨rfl, rfl⟩))

theorem Inert.recvSnapshotReply (m : SnapshotReply) : Inert s (recvSnapshotReply s m) := by
  unfold Raft.recvSnapshotReply
  split
  · exact ⟨rfl, rfl⟩
  · split
    · exact adoptHigherTerm s m.term
    · split <;> exact ⟨rfl, rfl⟩

theorem Inert.recvAppendReply (m : AppendReply) : Inert s (recvAppendReply config s m) := by
  unfold Raft.recvAppendReply
  split
  · exact ⟨rfl, rfl⟩
  · split
    · have h := completeRead config (Raft.adoptHigherTerm s m.term).1 (adoptHigherTerm s m.term).apply
      exact ⟨h.durable, h.apply⟩
    · split
      · split
        · exact ⟨rfl, rfl⟩
        · split
          · exact ⟨rfl, rfl⟩
          · refine ⟨?_, by simp⟩
            dsimp only
            rw [completeRead_durable]
            split <;> rfl
      · exact completeRead config s rfl

theorem Inert.advanceCommit : Inert s (advanceCommit config s) := by
  unfold Raft.advanceCommit
  split
  · dsimp only
    split <;> exact ⟨rfl, rfl⟩
  · exact ⟨rfl, rfl⟩

theorem Inert.applyCommitted : Inert s (applyCommitted s) := by
  unfold Raft.applyCommitted
  split <;> exact ⟨rfl, rfl⟩

theorem Inert.compactCommitted : Inert s (compactCommitted s) := by
  unfold Raft.compactCommitted
  dsimp only
  split
  · exact ⟨rfl, rfl⟩
  · split <;> exact ⟨rfl, rfl⟩

theorem Inert.handle (input : Input) : Inert s (handle config s input) := by
  cases input with
  | electionTimeout => exact electionTimeout config s
  | heartbeatTimeout => exact heartbeatTimeout config s
  | clientPropose command => exact clientPropose config s command
  | recvRequestVote m => exact recvRequestVote config s m
  | recvVoteReply m => exact recvVoteReply config s m
  | recvAppend m => exact recvAppend config s m
  | recvAppendReply m => exact recvAppendReply config s m
  | advanceCommit => exact advanceCommit config s
  | applyCommitted => exact applyCommitted s
  | compactCommitted => exact compactCommitted s
  | recvSnapshot m => exact recvSnapshot config s m
  | recvSnapshotReply m => exact recvSnapshotReply s m
  | beginRead | cancelRead | persistCompleted | persistFailed | restart => exact ⟨rfl, rfl⟩

theorem Inert.beginRead (context : RequestId) : Inert s (beginRead config s context) := by
  unfold Raft.beginRead
  split
  · exact ⟨rfl, rfl⟩
  · split
    · exact ⟨rfl, rfl⟩
    · split
      · exact ⟨rfl, rfl⟩
      · split
        · exact ⟨rfl, rfl⟩
        · refine ⟨?_, by simp⟩
          simp only [completeRead_durable]
          exact (SendFrame.foldl (SendFrame.sendAppend config s.durable) _ ⟨setRead s _, [], []⟩).durable

/-- The entries released by a step are those of a write that has become durable. -/
theorem step_inert (input : Input) : Inert s (step config s input) ∨
    ∃ token p, input = .persistCompleted token ∧ s.pending = some p ∧
      (step config s input).1.durable = p.target ∧ (step config s input).2.apply = p.applyAfter := by
  unfold step
  split
  · exact Or.inl ⟨rfl, rfl⟩
  · cases input with
    | persistCompleted token =>
      dsimp only
      cases hp : s.pending with
      | none =>
        unfold persistCompleted
        simp only [hp]
        exact Or.inl ⟨rfl, rfl⟩
      | some p =>
        by_cases hc : p.token = token ∧ s.halted = false
        · refine Or.inr ⟨token, p, rfl, rfl, ?_⟩
          unfold persistCompleted
          rw [hp]
          dsimp only
          rw [if_pos hc]
          split
          · split
            · obtain ⟨h1, -, h2⟩ := becomeLeader_frame config { (Raft.completeRead config
                { s with pending := none, durable := p.target }
                { sendNow := p.after, apply := p.applyAfter, snapshotNeeded := p.snapshotAfter }).1 with
                volatile := _ } (Raft.completeRead config { s with pending := none, durable := p.target }
                { sendNow := p.after, apply := p.applyAfter, snapshotNeeded := p.snapshotAfter }).2
              exact ⟨h1.trans (by simp), h2.trans (by simp)⟩
            · simp
          · simp
        · unfold persistCompleted
          simp only [hp, if_neg hc]
          exact Or.inl ⟨rfl, rfl⟩
    | persistFailed token =>
      dsimp only
      unfold persistFailed
      split
      · exact Or.inl ⟨rfl, rfl⟩
      · split <;> exact Or.inl ⟨rfl, rfl⟩
    | restart => exact Or.inl ⟨rfl, rfl⟩
    | cancelRead context =>
      dsimp only
      unfold cancelRead
      split
      · split <;> exact Or.inl ⟨rfl, rfl⟩
      · exact Or.inl ⟨rfl, rfl⟩
    | beginRead context => exact Or.inl (Inert.beginRead config s context)
    | _ =>
      dsimp only
      split
      · exact Or.inl ⟨rfl, rfl⟩
      · exact Or.inl (Inert.handle config s _)

end Inert

/-- A restart keeps the durable state, and leaves nothing waiting, no role and no read. -/
theorem step_restart (config : Config) (s : Node) : (step config s .restart).1.durable = s.durable ∧
    (step config s .restart).1.pending = none ∧ (step config s .restart).1.volatile.role = .follower ∧
    (step config s .restart).1.volatile.read = none := by
  unfold step
  split
  · exact ⟨rfl, rfl, rfl, rfl⟩
  · exact ⟨rfl, rfl, rfl, rfl⟩

end Choreolog.Raft
