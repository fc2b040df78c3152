import Choreolog.Theorems.Frames
import Choreolog.Theorems.Durability

/-! # Outcomes of a step

What has to be shown of one step of one member: its ledger updates, that its new state is in order, and
that whatever it releases is true of the ledger. -/

namespace Choreolog.Raft
open Lib Lib.Ledger

/-- The result of a step of member `n`, with its outstanding write `w`, carries the simulation from `a`
    to `b`. -/
structure Carries (M : Membership) (a b : Spec) (net : List Outbound) (n : String) (w : Option PersistRequest)
    (r : Node × Effects) : Prop where
  moves : Moves M.quorums n a b
  node : NodeSim M b (net ++ r.2.sendNow) n r.1 (Cluster.writeAfter w r.1 r.2)
  sent : ∀ o ∈ r.2.sendNow, MsgOk b (net ++ r.2.sendNow) o
  own : ∀ o ∈ r.2.sendNow, ∀ x, o.message = .appendEntries x → x.leader = n
  offers : ∀ s ∈ r.2.snapshotNeeded, OfferOk b (Cluster.offerOf n r.1.durable.term s)

def Outcome (M : Membership) (a : Spec) (net : List Outbound) (n : String) (w : Option PersistRequest)
    (r : Node × Effects) : Prop := ∃ b, Carries M a b net n w r

variable {M : Membership} {a b : Spec} {net : List Outbound} {n : String} {s : Node} {w : Option PersistRequest}
  {e : Effects}

theorem Outcome.of_moves {r : Node × Effects} (hi : Inv M.quorums a) (hm : Moves M.quorums n a b)
    (h : Outcome M b net n w r) : Outcome M a net n w r := by
  obtain ⟨d, hd⟩ := h
  exact ⟨d, hm.trans hi hd.moves, hd.node, hd.sent, hd.own, hd.offers⟩

/-- A running node with nothing pending waits for no write. -/
theorem writeAfter_idle (running : s.halted = false) (pending : s.pending = none) (he : e.persist = none) :
    Cluster.writeAfter w s e = none := by
  simp [Cluster.writeAfter, he, running, pending]

/-- A member in order is only waiting for a write that is pending or failed. -/
theorem NodeSim.writeAfter_eq (hs : NodeSim M a net n s w) (he : e.persist = none) : Cluster.writeAfter w s e = w := by
  unfold Cluster.writeAfter
  rw [he]
  simp only
  split
  · rfl
  · rename_i h
    obtain ⟨running, idle⟩ := idle_of_not h
    cases hw : w with
    | none => rfl
    | some r =>
      have := (hs.failed idle r hw).1
      rw [running] at this
      cases this

/-- An idle follower holds its durable state and nothing else. -/
theorem NodeSim.follower (holds : Holds a n s.durable) (peers : ∀ p, p ∈ s.volatile.peers.keys ↔ p ∈ M.peers n)
    (role : s.volatile.role = .follower) (pending : s.pending = none)
    (failed : ∀ r, w = some r → s.halted = true ∧ ∃ L, WriteOk M.quorums a n s.durable r.target L r.kind) :
    NodeSim M a net n s w where
  holds := holds
  peers := peers
  pending p hp := by
    rw [pending] at hp
    cases hp
  failed _ := failed
  halted _ := ⟨role, pending⟩
  candidate hr := absurd hr (by simp [role])
  leader hr := absurd hr (by simp [role])
  leaderLog hr := absurd hr (by simp [role])

/-- A follower with a staged write. -/
theorem NodeSim.staged (holds : Holds a n s.durable) (peers : ∀ p, p ∈ s.volatile.peers.keys ↔ p ∈ M.peers n)
    (role : s.volatile.role = .follower) (running : s.halted = false) {t : Durable} {L : List Entry} {kind : PersistKind}
    {after : List Outbound} {token : PersistToken} (write : WriteOk M.quorums a n s.durable t L kind)
    (queued : ∀ o ∈ after, QueuedOk a net n t L o) (requests : ∀ o ∈ after, ∀ m, o.message ≠ .requestVote m)
    (pending : s.pending = some { token, target := t, after, applyAfter := [] }) :
    NodeSim M a net n s (some { token, target := t, kind }) where
  holds := holds
  peers := peers
  pending p hp := by
    obtain rfl := Option.some.inj (pending.symm.trans hp)
    refine ⟨_, L, rfl, rfl, rfl, write, ?_⟩
    exact {
      after := queued
      requests := fun o ho => by simpa using requests o ho
      selfVote := fun h => by cases h
      active := fun _ h => absurd role h
      candidate := fun _ hr => absurd hr (by simp [role])
      snapshots := fun r hr => by cases hr
      apply := Or.inl rfl }
  failed h := by
    rw [pending] at h
    cases h
  halted h := by
    rw [running] at h
    cases h
  candidate hr := absurd hr (by simp [role])
  leader hr := absurd hr (by simp [role])
  leaderLog hr := absurd hr (by simp [role])

/-- The outstanding read is no part of the relation. -/
theorem NodeSim.setRead (read : Option ReadBarrier) (hs : NodeSim M a net n s w) : NodeSim M a net n (setRead s read) w where
  holds := hs.holds
  peers := hs.peers
  pending p hp := by
    obtain ⟨r, L, h1, h2, h3, h4, h5⟩ := hs.pending p hp
    exact ⟨r, L, h1, h2, h3, h4,
      ⟨h5.after, h5.requests, h5.selfVote, h5.active, h5.candidate, h5.snapshots, h5.apply⟩⟩
  failed := hs.failed
  halted := hs.halted
  candidate hr hp := by
    have h := hs.candidate hr hp
    exact ⟨h.pos, h.own, h.votes, h.unled⟩
  leader hr := by
    have h := hs.leader hr
    exact ⟨h.led, h.progress, h.fresh, h.unique⟩
  leaderLog := hs.leaderLog

theorem NodeSim.completeRead (config : Config) (hs : NodeSim M a net n s w) :
    NodeSim M a net n (completeRead config s e).1 w := by
  rcases completeRead_eq s e config with h | ⟨b, -, -, -, -, -, h⟩
  · rw [h]
    exact hs
  · rw [h]
    exact hs.setRead none

/-- A write that neither moves the term nor changes the full log can be staged in any role. -/
theorem NodeSim.maintain (hs : NodeSim M a net n s w) (running : s.halted = false) (idle : s.pending = none)
    {t : Durable} {kind : PersistKind} {applyAfter : List Entry}
    (write : WriteOk M.quorums a n s.durable t (a.log n) kind) (term : t.term = s.durable.term)
    (vote : t.votedFor = s.durable.votedFor)
    (apply : applyAfter = [] ∨ ∃ e, applyAfter = [e] ∧ s.durable.entryAt t.applied = some e ∧
      t.applied ≤ s.durable.commit) (e : Effects) :
    NodeSim M a net n (beginWrite s e t [] applyAfter false [] kind).1
      (some { token := s.nextToken, target := t, kind }) where
  holds := hs.holds
  peers := hs.peers
  pending p hp := by
    obtain rfl := Option.some.inj hp
    refine ⟨_, a.log n, rfl, rfl, rfl, write, ?_⟩
    exact {
      after := nofun
      requests := nofun
      selfVote := fun h => by cases h
      active := fun _ _ => ⟨term, vote⟩
      candidate := fun _ _ => rfl
      snapshots := fun r hr => by cases hr
      apply := apply }
  failed h := by cases h
  halted h := by
    have : s.halted = true := h
    rw [running] at this
    cases this
  candidate hr _ := by
    have h := hs.candidate hr fun p hp => by
      rw [idle] at hp
      cases hp
    exact ⟨h.pos, h.own, h.votes, h.unled⟩
  leader hr := by
    have h := hs.leader hr
    rw [show queue s = [] by simp [queue, idle]] at h
    exact ⟨h.led, h.progress, h.fresh, h.unique⟩
  leaderLog := hs.leaderLog

/-- A result without messages, writes or offers. -/
theorem NodeSim.outcome (hs : NodeSim M a net n s w) (he : e.persist = none) (hsend : e.sendNow = [])
    (hoffer : e.snapshotNeeded = []) : Outcome M a net n w (s, e) := by
  refine ⟨a, Moves.refl _ n a, ?_, ?_, ?_, ?_⟩
  · simp only [hsend, List.append_nil, hs.writeAfter_eq he]
    exact hs
  · simp [hsend]
  · simp [hsend]
  · simp [hoffer]

end Choreolog.Raft
