import Choreolog.Theorems.SimReply

/-! # Clusters refine the ledger

Completed and failed writes, crashes, and with the handlers every step of a cluster: each is a sequence
of ledger updates of the node that takes it, after which the relation holds again. -/

namespace Choreolog.Raft
open Lib Lib.Ledger Function

variable {M : Membership} {a b : Spec} {net : List Outbound} {n : String} {s : Node} {w : Option PersistRequest}

/-! ### Completed writes -/

/-- The state of a member whose write has become durable, and the messages it then releases. -/
structure Completed (M : Membership) (a b : Spec) (net : List Outbound) (n : String) (s : Node) (p : PendingWrite)
    (L : List Entry) : Prop where
  moves : Moves M.quorums n a b
  holds : Holds b n p.target
  log : b.log n = L
  leader : b.leader = a.leader
  book : a.leader p.target.term = some n → p.target.term = s.durable.term → a.log n = a.book p.target.term →
    b.book p.target.term = L
  own : p.selfVote = true → Voted b n p.target.term n L
  sent : ∀ o ∈ p.after, MsgOk b (net ++ p.after) o

theorem QueuedOk.performed {q : Quorums String} {d t : Durable} {L : List Entry} (hi : Inv q a) (hd : Holds a n d)
    (hb : Performed q n a b d t L) {o : Outbound} (ho : QueuedOk a net n t L o) : QueuedOk b net n t L o := by
  have hg := hb.moves.grows hi
  unfold QueuedOk at ho ⊢
  cases hm : o.message with
  | requestVote m =>
    simp only [hm] at ho ⊢
    obtain ⟨h1, h2, h3, -, h4⟩ := ho
    exact ⟨h1, h2, h3, hb.log.symm, h4⟩
  | voteReply m => simpa only [hm] using ho
  | appendEntries m =>
    simp only [hm] at ho ⊢
    obtain ⟨h1, h2, h3, h4⟩ := ho
    refine ⟨hb.holds.term, hg.leader h2, ?_, h4.grows hi hg⟩
    rw [hb.log, hb.book h2 (by rw [← h1, hd.term]) h3]
  | appendReply m =>
    simp only [hm, hb.leader] at ho ⊢
    intro hs
    obtain ⟨h1, h2, h3, h4, h5, h6⟩ := ho hs
    exact ⟨h1, h2, h3, h4.trans (hg.book _).length_le, by rw [hg.take_book h4]; exact h5, h6⟩
  | snapshotReply m =>
    simp only [hm, hb.leader] at ho ⊢
    intro hs
    obtain ⟨h1, h2, h3, h4, h5⟩ := ho hs
    exact ⟨h1, h2, h3, h4.trans (hg.book _).length_le, by rw [hg.take_book h4]; exact h5⟩

theorem Queued.complete {kind : PersistKind} {p : PendingWrite} {L : List Entry} (hi : Inv M.quorums a)
    (hs : Holds a n s.durable) (hw : WriteOk M.quorums a n s.durable p.target L kind) (hq : Queued a net n s p L) :
    ∃ b, Completed M a b net n s p L := by
  obtain ⟨c, hc⟩ := hw.perform hi hs
  have hown : p.selfVote = true → Voted c n p.target.term n L := by
    intro hself
    obtain ⟨-, -, hlt, hvote, hL⟩ := hq.selfVote hself
    rw [hL]
    exact hc.cast n ⟨hvote, Or.inl hlt, Or.inl rfl⟩
  have hic := hc.moves.inv hi
  obtain ⟨b, hb, hsent⟩ := QueuedOk.release_all hic hc.holds hc.log
    (fun o ho m hm => hown ((hq.requests o ho).mpr ⟨m, hm⟩)) fun o ho => (hq.after o ho).performed hi hs hc
  refine ⟨b, hc.moves.trans hi hb.moves, hb.holds hc.holds, ?_, ?_, ?_, ?_, ?_⟩
  · rw [hb.log, hc.log]
  · rw [hb.leader, hc.leader]
  · rw [hb.book]
    exact hc.book
  · exact fun hself => (hb.moves.grows hic).voted (hown hself)
  · exact fun o ho => (hsent o ho).grows (hb.moves.inv hic) (Grows.refl b) (List.subset_append_left _ _)

/-- A completed write of a member that keeps its role. -/
theorem Completed.node {p : PendingWrite} {L : List Entry} (hi : Inv M.quorums a) (hs : NodeSim M a net n s w)
    (hp : s.pending = some p) (hq : Queued a net n s p L) (hself : p.selfVote = false) (running : s.halted = false)
    (hc : Completed M a b net n s p L) :
    NodeSim M b (net ++ p.after) n { s with pending := none, durable := p.target } none := by
  have hg := hc.moves.grows hi
  cases hr : s.volatile.role with
  | follower => exact NodeSim.follower hc.holds hs.peers hr rfl nofun
  | candidate =>
    have hst := hs.candidate hr fun p' hp' => by
      rw [← Option.some.inj (hp.symm.trans hp')]
      exact hself
    obtain ⟨hterm, -⟩ := hq.active hself (by simp [hr])
    refine NodeSim.standing hc.holds hs.peers hr rfl running ?_
    refine ⟨?_, ?_, fun v hv => ⟨(hst.votes v hv).1, ?_⟩, ?_⟩
    · simp only [hterm]
      exact hst.pos
    · simp only [hterm]
      rw [hc.log, hq.candidate hself hr]
      exact hg.voted hst.own
    · simp only [hterm]
      obtain ⟨L', hL'⟩ := (hst.votes v hv).2
      exact ⟨L', hg.voted hL'⟩
    · simp only [hterm]
      rw [hc.leader]
      exact hst.unled
  | leader =>
    have hl := hs.leader hr
    obtain ⟨hterm, -⟩ := hq.active hself (by simp [hr])
    have hl' := hl.grows hi hg (List.Subset.refl _) fun o ho => Or.inl ho
    rw [show queue s = p.after by simp [queue, hp]] at hl'
    refine NodeSim.leading hc.holds hs.peers hr rfl running ?_ ?_
    · exact ⟨hterm ▸ hl'.led, hterm ▸ hl'.progress, hterm ▸ hl'.fresh, hterm ▸ hl'.unique⟩
    · rw [hc.log]
      exact (hc.book (hterm ▸ hl.led) hterm (hterm ▸ hs.leaderLog hr)).symm

theorem Completed.own_requests {p : PendingWrite} {L : List Entry} (hq : Queued a net n s p L) (o : Outbound)
    (ho : o ∈ p.after) (x : AppendEntries) (hx : o.message = .appendEntries x) : x.leader = n := by
  have := hq.after o ho
  unfold QueuedOk at this
  rw [hx] at this
  exact this.2.2.2.leader

/-- The candidate's own vote is durable. -/
theorem Completed.standing {p : PendingWrite} {L : List Entry} (hn : n ∈ M.members) (hi : Inv M.quorums a)
    (hs : Holds a n s.durable) (hq : Queued a net n s p L) (hself : p.selfVote = true)
    (hc : Completed M a b net n s p L) :
    Standing M b n { s with
      pending := none, durable := p.target, volatile := { s.volatile with votes := insert n s.volatile.votes } } := by
  obtain ⟨-, hvotes, hlt, -, -⟩ := hq.selfVote hself
  refine ⟨Nat.zero_lt_of_lt hlt, ?_, fun v hv => ?_, fun hl => ?_⟩
  · rw [hc.log]
    exact hc.own hself
  · simp only [hvotes, insert_empty_eq, Finset.mem_singleton] at hv
    subst hv
    exact ⟨hn, L, hc.own hself⟩
  · -- A leader has voted for itself in its term, but this node was below it.
    simp only [hc.leader] at hl
    obtain ⟨v, hv, h1, h2, -, -⟩ := (hi.elected _ _ hl).own
    have := hi.ballot_le v hv
    rw [h1, h2, hs.term] at this
    omega

theorem persistCompleted_outcome (hn : n ∈ M.members) (hi : Inv M.quorums a) (hs : NodeSim M a net n s w)
    (hnet : ∀ o ∈ net, MsgOk a net o) {p : PendingWrite} (hp : s.pending = some p) (running : s.halted = false)
    (hvalid : p.target.valid = true) {token : PersistToken} (htoken : p.token = token) :
    Outcome M a net n w (persistCompleted (M.config n) s token) := by
  obtain ⟨r, L, hw, -, htarget, hwrite, hq⟩ := hs.pending p hp
  rw [htarget] at hwrite
  obtain ⟨b, hc⟩ := hq.complete hi hs.holds hwrite
  have hib := hc.moves.inv hi
  unfold persistCompleted
  rw [hp]
  dsimp only
  rw [if_pos ⟨htoken, running⟩]
  cases hself : p.selfVote with
  | false =>
    simp only [Bool.false_eq_true, if_false]
    refine Outcome.completeRead ⟨b, hc.moves, ?_, hc.sent, Completed.own_requests hq, fun r hr => ?_⟩
    · rw [writeAfter_idle (by exact running) rfl rfl]
      exact hc.node hi hs hp hq hself running
    · obtain ⟨hrole, hoffer⟩ := hq.snapshots r hr
      obtain ⟨hterm, -⟩ := hq.active hself (by simp [hrole])
      simp only [hterm]
      exact hoffer.grows hi (hc.moves.grows hi)
  | true =>
    obtain ⟨hrole, -⟩ := hq.selfVote hself
    have hst := hc.standing hn hi hs.holds hq hself
    have hread : ∀ e, completeRead (M.config n) { s with pending := none, durable := p.target } e =
        ({ s with pending := none, durable := p.target }, e) := by
      intro e
      rcases completeRead_eq { s with pending := none, durable := p.target } e (M.config n) with h | ⟨-, -, h, -⟩
      · exact h
      · simp [hrole] at h
    have hsnap : p.snapshotAfter = [] := by
      refine List.eq_nil_iff_forall_not_mem.mpr fun r hr => ?_
      have := (hq.snapshots r hr).1
      rw [hrole] at this
      cases this
    simp only [if_true, hread]
    split
    · rename_i hcard
      refine Outcome.of_moves hi hc.moves (Standing.becomeLeader hn hib hst hc.holds hs.peers rfl running ?_ hcard ?_ ?_
        rfl hsnap)
      · have := Durable.valid_iff hvalid
        exact this.2.2.2.1.trans this.2.2.2.2.1
      · intro o ho
        rcases List.mem_append.mp ho with ho | ho
        · exact (hnet o ho).grows hi (hc.moves.grows hi) (List.subset_append_left _ _)
        · exact hc.sent o ho
      · intro o ho m hm
        obtain ⟨m', hm'⟩ := (hq.requests o ho).mp hself
        rw [hm'] at hm
        cases hm
    · refine ⟨b, hc.moves, ?_, hc.sent, Completed.own_requests hq, ?_⟩
      · rw [writeAfter_idle (by exact running) rfl rfl]
        exact NodeSim.standing hc.holds hs.peers hrole rfl running hst
      · simp [hsnap]

/-! ### Failures and crashes -/

/-- A stopped member holds its durable state; what it was writing may still be found on its disk. -/
theorem failStop_outcome (hs : NodeSim M a net n s w) : Outcome M a net n w (failStop s) := by
  refine ⟨a, Moves.refl _ n a, ?_, by simp, by simp, by simp⟩
  simp only [failStop_sendNow, List.append_nil]
  rw [show Cluster.writeAfter w (failStop s).1 (failStop s).2 = w by simp [Cluster.writeAfter]]
  refine NodeSim.follower hs.holds (by simpa using hs.peers) rfl rfl fun r hr => ⟨rfl, ?_⟩
  cases hp : s.pending with
  | none => exact (hs.failed hp r hr).2
  | some p =>
    obtain ⟨r', L, hw, -, -, hwrite, -⟩ := hs.pending p hp
    obtain rfl := Option.some.inj (hw.symm.trans hr)
    exact ⟨L, hwrite⟩

theorem mem_initial_peers {p : String} : p ∈ (initial (M.config n)).volatile.peers.keys ↔ p ∈ M.peers n := by
  have key : ∀ (peers : List String) (m : OrdMap String PeerProgress),
      p ∈ (peers.foldl (fun m peer => m.tryEmplace peer {}) m).keys ↔ p ∈ peers ∨ p ∈ m.keys := by
    intro peers
    induction peers with
    | nil => simp
    | cons peer peers ih =>
      intro m
      rw [List.foldl_cons, ih, OrdMap.mem_keys_tryEmplace, List.mem_cons]
      constructor
      · rintro (h | h | h)
        · exact Or.inl (Or.inr h)
        · exact Or.inl (Or.inl h)
        · exact Or.inr h
      · rintro ((h | h) | h)
        · exact Or.inr (Or.inl h)
        · exact Or.inl h
        · exact Or.inr (Or.inr h)
  refine (key (M.peers n) .empty).trans ?_
  simp [OrdMap.keys, OrdMap.empty]

/-- Whatever a crash leaves on disk, the restarted member is an idle follower. -/
theorem crash_node {d : Durable} (hold : Holds a n d) (hpeers : ∀ p, p ∈ s.volatile.peers.keys ↔ p ∈ M.peers n) :
    NodeSim M a net n (step (M.config n) { s with durable := d } .restart).1 none := by
  unfold step
  split
  · exact NodeSim.follower hold (by simpa using hpeers) rfl rfl nofun
  · exact NodeSim.follower hold (fun p => mem_initial_peers) rfl rfl nofun

/-! ### Every step -/

theorem step_outcome {c : Cluster} (hsim : Sim M c a) (hn : n ∈ M.members) {input : Input} (hin : c.Allowed n input) :
    Outcome M a c.network n (c.writes n) (step (M.config n) (c.nodes n) input) := by
  have hs := hsim.nodes n hn
  unfold step
  split
  · exact failStop_outcome hs
  · rename_i hvalid
    simp only [Bool.or_eq_true, Bool.not_eq_eq_eq_not, Bool.not_true, not_or, Bool.not_eq_false] at hvalid
    have turn : ¬((c.nodes n).halted = true ∨ (c.nodes n).pending.isSome = true) →
        Turn M a c.network n (c.nodes n) (c.writes n) := by
      intro h
      obtain ⟨running, idle⟩ := idle_of_not h
      exact ⟨hn, hsim.inv, hs, hsim.network, running, idle, hvalid.1⟩
    cases hin with
    | persistCompleted token =>
      dsimp only
      cases hp : (c.nodes n).pending with
      | none =>
        unfold persistCompleted
        rw [hp]
        exact hs.outcome rfl rfl rfl
      | some p =>
        by_cases hc : p.token = token ∧ (c.nodes n).halted = false
        · have hv : p.target.valid = true := by simpa [hp] using hvalid.2
          exact persistCompleted_outcome hn hsim.inv hs hsim.network hp hc.2 hv hc.1
        · unfold persistCompleted
          simp only [hp, if_neg hc]
          exact hs.outcome rfl rfl rfl
    | persistFailed token =>
      dsimp only
      unfold persistFailed
      split
      · exact hs.outcome rfl rfl rfl
      · split
        · exact failStop_outcome hs
        · exact hs.outcome rfl rfl rfl
    | cancelRead context =>
      dsimp only
      unfold cancelRead
      split
      · split
        · exact (hs.setRead none).outcome rfl rfl rfl
        · exact hs.outcome rfl rfl rfl
      · exact hs.outcome rfl rfl rfl
    | beginRead context =>
      dsimp only
      by_cases h : (c.nodes n).halted = true ∨ (c.nodes n).pending.isSome = true
      · unfold beginRead
        rw [if_pos h]
        exact hs.outcome rfl rfl rfl
      · exact (turn h).beginRead context
    | electionTimeout =>
      dsimp only
      split
      · exact hs.outcome rfl rfl rfl
      · rename_i h
        exact (turn h).electionTimeout
    | heartbeatTimeout =>
      dsimp only
      split
      · exact hs.outcome rfl rfl rfl
      · rename_i h
        exact (turn h).heartbeatTimeout
    | clientPropose command =>
      dsimp only
      split
      · exact hs.outcome rfl rfl rfl
      · rename_i h
        exact (turn h).clientPropose command
    | advanceCommit =>
      dsimp only
      split
      · exact hs.outcome rfl rfl rfl
      · rename_i h
        exact (turn h).advanceCommit
    | applyCommitted =>
      dsimp only
      split
      · exact hs.outcome rfl rfl rfl
      · rename_i h
        exact (turn h).applyCommitted
    | compactCommitted =>
      dsimp only
      split
      · exact hs.outcome rfl rfl rfl
      · rename_i h
        exact (turn h).compactCommitted
    | recvRequestVote m sent =>
      dsimp only
      split
      · exact hs.outcome rfl rfl rfl
      · rename_i h
        exact (turn h).recvRequestVote sent
    | recvVoteReply m sent =>
      dsimp only
      split
      · exact hs.outcome rfl rfl rfl
      · rename_i h
        exact (turn h).recvVoteReply sent
    | recvAppend m sent =>
      dsimp only
      split
      · exact hs.outcome rfl rfl rfl
      · rename_i h
        exact (turn h).recvAppend sent
    | recvAppendReply m sent =>
      dsimp only
      split
      · exact hs.outcome rfl rfl rfl
      · rename_i h
        exact (turn h).recvAppendReply sent
    | recvSnapshotReply m sent =>
      dsimp only
      split
      · exact hs.outcome rfl rfl rfl
      · rename_i h
        exact (turn h).recvSnapshotReply sent
    | recvSnapshot o id ready offered dest =>
      dsimp only
      split
      · exact hs.outcome rfl rfl rfl
      · rename_i h
        have ho := hsim.offers o offered
        refine (turn h).recvSnapshot ?_ ho.boundary ho.settled
        simp [ho.led]

/-- One step of a cluster is a sequence of ledger updates of one member. -/
theorem Sim.step {c c' : Cluster} (hsim : Sim M c a) (st : Cluster.Step M c c') :
    ∃ n b, Moves M.quorums n a b ∧ Sim M c' b := by
  cases st with
  | input n hn input allowed =>
    obtain ⟨b, hb⟩ := step_outcome hsim hn allowed
    have hib := hb.moves.inv hsim.inv
    have hg := hb.moves.grows hsim.inv
    refine ⟨n, b, hb.moves, hib, fun m hm => ?_, fun o ho => ?_, fun o ho => ?_⟩
    · unfold Cluster.fire
      dsimp only
      by_cases he : m = n
      · subst he
        simp only [update_self]
        exact hb.node
      · simp only [update_of_ne he]
        refine (hsim.nodes m hm).frame _ hsim.inv hib hg (hb.moves.frame m he) fun o ho x hx heq => he ?_
        rw [← heq, hb.own o ho x hx]
    · rcases List.mem_append.mp ho with ho | ho
      · exact (hsim.network o ho).grows hsim.inv hg (List.subset_append_left _ _)
      · exact hb.sent o ho
    · rcases List.mem_append.mp ho with ho | ho
      · exact (hsim.offers o ho).grows hsim.inv hg
      · obtain ⟨r, hr, rfl⟩ := List.mem_map.mp ho
        exact hb.offers r hr
  | crash n hn recovered inPlace found =>
    have hs := hsim.nodes n hn
    have hw : ∀ r, c.writes n = some r → ∃ L, WriteOk M.quorums a n (c.nodes n).durable r.target L r.kind := by
      intro r hr
      cases hp : (c.nodes n).pending with
      | none => exact (hs.failed hp r hr).2
      | some p =>
        obtain ⟨r', L, hr', -, -, hwrite, -⟩ := hs.pending p hp
        obtain rfl := Option.some.inj (hr'.symm.trans hr)
        exact ⟨L, hwrite⟩
    obtain ⟨b, hm, hold⟩ := found.moves hsim.inv hs.holds hw
    have hib := hm.inv hsim.inv
    have hg := hm.grows hsim.inv
    refine ⟨n, b, hm, hib, fun m hmem => ?_, fun o ho => ?_, fun o ho => ?_⟩
    · unfold Cluster.crash
      dsimp only
      by_cases he : m = n
      · subst he
        simp only [update_self]
        refine crash_node hold ?_
        split
        · exact hs.peers
        · exact fun p => mem_initial_peers
      · simp only [update_of_ne he]
        have := (hsim.nodes m hmem).frame [] hsim.inv hib hg (hm.frame m he) nofun
        rwa [List.append_nil] at this
    · exact (hsim.network o ho).grows hsim.inv hg (List.Subset.refl _)
    · exact (hsim.offers o ho).grows hsim.inv hg

theorem Sim.init (M : Membership) : Sim M (Cluster.init M) Lib.Ledger.init where
  inv := inv_init
  nodes _ _ := NodeSim.follower ⟨rfl, rfl, rfl, Shows.initial⟩ (fun _ => mem_initial_peers) rfl rfl nofun
  network := nofun
  offers := nofun

/-- A run of a cluster is a run of the ledger. -/
theorem Sim.later {c c' : Cluster} (hsim : Sim M c a) (hl : Cluster.Later M c c') :
    ∃ b, Relation.ReflTransGen (Ledger.Step M.quorums) a b ∧ Sim M c' b := by
  induction hl with
  | refl => exact ⟨a, .refl, hsim⟩
  | tail _ st ih =>
    obtain ⟨b, hab, hb⟩ := ih
    obtain ⟨n, d, hm, hd⟩ := hb.step st
    exact ⟨d, hab.trans hm.steps, hd⟩

theorem Sim.reachable {c : Cluster} (hr : Cluster.Reachable M c) : ∃ a, Sim M c a := by
  obtain ⟨a, -, ha⟩ := (Sim.init M).later hr
  exact ⟨a, ha⟩

end Choreolog.Raft
