import Choreolog.Theorems.SimFollow
import Choreolog.Theorems.SimSend

/-! # Handlers of a leader

Election, proposals, heartbeats and replies. A candidate with a quorum of votes is the only leader of its
term and starts the book of that term with its own log; from then on its log is that book. -/

namespace Choreolog.Raft
open Lib Lib.Ledger Function

variable {M : Membership} {a b : Spec} {net : List Outbound} {n : String} {s s' : Node}
  {w : Option PersistRequest} {e : Effects} {t d : Durable} {kind : PersistKind}

/-! ### Leaders in order -/

theorem quotes_of (hi : Inv M.quorums a) (hold : Holds a n d) (hled : a.leader d.term = some n)
    (hlog : a.log n = a.book d.term) (hb : d.snapshotIndex ≤ d.commit) : Quotes a n (a.book d.term) d := by
  have hlen := hi.commit_le n
  have hcom := hi.commit_log n
  rw [hold.commit, hlog] at hlen hcom
  rw [hold.term] at hcom
  have hset : Settled a d.term d.commit := ⟨hlen, hcom⟩
  exact ⟨hled, hlog ▸ hold.log, List.prefix_rfl, hset, hb.trans hlen, hset.take (i := d.commit) rfl hb hb⟩

/-- A leader with nothing pending. -/
theorem NodeSim.leading (holds : Holds a n s.durable) (peers : ∀ p, p ∈ s.volatile.peers.keys ↔ p ∈ M.peers n)
    (role : s.volatile.role = .leader) (pending : s.pending = none) (running : s.halted = false)
    (leading : Leading a n s net fun _ => True) (log : a.log n = a.book s.durable.term) : NodeSim M a net n s none where
  holds := holds
  peers := peers
  pending p hp := by
    rw [pending] at hp
    cases hp
  failed _ := nofun
  halted h := by
    rw [running] at h
    cases h
  candidate hr := absurd hr (by simp [role])
  leader _ := by
    rw [show queue s = [] by simp [queue, pending], List.append_nil]
    exact leading
  leaderLog _ := log

theorem SentBy.msgOk {o : Outbound} {T : Nat} (hled : a.leader T = some n) (h : SentBy a n T (a.book T) o) :
    MsgOk a net o := by
  obtain ⟨m, hm, hok⟩ := h
  unfold MsgOk
  rw [hm]
  exact hok.appendOk hled

theorem SentBy.leader {o : Outbound} {T : Nat} {B : List Entry} (h : SentBy a n T B o) {x : AppendEntries}
    (hx : o.message = .appendEntries x) : x.leader = n := by
  obtain ⟨m, hm, hok⟩ := h
  rw [hm] at hx
  rw [← WireMessage.appendEntries.inj hx]
  exact hok.leader

/-- A send loop of a leader with nothing pending ends in order. -/
theorem Sends.carries {x : Sending} {out : List Outbound} (hm : Moves M.quorums n a b) (holds : Holds b n s.durable)
    (peers : ∀ p, p ∈ s.volatile.peers.keys ↔ p ∈ M.peers n) (role : s.volatile.role = .leader)
    (pending : s.pending = none) (running : s.halted = false) (log : b.log n = b.book s.durable.term)
    (hf : SendFrame s x.state) (hx : Sends b n (b.book s.durable.term) net out (fun _ => True) x)
    (hout : ∀ o ∈ out, MsgOk b (net ++ x.out) o ∧ ∀ m, o.message ≠ .appendEntries m) (he : e.persist = none) :
    Carries M a b net n w (x.state, { e with sendNow := x.out, snapshotNeeded := x.snapshots }) where
  moves := hm
  node := by
    rw [writeAfter_idle (hf.halted.trans running) (hf.pending.trans pending) (by exact he)]
    exact NodeSim.leading (hf.durable ▸ holds) (hf.keys ▸ peers) (hf.role.trans role) (hf.pending.trans pending)
      (hf.halted.trans running) hx.leading (hf.durable ▸ log)
  sent o ho := by
    rcases hx.out o ho with ho | ho
    · exact (hout o ho).1
    · rw [hf.durable] at ho
      exact ho.msgOk (hf.durable ▸ hx.leading.led)
  own o ho m hmess := by
    rcases hx.out o ho with ho | ho
    · exact absurd hmess ((hout o ho).2 m)
    · exact ho.leader hmess
  offers := hx.snapshots

theorem Outcome.completeRead {config : Config} (h : Outcome M a net n w (s, e)) :
    Outcome M a net n w (completeRead config s e) := by
  obtain ⟨b, h⟩ := h
  refine ⟨b, h.moves, ?_, ?_, ?_, ?_⟩
  · simp only [completeRead_sendNow]
    have hw : Cluster.writeAfter w (Raft.completeRead config s e).1 (Raft.completeRead config s e).2 =
        Cluster.writeAfter w s e := by
      simp [Cluster.writeAfter]
    rw [hw]
    exact h.node.completeRead config
  · simpa using h.sent
  · simpa using h.own
  · simpa using h.offers

/-! ### Elections -/

theorem Membership.quorum_config (M : Membership) (hn : n ∈ M.members) :
    quorum (M.config n) = M.members.card / 2 + 1 := by
  have hmem : M.members = insert n (M.peers n).toFinset := by
    ext p
    simp only [Finset.mem_insert, List.mem_toFinset, M.mem_peers n hn]
    constructor
    · intro hp
      by_cases he : p = n
      · exact Or.inl he
      · exact Or.inr ⟨hp, he⟩
    · rintro (rfl | hp)
      · exact hn
      · exact hp.1
  have hcard : M.members.card = (M.peers n).length + 1 := by
    rw [hmem, Finset.card_insert_of_notMem, List.toFinset_card_of_nodup (M.nodup n)]
    rw [List.mem_toFinset, M.mem_peers n hn]
    exact fun h => h.2 rfl
  rw [hcard]
  rfl

theorem Membership.isQuorum (M : Membership) (hn : n ∈ M.members) {Q : Finset String} (hQ : Q ⊆ M.members)
    (hc : quorum (M.config n) ≤ Q.card) : M.quorums.IsQuorum Q := by
  rw [M.quorum_config hn] at hc
  refine ⟨hQ, ?_⟩
  omega

/-- A candidate with a quorum of votes is the only one, and its log starts the book of its term. -/
theorem Standing.elect (hn : n ∈ M.members) (hi : Inv M.quorums a) (hs : Standing M a n s) (holds : Holds a n s.durable)
    (hcard : quorum (M.config n) ≤ s.volatile.votes.card) :
    ∃ b, Moves M.quorums n a b ∧ Holds b n s.durable ∧ b.leader s.durable.term = some n ∧
      b.log n = b.book s.durable.term := by
  have hQ := M.isQuorum hn (fun v hv => (hs.votes v hv).1) hcard
  have hvotes : ∀ v ∈ s.volatile.votes, ∃ L, Voted a v (a.term n) n L := by
    rw [holds.term]
    exact fun v hv => (hs.votes v hv).2
  have hfree : a.leader (a.term n) = none := by
    cases hl : a.leader (a.term n) with
    | none => rfl
    | some c =>
      have := hi.quorum_unique hl hQ hvotes
      rw [holds.term, ← this] at hl
      exact absurd hl hs.unled
  refine ⟨_, Moves.elect hfree ?_ ?_ hQ hvotes, ⟨holds.term, holds.vote, holds.commit, holds.log⟩, ?_, ?_⟩
  · rw [holds.term]
    exact hs.pos
  · rw [holds.term]
    exact hs.own
  · simp [holds.term]
  · simp [holds.term]

theorem Standing.becomeLeader (hn : n ∈ M.members) (hi : Inv M.quorums a) (hs : Standing M a n s)
    (holds : Holds a n s.durable) (peers : ∀ p, p ∈ s.volatile.peers.keys ↔ p ∈ M.peers n)
    (pending : s.pending = none) (running : s.halted = false) (hb : s.durable.snapshotIndex ≤ s.durable.commit)
    (hcard : quorum (M.config n) ≤ s.volatile.votes.card) (hnet : ∀ o ∈ net ++ e.sendNow, MsgOk a (net ++ e.sendNow) o)
    (happ : ∀ o ∈ e.sendNow, ∀ m, o.message ≠ .appendEntries m) (he : e.persist = none)
    (hsnap : e.snapshotNeeded = []) : Outcome M a net n w (becomeLeader (M.config n) s e) := by
  obtain ⟨b, hm, hold, hled, hlog⟩ := hs.elect hn hi holds hcard
  have hq := quotes_of (hm.inv hi) hold hled hlog hb
  -- No request of this term has this leader yet.
  have hfresh : ∀ o ∈ net ++ e.sendNow, ∀ x, ¬RequestOf n s.durable.term o x := by
    intro o ho x ⟨hx, h1, h2⟩
    have hok := hnet o ho
    unfold MsgOk at hok
    rw [hx] at hok
    have := hok.led
    rw [h1, h2] at this
    exact hs.unled this
  let s₀ : Node := { s with
    volatile := { s.volatile with role := .leader, leadershipEpoch := s.volatile.leadershipEpoch + 1 } }
  have hstart : Sends b n (b.book s.durable.term) net e.sendNow (fun _ => False) ⟨s₀, e.sendNow, e.snapshotNeeded⟩ := by
    refine ⟨⟨hled, nofun, fun o ho x hx => absurd hx (hfresh o ho x), fun o ho _ _ x _ hx _ _ => absurd hx (hfresh o ho x)⟩,
      List.Subset.refl _, fun o ho => Or.inl ho, ?_⟩
    rw [hsnap]
    exact nofun
  have hloop := hstart.foldl_sendFirst (M.config n) rfl hq s.volatile.peers.keys rfl
  have hframe : SendFrame s₀ (s.volatile.peers.keys.foldl (Raft.sendFirst (M.config n) s.durable)
      ⟨s₀, e.sendNow, e.snapshotNeeded⟩).state := SendFrame.foldl (SendFrame.sendFirst _ _) _ ⟨s₀, e.sendNow, e.snapshotNeeded⟩
  have hall : Sends b n (b.book s.durable.term) net e.sendNow (fun _ => True)
      (s.volatile.peers.keys.foldl (Raft.sendFirst (M.config n) s.durable) ⟨s₀, e.sendNow, e.snapshotNeeded⟩) := by
    refine ⟨⟨hloop.leading.led, fun v p _ hv => hloop.leading.progress v p (Or.inl ?_) hv, hloop.leading.fresh,
      hloop.leading.unique⟩, hloop.old, hloop.out, hloop.snapshots⟩
    rw [← show s₀.volatile.peers.keys = s.volatile.peers.keys from rfl, ← hframe.keys, OrdMap.mem_keys]
    exact Option.isSome_of_eq_some hv
  refine ⟨b, Sends.carries (s := s₀) hm hold peers rfl pending running hlog hframe hall (fun o ho => ⟨?_, happ o ho⟩) he⟩
  refine (hnet o (List.mem_append_right _ ho)).grows hi (hm.grows hi) ?_
  exact List.append_subset.mpr ⟨List.subset_append_left _ _, List.Subset.trans hloop.old (List.subset_append_right _ _)⟩

/-- A candidate with nothing pending. -/
theorem NodeSim.standing (holds : Holds a n s.durable) (peers : ∀ p, p ∈ s.volatile.peers.keys ↔ p ∈ M.peers n)
    (role : s.volatile.role = .candidate) (pending : s.pending = none) (running : s.halted = false)
    (standing : Standing M a n s) : NodeSim M a net n s none where
  holds := holds
  peers := peers
  pending p hp := by
    rw [pending] at hp
    cases hp
  failed _ := nofun
  halted h := by
    rw [running] at h
    cases h
  candidate _ _ := standing
  leader hr := absurd hr (by simp [role])
  leaderLog hr := absurd hr (by simp [role])

namespace Turn

theorem standing (h : Turn M a net n s w) (hr : s.volatile.role = .candidate) : Standing M a n s := by
  refine h.node.candidate hr fun p hp => ?_
  rw [h.idle] at hp
  cases hp

theorem leading (h : Turn M a net n s w) (hr : s.volatile.role = .leader) : Leading a n s net fun _ => True := by
  have := h.node.leader hr
  rwa [show queue s = [] by simp [queue, h.idle], List.append_nil] at this

theorem leaderLog (h : Turn M a net n s w) (hr : s.volatile.role = .leader) : a.log n = a.book s.durable.term :=
  h.node.leaderLog hr

theorem quotes (h : Turn M a net n s w) (hr : s.volatile.role = .leader) :
    Quotes a n (a.book s.durable.term) s.durable :=
  quotes_of h.inv h.node.holds (h.leading hr).led (h.leaderLog hr) h.boundary_le

theorem recvVoteReply (h : Turn M a net n s w) {m : VoteReply} (sent : ⟨n, .voteReply m⟩ ∈ net) :
    Outcome M a net n w (recvVoteReply (M.config n) s m) := by
  have hm := h.network _ sent
  unfold Raft.recvVoteReply
  split
  · exact h.quiet
  · rename_i hbad
    have hknown : knownPeer s m.voter = true := by simpa using hbad
    split
    · rename_i hlt
      exact h.adoptHigherTerm hlt
    · split
      · rename_i hvote
        obtain ⟨hterm, hgrant, hrole⟩ := hvote
        have hst := h.standing hrole
        have hst' : Standing M a n
            { s with volatile := { s.volatile with votes := insert m.voter s.volatile.votes } } := by
          refine ⟨hst.pos, hst.own, fun v hv => ?_, hst.unled⟩
          rcases Finset.mem_insert.mp hv with rfl | hv
          · obtain ⟨L, hL⟩ := hm hgrant
            exact ⟨(h.known hknown).1, L, hterm ▸ hL⟩
          · exact hst.votes v hv
        dsimp only
        split
        · rename_i hcard
          refine Standing.becomeLeader h.member h.inv hst' h.node.holds h.node.peers h.idle h.running h.boundary_le hcard
            ?_ nofun rfl rfl
          rw [List.append_nil]
          exact h.network
        · obtain rfl := h.no_write
          refine (NodeSim.standing ?_ ?_ ?_ ?_ ?_ hst').outcome rfl rfl rfl
          exacts [h.node.holds, h.node.peers, hrole, h.idle, h.running]
      · exact h.quiet

/-! ### Proposals and heartbeats -/

theorem heartbeatTimeout (h : Turn M a net n s w) : Outcome M a net n w (heartbeatTimeout (M.config n) s) := by
  unfold Raft.heartbeatTimeout
  split
  · rename_i hr
    have hstart : Sends a n (a.book s.durable.term) net [] (fun _ => True) ⟨s, [], []⟩ :=
      ⟨by rw [List.append_nil]; exact h.leading hr, List.Subset.refl _, nofun, nofun⟩
    have hloop := hstart.foldl_sendAgain (M.config n) rfl (h.quotes hr) (by simp) h.network s.volatile.peers.keys rfl
    exact ⟨a, hloop.carries (Moves.refl _ n a) h.node.holds h.node.peers hr h.idle h.running (h.leaderLog hr)
      (SendFrame.foldl (SendFrame.sendAgain _ _) _ ⟨s, [], []⟩) nofun (e := {}) rfl⟩
  · exact h.quiet

theorem beginRead (h : Turn M a net n s w) (context : RequestId) :
    Outcome M a net n w (beginRead (M.config n) s context) := by
  unfold Raft.beginRead
  split
  · exact h.node.outcome rfl rfl rfl
  · split
    · exact h.node.outcome rfl rfl rfl
    · split
      · exact h.node.outcome rfl rfl rfl
      · rename_i hr
        rw [not_not] at hr
        split
        · exact h.node.outcome rfl rfl rfl
        · dsimp only
          apply Outcome.completeRead
          generalize (some _ : Option ReadBarrier) = read
          have hl := h.leading hr
          have hstart : Sends a n (a.book s.durable.term) net [] (fun _ => True) ⟨setRead s read, [], []⟩ :=
            ⟨by rw [List.append_nil]; exact ⟨hl.led, hl.progress, hl.fresh, hl.unique⟩, List.Subset.refl _, nofun, nofun⟩
          have hloop := hstart.foldl_sendAppend (M.config n) rfl (h.quotes hr) (M.config n).peers rfl
          exact ⟨a, hloop.carries (s := setRead s read) (Moves.refl _ n a) h.node.holds h.node.peers hr h.idle h.running
            (h.leaderLog hr) (SendFrame.foldl (SendFrame.sendAppend _ _) _ ⟨setRead s read, [], []⟩) nofun (e := {}) rfl⟩

/-- The requests of a proposal quote the log that the leader is writing. -/
theorem quotes_append (h : Turn M a net n s w) (hr : s.volatile.role = .leader) (e : Entry) :
    Quotes a n (a.log n ++ [e]) { s.durable with log := s.durable.log ++ [e] } where
  led := (h.leading hr).led
  whole := h.shows_.append e
  book := by
    rw [h.leaderLog hr]
    exact List.prefix_append _ _
  commit := (h.quotes hr).commit
  boundary := (h.quotes hr).boundary

/-- The write of a proposal. -/
theorem writes_append (h : Turn M a net n s w) (hr : s.volatile.role = .leader) {e : Entry}
    (he : e.term = s.durable.term) :
    WriteOk M.quorums a n s.durable { s.durable with log := s.durable.log ++ [e] } (a.log n ++ [e]) .stateUpdate where
  shows_ := h.shows_.append e
  term := le_rfl
  vote := Or.inl (by simp)
  log := Or.inr (Or.inr ⟨(h.leading hr).led, rfl, h.leaderLog hr, e, he, rfl⟩)
  commit := ⟨le_rfl, h.commit_le.trans (by simp)⟩
  committed := Or.inl rfl
  ordinary _ := ⟨rfl, rfl⟩

theorem clientPropose (h : Turn M a net n s w) (command : String) :
    Outcome M a net n w (clientPropose (M.config n) s command) := by
  unfold Raft.clientPropose
  split
  · exact h.node.outcome rfl rfl rfl
  · split
    · rename_i hprop
      have hr := hprop.1
      have hl := h.leading hr
      generalize he : ({ term := s.durable.term, command } : Entry) = e
      have hwrite := h.writes_append hr (e := e) (by rw [← he])
      have hstart : Sends a n (a.log n ++ [e]) net [] (fun _ => True) ⟨s, [], []⟩ :=
        ⟨by rw [List.append_nil]; exact hl, List.Subset.refl _, (by rintro _ ⟨⟩), (by rintro _ ⟨⟩)⟩
      have hloop := hstart.foldl_sendAppend (M.config n) rfl (h.quotes_append hr e) (M.config n).peers rfl
      have hframe := SendFrame.foldl (SendFrame.sendAppend (M.config n)
        { s.durable with log := s.durable.log ++ [e] }) (M.config n).peers ⟨s, [], []⟩
      dsimp only at hframe ⊢
      generalize (M.config n).peers.foldl _ _ = x at hloop hframe ⊢
      have hsent : ∀ o ∈ x.out, SentBy a n s.durable.term (a.log n ++ [e]) o := fun o ho => by
        rw [← hframe.durable]
        exact (hloop.out o ho).resolve_left (by rintro ⟨⟩)
      refine ⟨a, Moves.refl _ n a, ?_, (by rintro _ ⟨⟩), (by rintro _ ⟨⟩), (by rintro _ ⟨⟩)⟩
      simp only [beginWrite, List.append_nil, Cluster.writeAfter]
      exact {
        holds := hframe.durable ▸ h.node.holds
        peers := hframe.keys ▸ h.node.peers
        pending := fun p hp => by
          obtain rfl := Option.some.inj hp
          refine ⟨_, a.log n ++ [e], rfl, rfl, rfl, hframe.durable ▸ hwrite, ?_⟩
          exact {
            after := fun o ho => by
              obtain ⟨m, hmess, hok⟩ := hsent o ho
              unfold QueuedOk
              rw [hmess]
              exact ⟨h.node.holds.term, hl.led, h.leaderLog hr, hok⟩
            requests := fun o ho => by
              obtain ⟨m, hmess, -⟩ := hsent o ho
              simp [hmess]
            selfVote := by rintro ⟨⟩
            active := fun _ _ => ⟨by rw [hframe.durable], by rw [hframe.durable]⟩
            candidate := fun _ hc => by
              have := hframe.role.symm.trans hc
              rw [hr] at this
              cases this
            snapshots := fun r hr' => ⟨hframe.role.trans hr, hloop.snapshots r hr'⟩
            apply := Or.inl rfl }
        failed := by rintro ⟨⟩
        halted := fun hh => by
          have := hframe.halted.symm.trans hh
          rw [h.running] at this
          cases this
        candidate := fun hc => by
          have := hframe.role.symm.trans hc
          rw [hr] at this
          cases this
        leader := fun _ => ⟨hloop.leading.led, hloop.leading.progress, hloop.leading.fresh, hloop.leading.unique⟩
        leaderLog := fun _ => by
          rw [hframe.durable]
          exact h.leaderLog hr }
    · exact h.quiet

end Turn

end Choreolog.Raft
