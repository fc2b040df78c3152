import Choreolog.Theorems.Frames

/-! # Read barriers of one node

What one node keeps of its outstanding read: only a leader has one, its probes carry ids that the node
assigned after the admission, and its acknowledgements answer such probes. The three predicates say
what is known of ids, of acknowledging members and of admitted reads; a step preserves what they
say, and a ready result carries it. -/

namespace Choreolog.Raft
open Lib

variable {Late : Nat → RequestId → Prop} {Fresh : String → Nat → Prop} {Admitted : RequestId → Nat → Nat → Prop}

/-- A barrier of the leader whose term is `term`. -/
structure BarrierOk (Late : Nat → RequestId → Prop) (Fresh : String → Nat → Prop)
    (Admitted : RequestId → Nat → Nat → Prop) (term : Nat) (b : ReadBarrier) : Prop where
  term : b.term = term
  acks : ∀ f ∈ b.acknowledgements, Fresh f b.term
  probes : ∀ p id, b.probes.find? p = some id → Late b.term id
  admitted : Admitted b.context b.term b.index

structure ReadInv (Late : Nat → RequestId → Prop) (Fresh : String → Nat → Prop)
    (Admitted : RequestId → Nat → Nat → Prop) (s : Node) : Prop where
  counter : s.volatile.role = .leader → ∀ id, s.nextRequestId ≤ id → Late s.durable.term id
  leader : ∀ b, s.volatile.read = some b → s.volatile.role = .leader
  barrier : ∀ b, s.volatile.read = some b → BarrierOk Late Fresh Admitted s.durable.term b

/-- A ready result was admitted, is applied, and a quorum acknowledged its term since. -/
structure Vouched (config : Config) (Fresh : String → Nat → Prop) (Admitted : RequestId → Nat → Nat → Prop)
    (applied : Nat) (r : ReadResult) : Prop where
  admitted : Admitted r.context r.term r.index
  applied : r.index ≤ applied
  quorum : ∃ Q : Finset String, quorum config ≤ Q.card ∧ ∀ f ∈ Q, Fresh f r.term

/-- A result of a step that keeps the reads in order. -/
structure ReadStep (config : Config) (Late : Nat → RequestId → Prop) (Fresh : String → Nat → Prop)
    (Admitted : RequestId → Nat → Nat → Prop) (r : Node × Effects) : Prop where
  inv : ReadInv Late Fresh Admitted r.1
  ready : ∀ x, r.2.read = some x → x.status = .ready → Vouched config Fresh Admitted r.1.durable.applied x

variable {config : Config} {s t : Node} {e : Effects}

/-! ### Building blocks -/

/-- A node that does not lead has no read. -/
theorem ReadInv.unread (role : s.volatile.role ≠ .leader) (read : s.volatile.read = none) :
    ReadInv Late Fresh Admitted s :=
  ⟨fun h => absurd h role, fun b h => by simp [read] at h, fun b h => by simp [read] at h⟩

/-- Only the role, the term, the counter and the read matter. -/
theorem ReadInv.congr (h : ReadInv Late Fresh Admitted s) (role : t.volatile.role = s.volatile.role)
    (term : t.durable.term = s.durable.term) (read : t.volatile.read = s.volatile.read)
    (counter : s.nextRequestId ≤ t.nextRequestId) : ReadInv Late Fresh Admitted t where
  counter hr id hid := term ▸ h.counter (role ▸ hr) id (counter.trans hid)
  leader b hb := role ▸ h.leader b (read ▸ hb)
  barrier b hb := term ▸ h.barrier b (read ▸ hb)

theorem ReadInv.mono {Admitted' : RequestId → Nat → Nat → Prop} (h : ReadInv Late Fresh Admitted s)
    (imp : ∀ x T i, Admitted x T i → Admitted' x T i) : ReadInv Late Fresh Admitted' s where
  counter := h.counter
  leader := h.leader
  barrier b hb := { h.barrier b hb with admitted := imp _ _ _ (h.barrier b hb).admitted }

theorem ReadInv.setRead (h : ReadInv Late Fresh Admitted s) : ReadInv Late Fresh Admitted (setRead s none) :=
  ⟨h.counter, nofun, nofun⟩

theorem ReadStep.of_inv (h : ReadInv Late Fresh Admitted s)
    (he : ∀ x, e.read = some x → x.status ≠ .ready) : ReadStep config Late Fresh Admitted (s, e) :=
  ⟨h, fun x hx hs => absurd hs (he x hx)⟩

theorem ReadStep.quiet (h : ReadInv Late Fresh Admitted s) : ReadStep config Late Fresh Admitted (s, {}) :=
  .of_inv h nofun

theorem ReadStep.ite {c : Prop} [Decidable c] {r r' : Node × Effects} (h : ReadStep config Late Fresh Admitted r)
    (h' : ReadStep config Late Fresh Admitted r') : ReadStep config Late Fresh Admitted (if c then r else r') := by
  split
  · exact h
  · exact h'

/-- A result of a node that has stepped down, whatever else it asks of its host. -/
theorem ReadStep.lowered {r : Node × Effects} (role : r.1.volatile.role ≠ .leader) (read : r.1.volatile.read = none)
    (result : r.2.read = (stepDown s {}).2.read) : ReadStep config Late Fresh Admitted r := by
  refine ⟨.unread role read, fun x hx hs => ?_⟩
  rw [result] at hx
  rcases stepDown_read_status s {} hx with h | h
  · rw [h] at hs
    cases hs
  · cases h

theorem ReadStep.completeRead (h : ReadInv Late Fresh Admitted s) (he : ∀ x, e.read = some x → x.status ≠ .ready) :
    ReadStep config Late Fresh Admitted (completeRead config s e) := by
  rcases completeRead_eq s e config with heq | ⟨b, hread, -, -, hcard, happlied, heq⟩
  · rw [heq]
    exact .of_inv h he
  · rw [heq]
    refine ⟨h.setRead, fun x hx _ => ?_⟩
    obtain rfl := Option.some.inj hx
    have hb := h.barrier b hread
    exact ⟨hb.admitted, happlied, b.acknowledgements, hcard, hb.acks⟩

/-! ### Sends -/

/-- A probe's id is assigned now, so it is late. -/
theorem ReadInv.afterProbe (h : ReadInv Late Fresh Admitted s) (peer : String) {m : AppendEntries}
    (hid : m.requestId = s.nextRequestId) : ReadInv Late Fresh Admitted (afterProbe s peer m) where
  counter hr id hid := h.counter hr id ((Nat.le_succ _).trans hid)
  leader b hb := by
    obtain ⟨b', hb', -⟩ := Option.map_eq_some_iff.mp hb
    exact h.leader b' hb'
  barrier b hb := by
    obtain ⟨b', hb', rfl⟩ := Option.map_eq_some_iff.mp hb
    have hok := h.barrier b' hb'
    refine ⟨hok.term, hok.acks, fun p id hp => ?_, hok.admitted⟩
    rw [OrdMap.find?_insert] at hp
    split at hp
    · rw [← Option.some.inj hp, hid]
      have hlate := h.counter (h.leader b' hb') s.nextRequestId le_rfl
      rw [← hok.term] at hlate
      exact hlate
    · exact hok.probes p id hp

theorem SendCase.readInv {log : Durable} {x y : Sending} {peer : String} (hc : SendCase config log x peer y)
    (h : ReadInv Late Fresh Admitted x.state) : ReadInv Late Fresh Admitted y.state := by
  cases hc with
  | nothing => exact h
  | again p r found inFlight => exact h
  | snapshot p found idle behind r request => exact h.congr rfl rfl rfl (Nat.le_succ _)
  | probe p found idle quiet prevTerm known ahead m request =>
    exact h.afterProbe peer (by rw [request, appendRequest])

theorem ReadInv.sendAppend (config : Config) (log : Durable) {x : Sending} (peer : String)
    (h : ReadInv Late Fresh Admitted x.state) :
    ReadInv Late Fresh Admitted (sendAppend config log x peer).state :=
  (sendAppend_cases config log x peer).readInv h

theorem ReadInv.sendFirst (config : Config) (log : Durable) {x : Sending} (peer : String)
    (h : ReadInv Late Fresh Admitted x.state) :
    ReadInv Late Fresh Admitted (sendFirst config log x peer).state := by
  have hset : ReadInv Late Fresh Admitted (setProgress x.state peer fun _ => { next := log.lastIndex + 1 }) :=
    h.congr rfl rfl rfl le_rfl
  exact hset.sendAppend config log (x := { x with state := _ }) peer

theorem ReadInv.sendAgain (config : Config) (log : Durable) {x : Sending} (peer : String)
    (h : ReadInv Late Fresh Admitted x.state) :
    ReadInv Late Fresh Admitted (sendAgain config log x peer).state := by
  unfold Raft.sendAgain
  split
  · exact h.sendAppend config log peer
  · split
    · exact h
    · exact h

theorem ReadInv.foldl {f : Sending → String → Sending}
    (hf : ∀ x peer, ReadInv Late Fresh Admitted x.state → ReadInv Late Fresh Admitted (f x peer).state)
    (peers : List String) (x : Sending) (h : ReadInv Late Fresh Admitted x.state) :
    ReadInv Late Fresh Admitted (peers.foldl f x).state := by
  induction peers generalizing x with
  | nil => exact h
  | cons peer peers ih => exact ih _ (hf x peer h)

/-- A new leader has no read yet, and all its ids are late. -/
theorem ReadStep.becomeLeader (read : s.volatile.read = none) (late : ∀ id, Late s.durable.term id)
    (he : ∀ x, e.read = some x → x.status ≠ .ready) :
    ReadStep config Late Fresh Admitted (becomeLeader config s e) := by
  have h : ReadInv Late Fresh Admitted { s with
      volatile := { s.volatile with role := .leader, leadershipEpoch := s.volatile.leadershipEpoch + 1 } } :=
    ⟨fun _ id _ => late id, fun b hb => by simp [read] at hb, fun b hb => by simp [read] at hb⟩
  exact .of_inv (ReadInv.foldl (fun x peer h => h.sendFirst config s.durable peer) _ ⟨_, e.sendNow, e.snapshotNeeded⟩ h) he

/-! ### Handlers -/

namespace ReadInv

theorem adoptHigherTerm (T : Nat) : ReadStep config Late Fresh Admitted (adoptHigherTerm s T) :=
  .lowered (s := s) nofun rfl rfl

theorem recvSnapshot (h : ReadInv Late Fresh Admitted s) (m : SnapshotRequest) :
    ReadStep config Late Fresh Admitted (recvSnapshot config s m) := by
  unfold Raft.recvSnapshot
  refine .ite (.quiet h) (.ite (.quiet h) ?_)
  dsimp only
  refine .ite (.of_inv h nofun) (.ite (.ite ?_ ?_) (.ite ?_ ?_))
  all_goals exact .lowered (s := s) nofun rfl rfl

theorem recvAppend (h : ReadInv Late Fresh Admitted s) (m : AppendEntries) :
    ReadStep config Late Fresh Admitted (recvAppend config s m) := by
  unfold Raft.recvAppend
  refine .ite (.quiet h) (.ite (.quiet h) (.ite (.quiet h) ?_))
  dsimp only
  refine .ite (.of_inv h nofun) (.ite (.ite ?_ ?_) (.ite ?_ ?_))
  all_goals exact .lowered (s := s) nofun rfl rfl

theorem recvRequestVote (h : ReadInv Late Fresh Admitted s) (m : RequestVote) :
    ReadStep config Late Fresh Admitted (recvRequestVote config s m) := by
  unfold Raft.recvRequestVote
  refine .ite (.quiet h) ?_
  dsimp only
  refine .ite (.of_inv h nofun) ?_
  by_cases hterm : s.durable.term < m.term
  · rw [if_pos hterm]
    refine .ite ?_ ?_
    all_goals exact .lowered (s := s) nofun rfl rfl
  · rw [if_neg hterm]
    exact .ite (.of_inv (h.congr rfl rfl rfl le_rfl) nofun) (.of_inv h nofun)

theorem electionTimeout (h : ReadInv Late Fresh Admitted s) :
    ReadStep config Late Fresh Admitted (electionTimeout config s) := by
  unfold Raft.electionTimeout
  exact .ite (.lowered (s := s) nofun rfl rfl) (.quiet h)

theorem recvVoteReply (h : ReadInv Late Fresh Admitted s) (m : VoteReply)
    (elect : s.volatile.role = .candidate → ∀ id, Late s.durable.term id) :
    ReadStep config Late Fresh Admitted (recvVoteReply config s m) := by
  unfold Raft.recvVoteReply
  refine .ite (.quiet h) (.ite (adoptHigherTerm m.term) ?_)
  split
  · rename_i hc
    have hread : s.volatile.read = none := by
      cases hb : s.volatile.read with
      | none => rfl
      | some b =>
        have := h.leader b hb
        rw [hc.2.2] at this
        cases this
    exact .ite (.becomeLeader hread (elect hc.2.2) nofun) (.quiet (h.congr rfl rfl rfl le_rfl))
  · exact .quiet h

theorem clientPropose (h : ReadInv Late Fresh Admitted s) (command : String) :
    ReadStep config Late Fresh Admitted (clientPropose config s command) := by
  unfold Raft.clientPropose
  refine .ite (.of_inv h nofun) ?_
  split
  · have hloop := foldl (fun x peer h => h.sendAppend config
      { s.durable with log := s.durable.log ++ [{ term := s.durable.term, command }] } peer)
      config.peers ⟨s, [], []⟩ h
    exact .of_inv (hloop.congr rfl rfl rfl le_rfl) nofun
  · exact .quiet h

theorem heartbeatTimeout (h : ReadInv Late Fresh Admitted s) :
    ReadStep config Late Fresh Admitted (heartbeatTimeout config s) := by
  unfold Raft.heartbeatTimeout
  split
  · exact .of_inv (foldl (fun x peer h => h.sendAgain config s.durable peer)
      s.volatile.peers.keys ⟨s, [], []⟩ h) nofun
  · exact .quiet h

theorem recvSnapshotReply (h : ReadInv Late Fresh Admitted s) (m : SnapshotReply) :
    ReadStep config Late Fresh Admitted (recvSnapshotReply s m) := by
  unfold Raft.recvSnapshotReply
  exact .ite (.quiet h) (.ite (adoptHigherTerm m.term) (.ite (.quiet (h.congr rfl rfl rfl le_rfl)) (.quiet h)))

/-- An acknowledgement counts for a late probe only. -/
theorem acknowledge {b : ReadBarrier} {term : Nat} {m : AppendReply} (h : BarrierOk Late Fresh Admitted term b)
    (probe : Probe) (fresh : Late term m.requestId → Fresh m.follower term) :
    BarrierOk Late Fresh Admitted term (acknowledge b probe m) := by
  unfold Raft.acknowledge
  split
  · rename_i hc
    refine ⟨h.term, fun f hf => ?_, h.probes, h.admitted⟩
    rcases Finset.mem_insert.mp hf with rfl | hf
    · have hlate := h.probes _ _ hc.1
      simp only [h.term] at hlate ⊢
      exact fresh hlate
    · exact h.acks f hf
  · exact h

theorem recvAppendReply (h : ReadInv Late Fresh Admitted s) (m : AppendReply)
    (fresh : m.success = true → m.term = s.durable.term → Late m.term m.requestId → Fresh m.follower m.term) :
    ReadStep config Late Fresh Admitted (recvAppendReply config s m) := by
  unfold Raft.recvAppendReply
  refine .ite (.quiet h) ?_
  split
  · dsimp only
    have hl : ReadStep config Late Fresh Admitted (Raft.adoptHigherTerm s m.term) := adoptHigherTerm m.term
    refine .completeRead hl.inv fun x hx => ?_
    rcases stepDown_read_status s {} hx with hs | hs
    · simp [hs]
    · cases hs
  · split
    · rename_i hlead
      split
      · exact .quiet h
      · rename_i probe hprobe
        refine .ite (.quiet h) ?_
        dsimp only
        refine .completeRead ?_ nofun
        by_cases hs : m.success = true
        · rw [if_pos hs]
          refine ⟨h.counter, fun b hb => ?_, fun b hb => ?_⟩
          · obtain ⟨b', hb', -⟩ := Option.map_eq_some_iff.mp hb
            exact h.leader b' hb'
          · obtain ⟨b', hb', rfl⟩ := Option.map_eq_some_iff.mp hb
            refine acknowledge (h.barrier b' hb') probe fun hlate => ?_
            have hterm : m.term = s.durable.term := hlead.2
            exact hterm ▸ fresh hs hterm (hterm ▸ hlate)
        · rw [if_neg hs]
          exact h.congr rfl rfl rfl le_rfl
    · exact .completeRead h nofun

theorem advanceCommit (h : ReadInv Late Fresh Admitted s) :
    ReadStep config Late Fresh Admitted (advanceCommit config s) := by
  unfold Raft.advanceCommit
  refine .ite ?_ (.quiet h)
  dsimp only
  exact .ite (.of_inv (h.congr rfl rfl rfl le_rfl) nofun) (.quiet h)

theorem applyCommitted (h : ReadInv Late Fresh Admitted s) :
    ReadStep config Late Fresh Admitted (applyCommitted s) := by
  unfold Raft.applyCommitted
  exact .ite (.of_inv (h.congr rfl rfl rfl le_rfl) nofun) (.quiet h)

theorem compactCommitted (h : ReadInv Late Fresh Admitted s) :
    ReadStep config Late Fresh Admitted (compactCommitted s) := by
  unfold Raft.compactCommitted
  dsimp only
  refine .ite (.quiet h) ?_
  split
  · exact .quiet h
  · exact .of_inv (h.congr rfl rfl rfl le_rfl) nofun

theorem beginRead (h : ReadInv Late Fresh Admitted s) (context : RequestId)
    (admits : s.pending = none → s.halted = false → s.volatile.read = none → s.volatile.role = .leader →
      s.durable.commit ≠ 0 → s.durable.termAt s.durable.commit = some s.durable.term →
      Fresh config.self s.durable.term ∧ Admitted context s.durable.term s.durable.commit) :
    ReadStep config Late Fresh Admitted (beginRead config s context) := by
  unfold Raft.beginRead
  split
  · refine .of_inv h fun x hx => ?_
    rw [← Option.some.inj hx]
    simp only
    split <;> simp
  · rename_i hidle
    split
    · exact .of_inv h fun x hx => by simp [← Option.some.inj hx]
    · rename_i hread
      split
      · exact .of_inv h fun x hx => by simp [← Option.some.inj hx]
      · rename_i hrole
        split
        · exact .of_inv h fun x hx => by simp [← Option.some.inj hx]
        · rename_i hready
          simp only [Bool.not_eq_true, Option.isSome_eq_false_iff, Option.isNone_iff_eq_none] at hread
          rw [not_not] at hrole
          rw [not_or, not_not] at hready
          obtain ⟨hfresh, hadmitted⟩ := admits (idle_of_not hidle).2 (idle_of_not hidle).1 hread hrole hready.1 hready.2
          refine .completeRead ?_ nofun
          refine foldl (fun x peer h => h.sendAppend config s.durable peer) _ _ ⟨h.counter, fun _ _ => hrole, fun b hb => ?_⟩
          obtain rfl := Option.some.inj hb
          refine ⟨rfl, fun f hf => ?_, fun p id hp => ?_, hadmitted⟩
          · rw [Finset.mem_singleton.mp hf]
            exact hfresh
          · simp at hp

theorem read_none (h : ReadInv Late Fresh Admitted s) (hr : s.volatile.role ≠ .leader) : s.volatile.read = none := by
  cases hb : s.volatile.read with
  | none => rfl
  | some b => exact absurd (h.leader b hb) hr

theorem failStop : ReadStep config Late Fresh Admitted (failStop s) := by
  refine ⟨.unread nofun rfl, fun x hx hs => ?_⟩
  obtain ⟨y, -, rfl⟩ := Option.map_eq_some_iff.mp hx
  cases hs

/-- A completed write leaves a leader in its term, and makes a candidate's own vote durable. -/
theorem persistCompleted (h : ReadInv Late Fresh Admitted s) (token : PersistToken)
    (own : ∀ p, s.pending = some p → p.selfVote = true →
      s.volatile.role = .candidate ∧ ∀ id, Late p.target.term id)
    (term : ∀ p, s.pending = some p → p.selfVote = false → s.volatile.role = .leader →
      p.target.term = s.durable.term) :
    ReadStep config Late Fresh Admitted (persistCompleted config s token) := by
  unfold Raft.persistCompleted
  split
  · exact .quiet h
  · rename_i p hp
    refine .ite ?_ (.quiet h)
    cases hself : p.selfVote with
    | false =>
      refine .completeRead ?_ nofun
      by_cases hr : s.volatile.role = .leader
      · exact h.congr rfl (term p hp hself hr) rfl le_rfl
      · exact .unread hr (h.read_none hr)
    | true =>
      obtain ⟨hrole, hlate⟩ := own p hp hself
      have hread := h.read_none (by simp [hrole])
      have heq : ∀ e, completeRead config { s with pending := none, durable := p.target } e =
          ({ s with pending := none, durable := p.target }, e) := fun e => by
        unfold Raft.completeRead
        simp [hread]
      simp only [heq, if_true]
      exact .ite (.becomeLeader hread hlate nofun) (.of_inv (.unread (by simp [hrole]) hread) nofun)

/-- Every step keeps the reads in order. -/
theorem step (h : ReadInv Late Fresh Admitted s) (input : Input)
    (fresh : ∀ m, input = .recvAppendReply m → m.success = true → m.term = s.durable.term →
      Late m.term m.requestId → Fresh m.follower m.term)
    (admits : ∀ context, input = .beginRead context → s.durable.valid = true → s.pending = none → s.halted = false →
      s.volatile.read = none → s.volatile.role = .leader → s.durable.commit ≠ 0 →
      s.durable.termAt s.durable.commit = some s.durable.term →
      Fresh config.self s.durable.term ∧ Admitted context s.durable.term s.durable.commit)
    (elect : s.volatile.role = .candidate → s.pending = none → ∀ id, Late s.durable.term id)
    (own : ∀ p, s.pending = some p → p.selfVote = true →
      s.volatile.role = .candidate ∧ ∀ id, Late p.target.term id)
    (term : ∀ p, s.pending = some p → p.selfVote = false → s.volatile.role = .leader →
      p.target.term = s.durable.term) : ReadStep config Late Fresh Admitted (step config s input) := by
  unfold Raft.step
  split
  · exact failStop
  rename_i hvalid
  cases input with
  | persistCompleted token => exact h.persistCompleted token own term
  | persistFailed token =>
    dsimp only
    unfold Raft.persistFailed
    split
    · exact .quiet h
    · exact .ite failStop (.quiet h)
  | restart =>
    refine ⟨.unread nofun rfl, fun x hx hs => ?_⟩
    obtain ⟨y, -, rfl⟩ := Option.map_eq_some_iff.mp hx
    cases hs
  | cancelRead context =>
    dsimp only
    unfold Raft.cancelRead
    split
    · refine .ite (.of_inv h.setRead fun x hx => ?_) (.quiet h)
      rw [← Option.some.inj hx]
      simp
    · exact .quiet h
  | beginRead context => exact h.beginRead context (admits context rfl (by simp_all))
  | electionTimeout => exact .ite (.quiet h) h.electionTimeout
  | heartbeatTimeout => exact .ite (.quiet h) h.heartbeatTimeout
  | clientPropose command => exact .ite (.quiet h) (h.clientPropose command)
  | recvRequestVote m => exact .ite (.quiet h) (h.recvRequestVote m)
  | recvVoteReply m =>
    dsimp only
    split
    · exact .quiet h
    · rename_i hidle
      exact h.recvVoteReply m fun hr => elect hr (idle_of_not hidle).2
  | recvAppend m => exact .ite (.quiet h) (h.recvAppend m)
  | recvAppendReply m => exact .ite (.quiet h) (h.recvAppendReply m (fresh m rfl))
  | advanceCommit => exact .ite (.quiet h) h.advanceCommit
  | applyCommitted => exact .ite (.quiet h) h.applyCommitted
  | compactCommitted => exact .ite (.quiet h) h.compactCommitted
  | recvSnapshot m => exact .ite (.quiet h) (h.recvSnapshot m)
  | recvSnapshotReply m => exact .ite (.quiet h) (h.recvSnapshotReply m)

end ReadInv

end Choreolog.Raft
