import Choreolog.Theorems.Changes
import Choreolog.Theorems.Merge

/-! # What one input does

An inversion of `step`. A handler answers at once and leaves everything durable or staged as it is, or it
stages one write and answers nothing before the host has done it. Invariants of a node are proved from the
cases below, not from the handlers. -/

namespace Choreolog.Raft
open Lib

/-! ### Replies and the state behind them -/

/-- The state has all that a request told it: the entry before, and the request's own. -/
structure Covers (d : Durable) (m : AppendEntries) : Prop where
  previous : d.termAt m.prevIndex = some m.prevTerm
  entries : ∀ j < m.entries.length, d.entryAt (m.prevIndex + 1 + j) = m.entries[j]?

/-- What a positive reply promises is true of `d`, and it answers one of the inputs in `asked`. -/
def Warranted (config : Config) (asked : Input → Prop) (d : Durable) (o : Outbound) : Prop :=
  match o.message with
  | .voteReply v => v.granted = true → d.term = v.term ∧ d.votedFor = some o.dest ∧
      ∃ m, asked (.recvRequestVote m) ∧ m.candidate = o.dest ∧ m.requestId = v.requestId
  | .appendReply a => a.success = true → a.follower = config.self ∧ d.term = a.term ∧
      ∃ m, asked (.recvAppend m) ∧ m.leader = o.dest ∧ m.requestId = a.requestId ∧
        a.matched = m.prevIndex + m.entries.length ∧ Covers d m
  | .snapshotReply a => a.success = true → d.term = a.term ∧ a.index ≤ d.commit ∧
      ∃ m, asked (.recvSnapshot m) ∧ m.leader = o.dest ∧ m.requestId = a.requestId ∧ a.index = m.index
  | .requestVote _ | .appendEntries _ => True

theorem Warranted.mono {config : Config} {asked asked' : Input → Prop} {d : Durable} {o : Outbound}
    (more : ∀ i, asked i → asked' i) (h : Warranted config asked d o) : Warranted config asked' d o := by
  obtain ⟨dest, message⟩ := o
  cases message with
  | requestVote m => trivial
  | appendEntries m => trivial
  | voteReply v =>
    intro granted
    obtain ⟨hterm, hvote, m, hm, hrest⟩ := h granted
    exact ⟨hterm, hvote, m, more _ hm, hrest⟩
  | appendReply a =>
    intro success
    obtain ⟨hself, hterm, m, hm, hrest⟩ := h success
    exact ⟨hself, hterm, m, more _ hm, hrest⟩
  | snapshotReply a =>
    intro success
    obtain ⟨hterm, hcommit, m, hm, hrest⟩ := h success
    exact ⟨hterm, hcommit, m, more _ hm, hrest⟩

/-! ### Retained entries -/

section Entries
variable {d : Durable} {i : Nat}

theorem entryAt_concat (e : Entry) : ({ d with log := d.log ++ [e] } : Durable).entryAt (d.lastIndex + 1) = some e := by
  unfold Durable.entryAt Durable.lastIndex
  rw [if_neg (by dsimp only; omega)]
  dsimp only
  rw [show d.snapshotIndex + d.log.length + 1 - d.snapshotIndex - 1 = d.log.length by omega]
  simp

theorem entryAt_append (h : i ≤ d.lastIndex) (more : List Entry) :
    ({ d with log := d.log ++ more } : Durable).entryAt i = d.entryAt i := by
  unfold Durable.entryAt
  dsimp only
  split
  · rfl
  · rw [List.getElem?_append_left]
    unfold Durable.lastIndex at h
    omega

theorem entryAt_take {k : Nat} (h : i ≤ d.snapshotIndex + k) :
    ({ d with log := d.log.take k } : Durable).entryAt i = d.entryAt i := by
  unfold Durable.entryAt
  dsimp only
  split
  · rfl
  · rw [List.getElem?_take_of_lt (by omega)]

/-- Dropping entries up to a later boundary. -/
theorem entryAt_drop {t : Durable} (later : d.snapshotIndex ≤ t.snapshotIndex)
    (log : t.log = d.log.drop (t.snapshotIndex - d.snapshotIndex)) (h : t.snapshotIndex < i) :
    t.entryAt i = d.entryAt i := by
  unfold Durable.entryAt
  rw [if_neg (by omega), if_neg (by omega), log, List.getElem?_drop]
  congr 1
  omega

theorem termAt_eq_entryAt (lower : d.snapshotIndex < i) : d.termAt i = (d.entryAt i).map (·.term) := by
  unfold Durable.termAt Durable.entryAt
  rw [if_neg (by omega), if_neg (by omega : ¬i ≤ d.snapshotIndex)]
  split
  · rw [List.getElem?_eq_none (by unfold Durable.lastIndex at *; omega)]
    rfl
  · rfl

/-- A merge that meets no conflict with the committed prefix leaves what came before the message, and
    has the message's entries in place. -/
theorem mergeEntries_holds (entries : List Entry) {t : Durable} {i : Nat} (lower : t.snapshotIndex ≤ i)
    (upper : i ≤ t.lastIndex) (success : (mergeEntries t (i + 1) entries).2 = true) :
    (∀ j ≤ i, (mergeEntries t (i + 1) entries).1.entryAt j = t.entryAt j) ∧
      ∀ j < entries.length, (mergeEntries t (i + 1) entries).1.entryAt (i + 1 + j) = entries[j]? := by
  induction entries generalizing t i with
  | nil => exact ⟨fun _ _ => rfl, nofun⟩
  | cons e rest ih =>
    -- It suffices that the step leaves a log with the entry at `i + 1` and the old one below.
    have next : ∀ t' : Durable, t'.snapshotIndex = t.snapshotIndex → i + 1 ≤ t'.lastIndex →
        t'.entryAt (i + 1) = some e → (∀ j ≤ i, t'.entryAt j = t.entryAt j) →
        (mergeEntries t' (i + 1 + 1) rest).2 = true →
        (∀ j ≤ i, (mergeEntries t' (i + 1 + 1) rest).1.entryAt j = t.entryAt j) ∧
        ∀ j < (e :: rest).length, (mergeEntries t' (i + 1 + 1) rest).1.entryAt (i + 1 + j) = (e :: rest)[j]? := by
      intro t' hbase hlast hentry hbelow hsuccess
      obtain ⟨hkept, hrest⟩ := ih (by omega) hlast hsuccess
      refine ⟨fun j hj => (hkept j (by omega)).trans (hbelow j hj), fun j hj => ?_⟩
      cases j with
      | zero => exact (hkept (i + 1) le_rfl).trans hentry
      | succ j =>
        rw [show i + 1 + (j + 1) = i + 1 + 1 + j by omega, List.getElem?_cons_succ]
        exact hrest j (by simpa using hj)
    -- The entry goes to the end of a log that ends at `i`.
    have extend : ∀ t' : Durable, t'.snapshotIndex = t.snapshotIndex → t'.lastIndex = i →
        (∀ j ≤ i, t'.entryAt j = t.entryAt j) →
        (mergeEntries { t' with log := t'.log ++ [e] } (i + 1 + 1) rest).2 = true →
        (∀ j ≤ i, (mergeEntries { t' with log := t'.log ++ [e] } (i + 1 + 1) rest).1.entryAt j = t.entryAt j) ∧
        ∀ j < (e :: rest).length,
          (mergeEntries { t' with log := t'.log ++ [e] } (i + 1 + 1) rest).1.entryAt (i + 1 + j) = (e :: rest)[j]? := by
      intro t' hbase hlast hbelow
      have hlen : t'.lastIndex = t'.snapshotIndex + t'.log.length := rfl
      refine next _ hbase ?_ ?_ fun j hj => ?_
      · dsimp only [Durable.lastIndex]
        rw [List.length_append, List.length_singleton]
        omega
      · rw [← hlast]
        exact entryAt_concat e
      · rw [entryAt_append (by omega)]
        exact hbelow j hj
    have hlen : t.lastIndex = t.snapshotIndex + t.log.length := rfl
    unfold mergeEntries at success ⊢
    dsimp only at success ⊢
    split at success
    · rename_i hconflict
      rw [if_pos hconflict]
      split at success
      · cases success
      · rename_i hfree
        rw [if_neg hfree]
        rw [show i + 1 - t.snapshotIndex - 1 = i - t.snapshotIndex by omega] at success ⊢
        have hcut : ({ t with log := t.log.take (i - t.snapshotIndex) } : Durable).lastIndex = i := by
          dsimp only [Durable.lastIndex]
          rw [List.length_take]
          omega
        rw [if_pos (by rw [hcut])] at success ⊢
        exact extend { t with log := t.log.take (i - t.snapshotIndex) } rfl hcut
          (fun j hj => entryAt_take (d := t) (by omega)) success
    · rename_i hconflict
      rw [if_neg hconflict]
      by_cases hend : i + 1 = t.lastIndex + 1
      · rw [if_pos hend] at success ⊢
        exact extend t rfl (by omega) (fun _ _ => rfl) success
      · rw [if_neg hend] at success ⊢
        have hentry : t.entryAt (i + 1) = some e := by
          by_contra hne
          exact hconflict ⟨by omega, hne⟩
        exact next t rfl (by omega) hentry (fun _ _ => rfl) success

end Entries

/-- The log of `t` is that of `d` with entries added at the end, up to compaction. -/
structure Extends (d t : Durable) : Prop where
  boundary : d.snapshotIndex ≤ t.snapshotIndex
  last : d.lastIndex ≤ t.lastIndex
  entries : ∀ i ≤ d.lastIndex, t.snapshotIndex < i → t.entryAt i = d.entryAt i

theorem Extends.refl (d : Durable) : Extends d d := ⟨le_rfl, le_rfl, fun _ _ _ => rfl⟩

theorem Extends.trans {d t u : Durable} (h : Extends d t) (h' : Extends t u) : Extends d u where
  boundary := h.boundary.trans h'.boundary
  last := h.last.trans h'.last
  entries i hi hu := (h'.entries i (hi.trans h.last) hu).trans (h.entries i hi (h'.boundary.trans_lt hu))

theorem Extends.of_log {d t : Durable} (boundary : t.snapshotIndex = d.snapshotIndex) (log : t.log = d.log) : Extends d t := by
  refine ⟨boundary.ge, ?_, fun i _ _ => ?_⟩
  · unfold Durable.lastIndex
    rw [boundary, log]
  · unfold Durable.entryAt
    rw [boundary, log]

/-! ### Reactions -/

/-- The parts of a node that no handler changes. -/
structure Kept (s t : Node) : Prop where
  durable : t.durable = s.durable
  halted : t.halted = s.halted
  keys : t.volatile.peers.keys = s.volatile.peers.keys

/-- The effects ask for nothing: no write, no halt, nothing to send, apply or offer. -/
structure Silent (e : Effects) : Prop where
  persist : e.persist = none
  halt : e.halt = false
  sendNow : e.sendNow = []
  apply : e.apply = []
  snapshotNeeded : e.snapshotNeeded = []

/-- The input is answered at once, from the durable state as it is. -/
structure AnswersNow (config : Config) (s : Node) (input : Input) (r : Node × Effects) : Prop where
  kept : Kept s r.1
  pending : r.1.pending = s.pending
  token : r.1.nextToken = s.nextToken
  persist : r.2.persist = none
  halt : r.2.halt = false
  apply : r.2.apply = []
  sends : ∀ o ∈ r.2.sendNow, Warranted config (· = input) s.durable o

/-- The write `p` is staged, and whatever it lets the node say waits for it. -/
structure Stages (config : Config) (s : Node) (input : Input) (r : Node × Effects) (p : PendingWrite) : Prop where
  kept : Kept s r.1
  pending : r.1.pending = some p
  fresh : p.token = s.nextToken
  token : r.1.nextToken = s.nextToken + 1
  persist : ∃ kind, r.2.persist = some ⟨p.token, p.target, kind⟩
  silent : Silent { r.2 with persist := none }
  term : s.durable.term ≤ p.target.term
  vote : ∀ v, p.target.votedFor = some v → s.durable.votedFor = some v ∨ v = config.self ∨ v ∈ s.volatile.peers.keys
  waits : ∀ o ∈ p.after, Warranted config (· = input) p.target o
  leads : r.1.volatile.role = .leader → Extends s.durable p.target
  applies : p.applyAfter = [] ∨
    p.target.applied = s.durable.applied + 1 ∧ p.applyAfter = (p.target.entryAt p.target.applied).toList

/-- All that a handler may do. -/
inductive Reaction (config : Config) (s : Node) (input : Input) (r : Node × Effects) : Prop
  | answers (h : AnswersNow config s input r)
  | stages (p : PendingWrite) (h : Stages config s input r p)

theorem Kept.refl (s : Node) : Kept s s := ⟨rfl, rfl, rfl⟩

theorem Kept.of_send {s t : Node} (h : SendFrame s t) : Kept s t := ⟨h.durable, h.halted, h.keys⟩

theorem Kept.stepDown (s : Node) (e : Effects) : Kept s (stepDown s e).1 := ⟨rfl, rfl, by simp⟩

theorem Silent.empty (read : Option ReadResult) (capacityExhausted : Bool) : Silent { read, capacityExhausted } :=
  ⟨rfl, rfl, rfl, rfl, rfl⟩

variable {config : Config} {s s' : Node} {e : Effects} {input : Input}

namespace Reaction

theorem ite {c : Prop} [Decidable c] {r r' : Node × Effects} (h : c → Reaction config s input r)
    (h' : ¬c → Reaction config s input r') : Reaction config s input (if c then r else r') := by
  split
  · exact h ‹_›
  · exact h' ‹_›

/-- The node is as before, up to its peer records and its read. -/
theorem requests {r : Node × Effects} (frame : SendFrame s r.1) (persist : r.2.persist = none)
    (halt : r.2.halt = false) (apply : r.2.apply = []) (sends : ∀ o ∈ r.2.sendNow, Warranted config (· = input) s.durable o) :
    Reaction config s input r :=
  .answers ⟨.of_send frame, frame.pending, frame.token, persist, halt, apply, sends⟩

theorem ignored (capacityExhausted : Bool) : Reaction config s input (s, { capacityExhausted }) :=
  .requests (.refl s) rfl rfl rfl nofun

theorem answer {e : Effects} {o : Outbound} (kept : Kept s s') (pending : s'.pending = s.pending)
    (token : s'.nextToken = s.nextToken) (silent : Silent e) (h : Warranted config (· = input) s.durable o) :
    Reaction config s input (s', { e with sendNow := [o] }) := by
  refine .answers ⟨kept, pending, token, silent.persist, silent.halt, silent.apply, fun x hx => ?_⟩
  rw [List.mem_singleton.mp hx]
  exact h

theorem write {t : Durable} {after : List Outbound} {applyAfter : List Entry} {selfVote : Bool}
    {snapshots : List SnapshotNeeded} {kind : PersistKind} (kept : Kept s s') (token : s'.nextToken = s.nextToken)
    (silent : Silent e) (term : s.durable.term ≤ t.term)
    (vote : ∀ v, t.votedFor = some v → s.durable.votedFor = some v ∨ v = config.self ∨ v ∈ s.volatile.peers.keys)
    (waits : ∀ o ∈ after, Warranted config (· = input) t o)
    (leads : s'.volatile.role = .leader → Extends s.durable t)
    (applies : applyAfter = [] ∨ t.applied = s.durable.applied + 1 ∧ applyAfter = (t.entryAt t.applied).toList) :
    Reaction config s input (beginWrite s' e t after applyAfter selfVote snapshots kind) := by
  refine .stages ⟨s'.nextToken, t, after, applyAfter, selfVote, snapshots⟩ ?_
  exact ⟨⟨kept.durable, kept.halted, kept.keys⟩, rfl, token, congrArg (· + 1) token, ⟨kind, rfl⟩,
    ⟨rfl, silent.halt, silent.sendNow, silent.apply, silent.snapshotNeeded⟩, term, vote, waits, leads, applies⟩

/-- A node that has stepped down writes a state of a message's term. -/
theorem follow {t : Durable} {after : List Outbound} {kind : PersistKind} (silent : Silent e)
    (term : s.durable.term ≤ t.term)
    (vote : ∀ v, t.votedFor = some v → s.durable.votedFor = some v ∨ v = config.self ∨ v ∈ s.volatile.peers.keys)
    (waits : ∀ o ∈ after, Warranted config (· = input) t o) :
    Reaction config s input (beginWrite (stepDown s {}).1 e t after [] false [] kind) :=
  .write (.stepDown s {}) rfl silent term vote waits nofun (.inl rfl)

theorem adoptTerm_vote {d : Durable} {T : Nat} {v : String} (h : (adoptTerm d T).votedFor = some v) :
    d.votedFor = some v := by
  unfold adoptTerm at h
  split at h
  · cases h
  · exact h

theorem le_adoptTerm (d : Durable) (T : Nat) : d.term ≤ (adoptTerm d T).term := by
  unfold adoptTerm
  split
  · exact Nat.le_of_lt ‹_›
  · exact le_rfl

theorem extends_adoptTerm (d : Durable) (T : Nat) : Extends d (adoptTerm d T) := by
  unfold adoptTerm
  split
  · exact .of_log rfl rfl
  · exact .refl d

/-! ### Handlers -/

theorem adoptHigherTerm {T : Nat} (higher : s.durable.term < T) : Reaction config s input (adoptHigherTerm s T) :=
  .follow ⟨rfl, rfl, rfl, rfl, rfl⟩ higher.le nofun nofun

theorem electionTimeout : Reaction config s input (electionTimeout config s) := by
  unfold Raft.electionTimeout
  refine ite (fun _ => ?_) fun _ => ignored false
  refine .write ⟨rfl, rfl, by simp⟩ rfl ⟨rfl, rfl, rfl, rfl, rfl⟩ (Nat.le_succ _) ?_ ?_ nofun (.inl rfl)
  · intro v hv
    exact .inr (.inl (Option.some.inj hv).symm)
  · have key : ∀ (t : Durable) (peers : List String) (id : RequestId), ∀ o ∈ voteRequests config t peers id,
        Warranted config (· = input) t o := by
      intro t peers
      induction peers with
      | nil => exact nofun
      | cons peer peers ih =>
        intro id o ho
        rcases List.mem_cons.mp ho with rfl | ho
        · trivial
        · exact ih _ o ho
    exact key _ _ _

theorem recvRequestVote (m : RequestVote) : Reaction config s (.recvRequestVote m) (recvRequestVote config s m) := by
  unfold Raft.recvRequestVote
  refine ite (fun _ => ignored false) fun hknown => ?_
  dsimp only
  refine ite (fun _ => ?_) fun hterm => ?_
  · exact answer (.refl s) rfl rfl (.empty none false) nofun
  have hpeer : m.candidate ∈ s.volatile.peers.keys := by
    simp only [Bool.or_eq_true, not_or, Bool.not_eq_true'] at hknown
    exact OrdMap.contains_iff.mp (by simpa [knownPeer] using hknown.1.1.1)
  have hvote := @adoptTerm_vote s.durable m.term
  have hle := le_adoptTerm s.durable m.term
  have hlog := extends_adoptTerm s.durable m.term
  generalize adoptTerm s.durable m.term = target at hvote hle hlog ⊢
  generalize ((target.votedFor.isNone || target.votedFor == some m.candidate) &&
    target.upToDate m.lastTerm m.lastIndex) = grant
  -- The state with the vote in it, if it is granted.
  obtain ⟨t, ht, hterm, hvotes, hext, hback⟩ : ∃ t, t = (if grant = true then { target with votedFor := some m.candidate }
      else target) ∧ s.durable.term ≤ t.term ∧
      (∀ v, t.votedFor = some v → s.durable.votedFor = some v ∨ v = config.self ∨ v ∈ s.volatile.peers.keys) ∧
      Extends s.durable t ∧
      Warranted config (· = .recvRequestVote m) t ⟨m.candidate, .voteReply ⟨t.term, config.self, grant, m.requestId⟩⟩ := by
    cases grant with
    | true =>
      refine ⟨_, rfl, hle, fun v hv => ?_, hlog.trans (.of_log rfl rfl), fun _ => ⟨rfl, rfl, m, rfl, rfl, rfl⟩⟩
      obtain rfl := Option.some.inj hv
      exact .inr (.inr hpeer)
    | false => exact ⟨_, rfl, hle, fun v hv => .inl (hvote hv), hlog, nofun⟩
  rw [← ht]
  have hwaits : ∀ o ∈ [(⟨m.candidate, .voteReply ⟨t.term, config.self, grant, m.requestId⟩⟩ : Outbound)],
      Warranted config (· = .recvRequestVote m) t o := by
    intro o ho
    rw [List.mem_singleton.mp ho]
    exact hback
  by_cases hlower : s.durable.term < m.term
  · simp only [if_pos hlower]
    refine ite (fun _ => follow ⟨rfl, rfl, rfl, rfl, rfl⟩ hterm hvotes hwaits) fun hsame => ?_
    rw [not_not] at hsame
    exact answer (.stepDown s {}) rfl rfl ⟨rfl, rfl, rfl, rfl, rfl⟩ (hsame ▸ hback)
  · simp only [if_neg hlower]
    refine ite (fun _ => .write (.refl s) rfl (.empty none false) hterm hvotes hwaits (fun _ => hext) (.inl rfl)) fun hsame => ?_
    rw [not_not] at hsame
    exact answer (.refl s) rfl rfl (.empty none false) (hsame ▸ hback)

/-- A request is no reply. -/
theorem warranted_request {asked : Input → Prop} {d : Durable} (peer : String) (m : AppendEntries) :
    Warranted config asked d ⟨peer, .appendEntries m⟩ := trivial

theorem becomeLeader_send (config : Config) (s : Node) (e : Effects) :
    SendFrame { s with volatile := { s.volatile with role := .leader, leadershipEpoch := s.volatile.leadershipEpoch + 1 } }
      (becomeLeader config s e).1 :=
  SendFrame.foldl (SendFrame.sendFirst config s.durable) s.volatile.peers.keys ⟨_, e.sendNow, e.snapshotNeeded⟩

theorem becomeLeader_sends {P : Outbound → Prop} (hP : ∀ peer m, P ⟨peer, .appendEntries m⟩) (s : Node)
    (h : ∀ o ∈ e.sendNow, P o) : ∀ o ∈ (becomeLeader config s e).2.sendNow, P o :=
  Sending.foldl (fun _ peer => Sending.sendFirst hP s.durable peer) _ ⟨_, e.sendNow, e.snapshotNeeded⟩ h

theorem recvVoteReply (m : VoteReply) : Reaction config s input (recvVoteReply config s m) := by
  unfold Raft.recvVoteReply
  refine ite (fun _ => ignored false) fun _ => ite (fun hterm => adoptHigherTerm hterm) fun _ =>
    ite (fun _ => ?_) fun _ => ignored false
  dsimp only
  refine ite (fun _ => ?_) fun _ => .answers ⟨⟨rfl, rfl, rfl⟩, rfl, rfl, rfl, rfl, rfl, nofun⟩
  have hframe := becomeLeader_send config
    { s with volatile := { s.volatile with votes := insert m.voter s.volatile.votes } } {}
  exact .answers ⟨⟨hframe.durable, hframe.halted, hframe.keys⟩, hframe.pending, hframe.token, rfl, rfl, rfl,
    becomeLeader_sends warranted_request _ nofun⟩

theorem clientPropose (command : String) : Reaction config s input (clientPropose config s command) := by
  unfold Raft.clientPropose
  refine ite (fun _ => ignored true) fun _ => ite (fun _ => ?_) fun _ => ignored false
  have hframe := SendFrame.foldl (SendFrame.sendAppend config
    { s.durable with log := s.durable.log ++ [{ term := s.durable.term, command }] }) config.peers ⟨s, [], []⟩
  refine .write (.of_send hframe) hframe.token (.empty none false) le_rfl (fun v hv => .inl hv) ?_ (fun _ => ?_) (.inl rfl)
  · exact Sending.foldl (fun _ peer => Sending.sendAppend warranted_request _ peer) _ ⟨s, [], []⟩ nofun
  · refine ⟨le_rfl, ?_, fun i hi _ => entryAt_append hi _⟩
    dsimp only [Durable.lastIndex]
    rw [List.length_append]
    omega

theorem heartbeatTimeout : Reaction config s input (heartbeatTimeout config s) := by
  unfold Raft.heartbeatTimeout
  refine ite (fun _ => ?_) fun _ => ignored false
  refine .requests (SendFrame.foldl (SendFrame.sendAgain config s.durable) _ ⟨s, [], []⟩) rfl rfl rfl ?_
  exact Sending.foldl (fun _ peer => Sending.sendAgain warranted_request s.durable peer) _ ⟨s, [], []⟩ nofun

theorem recvAppend (m : AppendEntries) : Reaction config s (.recvAppend m) (recvAppend config s m) := by
  unfold Raft.recvAppend
  refine ite (fun _ => ignored false) fun _ => ite (fun _ => ignored false) fun _ => ite (fun _ => ignored false) fun _ => ?_
  dsimp only
  refine ite (fun _ => ?_) fun hterm => ?_
  · exact answer (.refl s) rfl rfl (.empty none false) nofun
  have hvote := @adoptTerm_vote s.durable m.term
  have hle := le_adoptTerm s.durable m.term
  generalize adoptTerm s.durable m.term = target at hvote hle ⊢
  -- Whatever is written or kept, the reply answers for it.
  have finish : ∀ (t : Durable) (e : Effects) (a : AppendReply), Silent e → s.durable.term ≤ t.term →
      (∀ v, t.votedFor = some v → target.votedFor = some v) →
      Warranted config (· = .recvAppend m) t ⟨m.leader, .appendReply a⟩ →
      Reaction config s (.recvAppend m) (if t ≠ s.durable then stage (stepDown s {}).1 e t [⟨m.leader, .appendReply a⟩]
        else ((stepDown s {}).1, { e with sendNow := [⟨m.leader, .appendReply a⟩] })) := by
    intro t e a silent hterm hvotes hback
    refine ite (fun _ => follow silent hterm (fun v hv => .inl (hvote (hvotes v hv))) fun o ho => ?_) fun hsame => ?_
    · rw [List.mem_singleton.mp ho]
      exact hback
    · rw [not_not] at hsame
      exact answer (.stepDown s {}) rfl rfl silent (hsame ▸ hback)
  refine ite (fun _ => ?_) fun _ => ?_
  · exact finish _ _ _ ⟨rfl, rfl, rfl, rfl, rfl⟩ hle (fun _ hv => hv) nofun
  · by_cases hprev : (target.termAt m.prevIndex == some m.prevTerm) = true
    · obtain ⟨hbase, hlast⟩ := termAt_bounds (beq_iff_eq.mp hprev)
      have hmerge := mergeEntries_eq target (m.prevIndex + 1) m.entries
      have hholds := mergeEntries_holds m.entries hbase hlast
      rw [if_pos hprev]
      generalize mergeEntries target (m.prevIndex + 1) m.entries = r at hmerge hholds ⊢
      obtain ⟨merged, success⟩ := r
      dsimp only at hmerge hholds ⊢
      have hsame : merged.term = target.term ∧ merged.votedFor = target.votedFor ∧
          merged.snapshotIndex = target.snapshotIndex ∧ merged.snapshotTerm = target.snapshotTerm := by
        rw [hmerge]
        exact ⟨rfl, rfl, rfl, rfl⟩
      cases success with
      | false => exact finish _ _ _ ⟨rfl, rfl, rfl, rfl, rfl⟩ (hle.trans hsame.1.ge) (fun _ hv => hsame.2.1.symm.trans hv) nofun
      | true =>
        refine finish _ _ _ ⟨rfl, rfl, rfl, rfl, rfl⟩ (hle.trans hsame.1.ge) (fun _ hv => hsame.2.1.symm.trans hv)
          fun _ => ⟨rfl, rfl, m, rfl, rfl, rfl, rfl, ?_⟩
        obtain ⟨hbelow, hentries⟩ := hholds rfl
        have hprevious : merged.termAt m.prevIndex = target.termAt m.prevIndex := by
          rcases Nat.eq_or_lt_of_le hbase with hi | hi
          · unfold Durable.termAt
            rw [if_pos (hi.symm.trans hsame.2.2.1.symm), if_pos hi.symm, hsame.2.2.2]
          · rw [termAt_eq_entryAt hi, termAt_eq_entryAt (hsame.2.2.1.trans_lt hi), hbelow m.prevIndex le_rfl]
        exact ⟨hprevious.trans (beq_iff_eq.mp hprev), hentries⟩
    · rw [if_neg hprev]
      exact finish _ _ _ ⟨rfl, rfl, rfl, rfl, rfl⟩ hle (fun _ hv => hv) nofun

theorem recvSnapshot (m : SnapshotRequest) : Reaction config s (.recvSnapshot m) (recvSnapshot config s m) := by
  unfold Raft.recvSnapshot
  refine ite (fun _ => ignored false) fun _ => ite (fun _ => ignored false) fun _ => ?_
  dsimp only
  refine ite (fun _ => ?_) fun hterm => ?_
  · exact answer (.refl s) rfl rfl (.empty none false) nofun
  have hvote : ∀ v, (adoptTerm s.durable m.term).votedFor = some v → s.durable.votedFor = some v ∨ v = config.self ∨
      v ∈ s.volatile.peers.keys := fun v hv => .inl (adoptTerm_vote hv)
  have hle := le_adoptTerm s.durable m.term
  generalize adoptTerm s.durable m.term = target at hvote hle ⊢
  refine ite (fun _ => ite (fun _ => follow ⟨rfl, rfl, rfl, rfl, rfl⟩ hle hvote nofun) fun _ => ?_) fun _ => ?_
  · exact .answers ⟨.stepDown s {}, rfl, rfl, rfl, rfl, rfl, nofun⟩
  have finish : ∀ (t : Durable) (success : Bool) (kind : PersistKind), t.term = target.term →
      t.votedFor = target.votedFor → (success = true → m.index ≤ t.commit) →
      Reaction config s (.recvSnapshot m) (if t ≠ s.durable then
        beginWrite (stepDown s {}).1 (stepDown s {}).2 t [⟨m.leader, .snapshotReply
          ⟨t.term, config.self, success, if success then m.index else 0, m.requestId⟩⟩] [] false [] kind
        else ((stepDown s {}).1, { (stepDown s {}).2 with sendNow := [⟨m.leader, .snapshotReply
          ⟨t.term, config.self, success, if success then m.index else 0, m.requestId⟩⟩] })) := by
    intro t success kind hterm hvotes hcommit
    have hback : Warranted config (· = .recvSnapshot m) t ⟨m.leader, .snapshotReply
        ⟨t.term, config.self, success, if success then m.index else 0, m.requestId⟩⟩ := by
      intro hs
      obtain rfl : success = true := hs
      exact ⟨rfl, hcommit rfl, m, rfl, rfl, rfl, rfl⟩
    refine ite (fun _ => follow ⟨rfl, rfl, rfl, rfl, rfl⟩ (hle.trans hterm.ge) (fun v hv => hvote v (hvotes ▸ hv)) fun o ho => ?_)
      fun hsame => ?_
    · rw [List.mem_singleton.mp ho]
      exact hback
    · rw [not_not] at hsame
      exact answer (.stepDown s {}) rfl rfl ⟨rfl, rfl, rfl, rfl, rfl⟩ (hsame ▸ hback)
  by_cases hinstall : target.commit < m.index
  · simp only [decide_eq_true hinstall, if_true, Bool.true_or]
    exact finish _ true .snapshotInstall rfl rfl fun _ => le_rfl
  · simp only [decide_eq_false hinstall, Bool.false_eq_true, if_false, Bool.false_or]
    exact finish target _ .stateUpdate rfl rfl fun _ => not_lt.mp hinstall

theorem recvSnapshotReply (m : SnapshotReply) : Reaction config s input (recvSnapshotReply s m) := by
  unfold Raft.recvSnapshotReply
  exact ite (fun _ => ignored false) fun _ => ite (fun hterm => adoptHigherTerm hterm) fun _ =>
    ite (fun _ => .requests (.setProgress s _ _) rfl rfl rfl nofun) fun _ => ignored false

theorem completeRead {r : Node × Effects} (h : Reaction config s input r) :
    Reaction config s input (completeRead config r.1 r.2) := by
  rcases completeRead_eq r.1 r.2 config with heq | ⟨b, -, -, -, -, -, heq⟩
  · rw [heq]
    exact h
  · rw [heq]
    -- Only the read and its result change.
    cases h with
    | answers h => exact .answers ⟨⟨h.kept.durable, h.kept.halted, h.kept.keys⟩, h.pending, h.token, h.persist, h.halt,
        h.apply, h.sends⟩
    | stages p h => exact .stages p ⟨⟨h.kept.durable, h.kept.halted, h.kept.keys⟩, h.pending, h.fresh, h.token, h.persist,
        ⟨rfl, h.silent.halt, h.silent.sendNow, h.silent.apply, h.silent.snapshotNeeded⟩, h.term, h.vote, h.waits, h.leads,
        h.applies⟩

theorem recvAppendReply (m : AppendReply) : Reaction config s input (recvAppendReply config s m) := by
  unfold Raft.recvAppendReply
  refine ite (fun _ => ignored false) fun _ => ite (fun hterm => completeRead (adoptHigherTerm hterm)) fun _ =>
    ite (fun _ => ?_) fun _ => completeRead (ignored false)
  split
  · exact ignored false
  · refine ite (fun _ => ignored false) fun _ => ?_
    dsimp only
    refine completeRead (r := (_, {})) (.requests (SendFrame.trans ?_ (.setProgress _ _ _)) rfl rfl rfl nofun)
    split
    · exact .setRead s _
    · exact .refl s

theorem advanceCommit : Reaction config s input (advanceCommit config s) := by
  unfold Raft.advanceCommit
  refine ite (fun _ => ite (fun _ => ?_) fun _ => ignored false) fun _ => ignored false
  exact .write (.refl s) rfl (.empty none false) le_rfl (fun v hv => .inl hv) nofun (fun _ => .of_log rfl rfl) (.inl rfl)

theorem applyCommitted : Reaction config s input (applyCommitted s) := by
  unfold Raft.applyCommitted
  refine ite (fun _ => ?_) fun _ => ignored false
  exact .write (.refl s) rfl (.empty none false) le_rfl (fun v hv => .inl hv) nofun (fun _ => .of_log rfl rfl)
    (.inr ⟨rfl, rfl⟩)

theorem compactCommitted : Reaction config s input (compactCommitted s) := by
  unfold Raft.compactCommitted
  refine ite (fun _ => ignored false) fun _ => ?_
  split
  · exact ignored false
  · rename_i boundaryTerm known
    obtain ⟨hbase, hlast⟩ := termAt_bounds known
    refine .write (.refl s) rfl (.empty none false) le_rfl (fun v hv => .inl hv) nofun (fun _ => ?_) (.inl rfl)
    refine ⟨hbase, ?_, fun i _ hi => entryAt_drop hbase rfl hi⟩
    have hlen : s.durable.lastIndex = s.durable.snapshotIndex + s.durable.log.length := rfl
    dsimp only [Durable.lastIndex]
    rw [List.length_drop]
    omega

theorem handle (input : Input) : Reaction config s input (handle config s input) := by
  cases input with
  | electionTimeout => exact electionTimeout
  | heartbeatTimeout => exact heartbeatTimeout
  | clientPropose command => exact clientPropose command
  | recvRequestVote m => exact recvRequestVote m
  | recvVoteReply m => exact recvVoteReply m
  | recvAppend m => exact recvAppend m
  | recvAppendReply m => exact recvAppendReply m
  | advanceCommit => exact advanceCommit
  | applyCommitted => exact applyCommitted
  | compactCommitted => exact compactCommitted
  | recvSnapshot m => exact recvSnapshot m
  | recvSnapshotReply m => exact recvSnapshotReply m
  | beginRead | cancelRead | persistCompleted | persistFailed | restart => exact ignored false

theorem beginRead (context : RequestId) : Reaction config s input (beginRead config s context) := by
  unfold Raft.beginRead
  have done : ∀ e : Effects, Silent e → Reaction config s input (s, e) := fun e h =>
    .requests (.refl s) h.persist h.halt h.apply (by rw [h.sendNow]; exact nofun)
  refine ite (fun _ => done _ (.empty _ false)) fun _ => ite (fun _ => done _ (.empty _ false)) fun _ =>
    ite (fun _ => done _ (.empty _ false)) fun _ => ite (fun _ => done _ (.empty _ false)) fun _ => ?_
  dsimp only
  have hframe := SendFrame.foldl (SendFrame.sendAppend config s.durable) config.peers ⟨setRead s (some
    ⟨context, s.durable.term, s.durable.commit, {config.self}, .empty⟩), [], []⟩
  refine completeRead (r := (_, _)) (.requests (.trans (.setRead s _) hframe) rfl rfl rfl ?_)
  exact Sending.foldl (fun _ peer => Sending.sendAppend warranted_request s.durable peer) _ ⟨_, [], []⟩ nofun

end Reaction

/-! ### Steps -/

/-- The write `p` is done: the node has its target, and releases what waited for it. A node that the write
    makes leader sends its first requests besides. -/
structure Completes (s : Node) (r : Node × Effects) (p : PendingWrite) : Prop where
  durable : r.1.durable = p.target
  pending : r.1.pending = none
  halted : r.1.halted = s.halted
  token : r.1.nextToken = s.nextToken
  keys : r.1.volatile.peers.keys = s.volatile.peers.keys
  persist : r.2.persist = none
  halt : r.2.halt = false
  apply : r.2.apply = p.applyAfter
  sends : ∀ o ∈ r.2.sendNow, o ∈ p.after ∨ ∃ m, o.message = .appendEntries m

/-- All that `step` may do. -/
inductive Stepped (config : Config) (s : Node) (input : Input) (r : Node × Effects) : Prop
  | answered (h : AnswersNow config s input r)
      (role : r.1.volatile.role = .leader → s.volatile.role = .leader ∨ s.pending = none)
      (halted : s.halted = true → Silent r.2)
      (other : s.halted = false → ∀ p, s.pending = some p →
        input ≠ .persistCompleted p.token ∧ input ≠ .persistFailed p.token)
  | staged (live : s.halted = false) (idle : s.pending = none) (p : PendingWrite) (h : Stages config s input r p)
  | completed (p : PendingWrite) (live : s.halted = false) (pending : s.pending = some p)
      (token : input = .persistCompleted p.token) (h : Completes s r p)
  | failed (p : PendingWrite) (live : s.halted = false) (pending : s.pending = some p)
      (token : input = .persistFailed p.token) (h : r = failStop s)
  | restarted (token : input = .restart) (h : r = restart config s)
  | invalid (bad : s.durable.valid = false ∨ ∃ p, s.pending = some p ∧ p.target.valid = false) (h : r = failStop s)

namespace Stepped

/-- Nothing happens. -/
theorem nothing (read : Option ReadResult) (other : s.halted = false → ∀ p, s.pending = some p →
    input ≠ .persistCompleted p.token ∧ input ≠ .persistFailed p.token) : Stepped config s input (s, { read }) :=
  .answered ⟨.refl s, rfl, rfl, rfl, rfl, rfl, nofun⟩ .inl (fun _ => .empty _ _) other

theorem persistCompleted (token : PersistToken) :
    Stepped config s (.persistCompleted token) (persistCompleted config s token) := by
  unfold Raft.persistCompleted
  split
  · rename_i hidle
    exact nothing none fun _ p hp => nomatch hidle.symm.trans hp
  · rename_i p hp
    split
    · rename_i htoken
      refine .completed p htoken.2 hp (by rw [htoken.1]) ?_
      have hdone : Completes s (Raft.completeRead config { s with pending := none, durable := p.target }
          { sendNow := p.after, apply := p.applyAfter, snapshotNeeded := p.snapshotAfter }) p := by
        have hread : ∀ (t : Node) (e : Effects), Completes s (t, e) p → Completes s (Raft.completeRead config t e) p := by
          intro t e h
          rcases completeRead_eq t e config with heq | ⟨b, -, -, -, -, -, heq⟩
          · rw [heq]
            exact h
          · rw [heq]
            exact ⟨h.durable, h.pending, h.halted, h.token, h.keys, h.persist, h.halt, h.apply, h.sends⟩
        exact hread _ _ ⟨rfl, rfl, rfl, rfl, rfl, rfl, rfl, rfl, fun o ho => .inl ho⟩
      dsimp only
      generalize Raft.completeRead config { s with pending := none, durable := p.target }
          { sendNow := p.after, apply := p.applyAfter, snapshotNeeded := p.snapshotAfter } = r at hdone ⊢
      split
      · split
        · have hframe := Reaction.becomeLeader_send config
            { r.1 with volatile := { r.1.volatile with votes := insert config.self r.1.volatile.votes } } r.2
          refine ⟨hframe.durable.trans hdone.durable, hframe.pending.trans hdone.pending, hframe.halted.trans hdone.halted,
            hframe.token.trans hdone.token, hframe.keys.trans hdone.keys, hdone.persist, hdone.halt, hdone.apply, ?_⟩
          exact Reaction.becomeLeader_sends (fun _ m => .inr ⟨m, rfl⟩) _ hdone.sends
        · exact ⟨hdone.durable, hdone.pending, hdone.halted, hdone.token, hdone.keys, hdone.persist, hdone.halt,
            hdone.apply, hdone.sends⟩
      · exact hdone
    · rename_i htoken
      refine nothing none fun live q hq => ⟨fun heq => htoken ⟨?_, live⟩, nofun⟩
      obtain rfl := Option.some.inj (hp.symm.trans hq)
      exact (Input.persistCompleted.inj heq).symm

theorem persistFailed (token : PersistToken) : Stepped config s (.persistFailed token) (persistFailed s token) := by
  unfold Raft.persistFailed
  split
  · rename_i hidle
    exact nothing none fun _ p hp => nomatch hidle.symm.trans hp
  · rename_i p hp
    split
    · rename_i htoken
      exact .failed p htoken.2 hp (by rw [htoken.1]) rfl
    · rename_i htoken
      refine nothing none fun live q hq => ⟨nofun, fun heq => htoken ⟨?_, live⟩⟩
      obtain rfl := Option.some.inj (hp.symm.trans hq)
      exact (Input.persistFailed.inj heq).symm

theorem cancelRead (context : RequestId) : Stepped config s (.cancelRead context) (cancelRead s context) := by
  unfold Raft.cancelRead
  split
  · split
    · exact .answered ⟨⟨rfl, rfl, rfl⟩, rfl, rfl, rfl, rfl, rfl, nofun⟩ .inl (fun _ => .empty _ _) fun _ _ _ => ⟨nofun, nofun⟩
    · exact nothing none fun _ _ _ => ⟨nofun, nofun⟩
  · exact nothing none fun _ _ _ => ⟨nofun, nofun⟩

/-- An input that waits for an idle node. -/
theorem handled {r : Node × Effects} (live : s.halted = false) (idle : s.pending = none) (h : Reaction config s input r) :
    Stepped config s input r := by
  cases h with
  | answers h =>
    exact .answered h (fun _ => .inr idle) (fun halted => nomatch live.symm.trans halted) fun _ p hp =>
      nomatch idle.symm.trans hp
  | stages p h => exact .staged live idle p h

theorem beginRead (context : RequestId) : Stepped config s (.beginRead context) (beginRead config s context) := by
  by_cases hidle : s.halted = true ∨ s.pending.isSome = true
  · unfold Raft.beginRead
    rw [if_pos hidle]
    exact nothing _ fun _ _ _ => ⟨nofun, nofun⟩
  · exact handled (idle_of_not hidle).1 (idle_of_not hidle).2 (Reaction.beginRead context)

end Stepped

/-- The inversion of `step`. -/
theorem step_stepped (config : Config) (s : Node) (input : Input) : Stepped config s input (step config s input) := by
  unfold step
  split
  · rename_i hbad
    refine .invalid ?_ rfl
    simpa [Option.any_eq_true] using hbad
  · cases input with
    | persistCompleted token => exact Stepped.persistCompleted token
    | persistFailed token => exact Stepped.persistFailed token
    | restart => exact .restarted rfl rfl
    | cancelRead context => exact Stepped.cancelRead context
    | beginRead context => exact Stepped.beginRead context
    | electionTimeout | heartbeatTimeout | clientPropose _ | recvRequestVote _ | recvVoteReply _ | recvAppend _
    | recvAppendReply _ | advanceCommit | applyCommitted | compactCommitted | recvSnapshot _ | recvSnapshotReply _ =>
      dsimp only
      split
      · exact .nothing none fun _ _ _ => ⟨nofun, nofun⟩
      · rename_i hidle
        exact .handled (idle_of_not hidle).1 (idle_of_not hidle).2 (Reaction.handle _)

/-! ### Writes and replies -/

/-- A result that asks for a write only after staging it, and then asks for nothing else. -/
def StagedOnly (r : Node × Effects) : Prop :=
  ∀ q, r.2.persist = some q → (∃ p, r.1.pending = some p ∧ p.token = q.token ∧ p.target = q.target) ∧
    r.2.sendNow = [] ∧ r.2.apply = [] ∧ r.2.snapshotNeeded = []

theorem StagedOnly.step (input : Input) : StagedOnly (step config s input) := by
  intro q hq
  have h := step_stepped config s input
  generalize Raft.step config s input = r at h hq ⊢
  cases h with
  | answered h => exact nomatch h.persist.symm.trans hq
  | staged live idle p h =>
    obtain ⟨kind, hkind⟩ := h.persist
    obtain rfl := Option.some.inj (hkind.symm.trans hq)
    exact ⟨⟨p, h.pending, rfl, rfl⟩, h.silent.sendNow, h.silent.apply, h.silent.snapshotNeeded⟩
  | completed p live pending token h => exact nomatch h.persist.symm.trans hq
  | failed p live pending token h =>
    subst h
    cases hq
  | restarted token h =>
    subst h
    cases hq
  | invalid bad h =>
    subst h
    cases hq

/-- If `o` is a success reply, it is one of this node, in no earlier term than its own. -/
def ReplyOk (config : Config) (s : Node) (o : Outbound) : Prop :=
  ∀ m, o.message = .appendReply m → m.success = true → m.follower = config.self ∧ s.durable.term ≤ m.term

/-- What a step sends or stages waited already, or is made now. -/
def RepliesOk (config : Config) (s : Node) (r : Node × Effects) : Prop :=
  ∀ o, o ∈ r.2.sendNow ∨ o ∈ queue r.1 → o ∈ queue s ∨ ReplyOk config s o

theorem Warranted.replyOk {d : Durable} {asked : Input → Prop} {o : Outbound} (h : Warranted config asked d o)
    (term : s.durable.term ≤ d.term) : ReplyOk config s o := by
  intro m hm success
  unfold Warranted at h
  rw [hm] at h
  obtain ⟨hself, hterm, -⟩ := h success
  exact ⟨hself, term.trans hterm.le⟩

/-- Every step makes the success replies that it does not release. -/
theorem RepliesOk.step (input : Input) : RepliesOk config s (step config s input) := by
  intro o ho
  have h := step_stepped config s input
  generalize Raft.step config s input = r at h ho
  have hqueue : ∀ {t : Node} {p : PendingWrite}, t.pending = some p → queue t = p.after := fun hp => by simp [queue, hp]
  have hnone : ∀ {t : Node}, t.pending = none → queue t = [] := fun hp => by simp [queue, hp]
  cases h with
  | answered h =>
    rcases ho with ho | ho
    · exact .inr ((h.sends o ho).replyOk le_rfl)
    · unfold queue at ho ⊢
      rw [h.pending] at ho
      exact .inl ho
  | staged live idle p h =>
    rcases ho with ho | ho
    · exact nomatch (show o ∈ [] from h.silent.sendNow ▸ ho)
    · rw [hqueue h.pending] at ho
      exact .inr ((h.waits o ho).replyOk h.term)
  | completed p live pending token h =>
    rcases ho with ho | ho
    · rcases h.sends o ho with ho | ⟨m, hm⟩
      · rw [hqueue pending]
        exact .inl ho
      · exact .inr fun a ha => nomatch hm.symm.trans ha
    · rw [hnone h.pending] at ho
      cases ho
  | failed p live pending token h =>
    subst h
    rcases ho with ho | ho <;> cases ho
  | restarted token h =>
    subst h
    rcases ho with ho | ho <;> cases ho
  | invalid bad h =>
    subst h
    rcases ho with ho | ho <;> cases ho

end Choreolog.Raft
