import Choreolog.Theorems.Discipline

/-! # The life of a read

A node has one read outstanding at most. The contexts that were begun are the contexts that were answered and
the outstanding one, each as often as it was begun; so a context that is begun once is answered once. A ready
answer comes from a node that has led the term of the read ever since it admitted it. -/

namespace Choreolog.Raft
open Lib

/-- The node leads term `T`. -/
def Leads (s : Node) (T : Nat) : Prop := s.volatile.role = .leader ∧ s.durable.term = T

/-- The context and the term of the outstanding read. -/
def Node.reading (s : Node) : Option (RequestId × Nat) := s.volatile.read.map fun b => (b.context, b.term)

theorem Node.reading_none {s : Node} : s.reading = none ↔ s.volatile.read = none := by
  simp [Node.reading]

theorem Node.reading_some {s : Node} {b : ReadBarrier} (h : s.volatile.read = some b) :
    s.reading = some (b.context, b.term) := by
  simp [Node.reading, h]

/-- An outstanding read is one of the leader of its term, which has no other term in preparation. -/
structure Serving (s : Node) (T : Nat) : Prop where
  leads : Leads s T
  staged : ∀ p, s.pending = some p → p.selfVote = false ∧ p.target.term = s.durable.term

def Node.Served (s : Node) : Prop := ∀ c T, s.reading = some (c, T) → Serving s T

/-- What a step does with the reads of a node. -/
inductive ReadMove (s : Node) (input : Input) (r : Node × Effects) : Prop
  | kept (other : ∀ c, input ≠ .beginRead c) (same : r.1.reading = s.reading) (quiet : r.2.read = none)
  | refused (c : RequestId) (x : ReadResult) (begins : input = .beginRead c) (same : r.1.reading = s.reading)
      (answer : r.2.read = some x) (context : x.context = c) (status : x.status ≠ .ready)
  | admitted (c : RequestId) (begins : input = .beginRead c) (free : s.reading = none)
      (leads : Leads s s.durable.term) (reading : r.1.reading = some (c, s.durable.term)) (quiet : r.2.read = none)
  | served (c : RequestId) (x : ReadResult) (begins : input = .beginRead c) (free : s.reading = none)
      (done : r.1.reading = none) (answer : r.2.read = some x) (context : x.context = c) (leads : Leads s x.term)
      (still : Leads r.1 x.term)
  | ended (c : RequestId) (T : Nat) (x : ReadResult) (other : ∀ c, input ≠ .beginRead c)
      (reading : s.reading = some (c, T)) (done : r.1.reading = none) (answer : r.2.read = some x)
      (context : x.context = c) (ready : x.status = .ready → x.term = T ∧ Leads r.1 T ∧ input ≠ .cancelRead c)

/-- A step that keeps the outstanding read one of the leader. -/
structure ReadTurn (s : Node) (input : Input) (r : Node × Effects) : Prop where
  served : r.1.Served
  move : ReadMove s input r

variable {config : Config} {s t : Node} {e : Effects} {input : Input}

/-! ### Building blocks -/

theorem Node.Served.unread (h : s.reading = none) : s.Served := fun _ _ hr => nomatch h.symm.trans hr

theorem Node.Served.congr (h : s.Served) (reading : t.reading = s.reading) (role : t.volatile.role = s.volatile.role)
    (term : t.durable.term = s.durable.term)
    (staged : ∀ p, t.pending = some p → s.pending = some p ∨ p.selfVote = false ∧ p.target.term = s.durable.term) :
    t.Served := by
  intro c T hr
  have hs := h c T (reading ▸ hr)
  refine ⟨⟨role.trans hs.leads.1, term.trans hs.leads.2⟩, fun p hp => ?_⟩
  rw [term]
  rcases staged p hp with hp | hp
  · exact hs.staged p hp
  · exact hp

namespace ReadTurn

/-- The reads are as they were. -/
theorem keep (h : s.Served) (other : ∀ c, input ≠ .beginRead c) (reading : t.reading = s.reading)
    (role : t.volatile.role = s.volatile.role) (term : t.durable.term = s.durable.term)
    (staged : ∀ p, t.pending = some p → s.pending = some p ∨ p.selfVote = false ∧ p.target.term = s.durable.term)
    (quiet : e.read = none) : ReadTurn s input (t, e) :=
  ⟨h.congr reading role term staged, .kept other reading quiet⟩

theorem quiet (h : s.Served) (other : ∀ c, input ≠ .beginRead c) (quiet : e.read = none) : ReadTurn s input (s, e) :=
  keep h other rfl rfl rfl (fun _ hp => .inl hp) quiet

theorem ite {c : Prop} [Decidable c] {r r' : Node × Effects} (h : ReadTurn s input r) (h' : ReadTurn s input r') :
    ReadTurn s input (if c then r else r') := by
  split
  · exact h
  · exact h'

/-- The outstanding read is dropped with a result that is not ready. -/
theorem dropped {r : Node × Effects} (other : ∀ c, input ≠ .beginRead c) (done : r.1.volatile.read = none)
    {f : ReadBarrier → ReadResult} (context : ∀ b, (f b).context = b.context) (status : ∀ b, (f b).status ≠ .ready)
    (answer : r.2.read = s.volatile.read.map f) : ReadTurn s input r := by
  have hdone := Node.reading_none.mpr done
  refine ⟨.unread hdone, ?_⟩
  cases hb : s.volatile.read with
  | none => exact .kept other (hdone.trans (Node.reading_none.mpr hb).symm) (by simp [answer, hb])
  | some b =>
    exact .ended b.context b.term (f b) other (Node.reading_some hb) hdone (by simp [answer, hb]) (context b)
      fun hs => absurd hs (status b)

theorem stepDown_read_eq (s : Node) :
    (stepDown s {}).2.read = s.volatile.read.map fun b => { context := b.context, status := .notLeader } := by
  unfold stepDown
  cases s.volatile.read <;> rfl

/-- A node that has stepped down, whatever else it asks of its host. -/
theorem lowered {r : Node × Effects} (other : ∀ c, input ≠ .beginRead c) (done : r.1.volatile.read = none)
    (answer : r.2.read = (stepDown s {}).2.read) : ReadTurn s input r :=
  dropped other done (f := fun b => { context := b.context, status := .notLeader }) (fun _ => rfl) (fun _ => nofun)
    (answer.trans (stepDown_read_eq s))

theorem failStop (other : ∀ c, input ≠ .beginRead c) : ReadTurn s input (failStop s) := by
  refine dropped other rfl (f := fun b => { context := b.context, status := .unavailable }) (fun _ => rfl)
    (fun _ => nofun) ?_
  unfold Raft.failStop stepDown
  cases s.volatile.read <;> rfl

/-- The leader answers its read if it can. -/
theorem completeRead (h : s.Served) (other : ∀ c, input ≠ .beginRead c) (cancel : ∀ c, input ≠ .cancelRead c)
    (reading : t.reading = s.reading) (role : t.volatile.role = s.volatile.role) (term : s.reading ≠ none → t.durable.term = s.durable.term)
    (idle : t.pending = none ∨ t.pending = s.pending) (quiet : e.read = none) :
    ReadTurn s input (completeRead config t e) := by
  have ht : t.Served := by
    intro c T hr
    have hs := h c T (reading ▸ hr)
    have hterm := term (by simp [← reading, hr])
    refine ⟨⟨role.trans hs.leads.1, hterm.trans hs.leads.2⟩, fun p hp => ?_⟩
    rcases idle with hidle | hidle
    · exact nomatch hidle.symm.trans hp
    · exact hterm ▸ hs.staged p (hidle ▸ hp)
  rcases completeRead_eq t e config with heq | ⟨b, hb, hrole, hterm, -, -, heq⟩
  · rw [heq]
    exact ⟨ht, .kept other reading quiet⟩
  · rw [heq]
    exact ⟨.unread rfl, .ended b.context b.term _ other (reading ▸ Node.reading_some hb) rfl rfl rfl
      fun _ => ⟨rfl, ⟨hrole, hterm.symm⟩, cancel _⟩⟩

end ReadTurn

/-! ### Sends -/

theorem SendCase.reading {log : Durable} {x y : Sending} {peer : String} (h : SendCase config log x peer y) :
    y.state.reading = x.state.reading := by
  cases h with
  | nothing => rfl
  | again p r found inFlight => rfl
  | snapshot p found idle behind r request => rfl
  | probe p found idle quiet prevTerm known ahead m request =>
    simp only [Node.reading, afterProbe, setRead, Option.map_map]
    rfl

theorem sendAppend_reading (config : Config) (log : Durable) (x : Sending) (peer : String) :
    (sendAppend config log x peer).state.reading = x.state.reading :=
  (sendAppend_cases config log x peer).reading

theorem sendFirst_reading (config : Config) (log : Durable) (x : Sending) (peer : String) :
    (sendFirst config log x peer).state.reading = x.state.reading :=
  sendAppend_reading config log { x with state := setProgress x.state peer fun _ => { next := log.lastIndex + 1 } } peer

theorem sendAgain_reading (config : Config) (log : Durable) (x : Sending) (peer : String) :
    (sendAgain config log x peer).state.reading = x.state.reading := by
  unfold sendAgain
  split
  · exact sendAppend_reading config log x peer
  · split
    · rfl
    · rfl

theorem foldl_reading {f : Sending → String → Sending} (hf : ∀ x peer, (f x peer).state.reading = x.state.reading)
    (peers : List String) (x : Sending) : (peers.foldl f x).state.reading = x.state.reading := by
  induction peers generalizing x with
  | nil => rfl
  | cons peer peers ih => exact (ih _).trans (hf x peer)

theorem becomeLeader_reading (config : Config) (s : Node) (e : Effects) :
    (becomeLeader config s e).1.reading = s.reading :=
  foldl_reading (sendFirst_reading config s.durable) _ _

/-! ### Handlers -/

namespace ReadTurn

theorem recvSnapshot (h : s.Served) (m : SnapshotRequest) :
    ReadTurn s (.recvSnapshot m) (recvSnapshot config s m) := by
  unfold Raft.recvSnapshot
  refine .ite (.quiet h nofun rfl) (.ite (.quiet h nofun rfl) ?_)
  dsimp only
  refine .ite (.quiet h nofun rfl) (.ite (.ite ?_ ?_) (.ite ?_ ?_))
  all_goals exact .lowered nofun rfl rfl

theorem recvAppend (h : s.Served) (m : AppendEntries) : ReadTurn s (.recvAppend m) (recvAppend config s m) := by
  unfold Raft.recvAppend
  refine .ite (.quiet h nofun rfl) (.ite (.quiet h nofun rfl) (.ite (.quiet h nofun rfl) ?_))
  dsimp only
  refine .ite (.quiet h nofun rfl) (.ite (.ite ?_ ?_) (.ite ?_ ?_))
  all_goals exact .lowered nofun rfl rfl

theorem recvRequestVote (h : s.Served) (m : RequestVote) :
    ReadTurn s (.recvRequestVote m) (recvRequestVote config s m) := by
  unfold Raft.recvRequestVote
  refine .ite (.quiet h nofun rfl) ?_
  dsimp only
  refine .ite (.quiet h nofun rfl) ?_
  by_cases hterm : s.durable.term < m.term
  · rw [if_pos hterm]
    refine .ite ?_ ?_
    all_goals exact .lowered nofun rfl rfl
  · rw [if_neg hterm]
    refine .ite (.keep h nofun rfl rfl rfl (fun p hp => ?_) rfl) (.quiet h nofun rfl)
    -- A vote at the node's own term.
    obtain rfl := Option.some.inj hp
    refine .inr ⟨rfl, ?_⟩
    have hadopt : (adoptTerm s.durable m.term).term = s.durable.term := by
      rw [adoptTerm, if_neg hterm]
    dsimp only
    split
    · exact hadopt
    · exact hadopt

theorem electionTimeout (h : s.Served) : ReadTurn s .electionTimeout (electionTimeout config s) := by
  unfold Raft.electionTimeout
  exact .ite (.lowered nofun rfl rfl) (.quiet h nofun rfl)

theorem recvVoteReply (h : s.Served) (m : VoteReply) : ReadTurn s (.recvVoteReply m) (recvVoteReply config s m) := by
  unfold Raft.recvVoteReply
  refine .ite (.quiet h nofun rfl) (.ite (.lowered nofun rfl rfl) ?_)
  split
  · rename_i hc
    have hread : s.reading = none := by
      cases hr : s.reading with
      | none => rfl
      | some x => exact nomatch hc.2.2.symm.trans (h x.1 x.2 hr).leads.1
    refine .ite ?_ (.keep h nofun rfl rfl rfl (fun _ hp => .inl hp) rfl)
    have hnone := (becomeLeader_reading config { s with
      volatile := { s.volatile with votes := insert m.voter s.volatile.votes } } {}).trans hread
    exact ⟨.unread hnone, .kept nofun (hnone.trans hread.symm) rfl⟩
  · exact .quiet h nofun rfl

/-- A write that keeps the term. -/
theorem staged {r : Node × Effects} {target : Durable} {after : List Outbound} {applyAfter : List Entry}
    {snapshots : List SnapshotNeeded} {kind : PersistKind}
    (write : r = beginWrite t e target after applyAfter false snapshots kind) (h : s.Served)
    (other : ∀ c, input ≠ .beginRead c) (reading : t.reading = s.reading) (frame : SendFrame s t)
    (quiet : e.read = none) (term : target.term = s.durable.term) : ReadTurn s input r := by
  rw [write]
  refine keep h other reading frame.role (congrArg Durable.term frame.durable) (fun p hp => ?_) quiet
  obtain rfl := Option.some.inj hp
  exact .inr ⟨rfl, term⟩

theorem clientPropose (h : s.Served) (command : String) :
    ReadTurn s (.clientPropose command) (clientPropose config s command) := by
  unfold Raft.clientPropose
  refine .ite (.quiet h nofun rfl) (.ite ?_ (.quiet h nofun rfl))
  exact staged rfl h nofun (foldl_reading (sendAppend_reading config _) _ _)
    (SendFrame.foldl (SendFrame.sendAppend config _) _ ⟨s, [], []⟩) rfl rfl

theorem heartbeatTimeout (h : s.Served) : ReadTurn s .heartbeatTimeout (heartbeatTimeout config s) := by
  unfold Raft.heartbeatTimeout
  refine .ite ?_ (.quiet h nofun rfl)
  have hframe := SendFrame.foldl (SendFrame.sendAgain config s.durable) s.volatile.peers.keys ⟨s, [], []⟩
  refine keep h nofun (foldl_reading (sendAgain_reading config _) _ _) hframe.role
    (congrArg Durable.term hframe.durable) (fun p hp => .inl ?_) rfl
  rw [← hframe.pending]
  exact hp

theorem recvSnapshotReply (h : s.Served) (m : SnapshotReply) :
    ReadTurn s (.recvSnapshotReply m) (recvSnapshotReply s m) := by
  unfold Raft.recvSnapshotReply
  exact .ite (.quiet h nofun rfl) (.ite (.lowered nofun rfl rfl)
    (.ite (.keep h nofun rfl rfl rfl (fun _ hp => .inl hp) rfl) (.quiet h nofun rfl)))

theorem recvAppendReply (h : s.Served) (m : AppendReply) :
    ReadTurn s (.recvAppendReply m) (recvAppendReply config s m) := by
  unfold Raft.recvAppendReply
  refine .ite (.quiet h nofun rfl) (.ite ?_ (.ite ?_ ?_))
  · -- The node has stepped down, so that no read is left to answer.
    dsimp only
    rcases completeRead_eq (adoptHigherTerm s m.term).1 (adoptHigherTerm s m.term).2 config with heq | ⟨b, hb, -⟩
    · rw [heq]
      exact .lowered nofun rfl rfl
    · cases hb
  · split
    · exact .quiet h nofun rfl
    · rename_i probe hprobe
      refine .ite (.quiet h nofun rfl) ?_
      dsimp only
      refine completeRead h nofun nofun ?_ ?_ (fun _ => ?_) ?_ rfl
      · by_cases hs : m.success = true
        · rw [if_pos hs]
          simp only [Node.reading, setProgress, setRead, Option.map_map]
          congr 1
          funext b
          simp only [Function.comp_apply, acknowledge]
          split <;> rfl
        · rw [if_neg hs]
          rfl
      all_goals split <;> simp [setProgress, setRead]
  · exact completeRead h nofun nofun rfl rfl (fun _ => rfl) (.inr rfl) rfl

theorem advanceCommit (h : s.Served) : ReadTurn s .advanceCommit (advanceCommit config s) := by
  unfold Raft.advanceCommit
  refine .ite ?_ (.quiet h nofun rfl)
  exact .ite (staged rfl h nofun rfl (.refl s) rfl rfl) (.quiet h nofun rfl)

theorem applyCommitted (h : s.Served) : ReadTurn s .applyCommitted (applyCommitted s) := by
  unfold Raft.applyCommitted
  exact .ite (staged rfl h nofun rfl (.refl s) rfl rfl) (.quiet h nofun rfl)

theorem compactCommitted (h : s.Served) : ReadTurn s .compactCommitted (compactCommitted s) := by
  unfold Raft.compactCommitted
  refine .ite (.quiet h nofun rfl) ?_
  split
  · exact .quiet h nofun rfl
  · exact staged rfl h nofun rfl (.refl s) rfl rfl

theorem cancelRead (h : s.Served) (c : RequestId) : ReadTurn s (.cancelRead c) (cancelRead s c) := by
  unfold Raft.cancelRead
  split
  · rename_i b hb
    split
    · rename_i hc
      exact ⟨.unread rfl, .ended b.context b.term _ nofun (Node.reading_some hb) rfl rfl hc.symm nofun⟩
    · exact .quiet h nofun rfl
  · exact .quiet h nofun rfl

theorem refuse (h : s.Served) (c : RequestId) {status : ReadStatus} (hs : status ≠ .ready) :
    ReadTurn s (.beginRead c) (s, { read := some { context := c, status } }) :=
  ⟨h, .refused c _ rfl rfl rfl rfl hs⟩

theorem beginRead (h : s.Served) (c : RequestId) : ReadTurn s (.beginRead c) (beginRead config s c) := by
  unfold Raft.beginRead
  split
  · exact refuse h c (by split <;> simp)
  · rename_i hidle
    split
    · exact refuse h c nofun
    · rename_i hfree
      split
      · exact refuse h c nofun
      · rename_i hrole
        refine .ite (refuse h c nofun) ?_
        rw [not_not] at hrole
        have hnone : s.reading = none := Node.reading_none.mpr (by simpa using hfree)
        dsimp only
        generalize hr : ReadBarrier.mk c s.durable.term s.durable.commit {config.self} .empty = b
        have hframe := SendFrame.foldl (SendFrame.sendAppend config s.durable) config.peers
          ⟨setRead s (some b), [], []⟩
        have hreading := foldl_reading (sendAppend_reading config s.durable) config.peers ⟨setRead s (some b), [], []⟩
        generalize config.peers.foldl (sendAppend config s.durable) ⟨setRead s (some b), [], []⟩ = x at hframe hreading
        have hleads : Leads x.state s.durable.term :=
          ⟨hframe.role.trans hrole, congrArg Durable.term hframe.durable⟩
        have hsome : x.state.reading = some (c, s.durable.term) := by
          rw [hreading, ← hr]
          rfl
        rcases completeRead_eq x.state { sendNow := x.out, snapshotNeeded := x.snapshots } config with
          heq | ⟨b', hb', -, hterm, -, -, heq⟩
        · rw [heq]
          refine ⟨fun c' T hr' => ?_, .admitted c rfl hnone ⟨hrole, rfl⟩ hsome rfl⟩
          obtain ⟨-, rfl⟩ := Prod.mk.inj (Option.some.inj (hsome.symm.trans hr'))
          refine ⟨hleads, fun p hp => ?_⟩
          exact nomatch (hframe.pending.trans (idle_of_not hidle).2).symm.trans hp
        · rw [heq]
          obtain ⟨hctx, hT⟩ := Prod.mk.inj (Option.some.inj (hsome.symm.trans (Node.reading_some hb')))
          exact ⟨.unread rfl, .served c _ rfl hnone rfl rfl hctx.symm ⟨hrole, hT⟩
            ⟨hleads.1, hleads.2.trans hT⟩⟩

theorem persistCompleted (h : s.Served) (token : PersistToken) :
    ReadTurn s (.persistCompleted token) (persistCompleted config s token) := by
  unfold Raft.persistCompleted
  split
  · exact .quiet h nofun rfl
  · rename_i p hp
    refine .ite ?_ (.quiet h nofun rfl)
    dsimp only
    by_cases hfree : s.reading = none
    · -- A node without a read may become leader.
      have hnone : s.volatile.read = none := Node.reading_none.mp hfree
      have heq : ∀ e, Raft.completeRead config { s with pending := none, durable := p.target } e =
          ({ s with pending := none, durable := p.target }, e) := fun e => by
        unfold Raft.completeRead
        simp [hnone]
      have hkeep : ∀ r : Node × Effects, r.1.reading = s.reading → r.2.read = none →
          ReadTurn s (.persistCompleted token) r := fun r hr hq =>
        ⟨.unread (hr.trans hfree), .kept nofun hr hq⟩
      rw [heq]
      refine .ite (.ite ?_ (hkeep _ rfl rfl)) (hkeep _ rfl rfl)
      exact hkeep _ (becomeLeader_reading config _ _) rfl
    · obtain ⟨x, hx⟩ := Option.ne_none_iff_exists'.mp hfree
      obtain ⟨hself, hterm⟩ := (h x.1 x.2 hx).staged p hp
      rw [hself]
      exact completeRead h nofun nofun rfl rfl (fun _ => hterm) (.inl rfl) rfl

/-- Every step of a node whose states are valid. -/
theorem step (h : s.Served) (valid : s.durable.valid = true)
    (staged : ∀ p, s.pending = some p → p.target.valid = true) (input : Input) :
    ReadTurn s input (step config s input) := by
  unfold Raft.step
  split
  · rename_i hbad
    simp only [valid, Bool.not_true, Bool.false_or, Option.any_eq_true, Bool.not_eq_true'] at hbad
    obtain ⟨p, hp, hinvalid⟩ := hbad
    exact nomatch hinvalid.symm.trans (staged p hp)
  cases input with
  | persistCompleted token => exact persistCompleted h token
  | persistFailed token =>
    dsimp only
    unfold Raft.persistFailed
    split
    · exact .quiet h nofun rfl
    · exact .ite (failStop nofun) (.quiet h nofun rfl)
  | restart =>
    exact dropped nofun rfl (f := fun b => { context := b.context, status := .cancelled }) (fun _ => rfl)
      (fun _ => nofun) rfl
  | cancelRead c => exact cancelRead h c
  | beginRead c => exact beginRead h c
  | electionTimeout => exact .ite (.quiet h nofun rfl) (electionTimeout h)
  | heartbeatTimeout => exact .ite (.quiet h nofun rfl) (heartbeatTimeout h)
  | clientPropose command => exact .ite (.quiet h nofun rfl) (clientPropose h command)
  | recvRequestVote m => exact .ite (.quiet h nofun rfl) (recvRequestVote h m)
  | recvVoteReply m => exact .ite (.quiet h nofun rfl) (recvVoteReply h m)
  | recvAppend m => exact .ite (.quiet h nofun rfl) (recvAppend h m)
  | recvAppendReply m => exact .ite (.quiet h nofun rfl) (recvAppendReply h m)
  | advanceCommit => exact .ite (.quiet h nofun rfl) (advanceCommit h)
  | applyCommitted => exact .ite (.quiet h nofun rfl) (applyCommitted h)
  | compactCommitted => exact .ite (.quiet h nofun rfl) (compactCommitted h)
  | recvSnapshot m => exact .ite (.quiet h nofun rfl) (recvSnapshot h m)
  | recvSnapshotReply m => exact .ite (.quiet h nofun rfl) (recvSnapshotReply h m)

end ReadTurn

/-! ### Runs -/

/-- The context of the read that an input begins. -/
def Input.begins : Input → Option RequestId
  | .beginRead c => some c
  | _ => none

theorem Input.begins_eq_none (h : ∀ c, input ≠ .beginRead c) : input.begins = none := by
  cases input with
  | beginRead c => exact absurd rfl (h c)
  | _ => rfl

/-- The contexts of the reads that were begun, in order. -/
def begun (inputs : List Input) : List RequestId := inputs.filterMap Input.begins

theorem begun_cons (input : Input) (inputs : List Input) :
    begun (input :: inputs) = input.begins.toList ++ begun inputs := by
  unfold begun
  cases hb : input.begins with
  | none => simp [hb]
  | some c => simp [hb]

/-- The context of the outstanding read. -/
def Node.outstanding (s : Node) : Option RequestId := s.reading.map Prod.fst

/-- The read results that a node produces on the way, in order. -/
def outcomes (config : Config) : Node → List Input → List ReadResult
  | _, [] => []
  | s, input :: inputs => (step config s input).2.read.toList ++ outcomes config (step config s input).1 inputs

/-- The node after further inputs. -/
def Node.after (config : Config) (s : Node) (inputs : List Input) : Node :=
  inputs.foldl (fun s input => (step config s input).1) s

/-- What is answered or left outstanding was outstanding or is begun. -/
theorem ReadMove.balanced {r : Node × Effects} (h : ReadMove s input r) :
    (r.2.read.toList.map (·.context) ++ r.1.outstanding.toList).Perm (s.outstanding.toList ++ input.begins.toList) := by
  unfold Node.outstanding
  cases h with
  | kept other same quiet => simp [quiet, same, Input.begins_eq_none other]
  | refused c x begins same answer context status =>
    subst begins context
    rw [answer, same]
    exact List.perm_append_comm
  | admitted c begins free leads reading quiet =>
    subst begins
    simp [quiet, reading, free, Input.begins]
  | served c x begins free done answer context leads still =>
    subst begins context
    simp [answer, done, free, Input.begins]
  | ended c T x other reading done answer context ready => simp [answer, done, reading, context, Input.begins_eq_none other]

/-- A node of a run, with its reads in order. -/
structure Reading (config : Config) (s : Node) : Prop where
  ruled : Ruled config s
  served : s.Served

namespace Reading

theorem turn (h : Reading config s) (input : Input) : ReadTurn s input (Raft.step config s input) :=
  ReadTurn.step h.served h.ruled.valid.1 h.ruled.valid.2 input

theorem step (h : Reading config s) (fits : input.Fits) : Reading config (Raft.step config s input).1 :=
  ⟨h.ruled.step fits, (h.turn input).served⟩

theorem initial (config : Config) : Reading config (initial config) := ⟨.initial config, .unread rfl⟩

theorem after (h : Reading config s) (inputs : List Input) (fits : ∀ i ∈ inputs, i.Fits) :
    Reading config (s.after config inputs) := by
  induction inputs generalizing s with
  | nil => exact h
  | cons input inputs ih =>
    exact ih (h.step (fits input List.mem_cons_self)) fun i hi => fits i (List.mem_cons_of_mem _ hi)

theorem run (inputs : List Input) (fits : ∀ i ∈ inputs, i.Fits) : Reading config (run config inputs) :=
  (initial config).after inputs fits

/-- Reads are neither lost nor answered twice. -/
theorem balanced (h : Reading config s) (inputs : List Input) (fits : ∀ i ∈ inputs, i.Fits) :
    ((outcomes config s inputs).map (·.context) ++ (s.after config inputs).outstanding.toList).Perm
      (s.outstanding.toList ++ begun inputs) := by
  induction inputs generalizing s with
  | nil => simp [outcomes, Node.after, begun]
  | cons input inputs ih =>
    have hstep := (h.turn input).move.balanced
    have hrest := ih (h.step (fits input List.mem_cons_self)) fun i hi => fits i (List.mem_cons_of_mem _ hi)
    rw [outcomes, List.map_append, List.append_assoc, begun_cons, ← List.append_assoc s.outstanding.toList]
    exact (hrest.append_left _).trans (by
      rw [← List.append_assoc]
      exact hstep.append_right _)

/-- A context that is not waited for and not begun again gets no answer. -/
theorem unanswered (h : Reading config s) {inputs : List Input} (fits : ∀ i ∈ inputs, i.Fits) {c : RequestId}
    (idle : s.outstanding ≠ some c) (other : c ∉ begun inputs) {x : ReadResult} (hx : x ∈ outcomes config s inputs) :
    x.context ≠ c := by
  rintro rfl
  have hmem := (h.balanced inputs fits).subset (List.mem_append_left _ (List.mem_map_of_mem hx))
  rcases List.mem_append.mp hmem with hmem | hmem
  · exact idle (Option.mem_toList.mp hmem)
  · exact other hmem

end Reading

/-! ### Continuous leadership -/

/-- Read `c` was begun in the run, and the node has led term `T` from then on. -/
def LedSince (config : Config) (inputs : List Input) (c : RequestId) (T : Nat) : Prop :=
  ∃ front middle, inputs = front ++ .beginRead c :: middle ∧ Leads (run config front) T ∧
    ∀ l, l <+: middle → Leads (run config (front ++ .beginRead c :: l)) T

theorem LedSince.start {front : List Input} {c : RequestId} {T : Nat} (led : Leads (run config front) T)
    (leads : Leads (run config (front ++ [.beginRead c])) T) : LedSince config (front ++ [.beginRead c]) c T := by
  refine ⟨front, [], rfl, led, fun l hl => ?_⟩
  rw [List.prefix_nil.mp hl]
  exact leads

theorem LedSince.concat {inputs : List Input} {c : RequestId} {T : Nat} (h : LedSince config inputs c T)
    (leads : Leads (run config (inputs ++ [input])) T) : LedSince config (inputs ++ [input]) c T := by
  obtain ⟨front, middle, rfl, hfront, hmiddle⟩ := h
  refine ⟨front, middle ++ [input], by simp, hfront, fun l hl => ?_⟩
  rcases List.prefix_concat_iff.mp hl with rfl | hl
  · simpa using leads
  · exact hmiddle l hl

/-- The outstanding read of a run. -/
theorem ledSince_reading (inputs : List Input) (fits : ∀ i ∈ inputs, i.Fits) {c : RequestId} {T : Nat}
    (h : (run config inputs).reading = some (c, T)) : LedSince config inputs c T := by
  induction inputs using List.reverseRecOn with
  | nil => cases h
  | append_singleton inputs input ih =>
    have hafter : Reading config (run config (inputs ++ [input])) := .run _ fits
    have hleads := (hafter.served c T h).leads
    have hfits : ∀ i ∈ inputs, i.Fits := fun i hi => fits i (List.mem_append_left _ hi)
    have hbefore : Reading config (run config inputs) := .run inputs hfits
    rw [run_concat] at h
    cases (hbefore.turn input).move with
    | kept other same quiet => exact (ih hfits (same ▸ h)).concat hleads
    | refused c' x begins same answer context status => exact (ih hfits (same ▸ h)).concat hleads
    | admitted c' begins free leads reading quiet =>
      obtain ⟨rfl, rfl⟩ := Prod.mk.inj (Option.some.inj (reading.symm.trans h))
      subst begins
      exact .start leads hleads
    | served c' x begins free done answer context leads still => exact nomatch done.symm.trans h
    | ended c' T' x other reading done answer context ready => exact nomatch done.symm.trans h

/-- A ready result. -/
theorem ledSince_ready {inputs : List Input} (fits : ∀ i ∈ inputs ++ [input], i.Fits) {x : ReadResult}
    (hx : (step config (run config inputs) input).2.read = some x) (ready : x.status = .ready) :
    LedSince config (inputs ++ [input]) x.context x.term := by
  have hfits : ∀ i ∈ inputs, i.Fits := fun i hi => fits i (List.mem_append_left _ hi)
  have hbefore : Reading config (run config inputs) := .run inputs hfits
  cases (hbefore.turn input).move with
  | kept other same quiet => exact nomatch quiet.symm.trans hx
  | refused c y begins same answer context status =>
    obtain rfl := Option.some.inj (answer.symm.trans hx)
    exact absurd ready status
  | admitted c begins free leads reading quiet => exact nomatch quiet.symm.trans hx
  | served c y begins free done answer context leads still =>
    obtain rfl := Option.some.inj (answer.symm.trans hx)
    subst begins context
    exact .start leads (run_concat config inputs _ ▸ still)
  | ended c T y other reading done answer context hready =>
    obtain rfl := Option.some.inj (answer.symm.trans hx)
    obtain ⟨rfl, hleads, -⟩ := hready ready
    subst context
    exact (ledSince_reading inputs hfits reading).concat (run_concat config inputs _ ▸ hleads)

/-! ### The end of a read -/

/-- The input ends the service of read `c`: it cancels the read, restarts the node, fails the write in flight, or
    makes a leader step down. -/
inductive Stops (config : Config) (s : Node) (c : RequestId) : Input → Prop
  | cancelled : Stops config s c (.cancelRead c)
  | restarted : Stops config s c .restart
  | failed (p : PendingWrite) (live : s.halted = false) (pending : s.pending = some p) :
      Stops config s c (.persistFailed p.token)
  | steppedDown (input : Input) (led : s.volatile.role = .leader)
      (lowered : (step config s input).1.volatile.role ≠ .leader) : Stops config s c input

theorem Stops.cases {c : RequestId} (h : Stops config s c input) :
    input = .cancelRead c ∨ (step config s input).1.volatile.role ≠ .leader := by
  cases h with
  | cancelled => exact .inl rfl
  | restarted =>
    right
    unfold step
    split
    · nofun
    · nofun
  | failed p live pending =>
    right
    unfold step
    split
    · nofun
    · simp [persistFailed, pending, live]
  | steppedDown input led lowered => exact .inr lowered

theorem step_cancelRead_reading (config : Config) (s : Node) (c : RequestId) (T : Nat) :
    (step config s (.cancelRead c)).1.reading ≠ some (c, T) := by
  unfold step
  split
  · nofun
  · dsimp only
    unfold cancelRead
    split
    · rename_i b hb
      split
      · nofun
      · rename_i hc
        rw [Node.reading_some hb]
        exact fun heq => hc (Prod.mk.inj (Option.some.inj heq)).1
    · rename_i hb
      rw [Node.reading_none.mpr hb]
      nofun

/-- From there on the read is never ready. -/
theorem Reading.stopped (h : Reading config s) {c : RequestId} {stop : Input} {after : List Input}
    (stops : Stops config s c stop) (fits : ∀ i ∈ stop :: after, i.Fits) (once : c ∉ begun (stop :: after)) :
    ∀ x ∈ outcomes config s (stop :: after), x.context = c → x.status ≠ .ready := by
  intro x hx hc hready
  have hother : stop ≠ .beginRead c := by
    rintro rfl
    exact once (by simp [begun, Input.begins])
  have hrest : c ∉ begun after := fun hmem => once (by
    obtain ⟨i, hi, hb⟩ := List.mem_filterMap.mp hmem
    exact List.mem_filterMap.mpr ⟨i, List.mem_cons_of_mem _ hi, hb⟩)
  have hturn := h.turn stop
  rcases List.mem_append.mp hx with hx | hx
  · -- The answer of the stopping input itself.
    have hx : (Raft.step config s stop).2.read = some x := Option.mem_toList.mp hx
    cases hturn.move with
    | kept other same quiet => exact nomatch quiet.symm.trans hx
    | refused c' y begins same answer context status =>
      obtain rfl := Option.some.inj (answer.symm.trans hx)
      exact status hready
    | admitted c' begins free leads reading quiet => exact nomatch quiet.symm.trans hx
    | served c' y begins free done answer context leads still =>
      obtain rfl := Option.some.inj (answer.symm.trans hx)
      exact hother (begins.trans (by rw [← context, hc]))
    | ended c' T y other reading done answer context ready =>
      obtain rfl := Option.some.inj (answer.symm.trans hx)
      obtain ⟨-, hleads, hcancel⟩ := ready hready
      rcases stops.cases with hstop | hstop
      · exact hcancel (by rw [hstop, ← hc, context])
      · exact hstop hleads.1
  · -- The read is not outstanding any more.
    refine (h.step (fits stop List.mem_cons_self)).unanswered (fun i hi => fits i (List.mem_cons_of_mem _ hi)) ?_ hrest hx hc
    intro hout
    obtain ⟨⟨c', T⟩, hreading, rfl⟩ := Option.map_eq_some_iff.mp hout
    rcases stops.cases with hstop | hstop
    · rw [hstop] at hreading
      exact step_cancelRead_reading config s _ T hreading
    · exact hstop (hturn.served _ T hreading).leads.1

/-! ### The lifecycle -/

/-- A context occurs once, either among the answers or as the outstanding read. -/
theorem once_of_perm {answered : List RequestId} {waiting : Option RequestId} {all : List RequestId}
    (h : (answered ++ waiting.toList).Perm all) (distinct : all.Nodup) {c : RequestId} (hc : c ∈ all) :
    answered.count c = 1 ∧ waiting ≠ some c ∨ answered.count c = 0 ∧ waiting = some c := by
  have hcount : (answered ++ waiting.toList).count c = 1 := by
    rw [h.count_eq]
    exact List.count_eq_one_of_mem distinct hc
  rw [List.count_append] at hcount
  by_cases hw : waiting = some c
  · subst hw
    refine .inr ⟨?_, rfl⟩
    simpa using hcount
  · have hnot : waiting.toList.count c = 0 := List.count_eq_zero.mpr fun hm => hw (Option.mem_toList.mp hm)
    exact .inl ⟨by omega, hw⟩

theorem unanswered_length_le {answered : List RequestId} {waiting : Option RequestId} {all : List RequestId}
    (h : (answered ++ waiting.toList).Perm all) (distinct : all.Nodup) :
    (all.filter fun c => c ∉ answered).length ≤ 1 := by
  have hsub : ∀ c ∈ all.filter (fun c => c ∉ answered), c ∈ waiting.toList := by
    intro c hc
    obtain ⟨hall, hno⟩ := List.mem_filter.mp hc
    rcases List.mem_append.mp (h.symm.subset hall) with hm | hm
    · exact absurd hm (by simpa using hno)
    · exact hm
  have hlen := (List.subperm_of_subset (distinct.filter _) hsub).length_le
  cases waiting with
  | none => exact hlen.trans (Nat.zero_le 1)
  | some c => exact hlen

/-- The lifecycle of reads, over every run whose read contexts are distinct. Each read that was begun has been
    answered once or is the outstanding one, and at most one is; a ready result is one of a node that has led its
    term since the admission; and a read whose service was ended never becomes ready. -/
theorem read_lifecycle (config : Config) (inputs : List Input) (fits : ∀ i ∈ inputs, i.Fits)
    (distinct : (begun inputs).Nodup) :
    let answered := (outcomes config (initial config) inputs).map (·.context)
    let waiting := (run config inputs).outstanding
    (∀ c ∈ begun inputs, answered.count c = 1 ∧ waiting ≠ some c ∨ answered.count c = 0 ∧ waiting = some c) ∧
    (∀ c, c ∈ answered ∨ waiting = some c → c ∈ begun inputs) ∧
    ((begun inputs).filter fun c => c ∉ answered).length ≤ 1 ∧
    (∀ before input after, inputs = before ++ input :: after →
      ∀ x, (step config (run config before) input).2.read = some x → x.status = .ready →
        LedSince config (before ++ [input]) x.context x.term) ∧
    ∀ before stop after, inputs = before ++ stop :: after → ∀ c ∈ begun before, Stops config (run config before) c stop →
      ∀ x ∈ outcomes config (run config before) (stop :: after), x.context = c → x.status ≠ .ready := by
  have hperm := (Reading.initial config).balanced inputs fits
  have hperm : ((outcomes config (initial config) inputs).map (·.context) ++
      (run config inputs).outstanding.toList).Perm (begun inputs) := hperm
  refine ⟨fun c hc => once_of_perm hperm distinct hc, fun c hc => hperm.subset ?_, unanswered_length_le hperm distinct,
    ?_, ?_⟩
  · rcases hc with hc | hc
    · exact List.mem_append_left _ hc
    · exact List.mem_append_right _ (Option.mem_toList.mpr hc)
  · rintro before input after rfl x hx hready
    exact ledSince_ready (fun i hi => fits i (by simp only [List.mem_append, List.mem_cons] at hi ⊢; tauto)) hx hready
  · rintro before stop after rfl c hc hstops
    have hsplit : begun (before ++ stop :: after) = begun before ++ begun (stop :: after) := List.filterMap_append
    rw [hsplit, List.nodup_append] at distinct
    exact (Reading.run before fun i hi => fits i (List.mem_append_left _ hi)).stopped hstops
      (fun i hi => fits i (List.mem_append_right _ hi)) fun hmem => distinct.2.2 c hc c hmem rfl

/-- A node on its own is elected, commits an entry, and answers a read when it has applied the entry; the next read
    is answered at once, and one after a restart is refused. -/
def soloReads : List Input :=
  [.electionTimeout, .persistCompleted 1, .clientPropose "entry", .persistCompleted 2, .advanceCommit,
    .persistCompleted 3, .beginRead 7, .applyCommitted, .persistCompleted 4, .beginRead 8, .restart, .beginRead 9]

theorem read_lifecycle_solo :
    (outcomes { self := "n", peers := [] } (initial { self := "n", peers := [] }) soloReads).map (fun x => (x.context, x.status)) =
      [(7, .ready), (8, .ready), (9, .notLeader)] ∧
    LedSince { self := "n", peers := [] } (soloReads.take 9) 7 1 := by
  refine ⟨by decide +kernel, ?_⟩
  have hfits : ∀ i ∈ soloReads, i.Fits := by simp [soloReads, Input.Fits]
  exact (read_lifecycle { self := "n", peers := [] } soloReads hfits (by decide)).2.2.2.1 (soloReads.take 8)
    (.persistCompleted 4) (soloReads.drop 9) rfl { context := 7, status := .ready, term := 1, index := 1 }
    (by decide +kernel) rfl

end Choreolog.Raft
