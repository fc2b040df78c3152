import Choreolog.Theorems.Shows

/-! # The simulation relation

A cluster of transition cores implements the abstract ledger: the ledger's nodes are the durable states of
the members, their full logs included. What is in flight is tied to the ledger by what it asserts: a
message on the network, a snapshot offer, a staged write with the messages that wait for it, a
candidate's tally and a leader's progress records. All these assertions are stable: they survive
whatever other members do. -/

namespace Choreolog.Raft
open Lib Lib.Ledger Function

/-- The abstract state that a cluster implements. -/
abbrev Spec := Lib.Ledger.State String Entry

def Membership.quorums (M : Membership) : Quorums String := majorities M.members

/-! ### Moves of one node -/

/-- What the moves of other nodes leave of node `n`. -/
structure Frame (n : String) (a b : Spec) : Prop where
  term : b.term n = a.term n
  vote : b.vote n = a.vote n
  log : b.log n = a.log n
  commit : b.commit n = a.commit n
  book : ∀ T, a.leader T = some n → b.book T = a.book T
  leader : ∀ T, b.leader T = some n → a.leader T = some n

/-- `b` follows from `a` by ledger updates of node `n`. -/
structure Moves (q : Quorums String) (n : String) (a b : Spec) : Prop where
  steps : Relation.ReflTransGen (Ledger.Step q) a b
  frame : ∀ m, m ≠ n → Frame m a b

theorem Frame.refl (n : String) (a : Spec) : Frame n a a := ⟨rfl, rfl, rfl, rfl, fun _ _ => rfl, fun _ h => h⟩

theorem Frame.trans {n : String} {a b d : Spec} (f : Frame n a b) (f' : Frame n b d)
    (g : ∀ {T}, a.leader T = some n → b.leader T = some n) : Frame n a d where
  term := f'.term.trans f.term
  vote := f'.vote.trans f.vote
  log := f'.log.trans f.log
  commit := f'.commit.trans f.commit
  book T h := (f'.book T (g h)).trans (f.book T h)
  leader T h := f.leader T (f'.leader T h)

section Steps
variable {q : Quorums String} {a b : Spec}

theorem steps_inv (h : Inv q a) (st : Relation.ReflTransGen (Ledger.Step q) a b) : Inv q b := by
  induction st with
  | refl => exact h
  | tail _ st ih => exact st.inv ih

theorem steps_grows (h : Inv q a) (st : Relation.ReflTransGen (Ledger.Step q) a b) : Grows a b := by
  induction st with
  | refl => exact Grows.refl a
  | tail hs st ih => exact ih.trans (st.grows (steps_inv h hs))

end Steps

namespace Moves
variable {q : Quorums String} {n : String} {a b d : Spec}

theorem refl (q : Quorums String) (n : String) (a : Spec) : Moves q n a a := ⟨.refl, fun m _ => Frame.refl m a⟩

theorem inv (h : Inv q a) (m : Moves q n a b) : Inv q b := steps_inv h m.steps

theorem grows (h : Inv q a) (m : Moves q n a b) : Grows a b := steps_grows h m.steps

theorem trans (h : Inv q a) (m : Moves q n a b) (m' : Moves q n b d) : Moves q n a d where
  steps := m.steps.trans m'.steps
  frame v hv := (m.frame v hv).trans (m'.frame v hv) (m.grows h).leader

theorem raise {T : Nat} (newer : a.term n < T) :
    Moves q n a { a with term := update a.term n T, vote := update a.vote n none } :=
  ⟨.single (.raise n T newer), fun _ hv => ⟨by simp [hv], by simp [hv], rfl, rfl, fun _ _ => rfl, fun _ h => h⟩⟩

theorem grant {c : String} (free : a.vote n = none) (eligible : c = n ∨ Eligible a c (a.term n) (a.log n)) :
    Moves q n a { a with
      vote := update a.vote n (some c)
      ballots := insert ⟨n, a.term n, c, a.log n, a.leader (a.term n) = none⟩ a.ballots } :=
  ⟨.single (.grant n c free eligible), fun _ hv => ⟨rfl, by simp [hv], rfl, rfl, fun _ _ => rfl, fun _ h => h⟩⟩

theorem elect {Q : Finset String} (free : a.leader (a.term n) = none) (pos : 0 < a.term n)
    (own : Voted a n (a.term n) n (a.log n)) (quorum : q.IsQuorum Q) (votes : ∀ v ∈ Q, ∃ L, Voted a v (a.term n) n L) :
    Moves q n a { a with
      leader := update a.leader (a.term n) (some n)
      base := update a.base (a.term n) (a.log n)
      book := update a.book (a.term n) (a.log n) } := by
  refine ⟨.single (.elect n Q free pos own quorum votes), fun v hv => ⟨rfl, rfl, rfl, rfl, fun T hT => ?_, fun T hT => ?_⟩⟩
  · have : T ≠ a.term n := fun he => by simp [he, free] at hT
    simp [this]
  · by_cases he : T = a.term n
    · subst he
      simp only [update_self, Option.some.injEq] at hT
      exact absurd hT.symm hv
    · simpa [he] using hT

theorem extend {e : Entry} (led : a.leader e.term = some n) :
    Moves q n a { a with book := update a.book e.term (a.book e.term ++ [e]) } := by
  refine ⟨.single (.extend e (by simp [stamped_term, led])), fun v hv => ⟨rfl, rfl, rfl, rfl, fun T hT => ?_, fun _ h => h⟩⟩
  have : T ≠ e.term := fun he => by
    rw [he, led] at hT
    exact hv (Option.some.inj hT).symm
  simp [this]

theorem adopt {L : List Entry} (led : a.leader (a.term n) ≠ none) (sub : L <+: a.book (a.term n))
    (keeps : Keeps (a.book (a.term n)) (a.log n) L) : Moves q n a { a with log := update a.log n L } :=
  ⟨.single (.adopt n L led sub keeps), fun _ hv => ⟨rfl, rfl, by simp [hv], rfl, fun _ _ => rfl, fun _ h => h⟩⟩

theorem ack {k : Nat} (led : a.leader (a.term n) ≠ none) (length : k ≤ (a.book (a.term n)).length)
    (held : (a.book (a.term n)).take k <+: a.log n) :
    Moves q n a { a with acks := a.acks ∪ { x | ∃ i ≤ k, x = (n, a.term n, i) } } :=
  ⟨.single (.ack n k led length held), fun _ _ => ⟨rfl, rfl, rfl, rfl, fun _ _ => rfl, fun _ h => h⟩⟩

theorem sealTo {k : Nat} (led : a.leader (a.term n) = some n) (later : a.commit n ≤ k)
    (held : (a.book (a.term n)).take k <+: a.log n) (chosen : Chosen q a (a.term n) k) :
    Moves q n a { a with commit := update a.commit n k, sealed := update a.sealed (a.term n) k } :=
  ⟨.single (.seal n k led later held chosen), fun _ hv => ⟨rfl, rfl, rfl, by simp [hv], fun _ _ => rfl, fun _ h => h⟩⟩

theorem learn {k : Nat} (later : a.commit n ≤ k) (length : k ≤ (a.log n).length)
    (committed : Committed a (a.term n) ((a.log n).take k)) :
    Moves q n a { a with commit := update a.commit n k } :=
  ⟨.single (.learn n k later length committed), fun _ hv => ⟨rfl, rfl, rfl, by simp [hv], fun _ _ => rfl, fun _ h => h⟩⟩

end Moves

/-! ### What messages assert -/

/-- A durable state is the present state of a ledger node. -/
structure Holds (a : Spec) (n : String) (d : Durable) : Prop where
  term : a.term n = d.term
  vote : a.vote n = d.votedFor
  commit : a.commit n = d.commit
  log : Shows (a.log n) d

/-- A stretch of a book: the entries after `prev`, where the book has term `prevTerm`. -/
structure Excerpt (B : List Entry) (prev prevTerm : Nat) (entries : List Entry) : Prop where
  length : prev + entries.length ≤ B.length
  boundary : prevTerm = lastTerm (B.take prev)
  entries : entries = (B.drop prev).take entries.length

/-- The first `k` entries of the book of `T` are committed. -/
structure Settled (a : Spec) (T k : Nat) : Prop where
  length : k ≤ (a.book T).length
  committed : Committed a T ((a.book T).take k)

/-- A leader's request quotes its book and knows a committed prefix of it. -/
structure AppendOk (a : Spec) (m : AppendEntries) : Prop where
  led : a.leader m.term = some m.leader
  excerpt : Excerpt (a.book m.term) m.prevIndex m.prevTerm m.entries
  settled : Settled a m.term m.leaderCommit

/-- An offered boundary is a committed index of the leader's book. -/
structure OfferOk (a : Spec) (o : Offer) : Prop where
  led : a.leader o.term = some o.leader
  boundary : o.snapshotTerm = lastTerm ((a.book o.term).take o.index)
  settled : Settled a o.term o.index

/-- `n` has held the first `k` entries of the book of `T` in that term. -/
def Acked (a : Spec) (n : String) (T k : Nat) : Prop := ∀ i ≤ k, (n, T, i) ∈ a.acks

/-- The request that a reply answers. -/
def Answers (net : List Outbound) (leader : String) (m : AppendReply) : Prop :=
  ∃ x, ⟨m.follower, .appendEntries x⟩ ∈ net ∧ x.leader = leader ∧ x.term = m.term ∧ x.requestId = m.requestId ∧
    x.prevIndex + x.entries.length = m.matched

/-- What a message on the network asserts. -/
def MsgOk (a : Spec) (net : List Outbound) (o : Outbound) : Prop :=
  match o.message with
  | .requestVote m => ∃ L, Voted a m.candidate m.term m.candidate L ∧ m.lastIndex = L.length ∧ m.lastTerm = lastTerm L
  | .voteReply m => m.granted = true → ∃ L, Voted a m.voter m.term o.dest L
  | .appendEntries m => AppendOk a m
  | .appendReply m => m.success = true → Acked a m.follower m.term m.matched ∧ Answers net o.dest m
  | .snapshotReply m => m.success = true → Acked a m.follower m.term m.index

/-! ### Staged writes -/

/-- A vote in the target of a write that the old state does not have. -/
structure Casts (a : Spec) (n : String) (d t : Durable) (c : String) : Prop where
  vote : t.votedFor = some c
  free : d.term < t.term ∨ d.votedFor = none
  eligible : c = n ∨ Eligible a c t.term (a.log n)

/-- The leader `n` raises its own commit index to what a quorum has acknowledged. -/
structure Seals (q : Quorums String) (a : Spec) (n : String) (d t : Durable) (L : List Entry) : Prop where
  led : a.leader t.term = some n
  term : t.term = d.term
  log : L = a.log n
  held : (a.book t.term).take t.commit <+: a.log n
  chosen : Chosen q a t.term t.commit

/-- `n` takes a prefix of the book of the term of `t`. -/
structure Adopts (a : Spec) (n : String) (t : Durable) (L : List Entry) : Prop where
  led : a.leader t.term ≠ none
  sub : L <+: a.book t.term
  keeps : Keeps (a.book t.term) (a.log n) L

/-- The leader `n` appends an entry to its own log, which is the whole book so far. -/
structure Appends (a : Spec) (n : String) (d t : Durable) (L : List Entry) : Prop where
  led : a.leader t.term = some n
  term : t.term = d.term
  book : a.log n = a.book t.term
  entry : ∃ e, e.term = t.term ∧ L = a.log n ++ [e]

/-- A write of target `t`, with full log `L`, over the durable state `d` of `n` is made of ledger updates. -/
structure WriteOk (q : Quorums String) (a : Spec) (n : String) (d t : Durable) (L : List Entry) (kind : PersistKind) :
    Prop where
  shows_ : Shows L t
  term : d.term ≤ t.term
  vote : t.votedFor = (if d.term < t.term then none else d.votedFor) ∨ ∃ c, Casts a n d t c
  log : L = a.log n ∨ Adopts a n t L ∨ Appends a n d t L
  commit : d.commit ≤ t.commit ∧ t.commit ≤ L.length
  committed : t.commit = d.commit ∨ Committed a t.term (L.take t.commit) ∨ Seals q a n d t L
  ordinary : kind = .stateUpdate → t.snapshotIndex = d.snapshotIndex ∧ t.snapshotTerm = d.snapshotTerm

/-- A request of leader `n` in term `T` quotes the log `B`. -/
structure Quoted (a : Spec) (n : String) (T : Nat) (B : List Entry) (m : AppendEntries) : Prop where
  leader : m.leader = n
  term : m.term = T
  excerpt : Excerpt B m.prevIndex m.prevTerm m.entries
  settled : Settled a T m.leaderCommit

/-- What a message that waits for a write will assert once the target is durable. -/
def QueuedOk (a : Spec) (net : List Outbound) (n : String) (t : Durable) (L : List Entry) (o : Outbound) : Prop :=
  match o.message with
  | .requestVote m => m.candidate = n ∧ m.term = t.term ∧ t.votedFor = some n ∧ L = a.log n ∧
      m.lastIndex = L.length ∧ m.lastTerm = lastTerm L
  | .voteReply m => m.granted = true → m.voter = n ∧ m.term = t.term ∧ t.votedFor = some o.dest
  | .appendEntries m => a.term n = t.term ∧ a.leader t.term = some n ∧ a.log n = a.book t.term ∧ Quoted a n t.term L m
  | .appendReply m => m.success = true → m.follower = n ∧ m.term = t.term ∧ a.leader t.term ≠ none ∧
      m.matched ≤ (a.book t.term).length ∧ (a.book t.term).take m.matched <+: L ∧ Answers net o.dest m
  | .snapshotReply m => m.success = true → m.follower = n ∧ m.term = t.term ∧ a.leader t.term ≠ none ∧
      m.index ≤ (a.book t.term).length ∧ (a.book t.term).take m.index <+: L

/-- What a pending write promises about the effects that wait for it and about the role of its node. -/
structure Queued (a : Spec) (net : List Outbound) (n : String) (s : Node) (p : PendingWrite) (L : List Entry) : Prop where
  after : ∀ o ∈ p.after, QueuedOk a net n p.target L o
  requests : ∀ o ∈ p.after, (p.selfVote = true ↔ ∃ m, o.message = .requestVote m)
  selfVote : p.selfVote = true → s.volatile.role = .candidate ∧ s.volatile.votes = ∅ ∧ s.durable.term < p.target.term ∧
    p.target.votedFor = some n ∧ L = a.log n
  active : p.selfVote = false → s.volatile.role ≠ .follower →
    p.target.term = s.durable.term ∧ p.target.votedFor = s.durable.votedFor
  candidate : p.selfVote = false → s.volatile.role = .candidate → L = a.log n
  snapshots : ∀ r ∈ p.snapshotAfter, s.volatile.role = .leader ∧ OfferOk a (Cluster.offerOf n s.durable.term r)
  apply : p.applyAfter = [] ∨ ∃ e, p.applyAfter = [e] ∧ s.durable.entryAt p.target.applied = some e ∧
    p.target.applied ≤ s.durable.commit

/-! ### Roles -/

/-- A candidate voted for itself with its present log, and its tally consists of votes for it. -/
structure Standing (M : Membership) (a : Spec) (n : String) (s : Node) : Prop where
  pos : 0 < s.durable.term
  own : Voted a n s.durable.term n (a.log n)
  votes : ∀ v ∈ s.volatile.votes, v ∈ M.members ∧ ∃ L, Voted a v s.durable.term n L
  unled : a.leader s.durable.term ≠ some n

/-- A leader's record of a peer: its match index is acknowledged, its probe is a request of this term that
    was sent or waits to be sent, and its snapshot is a committed boundary. -/
structure ProgressOk (a : Spec) (n : String) (T : Nat) (sent : List Outbound) (peer : String) (p : PeerProgress) :
    Prop where
  matched : p.matched = 0 ∨ Acked a peer T p.matched
  inFlight : ∀ q, p.inFlight = some q → q.term = T ∧ ∃ x, q.request = some x ∧ x.term = T ∧ x.leader = n ∧
    x.requestId = q.requestId ∧ q.prev = x.prevIndex ∧ q.count = x.entries.length ∧
    (⟨peer, .appendEntries x⟩ : Outbound) ∈ sent
  snapshot : ∀ r, p.snapshotInFlight = some r → r.peer = peer ∧ OfferOk a (Cluster.offerOf n T r)

/-- A request of leader `n` in term `T`. -/
def RequestOf (n : String) (T : Nat) (o : Outbound) (x : AppendEntries) : Prop :=
  o.message = .appendEntries x ∧ x.leader = n ∧ x.term = T

/-- A leader's requests carry distinct ids below its counter, and its records of the peers in `S` are in
    order. -/
structure Leading (a : Spec) (n : String) (s : Node) (sent : List Outbound) (S : String → Prop) : Prop where
  led : a.leader s.durable.term = some n
  progress : ∀ peer p, S peer → s.volatile.peers.find? peer = some p → ProgressOk a n s.durable.term sent peer p
  fresh : ∀ o ∈ sent, ∀ x, RequestOf n s.durable.term o x → x.requestId < s.nextRequestId
  unique : ∀ o ∈ sent, ∀ o' ∈ sent, ∀ x x', RequestOf n s.durable.term o x → RequestOf n s.durable.term o' x' →
    x.requestId = x'.requestId → o = o'

/-- The messages that wait for the pending write. -/
def queue (s : Node) : List Outbound := (s.pending.map (·.after)).getD []

/-- A member together with the write outstanding at its host. -/
structure NodeSim (M : Membership) (a : Spec) (net : List Outbound) (n : String) (s : Node) (w : Option PersistRequest) :
    Prop where
  holds : Holds a n s.durable
  peers : ∀ p, p ∈ s.volatile.peers.keys ↔ p ∈ M.peers n
  pending : ∀ p, s.pending = some p → ∃ r L, w = some r ∧ r.token = p.token ∧ r.target = p.target ∧
    WriteOk M.quorums a n s.durable r.target L r.kind ∧ Queued a net n s p L
  failed : s.pending = none → ∀ r, w = some r → s.halted = true ∧ ∃ L, WriteOk M.quorums a n s.durable r.target L r.kind
  halted : s.halted = true → s.volatile.role = .follower ∧ s.pending = none
  candidate : s.volatile.role = .candidate → (∀ p, s.pending = some p → p.selfVote = false) → Standing M a n s
  leader : s.volatile.role = .leader → Leading a n s (net ++ queue s) fun _ => True
  leaderLog : s.volatile.role = .leader → a.log n = a.book s.durable.term

/-- The simulation relation between a cluster and the ledger. -/
structure Sim (M : Membership) (c : Cluster) (a : Spec) : Prop where
  inv : Inv M.quorums a
  nodes : ∀ n ∈ M.members, NodeSim M a c.network n (c.nodes n) (c.writes n)
  network : ∀ o ∈ c.network, MsgOk a c.network o
  offers : ∀ o ∈ c.offers, OfferOk a o

/-! ### Stability -/

section Stability
variable {q : Quorums String} {a b : Spec}

theorem Excerpt.mono {B B' : List Entry} {prev prevTerm : Nat} {entries : List Entry}
    (h : Excerpt B prev prevTerm entries) (hB : B <+: B') : Excerpt B' prev prevTerm entries := by
  obtain ⟨R, rfl⟩ := hB
  have hl := h.length
  refine ⟨by simp; omega, ?_, ?_⟩
  · rw [List.take_append_of_le_length (by omega)]
    exact h.boundary
  · rw [List.drop_append_of_le_length (by omega), List.take_append_of_le_length (by simp; omega)]
    exact h.entries

theorem Settled.grows (h : Inv q a) (g : Grows a b) {T k : Nat} (hs : Settled a T k) : Settled b T k where
  length := hs.length.trans (g.book T).length_le
  committed := by
    rw [g.take_book hs.length]
    exact h.committed_grows g hs.committed le_rfl

theorem AppendOk.grows (h : Inv q a) (g : Grows a b) {m : AppendEntries} (hm : AppendOk a m) : AppendOk b m where
  led := g.leader hm.led
  excerpt := hm.excerpt.mono (g.book _)
  settled := hm.settled.grows h g

theorem OfferOk.grows (h : Inv q a) (g : Grows a b) {o : Offer} (ho : OfferOk a o) : OfferOk b o where
  led := g.leader ho.led
  boundary := by
    rw [g.take_book ho.settled.length]
    exact ho.boundary
  settled := ho.settled.grows h g

theorem Acked.grows (g : Grows a b) {n : String} {T k : Nat} (h : Acked a n T k) : Acked b n T k :=
  fun i hi => g.acks (h i hi)

theorem Answers.mono {net net' : List Outbound} (hn : net ⊆ net') {leader : String} {m : AppendReply}
    (h : Answers net leader m) : Answers net' leader m := by
  obtain ⟨x, hx, h'⟩ := h
  exact ⟨x, hn hx, h'⟩

theorem MsgOk.grows (h : Inv q a) (g : Grows a b) {net net' : List Outbound} (hn : net ⊆ net') {o : Outbound}
    (ho : MsgOk a net o) : MsgOk b net' o := by
  unfold MsgOk at ho ⊢
  cases hm : o.message with
  | requestVote m =>
    simp only [hm] at ho
    obtain ⟨L, hL, h'⟩ := ho
    exact ⟨L, g.voted hL, h'⟩
  | voteReply m =>
    simp only [hm] at ho
    intro hg
    obtain ⟨L, hL⟩ := ho hg
    exact ⟨L, g.voted hL⟩
  | appendEntries m =>
    simp only [hm] at ho
    exact ho.grows h g
  | appendReply m =>
    simp only [hm] at ho
    exact fun hs => ⟨(ho hs).1.grows g, (ho hs).2.mono hn⟩
  | snapshotReply m =>
    simp only [hm] at ho
    exact fun hs => (ho hs).grows g

/-- A log shares nothing with what a book grew by: those entries are of the book's term, and no log had
    them before. -/
theorem Keeps.grows (h : Inv q a) (h' : Inv q b) (g : Grows a b) {O L : List Entry} {T : Nat} (hO : Backed a O)
    (led : a.leader T ≠ none) (hk : Keeps (a.book T) O L) : Keeps (b.book T) O L := by
  intro P hP hPO
  rcases List.prefix_or_prefix_of_prefix hP (g.book T) with hle | hge
  · exact hk P hle hPO
  · rcases List.eq_nil_or_concat' P with rfl | ⟨P', e, rfl⟩
    · simp
    · by_cases heq : P' ++ [e] <+: a.book T
      · exact hk _ heq hPO
      · -- The last entry is new in the book, so it is of term `T`, but the old log had it already.
        exfalso
        have ht : Stamped.term e = T := by
          rcases h'.book_new T P' e hP with ht | hb
          · exact ht
          · rw [g.base led] at hb
            exact absurd (hb.trans (h.base_book T)) heq
        have := hO P' e hPO
        rw [ht] at this
        exact heq this

theorem Casts.frame {n : String} {d t : Durable} {c : String} (g : Grows a b) (f : Frame n a b)
    (hc : Casts a n d t c) : Casts b n d t c where
  vote := hc.vote
  free := hc.free
  eligible := by
    rw [f.log]
    exact hc.eligible.imp id g.eligible

theorem Seals.frame {n : String} {d t : Durable} {L : List Entry} (g : Grows a b) (f : Frame n a b)
    (hs : Seals q a n d t L) : Seals q b n d t L where
  led := g.leader hs.led
  term := hs.term
  log := hs.log.trans f.log.symm
  held := by
    rw [g.take_book hs.chosen.length, f.log]
    exact hs.held
  chosen := g.chosen hs.chosen

theorem Adopts.frame (h : Inv q a) (h' : Inv q b) {n : String} {t : Durable} {L : List Entry} (g : Grows a b)
    (f : Frame n a b) (ha : Adopts a n t L) : Adopts b n t L where
  led := g.led ha.led
  sub := ha.sub.trans (g.book _)
  keeps := by
    rw [f.log]
    exact Keeps.grows h h' g (h.backed_log n) ha.led ha.keeps

theorem Appends.frame {n : String} {d t : Durable} {L : List Entry} (g : Grows a b) (f : Frame n a b)
    (ha : Appends a n d t L) : Appends b n d t L where
  led := g.leader ha.led
  term := ha.term
  book := by rw [f.log, f.book _ ha.led, ha.book]
  entry := by
    rw [f.log]
    exact ha.entry

theorem Quoted.grows (h : Inv q a) (g : Grows a b) {n : String} {T : Nat} {B : List Entry} {m : AppendEntries}
    (hm : Quoted a n T B m) : Quoted b n T B m := ⟨hm.leader, hm.term, hm.excerpt, hm.settled.grows h g⟩

/-- A request that quotes the book of its term is true. -/
theorem Quoted.appendOk {n : String} {T : Nat} {m : AppendEntries} (hled : a.leader T = some n)
    (hm : Quoted a n T (a.book T) m) : AppendOk a m := by
  obtain ⟨hleader, hterm, hexcerpt, hsettled⟩ := hm
  subst hleader hterm
  exact ⟨hled, hexcerpt, hsettled⟩

theorem WriteOk.frame (h : Inv q a) (h' : Inv q b) {n : String} {d t : Durable} {L : List Entry} {kind : PersistKind}
    (g : Grows a b) (f : Frame n a b) (hw : WriteOk q a n d t L kind) : WriteOk q b n d t L kind where
  shows_ := hw.shows_
  term := hw.term
  vote := hw.vote.imp id fun ⟨c, hc⟩ => ⟨c, hc.frame g f⟩
  log := by
    rw [f.log]
    exact hw.log.imp id (Or.imp (Adopts.frame h h' g f) (Appends.frame g f))
  commit := hw.commit
  committed := hw.committed.imp id (Or.imp (fun hc => h.committed_grows g hc le_rfl) (Seals.frame g f))
  ordinary := hw.ordinary

theorem QueuedOk.frame (h : Inv q a) {n : String} {t : Durable} {L : List Entry} {net net' : List Outbound}
    (hn : net ⊆ net') (g : Grows a b) (f : Frame n a b) {o : Outbound} (ho : QueuedOk a net n t L o) :
    QueuedOk b net' n t L o := by
  unfold QueuedOk at ho ⊢
  cases hm : o.message with
  | requestVote m =>
    simp only [hm] at ho ⊢
    rw [f.log]
    exact ho
  | voteReply m =>
    simp only [hm] at ho ⊢
    exact ho
  | appendEntries m =>
    simp only [hm] at ho ⊢
    obtain ⟨h1, h2, h3, h4⟩ := ho
    exact ⟨f.term.trans h1, g.leader h2, by rw [f.log, f.book _ h2, h3], h4.grows h g⟩
  | appendReply m =>
    simp only [hm] at ho ⊢
    intro hs
    obtain ⟨h1, h2, h3, h4, h5, h6⟩ := ho hs
    exact ⟨h1, h2, g.led h3, h4.trans (g.book _).length_le, by rw [g.take_book h4]; exact h5, h6.mono hn⟩
  | snapshotReply m =>
    simp only [hm] at ho ⊢
    intro hs
    obtain ⟨h1, h2, h3, h4, h5⟩ := ho hs
    exact ⟨h1, h2, g.led h3, h4.trans (g.book _).length_le, by rw [g.take_book h4]; exact h5⟩

theorem ProgressOk.grows (h : Inv q a) (g : Grows a b) {n peer : String} {T : Nat} {sent sent' : List Outbound}
    (hn : sent ⊆ sent') {p : PeerProgress} (hp : ProgressOk a n T sent peer p) : ProgressOk b n T sent' peer p where
  matched := hp.matched.imp id (Acked.grows g)
  inFlight := fun r hr => by
    obtain ⟨ht, x, h1, h2, h3, h4, h5, h6, h7⟩ := hp.inFlight r hr
    exact ⟨ht, x, h1, h2, h3, h4, h5, h6, hn h7⟩
  snapshot := fun r hr => ⟨(hp.snapshot r hr).1, (hp.snapshot r hr).2.grows h g⟩

/-- A leader's records survive what others do and send. -/
theorem Leading.grows (h : Inv q a) (g : Grows a b) {n : String} {s : Node} {sent sent' : List Outbound}
    {S : String → Prop} (hn : sent ⊆ sent')
    (hnew : ∀ o ∈ sent', o ∈ sent ∨ ∀ x, o.message = .appendEntries x → x.leader ≠ n) (hl : Leading a n s sent S) :
    Leading b n s sent' S where
  led := g.leader hl.led
  progress peer p hS hp := (hl.progress peer p hS hp).grows h g hn
  fresh o ho x hx := by
    rcases hnew o ho with ho | ho
    · exact hl.fresh o ho x hx
    · exact absurd hx.2.1 (ho x hx.1)
  unique o ho o' ho' x x' hx hx' hid := by
    rcases hnew o ho with ho | ho
    · rcases hnew o' ho' with ho' | ho'
      · exact hl.unique o ho o' ho' x x' hx hx' hid
      · exact absurd hx'.2.1 (ho' x' hx'.1)
    · exact absurd hx.2.1 (ho x hx.1)

theorem NodeSim.frame {M : Membership} {n : String} {s : Node} {w : Option PersistRequest} {net : List Outbound}
    (new : List Outbound) (h : Inv M.quorums a) (h' : Inv M.quorums b) (g : Grows a b) (f : Frame n a b)
    (hnew : ∀ o ∈ new, ∀ x, o.message = .appendEntries x → x.leader ≠ n) (hs : NodeSim M a net n s w) :
    NodeSim M b (net ++ new) n s w where
  holds := ⟨f.term.trans hs.holds.term, f.vote.trans hs.holds.vote, f.commit.trans hs.holds.commit, f.log ▸ hs.holds.log⟩
  peers := hs.peers
  pending := fun p hp => by
    obtain ⟨r, L, h1, h2, h3, h4, h5⟩ := hs.pending p hp
    refine ⟨r, L, h1, h2, h3, h4.frame h h' g f, ?_⟩
    exact {
      after := fun o ho => (h5.after o ho).frame h (List.subset_append_left net new) g f
      requests := h5.requests
      selfVote := by
        rw [f.log]
        exact h5.selfVote
      active := h5.active
      candidate := by
        rw [f.log]
        exact h5.candidate
      snapshots := fun r hr => ⟨(h5.snapshots r hr).1, (h5.snapshots r hr).2.grows h g⟩
      apply := h5.apply }
  failed := fun hp r hr => by
    obtain ⟨h1, L, h2⟩ := hs.failed hp r hr
    exact ⟨h1, L, h2.frame h h' g f⟩
  halted := hs.halted
  candidate := fun hr hp => by
    obtain ⟨h0, h1, h2, h3⟩ := hs.candidate hr hp
    refine ⟨h0, ?_, fun v hv => ⟨(h2 v hv).1, ?_⟩, fun hl => h3 (f.leader _ hl)⟩
    · rw [f.log]
      exact g.voted h1
    · obtain ⟨L, hL⟩ := (h2 v hv).2
      exact ⟨L, g.voted hL⟩
  leader := fun hr => by
    refine (hs.leader hr).grows h g ?_ ?_
    · exact List.append_subset.mpr ⟨fun o ho => by simp [ho], fun o ho => by simp [ho]⟩
    · intro o ho
      rcases List.mem_append.mp ho with ho | ho
      · rcases List.mem_append.mp ho with ho | ho
        · exact Or.inl (by simp [ho])
        · exact Or.inr (hnew o ho)
      · exact Or.inl (by simp [ho])
  leaderLog := fun hr => by
    rw [f.log, f.book _ (hs.leader hr).led]
    exact hs.leaderLog hr

end Stability

end Choreolog.Raft
