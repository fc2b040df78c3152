import Choreolog.Raft.Cluster

/-! # Schedules

A schedule names the steps of a run one by one, so that a concrete run can be evaluated: a node takes an
input of its own host, a message is delivered by its place on the network, a snapshot by its place among
the offers, or a node restarts from its acknowledged state. -/

namespace Choreolog.Raft

/-- The input by which a message is delivered. -/
def WireMessage.input : WireMessage → Input
  | .requestVote m => .recvRequestVote m
  | .voteReply m => .recvVoteReply m
  | .appendEntries m => .recvAppend m
  | .appendReply m => .recvAppendReply m
  | .snapshotReply m => .recvSnapshotReply m

/-- The inputs that a host gives at any time. -/
def Input.isLocal : Input → Bool
  | .electionTimeout | .heartbeatTimeout | .clientPropose _ | .advanceCommit | .applyCommitted | .compactCommitted
  | .beginRead _ | .cancelRead _ | .persistCompleted _ | .persistFailed _ => true
  | _ => false

def Offer.input (o : Offer) (id : RequestId) : Input :=
  .recvSnapshot { term := o.term, leader := o.leader, index := o.index, snapshotTerm := o.snapshotTerm, requestId := id }

inductive Event where
  | host (n : String) (input : Input)
  | deliver (k : Nat)
  | install (k : Nat) (id : RequestId)
  | restart (n : String)

namespace Cluster

/-- The node and input of an event, if it is a possible one. -/
def eventInput (c : Cluster) : Event → Option (String × Input)
  | .host n input => if input.isLocal then some (n, input) else none
  | .deliver k => c.network[k]?.map fun o => (o.dest, o.message.input)
  | .install k id => c.offers[k]?.map fun o => (o.dest, o.input id)
  | .restart _ => none

def playEvent (M : Membership) (c : Cluster) (event : Event) : Option Cluster :=
  match event with
  | .restart n => if n ∈ M.members then some (c.crash M n (c.nodes n).durable false) else none
  | event =>
    match c.eventInput event with
    | some (n, input) => if n ∈ M.members then some (c.fire M n input) else none
    | none => none

def play (M : Membership) (c : Cluster) : List Event → Option Cluster
  | [] => some c
  | event :: events => (c.playEvent M event).bind fun c => c.play M events

theorem allowed_of_eventInput {c : Cluster} {event : Event} {n : String} {input : Input}
    (h : c.eventInput event = some (n, input)) : c.Allowed n input := by
  cases event with
  | host m i =>
    simp only [eventInput] at h
    split at h
    · rename_i hlocal
      obtain ⟨rfl, rfl⟩ := Prod.mk.inj (Option.some.inj h)
      cases i <;> first | (cases hlocal; done) | constructor
    · cases h
  | deliver k =>
    simp only [eventInput, Option.map_eq_some_iff] at h
    obtain ⟨⟨dest, message⟩, hk, heq⟩ := h
    obtain ⟨rfl, rfl⟩ := Prod.mk.inj heq
    have hmem := List.mem_of_getElem? hk
    cases message with
    | requestVote m => exact .recvRequestVote m hmem
    | voteReply m => exact .recvVoteReply m hmem
    | appendEntries m => exact .recvAppend m hmem
    | appendReply m => exact .recvAppendReply m hmem
    | snapshotReply m => exact .recvSnapshotReply m hmem
  | install k id =>
    simp only [eventInput, Option.map_eq_some_iff] at h
    obtain ⟨o, hk, heq⟩ := h
    obtain ⟨rfl, rfl⟩ := Prod.mk.inj heq
    exact .recvSnapshot o id true (List.mem_of_getElem? hk) rfl
  | restart m => cases h

theorem playEvent_step {M : Membership} {c c' : Cluster} {event : Event} (h : c.playEvent M event = some c') :
    Step M c c' := by
  have key : ∀ {n input}, c.eventInput event = some (n, input) → n ∈ M.members → Step M c (c.fire M n input) :=
    fun he hn => .input _ hn _ (allowed_of_eventInput he)
  cases event with
  | restart n =>
    simp only [playEvent] at h
    split at h
    · rename_i hn
      obtain rfl := Option.some.inj h
      exact .crash n hn _ false (.old _)
    · cases h
  | host _ _ | deliver _ | install _ _ =>
    simp only [playEvent] at h
    split at h
    · rename_i n input he
      split at h
      · rename_i hn
        obtain rfl := Option.some.inj h
        exact key he hn
      · cases h
    · cases h

/-- A schedule that can be played is a run. -/
theorem play_later {M : Membership} {c c' : Cluster} {events : List Event} (h : c.play M events = some c') :
    Later M c c' := by
  induction events generalizing c with
  | nil =>
    obtain rfl := Option.some.inj h
    exact .refl
  | cons event events ih =>
    obtain ⟨d, hd, hrest⟩ := Option.bind_eq_some_iff.mp h
    exact .head (playEvent_step hd) (ih hrest)

/-- What a schedule evaluates to is a later state. -/
theorem exists_play (M : Membership) (c : Cluster) (events : List Event) (p : Cluster → Prop) [DecidablePred p]
    (h : (c.play M events).any (fun c' => decide (p c')) = true) : ∃ c', c.Later M c' ∧ p c' := by
  cases hplay : c.play M events with
  | none => simp [hplay] at h
  | some c' =>
    rw [hplay] at h
    exact ⟨c', play_later hplay, of_decide_eq_true h⟩

end Cluster

/-- Two members. -/
def pair : Membership where
  members := {"a", "b"}
  peers n := if n = "a" then ["b"] else if n = "b" then ["a"] else []
  nodup n := by
    split
    · decide
    · split <;> decide
  mem_peers n hn p := by
    simp only [Finset.mem_insert, Finset.mem_singleton] at hn
    rcases hn with rfl | rfl
    · simp only [if_true, List.mem_singleton, Finset.mem_insert, Finset.mem_singleton]
      constructor
      · rintro rfl
        exact ⟨Or.inr rfl, by decide⟩
      · rintro ⟨h | h, hne⟩
        · exact absurd h hne
        · exact h
    · simp only [if_neg (show ("b" : String) ≠ "a" by decide), if_true, List.mem_singleton, Finset.mem_insert,
        Finset.mem_singleton]
      constructor
      · rintro rfl
        exact ⟨Or.inl rfl, by decide⟩
      · rintro ⟨h | h, hne⟩
        · exact h
        · exact absurd h hne

/-- `a` becomes the leader of term 1. -/
def pairElects : List Event :=
  [.host "a" .electionTimeout, .host "a" (.persistCompleted 1), .deliver 0, .host "b" (.persistCompleted 1), .deliver 1]

/-- Then `a` replicates one entry, and both members commit it. -/
def pairCommits : List Event :=
  [.host "a" (.clientPropose "x"), .host "a" (.persistCompleted 2), .deliver 2, .deliver 3,
    .host "a" .heartbeatTimeout, .deliver 4, .host "b" (.persistCompleted 2), .deliver 5,
    .host "a" .advanceCommit, .host "a" (.persistCompleted 3),
    .host "a" .heartbeatTimeout, .deliver 6, .host "b" (.persistCompleted 3), .deliver 7]

/-- Then `a` restarts and becomes the leader of term 2. -/
def pairRestarts : List Event :=
  [.restart "a", .host "a" .electionTimeout, .host "a" (.persistCompleted 1), .deliver 8,
    .host "b" (.persistCompleted 4), .deliver 9]

end Choreolog.Raft
