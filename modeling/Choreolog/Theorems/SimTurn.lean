import Choreolog.Theorems.Outcome

/-! # Turns

A member that neither waits for a write nor is halted takes its turn with an input. Its handlers end in a
few ways: it answers, it steps down and answers, or it steps down and stages a write that the answer waits
for. What waits is released when the write is durable, and the releasing node then acknowledges what it
holds. -/

namespace Choreolog.Raft
open Lib Lib.Ledger

variable {M : Membership} {q : Quorums String} {a b : Spec} {net : List Outbound} {n : String} {s s' : Node}
  {w : Option PersistRequest} {e e' : Effects} {t : Durable} {L : List Entry} {kind : PersistKind}

/-! ### Releasing messages -/

/-- `b` follows from `a` by acknowledgements of `n`. -/
structure Acks (q : Quorums String) (n : String) (a b : Spec) : Prop where
  moves : Moves q n a b
  eq : b = { a with acks := b.acks }

namespace Acks

theorem refl (q : Quorums String) (n : String) (a : Spec) : Acks q n a a := ⟨Moves.refl q n a, rfl⟩

theorem trans {d : Spec} (hi : Inv q a) (h : Acks q n a b) (h' : Acks q n b d) : Acks q n a d where
  moves := h.moves.trans hi h'.moves
  eq := by
    rw [h'.eq, h.eq]

theorem log (h : Acks q n a b) : b.log = a.log := by rw [h.eq]
theorem leader (h : Acks q n a b) : b.leader = a.leader := by rw [h.eq]
theorem book (h : Acks q n a b) : b.book = a.book := by rw [h.eq]

theorem holds (h : Acks q n a b) {d : Durable} (hd : Holds a n d) : Holds b n d := by
  rw [h.eq]
  exact ⟨hd.term, hd.vote, hd.commit, hd.log⟩

theorem frame (h : Acks q n a b) (m : String) : Frame m a b := by
  rw [h.eq]
  exact ⟨rfl, rfl, rfl, rfl, fun _ _ => rfl, fun _ h => h⟩

end Acks

/-- A node that holds the first `k` entries of the book of its term can acknowledge them. -/
theorem exists_acked {T k : Nat} (hT : a.term n = T) (led : a.leader T ≠ none) (length : k ≤ (a.book T).length)
    (held : (a.book T).take k <+: a.log n) : ∃ b, Acks q n a b ∧ Acked b n T k := by
  subst hT
  exact ⟨_, ⟨Moves.ack led length held, rfl⟩, fun i hi => Or.inr ⟨i, hi, rfl⟩⟩

/-- What a queued message promised is true once the target of its write is durable. -/
theorem QueuedOk.release (hi : Inv q a) (hold : Holds a n t) (hL : a.log n = L) {o : Outbound}
    (hown : ∀ m, o.message = .requestVote m → Voted a n t.term n L) (ho : QueuedOk a net n t L o) :
    ∃ b, Acks q n a b ∧ MsgOk b net o := by
  unfold QueuedOk at ho
  unfold MsgOk
  cases hm : o.message with
  | requestVote m =>
    simp only [hm] at ho
    obtain ⟨h1, h2, -, -, h3, h4⟩ := ho
    refine ⟨a, Acks.refl q n a, L, ?_, h3, h4⟩
    rw [h1, h2]
    exact hown m hm
  | voteReply m =>
    simp only [hm] at ho
    refine ⟨a, Acks.refl q n a, fun hg => ?_⟩
    obtain ⟨h1, h2, h3⟩ := ho hg
    rw [h1, h2, ← hold.term]
    exact hi.vote_ballot n o.dest (hold.vote.trans h3)
  | appendEntries m =>
    simp only [hm] at ho
    obtain ⟨-, hled, hlog, hquoted⟩ := ho
    rw [← hL, hlog] at hquoted
    exact ⟨a, Acks.refl q n a, hquoted.appendOk hled⟩
  | appendReply m =>
    simp only [hm] at ho
    by_cases hs : m.success = true
    · obtain ⟨h1, h2, h3, h4, h5, h6⟩ := ho hs
      obtain ⟨b, hb, hack⟩ := exists_acked (q := q) hold.term h3 h4 (hL ▸ h5)
      exact ⟨b, hb, fun _ => ⟨by rw [h1, h2]; exact hack, h6⟩⟩
    · exact ⟨a, Acks.refl q n a, fun h => absurd h hs⟩
  | snapshotReply m =>
    simp only [hm] at ho
    by_cases hs : m.success = true
    · obtain ⟨h1, h2, h3, h4, h5⟩ := ho hs
      obtain ⟨b, hb, hack⟩ := exists_acked (q := q) hold.term h3 h4 (hL ▸ h5)
      exact ⟨b, hb, fun _ => by rw [h1, h2]; exact hack⟩
    · exact ⟨a, Acks.refl q n a, fun h => absurd h hs⟩

/-- All the messages that wait for a write are released together. -/
theorem QueuedOk.release_all (hi : Inv q a) (hold : Holds a n t) (hL : a.log n = L) {out : List Outbound}
    (hown : ∀ o ∈ out, ∀ m, o.message = .requestVote m → Voted a n t.term n L)
    (ho : ∀ o ∈ out, QueuedOk a net n t L o) : ∃ b, Acks q n a b ∧ ∀ o ∈ out, MsgOk b net o := by
  induction out generalizing a with
  | nil => exact ⟨a, Acks.refl q n a, nofun⟩
  | cons o out ih =>
    obtain ⟨b, hb, hok⟩ := (ho o (by simp)).release hi hold hL (hown o (by simp))
    have hib := hb.moves.inv hi
    obtain ⟨d, hd, hrest⟩ := ih hib (hb.holds hold) (by rw [hb.log, hL])
      (fun o' ho' m hm => (hb.moves.grows hi).voted (hown o' (by simp [ho']) m hm))
      (fun o' ho' => (ho o' (by simp [ho'])).frame hi (List.Subset.refl _) (hb.moves.grows hi) (hb.frame n))
    refine ⟨d, hb.trans hi hd, fun o' ho' => ?_⟩
    rcases List.mem_cons.mp ho' with rfl | ho'
    · exact hok.grows hib (hd.moves.grows hib) (List.Subset.refl _)
    · exact hrest o' ho'

/-! ### Turns -/

/-- A running member with nothing pending, whose durable state is valid. -/
structure Turn (M : Membership) (a : Spec) (net : List Outbound) (n : String) (s : Node) (w : Option PersistRequest) :
    Prop where
  member : n ∈ M.members
  inv : Inv M.quorums a
  node : NodeSim M a net n s w
  network : ∀ o ∈ net, MsgOk a net o
  running : s.halted = false
  idle : s.pending = none
  valid : s.durable.valid = true

/-- The node after it stepped down, with effects that ask nothing of the host yet. -/
structure Lowered (s s' : Node) (e : Effects) : Prop where
  durable : s'.durable = s.durable
  pending : s'.pending = s.pending
  halted : s'.halted = s.halted
  role : s'.volatile.role = .follower
  keys : s'.volatile.peers.keys = s.volatile.peers.keys
  persist : e.persist = none
  sendNow : e.sendNow = []
  snapshotNeeded : e.snapshotNeeded = []

theorem Lowered.stepDown (s : Node) : Lowered s (stepDown s {}).1 (stepDown s {}).2 :=
  ⟨rfl, rfl, rfl, rfl, stepDown_keys s {}, rfl, rfl, rfl⟩

theorem Lowered.refl (h : s.volatile.role = .follower) : Lowered s s {} := ⟨rfl, rfl, rfl, h, rfl, rfl, rfl, rfl⟩

namespace Turn

theorem shows_ (h : Turn M a net n s w) : Shows (a.log n) s.durable := h.node.holds.log

theorem commit_le (h : Turn M a net n s w) : s.durable.commit ≤ (a.log n).length := by
  rw [← h.shows_.lastIndex]
  exact (Durable.valid_iff h.valid).2.2.2.2.2.1

theorem boundary_le (h : Turn M a net n s w) : s.durable.snapshotIndex ≤ s.durable.commit :=
  (Durable.valid_iff h.valid).2.2.2.1.trans (Durable.valid_iff h.valid).2.2.2.2.1

/-- A turn waits for no write. -/
theorem no_write (h : Turn M a net n s w) : w = none := by
  cases hw : w with
  | none => rfl
  | some r =>
    have := (h.node.failed h.idle r hw).1
    rw [h.running] at this
    cases this

theorem quiet (h : Turn M a net n s w) : Outcome M a net n w (s, {}) := h.node.outcome rfl rfl rfl

theorem known (h : Turn M a net n s w) {p : String} (hp : knownPeer s p = true) : p ∈ M.members ∧ p ≠ n := by
  rw [knownPeer, OrdMap.contains_iff, h.node.peers] at hp
  exact (M.mem_peers n h.member p).mp hp

/-- A member that stepped down and keeps its durable state is an idle follower. -/
theorem follower (h : Turn M a net n s w) (hl : Lowered s s' e) (hold : Holds b n s.durable) (net' : List Outbound) :
    NodeSim M b net' n s' none := by
  refine NodeSim.follower (hl.durable ▸ hold) (hl.keys ▸ h.node.peers) hl.role (hl.pending.trans h.idle) nofun

theorem writeAfter (h : Turn M a net n s w) (hl : Lowered s s' e) (out : List Outbound) :
    Cluster.writeAfter w s' { e with sendNow := out } = none :=
  writeAfter_idle (hl.halted.trans h.running) (hl.pending.trans h.idle) hl.persist

/-- Acknowledgements do not change what a turn depends on. -/
theorem acks (h : Turn M a net n s w) (hb : Acks M.quorums n a b) : Turn M b net n s w where
  member := h.member
  inv := hb.moves.inv h.inv
  node := by
    have := h.node.frame [] h.inv (hb.moves.inv h.inv) (hb.moves.grows h.inv) (hb.frame n) nofun
    rwa [List.append_nil] at this
  network o ho := (h.network o ho).grows h.inv (hb.moves.grows h.inv) (List.Subset.refl _)
  running := h.running
  idle := h.idle
  valid := h.valid

/-- A member answers without changing its state. -/
theorem answer (h : Turn M a net n s w) {out : List Outbound} (hout : ∀ o ∈ out, MsgOk a (net ++ out) o)
    (hown : ∀ o ∈ out, ∀ x, o.message ≠ .appendEntries x) : Outcome M a net n w (s, { sendNow := out }) := by
  refine ⟨a, Moves.refl _ n a, ?_, hout, fun o ho x hx => absurd hx (hown o ho x), nofun⟩
  rw [h.node.writeAfter_eq rfl]
  exact h.node.frame out h.inv h.inv (Grows.refl a) (Frame.refl n a) fun o ho x hx => absurd hx (hown o ho x)

/-- A member steps down and nothing else. -/
theorem lower (h : Turn M a net n s w) (hl : Lowered s s' e) : Outcome M a net n w (s', e) := by
  refine ⟨a, Moves.refl _ n a, ?_, ?_, ?_, ?_⟩
  · rw [show Cluster.writeAfter w s' e = none from h.writeAfter hl e.sendNow]
    exact h.follower hl h.node.holds _
  · simp [hl.sendNow]
  · simp [hl.sendNow]
  · simp [hl.snapshotNeeded]

/-- A member steps down and stages a write. -/
theorem stage (h : Turn M a net n s w) (hl : Lowered s s' e) {after : List Outbound}
    (write : WriteOk M.quorums a n s.durable t L kind) (queued : ∀ o ∈ after, QueuedOk a net n t L o)
    (hreq : ∀ o ∈ after, ∀ m, o.message ≠ .requestVote m) :
    Outcome M a net n w (beginWrite s' e t after [] false [] kind) := by
  refine ⟨a, Moves.refl _ n a, ?_, ?_, ?_, ?_⟩
  · simp only [beginWrite, hl.sendNow, List.append_nil, Cluster.writeAfter]
    refine NodeSim.staged (s := (beginWrite s' e t after [] false [] kind).1) ?_ ?_ hl.role ?_ ?_ queued hreq rfl
    · exact hl.durable ▸ h.node.holds
    · exact hl.keys ▸ h.node.peers
    · exact hl.halted.trans h.running
    · exact hl.durable ▸ write
  · simp [beginWrite, hl.sendNow]
  · simp [beginWrite, hl.sendNow]
  · simp [beginWrite, hl.snapshotNeeded]

/-- A member steps down and answers, once it has made durable what the answer depends on. -/
theorem persist_or_reply (h : Turn M a net n s w) (hl : Lowered s s' e) {o : Outbound}
    (write : WriteOk M.quorums a n s.durable t L kind) (queued : QueuedOk a net n t L o)
    (same : t = s.durable → L = a.log n) (hreq : ∀ m, o.message ≠ .requestVote m)
    (happ : ∀ m, o.message ≠ .appendEntries m) :
    Outcome M a net n w
      (if t ≠ s.durable then beginWrite s' e t [o] [] false [] kind else (s', { e with sendNow := [o] })) := by
  split
  · refine h.stage hl write (fun o' ho' => ?_) fun o' ho' => ?_
    · rw [List.mem_singleton.mp ho']
      exact queued
    · rw [List.mem_singleton.mp ho']
      exact hreq
  · rename_i heq
    rw [not_not] at heq
    obtain ⟨b, hb, hok⟩ := queued.release h.inv (heq ▸ h.node.holds) (same heq).symm fun m hm => absurd hm (hreq m)
    refine ⟨b, hb.moves, ?_, ?_, ?_, ?_⟩
    · simp only [h.writeAfter hl [o]]
      exact h.follower hl (hb.holds h.node.holds) _
    · intro o' ho'
      simp only [List.mem_singleton] at ho'
      rw [ho']
      exact hok.grows (hb.moves.inv h.inv) (Grows.refl b) (List.subset_append_left _ _)
    · intro o' ho' x hx
      simp only [List.mem_singleton] at ho'
      exact absurd hx (ho' ▸ happ x)
    · simp [hl.snapshotNeeded]

end Turn

end Choreolog.Raft
