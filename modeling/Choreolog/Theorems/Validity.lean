import Choreolog.Theorems.Changes
import Choreolog.Theorems.Merge

/-! # Valid states

A node is sound when its durable state is well formed and its staged write is a sequence of changes of
it. Every step keeps a node sound, whatever its input. -/

namespace Choreolog.Raft
open Lib

/-- What the disk of a node is about to hold. -/
def Node.latest (s : Node) : Durable := (s.pending.map (·.target)).getD s.durable

theorem Node.latest_idle {s : Node} (h : s.pending = none) : s.latest = s.durable := by
  simp [Node.latest, h]

/-- The snapshot index of a message is a 64-bit number. -/
def Input.Fits : Input → Prop
  | .recvSnapshot m => m.index ≤ maximum
  | _ => True

structure Sound (s : Node) : Prop where
  durable : WellFormed s.durable
  pending : ∀ p, s.pending = some p → Changes s.durable p.target
  active : s.volatile.role ≠ .follower → 0 < s.latest.term
  selfVote : ∀ p, s.pending = some p → p.selfVote = true → 0 < p.target.term

variable {config : Config} {s t : Node} {e : Effects}

namespace Sound

theorem same (h : Sound s) (durable : t.durable = s.durable) (pending : t.pending = s.pending)
    (role : t.volatile.role ≠ .follower → s.volatile.role ≠ .follower) : Sound t := by
  refine ⟨durable ▸ h.durable, fun p hp => ?_, fun hr => ?_, fun p hp => h.selfVote p (pending ▸ hp)⟩
  · rw [durable]
    exact h.pending p (pending ▸ hp)
  · have := h.active (role hr)
    unfold Node.latest at this ⊢
    rwa [durable, pending]

theorem stepDown (h : Sound s) (e : Effects) : Sound (stepDown s e).1 := h.same rfl rfl nofun

theorem setVotes (h : Sound s) (votes : Finset String) : Sound { s with volatile := { s.volatile with votes } } :=
  h.same rfl rfl id

theorem failStop (h : Sound s) : Sound (failStop s).1 := ⟨h.durable, nofun, nofun, nofun⟩

/-- A node that takes a write. -/
theorem write (h : Sound s) (durable : t.durable = s.durable) {p : PendingWrite} (pending : t.pending = some p)
    (changes : Changes s.durable p.target) (role : t.volatile.role ≠ .follower → 0 < p.target.term)
    (selfVote : p.selfVote = true → 0 < p.target.term) : Sound t := by
  refine ⟨durable ▸ h.durable, fun p' hp => ?_, fun hr => ?_, fun p' hp => ?_⟩
  · obtain rfl := Option.some.inj (pending.symm.trans hp)
    rw [durable]
    exact changes
  · simpa [Node.latest, pending] using role hr
  · obtain rfl := Option.some.inj (pending.symm.trans hp)
    exact selfVote

theorem ite {c : Prop} [Decidable c] {r r' : Node × Effects} (h : Sound r.1) (h' : Sound r'.1) :
    Sound (if c then r else r').1 := by
  split
  · exact h
  · exact h'

theorem ite' {c : Prop} [Decidable c] {r r' : Node × Effects} (h : c → Sound r.1) (h' : ¬c → Sound r'.1) :
    Sound (if c then r else r').1 := by
  split
  · exact h ‹_›
  · exact h' ‹_›

theorem completeRead (h : Sound s) : Sound (completeRead config s e).1 := by
  refine h.same (by simp) (by simp) fun hr => ?_
  rcases completeRead_eq s e config with heq | ⟨b, -, -, -, -, -, heq⟩
  · rwa [heq] at hr
  · rwa [heq] at hr

theorem becomeLeader (h : Sound s) (pos : 0 < s.latest.term) : Sound (becomeLeader config s e).1 := by
  obtain ⟨hd, hp, -⟩ := becomeLeader_frame config s e
  have hleader : Sound { s with volatile := { s.volatile with role := .leader } } :=
    ⟨h.durable, h.pending, fun _ => pos, h.selfVote⟩
  exact hleader.same hd hp nofun

theorem sends (h : Sound s) {f : Sending → String → Sending} (hf : ∀ x peer, SendFrame x.state (f x peer).state)
    (peers : List String) (out : List Outbound) (snapshots : List SnapshotNeeded) :
    Sound (peers.foldl f ⟨s, out, snapshots⟩).state := by
  have hframe := SendFrame.foldl hf peers ⟨s, out, snapshots⟩
  exact h.same hframe.durable hframe.pending (by rw [hframe.role]; exact id)

theorem adoptTerm_term {d : Durable} {T : Nat} (h : d.term ≤ T) : (adoptTerm d T).term = T := by
  unfold adoptTerm
  split
  · rfl
  · omega

theorem highestCommittableFrom_le (config : Config) (s : Node) (distance : Nat) :
    highestCommittableFrom config s distance ≤ s.durable.commit + distance := by
  induction distance with
  | zero => exact le_rfl
  | succ distance ih =>
    unfold highestCommittableFrom
    dsimp only
    split
    · split
      · exact le_rfl
      · omega
    · omega

theorem highestCommittable_le (h : s.durable.commit ≤ s.durable.lastIndex) :
    highestCommittable config s ≤ s.durable.lastIndex := by
  have := highestCommittableFrom_le config s (s.durable.lastIndex - s.durable.commit)
  unfold highestCommittable
  omega

/-! ### Handlers -/

section Handlers
variable (h : Sound s) (idle : s.pending = none)
include h

theorem adoptHigherTerm {T : Nat} (higher : s.durable.term < T) : Sound (adoptHigherTerm s T).1 := by
  refine h.write rfl rfl ?_ nofun nofun
  exact (Change.raise T none higher).changes

theorem electionTimeout : Sound (electionTimeout config s).1 := by
  unfold Raft.electionTimeout
  refine ite ?_ h
  refine h.write rfl rfl ?_ (fun _ => Nat.succ_pos _) fun _ => Nat.succ_pos _
  exact (Change.raise _ _ (Nat.lt_succ_self _)).changes

theorem heartbeatTimeout : Sound (heartbeatTimeout config s).1 := by
  unfold Raft.heartbeatTimeout
  exact ite (h.sends (SendFrame.sendAgain config s.durable) _ _ _) h

include idle in
theorem term_pos (role : s.volatile.role ≠ .follower) : 0 < s.durable.term := by
  have := h.active role
  rwa [Node.latest_idle idle] at this

include idle in
theorem clientPropose (command : String) : Sound (clientPropose config s command).1 := by
  unfold Raft.clientPropose
  split
  · exact h
  · rename_i hfull
    refine ite' (fun hpropose => ?_) fun _ => h
    have hpos := h.term_pos idle (by simp [hpropose.1])
    have happ : Change s.durable { s.durable with log := s.durable.log ++ [{ term := s.durable.term, command }] } := by
      refine .append _ hpos ?_ le_rfl ?_ hpropose.2.2
      · unfold Durable.lastTerm
        split
        · exact h.durable.term
        · rename_i x hx
          exact h.durable.upper x (List.mem_of_getLast? hx)
      · by_contra hfull'
        exact hfull ⟨hpropose.1, by omega⟩
    exact h.write (SendFrame.foldl (SendFrame.sendAppend config _) _ ⟨s, [], []⟩).durable rfl happ.changes (fun _ => hpos) nofun

include idle in
theorem recvRequestVote (m : RequestVote) : Sound (recvRequestVote config s m).1 := by
  unfold Raft.recvRequestVote
  refine ite h ?_
  dsimp only
  refine ite' (fun _ => h) fun hterm => ?_
  have hadopt := changes_adoptTerm s.durable m.term
  generalize adoptTerm s.durable m.term = target at hadopt
  -- The vote is free, or it was this candidate's.
  have hgrant : Changes s.durable (if ((target.votedFor.isNone || target.votedFor == some m.candidate) &&
      target.upToDate m.lastTerm m.lastIndex) = true then { target with votedFor := some m.candidate } else target) := by
    split
    · rename_i hg
      simp only [Bool.and_eq_true, Bool.or_eq_true, Option.isNone_iff_eq_none, beq_iff_eq] at hg
      rcases hg.1 with hfree | hsame
      · exact hadopt.tail (.vote _ hfree)
      · rw [show ({ target with votedFor := some m.candidate } : Durable) = target by rw [← hsame]]
        exact hadopt
    · exact hadopt
  generalize (if ((target.votedFor.isNone || target.votedFor == some m.candidate) &&
      target.upToDate m.lastTerm m.lastIndex) = true then { target with votedFor := some m.candidate } else target) =
      granted at hgrant
  have hactive : s.volatile.role ≠ .follower → s.pending = none → 0 < granted.term := fun hr hp =>
    (h.term_pos hp hr).trans_le hgrant.term_le
  by_cases hlower : s.durable.term < m.term
  · simp only [if_pos hlower]
    exact ite (h.write rfl rfl hgrant nofun nofun) (h.stepDown {})
  · simp only [if_neg hlower]
    exact ite (h.write rfl rfl hgrant (fun hr => hactive hr idle) nofun) h

include idle in
theorem recvVoteReply (m : VoteReply) : Sound (recvVoteReply config s m).1 := by
  unfold Raft.recvVoteReply
  refine ite h (ite' (fun hterm => h.adoptHigherTerm hterm) fun _ => ite' (fun hc => ?_) fun _ => h)
  refine ite ((h.setVotes _).becomeLeader ?_) (h.setVotes _)
  rw [Node.latest_idle (by exact idle)]
  exact h.term_pos idle (by simp [hc.2.2])

theorem recvAppend (m : AppendEntries) : Sound (recvAppend config s m).1 := by
  unfold Raft.recvAppend
  refine ite h (ite' (fun _ => h) fun hlimits => ite' (fun _ => h) fun hordered => ?_)
  dsimp only
  refine ite' (fun _ => h) fun hterm => ?_
  have hadopt := changes_adoptTerm s.durable m.term
  have heq : (adoptTerm s.durable m.term).term = m.term := adoptTerm_term (by omega)
  have hsame : ({ adoptTerm s.durable m.term with log := s.durable.log, commit := s.durable.commit } : Durable) =
      adoptTerm s.durable m.term := by
    unfold adoptTerm
    split <;> rfl
  have hw := hadopt.wellFormed h.durable
  generalize adoptTerm s.durable m.term = target at *
  simp only [Bool.or_eq_true, beq_iff_eq, decide_eq_true_eq, not_or, not_lt] at hlimits
  obtain ⟨⟨⟨-, hfits⟩, -⟩, -⟩ := hlimits
  have hknown : (target.termAt m.prevIndex == some m.prevTerm) = true → target.termAt m.prevIndex = some m.prevTerm :=
    beq_iff_eq.mp
  refine ite' (fun hcap => ?_) fun hcap => ?_
  · rw [Bool.and_eq_true] at hcap
    have hcommit : Change target { target with commit := max target.commit (min m.leaderCommit m.prevIndex) } :=
      .commit _ (le_max_left _ _)
        (max_le hw.reach ((min_le_right _ _).trans (termAt_bounds (hknown hcap.1)).2))
    exact ite (h.write rfl rfl (hadopt.tail hcommit) nofun nofun) (h.stepDown {})
  · refine ite (h.write rfl rfl ?_ nofun nofun) (h.stepDown {})
    dsimp only
    by_cases hprev : (target.termAt m.prevIndex == some m.prevTerm) = true
    · rw [if_pos hprev]
      have hmerge := mergeEntries_eq target (m.prevIndex + 1) m.entries
      split
      · rename_i hsuccess
        rw [hprev, Bool.true_and, decide_eq_true_eq, not_lt] at hcap
        obtain ⟨hchanges, hreach⟩ := mergeEntries_changes m.entries hw (hknown hprev) (by simpa [heq] using hordered)
          hfits (by omega) hsuccess
        refine (hadopt.trans hchanges).tail (.commit _ (le_max_left _ _) (max_le ?_ ((min_le_right _ _).trans hreach)))
        exact (hchanges.wellFormed hw).reach
      · rw [hmerge]
        dsimp only
        rw [hsame]
        exact hadopt
    · rw [if_neg hprev]
      dsimp only
      rw [if_neg Bool.false_ne_true, hsame]
      exact hadopt

theorem recvSnapshot (m : SnapshotRequest) (fits : m.index ≤ maximum) : Sound (recvSnapshot config s m).1 := by
  unfold Raft.recvSnapshot
  refine ite' (fun _ => h) fun hlimits => ite h ?_
  dsimp only
  refine ite' (fun _ => h) fun hterm => ?_
  have hadopt := changes_adoptTerm s.durable m.term
  have heq : (adoptTerm s.durable m.term).term = m.term := adoptTerm_term (by omega)
  generalize adoptTerm s.durable m.term = target at *
  simp only [Bool.or_eq_true, beq_iff_eq, decide_eq_true_eq, not_or, not_lt] at hlimits
  obtain ⟨⟨⟨-, hbelow⟩, hpos⟩, hcurrent⟩ := hlimits
  refine ite (ite (h.write rfl rfl hadopt nofun nofun) (h.stepDown {})) (ite (h.write rfl rfl ?_ nofun nofun) (h.stepDown {}))
  dsimp only
  split
  · rename_i hinstall
    exact hadopt.tail (.install m.index m.snapshotTerm (of_decide_eq_true hinstall) (by omega) (by omega) (by omega))
  · exact hadopt

theorem recvSnapshotReply (m : SnapshotReply) : Sound (recvSnapshotReply s m).1 := by
  unfold Raft.recvSnapshotReply
  exact ite h (ite' (fun hterm => h.adoptHigherTerm hterm) fun _ => ite (h.same rfl rfl id) h)

theorem recvAppendReply (m : AppendReply) : Sound (recvAppendReply config s m).1 := by
  unfold Raft.recvAppendReply
  refine ite h (ite' (fun hterm => (h.adoptHigherTerm hterm).completeRead) fun _ => ite ?_ h.completeRead)
  split
  · exact h
  · refine ite h (completeRead ?_)
    split
    · exact h.same rfl rfl id
    · exact h.same rfl rfl id

include idle in
theorem advanceCommit : Sound (advanceCommit config s).1 := by
  unfold Raft.advanceCommit
  refine ite' (fun hrole => ite' (fun hn => ?_) fun _ => h) fun _ => h
  have hcommit : Change s.durable { s.durable with commit := highestCommittable config s } :=
    .commit _ hn.le (highestCommittable_le h.durable.reach)
  exact h.write rfl rfl hcommit.changes (fun hr => h.term_pos idle hr) nofun

include idle in
theorem applyCommitted : Sound (applyCommitted s).1 := by
  unfold Raft.applyCommitted
  refine ite' (fun hc => ?_) fun _ => h
  refine h.write rfl rfl ?_ (fun hr => h.term_pos idle hr) nofun
  exact (Change.apply _ (Nat.le_succ _) hc.1).changes

include idle in
theorem compactCommitted : Sound (compactCommitted s).1 := by
  unfold Raft.compactCommitted
  refine ite' (fun _ => h) fun hc => ?_
  split
  · exact h
  · rename_i t ht
    refine h.write rfl rfl ?_ (fun hr => h.term_pos idle hr) nofun
    exact (Change.compact t (by omega) ht).changes

include idle in
theorem handle (input : Input) (fits : input.Fits) : Sound (handle config s input).1 := by
  cases input with
  | electionTimeout => exact h.electionTimeout
  | heartbeatTimeout => exact h.heartbeatTimeout
  | clientPropose command => exact h.clientPropose idle command
  | recvRequestVote m => exact h.recvRequestVote idle m
  | recvVoteReply m => exact h.recvVoteReply idle m
  | recvAppend m => exact h.recvAppend m
  | recvAppendReply m => exact h.recvAppendReply m
  | advanceCommit => exact h.advanceCommit idle
  | applyCommitted => exact h.applyCommitted idle
  | compactCommitted => exact h.compactCommitted idle
  | recvSnapshot m => exact h.recvSnapshot m fits
  | recvSnapshotReply m => exact h.recvSnapshotReply m
  | beginRead | cancelRead | persistCompleted | persistFailed | restart => exact h

theorem beginRead (context : RequestId) : Sound (beginRead config s context).1 := by
  unfold Raft.beginRead
  refine ite h (ite h (ite h (ite h (completeRead ?_))))
  have hread : ∀ r, Sound (setRead s r) := fun r => h.same rfl rfl id
  exact (hread _).sends (SendFrame.sendAppend config s.durable) _ _ _

theorem persistCompleted (token : PersistToken) : Sound (persistCompleted config s token).1 := by
  unfold Raft.persistCompleted
  split
  · exact h
  · rename_i p hp
    refine ite ?_ h
    have hdone : Sound { s with pending := none, durable := p.target } := by
      refine ⟨(h.pending p hp).wellFormed h.durable, nofun, fun hr => ?_, nofun⟩
      have := h.active hr
      simpa [Node.latest, hp] using this
    have hread : ∀ e, Sound (Raft.completeRead config { s with pending := none, durable := p.target } e).1 :=
      fun _ => hdone.completeRead
    refine ite' (fun hself => ?_) fun _ => hread _
    refine ite (((hread _).setVotes _).becomeLeader ?_) ((hread _).setVotes _)
    rw [Node.latest_idle (by simp)]
    simpa using h.selfVote p hp hself

/-- Every step keeps the node sound. -/
theorem step (config : Config) (input : Input) (fits : input.Fits) : Sound (step config s input).1 := by
  unfold Raft.step
  refine ite h.failStop ?_
  cases input with
  | persistCompleted token => exact h.persistCompleted token
  | persistFailed token =>
    dsimp only
    unfold Raft.persistFailed
    split
    · exact h
    · exact ite h.failStop h
  | restart => exact ⟨h.durable, nofun, nofun, nofun⟩
  | cancelRead context =>
    dsimp only
    unfold Raft.cancelRead
    split
    · exact ite (h.same rfl rfl id) h
    · exact h
  | beginRead context => exact h.beginRead context
  | electionTimeout | heartbeatTimeout | clientPropose _ | recvRequestVote _ | recvVoteReply _ | recvAppend _
  | recvAppendReply _ | advanceCommit | applyCommitted | compactCommitted | recvSnapshot _ | recvSnapshotReply _ =>
    exact ite' (fun _ => h) fun hidle => h.handle (idle_of_not hidle).2 _ fits

end Handlers

theorem initial (config : Config) : Sound (initial config) :=
  ⟨(valid_iff (Nat.zero_le _)).mp rfl, nofun, nofun, nofun⟩

end Sound

end Choreolog.Raft
