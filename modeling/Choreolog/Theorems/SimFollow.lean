import Choreolog.Theorems.Merge
import Choreolog.Theorems.SimTurn

/-! # Handlers of a follower

Votes, appends, snapshot installs and the timeout that starts an election: what each of them stages is
made of ledger updates, and what it answers is true of the ledger once the write is durable. -/

namespace Choreolog.Raft
open Lib Lib.Ledger

variable {M : Membership} {a b : Spec} {net : List Outbound} {n : String} {s s' : Node}
  {w : Option PersistRequest} {e : Effects} {t : Durable} {kind : PersistKind}

theorem adoptTerm_eq {d : Durable} {T : Nat} (h : d.term ≤ T) :
    adoptTerm d T = { d with term := T, votedFor := if d.term < T then none else d.votedFor } := by
  unfold adoptTerm
  split
  · rfl
  · have : d.term = T := by omega
    rw [← this]

/-- Knowledge of a committed prefix passes to logs that agree with the book that far. -/
theorem Settled.take {T k i c : Nat} {X : List Entry} (h : Settled a T k) (agree : X.take i = (a.book T).take i)
    (hi : c ≤ i) (hk : c ≤ k) : Committed a T (X.take c) := by
  obtain ⟨T₀, hT₀, hP⟩ := h.committed
  refine ⟨T₀, hT₀, List.IsPrefix.trans ?_ hP⟩
  have : X.take c = (a.book T).take c := by
    rw [← Nat.min_eq_left hi, ← List.take_take, agree, List.take_take]
  rw [this]
  exact (List.take_prefix_take_left hk)

/-- What a merge of a leader's entries leads to can be written. -/
theorem Merged.writeOk {q : Quorums String} {d : Durable} {m : AppendEntries} (hm : AppendOk a m) (hle : d.term ≤ m.term)
    (ht : t = { d with term := m.term, votedFor := if d.term < m.term then none else d.votedFor })
    {X : List Entry} {r : Durable} (hr : r = { t with log := r.log })
    (hX : Merged (a.book m.term) (a.log n) X r (m.prevIndex + m.entries.length)) :
    WriteOk q a n d
      { r with commit := max r.commit (min m.leaderCommit (m.prevIndex + m.entries.length)) } X .stateUpdate := by
  have hterm : r.term = m.term := by rw [hr, ht]
  have hcommit : r.commit = d.commit := by rw [hr, ht]
  have hreach := hX.reach
  have hc := hX.commit
  refine ⟨hX.shows_.congr rfl rfl rfl, ?_, Or.inl ?_, ?_, ⟨?_, ?_⟩, ?_, fun _ => ⟨?_, ?_⟩⟩
  · simp only [hterm]
    exact hle
  · rw [hr, ht]
  · refine hX.log.imp id fun hl => Or.inl ⟨?_, ?_, ?_⟩
    · simp [hterm, hm.led]
    · simp only [hterm]
      exact hl.1
    · simp only [hterm]
      exact hl.2
  · simp only [hcommit]
    exact le_max_left _ _
  · simp only
    omega
  · simp only [hterm]
    rcases Nat.le_total (min m.leaderCommit (m.prevIndex + m.entries.length)) r.commit with hle' | hle'
    · exact Or.inl (by rw [max_eq_left hle', hcommit])
    · refine Or.inr (Or.inl ?_)
      rw [max_eq_right hle']
      exact hm.settled.take hX.agree (min_le_right _ _) (min_le_left _ _)
  · rw [hr, ht]
  · rw [hr, ht]

namespace Turn

/-- A target that keeps the full log. -/
theorem writeOk (h : Turn M a net n s w) (ht : s.durable.term ≤ t.term)
    (hv : t.votedFor = (if s.durable.term < t.term then none else s.durable.votedFor) ∨ ∃ c, Casts a n s.durable t c)
    (hlog : t.log = s.durable.log) (hi : t.snapshotIndex = s.durable.snapshotIndex)
    (hst : t.snapshotTerm = s.durable.snapshotTerm)
    (hc : t.commit = s.durable.commit ∨ (s.durable.commit ≤ t.commit ∧ t.commit ≤ (a.log n).length ∧
      Committed a t.term ((a.log n).take t.commit))) :
    WriteOk M.quorums a n s.durable t (a.log n) kind where
  shows_ := h.shows_.congr hlog hi hst
  term := ht
  vote := hv
  log := Or.inl rfl
  commit := by
    rcases hc with hc | hc
    · exact ⟨hc.ge, hc.le.trans h.commit_le⟩
    · exact ⟨hc.1, hc.2.1⟩
  committed := hc.imp id fun hc => Or.inl hc.2.2
  ordinary _ := ⟨hi, hst⟩

/-! ### Votes -/

theorem adoptHigherTerm (h : Turn M a net n s w) {T : Nat} (hT : s.durable.term < T) :
    Outcome M a net n w (adoptHigherTerm s T) := by
  unfold Raft.adoptHigherTerm
  refine h.stage (Lowered.stepDown s) (L := a.log n) ?_ nofun nofun
  exact h.writeOk hT.le (Or.inl (by simp [hT])) rfl rfl rfl (Or.inl rfl)

/-- A candidate or leader has voted for itself. -/
theorem votedFor_self (h : Turn M a net n s w) (hr : s.volatile.role ≠ .follower) : s.durable.votedFor = some n := by
  have hvoted : ∃ L, Voted a n s.durable.term n L := by
    cases hrole : s.volatile.role with
    | follower => exact absurd hrole hr
    | candidate =>
      refine ⟨_, (h.node.candidate hrole fun p hp => ?_).own⟩
      rw [h.idle] at hp
      cases hp
    | leader => exact ⟨_, (h.inv.elected _ _ (h.node.leader hrole).led).own⟩
  obtain ⟨L, b, hb, h1, h2, h3, -⟩ := hvoted
  have := h.inv.ballot_vote b hb (by rw [h1, h2, h.node.holds.term])
  rw [← h.node.holds.vote, ← h1, this, h3, h1]

/-- The vote is granted to an eligible candidate, or again to the same one. -/
theorem grants (h : Turn M a net n s w) {m : RequestVote} (hm : MsgOk a net ⟨n, .requestVote m⟩)
    (hle : s.durable.term ≤ m.term) (ht : t = { s.durable with
      term := m.term, votedFor := if s.durable.term < m.term then none else s.durable.votedFor })
    (hg : ((t.votedFor.isNone || t.votedFor == some m.candidate) && t.upToDate m.lastTerm m.lastIndex) = true) :
    WriteOk M.quorums a n s.durable { t with votedFor := some m.candidate } (a.log n) .stateUpdate := by
  simp only [Bool.and_eq_true, Bool.or_eq_true, Option.isNone_iff_eq_none, beq_iff_eq] at hg
  obtain ⟨hvote, hup⟩ := hg
  have hterm : t.term = m.term := by rw [ht]
  refine h.writeOk (hterm ▸ hle) ?_ (by rw [ht]) (by rw [ht]) (by rw [ht]) (Or.inl (by rw [ht]))
  rcases hvote with hnone | hsame
  · refine Or.inr ⟨m.candidate, rfl, ?_, Or.inr ?_⟩
    · rw [ht] at hnone
      by_cases hlt : s.durable.term < m.term
      · exact Or.inl (by rw [hterm]; exact hlt)
      · exact Or.inr (by simpa [hlt] using hnone)
    · obtain ⟨C, hC, hlen, hlast⟩ := hm
      rw [hterm]
      refine ⟨C, hC, ?_⟩
      have hshows : Shows (a.log n) t := h.shows_.congr (by rw [ht]) (by rw [ht]) (by rw [ht])
      rw [hshows.upToDate, hlen, hlast] at hup
      exact hup
  · refine Or.inl ?_
    simp only [hterm, ← hsame]
    rw [ht]

theorem recvRequestVote (h : Turn M a net n s w) {m : RequestVote} (sent : ⟨n, .requestVote m⟩ ∈ net) :
    Outcome M a net n w (recvRequestVote (M.config n) s m) := by
  have hm := h.network _ sent
  unfold Raft.recvRequestVote
  split
  · exact h.quiet
  · rename_i hbad
    have hknown : knownPeer s m.candidate = true := by
      by_contra hk
      exact hbad (by simp [hk])
    dsimp only
    split
    · exact h.answer (by simp [MsgOk]) (by simp)
    · rename_i hterm
      have hle : s.durable.term ≤ m.term := by omega
      have ht := adoptTerm_eq hle
      generalize adoptTerm s.durable m.term = t at ht ⊢
      by_cases hfollow : s.durable.term < m.term ∨ s.volatile.role = .follower
      · have hl : Lowered s (if s.durable.term < m.term then stepDown s {} else (s, {})).1
            (if s.durable.term < m.term then stepDown s {} else (s, {})).2 := by
          split
          · exact Lowered.stepDown s
          · rename_i hlt
            exact Lowered.refl (hfollow.resolve_left hlt)
        generalize (if s.durable.term < m.term then stepDown s {} else (s, {})) = r at hl ⊢
        obtain ⟨s', e'⟩ := r
        dsimp only
        by_cases hg : ((t.votedFor.isNone || t.votedFor == some m.candidate) &&
            t.upToDate m.lastTerm m.lastIndex) = true
        · rw [if_pos hg, hg]
          refine h.persist_or_reply hl (h.grants hm hle ht hg) ?_ (fun _ => rfl) (by simp) (by simp)
          exact fun _ => ⟨rfl, rfl, rfl⟩
        · rw [if_neg hg, Bool.eq_false_iff.mpr hg]
          refine h.persist_or_reply hl (L := a.log n) ?_ ?_ (fun _ => rfl) (by simp) (by simp)
          · subst ht
            exact h.writeOk hle (Or.inl rfl) rfl rfl rfl (Or.inl rfl)
          · exact nofun
      · -- A candidate or leader of this term has voted for itself and denies the vote.
        rw [not_or] at hfollow
        have hself := h.votedFor_self hfollow.2
        have hterm' : m.term = s.durable.term := by omega
        have hne : m.candidate ≠ n := (h.known hknown).2
        have hsame : t = s.durable := by rw [ht, if_neg hfollow.1, hterm']
        rw [hsame, if_neg hfollow.1]
        have hno : (s.durable.votedFor.isNone || s.durable.votedFor == some m.candidate) = false := by
          simp [hself, Ne.symm hne]
        simp only [hno, Bool.false_and, Bool.false_eq_true, if_false, ne_eq, not_true_eq_false]
        exact h.answer (by simp [MsgOk]) (by simp)

/-! ### Appends -/

/-- A log that has the leader's term at the preceding index has the leader's entries up to it. -/
theorem agrees_at (h : Turn M a net n s w) {T i : Nat} (hi : i ≤ (a.book T).length) (hd : Shows (a.log n) t)
    (hp : t.termAt i = some (lastTerm ((a.book T).take i))) :
    t.snapshotIndex ≤ i ∧ i ≤ (a.log n).length ∧ (a.log n).take i = (a.book T).take i := by
  obtain ⟨hb, hlen, hterm⟩ := hd.termAt_iff.mp hp
  exact ⟨hb, hlen, take_eq_of_lastTerm (h.inv.backed_log n) (h.inv.backed_book T) hlen hi hterm.symm⟩

/-- The target of a successful append. -/
theorem merges (h : Turn M a net n s w) {m : AppendEntries} (hm : AppendOk a m)
    (ht : t = { s.durable with
      term := m.term, votedFor := if s.durable.term < m.term then none else s.durable.votedFor })
    (hprev : t.termAt m.prevIndex = some m.prevTerm) (hok : (mergeEntries t (m.prevIndex + 1) m.entries).2 = true) :
    ∃ X, Merged (a.book m.term) (a.log n) X (mergeEntries t (m.prevIndex + 1) m.entries).1
        (m.prevIndex + m.entries.length) ∧
      X.take s.durable.snapshotIndex = (a.log n).take s.durable.snapshotIndex := by
  have hshows : Shows (a.log n) t := h.shows_.congr (by rw [ht]) (by rw [ht]) (by rw [ht])
  have hx := hm.excerpt
  rw [hx.boundary] at hprev
  obtain ⟨hb, hlen, hagree⟩ := h.agrees_at (by have := hx.length; omega) hshows hprev
  have hstart : Merged (a.book m.term) (a.log n) (a.log n) t m.prevIndex :=
    ⟨hshows, hb, hlen, hagree, Or.inl rfl, by rw [ht]; exact h.commit_le⟩
  obtain ⟨X, hX⟩ := hstart.mergeEntries hx.length hx.entries hok
  refine ⟨X, hX, ?_⟩
  -- Both logs agree with the book up to the preceding index, which is not below the boundary.
  have hsi : s.durable.snapshotIndex ≤ m.prevIndex := by
    rw [ht] at hb
    exact hb
  have h1 := congrArg (List.take s.durable.snapshotIndex) hX.agree
  have h2 := congrArg (List.take s.durable.snapshotIndex) hagree
  rw [List.take_take, List.take_take, Nat.min_eq_left (by omega)] at h1
  rw [List.take_take, List.take_take, Nat.min_eq_left hsi] at h2
  rw [h1, h2]

theorem recvAppend (h : Turn M a net n s w) {m : AppendEntries} (sent : ⟨n, .appendEntries m⟩ ∈ net) :
    Outcome M a net n w (recvAppend (M.config n) s m) := by
  have hm : AppendOk a m := h.network _ sent
  unfold Raft.recvAppend
  split
  · exact h.quiet
  · split
    · exact h.quiet
    · split
      · exact h.quiet
      · dsimp only
        split
        · exact h.answer (by simp [MsgOk]) (by simp)
        · rename_i hterm
          have hle : s.durable.term ≤ m.term := by omega
          have ht := adoptTerm_eq hle
          have hl := Lowered.stepDown s
          generalize adoptTerm s.durable m.term = t at ht ⊢
          generalize stepDown s {} = r at hl ⊢
          obtain ⟨s', e'⟩ := r
          have hshows : Shows (a.log n) t := h.shows_.congr (by rw [ht]) (by rw [ht]) (by rw [ht])
          have hkeep : WriteOk M.quorums a n s.durable t (a.log n) .stateUpdate := by
            subst ht
            exact h.writeOk hle (Or.inl rfl) rfl rfl rfl (Or.inl rfl)
          dsimp only
          split
          · -- Without room for the entries only the matched prefix can commit.
            rename_i hcap
            simp only [Bool.and_eq_true, beq_iff_eq] at hcap
            have hprev := hcap.1
            rw [hm.excerpt.boundary] at hprev
            obtain ⟨-, hlen, hagree⟩ := h.agrees_at (by have := hm.excerpt.length; omega) hshows hprev
            have hl' : Lowered s s' { e' with capacityExhausted := true } :=
              ⟨hl.durable, hl.pending, hl.halted, hl.role, hl.keys, hl.persist, hl.sendNow, hl.snapshotNeeded⟩
            have hwrite : WriteOk M.quorums a n s.durable
                { t with commit := max t.commit (min m.leaderCommit m.prevIndex) } (a.log n) .stateUpdate := by
              subst ht
              refine h.writeOk hle (Or.inl rfl) rfl rfl rfl ?_
              have hcl := h.commit_le
              rcases Nat.le_total (min m.leaderCommit m.prevIndex) s.durable.commit with hle' | hle'
              · exact Or.inl (max_eq_left hle')
              · refine Or.inr ⟨le_max_left _ _, by simp only; omega, ?_⟩
                simp only [max_eq_right hle']
                exact hm.settled.take hagree (min_le_right _ _) (min_le_left _ _)
            refine h.persist_or_reply hl' hwrite ?_ (fun _ => rfl) (by simp) (by simp)
            exact nofun
          · by_cases hprev : t.termAt m.prevIndex = some m.prevTerm
            · simp only [hprev, beq_self_eq_true, if_true]
              have hr := mergeEntries_eq t (m.prevIndex + 1) m.entries
              have hmerge := h.merges hm ht hprev
              generalize mergeEntries t (m.prevIndex + 1) m.entries = r at hr hmerge ⊢
              obtain ⟨r, success⟩ := r
              dsimp only at hr hmerge
              cases success with
              | true =>
                obtain ⟨X, hX, hbound⟩ := hmerge rfl
                simp only [if_true]
                refine h.persist_or_reply hl (Merged.writeOk hm hle ht hr hX) ?_ (fun heq => ?_) (by simp) (by simp)
                · intro _
                  have hterm' : r.term = m.term := by rw [hr, ht]
                  simp only [hterm', true_and]
                  have hlen := hm.excerpt.length
                  refine ⟨rfl, by rw [hm.led]; simp, hlen, ?_, m, sent, rfl, rfl, rfl, rfl⟩
                  rw [← hX.agree]
                  exact List.take_prefix _ _
                · have hs : Shows X s.durable := heq ▸ hX.shows_.congr rfl rfl rfl
                  exact hs.unique h.shows_ hbound
              | false =>
                simp only [Bool.false_eq_true, if_false]
                have hsame : ({ r with log := s.durable.log, commit := s.durable.commit } : Durable) = t := by
                  rw [hr, ht]
                simp only [hsame]
                refine h.persist_or_reply hl hkeep ?_ (fun _ => rfl) (by simp) (by simp)
                exact nofun
            · have hno : (t.termAt m.prevIndex == some m.prevTerm) = false := by simpa using hprev
              simp only [hno, Bool.false_eq_true, if_false]
              have hsame : ({ t with log := s.durable.log, commit := s.durable.commit } : Durable) = t := by rw [ht]
              simp only [hsame]
              refine h.persist_or_reply hl hkeep ?_ (fun _ => rfl) (by simp) (by simp)
              exact nofun

/-! ### Snapshots -/

/-- The full log behind an installed snapshot: the old one if it agrees at the boundary, else the leader's
    book up to it. -/
theorem installs (h : Turn M a net n s w) {m : SnapshotRequest} (hled : a.leader m.term ≠ none)
    (hterm : m.snapshotTerm = lastTerm ((a.book m.term).take m.index)) (hset : Settled a m.term m.index)
    (hle : s.durable.term ≤ m.term)
    (ht : t = { s.durable with
      term := m.term, votedFor := if s.durable.term < m.term then none else s.durable.votedFor })
    (hcommit : t.commit < m.index) {suffix : List Entry}
    (hsuffix : suffix =
      if t.termAt m.index = some m.snapshotTerm then t.log.drop (m.index - t.snapshotIndex) else []) :
    ∃ X, WriteOk M.quorums a n s.durable
      { t with snapshotIndex := m.index, snapshotTerm := m.snapshotTerm, log := suffix, commit := m.index
               applied := m.index } X .snapshotInstall ∧ (a.book m.term).take m.index <+: X := by
  have hshows : Shows (a.log n) t := h.shows_.congr (by rw [ht]) (by rw [ht]) (by rw [ht])
  have hT : t.term = m.term := by rw [ht]
  have hb : t.snapshotIndex ≤ m.index := by
    have : t.snapshotIndex ≤ t.commit := by
      rw [ht]
      exact h.boundary_le
    omega
  have hc : s.durable.commit ≤ m.index := by
    rw [ht] at hcommit
    exact hcommit.le
  have hvote : t.votedFor = if s.durable.term < m.term then none else s.durable.votedFor := by rw [ht]
  by_cases hsame : t.termAt m.index = some m.snapshotTerm
  · rw [if_pos hsame] at hsuffix
    rw [hterm] at hsame
    obtain ⟨-, hlen, hagree⟩ := h.agrees_at hset.length hshows hsame
    refine ⟨a.log n, ⟨?_, by simp only [hT]; exact hle, Or.inl (by simp only [hT]; exact hvote), Or.inl rfl, ⟨hc, hlen⟩,
      Or.inr (Or.inl ?_), by simp⟩, ?_⟩
    · have := hshows.raise hb hlen
      rw [hagree, ← hterm, ← hsuffix] at this
      exact this.congr rfl rfl rfl
    · simp only [hT]
      exact hset.take hagree le_rfl le_rfl
    · rw [← hagree]
      exact List.take_prefix _ _
  · rw [if_neg hsame] at hsuffix
    have hlen : ((a.book m.term).take m.index).length = m.index := by simp [hset.length]
    have htake : ((a.book m.term).take m.index).take m.index = (a.book m.term).take m.index := by simp
    refine ⟨(a.book m.term).take m.index, ⟨⟨hlen.ge, ?_, ?_⟩, by simp only [hT]; exact hle,
      Or.inl (by simp only [hT]; exact hvote), Or.inr ?_, ⟨hc, hlen.ge⟩, Or.inr (Or.inl ?_), by simp⟩, List.prefix_rfl⟩
    · simp [hsuffix]
    · simp only [htake]
      exact hterm
    · simp only [hT]
      refine Or.inl ⟨hled, List.take_prefix _ _, fun P hPB hPL => take_length_le hPB ?_⟩
      -- A longer common prefix would agree at the boundary.
      by_contra hlong
      apply hsame
      rw [hshows.termAt_iff, hterm]
      have hPlen := hPL.length_le
      refine ⟨hb, by omega, ?_⟩
      rw [take_of_long hPB (by omega), take_of_long hPL (by omega)]
    · simp only [hT, htake]
      exact hset.committed

theorem recvSnapshot (h : Turn M a net n s w) {m : SnapshotRequest} (hled : a.leader m.term ≠ none)
    (hterm : m.snapshotTerm = lastTerm ((a.book m.term).take m.index)) (hset : Settled a m.term m.index) :
    Outcome M a net n w (recvSnapshot (M.config n) s m) := by
  unfold Raft.recvSnapshot
  split
  · exact h.quiet
  · split
    · exact h.quiet
    · dsimp only
      split
      · exact h.answer (by simp [MsgOk]) (by simp)
      · rename_i hnew
        have hle : s.durable.term ≤ m.term := by omega
        have ht := adoptTerm_eq hle
        have hl := Lowered.stepDown s
        generalize adoptTerm s.durable m.term = t at ht ⊢
        generalize stepDown s {} = r at hl ⊢
        obtain ⟨s', e'⟩ := r
        have hkeep : WriteOk M.quorums a n s.durable t (a.log n) .stateUpdate := by
          subst ht
          exact h.writeOk hle (Or.inl rfl) rfl rfl rfl (Or.inl rfl)
        dsimp only
        split
        · split
          · exact h.stage hl hkeep nofun nofun
          · exact h.lower hl
        · by_cases hinst : t.commit < m.index
          · obtain ⟨X, hX, hheld⟩ := h.installs hled hterm hset hle ht hinst rfl
            simp only [hinst, decide_true, if_true, Bool.true_or]
            refine h.persist_or_reply hl hX ?_ (fun heq => ?_) (by simp) (by simp)
            · have hT : t.term = m.term := by rw [ht]
              exact fun _ => by simpa [hT] using ⟨rfl, hled, hset.length, hheld⟩
            · -- An installed target has a higher commit index.
              have := congrArg Durable.commit heq
              rw [ht] at hinst
              simp only at this hinst
              omega
          · simp only [hinst, decide_false, Bool.false_eq_true, if_false, Bool.false_or]
            refine h.persist_or_reply hl hkeep ?_ (fun _ => rfl) (by simp) (by simp)
            intro hok
            have hshows : Shows (a.log n) t := hkeep.shows_
            have hT : t.term = m.term := by rw [ht]
            simp only [beq_iff_eq] at hok
            simp only [hok, beq_self_eq_true, if_true, hT, true_and]
            rw [hterm] at hok
            obtain ⟨-, hlen, hagree⟩ := h.agrees_at hset.length hshows hok
            refine ⟨rfl, hled, hset.length, ?_⟩
            rw [← hagree]
            exact List.take_prefix _ _

/-! ### Elections and maintenance -/

theorem mem_voteRequests {config : Config} {peers : List String} {id : RequestId} {o : Outbound}
    (ho : o ∈ voteRequests config t peers id) : ∃ m, o.message = .requestVote m ∧ m.term = t.term ∧
      m.candidate = config.self ∧ m.lastIndex = t.lastIndex ∧ m.lastTerm = t.lastTerm := by
  induction peers generalizing id with
  | nil => cases ho
  | cons peer peers ih =>
    rcases List.mem_cons.mp ho with rfl | ho
    · exact ⟨_, rfl, rfl, rfl, rfl, rfl⟩
    · exact ih ho

theorem electionTimeout (h : Turn M a net n s w) : Outcome M a net n w (electionTimeout (M.config n) s) := by
  unfold Raft.electionTimeout
  split
  · have hl := Lowered.stepDown s
    have hv := stepDown_votes s {}
    generalize stepDown s {} = r at hl hv ⊢
    obtain ⟨s', e'⟩ := r
    dsimp only at hl hv ⊢
    have hwrite : WriteOk M.quorums a n s.durable
        { s.durable with term := s.durable.term + 1, votedFor := some n } (a.log n) .stateUpdate := by
      refine h.writeOk (Nat.le_succ _) (Or.inr ⟨n, rfl, Or.inl (Nat.lt_succ_self _), Or.inl rfl⟩) rfl rfl rfl (Or.inl rfl)
    refine ⟨a, Moves.refl _ n a, ?_, ?_, ?_, ?_⟩
    · simp only [beginWrite, hl.sendNow, List.append_nil, Cluster.writeAfter]
      exact {
        holds := hl.durable ▸ h.node.holds
        peers := hl.keys ▸ h.node.peers
        pending := fun p hp => by
          obtain rfl := Option.some.inj hp
          refine ⟨_, a.log n, rfl, rfl, rfl, hl.durable ▸ hwrite, ?_⟩
          exact {
            after := fun o ho => by
              obtain ⟨m, hm, h1, h2, h3, h4⟩ := mem_voteRequests ho
              have hshows := hwrite.shows_
              unfold QueuedOk
              rw [hm]
              exact ⟨h2, h1, rfl, rfl, h3.trans hshows.lastIndex, h4.trans hshows.lastTerm⟩
            requests := fun o ho => by
              obtain ⟨m, hm, -⟩ := mem_voteRequests ho
              exact ⟨fun _ => ⟨m, hm⟩, fun _ => rfl⟩
            selfVote := fun _ => ⟨rfl, hv, by simp [hl.durable], rfl, rfl⟩
            active := by rintro ⟨⟩
            candidate := by rintro ⟨⟩
            snapshots := by rintro _ ⟨⟩
            apply := Or.inl rfl }
        failed := by rintro ⟨⟩
        halted := fun hh => by
          have := hl.halted.symm.trans hh
          rw [h.running] at this
          cases this
        candidate := fun _ hp => absurd (hp _ rfl) (by simp)
        leader := by rintro ⟨⟩
        leaderLog := by rintro ⟨⟩ }
    · simp [beginWrite, hl.sendNow]
    · simp [beginWrite, hl.sendNow]
    · simp [beginWrite, hl.snapshotNeeded]
  · exact h.quiet

/-- A write that neither moves the term nor changes the full log. -/
theorem maintain (h : Turn M a net n s w) {applyAfter : List Entry}
    (write : WriteOk M.quorums a n s.durable t (a.log n) kind) (term : t.term = s.durable.term)
    (vote : t.votedFor = s.durable.votedFor)
    (apply : applyAfter = [] ∨ ∃ e, applyAfter = [e] ∧ s.durable.entryAt t.applied = some e ∧
      t.applied ≤ s.durable.commit) :
    Outcome M a net n w (beginWrite s {} t [] applyAfter false [] kind) := by
  refine ⟨a, Moves.refl _ n a, ?_, nofun, nofun, nofun⟩
  simp only [beginWrite, List.append_nil, Cluster.writeAfter]
  exact h.node.maintain h.running h.idle write term vote apply {}

theorem applyCommitted (h : Turn M a net n s w) : Outcome M a net n w (applyCommitted s) := by
  unfold Raft.applyCommitted
  split
  · rename_i hlt
    refine h.maintain (h.writeOk le_rfl (Or.inl (by simp)) rfl rfl rfl (Or.inl rfl)) rfl rfl ?_
    cases he : ({ s.durable with applied := s.durable.applied + 1 } : Durable).entryAt (s.durable.applied + 1) with
    | none => exact Or.inl rfl
    | some e => exact Or.inr ⟨e, rfl, he, hlt.1⟩
  · exact h.quiet

theorem compactCommitted (h : Turn M a net n s w) : Outcome M a net n w (compactCommitted s) := by
  unfold Raft.compactCommitted
  dsimp only
  split
  · exact h.quiet
  · split
    · exact h.quiet
    · rename_i boundaryTerm hterm
      obtain ⟨hb, hlen, ht⟩ := h.shows_.termAt_iff.mp hterm
      refine h.maintain ?_ rfl rfl (Or.inl rfl)
      have hraise := h.shows_.raise hb hlen
      rw [← ht] at hraise
      exact ⟨hraise, le_rfl, Or.inl (by simp), Or.inl rfl, ⟨le_rfl, hlen⟩, Or.inl rfl, nofun⟩

end Turn

end Choreolog.Raft
