import Choreolog.Theorems.Sim

/-! # Durable writes and crashes

A completed write performs the ledger updates that it was staged for: it enters the term, casts the vote,
adopts the log and moves the commit index. A crash during the write leaves a state that some of these
updates lead to, whatever part of the write the disk holds. -/

namespace Choreolog.Raft
open Lib Lib.Ledger Function

variable {q : Quorums String} {n : String} {a b : Spec} {d t : Durable} {L : List Entry} {kind : PersistKind}

/-- What entering a term and voting leaves as it was. -/
structure Unwritten (a b : Spec) : Prop where
  log : b.log = a.log
  commit : b.commit = a.commit
  leader : b.leader = a.leader
  book : b.book = a.book
  sealed : b.sealed = a.sealed

/-- `b` follows from `a` by entering the term of `t` and casting its vote. -/
structure Entered (q : Quorums String) (n : String) (a b : Spec) (d t : Durable) : Prop where
  moves : Moves q n a b
  term : b.term n = t.term
  vote : b.vote n = t.votedFor
  unwritten : Unwritten a b
  cast : ∀ c, Casts a n d t c → Voted b n t.term c (a.log n)

theorem exists_raise (h : Holds a n d) (hterm : d.term ≤ t.term) :
    ∃ b, Moves q n a b ∧ b.term n = t.term ∧ b.vote n = (if d.term < t.term then none else d.votedFor) ∧
      Unwritten a b ∧ b.ballots = a.ballots := by
  by_cases hlt : d.term < t.term
  · refine ⟨_, Moves.raise (by rw [h.term]; exact hlt), ?_, ?_, ⟨rfl, rfl, rfl, rfl, rfl⟩, rfl⟩
    · simp
    · simp [hlt]
  · refine ⟨a, Moves.refl q n a, ?_, ?_, ⟨rfl, rfl, rfl, rfl, rfl⟩, rfl⟩
    · rw [h.term]
      omega
    · rw [if_neg hlt, h.vote]

theorem Casts.not_kept {c : String} (hc : Casts a n d t c) :
    t.votedFor ≠ if d.term < t.term then none else d.votedFor := by
  rw [hc.vote]
  split
  · simp
  · rename_i hlt
    rw [hc.free.resolve_left hlt]
    simp

theorem exists_entered (hi : Inv q a) (h : Holds a n d) (hterm : d.term ≤ t.term)
    (hvote : t.votedFor = (if d.term < t.term then none else d.votedFor) ∨ ∃ c, Casts a n d t c) :
    ∃ b, Entered q n a b d t := by
  obtain ⟨b, hm, hT, hv, hu, hb⟩ := exists_raise (q := q) h hterm
  rcases hvote with hkept | ⟨c, hc⟩
  · exact ⟨b, hm, hT, hv.trans hkept.symm, hu, fun c hc => absurd hkept hc.not_kept⟩
  · have free : b.vote n = none := by
      rw [hv]
      split
      · rfl
      · rename_i hlt
        exact hc.free.resolve_left hlt
    have eligible : c = n ∨ Eligible b c (b.term n) (b.log n) := by
      rw [hT, hu.log]
      refine hc.eligible.imp id fun ⟨C, hC, hup⟩ => ⟨C, ?_, hup⟩
      unfold Voted
      rw [hb]
      exact hC
    have hg := Moves.grant (q := q) free eligible
    refine ⟨_, hm.trans hi hg, hT, ?_, ⟨hu.log, hu.commit, hu.leader, hu.book, hu.sealed⟩, fun c' hc' => ?_⟩
    · simp [hc.vote]
    · have : c' = c := Option.some.inj (hc'.vote.symm.trans hc.vote)
      exact ⟨_, Set.mem_insert _ _, rfl, hT, this.symm, congrFun hu.log n⟩

/-- `b` follows from `a` by entering the term of `t`, casting its vote and taking the log `L`. A leader's
    log stays the whole book. -/
structure Adopted (q : Quorums String) (n : String) (a b : Spec) (d t : Durable) (L : List Entry) : Prop where
  moves : Moves q n a b
  term : b.term n = t.term
  vote : b.vote n = t.votedFor
  log : b.log n = L
  commit : b.commit = a.commit
  leader : b.leader = a.leader
  book : a.leader t.term = some n → t.term = d.term → a.log n = a.book t.term → b.book t.term = L
  cast : ∀ c, Casts a n d t c → Voted b n t.term c (a.log n)

theorem exists_adopted (hi : Inv q a) (h : Holds a n d) (hterm : d.term ≤ t.term)
    (hvote : t.votedFor = (if d.term < t.term then none else d.votedFor) ∨ ∃ c, Casts a n d t c)
    (hlog : L = a.log n ∨ Adopts a n t L ∨ Appends a n d t L) : ∃ b, Adopted q n a b d t L := by
  obtain ⟨b, hb⟩ := exists_entered hi h hterm hvote
  have hu := hb.unwritten
  rcases hlog with rfl | hl | hl
  · exact ⟨b, hb.moves, hb.term, hb.vote, congrFun hu.log n, hu.commit, hu.leader,
      fun _ _ hbook => by rw [hu.book, hbook], hb.cast⟩
  · have hm : Moves q n b { b with log := update b.log n L } := by
      refine Moves.adopt ?_ ?_ ?_
      · rw [hb.term, hu.leader]
        exact hl.led
      · rw [hb.term, hu.book]
        exact hl.sub
      · rw [hb.term, hu.book, hu.log]
        exact hl.keeps
    refine ⟨_, hb.moves.trans hi hm, hb.term, hb.vote, by simp, hu.commit, hu.leader, fun _ _ hbook => ?_, hb.cast⟩
    -- A leader holds the whole book, so it keeps all of it.
    have hwhole := hl.keeps _ (hbook ▸ List.prefix_rfl) List.prefix_rfl
    rw [hbook] at hwhole
    simp only [hu.book]
    exact hwhole.eq_of_length_le hl.sub.length_le
  · obtain ⟨e, he, rfl⟩ := hl.entry
    have hled : b.leader e.term = some n := by rw [hu.leader, he, hl.led]
    have hext := Moves.extend (q := q) hled
    have hbook : ∀ T, T = t.term → update b.book e.term (b.book e.term ++ [e]) T = a.log n ++ [e] := by
      rintro T rfl
      rw [he, update_self, hu.book, hl.book]
    have hm : Moves q n { b with book := update b.book e.term (b.book e.term ++ [e]) }
        { b with
          book := update b.book e.term (b.book e.term ++ [e])
          log := update b.log n (a.log n ++ [e]) } := by
      refine Moves.adopt ?_ ?_ ?_
      · simp only [hb.term, ← he, hled]
        simp
      · simp only [hbook _ hb.term]
        exact List.prefix_rfl
      · simp only [hbook _ hb.term, hu.log]
        exact fun P _ hP => hP.trans (List.prefix_append _ _)
    have hib := hb.moves.inv hi
    exact ⟨_, hb.moves.trans hi (hext.trans hib hm), hb.term, hb.vote, by simp, hu.commit, hu.leader,
      fun _ _ _ => hbook _ rfl, hb.cast⟩

/-- `b` follows from `a` by the whole write. -/
structure Performed (q : Quorums String) (n : String) (a b : Spec) (d t : Durable) (L : List Entry) : Prop where
  moves : Moves q n a b
  holds : Holds b n t
  log : b.log n = L
  leader : b.leader = a.leader
  book : a.leader t.term = some n → t.term = d.term → a.log n = a.book t.term → b.book t.term = L
  cast : ∀ c, Casts a n d t c → Voted b n t.term c (a.log n)

theorem WriteOk.perform (hi : Inv q a) (h : Holds a n d) (hw : WriteOk q a n d t L kind) :
    ∃ b, Performed q n a b d t L := by
  obtain ⟨b, hb⟩ := exists_adopted hi h hw.term hw.vote hw.log
  have hg := hb.moves.grows hi
  have hcommit : b.commit n = d.commit := by rw [hb.commit, h.commit]
  have hlater : b.commit n ≤ t.commit := hcommit.le.trans hw.commit.1
  have shows_ : Shows (b.log n) t := by
    rw [hb.log]
    exact hw.shows_
  -- The commit index stays, moves as a follower learns it, or is sealed by the leader.
  rcases hw.committed with hkept | hlearn | hseal
  · exact ⟨b, hb.moves, ⟨hb.term, hb.vote, hcommit.trans hkept.symm, shows_⟩, hb.log, hb.leader, hb.book, hb.cast⟩
  · have hm : Moves q n b { b with commit := update b.commit n t.commit } := by
      refine Moves.learn hlater ?_ ?_
      · rw [hb.log]
        exact hw.commit.2
      · rw [hb.term, hb.log]
        exact hi.committed_grows hg hlearn le_rfl
    exact ⟨_, hb.moves.trans hi hm, ⟨hb.term, hb.vote, by simp, shows_⟩, hb.log, hb.leader, hb.book, hb.cast⟩
  · have hm : Moves q n b { b with
        commit := update b.commit n t.commit, sealed := update b.sealed (b.term n) t.commit } := by
      refine Moves.sealTo ?_ hlater ?_ ?_
      · rw [hb.term, hb.leader]
        exact hseal.led
      · rw [hb.term, hg.take_book hseal.chosen.length, hb.log, hseal.log]
        exact hseal.held
      · rw [hb.term]
        exact hg.chosen hseal.chosen
    exact ⟨_, hb.moves.trans hi hm, ⟨hb.term, hb.vote, by simp, shows_⟩, hb.log, hb.leader, hb.book, hb.cast⟩

/-! ### Torn writes -/

theorem EntryLog.length_le_commonPrefixSize {P l l' : EntryLog} (h : P <+: l) (h' : P <+: l') :
    P.length ≤ EntryLog.commonPrefixSize l l' := by
  induction P generalizing l l' with
  | nil => simp
  | cons e P ih =>
    obtain ⟨R, rfl⟩ := h
    obtain ⟨R', rfl⟩ := h'
    simpa [EntryLog.commonPrefixSize] using ih ⟨R, rfl⟩ ⟨R', rfl⟩

/-- Two full logs over one boundary share at most the boundary and what their retained parts share. -/
theorem Shows.common_length {L L' P : List Entry} {d t : Durable} (h : Shows L d) (h' : Shows L' t)
    (hb : t.snapshotIndex = d.snapshotIndex) (hP : P <+: L) (hP' : P <+: L') :
    P.length ≤ d.snapshotIndex + EntryLog.commonPrefixSize d.log t.log := by
  have h1 : P.drop d.snapshotIndex <+: d.log := by
    rw [h.log]
    exact hP.drop d.snapshotIndex
  have h2 : P.drop d.snapshotIndex <+: t.log := by
    rw [h'.log, hb]
    exact hP'.drop d.snapshotIndex
  have := EntryLog.length_le_commonPrefixSize h1 h2
  rw [List.length_drop] at this
  omega

/-- A log torn after the common part is a log that the node could have taken. -/
theorem WriteOk.torn (h : Holds a n d) (hw : WriteOk q a n d t L .stateUpdate) {k : Nat}
    (hk : EntryLog.commonPrefixSize d.log t.log ≤ k) :
    L.take (d.snapshotIndex + k) = a.log n ∨ Adopts a n t (L.take (d.snapshotIndex + k)) ∨
      Appends a n d t (L.take (d.snapshotIndex + k)) := by
  obtain ⟨hs, -⟩ := hw.ordinary rfl
  have hcommon : ∀ P, P <+: a.log n → P <+: L → P.length ≤ d.snapshotIndex + k := fun P hP hPL =>
    (h.log.common_length hw.shows_ hs hP hPL).trans (by omega)
  rcases hw.log with rfl | hl | hl
  · exact Or.inl (List.take_of_length_le (hcommon _ List.prefix_rfl List.prefix_rfl))
  · refine Or.inr (Or.inl ⟨hl.led, (List.take_prefix _ _).trans hl.sub, fun P hPB hPO => ?_⟩)
    have hPL := hl.keeps P hPB hPO
    rw [List.prefix_take_iff]
    exact ⟨hPL, hcommon P hPO hPL⟩
  · obtain ⟨e, -, hL⟩ := hl.entry
    have hlen := hcommon (a.log n) List.prefix_rfl (hL ▸ List.prefix_append _ _)
    rcases Nat.lt_or_ge (d.snapshotIndex + k) L.length with hlt | hge
    · rw [hL, List.length_append, List.length_singleton] at hlt
      refine Or.inl ?_
      rw [hL, show d.snapshotIndex + k = (a.log n).length by omega, List.take_left]
    · rw [List.take_of_length_le hge]
      exact Or.inr (Or.inr hl)

theorem WriteOk.recover_log (hi : Inv q a) (h : Holds a n d) (hw : WriteOk q a n d t L .stateUpdate) {k : Nat}
    (hk : EntryLog.commonPrefixSize d.log t.log ≤ k) :
    ∃ b, Moves q n a b ∧ Holds b n { d with term := t.term, votedFor := t.votedFor, log := t.log.take k } := by
  obtain ⟨hs, hst⟩ := hw.ordinary rfl
  obtain ⟨b, hb⟩ := exists_adopted hi h hw.term hw.vote (hw.torn h hk)
  have hcut := hw.shows_.cut (k := d.snapshotIndex + k) (by omega)
  refine ⟨b, hb.moves, hb.term, hb.vote, ?_, ?_⟩
  · rw [hb.commit]
    exact h.commit
  · rw [hb.log]
    refine hcut.congr ?_ hs.symm hst.symm
    simp [hs]

/-- Whatever a crash leaves on disk is reached by ledger updates of the node. -/
theorem Recovers.moves (hi : Inv q a) (h : Holds a n d) {w : Option PersistRequest}
    (hw : ∀ r, w = some r → ∃ L, WriteOk q a n d r.target L r.kind) {found : Durable} (hr : Recovers d w found) :
    ∃ b, Moves q n a b ∧ Holds b n found := by
  induction hr with
  | old w => exact ⟨a, Moves.refl q n a, h⟩
  | target r =>
    obtain ⟨L, hL⟩ := hw r rfl
    obtain ⟨b, hb⟩ := hL.perform hi h
    exact ⟨b, hb.moves, hb.holds⟩
  | termAndVote r kind =>
    obtain ⟨L, hL⟩ := hw r rfl
    obtain ⟨b, hb⟩ := exists_entered hi h hL.term hL.vote
    refine ⟨b, hb.moves, hb.term, hb.vote, ?_, ?_⟩
    · rw [hb.unwritten.commit]
      exact h.commit
    · rw [hb.unwritten.log]
      exact h.log.congr rfl rfl rfl
  | log r kind k kept =>
    obtain ⟨L, hL⟩ := hw r rfl
    rw [kind] at hL
    exact hL.recover_log hi h kept
  | commit r kind =>
    obtain ⟨L, hL⟩ := hw r rfl
    obtain ⟨b, hb⟩ := hL.perform hi h
    exact ⟨b, hb.moves, hb.holds.term, hb.holds.vote, hb.holds.commit, hb.holds.log.congr rfl rfl rfl⟩
  | replayed found applied lower upper ih =>
    obtain ⟨b, hm, hb⟩ := ih hw
    exact ⟨b, hm, hb.term, hb.vote, hb.commit, hb.log.congr rfl rfl rfl⟩

end Choreolog.Raft
