import Choreolog.Theorems.SimLead

/-! # Replies and commits

A leader's match index for a peer only ever moves to what that peer has acknowledged, since a reply is
taken for the one request that carries its id. So what a quorum of match indexes has reached is chosen. -/

namespace Choreolog.Raft
open Lib Lib.Ledger

variable {M : Membership} {a b : Spec} {net : List Outbound} {n : String} {s : Node} {w : Option PersistRequest}

namespace Turn

/-- The leader takes a reply into its record of a peer. -/
theorem setProgress (h : Turn M a net n s w) (hr : s.volatile.role = .leader) {peer : String}
    {f : PeerProgress → PeerProgress}
    (hf : ∀ p, s.volatile.peers.find? peer = some p → ProgressOk a n s.durable.term net peer p →
      ProgressOk a n s.durable.term net peer (f p)) : NodeSim M a net n (setProgress s peer f) none := by
  have hl := h.leading hr
  have hset : Leading a n (Raft.setProgress s peer f) net fun _ => True :=
    hl.setProgress (List.Subset.refl _) (fun p hp _ => hf p hp (hl.progress peer p trivial hp)) hl.fresh hl.unique
  exact NodeSim.leading h.node.holds ((SendFrame.setProgress s peer f).keys ▸ h.node.peers) hr h.idle h.running hset
    (h.leaderLog hr)

theorem recvSnapshotReply (h : Turn M a net n s w) {m : SnapshotReply} (sent : ⟨n, .snapshotReply m⟩ ∈ net) :
    Outcome M a net n w (recvSnapshotReply s m) := by
  have hm := h.network _ sent
  unfold Raft.recvSnapshotReply
  split
  · exact h.quiet
  · split
    · rename_i hlt
      exact h.adoptHigherTerm hlt
    · split
      · rename_i hlead
        obtain ⟨hterm, hr⟩ := hlead
        obtain rfl := h.no_write
        refine (h.setProgress hr fun p hp hok => ?_).outcome rfl rfl rfl
        split
        · exact hok
        · rename_i probe hprobe
          split
          · rename_i hid
            split
            · rename_i hs
              have hindex : probe.index = m.index := hid.2.resolve_left (by simp [hs])
              have hack : Acked a m.follower s.durable.term probe.index := by
                rw [hindex, ← hterm]
                exact hm hs
              refine ⟨?_, hok.inFlight, nofun⟩
              rcases le_total probe.index p.matched with hle | hle
              · simp only [max_eq_left hle]
                exact hok.matched
              · simp only [max_eq_right hle]
                exact Or.inr hack
            · exact ⟨hok.matched, hok.inFlight, nofun⟩
          · exact hok
      · exact h.quiet

/-- The request in flight is the one that the reply answers. -/
theorem acked_of_reply (h : Turn M a net n s w) (hr : s.volatile.role = .leader) {m : AppendReply} {p : PeerProgress}
    {probe : Probe} (hm : MsgOk a net ⟨n, .appendReply m⟩) (hs : m.success = true) (hterm : m.term = s.durable.term)
    (hp : s.volatile.peers.find? m.follower = some p) (hprobe : p.inFlight = some probe)
    (hid : probe.requestId = m.requestId) :
    Acked a m.follower s.durable.term (probe.prev + probe.count) ∧ m.matched = probe.prev + probe.count := by
  have hl := h.leading hr
  obtain ⟨hack, x, hx, hx1, hx2, hx3, hx4⟩ := hm hs
  obtain ⟨-, y, -, hy1, hy2, hy3, hy4, hy5, hy⟩ := (hl.progress m.follower p trivial hp).inFlight probe hprobe
  have heq := hl.unique _ hx _ hy x y ⟨rfl, hx1, hx2.trans hterm⟩ ⟨rfl, hy2, hy1⟩ (by rw [hx3, hy3, hid])
  obtain rfl := WireMessage.appendEntries.inj (Outbound.mk.inj heq).2
  have hmatched : m.matched = probe.prev + probe.count := by rw [hy4, hy5, hx4]
  rw [← hmatched, ← hterm]
  exact ⟨hack, rfl⟩

theorem recvAppendReply (h : Turn M a net n s w) {m : AppendReply} (sent : ⟨n, .appendReply m⟩ ∈ net) :
    Outcome M a net n w (recvAppendReply (M.config n) s m) := by
  have hm := h.network _ sent
  unfold Raft.recvAppendReply
  split
  · exact h.quiet
  · split
    · rename_i hlt
      exact (h.adoptHigherTerm hlt).completeRead
    · split
      · rename_i hlead
        obtain ⟨hr, hterm⟩ := hlead
        split
        · exact h.quiet
        · rename_i probe hprobe
          obtain ⟨p, hp, hin⟩ := Option.bind_eq_some_iff.mp hprobe
          split
          · exact h.quiet
          · rename_i hsame
            rw [not_or, not_not, not_not] at hsame
            obtain rfl := h.no_write
            dsimp only
            apply Outcome.completeRead
            have hprogress : NodeSim M a net n (Raft.setProgress s m.follower fun p => progressAfter p probe m) none := by
              refine h.setProgress hr fun p' hp' hok => ?_
              obtain rfl := Option.some.inj (hp.symm.trans hp')
              unfold progressAfter
              split
              · rename_i hs
                refine ⟨?_, nofun, hok.snapshot⟩
                have hack := (h.acked_of_reply hr hm hs hterm hp hin hsame.1).1
                rcases le_total (probe.prev + probe.count) p.matched with hle | hle
                · simp only [max_eq_left hle]
                  exact hok.matched
                · simp only [max_eq_right hle]
                  exact Or.inr hack
              · exact ⟨hok.matched, nofun, hok.snapshot⟩
            split
            · exact (hprogress.setRead _).outcome rfl rfl rfl
            · exact hprogress.outcome rfl rfl rfl
      · exact h.quiet.completeRead

end Turn

/-! ### Commits -/

/-- The search for a commit index returns the old one, or an index of the present term that a quorum has
    matched. -/
theorem highestCommittableFrom_spec (config : Config) (s : Node) (k : Nat) :
    highestCommittableFrom config s k = s.durable.commit ∨
      ((s.durable.entryAt (highestCommittableFrom config s k)).any (·.term == s.durable.term) = true ∧
        quorum config ≤ matchVotes s (highestCommittableFrom config s k)) := by
  induction k with
  | zero => exact Or.inl rfl
  | succ k ih =>
    unfold highestCommittableFrom
    dsimp only
    split
    · rename_i hterm
      split
      · rename_i hvotes
        exact Or.inr ⟨hterm, hvotes⟩
      · exact ih
    · exact ih

/-- The members that count for index `k`: the leader and the peers that match it. -/
def matchSet (n : String) (s : Node) (k : Nat) : Finset String :=
  insert n ((s.volatile.peers.entries.filter fun e => k ≤ e.2.matched).map (·.1)).toFinset

theorem matchVotes_le_card {k : Nat} (hn : n ∉ s.volatile.peers.keys) : matchVotes s k ≤ (matchSet n s k).card := by
  have hsub : ((s.volatile.peers.entries.filter fun e => k ≤ e.2.matched).map (·.1)).Sublist s.volatile.peers.keys :=
    List.filter_sublist.map _
  unfold matchSet matchVotes
  rw [Finset.card_insert_of_notMem, List.toFinset_card_of_nodup (hsub.nodup s.volatile.peers.keys_nodup), List.length_map]
  · omega
  · rw [List.mem_toFinset]
    exact fun hm => hn (hsub.mem hm)

theorem mem_matchSet {k : Nat} {v : String} (hv : v ∈ matchSet n s k) :
    v = n ∨ ∃ p, s.volatile.peers.find? v = some p ∧ k ≤ p.matched := by
  rcases Finset.mem_insert.mp hv with hv | hv
  · exact Or.inl hv
  · rw [List.mem_toFinset, List.mem_map] at hv
    obtain ⟨⟨v', p⟩, hmem, rfl⟩ := hv
    rw [List.mem_filter] at hmem
    exact Or.inr ⟨p, OrdMap.mem_entries.mp hmem.1, by simpa using hmem.2⟩

namespace Turn

/-- An index of the present term that a quorum has matched is chosen, once the leader counts itself. -/
theorem chosen (h : Turn M a net n s w) (hr : s.volatile.role = .leader) {k : Nat} {e : Entry}
    (he : s.durable.entryAt k = some e) (hterm : e.term = s.durable.term)
    (hvotes : quorum (M.config n) ≤ matchVotes s k) (hack : Acked a n s.durable.term k) :
    Chosen M.quorums a s.durable.term k := by
  have hl := h.leading hr
  obtain ⟨hk, hget⟩ := h.shows_.entryAt_some he
  obtain ⟨j, rfl⟩ : ∃ j, k = j + 1 := ⟨k - 1, by omega⟩
  rw [Nat.add_sub_cancel, h.leaderLog hr] at hget
  refine ⟨by simp [hl.led], ⟨_, e, (take_succ_of_getElem? hget).symm, hterm⟩, (List.getElem?_eq_some_iff.mp hget).1,
    matchSet n s (j + 1), M.isQuorum h.member ?_ (hvotes.trans (matchVotes_le_card ?_)), ?_⟩
  · intro v hv
    rcases mem_matchSet hv with rfl | ⟨p, hp, -⟩
    · exact h.member
    · exact (h.known (by rw [knownPeer, OrdMap.contains_iff, OrdMap.mem_keys]; simp [hp])).1
  · rw [h.node.peers, M.mem_peers n h.member]
    exact fun hm => hm.2 rfl
  · intro v hv
    rcases mem_matchSet hv with rfl | ⟨p, hp, hle⟩
    · exact hack _ le_rfl
    · rcases (hl.progress v p trivial hp).matched with h0 | hm
      · omega
      · exact hm _ hle

theorem advanceCommit (h : Turn M a net n s w) : Outcome M a net n w (advanceCommit (M.config n) s) := by
  unfold Raft.advanceCommit
  split
  · rename_i hr
    dsimp only
    split
    · rename_i hlt
      have hspec := highestCommittableFrom_spec (M.config n) s (s.durable.lastIndex - s.durable.commit)
      unfold highestCommittable at hlt ⊢
      generalize highestCommittableFrom (M.config n) s (s.durable.lastIndex - s.durable.commit) = k at hspec hlt ⊢
      obtain ⟨hterm, hvotes⟩ := hspec.resolve_left (by omega)
      cases he : s.durable.entryAt k with
      | none => simp [he] at hterm
      | some e =>
        have hterm : e.term = s.durable.term := by simpa [he] using hterm
        -- The leader counts itself: it holds its whole book.
        obtain ⟨hk, hget⟩ := h.shows_.entryAt_some he
        have hlen : k ≤ (a.book s.durable.term).length := by
          have := (List.getElem?_eq_some_iff.mp hget).1
          rw [h.leaderLog hr] at this
          omega
        have hheld : (a.book s.durable.term).take k <+: a.log n := by
          rw [h.leaderLog hr]
          exact List.take_prefix _ _
        obtain ⟨b, hb, hack⟩ := exists_acked (q := M.quorums) h.node.holds.term (by simp [(h.leading hr).led]) hlen hheld
        have h' := h.acks hb
        refine Outcome.of_moves h.inv hb.moves (h'.maintain ?_ rfl rfl (Or.inl rfl))
        have hled := (h'.leading hr).led
        have hchosen := h'.chosen hr he hterm hvotes hack
        refine ⟨h'.shows_.congr rfl rfl rfl, le_rfl, Or.inl (by simp), Or.inl rfl, ⟨hlt.le, ?_⟩,
          Or.inr (Or.inr ⟨hled, rfl, rfl, ?_, hchosen⟩), fun _ => ⟨rfl, rfl⟩⟩
        · rw [h'.leaderLog hr]
          exact hchosen.length
        · rw [h'.leaderLog hr]
          exact List.take_prefix _ _
    · exact h.quiet
  · exact h.quiet

end Turn

end Choreolog.Raft
