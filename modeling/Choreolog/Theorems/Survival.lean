import Choreolog.Theorems.Safety

/-! # What survives

What a member has committed is on the disks of a majority from then on, whichever members crash. A member only goes
forward, and a leader only adds to its log. -/

namespace Choreolog.Raft
open Lib Lib.Ledger

variable {M : Membership} {c c' : Cluster} {m n : String} {i : Nat} {e : Entry}

/-- The entry is still there, or a snapshot covers it. -/
def Durable.Retains (d : Durable) (i : Nat) (e : Entry) : Prop :=
  d.entryAt i = some e ∨ i ≤ d.snapshotIndex ∧ (d.snapshotIndex = i → d.snapshotTerm = e.term)

/-- The first of a pair leads with one entry. -/
abbrev PairLed (c : Cluster) : Prop :=
  (c.nodes "a").volatile.role = .leader ∧ (c.nodes "a").durable.term = 1 ∧ (c.nodes "a").durable.entryAt 1 = some ⟨1, "x"⟩

/-- It commits the entry, crashes, and comes back with a newer term. -/
theorem pair_survives : ∃ c c₁ c' : Cluster, (c.Reachable pair ∧ c.Later pair c₁ ∧ c₁.Later pair c') ∧ PairLed c ∧
    (PairLed c₁ ∧ (c₁.nodes "a").durable.commit = 1) ∧ (c'.nodes "a").durable.term = 2 := by
  obtain ⟨c, hr, hled, hrest⟩ := Cluster.exists_play pair (Cluster.init pair) (pairElects ++ pairCommits.take 2)
    (fun c => PairLed c ∧ (c.play pair (pairCommits.drop 2)).any (fun c₁ => decide (PairLed c₁ ∧ (c₁.nodes "a").durable.commit = 1 ∧
      (c₁.play pair pairRestarts).any (fun c' => decide ((c'.nodes "a").durable.term = 2)) = true)) = true) (by decide +kernel)
  obtain ⟨c₁, hl, hled₁, hcommit, hrest₁⟩ := Cluster.exists_play _ _ _ _ hrest
  obtain ⟨c', hl', hterm⟩ := Cluster.exists_play _ _ _ _ hrest₁
  exact ⟨c, c₁, c', ⟨hr, hl, hl'⟩, hled, ⟨hled₁, hcommit⟩, hterm⟩

/-- At every later time a majority of the members holds what a member had committed. -/
theorem committed_survives (hr : c.Reachable M) (hl : c.Later M c') (hm : m ∈ M.members) (commit : i ≤ (c.nodes m).durable.commit)
    (entry : (c.nodes m).durable.entryAt i = some e) :
    ∃ Q ⊆ M.members, M.members.card < 2 * Q.card ∧ ∀ v ∈ Q, (c'.nodes v).durable.Retains i e := by
  obtain ⟨a, b, ha, hb, g⟩ := Sim.compare hr hl
  obtain ⟨hpos, hget⟩ := (ha.shows_ hm).entryAt_some entry
  have hcom := ha.inv.committed_grows g (ha.committed hm).2 le_rfl
  have hsome : (a.log m).take (c.nodes m).durable.commit ≠ [] := by
    intro hnil
    rcases List.take_eq_nil_iff.mp hnil with hzero | hlog
    · omega
    · rw [hlog] at hget
      cases hget
  obtain ⟨Q, ⟨hsub, hcard⟩, hheld⟩ := hb.inv.committed_quorum hcom hsome
  refine ⟨Q, hsub, hcard, fun v hv => ?_⟩
  exact (hb.shows_ (hsub hv)).retains (by omega) (getElem?_of_prefix_take (hheld v hv) (by omega) commit hget)

/-- Both members of a pair hold what they have committed, also after one has restarted. -/
theorem committed_survives_pair : ∃ c c' : Cluster, c.Reachable pair ∧ c.Later pair c' ∧ 1 ≤ (c.nodes "a").durable.commit ∧
    (c.nodes "a").durable.entryAt 1 = some ⟨1, "x"⟩ ∧ (c'.nodes "a").durable.term = 2 ∧
    ∃ Q ⊆ pair.members, pair.members.card < 2 * Q.card ∧ ∀ v ∈ Q, (c'.nodes v).durable.Retains 1 ⟨1, "x"⟩ := by
  obtain ⟨_, c, c', ⟨hr, hl, hl'⟩, -, ⟨⟨-, -, he⟩, hcommit⟩, hterm⟩ := pair_survives
  exact ⟨c, c', hr.trans hl, hl', hcommit.ge, he, hterm, committed_survives (hr.trans hl) hl' (by decide) hcommit.ge he⟩

/-- A member goes forward only, through crashes too: its term and its commit index, its committed entries, and its vote. -/
theorem member_advances (hr : c.Reachable M) (hl : c.Later M c') (hn : n ∈ M.members) :
    (c.nodes n).durable.term ≤ (c'.nodes n).durable.term ∧ (c.nodes n).durable.commit ≤ (c'.nodes n).durable.commit ∧
      (∀ i e, i ≤ (c.nodes n).durable.commit → (c.nodes n).durable.entryAt i = some e → (c'.nodes n).durable.Retains i e) ∧
      ∀ x y, (c.nodes n).durable.term = (c'.nodes n).durable.term → (c.nodes n).durable.votedFor = some x →
        (c'.nodes n).durable.votedFor = some y → x = y := by
  obtain ⟨a, b, ha, hb, g⟩ := Sim.compare hr hl
  have hold := (ha.nodes n hn).holds
  have hold' := (hb.nodes n hn).holds
  have hcommit : (c.nodes n).durable.commit ≤ (c'.nodes n).durable.commit := hold.commit ▸ hold'.commit ▸ g.commit n
  refine ⟨hold.term ▸ hold'.term ▸ g.term n, hcommit, fun i e hi he => ?_, fun x y hterm hx hy => ?_⟩
  · obtain ⟨hpos, hget⟩ := hold.log.entryAt_some he
    refine hold'.log.retains (by omega) ?_
    rw [← hget, getElem?_of_take_eq (ha.take_committed hb g hn hn hi (hi.trans hcommit)) (by omega)]
  · obtain ⟨_, v, hv, hvoter, hvterm, rfl, -⟩ := ha.inv.vote_ballot n x (hold.vote.trans hx)
    obtain ⟨_, v', hv', hvoter', hvterm', rfl, -⟩ := hb.inv.vote_ballot n y (hold'.vote.trans hy)
    refine (hb.inv.ballot_unique v (g.ballots hv) v' hv' (hvoter.trans hvoter'.symm) ?_).1
    rw [hvterm, hvterm', hold.term, hold'.term, hterm]

theorem member_advances_pair : ∃ c c' : Cluster, c.Reachable pair ∧ c.Later pair c' ∧ (c'.nodes "a").durable.term = 2 ∧
    (c.nodes "a").durable.term ≤ (c'.nodes "a").durable.term ∧ (c.nodes "a").durable.commit ≤ (c'.nodes "a").durable.commit := by
  obtain ⟨_, c, c', ⟨hr, hl, hl'⟩, -, -, hterm⟩ := pair_survives
  obtain ⟨hle, hcommit, -⟩ := member_advances (hr.trans hl) hl' (show "a" ∈ pair.members by decide)
  exact ⟨c, c', hr.trans hl, hl', hterm, hle, hcommit⟩

/-- While a member leads in a term, it overwrites and drops nothing of its log. -/
theorem leader_appends (hr : c.Reachable M) (hl : c.Later M c') (hn : n ∈ M.members) (leads : (c.nodes n).volatile.role = .leader)
    (leads' : (c'.nodes n).volatile.role = .leader) (term : (c.nodes n).durable.term = (c'.nodes n).durable.term)
    (entry : (c.nodes n).durable.entryAt i = some e) : (c'.nodes n).durable.Retains i e := by
  obtain ⟨a, b, ha, hb, g⟩ := Sim.compare hr hl
  obtain ⟨hpos, hget⟩ := (ha.shows_ hn).entryAt_some entry
  have hbook : a.log n <+: b.log n := by
    rw [(ha.nodes n hn).leaderLog leads, (hb.nodes n hn).leaderLog leads', ← term]
    exact g.book _
  obtain ⟨rest, hrest⟩ := hbook
  refine (hb.shows_ hn).retains (by omega) ?_
  rw [← hrest, List.getElem?_append_left (List.getElem?_eq_some_iff.mp hget).1, hget]

theorem leader_appends_pair : ∃ c c' : Cluster, c.Reachable pair ∧ c.Later pair c' ∧ (c'.nodes "a").durable.commit = 1 ∧
    (c.nodes "a").durable.entryAt 1 = some ⟨1, "x"⟩ ∧ (c'.nodes "a").durable.Retains 1 ⟨1, "x"⟩ := by
  obtain ⟨c, c', _, ⟨hr, hl, -⟩, ⟨leads, hterm, he⟩, ⟨⟨leads', hterm', -⟩, hcommit⟩, -⟩ := pair_survives
  exact ⟨c, c', hr, hl, hcommit, he, leader_appends hr hl (by decide) leads leads' (hterm.trans hterm'.symm) he⟩

end Choreolog.Raft
