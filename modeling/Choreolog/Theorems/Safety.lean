import Choreolog.Raft.Play
import Choreolog.Theorems.SimStep

/-! # Safety of the transition core

What holds over whole runs of any cluster, read off the ledger that the run implements: one leader a term,
equal committed entries, complete leaders, matching logs and sound match indexes. Two states of one run
are compared through their ledgers, of which the later one only grows. -/

namespace Choreolog.Raft
open Lib Lib.Ledger

variable {M : Membership} {a b : Spec} {c c' : Cluster} {m n : String}

theorem Sim.compare (hr : c.Reachable M) (hl : c.Later M c') : ∃ a b, Sim M c a ∧ Sim M c' b ∧ Grows a b := by
  obtain ⟨a, ha⟩ := Sim.reachable hr
  obtain ⟨b, hab, hb⟩ := ha.later hl
  exact ⟨a, b, ha, hb, steps_grows ha.inv hab⟩

theorem Sim.led (h : Sim M c a) (hn : n ∈ M.members) (role : (c.nodes n).volatile.role = .leader) :
    a.leader (c.nodes n).durable.term = some n := ((h.nodes n hn).leader role).led

theorem Sim.shows_ (h : Sim M c a) (hn : n ∈ M.members) : Shows (a.log n) (c.nodes n).durable := (h.nodes n hn).holds.log

/-- The committed prefix of a member, as the ledger knows it. -/
theorem Sim.committed (h : Sim M c a) (hn : n ∈ M.members) :
    (c.nodes n).durable.commit ≤ (a.log n).length ∧
      Committed a (c.nodes n).durable.term ((a.log n).take (c.nodes n).durable.commit) := by
  have hold := (h.nodes n hn).holds
  rw [← hold.commit, ← hold.term]
  exact ⟨h.inv.commit_le n, h.inv.commit_log n⟩

theorem getElem?_of_take_eq {L L' : List Entry} {i : Nat} (h : L.take i = L'.take i) (hi : 0 < i) :
    L[i - 1]? = L'[i - 1]? := by
  rw [← List.getElem?_take_of_lt (show i - 1 < i by omega), h, List.getElem?_take_of_lt (by omega)]

/-! ### Elections -/

/-- Two leaders of one term are the same node, at whatever times of a run they lead. -/
theorem election_safety (hr : c.Reachable M) (hl : c.Later M c') (hm : m ∈ M.members) (hn : n ∈ M.members)
    (leads : (c.nodes m).volatile.role = .leader) (leads' : (c'.nodes n).volatile.role = .leader)
    (term : (c.nodes m).durable.term = (c'.nodes n).durable.term) : m = n := by
  obtain ⟨a, b, ha, hb, g⟩ := Sim.compare hr hl
  have h1 := g.leader (ha.led hm leads)
  rw [term, hb.led hn leads'] at h1
  exact (Option.some.inj h1).symm

/-- A pair elects a leader, who still leads after a commit. -/
theorem election_safety_pair : ∃ c c' : Cluster, c.Reachable pair ∧ c.Later pair c' ∧
    (c.nodes "a").volatile.role = .leader ∧ (c'.nodes "a").volatile.role = .leader ∧
    (c.nodes "a").durable.term = (c'.nodes "a").durable.term ∧ ("a" : String) = "a" := by
  obtain ⟨c, hr, leads, term, hrest⟩ := Cluster.exists_play pair (Cluster.init pair) pairElects
    (fun c => (c.nodes "a").volatile.role = .leader ∧ (c.nodes "a").durable.term = 1 ∧
      (c.play pair pairCommits).any (fun c' =>
        decide ((c'.nodes "a").volatile.role = .leader ∧ (c'.nodes "a").durable.term = 1)) = true) (by decide +kernel)
  obtain ⟨c', hl, leads', term'⟩ := Cluster.exists_play _ _ _ _ hrest
  have hterm := term.trans term'.symm
  exact ⟨c, c', hr, hl, leads, leads', hterm, election_safety hr hl (by decide) (by decide) leads leads' hterm⟩

/-! ### Committed entries -/

/-- Committed prefixes of one length are equal. -/
theorem Sim.take_committed (ha : Sim M c a) (hb : Sim M c' b) (g : Grows a b) (hm : m ∈ M.members)
    (hn : n ∈ M.members) {i : Nat} (hi : i ≤ (c.nodes m).durable.commit) (hi' : i ≤ (c'.nodes n).durable.commit) :
    (a.log m).take i = (b.log n).take i := by
  obtain ⟨hlen, hcom⟩ := ha.committed hm
  obtain ⟨hlen', hcom'⟩ := hb.committed hn
  have hcom := ha.inv.committed_grows g hcom le_rfl
  have h1 : ((a.log m).take (c.nodes m).durable.commit).take i = (a.log m).take i := by
    rw [List.take_take, Nat.min_eq_left hi]
  have h2 : ((b.log n).take (c'.nodes n).durable.commit).take i = (b.log n).take i := by
    rw [List.take_take, Nat.min_eq_left hi']
  rw [← h1, ← h2]
  rcases hb.inv.committed_comparable hcom hcom' with h | h
  · rw [take_of_long h (by simp; omega)]
  · rw [take_of_long h (by simp; omega)]

/-- Member `n` releases `e` at index `i` to its state machine when it takes `input`. -/
def Releases (M : Membership) (c : Cluster) (n : String) (input : Input) (i : Nat) (e : Entry) : Prop :=
  c.Allowed n input ∧ e ∈ (step (M.config n) (c.nodes n) input).2.apply ∧
    (step (M.config n) (c.nodes n) input).1.durable.applied = i

/-- A released entry is a committed one of the durable log. -/
theorem Sim.released (h : Sim M c a) (hn : n ∈ M.members) {input : Input} {i : Nat} {e : Entry}
    (hrel : Releases M c n input i e) : i ≤ (c.nodes n).durable.commit ∧ (c.nodes n).durable.entryAt i = some e := by
  obtain ⟨-, happly, happlied⟩ := hrel
  rcases step_inert (M.config n) (c.nodes n) input with hin | ⟨token, p, -, hp, hdur, hap⟩
  · rw [hin.apply] at happly
    cases happly
  · obtain ⟨_, _, -, -, -, -, hq⟩ := (h.nodes n hn).pending p hp
    rw [hdur] at happlied
    rw [hap] at happly
    rcases hq.apply with hnil | ⟨e', he', hentry, hcommit⟩
    · rw [hnil] at happly
      cases happly
    · rw [he', List.mem_singleton] at happly
      rw [happly, ← happlied]
      exact ⟨hcommit, hentry⟩

theorem Sim.entry_eq (ha : Sim M c a) (hb : Sim M c' b) (g : Grows a b) (hm : m ∈ M.members) (hn : n ∈ M.members)
    {i : Nat} (hi : i ≤ (c.nodes m).durable.commit) (hi' : i ≤ (c'.nodes n).durable.commit) {e e' : Entry}
    (he : (c.nodes m).durable.entryAt i = some e) (he' : (c'.nodes n).durable.entryAt i = some e') : e = e' := by
  obtain ⟨h0, h1⟩ := (ha.shows_ hm).entryAt_some he
  obtain ⟨-, h2⟩ := (hb.shows_ hn).entryAt_some he'
  rw [getElem?_of_take_eq (ha.take_committed hb g hm hn hi hi') (by omega), h2] at h1
  exact (Option.some.inj h1).symm

/-- Below both commit indexes, entries and snapshot boundaries agree, so all nodes release the same entry
    at an index. -/
theorem state_machine_safety (hr : c.Reachable M) (hl : c.Later M c') (hm : m ∈ M.members) (hn : n ∈ M.members) :
    (∀ i, i ≤ (c.nodes m).durable.commit → i ≤ (c'.nodes n).durable.commit →
      (∀ e e', (c.nodes m).durable.entryAt i = some e → (c'.nodes n).durable.entryAt i = some e' → e = e') ∧
      ((c.nodes m).durable.snapshotIndex = i → ∀ t, (c'.nodes n).durable.termAt i = some t →
        (c.nodes m).durable.snapshotTerm = t) ∧
      ((c'.nodes n).durable.snapshotIndex = i → ∀ t, (c.nodes m).durable.termAt i = some t →
        (c'.nodes n).durable.snapshotTerm = t)) ∧
    ∀ input input' i e e', Releases M c m input i e → Releases M c' n input' i e' → e = e' := by
  obtain ⟨a, b, ha, hb, g⟩ := Sim.compare hr hl
  refine ⟨fun i hi hi' => ⟨fun e e' he he' => ha.entry_eq hb g hm hn hi hi' he he', ?_, ?_⟩, ?_⟩
  · intro hs t ht
    rw [(ha.shows_ hm).boundary, hs, ha.take_committed hb g hm hn hi hi', ((hb.shows_ hn).termAt_iff.mp ht).2.2]
  · intro hs t ht
    rw [(hb.shows_ hn).boundary, hs, ← ha.take_committed hb g hm hn hi hi', ((ha.shows_ hm).termAt_iff.mp ht).2.2]
  · intro input input' i e e' hrel hrel'
    obtain ⟨hi, he⟩ := ha.released hm hrel
    obtain ⟨hi', he'⟩ := hb.released hn hrel'
    exact ha.entry_eq hb g hm hn hi hi' he he'

/-- Both members of a pair hold the entry they have committed. -/
theorem state_machine_safety_pair : ∃ (c : Cluster) (e e' : Entry), c.Reachable pair ∧
    1 ≤ (c.nodes "a").durable.commit ∧ 1 ≤ (c.nodes "b").durable.commit ∧
    (c.nodes "a").durable.entryAt 1 = some e ∧ (c.nodes "b").durable.entryAt 1 = some e' ∧ e = e' := by
  obtain ⟨c, hr, hcommit, hcommit', he, he'⟩ := Cluster.exists_play pair (Cluster.init pair) (pairElects ++ pairCommits)
    (fun c => 1 ≤ (c.nodes "a").durable.commit ∧ 1 ≤ (c.nodes "b").durable.commit ∧
      (c.nodes "a").durable.entryAt 1 = some ⟨1, "x"⟩ ∧ (c.nodes "b").durable.entryAt 1 = some ⟨1, "x"⟩) (by decide +kernel)
  have hsafe := state_machine_safety (m := "a") (n := "b") hr .refl (by decide) (by decide)
  exact ⟨c, _, _, hr, hcommit, hcommit', he, he', (hsafe.1 1 hcommit hcommit').1 _ _ he he'⟩

/-! ### Complete leaders -/

/-- What a durable state retains of an index of its full log. -/
theorem Shows.retains {L : List Entry} {d : Durable} (h : Shows L d) {i : Nat} {e : Entry} (hi : 0 < i)
    (he : L[i - 1]? = some e) :
    d.entryAt i = some e ∨ (i ≤ d.snapshotIndex ∧ (d.snapshotIndex = i → d.snapshotTerm = e.term)) := by
  rcases Nat.lt_or_ge d.snapshotIndex i with hlt | hge
  · exact Or.inl (by rw [h.entryAt hlt, he])
  · refine Or.inr ⟨hge, fun heq => ?_⟩
    obtain ⟨j, rfl⟩ : ∃ j, i = j + 1 := ⟨i - 1, by omega⟩
    rw [Nat.add_sub_cancel] at he
    rw [h.boundary, heq, take_succ_of_getElem? he, lastTerm_append]
    rfl

theorem getElem?_of_prefix_take {L B : List Entry} {k i : Nat} {e : Entry} (hp : L.take k <+: B) (hi : 0 < i)
    (hik : i ≤ k) (he : L[i - 1]? = some e) : B[i - 1]? = some e := by
  have hlt := (List.getElem?_eq_some_iff.mp he).1
  have htake : (L.take k)[i - 1]? = some e := by rw [List.getElem?_take_of_lt (by omega), he]
  have hlen : i - 1 < (L.take k).length := by
    rw [List.length_take]
    omega
  rw [List.prefix_iff_getElem?.mp hp (i - 1) hlen, ← htake, List.getElem?_eq_getElem hlen]

/-- A leader's full log has what was committed by an earlier term. -/
theorem Sim.committed_leader (h : Sim M c a) (hn : n ∈ M.members) (role : (c.nodes n).volatile.role = .leader)
    {P : List Entry} (hP : P <+: a.base (c.nodes n).durable.term) : P <+: a.log n := by
  rw [(h.nodes n hn).leaderLog role]
  exact hP.trans (h.inv.base_book _)

/-- A leader of a later term has every entry that a member, leading or not, had committed in an earlier
    term, or a snapshot past it. Either state may be the earlier one of the run. -/
theorem leader_completeness (hr : c.Reachable M) (hr' : c'.Reachable M) (order : c.Later M c' ∨ c'.Later M c)
    (hm : m ∈ M.members) (hn : n ∈ M.members) {i : Nat} {e : Entry} (commit : i ≤ (c.nodes m).durable.commit)
    (entry : (c.nodes m).durable.entryAt i = some e) (leads : (c'.nodes n).volatile.role = .leader)
    (later : (c.nodes m).durable.term < (c'.nodes n).durable.term) :
    (c'.nodes n).durable.entryAt i = some e ∨ (i ≤ (c'.nodes n).durable.snapshotIndex ∧
      ((c'.nodes n).durable.snapshotIndex = i → (c'.nodes n).durable.snapshotTerm = e.term)) := by
  have key : ∀ {a b}, Sim M c a → Sim M c' b →
      (a.log m).take (c.nodes m).durable.commit <+: b.base (c'.nodes n).durable.term →
      (c'.nodes n).durable.entryAt i = some e ∨ (i ≤ (c'.nodes n).durable.snapshotIndex ∧
        ((c'.nodes n).durable.snapshotIndex = i → (c'.nodes n).durable.snapshotTerm = e.term)) := by
    intro a b ha hb hbase
    obtain ⟨hpos, hget⟩ := (ha.shows_ hm).entryAt_some entry
    have hprefix := hb.committed_leader hn leads hbase
    exact (hb.shows_ hn).retains (by omega) (getElem?_of_prefix_take hprefix (by omega) commit hget)
  rcases order with hl | hl
  · obtain ⟨a, b, ha, hb, g⟩ := Sim.compare hr hl
    have hcom := ha.inv.committed_grows g (ha.committed hm).2 le_rfl
    exact key ha hb (hb.inv.committed_base hcom later (by simp [hb.led hn leads]))
  · -- The later leader came first in time; its base has not changed since.
    obtain ⟨b, a, hb, ha, g⟩ := Sim.compare hr' hl
    have hled : b.leader (c'.nodes n).durable.term ≠ none := by simp [hb.led hn leads]
    refine key ha hb ?_
    rw [← g.base hled]
    exact ha.inv.committed_base (ha.committed hm).2 later (g.led hled)

/-- A restarted leader of a pair has the entry of its earlier term. -/
theorem leader_completeness_pair : ∃ c c' : Cluster, c.Reachable pair ∧ c.Later pair c' ∧
    (c'.nodes "a").volatile.role = .leader ∧ (c.nodes "a").durable.term < (c'.nodes "a").durable.term ∧
    (c.nodes "a").durable.entryAt 1 = some ⟨1, "x"⟩ ∧ 1 ≤ (c.nodes "a").durable.commit ∧
    ((c'.nodes "a").durable.entryAt 1 = some ⟨1, "x"⟩ ∨ (1 ≤ (c'.nodes "a").durable.snapshotIndex ∧
      ((c'.nodes "a").durable.snapshotIndex = 1 → (c'.nodes "a").durable.snapshotTerm = 1))) := by
  obtain ⟨c, hr, hcommit, he, hterm, hrest⟩ := Cluster.exists_play pair (Cluster.init pair) (pairElects ++ pairCommits)
    (fun c => 1 ≤ (c.nodes "a").durable.commit ∧ (c.nodes "a").durable.entryAt 1 = some ⟨1, "x"⟩ ∧
      (c.nodes "a").durable.term < 2 ∧ (c.play pair pairRestarts).any (fun c' =>
        decide ((c'.nodes "a").volatile.role = .leader ∧ (c'.nodes "a").durable.term = 2)) = true) (by decide +kernel)
  obtain ⟨c', hl, leads, hterm'⟩ := Cluster.exists_play _ _ _ _ hrest
  rw [← hterm'] at hterm
  exact ⟨c, c', hr, hl, leads, hterm, he, hcommit,
    leader_completeness hr (hr.trans hl) (Or.inl hl) (by decide) (by decide) hcommit he leads hterm⟩

/-! ### Matching logs -/

/-- A durable state of a member, or the target of its pending write. -/
def Stored (c : Cluster) (n : String) (d : Durable) : Prop :=
  d = (c.nodes n).durable ∨ ∃ p, (c.nodes n).pending = some p ∧ d = p.target

theorem Appends.backed {q : Quorums String} {d t : Durable} {L : List Entry} (hi : Inv q a) (h : Appends a n d t L) :
    ∃ b, Moves q n a b ∧ Backed b L := by
  obtain ⟨e, he, rfl⟩ := h.entry
  have hm : Moves q n a _ := Moves.extend (e := e) (by rw [he, h.led])
  refine ⟨_, hm, ?_⟩
  have hback := (hm.inv hi).backed_book e.term
  simp only [Function.update_self] at hback
  rw [h.book, ← he]
  exact hback

/-- The full logs behind the stored states of a member are backed, after its pending append if need be. -/
theorem Sim.stored {a' : Spec} (h : Sim M c a) (hn : n ∈ M.members) (hi : Inv M.quorums a') (g : Grows a a')
    (f : Frame n a a') : ∃ b, Moves M.quorums n a' b ∧ ∀ d, Stored c n d → ∃ L, Shows L d ∧ Backed b L := by
  have hown : Shows (a'.log n) (c.nodes n).durable := f.log ▸ h.shows_ hn
  cases hp : (c.nodes n).pending with
  | none =>
    refine ⟨a', Moves.refl _ n a', fun d hd => ⟨a'.log n, ?_, hi.backed_log n⟩⟩
    rcases hd with rfl | ⟨p, hp', -⟩
    · exact hown
    · rw [hp] at hp'
      cases hp'
  | some p =>
    obtain ⟨r, L, -, -, htarget, hw, -⟩ := (h.nodes n hn).pending p hp
    rw [htarget] at hw
    have hw := hw.frame h.inv hi g f
    obtain ⟨b, hm, hback⟩ : ∃ b, Moves M.quorums n a' b ∧ Backed b L := by
      rcases hw.log with rfl | hl | hl
      · exact ⟨a', Moves.refl _ n a', hi.backed_log n⟩
      · exact ⟨a', Moves.refl _ n a', (hi.backed_book _).of_sub hl.sub⟩
      · exact hl.backed hi
    refine ⟨b, hm, fun d hd => ?_⟩
    rcases hd with rfl | ⟨p', hp', rfl⟩
    · exact ⟨a'.log n, hown, (hi.backed_log n).grows (hm.grows hi)⟩
    · obtain rfl := Option.some.inj (hp.symm.trans hp')
      exact ⟨L, hw.shows_, hback⟩

/-- Two full logs that the books back and that know one term at an index retain the same entries up to it. -/
theorem Shows.entry_eq {L L' : List Entry} {d d' : Durable} (hL : Shows L d) (hL' : Shows L' d') (hback : Backed a L)
    (hback' : Backed a L') {i j t : Nat} {e e' : Entry} (ht : d.termAt i = some t) (ht' : d'.termAt i = some t)
    (hj : j ≤ i) (he : d.entryAt j = some e) (he' : d'.entryAt j = some e') : e = e' := by
  obtain ⟨-, hi, hterm⟩ := hL.termAt_iff.mp ht
  obtain ⟨-, hi', hterm'⟩ := hL'.termAt_iff.mp ht'
  have htake := take_eq_of_lastTerm hback hback' hi hi' (hterm.symm.trans hterm')
  obtain ⟨hpos, hget⟩ := hL.entryAt_some he
  obtain ⟨-, hget'⟩ := hL'.entryAt_some he'
  rw [← List.getElem?_take_of_lt (show j - 1 < i by omega), htake, List.getElem?_take_of_lt (by omega), hget'] at hget
  exact (Option.some.inj hget).symm

/-- Two stored states that know the same term at an index retain the same entries up to it. -/
theorem log_matching (hr : c.Reachable M) (hm : m ∈ M.members) (hn : n ∈ M.members) {d d' : Durable}
    (hd : Stored c m d) (hd' : Stored c n d') {i j t : Nat} {e e' : Entry} (ht : d.termAt i = some t)
    (ht' : d'.termAt i = some t) (hj : j ≤ i) (he : d.entryAt j = some e) (he' : d'.entryAt j = some e') : e = e' := by
  obtain ⟨a, ha⟩ := Sim.reachable hr
  obtain ⟨b, hab, hstored⟩ := ha.stored hm ha.inv (Grows.refl a) (Frame.refl m a)
  have hib := hab.inv ha.inv
  obtain ⟨L, hL, hback⟩ := hstored d hd
  by_cases hmn : n = m
  · subst hmn
    obtain ⟨L', hL', hback'⟩ := hstored d' hd'
    exact hL.entry_eq hL' hback hback' ht ht' hj he he'
  · obtain ⟨b', hbb', hstored'⟩ := ha.stored hn hib (hab.grows ha.inv) (hab.frame n hmn)
    obtain ⟨L', hL', hback'⟩ := hstored' d' hd'
    exact hL.entry_eq hL' (hback.grows (hbb'.grows hib)) hback' ht ht' hj he he'

/-- Both members of a pair know the term at index 1, and agree on the entry. -/
theorem log_matching_pair : ∃ (c : Cluster) (e e' : Entry), c.Reachable pair ∧
    (c.nodes "a").durable.termAt 1 = some 1 ∧ (c.nodes "b").durable.termAt 1 = some 1 ∧
    (c.nodes "a").durable.entryAt 1 = some e ∧ (c.nodes "b").durable.entryAt 1 = some e' ∧ e = e' := by
  obtain ⟨c, hr, ht, ht', he, he'⟩ := Cluster.exists_play pair (Cluster.init pair) (pairElects ++ pairCommits)
    (fun c => (c.nodes "a").durable.termAt 1 = some 1 ∧ (c.nodes "b").durable.termAt 1 = some 1 ∧
      (c.nodes "a").durable.entryAt 1 = some ⟨1, "x"⟩ ∧ (c.nodes "b").durable.entryAt 1 = some ⟨1, "x"⟩) (by decide +kernel)
  exact ⟨c, _, _, hr, ht, ht', he, he',
    log_matching hr (by decide) (by decide) (Or.inl rfl) (Or.inl rfl) ht ht' le_rfl he he'⟩

/-! ### Match indexes -/

/-- What a leader counts as matched is a stretch of its book that the peer's full log has. -/
theorem Sim.acked (h : Sim M c a) (hn : n ∈ M.members) {peer : String} (hp : peer ∈ M.members)
    (leads : (c.nodes n).volatile.role = .leader) {p : PeerProgress}
    (progress : (c.nodes n).volatile.peers.find? peer = some p)
    (term : (c.nodes peer).durable.term ≤ (c.nodes n).durable.term) {j : Nat} (hj : j ≤ p.matched) :
    j ≤ (a.book (c.nodes n).durable.term).length ∧ (a.book (c.nodes n).durable.term).take j <+: a.log peer := by
  rcases (((h.nodes n hn).leader leads).progress peer p trivial progress).matched with h0 | hm
  · obtain rfl : j = 0 := by omega
    simp
  · obtain ⟨-, -, hlen⟩ := h.inv.ack_le _ _ _ (hm j hj)
    refine ⟨hlen, ?_⟩
    rcases h.inv.ack_log _ _ _ (hm j hj) with ⟨T, hlt, hle, -⟩ | hheld
    · rw [(h.nodes peer hp).holds.term] at hle
      omega
    · exact hheld

/-- The entry that a leader counts as matched stands in its book and in the peer's full log. -/
theorem Sim.matched (h : Sim M c a) (hn : n ∈ M.members) {peer : String} (hp : peer ∈ M.members)
    (leads : (c.nodes n).volatile.role = .leader) {p : PeerProgress}
    (progress : (c.nodes n).volatile.peers.find? peer = some p)
    (term : (c.nodes peer).durable.term ≤ (c.nodes n).durable.term) {j : Nat} (pos : 0 < j) (hj : j ≤ p.matched) :
    ∃ e, (a.book (c.nodes n).durable.term)[j - 1]? = some e ∧ (a.log peer)[j - 1]? = some e := by
  obtain ⟨hlen, hheld⟩ := h.acked hn hp leads progress term hj
  have he := List.getElem?_eq_getElem (show j - 1 < (a.book (c.nodes n).durable.term).length by omega)
  exact ⟨_, he, getElem?_of_prefix_take hheld pos le_rfl he⟩

/-- A member in no later term than a leader holds all that the leader counts as matched: the entries that
    the leader retains or, where it has compacted them, those that it had committed. -/
theorem match_index_sound (hr : c.Reachable M) (hn : n ∈ M.members) {peer : String} (hp : peer ∈ M.members)
    (leads : (c.nodes n).volatile.role = .leader) {p : PeerProgress}
    (progress : (c.nodes n).volatile.peers.find? peer = some p)
    (term : (c.nodes peer).durable.term ≤ (c.nodes n).durable.term) {j : Nat} (pos : 0 < j) (hj : j ≤ p.matched) :
    j ≤ (c.nodes peer).durable.snapshotIndex ∨ ∃ e, (c.nodes peer).durable.entryAt j = some e ∧
      ((c.nodes n).durable.entryAt j = some e ∨ (j ≤ (c.nodes n).durable.snapshotIndex ∧
        ((c.nodes n).durable.snapshotIndex = j → (c.nodes n).durable.snapshotTerm = e.term) ∧
        ∀ c₀ : Cluster, c₀.Reachable M → c₀.Later M c → j ≤ (c₀.nodes n).durable.commit →
          ∀ e₀, (c₀.nodes n).durable.entryAt j = some e₀ → e₀ = e)) := by
  obtain ⟨a, ha⟩ := Sim.reachable hr
  obtain ⟨e, hbook, hpeer⟩ := ha.matched hn hp leads progress term pos hj
  rcases (ha.shows_ hp).retains pos hpeer with hret | hsnap
  · refine Or.inr ⟨e, hret, ?_⟩
    have hlead : (a.log n)[j - 1]? = some e := by
      rw [(ha.nodes n hn).leaderLog leads]
      exact hbook
    rcases (ha.shows_ hn).retains pos hlead with hown | hcompact
    · exact Or.inl hown
    · refine Or.inr ⟨hcompact.1, hcompact.2, fun c₀ hr₀ hl₀ hcommit e₀ he₀ => ?_⟩
      obtain ⟨a₀, a₁, ha₀, ha₁, g⟩ := Sim.compare hr₀ hl₀
      obtain ⟨e₁, hbook₁, hpeer₁⟩ := ha₁.matched hn hp leads progress term pos hj
      rw [((ha₁.shows_ hp).entryAt_some hret).2] at hpeer₁
      obtain rfl := Option.some.inj hpeer₁
      -- What the leader had committed by then is in its book now.
      have hterm : (c₀.nodes n).durable.term ≤ (c.nodes n).durable.term := by
        rw [← (ha₀.nodes n hn).holds.term, ← (ha₁.nodes n hn).holds.term]
        exact g.term n
      have hcom := ha₀.inv.committed_grows g (ha₀.committed hn).2 hterm
      have hprefix := ha₁.inv.committed_book hcom (by simp [ha₁.led hn leads])
      have := getElem?_of_prefix_take hprefix pos hcommit ((ha₀.shows_ hn).entryAt_some he₀).2
      rw [hbook₁] at this
      exact (Option.some.inj this).symm
  · exact Or.inl hsnap.1

/-- The leader of a pair counts one entry as matched, and the follower holds it. -/
theorem match_index_sound_pair : ∃ (c : Cluster) (p : PeerProgress), c.Reachable pair ∧
    (c.nodes "a").volatile.role = .leader ∧ (c.nodes "a").volatile.peers.find? "b" = some p ∧ 1 ≤ p.matched ∧
    (c.nodes "b").durable.term ≤ (c.nodes "a").durable.term ∧ (c.nodes "b").durable.snapshotIndex = 0 ∧
    ∃ e, (c.nodes "b").durable.entryAt 1 = some e := by
  obtain ⟨c, hr, leads, hmatched, hterm, hsnap⟩ :=
    Cluster.exists_play pair (Cluster.init pair) (pairElects ++ pairCommits)
      (fun c => (c.nodes "a").volatile.role = .leader ∧
        ((c.nodes "a").volatile.peers.find? "b").any (fun p => decide (1 ≤ p.matched)) = true ∧
        (c.nodes "b").durable.term ≤ (c.nodes "a").durable.term ∧ (c.nodes "b").durable.snapshotIndex = 0) (by decide +kernel)
  cases hp : (c.nodes "a").volatile.peers.find? "b" with
  | none => simp [hp] at hmatched
  | some p =>
    rw [hp] at hmatched
    have hle := of_decide_eq_true hmatched
    refine ⟨c, p, hr, leads, hp, hle, hterm, hsnap, ?_⟩
    rcases match_index_sound hr (by decide) (by decide) leads hp hterm Nat.one_pos hle with h | ⟨e, he, -⟩
    · omega
    · exact ⟨e, he⟩

end Choreolog.Raft
