import Choreolog.Theorems.Reads
import Choreolog.Theorems.Reactions
import Choreolog.Theorems.Safety

/-! # Read barriers over runs

From the state in which a leader admits a read on, a member that acknowledges one of its later probes was
in no later term than the leader's when the read was admitted. A quorum of them excludes that a later
leader had committed anything by then, and what earlier leaders had committed lies below the index
of the read. -/

namespace Choreolog.Raft
open Lib Lib.Ledger Function

variable {M : Membership} {a a₁ : Spec} {c c' : Cluster} {n : String} {T k : Nat}

/-- Node `n` takes the read: it does not halt, and its answer, if any, is not a rejection. -/
def Admits (M : Membership) (c : Cluster) (n : String) (context : RequestId) : Prop :=
  (step (M.config n) (c.nodes n) (.beginRead context)).1.halted = false ∧
    ∀ r, (step (M.config n) (c.nodes n) (.beginRead context)).2.read = some r → r.status = .ready

theorem Admits.spec {context : RequestId} (h : Admits M c n context) :
    (c.nodes n).pending = none ∧ (c.nodes n).volatile.read = none ∧ (c.nodes n).volatile.role = .leader := by
  unfold Admits step at h
  split at h
  · have := h.1
    simp at this
  · dsimp only at h
    unfold beginRead at h
    split at h
    · have := h.2 _ rfl
      simp only at this
      split at this <;> cases this
    · rename_i hidle
      split at h
      · have := h.2 _ rfl
        cases this
      · rename_i hread
        split at h
        · have := h.2 _ rfl
          cases this
        · rename_i hrole
          rw [not_not] at hrole
          simp only [Bool.not_eq_true, Option.isSome_eq_false_iff, Option.isNone_iff_eq_none] at hread
          exact ⟨(idle_of_not hidle).2, hread, hrole⟩

theorem Admits.of {context : RequestId} (valid : (c.nodes n).durable.valid = true)
    (idle : (c.nodes n).pending = none) (running : (c.nodes n).halted = false)
    (free : (c.nodes n).volatile.read = none) (leads : (c.nodes n).volatile.role = .leader)
    (commit : (c.nodes n).durable.commit ≠ 0)
    (ready : (c.nodes n).durable.termAt (c.nodes n).durable.commit = some (c.nodes n).durable.term) :
    Admits M c n context := by
  unfold Admits step
  rw [if_neg (by simp [valid, idle])]
  dsimp only
  unfold beginRead
  rw [if_neg (by simp [running, idle]), if_neg (by simp [free]), if_neg (by simp [leads]),
    if_neg (by simp [commit, ready])]
  dsimp only
  refine ⟨?_, fun r hr => ?_⟩
  · rw [completeRead_halted]
    exact (SendFrame.foldl (SendFrame.sendAppend _ _) _ ⟨setRead _ _, [], []⟩).halted.trans running
  · rcases completeRead_eq _ _ (M.config n) with heq | ⟨b, -, -, -, -, -, heq⟩
    · rw [heq] at hr
      cases hr
    · rw [heq] at hr
      rw [← Option.some.inj hr]

/-! ### From the admission on -/

/-- Requests of a leader that were made after it had request counter `k` in term `T`. -/
def LateFrom (T k : Nat) (term : Nat) (id : RequestId) : Prop := T < term ∨ (term = T ∧ k ≤ id)

/-- A member that was in no later term than `T` at the admission. -/
def FreshFrom (M : Membership) (a₁ : Spec) (f : String) (T : Nat) : Prop := f ∈ M.members ∧ a₁.term f ≤ T

/-- No term up to `T` had committed more than `index` entries at the admission. -/
def CoversFrom (a₁ : Spec) (_ : RequestId) (T index : Nat) : Prop := ∀ T₀ ≤ T, a₁.sealed T₀ ≤ index

/-- What holds at every state after one in which leader `n` of term `T` had no read and counter `k`. -/
structure Watch (M : Membership) (a₁ : Spec) (n : String) (T k : Nat) (c : Cluster) : Prop where
  sent : ∀ m, ⟨n, .appendReply m⟩ ∈ c.network → m.success = true → LateFrom T k m.term m.requestId →
    FreshFrom M a₁ m.follower m.term
  waits : ∀ f ∈ M.members, ∀ m, ⟨n, .appendReply m⟩ ∈ queue (c.nodes f) → m.success = true →
    LateFrom T k m.term m.requestId → FreshFrom M a₁ m.follower m.term
  read : ReadInv (LateFrom T k) (FreshFrom M a₁) (CoversFrom a₁) (c.nodes n)

/-- A leader leads no term beyond its own. -/
theorem Sim.led_le (h : Sim M c a) (hn : n ∈ M.members) {T : Nat} (hl : a.leader T = some n) :
    T ≤ (c.nodes n).durable.term := by
  obtain ⟨b, hb, h1, h2, -⟩ := (h.inv.elected T n hl).own
  have := h.inv.ballot_le b hb
  rw [h1, h2, (h.nodes n hn).holds.term] at this
  exact this

/-- At the start no late request exists, so nothing answers one. -/
theorem Watch.start (h : Sim M c a₁) (hn : n ∈ M.members) (leads : (c.nodes n).volatile.role = .leader)
    (free : (c.nodes n).volatile.read = none) :
    Watch M a₁ n (c.nodes n).durable.term (c.nodes n).nextRequestId c := by
  have hl := (h.nodes n hn).leader leads
  have none_late : ∀ m, Answers c.network n m → ¬LateFrom (c.nodes n).durable.term (c.nodes n).nextRequestId m.term m.requestId := by
    rintro m ⟨x, hx, hleader, hterm, hid, -⟩ hlate
    have hok : AppendOk a₁ x := h.network _ hx
    rcases hlate with hlt | ⟨heq, hle⟩
    · have := h.led_le hn (hleader ▸ hok.led)
      omega
    · have := hl.fresh _ (List.mem_append_left _ hx) x ⟨rfl, hleader, hterm.trans heq⟩
      rw [hid] at this
      exact absurd this (Nat.not_lt.mpr hle)
  refine ⟨fun m hm hs hlate => ?_, fun f hf m hm hs hlate => ?_, ?_⟩
  · exact absurd hlate (none_late m (h.network _ hm hs).2)
  · cases hp : (c.nodes f).pending with
    | none => simp [queue, hp] at hm
    | some p =>
      obtain ⟨r, L, -, -, -, -, hq⟩ := (h.nodes f hf).pending p hp
      have hqueued := hq.after _ (by simpa [queue, hp] using hm)
      exact absurd hlate (none_late m (hqueued hs).2.2.2.2.2)
  · exact ⟨fun _ id hid => Or.inr ⟨rfl, hid⟩, fun b hb => by simp [free] at hb, fun b hb => by simp [free] at hb⟩

/-! ### Admitted indexes -/

/-- A leader whose commit index has reached an entry of its own term has committed all that any term up
    to its own had. -/
theorem Sim.covers (h : Sim M c a) (g : Grows a₁ a) (hn : n ∈ M.members) (leads : (c.nodes n).volatile.role = .leader)
    (commit : (c.nodes n).durable.commit ≠ 0)
    (ready : (c.nodes n).durable.termAt (c.nodes n).durable.commit = some (c.nodes n).durable.term)
    (context : RequestId) : CoversFrom a₁ context (c.nodes n).durable.term (c.nodes n).durable.commit := by
  have hled := h.led hn leads
  have hbook := (h.nodes n hn).leaderLog leads
  obtain ⟨-, hlen, hlast⟩ := (h.shows_ hn).termAt_iff.mp ready
  intro T₀ hT₀
  refine (g.sealed T₀).trans ?_
  rcases Nat.lt_or_eq_of_le hT₀ with hlt | rfl
  · by_cases h0 : 0 < a.sealed T₀
    · have hchosen := h.inv.sealed_chosen T₀ h0
      have hbase := (h.inv.chosen_base hchosen hlt (by simp [hled])).length_le
      rw [List.length_take, Nat.min_eq_left hchosen.length] at hbase
      -- The entry at the commit index is of the present term, so it is not in the base.
      by_contra hlt'
      have hsub : (a.log n).take (c.nodes n).durable.commit <+: a.base (c.nodes n).durable.term := by
        refine List.prefix_of_prefix_length_le (List.take_prefix _ _) (hbook ▸ h.inv.base_book _) ?_
        rw [List.length_take]
        omega
      have hne : (a.log n).take (c.nodes n).durable.commit ≠ [] := by
        rw [← List.length_pos_iff_ne_nil, List.length_take]
        omega
      obtain ⟨P, e, hP⟩ := (List.eq_nil_or_concat' _).resolve_left hne
      have hterm := h.inv.base_lt _ e (hsub.mem (by simp [hP]))
      rw [hP, lastTerm_append] at hlast
      omega
    · omega
  · have := h.inv.sealed_le _ n hled
    rw [(h.nodes n hn).holds.commit] at this
    exact this

/-- A quorum in no later term had let no later leader commit anything. -/
theorem covers_all (hi : Inv M.quorums a₁) (hn : n ∈ M.members) {Q : Finset String} {T index : Nat}
    (hcard : quorum (M.config n) ≤ Q.card) (hQ : ∀ f ∈ Q, FreshFrom M a₁ f T) {context : RequestId}
    (hc : CoversFrom a₁ context T index) (T₀ : Nat) : a₁.sealed T₀ ≤ index := by
  rcases Nat.lt_or_ge T T₀ with hlt | hge
  · by_cases h0 : 0 < a₁.sealed T₀
    · obtain ⟨Q', hQ', hacks⟩ := (hi.sealed_chosen T₀ h0).quorum
      obtain ⟨v, hv, hv'⟩ := M.quorums.meet (M.isQuorum hn (fun f hf => (hQ f hf).1) hcard) hQ'
      have h1 := (hQ v hv).2
      have h2 := (hi.ack_le _ _ _ (hacks v hv')).2.1
      omega
    · omega
  · exact hc T₀ hge

/-- Every commit index lies below a bound on what the terms have committed. -/
theorem Sim.commit_le_of_sealed (h : Sim M c a) (hn : n ∈ M.members) {index : Nat} (hs : ∀ T₀, a.sealed T₀ ≤ index) :
    (c.nodes n).durable.commit ≤ index := by
  obtain ⟨hlen, T₀, -, hP⟩ := h.committed hn
  have := hP.length_le
  rw [List.length_take, List.length_take, Nat.min_eq_left hlen] at this
  have := hs T₀
  omega

/-! ### Every later state -/

/-- A leader of term `T` elects itself again in later terms only. -/
theorem Watch.step (w : Watch M a₁ n T k c) (h : Sim M c a) (g : Grows a₁ a) (hn : n ∈ M.members)
    (led : a.leader T = some n) {input : Input} (allowed : c.Allowed n input) :
    ReadStep (M.config n) (LateFrom T k) (FreshFrom M a₁) (CoversFrom a₁)
      (Raft.step (M.config n) (c.nodes n) input) := by
  have hs := h.nodes n hn
  have hT := h.led_le hn led
  refine w.read.step input ?_ ?_ ?_ ?_ ?_
  · rintro m rfl hsuccess - hlate
    cases allowed with
    | recvAppendReply _ sent => exact w.sent m sent hsuccess hlate
  · intro context _ _ _ _ _ leads commit ready
    exact ⟨⟨hn, (g.term n).trans_eq hs.holds.term⟩, h.covers g hn leads commit ready context⟩
  · intro hrole hpending id
    have hst := hs.candidate hrole (by simp [hpending])
    refine Or.inl (lt_of_le_of_ne hT fun heq => hst.unled ?_)
    rw [← heq, led]
  · intro p hp hself
    obtain ⟨r, L, -, -, -, -, hq⟩ := hs.pending p hp
    obtain ⟨hrole, -, hlt, -⟩ := hq.selfVote hself
    exact ⟨hrole, fun id => Or.inl (hT.trans_lt hlt)⟩
  · intro p hp hself hrole
    obtain ⟨r, L, -, -, -, -, hq⟩ := hs.pending p hp
    exact (hq.active hself (by simp [hrole])).1

/-- A member that sends or stages a reply to a late request was in no later term at the admission. -/
theorem Watch.reply (w : Watch M a₁ n T k c) (h : Sim M c a) (g : Grows a₁ a) {f : String} (hf : f ∈ M.members)
    {input : Input} {m : AppendReply}
    (hm : ⟨n, .appendReply m⟩ ∈ (Raft.step (M.config f) (c.nodes f) input).2.sendNow ∨
      ⟨n, .appendReply m⟩ ∈ queue (Raft.step (M.config f) (c.nodes f) input).1)
    (hs : m.success = true) (hlate : LateFrom T k m.term m.requestId) : FreshFrom M a₁ m.follower m.term := by
  rcases RepliesOk.step input _ hm with hm | hok
  · exact w.waits f hf m hm hs hlate
  · obtain ⟨hself, hterm⟩ := hok m rfl hs
    obtain rfl : m.follower = f := hself
    exact ⟨hf, (g.term _).trans (by rwa [(h.nodes _ hf).holds.term])⟩

theorem Watch.next (w : Watch M a₁ n T k c) (h : Sim M c a) (g : Grows a₁ a) (hn : n ∈ M.members)
    (led : a.leader T = some n) (st : Cluster.Step M c c') : Watch M a₁ n T k c' := by
  cases st with
  | input f hf input allowed =>
    refine ⟨fun m hm hs hlate => ?_, fun f' hf' m hm hs hlate => ?_, ?_⟩
    · rcases List.mem_append.mp hm with hm | hm
      · exact w.sent m hm hs hlate
      · exact w.reply h g hf (Or.inl hm) hs hlate
    · unfold Cluster.fire at hm
      by_cases he : f' = f
      · subst he
        simp only [update_self] at hm
        exact w.reply h g hf (Or.inr hm) hs hlate
      · simp only [update_of_ne he] at hm
        exact w.waits f' hf' m hm hs hlate
    · unfold Cluster.fire
      by_cases he : n = f
      · subst he
        simp only [update_self]
        exact (w.step h g hn led allowed).inv
      · simp only [update_of_ne he]
        exact w.read
  | crash f hf recovered inPlace found =>
    refine ⟨w.sent, fun f' hf' m hm hs hlate => ?_, ?_⟩
    · unfold Cluster.crash at hm
      by_cases he : f' = f
      · simp [he, queue, step_restart] at hm
      · simp only [update_of_ne he] at hm
        exact w.waits f' hf' m hm hs hlate
    · unfold Cluster.crash
      by_cases he : n = f
      · subst he
        simp only [update_self]
        exact .unread (by simp [step_restart]) (step_restart _ _).2.2.2
      · simp only [update_of_ne he]
        exact w.read

/-- From a state in which `n` leads without a read, the watch is kept. -/
theorem Watch.later (h : Sim M c a₁) (hn : n ∈ M.members) (leads : (c.nodes n).volatile.role = .leader)
    (free : (c.nodes n).volatile.read = none) (hl : c.Later M c') : ∃ b, Sim M c' b ∧ Grows a₁ b ∧
      b.leader (c.nodes n).durable.term = some n ∧
      Watch M a₁ n (c.nodes n).durable.term (c.nodes n).nextRequestId c' := by
  induction hl with
  | refl => exact ⟨a₁, h, Grows.refl _, h.led hn leads, Watch.start h hn leads free⟩
  | tail _ st ih =>
    obtain ⟨b, hb, hg, hled, hw⟩ := ih
    obtain ⟨m, d, hm, hd⟩ := hb.step st
    have hgrows := hm.grows hb.inv
    exact ⟨d, hd, hg.trans hgrows, hgrows.leader hled, hw.next hb hg hn hled st⟩

/-! ### Where a barrier comes from -/

/-- `n` took the read with this context on the way to `c`. -/
def Taken (M : Membership) (n : String) (c : Cluster) (context : RequestId) : Prop :=
  ∃ c₁ : Cluster, c₁.Reachable M ∧ Admits M c₁ n context ∧ (c₁.fire M n (.beginRead context)).Later M c

/-- Every barrier was admitted, and a ready result too. -/
theorem taken_step (hi : ReadInv (fun _ _ => True) (fun _ _ => True) (fun x _ _ => Taken M n c x) (c.nodes n))
    (h : Sim M c a) (hn : n ∈ M.members) (input : Input) :
    ReadStep (M.config n) (fun _ _ => True) (fun _ _ => True)
      (fun x _ _ => Taken M n c x ∨ (Admits M c n x ∧ input = .beginRead x))
      (Raft.step (M.config n) (c.nodes n) input) := by
  have hs := h.nodes n hn
  refine (hi.mono fun _ _ _ => Or.inl).step input (fun _ _ _ _ _ => trivial) ?_ (fun _ _ _ => trivial) ?_ ?_
  · intro context hin valid idle running free leads commit ready
    exact ⟨trivial, Or.inr ⟨.of valid idle running free leads commit ready, hin⟩⟩
  · intro p hp hself
    obtain ⟨r, L, -, -, -, -, hq⟩ := hs.pending p hp
    exact ⟨(hq.selfVote hself).1, fun _ => trivial⟩
  · intro p hp hself hrole
    obtain ⟨r, L, -, -, -, -, hq⟩ := hs.pending p hp
    exact (hq.active hself (by simp [hrole])).1

theorem taken_reachable (hr : c.Reachable M) (hn : n ∈ M.members) :
    ReadInv (fun _ _ => True) (fun _ _ => True) (fun x _ _ => Taken M n c x) (c.nodes n) := by
  induction hr with
  | refl => exact .unread nofun rfl
  | @tail c c' hr st ih =>
    obtain ⟨a, ha⟩ := Sim.reachable hr
    have hmono : ∀ x, Taken M n c x → Taken M n c' x := fun x ⟨c₁, h1, h2, h3⟩ => ⟨c₁, h1, h2, h3.tail st⟩
    cases st with
    | input f hf input allowed =>
      have hout := (taken_step ih ha hn input).inv
      unfold Cluster.fire
      by_cases he : n = f
      · subst he
        simp only [update_self]
        refine hout.mono fun x _ _ hx => ?_
        rcases hx with hx | ⟨hx, rfl⟩
        · exact hmono x hx
        · exact ⟨c, hr, hx, .refl⟩
      · simp only [update_of_ne he]
        exact ih.mono fun x _ _ => hmono x
    | crash f hf recovered inPlace found =>
      unfold Cluster.crash
      by_cases he : n = f
      · subst he
        simp only [update_self]
        exact .unread (by simp [step_restart]) (step_restart _ _).2.2.2
      · simp only [update_of_ne he]
        exact ih.mono fun x _ _ => hmono x

/-! ### Ready results -/

/-- A ready result was admitted before, lies at or above every commit index that any member had reached
    when its read was admitted, and is applied. -/
theorem read_barrier (hr : c'.Reachable M) (hn : n ∈ M.members) {input : Input} (allowed : c'.Allowed n input)
    {r : ReadResult} (emits : (step (M.config n) (c'.nodes n) input).2.read = some r) (ready : r.status = .ready) :
    (Taken M n c' r.context ∨ (Admits M c' n r.context ∧ input = .beginRead r.context)) ∧
    (∀ c : Cluster, c.Reachable M → Admits M c n r.context → c.Later M c' →
      ∀ c₀ : Cluster, c₀.Reachable M → c₀.Later M c → ∀ m ∈ M.members, (c₀.nodes m).durable.commit ≤ r.index) ∧
    r.index ≤ (step (M.config n) (c'.nodes n) input).1.durable.applied := by
  obtain ⟨a, ha⟩ := Sim.reachable hr
  have hout := (taken_step (taken_reachable hr hn) ha hn input).ready r emits ready
  refine ⟨hout.admitted, fun c hc admits hl c₀ hc₀ hl₀ m hm => ?_, hout.applied⟩
  obtain ⟨-, free, leads⟩ := admits.spec
  obtain ⟨a₀, a₁, ha₀, ha₁, g⟩ := Sim.compare hc₀ hl₀
  obtain ⟨b, hb, hg, hled, hw⟩ := Watch.later ha₁ hn leads free hl
  have hvouch := (hw.step hb hg hn hled allowed).ready r emits ready
  obtain ⟨Q, hcard, hQ⟩ := hvouch.quorum
  exact ha₀.commit_le_of_sealed hm fun T₀ => (g.sealed T₀).trans (covers_all ha₁.inv hn hcard hQ hvouch.admitted T₀)

/-- Then `a` applies the entry, takes a read, and `b` answers its probe. -/
def pairReads : List Event :=
  [.host "a" .applyCommitted, .host "a" (.persistCompleted 4), .host "a" (.beginRead 7), .deliver 8]

/-- The read of a pair is ready at the committed index when the answer arrives. -/
theorem read_barrier_pair : ∃ (c' : Cluster) (input : Input) (r : ReadResult), c'.Reachable pair ∧
    c'.Allowed "a" input ∧ (step (pair.config "a") (c'.nodes "a") input).2.read = some r ∧ r.status = .ready ∧
    (Taken pair "a" c' r.context ∨ (Admits pair c' "a" r.context ∧ input = .beginRead r.context)) ∧
    r.index ≤ (step (pair.config "a") (c'.nodes "a") input).1.durable.applied := by
  obtain ⟨c', hr, hin⟩ :=
    Cluster.exists_play pair (Cluster.init pair) (pairElects ++ pairCommits ++ pairReads)
      (fun c => (c.eventInput (.deliver 9)).any (fun x => decide (x.1 = "a" ∧
        (step (pair.config "a") (c.nodes "a") x.2).2.read = some ⟨7, .ready, 1, 1⟩)) = true) (by decide +kernel)
  cases he : c'.eventInput (.deliver 9) with
  | none => simp [he] at hin
  | some x =>
    obtain ⟨n, input⟩ := x
    rw [he] at hin
    obtain ⟨rfl, hread⟩ : n = "a" ∧ _ := of_decide_eq_true hin
    have hallowed := Cluster.allowed_of_eventInput he
    obtain ⟨htaken, -, happlied⟩ := read_barrier hr (by decide) hallowed hread rfl
    exact ⟨c', input, _, hr, hallowed, hread, rfl, htaken, happlied⟩

end Choreolog.Raft
