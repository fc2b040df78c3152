import Choreolog.Theorems.Outcome

/-! # Send loops

A leader's send loop quotes its book: every request it adds is true of the ledger, gets a new id and is
recorded as the probe in flight of its peer, and every snapshot it asks for is a committed boundary. -/

namespace Choreolog.Raft
open Lib Lib.Ledger

/-- A durable log of leader `n`, or one that it is writing, with the full log `B` behind it. -/
structure Quotes (a : Spec) (n : String) (B : List Entry) (log : Durable) : Prop where
  led : a.leader log.term = some n
  whole : Shows B log
  book : a.book log.term <+: B
  commit : Settled a log.term log.commit
  boundary : Settled a log.term log.snapshotIndex

/-- A request of leader `n` in term `T` that quotes `B`. -/
def SentBy (a : Spec) (n : String) (T : Nat) (B : List Entry) (o : Outbound) : Prop :=
  ∃ m, o.message = .appendEntries m ∧ Quoted a n T B m

/-- The state of a send loop of leader `n` that has dealt with the peers in `S`. -/
structure Sends (a : Spec) (n : String) (B : List Entry) (net out : List Outbound) (S : String → Prop) (x : Sending) :
    Prop where
  leading : Leading a n x.state (net ++ x.out) S
  old : out ⊆ x.out
  out : ∀ o ∈ x.out, o ∈ out ∨ SentBy a n x.state.durable.term B o
  snapshots : ∀ r ∈ x.snapshots, OfferOk a (Cluster.offerOf n x.state.durable.term r)

variable {a : Spec} {n peer : String} {B : List Entry} {net out : List Outbound} {S : String → Prop} {x y : Sending}
  {config : Config} {log : Durable}

/-! ### Requests -/

theorem take_toList_getElem? (i : Nat) : (B[i]?).toList = (B.drop i).take (B[i]?).toList.length := by
  rcases Nat.lt_or_ge i B.length with hi | hi
  · rw [List.getElem?_eq_getElem hi, List.drop_eq_getElem_cons hi]
    rfl
  · rw [List.getElem?_eq_none hi]
    simp

theorem Quotes.excerpt (h : Quotes a n B log) {next prevTerm : Nat} (known : log.termAt (next - 1) = some prevTerm)
    (ahead : log.snapshotIndex < next) (id : RequestId) :
    Excerpt B (next - 1) prevTerm (appendRequest config log next prevTerm id).entries := by
  obtain ⟨-, hlen, hterm⟩ := h.whole.termAt_iff.mp known
  have hentries : (appendRequest config log next prevTerm id).entries = (B[next - 1]?).toList := by
    simp only [appendRequest]
    split
    · rw [h.whole.entryAt ahead]
    · rename_i hlast
      rw [h.whole.lastIndex] at hlast
      rw [List.getElem?_eq_none (by omega)]
      rfl
  rw [hentries]
  refine ⟨?_, hterm, take_toList_getElem? _⟩
  cases he : B[next - 1]? with
  | none => simpa using hlen
  | some e =>
    have := (List.getElem?_eq_some_iff.mp he).1
    simp only [Option.toList_some, List.length_singleton]
    omega

theorem Quotes.quoted (h : Quotes a n B log) (self : config.self = n) {next prevTerm : Nat}
    (known : log.termAt (next - 1) = some prevTerm) (ahead : log.snapshotIndex < next) (id : RequestId) :
    Quoted a n log.term B (appendRequest config log next prevTerm id) :=
  ⟨self, rfl, h.excerpt known ahead id, h.commit⟩

theorem Quotes.offerOk (h : Quotes a n B log) (id : RequestId) :
    OfferOk a (Cluster.offerOf n log.term ⟨peer, log.snapshotIndex, log.snapshotTerm, id⟩) := by
  obtain ⟨R, hR⟩ := h.book
  refine ⟨h.led, ?_, h.boundary⟩
  have := h.whole.boundary
  rw [← hR, List.take_append_of_le_length h.boundary.length] at this
  exact this

/-! ### One send -/

/-- A new record of one peer, with its messages, extends the leader's records. -/
theorem Leading.setProgress {s : Node} {sent sent' : List Outbound} {f : PeerProgress → PeerProgress}
    (h : Leading a n s sent S) (hsub : sent ⊆ sent')
    (hp : ∀ p, s.volatile.peers.find? peer = some p → S peer → ProgressOk a n s.durable.term sent' peer (f p))
    (hfresh : ∀ o ∈ sent', ∀ m, RequestOf n s.durable.term o m → m.requestId < s.nextRequestId)
    (hunique : ∀ o ∈ sent', ∀ o' ∈ sent', ∀ m m', RequestOf n s.durable.term o m → RequestOf n s.durable.term o' m' →
      m.requestId = m'.requestId → o = o') : Leading a n (setProgress s peer f) sent' S where
  led := h.led
  progress v p hS hv := by
    simp only [Raft.setProgress, OrdMap.find?_update] at hv
    split at hv
    · rename_i heq
      obtain ⟨p', hp', rfl⟩ := Option.map_eq_some_iff.mp hv
      rw [heq] at hp' hS ⊢
      exact hp p' hp' hS
    · have hold := h.progress v p hS hv
      exact ⟨hold.matched, fun r hr => by
        obtain ⟨h1, m, h2, h3, h4, h5, h6, h7, h8⟩ := hold.inFlight r hr
        exact ⟨h1, m, h2, h3, h4, h5, h6, h7, hsub h8⟩, hold.snapshot⟩
  fresh := hfresh
  unique := hunique

theorem Leading.fresh_concat {s : Node} {sent : List Outbound} (h : Leading a n s sent S) {m : AppendEntries}
    (hm : m.requestId = s.nextRequestId) (o : Outbound) (ho : o ∈ sent ++ [⟨peer, .appendEntries m⟩])
    (m' : AppendEntries) (ho' : RequestOf n s.durable.term o m') : m'.requestId < s.nextRequestId + 1 := by
  rcases List.mem_append.mp ho with ho | ho
  · exact Nat.lt_succ_of_lt (h.fresh o ho m' ho')
  · obtain rfl := List.mem_singleton.mp ho
    obtain rfl := WireMessage.appendEntries.inj ho'.1
    rw [hm]
    exact Nat.lt_succ_self _

theorem Leading.unique_concat {s : Node} {sent : List Outbound} (h : Leading a n s sent S) {m : AppendEntries}
    (hm : m.requestId = s.nextRequestId) :
    ∀ o ∈ sent ++ [⟨peer, .appendEntries m⟩], ∀ o' ∈ sent ++ [⟨peer, .appendEntries m⟩], ∀ x x',
      RequestOf n s.durable.term o x → RequestOf n s.durable.term o' x' → x.requestId = x'.requestId → o = o' := by
  intro o ho o' ho' x x' hx hx' hid
  rcases List.mem_append.mp ho with ho | ho <;> rcases List.mem_append.mp ho' with ho' | ho'
  · exact h.unique o ho o' ho' x x' hx hx' hid
  · obtain rfl := List.mem_singleton.mp ho'
    obtain rfl := WireMessage.appendEntries.inj hx'.1
    have := h.fresh o ho x hx
    rw [hid, hm] at this
    exact absurd this (lt_irrefl _)
  · obtain rfl := List.mem_singleton.mp ho
    obtain rfl := WireMessage.appendEntries.inj hx.1
    have := h.fresh o' ho' x' hx'
    rw [← hid, hm] at this
    exact absurd this (lt_irrefl _)
  · rw [List.mem_singleton.mp ho, List.mem_singleton.mp ho']

theorem Sends.probe (h : Sends a n B net out S x) (hq : Quotes a n B log) (hT : log.term = x.state.durable.term)
    (self : config.self = n) {next prevTerm : Nat} (known : log.termAt (next - 1) = some prevTerm)
    (ahead : log.snapshotIndex < next) {m : AppendEntries}
    (hm : m = appendRequest config log next prevTerm x.state.nextRequestId) :
    Sends a n B net out S { x with
      state := afterProbe x.state peer m, out := x.out ++ [⟨peer, .appendEntries m⟩] } := by
  have hok : Quoted a n x.state.durable.term B m := by
    rw [hm, ← hT]
    exact hq.quoted self known ahead _
  have hid : m.requestId = x.state.nextRequestId := by rw [hm, appendRequest]
  refine ⟨?_, List.Subset.trans h.old (List.subset_append_left _ _), fun o ho => ?_, h.snapshots⟩
  · have hl := h.leading
    have hset : Leading a n (setProgress { x.state with nextRequestId := x.state.nextRequestId + 1 } peer
        fun p => { p with inFlight := some (probeOf m) }) (net ++ x.out ++ [⟨peer, .appendEntries m⟩]) S := by
      have hcount : Leading a n { x.state with nextRequestId := x.state.nextRequestId + 1 } (net ++ x.out) S :=
        ⟨hl.led, hl.progress, fun o ho x' hx => Nat.lt_succ_of_lt (hl.fresh o ho x' hx), hl.unique⟩
      refine hcount.setProgress (List.subset_append_left _ _) (fun p hp hS => ?_) (hl.fresh_concat hid)
        (hl.unique_concat hid)
      have hold := hl.progress peer p hS hp
      refine ⟨hold.matched, fun r hr => ?_, hold.snapshot⟩
      obtain rfl := Option.some.inj hr
      exact ⟨hok.term, m, rfl, hok.term, hok.leader, rfl, rfl, rfl, by simp⟩
    rw [List.append_assoc] at hset
    exact ⟨hset.led, hset.progress, hset.fresh, hset.unique⟩
  · rcases List.mem_append.mp ho with ho | ho
    · exact h.out o ho
    · obtain rfl := List.mem_singleton.mp ho
      exact Or.inr ⟨m, rfl, hok⟩

theorem Sends.snapshot (h : Sends a n B net out S x) (hq : Quotes a n B log) (hT : log.term = x.state.durable.term)
    {r : SnapshotNeeded} (hr : r = ⟨peer, log.snapshotIndex, log.snapshotTerm, x.state.nextRequestId⟩) :
    Sends a n B net out S { x with state := afterSnapshot x.state peer r, snapshots := x.snapshots ++ [r] } := by
  have hoffer : OfferOk a (Cluster.offerOf n x.state.durable.term r) := by
    rw [← hT, hr]
    exact hq.offerOk _
  refine ⟨?_, h.old, h.out, fun r' hr' => ?_⟩
  · have hl := h.leading
    have hset : Leading a n (setProgress x.state peer fun p => { p with snapshotInFlight := some r })
        (net ++ x.out) S := by
      refine hl.setProgress (List.Subset.refl _) (fun p hp hS => ?_) hl.fresh hl.unique
      have hold := hl.progress peer p hS hp
      refine ⟨hold.matched, hold.inFlight, fun r' hr' => ?_⟩
      obtain rfl := Option.some.inj hr'
      exact ⟨by rw [hr], hoffer⟩
    exact ⟨hset.led, hset.progress, fun o ho m hm => Nat.lt_succ_of_lt (hset.fresh o ho m hm), hset.unique⟩
  · rcases List.mem_append.mp hr' with hr' | hr'
    · exact h.snapshots r' hr'
    · obtain rfl := List.mem_singleton.mp hr'
      exact hoffer

theorem SendCase.sends (hc : SendCase config log x peer y) (h : Sends a n B net out S x) (hS : S peer)
    (hq : Quotes a n B log) (hT : log.term = x.state.durable.term) (self : config.self = n) : Sends a n B net out S y := by
  cases hc with
  | nothing => exact h
  | again p r found inFlight =>
    refine ⟨h.leading, h.old, h.out, fun r' hr' => ?_⟩
    rcases List.mem_append.mp hr' with hr' | hr'
    · exact h.snapshots r' hr'
    · obtain rfl := List.mem_singleton.mp hr'
      exact ((h.leading.progress peer p hS found).snapshot _ inFlight).2
  | snapshot p found idle behind r request => exact h.snapshot hq hT request
  | probe p found idle quiet prevTerm known ahead m request => exact h.probe hq hT self known ahead request

theorem Sends.sendAppend (h : Sends a n B net out S x) (hS : S peer) (hq : Quotes a n B log)
    (hT : log.term = x.state.durable.term) (self : config.self = n) :
    Sends a n B net out S (sendAppend config log x peer) :=
  (sendAppend_cases config log x peer).sends h hS hq hT self

/-! ### Loops -/

/-- Sending to any peers whose records are in order. -/
theorem Sends.foldl_sendAppend (h : Sends a n B net out (fun _ => True) x) (config : Config) (self : config.self = n)
    (hq : Quotes a n B log) (peers : List String) (hT : log.term = x.state.durable.term) :
    Sends a n B net out (fun _ => True) (peers.foldl (Raft.sendAppend config log) x) := by
  induction peers generalizing x with
  | nil => exact h
  | cons peer peers ih =>
    refine ih (h.sendAppend trivial hq hT self) ?_
    rw [(SendFrame.sendAppend config log x peer).durable]
    exact hT

/-- A probe in flight is sent again, anything else as usual. -/
theorem Sends.sendAgain (h : Sends a n B net out (fun _ => True) x) (hq : Quotes a n B log)
    (hT : log.term = x.state.durable.term) (self : config.self = n) (hout : ∀ o ∈ out, ∀ m, o.message ≠ .appendEntries m)
    (hnet : ∀ o ∈ net, MsgOk a net o) : Sends a n B net out (fun _ => True) (sendAgain config log x peer) := by
  unfold Raft.sendAgain
  split
  · exact h.sendAppend trivial hq hT self
  · rename_i probe hprobe
    obtain ⟨p, hp, hin⟩ := Option.bind_eq_some_iff.mp hprobe
    obtain ⟨-, m, hreq, hterm, hleader, -, -, -, hmem⟩ := (h.leading.progress peer p trivial hp).inFlight probe hin
    simp only [hreq]
    have hsub : net ++ (x.out ++ [⟨peer, .appendEntries m⟩]) ⊆ net ++ x.out := by
      intro o ho
      rcases List.mem_append.mp ho with ho | ho
      · exact List.mem_append_left _ ho
      · rcases List.mem_append.mp ho with ho | ho
        · exact List.mem_append_right _ ho
        · rwa [List.mem_singleton.mp ho]
    have hl := h.leading
    refine ⟨⟨hl.led, fun v p' hS hv => ?_, fun o ho => hl.fresh o (hsub ho),
      fun o ho o' ho' => hl.unique o (hsub ho) o' (hsub ho')⟩, List.Subset.trans h.old (List.subset_append_left _ _),
      fun o ho => ?_, h.snapshots⟩
    · have hold := hl.progress v p' hS hv
      exact ⟨hold.matched, fun r hr => by
        obtain ⟨h1, m', h2, h3, h4, h5, h6, h7, h8⟩ := hold.inFlight r hr
        refine ⟨h1, m', h2, h3, h4, h5, h6, h7, ?_⟩
        rw [← List.append_assoc]
        exact List.mem_append_left _ h8, hold.snapshot⟩
    · rcases List.mem_append.mp ho with ho | ho
      · exact h.out o ho
      · obtain rfl := List.mem_singleton.mp ho
        rcases List.mem_append.mp hmem with hmem | hmem
        · have hok : AppendOk a m := hnet _ hmem
          refine Or.inr ⟨m, rfl, hleader, hterm, hok.excerpt.mono ?_, hterm ▸ hok.settled⟩
          rw [hterm, ← hT]
          exact hq.book
        · exact (h.out _ hmem).imp (fun ho => absurd rfl (hout _ ho m)) id

theorem Sends.foldl_sendAgain (h : Sends a n B net out (fun _ => True) x) (config : Config) (self : config.self = n)
    (hq : Quotes a n B log) (hout : ∀ o ∈ out, ∀ m, o.message ≠ .appendEntries m) (hnet : ∀ o ∈ net, MsgOk a net o)
    (peers : List String) (hT : log.term = x.state.durable.term) :
    Sends a n B net out (fun _ => True) (peers.foldl (Raft.sendAgain config log) x) := by
  induction peers generalizing x with
  | nil => exact h
  | cons peer peers ih =>
    refine ih (h.sendAgain hq hT self hout hnet) ?_
    rw [(SendFrame.sendAgain config log x peer).durable]
    exact hT

/-- A new leader resets the record of a peer and probes it. -/
theorem Sends.sendFirst (peer : String) (h : Sends a n B net out S x) (hq : Quotes a n B log) (hT : log.term = x.state.durable.term)
    (self : config.self = n) : Sends a n B net out (fun p => p = peer ∨ S p) (sendFirst config log x peer) := by
  have hl := h.leading
  have hset : Leading a n (setProgress x.state peer fun _ => { next := log.lastIndex + 1 }) (net ++ x.out)
      fun p => p = peer ∨ S p := by
    refine ⟨hl.led, fun v p hS hv => ?_, hl.fresh, hl.unique⟩
    simp only [Raft.setProgress, OrdMap.find?_update] at hv
    split at hv
    · obtain ⟨p', -, rfl⟩ := Option.map_eq_some_iff.mp hv
      exact ⟨Or.inl rfl, (by rintro _ ⟨⟩), (by rintro _ ⟨⟩)⟩
    · rename_i hne
      exact hl.progress v p (hS.resolve_left hne) hv
  have hx : Sends a n B net out (fun p => p = peer ∨ S p)
      { x with state := setProgress x.state peer fun _ => { next := log.lastIndex + 1 } } :=
    ⟨hset, h.old, h.out, h.snapshots⟩
  exact hx.sendAppend (Or.inl rfl) hq hT self

theorem Sends.foldl_sendFirst (h : Sends a n B net out S x) (config : Config) (self : config.self = n)
    (hq : Quotes a n B log) (peers : List String) (hT : log.term = x.state.durable.term) :
    Sends a n B net out (fun p => p ∈ peers ∨ S p) (peers.foldl (Raft.sendFirst config log) x) := by
  induction peers generalizing x S with
  | nil => simpa using h
  | cons peer peers ih =>
    have hrest := ih (h.sendFirst peer hq hT self) (by
      rw [(SendFrame.sendFirst config log x peer).durable]
      exact hT)
    refine ⟨⟨hrest.leading.led, fun v p hS hv => hrest.leading.progress v p ?_ hv, hrest.leading.fresh,
      hrest.leading.unique⟩, hrest.old, hrest.out, hrest.snapshots⟩
    rcases hS with hS | hS
    · rcases List.mem_cons.mp hS with hS | hS
      · exact Or.inr (Or.inl hS)
      · exact Or.inl hS
    · exact Or.inr (Or.inr hS)

end Choreolog.Raft
