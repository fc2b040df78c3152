import Choreolog.Theorems.Replicas

/-! # What replication sends

While a replica replicates, its log, its role, its disk and how far its peers have got stay as they are. Each frame that
goes out is a request that was outstanding, or one that the replica builds from its log or its snapshot. -/

namespace Choreolog.Replication
open Lib State Storage Protocol

/-- How far a peer has got. -/
def Peer.progress (p : Peer) : String × Nat × Nat := (p.id, p.nextIndex, p.matchIndex)

/-- The directory is the same, and the frames that went out satisfy `P`. -/
structure Posts (P : String → Frame → Prop) (w d : World) : Prop where
  disk : d.disk = w.disk
  sent : ∃ new, d.sent = w.sent ++ new ∧ ∀ f ∈ new, P f.1 f.2

namespace Posts
variable {P Q : String → Frame → Prop} {w d e : World}

theorem refl : Posts P w w := ⟨rfl, [], (List.append_nil _).symm, nofun⟩

theorem one {name : String} {frame : Frame} (h : P name frame) : Posts P w { w with sent := w.sent ++ [(name, frame)] } :=
  ⟨rfl, [(name, frame)], rfl, fun f hf => by obtain rfl := List.mem_singleton.mp hf; exact h⟩

theorem mono (h : Posts P w d) (sub : ∀ name frame, P name frame → Q name frame) : Posts Q w d := by
  obtain ⟨hdisk, new, hnew, hall⟩ := h
  exact ⟨hdisk, new, hnew, fun f hf => sub _ _ (hall f hf)⟩

theorem trans (h : Posts P w d) (h' : Posts P d e) : Posts P w e := by
  obtain ⟨hdisk, new, hnew, hall⟩ := h
  obtain ⟨hdisk', new', hnew', hall'⟩ := h'
  refine ⟨hdisk'.trans hdisk, new ++ new', by rw [hnew', hnew, List.append_assoc], fun f hf => ?_⟩
  rcases List.mem_append.mp hf with hf | hf
  · exact hall f hf
  · exact hall' f hf

end Posts

namespace Replica

/-- A request of the replica to the peer has no answer yet. -/
def Outstanding (r : Replica) (name : String) (probe : Probe) : Prop := ∃ p ∈ r.peers, p.id = name ∧ p.probe = some probe

/-- A request that the replica can build for a peer now. -/
inductive Builds (r : Replica) (name : String) : Probe → Prop
  | batch {peer : Peer} {correlation : Nat} (known : peer.progress ∈ r.peers.map Peer.progress) (named : peer.id = name)
      (fresh : r.nextCorrelation ≤ correlation) :
      Builds r name ⟨⟨.appendEntries, correlation, (r.batch peer).encode⟩, r.currentTerm, covered (r.batch peer), 0⟩
  | chunk {snapshot : Snapshot} {offset correlation : Nat} (known : r.isConfiguredPeer name = true)
      (held : r.store.snapshot = some snapshot) (whole : snapshot.legacy = false)
      (within : offset ≤ snapshot.statePayload.toList.length) (fresh : r.nextCorrelation ≤ correlation) :
      Builds r name ⟨⟨.installSnapshot, correlation, (r.chunk snapshot offset).encode⟩, r.currentTerm, snapshot.index,
        offset + (r.chunk snapshot offset).payload.toList.length⟩

/-- A frame that replication may send. -/
def Request (r : Replica) (name : String) (frame : Frame) : Prop :=
  ∃ probe : Probe, probe.frame = frame ∧ (r.Outstanding name probe ∨ r.Builds name probe)

/-- Nothing but the requests to the peers has changed. -/
structure Chats (r : Replica) (w : World) (s : Replica) (d : World) : Prop where
  replica : s = { r with
    peers := s.peers, nextCorrelation := s.nextCorrelation, messagesDroppedOversize := s.messagesDroppedOversize }
  progress : s.peers.map Peer.progress = r.peers.map Peer.progress
  later : r.nextCorrelation ≤ s.nextCorrelation
  probes : ∀ name probe, s.Outstanding name probe → r.Outstanding name probe ∨ r.Builds name probe
  world : Posts r.Request w d

section Quiet
variable {r s : Replica} {w d : World}

theorem collect_quiet (peers : List Peer) (n m : Nat) (left next count bytes : Nat) :
    ({ r with peers, nextCorrelation := n, messagesDroppedOversize := m } : Replica).collect left next count bytes =
      r.collect left next count bytes := by
  induction left generalizing next count bytes with
  | zero => rfl
  | succ left ih =>
    rw [collect, collect]
    simp only [ih]
    rfl

theorem batch_quiet (peers : List Peer) (n m : Nat) (peer : Peer) :
    ({ r with peers, nextCorrelation := n, messagesDroppedOversize := m } : Replica).batch peer = r.batch peer := by
  unfold batch
  rw [collect_quiet]
  rfl

theorem isConfiguredPeer_progress (h : s.peers.map Peer.progress = r.peers.map Peer.progress) (name : String) :
    s.isConfiguredPeer name = r.isConfiguredPeer name := by
  have hany : ∀ peers : List Peer, peers.any (·.id = name) = (peers.map Peer.progress).any (·.1 = name) := by
    intro peers
    rw [List.any_map]
    rfl
  unfold isConfiguredPeer
  rw [hany, hany, h]

namespace Chats

theorem refl : Chats r w r w := ⟨rfl, rfl, le_rfl, fun _ _ h => .inl h, .refl⟩

theorem builds (h : Chats r w s d) {name : String} {probe : Probe} (hb : s.Builds name probe) : r.Builds name probe := by
  obtain ⟨hreplica, hprogress, hlater, -, -⟩ := h
  cases hb with
  | @batch peer correlation known named fresh =>
    have hbatch : s.batch peer = r.batch peer := by
      rw [hreplica, batch_quiet]
    have hterm : s.currentTerm = r.currentTerm := by rw [hreplica]
    rw [hbatch, hterm]
    exact .batch (by rwa [← hprogress]) named (hlater.trans fresh)
  | @chunk snapshot offset correlation known held whole within fresh =>
    have hchunk : s.chunk snapshot offset = r.chunk snapshot offset := by
      rw [hreplica]
      rfl
    have hterm : s.currentTerm = r.currentTerm := by rw [hreplica]
    have hstore : s.store = r.store := by rw [hreplica]
    rw [hchunk, hterm]
    exact .chunk (by rwa [← isConfiguredPeer_progress hprogress]) (by rwa [← hstore]) whole within (hlater.trans fresh)

theorem request (h : Chats r w s d) {name : String} {frame : Frame} (hf : s.Request name frame) : r.Request name frame := by
  obtain ⟨probe, hframe, hprobe | hprobe⟩ := hf
  · exact ⟨probe, hframe, h.probes name probe hprobe⟩
  · exact ⟨probe, hframe, .inr (h.builds hprobe)⟩

theorem trans {s' : Replica} {d' : World} (h : Chats r w s d) (h' : Chats s d s' d') : Chats r w s' d' where
  replica := by
    rw [h'.replica, h.replica]
  progress := h'.progress.trans h.progress
  later := h.later.trans h'.later
  probes name probe hprobe := by
    rcases h'.probes name probe hprobe with hs | hs
    · exact h.probes name probe hs
    · exact .inr (h.builds hs)
  world := h.world.trans (h'.world.mono fun _ _ => h.request)

end Chats

end Quiet

/-- The call does nothing but send requests. -/
structure Chat (m : Node Unit) (r : Replica) (w : World) : Prop where
  returns : (m r w).result = .ok ()
  chats : Chats r w (m r w).memory (m r w).disk
  images : ∀ i ∈ (m r w).images, Posts r.Request w i

namespace Chat
variable {m : Node Unit} {r s : Replica} {w d : World}

theorem pure : Chat (pure ()) r w := ⟨rfl, .refl, nofun⟩

/-- First a change of the requests, then the rest. -/
theorem after (h : Chats r w s d) (hm : Chat m s d) {x : Outcome Error Replica World Unit} (before : List World)
    (hx : x = { m s d with images := before ++ (m s d).images }) (hbefore : ∀ i ∈ before, Posts r.Request w i) :
    x.result = .ok () ∧ Chats r w x.memory x.disk ∧ ∀ i ∈ x.images, Posts r.Request w i := by
  subst hx
  refine ⟨hm.returns, h.trans hm.chats, fun i hi => ?_⟩
  rcases List.mem_append.mp hi with hi | hi
  · exact hbefore i hi
  · exact h.world.trans ((hm.images i hi).mono fun _ _ => h.request)

theorem bind {f : Unit → Node Unit} (hm : Chat m r w) (hf : Chat (f ()) (m r w).memory (m r w).disk) : Chat (m >>= f) r w := by
  obtain ⟨hreturns, hchats, himages⟩ := after hm.chats hf _ (Program.bind_of_ok hm.returns) hm.images
  exact ⟨hreturns, hchats, himages⟩

theorem memory_bind {f : Replica → Node Unit} (h : Chat (f r) r w) : Chat (Program.memory >>= f) r w :=
  ⟨h.returns, h.chats, h.images⟩

theorem assign_bind {g : Replica → Replica} {f : Unit → Node Unit} (hg : Chats r w (g r) w) (h : Chat (f ()) (g r) w) :
    Chat (Program.assign g >>= f) r w := by
  obtain ⟨hreturns, hchats, himages⟩ := after hg h [] rfl nofun
  exact ⟨hreturns, hchats, himages⟩

theorem forEach {α : Type} {f : α → Node Unit} (h : ∀ a r w, Chat (f a) r w) (l : List α) : Chat (Program.forEach f l) r w := by
  induction l generalizing r w with
  | nil => exact .pure
  | cons a l ih => exact .bind (h a r w) ih

end Chat

section Replication
variable {r : Replica} {w : World}

theorem send_chat {name : String} {frame : Frame} (h : r.Request name frame) : Chat (send name frame) r w := by
  refine .memory_bind ?_
  split
  · exact .pure
  · split
    · exact ⟨rfl, ⟨rfl, rfl, le_rfl, fun _ _ h => .inl h, .refl⟩, nofun⟩
    · refine ⟨rfl, ⟨rfl, rfl, le_rfl, fun _ _ h => .inl h, .one h⟩, fun i hi => ?_⟩
      rcases List.mem_cons.mp hi with rfl | hi
      · exact .refl
      · obtain rfl := List.mem_singleton.mp hi
        exact .one h

theorem mem_modify {l : List Peer} {i : Nat} {f : Peer → Peer} {p : Peer} (h : p ∈ l.modify i f) :
    (∃ q, l[i]? = some q ∧ p = f q) ∨ p ∈ l := by
  obtain ⟨j, hj⟩ := List.getElem?_of_mem h
  rw [List.getElem?_modify] at hj
  obtain ⟨q, hq, rfl⟩ := Option.map_eq_some_iff.mp hj
  by_cases hij : i = j
  · subst hij
    exact .inl ⟨q, hq, if_pos rfl⟩
  · rw [if_neg hij]
    exact .inr (List.mem_of_getElem? hq)

/-- Changing a record of a peer, but not how far it has got. -/
theorem setPeer_chats {i : Nat} {f : Peer → Peer} {n : Nat} (later : r.nextCorrelation ≤ n)
    (progress : ∀ p, r.peers[i]? = some p → (f p).progress = p.progress)
    (probes : ∀ p probe, r.peers[i]? = some p → (f p).probe = some probe → p.probe = some probe ∨ r.Builds p.id probe) :
    Chats r w ({ r with nextCorrelation := n }.setPeer i f) w where
  replica := rfl
  progress := by
    change (r.peers.modify i f).map Peer.progress = _
    refine List.ext_getElem? fun j => ?_
    rw [List.getElem?_map, List.getElem?_map, List.getElem?_modify]
    by_cases hij : i = j
    · subst hij
      cases hp : r.peers[i]? with
      | none => rfl
      | some p => simp [progress p hp]
    · simp [hij]
  later := later
  probes name probe h := by
    obtain ⟨p, hp, rfl, hprobe⟩ := h
    rcases mem_modify hp with ⟨q, hq, rfl⟩ | hp
    · have hid : (f q).id = q.id := congrArg (fun x => x.1) (progress q hq)
      rcases probes q probe hq hprobe with h | h
      · exact .inl ⟨q, List.mem_of_getElem? hq, hid.symm, h⟩
      · exact .inr (by rwa [hid])
    · exact .inl ⟨p, hp, rfl, hprobe⟩
  world := .refl

theorem getElem?_setPeer {i : Nat} {f : Peer → Peer} {peer : Peer} (h : r.peers[i]? = some peer) :
    (r.setPeer i f).peers[i]? = some (f peer) := by
  change (r.peers.modify i f)[i]? = _
  rw [List.getElem?_modify_eq, h]
  rfl

/-- A request that can be built is sent and remembered. -/
theorem request_chat {i : Nat} {peer : Peer} {name : String} {type : MessageType} {payload : List UInt8} {index offset : Nat}
    (hpeer : r.peers[i]? = some peer) (hname : peer.id = name)
    (builds : r.Builds name ⟨⟨type, r.nextCorrelation, payload⟩, r.currentTerm, index, offset⟩) :
    Chat (request i name type payload index offset) r w := by
  subst hname
  refine .memory_bind (.assign_bind (setPeer_chats (Nat.le_succ _) (fun _ _ => rfl) ?_) ?_)
  · intro p probe hp hprobe
    obtain rfl := Option.some.inj (hp.symm.trans hpeer)
    obtain rfl := Option.some.inj hprobe
    exact .inr builds
  · refine send_chat ⟨⟨⟨type, r.nextCorrelation, payload⟩, r.currentTerm, index, offset⟩, rfl, .inl ?_⟩
    exact ⟨_, List.mem_of_getElem? (getElem?_setPeer hpeer), rfl, rfl⟩

theorem sendSnapshotChunk_chat {i : Nat} {snapshot : Snapshot} {force : Bool} (held : r.store.snapshot = some snapshot)
    (whole : snapshot.legacy = false) : Chat (sendSnapshotChunk i snapshot force) r w := by
  refine .memory_bind ?_
  split
  · exact .pure
  · rename_i peer hpeer
    dsimp only
    generalize hstarted : (if peer.snapshotIndex = snapshot.index then peer else
      { peer with snapshotIndex := snapshot.index, snapshotOffset := 0, probe := none }) = started
    have hprogress : started.progress = peer.progress := by
      rw [← hstarted]
      split <;> rfl
    have hprobe : ∀ probe, started.probe = some probe → peer.probe = some probe := by
      intro probe h
      rw [← hstarted] at h
      split at h
      · exact h
      · cases h
    have hsame : ∀ p, r.peers[i]? = some p → p = peer := fun p hp => Option.some.inj (hp.symm.trans hpeer)
    refine .assign_bind (setPeer_chats le_rfl (fun p hp => by rw [hsame p hp]; exact hprogress)
      fun p probe hp h => .inl (by rw [hsame p hp]; exact hprobe probe h)) ?_
    have hstart := getElem?_setPeer (f := fun _ => started) hpeer
    split
    · exact .pure
    · refine .assign_bind (setPeer_chats le_rfl ?_ ?_) ?_
      · intro p hp
        obtain rfl := Option.some.inj (hp.symm.trans hstart)
        rfl
      · intro p probe hp h
        obtain rfl := Option.some.inj (hp.symm.trans hstart)
        exact .inl h
      · have hsent := getElem?_setPeer (f := fun _ => { started with snapshotSentTick := some r.ticks }) hstart
        split
        · rename_i probe hfound
          exact send_chat ⟨probe, rfl, .inl ⟨_, List.mem_of_getElem? hsent, rfl, (Option.filter_eq_some_iff.mp hfound).1⟩⟩
        · exact request_chat hsent rfl (.chunk (List.any_eq_true.mpr ⟨_, List.mem_of_getElem? hsent, decide_eq_true rfl⟩) held whole
            (min_le_right _ _) le_rfl)

theorem replicate_chat (i : Nat) (force : Bool) : Chat (replicate i force) r w := by
  refine .memory_bind ?_
  split
  · exact .pure
  · rename_i peer hpeer
    split
    · rename_i probe hfound
      exact send_chat ⟨probe, rfl, .inl ⟨peer, List.mem_of_getElem? hpeer, rfl, (Option.filter_eq_some_iff.mp hfound).1⟩⟩
    · refine .assign_bind (setPeer_chats le_rfl (fun _ _ => rfl) fun _ _ _ h => nomatch h) ?_
      have hcleared := getElem?_setPeer (f := fun p => { p with probe := none }) hpeer
      split
      · rename_i snapshot hsnapshot
        split at hsnapshot
        · cases hsnapshot
        · obtain ⟨hheld, hwhole⟩ := Option.filter_eq_some_iff.mp hsnapshot
          exact sendSnapshotChunk_chat hheld (by simpa using hwhole)
      · have hbatch : (r.setPeer i fun p => { p with probe := none }).batch peer = r.batch peer := batch_quiet _ _ _ peer
        rw [← hbatch]
        exact request_chat hcleared rfl (.batch (List.mem_map.mpr ⟨_, List.mem_of_getElem? hcleared, rfl⟩) rfl le_rfl)

theorem replicateAll_chat : Chat replicateAll r w :=
  .memory_bind (.forEach (fun i _ _ => replicate_chat i false) _)

end Replication

end Replica

end Choreolog.Replication
