import Choreolog.Replication.Replica
import Choreolog.Theorems.Operations

/-! # Running a replica

What single calls of a replica come to: opening a directory, sending and replicating, and taking a command. -/

namespace Choreolog.Replication
open Lib State Storage Protocol

namespace Replica
variable {r : Replica} {w : World} {peer : Peer} {i : Nat} {force : Bool}

/-- A call of the store, then the rest. -/
theorem onStore_bind {α β : Type} (m : Store FileEngine α) (f : Result α → Node β) : (onStore m >>= f) r w =
    { f (m r.store w.disk).result { r with store := (m r.store w.disk).memory } { w with disk := (m r.store w.disk).disk } with
      images := ((m r.store w.disk).images.map fun disk => { w with disk }) ++
        (f (m r.store w.disk).result { r with store := (m r.store w.disk).memory } { w with disk := (m r.store w.disk).disk }).images } :=
  rfl

/-! ### Sending a message -/

theorem findIndex_le_last {index : Nat} {entry : Event} (h : r.findIndex index = some entry) : index ≤ r.lastIndex := by
  unfold findIndex WriteAheadLog.logEntry at h
  unfold lastIndex FileEngine.lastLogIndex
  split at h
  · rename_i first last hfirst hlast
    rw [hlast]
    split at h
    · cases h
    · rename_i hin
      push Not at hin
      exact hin.2
  · cases h

theorem send_fits {name : String} {frame : Frame} (running : r.halted = false) (fits : frame.payload.length ≤ maxFramePayload) :
    send name frame r w = transmit name frame r w := by
  rw [send, Program.memory_bind, if_neg (by rw [running]; decide), if_neg (not_lt.mpr fits)]

theorem send_oversize {name : String} {frame : Frame} (running : r.halted = false) (large : maxFramePayload < frame.payload.length) :
    send name frame r w = ⟨.ok (), { r with messagesDroppedOversize := r.messagesDroppedOversize + 1 }, w, []⟩ := by
  rw [send, Program.memory_bind, if_neg (by rw [running]; decide), if_pos large]
  rfl

/-- The log, rather than a snapshot, serves the peer. -/
def LogServes (r : Replica) (peer : Peer) : Prop := r.canAppend peer = true ∨ r.store.snapshot.filter (!·.legacy) = none

/-- The message for a peer with the next correlation. -/
def batchFrame (r : Replica) (peer : Peer) : Frame := ⟨.appendEntries, r.nextCorrelation, (r.batch peer).encode⟩

/-- The replica after it has built a message for a peer. -/
def requested (r : Replica) (i : Nat) (peer : Peer) : Replica :=
  { r.setPeer i fun p => { p with probe := none } with nextCorrelation := r.nextCorrelation + 1 }.setPeer i fun p =>
    { p with probe := some ⟨r.batchFrame peer, r.currentTerm, covered (r.batch peer), 0⟩ }

/-- A peer without a request in flight gets a new batch. -/
theorem replicate_new (hpeer : r.peers[i]? = some peer) (idle : peer.probe.filter (·.term = r.currentTerm) = none)
    (serves : LogServes r peer) : replicate i force r w = send peer.id (r.batchFrame peer) (r.requested i peer) w := by
  have hsnapshot : (if r.canAppend peer then none else r.store.snapshot.filter (!·.legacy)) = none := by
    rcases serves with h | h
    · rw [if_pos h]
    · rw [h, ite_self]
  rw [replicate, Program.memory_bind]
  simp only [hpeer, idle, hsnapshot]
  rw [Program.assign_bind, request, Program.memory_bind, Program.assign_bind]
  rfl

/-! ### The state with the uncommitted entries -/

theorem applyUncommitted_eq {r : Record} {b : Nat} {e : FileEngine} (indexed : Indexed r.log) (events : e.wal = walOf (r.log.drop b))
    {count i : Nat} (base : b ≤ i) (within : i + count ≤ r.log.length) (s : ChoreographyState) :
    applyUncommitted e count (i + 1) s = ((r.log.drop i).take count).foldlM apply s := by
  induction count generalizing i s with
  | zero =>
    rw [List.take_zero]
    rfl
  | succ count ih =>
    have hlt : i < r.log.length := by omega
    have hentry : e.wal.logEntry (i + 1) = some r.log[i] := by
      rw [events, logEntry_walOf indexed, if_pos (by omega), Nat.add_sub_cancel, List.getElem?_eq_getElem hlt]
    rw [applyUncommitted, hentry, List.drop_eq_getElem_cons hlt, List.take_succ_cons, List.foldlM_cons]
    dsimp only
    congr 1
    funext t
    exact ih (by omega) (by omega) t

theorem buildSpeculative_eq {r : Record} {b : Nat} {newest : Option ChoreographyState} {e : FileEngine} {d : Disk}
    (sound : Sound r b newest) (serves : Serves r b newest e d) :
    buildSpeculative e = (r.log.drop r.commit).foldlM apply e.state := by
  rw [buildSpeculative, serves.lastLogIndex sound, serves.commitIndex,
    applyUncommitted_eq sound.indexed serves.events sound.base (by have := sound.commit; omega), List.take_of_length_le]
  rw [List.length_drop]

/-- What concerns the speculative state changes; if its history cannot be cut the replica halts. -/
theorem trimRetainedHistory_cases (r : Replica) : ∃ speculative anchor index,
    r.trimRetainedHistory = { r with speculative, historyAnchor := anchor, commandIndex := index } ∨
    r.trimRetainedHistory = haltAfterStorageFailure { r with speculative, historyAnchor := anchor, commandIndex := index } := by
  unfold trimRetainedHistory
  dsimp only
  split
  · exact ⟨_, _, _, .inl rfl⟩
  · split
    · exact ⟨_, _, _, .inr rfl⟩
    · exact ⟨_, _, _, .inl rfl⟩

theorem rebuildSpeculative_cases (r : Replica) : ∃ speculative dirty,
    r.rebuildSpeculative = { r with speculative, speculativeDirty := dirty } := by
  unfold rebuildSpeculative
  split
  · exact ⟨_, _, rfl⟩
  · exact ⟨_, _, rfl⟩

theorem ensureSpeculative_cases (r : Replica) : ∃ speculative dirty anchor index,
    r.ensureSpeculative = { r with speculative, speculativeDirty := dirty, historyAnchor := anchor, commandIndex := index } ∨
    r.ensureSpeculative =
      haltAfterStorageFailure { r with speculative, speculativeDirty := dirty, historyAnchor := anchor, commandIndex := index } := by
  unfold ensureSpeculative
  obtain ⟨speculative, anchor, index, htrim⟩ := trimRetainedHistory_cases r
  obtain ⟨rebuilt, dirty, hrebuild⟩ := rebuildSpeculative_cases r.trimRetainedHistory
  dsimp only
  split
  · refine ⟨rebuilt, dirty, anchor, index, htrim.imp (fun h => ?_) fun h => ?_⟩
    · rw [hrebuild, h]
    · rw [hrebuild, h]
      rfl
  · exact ⟨speculative, r.speculativeDirty, anchor, index, htrim⟩

/-! ### Opening a directory -/

theorem find?_rebuildCommandIndex {r : Replica} {x : String} (h : ∀ e ∈ r.store.wal.events, e.commandId.value ≠ x) :
    r.rebuildCommandIndex.commandIndex.find? x = none := by
  have hfold : ∀ (events : List Event) (m : OrdMap String Nat), (∀ e ∈ events, e.commandId.value ≠ x) → m.find? x = none →
      (events.foldl (fun index event => index.insert event.commandId.value event.index) m).find? x = none := by
    intro events
    induction events with
    | nil => exact fun m _ hm => hm
    | cons e events ih =>
      intro m he hm
      refine ih _ (fun e' he' => he e' (List.mem_cons_of_mem _ he')) ?_
      rw [OrdMap.find?_insert, if_neg (he e List.mem_cons_self), hm]
  exact hfold _ _ h OrdMap.find?_empty

theorem drawTimeout_eq (r : Replica) : ∃ rng timeout, r.drawTimeout = { r with rng, electionTimeout := timeout } := by
  unfold Replica.drawTimeout
  dsimp only
  split
  · exact ⟨r.rng, _, rfl⟩
  · exact ⟨_, _, rfl⟩

/-- The fixed leader, or one of its followers. -/
theorem resume_fixed {config : ReplicaConfig} (fixed : config.elections = false)
    (ordered : ¬ config.electionTimeoutMax < config.electionTimeoutMin) (e : FileEngine) (c : ChoreographyState) (m : NodeMetadata) :
    ∃ rng timeout, resume config e c m = rebuildCommandIndex {
      config, store := e, speculative := c, peers := config.peers.map fun id => { id, nextIndex := e.lastLogIndex + 1 }
      role := if config.id = config.leaderId then .leader else .follower, currentTerm := max m.term e.state.term
      votedFor := m.votedFor.map fun (id : NodeId) => id.value, rng, electionTimeout := timeout } := by
  unfold resume create
  rw [if_neg ordered]
  obtain ⟨rng, timeout, hdraw⟩ := drawTimeout_eq {
    config, store := e, speculative := c, peers := config.peers.map fun id => ({ id } : Peer)
    rng := if (Bytes.ofText config.id).foldl (fun rng byte => rng * 131 + byte.toUInt64) (if config.rngSeed = 0 then 1 else config.rngSeed) = 0
      then 1 else (Bytes.ofText config.id).foldl (fun rng byte => rng * 131 + byte.toUInt64) (if config.rngSeed = 0 then 1 else config.rngSeed)
    role := if !config.elections ∧ config.id = config.leaderId then .leader else .follower }
  refine ⟨rng, timeout, ?_⟩
  dsimp only at hdraw ⊢
  rw [hdraw]
  dsimp only
  rw [if_neg (ne_true_of_eq_false fixed)]
  dsimp only
  rw [List.map_map]
  rfl

theorem open_runs {config : ReplicaConfig} {μ : Type} {s : μ} {d d' : Disk} {e : FileEngine} {c : ChoreographyState} {m : NodeMetadata}
    (opened : Program.Runs (FileEngine.open { snapshotEvery := config.snapshotEvery, commitOnAppend := false, compactLog := true } : Store μ FileEngine)
      s d e s d')
    (speculative : buildSpeculative e = .ok c) (metadata : loadMetadata s d' = ⟨.ok m, s, d', []⟩)
    (snapshot : e.snapshot.any (m.term < ·.term) = false) (terms : termsAgree m.term e.snapshot 0 e.wal.events = true) :
    Program.Runs (Replica.open config : Store μ Replica) s d (resume config e c m) s d' := by
  refine opened.bind ?_
  rw [speculative]
  have hspeculative : Program.Runs (.of (.ok c) : Store μ ChoreographyState) s d' c s d' := ⟨rfl, rfl, rfl⟩
  have hmetadata : Program.Runs (loadMetadata : Store μ NodeMetadata) s d' m s d' := by
    refine ⟨?_, ?_, ?_⟩
    · rw [metadata]
    · rw [metadata]
    · rw [metadata]
  refine hspeculative.bind (hmetadata.bind ?_)
  · rw [snapshot, terms]
    exact .pure _

/-! ### Commands -/

theorem committable_none {r : Replica} (h : ∀ index, 0 < index → r.copies index < r.majority) (k : Nat) : r.committable k = none := by
  induction k with
  | zero => rfl
  | succ k ih =>
    have hfew : ¬ r.majority ≤ r.copies (k + 1) := not_le.mpr (h (k + 1) (Nat.succ_pos k))
    rw [Replica.committable, ih]
    split
    · rfl
    · rw [if_neg]
      rw [Bool.and_eq_true, decide_eq_true_eq]
      exact fun hboth => hfew hboth.2

/-- The fixed leader takes a new command into its log and sends it. -/
theorem enqueue_fixed {r r₁ r₃ : Replica} {w w₃ : World} {command : Command} {event : Event} {c : ChoreographyState} {e : FileEngine} {d : Disk}
    (running : r.halted = false) (leads : r.isLeader = true) (unknown : ¬ (r.store.state.appliedCommands.contains command.id.value = true ∨
      r.store.state.receipts.contains command.id.value = true)) (new : r.findCommand command.id.value = none)
    (ensured : r.ensureSpeculative = r₁) (fixed : r₁.config.elections = false) (proposed : State.propose r₁.speculative command = .ok event)
    (appended : Program.Runs (FileEngine.appendEvent event) r₁.store w.disk () e d) (applied : apply r₁.speculative event = .ok c)
    (replicated : Program.Runs replicateAll
      { r₁ with store := e, commandIndex := r₁.commandIndex.insert event.commandId.value event.index, speculative := c }
      { w with disk := d } () r₃ w₃)
    (waiting : r₃.committable r₃.lastIndex = none) :
    Program.Runs (enqueue command) r w ⟨event, false, event.index ≤ r₃.store.commitIndex, r₃.config.leaderId⟩ r₃ w₃ := by
  have hpropose : r₁.propose command = .ok (event, r₁) := by
    unfold Replica.propose
    rw [proposed]
    simp only [bind, Except.bind, fixed]
    rfl
  have hcommit : Program.Runs advanceCommit r₃ w₃ () r₃ w₃ := by
    refine .memory_bind ?_
    rw [waiting]
    split <;> exact .pure ()
  unfold enqueue
  refine .memory_bind ?_
  rw [if_neg (ne_true_of_eq_false running), if_neg (by rw [leads]; decide), if_neg unknown, new]
  refine .assign_bind (.memory_bind ?_)
  rw [ensured, hpropose]
  refine .assign_bind (.bind (.inside appended) (.assign_bind (.memory_bind (.of_bind (a := c) ?_ (.assign_bind ?_)))))
  · rw [if_pos (.inl (by rw [fixed]; rfl))]
    exact applied
  · exact .bind replicated (.bind hcommit (.memory_bind (.pure _)))

/-- The only peer would have to get a message that is too large. -/
theorem replicateAll_dropped {r : Replica} {w : World} {peer : Peer} (hpeers : r.peers = [peer]) (running : r.halted = false)
    (idle : peer.probe = none) (serves : LogServes r peer) (large : maxFramePayload < (r.batch peer).encode.length) :
    Program.Runs replicateAll r w ()
      { r.requested 0 peer with messagesDroppedOversize := (r.requested 0 peer).messagesDroppedOversize + 1 } w := by
  have hreplicate : replicate 0 false r w =
      ⟨.ok (), { r.requested 0 peer with messagesDroppedOversize := (r.requested 0 peer).messagesDroppedOversize + 1 }, w, []⟩ := by
    rw [replicate_new (by rw [hpeers]; rfl) (by rw [idle]; rfl) serves]
    exact send_oversize running large
  refine .memory_bind ?_
  rw [hpeers]
  exact .bind ⟨congrArg Outcome.result hreplicate, congrArg Outcome.memory hreplicate, congrArg Outcome.disk hreplicate⟩ (.pure ())

end Replica

end Choreolog.Replication
