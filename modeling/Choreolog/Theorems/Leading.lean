import Choreolog.Replication.Replica
import Choreolog.Theorems.Sending

/-! # Taking the lead

A candidate with a majority of votes has to install itself as leader and to open its term with a no-op. The identifiers
of that no-op are built from the node id, the term and the index, and must be valid, short and unused. -/

namespace Choreolog.Replication
open Lib State Storage Protocol

namespace Replica

/-! ### The no-op of a term -/

/-- The term and the index, as they stand in the identifiers of a no-op. -/
def serial (r : Replica) (term : Nat) : String := toString term ++ "-" ++ toString (r.lastIndex + 1)

/-- The no-op with which the replica would open a term. -/
structure Opening (r : Replica) (term : Nat) (event : Event) : Prop where
  id : event.id.value = "noop-" ++ r.config.id ++ "-" ++ r.serial term
  commandId : event.commandId.value = "noop-" ++ r.serial term
  choreographyId : event.choreographyId = r.ensureSpeculative.speculative.id.getD ⟨"system", by decide⟩
  type : event.type = .noOp
  schemaVersion : event.schemaVersion = currentSchemaVersion
  tick : event.tick = ⟨0, by decide⟩
  index : event.index = r.lastIndex + 1
  term : event.term = term
  payload : event.payload = .create ⟨event.choreographyId, unitStage, .forbidden, 0⟩

/-- What a replica needs to lead in a term: a short name for the no-op, and a state that the no-op can be applied to. -/
structure Ready (r : Replica) (term : Nat) : Prop where
  short : ("noop-" ++ r.config.id ++ "-" ++ r.serial term).toList.length ≤ maxIdLength
  applies : ∀ event, r.Opening term event → (apply r.ensureSpeculative.speculative event).isOk = true

theorem allowed_serial (r : Replica) (term : Nat) : ∀ c ∈ (r.serial term).toList, isAllowedIdChar c = true := by
  have hdigit : ∀ n : Nat, ∀ c ∈ (toString n).toList, isAllowedIdChar c = true := by
    intro n c hc
    rw [Text.toList_toString] at hc
    simp [isAllowedIdChar, Char.isAlphanum, Text.digits_ofNat c hc]
  intro c hc
  simp only [serial, String.toList_append, List.mem_append] at hc
  rcases hc with (hc | hc) | hc
  · exact hdigit _ c hc
  · obtain rfl := List.mem_singleton.mp hc
    decide
  · exact hdigit _ c hc

/-- Of a valid id, only the length of the name can be wrong. -/
theorem validId_noop {r : Replica} {term : Nat} (valid : validId r.config.id = true) :
    validId ("noop-" ++ r.config.id ++ "-" ++ r.serial term) = true ↔
      ("noop-" ++ r.config.id ++ "-" ++ r.serial term).toList.length ≤ maxIdLength := by
  rw [validId_iff]
  refine ⟨fun h => h.2.1, fun h => ⟨?_, h, ?_⟩⟩
  · intro hempty
    have := congrArg (fun x : String => x.toList.length) hempty
    simp at this
  · intro c hc
    simp only [String.toList_append, List.mem_append] at hc
    rcases hc with ((hc | hc) | hc) | hc
    · revert c
      decide
    · exact (validId_iff.mp valid).2.2 c hc
    · obtain rfl := List.mem_singleton.mp hc
      decide
    · exact allowed_serial r term c hc

/-- The command id is a shorter name than the event id. -/
theorem validId_noopCommand {r : Replica} {term : Nat} (h : validId ("noop-" ++ r.config.id ++ "-" ++ r.serial term) = true) :
    validId ("noop-" ++ r.serial term) = true := by
  rw [validId_iff] at h ⊢
  refine ⟨?_, ?_, ?_⟩
  · intro hempty
    have := congrArg (fun x : String => x.toList.length) hempty
    simp at this
  · refine le_trans ?_ h.2.1
    simp only [String.toList_append, List.length_append]
    omega
  · intro c hc
    refine h.2.2 c ?_
    simp only [String.toList_append, List.mem_append] at hc ⊢
    tauto

theorem noop_eq {s : Replica} (index : Nat) (positive : s.currentTerm ≠ 0) : s.noop index = do
    let id ← StrongId.parse ("noop-" ++ s.config.id ++ "-" ++ (toString s.currentTerm ++ "-" ++ toString index))
    let commandId ← StrongId.parse ("noop-" ++ (toString s.currentTerm ++ "-" ++ toString index))
    let choreographyId := s.speculative.id.getD ⟨"system", by decide⟩
    return { id, commandId, choreographyId, type := .noOp, schemaVersion := currentSchemaVersion, tick := ⟨0, by decide⟩, index
             term := s.currentTerm, payload := .create ⟨choreographyId, unitStage, .forbidden, 0⟩ } := by
  have hsystem : (StrongId.parse "system" : Result ChoreographyId) = .ok ⟨"system", by decide⟩ := StrongId.parse_value ⟨"system", _⟩
  have hterm : parseTerm s.currentTerm = .ok s.currentTerm := if_neg positive
  unfold noop
  cases s.speculative.id with
  | none =>
    rw [hsystem, hterm]
    rfl
  | some id =>
    rw [hterm]
    rfl

theorem noop_iff {r s : Replica} {event : Event} (hid : s.config.id = r.config.id) (hlast : s.lastIndex = r.lastIndex)
    (hspeculative : s.speculative = r.ensureSpeculative.speculative) (positive : s.currentTerm ≠ 0) :
    s.noop (s.lastIndex + 1) = .ok event ↔ r.Opening s.currentTerm event := by
  rw [noop_eq _ positive, hid, hlast, hspeculative]
  constructor
  · intro h
    obtain ⟨id, hid', h⟩ := bind_ok h
    obtain ⟨commandId, hcommand, h⟩ := bind_ok h
    obtain rfl := Except.ok.inj h
    exact ⟨StrongId.parse_ok hid', StrongId.parse_ok hcommand, rfl, rfl, rfl, rfl, rfl, rfl, rfl⟩
  · rintro ⟨hname, hcommand, hchoreography, htype, hschema, htick, hindex, hterm, hpayload⟩
    have hid' : (StrongId.parse ("noop-" ++ r.config.id ++ "-" ++ (toString s.currentTerm ++ "-" ++ toString (r.lastIndex + 1))) :
        Result EventId) = .ok event.id := by
      rw [← StrongId.parse_value event.id, hname]
      rfl
    have hcommand' : (StrongId.parse ("noop-" ++ (toString s.currentTerm ++ "-" ++ toString (r.lastIndex + 1))) : Result CommandId) =
        .ok event.commandId := by
      rw [← StrongId.parse_value event.commandId, hcommand]
      rfl
    rw [hid', hcommand']
    cases event
    dsimp only at hpayload
    subst hchoreography htype hschema htick hindex hterm hpayload
    rfl

/-- A valid id has an opening in a term if and only if the name is short enough. -/
theorem exists_opening {r : Replica} {term : Nat} (valid : validId r.config.id = true) :
    (∃ event, r.Opening term event) ↔ ("noop-" ++ r.config.id ++ "-" ++ r.serial term).toList.length ≤ maxIdLength := by
  rw [← validId_noop valid]
  constructor
  · rintro ⟨event, h⟩
    rw [← h.id]
    exact event.id.valid
  · intro h
    exact ⟨{
      id := ⟨_, h⟩, commandId := ⟨_, validId_noopCommand h⟩, type := .noOp, schemaVersion := currentSchemaVersion
      choreographyId := r.ensureSpeculative.speculative.id.getD ⟨"system", by decide⟩, tick := ⟨0, by decide⟩
      index := r.lastIndex + 1, term, payload := .create ⟨_, unitStage, .forbidden, 0⟩ }, ⟨rfl, rfl, rfl, rfl, rfl, rfl, rfl, rfl, rfl⟩⟩

/-! ### Becoming leader -/

/-- The replica leads in the term: the roles are set, exactly one no-op of the term was appended (and committed, if there is
    nobody to wait for), and nothing is known of the peers. -/
structure Led (r : Replica) (term : Nat) (s : Replica) : Prop where
  role : s.role = .leader
  current : s.currentTerm = term
  leaderId : s.config.leaderId = r.config.id
  opened : ∃ event store d d', event.type = .noOp ∧ event.term = term ∧ event.index = r.lastIndex + 1 ∧
    Program.Runs (FileEngine.appendEvent event) r.store d () store d' ∧
    (s.store = store ∨ ∃ index d'', Program.Runs (FileEngine.commitThrough index) store d' () s.store d'')
  progress : s.peers.map Peer.progress = r.peers.map fun p => (p.id, r.lastIndex + 1, 0)

/-- A commit of the leader, unless it fails, changes the store only. -/
theorem advanceCommit_cases (r : Replica) (w : World) : (advanceCommit r w).memory.halted = true ∨
    Chats r w (advanceCommit r w).memory (advanceCommit r w).disk ∨
    ∃ index store d, Program.Runs (FileEngine.commitThrough index) r.store w.disk () store d ∧
      Chats { r with store } { w with disk := d } (advanceCommit r w).memory (advanceCommit r w).disk := by
  unfold advanceCommit
  rw [Program.memory_bind]
  split
  · exact .inr (.inl .refl)
  · cases r.committable r.lastIndex with
    | none => exact .inr (.inl .refl)
    | some index =>
      dsimp only
      rw [onStore_bind]
      cases hcommit : (FileEngine.commitThrough index r.store w.disk).result with
      | error e => exact .inl rfl
      | ok _ => exact .inr (.inr ⟨index, _, _, ⟨hcommit, rfl, rfl⟩, replicateAll_chat.chats⟩)

/-- The replica with its roles set, before it opens the term. -/
def installed (r : Replica) : Replica :=
  { r.ensureSpeculative with
    role := .leader, config := { r.ensureSpeculative.config with leaderId := r.ensureSpeculative.config.id } }.resetPeers
      (r.ensureSpeculative.lastIndex + 1)

theorem installed_eq (r : Replica) : r.installed.store = r.store ∧ r.installed.config.id = r.config.id ∧
    r.installed.config.leaderId = r.config.id ∧ r.installed.currentTerm = r.currentTerm ∧
    r.installed.peers.map Peer.progress = r.peers.map fun p => (p.id, r.lastIndex + 1, 0) := by
  unfold installed
  obtain ⟨speculative, dirty, anchor, index, h | h⟩ := ensureSpeculative_cases r
  · rw [h]
    refine ⟨rfl, rfl, rfl, rfl, ?_⟩
    change (r.peers.map _).map _ = _
    rw [List.map_map]
    rfl
  · rw [h]
    refine ⟨rfl, rfl, rfl, rfl, ?_⟩
    change (r.peers.map _).map _ = _
    rw [List.map_map]
    rfl

theorem becomeLeader_eq {r : Replica} {w : World} (waiting : r.role ≠ .leader) : becomeLeader r w = (do
    match r.installed.noop (r.installed.lastIndex + 1) with
    | .error _ => .assign fun r => { r with role := .candidate }
    | .ok noop =>
      match ← onStore (FileEngine.appendEvent noop) with
      | .error _ => .assign haltAfterStorageFailure
      | .ok _ =>
        .assign fun r => { r with commandIndex := r.commandIndex.insert noop.commandId.value noop.index }
        match apply r.installed.speculative noop with
        | .error _ => .assign fun r => { r with role := .candidate }
        | .ok speculative =>
          .assign fun r => { r with speculative }
          replicateAll
          advanceCommit : Node Unit) r.installed w := by
  rw [becomeLeader, Program.memory_bind, if_neg waiting]
  rfl

/-- How an attempt to take the lead ends, if the storage does not fail: the name of the no-op is not valid, the no-op cannot be
    applied, or the replica leads. -/
theorem becomeLeader_cases {r : Replica} {w : World} (waiting : r.role ≠ .leader)
    (unfailing : (becomeLeader r w).memory.halted = false) :
    (∃ e, r.installed.noop (r.installed.lastIndex + 1) = .error e ∧ (becomeLeader r w).memory.role = .candidate) ∨
    (∃ event e, r.installed.noop (r.installed.lastIndex + 1) = .ok event ∧ apply r.installed.speculative event = .error e ∧
      (becomeLeader r w).memory.role = .candidate) ∨
    ∃ event state index store d s v, r.installed.noop (r.installed.lastIndex + 1) = .ok event ∧
      apply r.installed.speculative event = .ok state ∧
      Program.Runs (FileEngine.appendEvent event) r.installed.store w.disk () store d ∧
      Chats { r.installed with store, commandIndex := index, speculative := state } { w with disk := d } s v ∧
      (becomeLeader r w).memory = (advanceCommit s v).memory := by
  rw [becomeLeader_eq waiting] at unfailing ⊢
  cases hname : r.installed.noop (r.installed.lastIndex + 1) with
  | error e => exact .inl ⟨e, rfl, rfl⟩
  | ok event =>
    rw [hname] at unfailing
    dsimp only at unfailing ⊢
    rw [onStore_bind] at unfailing ⊢
    cases happended : (FileEngine.appendEvent event r.installed.store w.disk).result with
    | error e =>
      rw [happended] at unfailing
      cases unfailing
    | ok _ =>
      cases happlied : apply r.installed.speculative event with
      | error e => exact .inr (.inl ⟨event, e, rfl, happlied, rfl⟩)
      | ok state =>
        refine .inr (.inr ⟨event, state, r.installed.commandIndex.insert event.commandId.value event.index, _, _, _, _, rfl, happlied,
          ⟨happended, rfl, rfl⟩, replicateAll_chat.chats, ?_⟩)
        dsimp only
        rw [Program.assign_bind, Program.assign_bind, Program.bind_of_ok replicateAll_chat.returns]

theorem ready_iff {r : Replica} (valid : validId r.config.id = true) (positive : r.currentTerm ≠ 0) : Ready r r.currentTerm ↔
    ∃ event, r.installed.noop (r.installed.lastIndex + 1) = .ok event ∧ (apply r.installed.speculative event).isOk = true := by
  obtain ⟨hstore, hid, -, hterm, -⟩ := installed_eq r
  have hlast : r.installed.lastIndex = r.lastIndex := by
    unfold lastIndex
    rw [hstore]
  have hnoop : ∀ event, r.installed.noop (r.installed.lastIndex + 1) = .ok event ↔ r.Opening r.currentTerm event := by
    intro event
    rw [← hterm]
    exact noop_iff hid hlast rfl (by rwa [hterm])
  constructor
  · rintro ⟨hshort, happlies⟩
    obtain ⟨event, hopening⟩ := (exists_opening valid).mpr hshort
    exact ⟨event, (hnoop event).mpr hopening, happlies event hopening⟩
  · rintro ⟨event, hname, hok⟩
    refine ⟨(exists_opening valid).mp ⟨event, (hnoop event).mp hname⟩, fun other hother => ?_⟩
    obtain rfl := Except.ok.inj (((hnoop other).mpr hother).symm.trans hname)
    exact hok

theorem becomeLeader_iff {r : Replica} {w : World} (waiting : r.role ≠ .leader) (valid : validId r.config.id = true)
    (positive : r.currentTerm ≠ 0) (unfailing : (becomeLeader r w).memory.halted = false) :
    Led r r.currentTerm (becomeLeader r w).memory ↔ Ready r r.currentTerm := by
  obtain ⟨hstore, hid, hleader, hterm, hprogress⟩ := installed_eq r
  have hlast : r.installed.lastIndex = r.lastIndex := by
    unfold lastIndex
    rw [hstore]
  rw [ready_iff valid positive]
  rcases becomeLeader_cases waiting unfailing with ⟨e, hname, hrole⟩ | ⟨event, e, hname, happlied, hrole⟩ |
      ⟨event, state, index, store, d, s, v, hname, happlied, happended, hchats, hend⟩
  · -- The roles are taken back half way.
    refine ⟨fun h => (nomatch h.role.symm.trans hrole), ?_⟩
    rintro ⟨event, hevent, -⟩
    cases hevent.symm.trans hname
  · -- So they are here, and the no-op stays in the log.
    refine ⟨fun h => (nomatch h.role.symm.trans hrole), ?_⟩
    rintro ⟨other, hother, hok⟩
    obtain rfl := Except.ok.inj (hother.symm.trans hname)
    rw [happlied] at hok
    cases hok
  · have hopening := (noop_iff hid hlast rfl (by rwa [hterm])).mp hname
    rw [hterm] at hopening
    rw [hend] at unfailing ⊢
    refine ⟨fun _ => ⟨event, hname, by rw [happlied]; rfl⟩, fun _ => ?_⟩
    have hs := hchats.replica
    rw [hstore] at happended
    rcases advanceCommit_cases s v with hhalted | hdone | ⟨through, store', d', hcommit, hdone⟩
    · rw [hhalted] at unfailing
      cases unfailing
    · have hm := hdone.replica
      refine ⟨by rw [hm, hs]; rfl, by rw [hm, hs]; exact hterm, by rw [hm, hs]; exact hleader, ?_,
        hdone.progress.trans (hchats.progress.trans hprogress)⟩
      exact ⟨event, store, w.disk, d, hopening.type, hopening.term, hopening.index, happended, .inl (by rw [hm, hs])⟩
    · have hm := hdone.replica
      refine ⟨by rw [hm, hs]; rfl, by rw [hm, hs]; exact hterm, by rw [hm, hs]; exact hleader, ?_,
        hdone.progress.trans (hchats.progress.trans hprogress)⟩
      refine ⟨event, store, w.disk, d, hopening.type, hopening.term, hopening.index, happended, .inr ⟨through, d', ?_⟩⟩
      have hstore' : (advanceCommit s v).memory.store = store' := by rw [hm]
      have hdisk : v.disk = d := hchats.world.disk
      have hheld : s.store = store := by rw [hs]
      rw [hstore', ← hheld, ← hdisk]
      exact hcommit

/-! ### The steps that complete a majority -/

/-- The step records the vote that completes a majority of votes for the term: a member's vote arrives, or an election starts in
    a cluster of one. -/
inductive Wins (r : Replica) : Input → Nat → Prop
  | vote {frame : Frame} {transportPeer : String} {message : RequestVoteResponse} (type : frame.type = .requestVoteResponse)
      (decoded : decodeVoteResponse frame.payload = .ok message)
      (origin : transportPeer = "" ∨ r.isConfiguredPeer transportPeer = true ∧ message.voterId = transportPeer)
      (voter : r.isConfiguredPeer message.voterId = true) (candidate : r.role = .candidate) (current : message.term = r.currentTerm)
      (granted : message.voteGranted = true) (new : message.voterId ∉ r.votesFrom)
      (majority : r.majority ≤ r.votesFrom.length + 1) : Wins r (.frame frame transportPeer) r.currentTerm
  | alone (waiting : r.role ≠ .leader) (timeout : r.electionTimeout ≤ r.electionElapsed + 1) (room : r.currentTerm ≠ 2 ^ 64 - 1)
      (majority : r.majority ≤ 1) : Wins r .tick (r.currentTerm + 1)

section Congruence
variable {r s t : Replica} {term : Nat}

theorem Led.congr (hid : r.config.id = s.config.id) (hstore : r.store = s.store) (hpeers : r.peers = s.peers) (h : Led r term t) :
    Led s term t := by
  obtain ⟨hrole, hcurrent, hleader, hopened, hprogress⟩ := h
  unfold lastIndex at hopened hprogress
  rw [hstore] at hopened hprogress
  rw [hpeers] at hprogress
  rw [hid] at hleader
  exact ⟨hrole, hcurrent, hleader, hopened, hprogress⟩

theorem Ready.congr (hid : r.config.id = s.config.id) (hstore : r.store = s.store)
    (hspeculative : r.ensureSpeculative.speculative = s.ensureSpeculative.speculative) (h : Ready r term) : Ready s term := by
  have hserial : r.serial term = s.serial term := by
    unfold serial lastIndex
    rw [hstore]
  obtain ⟨hshort, happlies⟩ := h
  rw [hid, hserial] at hshort
  refine ⟨hshort, fun event hevent => ?_⟩
  rw [← hspeculative]
  obtain ⟨hname, hcommand, hchoreography, htype, hschema, htick, hindex, hterm, hpayload⟩ := hevent
  unfold lastIndex at hindex
  rw [← hstore] at hindex
  rw [← hid, ← hserial] at hname
  rw [← hserial] at hcommand
  rw [← hspeculative] at hchoreography
  exact happlies event ⟨hname, hcommand, hchoreography, htype, hschema, htick, hindex, hterm, hpayload⟩

theorem ensureSpeculative_congr (hstore : r.store = s.store) (hspeculative : r.speculative = s.speculative)
    (hdirty : r.speculativeDirty = s.speculativeDirty) (hanchor : r.historyAnchor = s.historyAnchor) :
    r.ensureSpeculative.speculative = s.ensureSpeculative.speculative := by
  have htrim : r.trimRetainedHistory.speculative = s.trimRetainedHistory.speculative ∧
      r.trimRetainedHistory.speculativeDirty = s.trimRetainedHistory.speculativeDirty ∧
      r.trimRetainedHistory.store = s.trimRetainedHistory.store := by
    unfold trimRetainedHistory
    dsimp only
    rw [hstore, hanchor, hspeculative]
    split
    · exact ⟨hspeculative, hdirty, hstore⟩
    · split
      · exact ⟨rfl, hdirty, rfl⟩
      · exact ⟨rfl, hdirty, rfl⟩
  unfold ensureSpeculative
  dsimp only
  rw [htrim.2.1]
  split
  · unfold rebuildSpeculative
    rw [htrim.2.2]
    split
    · rfl
    · exact htrim.1
  · exact htrim.1

theorem ensureSpeculative_trim (r : Replica) : r.trimRetainedHistory.ensureSpeculative = r.ensureSpeculative := by
  have htwice : r.trimRetainedHistory.trimRetainedHistory = r.trimRetainedHistory := by
    by_cases hanchor : r.store.logFirstIndex ≤ r.historyAnchor
    · have hsame : r.trimRetainedHistory = r := if_pos hanchor
      rw [hsame, hsame]
    · have hkept : r.trimRetainedHistory.store = r.store ∧ r.trimRetainedHistory.historyAnchor = r.store.logFirstIndex := by
        unfold trimRetainedHistory
        dsimp only
        rw [if_neg hanchor]
        split
        · exact ⟨rfl, rfl⟩
        · exact ⟨rfl, rfl⟩
      exact if_pos (by rw [hkept.1, hkept.2])
  unfold ensureSpeculative
  rw [htwice]

/-- What counts for taking the lead is the same in both replicas. -/
theorem lead_congr (h : Led r term t ↔ Ready r term) (hid : r.config.id = s.config.id) (hstore : r.store = s.store)
    (hpeers : r.peers = s.peers) (hspeculative : r.ensureSpeculative.speculative = s.ensureSpeculative.speculative) :
    Led s term t ↔ Ready s term :=
  ⟨fun hled => (h.mp (hled.congr hid.symm hstore.symm hpeers.symm)).congr hid hstore hspeculative,
    fun hready => (h.mpr (hready.congr hid.symm hstore.symm hspeculative.symm)).congr hid hstore hpeers⟩

end Congruence

/-- A successful write of the term and the vote leaves the store in memory as it was. -/
theorem persistConsensus_memory {term : Nat} {vote : Option NodeId} {store : FileEngine} {d : Disk} {u : Unit}
    (h : (FileEngine.persistConsensus term vote store d).result = .ok u) :
    (FileEngine.persistConsensus term vote store d).memory = store := by
  have hkeeps : ∀ {α : Type} {m : Store FileEngine α}, Program.Steady m →
      Program.Triple (fun s _ => s = store) m (fun _ s _ => s = store) (fun _ _ _ => True) fun _ => True := by
    rintro α m hm s d rfl
    refine ⟨fun _ _ => trivial, ?_⟩
    cases (m s d).result with
    | error e => trivial
    | ok a => exact hm s d
  have hwritable : Program.Steady FileEngine.requireWritable := by
    intro s d
    unfold FileEngine.requireWritable
    rw [Program.memory_bind]
    split
    · rfl
    · rfl
  have hload : Program.Steady (loadMetadata : Store FileEngine NodeMetadata) := by
    refine .bind .disk fun d => ?_
    split
    · exact .pure _
    · exact .of _
  have hstored : ∀ m, Program.Steady (storeMetadata m : Store FileEngine Unit) := fun m => .bind (.of _) fun _ => .write _ _
  have htriple : Program.Triple (fun s _ => s = store) (FileEngine.persistConsensus term vote) (fun _ s _ => s = store)
      (fun _ _ _ => True) fun _ => True :=
    .bind _ (hkeeps hwritable) fun _ => .bind _ (.onError (hkeeps hload) fun _ _ _ _ => trivial) fun _ =>
      .ite (fun _ => Program.Triple.fail.strengthen fun _ _ _ => trivial) fun _ => .onError (hkeeps (hstored _)) fun _ _ _ _ => trivial
  have := (htriple store d rfl).2
  rwa [h] at this

theorem startElection_alone {r : Replica} {w : World} (room : r.currentTerm ≠ 2 ^ 64 - 1) (valid : validId r.config.id = true)
    (majority : r.majority ≤ 1) (unfailing : (startElection r w).memory.halted = false) :
    ∃ s v, (startElection r w).memory = (becomeLeader s v).memory ∧ s.config.id = r.config.id ∧ s.store = r.store ∧
      s.peers = r.peers ∧ s.speculative = r.speculative ∧ s.speculativeDirty = r.speculativeDirty ∧
      s.historyAnchor = r.historyAnchor ∧ s.role = .candidate ∧ s.currentTerm = r.currentTerm + 1 := by
  obtain ⟨self, hself⟩ : ∃ self, (StrongId.parse r.config.id : Result NodeId) = .ok self :=
    ⟨⟨r.config.id, valid⟩, StrongId.parse_value ⟨r.config.id, valid⟩⟩
  unfold startElection at unfailing ⊢
  rw [Program.memory_bind, if_neg room, hself] at unfailing ⊢
  dsimp only at unfailing ⊢
  rw [onStore_bind] at unfailing ⊢
  cases hpersisted : (FileEngine.persistConsensus (r.currentTerm + 1) (some self) r.store w.disk).result with
  | error e =>
    rw [hpersisted] at unfailing
    cases unfailing
  | ok _ =>
    have hmemory := persistConsensus_memory hpersisted
    rw [hmemory]
    obtain ⟨rng, timeout, hdraw⟩ := drawTimeout_eq { r with
      role := .candidate, currentTerm := r.currentTerm + 1, votedFor := some r.config.id, votesFrom := [r.config.id]
      config := { r.config with leaderId := "" }, electionElapsed := 0 }
    dsimp only at hdraw ⊢
    rw [Program.assign_bind, if_pos majority]
    dsimp only
    rw [hdraw]
    exact ⟨_, _, rfl, rfl, rfl, rfl, rfl, rfl, rfl, rfl, rfl⟩

theorem receive_vote {r : Replica} {w : World} {frame : Frame} {transportPeer : String} {message : RequestVoteResponse}
    (running : r.halted = false) (type : frame.type = .requestVoteResponse) (decoded : decodeVoteResponse frame.payload = .ok message)
    (origin : transportPeer = "" ∨ r.isConfiguredPeer transportPeer = true ∧ message.voterId = transportPeer) :
    receive (.frame frame transportPeer) r w = onVoteResponse message r w := by
  change handle frame transportPeer r w = _
  have hpeer : ¬ (transportPeer ≠ "" ∧ (!r.isConfiguredPeer transportPeer) = true) := by
    rcases origin with rfl | ⟨hknown, -⟩
    · exact fun h => h.1 rfl
    · rw [hknown]
      exact fun h => nomatch h.2
  have htrusted : (transportPeer = "" || message.voterId = transportPeer : Bool) = true := by
    rcases origin with rfl | ⟨-, rfl⟩
    · rfl
    · simp
  unfold handle
  rw [Program.memory_bind, if_neg (by rw [running]; simpa using hpeer), type, decoded]
  simp only [Except.toOption, Option.filter, htrusted, if_true]

/-! ### Who leads -/

theorem becomes_leader_iff {r : Replica} {w : World} {input : Input} {term : Nat} (elections : r.config.elections = true)
    (running : r.halted = false) (valid : validId r.config.id = true) (positive : r.currentTerm ≠ 0) (wins : r.Wins input term)
    (unfailing : (receive input r w).memory.halted = false) :
    Led r term (receive input r w).memory ↔ Ready r term := by
  cases wins with
  | @vote frame transportPeer message type decoded origin voter candidate current granted new majority =>
    have hrun : receive (.frame frame transportPeer) r w = becomeLeader { r with votesFrom := r.votesFrom ++ [message.voterId] } w := by
      rw [receive_vote running type decoded origin, onVoteResponse, Program.memory_bind, if_neg (by rw [voter]; decide),
        if_neg (by rw [elections]; decide), if_neg (by rw [current]; exact lt_irrefl _), if_neg (by rw [candidate, current, granted]; simp),
        if_neg new, Program.assign_bind, if_pos majority]
    rw [hrun] at unfailing ⊢
    have hlead := becomeLeader_iff (r := { r with votesFrom := r.votesFrom ++ [message.voterId] })
      (by rw [candidate]; decide) valid positive unfailing
    exact lead_congr hlead rfl rfl rfl (ensureSpeculative_congr rfl rfl rfl rfl)
  | alone waiting timeout room majority =>
    obtain ⟨speculative, anchor, index, htrim | htrim⟩ := trimRetainedHistory_cases r
    · have hrun : receive .tick r w = startElection
          { r.trimRetainedHistory with ticks := r.ticks + 1, electionElapsed := r.electionElapsed + 1 } w := by
        change tick r w = _
        unfold tick
        rw [Program.assign_bind, Program.memory_bind, htrim, if_neg (ne_true_of_eq_false running), Program.assign_bind,
          if_neg (by rw [elections]; decide), if_neg waiting, Program.assign_bind, if_pos timeout]
      rw [hrun] at unfailing ⊢
      obtain ⟨s, v, hend, hid, hstore, hpeers, hspeculative, hdirty, hanchor, hrole, hterm⟩ :=
        startElection_alone (by rw [htrim]; exact room) (by rw [htrim]; exact valid) (by rw [htrim]; exact majority) unfailing
      rw [hend] at unfailing ⊢
      have hlead := becomeLeader_iff (by rw [hrole]; decide) (by rw [hid, htrim]; exact valid) (by rw [hterm]; exact Nat.succ_ne_zero _)
        unfailing
      have hcurrent : s.currentTerm = r.currentTerm + 1 := by rw [hterm, htrim]
      rw [hcurrent] at hlead
      refine lead_congr hlead (by rw [hid, htrim]) (by rw [hstore, htrim]) (by rw [hpeers, htrim]) ?_
      rw [← ensureSpeculative_trim r]
      exact ensureSpeculative_congr hstore hspeculative hdirty hanchor
    · -- The history could not be cut, so the replica is halted.
      exfalso
      have hrun : receive .tick r w = ⟨.ok (), r.trimRetainedHistory, w, []⟩ := by
        change tick r w = _
        unfold tick
        rw [Program.assign_bind, Program.memory_bind, if_pos (by rw [htrim]; rfl)]
        rfl
      rw [hrun, htrim] at unfailing
      cases unfailing

/-- A member of three with this id, whose first tick starts an election. -/
def member (id : String) : ReplicaConfig :=
  { id, peers := ["b", "c"], elections := true, electionTimeoutMin := 1, electionTimeoutMax := 1 }

/-- The replica of a new directory after its first tick. -/
def campaign (id : String) : Option (Replica × World) :=
  match (Replica.open (member id) : Store Unit Replica) () {} with
  | ⟨.ok r, _, d, _⟩ => some ((receive .tick r ⟨d, []⟩).memory, (receive .tick r ⟨d, []⟩).disk)
  | ⟨.error _, _, _, _⟩ => none

/-- The vote of `b` in the second term. -/
def ballot : Frame := ⟨.requestVoteResponse, 1, ({ term := 2, voterId := "b", voteGranted := true } : RequestVoteResponse).encode⟩

/-- What makes the vote of `b` the one that decides. -/
def decisive (r : Replica) : Bool :=
  r.config.elections && !r.halted && r.isConfiguredPeer "b" && r.role = .candidate && r.currentTerm = 2 && "b" ∉ r.votesFrom &&
    r.majority ≤ r.votesFrom.length + 1

theorem wins_ballot {r : Replica} (h : decisive r = true) : r.Wins (.frame ballot "b") 2 := by
  simp only [decisive, Bool.and_eq_true, decide_eq_true_eq] at h
  obtain ⟨⟨⟨⟨⟨-, hvoter⟩, hcandidate⟩, hterm⟩, hnew⟩, hmajority⟩ := h
  have hdecoded : decodeVoteResponse ballot.payload = .ok { term := 2, voterId := "b", voteGranted := true } := by decide +kernel
  have hwins : r.Wins (.frame ballot "b") r.currentTerm :=
    .vote rfl hdecoded (.inr ⟨hvoter, rfl⟩) hvoter hcandidate hterm.symm rfl hnew hmajority
  rwa [hterm] at hwins

/-- The vote finds a replica that can open the term. -/
def prepared (x : Replica × World) : Bool :=
  decisive x.1 && !(receive (.frame ballot "b") x.1 x.2).memory.halted &&
    (x.1.installed.noop (x.1.installed.lastIndex + 1)).toOption.any fun event => (apply x.1.installed.speculative event).isOk

theorem campaign_short : (campaign "a").any (fun x => prepared x && x.1.config.id = "a") = true := by decide +kernel

theorem becomes_leader_short : ∃ r w, campaign "a" = some (r, w) ∧ Led r 2 (receive (.frame ballot "b") r w).memory := by
  obtain ⟨⟨r, w⟩, hcampaign, hprepared⟩ := Option.any_eq_true .. |>.mp campaign_short
  simp only [prepared, Bool.and_eq_true, Bool.not_eq_true', decide_eq_true_eq] at hprepared
  obtain ⟨⟨⟨hdecisive, hunfailing⟩, hnoop⟩, hname⟩ := hprepared
  have hwins := wins_ballot hdecisive
  simp only [decisive, Bool.and_eq_true, Bool.not_eq_true', decide_eq_true_eq] at hdecisive
  obtain ⟨⟨⟨⟨⟨⟨helections, hrunning⟩, -⟩, -⟩, hterm⟩, -⟩, -⟩ := hdecisive
  have hvalid : validId r.config.id = true := by
    rw [hname]
    decide
  have hpositive : r.currentTerm ≠ 0 := by
    rw [hterm]
    decide
  refine ⟨r, w, hcampaign, (becomes_leader_iff helections hrunning hvalid hpositive hwins hunfailing).mpr ?_⟩
  obtain ⟨event, hevent, hok⟩ := Option.any_eq_true .. |>.mp hnoop
  rw [← hterm]
  refine (ready_iff hvalid hpositive).mpr ⟨event, ?_, hok⟩
  cases hcase : r.installed.noop (r.installed.lastIndex + 1) with
  | error e =>
    rw [hcase] at hevent
    cases hevent
  | ok other =>
    rw [hcase] at hevent
    exact congrArg Except.ok (Option.some.inj hevent)

/-! ### A name that is too long -/

def longName : String := String.ofList (List.replicate 64 'a')

/-- The vote leaves a candidate whose leader is itself. -/
def halfway (id : String) (x : Replica × World) : Bool :=
  let after := (receive (.frame ballot "b") x.1 x.2).memory
  decisive x.1 && !after.halted && after.role = .candidate && after.config.leaderId = id

theorem campaign_long : (campaign longName).any (halfway longName) = true := by decide +kernel

theorem elected_stays_candidate : validId longName = true ∧ ∃ r w, campaign longName = some (r, w) ∧ r.Wins (.frame ballot "b") 2 ∧
    (receive (.frame ballot "b") r w).memory.halted = false ∧ (receive (.frame ballot "b") r w).memory.role = .candidate ∧
    (receive (.frame ballot "b") r w).memory.config.leaderId = longName := by
  refine ⟨by decide +kernel, ?_⟩
  obtain ⟨⟨r, w⟩, hcampaign, hhalfway⟩ := Option.any_eq_true .. |>.mp campaign_long
  simp only [halfway, Bool.and_eq_true, Bool.not_eq_true', decide_eq_true_eq] at hhalfway
  obtain ⟨⟨⟨hdecisive, hrunning⟩, hrole⟩, hleader⟩ := hhalfway
  exact ⟨r, w, hcampaign, wins_ballot hdecisive, hrunning, hrole, hleader⟩

end Replica

end Choreolog.Replication
