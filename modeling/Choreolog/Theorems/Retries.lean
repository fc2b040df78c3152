import Choreolog.State.Engine
import Choreolog.Theorems.DomainRules
import Choreolog.Theorems.Proposals

/-! # Retries

The engine does not keep the event of a command, only a receipt. From the receipt and the command that is sent
again it makes the event anew: the same one, whatever the engine has accepted, compacted or restored since. -/

namespace Choreolog.State
open Lib

/-! ### Normal forms -/

/-- Sorted members are determined by who is among them. -/
theorem Increasing.ext {a b : List DancerId} (ha : Increasing a) (hb : Increasing b) (h : ∀ m, m ∈ a ↔ m ∈ b) : a = b := by
  have hnodup : ∀ {l : List DancerId}, Increasing l → l.Nodup := by
    refine fun hl => hl.imp fun hless heq => ?_
    rw [heq] at hless
    exact lt_irrefl _ hless
  refine ((List.perm_ext_iff_of_nodup (hnodup ha) (hnodup hb)).mpr h).eq_of_pairwise (fun x y _ _ hxy hyx => ?_) ha hb
  exact absurd hyx hxy.asymm

theorem uniqueSorted_congr {a b : List DancerId} (h : ∀ m, m ∈ a ↔ m ∈ b) : uniqueSorted a = uniqueSorted b :=
  (increasing_uniqueSorted a).ext (increasing_uniqueSorted b) fun m => by rw [mem_uniqueSorted, mem_uniqueSorted, h]

theorem normalizePayload_idem (p : Payload) : normalizePayload (normalizePayload p) = normalizePayload p := by
  cases p with
  | formation f =>
    change Payload.formation { f with members := uniqueSorted (uniqueSorted f.members) } = .formation { f with members := uniqueSorted f.members }
    rw [uniqueSorted_congr fun m => mem_uniqueSorted]
  | _ => rfl

/-- The same request, with the members of a formation in any order and any of them repeated. -/
inductive Retries (command : Command) : Command → Prop
  | same : Retries command command
  | members {formation : FormationPayload} (payload : command.payload = .formation formation) (members : List DancerId)
      (mem : ∀ m, m ∈ members ↔ m ∈ formation.members) : Retries command { command with payload := .formation { formation with members } }

theorem Retries.normalize {command retry : Command} (h : Retries command retry) : normalizePayload retry.payload = normalizePayload command.payload := by
  cases h with
  | same => rfl
  | members payload members mem =>
    rw [payload]
    change Payload.formation _ = Payload.formation _
    rw [uniqueSorted_congr mem]

/-- Two commands that differ in the order of members at most. -/
structure Alike (command retry : Command) : Prop where
  id : retry.id = command.id
  choreographyId : retry.choreographyId = command.choreographyId
  type : retry.type = command.type
  schemaVersion : retry.schemaVersion = command.schemaVersion
  tick : retry.tick = command.tick
  payload : normalizePayload retry.payload = normalizePayload command.payload

theorem Retries.alike {command retry : Command} (h : Retries command retry) : Alike command retry := by
  have hpayload := h.normalize
  cases h with
  | same => exact ⟨rfl, rfl, rfl, rfl, rfl, rfl⟩
  | members => exact ⟨rfl, rfl, rfl, rfl, rfl, hpayload⟩

namespace Alike
variable {command retry : Command}

theorem fingerprint (h : Alike command retry) : commandFingerprint retry = commandFingerprint command := by
  unfold commandFingerprint normalizeCommand canonicalCommand
  dsimp only
  rw [h.id, h.choreographyId, h.type, h.schemaVersion, h.tick, h.payload]

theorem makeEvent (h : Alike command retry) (index term : Nat) :
    State.makeEvent retry index term (normalizePayload retry.payload) = State.makeEvent command index term (normalizePayload command.payload) := by
  unfold State.makeEvent
  rw [h.payload]
  simp only [h.id, h.choreographyId, h.type, h.schemaVersion, h.tick]

end Alike

/-- The receipt of a command's event holds the fingerprint of the command. -/
theorem receiptFromEvent_makeEvent (command : Command) (index term : Nat) :
    receiptFromEvent (makeEvent command index term (normalizePayload command.payload)) =
      { index, term, fingerprint := commandFingerprint command } := by
  have htype : commandTypeOf (eventTypeFor command.type) = some command.type := by cases command.type <;> rfl
  have hfingerprint : commandFingerprint { command with payload := normalizePayload command.payload } = commandFingerprint command :=
    Alike.fingerprint ⟨rfl, rfl, rfl, rfl, rfl, normalizePayload_idem _⟩
  unfold receiptFromEvent commandFromEvent makeEvent
  simp only [htype, Option.map_some, Option.getD_some]
  rw [hfingerprint]

/-! ### Engines -/

/-- Receipts of events that the state has are written over by themselves. -/
theorem restoreReceipts_same {state : ChoreographyState} {history : List Event}
    (held : ∀ e ∈ history, e.type ≠ .noOp → state.receipts.find? e.commandId.value = some (receiptFromEvent e)) :
    restoreReceipts state history = state := by
  have hfold : history.foldl (fun receipts event =>
      if event.type = .noOp then receipts else receipts.insert event.commandId.value (receiptFromEvent event)) state.receipts = state.receipts := by
    induction history with
    | nil => rfl
    | cons event history ih =>
      rw [List.foldl_cons]
      have hsame : (if event.type = .noOp then state.receipts else state.receipts.insert event.commandId.value (receiptFromEvent event)) =
          state.receipts := by
        split
        · rfl
        · rename_i htype
          refine OrdMap.ext_find? fun x => ?_
          rw [OrdMap.find?_insert]
          split
          · rename_i heq
            rw [← heq, held event List.mem_cons_self htype]
          · rfl
      rw [hsame]
      exact ih fun e he => held e (List.mem_cons_of_mem _ he)
  unfold restoreReceipts
  rw [hfold]

namespace Engine

/-- What an engine may do: accept a command or a no-op, drop history, and start again from a snapshot of its
    own with a part of its events. Indexes are 64-bit numbers. -/
inductive Step (engine : Engine) : Engine → Prop
  | submit {after : Engine} {result : SubmitResult} (command : Command) (short : engine.state.lastApplied + 1 < 2 ^ 64)
      (submitted : engine.submit command = .ok (after, result)) : Step engine after
  | noOp {after : Engine} (event : Event) (type : event.type = .noOp) (fits : event.Fits)
      (committed : engine.applyCommitted event = .ok after) : Step engine after
  | retain {after : Engine} (anchor : Nat) (retained : engine.retainHistoryFrom anchor = .ok after) : Step engine after
  | restore {state : ChoreographyState} (history : List Event) (held : ∀ e ∈ history, e ∈ engine.events)
      (restored : restoreState (snapshotPayload engine.state) = .ok state) (same : state.toDomain = engine.state.toDomain) :
      Step engine (restore state history)

abbrev Run : Engine → Engine → Prop := Relation.ReflTransGen Step

/-- The events that are held have the receipts that the state has. -/
structure Sound (engine : Engine) : Prop where
  regular : Regular engine.state
  past : Past engine.state
  receipts : ∀ e ∈ engine.events, e.type ≠ .noOp → engine.state.receipts.find? e.commandId.value = some (receiptFromEvent e)

variable {engine after : Engine}

theorem Sound.start : Sound {} := ⟨.empty, ⟨nofun, nofun⟩, List.forall_mem_nil _⟩

/-- A new event. -/
theorem Sound.record (h : engine.Sound) {event : Event} (fits : event.Fits) (later : engine.state.lastApplied < event.index) {d : Domain}
    (new : existingEvent engine.state event = .ok false) (mutated : engine.state.toDomain.mutate event = .ok d) :
    Sound { state := State.record engine.state d event, events := engine.events ++ [event] } where
  regular := h.regular.record fits later mutated
  past := h.past.record later new
  receipts e he htype := by
    rcases List.mem_append.mp he with he | he
    · exact receipt_kept new (h.receipts e he htype)
    · obtain rfl := List.mem_singleton.mp he
      exact receipt_recorded htype

/-- A known command is answered from its receipt, a new one is recorded. -/
theorem submit_cases (past : Past engine.state) {command : Command} {result : SubmitResult} (submitted : engine.submit command = .ok (after, result)) :
    engine.state.Knows command.id.value ∧ after = engine ∧ result.duplicate = true ∨
    ∃ d, result.duplicate = false ∧ Proposed engine.state command result.event ∧ existingEvent engine.state result.event = .ok false ∧
      engine.state.toDomain.mutate result.event = .ok d ∧
      after = { state := State.record engine.state d result.event, events := engine.events ++ [result.event] } := by
  unfold submit at submitted
  split at submitted
  · rename_i hknown
    obtain ⟨event, -, submitted⟩ := bind_ok submitted
    cases submitted
    exact .inl ⟨by simpa [ChoreographyState.Knows] using hknown, rfl, rfl⟩
  · obtain ⟨event, hpropose, submitted⟩ := bind_ok submitted
    obtain ⟨engine', hcommit, submitted⟩ := bind_ok submitted
    obtain ⟨state, happly, hcommit⟩ := bind_ok hcommit
    cases hcommit
    cases submitted
    have hproposed := propose_cases hpropose
    obtain ⟨-, hnew, d, hd, rfl⟩ := (past.apply_iff hproposed.index_eq).mp happly
    exact .inr ⟨d, rfl, hproposed, hnew, hd, rfl⟩

/-- A step keeps the receipts and what they are about. -/
theorem Sound.step (h : engine.Sound) (step : Step engine after) : after.Sound ∧
    ∀ x r, engine.state.receipts.find? x = some r → after.state.receipts.find? x = some r := by
  cases step with
  | submit command short submitted =>
    rcases submit_cases h.past submitted with ⟨-, rfl, -⟩ | ⟨d, -, hproposed, hnew, hd, rfl⟩
    · exact ⟨h, fun _ _ hr => hr⟩
    · have hnext := hproposed.index_eq
      exact ⟨h.record (hproposed.fits h.regular short) (by omega) hnew hd, fun _ _ hr => receipt_kept hnew hr⟩
  | noOp event type fits committed =>
    obtain ⟨state, happly, hcommit⟩ := bind_ok committed
    cases hcommit
    cases applyAgainst_cases happly with
    | known =>
      refine ⟨⟨h.regular, h.past, fun e he htype => ?_⟩, fun _ _ hr => hr⟩
      rcases List.mem_append.mp he with he | he
      · exact h.receipts e he htype
      · obtain rfl := List.mem_singleton.mp he
        exact absurd type htype
    | fresh d new later index mutated => exact ⟨h.record fits later new mutated, fun _ _ hr => receipt_kept new hr⟩
  | retain anchor retained =>
    obtain ⟨state, hstate, hretained⟩ := bind_ok retained
    cases hretained
    have hcases := retainStateHistoryFrom_cases hstate
    refine ⟨⟨hcases.regular h.regular, ⟨fun x text hx => ?_, ?_⟩, fun e he htype => ?_⟩, ?_⟩
    · rw [hcases.domain]
      exact h.past.texts x text ((hcases.texts x text).mp hx).1
    · rw [hcases.receipts, hcases.domain]
      exact h.past.receipts
    · rw [hcases.receipts]
      exact h.receipts e ((List.dropWhile_suffix _).mem he) htype
    · rw [hcases.receipts]
      exact fun _ _ hr => hr
  | restore history held restored same =>
    obtain rfl := Except.ok.inj ((restoreState_payload h.regular).symm.trans restored)
    have hkept : ∀ e ∈ history, e.type ≠ .noOp → (State.restored engine.state).receipts.find? e.commandId.value = some (receiptFromEvent e) :=
      fun e he htype => h.receipts e (held e he) htype
    unfold Engine.restore
    rw [restoreReceipts_same hkept]
    exact ⟨⟨h.regular.restored, ⟨nofun, fun x r hr => (h.regular.restored.index x r hr).2⟩, hkept⟩, fun _ _ hr => hr⟩

theorem Sound.run (h : engine.Sound) (run : Run engine after) : after.Sound ∧
    ∀ x r, engine.state.receipts.find? x = some r → after.state.receipts.find? x = some r := by
  induction run with
  | refl => exact ⟨h, fun _ _ hr => hr⟩
  | tail _ step ih =>
    obtain ⟨hsound, hkept⟩ := ih
    obtain ⟨hsound', hkept'⟩ := hsound.step step
    exact ⟨hsound', fun x r hr => hkept' x r (hkept x r hr)⟩

/-- A command that has a receipt is resolved or refused by its fingerprint. -/
theorem submit_receipt {command : Command} {receipt : EventReceipt} (found : engine.state.receipts.find? command.id.value = some receipt)
    (positive : 0 < receipt.term) : engine.submit command = if commandFingerprint command ≠ receipt.fingerprint then
      .error ⟨.commandConflict, "operation id reused with different command"⟩
    else .ok (engine, { event := makeEvent command receipt.index receipt.term (normalizePayload command.payload), duplicate := true }) := by
  have hknown : (engine.state.appliedCommands.contains command.id.value || engine.state.receipts.contains command.id.value) = true := by
    rw [Bool.or_eq_true]
    exact .inr (by rw [OrdMap.contains_eq, found]; rfl)
  have hterm : parseTerm receipt.term = .ok receipt.term := if_neg positive.ne'
  unfold submit resolveReceipt
  rw [if_pos hknown, found]
  dsimp only
  split
  · rfl
  · rw [hterm]
    rfl

/-- Once a command was accepted, sending it again returns its event and changes nothing, and sending another
    command under its id is refused, in every engine that follows. -/
theorem retry_outcome {later : Engine} {command : Command} {event : Event} (history : Run {} engine)
    (short : engine.state.lastApplied + 1 < 2 ^ 64) (accepted : engine.submit command = .ok (after, { event })) (continued : Run after later)
    (retry : Command) : (Retries command retry → later.submit retry = .ok (later, { event, duplicate := true })) ∧
      (retry.id = command.id → commandFingerprint retry ≠ commandFingerprint command →
        later.submit retry = .error ⟨.commandConflict, "operation id reused with different command"⟩) := by
  have hsound := (Sound.start.run history).1
  rcases submit_cases hsound.past accepted with ⟨-, -, hduplicate⟩ | ⟨d, -, hproposed, hnew, hd, rfl⟩
  · cases hduplicate
  · have hstep := (hsound.step (.submit command short accepted)).1
    have hreceipt : later.state.receipts.find? command.id.value = some (receiptFromEvent event) := by
      refine (hstep.run continued).2 _ _ ?_
      have hrecorded : (State.record engine.state d event).receipts.find? event.commandId.value = some (receiptFromEvent event) :=
        receipt_recorded hproposed.type_ne_noOp
      rw [hproposed.commandId_eq] at hrecorded
      exact hrecorded
    have hpositive : 0 < (receiptFromEvent event).term := (hproposed.fits hsound.regular short).positive
    have hmade : event = makeEvent command (engine.state.lastApplied + 1) engine.state.term (normalizePayload command.payload) := hproposed.made
    have hfields : receiptFromEvent event = { index := event.index, term := event.term, fingerprint := commandFingerprint command } := by
      rw [hmade]
      exact receiptFromEvent_makeEvent command _ _
    constructor
    · intro hretries
      have halike := hretries.alike
      rw [submit_receipt (halike.id ▸ hreceipt) hpositive, if_neg, halike.makeEvent]
      · rw [hfields, hmade]
        rfl
      · rw [hfields]
        exact not_not.mpr halike.fingerprint
    · intro hid hne
      rw [submit_receipt (hid ▸ hreceipt) hpositive, if_pos]
      rw [hfields]
      exact hne

/-- The creation of a choreography in an empty engine. -/
def opening : Event := { createdEvent ⟨"c", Eq.refl true⟩ with index := 1, term := 1 }

/-- The engine that has accepted it. -/
def opened : Engine :=
  { state := record {} { created := true, id := some ⟨"show", Eq.refl true⟩, stage := some unitStage } opening, events := [opening] }

/-- The same with no history. -/
def emptied : Engine :=
  { state := { opened.state with appliedEvents := .empty, appliedCommands := .empty }, events := [] }

theorem retry_outcome_opened : emptied.submit (creating ⟨"c", by decide⟩ ⟨"show", by decide⟩ ⟨"show", by decide⟩) =
    .ok (emptied, { event := opening, duplicate := true }) := by
  have haccepted : ({} : Engine).submit (creating ⟨"c", by decide⟩ ⟨"show", by decide⟩ ⟨"show", by decide⟩) = .ok (opened, { event := opening }) := by
    decide +kernel
  have hretained : opened.retainHistoryFrom 2 = .ok emptied := by decide +kernel
  exact (retry_outcome .refl (by decide) haccepted (.single (.retain 2 hretained)) _).1 .same

end Engine

end Choreolog.State
