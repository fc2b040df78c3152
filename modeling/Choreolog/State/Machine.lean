import Choreolog.Lib.OrdMap
import Choreolog.State.Model

/-! # The choreography state machine

`cpp-runtime/src/state/machine.cpp`: proposals, the commit path with its duplicate checks, retry receipts
and the history that compaction drops. A failed event leaves the state as it was, so `apply` returns the
new state or an error. `Domain` holds the fields that `domain_copy` copies. -/

namespace Choreolog.State
open Lib

structure DancerState where
  position : Position
  active : Bool := true
  deriving DecidableEq

structure FormationState where
  members : List DancerId
  deriving DecidableEq

@[ext] structure CueState where
  tick : MusicalTick
  dependsOn : Option CueId
  deriving DecidableEq

/-- A compact retry outcome. -/
structure EventReceipt where
  index : Nat := 0
  term : Nat := 1
  fingerprint : UInt64 := 0
  deriving DecidableEq

@[ext] structure Domain where
  created : Bool := false
  id : Option ChoreographyId := none
  stage : Option StageBounds := none
  overlap : OverlapPolicy := .forbidden
  maxTravelMm : Int32 := 0
  lastApplied : Nat := 0
  term : Nat := 1
  dancers : OrdMap String DancerState := .empty
  formations : OrdMap String FormationState := .empty
  musicCues : OrdMap String CueState := .empty
  lightingCues : OrdMap String CueState := .empty
  deriving DecidableEq

/-- The domain, the texts of the events applied to it, and the commands they came from. -/
structure ChoreographyState extends Domain where
  appliedEvents : OrdMap String String := .empty
  appliedCommands : OrdMap String String := .empty
  receipts : OrdMap String EventReceipt := .empty
  deriving DecidableEq

inductive IndexRule where
  | contiguous
  | monotonic
  deriving DecidableEq, Repr

/-! ## Fingerprints and receipts -/

/-- FNV-1a over the bytes of an ASCII text. -/
def fnv1a (text : String) : UInt64 :=
  text.toList.foldl (fun hash byte => (hash ^^^ UInt64.ofNat byte.toNat) * 1099511628211) 14695981039346656037

/-- Sorted by id, without repetitions. -/
def insertMember (member : DancerId) : List DancerId → List DancerId
  | [] => [member]
  | other :: rest =>
    if member.value < other.value then member :: other :: rest
    else if member = other then other :: rest
    else other :: insertMember member rest

def uniqueSorted (members : List DancerId) : List DancerId := members.foldr insertMember []

def normalizePayload : Payload → Payload
  | .formation formation => .formation { formation with members := uniqueSorted formation.members }
  | payload => payload

def normalizeCommand (command : Command) : Command := { command with payload := normalizePayload command.payload }

def commandFingerprint (command : Command) : UInt64 := fnv1a (canonicalCommand (normalizeCommand command))

def commandTypeOf : EventType → Option CommandType
  | .choreographyCreated => some .createChoreography
  | .dancerAdded => some .addDancer
  | .dancerRemoved => some .removeDancer
  | .dancerMoved => some .moveDancer
  | .formationDefined => some .defineFormation
  | .formationChanged => some .changeFormation
  | .musicCueTriggered => some .triggerMusicCue
  | .lightingCueTriggered => some .triggerLightingCue
  | .noOp => none

def commandFromEvent (event : Event) : Option Command :=
  (commandTypeOf event.type).map fun type =>
    { id := event.commandId, choreographyId := event.choreographyId, type, schemaVersion := event.schemaVersion
      tick := event.tick, payload := event.payload }

def receiptFromEvent (event : Event) : EventReceipt :=
  { index := event.index, term := event.term
    fingerprint := ((commandFromEvent event).map commandFingerprint).getD 0 }

/-! ## Domain rules -/

namespace Domain

def findDancer (state : Domain) (id : DancerId) : Option DancerState := state.dancers.find? id.value

def markOccupied (state : Domain) (position : Position) (except : Option DancerId) : Bool :=
  state.dancers.entries.any fun (id, dancer) =>
    dancer.active && !except.any (·.value == id) && dancer.position == position

def requireCreated (state : Domain) : Result StageBounds :=
  match state.created, state.id, state.stage with
  | true, some _, some stage => .ok stage
  | _, _, _ => .error ⟨.choreographyNotFound, "choreography has not been created"⟩

def validateMember (state : Domain) (member : DancerId) : Result Unit :=
  match state.findDancer member with
  | none => .error ⟨.dancerNotFound, "formation references unknown dancer " ++ member.value⟩
  | some dancer =>
    if dancer.active then .ok ()
    else .error ⟨.dancerInactive, "formation references inactive dancer " ++ member.value⟩

def validateFormationMembers (state : Domain) (members : List DancerId) : Result Unit :=
  if members = [] then .error ⟨.invalidFormation, "formation must contain at least one dancer"⟩
  else members.forM state.validateMember

def findCue (state : Domain) (id : CueId) : Option CueState :=
  (state.musicCues.find? id.value).or (state.lightingCues.find? id.value)

def validateCueDependency (state : Domain) (cue : CuePayload) (tick : MusicalTick) : Result Unit :=
  match cue.dependsOn with
  | none => .ok ()
  | some dependsOn =>
    match state.findCue dependsOn with
    | none => .error ⟨.cueDependencyUnmet, "cue depends on missing cue " ++ dependsOn.value⟩
    | some dependency =>
      if tick.ticks < dependency.tick.ticks then .error ⟨.cueDependencyUnmet, "cue occurs before its dependency"⟩
      else .ok ()

def applyCreate (state : Domain) (event : Event) (payload : CreateChoreographyPayload) : Result Domain :=
  if state.created then .error ⟨.choreographyExists, "choreography already exists"⟩
  else if payload.maxTravelMm < 0 then .error ⟨.invalidTravel, "maximum travel must be non-negative"⟩
  else .ok { state with
    created := true
    id := some payload.choreographyId
    stage := some payload.stage
    overlap := payload.overlap
    maxTravelMm := payload.maxTravelMm
    term := event.term }

def applyAdd (state : Domain) (payload : DancerPayload) : Result Domain := do
  let stage ← state.requireCreated
  if (state.findDancer payload.dancerId).isSome then .error ⟨.dancerExists, "dancer already exists"⟩
  else if !stage.contains payload.position then .error ⟨.outOfBounds, "dancer is outside the stage"⟩
  else if state.overlap = .forbidden ∧ state.markOccupied payload.position none then
    .error ⟨.positionOccupied, "mark is already occupied"⟩
  else .ok { state with dancers := state.dancers.tryEmplace payload.dancerId.value { position := payload.position } }

def applyRemove (state : Domain) (payload : RemoveDancerPayload) : Result Domain := do
  let _ ← state.requireCreated
  match state.findDancer payload.dancerId with
  | none => .error ⟨.dancerNotFound, "dancer does not exist"⟩
  | some dancer =>
    if !dancer.active then .error ⟨.dancerInactive, "dancer is already removed"⟩
    else .ok { state with dancers := state.dancers.insert payload.dancerId.value { dancer with active := false } }

def applyMove (state : Domain) (payload : DancerPayload) : Result Domain := do
  let stage ← state.requireCreated
  match state.findDancer payload.dancerId with
  | none => .error ⟨.dancerNotFound, "dancer does not exist"⟩
  | some dancer =>
    if !dancer.active then .error ⟨.dancerInactive, "removed dancers cannot move"⟩
    else if !stage.contains payload.position then .error ⟨.outOfBounds, "move is outside the stage"⟩
    else if !travelWithinLimit dancer.position payload.position state.maxTravelMm.toInt then
      .error ⟨.travelTooFar, "move exceeds the configured travel limit"⟩
    else if state.overlap = .forbidden ∧ state.markOccupied payload.position (some payload.dancerId) then
      .error ⟨.positionOccupied, "mark is already occupied"⟩
    else .ok { state with
      dancers := state.dancers.insert payload.dancerId.value { dancer with position := payload.position } }

def applyFormation (state : Domain) (type : EventType) (payload : FormationPayload) : Result Domain := do
  let _ ← state.requireCreated
  let members := uniqueSorted payload.members
  state.validateFormationMembers members
  let exists_ := state.formations.contains payload.formationId.value
  if type = .formationDefined ∧ exists_ then .error ⟨.formationExists, "formation already exists"⟩
  else if type = .formationChanged ∧ !exists_ then .error ⟨.formationNotFound, "formation does not exist"⟩
  else .ok { state with formations := state.formations.insert payload.formationId.value { members } }

/-- The checks that music and lighting cues share. -/
def cueFor (state : Domain) (payload : CuePayload) (tick : MusicalTick) : Result CueState := do
  let _ ← state.requireCreated
  if (state.findCue payload.cueId).isSome then .error ⟨.cueExists, "cue already exists"⟩
  else
    state.validateCueDependency payload tick
    return { tick, dependsOn := payload.dependsOn }

def applyMusicCue (state : Domain) (payload : CuePayload) (tick : MusicalTick) : Result Domain := do
  let cue ← state.cueFor payload tick
  return { state with musicCues := state.musicCues.tryEmplace payload.cueId.value cue }

def applyLightingCue (state : Domain) (payload : CuePayload) (tick : MusicalTick) : Result Domain := do
  let cue ← state.cueFor payload tick
  return { state with lightingCues := state.lightingCues.tryEmplace payload.cueId.value cue }

/-- The mutation of one event; a payload of another kind than the type is not handled. -/
def mutate (state : Domain) (event : Event) : Result Domain :=
  match event.type, event.payload with
  | .choreographyCreated, .create payload => state.applyCreate event payload
  | .dancerAdded, .dancer payload => state.applyAdd payload
  | .dancerRemoved, .removed payload => state.applyRemove payload
  | .dancerMoved, .dancer payload => state.applyMove payload
  | .formationDefined, .formation payload | .formationChanged, .formation payload =>
    state.applyFormation event.type payload
  | .musicCueTriggered, .cue payload => state.applyMusicCue payload event.tick
  | .lightingCueTriggered, .cue payload => state.applyLightingCue payload event.tick
  | .noOp, _ => .ok state
  | _, _ => .error ⟨.unsupportedType, "unhandled event type"⟩

end Domain

/-! ## The commit path -/

def requireSchema (version : UInt16) : Result Unit :=
  if version = currentSchemaVersion then .ok ()
  else .error ⟨.unsupportedVersion, "unsupported schema version " ++ toString version.toNat⟩

/-- Whether the event has been applied already; an error if its id was used for something else. -/
def existingEvent (state : ChoreographyState) (event : Event) : Result Bool :=
  match state.appliedEvents.find? event.id.value with
  | some text =>
    if text = canonicalEvent event then .ok true
    else .error ⟨.conflictingEvent, "event id was reused with different content"⟩
  | none =>
    match state.receipts.find? event.commandId.value with
    | some receipt =>
      if event.type ≠ .noOp ∧ receipt = receiptFromEvent event then .ok true
      else .error ⟨.conflictingEvent, "committed command id was reused with different event content"⟩
    | none =>
      if state.appliedCommands.contains event.commandId.value then
        .error ⟨.conflictingEvent, "legacy committed command id was replayed without an outcome receipt"⟩
      else .ok false

def checkIndex (state : Domain) (index : Nat) : IndexRule → Result Unit
  | .contiguous =>
    if index = state.lastApplied + 1 then .ok () else .error ⟨.indexGap, "event index is not contiguous"⟩
  | .monotonic =>
    if state.lastApplied < index then .ok ()
    else .error ⟨.indexGap, "event index must increase during filtered replay"⟩

/-- The history of an event that has been applied. -/
def record (state : ChoreographyState) (domain : Domain) (event : Event) : ChoreographyState :=
  { domain with
    lastApplied := event.index
    term := event.term
    appliedEvents := state.appliedEvents.tryEmplace event.id.value (canonicalEvent event)
    appliedCommands := state.appliedCommands.tryEmplace event.commandId.value event.id.value
    receipts :=
      if event.type = .noOp then state.receipts
      else state.receipts.insert event.commandId.value (receiptFromEvent event) }

/-- Duplicates are looked up in the state and in an older baseline whose history it does not hold. -/
def applyAgainst (state : ChoreographyState) (event : Event) (rule : IndexRule)
    (baseline : Option ChoreographyState) : Result ChoreographyState := do
  requireSchema event.schemaVersion
  if ← existingEvent state event then return state
  if let some baseline := baseline then
    if ← existingEvent baseline event then return state
  checkIndex state.toDomain event.index rule
  let domain ← state.toDomain.mutate event
  return record state domain event

def apply (state : ChoreographyState) (event : Event) : Result ChoreographyState :=
  applyAgainst state event .contiguous none

/-- Folds events onto an empty state. Optional filters skip later counts and indexes, and then the indexes
    need not be contiguous. -/
def replay (events : List Event) (throughTick : Option MusicalTick) (throughIndex : Option Nat) :
    Result ChoreographyState :=
  let rule := if throughTick.isSome || throughIndex.isSome then .monotonic else .contiguous
  events.foldlM (fun state event =>
    if throughTick.any (·.ticks < event.tick.ticks) || throughIndex.any (· < event.index) then .ok state
    else applyAgainst state event rule none) {}

/-! ## Proposals and retries -/

def makeEvent (command : Command) (index term : Nat) (payload : Payload) : Event :=
  { id := ⟨command.id.value, command.id.valid⟩, commandId := command.id, choreographyId := command.choreographyId
    type := eventTypeFor command.type, schemaVersion := command.schemaVersion, tick := command.tick, index, term, payload }

/-- A proposal is validated on a copy of the domain without its history. -/
def propose (state : ChoreographyState) (command : Command) : Result Event := do
  requireSchema command.schemaVersion
  if state.appliedCommands.contains command.id.value || state.receipts.contains command.id.value then
    .error ⟨.duplicateCommand, "command id has already been accepted"⟩
  if command.type ≠ .createChoreography then
    let _ ← state.requireCreated
    if state.id ≠ some command.choreographyId then
      .error ⟨.choreographyNotFound, "command targets a different choreography"⟩
  else if state.created then .error ⟨.choreographyExists, "choreography already exists"⟩
  let tentative := makeEvent command (state.lastApplied + 1) state.term (normalizePayload command.payload)
  let _ ← apply { toDomain := state.toDomain } tentative
  return tentative

def resolveReceipt (state : ChoreographyState) (command : Command) : Result Event :=
  match state.receipts.find? command.id.value with
  | none => .error ⟨.outcomeUnavailable, "committed legacy command has no recoverable receipt"⟩
  | some receipt =>
    if commandFingerprint command ≠ receipt.fingerprint then
      .error ⟨.commandConflict, "operation id reused with different command"⟩
    else do
      let term ← parseTerm receipt.term
      return makeEvent command receipt.index term (normalizePayload command.payload)

/-! ## Compaction and batches -/

/-- Drops the texts of events below `anchor` and the command aliases that the receipts make redundant. -/
def retainStateHistoryFrom (state : ChoreographyState) (anchor : Nat) : Result ChoreographyState := do
  let events ← state.appliedEvents.entries.mapM fun entry => parseEvent entry.2
  let dropped := events.filter fun event => event.index < anchor
  let aliases := (dropped.filter fun event => event.type = .noOp ∨ state.receipts.contains event.commandId.value).map
    (·.commandId.value)
  return { state with
    appliedEvents := state.appliedEvents.filter fun _ text =>
      match parseEvent text with
      | .ok event => anchor ≤ event.index
      | .error _ => true
    appliedCommands := (state.appliedCommands.filter fun id _ => id ∉ aliases).filter fun id _ =>
      match state.receipts.find? id with
      | some receipt => anchor ≤ receipt.index
      | none => true }

/-- `Engine::prepare_committed`: the batch applied to a copy of the domain, against the full history -/
def prepareCommitted (state : ChoreographyState) (batch : List Event) : Result ChoreographyState :=
  batch.foldlM (fun staged event => applyAgainst staged event .contiguous (some state)) { toDomain := state.toDomain }

/-- `Engine::publish_committed` -/
def publishCommitted (state staged : ChoreographyState) : ChoreographyState :=
  { staged with
    appliedEvents := state.appliedEvents.merge staged.appliedEvents
    appliedCommands := state.appliedCommands.merge staged.appliedCommands
    receipts := state.receipts.merge staged.receipts }

/-- `Engine::restore`: receipts of the history that still exists -/
def restoreReceipts (state : ChoreographyState) (history : List Event) : ChoreographyState :=
  { state with
    receipts := history.foldl (fun receipts event =>
      if event.type = .noOp then receipts else receipts.insert event.commandId.value (receiptFromEvent event)) state.receipts }

end Choreolog.State
