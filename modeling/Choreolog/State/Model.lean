import Choreolog.State.Types

/-! # Commands, events and their text

`cpp-runtime/src/state/model.cpp`, the event parser of `cpp-runtime/src/state/store.cpp` and
`canonical_command` of `cpp-runtime/src/protocol/command_codec.cpp`. An event is written as one line of
`key=value` fields; the log, the snapshots and the replication messages all hold that line. -/

namespace Choreolog.State
open Lib

inductive CommandType where
  | createChoreography
  | addDancer
  | removeDancer
  | moveDancer
  | defineFormation
  | changeFormation
  | triggerMusicCue
  | triggerLightingCue
  deriving DecidableEq, Repr

inductive EventType where
  | choreographyCreated
  | dancerAdded
  | dancerRemoved
  | dancerMoved
  | formationDefined
  | formationChanged
  | musicCueTriggered
  | lightingCueTriggered
  | noOp
  deriving DecidableEq, Repr

inductive OverlapPolicy where
  | forbidden
  | allowed
  deriving DecidableEq, Repr

structure CreateChoreographyPayload where
  choreographyId : ChoreographyId
  stage : StageBounds
  overlap : OverlapPolicy
  maxTravelMm : Int32
  deriving DecidableEq

structure DancerPayload where
  dancerId : DancerId
  position : Position
  deriving DecidableEq

structure RemoveDancerPayload where
  dancerId : DancerId
  deriving DecidableEq

structure FormationPayload where
  formationId : FormationId
  members : List DancerId
  deriving DecidableEq

structure CuePayload where
  cueId : CueId
  dependsOn : Option CueId
  deriving DecidableEq

/-- The payload of a command or an event. Nothing ties its kind to the type beside it. -/
inductive Payload where
  | create (payload : CreateChoreographyPayload)
  | dancer (payload : DancerPayload)
  | removed (payload : RemoveDancerPayload)
  | formation (payload : FormationPayload)
  | cue (payload : CuePayload)
  deriving DecidableEq

structure Command where
  id : CommandId
  choreographyId : ChoreographyId
  type : CommandType
  schemaVersion : UInt16
  tick : MusicalTick
  payload : Payload
  deriving DecidableEq

structure Event where
  id : EventId
  commandId : CommandId
  choreographyId : ChoreographyId
  type : EventType
  schemaVersion : UInt16
  tick : MusicalTick
  index : Nat
  term : Nat
  payload : Payload
  deriving DecidableEq

/-! ## Names -/

def commandTypeName : CommandType → String
  | .createChoreography => "CREATE_CHOREOGRAPHY"
  | .addDancer => "ADD_DANCER"
  | .removeDancer => "REMOVE_DANCER"
  | .moveDancer => "MOVE_DANCER"
  | .defineFormation => "DEFINE_FORMATION"
  | .changeFormation => "CHANGE_FORMATION"
  | .triggerMusicCue => "TRIGGER_MUSIC_CUE"
  | .triggerLightingCue => "TRIGGER_LIGHTING_CUE"

def eventTypeName : EventType → String
  | .choreographyCreated => "CHOREOGRAPHY_CREATED"
  | .dancerAdded => "DANCER_ADDED"
  | .dancerRemoved => "DANCER_REMOVED"
  | .dancerMoved => "DANCER_MOVED"
  | .formationDefined => "FORMATION_DEFINED"
  | .formationChanged => "FORMATION_CHANGED"
  | .musicCueTriggered => "MUSIC_CUE_TRIGGERED"
  | .lightingCueTriggered => "LIGHTING_CUE_TRIGGERED"
  | .noOp => "NOOP"

def overlapPolicyName : OverlapPolicy → String
  | .allowed => "allowed"
  | .forbidden => "forbidden"

def parseEventType (name : String) : Result EventType :=
  if name = "CHOREOGRAPHY_CREATED" then .ok .choreographyCreated
  else if name = "DANCER_ADDED" then .ok .dancerAdded
  else if name = "DANCER_REMOVED" then .ok .dancerRemoved
  else if name = "DANCER_MOVED" then .ok .dancerMoved
  else if name = "FORMATION_DEFINED" then .ok .formationDefined
  else if name = "FORMATION_CHANGED" then .ok .formationChanged
  else if name = "MUSIC_CUE_TRIGGERED" then .ok .musicCueTriggered
  else if name = "LIGHTING_CUE_TRIGGERED" then .ok .lightingCueTriggered
  else if name = "NOOP" then .ok .noOp
  else .error ⟨.unsupportedType, "unknown event type"⟩

def parseOverlapPolicy (name : String) : Result OverlapPolicy :=
  if name = "allowed" then .ok .allowed
  else if name = "forbidden" then .ok .forbidden
  else .error ⟨.unsupportedType, "unknown overlap policy"⟩

@[simp] theorem parseEventType_name (type : EventType) : parseEventType (eventTypeName type) = .ok type := by
  cases type <;> decide

@[simp] theorem parseOverlapPolicy_name (policy : OverlapPolicy) :
    parseOverlapPolicy (overlapPolicyName policy) = .ok policy := by
  cases policy <;> decide

def eventTypeFor : CommandType → EventType
  | .createChoreography => .choreographyCreated
  | .addDancer => .dancerAdded
  | .removeDancer => .dancerRemoved
  | .moveDancer => .dancerMoved
  | .defineFormation => .formationDefined
  | .changeFormation => .formationChanged
  | .triggerMusicCue => .musicCueTriggered
  | .triggerLightingCue => .lightingCueTriggered

/-! ## Canonical text -/

/-- The fields of a line, in order; a repeated key counts once, the first time. -/
abbrev Fields := List (String × String)

/-- `key=value` fields with semicolons between them. -/
def line (fields : Fields) : String := ";".intercalate (fields.map fun f => f.1 ++ "=" ++ f.2)

def writeMembers (members : List DancerId) : String := ",".intercalate (members.map (·.value))

def payloadFields : Payload → Fields
  | .create created =>
    [("width", toString created.stage.width.mm), ("depth", toString created.stage.depth.mm),
      ("overlap", overlapPolicyName created.overlap), ("travel", toString created.maxTravelMm.toInt)]
  | .dancer dancer =>
    [("dancer", dancer.dancerId.value), ("x", toString dancer.position.x.mm), ("y", toString dancer.position.y.mm)]
  | .removed removed => [("dancer", removed.dancerId.value)]
  | .formation formation => [("formation", formation.formationId.value), ("members", writeMembers formation.members)]
  | .cue cue => [("cue", cue.cueId.value), ("depends", (cue.dependsOn.map (·.value)).getD "")]

/-- A no-op has no choreography fields, although it holds a payload. -/
def eventFields (event : Event) : Fields :=
  [("schema", toString event.schemaVersion.toNat), ("type", eventTypeName event.type), ("event", event.id.value),
    ("cmd", event.commandId.value), ("choreo", event.choreographyId.value), ("tick", toString event.tick.ticks),
    ("index", toString event.index), ("term", toString event.term)] ++
  if event.type = .noOp then [] else payloadFields event.payload

def canonicalEvent (event : Event) : String := line (eventFields event)

def canonicalCommand (command : Command) : String :=
  line ([("schema", toString command.schemaVersion.toNat), ("type", commandTypeName command.type),
    ("cmd", command.id.value), ("choreo", command.choreographyId.value), ("tick", toString command.tick.ticks)] ++
    payloadFields command.payload)

/-! ## Parsing -/

def parseField (token : List Char) : Result (String × String) :=
  if '=' ∈ token then
    .ok (String.ofList (token.takeWhile (· != '=')), String.ofList ((token.dropWhile (· != '=')).tail))
  else .error ⟨.storeError, "event record is missing '='"⟩

def parseFields (text : String) : Result Fields :=
  ((Text.getlines ';' text.toList).filter (· ≠ [])).mapM parseField

def requireField (fields : Fields) (key : String) : Result String :=
  match fields.lookup key with
  | some value => .ok value
  | none => .error ⟨.storeError, "event record missing field " ++ key⟩

/-- `std::stoll`, which ignores what follows the numeral -/
def parseI64 (fields : Fields) (key : String) : Result Int := do
  let raw ← requireField fields key
  match (Text.numeral (raw.toList.dropWhile Text.isSpace)).signed 64 with
  | some value => .ok value
  | none => .error ⟨.storeError, "invalid integer field " ++ key⟩

/-- `std::stoull` -/
def parseU64 (fields : Fields) (key : String) : Result Nat := do
  let raw ← requireField fields key
  match (Text.numeral (raw.toList.dropWhile Text.isSpace)).unsigned 64 with
  | some value => .ok value
  | none => .error ⟨.storeError, "invalid unsigned field " ++ key⟩

/-- An invalid member is an error, not something to skip. -/
def parseMembers (raw : String) : Result (List DancerId) :=
  (Text.getlines ',' raw.toList).mapM fun item => StrongId.parse (String.ofList item)

/-- The unit stage of the payload that a no-op carries. -/
def unitStage : StageBounds := ⟨⟨1, by decide⟩, ⟨1, by decide⟩, by decide⟩

/-- Any failure among several checked together is reported as one. -/
def orElseError {α : Type} (message : String) : Result α → Result α
  | .ok value => .ok value
  | .error _ => .error ⟨.storeError, message⟩

def parsePayload (fields : Fields) (choreographyId : ChoreographyId) : EventType → Result Payload
  | .choreographyCreated => do
    let (width, depth, overlap, travel) ← orElseError "create event is missing stage fields" do
      return (← parseI64 fields "width", ← parseI64 fields "depth", ← requireField fields "overlap",
        ← parseI64 fields "travel")
    let (stage, overlap) ← orElseError "create event has invalid stage fields" do
      return (← StageBounds.fromMm (Int32.ofInt width).toInt (Int32.ofInt depth).toInt, ← parseOverlapPolicy overlap)
    return .create { choreographyId, stage, overlap, maxTravelMm := Int32.ofInt travel }
  | .dancerAdded | .dancerMoved => do
    let (dancer, x, y) ← orElseError "dancer event is missing fields" do
      return (← requireField fields "dancer", ← parseI64 fields "x", ← parseI64 fields "y")
    let (dancerId, position) ← orElseError "dancer event has invalid fields" do
      return (← StrongId.parse dancer, ← Position.fromMm (Int32.ofInt x).toInt (Int32.ofInt y).toInt)
    return .dancer { dancerId, position }
  | .dancerRemoved => do
    let dancerId ← StrongId.parse (← requireField fields "dancer")
    return .removed { dancerId }
  | .formationDefined | .formationChanged => do
    let (formation, members) ← orElseError "formation event is missing fields" do
      return (← requireField fields "formation", ← requireField fields "members")
    let formationId ← StrongId.parse formation
    let members ← parseMembers members
    return .formation { formationId, members }
  | .musicCueTriggered | .lightingCueTriggered => do
    let cueId ← StrongId.parse (← requireField fields "cue")
    match fields.lookup "depends" with
    | none | some "" => return .cue { cueId, dependsOn := none }
    | some depends => return .cue { cueId, dependsOn := some (← StrongId.parse depends) }
  | .noOp => return .create { choreographyId, stage := unitStage, overlap := .forbidden, maxTravelMm := 0 }

def parseEvent (text : String) : Result Event := do
  let fields ← parseFields text
  let (schema, type, event, cmd, choreo, tick, index, term) ←
    orElseError "event record is missing required envelope fields" do
      return (← parseU64 fields "schema", ← requireField fields "type", ← requireField fields "event",
        ← requireField fields "cmd", ← requireField fields "choreo", ← parseI64 fields "tick",
        ← parseU64 fields "index", ← parseU64 fields "term")
  let (type, id, commandId, choreographyId, tick, term) ← orElseError "event envelope contains invalid values" do
    return (← parseEventType type, ← StrongId.parse event, ← StrongId.parse cmd, ← StrongId.parse choreo,
      ← MusicalTick.fromTicks tick, ← parseTerm term)
  let payload ← parsePayload fields choreographyId type
  return { id, commandId, choreographyId, type, schemaVersion := UInt16.ofNat schema, tick, index, term, payload }

end Choreolog.State
