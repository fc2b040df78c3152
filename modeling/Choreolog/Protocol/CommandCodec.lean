import Choreolog.State.Model

/-! # Commands read from text

`cpp-runtime/src/protocol/command_codec.cpp`: the parser for the line that `canonicalCommand` writes. It is
stricter than the parser for events. Numbers are read by `std::from_chars`, which takes the whole field and
no plus sign, and a number that does not fit its type is an error. -/

namespace Choreolog.State

def parseCommandType (name : String) : Result CommandType :=
  if name = "CREATE_CHOREOGRAPHY" then .ok .createChoreography
  else if name = "ADD_DANCER" then .ok .addDancer
  else if name = "REMOVE_DANCER" then .ok .removeDancer
  else if name = "MOVE_DANCER" then .ok .moveDancer
  else if name = "DEFINE_FORMATION" then .ok .defineFormation
  else if name = "CHANGE_FORMATION" then .ok .changeFormation
  else if name = "TRIGGER_MUSIC_CUE" then .ok .triggerMusicCue
  else if name = "TRIGGER_LIGHTING_CUE" then .ok .triggerLightingCue
  else .error ⟨.unsupportedType, "unknown command type"⟩

@[simp] theorem parseCommandType_name (type : CommandType) : parseCommandType (commandTypeName type) = .ok type := by
  cases type <;> decide

end Choreolog.State

namespace Choreolog.Protocol
open Lib State

def fieldFrom (token : List Char) : Result (String × String) :=
  if '=' ∈ token then
    .ok (String.ofList (token.takeWhile (· != '=')), String.ofList ((token.dropWhile (· != '=')).tail))
  else .error ⟨.protocolError, "command field is missing '='"⟩

def fieldsFrom (text : String) : Result Fields :=
  ((Text.getlines ';' text.toList).filter (· ≠ [])).mapM fieldFrom

def required (fields : Fields) (key : String) : Result String :=
  match fields.lookup key with
  | some value => .ok value
  | none => .error ⟨.protocolError, "command missing " ++ key⟩

/-- `std::from_chars` for a 64-bit integer that is the whole text -/
def fromChars (text : List Char) : Option Int :=
  if text.head? = some '+' ∨ (Text.numeral text).rest ≠ [] then none else (Text.numeral text).signed 64

def requiredI64 (fields : Fields) (key : String) : Result Int := do
  let raw ← required fields key
  match fromChars raw.toList with
  | some value => .ok value
  | none => .error ⟨.protocolError, "invalid integer " ++ key⟩

def requiredI32 (fields : Fields) (key : String) : Result Int32 := do
  let parsed ← requiredI64 fields key
  if parsed < -2 ^ 31 ∨ 2 ^ 31 ≤ parsed then .error ⟨.protocolError, "integer out of range " ++ key⟩
  else .ok (Int32.ofInt parsed)

/-- Any failure among several checked together is reported as one. -/
def orProtocolError {α : Type} (message : String) : Result α → Result α
  | .ok value => .ok value
  | .error _ => .error ⟨.protocolError, message⟩

/-- The `switch` of `parse_command` -/
def parseCommandPayload (fields : Fields) (choreographyId : ChoreographyId) : CommandType → Result Payload
  | .createChoreography => do
    let (width, depth, travel, overlap) ← orProtocolError "create command is incomplete" do
      return (← requiredI32 fields "width", ← requiredI32 fields "depth", ← requiredI32 fields "travel",
        ← required fields "overlap")
    let (stage, overlap) ← orProtocolError "create command stage is invalid" do
      return (← StageBounds.fromMm width.toInt depth.toInt, ← parseOverlapPolicy overlap)
    return .create { choreographyId, stage, overlap, maxTravelMm := travel }
  | .addDancer | .moveDancer => do
    let (dancer, x, y) ← orProtocolError "dancer command is incomplete" do
      return (← required fields "dancer", ← requiredI32 fields "x", ← requiredI32 fields "y")
    let (dancerId, position) ← orProtocolError "dancer command is invalid" do
      return (← StrongId.parse dancer, ← Position.fromMm x.toInt y.toInt)
    return .dancer { dancerId, position }
  | .removeDancer => do
    let dancerId ← StrongId.parse (← required fields "dancer")
    return .removed { dancerId }
  | .defineFormation | .changeFormation => do
    let (formation, members) ← orProtocolError "formation command is incomplete" do
      return (← required fields "formation", ← required fields "members")
    let formationId ← StrongId.parse formation
    let members ← parseMembers members
    return .formation { formationId, members }
  | .triggerMusicCue | .triggerLightingCue => do
    let cueId ← StrongId.parse (← required fields "cue")
    match fields.lookup "depends" with
    | none | some "" => return .cue { cueId, dependsOn := none }
    | some depends => return .cue { cueId, dependsOn := some (← StrongId.parse depends) }

def parseCommand (text : String) : Result Command := do
  let fields ← fieldsFrom text
  let (schema, type, cmd, choreo, tick) ← orProtocolError "command envelope is incomplete" do
    return (← requiredI64 fields "schema", ← required fields "type", ← required fields "cmd", ← required fields "choreo",
      ← requiredI64 fields "tick")
  if schema ≠ currentSchemaVersion.toNat then
    .error ⟨.unsupportedVersion, "command schema version is unsupported"⟩
  let (type, id, choreographyId, tick) ← orProtocolError "command envelope is invalid" do
    return (← parseCommandType type, ← StrongId.parse cmd, ← StrongId.parse choreo, ← MusicalTick.fromTicks tick)
  let payload ← parseCommandPayload fields choreographyId type
  return { id, choreographyId, type, schemaVersion := UInt16.ofNat schema.toNat, tick, payload }

end Choreolog.Protocol
