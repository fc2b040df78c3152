import Choreolog.State.Machine

/-! # State text

The state hash and the snapshot payload of `cpp-runtime/src/state/machine.cpp`. A payload is one line of
words per fact; restoring it reads line by line, key by key, with the string-stream rules of the source. -/

namespace Choreolog.State
open Lib

/-! ## Hash -/

/-- Lines, each ended by a newline. -/
def unlines (lines : List String) : String := String.join (lines.map (· ++ "\n"))

def cueLine (key id : String) (cue : CueState) : String :=
  key ++ "=" ++ id ++ ":" ++ toString cue.tick.ticks ++ ":" ++ (cue.dependsOn.map (·.value)).getD ""

def canonicalState (state : Domain) : String :=
  unlines <|
    ["schema=" ++ toString currentSchemaVersion.toNat,
      "created=" ++ (if state.created then "true" else "false"),
      "choreography=" ++ (state.id.map (·.value)).getD "",
      "stage=" ++ (state.stage.map fun stage => toString stage.width.mm ++ "x" ++ toString stage.depth.mm).getD "",
      "overlap=" ++ overlapPolicyName state.overlap,
      "max_travel_mm=" ++ toString state.maxTravelMm.toInt,
      "last_applied=" ++ toString state.lastApplied,
      "term=" ++ toString state.term] ++
    (state.dancers.entries.map fun (id, dancer) =>
      "dancer=" ++ id ++ ":" ++ toString dancer.position.x.mm ++ "," ++ toString dancer.position.y.mm ++ ":" ++
        (if dancer.active then "active" else "inactive")) ++
    (state.formations.entries.map fun (id, formation) => "formation=" ++ id ++ ":" ++ writeMembers formation.members) ++
    (state.musicCues.entries.map fun (id, cue) => cueLine "music" id cue) ++
    (state.lightingCues.entries.map fun (id, cue) => cueLine "light" id cue)

/-- Sixteen lower-case hexadecimal digits. -/
def hex16 (value : UInt64) : String :=
  let digits := Nat.toDigits 16 value.toNat
  String.ofList (List.replicate (16 - digits.length) '0' ++ digits)

def stateHash (state : Domain) : String := hex16 (fnv1a (canonicalState state))

/-! ## Fingerprint text -/

/-- `kBase64` -/
def base64Alphabet : List Char := "ABCDEFGHIJKLMNOPQRSTUVWXYZabcdefghijklmnopqrstuvwxyz0123456789-_".toList

/-- The lowest `count` digits in base 64, the highest first. -/
def base64Digits : Nat → Nat → List Nat
  | 0, _ => []
  | count + 1, value => base64Digits count (value / 64) ++ [value % 64]

def encodeFingerprint (value : UInt64) : List Char :=
  (base64Digits 11 value.toNat).map fun digit => base64Alphabet.getD digit 'A'

def decodeDigit (c : Char) : Result Nat :=
  match base64Alphabet.idxOf? c with
  | some digit => .ok digit
  | none => .error ⟨.storeError, "receipt fingerprint alphabet is invalid"⟩

def decodeFingerprint (text : List Char) : Result UInt64 := do
  if text.length ≠ 11 then .error ⟨.storeError, "receipt fingerprint length is invalid"⟩
  let digits ← text.mapM decodeDigit
  if digits.head?.any (15 < ·) then .error ⟨.storeError, "receipt fingerprint overflows 64 bits"⟩
  return UInt64.ofNat (digits.foldl (fun value digit => value * 64 + digit) 0)

/-! ## Payload -/

/-- The lines of the receipts in index order. The index advances implicitly; a gap and a change of term
    have lines of their own. -/
def receiptLines : Nat → Nat → List (String × EventReceipt) → List (List (List Char))
  | _, _, [] => []
  | cursor, activeTerm, (id, receipt) :: rest =>
    (if receipt.index ≠ cursor + 1 then [["at".toList, Text.ofNat (receipt.index - 1)]] else []) ++
      (if receipt.term ≠ activeTerm then [["receipt-term".toList, Text.ofNat receipt.term]] else []) ++
      [["r".toList, id.toList, encodeFingerprint receipt.fingerprint]] ++
      receiptLines receipt.index receipt.term rest

/-- `std::sort` of the receipts by index -/
def receiptsByIndex (receipts : OrdMap String EventReceipt) : List (String × EventReceipt) :=
  receipts.entries.insertionSort fun a b => a.2.index ≤ b.2.index

def dancerWords (id : String) (dancer : DancerState) : List (List Char) :=
  ["dancer".toList, id.toList, Text.ofInt dancer.position.x.mm, Text.ofInt dancer.position.y.mm,
    Text.ofInt (if dancer.active then 1 else 0)]

def formationWords (id : String) (formation : FormationState) : List (List Char) :=
  "formation".toList :: id.toList :: formation.members.map (·.value.toList)

def cueWords (key id : String) (cue : CueState) : List (List Char) :=
  [key.toList, id.toList, Text.ofNat cue.tick.ticks, ((cue.dependsOn.map (·.value)).getD "-").toList]

/-- Only commands without a receipt need a tombstone, and no-ops need none. -/
def legacyLines (state : ChoreographyState) : List (List (List Char)) :=
  (state.appliedCommands.entries.filter fun (id, eventId) =>
    !state.receipts.contains id && !"noop-".toList.isPrefixOf eventId.toList).map fun (id, _) => ["legacy".toList, id.toList]

def stageWords : Option StageBounds → List (List Char)
  | some stage => [Text.ofInt stage.width.mm, Text.ofInt stage.depth.mm]
  | none => [['-']]

def headerLines (state : Domain) : List (List (List Char)) :=
  [["snapshot-state".toList, ['3']],
    ["schema".toList, Text.ofNat currentSchemaVersion.toNat],
    ["created".toList, Text.ofInt (if state.created then 1 else 0)],
    ["choreography".toList, ((state.id.map (·.value)).getD "-").toList],
    "stage".toList :: stageWords state.stage,
    ["overlap".toList, (overlapPolicyName state.overlap).toList],
    ["max_travel".toList, Text.ofInt state.maxTravelMm.toInt],
    ["last_applied".toList, Text.ofNat state.lastApplied],
    ["term".toList, Text.ofNat state.term]]

def domainLines (state : Domain) : List (List (List Char)) :=
  headerLines state ++
  (state.dancers.entries.map fun e => dancerWords e.1 e.2) ++
  (state.formations.entries.map fun e => formationWords e.1 e.2) ++
  (state.musicCues.entries.map fun e => cueWords "music" e.1 e.2) ++
  (state.lightingCues.entries.map fun e => cueWords "light" e.1 e.2)

def payloadLines (state : ChoreographyState) : List (List (List Char)) :=
  domainLines state.toDomain ++ receiptLines 0 1 (receiptsByIndex state.receipts) ++ legacyLines state

def snapshotPayload (state : ChoreographyState) : String :=
  String.ofList (Text.terminated '\n' ((payloadLines state).map Text.unwords))

/-! ## Restoring -/

/-- The state restored so far, with the version of the header once it has been read, and the cursor of
    the compact receipts. -/
structure Restoring where
  state : ChoreographyState := {}
  version : Option String := none
  receiptIndex : Nat := 0
  receiptTerm : Nat := 1
  deriving DecidableEq

def badSnapshot (why : String) : Error := ⟨.storeError, "snapshot state is invalid: " ++ why⟩

/-- `while (fields >> word)` -/
def readWords : Nat → Text.Stream → List (List Char) × Text.Stream
  | 0, fields => ([], fields)
  | fuel + 1, fields =>
    let (word, fields) := fields.word
    if fields.fail then ([], fields)
    else
      let (words, fields) := readWords fuel fields
      (word :: words, fields)

namespace Restoring
open Text (Stream)

def restoreHeader (r : Restoring) (key : List Char) (fields : Stream) : Result Restoring :=
  let version := String.ofList fields.word.1
  if key = "snapshot-state".toList ∧ (version = "1" ∨ version = "2" ∨ version = "3") then
    .ok { r with version := some version }
  else .error (badSnapshot "missing or unsupported header")

def restoreSchema (r : Restoring) (fields : Stream) : Result (Restoring × Stream) :=
  let (schema, fields) := fields.unsigned 32 0
  if schema = currentSchemaVersion.toNat then .ok (r, fields)
  else .error ⟨.unsupportedVersion, "unsupported schema version " ++ toString (UInt16.ofNat schema).toNat⟩

def restoreCreated (r : Restoring) (fields : Stream) : Result (Restoring × Stream) :=
  let (value, fields) := fields.signed 32 0
  .ok ({ r with state.created := value ≠ 0 }, fields)

def restoreChoreography (r : Restoring) (fields : Stream) : Result (Restoring × Stream) := do
  let (id, fields) := fields.word
  if id = ['-'] then return (r, fields)
  let id ← StrongId.parse (String.ofList id)
  return ({ r with state.id := some id }, fields)

def restoreStage (r : Restoring) (fields : Stream) : Result (Restoring × Stream) := do
  let (width, fields) := fields.word
  if width = ['-'] then return (r, fields)
  let (widthMm, _) := (Stream.signed { rest := width } 32 0)
  let (depth, fields) := fields.signed 32 0
  let stage ← StageBounds.fromMm widthMm depth
  return ({ r with state.stage := some stage }, fields)

def restoreOverlap (r : Restoring) (fields : Stream) : Result (Restoring × Stream) := do
  let (name, fields) := fields.word
  let overlap ← parseOverlapPolicy (String.ofList name)
  return ({ r with state.overlap := overlap }, fields)

def restoreTravel (r : Restoring) (fields : Stream) : Result (Restoring × Stream) :=
  let (travel, fields) := fields.signed 32 r.state.maxTravelMm.toInt
  .ok ({ r with state.maxTravelMm := Int32.ofInt travel }, fields)

def restoreLastApplied (r : Restoring) (fields : Stream) : Result (Restoring × Stream) :=
  let (value, fields) := fields.unsigned 64 0
  .ok ({ r with state.lastApplied := value }, fields)

def restoreTerm (r : Restoring) (fields : Stream) : Result (Restoring × Stream) := do
  let (value, fields) := fields.unsigned 64 0
  let term ← parseTerm value
  return ({ r with state.term := term }, fields)

def restoreDancer (r : Restoring) (fields : Stream) : Result (Restoring × Stream) := do
  let (id, fields) := fields.word
  let (x, fields) := fields.signed 32 0
  let (y, fields) := fields.signed 32 0
  let (active, fields) := fields.signed 32 0
  let position ← Position.fromMm x y
  return ({ r with
    state.dancers := r.state.dancers.insert (String.ofList id) { position, active := active ≠ 0 } }, fields)

def restoreFormation (r : Restoring) (fields : Stream) : Result (Restoring × Stream) := do
  let (id, fields) := fields.word
  let (words, fields) := readWords (fields.rest.length + 1) fields
  let members ← words.mapM fun word => StrongId.parse (String.ofList word)
  return ({ r with state.formations := r.state.formations.insert (String.ofList id) { members } }, fields)

def readCue (fields : Stream) : Result (String × CueState × Stream) := do
  let (id, fields) := fields.word
  let (ticks, fields) := fields.signed 64 0
  let (depends, fields) := fields.word
  let tick ← MusicalTick.fromTicks ticks
  if depends = ['-'] ∨ depends = [] then return (String.ofList id, { tick, dependsOn := none }, fields)
  let dependsOn ← StrongId.parse (String.ofList depends)
  return (String.ofList id, { tick, dependsOn := some dependsOn }, fields)

def restoreMusic (r : Restoring) (fields : Stream) : Result (Restoring × Stream) := do
  let (id, cue, fields) ← readCue fields
  return ({ r with state.musicCues := r.state.musicCues.insert id cue }, fields)

def restoreLight (r : Restoring) (fields : Stream) : Result (Restoring × Stream) := do
  let (id, cue, fields) ← readCue fields
  return ({ r with state.lightingCues := r.state.lightingCues.insert id cue }, fields)

def restoreAt (r : Restoring) (fields : Stream) : Result (Restoring × Stream) :=
  let (cursor, fields) := fields.unsigned 64 0
  if fields.fail ∨ cursor ≤ r.receiptIndex ∨ r.state.lastApplied ≤ cursor then
    .error (badSnapshot "receipt cursor is invalid")
  else .ok ({ r with receiptIndex := cursor }, fields)

def restoreReceiptTerm (r : Restoring) (fields : Stream) : Result (Restoring × Stream) :=
  let (term, fields) := fields.unsigned 64 r.receiptTerm
  if fields.fail ∨ term = 0 then .error (badSnapshot "receipt term is invalid")
  else .ok ({ r with receiptTerm := term }, fields)

def restoreReceipt (r : Restoring) (fields : Stream) : Result (Restoring × Stream) :=
  let (id, fields) := fields.word
  let (text, fields) := fields.word
  let id := String.ofList id
  match validId id, decodeFingerprint text with
  | true, .ok fingerprint =>
    if r.state.lastApplied ≤ r.receiptIndex ∨ r.state.receipts.contains id then
      .error (badSnapshot "compact receipt is invalid or repeated")
    else
      let index := r.receiptIndex + 1
      .ok ({ r with
        receiptIndex := index
        state.receipts := r.state.receipts.insert id { index, term := r.receiptTerm, fingerprint }
        state.appliedCommands := r.state.appliedCommands.insert id id }, fields)
  | _, _ => .error (badSnapshot "compact receipt is invalid or repeated")

def restoreLegacy (r : Restoring) (fields : Stream) : Result (Restoring × Stream) :=
  let (id, fields) := fields.word
  let id := String.ofList id
  if !validId id ∨ r.state.appliedCommands.contains id then
    .error (badSnapshot "legacy command id is invalid or repeated")
  else .ok ({ r with state.appliedCommands := r.state.appliedCommands.insert id id }, fields)

/-- A full receipt of the second payload format. -/
def restoreFullReceipt (r : Restoring) (fields : Stream) : Result (Restoring × Stream) :=
  let (eventId, fields) := fields.word
  let (canonical, fields) := fields.word
  if eventId = [] ∨ canonical = [] then .error (badSnapshot "receipt is missing an event id or payload")
  else
    let eventId := String.ofList eventId
    let canonical := String.ofList canonical
    match parseEvent canonical with
    | .error _ => .error (badSnapshot "legacy full receipt is malformed")
    | .ok event =>
      if event.id.value ≠ eventId then .error (badSnapshot "legacy full receipt is malformed")
      else .ok ({ r with
        state.appliedEvents := r.state.appliedEvents.insert eventId canonical
        state.receipts :=
          if event.type = .noOp then r.state.receipts
          else r.state.receipts.insert event.commandId.value (receiptFromEvent event) }, fields)

def restoreApplied (r : Restoring) (fields : Stream) : Result (Restoring × Stream) :=
  let (command, fields) := fields.word
  let (event, fields) := fields.word
  let command := String.ofList command
  .ok ({ r with
    state.appliedCommands :=
      r.state.appliedCommands.insert command (if event = [] then command else String.ofList event) }, fields)

def restoreField (r : Restoring) (version : String) (key : List Char) (fields : Stream) : Result (Restoring × Stream) :=
  if key = "schema".toList then r.restoreSchema fields
  else if key = "created".toList then r.restoreCreated fields
  else if key = "choreography".toList then r.restoreChoreography fields
  else if key = "stage".toList then r.restoreStage fields
  else if key = "overlap".toList then r.restoreOverlap fields
  else if key = "max_travel".toList then r.restoreTravel fields
  else if key = "last_applied".toList then r.restoreLastApplied fields
  else if key = "term".toList then r.restoreTerm fields
  else if key = "dancer".toList then r.restoreDancer fields
  else if key = "formation".toList then r.restoreFormation fields
  else if key = "music".toList then r.restoreMusic fields
  else if key = "light".toList then r.restoreLight fields
  else if key = "at".toList ∧ version = "3" then r.restoreAt fields
  else if key = "receipt-term".toList ∧ version = "3" then r.restoreReceiptTerm fields
  else if key = "r".toList ∧ version = "3" then r.restoreReceipt fields
  else if key = "legacy".toList ∧ version = "3" then r.restoreLegacy fields
  else if key = "receipt".toList ∧ version = "2" then r.restoreFullReceipt fields
  else if key = "applied".toList then r.restoreApplied fields
  else .error (badSnapshot ("unknown line '" ++ String.ofList key ++ "'"))

def restoreLine (r : Restoring) (line : List Char) : Result Restoring :=
  let (key, fields) := Stream.word { rest := line }
  match r.version with
  | none => r.restoreHeader key fields
  | some version => do
    let (r, fields) ← r.restoreField version key fields
    if fields.fail ∧ fields.eof = false then .error (badSnapshot ("malformed line '" ++ String.ofList key ++ "'"))
    return r

end Restoring

def restoreState (payload : String) : Result ChoreographyState := do
  let lines := (Text.getlines '\n' payload.toList).filter (· ≠ [])
  let r ← lines.foldlM Restoring.restoreLine {}
  match r.version with
  | none => .error (badSnapshot "empty payload")
  | some _ => return r.state

end Choreolog.State
