import Choreolog.Protocol.CommandCodec
import Choreolog.Theorems.EventText
import Choreolog.Theorems.Retries

/-! # The text of a command

The line of a command parses back to it, so the text stands for the command: no other command has it, and what
is computed from the text (the fingerprint in a receipt) belongs to the command alone. -/

namespace Choreolog.State

/-- The payload of a command is of the kind that its type asks for. The line of a creation does not repeat the
    choreography. -/
def Command.Matches (command : Command) : Prop :=
  match command.type, command.payload with
  | .createChoreography, .create p => p.choreographyId = command.choreographyId
  | .addDancer, .dancer _ | .removeDancer, .removed _ | .moveDancer, .dancer _ | .defineFormation, .formation _
  | .changeFormation, .formation _ | .triggerMusicCue, .cue _ | .triggerLightingCue, .cue _ => True
  | _, _ => False

end Choreolog.State

namespace Choreolog.Protocol
open Lib Lib.Text State

/-! ### Reading the fields -/

theorem fieldFrom_text {f : String × String} (h : Separable f) : fieldFrom (f.1 ++ "=" ++ f.2).toList = .ok f := by
  obtain ⟨hmem, hkey, hvalue⟩ := split_field h
  rw [fieldFrom, if_pos hmem, hkey, hvalue]

section Reading
variable {fields : Fields} {key : String}

theorem required_ok {value : String} (h : fields.lookup key = some value) : required fields key = .ok value := by
  rw [required, h]

/-- A written integer has no plus sign. -/
theorem fromChars_ofInt {i : Int} (lower : -2 ^ 63 ≤ i) (upper : i < 2 ^ 63) : fromChars (ofInt i) = some i := by
  have hsigned : (numeral (ofInt i ++ [])).signed 64 = some i ∧ _ := signed_ofInt .nil lower upper
  rw [List.append_nil] at hsigned
  have hplus : (ofInt i).head? ≠ some '+' := by
    intro hhead
    have hmem : '+' ∈ ofInt i := List.mem_of_mem_head? hhead
    cases i with
    | ofNat n => exact absurd (digits_ofNat _ hmem) (by decide)
    | negSucc n =>
      rcases List.mem_cons.mp hmem with h | h
      · exact absurd h (by decide)
      · exact absurd (digits_ofNat _ h) (by decide)
  rw [fromChars, if_neg (by simp [hplus, hsigned.2]), hsigned.1]

theorem requiredI64_ok {i : Int} (h : fields.lookup key = some (toString i)) (lower : -2 ^ 63 ≤ i) (upper : i < 2 ^ 63) :
    requiredI64 fields key = .ok i := by
  unfold requiredI64
  rw [required_ok h]
  simp only [bind, Except.bind, toList_toString_int, fromChars_ofInt lower upper]

theorem toString_natCast (n : Nat) : toString n = toString (n : Int) :=
  String.toList_inj.mp (by rw [toList_toString, toList_toString_int]; rfl)

theorem requiredI64_nat {n : Nat} (h : fields.lookup key = some (toString n)) (bound : n < 2 ^ 63) :
    requiredI64 fields key = .ok n :=
  requiredI64_ok (h.trans (congrArg some (toString_natCast n))) (by omega) (by omega)

theorem requiredI32_ok {i : Int32} (h : fields.lookup key = some (toString i.toInt)) : requiredI32 fields key = .ok i := by
  have hlow := i.le_toInt
  have hhigh := i.toInt_lt
  unfold requiredI32
  rw [requiredI64_ok h (by omega) (by omega)]
  simp only [bind, Except.bind]
  rw [if_neg (by omega), Int32.ofInt_toInt]

theorem requiredI32_nat {n : Nat} (h : fields.lookup key = some (toString n)) (bound : n ≤ maxStageMm) :
    ∃ i : Int32, requiredI32 fields key = .ok i ∧ i.toInt = n := by
  have hvalue := int32_ofInt_nat bound
  refine ⟨Int32.ofInt n, requiredI32_ok ?_, hvalue⟩
  rw [hvalue, h, toString_natCast]

end Reading

/-! ### Payloads -/

section Payload
variable {fields : Fields} {choreographyId : ChoreographyId}

theorem parseCommandPayload_create {p : CreateChoreographyPayload} (hwidth : fields.lookup "width" = some (toString p.stage.width.mm))
    (hdepth : fields.lookup "depth" = some (toString p.stage.depth.mm))
    (hoverlap : fields.lookup "overlap" = some (overlapPolicyName p.overlap))
    (htravel : fields.lookup "travel" = some (toString p.maxTravelMm.toInt)) :
    parseCommandPayload fields choreographyId .createChoreography = .ok (.create { p with choreographyId }) := by
  obtain ⟨width, hw, hwidth⟩ := requiredI32_nat hwidth p.stage.width.bound
  obtain ⟨depth, hd, hdepth⟩ := requiredI32_nat hdepth p.stage.depth.bound
  simp only [parseCommandPayload, hw, hd, requiredI32_ok htravel, required_ok hoverlap, orProtocolError, bind, Except.bind, pure,
    Except.pure, hwidth, hdepth, StageBounds.fromMm_mm, parseOverlapPolicy_name]

theorem parseCommandPayload_dancer {type : CommandType} {p : DancerPayload} (htype : type = .addDancer ∨ type = .moveDancer)
    (hdancer : fields.lookup "dancer" = some p.dancerId.value) (hx : fields.lookup "x" = some (toString p.position.x.mm))
    (hy : fields.lookup "y" = some (toString p.position.y.mm)) : parseCommandPayload fields choreographyId type = .ok (.dancer p) := by
  obtain ⟨x, hx, hxmm⟩ := requiredI32_nat hx p.position.x.bound
  obtain ⟨y, hy, hymm⟩ := requiredI32_nat hy p.position.y.bound
  rcases htype with rfl | rfl <;>
  simp only [parseCommandPayload, required_ok hdancer, hx, hy, orProtocolError, bind, Except.bind, pure, Except.pure, hxmm, hymm,
    StrongId.parse_value, Position.fromMm_mm]

theorem parseCommandPayload_removed {p : RemoveDancerPayload} (hdancer : fields.lookup "dancer" = some p.dancerId.value) :
    parseCommandPayload fields choreographyId .removeDancer = .ok (.removed p) := by
  simp only [parseCommandPayload, required_ok hdancer, bind, Except.bind, pure, Except.pure, StrongId.parse_value]

theorem parseCommandPayload_formation {type : CommandType} {p : FormationPayload}
    (htype : type = .defineFormation ∨ type = .changeFormation)
    (hformation : fields.lookup "formation" = some p.formationId.value)
    (hmembers : fields.lookup "members" = some (writeMembers p.members)) :
    parseCommandPayload fields choreographyId type = .ok (.formation p) := by
  rcases htype with rfl | rfl <;>
  simp only [parseCommandPayload, required_ok hformation, required_ok hmembers, orProtocolError, bind, Except.bind, pure, Except.pure,
    StrongId.parse_value, parseMembers_write]

theorem parseCommandPayload_cue {type : CommandType} {p : CuePayload}
    (htype : type = .triggerMusicCue ∨ type = .triggerLightingCue) (hcue : fields.lookup "cue" = some p.cueId.value)
    (hdepends : fields.lookup "depends" = some ((p.dependsOn.map (·.value)).getD "")) :
    parseCommandPayload fields choreographyId type = .ok (.cue p) := by
  obtain ⟨cueId, dependsOn⟩ := p
  rcases htype with rfl | rfl <;>
  · simp only [parseCommandPayload, required_ok hcue, bind, Except.bind, pure, Except.pure, StrongId.parse_value, hdepends]
    cases dependsOn with
    | none => rfl
    | some id =>
      -- An identifier is never the empty word that stands for a missing one.
      have hne := id.ne_empty
      simp only [Option.map_some, Option.getD_some, StrongId.parse_value]

end Payload

/-! ### Commands -/

def commandFields (command : Command) : Fields :=
  [("schema", toString command.schemaVersion.toNat), ("type", commandTypeName command.type), ("cmd", command.id.value),
    ("choreo", command.choreographyId.value), ("tick", toString command.tick.ticks)] ++ payloadFields command.payload

theorem semicolon_commandType (type : CommandType) : ';' ∉ (commandTypeName type).toList := by
  cases type <;> decide

theorem separable_command (command : Command) : ∀ f ∈ commandFields command, Separable f := by
  refine List.forall_mem_append.mpr ⟨?_, separable_payload _⟩
  simp only [List.forall_mem_cons, List.not_mem_nil, false_imp_iff, implies_true, and_true]
  exact ⟨separable (by decide) (semicolon_ofNat _), separable (by decide) (semicolon_commandType _),
    separable (by decide) (semicolon_id _), separable (by decide) (semicolon_id _), separable (by decide) (semicolon_ofNat _)⟩

theorem fieldsFrom_canonicalCommand (command : Command) : fieldsFrom (canonicalCommand command) = .ok (commandFields command) :=
  mapM_line (separable_command command) fun _ => fieldFrom_text

theorem parseCommandPayload_fields {command : Command} (h : command.Matches) :
    parseCommandPayload (commandFields command) command.choreographyId command.type = .ok command.payload := by
  obtain ⟨id, choreographyId, type, schemaVersion, tick, payload⟩ := command
  cases type with
  | createChoreography =>
    cases payload with
    | create p =>
      obtain rfl : p.choreographyId = choreographyId := h
      exact parseCommandPayload_create rfl rfl rfl rfl
    | _ => cases h
  | addDancer =>
    cases payload with
    | dancer p => exact parseCommandPayload_dancer (.inl rfl) rfl rfl rfl
    | _ => cases h
  | removeDancer =>
    cases payload with
    | removed p => exact parseCommandPayload_removed rfl
    | _ => cases h
  | moveDancer =>
    cases payload with
    | dancer p => exact parseCommandPayload_dancer (.inr rfl) rfl rfl rfl
    | _ => cases h
  | defineFormation =>
    cases payload with
    | formation p => exact parseCommandPayload_formation (.inl rfl) rfl rfl
    | _ => cases h
  | changeFormation =>
    cases payload with
    | formation p => exact parseCommandPayload_formation (.inr rfl) rfl rfl
    | _ => cases h
  | triggerMusicCue =>
    cases payload with
    | cue p => exact parseCommandPayload_cue (.inl rfl) rfl rfl
    | _ => cases h
  | triggerLightingCue =>
    cases payload with
    | cue p => exact parseCommandPayload_cue (.inr rfl) rfl rfl
    | _ => cases h

theorem parse_canonicalCommand {command : Command} (schema : command.schemaVersion = currentSchemaVersion) (h : command.Matches) :
    parseCommand (canonicalCommand command) = .ok command := by
  have hschema : (commandFields command).lookup "schema" = some (toString command.schemaVersion.toNat) := rfl
  have htype : (commandFields command).lookup "type" = some (commandTypeName command.type) := rfl
  have hcmd : (commandFields command).lookup "cmd" = some command.id.value := rfl
  have hchoreo : (commandFields command).lookup "choreo" = some command.choreographyId.value := rfl
  have htick : (commandFields command).lookup "tick" = some (toString command.tick.ticks) := rfl
  have hbound : command.schemaVersion.toNat < 2 ^ 63 := command.schemaVersion.toNat_lt.trans (by decide)
  unfold parseCommand
  rw [fieldsFrom_canonicalCommand]
  simp only [bind, Except.bind, pure, Except.pure, orProtocolError, requiredI64_nat hschema hbound, required_ok htype, required_ok hcmd,
    required_ok hchoreo, requiredI64_nat htick command.tick.bound, parseCommandType_name, StrongId.parse_value,
    MusicalTick.fromTicks_ticks, parseCommandPayload_fields h, Int.toNat_natCast, UInt16.ofNat_toNat]
  rw [if_neg (by rw [schema]; simp)]

/-- Applying the event of a command leaves a receipt with the fingerprint of the command, at whatever index and term it was
    committed. -/
theorem receipt_record (state : ChoreographyState) (domain : Domain) (command : Command) (index term : Nat) :
    (record state domain (makeEvent command index term (normalizePayload command.payload))).receipts.find? command.id.value =
      some { index, term, fingerprint := commandFingerprint command } := by
  have htype : (makeEvent command index term (normalizePayload command.payload)).type ≠ .noOp := by
    change eventTypeFor command.type ≠ .noOp
    cases command.type <;> decide
  change (if _ then _ else _ : OrdMap String EventReceipt).find? _ = _
  rw [if_neg htype, receiptFromEvent_makeEvent, OrdMap.find?_insert]
  exact if_pos rfl

/-- The text of a command stands for it: it parses back, no other command has it, and the receipt of the command holds a
    fingerprint that neither the index nor the term nor the state changes. -/
theorem command_text {command : Command} (schema : command.schemaVersion = currentSchemaVersion) (h : command.Matches) :
    parseCommand (canonicalCommand command) = .ok command ∧
      (∀ other : Command, other.schemaVersion = currentSchemaVersion → other.Matches → canonicalCommand other = canonicalCommand command →
        other = command) ∧
      ∀ state domain index term,
        (record state domain (makeEvent command index term (normalizePayload command.payload))).receipts.find? command.id.value =
          some { index, term, fingerprint := commandFingerprint command } := by
  refine ⟨parse_canonicalCommand schema h, fun other hschema hother htext => ?_, fun state domain => receipt_record state domain command⟩
  have hparse := parse_canonicalCommand hschema hother
  rw [htext, parse_canonicalCommand schema h] at hparse
  exact (Except.ok.inj hparse).symm

/-- A formation with a member named twice, out of order. -/
def repeated : Command where
  id := ⟨"c-1", Eq.refl true⟩
  choreographyId := ⟨"show", Eq.refl true⟩
  type := .defineFormation
  schemaVersion := currentSchemaVersion
  tick := ⟨9223372036854775807, by decide⟩
  payload := .formation { formationId := ⟨"line", Eq.refl true⟩, members := [⟨"b", Eq.refl true⟩, ⟨"a", Eq.refl true⟩, ⟨"b", Eq.refl true⟩] }

theorem command_text_repeated : parseCommand (canonicalCommand repeated) = .ok repeated :=
  (@command_text repeated rfl trivial).1

end Choreolog.Protocol
