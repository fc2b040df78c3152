import Choreolog.Theorems.Reach

/-! # The text of an event

The line of an event parses back. Only the payload may change: a no-op's is not written at all, and a
creation takes its choreography from the envelope. -/

namespace Choreolog.State
open Lib Lib.Text

/-! ### Lines of fields -/

/-- A field that stays apart from its neighbours in a line. -/
structure Separable (f : String × String) : Prop where
  equals : '=' ∉ f.1.toList
  key : ';' ∉ f.1.toList
  value : ';' ∉ f.2.toList

theorem separable {key value : String} (hkey : (key.toList.all fun c => c != '=' && c != ';') = true)
    (hvalue : ';' ∉ value.toList) : Separable (key, value) := by
  simp only [List.all_eq_true, Bool.and_eq_true, bne_iff_ne] at hkey
  exact ⟨fun h => (hkey _ h).1 rfl, fun h => (hkey _ h).2 rfl, hvalue⟩

/-- The first equals sign of a field is the one after its key. -/
theorem split_field {f : String × String} (h : Separable f) :
    '=' ∈ (f.1 ++ "=" ++ f.2).toList ∧ String.ofList ((f.1 ++ "=" ++ f.2).toList.takeWhile (· != '=')) = f.1 ∧
      String.ofList (((f.1 ++ "=" ++ f.2).toList.dropWhile (· != '=')).tail) = f.2 := by
  have htext : (f.1 ++ "=" ++ f.2).toList = f.1.toList ++ '=' :: f.2.toList := by simp
  have hkey : ∀ c ∈ f.1.toList, (c != '=') = true := by
    intro c hc
    simp only [bne_iff_ne, ne_eq]
    rintro rfl
    exact h.equals hc
  rw [htext, List.takeWhile_append_of_pos hkey, List.dropWhile_append_of_pos hkey]
  simp

theorem parseField_text {f : String × String} (h : Separable f) : parseField (f.1 ++ "=" ++ f.2).toList = .ok f := by
  obtain ⟨hmem, hkey, hvalue⟩ := split_field h
  rw [parseField, if_pos hmem, hkey, hvalue]

theorem mapM_ok {α β : Type} {f : α → Result β} {g : β → α} :
    ∀ {l : List β}, (∀ b ∈ l, f (g b) = .ok b) → (l.map g).mapM f = .ok l
  | [], _ => rfl
  | b :: l, h => by
    rw [List.map_cons, List.mapM_cons, h b List.mem_cons_self, mapM_ok fun x hx => h x (List.mem_cons_of_mem _ hx)]
    rfl

/-- A reader that reads the text of one field reads the fields of a line. -/
theorem mapM_line {read : List Char → Result (String × String)} {fields : Fields} (h : ∀ f ∈ fields, Separable f)
    (hread : ∀ f, Separable f → read (f.1 ++ "=" ++ f.2).toList = .ok f) :
    ((getlines ';' (line fields).toList).filter (· ≠ [])).mapM read = .ok fields := by
  have hne : ∀ f : String × String, (f.1 ++ "=" ++ f.2).toList ≠ [] := by simp
  have hpieces : (line fields).toList = [';'].intercalate (fields.map fun f => (f.1 ++ "=" ++ f.2).toList) := by
    rw [line, String.toList_intercalate, List.map_map]
    rfl
  rw [hpieces, getlines_intercalate, List.filter_eq_self.mpr]
  · exact mapM_ok fun f hf => hread f (h f hf)
  · intro l hl
    obtain ⟨f, -, rfl⟩ := List.mem_map.mp hl
    simp
  · intro l hl
    obtain ⟨f, hf, rfl⟩ := List.mem_map.mp hl
    have hsep := h f hf
    simp [hsep.key, hsep.value]
  · intro l hl
    obtain ⟨f, -, rfl⟩ := List.mem_map.mp (List.mem_of_getLast? hl)
    exact hne f

theorem parseFields_line {fields : Fields} (h : ∀ f ∈ fields, Separable f) : parseFields (line fields) = .ok fields :=
  mapM_line h fun _ => parseField_text

/-! ### The fields of an event -/

theorem semicolon_ofNat (n : Nat) : ';' ∉ (toString n).toList := by
  rw [toList_toString]
  exact fun h => absurd (digits_ofNat _ h) (by decide)

theorem semicolon_ofInt (i : Int) : ';' ∉ (toString i).toList := by
  rw [toList_toString_int]
  cases i with
  | ofNat n => exact fun h => absurd (digits_ofNat _ h) (by decide)
  | negSucc n =>
    intro h
    rcases List.mem_cons.mp h with h | h
    · exact absurd h (by decide)
    · exact absurd (digits_ofNat _ h) (by decide)

theorem semicolon_id {tag : IdTag} (id : StrongId tag) : ';' ∉ id.value.toList := id.not_mem (by decide)

theorem semicolon_type (type : EventType) : ';' ∉ (eventTypeName type).toList := by
  cases type <;> decide

theorem semicolon_overlap (policy : OverlapPolicy) : ';' ∉ (overlapPolicyName policy).toList := by
  cases policy <;> decide

theorem mem_intercalate {c sep : Char} (h : c ≠ sep) : ∀ {pieces : List (List Char)}, (∀ p ∈ pieces, c ∉ p) →
    c ∉ [sep].intercalate pieces
  | [], _ => by simp [List.intercalate]
  | [p], hp => by simpa [List.intercalate] using hp p List.mem_cons_self
  | p :: q :: pieces, hp => by
    have ih : c ∉ [sep].intercalate (q :: pieces) := mem_intercalate h fun x hx => hp x (List.mem_cons_of_mem _ hx)
    rw [List.intercalate_cons_cons]
    simp [hp p List.mem_cons_self, h, ih]

theorem toList_writeMembers (members : List DancerId) :
    (writeMembers members).toList = [','].intercalate (members.map (·.value.toList)) := by
  rw [writeMembers, String.toList_intercalate, List.map_map]
  rfl

theorem semicolon_members (members : List DancerId) : ';' ∉ (writeMembers members).toList := by
  rw [toList_writeMembers]
  refine mem_intercalate (by decide) fun p hp => ?_
  obtain ⟨member, -, rfl⟩ := List.mem_map.mp hp
  exact semicolon_id member

theorem semicolon_depends (id : Option CueId) : ';' ∉ ((id.map (·.value)).getD "").toList := by
  cases id with
  | none => simp
  | some id => exact semicolon_id id

theorem separable_payload (payload : Payload) : ∀ f ∈ payloadFields payload, Separable f := by
  cases payload with
  | create p =>
    simp only [payloadFields, List.forall_mem_cons, List.not_mem_nil, false_imp_iff, implies_true, and_true]
    exact ⟨separable (by decide) (semicolon_ofNat _), separable (by decide) (semicolon_ofNat _),
      separable (by decide) (semicolon_overlap _), separable (by decide) (semicolon_ofInt _)⟩
  | dancer p =>
    simp only [payloadFields, List.forall_mem_cons, List.not_mem_nil, false_imp_iff, implies_true, and_true]
    exact ⟨separable (by decide) (semicolon_id _), separable (by decide) (semicolon_ofNat _),
      separable (by decide) (semicolon_ofNat _)⟩
  | removed p =>
    simp only [payloadFields, List.forall_mem_cons, List.not_mem_nil, false_imp_iff, implies_true, and_true]
    exact separable (by decide) (semicolon_id _)
  | formation p =>
    simp only [payloadFields, List.forall_mem_cons, List.not_mem_nil, false_imp_iff, implies_true, and_true]
    exact ⟨separable (by decide) (semicolon_id _), separable (by decide) (semicolon_members _)⟩
  | cue p =>
    simp only [payloadFields, List.forall_mem_cons, List.not_mem_nil, false_imp_iff, implies_true, and_true]
    exact ⟨separable (by decide) (semicolon_id _), separable (by decide) (semicolon_depends _)⟩

/-- The fields of every event. -/
def envelopeFields (event : Event) : Fields :=
  [("schema", toString event.schemaVersion.toNat), ("type", eventTypeName event.type), ("event", event.id.value),
    ("cmd", event.commandId.value), ("choreo", event.choreographyId.value), ("tick", toString event.tick.ticks),
    ("index", toString event.index), ("term", toString event.term)]

theorem eventFields_eq (event : Event) : eventFields event =
    envelopeFields event ++ if event.type = .noOp then [] else payloadFields event.payload := rfl

theorem separable_envelope (event : Event) : ∀ f ∈ envelopeFields event, Separable f := by
  simp only [envelopeFields, List.forall_mem_cons, List.not_mem_nil, false_imp_iff, implies_true, and_true]
  exact ⟨separable (by decide) (semicolon_ofNat _), separable (by decide) (semicolon_type _),
    separable (by decide) (semicolon_id _), separable (by decide) (semicolon_id _), separable (by decide) (semicolon_id _),
    separable (by decide) (semicolon_ofNat _), separable (by decide) (semicolon_ofNat _),
    separable (by decide) (semicolon_ofNat _)⟩

theorem separable_event (event : Event) : ∀ f ∈ eventFields event, Separable f := by
  intro f hf
  rw [eventFields_eq] at hf
  rcases List.mem_append.mp hf with hf | hf
  · exact separable_envelope event f hf
  · split at hf
    · cases hf
    · exact separable_payload _ f hf

theorem parseFields_canonicalEvent (event : Event) : parseFields (canonicalEvent event) = .ok (eventFields event) :=
  parseFields_line (separable_event event)

theorem canonicalEvent_ne_empty (event : Event) : canonicalEvent event ≠ "" := by
  intro h
  have hfields := parseFields_canonicalEvent event
  rw [h] at hfields
  have hempty : parseFields "" = .ok [] := rfl
  rw [hempty] at hfields
  exact absurd (Except.ok.inj hfields) (by simp [eventFields])

theorem lookup_index (event : Event) : (eventFields event).lookup "index" = some (toString event.index) := rfl

/-- Events with the same text have the same envelope. -/
theorem index_of_canonicalEvent_eq {a b : Event} (h : canonicalEvent a = canonicalEvent b) : a.index = b.index := by
  have hfields := parseFields_canonicalEvent b
  rw [← h, parseFields_canonicalEvent a] at hfields
  have htext : toString a.index = toString b.index :=
    Option.some.inj ((lookup_index a).symm.trans ((congrArg (List.lookup "index") (Except.ok.inj hfields)).trans (lookup_index b)))
  exact ofNat_injective (by rw [← toList_toString, htext, toList_toString])

/-! ### Reading the fields -/

section Reading
variable {fields : Fields} {key : String}

theorem requireField_ok {value : String} (h : fields.lookup key = some value) : requireField fields key = .ok value := by
  rw [requireField, h]

theorem parseU64_ok {n : Nat} (h : fields.lookup key = some (toString n)) (bound : n < 2 ^ 64) :
    parseU64 fields key = .ok n := by
  have hskip := (Word.ofNat n).dropWhile []
  have hnum := numeral_ofNat (n := n) .nil
  rw [List.append_nil] at hskip hnum
  unfold parseU64
  rw [requireField_ok h]
  simp only [bind, Except.bind, toList_toString, hskip, hnum, unsigned_ofNat bound]

theorem parseI64_ok {i : Int} (h : fields.lookup key = some (toString i)) (lower : -2 ^ 63 ≤ i) (upper : i < 2 ^ 63) :
    parseI64 fields key = .ok i := by
  have hskip := (Word.ofInt i).dropWhile []
  have hnum : (numeral (ofInt i ++ [])).signed 64 = some i := (signed_ofInt .nil lower upper).1
  rw [List.append_nil] at hskip hnum
  unfold parseI64
  rw [requireField_ok h]
  simp only [bind, Except.bind, toList_toString_int, hskip, hnum]

theorem parseI64_nat {n : Nat} (h : fields.lookup key = some (toString n)) (bound : n < 2 ^ 63) :
    parseI64 fields key = .ok n := by
  refine parseI64_ok (h.trans (congrArg some ?_)) (by omega) (by omega)
  exact String.toList_inj.mp (by rw [toList_toString, toList_toString_int]; rfl)

end Reading

/-- The event that the text of an event is read as. -/
def Event.reread (event : Event) : Event :=
  { event with
    payload :=
      match event.type, event.payload with
      | .choreographyCreated, .create p => .create { p with choreographyId := event.choreographyId }
      | .noOp, _ => .create { choreographyId := event.choreographyId, stage := unitStage, overlap := .forbidden, maxTravelMm := 0 }
      | _, payload => payload }

theorem int32_ofInt_nat {n : Nat} (h : n ≤ maxStageMm) : (Int32.ofInt n).toInt = n := by
  unfold maxStageMm at h
  rw [Int32.toInt_ofInt_of_le] <;> omega

theorem parseMembers_write (members : List DancerId) : parseMembers (writeMembers members) = .ok members := by
  unfold parseMembers
  rw [toList_writeMembers, getlines_intercalate]
  · exact mapM_ok fun member _ => by rw [String.ofList_toList, StrongId.parse_value]
  · intro p hp
    obtain ⟨member, -, rfl⟩ := List.mem_map.mp hp
    exact member.not_mem (by decide)
  · intro p hp
    obtain ⟨member, -, rfl⟩ := List.mem_map.mp (List.mem_of_getLast? hp)
    simpa using member.ne_empty

section Payload
variable {fields : Fields} {choreographyId : ChoreographyId}

theorem parsePayload_create {p : CreateChoreographyPayload} (hwidth : fields.lookup "width" = some (toString p.stage.width.mm))
    (hdepth : fields.lookup "depth" = some (toString p.stage.depth.mm))
    (hoverlap : fields.lookup "overlap" = some (overlapPolicyName p.overlap))
    (htravel : fields.lookup "travel" = some (toString p.maxTravelMm.toInt)) :
    parsePayload fields choreographyId .choreographyCreated = .ok (.create { p with choreographyId }) := by
  have hw := p.stage.width.bound
  have hd := p.stage.depth.bound
  have hlow := p.maxTravelMm.le_toInt
  have hhigh := p.maxTravelMm.toInt_lt
  have hmax : maxStageMm < 2 ^ 63 := by decide
  simp only [parsePayload, parseI64_nat hwidth (hw.trans_lt hmax), parseI64_nat hdepth (hd.trans_lt hmax), requireField_ok hoverlap,
    parseI64_ok htravel (by omega) (by omega), orElseError, bind, Except.bind, pure, Except.pure, int32_ofInt_nat hw, int32_ofInt_nat hd,
    StageBounds.fromMm_mm, parseOverlapPolicy_name, Int32.ofInt_toInt]

theorem parsePayload_dancer {type : EventType} {p : DancerPayload} (htype : type = .dancerAdded ∨ type = .dancerMoved)
    (hdancer : fields.lookup "dancer" = some p.dancerId.value) (hx : fields.lookup "x" = some (toString p.position.x.mm))
    (hy : fields.lookup "y" = some (toString p.position.y.mm)) : parsePayload fields choreographyId type = .ok (.dancer p) := by
  have hx' := p.position.x.bound
  have hy' := p.position.y.bound
  have hmax : maxStageMm < 2 ^ 63 := by decide
  rcases htype with rfl | rfl <;>
  simp only [parsePayload, requireField_ok hdancer, parseI64_nat hx (hx'.trans_lt hmax), parseI64_nat hy (hy'.trans_lt hmax), orElseError,
    bind, Except.bind, pure, Except.pure, int32_ofInt_nat hx', int32_ofInt_nat hy', StrongId.parse_value, Position.fromMm_mm]

theorem parsePayload_removed {p : RemoveDancerPayload} (hdancer : fields.lookup "dancer" = some p.dancerId.value) :
    parsePayload fields choreographyId .dancerRemoved = .ok (.removed p) := by
  simp only [parsePayload, requireField_ok hdancer, bind, Except.bind, pure, Except.pure, StrongId.parse_value]

theorem parsePayload_formation {type : EventType} {p : FormationPayload}
    (htype : type = .formationDefined ∨ type = .formationChanged)
    (hformation : fields.lookup "formation" = some p.formationId.value)
    (hmembers : fields.lookup "members" = some (writeMembers p.members)) :
    parsePayload fields choreographyId type = .ok (.formation p) := by
  rcases htype with rfl | rfl <;>
  simp only [parsePayload, requireField_ok hformation, requireField_ok hmembers, orElseError, bind, Except.bind, pure, Except.pure,
    StrongId.parse_value, parseMembers_write]

theorem parsePayload_cue {type : EventType} {p : CuePayload}
    (htype : type = .musicCueTriggered ∨ type = .lightingCueTriggered) (hcue : fields.lookup "cue" = some p.cueId.value)
    (hdepends : fields.lookup "depends" = some ((p.dependsOn.map (·.value)).getD "")) :
    parsePayload fields choreographyId type = .ok (.cue p) := by
  obtain ⟨cueId, dependsOn⟩ := p
  rcases htype with rfl | rfl <;>
  · simp only [parsePayload, requireField_ok hcue, bind, Except.bind, pure, Except.pure, StrongId.parse_value, hdepends]
    cases dependsOn with
    | none => rfl
    | some id =>
      -- An identifier is never the empty word that stands for a missing one.
      have hne := id.ne_empty
      simp only [Option.map_some, Option.getD_some, StrongId.parse_value]

end Payload

theorem parsePayload_fields {event : Event} (h : event.Matches) :
    parsePayload (eventFields event) event.choreographyId event.type = .ok event.reread.payload := by
  obtain ⟨id, commandId, choreographyId, type, schemaVersion, tick, index, term, payload⟩ := event
  cases type with
  | choreographyCreated =>
    cases payload with
    | create p => exact parsePayload_create rfl rfl rfl rfl
    | _ => cases h
  | dancerAdded =>
    cases payload with
    | dancer p => exact parsePayload_dancer (.inl rfl) rfl rfl rfl
    | _ => cases h
  | dancerMoved =>
    cases payload with
    | dancer p => exact parsePayload_dancer (.inr rfl) rfl rfl rfl
    | _ => cases h
  | dancerRemoved =>
    cases payload with
    | removed p => exact parsePayload_removed rfl
    | _ => cases h
  | formationDefined =>
    cases payload with
    | formation p => exact parsePayload_formation (.inl rfl) rfl rfl
    | _ => cases h
  | formationChanged =>
    cases payload with
    | formation p => exact parsePayload_formation (.inr rfl) rfl rfl
    | _ => cases h
  | musicCueTriggered =>
    cases payload with
    | cue p => exact parsePayload_cue (.inl rfl) rfl rfl
    | _ => cases h
  | lightingCueTriggered =>
    cases payload with
    | cue p => exact parsePayload_cue (.inr rfl) rfl rfl
    | _ => cases h
  | noOp => rfl

/-- The text of an event parses, to the event up to the payload. -/
theorem parseEvent_canonicalEvent {event : Event} (fits : event.Fits) (h : event.Matches) :
    parseEvent (canonicalEvent event) = .ok event.reread := by
  have hbound : event.schemaVersion.toNat < 2 ^ 64 := event.schemaVersion.toNat_lt.trans (by decide)
  have hpositive : parseTerm event.term = .ok event.term := if_neg fits.positive.ne'
  have hschema : (eventFields event).lookup "schema" = some (toString event.schemaVersion.toNat) := rfl
  have htype : (eventFields event).lookup "type" = some (eventTypeName event.type) := rfl
  have hevent : (eventFields event).lookup "event" = some event.id.value := rfl
  have hcmd : (eventFields event).lookup "cmd" = some event.commandId.value := rfl
  have hchoreo : (eventFields event).lookup "choreo" = some event.choreographyId.value := rfl
  have htick : (eventFields event).lookup "tick" = some (toString event.tick.ticks) := rfl
  have hterm : (eventFields event).lookup "term" = some (toString event.term) := rfl
  unfold parseEvent
  rw [parseFields_canonicalEvent]
  simp only [bind, Except.bind, pure, Except.pure, orElseError, parseU64_ok hschema hbound, requireField_ok htype,
    requireField_ok hevent, requireField_ok hcmd, requireField_ok hchoreo, parseI64_nat htick event.tick.bound,
    parseU64_ok (lookup_index event) fits.index, parseU64_ok hterm fits.term, parseEventType_name, StrongId.parse_value,
    MusicalTick.fromTicks_ticks, hpositive, parsePayload_fields h, UInt16.ofNat_toNat]
  rfl

end Choreolog.State
