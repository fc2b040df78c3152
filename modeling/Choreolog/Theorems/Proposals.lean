import Choreolog.Theorems.View

/-! # Proposals

A proposal is validated on a copy of the domain that has no history. What it returns applies to the state
unless the id of the command is the event id of a no-op, and its text is read back as the event unless the
command creates a choreography under another id than its own. -/

namespace Choreolog.State
open Lib

/-! ### What a proposal has checked -/

structure Proposed (s : ChoreographyState) (command : Command) (event : Event) : Prop where
  schema : requireSchema command.schemaVersion = .ok ()
  unknown : ¬s.Knows command.id.value
  made : event = makeEvent command (s.lastApplied + 1) s.term (normalizePayload command.payload)
  mutates : ∃ d, s.toDomain.mutate event = .ok d

theorem propose_cases {s : ChoreographyState} {command : Command} {event : Event} (h : propose s command = .ok event) :
    Proposed s command event := by
  have hunknown : ¬s.Knows command.id.value := by
    intro hknown
    by_cases hschema : command.schemaVersion = currentSchemaVersion
    · rw [propose_known hknown hschema] at h
      cases h
    · rw [propose_schema hschema] at h
      cases h
  rw [propose_unknown hunknown] at h
  obtain ⟨_, hschema, h⟩ := bind_ok h
  -- Whatever the type, the copy has applied the event.
  have hlast : ∃ t, apply { toDomain := s.toDomain } (makeEvent command (s.lastApplied + 1) s.term (normalizePayload command.payload)) = .ok t ∧
      event = makeEvent command (s.lastApplied + 1) s.term (normalizePayload command.payload) := by
    change (if command.type ≠ .createChoreography then _ else _) = _ at h
    split at h
    · obtain ⟨_, -, h⟩ := bind_ok h
      split at h
      · cases h
      · obtain ⟨t, ht, h⟩ := bind_ok h
        exact ⟨t, ht, (Except.ok.inj h).symm⟩
    · split at h
      · cases h
      · obtain ⟨t, ht, h⟩ := bind_ok h
        exact ⟨t, ht, (Except.ok.inj h).symm⟩
  obtain ⟨t, ht, rfl⟩ := hlast
  have hfresh : existingEvent { toDomain := s.toDomain } (makeEvent command (s.lastApplied + 1) s.term (normalizePayload command.payload)) ≠
      .ok true := nofun
  obtain ⟨-, -, d, hd, -⟩ := (apply_next_iff rfl hfresh).mp ht
  exact ⟨hschema, hunknown, rfl, d, hd⟩

namespace Proposed
variable {s : ChoreographyState} {command : Command} {event : Event}

theorem id_eq (h : Proposed s command event) : event.id.value = command.id.value := by rw [h.made]; rfl

theorem commandId_eq (h : Proposed s command event) : event.commandId = command.id := by rw [h.made]; rfl

theorem index_eq (h : Proposed s command event) : event.index = s.lastApplied + 1 := by rw [h.made]; rfl

theorem fits (h : Proposed s command event) (regular : Regular s) (short : s.lastApplied + 1 < 2 ^ 64) : event.Fits := by
  rw [h.made]
  exact ⟨short, regular.term, regular.termPos⟩

theorem type_ne_noOp (h : Proposed s command event) : event.type ≠ .noOp := by
  rw [h.made]
  change eventTypeFor command.type ≠ .noOp
  cases command.type <;> exact nofun

end Proposed

/-- The term of an event decides nothing. -/
theorem mutate_restamped {d : Domain} {event : Event} (term : Nat) (h : ∃ d', d.mutate event = .ok d') :
    ∃ d', d.mutate { event with term } = .ok d' := by
  obtain ⟨d', hd'⟩ := h
  obtain ⟨id, commandId, choreographyId, type, schemaVersion, tick, index, term', payload⟩ := event
  cases type with
  | choreographyCreated =>
    cases payload with
    | create p =>
      change d.applyCreate _ p = .ok d' at hd'
      change ∃ d', d.applyCreate _ p = .ok d'
      unfold Domain.applyCreate at hd' ⊢
      split at hd'
      · cases hd'
      · rename_i hcreated
        split at hd'
        · cases hd'
        · rename_i htravel
          rw [if_neg hcreated, if_neg htravel]
          exact ⟨_, rfl⟩
    | _ => cases hd'
  | _ => cases payload <;> exact ⟨d', hd'⟩

/-! ### Histories that the runtime produces -/

/-- The ids of the no-op with which a leader opens its term. The event id has the name of the node in
    `Replica::become_leader` and not in `CoreReplica::noop`. -/
def NoOpIds (event : Event) : Prop :=
  event.commandId.value = "noop-" ++ (toString event.term ++ "-" ++ toString event.index) ∧
    ((∃ node, event.id.value = "noop-" ++ node ++ "-" ++ (toString event.term ++ "-" ++ toString event.index)) ∨
      event.id.value = "noop-" ++ (toString event.term ++ "-" ++ toString event.index))

/-- The events that the runtime makes: proposals, whose term may be a newer one, and no-ops. -/
inductive Made : Event → Prop
  | proposal {s : ChoreographyState} {command : Command} {event : Event} {term : Nat} (proposed : propose s command = .ok event)
      (newer : event.term ≤ term) : Made { event with term }
  | noOp {event : Event} (type : event.type = .noOp) (ids : NoOpIds event) : Made event

/-- The state that the runtime's events lead to. -/
inductive Produced : List Event → ChoreographyState → Prop
  | empty : Produced [] {}
  | event {events : List Event} {s t : ChoreographyState} {event : Event} (produced : Produced events s) (made : Made event)
      (applied : apply s event = .ok t) : Produced (events ++ [event]) t

theorem Made.id_eq {event : Event} (h : Made event) (type : event.type ≠ .noOp) : event.id.value = event.commandId.value := by
  cases h with
  | proposal proposed newer =>
    have hproposed := propose_cases proposed
    exact hproposed.id_eq.trans (congrArg StrongId.value hproposed.commandId_eq).symm
  | noOp htype => exact absurd htype type

/-- Every event id is that of a known command or of a no-op. -/
structure Owned (events : List Event) (s : ChoreographyState) : Prop where
  past : Past s
  owners : ∀ x text, s.appliedEvents.find? x = some text → s.Knows x ∨ ∃ e ∈ events, e.type = .noOp ∧ e.id.value = x
  noOps : ∀ e ∈ events, e.type = .noOp → (s.appliedEvents.find? e.id.value).isSome = true

theorem Owned.start : Owned [] {} := ⟨⟨nofun, nofun⟩, nofun, List.forall_mem_nil _⟩

theorem Owned.event {events : List Event} {s t : ChoreographyState} {event : Event} (h : Owned events s) (made : Made event)
    (applied : apply s event = .ok t) : Owned (events ++ [event]) t := by
  have hkeep : ∀ {x : String}, (∃ e ∈ events, e.type = .noOp ∧ e.id.value = x) → ∃ e ∈ events ++ [event], e.type = .noOp ∧ e.id.value = x :=
    fun ⟨e, he, hx⟩ => ⟨e, List.mem_append_left _ he, hx⟩
  cases applyAgainst_cases applied with
  | known known =>
    refine ⟨h.past, fun x text hx => (h.owners x text hx).imp_right hkeep, fun e he htype => ?_⟩
    rcases List.mem_append.mp he with he | he
    · exact h.noOps e he htype
    · -- A no-op is known by its event id only.
      obtain rfl := List.mem_singleton.mp he
      unfold existingEvent at known
      split at known
      · rename_i text htext
        rw [htext]
        rfl
      · split at known
        · rw [if_neg (fun hcontra => hcontra.1 htype)] at known
          cases known
        · split at known <;> cases known
  | fresh d new later index mutated =>
    have hnone := (existingEvent_new_iff.mp new).1
    refine ⟨h.past.record later new, fun x text hx => ?_, fun e he htype => ?_⟩
    · rw [find?_appliedEvents_record hnone] at hx
      split at hx
      · rename_i heq
        by_cases htype : event.type = .noOp
        · exact .inr ⟨event, List.mem_append_right _ List.mem_cons_self, htype, heq⟩
        · exact .inl (knows_record.mpr (.inl (heq.symm.trans (made.id_eq htype))))
      · exact (h.owners x text hx).imp (fun hknows => knows_record.mpr (.inr hknows)) hkeep
    · rw [find?_appliedEvents_record hnone]
      split
      · rfl
      · rename_i hne
        rcases List.mem_append.mp he with he | he
        · exact h.noOps e he htype
        · obtain rfl := List.mem_singleton.mp he
          exact absurd rfl hne

theorem Produced.owned {events : List Event} {s : ChoreographyState} (h : Produced events s) : Owned events s := by
  induction h with
  | empty => exact .start
  | event _ made applied ih => exact ih.event made applied

/-- What is proposed applies, under whatever term, if and only if no no-op has the command's id for its event
    id. -/
theorem proposal_applies_iff {events : List Event} {s : ChoreographyState} (produced : Produced events s) {command : Command} {event : Event}
    (proposed : propose s command = .ok event) (term : Nat) :
    (∃ t, apply s { event with term } = .ok t) ↔ ∀ e ∈ events, e.type = .noOp → e.id.value ≠ command.id.value := by
  have howned := produced.owned
  have hproposed := propose_cases proposed
  have hnext : ({ event with term } : Event).index = s.lastApplied + 1 := hproposed.index_eq
  have hschema : requireSchema event.schemaVersion = .ok () := by
    rw [hproposed.made]
    exact hproposed.schema
  have happly : (∃ t, apply s { event with term } = .ok t) ↔ s.appliedEvents.find? command.id.value = none := by
    constructor
    · rintro ⟨t, ht⟩
      obtain ⟨-, hnew, -⟩ := (howned.past.apply_iff hnext).mp ht
      exact hproposed.id_eq ▸ (existingEvent_new_iff.mp hnew).1
    · intro hnone
      obtain ⟨d, hd⟩ := mutate_restamped term hproposed.mutates
      refine ⟨_, (howned.past.apply_iff hnext).mpr ⟨hschema, existingEvent_new_iff.mpr ⟨?_, ?_⟩, d, hd, rfl⟩⟩
      · exact hproposed.id_eq ▸ hnone
      · exact hproposed.commandId_eq ▸ hproposed.unknown
  rw [happly]
  constructor
  · intro hnone e he htype heq
    have hsome := howned.noOps e he htype
    rw [heq, hnone] at hsome
    cases hsome
  · intro hne
    by_contra hsome
    obtain ⟨text, htext⟩ := Option.ne_none_iff_exists'.mp hsome
    rcases howned.owners _ _ htext with hknows | ⟨e, he, htype, heq⟩
    · exact hproposed.unknown hknows
    · exact hne e he htype heq

/-- The no-op of the node `a`, which leads in term 2, as `Replica::become_leader` names it. -/
def leaderNoOp : Event :=
  { id := ⟨"noop-a-2-1", Eq.refl true⟩, commandId := ⟨"noop-2-1", Eq.refl true⟩, choreographyId := ⟨"system", Eq.refl true⟩, type := .noOp
    schemaVersion := currentSchemaVersion, tick := ⟨0, MusicalTick.zero_lt⟩, index := 1, term := 2
    payload := .create ⟨⟨"system", Eq.refl true⟩, unitStage, .forbidden, 0⟩ }

/-- The state after it. -/
def led : ChoreographyState := record {} {} leaderNoOp

theorem produced_led : Produced [leaderNoOp] led :=
  .event .empty (.noOp rfl ⟨by decide, .inl ⟨"a", by decide⟩⟩) (by decide +kernel)

/-- A command that creates a choreography. -/
def creating (id : CommandId) (choreographyId payloadId : ChoreographyId) : Command :=
  { id, choreographyId, type := .createChoreography, schemaVersion := currentSchemaVersion, tick := ⟨0, MusicalTick.zero_lt⟩
    payload := .create ⟨payloadId, unitStage, .forbidden, 0⟩ }

/-- The event that it is proposed as after the no-op. -/
def createdEvent (id : CommandId) : Event :=
  makeEvent (creating id ⟨"show", Eq.refl true⟩ ⟨"show", Eq.refl true⟩) 2 2 (.create ⟨⟨"show", Eq.refl true⟩, unitStage, .forbidden, 0⟩)

theorem propose_led : propose led (creating ⟨"c", by decide⟩ ⟨"show", by decide⟩ ⟨"show", by decide⟩) =
    .ok (createdEvent ⟨"c", by decide⟩) := by
  decide +kernel

theorem proposal_applies_led : ∃ t, apply led { createdEvent ⟨"c", by decide⟩ with term := 3 } = .ok t :=
  (proposal_applies_iff produced_led propose_led 3).mpr (by decide)

/-- A command with the event id of the no-op is proposed, and its event is refused. -/
theorem proposal_conflicts : Produced [leaderNoOp] led ∧
    propose led (creating ⟨"noop-a-2-1", by decide⟩ ⟨"show", by decide⟩ ⟨"show", by decide⟩) = .ok (createdEvent ⟨"noop-a-2-1", by decide⟩) ∧
    apply led (createdEvent ⟨"noop-a-2-1", by decide⟩) = .error ⟨.conflictingEvent, "event id was reused with different content"⟩ :=
  ⟨produced_led, by decide +kernel, by decide +kernel⟩

/-! ### The text of a proposal -/

theorem Event.reread_eq_iff {event : Event} (matching : event.Matches) (type : event.type ≠ .noOp) :
    event.reread = event ↔ ∀ p, event.payload = .create p → p.choreographyId = event.choreographyId := by
  obtain ⟨id, commandId, choreographyId, type', schemaVersion, tick, index, term, payload⟩ := event
  cases payload with
  | create p =>
    cases type' with
    | choreographyCreated =>
      obtain ⟨payloadId, stage, overlap, maxTravelMm⟩ := p
      constructor
      · intro heq q hq
        cases hq
        exact (CreateChoreographyPayload.mk.inj (Payload.create.inj (Event.mk.inj heq).2.2.2.2.2.2.2.2)).1.symm
      · intro h
        obtain rfl := h _ rfl
        rfl
    | noOp => exact absurd rfl type
    | _ => cases matching
  | _ =>
    refine ⟨fun _ p hp => (nomatch hp), fun _ => ?_⟩
    cases type' with
    | noOp => exact absurd rfl type
    | choreographyCreated => cases matching
    | _ => rfl

/-- The event that is read back from the text of a proposal is the proposal, and does to every state what it
    does, if and only if a command that creates a choreography names it as it is named itself. -/
theorem proposal_text_iff {s : ChoreographyState} {command : Command} {event : Event} (proposed : propose s command = .ok event)
    (fits : event.Fits) : (parseEvent (canonicalEvent event) = .ok event ∧
      ∀ t stored, parseEvent (canonicalEvent event) = .ok stored → apply t stored = apply t event) ↔
      ∀ p, command.payload = .create p → p.choreographyId = command.choreographyId := by
  have hproposed := propose_cases proposed
  obtain ⟨d, hd⟩ := hproposed.mutates
  have hmatches := (Domain.mutate_cases hd).2
  have hparse := parseEvent_canonicalEvent fits hmatches
  have hpayload : ∀ p, event.payload = .create p ↔ command.payload = .create p := by
    intro p
    rw [hproposed.made]
    change normalizePayload command.payload = .create p ↔ _
    cases command.payload with
    | formation => exact ⟨nofun, nofun⟩
    | _ => exact Iff.rfl
  have hchoreography : event.choreographyId = command.choreographyId := by
    rw [hproposed.made]
    rfl
  have hreread := Event.reread_eq_iff hmatches hproposed.type_ne_noOp
  simp only [hpayload, hchoreography] at hreread
  rw [← hreread, hparse]
  constructor
  · exact fun h => Except.ok.inj h.1
  · intro heq
    refine ⟨congrArg _ heq, fun t stored hstored => ?_⟩
    rw [← Except.ok.inj hstored, heq]

theorem proposal_text_show : parseEvent (canonicalEvent (createdEvent ⟨"c", by decide⟩)) = .ok (createdEvent ⟨"c", by decide⟩) :=
  ((proposal_text_iff propose_led ⟨by decide, by decide, by decide⟩).mpr fun p hp => by cases hp; rfl).1

/-- The creation of `shown` under the id `show`. -/
def misnamed : Event :=
  makeEvent (creating ⟨"c", Eq.refl true⟩ ⟨"show", Eq.refl true⟩ ⟨"shown", Eq.refl true⟩) 1 1 (.create ⟨⟨"shown", Eq.refl true⟩, unitStage, .forbidden, 0⟩)

/-- It is proposed, and its text is read as the creation of `show`: the state that applied it in memory and the
    one that reads it back have different choreographies. -/
theorem proposal_renamed : propose {} (creating ⟨"c", by decide⟩ ⟨"show", by decide⟩ ⟨"shown", by decide⟩) = .ok misnamed ∧
    parseEvent (canonicalEvent misnamed) = .ok misnamed.reread ∧
    ((apply {} misnamed).toOption.map (·.id)) = some (some ⟨"shown", by decide⟩) ∧
    ((apply {} misnamed.reread).toOption.map (·.id)) = some (some ⟨"show", by decide⟩) :=
  ⟨by decide +kernel, parseEvent_canonicalEvent ⟨by decide, by decide, by decide⟩ trivial, by decide +kernel, by decide +kernel⟩

end Choreolog.State
