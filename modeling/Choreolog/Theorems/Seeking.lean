import Choreolog.Theorems.Retries

/-! # Seeking to a count

The state at a musical tick is found by replaying the events of the log up to that tick. The events were
accepted in the order of the log, which need not be the order of their ticks. -/

namespace Choreolog.State
open Lib

/-! ### Playing events -/

/-- What an event does to the domain, with no check of its index and of earlier events. -/
def Domain.play (d : Domain) (event : Event) : Result Domain := do
  let d ← d.mutate event
  return { d with lastApplied := event.index, term := event.term }

/-- The events are new to the state, and differ in their indexes and commands. -/
structure Ahead (s : ChoreographyState) (events : List Event) : Prop where
  new : ∀ e ∈ events, existingEvent s e = .ok false ∧ s.lastApplied < e.index
  schema : ∀ e ∈ events, requireSchema e.schemaVersion = .ok ()
  order : events.Pairwise fun e f => e.index < f.index ∧ e.id ≠ f.id ∧ e.commandId ≠ f.commandId

namespace Ahead
variable {s : ChoreographyState} {event : Event} {events : List Event}

theorem applyAgainst (h : Ahead s (event :: events)) :
    State.applyAgainst s event .monotonic none = (s.toDomain.mutate event).map (record s · event) := by
  obtain ⟨hnew, hlater⟩ := h.new event List.mem_cons_self
  unfold State.applyAgainst checkIndex
  rw [h.schema event List.mem_cons_self, hnew, if_pos hlater]
  cases s.toDomain.mutate event with
  | error e => rfl
  | ok d => rfl

theorem tail (h : Ahead s (event :: events)) (d : Domain) : Ahead (record s d event) events := by
  obtain ⟨hfirst, horder⟩ := List.pairwise_cons.mp h.order
  refine ⟨fun e he => ?_, fun e he => h.schema e (List.mem_cons_of_mem _ he), horder⟩
  obtain ⟨hindex, hid, hcommand⟩ := hfirst e he
  obtain ⟨htext, hunknown⟩ := existingEvent_new_iff.mp (h.new e (List.mem_cons_of_mem _ he)).1
  have hnone := (existingEvent_new_iff.mp (h.new event List.mem_cons_self).1).1
  refine ⟨existingEvent_new_iff.mpr ⟨?_, ?_⟩, hindex⟩
  · rw [find?_appliedEvents_record hnone, if_neg fun heq => hid (StrongId.ext heq), htext]
  · intro hknows
    rcases knows_record.mp hknows with heq | hknows
    · exact hcommand (StrongId.ext heq).symm
    · exact hunknown hknows

/-- Replaying them is playing them. -/
theorem foldlM_applyAgainst (h : Ahead s events) :
    (events.foldlM (fun s e => State.applyAgainst s e .monotonic none) s).map (·.toDomain) = events.foldlM Domain.play s.toDomain := by
  induction events generalizing s with
  | nil => rfl
  | cons event events ih =>
    rw [List.foldlM_cons, List.foldlM_cons, h.applyAgainst]
    unfold Domain.play
    cases s.toDomain.mutate event with
    | error e => rfl
    | ok d => exact ih (h.tail d)

end Ahead

namespace Engine
variable {engine : Engine}

/-! ### Logs of accepted commands -/

/-- The engines whose whole history is of accepted commands. -/
inductive Submitted : Engine → Prop
  | start : Submitted {}
  | submit {before after : Engine} {result : SubmitResult} (built : Submitted before) (command : Command)
      (submitted : before.submit command = .ok (after, result)) : Submitted after

/-- The log has every event from the first on, each of a command of its own. -/
structure Whole (engine : Engine) : Prop where
  past : Past engine.state
  indexed : Indexed engine.events
  last : engine.state.lastApplied = engine.events.length
  known : ∀ e ∈ engine.events, engine.state.Knows e.commandId.value
  own : ∀ e ∈ engine.events, e.id.value = e.commandId.value
  schema : ∀ e ∈ engine.events, requireSchema e.schemaVersion = .ok ()
  distinct : engine.events.Pairwise fun e f => e.commandId ≠ f.commandId
  plays : engine.events.foldlM Domain.play {} = .ok engine.state.toDomain

theorem Submitted.whole (h : Submitted engine) : Whole engine := by
  induction h with
  | start => exact ⟨⟨nofun, nofun⟩, nofun, rfl, nofun, nofun, nofun, .nil, rfl⟩
  | @submit before after result built command submitted ih =>
    rcases submit_cases ih.past submitted with ⟨-, rfl, -⟩ | ⟨d, -, hproposed, hnew, hd, rfl⟩
    · exact ih
    · have hnext := hproposed.index_eq
      have hcommand := hproposed.commandId_eq
      refine ⟨ih.past.record (by omega) hnew, ih.indexed.append (by rw [hnext, ih.last]), ?_, ?_, ?_, ?_, ?_, ?_⟩
      · change result.event.index = _
        rw [hnext, ih.last, List.length_append]
        rfl
      · rintro e he
        rw [knows_record]
        rcases List.mem_append.mp he with he | he
        · exact .inr (ih.known e he)
        · exact .inl (by rw [List.mem_singleton.mp he])
      · rintro e he
        rcases List.mem_append.mp he with he | he
        · exact ih.own e he
        · rw [List.mem_singleton.mp he, hproposed.id_eq, hcommand]
      · rintro e he
        rcases List.mem_append.mp he with he | he
        · exact ih.schema e he
        · rw [List.mem_singleton.mp he, hproposed.made]
          exact hproposed.schema
      · refine List.pairwise_append.mpr ⟨ih.distinct, List.pairwise_singleton _ _, fun e he f hf heq => ?_⟩
        rw [List.mem_singleton.mp hf, hcommand] at heq
        exact hproposed.unknown (heq ▸ ih.known e he)
      · rw [List.foldlM_append, ih.plays]
        change ((before.state.toDomain.mutate result.event >>= _) >>= _) = _
        rw [hd]
        rfl

/-- The events of the log up to a tick. -/
def upTo (engine : Engine) (tick : MusicalTick) : List Event := engine.events.filter fun e => e.tick.ticks ≤ tick.ticks

/-- Seeking returns the state that the events of the log up to the tick give, in their order. -/
def Seeks (engine : Engine) (tick : MusicalTick) : Prop :=
  ∃ s, engine.replayThrough (some tick) none = .ok s ∧
    (engine.upTo tick).foldlM (fun s e => applyAgainst s e .monotonic none) {} = .ok s

namespace Whole

theorem complete (h : Whole engine) : engine.complete = true := by
  unfold Engine.complete
  cases hevents : engine.events with
  | nil => simp [h.last, hevents]
  | cons first events => simpa using h.indexed 0 first (by rw [hevents]; rfl)

theorem ahead (h : Whole engine) (tick : MusicalTick) : Ahead {} (engine.upTo tick) := by
  have hmem : ∀ e ∈ engine.upTo tick, e ∈ engine.events := fun e he => List.mem_of_mem_filter he
  refine ⟨fun e he => ⟨rfl, ?_⟩, fun e he => h.schema e (hmem e he), ?_⟩
  · obtain ⟨i, hi, rfl⟩ := List.mem_iff_getElem.mp (hmem e he)
    rw [h.indexed i _ (List.getElem?_eq_getElem hi)]
    exact Nat.succ_pos i
  · refine List.Pairwise.filter _ (List.pairwise_iff_getElem.mpr fun i j hi hj hij => ?_)
    have hne := List.pairwise_iff_getElem.mp h.distinct i j hi hj hij
    refine ⟨?_, fun heq => hne (StrongId.ext ?_), hne⟩
    · rw [h.indexed i _ (List.getElem?_eq_getElem hi), h.indexed j _ (List.getElem?_eq_getElem hj)]
      omega
    · rw [← h.own _ (List.getElem_mem hi), ← h.own _ (List.getElem_mem hj), heq]

/-- Seeking is replaying the events up to the tick. -/
theorem replayThrough (h : Whole engine) (tick : MusicalTick) :
    engine.replayThrough (some tick) none = (engine.upTo tick).foldlM (fun s e => applyAgainst s e .monotonic none) {} := by
  unfold Engine.replayThrough replay upTo
  rw [if_pos h.complete, List.foldlM_filter]
  refine congrArg (fun f => List.foldlM f ({} : ChoreographyState) engine.events) (funext fun s => funext fun e => ?_)
  simp only [Option.any_some, Option.any_none, Bool.or_false, decide_eq_true_eq, Option.isSome_some, Bool.true_or, if_true]
  split
  · rename_i hlate
    rw [if_neg (not_le.mpr hlate)]
    rfl
  · rename_i hlate
    rw [if_pos (not_lt.mp hlate)]

theorem seeks_iff (h : Whole engine) (tick : MusicalTick) : Seeks engine tick ↔ ∃ d, (engine.upTo tick).foldlM Domain.play {} = .ok d := by
  have hfold := (h.ahead tick).foldlM_applyAgainst
  unfold Seeks
  rw [h.replayThrough tick]
  change _ = List.foldlM Domain.play {} _ at hfold
  rw [← hfold]
  cases (engine.upTo tick).foldlM (fun s e => applyAgainst s e .monotonic none) {} with
  | error e => exact iff_of_false (fun ⟨s, hs, _⟩ => nomatch hs) (fun ⟨d, hd⟩ => nomatch hd)
  | ok s => exact iff_of_true ⟨s, rfl, rfl⟩ ⟨_, rfl⟩

end Whole

/-- The engine after a command, accepted or not. -/
def after (engine : Engine) (command : Command) : Engine :=
  match engine.submit command with
  | .ok (engine, _) => engine
  | .error _ => engine

theorem Submitted.after (h : Submitted engine) (command : Command) : Submitted (engine.after command) := by
  unfold Engine.after
  split
  · rename_i submitted
    exact h.submit command submitted
  · exact h

/-- A choreography that is created at count 10, in which a dancer enters at count 5. -/
def createLate : Command := { creating ⟨"c", Eq.refl true⟩ ⟨"show", Eq.refl true⟩ ⟨"show", Eq.refl true⟩ with tick := ⟨10, by decide⟩ }

def enterEarly : Command :=
  { id := ⟨"d", Eq.refl true⟩, choreographyId := ⟨"show", Eq.refl true⟩, type := .addDancer, schemaVersion := currentSchemaVersion
    tick := ⟨5, by decide⟩, payload := .dancer ⟨⟨"ann", Eq.refl true⟩, ⟨⟨0, Nat.zero_le _⟩, ⟨0, Nat.zero_le _⟩⟩⟩ }

def late : Engine := (({} : Engine).after createLate).after enterEarly

theorem submitted_late : Submitted late := (Submitted.start.after createLate).after enterEarly

end Engine

end Choreolog.State
