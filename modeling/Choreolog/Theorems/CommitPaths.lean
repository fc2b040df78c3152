import Choreolog.Theorems.Retries

/-! # Batches and single commits

A batch is staged on a copy of the domain and then merged into the engine; the same events can be committed
one by one. Both accept the same events and end in the same engine, but for one kind of event: its id has
been applied with other content, and all else is a repetition of an earlier event of the batch. -/

namespace Choreolog.State
open Lib

theorem eventFields_of_canonicalEvent_eq {a b : Event} (h : canonicalEvent a = canonicalEvent b) : eventFields a = eventFields b := by
  have hfields := parseFields_canonicalEvent b
  rw [← h, parseFields_canonicalEvent a] at hfields
  exact Except.ok.inj hfields

theorem commandId_of_canonicalEvent_eq {a b : Event} (h : canonicalEvent a = canonicalEvent b) : a.commandId = b.commandId := by
  have hlookup : ∀ e : Event, (eventFields e).lookup "cmd" = some e.commandId.value := fun _ => rfl
  have htext := congrArg (List.lookup "cmd") (eventFields_of_canonicalEvent_eq h)
  rw [hlookup, hlookup] at htext
  exact StrongId.ext (Option.some.inj htext)

/-! ### Snapshots -/

namespace Restoring

/-- A line that adds no text of an event. -/
def Plain (r : Restoring) (result : Result (Restoring × Text.Stream)) : Prop :=
  ∀ out, result = .ok out → out.1.state.appliedEvents = r.state.appliedEvents ∧ out.1.version = r.version

section Plain
variable {r : Restoring} {a b : Result (Restoring × Text.Stream)}

theorem Plain.error (e : Error) : Plain r (.error e) := nofun

theorem Plain.ok {r' : Restoring} {fields : Text.Stream} (events : r'.state.appliedEvents = r.state.appliedEvents)
    (version : r'.version = r.version) : Plain r (.ok (r', fields)) := by
  rintro _ ⟨⟩
  exact ⟨events, version⟩

theorem Plain.bind {α : Type} {x : Result α} {f : α → Result (Restoring × Text.Stream)} (h : ∀ y, Plain r (f y)) : Plain r (x >>= f) := by
  intro out hout
  obtain ⟨y, -, hy⟩ := bind_ok hout
  exact h y out hy

theorem Plain.ite {p : Prop} [Decidable p] (left : p → Plain r a) (right : Plain r b) : Plain r (if p then a else b) := by
  split
  · rename_i hp
    exact left hp
  · exact right

/-- Only a line of the second format has the text of an event. -/
theorem plain_restoreField {version : String} (other : version ≠ "2") (key : List Char) (fields : Text.Stream) :
    Plain r (r.restoreField version key fields) := by
  unfold restoreField
  refine .ite (fun _ => .ite (fun _ => .ok rfl rfl) (.error _)) ?_
  refine .ite (fun _ => .ok rfl rfl) ?_
  refine .ite (fun _ => .ite (fun _ => .ok rfl rfl) (.bind fun _ => .ok rfl rfl)) ?_
  refine .ite (fun _ => .ite (fun _ => .ok rfl rfl) (.bind fun _ => .ok rfl rfl)) ?_
  refine .ite (fun _ => .bind fun _ => .ok rfl rfl) ?_
  refine .ite (fun _ => .ok rfl rfl) ?_
  refine .ite (fun _ => .ok rfl rfl) ?_
  refine .ite (fun _ => .bind fun _ => .ok rfl rfl) ?_
  refine .ite (fun _ => .bind fun _ => .ok rfl rfl) ?_
  refine .ite (fun _ => .bind fun _ => .ok rfl rfl) ?_
  refine .ite (fun _ => .bind fun _ => .ok rfl rfl) ?_
  refine .ite (fun _ => .bind fun _ => .ok rfl rfl) ?_
  refine .ite (fun _ => .ite (fun _ => .error _) (.ok rfl rfl)) ?_
  refine .ite (fun _ => .ite (fun _ => .error _) (.ok rfl rfl)) ?_
  refine .ite (fun _ => ?_) ?_
  · unfold restoreReceipt
    dsimp only
    split
    · exact .ite (fun _ => .error _) (.ok rfl rfl)
    · exact .error _
  refine .ite (fun _ => .ite (fun _ => .error _) (.ok rfl rfl)) ?_
  exact .ite (fun h => absurd h.2 other) (.ite (fun _ => .ok rfl rfl) (.error _))

end Plain

theorem restoreLine_events {r r' : Restoring} {version : String} (known : r.version = some version) (other : version ≠ "2") {line : List Char}
    (h : r.restoreLine line = .ok r') : r'.state.appliedEvents = r.state.appliedEvents ∧ r'.version = some version := by
  unfold restoreLine at h
  rw [known] at h
  obtain ⟨out, hout, h⟩ := bind_ok h
  dsimp only at h
  split at h
  · cases h
  · cases h
    exact known ▸ plain_restoreField other _ _ out hout

theorem restoreLines_events {r r' : Restoring} {version : String} (known : r.version = some version) (other : version ≠ "2")
    {lines : List (List Char)} (h : lines.foldlM restoreLine r = .ok r') : r'.state.appliedEvents = r.state.appliedEvents := by
  induction lines generalizing r with
  | nil =>
    cases h
    rfl
  | cons line lines ih =>
    obtain ⟨next, hnext, h⟩ := bind_ok h
    obtain ⟨hevents, hversion⟩ := restoreLine_events known other hnext
    exact (ih hversion h).trans hevents

end Restoring

/-- A snapshot that an engine writes has no texts. -/
theorem restoreState_events {s t : ChoreographyState} (h : restoreState (snapshotPayload s) = .ok t) : t.appliedEvents = .empty := by
  have hpayload : ∃ rest, (snapshotPayload s).toList = "snapshot-state 3".toList ++ '\n' :: rest := by
    unfold snapshotPayload
    rw [String.toList_ofList]
    exact ⟨_, rfl⟩
  obtain ⟨rest, hrest⟩ := hpayload
  have hlines : ∃ lines, Text.getlines '\n' (snapshotPayload s).toList = "snapshot-state 3".toList :: lines := by
    unfold Text.getlines
    have hfirst : ∀ x ∈ "snapshot-state 3".toList, (x == '\n') = false := by decide
    rw [hrest, List.splitOn, List.splitOnP_append_cons_of_forall_mem hfirst _ rfl]
    obtain ⟨piece, pieces, hpieces⟩ := List.exists_cons_of_ne_nil (List.splitOnP_ne_nil (· == '\n') rest)
    rw [hpieces]
    dsimp only
    split
    · exact ⟨_, rfl⟩
    · exact ⟨_, rfl⟩
  obtain ⟨lines, hlines⟩ := hlines
  unfold restoreState at h
  rw [hlines] at h
  obtain ⟨r, hr, h⟩ := bind_ok h
  obtain ⟨next, hnext, hr⟩ := bind_ok hr
  have hheader : Restoring.restoreLine {} "snapshot-state 3".toList = .ok { version := some "3" } := by decide +kernel
  obtain rfl := Except.ok.inj (hheader.symm.trans hnext)
  have hevents := Restoring.restoreLines_events rfl (by decide) hr
  split at h
  · cases h
  · cases h
    exact hevents

/-! ### Events and their commands -/

/-- Every event that a state has the text of is of a command that it knows, and no two are of one command. -/
structure Linked (s : ChoreographyState) : Prop where
  texts : ∀ x text, s.appliedEvents.find? x = some text → ∃ e : Event, e.Fits ∧ e.Matches ∧ canonicalEvent e = text ∧ s.Knows e.commandId.value
  distinct : ∀ x y (e f : Event), s.appliedEvents.find? x = some (canonicalEvent e) → s.appliedEvents.find? y = some (canonicalEvent f) →
    e.commandId = f.commandId → x = y

namespace Linked
variable {s : ChoreographyState} {event : Event}

theorem of_empty (h : s.appliedEvents = .empty) : Linked s := by
  have hnone : ∀ x, s.appliedEvents.find? x = none := fun x => h ▸ OrdMap.find?_empty
  exact ⟨fun x _ hx => (nomatch (hnone x).symm.trans hx), fun x _ _ _ hx => (nomatch (hnone x).symm.trans hx)⟩

theorem knows (h : Linked s) {x : String} (found : s.appliedEvents.find? x = some (canonicalEvent event)) : s.Knows event.commandId.value := by
  obtain ⟨e, -, -, htext, hknows⟩ := h.texts x _ found
  rwa [commandId_of_canonicalEvent_eq htext] at hknows

theorem record (h : Linked s) (fits : event.Fits) {d : Domain} (new : existingEvent s event = .ok false)
    (mutated : s.toDomain.mutate event = .ok d) : Linked (record s d event) := by
  obtain ⟨hnone, hunknown⟩ := existingEvent_new_iff.mp new
  refine ⟨fun x text hx => ?_, fun x y e f hx hy heq => ?_⟩
  · rw [find?_appliedEvents_record hnone] at hx
    split at hx
    · cases hx
      exact ⟨event, fits, (Domain.mutate_cases mutated).2, rfl, knows_record.mpr (.inl rfl)⟩
    · obtain ⟨e, hfits, hmatches, htext, hknows⟩ := h.texts x text hx
      exact ⟨e, hfits, hmatches, htext, knows_record.mpr (.inr hknows)⟩
  · -- The command of the new event was not known.
    have hother : ∀ {z : String} {g : Event}, s.appliedEvents.find? z = some (canonicalEvent g) → g.commandId ≠ event.commandId :=
      fun hz hcommand => hunknown (hcommand ▸ h.knows hz)
    rw [find?_appliedEvents_record hnone] at hx hy
    split at hx
    · rename_i hex
      have hevent := commandId_of_canonicalEvent_eq (Option.some.inj hx)
      split at hy
      · rename_i hey
        exact hex.symm.trans hey
      · exact absurd (heq.symm.trans hevent.symm) (hother hy)
    · split at hy
      · have hevent := commandId_of_canonicalEvent_eq (Option.some.inj hy)
        exact absurd (heq.trans hevent.symm) (hother hx)
      · exact h.distinct x y e f hx hy heq

theorem apply (h : Linked s) (fits : event.Fits) {t : ChoreographyState} (applied : State.apply s event = .ok t) : Linked t := by
  cases applyAgainst_cases applied with
  | known => exact h
  | fresh d new later index mutated => exact h.record fits new mutated

theorem run (h : Linked s) {events : List Event} (fits : ∀ e ∈ events, e.Fits) {t : ChoreographyState}
    (applied : events.foldlM State.apply s = .ok t) : Linked t := by
  induction events generalizing s with
  | nil =>
    cases applied
    exact h
  | cons event events ih =>
    obtain ⟨next, hnext, applied⟩ := bind_ok applied
    exact ih (h.apply (fits event List.mem_cons_self) hnext) (fun e he => fits e (List.mem_cons_of_mem _ he)) applied

/-- What is kept of the texts is kept of the commands. -/
theorem retained (h : Linked s) {anchor : Nat} {t : ChoreographyState} (r : Retained s anchor t) : Linked t := by
  refine ⟨fun x text hx => ?_, fun x y e f hx hy => h.distinct x y e f ((r.texts _ _).mp hx).1 ((r.texts _ _).mp hy).1⟩
  obtain ⟨hold, hlate⟩ := (r.texts x text).mp hx
  obtain ⟨e, hfits, hmatches, rfl, hknows⟩ := h.texts x text hold
  refine ⟨e, hfits, hmatches, rfl, ?_⟩
  unfold ChoreographyState.Knows
  rw [r.receipts]
  rcases hknows with hcommand | hreceipt
  · cases hreceipt : s.receipts.contains e.commandId.value with
    | true => exact .inr rfl
    | false =>
      refine .inl (r.kept _ hcommand hreceipt ?_)
      rintro ⟨y, text, g, htext, hparse, hindex, -, hcommand⟩
      obtain ⟨g', hfits', hmatches', rfl, -⟩ := h.texts y text htext
      obtain rfl := Except.ok.inj ((parseEvent_canonicalEvent hfits' hmatches').symm.trans hparse)
      obtain rfl := h.distinct y x g' e htext hold (StrongId.ext hcommand)
      have hsame := Option.some.inj (htext.symm.trans hold)
      have hearly := hlate g'.reread (hsame ▸ parseEvent_canonicalEvent hfits' hmatches')
      omega
  · exact .inr hreceipt

end Linked

/-! ### Staging -/

/-- The id of the event has been applied with other content. -/
def Clashes (c : ChoreographyState) (event : Event) : Prop :=
  ∃ text, c.appliedEvents.find? event.id.value = some text ∧ text ≠ canonicalEvent event

/-- What is staged is new to the state. -/
structure Apart (c staged : ChoreographyState) : Prop where
  events : ∀ x text, staged.appliedEvents.find? x = some text → c.appliedEvents.find? x = none
  commands : ∀ x, staged.Knows x → ¬c.Knows x

section Staging
variable {c staged : ChoreographyState} {event : Event}

theorem Apart.start (c : ChoreographyState) : Apart c { toDomain := c.toDomain } := by
  refine ⟨nofun, fun x hx => ?_⟩
  rcases hx with hx | hx <;> cases hx

theorem Apart.record (h : Apart c staged) {d : Domain} (new : existingEvent staged event = .ok false)
    (newc : existingEvent c event = .ok false) : Apart c (record staged d event) := by
  refine ⟨fun x text hx => ?_, fun x hx => ?_⟩
  · rw [find?_appliedEvents_record (existingEvent_new_iff.mp new).1] at hx
    split at hx
    · rename_i heq
      exact heq ▸ (existingEvent_new_iff.mp newc).1
    · exact h.events x text hx
  · rcases knows_record.mp hx with rfl | hx
    · exact (existingEvent_new_iff.mp newc).2
    · exact h.commands x hx

theorem Apart.unstaged (h : Apart c staged) {x text : String} (found : c.appliedEvents.find? x = some text) :
    staged.appliedEvents.find? x = none := by
  by_contra hsome
  obtain ⟨text', htext'⟩ := Option.ne_none_iff_exists'.mp hsome
  exact nomatch (h.events x text' htext').symm.trans found

/-- The search for a repetition, first among what is staged. -/
def stagedEvent (c staged : ChoreographyState) (event : Event) : Result Bool := do
  if ← existingEvent staged event then return true
  existingEvent c event

theorem stagedEvent_of_new (h : existingEvent staged event = .ok false) : stagedEvent c staged event = existingEvent c event := by
  unfold stagedEvent
  rw [h]
  rfl

/-- Unless the id clashes, the search finds what one in the published state finds. -/
theorem stagedEvent_eq (linked : Linked c) (apart : Apart c staged) (clear : ¬Clashes c event) :
    stagedEvent c staged event = existingEvent (publishCommitted c staged) event := by
  have hunstaged : c.Knows event.commandId.value → ¬staged.Knows event.commandId.value := fun hc hs => apart.commands _ hs hc
  have hevents : (publishCommitted c staged).appliedEvents.find? event.id.value =
      (c.appliedEvents.find? event.id.value).or (staged.appliedEvents.find? event.id.value) := OrdMap.find?_merge
  have hreceipts : (publishCommitted c staged).receipts.find? event.commandId.value =
      (c.receipts.find? event.commandId.value).or (staged.receipts.find? event.commandId.value) := OrdMap.find?_merge
  have hcommands : (publishCommitted c staged).appliedCommands.contains event.commandId.value =
      (c.appliedCommands.contains event.commandId.value || staged.appliedCommands.contains event.commandId.value) := by
    rw [OrdMap.contains_eq, OrdMap.contains_eq, OrdMap.contains_eq, ← Option.isSome_or]
    exact congrArg _ OrdMap.find?_merge
  cases hevent : c.appliedEvents.find? event.id.value with
  | some text =>
    -- The event itself was applied before.
    obtain rfl : text = canonicalEvent event := not_not.mp fun hne => clear ⟨text, hevent, hne⟩
    have hnew : existingEvent staged event = .ok false :=
      existingEvent_new_iff.mpr ⟨apart.unstaged hevent, hunstaged (linked.knows hevent)⟩
    rw [stagedEvent_of_new hnew]
    unfold existingEvent
    rw [hevents, hevent]
    rfl
  | none =>
    cases hstaged : staged.appliedEvents.find? event.id.value with
    | some text =>
      unfold stagedEvent existingEvent
      rw [hevents, hevent, hstaged]
      simp only [Option.none_or]
      split <;> rfl
    | none =>
      cases hreceipt : c.receipts.find? event.commandId.value with
      | some receipt =>
        have hknows : c.Knows event.commandId.value := .inr (by rw [OrdMap.contains_eq, hreceipt]; rfl)
        rw [stagedEvent_of_new (existingEvent_new_iff.mpr ⟨hstaged, hunstaged hknows⟩)]
        unfold existingEvent
        rw [hevents, hevent, hstaged, hreceipts, hreceipt]
        rfl
      | none =>
        cases hother : staged.receipts.find? event.commandId.value with
        | some receipt =>
          unfold stagedEvent existingEvent
          rw [hevents, hevent, hstaged, hreceipts, hreceipt, hother]
          simp only [Option.none_or]
          split <;> rfl
        | none =>
          unfold stagedEvent existingEvent
          rw [hevents, hevent, hstaged, hreceipts, hreceipt, hother, hcommands]
          simp only [Option.none_or]
          cases staged.appliedCommands.contains event.commandId.value with
          | true =>
            rw [Bool.or_true]
            rfl
          | false =>
            rw [Bool.or_false]
            rfl

/-- A clashing event passes as a repetition of one that is staged. -/
structure Masked (staged : ChoreographyState) (event : Event) : Prop where
  type : event.type ≠ .noOp
  receipt : staged.receipts.find? event.commandId.value = some (receiptFromEvent event)

theorem stagedEvent_clash (apart : Apart c staged) (clash : Clashes c event) :
    stagedEvent c staged event = .ok true ∧ Masked staged event ∨ (∃ e, stagedEvent c staged event = .error e) ∧ ¬Masked staged event := by
  obtain ⟨text, htext, hne⟩ := clash
  have hnone := apart.unstaged htext
  cases hreceipt : staged.receipts.find? event.commandId.value with
  | some receipt =>
    by_cases hsame : event.type ≠ .noOp ∧ receipt = receiptFromEvent event
    · refine .inl ⟨?_, hsame.1, by rw [hreceipt, hsame.2]⟩
      unfold stagedEvent existingEvent
      rw [hnone, hreceipt]
      dsimp only
      rw [if_pos hsame]
      rfl
    · refine .inr ⟨?_, fun hmasked => hsame ⟨hmasked.type, Option.some.inj (hreceipt.symm.trans hmasked.receipt)⟩⟩
      unfold stagedEvent existingEvent
      rw [hnone, hreceipt]
      dsimp only
      rw [if_neg hsame]
      exact ⟨_, rfl⟩
  | none =>
    refine .inr ⟨?_, fun hmasked => nomatch hreceipt.symm.trans hmasked.receipt⟩
    unfold stagedEvent existingEvent
    rw [hnone, hreceipt, htext]
    dsimp only
    rw [if_neg hne]
    split <;> exact ⟨_, rfl⟩

theorem applyAgainst_some : applyAgainst staged event .contiguous (some c) = (do
    requireSchema event.schemaVersion
    if ← stagedEvent c staged event then return staged
    checkIndex staged.toDomain event.index .contiguous
    let domain ← staged.toDomain.mutate event
    return record staged domain event) := by
  unfold applyAgainst stagedEvent
  cases requireSchema event.schemaVersion with
  | error e => rfl
  | ok _ =>
    cases existingEvent staged event with
    | error e => rfl
    | ok seen =>
      cases seen with
      | true => rfl
      | false =>
        change (existingEvent c event >>= _) = (existingEvent c event >>= _)
        rfl

theorem apply_eq {s : ChoreographyState} : apply s event = (do
    requireSchema event.schemaVersion
    if ← existingEvent s event then return s
    checkIndex s.toDomain event.index .contiguous
    let domain ← s.toDomain.mutate event
    return record s domain event) := rfl

/-- Unless the id clashes, staging an event is applying it to the published state. -/
theorem stage_clear (linked : Linked c) (apart : Apart c staged) (clear : ¬Clashes c event) :
    (applyAgainst staged event .contiguous (some c)).map (publishCommitted c) = apply (publishCommitted c staged) event := by
  have hfresh : stagedEvent c staged event = .ok false → existingEvent c event = .ok false := by
    intro hnew
    rw [stagedEvent_eq linked apart clear] at hnew
    exact (View.existingEvent_published hnew).1
  rw [applyAgainst_some, apply_eq, ← stagedEvent_eq linked apart clear]
  cases requireSchema event.schemaVersion with
  | error e => rfl
  | ok _ =>
    cases hseen : stagedEvent c staged event with
    | error e => rfl
    | ok seen =>
      cases seen with
      | true => rfl
      | false =>
        change Except.map _ (checkIndex staged.toDomain _ _ >>= _) = (checkIndex staged.toDomain _ _ >>= _)
        cases checkIndex staged.toDomain event.index .contiguous with
        | error e => rfl
        | ok _ =>
          change Except.map _ (staged.toDomain.mutate event >>= _) = (staged.toDomain.mutate event >>= _)
          cases staged.toDomain.mutate event with
          | error e => rfl
          | ok d => exact congrArg Except.ok (View.publishCommitted_record (hfresh hseen))

theorem stage_clash (apart : Apart c staged) (clash : Clashes c event) {staged' : ChoreographyState} :
    applyAgainst staged event .contiguous (some c) = .ok staged' ↔
      requireSchema event.schemaVersion = .ok () ∧ Masked staged event ∧ staged' = staged := by
  rw [applyAgainst_some]
  cases requireSchema event.schemaVersion with
  | error e => exact ⟨nofun, fun h => nomatch h.1⟩
  | ok _ =>
    rcases stagedEvent_clash apart clash with ⟨hseen, hmasked⟩ | ⟨⟨e, hseen⟩, hmasked⟩
    · rw [hseen]
      constructor
      · rintro ⟨⟩
        exact ⟨rfl, hmasked, rfl⟩
      · rintro ⟨-, -, rfl⟩
        rfl
    · rw [hseen]
      exact ⟨nofun, fun h => absurd h.2.1 hmasked⟩

theorem Apart.stage (linked : Linked c) (apart : Apart c staged) {staged' : ChoreographyState}
    (h : applyAgainst staged event .contiguous (some c) = .ok staged') : Apart c staged' := by
  by_cases hclash : Clashes c event
  · obtain ⟨-, -, rfl⟩ := (stage_clash apart hclash).mp h
    exact apart
  · rw [applyAgainst_some] at h
    obtain ⟨_, -, h⟩ := bind_ok h
    obtain ⟨seen, hseen, h⟩ := bind_ok h
    cases seen with
    | true =>
      cases h
      exact apart
    | false =>
      obtain ⟨_, -, h⟩ := bind_ok h
      obtain ⟨d, -, h⟩ := bind_ok h
      cases h
      rw [stagedEvent_eq linked apart hclash] at hseen
      obtain ⟨hc, hstaged⟩ := View.existingEvent_published hseen
      exact apart.record hstaged hc

end Staging

/-! ### Batches -/

instance (c : ChoreographyState) : DecidablePred (Clashes c) := fun event =>
  decidable_of_iff ((c.appliedEvents.find? event.id.value).any (· ≠ canonicalEvent event) = true) <| by
    unfold Clashes
    cases c.appliedEvents.find? event.id.value <;> simp

/-- The events of a batch whose ids do not clash. -/
def clear (c : ChoreographyState) (batch : List Event) : List Event := batch.filter fun event => ¬Clashes c event

/-- The event has the command, index, term and content of one that was applied among those before it. -/
structure Repeats (c : ChoreographyState) (before : List Event) (event : Event) : Prop where
  schema : requireSchema event.schemaVersion = .ok ()
  type : event.type ≠ .noOp
  new : c.receipts.find? event.commandId.value = none
  found : ∃ s, (clear c before).foldlM apply c = .ok s ∧ s.receipts.find? event.commandId.value = some (receiptFromEvent event)

/-- A batch whose clashing events all repeat earlier ones, and whose other events can be applied. -/
structure Passes (c : ChoreographyState) (batch : List Event) : Prop where
  applies : ∃ t, (clear c batch).foldlM apply c = .ok t
  repeats : ∀ before event, before ++ [event] <+: batch → Clashes c event → Repeats c before event

section Batch
variable {c : ChoreographyState} {batch : List Event} {event : Event}

theorem clear_concat_clash (clash : Clashes c event) : clear c (batch ++ [event]) = clear c batch := by
  simp [clear, List.filter_append, clash]

theorem clear_concat (free : ¬Clashes c event) : clear c (batch ++ [event]) = clear c batch ++ [event] := by
  simp [clear, List.filter_append, free]

theorem clear_eq (h : ∀ e ∈ batch, ¬Clashes c e) : clear c batch = batch :=
  List.filter_eq_self.mpr fun e he => by simpa using h e he

theorem Passes.front (h : Passes c (batch ++ [event])) : Passes c batch := by
  refine ⟨?_, fun before e hbefore => h.repeats before e (hbefore.trans (List.prefix_append _ _))⟩
  obtain ⟨t, ht⟩ := h.applies
  by_cases hclash : Clashes c event
  · exact ⟨t, clear_concat_clash hclash ▸ ht⟩
  · rw [clear_concat hclash] at ht
    obtain ⟨s, hs, -⟩ := foldlM_concat ht
    exact ⟨s, hs⟩

/-- What is masked by the staged events repeats one of those applied before it. -/
theorem masked_iff {staged : ChoreographyState} (apart : Apart c staged) (schema : requireSchema event.schemaVersion = .ok ())
    (applied : (clear c batch).foldlM apply c = .ok (publishCommitted c staged)) : Masked staged event ↔ Repeats c batch event := by
  have hreceipts : (publishCommitted c staged).receipts.find? event.commandId.value =
      (c.receipts.find? event.commandId.value).or (staged.receipts.find? event.commandId.value) := OrdMap.find?_merge
  constructor
  · intro h
    have hstaged : staged.Knows event.commandId.value := .inr (by rw [OrdMap.contains_eq, h.receipt]; rfl)
    have hnone : c.receipts.find? event.commandId.value = none := by
      by_contra hsome
      exact apart.commands _ hstaged (.inr (by rw [OrdMap.contains_eq]; exact Option.isSome_iff_ne_none.mpr hsome))
    refine ⟨schema, h.type, hnone, _, applied, ?_⟩
    rw [hreceipts, hnone]
    exact h.receipt
  · rintro ⟨-, htype, hnone, s, hs, hfound⟩
    obtain rfl := Except.ok.inj (applied.symm.trans hs)
    rw [hreceipts, hnone] at hfound
    exact ⟨htype, hfound⟩

/-- A staged batch is what applying its clear events gives. -/
theorem prepareCommitted_clear (linked : Linked c) {staged : ChoreographyState} (h : prepareCommitted c batch = .ok staged) :
    Apart c staged ∧ (clear c batch).foldlM apply c = .ok (publishCommitted c staged) := by
  induction batch using List.reverseRecOn generalizing staged with
  | nil =>
    cases h
    exact ⟨.start c, by rw [View.publishCommitted_refl]; rfl⟩
  | append_singleton batch event ih =>
    obtain ⟨before, hbefore, hstage⟩ := foldlM_concat h
    obtain ⟨hapart, happlied⟩ := ih hbefore
    refine ⟨hapart.stage linked hstage, ?_⟩
    by_cases hclash : Clashes c event
    · obtain ⟨-, -, rfl⟩ := (stage_clash hapart hclash).mp hstage
      rwa [clear_concat_clash hclash]
    · have hclear := stage_clear linked hapart hclash
      rw [hstage] at hclear
      rw [clear_concat hclash, List.foldlM_append, happlied]
      change (apply (publishCommitted c before) event >>= _) = _
      rw [← hclear]
      rfl

/-- The batches that can be staged. -/
theorem prepareCommitted_iff (linked : Linked c) : (∃ staged, prepareCommitted c batch = .ok staged) ↔ Passes c batch := by
  induction batch using List.reverseRecOn with
  | nil => exact ⟨fun _ => ⟨⟨c, rfl⟩, fun before e h => by simp at h⟩, fun _ => ⟨_, rfl⟩⟩
  | append_singleton batch event ih =>
    constructor
    · rintro ⟨staged, hstaged⟩
      obtain ⟨before, hbefore, hstage⟩ := foldlM_concat hstaged
      obtain ⟨hapart, happlied⟩ := prepareCommitted_clear linked hbefore
      refine ⟨⟨_, (prepareCommitted_clear linked hstaged).2⟩, fun front e hprefix hclash => ?_⟩
      rcases List.prefix_concat_iff.mp hprefix with heq | hprefix
      · obtain ⟨rfl, rfl⟩ := List.append_singleton_inj.mp heq
        obtain ⟨hschema, hmasked, -⟩ := (stage_clash hapart hclash).mp hstage
        exact (masked_iff hapart hschema happlied).mp hmasked
      · exact (ih.mp ⟨before, hbefore⟩).repeats front e hprefix hclash
    · intro hpasses
      obtain ⟨before, hbefore⟩ := ih.mpr hpasses.front
      obtain ⟨hapart, happlied⟩ := prepareCommitted_clear linked hbefore
      have hstep : ∃ staged, applyAgainst before event .contiguous (some c) = .ok staged := by
        by_cases hclash : Clashes c event
        · have hrepeats := hpasses.repeats batch event List.prefix_rfl hclash
          exact ⟨before, (stage_clash hapart hclash).mpr ⟨hrepeats.schema, (masked_iff hapart hrepeats.schema happlied).mpr hrepeats, rfl⟩⟩
        · obtain ⟨t, ht⟩ := hpasses.applies
          rw [clear_concat hclash] at ht
          obtain ⟨s, hs, hevent⟩ := foldlM_concat ht
          obtain rfl := Except.ok.inj (happlied.symm.trans hs)
          rw [← stage_clear linked hapart hclash] at hevent
          cases hstage : applyAgainst before event .contiguous (some c) with
          | error e =>
            rw [hstage] at hevent
            cases hevent
          | ok staged => exact ⟨staged, rfl⟩
      obtain ⟨staged, hstaged⟩ := hstep
      refine ⟨staged, ?_⟩
      unfold prepareCommitted at hbefore ⊢
      rw [List.foldlM_append, hbefore]
      change (applyAgainst before event .contiguous (some c) >>= _) = _
      rw [hstaged]
      rfl

/-- An event whose id clashes is refused, whatever was applied before it. -/
theorem foldlM_apply_clash {s t : ChoreographyState} (texts : ∀ x text, c.appliedEvents.find? x = some text → s.appliedEvents.find? x = some text)
    (h : batch.foldlM apply s = .ok t) : ∀ e ∈ batch, ¬Clashes c e := by
  induction batch generalizing s with
  | nil => exact List.forall_mem_nil _
  | cons event batch ih =>
    obtain ⟨next, hnext, h⟩ := bind_ok h
    have hfree : ¬Clashes c event := by
      rintro ⟨text, htext, hne⟩
      have hheld := texts _ _ htext
      cases applyAgainst_cases hnext with
      | known known =>
        unfold existingEvent at known
        rw [hheld] at known
        dsimp only at known
        rw [if_neg hne] at known
        cases known
      | fresh d new => exact nomatch (existingEvent_new_iff.mp new).1.symm.trans hheld
    refine List.forall_mem_cons.mpr ⟨hfree, ih (fun x text hx => ?_) h⟩
    have hheld := texts x text hx
    cases applyAgainst_cases hnext with
    | known => exact hheld
    | fresh d new =>
      have hnone := (existingEvent_new_iff.mp new).1
      rw [find?_appliedEvents_record hnone]
      split
      · rename_i heq
        exact nomatch (heq ▸ hnone).symm.trans hheld
      · exact hheld

end Batch

namespace Engine
variable {engine : Engine} {batch : List Event}

theorem foldlM_applyCommitted : batch.foldlM applyCommitted engine =
    (batch.foldlM apply engine.state).map fun state => { state, events := engine.events ++ batch } := by
  induction batch generalizing engine with
  | nil => simp [Except.map, pure, Except.pure]
  | cons event batch ih =>
    rw [List.foldlM_cons, List.foldlM_cons]
    unfold applyCommitted
    cases apply engine.state event with
    | error e => rfl
    | ok state =>
      change batch.foldlM applyCommitted { state, events := engine.events ++ [event] } = _
      rw [ih]
      simp [bind, Except.bind]

theorem prepareCommitted_eq : engine.prepareCommitted batch =
    (State.prepareCommitted engine.state batch).map fun state => { state, events := batch } := by
  induction batch using List.reverseRecOn with
  | nil => rfl
  | append_singleton batch event ih =>
    unfold prepareCommitted State.prepareCommitted at ih ⊢
    rw [List.foldlM_append, List.foldlM_append, ih]
    cases batch.foldlM (fun staged event => applyAgainst staged event .contiguous (some engine.state)) { toDomain := engine.state.toDomain } with
    | error e => rfl
    | ok staged =>
      change ((applyAgainst staged event .contiguous (some engine.state) >>= _) >>= _) = Except.map _ (applyAgainst staged event .contiguous (some engine.state) >>= _)
      cases applyAgainst staged event .contiguous (some engine.state) with
      | error e => rfl
      | ok staged' => rfl

/-- The engines that commits, compactions and restarts lead to. The numbers of an event are 64-bit ones, and a
    restart takes the state that some engine wrote, with any history. -/
inductive Reached : Engine → Prop
  | start : Reached {}
  | submit {before after : Engine} {result : SubmitResult} (reached : Reached before) (command : Command)
      (submitted : before.submit command = .ok (after, result)) (fits : result.event.Fits) : Reached after
  | commit {before after : Engine} (reached : Reached before) (event : Event) (fits : event.Fits)
      (committed : before.applyCommitted event = .ok after) : Reached after
  | batch {before staged : Engine} (reached : Reached before) (batch : List Event) (fits : ∀ e ∈ batch, e.Fits)
      (prepared : before.prepareCommitted batch = .ok staged) : Reached (before.publishCommitted staged)
  | retain {before after : Engine} (reached : Reached before) (anchor : Nat) (retained : before.retainHistoryFrom anchor = .ok after) :
      Reached after
  | restore {other : Engine} {state : ChoreographyState} (reached : Reached other) (history : List Event)
      (restored : restoreState (snapshotPayload other.state) = .ok state) : Reached (restore state history)

theorem Reached.linked (h : Reached engine) : Linked engine.state := by
  induction h with
  | start => exact .of_empty rfl
  | submit reached command submitted fits ih =>
    unfold Engine.submit at submitted
    split at submitted
    · obtain ⟨event, -, submitted⟩ := bind_ok submitted
      cases submitted
      exact ih
    · obtain ⟨event, -, submitted⟩ := bind_ok submitted
      obtain ⟨after, hcommit, submitted⟩ := bind_ok submitted
      obtain ⟨state, happly, hcommit⟩ := bind_ok hcommit
      cases hcommit
      cases submitted
      exact ih.apply fits happly
  | commit reached event fits committed ih =>
    obtain ⟨state, happly, hcommit⟩ := bind_ok committed
    cases hcommit
    exact ih.apply fits happly
  | batch reached batch fits prepared ih =>
    rw [prepareCommitted_eq] at prepared
    cases hstaged : State.prepareCommitted _ batch with
    | error e =>
      rw [hstaged] at prepared
      cases prepared
    | ok staged =>
      rw [hstaged] at prepared
      cases prepared
      have hfold := (prepareCommitted_clear ih hstaged).2
      exact ih.run (fun e he => fits e (List.mem_of_mem_filter he)) hfold
  | retain reached anchor retained ih =>
    obtain ⟨state, hstate, hretained⟩ := bind_ok retained
    cases hretained
    exact ih.retained (retainStateHistoryFrom_cases hstate)
  | restore reached history restored ih =>
    have hempty := restoreState_events restored
    exact .of_empty hempty

/-- The batch and its events one by one: both are refused, or both are accepted with the same engine. -/
def Agrees (engine : Engine) (batch : List Event) : Prop :=
  (engine.prepareCommitted batch).toOption.map engine.publishCommitted = (batch.foldlM applyCommitted engine).toOption

/-- A batch and its events one by one give the same, except for a batch that is accepted although it has an
    event whose id was applied with other content. -/
theorem batch_agrees_iff (reached : Reached engine) (batch : List Event) :
    Agrees engine batch ↔ ¬((∃ e ∈ batch, Clashes engine.state e) ∧ Passes engine.state batch) := by
  have hlinked := reached.linked
  unfold Agrees
  rw [prepareCommitted_eq, foldlM_applyCommitted]
  by_cases hclash : ∃ e ∈ batch, Clashes engine.state e
  · -- One by one the batch is refused.
    have hrefused : ∃ e, batch.foldlM apply engine.state = .error e := by
      cases hfold : batch.foldlM apply engine.state with
      | error e => exact ⟨e, rfl⟩
      | ok t =>
        obtain ⟨e, he, hclash⟩ := hclash
        exact absurd hclash (foldlM_apply_clash (fun _ _ h => h) hfold e he)
    obtain ⟨e, he⟩ := hrefused
    rw [he, ← prepareCommitted_iff hlinked]
    cases State.prepareCommitted engine.state batch with
    | error e => exact iff_of_true rfl (fun h => nomatch h.2)
    | ok staged => exact iff_of_false nofun (fun h => h ⟨hclash, staged, rfl⟩)
  · refine iff_of_true ?_ fun h => hclash h.1
    have hclear : clear engine.state batch = batch := clear_eq fun e he h => hclash ⟨e, he, h⟩
    cases hstaged : State.prepareCommitted engine.state batch with
    | ok staged =>
      have hfold := (prepareCommitted_clear hlinked hstaged).2
      rw [hclear] at hfold
      rw [hfold]
      rfl
    | error e =>
      cases hfold : batch.foldlM apply engine.state with
      | error e => rfl
      | ok t =>
        have hpasses : Passes engine.state batch := by
          refine ⟨⟨t, hclear.symm ▸ hfold⟩, fun before event hprefix h => ?_⟩
          exact absurd ⟨event, hprefix.subset List.mem_concat_self, h⟩ hclash
        obtain ⟨staged, hstaged'⟩ := (prepareCommitted_iff hlinked).mpr hpasses
        exact nomatch hstaged.symm.trans hstaged'

/-- The engine of a leader that has committed its first no-op. -/
def leading : Engine := { state := led, events := [leaderNoOp] }

theorem reached_leading : Reached leading :=
  .commit .start leaderNoOp ⟨by decide, by decide, by decide⟩ (by decide +kernel)

theorem batch_agrees_leading : Agrees leading [createdEvent ⟨"c", by decide⟩] := by
  have hfree : ¬∃ e ∈ [createdEvent ⟨"c", by decide⟩], Clashes leading.state e := by decide +kernel
  exact (batch_agrees_iff reached_leading _).mpr fun h => hfree h.1

/-- The creation, and once more under the event id of the no-op: the batch is accepted, one by one it is not. -/
theorem batch_slips : Reached leading ∧
    ¬Agrees leading [createdEvent ⟨"c", by decide⟩, { createdEvent ⟨"c", by decide⟩ with id := leaderNoOp.id }] := by
  refine ⟨reached_leading, ?_⟩
  unfold Agrees
  decide +kernel

end Engine

end Choreolog.State
