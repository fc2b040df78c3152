import Choreolog.Theorems.EventText
import Choreolog.Theorems.RoundTrip

/-! # Compaction

A replica drops the texts of old events, or restores its state from a snapshot that never held them. Beside
a replica that keeps its whole history it answers alike, as long as nobody uses the ids that only the
dropped texts knew. -/

namespace Choreolog.State
open Lib

/-! ### New events -/

/-- An event of the command has been applied. -/
def ChoreographyState.Knows (s : ChoreographyState) (id : String) : Prop :=
  s.appliedCommands.contains id = true ∨ s.receipts.contains id = true

/-- The texts that a state holds are those of events it has applied. The command of an applied no-op has
    no receipt. -/
structure History (s : ChoreographyState) : Prop where
  texts : ∀ x text, s.appliedEvents.find? x = some text → ∃ event : Event, event.Fits ∧ event.Matches ∧
    canonicalEvent event = text ∧ event.index ≤ s.lastApplied ∧ s.Knows event.commandId.value ∧
    (event.type = .noOp → s.receipts.contains event.commandId.value = false)

theorem existingEvent_new_iff {s : ChoreographyState} {event : Event} : existingEvent s event = .ok false ↔
    s.appliedEvents.find? event.id.value = none ∧ ¬ s.Knows event.commandId.value := by
  unfold existingEvent ChoreographyState.Knows
  split
  · rename_i text htext
    split <;> simp [htext]
  · rename_i htext
    split
    · rename_i receipt hreceipt
      split <;> simp [OrdMap.contains_eq, hreceipt]
    · rename_i hreceipt
      split
      · rename_i hcommand
        simp [hcommand]
      · rename_i hcommand
        simp [htext, hcommand, OrdMap.contains_eq, hreceipt]

/-- An event past the history is no repetition. -/
theorem existingEvent_later {s : ChoreographyState} {event : Event}
    (texts : ∀ x text, s.appliedEvents.find? x = some text → ∃ e : Event, canonicalEvent e = text ∧ e.index < event.index)
    (receipts : ∀ id r, s.receipts.find? id = some r → r.index < event.index) : existingEvent s event ≠ .ok true := by
  unfold existingEvent
  split
  · rename_i text htext
    obtain ⟨e, rfl, hindex⟩ := texts _ _ htext
    have hne : canonicalEvent e ≠ canonicalEvent event := fun h => hindex.ne (index_of_canonicalEvent_eq h)
    simp [hne]
  · split
    · rename_i receipt hreceipt
      have hne : receipt ≠ receiptFromEvent event := by
        rintro rfl
        exact (receipts _ _ hreceipt).ne rfl
      simp [hne]
    · split <;> simp

theorem apply_next_iff {s t : ChoreographyState} {event : Event} (next : event.index = s.lastApplied + 1)
    (later : existingEvent s event ≠ .ok true) : apply s event = .ok t ↔
      requireSchema event.schemaVersion = .ok () ∧ existingEvent s event = .ok false ∧
        ∃ d, s.toDomain.mutate event = .ok d ∧ t = record s d event := by
  have hindex : checkIndex s.toDomain event.index .contiguous = .ok () := if_pos next
  unfold apply applyAgainst
  cases requireSchema event.schemaVersion with
  | error e => simp [bind, Except.bind]
  | ok _ =>
    cases hseen : existingEvent s event with
    | error e => simp [bind, Except.bind]
    | ok seen =>
      cases seen with
      | true => exact absurd hseen later
      | false =>
        cases s.toDomain.mutate event with
        | error e => simp [bind, Except.bind, hindex]
        | ok d => simp [bind, Except.bind, pure, Except.pure, hindex, eq_comm]

theorem knows_record {s : ChoreographyState} {d : Domain} {event : Event} {id : String} :
    (record s d event).Knows id ↔ id = event.commandId.value ∨ s.Knows id := by
  have hreceipts : (record s d event).receipts.contains id = true →
      id = event.commandId.value ∨ s.receipts.contains id = true := by
    intro h
    rw [OrdMap.contains_eq] at h ⊢
    obtain ⟨r, hr⟩ := Option.isSome_iff_exists.mp h
    rcases find?_record hr with hr | ⟨rfl, -⟩
    · exact .inr (by rw [hr]; rfl)
    · exact .inl rfl
  have hkept : s.receipts.contains id = true → (record s d event).receipts.contains id = true := by
    intro h
    unfold record
    dsimp only
    split
    · exact h
    · rw [OrdMap.contains_eq, OrdMap.find?_insert]
      split
      · rfl
      · rwa [← OrdMap.contains_eq]
  unfold ChoreographyState.Knows
  rw [OrdMap.contains_iff, show (record s d event).appliedCommands.keys = (s.appliedCommands.tryEmplace _ _).keys from rfl,
    OrdMap.mem_keys_tryEmplace, ← OrdMap.contains_iff]
  constructor
  · rintro ((h | h) | h)
    · exact .inl h
    · exact .inr (.inl h)
    · rcases hreceipts h with h | h
      · exact .inl h
      · exact .inr (.inr h)
  · rintro (h | h | h)
    · exact .inl (.inl h)
    · exact .inl (.inr h)
    · exact .inr (hkept h)

theorem knows_restored {s : ChoreographyState} {id : String} :
    (restored s).Knows id ↔ id ∈ legacyIds s ∨ s.receipts.contains id = true := by
  unfold ChoreographyState.Knows
  rw [OrdMap.contains_eq, find?_restored_commands]
  change _ ∨ s.receipts.contains id = true ↔ _
  rw [OrdMap.contains_eq]
  by_cases hmem : id ∈ legacyIds s
  · simp [hmem]
  · by_cases hreceipt : (s.receipts.find? id).isSome = true
    · simp [hreceipt]
    · simp [hmem, hreceipt]

theorem find?_appliedEvents_record {s : ChoreographyState} {d : Domain} {event : Event}
    (new : s.appliedEvents.find? event.id.value = none) (x : String) : (record s d event).appliedEvents.find? x =
      if event.id.value = x then some (canonicalEvent event) else s.appliedEvents.find? x := by
  change (s.appliedEvents.tryEmplace _ _).find? x = _
  rw [Domain.tryEmplace_new new, OrdMap.find?_insert]

theorem History.record {s : ChoreographyState} {d : Domain} {event : Event} (h : History s) (fits : event.Fits)
    (later : s.lastApplied < event.index) (new : existingEvent s event = .ok false)
    (mutated : s.toDomain.mutate event = .ok d) : History (record s d event) where
  texts x text hx := by
    obtain ⟨hevent, hcommand⟩ := existingEvent_new_iff.mp new
    rw [find?_appliedEvents_record hevent] at hx
    split at hx
    · cases hx
      refine ⟨event, fits, (Domain.mutate_cases mutated).2, rfl, le_rfl, knows_record.mpr (.inl rfl), fun hnoop => ?_⟩
      have hreceipts : (State.record s d event).receipts = s.receipts := if_pos hnoop
      rw [hreceipts, Bool.eq_false_iff]
      exact fun h => hcommand (.inr h)
    · obtain ⟨e, hfits, hmatches, htext, hindex, hknows, hnoop⟩ := h.texts x text hx
      refine ⟨e, hfits, hmatches, htext, hindex.trans later.le, knows_record.mpr (.inr hknows), fun htype => ?_⟩
      -- The new receipt, if any, is of a command that was not known.
      have hne : e.commandId.value ≠ event.commandId.value := fun heq => hcommand (heq ▸ hknows)
      rw [OrdMap.contains_eq, Option.isSome_eq_false_iff, Option.isNone_iff_eq_none, Option.eq_none_iff_forall_ne_some]
      intro r hr
      rcases find?_record hr with hr | ⟨heq, -⟩
      · have := hnoop htype
        rw [OrdMap.contains_eq, hr] at this
        cases this
      · exact hne heq

theorem Reached.history {s : ChoreographyState} (h : Reached s) : History s := by
  induction h with
  | empty => exact ⟨nofun⟩
  | event event rule fits _ applied ih =>
    cases applyAgainst_cases applied with
    | known known => exact ih
    | fresh d new later index mutated => exact ih.record fits later new mutated

theorem mapM_total {α β : Type} {f : α → Result β} {l : List α} (h : ∀ a ∈ l, ∃ b, f a = .ok b) : ∃ bs, l.mapM f = .ok bs := by
  induction l with
  | nil => exact ⟨[], rfl⟩
  | cons a l ih =>
    obtain ⟨b, hb⟩ := h a List.mem_cons_self
    obtain ⟨bs, hbs⟩ := ih fun x hx => h x (List.mem_cons_of_mem _ hx)
    exact ⟨b :: bs, by rw [List.mapM_cons, hb, hbs]; rfl⟩

/-- Texts that come from a history parse, so they can be dropped. -/
theorem History.retains {u c : ChoreographyState} (h : History u)
    (texts : ∀ x text, c.appliedEvents.find? x = some text → u.appliedEvents.find? x = some text) (anchor : Nat) :
    ∃ c', retainStateHistoryFrom c anchor = .ok c' := by
  have hparse : ∀ entry ∈ c.appliedEvents.entries, ∃ event, parseEvent entry.2 = .ok event := by
    intro entry hentry
    obtain ⟨e, hfits, hmatches, htext, -⟩ := h.texts _ _ (texts _ _ (OrdMap.mem_entries.mp hentry))
    exact ⟨e.reread, by rw [← htext, parseEvent_canonicalEvent hfits hmatches]⟩
  obtain ⟨events, hevents⟩ := mapM_total hparse
  unfold retainStateHistoryFrom
  rw [hevents]
  exact ⟨_, rfl⟩

/-! ### What compaction forgets -/

/-- The commands of the no-ops whose texts are dropped below `anchor`. -/
def noOpsBelow (s : ChoreographyState) (anchor : Nat) : Set String :=
  {id | ∃ x text event, s.appliedEvents.find? x = some text ∧ parseEvent text = .ok event ∧ event.index < anchor ∧
    event.type = .noOp ∧ event.commandId.value = id}

/-- The events whose texts are dropped below `anchor`. -/
def eventsBelow (s : ChoreographyState) (anchor : Nat) : Set String :=
  {x | ∃ text event, s.appliedEvents.find? x = some text ∧ parseEvent text = .ok event ∧ event.index < anchor}

/-- The commands that a payload leaves out: they have no receipt, and their events the ids of leadership no-ops. -/
def noOpCommands (s : ChoreographyState) : Set String :=
  {id | ∃ eventId, s.appliedCommands.find? id = some eventId ∧ s.receipts.find? id = none ∧
    "noop-".toList.isPrefixOf eventId.toList = true}

/-- The state after an event was offered to it. -/
def advance (s : ChoreographyState) (event : Event) : ChoreographyState :=
  match apply s event with
  | .ok t => t
  | .error _ => s

/-- An event for the next index that reuses no forgotten id: neither its command is forgotten, nor is its id
    that of a dropped event, unless its command is known as well. -/
structure Proper (s : ChoreographyState) (forgotten dropped : Set String) (event : Event) : Prop where
  fits : event.Fits
  next : event.index = s.lastApplied + 1
  command : event.commandId.value ∉ forgotten
  id : event.id.value ∈ dropped → s.Knows event.commandId.value

/-- A replica that keeps its history and one that compacts it at any points, offered the same events. The
    sets are what the second has forgotten: commands of no-ops, and ids of events. -/
inductive Compacting : ChoreographyState → ChoreographyState → Set String → Set String → Prop
  | start {s : ChoreographyState} (reached : Reached s) : Compacting s s ∅ ∅
  | event {u c : ChoreographyState} {forgotten dropped : Set String} (so : Compacting u c forgotten dropped) (event : Event)
      (proper : Proper u forgotten dropped event) : Compacting (advance u event) (advance c event) forgotten dropped
  | retain {u c c' : ChoreographyState} {forgotten dropped : Set String} (so : Compacting u c forgotten dropped) (anchor : Nat)
      (bound : anchor ≤ c.lastApplied) (retained : retainStateHistoryFrom c anchor = .ok c') :
      Compacting u c' (forgotten ∪ noOpsBelow c anchor) (dropped ∪ eventsBelow c anchor)
  | restore {u c c' : ChoreographyState} {forgotten dropped : Set String} (so : Compacting u c forgotten dropped)
      (restored : restoreState (snapshotPayload c) = .ok c') (same : c'.toDomain = c.toDomain) :
      Compacting u c' (forgotten ∪ noOpCommands c) (dropped ∪ {x | x ∈ c.appliedEvents.keys})

/-! ### Reading the retained state off -/

theorem mem_mapM {α β : Type} {f : α → Result β} {l : List α} {bs : List β} (h : l.mapM f = .ok bs) (b : β) :
    b ∈ bs ↔ ∃ a ∈ l, f a = .ok b := by
  induction l generalizing bs with
  | nil =>
    cases h
    simp
  | cons a l ih =>
    rw [List.mapM_cons] at h
    obtain ⟨b', hb', h⟩ := bind_ok h
    obtain ⟨bs', hbs', h⟩ := bind_ok h
    cases h
    rw [List.mem_cons, ih hbs', List.exists_mem_cons_iff, hb', Except.ok.injEq, eq_comm]

/-- The state that is left when the texts below `anchor` are dropped. -/
structure Retained (c : ChoreographyState) (anchor : Nat) (c' : ChoreographyState) : Prop where
  domain : c'.toDomain = c.toDomain
  receipts : c'.receipts = c.receipts
  texts : ∀ x text, c'.appliedEvents.find? x = some text ↔
    c.appliedEvents.find? x = some text ∧ ∀ event, parseEvent text = .ok event → anchor ≤ event.index
  commands : ∀ x, c'.appliedCommands.contains x = true → c.appliedCommands.contains x = true ∧ x ∉ noOpsBelow c anchor
  kept : ∀ x, c.appliedCommands.contains x = true → c.receipts.contains x = false → x ∉ noOpsBelow c anchor →
    c'.appliedCommands.contains x = true

theorem Retained.regular {c c' : ChoreographyState} {anchor : Nat} (r : Retained c anchor c') (h : Regular c) : Regular c' := by
  refine ⟨r.domain ▸ h.named, fun x hx => ?_, r.receipts ▸ h.receiptIds, r.domain ▸ h.lastApplied, r.domain ▸ h.term,
    r.domain ▸ h.termPos, ?_, r.receipts ▸ h.receiptTerm, r.receipts ▸ h.distinct⟩
  · exact h.commands x (OrdMap.contains_iff.mp (r.commands x (OrdMap.contains_iff.mpr hx)).1)
  · rw [r.receipts, r.domain]
    exact h.index

theorem retainStateHistoryFrom_cases {c c' : ChoreographyState} {anchor : Nat}
    (h : retainStateHistoryFrom c anchor = .ok c') : Retained c anchor c' := by
  obtain ⟨events, hevents, h⟩ := bind_ok h
  cases h
  -- The aliases are the commands of dropped no-ops, and of other dropped events that have a receipt.
  have haliases : ∀ x, x ∈ ((events.filter fun event => event.index < anchor).filter fun event =>
      event.type = .noOp ∨ c.receipts.contains event.commandId.value).map (·.commandId.value) ↔
      ∃ y text event, c.appliedEvents.find? y = some text ∧ parseEvent text = .ok event ∧ event.index < anchor ∧
        (event.type = .noOp ∨ c.receipts.contains event.commandId.value = true) ∧ event.commandId.value = x := by
    intro x
    simp only [List.mem_map, List.mem_filter, mem_mapM hevents, decide_eq_true_eq, Prod.exists, OrdMap.mem_entries]
    constructor
    · rintro ⟨event, ⟨⟨⟨y, text, htext, hevent⟩, hindex⟩, halias⟩, rfl⟩
      exact ⟨y, text, event, htext, hevent, hindex, halias, rfl⟩
    · rintro ⟨y, text, event, htext, hevent, hindex, halias, rfl⟩
      exact ⟨event, ⟨⟨⟨y, text, htext, hevent⟩, hindex⟩, halias⟩, rfl⟩
  refine ⟨rfl, rfl, fun x text => ?_, fun x hx => ?_, fun x hx hreceipt hnoop => ?_⟩
  · rw [OrdMap.find?_filter, Option.filter_eq_some_iff]
    refine and_congr_right fun _ => ?_
    cases parseEvent text with
    | error e => simp
    | ok event => simp
  · obtain ⟨eventId, hfind⟩ := Option.isSome_iff_exists.mp hx
    rw [OrdMap.find?_filter, Option.filter_eq_some_iff, OrdMap.find?_filter, Option.filter_eq_some_iff, decide_eq_true_eq,
      haliases] at hfind
    obtain ⟨⟨hfind, halias⟩, -⟩ := hfind
    refine ⟨by rw [OrdMap.contains_eq, hfind]; rfl, fun hnoop => halias ?_⟩
    obtain ⟨y, text, event, htext, hevent, hindex, htype, rfl⟩ := hnoop
    exact ⟨y, text, event, htext, hevent, hindex, .inl htype, rfl⟩
  · obtain ⟨eventId, hfind⟩ := Option.isSome_iff_exists.mp hx
    have hnone : c.receipts.find? x = none := by simpa [OrdMap.contains_eq] using hreceipt
    refine Option.isSome_iff_exists.mpr ⟨eventId, ?_⟩
    rw [OrdMap.find?_filter, Option.filter_eq_some_iff, OrdMap.find?_filter, Option.filter_eq_some_iff, decide_eq_true_eq,
      haliases, hnone]
    refine ⟨⟨hfind, ?_⟩, rfl⟩
    rintro ⟨y, text, event, htext, hevent, hindex, htype | htype, rfl⟩
    · exact hnoop ⟨y, text, event, htext, hevent, hindex, htype, rfl⟩
    · exact nomatch hreceipt.symm.trans htype

/-- What two replicas have in common when the second has compacted. -/
structure Tracked (u c : ChoreographyState) (forgotten dropped : Set String) : Prop where
  history : History u
  regular : Regular c
  domain : c.toDomain = u.toDomain
  receipts : c.receipts = u.receipts
  texts : ∀ x text, c.appliedEvents.find? x = some text → u.appliedEvents.find? x = some text
  dropped : ∀ x text, u.appliedEvents.find? x = some text → c.appliedEvents.find? x = none → x ∈ dropped
  known : ∀ x, x ∉ forgotten → (c.Knows x ↔ u.Knows x)
  forgotten : ∀ x ∈ forgotten, u.Knows x ∧ ¬ c.Knows x

namespace Tracked
variable {u c : ChoreographyState} {F D : Set String} {event : Event}

theorem start {s : ChoreographyState} (h : Reached s) : Tracked s s ∅ ∅ where
  history := h.history
  regular := h.regular
  domain := rfl
  receipts := rfl
  texts _ _ hx := hx
  dropped _ _ hx hnone := nomatch hx.symm.trans hnone
  known _ _ := Iff.rfl
  forgotten _ hx := hx.elim

/-! ### Events -/

theorem new_iff (h : Tracked u c F D) (proper : Proper u F D event) :
    existingEvent c event = .ok false ↔ existingEvent u event = .ok false := by
  rw [existingEvent_new_iff, existingEvent_new_iff, h.known _ proper.command]
  refine and_congr_left fun hunknown => ?_
  constructor
  · intro hnone
    by_contra hsome
    obtain ⟨text, htext⟩ := Option.ne_none_iff_exists'.mp hsome
    exact hunknown (proper.id (h.dropped _ _ htext hnone))
  · intro hnone
    by_contra hsome
    obtain ⟨text, htext⟩ := Option.ne_none_iff_exists'.mp hsome
    exact nomatch hnone.symm.trans (h.texts _ _ htext)

theorem later (h : Tracked u c F D) (proper : Proper u F D event) :
    existingEvent u event ≠ .ok true ∧ existingEvent c event ≠ .ok true := by
  have hnext := proper.next
  have htexts : ∀ x text, u.appliedEvents.find? x = some text → ∃ e : Event, canonicalEvent e = text ∧ e.index < event.index := by
    intro x text hx
    obtain ⟨e, -, -, htext, hindex, -⟩ := h.history.texts x text hx
    exact ⟨e, htext, by omega⟩
  have hreceipts : ∀ id r, c.receipts.find? id = some r → r.index < event.index := by
    intro id r hr
    have hindex := (h.regular.index id r hr).2
    rw [h.domain] at hindex
    omega
  exact ⟨existingEvent_later htexts (h.receipts ▸ hreceipts), existingEvent_later (fun x text hx => htexts x text (h.texts x text hx)) hreceipts⟩

/-- The two replicas both reject the event, or both record it. -/
theorem apply (h : Tracked u c F D) (proper : Proper u F D event) :
    (∀ t, State.apply u event ≠ .ok t) ∧ (∀ t, State.apply c event ≠ .ok t) ∨
    ∃ d, existingEvent u event = .ok false ∧ u.toDomain.mutate event = .ok d ∧
      State.apply u event = .ok (record u d event) ∧ State.apply c event = .ok (record c d event) := by
  obtain ⟨hu, hc⟩ := h.later proper
  have hiff := h.new_iff proper
  have hnext : event.index = c.lastApplied + 1 := by rw [proper.next, h.domain]
  by_cases hok : ∃ t, State.apply u event = .ok t
  · obtain ⟨t, ht⟩ := hok
    obtain ⟨hschema, hnew, d, hd, rfl⟩ := (apply_next_iff proper.next hu).mp ht
    exact .inr ⟨d, hnew, hd, ht, (apply_next_iff hnext hc).mpr ⟨hschema, hiff.mpr hnew, d, h.domain ▸ hd, rfl⟩⟩
  · refine .inl ⟨fun t ht => hok ⟨t, ht⟩, fun t ht => hok ?_⟩
    obtain ⟨hschema, hnew, d, hd, rfl⟩ := (apply_next_iff hnext hc).mp ht
    exact ⟨_, (apply_next_iff proper.next hu).mpr ⟨hschema, hiff.mp hnew, d, h.domain ▸ hd, rfl⟩⟩

theorem record (h : Tracked u c F D) (proper : Proper u F D event) {d : Domain} (new : existingEvent u event = .ok false)
    (mutated : u.toDomain.mutate event = .ok d) : Tracked (record u d event) (record c d event) F D := by
  have hnext := proper.next
  have hc := existingEvent_new_iff.mp ((h.new_iff proper).mpr new)
  have hu := existingEvent_new_iff.mp new
  refine ⟨h.history.record proper.fits (by omega) new mutated,
    h.regular.record proper.fits (by rw [h.domain]; omega) (h.domain ▸ mutated), rfl, ?_, ?_, ?_, ?_, ?_⟩
  · unfold State.record
    rw [h.receipts]
  · intro x text
    rw [find?_appliedEvents_record hc.1, find?_appliedEvents_record hu.1]
    split
    · exact id
    · exact h.texts x text
  · intro x text
    rw [find?_appliedEvents_record hc.1, find?_appliedEvents_record hu.1]
    split
    · exact nofun
    · exact h.dropped x text
  · intro x hx
    rw [knows_record, knows_record, h.known x hx]
  · intro x hx
    obtain ⟨hknown, hunknown⟩ := h.forgotten x hx
    rw [knows_record, knows_record]
    refine ⟨.inr hknown, fun hor => ?_⟩
    rcases hor with rfl | hor
    · exact proper.command hx
    · exact hunknown hor

theorem advance (h : Tracked u c F D) (proper : Proper u F D event) : Tracked (advance u event) (advance c event) F D := by
  unfold State.advance
  rcases h.apply proper with ⟨hu, hc⟩ | ⟨d, hnew, hd, hu, hc⟩
  · split
    · rename_i t ht
      exact absurd ht (hu t)
    · split
      · rename_i t ht
        exact absurd ht (hc t)
      · exact h
  · rw [hu, hc]
    exact h.record proper hnew hd

/-! ### Dropping texts -/

/-- Every text of a tracked replica parses. -/
theorem parses (h : Tracked u c F D) {x text : String} (hx : c.appliedEvents.find? x = some text) :
    ∃ event, parseEvent text = .ok event ∧ u.Knows event.commandId.value ∧
      (event.type = .noOp → c.receipts.contains event.commandId.value = false) := by
  obtain ⟨e, hfits, hmatches, rfl, -, hknows, hnoop⟩ := h.history.texts x text (h.texts x text hx)
  exact ⟨e.reread, parseEvent_canonicalEvent hfits hmatches, hknows, h.receipts ▸ hnoop⟩

theorem retains (h : Tracked u c F D) (anchor : Nat) : ∃ c', retainStateHistoryFrom c anchor = .ok c' :=
  h.history.retains h.texts anchor

theorem retain (h : Tracked u c F D) {c' : ChoreographyState} {anchor : Nat} (r : Retained c anchor c') :
    Tracked u c' (F ∪ noOpsBelow c anchor) (D ∪ eventsBelow c anchor) where
  history := h.history
  regular := r.regular h.regular
  domain := r.domain.trans h.domain
  receipts := r.receipts.trans h.receipts
  texts x text hx := h.texts x text ((r.texts x text).mp hx).1
  dropped x text hx hnone := by
    by_cases hc : c.appliedEvents.find? x = none
    · exact .inl (h.dropped x text hx hc)
    · obtain ⟨text', htext'⟩ := Option.ne_none_iff_exists'.mp hc
      obtain ⟨event, hevent, -⟩ := h.parses htext'
      refine .inr ⟨text', event, htext', hevent, ?_⟩
      by_contra hlate
      refine nomatch hnone.symm.trans ((r.texts x text').mpr ⟨htext', fun e he => ?_⟩)
      cases he.symm.trans hevent
      exact not_lt.mp hlate
  known x hx := by
    rw [Set.mem_union, not_or] at hx
    rw [← h.known x hx.1]
    unfold ChoreographyState.Knows
    rw [r.receipts]
    constructor
    · rintro (hc | hc)
      · exact .inl (r.commands x hc).1
      · exact .inr hc
    · rintro (hc | hc)
      · cases hreceipt : c.receipts.contains x with
        | true => exact .inr rfl
        | false => exact .inl (r.kept x hc hreceipt hx.2)
      · exact .inr hc
  forgotten x hx := by
    unfold ChoreographyState.Knows
    rw [r.receipts]
    rcases hx with hx | hx
    · obtain ⟨hknown, hunknown⟩ := h.forgotten x hx
      refine ⟨hknown, fun hor => hunknown (hor.imp_left fun hc => (r.commands x hc).1)⟩
    · have hx' := hx
      obtain ⟨y, text, event, htext, hevent, -, hnoop, rfl⟩ := hx'
      obtain ⟨e, he, hknows, hnone⟩ := h.parses htext
      cases he.symm.trans hevent
      refine ⟨hknows, fun hor => ?_⟩
      rcases hor with hc | hc
      · exact (r.commands _ hc).2 hx
      · exact nomatch (hnone hnoop).symm.trans hc

/-! ### Restoring a snapshot -/

theorem restore (h : Tracked u c F D) (same : (restored c).toDomain = c.toDomain) :
    Tracked u (restored c) (F ∪ noOpCommands c) (D ∪ {x | x ∈ c.appliedEvents.keys}) where
  history := h.history
  regular := h.regular.restored
  domain := same.trans h.domain
  receipts := h.receipts
  texts := nofun
  dropped x text hx _ := by
    by_cases hc : c.appliedEvents.find? x = none
    · exact .inl (h.dropped x text hx hc)
    · exact .inr (OrdMap.mem_keys.mpr (Option.isSome_iff_ne_none.mpr hc))
  known x hx := by
    rw [Set.mem_union, not_or] at hx
    rw [← h.known x hx.1, knows_restored]
    refine or_congr_left' fun hreceipt => ⟨fun hmem => ?_, fun hc => ?_⟩
    · obtain ⟨eventId, hfind, -⟩ := mem_legacyIds.mp hmem
      rw [OrdMap.contains_eq, hfind]
      rfl
    · obtain ⟨eventId, hfind⟩ := Option.isSome_iff_exists.mp hc
      have hnone : c.receipts.find? x = none := by simpa [OrdMap.contains_eq] using hreceipt
      refine mem_legacyIds.mpr ⟨eventId, hfind, hnone, ?_⟩
      rw [Bool.eq_false_iff]
      exact fun hnoop => hx.2 ⟨eventId, hfind, hnone, hnoop⟩
  forgotten x hx := by
    rw [knows_restored]
    rcases hx with hx | ⟨eventId, hfind, hnone, hnoop⟩
    · obtain ⟨hknown, hunknown⟩ := h.forgotten x hx
      refine ⟨hknown, fun hor => hunknown (hor.imp_left fun hmem => ?_)⟩
      obtain ⟨eventId, hfind, -⟩ := mem_legacyIds.mp hmem
      rw [OrdMap.contains_eq, hfind]
      rfl
    · have hc : c.Knows x := .inl (by rw [OrdMap.contains_eq, hfind]; rfl)
      have hunknown : ¬ (x ∈ legacyIds c ∨ c.receipts.contains x = true) := by
        rintro (hmem | hreceipt)
        · obtain ⟨eventId', hfind', -, hother⟩ := mem_legacyIds.mp hmem
          cases hfind.symm.trans hfind'
          exact nomatch hnoop.symm.trans hother
        · rw [OrdMap.contains_eq, hnone] at hreceipt
          cases hreceipt
      refine ⟨?_, hunknown⟩
      by_cases hF : x ∈ F
      · exact (h.forgotten x hF).1
      · exact (h.known x hF).mp hc

end Tracked

theorem Compacting.tracked {u c : ChoreographyState} {F D : Set String} (h : Compacting u c F D) : Tracked u c F D := by
  induction h with
  | start reached => exact .start reached
  | event _ event proper ih => exact ih.advance proper
  | retain _ anchor _ retained ih => exact ih.retain (retainStateHistoryFrom_cases retained)
  | restore _ restored same ih =>
    obtain rfl := Except.ok.inj ((restoreState_payload ih.regular).symm.trans restored)
    exact ih.restore same

/-! ### Commands -/

theorem propose_unknown {s : ChoreographyState} {command : Command} (h : ¬ s.Knows command.id.value) :
    propose s command = propose { toDomain := s.toDomain } command := by
  have hc : (s.appliedCommands.contains command.id.value || s.receipts.contains command.id.value) = false := by
    simpa [ChoreographyState.Knows] using h
  unfold propose
  rw [hc]
  rfl

theorem propose_known {s : ChoreographyState} {command : Command} (h : s.Knows command.id.value)
    (schema : command.schemaVersion = currentSchemaVersion) :
    propose s command = .error ⟨.duplicateCommand, "command id has already been accepted"⟩ := by
  have hc : (s.appliedCommands.contains command.id.value || s.receipts.contains command.id.value) = true := by
    simpa [ChoreographyState.Knows] using h
  unfold propose requireSchema
  rw [hc, schema]
  rfl

theorem propose_schema {s : ChoreographyState} {command : Command} (schema : command.schemaVersion ≠ currentSchemaVersion) :
    propose s command = .error ⟨.unsupportedVersion, "unsupported schema version " ++ toString command.schemaVersion.toNat⟩ := by
  unfold propose requireSchema
  rw [if_neg schema]
  rfl

/-- The result is not the refusal of a known command. -/
def NotDuplicate {α : Type} (r : Result α) : Prop := ∀ e, r = .error e → e.code ≠ .duplicateCommand

namespace NotDuplicate
variable {α β : Type}

theorem ok {a : α} : NotDuplicate (.ok a) := nofun

theorem error {code : ErrorCode} {message : String} (h : code ≠ .duplicateCommand) :
    NotDuplicate (.error ⟨code, message⟩ : Result α) := by
  intro e he
  cases he
  exact h

theorem bind {x : Result α} {f : α → Result β} (hx : NotDuplicate x) (hf : ∀ a, NotDuplicate (f a)) :
    NotDuplicate (x >>= f) := by
  cases x with
  | error e =>
    intro e' he
    cases he
    exact hx e rfl
  | ok a => exact hf a

theorem ite {c : Prop} [Decidable c] {x y : Result α} (hx : NotDuplicate x) (hy : NotDuplicate y) :
    NotDuplicate (if c then x else y) := by
  split
  · exact hx
  · exact hy

variable (d : Domain)

theorem requireCreated : NotDuplicate d.requireCreated := by
  unfold Domain.requireCreated
  split
  · exact .ok
  · exact .error (by decide)

theorem validateMember (member : DancerId) : NotDuplicate (d.validateMember member) := by
  unfold Domain.validateMember
  split
  · exact .error (by decide)
  · exact .ite .ok (.error (by decide))

theorem validateFormationMembers (members : List DancerId) : NotDuplicate (d.validateFormationMembers members) := by
  refine .ite (.error (by decide)) ?_
  induction members with
  | nil => exact .ok
  | cons member members ih => exact .bind (validateMember d member) fun _ => ih

theorem cueFor (payload : CuePayload) (tick : MusicalTick) : NotDuplicate (d.cueFor payload tick) := by
  refine .bind (requireCreated d) fun _ => .ite (.error (by decide)) (.bind ?_ fun _ => .ok)
  unfold Domain.validateCueDependency
  split
  · exact .ok
  · split
    · exact .error (by decide)
    · exact .ite (.error (by decide)) .ok

theorem mutate (event : Event) : NotDuplicate (d.mutate event) := by
  unfold Domain.mutate
  split
  · exact .ite (.error (by decide)) (.ite (.error (by decide)) .ok)
  · exact .bind (requireCreated d) fun _ => .ite (.error (by decide)) (.ite (.error (by decide)) (.ite (.error (by decide)) .ok))
  · refine .bind (requireCreated d) fun _ => ?_
    split
    · exact .error (by decide)
    · exact .ite (.error (by decide)) .ok
  · refine .bind (requireCreated d) fun _ => ?_
    split
    · exact .error (by decide)
    · exact .ite (.error (by decide)) (.ite (.error (by decide)) (.ite (.error (by decide)) (.ite (.error (by decide)) .ok)))
  · exact .bind (requireCreated d) fun _ => .bind (validateFormationMembers d _) fun _ =>
      .ite (.error (by decide)) (.ite (.error (by decide)) .ok)
  · exact .bind (requireCreated d) fun _ => .bind (validateFormationMembers d _) fun _ =>
      .ite (.error (by decide)) (.ite (.error (by decide)) .ok)
  · exact .bind (cueFor d _ _) fun _ => .ok
  · exact .bind (cueFor d _ _) fun _ => .ok
  · exact .ok
  · exact .error (by decide)

theorem requireSchema (version : UInt16) : NotDuplicate (requireSchema version) := .ite .ok (.error (by decide))

theorem apply (event : Event) : NotDuplicate (apply { toDomain := d } event) := by
  refine .bind (requireSchema _) fun _ => .bind .ok fun seen => ?_
  refine .ite .ok (.bind ?_ fun _ => .bind (mutate d event) fun _ => .ok)
  exact .ite .ok (.error (by decide))

theorem propose (command : Command) : NotDuplicate (propose { toDomain := d } command) := by
  refine .bind (requireSchema _) fun _ => ?_
  change NotDuplicate (if command.type ≠ .createChoreography then _ else _)
  let event := makeEvent command (d.lastApplied + 1) d.term (normalizePayload command.payload)
  have hlast : NotDuplicate (State.apply { toDomain := d } event >>= fun _ => .ok event) := .bind (apply d event) fun _ => .ok
  refine .ite (.bind (requireCreated d) fun _ => .ite ?_ ?_) (.ite ?_ ?_)
  · exact .bind (.error (by decide)) fun _ => hlast
  · exact hlast
  · exact .bind (.error (by decide)) fun _ => hlast
  · exact hlast

end NotDuplicate

/-- The two replicas answer a command alike unless its id is one that was forgotten. -/
theorem Tracked.propose_iff {u c : ChoreographyState} {F D : Set String} (h : Tracked u c F D) (command : Command) :
    propose c command = propose u command ↔ command.id.value ∉ F ∨ command.schemaVersion ≠ currentSchemaVersion := by
  by_cases hschema : command.schemaVersion = currentSchemaVersion
  · simp only [hschema, ne_eq, not_true_eq_false, or_false]
    constructor
    · intro heq hF
      obtain ⟨hknown, hunknown⟩ := h.forgotten _ hF
      rw [propose_unknown hunknown, propose_known hknown hschema] at heq
      exact NotDuplicate.propose c.toDomain command _ heq rfl
    · intro hF
      by_cases hknown : u.Knows command.id.value
      · rw [propose_known hknown hschema, propose_known ((h.known _ hF).mpr hknown) hschema]
      · rw [propose_unknown hknown, propose_unknown (mt (h.known _ hF).mp hknown), h.domain]
  · rw [propose_schema hschema, propose_schema hschema]
    exact ⟨fun _ => .inr hschema, fun _ => rfl⟩

/-- Beside a replica with the whole history, one that compacts at any points shows the same state, resolves
    the same receipts, and accepts the same events and commands, those aside that reuse a forgotten id. -/
theorem compaction_transparent {u c : ChoreographyState} {forgotten dropped : Set String}
    (h : Compacting u c forgotten dropped) : canonicalState c.toDomain = canonicalState u.toDomain ∧
    (∀ anchor ≤ c.lastApplied, ∃ c', retainStateHistoryFrom c anchor = .ok c') ∧
    (∀ command, resolveReceipt c command = resolveReceipt u command) ∧
    (∀ command, propose c command = propose u command ↔
      command.id.value ∉ forgotten ∨ command.schemaVersion ≠ currentSchemaVersion) ∧
    ∀ event, Proper u forgotten dropped event → ((∃ t, apply c event = .ok t) ↔ ∃ t, apply u event = .ok t) := by
  have ht := h.tracked
  refine ⟨by rw [ht.domain], fun anchor _ => ht.retains anchor, fun command => ?_, ht.propose_iff, fun event proper => ?_⟩
  · unfold resolveReceipt
    rw [ht.receipts]
  · rcases ht.apply proper with ⟨hu, hc⟩ | ⟨d, -, -, hu, hc⟩
    · exact ⟨fun ⟨t, ht⟩ => absurd ht (hc t), fun ⟨t, ht⟩ => absurd ht (hu t)⟩
    · exact ⟨fun _ => ⟨_, hu⟩, fun _ => ⟨_, hc⟩⟩

/-- The no-op that a leader of term 1 writes at index 1, as `CoreReplica::noop` names it. -/
def firstNoOp : Event :=
  { id := ⟨"noop-1-1", Eq.refl true⟩, commandId := ⟨"noop-1-1", Eq.refl true⟩, choreographyId := ⟨"system", Eq.refl true⟩, type := .noOp
    schemaVersion := currentSchemaVersion, tick := ⟨0, MusicalTick.zero_lt⟩, index := 1, term := 1
    payload := .create ⟨⟨"system", Eq.refl true⟩, unitStage, .forbidden, 0⟩ }

def secondCreation : Event := { Storage.creation ⟨"show", Eq.refl true⟩ with index := 2 }

/-- The state after the two. -/
def begun : ChoreographyState := advance (advance {} firstNoOp) secondCreation

theorem reached_begun : Reached begun := by
  have hfirst : Reached (advance {} firstNoOp) := .event firstNoOp .contiguous ⟨by decide, by decide, by decide⟩ .empty (by decide +kernel)
  exact .event secondCreation .contiguous ⟨by decide, by decide, by decide⟩ hfirst (by decide +kernel)

theorem compaction_transparent_begun : ∃ c, retainStateHistoryFrom begun 2 = .ok c ∧
    canonicalState c.toDomain = canonicalState begun.toDomain := by
  obtain ⟨c, hc⟩ := (Tracked.start reached_begun).retains 2
  exact ⟨c, hc, (compaction_transparent (.retain (.start reached_begun) 2 (by decide +kernel) hc)).1⟩

/-- A command with the id of the no-op. -/
def reusing : Command :=
  { id := ⟨"noop-1-1", Eq.refl true⟩, choreographyId := ⟨"show", Eq.refl true⟩, type := .addDancer
    schemaVersion := currentSchemaVersion, tick := ⟨0, MusicalTick.zero_lt⟩
    payload := .dancer ⟨⟨"d", Eq.refl true⟩, ⟨unitStage.width, unitStage.depth⟩⟩ }

/-- Once the no-op is dropped, its id is free: the compacted replica accepts a command, and the event of it,
    that the other refuses. -/
theorem compaction_frees_noop : ∃ c event, Reached begun ∧ 2 ≤ begun.lastApplied ∧ retainStateHistoryFrom begun 2 = .ok c ∧
    propose c reusing = .ok event ∧
    propose begun reusing = .error ⟨.duplicateCommand, "command id has already been accepted"⟩ ∧
    (apply c event).isOk = true ∧ (apply begun event).isOk = false := by
  refine ⟨match retainStateHistoryFrom begun 2 with | .ok c => c | .error _ => {},
    makeEvent reusing 3 1 (normalizePayload reusing.payload), reached_begun, ?_⟩
  decide +kernel

end Choreolog.State
