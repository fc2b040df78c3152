import Choreolog.Theorems.Compaction

/-! # Partial views of a history

A store that compacts its log or restarts from a snapshot holds a part of what replaying the whole history
would give. What the replay accepts, the store accepts, and it stays a part. -/

namespace Choreolog.State
open Lib

/-! ### Replays -/

theorem replay_eq (events : List Event) : replay events none none = events.foldlM apply {} := rfl

/-- Each event has the index of its place in the log. -/
def Indexed (log : List Event) : Prop := ∀ i event, log[i]? = some event → event.index = i + 1

theorem Indexed.take {log : List Event} (h : Indexed log) (n : Nat) : Indexed (log.take n) := by
  intro i event hi
  rw [List.getElem?_take] at hi
  split at hi
  · exact h i event hi
  · cases hi

theorem Indexed.append {log : List Event} {event : Event} (h : Indexed log) (next : event.index = log.length + 1) :
    Indexed (log ++ [event]) := by
  intro i e hi
  rw [List.getElem?_append] at hi
  split at hi
  · exact h i e hi
  · rename_i hlt
    rw [List.getElem?_singleton] at hi
    split at hi
    · cases hi
      omega
    · cases hi

/-- The term of the last event. -/
def lastTerm (log : List Event) : Nat := (log.getLast?.map (·.term)).getD 1

/-! ### States with a past -/

/-- The texts and receipts of a state are of events up to the last one. -/
structure Past (s : ChoreographyState) : Prop where
  texts : ∀ x text, s.appliedEvents.find? x = some text → ∃ e : Event, canonicalEvent e = text ∧ e.index ≤ s.lastApplied
  receipts : ∀ id r, s.receipts.find? id = some r → r.index ≤ s.lastApplied

namespace Past
variable {s : ChoreographyState} {event : Event}

/-- An event past everything that a state has seen is no repetition. -/
theorem later (h : Past s) (later : s.lastApplied < event.index) : existingEvent s event ≠ .ok true := by
  refine existingEvent_later (fun x text hx => ?_) fun id r hr => (h.receipts id r hr).trans_lt later
  obtain ⟨e, htext, hindex⟩ := h.texts x text hx
  exact ⟨e, htext, hindex.trans_lt later⟩

/-- What the next event does. -/
theorem apply_iff (h : Past s) (next : event.index = s.lastApplied + 1) {t : ChoreographyState} : apply s event = .ok t ↔
    requireSchema event.schemaVersion = .ok () ∧ existingEvent s event = .ok false ∧ ∃ d, s.toDomain.mutate event = .ok d ∧ t = record s d event :=
  apply_next_iff next (h.later (by omega))

theorem record (h : Past s) (later : s.lastApplied < event.index) {d : Domain} (new : existingEvent s event = .ok false) :
    Past (record s d event) where
  texts x text hx := by
    rw [find?_appliedEvents_record (existingEvent_new_iff.mp new).1] at hx
    split at hx
    · cases hx
      exact ⟨event, rfl, le_rfl⟩
    · obtain ⟨e, htext, hindex⟩ := h.texts x text hx
      exact ⟨e, htext, hindex.trans later.le⟩
  receipts id r hr := by
    rcases find?_record hr with hr | ⟨-, rfl⟩
    · exact (h.receipts id r hr).trans later.le
    · exact le_rfl

end Past

/-- A state whose texts are those of events that it has applied. -/
structure Lawful (s : ChoreographyState) : Prop where
  regular : Regular s
  history : History s

theorem Reached.lawful {s : ChoreographyState} (h : Reached s) : Lawful s := ⟨h.regular, h.history⟩

namespace Lawful
variable {s : ChoreographyState} {event : Event}

theorem restored (h : Regular s) : Lawful (restored s) := ⟨h.restored, ⟨nofun⟩⟩

theorem past (h : Lawful s) : Past s where
  texts x text hx := by
    obtain ⟨e, -, -, htext, hindex, -⟩ := h.history.texts x text hx
    exact ⟨e, htext, hindex⟩
  receipts id r hr := (h.regular.index id r hr).2

theorem record (h : Lawful s) (fits : event.Fits) (later : s.lastApplied < event.index) {d : Domain}
    (new : existingEvent s event = .ok false) (mutated : s.toDomain.mutate event = .ok d) : Lawful (record s d event) :=
  ⟨h.regular.record fits later mutated, h.history.record fits later new mutated⟩

end Lawful

theorem foldlM_concat {α β : Type} {f : β → α → Result β} {l : List α} {a : α} {init b : β}
    (h : (l ++ [a]).foldlM f init = .ok b) : ∃ c, l.foldlM f init = .ok c ∧ f c a = .ok b := by
  rw [List.foldlM_append] at h
  obtain ⟨c, hc, h⟩ := bind_ok h
  rw [List.foldlM_cons] at h
  obtain ⟨d, hd, h⟩ := bind_ok h
  cases h
  exact ⟨c, hc, hd⟩

/-- Events for the indexes after a state. -/
structure Follows (s : ChoreographyState) (events : List Event) : Prop where
  fits : ∀ e ∈ events, e.Fits
  indexed : ∀ i e, events[i]? = some e → e.index = s.lastApplied + i + 1

namespace Follows
variable {s t : ChoreographyState} {event : Event} {events : List Event}

theorem front (h : Follows s (events ++ [event])) :
    Follows s events ∧ event.Fits ∧ event.index = s.lastApplied + events.length + 1 := by
  refine ⟨⟨fun e he => h.fits e (List.mem_append_left _ he), fun i e hi => h.indexed i e ?_⟩,
    h.fits event (List.mem_append_right _ List.mem_cons_self), h.indexed events.length event (by simp)⟩
  rw [List.getElem?_append_left (List.getElem?_eq_some_iff.mp hi).1, hi]

theorem tail (h : Follows s (event :: events)) (next : t.lastApplied = event.index) : Follows t events where
  fits e he := h.fits e (List.mem_cons_of_mem _ he)
  indexed i e hi := by
    have hfirst := h.indexed 0 event rfl
    have := h.indexed (i + 1) e hi
    omega

end Follows

/-- A run of events leads to a state that has applied all of them. -/
theorem Lawful.fold {u u' : ChoreographyState} (lawful : Lawful u) {events : List Event} (follows : Follows u events)
    (h : events.foldlM apply u = .ok u') :
    Lawful u' ∧ u'.lastApplied = u.lastApplied + events.length ∧ u'.term = (events.getLast?.map (·.term)).getD u.term := by
  induction events using List.reverseRecOn generalizing u' with
  | nil =>
    cases h
    exact ⟨lawful, rfl, rfl⟩
  | append_singleton events event ih =>
    obtain ⟨v, hv, happly⟩ := foldlM_concat h
    obtain ⟨hfront, hfits, hnext⟩ := follows.front
    obtain ⟨hlawful, hlast, -⟩ := ih hfront hv
    obtain ⟨-, hnew, d, hd, rfl⟩ := (hlawful.past.apply_iff (by rw [hnext, hlast])).mp happly
    refine ⟨hlawful.record hfits (by omega) hnew hd, ?_, ?_⟩
    · rw [List.length_append]
      exact hnext
    · rw [List.getLast?_concat]
      rfl

/-- The command of a new event has no receipt yet. -/
theorem receipt_kept {s : ChoreographyState} {d : Domain} {event : Event} (new : existingEvent s event = .ok false) {x : String}
    {r : EventReceipt} (hr : s.receipts.find? x = some r) : (State.record s d event).receipts.find? x = some r := by
  unfold State.record
  dsimp only
  split
  · exact hr
  · rw [OrdMap.find?_insert, if_neg, hr]
    rintro rfl
    exact (existingEvent_new_iff.mp new).2 (.inr (by rw [OrdMap.contains_eq, hr]; rfl))

theorem receipt_recorded {s : ChoreographyState} {d : Domain} {event : Event} (type : event.type ≠ .noOp) :
    (State.record s d event).receipts.find? event.commandId.value = some (receiptFromEvent event) := by
  unfold State.record
  dsimp only
  rw [if_neg type, OrdMap.find?_insert, if_pos rfl]

/-- Receipts are kept, and every event that is not a no-op has one. -/
theorem Lawful.fold_receipts {u u' : ChoreographyState} (lawful : Lawful u) {events : List Event} (follows : Follows u events)
    (h : events.foldlM apply u = .ok u') :
    (∀ x r, u.receipts.find? x = some r → u'.receipts.find? x = some r) ∧
      ∀ e ∈ events, e.type ≠ .noOp → u'.receipts.find? e.commandId.value = some (receiptFromEvent e) := by
  induction events using List.reverseRecOn generalizing u' with
  | nil =>
    cases h
    exact ⟨fun _ _ hr => hr, nofun⟩
  | append_singleton events event ih =>
    obtain ⟨v, hv, happly⟩ := foldlM_concat h
    obtain ⟨hfront, hfits, hnext⟩ := follows.front
    obtain ⟨hlawful, hlast, -⟩ := lawful.fold hfront hv
    obtain ⟨hkept, hnew⟩ := ih hfront hv
    obtain ⟨-, hfresh, d, -, rfl⟩ := (hlawful.past.apply_iff (by rw [hnext, hlast])).mp happly
    refine ⟨fun x r hr => receipt_kept hfresh (hkept x r hr), fun e he htype => ?_⟩
    rcases List.mem_append.mp he with he | he
    · exact receipt_kept hfresh (hnew e he htype)
    · obtain rfl := List.mem_singleton.mp he
      exact receipt_recorded htype

/-! ### Views -/

/-- The second state agrees with the first and knows a part of its history. -/
structure View (u c : ChoreographyState) : Prop where
  regular : Regular c
  domain : c.toDomain = u.toDomain
  receipts : c.receipts = u.receipts
  texts : ∀ x text, c.appliedEvents.find? x = some text → u.appliedEvents.find? x = some text
  commands : ∀ x, c.appliedCommands.contains x = true → u.Knows x

namespace View
variable {u c : ChoreographyState} {event : Event}

theorem refl (h : Regular u) : View u u := ⟨h, rfl, rfl, fun _ _ hx => hx, fun _ hx => .inl hx⟩

theorem new (h : View u c) (new : existingEvent u event = .ok false) : existingEvent c event = .ok false := by
  obtain ⟨htext, hunknown⟩ := existingEvent_new_iff.mp new
  refine existingEvent_new_iff.mpr ⟨?_, ?_⟩
  · by_contra hsome
    obtain ⟨text, hx⟩ := Option.ne_none_iff_exists'.mp hsome
    exact nomatch htext.symm.trans (h.texts _ _ hx)
  · rintro (hc | hc)
    · exact hunknown (h.commands _ hc)
    · exact hunknown (.inr (h.receipts ▸ hc))

theorem record (h : View u c) (fits : event.Fits) (later : u.lastApplied < event.index) {d : Domain}
    (new : existingEvent u event = .ok false) (mutated : u.toDomain.mutate event = .ok d) :
    View (record u d event) (record c d event) := by
  have hc := existingEvent_new_iff.mp (h.new new)
  have hu := existingEvent_new_iff.mp new
  refine ⟨h.regular.record fits (by rw [h.domain]; exact later) (h.domain ▸ mutated), rfl, ?_, ?_, ?_⟩
  · unfold State.record
    rw [h.receipts]
  · intro x text
    rw [find?_appliedEvents_record hc.1, find?_appliedEvents_record hu.1]
    split
    · exact id
    · exact h.texts x text
  · intro x hx
    rw [knows_record]
    rcases OrdMap.mem_keys_tryEmplace.mp (OrdMap.contains_iff.mp hx) with rfl | hx
    · exact .inl rfl
    · exact .inr (h.commands x (OrdMap.contains_iff.mpr hx))

/-- What the whole history accepts next, a view accepts. -/
theorem apply (h : View u c) (lawful : Lawful u) (fits : event.Fits) (next : event.index = u.lastApplied + 1)
    {u' : ChoreographyState} (applied : State.apply u event = .ok u') : ∃ c', State.apply c event = .ok c' ∧ View u' c' := by
  obtain ⟨hschema, hnew, d, hd, rfl⟩ := (lawful.past.apply_iff next).mp applied
  have hc := h.new hnew
  refine ⟨State.record c d event, (apply_next_iff (by rw [next, h.domain]) ?_).mpr ⟨hschema, hc, d, h.domain ▸ hd, rfl⟩,
    h.record fits (by omega) hnew hd⟩
  rw [hc]
  exact fun hcontra => nomatch hcontra

/-- The same for a whole run of events. -/
theorem replay (h : View u c) (lawful : Lawful u) {events : List Event} (follows : Follows u events) {u' : ChoreographyState}
    (applied : events.foldlM State.apply u = .ok u') : ∃ c', events.foldlM State.apply c = .ok c' ∧ View u' c' := by
  induction events generalizing u c with
  | nil =>
    cases applied
    exact ⟨c, rfl, h⟩
  | cons event events ih =>
    rw [List.foldlM_cons] at applied
    obtain ⟨v, hv, applied⟩ := bind_ok applied
    have hfits := follows.fits event List.mem_cons_self
    have hnext := follows.indexed 0 event rfl
    obtain ⟨c', hc', hview⟩ := h.apply lawful hfits hnext hv
    obtain ⟨-, hnew, d, hd, rfl⟩ := (lawful.past.apply_iff hnext).mp hv
    obtain ⟨c'', hc'', hview'⟩ := ih hview (lawful.record hfits (by omega) hnew hd) (follows.tail rfl) applied
    refine ⟨c'', ?_, hview'⟩
    rw [List.foldlM_cons, hc']
    exact hc''

/-! ### Batches -/

theorem publishCommitted_record {staged : ChoreographyState} {d : Domain} (new : existingEvent c event = .ok false) :
    publishCommitted c (State.record staged d event) = State.record (publishCommitted c staged) d event := by
  have hnone : c.receipts.find? event.commandId.value = none := by
    by_contra hsome
    exact (existingEvent_new_iff.mp new).2 (.inr (Option.isSome_iff_ne_none.mpr hsome))
  have hevents : c.appliedEvents.merge (staged.appliedEvents.tryEmplace event.id.value (canonicalEvent event)) =
      (c.appliedEvents.merge staged.appliedEvents).tryEmplace event.id.value (canonicalEvent event) := by
    refine OrdMap.ext_find? fun x => ?_
    rw [OrdMap.find?_merge, OrdMap.find?_tryEmplace, OrdMap.find?_tryEmplace, OrdMap.find?_merge, Option.or_assoc]
  have hcommands : c.appliedCommands.merge (staged.appliedCommands.tryEmplace event.commandId.value event.id.value) =
      (c.appliedCommands.merge staged.appliedCommands).tryEmplace event.commandId.value event.id.value := by
    refine OrdMap.ext_find? fun x => ?_
    rw [OrdMap.find?_merge, OrdMap.find?_tryEmplace, OrdMap.find?_tryEmplace, OrdMap.find?_merge, Option.or_assoc]
  have hreceipts : c.receipts.merge (staged.receipts.insert event.commandId.value (receiptFromEvent event)) =
      (c.receipts.merge staged.receipts).insert event.commandId.value (receiptFromEvent event) := by
    refine OrdMap.ext_find? fun x => ?_
    rw [OrdMap.find?_merge, OrdMap.find?_insert, OrdMap.find?_insert, OrdMap.find?_merge]
    split
    · rename_i heq
      rw [← heq, hnone]
      rfl
    · rfl
  unfold publishCommitted State.record
  dsimp only
  rw [hevents, hcommands]
  split
  · rfl
  · rw [hreceipts]

/-- What is staged against a state is new to both. -/
theorem existingEvent_published {staged : ChoreographyState} (new : existingEvent (publishCommitted c staged) event = .ok false) :
    existingEvent c event = .ok false ∧ existingEvent staged event = .ok false := by
  obtain ⟨htext, hunknown⟩ := existingEvent_new_iff.mp new
  simp only [publishCommitted, ChoreographyState.Knows, OrdMap.contains_eq, OrdMap.find?_merge, Option.or_eq_none_iff,
    Option.isSome_or, Bool.or_eq_true, not_or] at htext hunknown
  obtain ⟨⟨hc, hs⟩, hc', hs'⟩ := hunknown
  exact ⟨existingEvent_new_iff.mpr ⟨htext.1, not_or.mpr ⟨hc, hc'⟩⟩, existingEvent_new_iff.mpr ⟨htext.2, not_or.mpr ⟨hs, hs'⟩⟩⟩

/-- What is new to both is new to what is published. -/
theorem existingEvent_publish {staged : ChoreographyState} (new : existingEvent c event = .ok false)
    (unstaged : existingEvent staged event = .ok false) : existingEvent (publishCommitted c staged) event = .ok false := by
  obtain ⟨htext, hunknown⟩ := existingEvent_new_iff.mp unstaged
  obtain ⟨htext', hunknown'⟩ := existingEvent_new_iff.mp new
  refine existingEvent_new_iff.mpr ⟨?_, ?_⟩
  · change (c.appliedEvents.merge staged.appliedEvents).find? _ = none
    rw [OrdMap.find?_merge, htext, htext']
    rfl
  · simp only [ChoreographyState.Knows, not_or, OrdMap.contains_eq, Bool.not_eq_true, Option.isSome_eq_false_iff,
      Option.isNone_iff_eq_none] at hunknown hunknown' ⊢
    simp only [publishCommitted, OrdMap.find?_merge, hunknown, hunknown', Option.or_none, and_self]

theorem publishCommitted_refl (c : ChoreographyState) : publishCommitted c { toDomain := c.toDomain } = c := by
  have hmerge : ∀ {ν : Type} (m : OrdMap String ν), m.merge .empty = m := fun _ => rfl
  unfold publishCommitted
  dsimp only
  rw [hmerge, hmerge, hmerge]

theorem applyAgainst_new {staged : ChoreographyState} {d : Domain} (schema : requireSchema event.schemaVersion = .ok ())
    (new : existingEvent staged event = .ok false) (newc : existingEvent c event = .ok false)
    (next : event.index = staged.lastApplied + 1) (mutated : staged.toDomain.mutate event = .ok d) :
    applyAgainst staged event .contiguous (some c) = .ok (State.record staged d event) := by
  have hindex : checkIndex staged.toDomain event.index .contiguous = .ok () := if_pos next
  unfold applyAgainst
  rw [schema, new]
  simp only [bind, Except.bind, newc, hindex, mutated, Bool.false_eq_true, if_false]
  rfl

/-- What is staged and then published is what applying the events gives. -/
theorem prepareCommitted_fold (past : Past c) {events : List Event} (follows : Follows c events) {staged : ChoreographyState}
    (h : prepareCommitted c events = .ok staged) : events.foldlM State.apply c = .ok (publishCommitted c staged) ∧ Past staged ∧
      Past (publishCommitted c staged) ∧ staged.lastApplied = c.lastApplied + events.length := by
  induction events using List.reverseRecOn generalizing staged with
  | nil =>
    cases h
    rw [publishCommitted_refl]
    exact ⟨rfl, ⟨nofun, nofun⟩, past, rfl⟩
  | append_singleton events event ih =>
    obtain ⟨before, hbefore, happly⟩ := foldlM_concat h
    obtain ⟨hfront, -, hnext⟩ := follows.front
    obtain ⟨hfold, hpast, hpublished, hlast⟩ := ih hfront hbefore
    have hlater : before.lastApplied < event.index := by omega
    obtain ⟨_, hschema, happly⟩ := bind_ok happly
    obtain ⟨seen, hseen, happly⟩ := bind_ok happly
    cases seen with
    | true => exact absurd hseen (hpast.later hlater)
    | false =>
      obtain ⟨known, hknown, happly⟩ := bind_ok happly
      cases known with
      | true => exact absurd hknown (past.later (by omega))
      | false =>
        obtain ⟨_, hindex, happly⟩ := bind_ok happly
        obtain ⟨d, hd, happly⟩ := bind_ok happly
        cases happly
        have hnew := existingEvent_publish hknown hseen
        rw [publishCommitted_record hknown]
        refine ⟨?_, hpast.record hlater hseen, hpublished.record hlater hnew, ?_⟩
        · rw [List.foldlM_append, hfold]
          change (State.apply (publishCommitted c before) event >>= _) = _
          rw [(hpublished.apply_iff (by rw [hnext, ← hlast]; rfl)).mpr ⟨hschema, hnew, d, hd, rfl⟩]
          rfl
        · rw [List.length_append]
          exact hnext

/-- What applies can be staged. -/
theorem prepareCommitted_total (past : Past c) {events : List Event} (follows : Follows c events) {c' : ChoreographyState}
    (h : events.foldlM State.apply c = .ok c') : ∃ staged, prepareCommitted c events = .ok staged := by
  induction events using List.reverseRecOn generalizing c' with
  | nil => exact ⟨_, rfl⟩
  | append_singleton events event ih =>
    obtain ⟨v, hv, happly⟩ := foldlM_concat h
    obtain ⟨hfront, -, hnext⟩ := follows.front
    obtain ⟨before, hbefore⟩ := ih hfront hv
    obtain ⟨hfold, -, hpublished, hlast⟩ := prepareCommitted_fold past hfront hbefore
    obtain rfl := Except.ok.inj (hfold.symm.trans hv)
    obtain ⟨hschema, hnew, d, hd, rfl⟩ := (hpublished.apply_iff (by rw [hnext, ← hlast]; rfl)).mp happly
    obtain ⟨hnewc, hnews⟩ := existingEvent_published hnew
    refine ⟨State.record before d event, ?_⟩
    unfold prepareCommitted at hbefore ⊢
    rw [List.foldlM_append, hbefore]
    change (applyAgainst before event .contiguous (some c) >>= _) = _
    rw [applyAgainst_new hschema hnews hnewc (by rw [hnext, ← hlast]) hd]
    rfl

theorem past (h : View u c) (lawful : Lawful u) : Past c where
  texts x text hx := by
    rw [h.domain]
    exact lawful.past.texts x text (h.texts x text hx)
  receipts id r hr := by
    rw [h.domain]
    exact lawful.past.receipts id r (h.receipts ▸ hr)

theorem follows (h : View u c) {events : List Event} (follows : Follows u events) : Follows c events :=
  ⟨follows.fits, fun i e hi => by rw [h.domain]; exact follows.indexed i e hi⟩

/-- The commit path of a view: the batch is staged, and publishing it gives a view again. -/
theorem prepare (h : View u c) (lawful : Lawful u) {events : List Event} (follows : Follows u events) {u' : ChoreographyState}
    (applied : events.foldlM State.apply u = .ok u') :
    ∃ staged, prepareCommitted c events = .ok staged ∧ staged.toDomain = u'.toDomain ∧ View u' (publishCommitted c staged) := by
  obtain ⟨c', hc', hview⟩ := h.replay lawful follows applied
  have hpast := h.past lawful
  have hfollows := h.follows follows
  obtain ⟨staged, hstaged⟩ := prepareCommitted_total hpast hfollows hc'
  obtain ⟨hfold, -⟩ := prepareCommitted_fold hpast hfollows hstaged
  obtain rfl := Except.ok.inj (hfold.symm.trans hc')
  exact ⟨staged, hstaged, hview.domain, hview⟩

/-! ### Compaction and snapshots -/

theorem retains (h : View u c) (history : History u) (anchor : Nat) :
    ∃ c', retainStateHistoryFrom c anchor = .ok c' ∧ View u c' := by
  obtain ⟨c', hc'⟩ := history.retains h.texts anchor
  have hretained := retainStateHistoryFrom_cases hc'
  refine ⟨c', hc', ⟨hretained.regular h.regular, hretained.domain.trans h.domain, hretained.receipts.trans h.receipts, ?_, ?_⟩⟩
  · exact fun x text hx => h.texts x text ((hretained.texts x text).mp hx).1
  · exact fun x hx => h.commands x (hretained.commands x hx).1

theorem restore (h : View u c) (same : c.toDomain.dashless = c.toDomain) : View u (restored c) where
  regular := h.regular.restored
  domain := same.trans h.domain
  receipts := h.receipts
  texts := nofun
  commands x hx := by
    have hknows : (restored c).Knows x := .inl hx
    rcases knows_restored.mp hknows with hmem | hreceipt
    · obtain ⟨eventId, hfind, -⟩ := mem_legacyIds.mp hmem
      exact h.commands x (by rw [OrdMap.contains_eq, hfind]; rfl)
    · exact .inr (h.receipts ▸ hreceipt)

/-- The receipts of a history that the state has applied are there already. -/
theorem restoreReceipts_eq {history : List Event}
    (receipts : ∀ e ∈ history, e.type ≠ .noOp → c.receipts.find? e.commandId.value = some (receiptFromEvent e)) :
    restoreReceipts c history = c := by
  have hfold : history.foldl (fun receipts event =>
      if event.type = .noOp then receipts else receipts.insert event.commandId.value (receiptFromEvent event)) c.receipts = c.receipts := by
    induction history with
    | nil => rfl
    | cons event history ih =>
      rw [List.foldl_cons]
      split
      · exact ih fun e he => receipts e (List.mem_cons_of_mem _ he)
      · rename_i htype
        have hfind := receipts event List.mem_cons_self htype
        have hsame : c.receipts.insert event.commandId.value (receiptFromEvent event) = c.receipts := by
          refine OrdMap.ext_find? fun x => ?_
          rw [OrdMap.find?_insert]
          split
          · rename_i heq
            rw [← heq, hfind]
          · rfl
        rw [hsame]
        exact ih fun e he => receipts e (List.mem_cons_of_mem _ he)
  unfold restoreReceipts
  rw [hfold]

end View

end Choreolog.State
