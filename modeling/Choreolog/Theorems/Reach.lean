import Choreolog.State.Snapshot

/-! # Reachable choreography states

What holds of every state that events have built from the empty one: identifiers are checked, receipts
name distinct earlier indexes, and the history holds the text of every event. -/

namespace Choreolog.State
open Lib

/-- The term and the index of an event are 64-bit numbers, and its term is one that parses. -/
structure Event.Fits (event : Event) : Prop where
  index : event.index < 2 ^ 64
  term : event.term < 2 ^ 64
  positive : 0 < event.term

/-- The states that events build from the empty one, under either index rule. -/
inductive Reached : ChoreographyState → Prop
  | empty : Reached {}
  | event {s t : ChoreographyState} (event : Event) (rule : IndexRule) (fits : event.Fits) (reached : Reached s)
      (applied : applyAgainst s event rule none = .ok t) : Reached t

/-! ### One event -/

/-- The keys of the domain's tables are identifiers. -/
structure Domain.Named (d : Domain) : Prop where
  dancers : ∀ x ∈ d.dancers.keys, validId x = true
  formations : ∀ x ∈ d.formations.keys, validId x = true
  musicCues : ∀ x ∈ d.musicCues.keys, validId x = true
  lightingCues : ∀ x ∈ d.lightingCues.keys, validId x = true

theorem bind_ok {α β : Type} {x : Result α} {f : α → Result β} {b : β} (h : (x >>= f) = .ok b) :
    ∃ a, x = .ok a ∧ f a = .ok b := by
  cases x with
  | error e => cases h
  | ok a => exact ⟨a, rfl, h⟩

/-- A check that did not fail. -/
theorem unless_ok {α : Type} {p : Prop} [Decidable p] {e : Error} {f : Unit → Result α} {a : α}
    (h : (if p then Except.error e >>= f else f ()) = .ok a) : ¬ p ∧ f () = .ok a := by
  split at h
  · cases h
  · exact ⟨‹_›, h⟩

theorem keys_insert {ν : Type} {m : OrdMap String ν} {k : String} {v : ν} (h : ∀ x ∈ m.keys, validId x = true)
    (hk : validId k = true) : ∀ x ∈ (m.insert k v).keys, validId x = true := by
  intro x hx
  rcases OrdMap.mem_put_keys.mp hx with rfl | hx
  · exact hk
  · exact h x hx

theorem keys_tryEmplace {ν : Type} {m : OrdMap String ν} {k : String} {v : ν} (h : ∀ x ∈ m.keys, validId x = true)
    (hk : validId k = true) : ∀ x ∈ (m.tryEmplace k v).keys, validId x = true := by
  intro x hx
  rcases OrdMap.mem_keys_tryEmplace.mp hx with rfl | hx
  · exact hk
  · exact h x hx

/-- The type of an event and its payload belong together. -/
def Event.Matches (event : Event) : Prop :=
  match event.type, event.payload with
  | .choreographyCreated, .create _ | .dancerAdded, .dancer _ | .dancerRemoved, .removed _ | .dancerMoved, .dancer _
  | .formationDefined, .formation _ | .formationChanged, .formation _ | .musicCueTriggered, .cue _
  | .lightingCueTriggered, .cue _ | .noOp, _ => True
  | _, _ => False

/-- All that an event may do to the domain, and what has been checked then. -/
inductive Mutated (d : Domain) (event : Event) : Domain → Prop
  | created (p : CreateChoreographyPayload) (fresh : d.created = false) (travel : 0 ≤ p.maxTravelMm) : Mutated d event
      { d with
        created := true, id := some p.choreographyId, stage := some p.stage, overlap := p.overlap
        maxTravelMm := p.maxTravelMm, term := event.term }
  | added (p : DancerPayload) (stage : StageBounds) (created : d.requireCreated = .ok stage)
      (new : d.dancers.find? p.dancerId.value = none) (inside : stage.contains p.position = true)
      (free : d.overlap = .forbidden → d.markOccupied p.position none = false) :
      Mutated d event { d with dancers := d.dancers.insert p.dancerId.value { position := p.position } }
  | removed (id : DancerId) (dancer : DancerState) (found : d.dancers.find? id.value = some dancer) :
      Mutated d event { d with dancers := d.dancers.insert id.value { dancer with active := false } }
  | moved (p : DancerPayload) (dancer : DancerState) (stage : StageBounds) (created : d.requireCreated = .ok stage)
      (found : d.dancers.find? p.dancerId.value = some dancer) (inside : stage.contains p.position = true)
      (free : d.overlap = .forbidden → d.markOccupied p.position (some p.dancerId) = false) :
      Mutated d event { d with dancers := d.dancers.insert p.dancerId.value { dancer with position := p.position } }
  | formation (id : FormationId) (members : List DancerId) (valid : d.validateFormationMembers (uniqueSorted members) = .ok ()) :
      Mutated d event { d with formations := d.formations.insert id.value { members := uniqueSorted members } }
  | music (p : CuePayload) (new : d.findCue p.cueId = none) (valid : d.validateCueDependency p event.tick = .ok ()) :
      Mutated d event { d with musicCues := d.musicCues.insert p.cueId.value { tick := event.tick, dependsOn := p.dependsOn } }
  | light (p : CuePayload) (new : d.findCue p.cueId = none) (valid : d.validateCueDependency p event.tick = .ok ()) :
      Mutated d event { d with lightingCues := d.lightingCues.insert p.cueId.value { tick := event.tick, dependsOn := p.dependsOn } }
  | same : Mutated d event d

namespace Domain
variable {d d' : Domain} {event : Event}

theorem tryEmplace_new {ν : Type} {m : OrdMap String ν} {k : String} {v : ν} (h : m.find? k = none) :
    m.tryEmplace k v = m.insert k v := by
  unfold OrdMap.tryEmplace
  rw [if_neg (by simp [OrdMap.contains_eq, h])]

theorem applyCreate_cases {p : CreateChoreographyPayload} (ok : d.applyCreate event p = .ok d') : Mutated d event d' := by
  unfold applyCreate at ok
  split at ok
  · cases ok
  · rename_i fresh
    split at ok
    · cases ok
    · rename_i travel
      cases ok
      exact .created p (by simpa using fresh) (Int32.not_lt.mp travel)

theorem applyAdd_cases {p : DancerPayload} (ok : d.applyAdd p = .ok d') : Mutated d event d' := by
  obtain ⟨stage, hstage, ok⟩ := bind_ok ok
  split at ok
  · cases ok
  · rename_i hnew
    split at ok
    · cases ok
    · rename_i hinside
      split at ok
      · cases ok
      · rename_i hfree
        have hnone : d.dancers.find? p.dancerId.value = none := by simpa [findDancer] using hnew
        cases ok
        rw [tryEmplace_new hnone]
        exact .added p stage hstage hnone (by simpa using hinside) (by simpa using hfree)

theorem applyRemove_cases {p : RemoveDancerPayload} (ok : d.applyRemove p = .ok d') : Mutated d event d' := by
  obtain ⟨stage, -, ok⟩ := bind_ok ok
  split at ok
  · cases ok
  · rename_i dancer hfound
    split at ok
    · cases ok
    · cases ok
      exact .removed p.dancerId dancer hfound

theorem applyMove_cases {p : DancerPayload} (ok : d.applyMove p = .ok d') : Mutated d event d' := by
  obtain ⟨stage, hstage, ok⟩ := bind_ok ok
  split at ok
  · cases ok
  · rename_i dancer hfound
    split at ok
    · cases ok
    · split at ok
      · cases ok
      · rename_i hinside
        split at ok
        · cases ok
        · split at ok
          · cases ok
          · rename_i hfree
            cases ok
            exact .moved p dancer stage hstage hfound (by simpa using hinside) (by simpa using hfree)

theorem applyFormation_cases {type : EventType} {p : FormationPayload} (ok : d.applyFormation type p = .ok d') :
    Mutated d event d' := by
  obtain ⟨stage, -, ok⟩ := bind_ok ok
  obtain ⟨_, hvalid, ok⟩ := bind_ok ok
  dsimp only at ok
  split at ok
  · cases ok
  · split at ok
    · cases ok
    · cases ok
      exact .formation p.formationId p.members hvalid

/-- A cue that passes the checks is a new one, and the one it depends on is there. -/
theorem cueFor_ok {p : CuePayload} {tick : MusicalTick} {cue : CueState} (ok : d.cueFor p tick = .ok cue) :
    d.findCue p.cueId = none ∧ d.validateCueDependency p tick = .ok () ∧ cue = { tick, dependsOn := p.dependsOn } := by
  obtain ⟨stage, -, ok⟩ := bind_ok ok
  split at ok
  · cases ok
  · rename_i hnew
    obtain ⟨_, hvalid, ok⟩ := bind_ok ok
    exact ⟨by simpa using hnew, hvalid, (Except.ok.inj ok).symm⟩

theorem findCue_none {id : CueId} (h : d.findCue id = none) :
    d.musicCues.find? id.value = none ∧ d.lightingCues.find? id.value = none := Option.or_eq_none_iff.mp h

theorem applyMusicCue_cases {p : CuePayload} (ok : d.applyMusicCue p event.tick = .ok d') : Mutated d event d' := by
  obtain ⟨cue, hcue, ok⟩ := bind_ok ok
  obtain ⟨hnew, hvalid, rfl⟩ := cueFor_ok hcue
  cases ok
  rw [tryEmplace_new (findCue_none hnew).1]
  exact .music p hnew hvalid

theorem applyLightingCue_cases {p : CuePayload} (ok : d.applyLightingCue p event.tick = .ok d') : Mutated d event d' := by
  obtain ⟨cue, hcue, ok⟩ := bind_ok ok
  obtain ⟨hnew, hvalid, rfl⟩ := cueFor_ok hcue
  cases ok
  rw [tryEmplace_new (findCue_none hnew).2]
  exact .light p hnew hvalid

theorem mutate_cases (ok : d.mutate event = .ok d') : Mutated d event d' ∧ event.Matches := by
  unfold Event.Matches
  unfold mutate at ok
  split at ok
  · rename_i h1 h2
    exact ⟨applyCreate_cases ok, by simp [h1, h2]⟩
  · rename_i h1 h2
    exact ⟨applyAdd_cases ok, by simp [h1, h2]⟩
  · rename_i h1 h2
    exact ⟨applyRemove_cases ok, by simp [h1, h2]⟩
  · rename_i h1 h2
    exact ⟨applyMove_cases ok, by simp [h1, h2]⟩
  · rename_i h1 h2
    exact ⟨applyFormation_cases ok, by simp [h1, h2]⟩
  · rename_i h1 h2
    exact ⟨applyFormation_cases ok, by simp [h1, h2]⟩
  · rename_i h1 h2
    exact ⟨applyMusicCue_cases ok, by simp [h1, h2]⟩
  · rename_i h1 h2
    exact ⟨applyLightingCue_cases ok, by simp [h1, h2]⟩
  · rename_i h1
    cases ok
    exact ⟨.same, by simp [h1]⟩
  · cases ok

theorem Named.mutated (h : Mutated d event d') (hd : d.Named) : d'.Named := by
  cases h with
  | created p fresh travel => exact { hd with }
  | added p => exact { hd with dancers := keys_insert hd.dancers p.dancerId.valid }
  | removed id => exact { hd with dancers := keys_insert hd.dancers id.valid }
  | moved p => exact { hd with dancers := keys_insert hd.dancers p.dancerId.valid }
  | formation id => exact { hd with formations := keys_insert hd.formations id.valid }
  | music p => exact { hd with musicCues := keys_insert hd.musicCues p.cueId.valid }
  | light p => exact { hd with lightingCues := keys_insert hd.lightingCues p.cueId.valid }
  | same => exact hd

end Domain

/-- All that applying an event may do: nothing, for one that the history has, or the mutation and its
    record at a later index. -/
inductive Applied (s : ChoreographyState) (event : Event) (rule : IndexRule) : ChoreographyState → Prop
  | known (known : existingEvent s event = .ok true) : Applied s event rule s
  | fresh (d : Domain) (new : existingEvent s event = .ok false) (later : s.lastApplied < event.index)
      (index : checkIndex s.toDomain event.index rule = .ok ()) (mutated : s.toDomain.mutate event = .ok d) :
      Applied s event rule (record s d event)

theorem applyAgainst_cases {s t : ChoreographyState} {event : Event} {rule : IndexRule}
    (ok : applyAgainst s event rule none = .ok t) : Applied s event rule t := by
  obtain ⟨_, -, ok⟩ := bind_ok ok
  obtain ⟨seen, hseen, ok⟩ := bind_ok ok
  cases seen with
  | true =>
    cases ok
    exact .known hseen
  | false =>
    obtain ⟨_, hindex, ok⟩ := bind_ok ok
    obtain ⟨d, hmutate, ok⟩ := bind_ok ok
    cases ok
    refine .fresh d hseen ?_ hindex hmutate
    unfold checkIndex at hindex
    cases rule with
    | contiguous =>
      dsimp only at hindex
      split at hindex
      · omega
      · cases hindex
    | monotonic =>
      dsimp only at hindex
      split at hindex
      · assumption
      · cases hindex

/-! ### Regular states -/

/-- What the text of a state relies on. -/
structure Regular (s : ChoreographyState) : Prop where
  named : s.toDomain.Named
  commands : ∀ x ∈ s.appliedCommands.keys, validId x = true
  receiptIds : ∀ x ∈ s.receipts.keys, validId x = true
  lastApplied : s.lastApplied < 2 ^ 64
  term : s.term < 2 ^ 64
  termPos : 0 < s.term
  index : ∀ id r, s.receipts.find? id = some r → 0 < r.index ∧ r.index ≤ s.lastApplied
  receiptTerm : ∀ id r, s.receipts.find? id = some r → 0 < r.term ∧ r.term < 2 ^ 64
  distinct : ∀ id id' r r', s.receipts.find? id = some r → s.receipts.find? id' = some r' → r.index = r'.index → id = id'

theorem Regular.empty : Regular {} :=
  ⟨⟨nofun, nofun, nofun, nofun⟩, nofun, nofun, by decide, by decide, by decide, nofun, nofun, nofun⟩

theorem find?_record {s : ChoreographyState} {d : Domain} {event : Event} {id : String} {r : EventReceipt}
    (h : (record s d event).receipts.find? id = some r) :
    s.receipts.find? id = some r ∨ id = event.commandId.value ∧ r = receiptFromEvent event := by
  unfold record at h
  dsimp only at h
  split at h
  · exact .inl h
  · rw [OrdMap.find?_insert] at h
    split at h
    · rename_i heq
      exact .inr ⟨heq.symm, (Option.some.inj h).symm⟩
    · exact .inl h

theorem Regular.record {s : ChoreographyState} {d : Domain} {event : Event} (h : Regular s) (fits : event.Fits)
    (later : s.lastApplied < event.index) (mutated : s.toDomain.mutate event = .ok d) : Regular (record s d event) where
  named := by
    have hd := Domain.Named.mutated (Domain.mutate_cases mutated).1 h.named
    exact ⟨hd.dancers, hd.formations, hd.musicCues, hd.lightingCues⟩
  commands := keys_tryEmplace h.commands event.commandId.valid
  receiptIds := by
    unfold State.record
    dsimp only
    split
    · exact h.receiptIds
    · exact keys_insert h.receiptIds event.commandId.valid
  lastApplied := fits.index
  term := fits.term
  termPos := fits.positive
  index id r hr := by
    rcases find?_record hr with hr | ⟨-, rfl⟩
    · obtain ⟨h1, h2⟩ := h.index id r hr
      exact ⟨h1, h2.trans later.le⟩
    · exact ⟨(Nat.zero_le _).trans_lt later, le_rfl⟩
  receiptTerm id r hr := by
    rcases find?_record hr with hr | ⟨-, rfl⟩
    · exact h.receiptTerm id r hr
    · exact ⟨fits.positive, fits.term⟩
  distinct id id' r r' hr hr' heq := by
    -- The new receipt's index is past all the others.
    have hold : ∀ x q, s.receipts.find? x = some q → q.index ≠ event.index := fun x q hq =>
      ((h.index x q hq).2.trans_lt later).ne
    rcases find?_record hr with hr | ⟨rfl, rfl⟩
    · rcases find?_record hr' with hr' | ⟨rfl, rfl⟩
      · exact h.distinct id id' r r' hr hr' heq
      · exact absurd heq (hold id r hr)
    · rcases find?_record hr' with hr' | ⟨rfl, rfl⟩
      · exact absurd heq.symm (hold id' r' hr')
      · rfl

theorem Reached.regular {s : ChoreographyState} (h : Reached s) : Regular s := by
  induction h with
  | empty => exact .empty
  | event event rule fits _ applied ih =>
    cases applyAgainst_cases applied with
    | known known => exact ih
    | fresh d new later index mutated => exact ih.record fits later mutated

end Choreolog.State
