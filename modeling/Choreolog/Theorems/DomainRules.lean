import Choreolog.Theorems.Reach

/-! # The rules of the domain

What holds of the tables of a choreography after any events, whether they were accepted or not: everyone is on
the stage and, where that is the policy, on a mark of their own; formations name dancers; cues depend on cues
that were there before; receipts name distinct events up to the last one. -/

namespace Choreolog.State
open Lib

/-! ### Sorted members -/

theorem mem_insertMember {m x : DancerId} : ∀ {l : List DancerId}, m ∈ insertMember x l ↔ m = x ∨ m ∈ l
  | [] => List.mem_singleton.trans (or_iff_left (List.not_mem_nil)).symm
  | y :: l => by
    unfold insertMember
    split
    · exact List.mem_cons
    · split
      · rename_i heq
        subst heq
        rw [List.mem_cons, or_self_left]
      · rw [List.mem_cons, mem_insertMember, List.mem_cons, or_left_comm]

theorem mem_uniqueSorted {m : DancerId} {l : List DancerId} : m ∈ uniqueSorted l ↔ m ∈ l := by
  induction l with
  | nil => rfl
  | cons x l ih =>
    change m ∈ insertMember x (uniqueSorted l) ↔ _
    rw [mem_insertMember, ih, List.mem_cons]

/-- Strictly increasing, by id. -/
def Increasing (members : List DancerId) : Prop := members.Pairwise fun a b => a.value < b.value

theorem Increasing.insertMember {x : DancerId} : ∀ {l : List DancerId}, Increasing l → Increasing (insertMember x l)
  | [], _ => List.pairwise_singleton _ _
  | y :: l, h => by
    obtain ⟨hfirst, hrest⟩ := List.pairwise_cons.mp h
    unfold State.insertMember
    split
    · rename_i hless
      refine List.pairwise_cons.mpr ⟨fun z hz => ?_, h⟩
      rcases List.mem_cons.mp hz with rfl | hz
      · exact hless
      · exact hless.trans (hfirst z hz)
    · rename_i hless
      split
      · exact h
      · rename_i hne
        have hlarger : y.value < x.value := by
          refine lt_of_le_of_ne (not_lt.mp hless) fun heq => hne (StrongId.ext heq.symm)
        refine List.pairwise_cons.mpr ⟨fun z hz => ?_, Increasing.insertMember hrest⟩
        rcases mem_insertMember.mp hz with rfl | hz
        · exact hlarger
        · exact hfirst z hz

theorem increasing_uniqueSorted (l : List DancerId) : Increasing (uniqueSorted l) := by
  induction l with
  | nil => exact List.Pairwise.nil
  | cons x l ih => exact ih.insertMember

/-! ### The rules -/

namespace Domain

/-- A cue of either table. -/
def cue? (d : Domain) (x : String) : Option CueState := (d.musicCues.find? x).or (d.lightingCues.find? x)

/-- The first cue depends on the second. -/
def DependsOn (d : Domain) (x y : String) : Prop := ∃ cue dependency, d.cue? x = some cue ∧ cue.dependsOn = some dependency ∧ dependency.value = y

structure Rules (d : Domain) : Prop where
  created : d.created = true ↔ d.id.isSome = true ∧ d.stage.isSome = true
  inside : ∀ x dancer, d.dancers.find? x = some dancer → ∃ stage, d.stage = some stage ∧ stage.contains dancer.position = true
  apart : d.overlap = .forbidden → ∀ x y a b, d.dancers.find? x = some a → d.dancers.find? y = some b → a.active = true →
    b.active = true → a.position = b.position → x = y
  formations : ∀ x formation, d.formations.find? x = some formation → formation.members ≠ [] ∧ Increasing formation.members ∧
    ∀ m ∈ formation.members, (d.dancers.find? m.value).isSome = true
  tables : ∀ x, d.musicCues.contains x = true → d.lightingCues.contains x = false
  dependencies : ∀ x cue dependency, d.cue? x = some cue → cue.dependsOn = some dependency →
    ∃ earlier, d.cue? dependency.value = some earlier ∧ earlier.tick.ticks ≤ cue.tick.ticks
  acyclic : ∀ x, ¬Relation.TransGen d.DependsOn x x
  travel : 0 ≤ d.maxTravelMm

/-- There is no stage before the choreography is created. -/
def Bare (d : Domain) : Prop := d.created = false → d.stage = none

section Mutations
variable {d d' : Domain} {event : Event}

theorem stage_of_requireCreated {stage : StageBounds} (h : d.requireCreated = .ok stage) : d.stage = some stage := by
  unfold requireCreated at h
  split at h
  · rename_i hstage
    rw [hstage, Except.ok.inj h]
  · cases h

/-- Nobody else who is active stands on a free mark. -/
theorem not_occupied {position : Position} {except : Option DancerId} (h : d.markOccupied position except = false) {x : String}
    {dancer : DancerState} (found : d.dancers.find? x = some dancer) (active : dancer.active = true) (other : ∀ id, except = some id → id.value ≠ x) :
    dancer.position ≠ position := by
  intro heq
  have hmem := List.any_eq_false.mp h (x, dancer) (OrdMap.mem_entries.mpr found)
  refine hmem ?_
  have hother : except.any (fun id => id.value == x) = false := by
    cases except with
    | none => rfl
    | some id => exact beq_false_of_ne (other id rfl)
  simp [active, heq, hother]

theorem validateMembers_ok {members : List DancerId} (h : d.validateFormationMembers members = .ok ()) :
    members ≠ [] ∧ ∀ m ∈ members, (d.dancers.find? m.value).isSome = true := by
  unfold validateFormationMembers at h
  split at h
  · cases h
  · rename_i hne
    refine ⟨hne, ?_⟩
    clear hne
    induction members with
    | nil => exact List.forall_mem_nil _
    | cons m members ih =>
      obtain ⟨_, hm, h⟩ := bind_ok h
      refine List.forall_mem_cons.mpr ⟨?_, ih h⟩
      unfold validateMember findDancer at hm
      split at hm
      · cases hm
      · rename_i hfound
        rw [hfound]
        rfl

theorem validateCue_ok {p : CuePayload} {tick : MusicalTick} (h : d.validateCueDependency p tick = .ok ()) {dependency : CueId}
    (hdepends : p.dependsOn = some dependency) : ∃ earlier, d.cue? dependency.value = some earlier ∧ earlier.tick.ticks ≤ tick.ticks := by
  unfold validateCueDependency at h
  rw [hdepends] at h
  dsimp only at h
  split at h
  · cases h
  · rename_i earlier hearlier
    split at h
    · cases h
    · rename_i hless
      exact ⟨earlier, hearlier, not_lt.mp hless⟩

end Mutations

/-! ### Cues -/

/-- An edge from a node that no edge leads to closes no cycle. -/
theorem acyclic_extend {α : Type} {R S : α → α → Prop} {x : α} (edges : ∀ a b, S a b → R a b ∨ a = x) (unreached : ∀ a, ¬S a x)
    (acyclic : ∀ a, ¬Relation.TransGen R a a) : ∀ a, ¬Relation.TransGen S a a := by
  have hend : ∀ a, ¬Relation.TransGen S a x := by
    intro a h
    cases h with
    | single h => exact unreached _ h
    | tail _ h => exact unreached _ h
  have hback : ∀ a b, a ≠ x → Relation.TransGen S a b → Relation.TransGen R a b := by
    intro a b hne h
    induction h with
    | single hab => exact .single ((edges _ _ hab).resolve_right hne)
    | @tail b c hab hbc ih =>
      have hbx : b ≠ x := by
        rintro rfl
        exact hend a hab
      exact ih.tail ((edges _ _ hbc).resolve_right hbx)
  intro a h
  have hax : a ≠ x := by
    rintro rfl
    exact hend a h
  exact acyclic a (hback a a hax h)

/-- A new cue in one of the tables. -/
structure NewCue (d d' : Domain) (x : String) (cue : CueState) : Prop where
  new : d.cue? x = none
  cues : ∀ y, d'.cue? y = if x = y then some cue else d.cue? y
  valid : ∀ dependency, cue.dependsOn = some dependency → ∃ earlier, d.cue? dependency.value = some earlier ∧
    earlier.tick.ticks ≤ cue.tick.ticks

namespace NewCue
variable {d d' : Domain} {x : String} {cue : CueState}

theorem kept (h : NewCue d d' x cue) {y : String} {old : CueState} (found : d.cue? y = some old) : d'.cue? y = some old := by
  rw [h.cues, if_neg, found]
  rintro rfl
  exact nomatch h.new.symm.trans found

theorem dependencies (h : NewCue d d' x cue) (rules : d.Rules) {y : String} {later : CueState} {dependency : CueId}
    (found : d'.cue? y = some later) (depends : later.dependsOn = some dependency) :
    ∃ earlier, d.cue? dependency.value = some earlier ∧ earlier.tick.ticks ≤ later.tick.ticks := by
  rw [h.cues] at found
  split at found
  · cases found
    exact h.valid dependency depends
  · exact rules.dependencies y later dependency found depends

theorem acyclic (h : NewCue d d' x cue) (rules : d.Rules) : ∀ y, ¬Relation.TransGen d'.DependsOn y y := by
  refine acyclic_extend (x := x) (fun a b hab => ?_) (fun a ha => ?_) rules.acyclic
  · obtain ⟨later, dependency, hfound, hdepends, hb⟩ := hab
    rw [h.cues] at hfound
    split at hfound
    · rename_i hx
      exact .inr hx.symm
    · exact .inl ⟨later, dependency, hfound, hdepends, hb⟩
  · -- What is depended on was there before.
    obtain ⟨later, dependency, hfound, hdepends, rfl⟩ := ha
    obtain ⟨earlier, hearlier, -⟩ := h.dependencies rules hfound hdepends
    exact nomatch h.new.symm.trans hearlier

end NewCue

theorem cue?_none {d : Domain} {x : String} (h : d.cue? x = none) : d.musicCues.find? x = none ∧ d.lightingCues.find? x = none :=
  Option.or_eq_none_iff.mp h

theorem newCue_music {d : Domain} {x : String} {cue : CueState} (new : d.cue? x = none)
    (valid : ∀ dependency, cue.dependsOn = some dependency → ∃ earlier, d.cue? dependency.value = some earlier ∧
      earlier.tick.ticks ≤ cue.tick.ticks) : NewCue d { d with musicCues := d.musicCues.insert x cue } x cue := by
  refine ⟨new, fun y => ?_, valid⟩
  unfold cue?
  rw [OrdMap.find?_insert]
  split <;> rfl

theorem newCue_light {d : Domain} {x : String} {cue : CueState} (new : d.cue? x = none)
    (valid : ∀ dependency, cue.dependsOn = some dependency → ∃ earlier, d.cue? dependency.value = some earlier ∧
      earlier.tick.ticks ≤ cue.tick.ticks) : NewCue d { d with lightingCues := d.lightingCues.insert x cue } x cue := by
  refine ⟨new, fun y => ?_, valid⟩
  unfold cue?
  rw [OrdMap.find?_insert]
  split
  · rename_i heq
    rw [← heq, (cue?_none new).1]
    rfl
  · rfl

/-! ### Every mutation keeps the rules -/

namespace Rules
variable {d d' : Domain} {event : Event}

theorem start : Rules {} where
  created := by decide
  inside := nofun
  apart _ := nofun
  formations := nofun
  tables := nofun
  dependencies := nofun
  acyclic x h := by
    obtain ⟨y, ⟨_, _, hfound, -⟩, -⟩ := Relation.TransGen.head'_iff.mp h
    exact nomatch hfound
  travel := by decide

/-- Another place for a dancer, and a formation's dancers stay. -/
theorem dancer (h : d.Rules) {x : String} {dancer : DancerState} {stage : StageBounds} (hstage : d.stage = some stage)
    (inside : stage.contains dancer.position = true)
    (apart : d.overlap = .forbidden → dancer.active = true → ∀ y other, y ≠ x → d.dancers.find? y = some other → other.active = true →
      other.position ≠ dancer.position) :
    Rules { d with dancers := d.dancers.insert x dancer } where
  created := h.created
  inside y other found := by
    dsimp only at found
    rw [OrdMap.find?_insert] at found
    split at found
    · cases found
      exact ⟨stage, hstage, inside⟩
    · exact h.inside y other found
  apart hoverlap y z a b hy hz ha hb heq := by
    dsimp only at hy hz
    rw [OrdMap.find?_insert] at hy hz
    split at hy
    · rename_i hxy
      cases hy
      split at hz
      · rename_i hxz
        exact hxy.symm.trans hxz
      · rename_i hxz
        exact absurd heq.symm (apart hoverlap ha z b (Ne.symm hxz) hz hb)
    · rename_i hxy
      split at hz
      · cases hz
        exact absurd heq (apart hoverlap hb y a (Ne.symm hxy) hy ha)
      · exact h.apart hoverlap y z a b hy hz ha hb heq
  formations y formation found := by
    obtain ⟨hne, hsorted, hmembers⟩ := h.formations y formation found
    refine ⟨hne, hsorted, fun m hm => ?_⟩
    dsimp only
    rw [OrdMap.find?_insert]
    split
    · rfl
    · exact hmembers m hm
  tables := h.tables
  dependencies := h.dependencies
  acyclic := h.acyclic
  travel := h.travel

theorem newCue (h : d.Rules) {x : String} {cue : CueState} (new : NewCue d d' x cue)
    (same : d' = { d with musicCues := d'.musicCues, lightingCues := d'.lightingCues })
    (tables : ∀ y, d'.musicCues.contains y = true → d'.lightingCues.contains y = false) : d'.Rules := by
  rw [same]
  exact { h with
    tables
    dependencies := fun y later dependency found depends => by
      obtain ⟨earlier, hearlier, hle⟩ := new.dependencies h found depends
      exact ⟨earlier, new.kept hearlier, hle⟩
    acyclic := new.acyclic h }

theorem mutated (h : d.Rules) (bare : d.Bare) (mutated : Mutated d event d') : d'.Rules ∧ d'.Bare := by
  cases mutated with
  | created p fresh travel =>
    -- Nobody is on a stage that is not there.
    have hnobody : ∀ x dancer, d.dancers.find? x ≠ some dancer := by
      intro x dancer hfound
      obtain ⟨stage, hstage, -⟩ := h.inside x dancer hfound
      exact nomatch (bare fresh).symm.trans hstage
    refine ⟨{ h with created := ⟨fun _ => ⟨rfl, rfl⟩, fun _ => rfl⟩, inside := ?_, apart := ?_, travel }, nofun⟩
    · exact fun x dancer hfound => absurd hfound (hnobody x dancer)
    · exact fun _ x _ a _ hfound => absurd hfound (hnobody x a)
  | added p stage created new inside free =>
    refine ⟨h.dancer (stage_of_requireCreated created) inside fun hoverlap _ y other _ hfound hactive => ?_, bare⟩
    exact not_occupied (free hoverlap) hfound hactive nofun
  | removed id dancer found =>
    obtain ⟨stage, hstage, hinside⟩ := h.inside _ _ found
    exact ⟨h.dancer hstage hinside fun _ hactive => (nomatch hactive), bare⟩
  | moved p dancer stage created found inside free =>
    refine ⟨h.dancer (stage_of_requireCreated created) inside fun hoverlap _ y other hne hfound hactive => ?_, bare⟩
    exact not_occupied (free hoverlap) hfound hactive fun id hid => Option.some.inj hid ▸ hne.symm
  | formation id members valid =>
    obtain ⟨hne, hmembers⟩ := validateMembers_ok valid
    refine ⟨{ h with formations := fun x formation found => ?_ }, bare⟩
    dsimp only at found
    rw [OrdMap.find?_insert] at found
    split at found
    · cases found
      exact ⟨hne, increasing_uniqueSorted _, hmembers⟩
    · exact h.formations x formation found
  | music p new valid =>
    refine ⟨h.newCue (newCue_music new fun _ => validateCue_ok valid) rfl fun y hy => ?_, bare⟩
    dsimp only at hy ⊢
    rw [OrdMap.contains_eq, OrdMap.find?_insert] at hy
    split at hy
    · rename_i heq
      rw [OrdMap.contains_eq, ← heq, (cue?_none new).2]
      rfl
    · exact h.tables y hy
  | light p new valid =>
    refine ⟨h.newCue (newCue_light new fun _ => validateCue_ok valid) rfl fun y hy => ?_, bare⟩
    dsimp only at hy ⊢
    rw [OrdMap.contains_eq, OrdMap.find?_insert]
    split
    · rename_i heq
      rw [OrdMap.contains_eq, ← heq, (cue?_none new).1] at hy
      cases hy
    · exact h.tables y hy
  | same => exact ⟨h, bare⟩

end Rules

end Domain

/-! ### Events that are offered -/

/-- The state after an event: a rejected one leaves it as it was. -/
def offer (s : ChoreographyState) (x : Event × IndexRule) : ChoreographyState :=
  match applyAgainst s x.1 x.2 none with
  | .ok t => t
  | .error _ => s

/-- The state after events, each under its index rule. -/
def offered (inputs : List (Event × IndexRule)) : ChoreographyState := inputs.foldl offer {}

/-- The rules of the domain and those of the receipts. -/
structure Upheld (s : ChoreographyState) : Prop where
  rules : s.toDomain.Rules
  applied : ∀ x r, s.receipts.find? x = some r → r.index ≤ s.lastApplied
  distinct : ∀ x y r q, s.receipts.find? x = some r → s.receipts.find? y = some q → r.index = q.index → x = y

theorem offer_cases (s : ChoreographyState) (x : Event × IndexRule) :
    offer s x = s ∨ ∃ d, s.lastApplied < x.1.index ∧ s.toDomain.mutate x.1 = .ok d ∧ offer s x = record s d x.1 := by
  unfold offer
  split
  · rename_i t happlied
    cases applyAgainst_cases happlied with
    | known => exact .inl rfl
    | fresh d new later index mutated => exact .inr ⟨d, later, mutated, rfl⟩
  · exact .inl rfl

theorem lastApplied_offer (s : ChoreographyState) (x : Event × IndexRule) : s.lastApplied ≤ (offer s x).lastApplied := by
  rcases offer_cases s x with h | ⟨d, hlater, -, h⟩
  · rw [h]
  · rw [h]
    exact hlater.le

namespace Upheld
variable {s : ChoreographyState}

theorem start : Upheld {} := ⟨.start, nofun, nofun⟩

theorem offer (h : Upheld s) (bare : s.toDomain.Bare) (x : Event × IndexRule) : Upheld (offer s x) ∧ (offer s x).toDomain.Bare := by
  rcases offer_cases s x with hsame | ⟨d, hlater, hmutate, hrecord⟩
  · rw [hsame]
    exact ⟨h, bare⟩
  · rw [hrecord]
    obtain ⟨hrules, hbare⟩ := h.rules.mutated bare (Domain.mutate_cases hmutate).1
    have hold : ∀ y r, s.receipts.find? y = some r → r.index < x.1.index := fun y r hr => (h.applied y r hr).trans_lt hlater
    refine ⟨⟨{ hrules with }, fun y r hr => ?_, fun y z r q hr hq heq => ?_⟩, hbare⟩
    · rcases find?_record hr with hr | ⟨-, rfl⟩
      · exact (hold y r hr).le
      · exact le_rfl
    · -- The index of the new receipt is past those of the others.
      rcases find?_record hr with hr | ⟨rfl, rfl⟩
      · rcases find?_record hq with hq | ⟨rfl, rfl⟩
        · exact h.distinct y z r q hr hq heq
        · exact absurd heq (hold y r hr).ne
      · rcases find?_record hq with hq | ⟨rfl, rfl⟩
        · exact absurd heq.symm (hold z q hq).ne
        · rfl

theorem offers (h : Upheld s) (bare : s.toDomain.Bare) (inputs : List (Event × IndexRule)) : Upheld (inputs.foldl State.offer s) := by
  induction inputs generalizing s with
  | nil => exact h
  | cons x inputs ih =>
    obtain ⟨h', bare'⟩ := h.offer bare x
    exact ih h' bare'

end Upheld

theorem lastApplied_offers (s : ChoreographyState) (inputs : List (Event × IndexRule)) :
    s.lastApplied ≤ (inputs.foldl offer s).lastApplied := by
  induction inputs generalizing s with
  | nil => exact le_rfl
  | cons x inputs ih => exact (lastApplied_offer s x).trans (ih (offer s x))

/-- After any events the rules hold, and more events never take the last index back. -/
theorem rules_upheld (inputs more : List (Event × IndexRule)) :
    Upheld (offered inputs) ∧ (offered inputs).lastApplied ≤ (offered (inputs ++ more)).lastApplied := by
  refine ⟨Upheld.start.offers (fun _ => rfl) inputs, ?_⟩
  unfold offered
  rw [List.foldl_append]
  exact lastApplied_offers _ more

end Choreolog.State
