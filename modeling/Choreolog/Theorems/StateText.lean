import Choreolog.Theorems.EventText

/-! # What the text of a state tells

`canonical_state` writes a state as lines of fields between colons, and colons may stand in identifiers. The
text tells two states apart up to the identifiers of their formations and cues. -/

namespace Choreolog.State
open Lib Text

/-! ### Lines -/

theorem toList_unlines (lines : List String) : (unlines lines).toList = terminated '\n' (lines.map (·.toList)) := by
  unfold unlines terminated
  rw [String.toList_join, List.flatMap_map, List.flatMap_map]
  simp only [String.toList_append]
  rfl

theorem unlines_injective {l l' : List String} (hl : ∀ x ∈ l, '\n' ∉ x.toList) (hl' : ∀ x ∈ l', '\n' ∉ x.toList)
    (h : unlines l = unlines l') : l = l' := by
  have htext := congrArg String.toList h
  rw [toList_unlines, toList_unlines] at htext
  refine List.map_injective_iff.mpr (fun _ _ => String.toList_inj.mp) (terminated_injective ?_ ?_ htext)
  · exact List.forall_mem_map.mpr hl
  · exact List.forall_mem_map.mpr hl'

/-- Two lists that each begin with what has a tag and go on with what has not. -/
theorem append_inj_of_tag {α β : Type} [DecidableEq β] {tag : α → β} {v : β} {a b a' b' : List α} (ha : ∀ x ∈ a, tag x = v)
    (ha' : ∀ x ∈ a', tag x = v) (hb : ∀ x ∈ b, tag x ≠ v) (hb' : ∀ x ∈ b', tag x ≠ v) (h : a ++ b = a' ++ b') : a = a' ∧ b = b' := by
  have hkeep : ∀ {l : List α}, (∀ x ∈ l, tag x = v) → l.filter (tag · = v) = l := fun hl => by simpa using hl
  have hdrop : ∀ {l : List α}, (∀ x ∈ l, tag x ≠ v) → l.filter (tag · = v) = [] := fun hl => by simpa using hl
  have hkept := congrArg (List.filter (tag · = v)) h
  rw [List.filter_append, List.filter_append, hkeep ha, hkeep ha', hdrop hb, hdrop hb', List.append_nil, List.append_nil] at hkept
  subst hkept
  exact ⟨rfl, List.append_cancel_left h⟩

theorem map_inj_on {α β : Type} {f : α → β} {P : α → Prop} (inj : ∀ a b, P a → P b → f a = f b → a = b) {l l' : List α}
    (hl : ∀ a ∈ l, P a) (hl' : ∀ a ∈ l', P a) (h : l.map f = l'.map f) : l = l' := by
  induction l generalizing l' with
  | nil => exact (List.map_eq_nil_iff.mp h.symm).symm
  | cons a l ih =>
    cases l' with
    | nil => cases h
    | cons a' l' =>
      obtain ⟨ha, hrest⟩ := List.cons.inj h
      obtain ⟨hla, hl⟩ := List.forall_mem_cons.mp hl
      obtain ⟨hla', hl'⟩ := List.forall_mem_cons.mp hl'
      rw [inj a a' hla hla' ha, ih hl hl' hrest]

/-! ### The lines of a state -/

def headTexts (d : Domain) : List String :=
  ["schema=" ++ toString currentSchemaVersion.toNat,
    "created=" ++ (if d.created then "true" else "false"),
    "choreography=" ++ (d.id.map (·.value)).getD "",
    "stage=" ++ (d.stage.map fun stage => toString stage.width.mm ++ "x" ++ toString stage.depth.mm).getD "",
    "overlap=" ++ overlapPolicyName d.overlap,
    "max_travel_mm=" ++ toString d.maxTravelMm.toInt,
    "last_applied=" ++ toString d.lastApplied,
    "term=" ++ toString d.term]

def dancerText (e : String × DancerState) : String :=
  "dancer=" ++ e.1 ++ ":" ++ toString e.2.position.x.mm ++ "," ++ toString e.2.position.y.mm ++ ":" ++
    (if e.2.active then "active" else "inactive")

def formationText (e : String × FormationState) : String := "formation=" ++ e.1 ++ ":" ++ writeMembers e.2.members

def cueText (key : String) (e : String × CueState) : String := cueLine key e.1 e.2

theorem canonicalState_eq (d : Domain) : canonicalState d = unlines (headTexts d ++ (d.dancers.entries.map dancerText ++
    (d.formations.entries.map formationText ++ (d.musicCues.entries.map (cueText "music") ++ d.lightingCues.entries.map (cueText "light"))))) := by
  rw [← List.append_assoc, ← List.append_assoc, ← List.append_assoc]
  rfl

section Characters
variable {c : Char}

theorem not_mem_valid {x : String} (valid : validId x = true) (h : isAllowedIdChar c = false) : c ∉ x.toList :=
  (⟨x, valid⟩ : NodeId).not_mem h

theorem not_mem_depends (h : isAllowedIdChar c = false) {tag : IdTag} (id : Option (StrongId tag)) : c ∉ ((id.map (·.value)).getD "").toList := by
  cases id with
  | none => exact List.not_mem_nil
  | some id => exact id.not_mem h

theorem not_mem_members (h : isAllowedIdChar c = false) (comma : c ≠ ',') (members : List DancerId) : c ∉ (writeMembers members).toList := by
  rw [toList_writeMembers]
  refine mem_intercalate comma fun p hp => ?_
  obtain ⟨member, -, rfl⟩ := List.mem_map.mp hp
  exact member.not_mem h

end Characters

/-! ### Reading the lines -/

def activeText (active : Bool) : List Char := if active then "active".toList else "inactive".toList

theorem toList_dancerText (e : String × DancerState) : (dancerText e).toList = "dancer=".toList ++
    (((e.1.toList ++ ':' :: ofNat e.2.position.x.mm) ++ ',' :: ofNat e.2.position.y.mm) ++ ':' :: activeText e.2.active) := by
  have hactive : (if e.2.active then "active" else "inactive").toList = activeText e.2.active := by
    unfold activeText
    split <;> rfl
  unfold dancerText
  simp only [String.toList_append, toList_toString, hactive, List.append_assoc]
  rfl

/-- The last colon, the last comma and the last colon before it end the fields of a dancer. -/
theorem dancerText_injective {a b : String × DancerState} (h : dancerText a = dancerText b) : a = b := by
  obtain ⟨aid, ⟨⟨⟨ax, hax⟩, ⟨ay, hay⟩⟩, aactive⟩⟩ := a
  obtain ⟨bid, ⟨⟨⟨bx, hbx⟩, ⟨by', hby⟩⟩, bactive⟩⟩ := b
  have hactive : ∀ active, ':' ∉ activeText active := by decide
  have htext := congrArg String.toList h
  rw [toList_dancerText, toList_dancerText] at htext
  obtain ⟨hplace, hflag⟩ := split_last (hactive _) (hactive _) (List.append_cancel_left htext)
  obtain ⟨hfront, hy⟩ := split_last (not_mem_ofNat rfl _) (not_mem_ofNat rfl _) hplace
  obtain ⟨hid, hx⟩ := split_last (not_mem_ofNat rfl _) (not_mem_ofNat rfl _) hfront
  have hflags : ∀ p q, activeText p = activeText q → p = q := by decide
  obtain rfl := String.toList_inj.mp hid
  obtain rfl := ofNat_injective hx
  obtain rfl := ofNat_injective hy
  obtain rfl := hflags _ _ hflag
  rfl

theorem toList_formationText (e : String × FormationState) :
    (formationText e).toList = "formation=".toList ++ (e.1.toList ++ ':' :: (writeMembers e.2.members).toList) := by
  unfold formationText
  simp only [String.toList_append, List.append_assoc]
  rfl

theorem writeMembers_injective {a b : List DancerId} (h : writeMembers a = writeMembers b) : a = b := by
  have hparse := parseMembers_write a
  rw [h, parseMembers_write b] at hparse
  exact (Except.ok.inj hparse).symm

theorem formationText_injective {a b : String × FormationState} (h : formationText a = formationText b)
    (id : a.1 = b.1 ∨ ':' ∉ a.1.toList ∧ ':' ∉ b.1.toList) : a = b := by
  obtain ⟨aid, ⟨amembers⟩⟩ := a
  obtain ⟨bid, ⟨bmembers⟩⟩ := b
  have htext := congrArg String.toList h
  rw [toList_formationText, toList_formationText] at htext
  have hfields := List.append_cancel_left htext
  obtain ⟨rfl, hmembers⟩ : aid = bid ∧ (writeMembers amembers).toList = (writeMembers bmembers).toList := by
    rcases id with hid | ⟨ha, hb⟩
    · obtain rfl : aid = bid := hid
      exact ⟨rfl, (List.cons.inj (List.append_cancel_left hfields)).2⟩
    · obtain ⟨hid, hmembers⟩ := split_first ha hb hfields
      exact ⟨String.toList_inj.mp hid, hmembers⟩
  obtain rfl := writeMembers_injective (String.toList_inj.mp hmembers)
  rfl

theorem toList_cueText (key : String) (e : String × CueState) : (cueText key e).toList =
    (key ++ "=").toList ++ (e.1.toList ++ ':' :: (ofNat e.2.tick.ticks ++ ':' :: ((e.2.dependsOn.map (·.value)).getD "").toList)) := by
  unfold cueText cueLine
  simp only [String.toList_append, toList_toString, List.append_assoc]
  rfl

theorem depends_injective {tag : IdTag} {a b : Option (StrongId tag)} (h : ((a.map (·.value)).getD "").toList = ((b.map (·.value)).getD "").toList) :
    a = b := by
  have hne : ∀ id : StrongId tag, id.value ≠ "" := fun id heq => by
    have hvalid := id.valid
    rw [heq] at hvalid
    cases hvalid
  have hvalue := String.toList_inj.mp h
  cases a with
  | none =>
    cases b with
    | none => rfl
    | some b => exact absurd hvalue.symm (hne b)
  | some a =>
    cases b with
    | none => exact absurd hvalue (hne a)
    | some b => exact congrArg some (StrongId.ext hvalue)

theorem cueText_injective {key : String} {a b : String × CueState} (h : cueText key a = cueText key b)
    (id : a.1 = b.1 ∨ ':' ∉ a.1.toList ∧ ':' ∉ b.1.toList) : a = b := by
  obtain ⟨aid, ⟨⟨aticks, hat⟩, adepends⟩⟩ := a
  obtain ⟨bid, ⟨⟨bticks, hbt⟩, bdepends⟩⟩ := b
  have htext := congrArg String.toList h
  rw [toList_cueText, toList_cueText] at htext
  have hfields := List.append_cancel_left htext
  obtain ⟨rfl, hrest⟩ : aid = bid ∧ ofNat aticks ++ ':' :: ((adepends.map (·.value)).getD "").toList =
      ofNat bticks ++ ':' :: ((bdepends.map (·.value)).getD "").toList := by
    rcases id with hid | ⟨ha, hb⟩
    · obtain rfl : aid = bid := hid
      exact ⟨rfl, (List.cons.inj (List.append_cancel_left hfields)).2⟩
    · obtain ⟨hid, hrest⟩ := split_first ha hb hfields
      exact ⟨String.toList_inj.mp hid, hrest⟩
  obtain ⟨hticks, hdepends⟩ := split_first (not_mem_ofNat rfl _) (not_mem_ofNat rfl _) hrest
  obtain rfl := ofNat_injective hticks
  obtain rfl := depends_injective hdepends
  rfl

/-! ### The header -/

theorem stageText_injective {a b : Option StageBounds}
    (h : ((a.map fun stage => toString stage.width.mm ++ "x" ++ toString stage.depth.mm).getD "").toList =
      ((b.map fun stage => toString stage.width.mm ++ "x" ++ toString stage.depth.mm).getD "").toList) : a = b := by
  have hsome : ∀ stage : StageBounds, (toString stage.width.mm ++ "x" ++ toString stage.depth.mm).toList =
      ofNat stage.width.mm ++ 'x' :: ofNat stage.depth.mm := fun stage => by
    simp only [String.toList_append, toList_toString, List.append_assoc]
    rfl
  have hne : ∀ stage : StageBounds, (toString stage.width.mm ++ "x" ++ toString stage.depth.mm).toList ≠ [] := fun stage => by
    rw [hsome]
    exact List.append_ne_nil_of_right_ne_nil _ (List.cons_ne_nil _ _)
  cases a with
  | none =>
    cases b with
    | none => rfl
    | some b => exact absurd h.symm (hne b)
  | some a =>
    cases b with
    | none => exact absurd h (hne a)
    | some b =>
      have hfields := (hsome a).symm.trans (h.trans (hsome b))
      obtain ⟨⟨aw, haw⟩, ⟨ad, had⟩, hap⟩ := a
      obtain ⟨⟨bw, hbw⟩, ⟨bd, hbd⟩, hbp⟩ := b
      obtain ⟨hwidth, hdepth⟩ := split_first (not_mem_ofNat rfl _) (not_mem_ofNat rfl _) hfields
      obtain rfl := ofNat_injective hwidth
      obtain rfl := ofNat_injective hdepth
      rfl

/-- The fields of a domain apart from its tables. -/
structure SameHead (a b : Domain) : Prop where
  created : a.created = b.created
  id : a.id = b.id
  stage : a.stage = b.stage
  overlap : a.overlap = b.overlap
  maxTravelMm : a.maxTravelMm = b.maxTravelMm
  lastApplied : a.lastApplied = b.lastApplied
  term : a.term = b.term

theorem headTexts_injective {a b : Domain} (h : headTexts a = headTexts b) : SameHead a b := by
  simp only [headTexts, List.cons.injEq, String.append_right_inj, true_and, and_true] at h
  obtain ⟨hcreated, hid, hstage, hoverlap, htravel, hlast, hterm⟩ := h
  have hflag : ∀ p q : Bool, (if p then "true" else "false") = (if q then "true" else "false") → p = q := by decide
  have hpolicy : ∀ p q, overlapPolicyName p = overlapPolicyName q → p = q := by
    intro p q
    cases p <;> cases q <;> decide
  have hnat : ∀ {m n : Nat}, toString m = toString n → m = n := fun h => ofNat_injective (by rw [← toList_toString, h, toList_toString])
  have hint : ∀ {i j : Int}, toString i = toString j → i = j := fun h => ofInt_injective (by rw [← toList_toString_int, h, toList_toString_int])
  exact ⟨hflag _ _ hcreated, depends_injective (congrArg _ hid), stageText_injective (congrArg _ hstage), hpolicy _ _ hoverlap,
    Int32.toInt_inj.mp (hint htravel), hnat hlast, hnat hterm⟩

/-! ### The whole text -/

section Newlines
variable {d : Domain}

theorem newline_headTexts : ∀ x ∈ headTexts d, '\n' ∉ x.toList := by
  have hflag : '\n' ∉ (if d.created then "true" else "false").toList := by
    cases d.created <;> decide
  have hpolicy : '\n' ∉ (overlapPolicyName d.overlap).toList := by
    cases d.overlap <;> decide
  have hstage : '\n' ∉ ((d.stage.map fun stage => toString stage.width.mm ++ "x" ++ toString stage.depth.mm).getD "").toList := by
    cases d.stage with
    | none => exact List.not_mem_nil
    | some stage =>
      simp only [Option.map_some, Option.getD_some, String.toList_append, List.mem_append, not_or, toList_toString]
      exact ⟨⟨not_mem_ofNat rfl _, by decide⟩, not_mem_ofNat rfl _⟩
  simp only [headTexts, List.forall_mem_cons, List.not_mem_nil, false_imp_iff, implies_true, and_true, String.toList_append, List.mem_append,
    not_or, toList_toString, toList_toString_int]
  exact ⟨⟨by decide, not_mem_ofNat rfl _⟩, ⟨by decide, hflag⟩, ⟨by decide, not_mem_depends rfl _⟩, ⟨by decide, hstage⟩, ⟨by decide, hpolicy⟩,
    ⟨by decide, not_mem_ofInt rfl (by decide) _⟩, ⟨by decide, not_mem_ofNat rfl _⟩, by decide, not_mem_ofNat rfl _⟩

theorem newline_dancerText {e : String × DancerState} (valid : validId e.1 = true) : '\n' ∉ (dancerText e).toList := by
  have hid : '\n' ∉ e.1.toList := not_mem_valid valid rfl
  have hactive : ∀ active, '\n' ∉ activeText active := by decide
  rw [toList_dancerText]
  simp [hid, not_mem_ofNat, hactive]

theorem newline_formationText {e : String × FormationState} (valid : validId e.1 = true) : '\n' ∉ (formationText e).toList := by
  have hid : '\n' ∉ e.1.toList := not_mem_valid valid rfl
  have hmembers : '\n' ∉ (writeMembers e.2.members).toList := not_mem_members rfl (by decide) _
  rw [toList_formationText]
  simp [hid, hmembers]

theorem newline_cueText {key : String} {e : String × CueState} (plain : '\n' ∉ key.toList) (valid : validId e.1 = true) :
    '\n' ∉ (cueText key e).toList := by
  have hid : '\n' ∉ e.1.toList := not_mem_valid valid rfl
  have hdepends : '\n' ∉ ((e.2.dependsOn.map (·.value)).getD "").toList := not_mem_depends rfl _
  rw [toList_cueText]
  simp [plain, hid, not_mem_ofNat, hdepends]

end Newlines

/-- The lines of two states with one text. -/
structure SameLines (a b : Domain) : Prop where
  head : SameHead a b
  dancers : a.dancers.entries.map dancerText = b.dancers.entries.map dancerText
  formations : a.formations.entries.map formationText = b.formations.entries.map formationText
  musicCues : a.musicCues.entries.map (cueText "music") = b.musicCues.entries.map (cueText "music")
  lightingCues : a.lightingCues.entries.map (cueText "light") = b.lightingCues.entries.map (cueText "light")

theorem newline_lines {d : Domain} (named : d.Named) : ∀ x ∈ headTexts d ++ (d.dancers.entries.map dancerText ++
    (d.formations.entries.map formationText ++ (d.musicCues.entries.map (cueText "music") ++ d.lightingCues.entries.map (cueText "light")))),
    '\n' ∉ x.toList := by
  have hkey : ∀ {ν : Type} {m : OrdMap String ν} {e : String × ν}, e ∈ m.entries → e.1 ∈ m.keys := fun he => List.mem_map_of_mem he
  simp only [List.forall_mem_append, List.forall_mem_map]
  exact ⟨newline_headTexts, fun e he => newline_dancerText (named.dancers _ (hkey he)),
    fun e he => newline_formationText (named.formations _ (hkey he)),
    fun e he => newline_cueText (by decide) (named.musicCues _ (hkey he)),
    fun e he => newline_cueText (by decide) (named.lightingCues _ (hkey he))⟩

theorem canonicalState_lines {a b : Domain} (ha : a.Named) (hb : b.Named) (h : canonicalState a = canonicalState b) : SameLines a b := by
  rw [canonicalState_eq, canonicalState_eq] at h
  have hlines := unlines_injective (newline_lines ha) (newline_lines hb) h
  obtain ⟨hhead, hrest⟩ := List.append_inj hlines rfl
  -- The first letter of a line tells its table.
  have hdancer : ∀ d : Domain, ∀ x ∈ d.dancers.entries.map dancerText, x.toList.head? = some 'd' :=
    fun d => List.forall_mem_map.mpr fun e _ => by rw [toList_dancerText]; rfl
  have hformation : ∀ d : Domain, ∀ x ∈ d.formations.entries.map formationText, x.toList.head? = some 'f' :=
    fun d => List.forall_mem_map.mpr fun e _ => by rw [toList_formationText]; rfl
  have hmusic : ∀ d : Domain, ∀ x ∈ d.musicCues.entries.map (cueText "music"), x.toList.head? = some 'm' :=
    fun d => List.forall_mem_map.mpr fun e _ => by rw [toList_cueText]; rfl
  have hlight : ∀ d : Domain, ∀ x ∈ d.lightingCues.entries.map (cueText "light"), x.toList.head? = some 'l' :=
    fun d => List.forall_mem_map.mpr fun e _ => by rw [toList_cueText]; rfl
  have hother : ∀ {l : List String} {c e : Char}, (∀ x ∈ l, x.toList.head? = some c) → c ≠ e → ∀ x ∈ l, x.toList.head? ≠ some e :=
    fun hl hne x hx heq => hne (Option.some.inj ((hl x hx).symm.trans heq))
  obtain ⟨hdancers, hrest⟩ := append_inj_of_tag (hdancer a) (hdancer b)
    (List.forall_mem_append.mpr ⟨hother (hformation a) (by decide), List.forall_mem_append.mpr
      ⟨hother (hmusic a) (by decide), hother (hlight a) (by decide)⟩⟩)
    (List.forall_mem_append.mpr ⟨hother (hformation b) (by decide), List.forall_mem_append.mpr
      ⟨hother (hmusic b) (by decide), hother (hlight b) (by decide)⟩⟩) hrest
  obtain ⟨hformations, hrest⟩ := append_inj_of_tag (hformation a) (hformation b)
    (List.forall_mem_append.mpr ⟨hother (hmusic a) (by decide), hother (hlight a) (by decide)⟩)
    (List.forall_mem_append.mpr ⟨hother (hmusic b) (by decide), hother (hlight b) (by decide)⟩) hrest
  obtain ⟨hmusics, hlights⟩ := append_inj_of_tag (hmusic a) (hmusic b) (hother (hlight a) (by decide)) (hother (hlight b) (by decide)) hrest
  exact ⟨headTexts_injective hhead, hdancers, hformations, hmusics, hlights⟩

/-- The identifiers of the formations and cues of two states agree. -/
structure SameIds (a b : Domain) : Prop where
  formations : a.formations.keys = b.formations.keys
  musicCues : a.musicCues.keys = b.musicCues.keys
  lightingCues : a.lightingCues.keys = b.lightingCues.keys

/-- A table is known from its keys and lines. -/
theorem table_of_keys {ν : Type} {m n : OrdMap String ν} {text : String × ν → String}
    (inj : ∀ {a b : String × ν}, text a = text b → a.1 = b.1 ∨ ':' ∉ a.1.toList ∧ ':' ∉ b.1.toList → a = b)
    (keys : m.keys = n.keys) (lines : m.entries.map text = n.entries.map text) : m = n := by
  refine OrdMap.ext (map_inj_on (f := fun e => (e.1, text e)) (P := fun _ => True) (fun a b _ _ h => ?_) (by simp) (by simp) ?_)
  · exact inj (Prod.mk.inj h).2 (.inl (Prod.mk.inj h).1)
  · rw [← List.zip_map', ← List.zip_map', lines]
    exact congrArg (List.zip · _) keys

theorem SameLines.domain {a b : Domain} (h : SameLines a b) (formations : a.formations = b.formations) (musicCues : a.musicCues = b.musicCues)
    (lightingCues : a.lightingCues = b.lightingCues) : a = b := by
  have hdancers : a.dancers = b.dancers :=
    OrdMap.ext (map_inj_on (P := fun _ => True) (fun _ _ _ _ h => dancerText_injective h) (by simp) (by simp) h.dancers)
  exact Domain.ext h.head.created h.head.id h.head.stage h.head.overlap h.head.maxTravelMm h.head.lastApplied h.head.term hdancers formations
    musicCues lightingCues

/-- The state after the events that can be applied. -/
def played (events : List Event) : ChoreographyState :=
  events.foldl (fun s e => match apply s e with | .ok t => t | .error _ => s) {}

theorem reached_played {events : List Event} (fits : ∀ e ∈ events, e.Fits) : Reached (played events) := by
  induction events using List.reverseRecOn with
  | nil => exact .empty
  | append_singleton events event ih =>
    have hreached := ih fun e he => fits e (List.mem_append_left _ he)
    unfold played at hreached ⊢
    rw [List.foldl_append]
    simp only [List.foldl_cons, List.foldl_nil]
    split
    · rename_i happly
      exact .event event .contiguous (fits event (List.mem_append_right _ List.mem_cons_self)) hreached happly
    · exact hreached

def stepOf (id : EventId) (index : Nat) (type : EventType) (payload : Payload) : Event :=
  { id, commandId := ⟨id.value, id.valid⟩, choreographyId := ⟨"show", Eq.refl true⟩, type, schemaVersion := currentSchemaVersion
    tick := ⟨0, MusicalTick.zero_lt⟩, index, term := 1, payload }

theorem stepOf_fits {id : EventId} {index : Nat} {type : EventType} {payload : Payload} (bound : index < 2 ^ 64) :
    (stepOf id index type payload).Fits :=
  ⟨bound, (by decide : 1 < 2 ^ 64), (by decide : 0 < 1)⟩

/-- Two dancers and one formation of one of them. -/
def grouped (first second : DancerId) (formation : FormationId) (member : DancerId) : List Event :=
  [stepOf ⟨"e1", Eq.refl true⟩ 1 .choreographyCreated (.create ⟨⟨"show", Eq.refl true⟩, unitStage, .allowed, 0⟩),
    stepOf ⟨"e2", Eq.refl true⟩ 2 .dancerAdded (.dancer ⟨first, ⟨⟨0, Nat.zero_le _⟩, ⟨0, Nat.zero_le _⟩⟩⟩),
    stepOf ⟨"e3", Eq.refl true⟩ 3 .dancerAdded (.dancer ⟨second, ⟨⟨0, Nat.zero_le _⟩, ⟨0, Nat.zero_le _⟩⟩⟩),
    stepOf ⟨"e4", Eq.refl true⟩ 4 .formationDefined (.formation ⟨formation, [member]⟩)]

theorem reached_grouped (first second : DancerId) (formation : FormationId) (member : DancerId) :
    Reached (played (grouped first second formation member)) := by
  refine reached_played fun e he => ?_
  simp only [grouped, List.mem_cons, List.not_mem_nil, or_false] at he
  rcases he with rfl | rfl | rfl | rfl <;> exact stepOf_fits (by decide)

end Choreolog.State
