import Choreolog.Theorems.Reach
import Choreolog.Storage.Snapshot

/-! # Restoring a snapshot payload

Each line of a payload is read back as the fact it was written for. What comes back is the state, up to
its event texts and up to `-`, which the payload writes for a missing identifier. -/

namespace Choreolog.State
open Lib Lib.Text

/-! ### Words -/

theorem not_space_of_allowed {c : Char} (h : isAllowedIdChar c = true) : isSpace c = false := by
  -- Every allowed character is above the blank.
  have hlow : ' '.val.toNat < c.val.toNat := by
    simp only [isAllowedIdChar, Char.isAlphanum, Char.isAlpha, Char.isUpper, Char.isLower, Char.isDigit, Bool.or_eq_true,
      Bool.and_eq_true, decide_eq_true_eq, beq_iff_eq] at h
    rcases h with (((((h | h) | h) | rfl) | rfl) | rfl) | rfl
    · exact Nat.lt_of_lt_of_le (by decide) h.1
    · exact Nat.lt_of_lt_of_le (by decide) h.1
    · exact Nat.lt_of_lt_of_le (by decide) h.1
    all_goals decide
  simp only [isSpace, Bool.or_eq_false_iff, beq_eq_false_iff_ne, Bool.and_eq_false_iff, decide_eq_false_iff_not]
  refine ⟨?_, .inr fun hle => ?_⟩
  · rintro rfl
    exact Nat.lt_irrefl _ hlow
  · exact absurd (Nat.lt_of_lt_of_le hlow hle) (by decide)

theorem word_of_validId {x : String} (h : validId x = true) : Word x.toList := by
  simp only [validId, Bool.and_eq_true, bne_iff_ne, ne_eq, List.all_eq_true] at h
  exact ⟨fun hx => h.1.1 (String.toList_eq_nil_iff.mp hx), fun c hc => not_space_of_allowed (h.2 c hc)⟩

theorem StrongId.word {tag : IdTag} (id : StrongId tag) : Word id.value.toList := word_of_validId id.valid

/-! ### Fingerprints -/

theorem decodeDigit_alphabet : ∀ d < 64, decodeDigit (base64Alphabet.getD d 'A') = .ok d := by decide +kernel

theorem base64Alphabet_solid : ∀ d < 64, isSpace (base64Alphabet.getD d 'A') = false := by decide +kernel

theorem base64Digits_lt (count value : Nat) : ∀ d ∈ base64Digits count value, d < 64 := by
  induction count generalizing value with
  | zero => exact nofun
  | succ count ih =>
    intro d hd
    rcases List.mem_append.mp hd with hd | hd
    · exact ih _ d hd
    · rw [List.mem_singleton.mp hd]
      exact Nat.mod_lt _ (by decide)

@[simp] theorem length_base64Digits (count value : Nat) : (base64Digits count value).length = count := by
  induction count generalizing value with
  | zero => rfl
  | succ count ih => simp [base64Digits, ih]

theorem foldl_base64Digits {count value : Nat} (h : value < 64 ^ count) :
    (base64Digits count value).foldl (fun v d => v * 64 + d) 0 = value := by
  induction count generalizing value with
  | zero =>
    rw [pow_zero] at h
    simp [base64Digits]
    omega
  | succ count ih =>
    rw [pow_succ] at h
    rw [base64Digits, List.foldl_append, ih ((Nat.div_lt_iff_lt_mul (by decide)).mpr h)]
    simp only [List.foldl_cons, List.foldl_nil]
    omega

/-- The highest digit is what is left above all the others. -/
theorem head?_base64Digits (count value : Nat) : (base64Digits (count + 1) value).head? = some (value / 64 ^ count % 64) := by
  induction count generalizing value with
  | zero => simp [base64Digits]
  | succ count ih =>
    rw [base64Digits, List.head?_append_of_ne_nil _ (by simp [base64Digits]), ih, Nat.div_div_eq_div_mul, pow_succ', Nat.mul_comm]

theorem mapM_decodeDigit (digits : List Nat) (h : ∀ d ∈ digits, d < 64) :
    (digits.map fun d => base64Alphabet.getD d 'A').mapM decodeDigit = .ok digits := by
  induction digits with
  | nil => rfl
  | cons d digits ih =>
    rw [List.map_cons, List.mapM_cons, decodeDigit_alphabet d (h d List.mem_cons_self), ih fun x hx => h x (List.mem_cons_of_mem _ hx)]
    rfl

theorem decode_encodeFingerprint (value : UInt64) : decodeFingerprint (encodeFingerprint value) = .ok value := by
  have hlt : value.toNat < 2 ^ 64 := value.toNat_lt
  have hhead : (base64Digits 11 value.toNat).head?.any (15 < ·) = false := by
    rw [head?_base64Digits]
    have : value.toNat / 64 ^ 10 < 16 := (Nat.div_lt_iff_lt_mul (by decide)).mpr (by omega)
    simp only [Option.any_some, decide_eq_false_iff_not, not_lt]
    omega
  unfold decodeFingerprint encodeFingerprint
  rw [mapM_decodeDigit _ (base64Digits_lt 11 value.toNat)]
  simp only [List.length_map, length_base64Digits, ne_eq, not_true_eq_false, if_false, bind, Except.bind, pure, Except.pure,
    hhead, Bool.false_eq_true]
  rw [foldl_base64Digits (by omega), UInt64.ofNat_toNat]

theorem word_encodeFingerprint (value : UInt64) : Word (encodeFingerprint value) := by
  refine ⟨fun h => ?_, fun c hc => ?_⟩
  · have := congrArg List.length h
    simp [encodeFingerprint] at this
  · obtain ⟨d, hd, rfl⟩ := List.mem_map.mp hc
    exact base64Alphabet_solid d (base64Digits_lt 11 value.toNat d hd)

/-! ### Lines -/

/-- What is left of an optional identifier in a payload, where `-` means none. -/
def dashless {tag : IdTag} : Option (StrongId tag) → Option (StrongId tag)
  | some id => if id.value = "-" then none else some id
  | none => none

def CueState.dashless (cue : CueState) : CueState := { cue with dependsOn := State.dashless cue.dependsOn }

namespace Restoring

/-- A line that its key's reader takes to the end is read. -/
theorem restoreLine_ok {r r' : Restoring} {key : List Char} {words : List (List Char)} (reader : Stream → Result (Restoring × Stream))
    (fields : Stream) (hkey : Word key) (version : r.version = some "3") (dispatch : ∀ f, r.restoreField "3" key f = reader f)
    (h : reader (.left words) = .ok (r', fields)) (good : fields.fail = false ∨ fields.eof = true) :
    r.restoreLine (unwords (key :: words)) = .ok r' := by
  unfold restoreLine
  rw [word_first hkey]
  simp only [version, dispatch, h, bind, Except.bind, pure, Except.pure]
  rw [if_neg]
  rintro ⟨h1, h2⟩
  rcases good with h | h
  · exact nomatch h.symm.trans h1
  · exact nomatch h.symm.trans h2

theorem word_optional {tag : IdTag} (id : Option (StrongId tag)) : Word ((id.map (·.value)).getD "-").toList := by
  cases id with
  | none =>
    change Word "-".toList
    exact ⟨by decide, by decide⟩
  | some id => exact id.word

theorem toList_dash {x : String} : x.toList = ['-'] ↔ x = "-" := by
  rw [← String.toList_inj]
  rfl

theorem readWords_left (words : List (List Char)) (h : ∀ w ∈ words, Word w) (fuel : Nat) (enough : words.length < fuel) :
    readWords fuel (.left words) = (words, { rest := [], fail := true, eof := true }) := by
  induction words generalizing fuel with
  | nil =>
    obtain ⟨fuel, rfl⟩ := Nat.exists_eq_succ_of_ne_zero (Nat.ne_of_gt enough)
    rfl
  | cons w words ih =>
    obtain ⟨fuel, rfl⟩ := Nat.exists_eq_succ_of_ne_zero (Nat.ne_of_gt (Nat.zero_lt_of_lt enough))
    rw [readWords, word_left (h w List.mem_cons_self)]
    dsimp only
    rw [if_neg (by simp [Stream.left]), ih (fun x hx => h x (List.mem_cons_of_mem _ hx)) fuel (by simpa using enough)]

theorem mapM_parse {tag : IdTag} (ids : List (StrongId tag)) :
    (ids.map (·.value.toList)).mapM (fun word => (StrongId.parse (String.ofList word) : Result (StrongId tag))) = .ok ids := by
  induction ids with
  | nil => rfl
  | cons id ids ih =>
    rw [List.map_cons, List.mapM_cons, ih, String.ofList_toList, StrongId.parse_value]
    rfl

theorem readCue_left {id : String} (valid : validId id = true) (cue : CueState) :
    readCue (.left [id.toList, ofNat cue.tick.ticks, ((cue.dependsOn.map (·.value)).getD "-").toList]) =
      .ok (id, cue.dashless, .left []) := by
  have hbound := cue.tick.bound
  unfold readCue
  rw [word_left (word_of_validId valid)]
  dsimp only
  rw [show ofNat cue.tick.ticks = ofInt (cue.tick.ticks : Int) from rfl, signed_left (by omega) (by omega)]
  dsimp only
  rw [word_left (word_optional cue.dependsOn)]
  obtain ⟨tick, dependsOn⟩ := cue
  cases dependsOn with
  | none => simp [CueState.dashless, dashless, bind, Except.bind, pure, Except.pure]
  | some depends =>
    by_cases hdash : depends.value = "-"
    · simp [CueState.dashless, dashless, hdash, bind, Except.bind, pure, Except.pure]
    · have hword : depends.value.toList ≠ ['-'] := fun h => hdash (toList_dash.mp h)
      simp [CueState.dashless, dashless, hdash, hword, bind, Except.bind, pure, Except.pure, depends.ne_empty]

section Readers
variable {r : Restoring} (version : r.version = some "3")
include version

theorem reads_schema : r.restoreLine (unwords ["schema".toList, ofNat currentSchemaVersion.toNat]) = .ok r := by
  refine restoreLine_ok r.restoreSchema (.left []) ⟨by decide, by decide⟩ version (fun f => by simp [restoreField]) ?_ (.inl rfl)
  rw [restoreSchema,
    unsigned_left (by decide)]
  rfl

theorem reads_created (created : Bool) : r.restoreLine (unwords ["created".toList, ofInt (if created then 1 else 0)]) =
    .ok { r with state.created := created } := by
  refine restoreLine_ok r.restoreCreated (.left []) ⟨by decide, by decide⟩ version (fun f => by simp [restoreField]) ?_ (.inl rfl)
  rw [restoreCreated,
    signed_left (by cases created <;> decide) (by cases created <;> decide)]
  cases created <;> rfl

theorem reads_choreography (id : Option ChoreographyId) (fresh : r.state.id = none) :
    r.restoreLine (unwords ["choreography".toList, ((id.map (·.value)).getD "-").toList]) =
      .ok { r with state.id := dashless id } := by
  refine restoreLine_ok r.restoreChoreography (.left []) ⟨by decide, by decide⟩ version (fun f => by simp [restoreField]) ?_ (.inl rfl)
  rw [restoreChoreography,
    word_left (word_optional id)]
  cases id with
  | none =>
    obtain ⟨⟨⟨_, _, _, _, _, _, _, _, _, _, _⟩, _, _, _⟩, _, _, _⟩ := r
    obtain rfl : _ = none := fresh
    rfl
  | some id =>
    by_cases hdash : id.value = "-"
    · obtain ⟨⟨⟨_, _, _, _, _, _, _, _, _, _, _⟩, _, _, _⟩, _, _, _⟩ := r
      obtain rfl : _ = none := fresh
      simp [dashless, hdash, pure, Except.pure]
    · have hword : id.value.toList ≠ ['-'] := fun h => hdash (toList_dash.mp h)
      simp [dashless, hdash, hword, pure, Except.pure, bind, Except.bind]

theorem reads_stage (stage : Option StageBounds) (fresh : r.state.stage = none) :
    r.restoreLine (unwords ("stage".toList :: stageWords stage)) = .ok { r with state.stage := stage } := by
  refine restoreLine_ok r.restoreStage (.left []) ⟨by decide, by decide⟩ version (fun f => by simp [restoreField]) ?_ (.inl rfl)
  rw [restoreStage]
  cases stage with
  | none =>
    rw [stageWords, word_left ⟨by decide, by decide⟩]
    obtain ⟨⟨⟨_, _, _, _, _, _, _, _, _, _, _⟩, _, _, _⟩, _, _, _⟩ := r
    obtain rfl : _ = none := fresh
    rfl
  | some stage =>
    have hw := stage.width.bound
    have hd := stage.depth.bound
    unfold maxStageMm at hw hd
    have hword : ofInt (stage.width.mm : Int) ≠ ['-'] := by
      intro h
      have hmem : '-' ∈ ofInt (stage.width.mm : Int) := by simp [h]
      exact absurd (digits_ofNat '-' hmem) (by decide)
    rw [stageWords, word_left (.ofInt _)]
    have hwidth : ({ rest := unwords [ofInt stage.width.mm] } : Stream).signed 32 0 = ((stage.width.mm : Int), Stream.left []) :=
      signed_first (by omega) (by omega)
    simp only [unwords, List.flatMap_nil, List.append_nil] at hwidth
    simp only [hword, if_false, hwidth]
    rw [signed_left (by omega) (by omega)]
    simp [bind, Except.bind, pure, Except.pure]

theorem reads_overlap (overlap : OverlapPolicy) : r.restoreLine (unwords ["overlap".toList, (overlapPolicyName overlap).toList]) =
    .ok { r with state.overlap := overlap } := by
  refine restoreLine_ok r.restoreOverlap (.left []) ⟨by decide, by decide⟩ version (fun f => by simp [restoreField]) ?_ (.inl rfl)
  rw [restoreOverlap,
    word_left ⟨by cases overlap <;> decide, by cases overlap <;> decide⟩]
  simp [bind, Except.bind, pure, Except.pure]

theorem reads_travel (travel : Int32) : r.restoreLine (unwords ["max_travel".toList, ofInt travel.toInt]) =
    .ok { r with state.maxTravelMm := travel } := by
  refine restoreLine_ok r.restoreTravel (.left []) ⟨by decide, by decide⟩ version (fun f => by simp [restoreField]) ?_ (.inl rfl)
  have h1 := travel.toInt_lt
  have h2 := travel.le_toInt
  rw [restoreTravel,
    signed_left (by omega) (by omega)]
  simp

theorem reads_lastApplied {index : Nat} (h : index < 2 ^ 64) : r.restoreLine (unwords ["last_applied".toList, ofNat index]) =
    .ok { r with state.lastApplied := index } := by
  refine restoreLine_ok r.restoreLastApplied (.left []) ⟨by decide, by decide⟩ version (fun f => by simp [restoreField]) ?_ (.inl rfl)
  rw [restoreLastApplied,
    unsigned_left h]

theorem reads_term {term : Nat} (h : term < 2 ^ 64) (positive : 0 < term) : r.restoreLine (unwords ["term".toList, ofNat term]) =
    .ok { r with state.term := term } := by
  refine restoreLine_ok r.restoreTerm (.left []) ⟨by decide, by decide⟩ version (fun f => by simp [restoreField]) ?_ (.inl rfl)
  rw [restoreTerm, unsigned_left h]
  simp [parseTerm, positive.ne', bind, Except.bind, pure, Except.pure]

theorem reads_dancer {id : String} (valid : validId id = true) (dancer : DancerState) :
    r.restoreLine (unwords (dancerWords id dancer)) = .ok { r with state.dancers := r.state.dancers.insert id dancer } := by
  refine restoreLine_ok r.restoreDancer (.left []) ⟨by decide, by decide⟩ version (fun f => by simp [restoreField]) ?_ (.inl rfl)
  have hx := dancer.position.x.bound
  have hy := dancer.position.y.bound
  unfold maxStageMm at hx hy
  rw [restoreDancer,
    word_left (word_of_validId valid)]
  dsimp only
  rw [signed_left (by omega) (by omega)]
  dsimp only
  rw [signed_left (by omega) (by omega)]
  dsimp only
  rw [signed_left (by split <;> decide) (by split <;> decide)]
  obtain ⟨position, active⟩ := dancer
  cases active <;> simp [bind, Except.bind, pure, Except.pure]

theorem reads_formation {id : String} (valid : validId id = true) (formation : FormationState) :
    r.restoreLine (unwords (formationWords id formation)) =
      .ok { r with state.formations := r.state.formations.insert id formation } := by
  refine restoreLine_ok r.restoreFormation { rest := [], fail := true, eof := true } ⟨by decide, by decide⟩ version (fun f => by simp [restoreField]) ?_ (.inr rfl)
  have hwords : ∀ w ∈ formation.members.map (·.value.toList), Word w := by
    intro w hw
    obtain ⟨member, -, rfl⟩ := List.mem_map.mp hw
    exact member.word
  have hfuel : (formation.members.map (·.value.toList)).length <
      (Stream.left (formation.members.map (·.value.toList))).rest.length + 1 := by
    unfold Stream.left
    generalize formation.members.map (·.value.toList) = words
    induction words with
    | nil => simp
    | cons w words ih =>
      simp only [List.flatMap_cons, List.length_append, List.length_cons] at ih ⊢
      omega
  rw [restoreFormation,
    word_left (word_of_validId valid)]
  dsimp only
  rw [readWords_left _ hwords _ hfuel]
  dsimp only
  rw [mapM_parse]
  simp [bind, Except.bind, pure, Except.pure]

theorem reads_music {id : String} (valid : validId id = true) (cue : CueState) :
    r.restoreLine (unwords (cueWords "music" id cue)) =
      .ok { r with state.musicCues := r.state.musicCues.insert id cue.dashless } := by
  refine restoreLine_ok r.restoreMusic (.left []) ⟨by decide, by decide⟩ version (fun f => by simp [restoreField]) ?_ (.inl rfl)
  rw [restoreMusic,
    readCue_left valid cue]
  rfl

theorem reads_light {id : String} (valid : validId id = true) (cue : CueState) :
    r.restoreLine (unwords (cueWords "light" id cue)) =
      .ok { r with state.lightingCues := r.state.lightingCues.insert id cue.dashless } := by
  refine restoreLine_ok r.restoreLight (.left []) ⟨by decide, by decide⟩ version (fun f => by simp [restoreField]) ?_ (.inl rfl)
  rw [restoreLight,
    readCue_left valid cue]
  rfl

theorem reads_at {cursor : Nat} (later : r.receiptIndex < cursor) (below : cursor < r.state.lastApplied)
    (h : cursor < 2 ^ 64) : r.restoreLine (unwords ["at".toList, ofNat cursor]) = .ok { r with receiptIndex := cursor } := by
  refine restoreLine_ok r.restoreAt (.left []) ⟨by decide, by decide⟩ version (fun f => by simp [restoreField]) ?_ (.inl rfl)
  rw [restoreAt, unsigned_left h]
  dsimp only
  rw [if_neg]
  rintro (h | h | h)
  · cases h
  · omega
  · omega

theorem reads_receiptTerm {term : Nat} (h : term < 2 ^ 64) (positive : 0 < term) :
    r.restoreLine (unwords ["receipt-term".toList, ofNat term]) = .ok { r with receiptTerm := term } := by
  refine restoreLine_ok r.restoreReceiptTerm (.left []) ⟨by decide, by decide⟩ version (fun f => by simp [restoreField]) ?_ (.inl rfl)
  rw [restoreReceiptTerm,
    unsigned_left h]
  dsimp only
  rw [if_neg]
  rintro (h | h)
  · cases h
  · omega

theorem reads_receipt {id : String} (valid : validId id = true) (fingerprint : UInt64)
    (below : r.receiptIndex < r.state.lastApplied) (fresh : r.state.receipts.find? id = none) :
    r.restoreLine (unwords ["r".toList, id.toList, encodeFingerprint fingerprint]) = .ok { r with
      receiptIndex := r.receiptIndex + 1
      state.receipts := r.state.receipts.insert id ⟨r.receiptIndex + 1, r.receiptTerm, fingerprint⟩
      state.appliedCommands := r.state.appliedCommands.insert id id } := by
  refine restoreLine_ok r.restoreReceipt (.left []) ⟨by decide, by decide⟩ version (fun f => by simp [restoreField]) ?_ (.inl rfl)
  rw [restoreReceipt,
    word_left (word_of_validId valid)]
  dsimp only
  rw [word_left (word_encodeFingerprint fingerprint)]
  dsimp only
  rw [String.ofList_toList, decode_encodeFingerprint, valid]
  dsimp only
  rw [if_neg]
  rintro (h | h)
  · omega
  · simp [OrdMap.contains_eq, fresh] at h

theorem reads_legacy {id : String} (valid : validId id = true) (fresh : r.state.appliedCommands.find? id = none) :
    r.restoreLine (unwords ["legacy".toList, id.toList]) =
      .ok { r with state.appliedCommands := r.state.appliedCommands.insert id id } := by
  refine restoreLine_ok r.restoreLegacy (.left []) ⟨by decide, by decide⟩ version (fun f => by simp [restoreField]) ?_ (.inl rfl)
  rw [restoreLegacy,
    word_left (word_of_validId valid)]
  dsimp only
  rw [String.ofList_toList, if_neg]
  rintro (h | h)
  · simp [valid] at h
  · simp [OrdMap.contains_eq, fresh] at h

end Readers

/-! ### Groups of lines -/

/-- The lines of words, read one after the other. -/
def restoreLines (r : Restoring) (lines : List (List (List Char))) : Result Restoring :=
  (lines.map unwords).foldlM restoreLine r

theorem restoreLines_cons {r r' : Restoring} {line : List (List Char)} {lines : List (List (List Char))}
    (h : r.restoreLine (unwords line) = .ok r') : r.restoreLines (line :: lines) = r'.restoreLines lines := by
  simp only [restoreLines, List.map_cons, List.foldlM_cons, h]
  rfl

theorem restoreLines_append {r r' : Restoring} {lines lines' : List (List (List Char))} (h : r.restoreLines lines = .ok r') :
    r.restoreLines (lines ++ lines') = r'.restoreLines lines' := by
  simp only [restoreLines, List.map_append, List.foldlM_append] at h ⊢
  rw [h]
  rfl

/-- A table whose lines put one entry each. -/
theorem restoreLines_table {ν : Type} (line : String × ν → List (List Char)) (put : Restoring → String × ν → Restoring)
    (entries : List (String × ν)) (keeps : ∀ r e, (put r e).version = r.version)
    (reads : ∀ e ∈ entries, ∀ r : Restoring, r.version = some "3" → r.restoreLine (unwords (line e)) = .ok (put r e))
    {r : Restoring} (version : r.version = some "3") : r.restoreLines (entries.map line) = .ok (entries.foldl put r) := by
  induction entries generalizing r with
  | nil => rfl
  | cons e entries ih =>
    rw [List.map_cons, restoreLines_cons (reads e List.mem_cons_self r version)]
    exact ih (fun x hx => reads x (List.mem_cons_of_mem _ hx)) ((keeps r e).trans version)

theorem restoreLines_header {s : ChoreographyState} (h : Regular s) : restoreLines {} (headerLines s.toDomain) =
    .ok { version := some "3", state.created := s.created, state.id := dashless s.id, state.stage := s.stage
          state.overlap := s.overlap, state.maxTravelMm := s.maxTravelMm, state.lastApplied := s.lastApplied
          state.term := s.term } := by
  have hheader : restoreLine {} (unwords ["snapshot-state".toList, ['3']]) = .ok { version := some "3" } := by decide +kernel
  unfold headerLines
  rw [restoreLines_cons hheader, restoreLines_cons (reads_schema rfl), restoreLines_cons (reads_created rfl _),
    restoreLines_cons (reads_choreography rfl _ rfl), restoreLines_cons (reads_stage rfl _ rfl),
    restoreLines_cons (reads_overlap rfl _), restoreLines_cons (reads_travel rfl _),
    restoreLines_cons (reads_lastApplied rfl h.lastApplied), restoreLines_cons (reads_term rfl h.term h.termPos)]
  rfl

theorem restoreLines_dancers {r : Restoring} (version : r.version = some "3") (entries : List (String × DancerState))
    (valid : ∀ e ∈ entries, validId e.1 = true) :
    r.restoreLines (entries.map fun e => dancerWords e.1 e.2) =
    .ok { r with state.dancers := entries.foldl (fun m e => m.insert e.1 e.2) r.state.dancers } := by
  rw [restoreLines_table _ (fun r e => { r with state.dancers := r.state.dancers.insert e.1 e.2 }) entries (fun _ _ => rfl)
    (fun e he r hr => reads_dancer hr (valid e he) e.2) version]
  congr 1
  clear valid version
  induction entries generalizing r with
  | nil => rfl
  | cons e entries ih => exact ih

theorem restoreLines_formations {r : Restoring} (version : r.version = some "3") (entries : List (String × FormationState))
    (valid : ∀ e ∈ entries, validId e.1 = true) :
    r.restoreLines (entries.map fun e => formationWords e.1 e.2) =
    .ok { r with state.formations := entries.foldl (fun m e => m.insert e.1 e.2) r.state.formations } := by
  rw [restoreLines_table _ (fun r e => { r with state.formations := r.state.formations.insert e.1 e.2 }) entries (fun _ _ => rfl)
    (fun e he r hr => reads_formation hr (valid e he) e.2) version]
  congr 1
  clear valid version
  induction entries generalizing r with
  | nil => rfl
  | cons e entries ih => exact ih

theorem restoreLines_music {r : Restoring} (version : r.version = some "3") (entries : List (String × CueState))
    (valid : ∀ e ∈ entries, validId e.1 = true) :
    r.restoreLines (entries.map fun e => cueWords "music" e.1 e.2) =
    .ok { r with state.musicCues := entries.foldl (fun m e => m.insert e.1 e.2.dashless) r.state.musicCues } := by
  rw [restoreLines_table _ (fun r e => { r with state.musicCues := r.state.musicCues.insert e.1 e.2.dashless }) entries
    (fun _ _ => rfl) (fun e he r hr => reads_music hr (valid e he) e.2) version]
  congr 1
  clear valid version
  induction entries generalizing r with
  | nil => rfl
  | cons e entries ih => exact ih

theorem restoreLines_lights {r : Restoring} (version : r.version = some "3") (entries : List (String × CueState))
    (valid : ∀ e ∈ entries, validId e.1 = true) :
    r.restoreLines (entries.map fun e => cueWords "light" e.1 e.2) =
    .ok { r with state.lightingCues := entries.foldl (fun m e => m.insert e.1 e.2.dashless) r.state.lightingCues } := by
  rw [restoreLines_table _ (fun r e => { r with state.lightingCues := r.state.lightingCues.insert e.1 e.2.dashless }) entries
    (fun _ _ => rfl) (fun e he r hr => reads_light hr (valid e he) e.2) version]
  congr 1
  clear valid version
  induction entries generalizing r with
  | nil => rfl
  | cons e entries ih => exact ih

/-- Receipts in index order, from the cursor and the term that the reader is at. -/
theorem restoreLines_receipts (entries : List (String × EventReceipt)) {r : Restoring} (version : r.version = some "3")
    (valid : ∀ e ∈ entries, validId e.1 = true) (ordered : entries.Pairwise fun a b => a.2.index < b.2.index)
    (index : ∀ e ∈ entries, r.receiptIndex < e.2.index ∧ e.2.index ≤ r.state.lastApplied)
    (term : ∀ e ∈ entries, 0 < e.2.term ∧ e.2.term < 2 ^ 64) (bound : r.state.lastApplied < 2 ^ 64)
    (distinct : (entries.map Prod.fst).Nodup) (fresh : ∀ e ∈ entries, r.state.receipts.find? e.1 = none) :
    ∃ i t, r.restoreLines (receiptLines r.receiptIndex r.receiptTerm entries) = .ok { r with
      receiptIndex := i, receiptTerm := t
      state.receipts := entries.foldl (fun m e => m.insert e.1 e.2) r.state.receipts
      state.appliedCommands := entries.foldl (fun m e => m.insert e.1 e.1) r.state.appliedCommands } := by
  induction entries generalizing r with
  | nil => exact ⟨_, _, rfl⟩
  | cons e entries ih =>
    obtain ⟨id, receipt⟩ := e
    obtain ⟨hlow, hhigh⟩ := index _ List.mem_cons_self
    obtain ⟨htermPos, htermLt⟩ := term _ List.mem_cons_self
    rw [List.pairwise_cons] at ordered
    rw [List.map_cons, List.nodup_cons] at distinct
    dsimp only at hlow hhigh htermPos htermLt ordered distinct
    -- The cursor is moved to just before the receipt's index, and the term to the receipt's.
    have hat : r.restoreLines (if receipt.index ≠ r.receiptIndex + 1 then [["at".toList, ofNat (receipt.index - 1)]] else []) =
        .ok { r with receiptIndex := receipt.index - 1 } := by
      split
      · rw [restoreLines_cons (reads_at version (by omega) (by omega) (by omega))]
        rfl
      · rename_i heq
        rw [show receipt.index - 1 = r.receiptIndex by omega]
        rfl
    have hterm : restoreLines { r with receiptIndex := receipt.index - 1 }
        (if receipt.term ≠ r.receiptTerm then [["receipt-term".toList, ofNat receipt.term]] else []) =
        .ok { r with receiptIndex := receipt.index - 1, receiptTerm := receipt.term } := by
      split
      · rw [restoreLines_cons (reads_receiptTerm (by exact version) htermLt htermPos)]
        rfl
      · rename_i heq
        rw [not_not] at heq
        rw [heq]
        rfl
    have hreceipt := reads_receipt (r := { r with receiptIndex := receipt.index - 1, receiptTerm := receipt.term })
      (by exact version) (valid _ List.mem_cons_self) receipt.fingerprint (by dsimp only; omega) (fresh _ List.mem_cons_self)
    dsimp only at hreceipt
    rw [show receipt.index - 1 + 1 = receipt.index by omega] at hreceipt
    obtain ⟨i, t, hrest⟩ := ih (r := { r with
        receiptIndex := receipt.index, receiptTerm := receipt.term
        state.receipts := r.state.receipts.insert id receipt
        state.appliedCommands := r.state.appliedCommands.insert id id }) version
      (fun x hx => valid x (List.mem_cons_of_mem _ hx)) ordered.2
      (fun x hx => ⟨ordered.1 x hx, (index x (List.mem_cons_of_mem _ hx)).2⟩)
      (fun x hx => term x (List.mem_cons_of_mem _ hx)) bound distinct.2 fun x hx => by
        have hne : id ≠ x.1 := fun h => distinct.1 (h ▸ List.mem_map.mpr ⟨x, hx, rfl⟩)
        simp [hne, fresh x (List.mem_cons_of_mem _ hx)]
    refine ⟨i, t, ?_⟩
    rw [receiptLines, List.append_assoc, List.append_assoc, restoreLines_append hat, restoreLines_append hterm,
      List.singleton_append, restoreLines_cons hreceipt]
    exact hrest

theorem restoreLines_legacy (ids : List String) {r : Restoring} (version : r.version = some "3")
    (valid : ∀ id ∈ ids, validId id = true) (distinct : ids.Nodup)
    (fresh : ∀ id ∈ ids, r.state.appliedCommands.find? id = none) :
    r.restoreLines (ids.map fun id => ["legacy".toList, id.toList]) =
      .ok { r with state.appliedCommands := ids.foldl (fun m id => m.insert id id) r.state.appliedCommands } := by
  induction ids generalizing r with
  | nil => rfl
  | cons id ids ih =>
    rw [List.nodup_cons] at distinct
    rw [List.map_cons, restoreLines_cons (reads_legacy version (valid id List.mem_cons_self) (fresh id List.mem_cons_self))]
    refine (ih (by exact version) (fun x hx => valid x (List.mem_cons_of_mem _ hx)) distinct.2 fun x hx => ?_).trans rfl
    have hne : id ≠ x := fun h => distinct.1 (h ▸ hx)
    simp [hne, fresh x (List.mem_cons_of_mem _ hx)]

end Restoring

/-! ### The restored state -/

def Domain.dashless (d : Domain) : Domain :=
  { d with
    id := State.dashless d.id
    musicCues := d.musicCues.mapWithKey fun _ cue => cue.dashless
    lightingCues := d.lightingCues.mapWithKey fun _ cue => cue.dashless }

/-- The commands whose tombstones a payload keeps. -/
def legacyIds (s : ChoreographyState) : List String :=
  (s.appliedCommands.entries.filter fun (id, eventId) =>
    !s.receipts.contains id && !"noop-".toList.isPrefixOf eventId.toList).map Prod.fst

/-- What a payload of `s` restores. -/
def restored (s : ChoreographyState) : ChoreographyState :=
  { s.toDomain.dashless with
    receipts := s.receipts
    appliedCommands := (legacyIds s).foldl (fun m id => m.insert id id)
      ((receiptsByIndex s.receipts).foldl (fun m e => m.insert e.1 e.1) .empty) }

theorem receiptsByIndex_perm (m : OrdMap String EventReceipt) : (receiptsByIndex m).Perm m.entries :=
  List.perm_insertionSort _ _

theorem mem_receiptsByIndex {m : OrdMap String EventReceipt} {e : String × EventReceipt} :
    e ∈ receiptsByIndex m ↔ m.find? e.1 = some e.2 := by
  rw [(receiptsByIndex_perm m).mem_iff]
  exact OrdMap.mem_entries

theorem nodup_receiptsByIndex (m : OrdMap String EventReceipt) : ((receiptsByIndex m).map Prod.fst).Nodup :=
  ((receiptsByIndex_perm m).map Prod.fst).nodup_iff.mpr OrdMap.keys_nodup

theorem Regular.ordered {s : ChoreographyState} (h : Regular s) :
    (receiptsByIndex s.receipts).Pairwise fun a b => a.2.index < b.2.index := by
  have hsorted : (receiptsByIndex s.receipts).Pairwise fun a b => a.2.index ≤ b.2.index :=
    List.pairwise_insertionSort _ _
  have hnodup : (receiptsByIndex s.receipts).Pairwise fun a b => a.1 ≠ b.1 := List.pairwise_map.mp (nodup_receiptsByIndex _)
  refine (hsorted.and hnodup).imp_of_mem fun ha hb hab => ?_
  rw [mem_receiptsByIndex] at ha hb
  exact lt_of_le_of_ne hab.1 fun heq => hab.2 (h.distinct _ _ _ _ ha hb heq)

theorem legacyLines_eq (s : ChoreographyState) :
    legacyLines s = (legacyIds s).map fun id => ["legacy".toList, id.toList] := by
  simp [legacyLines, legacyIds, List.map_map, Function.comp_def]

theorem mem_legacyIds {s : ChoreographyState} {id : String} : id ∈ legacyIds s ↔
    ∃ eventId, s.appliedCommands.find? id = some eventId ∧ s.receipts.find? id = none ∧
      "noop-".toList.isPrefixOf eventId.toList = false := by
  simp only [legacyIds, List.mem_map, List.mem_filter, Bool.and_eq_true, Bool.not_eq_true', Prod.exists, exists_and_right,
    exists_eq_right, OrdMap.mem_entries, OrdMap.contains_eq, Option.isSome_eq_false_iff, Option.isNone_iff_eq_none]

theorem nodup_legacyIds (s : ChoreographyState) : (legacyIds s).Nodup :=
  (OrdMap.keys_nodup (m := s.appliedCommands)).sublist (List.filter_sublist.map _)

theorem Regular.legacyIds {s : ChoreographyState} (h : Regular s) : ∀ id ∈ legacyIds s, validId id = true := by
  intro id hid
  obtain ⟨eventId, hfind, -⟩ := mem_legacyIds.mp hid
  exact h.commands id (OrdMap.mem_keys.mpr (by simp [hfind]))

/-- The commands of the receipts are known after the receipts have been read. -/
theorem find?_receiptCommands (entries : List (String × EventReceipt)) (m : OrdMap String String) (id : String) :
    (entries.foldl (fun m e => m.insert e.1 e.1) m).find? id =
      if id ∈ entries.map Prod.fst then some id else m.find? id := by
  induction entries generalizing m with
  | nil => simp
  | cons e entries ih =>
    rw [List.foldl_cons, ih, OrdMap.find?_insert, List.map_cons]
    by_cases h : id ∈ entries.map Prod.fst
    · simp [h]
    · by_cases he : e.1 = id
      · simp [he]
      · simp [h, he, Ne.symm he]

theorem mapWithKey_eq_foldl (m : OrdMap String CueState) :
    m.entries.foldl (fun a e => a.insert e.1 e.2.dashless) .empty = m.mapWithKey fun _ cue => cue.dashless := by
  have h := OrdMap.foldl_insert_perm (m := m.mapWithKey fun _ cue => cue.dashless) (List.Perm.refl _)
  rw [← h]
  simp only [OrdMap.mapWithKey, List.foldl_map]

namespace Restoring

theorem restoreLines_domain {s : ChoreographyState} (h : Regular s) : restoreLines {} (domainLines s.toDomain) =
    .ok { state := { toDomain := s.toDomain.dashless }, version := some "3" } := by
  have hkeys : ∀ {ν : Type} {m : OrdMap String ν}, (∀ x ∈ m.keys, validId x = true) → ∀ e ∈ m.entries, validId e.1 = true :=
    fun hm e he => hm e.1 (List.mem_map.mpr ⟨e, he, rfl⟩)
  simp only [domainLines, List.append_assoc]
  rw [restoreLines_append (restoreLines_header h), restoreLines_append (restoreLines_dancers rfl _ (hkeys h.named.dancers)),
    restoreLines_append (restoreLines_formations rfl _ (hkeys h.named.formations)),
    restoreLines_append (restoreLines_music rfl _ (hkeys h.named.musicCues)),
    restoreLines_lights rfl _ (hkeys h.named.lightingCues)]
  dsimp only
  rw [OrdMap.foldl_insert_perm (.refl _), OrdMap.foldl_insert_perm (.refl _), mapWithKey_eq_foldl, mapWithKey_eq_foldl]
  rfl

theorem restoreLines_payload {s : ChoreographyState} (h : Regular s) : ∃ i t, restoreLines {} (payloadLines s) =
    .ok { state := restored s, version := some "3", receiptIndex := i, receiptTerm := t } := by
  have hreceipt : ∀ e ∈ receiptsByIndex s.receipts, s.receipts.find? e.1 = some e.2 := fun e he => mem_receiptsByIndex.mp he
  obtain ⟨i, t, hreceipts⟩ := restoreLines_receipts (receiptsByIndex s.receipts)
    (r := { state := { toDomain := s.toDomain.dashless }, version := some "3" }) rfl
    (fun e he => h.receiptIds e.1 (OrdMap.mem_keys.mpr (by simp [hreceipt e he]))) h.ordered
    (fun e he => h.index e.1 e.2 (hreceipt e he)) (fun e he => h.receiptTerm e.1 e.2 (hreceipt e he)) h.lastApplied
    (nodup_receiptsByIndex _) (fun _ _ => rfl)
  refine ⟨i, t, ?_⟩
  rw [payloadLines, List.append_assoc, restoreLines_append (restoreLines_domain h), restoreLines_append hreceipts, legacyLines_eq,
    restoreLines_legacy (legacyIds s) rfl h.legacyIds (nodup_legacyIds s) fun id hid => ?_]
  · dsimp only
    rw [OrdMap.foldl_insert_perm (receiptsByIndex_perm s.receipts)]
    rfl
  · -- A tombstone is kept only for a command without a receipt.
    obtain ⟨eventId, -, hnone, -⟩ := mem_legacyIds.mp hid
    dsimp only
    rw [find?_receiptCommands, if_neg, OrdMap.find?_empty]
    intro hmem
    obtain ⟨e, he, rfl⟩ := List.mem_map.mp hmem
    exact nomatch hnone.symm.trans (mem_receiptsByIndex.mp he)

end Restoring

end Choreolog.State
