import Choreolog.Theorems.Restore

/-! # The snapshot round trip

A payload is plain text, so it comes back from a file as it was written, and a snapshot file passes the
checks on reading it. The state it restores is the one it was taken of, except where `-` is an identifier
of the state. -/

namespace Choreolog.State
open Lib Lib.Text

/-! ### Plain text -/

/-- A word of characters below 128. -/
structure Plain (w : List Char) : Prop extends Word w where
  ascii : ∀ c ∈ w, c.toNat < 128

theorem ascii_of_allowed {c : Char} (h : isAllowedIdChar c = true) : c.toNat < 128 := by
  simp only [isAllowedIdChar, Char.isAlphanum, Char.isAlpha, Char.isUpper, Char.isLower, Char.isDigit, Bool.or_eq_true,
    Bool.and_eq_true, decide_eq_true_eq, beq_iff_eq] at h
  rcases h with (((((h | h) | h) | rfl) | rfl) | rfl) | rfl
  · exact Nat.lt_of_le_of_lt h.2 (by decide)
  · exact Nat.lt_of_le_of_lt h.2 (by decide)
  · exact Nat.lt_of_le_of_lt h.2 (by decide)
  all_goals decide

theorem allowed_of_digit {c : Char} (h : c.isDigit = true) : isAllowedIdChar c = true := by
  simp [isAllowedIdChar, Char.isAlphanum, h]

namespace Plain

theorem of_validId {x : String} (h : validId x = true) : Plain x.toList := by
  refine ⟨word_of_validId h, fun c hc => ascii_of_allowed ?_⟩
  simp only [validId, Bool.and_eq_true, List.all_eq_true] at h
  exact h.2 c hc

theorem ofNat (n : Nat) : Plain (ofNat n) := ⟨.ofNat n, fun c hc => ascii_of_allowed (allowed_of_digit (digits_ofNat c hc))⟩

theorem ofInt (i : Int) : Plain (ofInt i) := by
  refine ⟨.ofInt i, fun c hc => ?_⟩
  cases i with
  | ofNat n => exact (ofNat n).ascii c hc
  | negSucc n =>
    rcases List.mem_cons.mp hc with rfl | hc
    · decide
    · exact (ofNat (n + 1)).ascii c hc

theorem optional {tag : IdTag} (id : Option (StrongId tag)) : Plain ((id.map (·.value)).getD "-").toList := by
  cases id with
  | none =>
    change Plain "-".toList
    exact ⟨⟨by decide, by decide⟩, by decide⟩
  | some id => exact of_validId id.valid

theorem fingerprint (value : UInt64) : Plain (encodeFingerprint value) := by
  have halphabet : ∀ d < 64, (base64Alphabet.getD d 'A').toNat < 128 := by decide +kernel
  refine ⟨word_encodeFingerprint value, fun c hc => ?_⟩
  obtain ⟨d, hd, rfl⟩ := List.mem_map.mp hc
  exact halphabet d (base64Digits_lt 11 value.toNat d hd)

end Plain

/-- A line of plain words. -/
structure PlainLine (line : List (List Char)) : Prop where
  nonempty : line ≠ []
  words : ∀ w ∈ line, Plain w

theorem PlainLine.cons {w : List Char} {line : List (List Char)} (hw : Plain w) (h : ∀ x ∈ line, Plain x) : PlainLine (w :: line) := by
  refine ⟨List.cons_ne_nil _ _, fun x hx => ?_⟩
  rcases List.mem_cons.mp hx with rfl | hx
  · exact hw
  · exact h x hx

theorem plainLine_receipts (entries : List (String × EventReceipt)) (valid : ∀ e ∈ entries, validId e.1 = true) (cursor term : Nat) :
    ∀ line ∈ receiptLines cursor term entries, PlainLine line := by
  induction entries generalizing cursor term with
  | nil => exact nofun
  | cons e entries ih =>
    intro line hline
    obtain ⟨id, receipt⟩ := e
    simp only [receiptLines, List.mem_append, List.mem_singleton] at hline
    rcases hline with ((hline | hline) | rfl) | hline
    · split at hline
      · obtain rfl := List.mem_singleton.mp hline
        exact .cons ⟨⟨by decide, by decide⟩, by decide⟩ (by simpa using Plain.ofNat _)
      · cases hline
    · split at hline
      · obtain rfl := List.mem_singleton.mp hline
        exact .cons ⟨⟨by decide, by decide⟩, by decide⟩ (by simpa using Plain.ofNat _)
      · cases hline
    · refine .cons ⟨⟨by decide, by decide⟩, by decide⟩ fun w hw => ?_
      simp only [List.mem_cons, List.not_mem_nil, or_false] at hw
      rcases hw with rfl | rfl
      · exact .of_validId (valid _ List.mem_cons_self)
      · exact .fingerprint _
    · exact ih (fun x hx => valid x (List.mem_cons_of_mem _ hx)) _ _ line hline

theorem plainLine_header (d : Domain) : ∀ line ∈ headerLines d, PlainLine line := by
  intro line hline
  simp only [headerLines, List.mem_cons, List.not_mem_nil, or_false] at hline
  rcases hline with rfl | rfl | rfl | rfl | rfl | rfl | rfl | rfl | rfl
  · exact .cons ⟨⟨by decide, by decide⟩, by decide⟩ fun w hw => List.mem_singleton.mp hw ▸ ⟨⟨by decide, by decide⟩, by decide⟩
  · exact .cons ⟨⟨by decide, by decide⟩, by decide⟩ fun w hw => List.mem_singleton.mp hw ▸ .ofNat _
  · exact .cons ⟨⟨by decide, by decide⟩, by decide⟩ fun w hw => List.mem_singleton.mp hw ▸ .ofInt _
  · exact .cons ⟨⟨by decide, by decide⟩, by decide⟩ fun w hw => List.mem_singleton.mp hw ▸ .optional _
  · refine .cons ⟨⟨by decide, by decide⟩, by decide⟩ fun w hw => ?_
    cases hs : d.stage with
    | none =>
      rw [hs] at hw
      exact List.mem_singleton.mp hw ▸ ⟨⟨by decide, by decide⟩, by decide⟩
    | some stage =>
      rw [hs] at hw
      simp only [stageWords, List.mem_cons, List.not_mem_nil, or_false] at hw
      rcases hw with rfl | rfl <;> exact .ofInt _
  · refine .cons ⟨⟨by decide, by decide⟩, by decide⟩ fun w hw => List.mem_singleton.mp hw ▸ ?_
    cases d.overlap <;> exact ⟨⟨by decide, by decide⟩, by decide⟩
  · exact .cons ⟨⟨by decide, by decide⟩, by decide⟩ fun w hw => List.mem_singleton.mp hw ▸ .ofInt _
  · exact .cons ⟨⟨by decide, by decide⟩, by decide⟩ fun w hw => List.mem_singleton.mp hw ▸ .ofNat _
  · exact .cons ⟨⟨by decide, by decide⟩, by decide⟩ fun w hw => List.mem_singleton.mp hw ▸ .ofNat _

theorem plainLine_cue {key id : String} (hkey : Plain key.toList) (valid : validId id = true) (cue : CueState) :
    PlainLine (cueWords key id cue) := by
  refine .cons hkey fun w hw => ?_
  simp only [List.mem_cons, List.not_mem_nil, or_false] at hw
  rcases hw with rfl | rfl | rfl
  · exact .of_validId valid
  · exact .ofNat _
  · exact .optional _

theorem Regular.plainLines {s : ChoreographyState} (h : Regular s) : ∀ line ∈ payloadLines s, PlainLine line := by
  have hkeys : ∀ {ν : Type} {m : OrdMap String ν}, (∀ x ∈ m.keys, validId x = true) → ∀ e ∈ m.entries, validId e.1 = true :=
    fun hm e he => hm e.1 (List.mem_map.mpr ⟨e, he, rfl⟩)
  intro line hline
  simp only [payloadLines, domainLines, List.mem_append] at hline
  rcases hline with (((((hline | hline) | hline) | hline) | hline) | hline) | hline
  · exact plainLine_header _ line hline
  · obtain ⟨e, he, rfl⟩ := List.mem_map.mp hline
    refine .cons ⟨⟨by decide, by decide⟩, by decide⟩ fun w hw => ?_
    simp only [List.mem_cons, List.not_mem_nil, or_false] at hw
    rcases hw with rfl | rfl | rfl | rfl
    · exact .of_validId (hkeys h.named.dancers e he)
    all_goals exact .ofInt _
  · obtain ⟨e, he, rfl⟩ := List.mem_map.mp hline
    refine .cons ⟨⟨by decide, by decide⟩, by decide⟩ fun w hw => ?_
    rcases List.mem_cons.mp hw with rfl | hw
    · exact .of_validId (hkeys h.named.formations e he)
    · obtain ⟨member, -, rfl⟩ := List.mem_map.mp hw
      exact .of_validId member.valid
  · obtain ⟨e, he, rfl⟩ := List.mem_map.mp hline
    exact plainLine_cue ⟨⟨by decide, by decide⟩, by decide⟩ (hkeys h.named.musicCues e he) e.2
  · obtain ⟨e, he, rfl⟩ := List.mem_map.mp hline
    exact plainLine_cue ⟨⟨by decide, by decide⟩, by decide⟩ (hkeys h.named.lightingCues e he) e.2
  · refine plainLine_receipts _ (fun e he => h.receiptIds e.1 ?_) 0 1 line hline
    exact OrdMap.mem_keys.mpr (by simp [mem_receiptsByIndex.mp he])
  · rw [legacyLines_eq] at hline
    obtain ⟨id, hid, rfl⟩ := List.mem_map.mp hline
    exact .cons ⟨⟨by decide, by decide⟩, by decide⟩ fun w hw => List.mem_singleton.mp hw ▸ .of_validId (h.legacyIds id hid)

theorem toList_payload (s : ChoreographyState) : (snapshotPayload s).toList = terminated '\n' ((payloadLines s).map unwords) :=
  String.toList_ofList

/-- The lines of a payload can be told apart. -/
theorem Regular.getlines {s : ChoreographyState} (h : Regular s) :
    getlines '\n' (snapshotPayload s).toList = (payloadLines s).map unwords := by
  rw [toList_payload]
  refine getlines_terminated fun l hl => ?_
  obtain ⟨line, hline, rfl⟩ := List.mem_map.mp hl
  exact not_mem_unwords (by decide) (by decide) fun w hw => ((h.plainLines line hline).words w hw).toWord

/-- Restoring a payload never fails, and gives the state up to `-`. -/
theorem restoreState_payload {s : ChoreographyState} (h : Regular s) : restoreState (snapshotPayload s) = .ok (restored s) := by
  obtain ⟨i, t, hlines⟩ := Restoring.restoreLines_payload h
  unfold restoreState
  rw [h.getlines, List.filter_eq_self.mpr fun l hl => ?_]
  · change ((payloadLines s).map unwords).foldlM Restoring.restoreLine {} = _ at hlines
    dsimp only
    rw [hlines]
    rfl
  · obtain ⟨line, hline, rfl⟩ := List.mem_map.mp hl
    have hplain := h.plainLines line hline
    simpa using unwords_ne_nil hplain.nonempty fun w hw => (hplain.words w hw).toWord

theorem Regular.ascii {s : ChoreographyState} (h : Regular s) : ∀ c ∈ (snapshotPayload s).toList, c.toNat < 128 := by
  intro c hc
  rw [toList_payload, terminated] at hc
  obtain ⟨l, hl, hc⟩ := List.mem_flatMap.mp hc
  obtain ⟨line, hline, rfl⟩ := List.mem_map.mp hl
  rcases List.mem_append.mp hc with hc | hc
  · have hwords := (h.plainLines line hline).words
    cases line with
    | nil => cases hc
    | cons w words =>
      rcases List.mem_append.mp hc with hc | hc
      · exact (hwords w List.mem_cons_self).ascii c hc
      · obtain ⟨x, hx, hc⟩ := List.mem_flatMap.mp hc
        rcases List.mem_cons.mp hc with rfl | hc
        · decide
        · exact (hwords x (List.mem_cons_of_mem _ hx)).ascii c hc
  · obtain rfl := List.mem_singleton.mp hc
    decide

/-! ### What a payload cannot say -/

/-- No identifier that a payload may leave out is `-`, and no tombstone has the id of a leadership no-op. -/
structure Sayable (s : ChoreographyState) : Prop where
  id : ∀ id, s.id = some id → id.value ≠ "-"
  music : ∀ x cue, s.musicCues.find? x = some cue → ∀ d, cue.dependsOn = some d → d.value ≠ "-"
  lights : ∀ x cue, s.lightingCues.find? x = some cue → ∀ d, cue.dependsOn = some d → d.value ≠ "-"
  tombstones : ∀ id ∈ legacyIds s, "noop-".toList.isPrefixOf id.toList = false

theorem dashless_eq_iff {tag : IdTag} {id : Option (StrongId tag)} : dashless id = id ↔ ∀ x, id = some x → x.value ≠ "-" := by
  cases id with
  | none => simp [dashless]
  | some id =>
    by_cases h : id.value = "-"
    · simp [dashless, h]
    · simp [dashless, h]

theorem cueDashless_eq_iff {cue : CueState} : cue.dashless = cue ↔ ∀ d, cue.dependsOn = some d → d.value ≠ "-" := by
  rw [← dashless_eq_iff, CueState.dashless, CueState.ext_iff]
  simp

theorem mapWithKey_dashless_iff {m : OrdMap String CueState} : (m.mapWithKey fun _ cue => cue.dashless) = m ↔
    ∀ x cue, m.find? x = some cue → ∀ d, cue.dependsOn = some d → d.value ≠ "-" := by
  refine ⟨fun h x cue hx => cueDashless_eq_iff.mp ?_, fun h => OrdMap.ext_find? fun x => ?_⟩
  · have hfind := congrArg (·.find? x) h
    simpa [hx] using hfind
  · rw [OrdMap.find?_mapWithKey]
    cases hx : m.find? x with
    | none => rfl
    | some cue => simp [cueDashless_eq_iff.mpr (h x cue hx)]

theorem domain_dashless_iff {d : Domain} : d.dashless = d ↔ (∀ id, d.id = some id → id.value ≠ "-") ∧
    (∀ x cue, d.musicCues.find? x = some cue → ∀ y, cue.dependsOn = some y → y.value ≠ "-") ∧
    ∀ x cue, d.lightingCues.find? x = some cue → ∀ y, cue.dependsOn = some y → y.value ≠ "-" := by
  rw [← dashless_eq_iff, ← mapWithKey_dashless_iff, ← mapWithKey_dashless_iff, Domain.dashless, Domain.ext_iff]
  simp

theorem legacyIds_eq (s : ChoreographyState) : legacyIds s = (s.appliedCommands.filter fun id eventId =>
    !s.receipts.contains id && !"noop-".toList.isPrefixOf eventId.toList).keys := rfl

/-- A restored command has its own id for its event's, whether a receipt or a tombstone kept it. -/
theorem find?_restored_commands {s : ChoreographyState} {id : String} : (restored s).appliedCommands.find? id =
    if id ∈ legacyIds s then some id else if (s.receipts.find? id).isSome then some id else none := by
  have hfind : ∀ (ids : List String) (m : OrdMap String String), (ids.foldl (fun m id => m.insert id id) m).find? id =
      if id ∈ ids then some id else m.find? id := by
    intro ids
    induction ids with
    | nil => simp
    | cons x ids ih =>
      intro m
      rw [List.foldl_cons, ih, OrdMap.find?_insert]
      by_cases h : id ∈ ids
      · simp [h]
      · by_cases hx : x = id
        · simp [hx]
        · simp [h, hx, Ne.symm hx]
  have hreceipt : id ∈ (receiptsByIndex s.receipts).map Prod.fst ↔ (s.receipts.find? id).isSome := by
    rw [← OrdMap.mem_keys]
    exact ((receiptsByIndex_perm s.receipts).map Prod.fst).mem_iff
  simp only [restored, hfind, find?_receiptCommands, hreceipt, OrdMap.find?_empty]

theorem mem_legacyIds_restored {s : ChoreographyState} {id : String} :
    id ∈ legacyIds (restored s) ↔ id ∈ legacyIds s ∧ "noop-".toList.isPrefixOf id.toList = false := by
  rw [mem_legacyIds]
  simp only [find?_restored_commands]
  constructor
  · rintro ⟨eventId, hevent, hnone, hnoop⟩
    change s.receipts.find? id = none at hnone
    rw [hnone] at hevent
    simp only [Option.isSome_none, Bool.false_eq_true, if_false, Option.ite_none_right_eq_some, Option.some.injEq] at hevent
    obtain ⟨hmem, rfl⟩ := hevent
    exact ⟨hmem, hnoop⟩
  · rintro ⟨hmem, hnoop⟩
    obtain ⟨-, -, hnone, -⟩ := mem_legacyIds.mp hmem
    exact ⟨id, by simp [hmem], hnone, hnoop⟩

theorem legacyIds_restored_iff {s : ChoreographyState} :
    legacyIds (restored s) = legacyIds s ↔ ∀ id ∈ legacyIds s, "noop-".toList.isPrefixOf id.toList = false := by
  constructor
  · intro h id hid
    rw [← h] at hid
    exact (mem_legacyIds_restored.mp hid).2
  · intro h
    rw [legacyIds_eq (restored s), legacyIds_eq s]
    refine OrdMap.keys_ext fun id => ?_
    rw [← legacyIds_eq, ← legacyIds_eq, mem_legacyIds_restored]
    exact ⟨fun hid => hid.1, fun hid => ⟨hid, h id hid⟩⟩

/-- Restored states that agree on the rest have the same text just if they have the same tombstones. -/
theorem payload_eq_iff {s t : ChoreographyState} (hs : Regular s) (ht : Regular t) (domain : t.toDomain = s.toDomain)
    (receipts : t.receipts = s.receipts) : snapshotPayload t = snapshotPayload s ↔ legacyIds t = legacyIds s := by
  constructor
  · intro h
    have hlines := congrArg (fun p => getlines '\n' p.toList) h
    simp only [hs.getlines, ht.getlines, payloadLines, domain, receipts, List.map_append, List.append_cancel_left_eq,
      legacyLines_eq, List.map_map] at hlines
    refine List.map_injective_iff.mpr (fun a b hab => ?_) hlines
    simpa [unwords, String.toList_inj] using hab
  · intro h
    unfold snapshotPayload payloadLines
    rw [domain, receipts, legacyLines_eq, legacyLines_eq, h]

theorem Regular.restored {s : ChoreographyState} (h : Regular s) : Regular (restored s) where
  named := by
    refine ⟨h.named.dancers, h.named.formations, ?_, ?_⟩
    · intro x hx
      have hkeys : (State.restored s).musicCues.keys = s.musicCues.keys := OrdMap.keys_mapWithKey
      exact h.named.musicCues x (hkeys ▸ hx)
    · intro x hx
      have hkeys : (State.restored s).lightingCues.keys = s.lightingCues.keys := OrdMap.keys_mapWithKey
      exact h.named.lightingCues x (hkeys ▸ hx)
  commands := by
    intro x hx
    rw [OrdMap.mem_keys, find?_restored_commands] at hx
    split at hx
    · rename_i hmem
      obtain ⟨_, hfind, _⟩ := mem_legacyIds.mp hmem
      exact h.commands x (OrdMap.mem_keys.mpr (by rw [hfind]; rfl))
    · split at hx
      · rename_i hfind
        exact h.receiptIds x (OrdMap.mem_keys.mpr hfind)
      · cases hx
  receiptIds := h.receiptIds
  lastApplied := h.lastApplied
  term := h.term
  termPos := h.termPos
  index := h.index
  receiptTerm := h.receiptTerm
  distinct := h.distinct

theorem Sayable.domain {s : ChoreographyState} (h : Sayable s) : s.toDomain.dashless = s.toDomain :=
  domain_dashless_iff.mpr ⟨h.id, h.music, h.lights⟩

theorem Sayable.payload {s : ChoreographyState} (h : Sayable s) (hs : Regular s) : snapshotPayload (restored s) = snapshotPayload s :=
  (payload_eq_iff hs hs.restored h.domain rfl).mpr (legacyIds_restored_iff.mpr h.tombstones)

/-! ### Hash text -/

theorem length_hex16 (value : UInt64) : (hex16 value).toList.length = 16 := by
  have hlen : (Nat.toDigits 16 value.toNat).length ≤ 16 :=
    (Nat.length_toDigits_le_iff (by decide) (by decide)).mpr (value.toNat_lt.trans_le (by decide))
  simp only [hex16, String.toList_ofList, List.length_append, List.length_replicate]
  omega

theorem ascii_hexDigits (n : Nat) : ∀ c ∈ Nat.toDigits 16 n, c.toNat < 128 := by
  have hdigit : ∀ d < 16, d.digitChar.toNat < 128 := by decide
  induction n using Nat.strong_induction_on with
  | h n ih =>
    intro c hc
    rw [Nat.toDigits_eq_if (by decide)] at hc
    split at hc
    · rename_i hlt
      obtain rfl := List.mem_singleton.mp hc
      exact hdigit n hlt
    · rcases List.mem_append.mp hc with hc | hc
      · exact ih (n / 16) (by omega) c hc
      · obtain rfl := List.mem_singleton.mp hc
        exact hdigit _ (Nat.mod_lt _ (by decide))

theorem ascii_hex16 (value : UInt64) : ∀ c ∈ (hex16 value).toList, c.toNat < 128 := by
  intro c hc
  simp only [hex16, String.toList_ofList, List.mem_append, List.mem_replicate] at hc
  rcases hc with ⟨-, rfl⟩ | hc
  · decide
  · exact ascii_hexDigits _ c hc

end Choreolog.State

namespace Choreolog.Storage
open Lib State

/-! ### Files -/

theorem encodeSnapshot_ok {s : ChoreographyState} (h : (snapshotPayload s).toList.length ≤ maxPayload) :
    encodeSnapshot s = .ok (snapshotBody s ++ Bytes.ofNat 4 (Bytes.crc32 (snapshotBody s)).toNat) := by
  unfold encodeSnapshot
  rw [if_neg (by simp [stateHash, length_hex16]), if_neg (not_lt.mpr h)]

theorem encodeSnapshot_cases {s : ChoreographyState} {bytes : List UInt8} (h : encodeSnapshot s = .ok bytes) :
    (snapshotPayload s).toList.length ≤ maxPayload ∧
      bytes = snapshotBody s ++ Bytes.ofNat 4 (Bytes.crc32 (snapshotBody s)).toNat := by
  by_cases hlen : (snapshotPayload s).toList.length ≤ maxPayload
  · exact ⟨hlen, (Except.ok.inj ((encodeSnapshot_ok hlen).symm.trans h)).symm⟩
  · unfold encodeSnapshot at h
    rw [if_neg (by simp [stateHash, length_hex16]), if_pos (not_le.mp hlen)] at h
    cases h

/-- The fields of a snapshot file are where they are read. -/
structure FileOf (s : ChoreographyState) (file : List UInt8) : Prop where
  length : file.length = 52 + (snapshotPayload s).toList.length
  magic : Bytes.slice 0 8 file = Bytes.ofText "CHOSSNAP"
  format : readU 2 8 file = 2
  schema : readU 2 10 file = currentSchemaVersion.toNat
  index : readU 8 12 file = s.lastApplied
  term : readU 8 20 file = s.term
  hash : Bytes.slice 28 16 file = Bytes.ofText (State.stateHash s.toDomain)
  size : readU 4 44 file = (snapshotPayload s).toList.length
  payload : Bytes.slice 48 (snapshotPayload s).toList.length file = Bytes.ofText (snapshotPayload s)
  checksum : (Bytes.crc32 (file.take (file.length - 4))).toNat = readU 4 (file.length - 4) file

theorem fileOf {s : ChoreographyState} (h : Regular s) (hlen : (snapshotPayload s).toList.length ≤ maxPayload) :
    FileOf s (snapshotBody s ++ Bytes.ofNat 4 (Bytes.crc32 (snapshotBody s)).toNat) := by
  have hmagic : (Bytes.ofText "CHOSSNAP").length = 8 := rfl
  have hhash : (Bytes.ofText (State.stateHash s.toDomain)).length = 16 := by
    rw [Bytes.length_ofText]
    exact length_hex16 _
  have hbody : (snapshotBody s).length = 48 + (snapshotPayload s).toList.length := by
    simp only [snapshotBody, List.length_append, hmagic, hhash, Bytes.length_ofNat, Bytes.length_ofText]
  have hcrc : (Bytes.crc32 (snapshotBody s)).toNat < 256 ^ 4 := (Bytes.crc32 (snapshotBody s)).toNat_lt
  have hfile : (snapshotBody s ++ Bytes.ofNat 4 (Bytes.crc32 (snapshotBody s)).toNat).length - 4 = (snapshotBody s).length := by
    rw [List.length_append, Bytes.length_ofNat]
    omega
  have hnat : ∀ width n : Nat, (Bytes.ofNat width n).length = width := Bytes.length_ofNat
  refine ⟨?_, ?_, ?_, ?_, ?_, ?_, ?_, ?_, ?_, ?_⟩
  · rw [List.length_append, Bytes.length_ofNat, hbody]
    omega
  · simp only [snapshotBody, List.append_assoc]
    exact Bytes.slice_here hmagic
  · simp only [readU, snapshotBody, List.append_assoc]
    rw [Bytes.slice_past hmagic (by decide), Bytes.slice_here (hnat 2 _), Bytes.toNat_ofNat (by decide)]
  · simp only [readU, snapshotBody, List.append_assoc]
    rw [Bytes.slice_past hmagic (by decide), Bytes.slice_past (hnat 2 _) (by decide), Bytes.slice_here (hnat 2 _),
      Bytes.toNat_ofNat (by decide)]
  · simp only [readU, snapshotBody, List.append_assoc]
    rw [Bytes.slice_past hmagic (by decide), Bytes.slice_past (hnat 2 _) (by decide), Bytes.slice_past (hnat 2 _) (by decide),
      Bytes.slice_here (hnat 8 _), Bytes.toNat_ofNat h.lastApplied]
  · simp only [readU, snapshotBody, List.append_assoc]
    rw [Bytes.slice_past hmagic (by decide), Bytes.slice_past (hnat 2 _) (by decide), Bytes.slice_past (hnat 2 _) (by decide),
      Bytes.slice_past (hnat 8 _) (by decide), Bytes.slice_here (hnat 8 _), Bytes.toNat_ofNat h.term]
  · simp only [snapshotBody, List.append_assoc]
    rw [Bytes.slice_past hmagic (by decide), Bytes.slice_past (hnat 2 _) (by decide), Bytes.slice_past (hnat 2 _) (by decide),
      Bytes.slice_past (hnat 8 _) (by decide), Bytes.slice_past (hnat 8 _) (by decide), Bytes.slice_here hhash]
  · simp only [readU, snapshotBody, List.append_assoc]
    rw [Bytes.slice_past hmagic (by decide), Bytes.slice_past (hnat 2 _) (by decide), Bytes.slice_past (hnat 2 _) (by decide),
      Bytes.slice_past (hnat 8 _) (by decide), Bytes.slice_past (hnat 8 _) (by decide), Bytes.slice_past hhash (by decide),
      Bytes.slice_here (hnat 4 _), Bytes.toNat_ofNat (by unfold maxPayload at hlen; omega)]
  · simp only [snapshotBody, List.append_assoc]
    rw [Bytes.slice_past hmagic (by decide), Bytes.slice_past (hnat 2 _) (by decide), Bytes.slice_past (hnat 2 _) (by decide),
      Bytes.slice_past (hnat 8 _) (by decide), Bytes.slice_past (hnat 8 _) (by decide), Bytes.slice_past hhash (by decide),
      Bytes.slice_past (hnat 4 _) (by decide), Bytes.slice_here (Bytes.length_ofText _)]
  · rw [hfile, List.take_left, readU, Bytes.slice_past rfl le_rfl, Nat.sub_self, Bytes.slice, List.drop_zero,
      List.take_of_length_le (hnat 4 _).le, Bytes.toNat_ofNat hcrc]

theorem FileOf.readSnapshot {s : ChoreographyState} {file : List UInt8} (f : FileOf s file) (h : Regular s)
    {t : ChoreographyState} (verified : verifySnapshot (.ofState s) = .ok t) : readSnapshot file = .ok (.ofState s) := by
  have hmagic : Bytes.toText (Bytes.slice 0 8 file) = "CHOSSNAP" := by
    rw [f.magic]
    exact Bytes.toText_ofText (by decide)
  have hhash : Bytes.toText (Bytes.slice 28 16 file) = State.stateHash s.toDomain := by
    rw [f.hash]
    exact Bytes.toText_ofText fun c hc => (ascii_hex16 _ c hc).trans (by decide)
  have hpayload : Bytes.toText (Bytes.slice 48 (snapshotPayload s).toList.length file) = snapshotPayload s := by
    rw [f.payload]
    exact Bytes.toText_ofText fun c hc => (h.ascii c hc).trans (by decide)
  have hlen : ¬ file.length < 52 := by
    rw [f.length]
    omega
  have hterm : parseTerm s.term = .ok s.term := if_neg h.termPos.ne'
  unfold Storage.readSnapshot
  rw [if_neg hlen, if_neg (not_not.mpr hmagic)]
  simp only [f.format, f.schema, f.size, f.index, f.term, f.checksum, hhash, hpayload, ← f.length, hterm, orElseError,
    ne_eq, not_true_eq_false, and_false, or_false, if_false, if_true]
  change (verifySnapshot (Snapshot.ofState s) >>= fun _ => pure (Snapshot.ofState s)) = _
  rw [verified]
  rfl

/-- The payload of a state restores it, and its snapshot file is accepted when it is opened again. -/
structure RoundTrips (s : ChoreographyState) : Prop where
  restores : ∃ t, restoreState (snapshotPayload s) = .ok t ∧ t.toDomain = s.toDomain ∧ t.receipts = s.receipts ∧
    snapshotPayload t = snapshotPayload s
  verifies : ∃ t, verifySnapshot (.ofState s) = .ok t
  encodes : (snapshotPayload s).toList.length ≤ maxPayload → ∃ file, encodeSnapshot s = .ok file
  loads : ∀ file, encodeSnapshot s = .ok file → readSnapshot file = .ok (.ofState s)

theorem legacy_ofState (s : ChoreographyState) : (Snapshot.ofState s).legacy = false := by
  simp only [Snapshot.legacy, Snapshot.ofState, beq_eq_false_iff_ne, ne_eq]
  intro hempty
  have hlines := (toList_payload s).symm.trans (congrArg String.toList hempty)
  simp [Text.terminated, payloadLines, domainLines, headerLines] at hlines

theorem verifySnapshot_ofState {s : ChoreographyState} (h : Regular s) (domain : s.toDomain.dashless = s.toDomain) :
    verifySnapshot (.ofState s) = .ok (restored s) := by
  have hdomain : (restored s).toDomain = s.toDomain := domain
  unfold verifySnapshot
  rw [legacy_ofState, if_neg Bool.false_ne_true]
  change (restoreState (snapshotPayload s) >>= _) = _
  rw [restoreState_payload h]
  change (if _ then _ else _) = _
  rw [if_neg]
  simp only [hdomain, Snapshot.ofState, ne_eq, not_true_eq_false, or_false, not_false_eq_true]

theorem RoundTrips.sayable {s : ChoreographyState} (h : RoundTrips s) (hs : Regular s) : Sayable s := by
  obtain ⟨t, ht, hdomain, hreceipts, hpayload⟩ := h.restores
  obtain rfl := Except.ok.inj ((restoreState_payload hs).symm.trans ht)
  obtain ⟨hid, hmusic, hlights⟩ := domain_dashless_iff.mp hdomain
  have hlegacy := (payload_eq_iff hs hs.restored hdomain hreceipts).mp hpayload
  exact ⟨hid, hmusic, hlights, legacyIds_restored_iff.mp hlegacy⟩

theorem roundTrips_of_sayable {s : ChoreographyState} (h : Sayable s) (hs : Regular s) : RoundTrips s := by
  have hverified := verifySnapshot_ofState hs h.domain
  refine ⟨⟨restored s, restoreState_payload hs, h.domain, rfl, h.payload hs⟩, ⟨_, hverified⟩,
    fun hlen => ⟨_, encodeSnapshot_ok hlen⟩, fun file hfile => ?_⟩
  obtain ⟨hlen, rfl⟩ := encodeSnapshot_cases hfile
  exact (fileOf hs hlen).readSnapshot hs hverified

/-- A state that events reach round-trips just if its payload can say it. -/
theorem snapshot_round_trip (s : ChoreographyState) (h : Reached s) : RoundTrips s ↔ Sayable s :=
  ⟨fun hround => hround.sayable h.regular, fun hsay => roundTrips_of_sayable hsay h.regular⟩

/-- The first event of a choreography with the given id. -/
def creation (id : ChoreographyId) : Event :=
  { id := ⟨"create", Eq.refl true⟩, commandId := ⟨"create", Eq.refl true⟩, choreographyId := id, type := .choreographyCreated
    schemaVersion := currentSchemaVersion, tick := ⟨0, MusicalTick.zero_lt⟩, index := 1, term := 1
    payload := .create ⟨id, ⟨⟨8000, by decide⟩, ⟨6000, by decide⟩, by decide⟩, .forbidden, 1200⟩ }

/-- The state that it leaves. -/
def opened (id : ChoreographyId) : ChoreographyState :=
  record {} { created := true, id := some id, stage := some ⟨⟨8000, by decide⟩, ⟨6000, by decide⟩, by decide⟩
              maxTravelMm := 1200 } (creation id)

theorem reached_opened (id : ChoreographyId) : Reached (opened id) :=
  .event (creation id) .contiguous ⟨by simp [creation], by simp [creation], by simp [creation]⟩ .empty rfl

theorem sayable_opened {id : ChoreographyId} (h : id.value ≠ "-") : Sayable (opened id) where
  id := by
    intro x hx
    cases hx
    exact h
  music := nofun
  lights := nofun
  tombstones := nofun

theorem snapshot_round_trip_show : ∃ s, Reached s ∧ s.id.map (·.value) = some "show" ∧ RoundTrips s :=
  ⟨opened ⟨"show", by decide⟩, reached_opened _, rfl,
    (snapshot_round_trip _ (reached_opened _)).mpr (sayable_opened (by decide))⟩

/-- The id `-` is written as the mark of a missing id. -/
theorem payload_loses_dash : ∃ s t, Reached s ∧ s.id.map (·.value) = some "-" ∧ restoreState (snapshotPayload s) = .ok t ∧
    t.id = none ∧ ¬ RoundTrips s := by
  have hreached := reached_opened ⟨"-", by decide⟩
  refine ⟨_, _, hreached, rfl, restoreState_payload hreached.regular, rfl, fun hround => ?_⟩
  obtain ⟨t, ht, hdomain, -⟩ := hround.restores
  obtain rfl := Except.ok.inj ((restoreState_payload hreached.regular).symm.trans ht)
  exact nomatch (congrArg Domain.id hdomain : none = _)

end Choreolog.Storage
