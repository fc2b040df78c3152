import Choreolog.Storage.Store
import Choreolog.Theorems.EventText
import Choreolog.Theorems.RoundTrip

/-! # The bytes of the log and of the metadata

What is written is read back: the metadata of a node, and a log whose last record may be cut short. -/

namespace Choreolog.State
open Lib Lib.Text

/-! ### Plain text -/

/-- Characters below 128. -/
def Ascii (text : String) : Prop := ∀ c ∈ text.toList, c.toNat < 128

namespace Ascii

theorem append {a b : String} (ha : Ascii a) (hb : Ascii b) : Ascii (a ++ b) := by
  intro c hc
  rw [String.toList_append] at hc
  rcases List.mem_append.mp hc with hc | hc
  · exact ha c hc
  · exact hb c hc

theorem intercalate {sep : Char} (hsep : sep.toNat < 128) {pieces : List (List Char)} (h : ∀ p ∈ pieces, ∀ c ∈ p, c.toNat < 128) :
    ∀ c ∈ [sep].intercalate pieces, c.toNat < 128 := by
  intro c hc
  by_contra hlarge
  have hne : c ≠ sep := by
    rintro rfl
    exact hlarge hsep
  exact mem_intercalate hne (fun p hp hcp => hlarge (h p hp c hcp)) hc

theorem nat (n : Nat) : Ascii (toString n) := by
  unfold Ascii
  rw [toList_toString]
  exact (Plain.ofNat n).ascii

theorem int (i : Int) : Ascii (toString i) := by
  unfold Ascii
  rw [toList_toString_int]
  exact (Plain.ofInt i).ascii

theorem id {tag : IdTag} (id : StrongId tag) : Ascii id.value := (Plain.of_validId id.valid).ascii

theorem depends (id : Option CueId) : Ascii ((id.map (·.value)).getD "") := by
  cases id with
  | none => nofun
  | some id => exact .id id

theorem members (members : List DancerId) : Ascii (writeMembers members) := by
  unfold Ascii
  rw [toList_writeMembers]
  refine intercalate (by decide) fun p hp => ?_
  obtain ⟨member, -, rfl⟩ := List.mem_map.mp hp
  exact Ascii.id member

theorem line {fields : Fields} (h : ∀ f ∈ fields, Ascii f.1 ∧ Ascii f.2) : Ascii (line fields) := by
  unfold Ascii State.line
  rw [String.toList_intercalate, List.map_map]
  refine intercalate (by decide) fun p hp => ?_
  obtain ⟨f, hf, rfl⟩ := List.mem_map.mp hp
  exact ((h f hf).1.append (by decide : ∀ c ∈ "=".toList, c.toNat < 128)).append (h f hf).2

theorem key {key : String} (h : (key.toList.all fun c => c.toNat < 128) = true) : Ascii key := by
  simp only [List.all_eq_true, decide_eq_true_eq] at h
  exact h

theorem payload (payload : Payload) : ∀ f ∈ payloadFields payload, Ascii f.1 ∧ Ascii f.2 := by
  cases payload with
  | create p =>
    simp only [payloadFields, List.forall_mem_cons, List.not_mem_nil, false_imp_iff, implies_true, and_true]
    refine ⟨⟨key (by decide), .nat _⟩, ⟨key (by decide), .nat _⟩, ⟨key (by decide), ?_⟩, key (by decide), .int _⟩
    cases p.overlap <;> exact key (by decide)
  | dancer p =>
    simp only [payloadFields, List.forall_mem_cons, List.not_mem_nil, false_imp_iff, implies_true, and_true]
    exact ⟨⟨key (by decide), .id _⟩, ⟨key (by decide), .nat _⟩, key (by decide), .nat _⟩
  | removed p =>
    simp only [payloadFields, List.forall_mem_cons, List.not_mem_nil, false_imp_iff, implies_true, and_true]
    exact ⟨key (by decide), .id _⟩
  | formation p =>
    simp only [payloadFields, List.forall_mem_cons, List.not_mem_nil, false_imp_iff, implies_true, and_true]
    exact ⟨⟨key (by decide), .id _⟩, key (by decide), .members _⟩
  | cue p =>
    simp only [payloadFields, List.forall_mem_cons, List.not_mem_nil, false_imp_iff, implies_true, and_true]
    exact ⟨⟨key (by decide), .id _⟩, key (by decide), .depends _⟩

theorem envelope (event : Event) : ∀ f ∈ envelopeFields event, Ascii f.1 ∧ Ascii f.2 := by
  simp only [envelopeFields, List.forall_mem_cons, List.not_mem_nil, false_imp_iff, implies_true, and_true]
  refine ⟨⟨key (by decide), .nat _⟩, ⟨key (by decide), ?_⟩, ⟨key (by decide), .id _⟩, ⟨key (by decide), .id _⟩,
    ⟨key (by decide), .id _⟩, ⟨key (by decide), .nat _⟩, ⟨key (by decide), .nat _⟩, key (by decide), .nat _⟩
  cases event.type <;> exact key (by decide)

theorem canonicalEvent (event : Event) : Ascii (canonicalEvent event) := by
  refine line fun f hf => ?_
  rw [eventFields_eq] at hf
  rcases List.mem_append.mp hf with hf | hf
  · exact envelope event f hf
  · split at hf
    · cases hf
    · exact payload _ f hf

theorem toText_ofText {text : String} (h : Ascii text) : Bytes.toText (Bytes.ofText text) = text :=
  Bytes.toText_ofText fun c hc => (h c hc).trans (by decide)

end Ascii

end Choreolog.State

namespace Choreolog.Storage
open Lib State

/-! ### Metadata -/

/-- Values that the metadata file has room for. -/
structure NodeMetadata.Fits (m : NodeMetadata) : Prop where
  positive : 0 < m.term
  term : m.term < 2 ^ 64
  commit : m.commitIndex < 2 ^ 64

theorem length_le_utf8ByteSize (l : List Char) : l.length ≤ (String.ofList l).utf8ByteSize := by
  induction l with
  | nil => exact Nat.zero_le _
  | cons c l ih =>
    have hcons : String.ofList (c :: l) = String.singleton c ++ String.ofList l := by
      rw [← String.toList_inj]
      simp
    have hsize := c.utf8Size_pos
    rw [hcons, String.utf8ByteSize_append, String.utf8ByteSize_singleton, List.length_cons]
    omega

theorem length_id {tag : IdTag} (id : StrongId tag) : id.value.toList.length ≤ maxIdLength := by
  have hle := length_le_utf8ByteSize id.value.toList
  rw [String.ofList_toList] at hle
  exact hle.trans id.length_le

/-- The text of the vote. -/
def NodeMetadata.vote (m : NodeMetadata) : String := (m.votedFor.map (·.value)).getD ""

theorem length_vote (m : NodeMetadata) : m.vote.toList.length ≤ maxVoteLength := by
  unfold NodeMetadata.vote
  cases m.votedFor with
  | none => exact Nat.zero_le _
  | some id => exact length_id id

theorem encodeMetadata_eq (m : NodeMetadata) : encodeMetadata m =
    .ok (metadataBody m m.vote ++ Bytes.ofNat 4 (Bytes.crc32 (metadataBody m m.vote)).toNat) :=
  if_neg (not_lt.mpr (length_vote m))

theorem readU_commit {m : NodeMetadata} (bound : m.commitIndex < 2 ^ 64) (rest : File) :
    readU 8 20 (metadataBody m m.vote ++ rest) = m.commitIndex := by
  have hmagic : (Bytes.ofText "CHOSMETA").length = 8 := rfl
  have hnat : ∀ width n : Nat, (Bytes.ofNat width n).length = width := Bytes.length_ofNat
  simp only [readU, metadataBody, List.append_assoc]
  rw [Bytes.slice_past hmagic (by decide), Bytes.slice_past (hnat 2 _) (by decide), Bytes.slice_past (hnat 2 _) (by decide),
    Bytes.slice_past (hnat 8 _) (by decide), Bytes.slice_here (hnat 8 _), Bytes.toNat_ofNat bound]

theorem decodeMetadata_encode {m : NodeMetadata} {file : File} (fits : m.Fits) (h : encodeMetadata m = .ok file) :
    decodeMetadata file = .ok m := by
  obtain rfl := Except.ok.inj ((encodeMetadata_eq m).symm.trans h)
  have hvote := length_vote m
  unfold maxVoteLength at hvote
  have hmagic : (Bytes.ofText "CHOSMETA").length = 8 := rfl
  have hnat : ∀ width n : Nat, (Bytes.ofNat width n).length = width := Bytes.length_ofNat
  have hcrc : (Bytes.crc32 (metadataBody m m.vote)).toNat < 256 ^ 4 := (Bytes.crc32 (metadataBody m m.vote)).toNat_lt
  have hbody : (metadataBody m m.vote).length = 28 + m.vote.toList.length := by
    simp only [metadataBody, List.length_append, hmagic, Bytes.length_ofNat, Bytes.length_ofText]
  have h0 : Bytes.toText (Bytes.slice 0 8 (metadataBody m m.vote ++ Bytes.ofNat 4 (Bytes.crc32 (metadataBody m m.vote)).toNat)) =
      "CHOSMETA" := by
    simp only [metadataBody, List.append_assoc]
    rw [Bytes.slice_here hmagic]
    exact Bytes.toText_ofText (by decide)
  have h8 : readU 2 8 (metadataBody m m.vote ++ Bytes.ofNat 4 (Bytes.crc32 (metadataBody m m.vote)).toNat) = 1 := by
    simp only [readU, metadataBody, List.append_assoc]
    rw [Bytes.slice_past hmagic (by decide), Bytes.slice_here (hnat 2 _), Bytes.toNat_ofNat (by decide)]
  have h10 : readU 2 10 (metadataBody m m.vote ++ Bytes.ofNat 4 (Bytes.crc32 (metadataBody m m.vote)).toNat) = m.vote.toList.length := by
    simp only [readU, metadataBody, List.append_assoc]
    rw [Bytes.slice_past hmagic (by decide), Bytes.slice_past (hnat 2 _) (by decide), Bytes.slice_here (hnat 2 _),
      Bytes.toNat_ofNat (by omega)]
  have h12 : readU 8 12 (metadataBody m m.vote ++ Bytes.ofNat 4 (Bytes.crc32 (metadataBody m m.vote)).toNat) = m.term := by
    simp only [readU, metadataBody, List.append_assoc]
    rw [Bytes.slice_past hmagic (by decide), Bytes.slice_past (hnat 2 _) (by decide), Bytes.slice_past (hnat 2 _) (by decide),
      Bytes.slice_here (hnat 8 _), Bytes.toNat_ofNat fits.term]
  have h20 := readU_commit fits.commit (Bytes.ofNat 4 (Bytes.crc32 (metadataBody m m.vote)).toNat)
  have h28 : Bytes.slice 28 m.vote.toList.length
      (metadataBody m m.vote ++ Bytes.ofNat 4 (Bytes.crc32 (metadataBody m m.vote)).toNat) = Bytes.ofText m.vote := by
    simp only [metadataBody, List.append_assoc]
    rw [Bytes.slice_past hmagic (by decide), Bytes.slice_past (hnat 2 _) (by decide), Bytes.slice_past (hnat 2 _) (by decide),
      Bytes.slice_past (hnat 8 _) (by decide), Bytes.slice_past (hnat 8 _) (by decide), Bytes.slice_here (Bytes.length_ofText _)]
  have hlen : (metadataBody m m.vote ++ Bytes.ofNat 4 (Bytes.crc32 (metadataBody m m.vote)).toNat).length = 32 + m.vote.toList.length := by
    rw [List.length_append, hnat]
    omega
  have hsum : (Bytes.crc32 ((metadataBody m m.vote ++ Bytes.ofNat 4 (Bytes.crc32 (metadataBody m m.vote)).toNat).take
      (32 + m.vote.toList.length - 4))).toNat = readU 4 (32 + m.vote.toList.length - 4)
        (metadataBody m m.vote ++ Bytes.ofNat 4 (Bytes.crc32 (metadataBody m m.vote)).toNat) := by
    have hend : 32 + m.vote.toList.length - 4 = (metadataBody m m.vote).length := by omega
    rw [hend, List.take_left, readU, Bytes.slice_past rfl le_rfl, Nat.sub_self, Bytes.slice, List.drop_zero,
      List.take_of_length_le (hnat 4 _).le, Bytes.toNat_ofNat hcrc]
  generalize metadataBody m m.vote ++ Bytes.ofNat 4 (Bytes.crc32 (metadataBody m m.vote)).toNat = file at *
  have hterm : parseTerm m.term = .ok m.term := if_neg fits.positive.ne'
  unfold decodeMetadata
  rw [if_neg (by omega), if_neg (not_not.mpr h0), if_neg (not_not.mpr h8)]
  simp only [h10, h12, h20, h28, hlen, hsum, hterm, orElseError]
  rw [if_neg (by unfold maxVoteLength; omega), if_neg (not_not.mpr rfl)]
  obtain ⟨term, commitIndex, votedFor⟩ := m
  cases votedFor with
  | none => rfl
  | some id =>
    have hne : id.value.toList.length ≠ 0 := by
      intro hnil
      exact id.ne_empty (String.toList_eq_nil_iff.mp (List.length_eq_zero_iff.mp hnil))
    change (if id.value.toList.length = 0 then _ else _) = _
    rw [if_neg hne]
    change (StrongId.parse (Bytes.toText (Bytes.ofText id.value)) >>= _) = _
    rw [(Ascii.id id).toText_ofText, StrongId.parse_value]
    rfl

/-! ### Records -/

/-- An event for which a record has room. -/
structure Writable (event : Event) : Prop where
  fits : event.Fits
  size : (canonicalEvent event).toList.length ≤ maxPayloadBytes

/-- An event that the log can hold: its text re-parses to itself, and its numbers and its size fit. -/
structure Logged (event : Event) : Prop where
  fits : event.Fits
  text : parseEvent (canonicalEvent event) = .ok event
  size : (canonicalEvent event).toList.length ≤ maxPayloadBytes

theorem Logged.writable {event : Event} (h : Logged event) : Writable event := ⟨h.fits, h.size⟩

/-- What the log gives back for an event that was written to it. -/
def readBack (event : Event) : Result Event :=
  match parseEvent (canonicalEvent event) with
  | .error _ => .error (corrupt "write-ahead payload is not a canonical event")
  | .ok stored =>
    if stored.index ≠ event.index ∨ stored.term ≠ event.term then
      .error (corrupt "write-ahead envelope does not match its payload")
    else .ok stored

theorem Logged.readBack {event : Event} (h : Logged event) : readBack event = .ok event := by
  unfold Storage.readBack
  rw [h.text]
  exact if_neg (by simp)

def recordOf (event : Event) : File := recordBody event ++ Bytes.ofNat 4 (Bytes.crc32 (recordBody event)).toNat

theorem encodeRecord_ok {event : Event} (h : (canonicalEvent event).toList.length ≤ maxPayloadBytes) :
    encodeRecord event = .ok (recordOf event) := if_neg (not_lt.mpr h)

theorem length_recordBody (event : Event) : (recordBody event).length = 28 + (canonicalEvent event).toList.length := by
  simp only [recordBody, List.length_append, Bytes.length_ofNat, Bytes.length_ofText]

theorem length_recordOf (event : Event) : (recordOf event).length = 32 + (canonicalEvent event).toList.length := by
  rw [recordOf, List.length_append, length_recordBody, Bytes.length_ofNat]
  omega

/-- The fields of a record are where they are read, whatever follows it. -/
structure RecordAt (event : Event) (rest : File) : Prop where
  magic : readU 4 0 rest = recordMagic
  version : readU 2 4 rest = 1
  size : readU 4 8 rest = (canonicalEvent event).toList.length
  term : readU 8 12 rest = event.term
  index : readU 8 20 rest = event.index

theorem recordAt {event : Event} (h : Writable event) (rest : File) : RecordAt event (recordOf event ++ rest) := by
  have hnat : ∀ width n : Nat, (Bytes.ofNat width n).length = width := Bytes.length_ofNat
  have hsize := h.size
  unfold maxPayloadBytes at hsize
  refine ⟨?_, ?_, ?_, ?_, ?_⟩
  · simp only [readU, recordOf, recordBody, List.append_assoc]
    rw [Bytes.slice_here (hnat 4 _), Bytes.toNat_ofNat (by decide)]
  · simp only [readU, recordOf, recordBody, List.append_assoc]
    rw [Bytes.slice_past (hnat 4 _) (by decide), Bytes.slice_here (hnat 2 _), Bytes.toNat_ofNat (by decide)]
  · simp only [readU, recordOf, recordBody, List.append_assoc]
    rw [Bytes.slice_past (hnat 4 _) (by decide), Bytes.slice_past (hnat 2 _) (by decide), Bytes.slice_past (hnat 2 _) (by decide),
      Bytes.slice_here (hnat 4 _), Bytes.toNat_ofNat (by omega)]
  · simp only [readU, recordOf, recordBody, List.append_assoc]
    rw [Bytes.slice_past (hnat 4 _) (by decide), Bytes.slice_past (hnat 2 _) (by decide), Bytes.slice_past (hnat 2 _) (by decide),
      Bytes.slice_past (hnat 4 _) (by decide), Bytes.slice_here (hnat 8 _), Bytes.toNat_ofNat h.fits.term]
  · simp only [readU, recordOf, recordBody, List.append_assoc]
    rw [Bytes.slice_past (hnat 4 _) (by decide), Bytes.slice_past (hnat 2 _) (by decide), Bytes.slice_past (hnat 2 _) (by decide),
      Bytes.slice_past (hnat 4 _) (by decide), Bytes.slice_past (hnat 8 _) (by decide), Bytes.slice_here (hnat 8 _),
      Bytes.toNat_ofNat h.fits.index]

theorem slice_payload (event : Event) (rest : File) :
    Bytes.slice 28 (canonicalEvent event).toList.length (recordOf event ++ rest) = Bytes.ofText (canonicalEvent event) := by
  have hnat : ∀ width n : Nat, (Bytes.ofNat width n).length = width := Bytes.length_ofNat
  simp only [recordOf, recordBody, List.append_assoc]
  rw [Bytes.slice_past (hnat 4 _) (by decide), Bytes.slice_past (hnat 2 _) (by decide), Bytes.slice_past (hnat 2 _) (by decide),
    Bytes.slice_past (hnat 4 _) (by decide), Bytes.slice_past (hnat 8 _) (by decide), Bytes.slice_past (hnat 8 _) (by decide),
    Bytes.slice_here (Bytes.length_ofText _)]

/-- Every field of a record is intact: its text decides. -/
theorem readRecord_written {event : Event} (h : Writable event) (offset : Nat) (rest : File) :
    readRecord offset (recordOf event ++ rest) = (readBack event).map fun stored => some (stored, (recordOf event).length) := by
  have hat := recordAt h rest
  have hpayload := slice_payload event rest
  have hlen : (recordOf event ++ rest).length = 32 + (canonicalEvent event).toList.length + rest.length := by
    rw [List.length_append, length_recordOf]
  have hbody := length_recordBody event
  have hcrc : (Bytes.crc32 (recordBody event)).toNat < 256 ^ 4 := (Bytes.crc32 (recordBody event)).toNat_lt
  have hsum : (Bytes.crc32 ((recordOf event ++ rest).take (28 + (canonicalEvent event).toList.length))).toNat =
      readU 4 (28 + (canonicalEvent event).toList.length) (recordOf event ++ rest) := by
    simp only [recordOf, List.append_assoc]
    rw [← hbody, List.take_left, readU, Bytes.slice_past rfl le_rfl, Nat.sub_self, Bytes.slice_here (Bytes.length_ofNat 4 _),
      Bytes.toNat_ofNat hcrc]
  unfold readRecord recordPrefixBytes
  rw [length_recordOf, if_neg (by omega), if_neg (by simp [hat.magic, hat.version])]
  simp only [hat.size, hat.term, hat.index, hpayload]
  rw [if_neg (not_lt.mpr h.size), if_neg (by omega), if_neg (not_not.mpr hsum), (Ascii.canonicalEvent event).toText_ofText]
  rw [show 28 + (canonicalEvent event).toList.length + 4 = 32 + (canonicalEvent event).toList.length by omega]
  unfold readBack
  cases parseEvent (canonicalEvent event) with
  | error e => rfl
  | ok stored =>
    dsimp only
    split <;> rfl

theorem readRecord_record {event : Event} (h : Logged event) (offset : Nat) (rest : File) :
    readRecord offset (recordOf event ++ rest) = .ok (some (event, (recordOf event).length)) := by
  rw [readRecord_written h.writable, h.readBack]
  rfl

/-- What is left of a record that was not written to its end. -/
def Torn (part : File) : Prop := part = [] ∨ ∃ event, Logged event ∧ part <+: recordOf event ∧ part.length < (recordOf event).length

theorem slice_extends {part whole : File} {offset count : Nat} (h : part <+: whole) (hle : offset + count ≤ part.length) :
    Bytes.slice offset count whole = Bytes.slice offset count part := by
  obtain ⟨rest, rfl⟩ := h
  unfold Bytes.slice
  rw [List.drop_append_of_le_length (by omega), List.take_append_of_le_length (by rw [List.length_drop]; omega)]

theorem readRecord_torn {part : File} (h : Torn part) (offset : Nat) : readRecord offset part = .ok none := by
  unfold readRecord recordPrefixBytes
  by_cases hshort : part.length < 28 + 4
  · rw [if_pos hshort]
  · rcases h with rfl | ⟨event, hlogged, hprefix, hless⟩
    · exact absurd (by decide : ([] : File).length < 28 + 4) hshort
    · have hat := recordAt hlogged.writable []
      rw [List.append_nil] at hat
      have hread : ∀ width offset, offset + width ≤ 28 → readU width offset part = readU width offset (recordOf event) := by
        intro width offset hle
        unfold readU
        rw [slice_extends hprefix (by omega)]
      rw [length_recordOf] at hless
      rw [if_neg hshort, hread 4 0 (by decide), hread 2 4 (by decide), if_neg (by simp [hat.magic, hat.version])]
      simp only [hread 4 8 (by decide), hat.size]
      rw [if_neg (not_lt.mpr hlogged.size), if_pos (by omega)]

/-! ### Log files -/

/-- The offsets at which the records of a log end. -/
def endsFrom : Nat → List Event → List Nat
  | _, [] => []
  | offset, event :: events => (offset + (recordOf event).length) :: endsFrom (offset + (recordOf event).length) events

def recordsOf (events : List Event) : File := (events.map recordOf).flatten

theorem recordsOf_cons (event : Event) (events : List Event) : recordsOf (event :: events) = recordOf event ++ recordsOf events := by
  rw [recordsOf, List.map_cons, List.flatten_cons, recordsOf]

/-- The file of a log. -/
def walFile (events : List Event) : File := walFileHeader ++ recordsOf events

/-- The log of a store that has these events. -/
def walOf (events : List Event) : WriteAheadLog := ⟨events, endsFrom fileHeaderBytes events⟩

theorem length_endsFrom (offset : Nat) (events : List Event) : (endsFrom offset events).length = events.length := by
  induction events generalizing offset with
  | nil => rfl
  | cons event events ih => rw [endsFrom, List.length_cons, List.length_cons, ih]

theorem getLast?_endsFrom (offset : Nat) (events : List Event) :
    (endsFrom offset events).getLast?.getD offset = offset + (recordsOf events).length := by
  induction events generalizing offset with
  | nil => rfl
  | cons event events ih =>
    rw [endsFrom, List.getLast?_cons, Option.getD_some, ih, recordsOf_cons, List.length_append, Nat.add_assoc]

theorem length_walFileHeader : walFileHeader.length = fileHeaderBytes := rfl

theorem fileEnd_walOf (events : List Event) : (walOf events).fileEnd = (walFile events).length := by
  rw [WriteAheadLog.fileEnd, walOf, getLast?_endsFrom, walFile, List.length_append, length_walFileHeader]

theorem encodeWal_ok {events : List Event} (h : ∀ e ∈ events, (canonicalEvent e).toList.length ≤ maxPayloadBytes) :
    encodeWal events = .ok (walFile events) := by
  have hrecords : events.mapM encodeRecord = .ok (events.map recordOf) := by
    induction events with
    | nil => rfl
    | cons event events ih =>
      rw [List.mapM_cons, encodeRecord_ok (h event List.mem_cons_self), ih fun e he => h e (List.mem_cons_of_mem _ he)]
      rfl
  unfold encodeWal
  rw [hrecords]
  rfl

/-! ### The records behind an offset -/

theorem readRecord_size {offset size : Nat} {rest : File} {event : Event} (h : readRecord offset rest = .ok (some (event, size))) :
    0 < size ∧ size ≤ rest.length := by
  unfold readRecord recordPrefixBytes at h
  dsimp only at h
  split at h
  · cases h
  · split at h
    · split at h <;> cases h
    · split at h
      · cases h
      · split at h
        · cases h
        · rename_i hfits
          split at h
          · cases h
          · split at h
            · cases h
            · split at h
              · cases h
              · obtain ⟨-, rfl⟩ := Prod.mk.inj (Option.some.inj (Except.ok.inj h))
                omega

/-- The number of bytes is enough fuel. -/
theorem readRecords_fuel {n m offset : Nat} {rest : File} (hn : rest.length ≤ n) (hm : rest.length ≤ m) :
    readRecords n offset rest = readRecords m offset rest := by
  induction n generalizing m offset rest with
  | zero =>
    obtain rfl := List.length_eq_zero_iff.mp (Nat.le_zero.mp hn)
    cases m <;> rfl
  | succ n ih =>
    cases m with
    | zero =>
      obtain rfl := List.length_eq_zero_iff.mp (Nat.le_zero.mp hm)
      rfl
    | succ m =>
      unfold readRecords
      by_cases hnil : rest = []
      · rw [if_pos hnil, if_pos hnil]
      · rw [if_neg hnil, if_neg hnil]
        cases hread : readRecord offset rest with
        | error e => rfl
        | ok found =>
          match found with
          | none => rfl
          | some (event, size) =>
            have hsize := readRecord_size hread
            have hdrop : (rest.drop size).length + size = rest.length := by
              rw [List.length_drop]
              omega
            change (readRecords n (offset + size) (rest.drop size) >>= _) = (readRecords m (offset + size) (rest.drop size) >>= _)
            rw [ih (m := m) (by omega) (by omega)]

/-- The records that stand at an offset, with the offset at which each ends. -/
def scan (offset : Nat) (rest : File) : Result (List (Event × Nat)) := readRecords rest.length offset rest

section Scan
variable {offset : Nat} {rest : File}

theorem readRecord_nil : readRecord offset [] = .ok none := rfl

theorem scan_eq : scan offset rest = (readRecord offset rest >>= fun found =>
    match found with
    | none => .ok []
    | some (event, size) => (scan (offset + size) (rest.drop size)).map ((event, offset + size) :: ·)) := by
  unfold scan
  cases hlen : rest.length with
  | zero =>
    obtain rfl := List.length_eq_zero_iff.mp hlen
    rfl
  | succ n =>
    have hnil : rest ≠ [] := by
      rintro rfl
      cases hlen
    rw [readRecords, if_neg hnil]
    cases hread : readRecord offset rest with
    | error e => rfl
    | ok found =>
      match found with
      | none => rfl
      | some (event, size) =>
        have hsize := readRecord_size hread
        change (readRecords n (offset + size) (rest.drop size) >>= _) = _
        rw [readRecords_fuel (by rw [List.length_drop]; omega) le_rfl]
        rfl

theorem scan_of_error {e : Error} (h : readRecord offset rest = .error e) : scan offset rest = .error e := by
  rw [scan_eq, h]
  rfl

theorem scan_of_none (h : readRecord offset rest = .ok none) : scan offset rest = .ok [] := by
  rw [scan_eq, h]
  rfl

theorem scan_of_some {event : Event} {size : Nat} (h : readRecord offset rest = .ok (some (event, size))) :
    scan offset rest = (scan (offset + size) (rest.drop size)).map ((event, offset + size) :: ·) := by
  rw [scan_eq, h]
  rfl

/-- The records that were written come first, each as the log gives it back. -/
theorem scan_written {events : List Event} (writable : ∀ e ∈ events, Writable e) (offset : Nat) (rest : File) :
    scan offset (recordsOf events ++ rest) = (events.mapM readBack >>= fun stored =>
      (scan (offset + (recordsOf events).length) rest).map (stored.zip (endsFrom offset events) ++ ·)) := by
  induction events generalizing offset with
  | nil =>
    change scan offset rest = (scan offset rest).map fun records => records
    cases scan offset rest <;> rfl
  | cons event events ih =>
    have hread := readRecord_written (writable event List.mem_cons_self) offset (recordsOf events ++ rest)
    rw [recordsOf_cons, List.append_assoc, List.mapM_cons]
    cases hback : readBack event with
    | error e =>
      rw [hback] at hread
      rw [scan_of_error hread]
      rfl
    | ok stored =>
      rw [hback] at hread
      rw [scan_of_some hread, List.drop_left, ih (fun e he => writable e (List.mem_cons_of_mem _ he)), List.length_append,
        Nat.add_assoc]
      cases events.mapM readBack with
      | error e => rfl
      | ok more =>
        change Except.map _ (Except.map _ (scan _ rest)) = Except.map _ (scan _ rest)
        cases scan (offset + ((recordOf event).length + (recordsOf events).length)) rest <;> rfl

end Scan

theorem mapM_readBack {events : List Event} (logged : ∀ e ∈ events, Logged e) : events.mapM readBack = .ok events := by
  induction events with
  | nil => rfl
  | cons event events ih =>
    rw [List.mapM_cons, (logged event List.mem_cons_self).readBack, ih fun e he => logged e (List.mem_cons_of_mem _ he)]
    rfl

theorem scan_file {events : List Event} {part : File} (logged : ∀ e ∈ events, Logged e) (torn : Torn part) (offset : Nat) :
    scan offset (recordsOf events ++ part) = .ok (events.zip (endsFrom offset events)) := by
  rw [scan_written (fun e he => (logged e he).writable), mapM_readBack logged]
  change Except.map _ (scan _ part) = _
  rw [scan_of_none (readRecord_torn torn _)]
  exact congrArg Except.ok (List.append_nil _)

/-- The header is checked once; what follows it is scanned. -/
theorem readWal_header (rest : File) : readWal (walFileHeader ++ rest) = scan fileHeaderBytes rest := by
  have hslice : ∀ offset count, offset + count ≤ 16 → Bytes.slice offset count (walFileHeader ++ rest) =
      Bytes.slice offset count walFileHeader :=
    fun offset count hle => slice_extends (List.prefix_append _ _) hle
  have htake : (walFileHeader ++ rest).take 12 = walFileHeader.take 12 := List.take_append_of_le_length (by decide)
  unfold readWal readU
  rw [hslice 0 8 (by decide), hslice 8 2 (by decide), hslice 12 4 (by decide), htake]
  rw [if_neg (by rw [List.length_append, length_walFileHeader]; omega), if_neg (by decide +kernel), if_neg (by decide +kernel),
    if_neg (by decide +kernel), ← length_walFileHeader, List.drop_left]
  exact readRecords_fuel (by rw [List.length_append]; omega) le_rfl

theorem readWal_file {events : List Event} {part : File} (logged : ∀ e ∈ events, Logged e) (torn : Torn part) :
    readWal (walFile events ++ part) = .ok (events.zip (endsFrom fileHeaderBytes events)) := by
  rw [walFile, List.append_assoc, readWal_header, scan_file logged torn]

end Choreolog.Storage
