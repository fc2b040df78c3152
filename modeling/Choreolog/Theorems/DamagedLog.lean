import Choreolog.Theorems.TornLog

/-! # Loading a log with a damaged record

Damage to a record that others follow is noticed, or at least costs none of them, unless it is the length that
changed: a record that now reaches past the end of the file looks like the torn end of an append, and what
follows it is cut off with it. -/

namespace Choreolog.Storage
open Lib State

variable {μ : Type} {s : μ} {d : Disk}

/-! ### One field of a record -/

inductive RecordField where
  | magic
  | version
  | length
  | term
  | index
  /-- one byte of the payload -/
  | payload (byte : Nat)
  | checksum
  deriving DecidableEq

namespace RecordField

/-- Where the field is in a record with a payload of `size` bytes. -/
def offset (size : Nat) : RecordField → Nat
  | magic => 0
  | version => 4
  | length => 8
  | term => 12
  | index => 20
  | payload byte => recordPrefixBytes + byte
  | checksum => recordPrefixBytes + size

def width : RecordField → Nat
  | magic => 4
  | version => 2
  | length => 4
  | term => 8
  | index => 8
  | payload _ => 1
  | checksum => 4

end RecordField

/-- Other bytes in the place of those at an offset. -/
def patch (offset : Nat) (bytes file : File) : File := file.take offset ++ bytes ++ file.drop (offset + bytes.length)

section Patch
variable {offset o count : Nat} {bytes file : File}

theorem length_patch (h : offset + bytes.length ≤ file.length) : (patch offset bytes file).length = file.length := by
  simp only [patch, List.length_append, List.length_take, List.length_drop]
  omega

theorem slice_patch (h : offset + bytes.length ≤ file.length) : Bytes.slice offset bytes.length (patch offset bytes file) = bytes := by
  have hfront : (file.take offset).length = offset := by
    rw [List.length_take]
    omega
  rw [patch, List.append_assoc, Bytes.slice_past hfront le_rfl, Nat.sub_self, Bytes.slice_here rfl]

theorem slice_patch_before (h : offset + bytes.length ≤ file.length) (before : o + count ≤ offset) :
    Bytes.slice o count (patch offset bytes file) = Bytes.slice o count file := by
  have hfront : (file.take offset).length = offset := by
    rw [List.length_take]
    omega
  rw [patch, List.append_assoc, slice_extends (List.prefix_append _ _) (by omega),
    ← slice_extends (List.take_prefix offset file) (by omega)]

theorem slice_patch_behind (h : offset + bytes.length ≤ file.length) (behind : offset + bytes.length ≤ o) :
    Bytes.slice o count (patch offset bytes file) = Bytes.slice o count file := by
  have hfront : (file.take offset ++ bytes).length = offset + bytes.length := by
    rw [List.length_append, List.length_take]
    omega
  have hfile : file = file.take (offset + bytes.length) ++ file.drop (offset + bytes.length) := (List.take_append_drop _ _).symm
  have htake : (file.take (offset + bytes.length)).length = offset + bytes.length := by
    rw [List.length_take]
    omega
  rw [patch, Bytes.slice_past hfront behind]
  nth_rewrite 2 [hfile]
  rw [Bytes.slice_past htake behind]

/-- A change within the middle of three parts. -/
theorem patch_append {front back : File} (h : offset + bytes.length ≤ file.length) :
    patch (front.length + offset) bytes (front ++ (file ++ back)) = front ++ (patch offset bytes file ++ back) := by
  unfold patch
  rw [List.take_length_add_append, Nat.add_assoc, List.drop_length_add_append, List.take_append_of_le_length (by omega),
    List.drop_append_of_le_length h]
  simp only [List.append_assoc]

end Patch

/-- A change of the bytes of one field of the record of an event. -/
structure Damage (event : Event) where
  field : RecordField
  bytes : File
  inside : ∀ i, field = .payload i → i < (canonicalEvent event).toList.length
  width : bytes.length = field.width
  changes : bytes ≠ Bytes.slice (field.offset (canonicalEvent event).toList.length) field.width (recordOf event)

namespace Damage
variable {event : Event} (x : Damage event)

def offset : Nat := x.field.offset (canonicalEvent event).toList.length

def record : File := patch x.offset x.bytes (recordOf event)

theorem fits : x.offset + x.bytes.length ≤ (recordOf event).length := by
  rw [length_recordOf, x.width]
  have hinside := x.inside
  unfold offset
  cases hfield : x.field with
  | payload i =>
    have hi := hinside i hfield
    simp only [RecordField.offset, RecordField.width, recordPrefixBytes]
    omega
  | _ =>
    simp only [RecordField.offset, RecordField.width, recordPrefixBytes]
    omega

theorem length_record : x.record.length = (recordOf event).length := length_patch x.fits

end Damage

/-! ### What the log accepts -/

/-- A complete record with a payload of `size` bytes. -/
structure Frame (size : Nat) (rest : File) : Prop where
  whole : recordPrefixBytes + size + 4 ≤ rest.length
  magic : readU 4 0 rest = recordMagic
  version : readU 2 4 rest = 1
  length : readU 4 8 rest = size
  limit : size ≤ maxPayloadBytes
  checksum : (Bytes.crc32 (rest.take (recordPrefixBytes + size))).toNat = readU 4 (recordPrefixBytes + size) rest
  event : ∃ event, parseEvent (Bytes.toText (Bytes.slice recordPrefixBytes size rest)) = .ok event ∧
    event.index = readU 8 20 rest ∧ event.term = readU 8 12 rest

/-- Bytes that pass for the torn end of an append. -/
inductive Tail (rest : File) : Prop
  | short (h : rest.length < recordPrefixBytes + 4)
  | garbage (mark : readU 4 0 rest ≠ recordMagic ∨ readU 2 4 rest ≠ 1) (later : laterMagic (rest.drop 1) = false)
  | cut (magic : readU 4 0 rest = recordMagic) (version : readU 2 4 rest = 1) (limit : readU 4 8 rest ≤ maxPayloadBytes)
      (h : rest.length < recordPrefixBytes + readU 4 8 rest + 4)

/-- Records, and a tail behind them. -/
inductive Loadable : File → Prop
  | tail {rest : File} (h : Tail rest) : Loadable rest
  | record {rest : File} {size : Nat} (frame : Frame size rest) (more : Loadable (rest.drop (recordPrefixBytes + size + 4))) :
      Loadable rest

section Reading
variable {offset : Nat} {rest : File}

theorem readRecord_cases (offset : Nat) (rest : File) : (∃ e, readRecord offset rest = .error e) ∨
    readRecord offset rest = .ok none ∧ Tail rest ∨
    ∃ size event, readRecord offset rest = .ok (some (event, recordPrefixBytes + size + 4)) ∧ Frame size rest ∧
      parseEvent (Bytes.toText (Bytes.slice recordPrefixBytes size rest)) = .ok event := by
  unfold readRecord
  split
  · rename_i h
    exact .inr (.inl ⟨rfl, .short h⟩)
  · split
    · rename_i hmark
      split
      · exact .inl ⟨_, rfl⟩
      · rename_i hlater
        exact .inr (.inl ⟨rfl, .garbage hmark (Bool.eq_false_iff.mpr hlater)⟩)
    · rename_i hmark
      obtain ⟨hmagic, hversion⟩ := not_or.mp hmark
      dsimp only
      split
      · exact .inl ⟨_, rfl⟩
      · rename_i hlimit
        split
        · rename_i hcut
          exact .inr (.inl ⟨rfl, .cut (not_not.mp hmagic) (not_not.mp hversion) (not_lt.mp hlimit) hcut⟩)
        · rename_i hwhole
          split
          · exact .inl ⟨_, rfl⟩
          · rename_i hsum
            split
            · exact .inl ⟨_, rfl⟩
            · rename_i event hevent
              split
              · exact .inl ⟨_, rfl⟩
              · rename_i hfields
                obtain ⟨hindex, hterm⟩ := not_or.mp hfields
                exact .inr (.inr ⟨_, event, rfl, ⟨not_lt.mp hwhole, not_not.mp hmagic, not_not.mp hversion, rfl,
                  not_lt.mp hlimit, not_not.mp hsum, event, hevent, not_not.mp hindex, not_not.mp hterm⟩, hevent⟩)

theorem Frame.readRecord {size : Nat} (h : Frame size rest) {event : Event}
    (parse : parseEvent (Bytes.toText (Bytes.slice recordPrefixBytes size rest)) = .ok event) (offset : Nat) :
    readRecord offset rest = .ok (some (event, recordPrefixBytes + size + 4)) := by
  obtain ⟨event', hevent, hindex, hterm⟩ := h.event
  obtain rfl := Except.ok.inj (hevent.symm.trans parse)
  have hwhole := h.whole
  unfold Storage.readRecord
  rw [if_neg (by omega), if_neg (by simp [h.magic, h.version])]
  simp only [h.length]
  rw [if_neg (not_lt.mpr h.limit), if_neg (by omega), if_neg (not_not.mpr h.checksum), hevent]
  exact if_neg (by simp [hindex, hterm])

theorem Tail.readRecord (h : Tail rest) (offset : Nat) : readRecord offset rest = .ok none := by
  unfold Storage.readRecord
  cases h with
  | short h => rw [if_pos h]
  | garbage mark later =>
    split
    · rfl
    · rw [later]
      rfl
  | cut magic version limit h =>
    split
    · rfl
    · rw [if_neg (by simp [magic, version])]
      dsimp only
      rw [if_neg (not_lt.mpr limit), if_pos h]

theorem scan_iff_loadable (offset : Nat) (rest : File) : (∃ records, scan offset rest = .ok records) ↔ Loadable rest := by
  constructor
  · -- Every record takes bytes away.
    induction hn : rest.length using Nat.strong_induction_on generalizing offset rest with
    | _ n ih =>
      rintro ⟨records, h⟩
      rcases readRecord_cases offset rest with ⟨e, hread⟩ | ⟨-, htail⟩ | ⟨size, event, hread, hframe, -⟩
      · rw [scan_of_error hread] at h
        cases h
      · exact .tail htail
      · rw [scan_of_some hread] at h
        have hwhole := hframe.whole
        refine .record hframe (ih _ ?_ (offset + (recordPrefixBytes + size + 4)) _ rfl ?_)
        · rw [List.length_drop]
          omega
        · cases hmore : scan (offset + (recordPrefixBytes + size + 4)) (rest.drop (recordPrefixBytes + size + 4)) with
          | error e =>
            rw [hmore] at h
            cases h
          | ok more => exact ⟨more, rfl⟩
  · intro h
    induction h generalizing offset with
    | tail h => exact ⟨[], scan_of_none (h.readRecord offset)⟩
    | record frame more ih =>
      obtain ⟨event, hevent, -⟩ := frame.event
      have hread := frame.readRecord hevent offset
      obtain ⟨records, hrecords⟩ := ih (offset + _)
      exact ⟨_, by rw [scan_of_some hread, hrecords]; rfl⟩

theorem laterMagic_append (front back : File) : laterMagic (front ++ (Bytes.ofText "LOG1" ++ back)) = true := by
  unfold laterMagic
  rw [List.any_eq_true]
  exact ⟨_, (List.mem_tails _ _).mpr (List.suffix_append _ _), List.isPrefixOf_iff_prefix.mpr (List.prefix_append _ _)⟩

end Reading

/-! ### Reading a damaged record -/

namespace Damage
variable {event : Event} (x : Damage event)

theorem readU_record {width offset : Nat} (h : offset + width ≤ (recordOf event).length) (rest : File) :
    readU width offset (x.record ++ rest) = readU width offset x.record := by
  unfold readU
  rw [slice_extends (List.prefix_append _ _) (by rw [x.length_record]; exact h)]

/-- The other fields are as they were. -/
theorem readU_other {width offset : Nat} (h : offset + width ≤ (recordOf event).length)
    (apart : offset + width ≤ x.offset ∨ x.offset + x.field.width ≤ offset) (rest : File) :
    readU width offset (x.record ++ rest) = readU width offset (recordOf event) := by
  rw [x.readU_record h]
  unfold readU record
  rcases apart with h | h
  · rw [slice_patch_before x.fits h]
  · rw [slice_patch_behind x.fits (by rw [x.width]; exact h)]

theorem readU_field (rest : File) : readU x.field.width x.offset (x.record ++ rest) = Bytes.toNat x.bytes := by
  rw [x.readU_record (x.width ▸ x.fits)]
  unfold readU record
  rw [← x.width, slice_patch x.fits]

/-- The field itself is not. -/
theorem toNat_bytes_ne : Bytes.toNat x.bytes ≠ readU x.field.width x.offset (recordOf event) := by
  intro heq
  refine x.changes ?_
  have hslice : (Bytes.slice x.offset x.field.width (recordOf event)).length = x.field.width :=
    Bytes.length_slice (x.width ▸ x.fits)
  exact (Bytes.ofNat_eq x.width heq).symm.trans (Bytes.ofNat_eq hslice rfl)

end Damage

section Damaged
variable {event : Event} {x : Damage event}

theorem recordAt_self (h : Writable event) : RecordAt event (recordOf event) := by
  have hat := recordAt h []
  rwa [List.append_nil] at hat

/-- A record without its mark is no tail if another record follows. -/
theorem readRecord_unmarked (h : Writable event) (hfield : x.field = .magic ∨ x.field = .version) {next : Event} {after : List Event}
    (offset : Nat) : ∃ e, readRecord offset (x.record ++ recordsOf (next :: after)) = .error e := by
  have hlen := length_recordOf event
  have hat := recordAt_self h
  have hlater : laterMagic ((x.record ++ recordsOf (next :: after)).drop 1) = true := by
    have hmark : recordsOf (next :: after) = Bytes.ofText "LOG1" ++ (recordsOf (next :: after)).drop 4 := by
      have hmagic : Bytes.ofNat 4 recordMagic = Bytes.ofText "LOG1" := by decide
      simp only [recordsOf_cons, recordOf, recordBody, List.append_assoc, hmagic]
      rfl
    rw [List.drop_append_of_le_length (by rw [x.length_record]; omega), hmark]
    exact laterMagic_append _ _
  have hmark : readU 4 0 (x.record ++ recordsOf (next :: after)) ≠ recordMagic ∨
      readU 2 4 (x.record ++ recordsOf (next :: after)) ≠ 1 := by
    have hread := x.readU_field (recordsOf (next :: after))
    have hne := x.toNat_bytes_ne
    rw [Damage.offset] at hread hne
    rcases hfield with hfield | hfield
    · rw [hfield] at hread hne
      exact .inl fun heq => hne (hread.symm.trans (heq.trans hat.magic.symm))
    · rw [hfield] at hread hne
      exact .inr fun heq => hne (hread.symm.trans (heq.trans hat.version.symm))
  refine ⟨corrupt ("corrupt write-ahead record at offset " ++ toString offset), ?_⟩
  unfold readRecord
  rw [if_neg (by rw [List.length_append, x.length_record, recordPrefixBytes]; omega), if_pos hmark, if_pos hlater]

/-- The checksum of a record with a payload of `size` bytes matches. -/
def Checked (size : Nat) (record : File) : Prop :=
  (Bytes.crc32 (record.take (recordPrefixBytes + size))).toNat = readU 4 (recordPrefixBytes + size) record

/-- A record with its mark and its length is refused or taken, and it is taken at its size. -/
theorem readRecord_measured (h : Writable event) (hfield : x.field ≠ .magic ∧ x.field ≠ .version ∧ x.field ≠ .length) (rest : File)
    (offset : Nat) : (∃ e, readRecord offset (x.record ++ rest) = .error e) ∨
      Checked (canonicalEvent event).toList.length x.record ∧
        ∃ stored, readRecord offset (x.record ++ rest) = .ok (some (stored, (recordOf event).length)) := by
  have hlen := length_recordOf event
  have hat := recordAt_self h
  have hbehind : 12 ≤ x.offset := by
    obtain ⟨hmagic, hversion, hlength⟩ := hfield
    unfold Damage.offset
    cases hx : x.field with
    | magic => exact absurd hx hmagic
    | version => exact absurd hx hversion
    | length => exact absurd hx hlength
    | _ =>
      simp only [RecordField.offset, recordPrefixBytes]
      omega
  have hread : ∀ width o, o + width ≤ 12 → readU width o (x.record ++ rest) = readU width o (recordOf event) :=
    fun width o hle => x.readU_other (by omega) (.inl (by omega)) rest
  have hsize := (hread 4 8 (by decide)).trans hat.size
  rcases readRecord_cases offset (x.record ++ rest) with herror | ⟨-, htail⟩ | ⟨size, stored, hstored, hframe, -⟩
  · exact .inl herror
  · -- It is neither short nor without its mark nor cut.
    have hall : (x.record ++ rest).length = 32 + (canonicalEvent event).toList.length + rest.length := by
      rw [List.length_append, x.length_record, hlen]
    cases htail with
    | short hshort =>
      unfold recordPrefixBytes at hshort
      omega
    | garbage hmark =>
      rw [hread 4 0 (by decide), hread 2 4 (by decide), hat.magic, hat.version] at hmark
      simp at hmark
    | cut _ _ _ hcut =>
      unfold recordPrefixBytes at hcut
      omega
  · obtain rfl : size = (canonicalEvent event).toList.length := hframe.length.symm.trans hsize
    refine .inr ⟨?_, stored, ?_⟩
    · have hsum := hframe.checksum
      have hle : recordPrefixBytes + (canonicalEvent event).toList.length ≤ x.record.length := by
        rw [x.length_record, recordPrefixBytes]
        omega
      rw [List.take_append_of_le_length hle, x.readU_record (by unfold recordPrefixBytes; omega)] at hsum
      exact hsum
    · rw [hstored, hlen, recordPrefixBytes, show 28 + (canonicalEvent event).toList.length + 4 =
        32 + (canonicalEvent event).toList.length by omega]

/-- A new length under which the log takes more or less than the record: a frame that reaches past the end of
    the file, or one that is complete and has loadable bytes behind it. -/
structure Misread (x : Damage event) (after : List Event) : Prop where
  length : x.field = .length
  limit : Bytes.toNat x.bytes ≤ maxPayloadBytes
  taken : (x.record ++ recordsOf after).length < recordPrefixBytes + Bytes.toNat x.bytes + 4 ∨
    Frame (Bytes.toNat x.bytes) (x.record ++ recordsOf after) ∧
      Loadable ((x.record ++ recordsOf after).drop (recordPrefixBytes + Bytes.toNat x.bytes + 4))

theorem readU_length (hfield : x.field = .length) (rest : File) : readU 4 8 (x.record ++ rest) = Bytes.toNat x.bytes := by
  have hread := x.readU_field rest
  rw [Damage.offset, hfield] at hread
  exact hread

theorem misread_iff_loadable (h : Writable event) (hfield : x.field = .length) (after : List Event) :
    Misread x after ↔ Loadable (x.record ++ recordsOf after) := by
  have hlen := length_recordOf event
  have hat := recordAt_self h
  have hoffset : x.offset = 8 := by rw [Damage.offset, hfield]; rfl
  have hread : ∀ width o, o + width ≤ 8 → readU width o (x.record ++ recordsOf after) = readU width o (recordOf event) :=
    fun width o hle => x.readU_other (by omega) (.inl (by omega)) _
  have hmagic := (hread 4 0 (by decide)).trans hat.magic
  have hversion := (hread 2 4 (by decide)).trans hat.version
  have hlength := readU_length hfield (recordsOf after)
  constructor
  · rintro ⟨-, hlimit, hcut | ⟨hframe, hmore⟩⟩
    · exact .tail (.cut hmagic hversion (hlength ▸ hlimit) (hlength ▸ hcut))
    · exact .record hframe hmore
  · intro hload
    cases hload with
    | tail htail =>
      cases htail with
      | short hshort =>
        rw [List.length_append, x.length_record, recordPrefixBytes] at hshort
        omega
      | garbage hmark => exact absurd hmark (by simp [hmagic, hversion])
      | cut _ _ hlimit hcut => exact ⟨hfield, hlength ▸ hlimit, .inl (hlength ▸ hcut)⟩
    | @record _ size hframe hmore =>
      obtain rfl : Bytes.toNat x.bytes = size := hlength.symm.trans hframe.length
      exact ⟨hfield, hframe.limit, .inr ⟨hframe, hmore⟩⟩

end Damaged

/-! ### Loading the damaged log -/

section Loading
variable {before after : List Event} {event : Event} {x : Damage event}

/-- Nothing behind the damaged record is lost: the log is refused as it stands, or, if the checksum of the
    record still matches, every later record is returned from its place. -/
def Preserved (before : List Event) (x : Damage event) (after : List Event) (d : Disk) (out : Outcome Error μ Disk WriteAheadLog) :
    Prop :=
  out.disk = d ∧ ((∃ e, out.result = .error e) ∨
    Checked (canonicalEvent event).toList.length x.record ∧ ∃ first stored later,
      before.mapM readBack = .ok first ∧ after.mapM readBack = .ok later ∧
      out.result = .ok ⟨first ++ stored :: later, endsFrom fileHeaderBytes (before ++ event :: after)⟩)

theorem endsFrom_split (offset : Nat) (before after : List Event) : endsFrom offset (before ++ after) =
    endsFrom offset before ++ endsFrom (offset + (recordsOf before).length) after := by
  induction before generalizing offset with
  | nil => rfl
  | cons event before ih =>
    rw [List.cons_append, endsFrom, endsFrom, ih, recordsOf_cons, List.length_append, Nat.add_assoc, List.cons_append]

theorem length_mapM_readBack {events stored : List Event} (h : events.mapM readBack = .ok stored) : stored.length = events.length := by
  induction events generalizing stored with
  | nil =>
    cases h
    rfl
  | cons event events ih =>
    rw [List.mapM_cons] at h
    obtain ⟨first, -, h⟩ := bind_ok h
    obtain ⟨more, hmore, h⟩ := bind_ok h
    obtain rfl := Except.ok.inj h
    rw [List.length_cons, List.length_cons, ih hmore]

/-- The damaged file, by its parts. -/
theorem patch_walFile (before after : List Event) (x : Damage event) :
    patch (fileHeaderBytes + (recordsOf before).length + x.offset) x.bytes (walFile (before ++ event :: after)) =
      walFileHeader ++ (recordsOf before ++ (x.record ++ recordsOf after)) := by
  have hfront : fileHeaderBytes + (recordsOf before).length = (walFileHeader ++ recordsOf before).length := by
    rw [List.length_append, length_walFileHeader]
  have hfile : walFile (before ++ event :: after) = (walFileHeader ++ recordsOf before) ++ (recordOf event ++ recordsOf after) := by
    simp only [walFile, recordsOf, List.map_append, List.map_cons, List.flatten_append, List.flatten_cons, List.append_assoc]
  rw [hfront, hfile, patch_append x.fits, List.append_assoc]
  rfl

theorem length_damaged (before after : List Event) (x : Damage event) :
    (walFileHeader ++ (recordsOf before ++ (x.record ++ recordsOf after))).length = (walFile (before ++ event :: after)).length := by
  simp only [walFile, recordsOf, List.map_append, List.map_cons, List.flatten_append, List.flatten_cons, List.length_append,
    x.length_record]

/-- Loading what follows the records before the damaged one. -/
theorem scan_damaged (writable : ∀ e ∈ before, Writable e) {first : List Event} (hfirst : before.mapM readBack = .ok first) (rest : File) :
    readWal (walFileHeader ++ (recordsOf before ++ rest)) = (scan (fileHeaderBytes + (recordsOf before).length) rest).map
      (first.zip (endsFrom fileHeaderBytes before) ++ ·) := by
  rw [readWal_header, scan_written writable, hfirst]
  rfl

/-- With its mark and its length the damaged record costs no other. -/
theorem preserved_measured (writable : ∀ e ∈ before ++ event :: after, Writable e)
    (hfield : x.field ≠ .magic ∧ x.field ≠ .version ∧ x.field ≠ .length) {first : List Event} (hfirst : before.mapM readBack = .ok first)
    (s : μ) (held : d.wal = some (walFileHeader ++ (recordsOf before ++ (x.record ++ recordsOf after)))) :
    Preserved before x after d (WriteAheadLog.load s d) := by
  have hbefore : ∀ e ∈ before, Writable e := fun e he => writable e (List.mem_append_left _ he)
  have hafter : ∀ e ∈ after, Writable e := fun e he => writable e (List.mem_append_right _ (List.mem_cons_of_mem _ he))
  have hevent : Writable event := writable event (List.mem_append_right _ List.mem_cons_self)
  have hread := scan_damaged hbefore hfirst (x.record ++ recordsOf after)
  rcases readRecord_measured hevent hfield (recordsOf after) (fileHeaderBytes + (recordsOf before).length) with
    ⟨e, herror⟩ | ⟨hchecked, stored, hstored⟩
  · rw [scan_of_error herror] at hread
    rw [load_of_error held hread]
    exact ⟨rfl, .inl ⟨e, rfl⟩⟩
  · have hlater := scan_written hafter (fileHeaderBytes + (recordsOf before).length + (recordOf event).length) []
    rw [List.append_nil, scan_of_none readRecord_nil] at hlater
    rw [scan_of_some hstored, ← x.length_record, List.drop_left, x.length_record, hlater] at hread
    cases hback : after.mapM readBack with
    | error e =>
      rw [hback] at hread
      rw [load_of_error held hread]
      exact ⟨rfl, .inl ⟨e, rfl⟩⟩
    | ok later =>
      have hrecords : readWal (walFileHeader ++ (recordsOf before ++ (x.record ++ recordsOf after))) = .ok
          ((first ++ stored :: later).zip (endsFrom fileHeaderBytes (before ++ event :: after))) := by
        rw [hread, hback, endsFrom_split, List.zip_append (by rw [length_mapM_readBack hfirst, length_endsFrom]), endsFrom,
          List.zip_cons_cons]
        exact congrArg (fun more => Except.ok (_ ++ _ :: more)) (List.append_nil _)
      have hlengths : (first ++ stored :: later).length = (endsFrom fileHeaderBytes (before ++ event :: after)).length := by
        rw [length_endsFrom, List.length_append, List.length_append, List.length_cons, List.length_cons, length_mapM_readBack hfirst,
          length_mapM_readBack hback]
      have hruns := load_of_ok held hrecords (unzip_log hlengths) s
      have hend : ¬WriteAheadLog.fileEnd ⟨first ++ stored :: later, endsFrom fileHeaderBytes (before ++ event :: after)⟩ <
          (walFileHeader ++ (recordsOf before ++ (x.record ++ recordsOf after))).length := by
        rw [length_damaged]
        exact (fileEnd_walOf (before ++ event :: after)).ge.not_gt
      rw [if_neg hend] at hruns
      exact ⟨hruns.disk, .inr ⟨hchecked, first, stored, later, hfirst, hback, hruns.result⟩⟩

/-- A log that is misread ends its records elsewhere. -/
theorem not_preserved_misread (writable : ∀ e ∈ before ++ event :: after, Writable e) (misread : Misread x after) {first : List Event}
    (hfirst : before.mapM readBack = .ok first) (s : μ)
    (held : d.wal = some (walFileHeader ++ (recordsOf before ++ (x.record ++ recordsOf after)))) :
    ¬Preserved before x after d (WriteAheadLog.load s d) := by
  have hbefore : ∀ e ∈ before, Writable e := fun e he => writable e (List.mem_append_left _ he)
  have hevent : Writable event := writable event (List.mem_append_right _ List.mem_cons_self)
  have hload := (misread_iff_loadable hevent misread.length after).mp misread
  obtain ⟨records, hrecords⟩ := (scan_iff_loadable (fileHeaderBytes + (recordsOf before).length) _).mpr hload
  have hread := scan_damaged hbefore hfirst (x.record ++ recordsOf after)
  rw [hrecords] at hread
  have hruns := load_of_ok held hread rfl s
  rintro ⟨-, ⟨e, herror⟩ | ⟨-, first', stored, later, -, -, hok⟩⟩
  · exact nomatch herror.symm.trans hruns.result
  · have hends := congrArg WriteAheadLog.recordEnds (Except.ok.inj (hruns.result.symm.trans hok))
    have hzip : (first.zip (endsFrom fileHeaderBytes before)).map Prod.snd = endsFrom fileHeaderBytes before :=
      List.map_snd_zip (by rw [length_mapM_readBack hfirst, length_endsFrom])
    dsimp only at hends
    rw [List.map_append, hzip, endsFrom_split, List.append_cancel_left_eq, endsFrom] at hends
    -- The first of the records ends where the new length says.
    rcases readRecord_cases (fileHeaderBytes + (recordsOf before).length) (x.record ++ recordsOf after) with
      ⟨e, herror⟩ | ⟨hnone, -⟩ | ⟨size, found, hfound, hframe, -⟩
    · rw [scan_of_error herror] at hrecords
      cases hrecords
    · rw [scan_of_none hnone] at hrecords
      obtain rfl := Except.ok.inj hrecords
      cases hends
    · rw [scan_of_some hfound] at hrecords
      cases hmore : scan (fileHeaderBytes + (recordsOf before).length + (recordPrefixBytes + size + 4))
          ((x.record ++ recordsOf after).drop (recordPrefixBytes + size + 4)) with
      | error e =>
        rw [hmore] at hrecords
        cases hrecords
      | ok more =>
        rw [hmore] at hrecords
        obtain rfl := Except.ok.inj hrecords
        have hhead := (List.cons.inj hends).1
        dsimp only at hhead
        rw [length_recordOf, recordPrefixBytes] at hhead
        have hne := x.toNat_bytes_ne
        rw [Damage.offset, misread.length] at hne
        have hsize : readU 4 8 (recordOf event) = (canonicalEvent event).toList.length := (recordAt_self hevent).size
        have hlength := (readU_length misread.length (recordsOf after)).symm.trans hframe.length
        exact hne ((hlength.trans (by omega)).trans hsize.symm)

/-- Whatever field of a record before others is changed, loading loses none of the others, except if the
    records before it are readable and the new length is one under which the log is misread. -/
theorem load_damaged_iff (fits : ∀ e ∈ before ++ event :: after, e.Fits) {file : File}
    (encoded : encodeWal (before ++ event :: after) = .ok file) (followed : after ≠ []) (x : Damage event) (s : μ)
    (held : d.wal = some (patch (fileHeaderBytes + (recordsOf before).length + x.offset) x.bytes file)) :
    Preserved before x after d (WriteAheadLog.load s d) ↔ ¬((∃ first, before.mapM readBack = .ok first) ∧ Misread x after) := by
  obtain ⟨rfl, hsizes⟩ := encodeWal_cases encoded
  have hwritable : ∀ e ∈ before ++ event :: after, Writable e := fun e he => ⟨fits e he, hsizes e he⟩
  have hbefore : ∀ e ∈ before, Writable e := fun e he => hwritable e (List.mem_append_left _ he)
  have hevent : Writable event := hwritable event (List.mem_append_right _ List.mem_cons_self)
  rw [patch_walFile] at held
  have hrefused : ∀ e, readWal (walFileHeader ++ (recordsOf before ++ (x.record ++ recordsOf after))) = .error e →
      Preserved before x after d (WriteAheadLog.load s d) := by
    intro e herror
    rw [load_of_error held herror]
    exact ⟨rfl, .inl ⟨e, rfl⟩⟩
  constructor
  · rintro hpreserved ⟨⟨first, hfirst⟩, hmisread⟩
    exact not_preserved_misread hwritable hmisread hfirst s held hpreserved
  · intro hnot
    cases hfirst : before.mapM readBack with
    | error e =>
      refine hrefused e ?_
      rw [readWal_header, scan_written hbefore, hfirst]
      rfl
    | ok first =>
      have hmisread : ¬Misread x after := fun h => hnot ⟨⟨first, hfirst⟩, h⟩
      have hread := scan_damaged hbefore hfirst (x.record ++ recordsOf after)
      by_cases hmark : x.field = .magic ∨ x.field = .version
      · obtain ⟨next, later, rfl⟩ := List.exists_cons_of_ne_nil followed
        obtain ⟨e, herror⟩ := readRecord_unmarked hevent hmark (fileHeaderBytes + (recordsOf before).length)
        refine hrefused e ?_
        rw [hread, scan_of_error herror]
        rfl
      · by_cases hlength : x.field = .length
        · cases hscan : scan (fileHeaderBytes + (recordsOf before).length) (x.record ++ recordsOf after) with
          | error e =>
            refine hrefused e ?_
            rw [hread, hscan]
            rfl
          | ok records =>
            refine absurd ?_ hmisread
            exact (misread_iff_loadable hevent hlength after).mpr ((scan_iff_loadable _ _).mp ⟨records, hscan⟩)
        · obtain ⟨hmagic, hversion⟩ := not_or.mp hmark
          exact preserved_measured hwritable ⟨hmagic, hversion, hlength⟩ hfirst s held

end Loading

/-- The first byte of the payload is another one. -/
def otherByte : Damage (marker 1) where
  field := .payload 0
  bytes := [33]
  inside i h := by
    cases h
    decide +kernel
  width := rfl
  changes := by decide +kernel

theorem load_damaged_marker : Preserved [] otherByte [marker 2] { wal := some (patch (16 + 28) [33] (walFile [marker 1, marker 2])) }
    (WriteAheadLog.load () { wal := some (patch (16 + 28) [33] (walFile [marker 1, marker 2])) }) :=
  (load_damaged_iff (fun e he => (logged_markers e he).fits) (encodeWal_ok fun e he => (logged_markers e he).size) (List.cons_ne_nil _ _) otherByte () rfl).mpr
    fun h => nomatch h.2.length

/-- The length is the largest that is allowed. -/
def longest : Damage (marker 1) where
  field := .length
  bytes := Bytes.ofNat 4 maxPayloadBytes
  inside i h := nomatch h
  width := rfl
  changes := by decide +kernel

theorem longest_reaches : (longest.record ++ recordsOf [marker 2]).length < recordPrefixBytes + Bytes.toNat longest.bytes + 4 := by
  have hlen : (longest.record ++ recordsOf [marker 2]).length < 1000 := by decide +kernel
  have hbytes : Bytes.toNat longest.bytes = maxPayloadBytes := Bytes.toNat_ofNat (by decide)
  rw [hbytes]
  exact hlen.trans (by decide)

theorem misread_longest : Misread longest [marker 2] :=
  ⟨rfl, (Bytes.toNat_ofNat (by decide : maxPayloadBytes < 256 ^ 4)).le, .inl longest_reaches⟩

/-- The log with that length in the first of two records. -/
def stretched : Disk := { wal := some (patch (16 + 8) (Bytes.ofNat 4 maxPayloadBytes) (walFile [marker 1, marker 2])) }

/-- Loading takes both records for the torn end of an append: it succeeds, returns no event and cuts the file
    back to its header. -/
theorem length_cuts_log : (WriteAheadLog.load () stretched).result = .ok ⟨[], []⟩ ∧
    (WriteAheadLog.load () stretched).disk.wal = some walFileHeader ∧
    ¬Preserved [] longest [marker 2] stretched (WriteAheadLog.load () stretched) := by
  have hwritable : ∀ e ∈ [] ++ marker 1 :: [marker 2], Writable e := fun e he => (logged_markers e he).writable
  have hheld : stretched.wal = some (walFileHeader ++ (recordsOf [] ++ (longest.record ++ recordsOf [marker 2]))) :=
    congrArg some (patch_walFile [] [marker 2] longest)
  have htail : Tail (longest.record ++ recordsOf [marker 2]) := by
    refine .cut (by decide +kernel) (by decide +kernel) ?_ ?_
    · rw [readU_length rfl]
      exact misread_longest.limit
    · rw [readU_length rfl]
      exact longest_reaches
  have hread : readWal (walFileHeader ++ (recordsOf [] ++ (longest.record ++ recordsOf [marker 2]))) = .ok [] :=
    (readWal_header _).trans (scan_of_none (htail.readRecord _))
  have hruns := load_of_ok hheld hread rfl ()
  refine ⟨hruns.result, ?_, not_preserved_misread hwritable misread_longest rfl () hheld⟩
  rw [hruns.disk, if_pos (by rw [List.length_append]; decide +kernel)]
  exact congrArg some (List.take_left' rfl)

end Choreolog.Storage
