import Choreolog.Theorems.DamagedLog
import Choreolog.Theorems.Operations

/-! # The log in memory and its file

An open log never reads its file again: an append moves the end on, and a cut goes to an offset that was noted before.
Loading the file anew would give the same events and offsets after any calls. The file is also the encoding of these
events if it was so when it was opened; a reader does not look at the reserved bytes. -/

namespace Choreolog.Storage
open Lib State
open Lib.Program (Runs)

/-! ### Part of a file -/

/-- A record is read from its own bytes. -/
theorem readRecord_part {offset size : Nat} {rest : File} {event : Event} (h : readRecord offset rest = .ok (some (event, size)))
    (more : File) : readRecord offset (rest.take size ++ more) = .ok (some (event, size)) := by
  rcases readRecord_cases offset rest with ⟨e, hread⟩ | ⟨hread, -⟩ | ⟨n, found, hread, hframe, hparse⟩
  · cases hread.symm.trans h
  · cases hread.symm.trans h
  · cases hread.symm.trans h
    have hwhole := hframe.whole
    have hlength : (rest.take (recordPrefixBytes + n + 4)).length = recordPrefixBytes + n + 4 := List.length_take_of_le hwhole
    have hslice : ∀ o count, o + count ≤ recordPrefixBytes + n + 4 →
        Bytes.slice o count (rest.take (recordPrefixBytes + n + 4) ++ more) = Bytes.slice o count rest := fun o count hle => by
      rw [slice_extends (List.prefix_append _ _) (by omega), ← slice_extends (List.take_prefix _ rest) (by omega)]
    have hread : ∀ width o, o + width ≤ recordPrefixBytes + n + 4 →
        readU width o (rest.take (recordPrefixBytes + n + 4) ++ more) = readU width o rest := fun width o hle =>
      congrArg Bytes.toNat (hslice o width hle)
    have htake : (rest.take (recordPrefixBytes + n + 4) ++ more).take (recordPrefixBytes + n) = rest.take (recordPrefixBytes + n) := by
      rw [List.take_append_of_le_length (by omega), List.take_take, Nat.min_eq_left (by omega)]
    have hpart : Frame n (rest.take (recordPrefixBytes + n + 4) ++ more) := by
      refine ⟨by rw [List.length_append]; omega, ?_, ?_, ?_, hframe.limit, ?_, ?_⟩
      · rw [hread 4 0 (by unfold recordPrefixBytes; omega), hframe.magic]
      · rw [hread 2 4 (by unfold recordPrefixBytes; omega), hframe.version]
      · rw [hread 4 8 (by unfold recordPrefixBytes; omega), hframe.length]
      · rw [htake, hread 4 (recordPrefixBytes + n) le_rfl, hframe.checksum]
      · rw [hslice recordPrefixBytes n (by omega), hread 8 20 (by unfold recordPrefixBytes; omega),
          hread 8 12 (by unfold recordPrefixBytes; omega)]
        exact hframe.event
    exact hpart.readRecord ((congrArg (parseEvent ∘ Bytes.toText) (hslice recordPrefixBytes n (by omega))).trans hparse) offset

/-- Where the last of the records ends. -/
def endOf (offset : Nat) (records : List (Event × Nat)) : Nat := (records.map Prod.snd).getLast?.getD offset

theorem scan_cases {offset : Nat} {rest : File} {r : Event × Nat} {records : List (Event × Nat)}
    (h : scan offset rest = .ok (r :: records)) : ∃ size, size ≤ rest.length ∧ r.2 = offset + size ∧ r.1.Fits ∧
      readRecord offset rest = .ok (some (r.1, size)) ∧ scan (offset + size) (rest.drop size) = .ok records := by
  rcases readRecord_cases offset rest with ⟨e, hread⟩ | ⟨hread, -⟩ | ⟨n, event, hread, hframe, hparse⟩
  · cases (scan_of_error hread).symm.trans h
  · cases (scan_of_none hread).symm.trans h
  · rw [scan_of_some hread] at h
    cases hmore : scan (offset + (recordPrefixBytes + n + 4)) (rest.drop (recordPrefixBytes + n + 4)) with
    | error e =>
      rw [hmore] at h
      cases h
    | ok more =>
      rw [hmore] at h
      cases h
      exact ⟨_, hframe.whole, rfl, fits_of_parseEvent hparse, hread, hmore⟩

/-- The first records are read from the bytes up to the end of the last of them. -/
theorem scan_part {offset : Nat} {rest : File} {records : List (Event × Nat)} (h : scan offset rest = .ok records) (n : Nat) :
    ∃ part, part <+: rest ∧ offset + part.length = endOf offset (records.take n) ∧
      ∀ more, scan offset (part ++ more) = (scan (offset + part.length) more).map (records.take n ++ ·) := by
  have hnone : ∀ offset rest, ∃ part : File, part <+: rest ∧ offset + part.length = endOf offset [] ∧
      ∀ more, scan offset (part ++ more) = (scan (offset + part.length) more).map ([] ++ ·) := fun offset rest =>
    ⟨[], List.nil_prefix, rfl, fun more => by cases hmore : scan offset more <;> simp [Except.map, hmore]⟩
  induction records generalizing offset rest n with
  | nil =>
    rw [List.take_nil]
    exact hnone offset rest
  | cons r records ih =>
    cases n with
    | zero => exact hnone offset rest
    | succ n =>
      obtain ⟨size, hsize, hend, -, hread, hmore⟩ := scan_cases h
      obtain ⟨part, ⟨back, hback⟩, hlast, hscan⟩ := ih hmore n
      have hlength : (rest.take size).length = size := List.length_take_of_le hsize
      refine ⟨rest.take size ++ part, ⟨back, ?_⟩, ?_, fun more => ?_⟩
      · rw [List.append_assoc, hback, List.take_append_drop]
      · rw [List.length_append, hlength, ← Nat.add_assoc, hlast]
        unfold endOf
        rw [List.take_succ_cons, List.map_cons, List.getLast?_cons, hend]
        rfl
      · have hrecord := readRecord_part hread (part ++ more)
        rw [List.append_assoc, scan_of_some hrecord, List.drop_left' hlength, hscan, List.length_append, hlength, ← Nat.add_assoc,
          List.take_succ_cons]
        cases scan (offset + size + part.length) more with
        | error e => rfl
        | ok records =>
          obtain ⟨event, last⟩ := r
          cases hend
          rfl

/-- What follows the header is scanned. -/
theorem readWal_part {file : File} {records : List (Event × Nat)} (h : readWal file = .ok records) :
    ∃ header rest, file = header ++ rest ∧ header.length = fileHeaderBytes ∧ scan fileHeaderBytes rest = .ok records ∧
      ∀ more, readWal (header ++ more) = scan fileHeaderBytes more := by
  unfold readWal at h
  split at h
  · cases h
  · rename_i hlength
    have hheader : (file.take fileHeaderBytes).length = fileHeaderBytes := List.length_take_of_le (not_lt.mp hlength)
    split at h
    · cases h
    · rename_i hmagic
      split at h
      · cases h
      · rename_i hversion
        split at h
        · cases h
        · rename_i hsum
          refine ⟨file.take fileHeaderBytes, file.drop fileHeaderBytes, (List.take_append_drop _ _).symm, hheader, ?_, fun more => ?_⟩
          · rw [← h]
            exact readRecords_fuel le_rfl (by rw [List.length_drop]; omega)
          · have hslice : ∀ o count, o + count ≤ 16 →
                Bytes.slice o count (file.take fileHeaderBytes ++ more) = Bytes.slice o count file := fun o count hle => by
              rw [slice_extends (List.prefix_append _ _) (by rw [hheader]; exact hle),
                ← slice_extends (List.take_prefix fileHeaderBytes file) (by rw [hheader]; exact hle)]
            have htake : (file.take fileHeaderBytes ++ more).take 12 = file.take 12 := by
              rw [List.take_append_of_le_length (by rw [hheader]; decide), List.take_take]
              rfl
            unfold readWal readU at *
            rw [hslice 0 8 (by decide), hslice 8 2 (by decide), hslice 12 4 (by decide), htake,
              if_neg (by rw [List.length_append]; omega), if_neg hmagic, if_neg hversion, if_neg hsum, List.drop_left' hheader]
            exact readRecords_fuel (by rw [List.length_append]; omega) le_rfl

/-! ### The mirror -/

/-- The log that the records make. -/
def logOf (records : List (Event × Nat)) : WriteAheadLog := ⟨records.map Prod.fst, records.map Prod.snd⟩

/-- The file holds exactly these records. -/
structure Holds (records : List (Event × Nat)) (d : Disk) : Prop where
  held : ∃ file, d.wal = some file ∧ readWal file = .ok records ∧ file.length = (logOf records).fileEnd

/-- A cut at the end of a record, with more behind it. -/
theorem readWal_cut {file : File} {records : List (Event × Nat)} (h : readWal file = .ok records) (n : Nat) (more : File) :
    (file.take (logOf (records.take n)).fileEnd).length = (logOf (records.take n)).fileEnd ∧
    readWal (file.take (logOf (records.take n)).fileEnd ++ more) =
      (scan (logOf (records.take n)).fileEnd more).map (records.take n ++ ·) := by
  obtain ⟨header, rest, rfl, hheader, hscan, hread⟩ := readWal_part h
  obtain ⟨part, ⟨back, rfl⟩, hend, hpart⟩ := scan_part hscan n
  have hlast : (logOf (records.take n)).fileEnd = (header ++ part).length := by
    rw [List.length_append, hheader, hend]
    rfl
  rw [hlast, ← List.append_assoc, List.take_left, List.append_assoc, hread, hpart, List.length_append, hheader]
  exact ⟨rfl, rfl⟩

theorem Holds.cut {file : File} {records : List (Event × Nat)} (h : readWal file = .ok records) (n : Nat) {d : Disk}
    (held : d.wal = some (file.take (logOf (records.take n)).fileEnd)) : Holds (records.take n) d := by
  obtain ⟨hlength, hread⟩ := readWal_cut h n []
  rw [List.append_nil] at hread
  refine ⟨_, held, hread.trans ?_, hlength⟩
  exact congrArg Except.ok (List.append_nil _)

/-- Loading it again gives the same log and leaves the disk as it is. -/
theorem Holds.load {records : List (Event × Nat)} {d : Disk} (h : Holds records d) :
    Runs (WriteAheadLog.load : Store Unit WriteAheadLog) () d (logOf records) () d := by
  obtain ⟨file, held, hread, hlength⟩ := h.held
  have hruns := load_of_ok held hread rfl ()
  rwa [if_neg (by rw [hlength]; exact lt_irrefl _)] at hruns

theorem load_holds {d d' : Disk} {wal : WriteAheadLog} (h : Runs (WriteAheadLog.load : Store Unit WriteAheadLog) () d wal () d') :
    ∃ records, wal = logOf records ∧ Holds records d' := by
  cases hfile : d.wal with
  | none =>
    have hresult := h.result
    unfold WriteAheadLog.load at hresult
    rw [Program.disk_bind, hfile] at hresult
    cases hresult
  | some file =>
    cases hread : readWal file with
    | error e =>
      have hresult := h.result
      rw [load_of_error hfile hread] at hresult
      cases hresult
    | ok records =>
      have hruns := load_of_ok hfile hread (rfl : logOf records = _) ()
      obtain rfl := Except.ok.inj (h.result.symm.trans hruns.result)
      refine ⟨records, rfl, ?_⟩
      have hcut : file.take (logOf records).fileEnd = file.take (logOf (records.take records.length)).fileEnd := by
        rw [List.take_length]
      have hdisk := h.disk.symm.trans hruns.disk
      rw [← List.take_length (l := records)]
      refine Holds.cut hread _ ?_
      rw [hdisk, ← hcut]
      split
      · rfl
      · rename_i hless
        rw [hfile, List.take_of_length_le (not_lt.mp hless)]

/-! ### Calls -/

/-- A call on an open log. -/
inductive WalCall where
  | append (event : Event)
  | truncateAfter (index : Nat)
  | rewrite (events : List Event)

namespace WriteAheadLog

def perform (wal : WriteAheadLog) : WalCall → Store Unit WriteAheadLog
  | .append event => wal.append event
  | .truncateAfter index => wal.truncateAfter index
  | .rewrite events => rewrite events

def performAll (wal : WriteAheadLog) : List WalCall → Store Unit WriteAheadLog
  | [] => return wal
  | call :: calls => do
    let wal ← wal.perform call
    wal.performAll calls

end WriteAheadLog

variable {wal wal' : WriteAheadLog} {d d' : Disk} {records : List (Event × Nat)}

theorem append_runs_iff {event : Event} : Runs (wal.append event) () d wal' () d' ↔
    (canonicalEvent event).toList.length ≤ maxPayloadBytes ∧
    wal' = ⟨wal.events ++ [event], wal.recordEnds ++ [wal.fileEnd + (recordOf event).length]⟩ ∧
    d' = { d with wal := some (d.wal.getD [] ++ recordOf event), tail := [] } := by
  by_cases hsize : (canonicalEvent event).toList.length ≤ maxPayloadBytes
  · have hruns : Runs (wal.append event) () d _ () _ := .of_bind (encodeRecord_ok hsize) ⟨rfl, rfl, rfl⟩
    constructor
    · intro h
      exact ⟨hsize, Except.ok.inj (h.result.symm.trans hruns.result), h.disk.symm.trans hruns.disk⟩
    · rintro ⟨-, rfl, rfl⟩
      exact hruns
  · refine ⟨fun h => ?_, fun h => absurd h.1 hsize⟩
    have hresult := h.result
    unfold WriteAheadLog.append encodeRecord at hresult
    rw [if_pos (not_le.mp hsize)] at hresult
    cases hresult

theorem truncateAfter_runs {index : Nat} (h : Runs (wal.truncateAfter index) () d wal' () d') : ∃ n,
    wal' = ⟨wal.events.take n, wal.recordEnds.take n⟩ ∧ d' = { d with wal := d.wal.map (·.take wal'.fileEnd), tail := [] } := by
  have hruns : Runs (wal.truncateAfter index) () d _ () _ := ⟨rfl, rfl, rfl⟩
  obtain rfl := Except.ok.inj (hruns.result.symm.trans h.result)
  exact ⟨_, rfl, h.disk.symm⟩

theorem rewrite_cases {events : List Event} (h : Runs (WriteAheadLog.rewrite events) () d wal' () d') :
    ∃ file, encodeWal events = .ok file ∧
      Runs (WriteAheadLog.load : Store Unit WriteAheadLog) () { d with wal := some file, tail := [] } wal' () d' := by
  cases hfile : encodeWal events with
  | error e =>
    have hresult := h.result
    unfold WriteAheadLog.rewrite at hresult
    rw [hfile] at hresult
    cases hresult
  | ok file =>
    unfold WriteAheadLog.rewrite at h
    rw [hfile] at h
    exact ⟨file, rfl, h.result, h.memory, h.disk⟩

theorem Holds.open (h : Holds records d) : Runs (WriteAheadLog.open : Store Unit WriteAheadLog) () d (logOf records) () d := by
  obtain ⟨file, held, -⟩ := h.held
  refine .disk_bind ?_
  rw [held]
  exact h.load

theorem open_cases (h : Runs (WriteAheadLog.open : Store Unit WriteAheadLog) () d wal () d') :
    ∃ d₁, Runs (WriteAheadLog.load : Store Unit WriteAheadLog) () d₁ wal () d' := by
  obtain ⟨_, _, _, -, h⟩ := h.bind_cases
  split at h
  · obtain ⟨_, _, _, -, h⟩ := h.bind_cases
    obtain ⟨_, _, _, -, h⟩ := h.bind_cases
    exact ⟨_, h⟩
  · exact ⟨_, h⟩

/-- An event whose text re-parses to itself. -/
def Reparses (event : Event) : Prop := parseEvent (canonicalEvent event) = .ok event

theorem Reparses.logged {event : Event} (h : Reparses event) (size : (canonicalEvent event).toList.length ≤ maxPayloadBytes) :
    Logged event := ⟨fits_of_parseEvent h, h, size⟩

theorem Holds.append (h : Holds records d) {event : Event} (logged : Logged event) :
    Holds (records ++ [(event, (logOf records).fileEnd + (recordOf event).length)])
      { d with wal := some (d.wal.getD [] ++ recordOf event), tail := [] } := by
  obtain ⟨file, held, hread, hlength⟩ := h.held
  have hcut := (readWal_cut hread records.length (recordOf event)).2
  have hscan := scan_file (List.forall_mem_singleton.mpr logged) Torn.nil (logOf records).fileEnd
  rw [List.append_nil, recordsOf_singleton] at hscan
  rw [List.take_length, ← hlength, List.take_length, hlength, hscan] at hcut
  refine ⟨_, rfl, ?_, ?_⟩
  · rw [held]
    exact hcut
  · rw [held, Option.getD_some, List.length_append, hlength]
    simp [logOf, WriteAheadLog.fileEnd]

theorem Holds.perform (h : Holds records d) {call : WalCall} (texts : ∀ event, call = .append event → Reparses event)
    (run : Runs ((logOf records).perform call) () d wal' () d') : ∃ records', wal' = logOf records' ∧ Holds records' d' := by
  cases call with
  | append event =>
    obtain ⟨hsize, rfl, rfl⟩ := append_runs_iff.mp run
    refine ⟨_, ?_, h.append ((texts event rfl).logged hsize)⟩
    simp [logOf]
  | truncateAfter index =>
    obtain ⟨n, hkept, rfl⟩ := truncateAfter_runs run
    obtain ⟨file, held, hread, hlength⟩ := h.held
    have hlog : wal' = logOf (records.take n) := by
      rw [hkept, logOf, logOf, List.map_take, List.map_take]
    refine ⟨_, hlog, .cut hread n ?_⟩
    rw [held, ← hlog]
    rfl
  | rewrite events =>
    obtain ⟨file, -, hload⟩ := rewrite_cases run
    exact load_holds hload

/-! ### The encoding -/

/-- The file is the encoding of the events. -/
def Encoded (wal : WriteAheadLog) (d : Disk) : Prop := ∃ file, d.wal = some file ∧ encodeWal wal.events = .ok file

/-- The offsets are those of the encoding, too. -/
structure Exact (wal : WriteAheadLog) (d : Disk) : Prop where
  log : wal = walOf wal.events
  file : d.wal = some (walFile wal.events)
  size : ∀ e ∈ wal.events, (canonicalEvent e).toList.length ≤ maxPayloadBytes

theorem Exact.encoded (h : Exact wal d) : Encoded wal d := ⟨_, h.file, encodeWal_ok h.size⟩

theorem scan_fits {offset : Nat} {rest : File} (h : scan offset rest = .ok records) : ∀ r ∈ records, r.1.Fits := by
  induction records generalizing offset rest with
  | nil => nofun
  | cons r records ih =>
    obtain ⟨size, -, -, hfits, -, hmore⟩ := scan_cases h
    exact List.forall_mem_cons.mpr ⟨hfits, ih hmore⟩

theorem Holds.exact (h : Holds records d) (encoded : Encoded (logOf records) d) : Exact (logOf records) d := by
  obtain ⟨file, held, hread, -⟩ := h.held
  obtain ⟨_, hfile, hencode⟩ := encoded
  obtain rfl := Option.some.inj (held.symm.trans hfile)
  obtain ⟨rfl, hsize⟩ := encodeWal_cases hencode
  rw [walFile, readWal_header] at hread
  refine ⟨?_, held, hsize⟩
  have hwritable : ∀ e ∈ records.map Prod.fst, Writable e := fun e he => by
    obtain ⟨r, hr, rfl⟩ := List.mem_map.mp he
    exact ⟨scan_fits hread r hr, hsize _ he⟩
  have hwritten := scan_written hwritable fileHeaderBytes []
  change scan fileHeaderBytes (recordsOf (records.map Prod.fst)) = .ok records at hread
  rw [List.append_nil, hread, scan_of_none readRecord_nil] at hwritten
  obtain ⟨stored, hstored, hwritten⟩ := bind_ok hwritten.symm
  have hrecords : stored.zip (endsFrom fileHeaderBytes (records.map Prod.fst)) ++ [] = records := Except.ok.inj hwritten
  rw [List.append_nil] at hrecords
  have hends := congrArg (List.map Prod.snd) hrecords
  rw [List.map_snd_zip (by rw [length_mapM_readBack hstored, length_endsFrom])] at hends
  unfold walOf logOf
  rw [hends]

theorem Exact.perform (h : Exact wal d) {call : WalCall} (rewrites : ∀ events, call = .rewrite events → ∀ e ∈ events, Reparses e)
    (run : Runs (wal.perform call) () d wal' () d') : Exact wal' d' := by
  cases call with
  | append event =>
    obtain ⟨hsize, hwal, rfl⟩ := append_runs_iff.mp run
    have hlog := walOf_append wal.events event
    rw [← h.log, ← hwal] at hlog
    have hevents : wal'.events = wal.events ++ [event] := by rw [hwal]
    refine ⟨by rw [hevents]; exact hlog.symm, ?_, ?_⟩
    · rw [hevents, walFile_append, recordsOf_singleton, h.file]
      rfl
    · rw [hevents]
      exact List.forall_mem_append.mpr ⟨h.size, List.forall_mem_singleton.mpr hsize⟩
  | truncateAfter index =>
    obtain ⟨n, hwal, rfl⟩ := truncateAfter_runs run
    have hevents : wal'.events = wal.events.take n := by rw [hwal]
    have hlog := walOf_take wal.events n
    rw [← h.log, ← hwal, ← hevents] at hlog
    refine ⟨hlog, ?_, fun e he => h.size e (List.mem_of_mem_take (hevents ▸ he))⟩
    have hsplit : walFile wal.events = walFile wal'.events ++ recordsOf (wal.events.drop n) := by
      rw [hevents, ← walFile_append, List.take_append_drop]
    rw [h.file, Option.map_some, hlog, fileEnd_walOf, hsplit]
    exact congrArg some (List.take_left' rfl)
  | rewrite events =>
    obtain ⟨file, hencode, hload⟩ := rewrite_cases run
    obtain ⟨rfl, hsize⟩ := encodeWal_cases hencode
    obtain ⟨d₁, hruns, hheld, -⟩ := load_cut (d := { d with wal := some (walFile events), tail := [] })
      (fun e he => (rewrites events rfl e he).logged (hsize e he)) Torn.nil (by rw [List.append_nil]) ()
    obtain rfl := Except.ok.inj (hruns.result.symm.trans hload.result)
    obtain rfl := hruns.disk.symm.trans hload.disk
    exact ⟨rfl, hheld, hsize⟩

/-! ### Runs -/

theorem performAll_spec {calls : List WalCall} (h : Holds records d) (run : Runs ((logOf records).performAll calls) () d wal' () d')
    (texts : ∀ event, .append event ∈ calls → Reparses event) : (∃ records', wal' = logOf records' ∧ Holds records' d') ∧
      ((∀ events, .rewrite events ∈ calls → ∀ e ∈ events, Reparses e) → Exact (logOf records) d → Exact wal' d') := by
  induction calls generalizing records d with
  | nil =>
    obtain ⟨hresult, -, hdisk⟩ := run
    cases hresult
    cases hdisk
    exact ⟨⟨records, rfl, h⟩, fun _ hexact => hexact⟩
  | cons call calls ih =>
    obtain ⟨wal₁, _, d₁, hcall, hrest⟩ := run.bind_cases
    obtain ⟨records₁, rfl, hholds⟩ := h.perform (fun event heq => texts event (heq ▸ List.mem_cons_self)) hcall
    obtain ⟨hmirror, hexact⟩ := ih hholds hrest fun event he => texts event (List.mem_cons_of_mem _ he)
    refine ⟨hmirror, fun rewrites hfirst => hexact (fun events he => rewrites events (List.mem_cons_of_mem _ he)) ?_⟩
    exact hfirst.perform (fun events heq => rewrites events (heq ▸ List.mem_cons_self)) hcall

/-- After any calls on an open log, loading its file anew gives the log in memory and leaves the file as it is. The file is
    the encoding of the events if it was when the log was opened, and only events that re-parse to themselves replaced it. -/
theorem log_mirrors_file {d₀ : Disk} {calls : List WalCall} (opened : Runs (WriteAheadLog.open : Store Unit WriteAheadLog) () d₀ wal () d)
    (performed : Runs (wal.performAll calls) () d wal' () d') (texts : ∀ event, .append event ∈ calls → Reparses event) :
    Runs (WriteAheadLog.load : Store Unit WriteAheadLog) () d' wal' () d' ∧
    (Encoded wal d → (∀ events, .rewrite events ∈ calls → ∀ e ∈ events, Reparses e) → Encoded wal' d') := by
  obtain ⟨d₁, hload⟩ := open_cases opened
  obtain ⟨records, rfl, hholds⟩ := load_holds hload
  obtain ⟨⟨records', rfl, hmirror⟩, hexact⟩ := performAll_spec hholds performed texts
  exact ⟨hmirror.load, fun hencoded hrewrites => (hexact hrewrites (hholds.exact hencoded)).encoded⟩

theorem log_mirrors_file_marker : ∃ d', Runs ((walOf []).performAll [.append (marker 1)]) () { wal := some walFileHeader } (walOf [marker 1]) () d' ∧
    Runs (WriteAheadLog.load : Store Unit WriteAheadLog) () d' (walOf [marker 1]) () d' ∧ Encoded (walOf [marker 1]) d' := by
  have hlogged := logged_markers (marker 1) List.mem_cons_self
  have hholds : Holds [] { wal := some walFileHeader } := ⟨_, rfl, by decide +kernel, rfl⟩
  have hperformed : Runs ((walOf []).performAll [.append (marker 1)]) () { wal := some walFileHeader } (walOf [marker 1]) () _ :=
    .bind (append_runs_iff.mpr ⟨hlogged.size, walOf_append [] (marker 1), rfl⟩) (.pure _)
  obtain ⟨hmirror, hencoded⟩ := log_mirrors_file hholds.open hperformed (fun event he => by
    rw [List.mem_singleton, WalCall.append.injEq] at he
    exact he ▸ hlogged.text)
  exact ⟨_, hperformed, hmirror, hencoded ⟨_, rfl, by decide +kernel⟩ (by simp)⟩

/-- A file with a reserved byte of its header set. -/
def reservedHeader : File :=
  let header := Bytes.ofText "CHOSWAL1" ++ Bytes.ofNat 2 1 ++ Bytes.ofNat 2 1
  header ++ Bytes.ofNat 4 (Bytes.crc32 header).toNat

/-- Such a file is opened, and it is not what the log would write. -/
theorem reserved_not_encoded : Runs (WriteAheadLog.open : Store Unit WriteAheadLog) () { wal := some reservedHeader } {} ()
    { wal := some reservedHeader } ∧ ¬Encoded {} { wal := some reservedHeader } := by
  have hholds : Holds [] { wal := some reservedHeader } := ⟨_, rfl, by decide +kernel, by decide +kernel⟩
  refine ⟨hholds.open, ?_⟩
  rintro ⟨file, hfile, hencode⟩
  obtain rfl := Option.some.inj hfile
  exact absurd hencode (by decide +kernel)

end Choreolog.Storage
