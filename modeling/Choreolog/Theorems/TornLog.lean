import Choreolog.Theorems.Codec

/-! # Loading a log that was cut short

A file that ends inside a record is cut back to the records that it holds as a whole. -/

namespace Choreolog.State
open Lib

/-! ### What parses fits -/

theorem orElseError_ok {α : Type} {message : String} {x : Result α} {a : α} (h : orElseError message x = .ok a) : x = .ok a := by
  cases x with
  | error e => cases h
  | ok b => exact h

theorem parseU64_lt {fields : Fields} {key : String} {n : Nat} (h : parseU64 fields key = .ok n) : n < 2 ^ 64 := by
  obtain ⟨raw, -, h⟩ := bind_ok h
  unfold Text.Numeral.unsigned at h
  dsimp only at h
  split at h
  · rename_i value hvalue
    split at hvalue
    · cases hvalue
    · rename_i hfits
      obtain rfl := Option.some.inj hvalue
      obtain rfl := Except.ok.inj h
      split
      · exact Nat.mod_lt _ (by decide)
      · omega
  · cases h

theorem fits_of_parseEvent {text : String} {event : Event} (h : parseEvent text = .ok event) : event.Fits := by
  obtain ⟨fields, -, h⟩ := bind_ok h
  obtain ⟨⟨schema, type, id, cmd, choreo, tick, index, term⟩, henvelope, h⟩ := bind_ok h
  obtain ⟨⟨type', id', commandId, choreographyId, tick', term'⟩, hvalues, h⟩ := bind_ok h
  obtain ⟨payload, -, h⟩ := bind_ok h
  obtain rfl := Except.ok.inj h
  have henvelope := orElseError_ok henvelope
  have hvalues := orElseError_ok hvalues
  obtain ⟨_, -, henvelope⟩ := bind_ok henvelope
  obtain ⟨_, -, henvelope⟩ := bind_ok henvelope
  obtain ⟨_, -, henvelope⟩ := bind_ok henvelope
  obtain ⟨_, -, henvelope⟩ := bind_ok henvelope
  obtain ⟨_, -, henvelope⟩ := bind_ok henvelope
  obtain ⟨_, -, henvelope⟩ := bind_ok henvelope
  obtain ⟨index', hindex, henvelope⟩ := bind_ok henvelope
  obtain ⟨rawTerm, hterm, henvelope⟩ := bind_ok henvelope
  cases henvelope
  obtain ⟨_, -, hvalues⟩ := bind_ok hvalues
  obtain ⟨_, -, hvalues⟩ := bind_ok hvalues
  obtain ⟨_, -, hvalues⟩ := bind_ok hvalues
  obtain ⟨_, -, hvalues⟩ := bind_ok hvalues
  obtain ⟨_, -, hvalues⟩ := bind_ok hvalues
  obtain ⟨checked, hchecked, hvalues⟩ := bind_ok hvalues
  cases hvalues
  unfold parseTerm at hchecked
  split at hchecked
  · cases hchecked
  · rename_i hpositive
    obtain rfl := Except.ok.inj hchecked
    exact ⟨parseU64_lt hindex, parseU64_lt hterm, Nat.pos_of_ne_zero hpositive⟩

end Choreolog.State

namespace Choreolog.Storage
open Lib State

variable {μ : Type} {s : μ} {d : Disk}

/-! ### Loading -/

theorem load_of_ok {file : File} {records : List (Event × Nat)} {wal : WriteAheadLog} (held : d.wal = some file)
    (read : readWal file = .ok records) (hwal : wal = ⟨records.map Prod.fst, records.map Prod.snd⟩) (s : μ) :
    Program.Runs (WriteAheadLog.load : Store μ WriteAheadLog) s d wal s (if wal.fileEnd < file.length then
      { d with wal := some (file.take wal.fileEnd), tail := file.drop wal.fileEnd ++ d.tail } else d) := by
  subst hwal
  have hload : (WriteAheadLog.load : Store μ WriteAheadLog) s d = (Program.of (readWal file) >>= fun records =>
      let wal : WriteAheadLog := ⟨records.map Prod.fst, records.map Prod.snd⟩
      if wal.fileEnd < file.length then do
        shrinkWal wal.fileEnd
        return wal
      else return wal : Store μ WriteAheadLog) s d := by
    unfold WriteAheadLog.load
    rw [Program.disk_bind, held]
  rw [read, Program.of_ok_bind] at hload
  split at hload
  · rename_i hless
    rw [if_pos hless]
    refine ⟨by rw [hload]; rfl, by rw [hload]; rfl, ?_⟩
    rw [hload]
    change ({ d with wal := _, tail := _ } : Disk) = _
    rw [held]
    rfl
  · rename_i hless
    rw [if_neg hless]
    exact ⟨by rw [hload]; rfl, by rw [hload]; rfl, by rw [hload]; rfl⟩

theorem load_of_error {file : File} {e : Error} (held : d.wal = some file) (read : readWal file = .error e) (s : μ) :
    (WriteAheadLog.load : Store μ WriteAheadLog) s d = ⟨.error e, s, d, []⟩ := by
  unfold WriteAheadLog.load
  rw [Program.disk_bind, held]
  change (Program.of (readWal file) >>= _ : Store μ WriteAheadLog) s d = _
  rw [read, Program.of_error_bind]

/-- A log from its records. -/
theorem unzip_log {events : List Event} {ends : List Nat} (h : events.length = ends.length) :
    (⟨events, ends⟩ : WriteAheadLog) = ⟨(events.zip ends).map Prod.fst, (events.zip ends).map Prod.snd⟩ := by
  rw [List.map_fst_zip h.le, List.map_snd_zip h.ge]

theorem mapM_encodeRecord {events : List Event} {records : List File} (h : events.mapM encodeRecord = .ok records) :
    records = events.map recordOf ∧ ∀ e ∈ events, (canonicalEvent e).toList.length ≤ maxPayloadBytes := by
  induction events generalizing records with
  | nil =>
    cases h
    exact ⟨rfl, List.forall_mem_nil _⟩
  | cons event events ih =>
    rw [List.mapM_cons] at h
    obtain ⟨record, hrecord, h⟩ := bind_ok h
    obtain ⟨more, hmore, h⟩ := bind_ok h
    obtain rfl := Except.ok.inj h
    obtain ⟨rfl, hsizes⟩ := ih hmore
    unfold encodeRecord at hrecord
    split at hrecord
    · cases hrecord
    · rename_i hsize
      obtain rfl := Except.ok.inj hrecord
      exact ⟨rfl, List.forall_mem_cons.mpr ⟨not_lt.mp hsize, hsizes⟩⟩

theorem encodeWal_cases {events : List Event} {file : File} (h : encodeWal events = .ok file) :
    file = walFile events ∧ ∀ e ∈ events, (canonicalEvent e).toList.length ≤ maxPayloadBytes := by
  obtain ⟨records, hrecords, h⟩ := bind_ok h
  obtain rfl := Except.ok.inj h
  obtain ⟨rfl, hsizes⟩ := mapM_encodeRecord hrecords
  exact ⟨rfl, hsizes⟩

/-! ### Torn files -/

/-- The events whose records end within the first `length` bytes of the log. -/
def wholeIn (length : Nat) (events : List Event) : List Event :=
  ((events.zip (endsFrom fileHeaderBytes events)).filter fun r => decide (r.2 ≤ length)).map Prod.fst

theorem le_endsFrom {offset : Nat} {events : List Event} : ∀ n ∈ endsFrom offset events, offset ≤ n := by
  induction events generalizing offset with
  | nil => nofun
  | cons event events ih =>
    intro n hn
    rcases List.mem_cons.mp hn with rfl | hn
    · exact Nat.le_add_right _ _
    · exact (Nat.le_add_right _ _).trans (ih n hn)

/-- A cut leaves the records before it and a part of the next one. -/
theorem cut_records {events : List Event} {part : File} (logged : ∀ e ∈ events, Logged e) (cut : part <+: recordsOf events)
    (offset : Nat) : ∃ kept torn, part = recordsOf kept ++ torn ∧ Torn torn ∧ (∀ e ∈ kept, Logged e) ∧
      ((events.zip (endsFrom offset events)).filter fun r => decide (r.2 ≤ offset + part.length)).map Prod.fst = kept := by
  induction events generalizing part offset with
  | nil =>
    obtain rfl := List.prefix_nil.mp cut
    exact ⟨[], [], rfl, .inl rfl, List.forall_mem_nil _, rfl⟩
  | cons event events ih =>
    rw [recordsOf_cons] at cut
    by_cases hwhole : (recordOf event).length ≤ part.length
    · -- The first record is whole; the cut is in the rest.
      obtain ⟨rest, rfl⟩ := List.prefix_of_prefix_length_le (List.prefix_append _ _) cut hwhole
      have hcut : rest <+: recordsOf events := (List.prefix_append_right_inj _).mp cut
      obtain ⟨kept, torn, rfl, htorn, hkept, hfilter⟩ := ih (fun e he => logged e (List.mem_cons_of_mem _ he)) hcut
        (offset + (recordOf event).length)
      refine ⟨event :: kept, torn, by rw [recordsOf_cons, List.append_assoc], htorn,
        List.forall_mem_cons.mpr ⟨logged event List.mem_cons_self, hkept⟩, ?_⟩
      rw [Nat.add_assoc, ← List.length_append] at hfilter
      rw [endsFrom, List.zip_cons_cons, List.filter_cons_of_pos (by simp), List.map_cons, hfilter]
    · refine ⟨[], part, rfl, .inr ⟨event, logged event List.mem_cons_self, ?_, by omega⟩, List.forall_mem_nil _, ?_⟩
      · exact List.prefix_of_prefix_length_le cut (List.prefix_append _ _) (by omega)
      · rw [List.map_eq_nil_iff, List.filter_eq_nil_iff]
        rintro ⟨e, n⟩ hmem hle
        have hn := List.of_mem_zip hmem |>.2
        rw [decide_eq_true_eq] at hle
        rw [endsFrom] at hn
        rcases List.mem_cons.mp hn with rfl | hn
        · dsimp only at hle
          omega
        · have := le_endsFrom n hn
          dsimp only at hle
          omega

theorem Torn.nil : Torn [] := .inl rfl

/-- A file that holds whole records and a part of one more is cut back to the records. -/
theorem load_cut {kept : List Event} {torn : File} (logged : ∀ e ∈ kept, Logged e) (htorn : Torn torn)
    (held : d.wal = some (walFile kept ++ torn)) (s : μ) :
    ∃ d', Program.Runs (WriteAheadLog.load : Store μ WriteAheadLog) s d (walOf kept) s d' ∧ d'.wal = some (walFile kept) ∧
      (torn = [] → d' = d) := by
  have hwal : walOf kept = ⟨_, _⟩ := unzip_log (length_endsFrom _ _).symm
  have hruns := load_of_ok held (readWal_file logged htorn) hwal s
  rw [fileEnd_walOf, List.take_left, List.drop_left] at hruns
  refine ⟨_, hruns, ?_, ?_⟩
  · split
    · rfl
    · rename_i hless
      rw [List.length_append] at hless
      have hnil : torn = [] := List.length_eq_zero_iff.mp (by omega)
      rw [held, hnil, List.append_nil]
  · rintro rfl
    rw [List.append_nil, if_neg (lt_irrefl _)]

/-- Loading any cut of a log that keeps its header gives exactly the events whose records are whole and cuts
    the file back to the end of the last of them; loading again changes nothing. -/
theorem load_torn {events : List Event} {file part : File} (texts : ∀ e ∈ events, parseEvent (canonicalEvent e) = .ok e)
    (encoded : encodeWal events = .ok file) (cut : part <+: file) (header : fileHeaderBytes ≤ part.length) (s : μ)
    (held : d.wal = some part) :
    ∃ d', Program.Runs (WriteAheadLog.load : Store μ WriteAheadLog) s d (walOf (wholeIn part.length events)) s d' ∧
      d'.wal = some (part.take (walOf (wholeIn part.length events)).fileEnd) ∧
      encodeWal (wholeIn part.length events) = .ok (part.take (walOf (wholeIn part.length events)).fileEnd) ∧
      Program.Runs (WriteAheadLog.load : Store μ WriteAheadLog) s d' (walOf (wholeIn part.length events)) s d' := by
  obtain ⟨rfl, hsizes⟩ := encodeWal_cases encoded
  have hlogged : ∀ e ∈ events, Logged e := fun e he => ⟨fits_of_parseEvent (texts e he), texts e he, hsizes e he⟩
  obtain ⟨rest, rfl⟩ : walFileHeader <+: part :=
    List.prefix_of_prefix_length_le (List.prefix_append _ _) cut (length_walFileHeader.trans_le header)
  have hcut : rest <+: recordsOf events := (List.prefix_append_right_inj _).mp cut
  obtain ⟨kept, torn, rfl, htorn, hkept, hfilter⟩ := cut_records hlogged hcut fileHeaderBytes
  have hwhole : wholeIn (walFileHeader ++ (recordsOf kept ++ torn)).length events = kept := by
    rw [wholeIn, List.length_append, length_walFileHeader, hfilter]
  have hfile : walFileHeader ++ (recordsOf kept ++ torn) = walFile kept ++ torn := by rw [walFile, List.append_assoc]
  rw [hwhole, hfile, fileEnd_walOf, List.take_left]
  rw [hfile] at held
  obtain ⟨d', hruns, hwal, -⟩ := load_cut hkept htorn held s
  obtain ⟨d'', hagain, -, hsame⟩ := load_cut hkept .nil (hwal.trans (by rw [List.append_nil])) s
  obtain rfl := hsame rfl
  exact ⟨_, hruns, hwal, encodeWal_ok fun e he => (hkept e he).size, hagain⟩

/-- A no-op at an index. -/
def marker (index : Nat) : Event :=
  { id := ⟨"noop", Eq.refl true⟩, commandId := ⟨"noop", Eq.refl true⟩, choreographyId := ⟨"system", Eq.refl true⟩, type := .noOp
    schemaVersion := currentSchemaVersion, tick := ⟨0, MusicalTick.zero_lt⟩, index, term := 1
    payload := .create ⟨⟨"system", Eq.refl true⟩, unitStage, .forbidden, 0⟩ }

theorem parse_marker {index : Nat} (h : index < 2 ^ 64) : parseEvent (canonicalEvent (marker index)) = .ok (marker index) :=
  parseEvent_canonicalEvent ⟨h, (by decide : 1 < 2 ^ 64), Nat.one_pos⟩ trivial

theorem logged_markers : ∀ e ∈ [marker 1, marker 2], Logged e := by
  intro e he
  simp only [List.mem_cons, List.not_mem_nil, or_false] at he
  rcases he with rfl | rfl
  · exact ⟨⟨by decide, by decide, by decide⟩, parse_marker (by decide), by decide +kernel⟩
  · exact ⟨⟨by decide, by decide, by decide⟩, parse_marker (by decide), by decide +kernel⟩

theorem load_torn_marker : wholeIn 200 [marker 1, marker 2] = [marker 1] ∧
    ∃ d', Program.Runs (WriteAheadLog.load : Store Unit WriteAheadLog) () { wal := some ((walFile [marker 1, marker 2]).take 200) }
      (walOf [marker 1]) () d' := by
  have hwhole : wholeIn 200 [marker 1, marker 2] = [marker 1] := by decide +kernel
  have hlen : ((walFile [marker 1, marker 2]).take 200).length = 200 := by decide +kernel
  obtain ⟨d', hruns, -⟩ := load_torn (fun e he => (logged_markers e he).text) (encodeWal_ok fun e he => (logged_markers e he).size) (List.take_prefix 200 _)
    ((by decide : fileHeaderBytes ≤ 200).trans_eq hlen.symm) () (rfl : ({ wal := some ((walFile [marker 1, marker 2]).take 200) } : Disk).wal = _)
  rw [hlen, hwhole] at hruns
  exact ⟨hwhole, d', hruns⟩

end Choreolog.Storage
