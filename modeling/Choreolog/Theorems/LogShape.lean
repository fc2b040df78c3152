import Choreolog.Theorems.CrashRecovery
import Choreolog.Theorems.StoreRuns

/-! # The shape of a store's log

What `log_entry`, `last_log_index`, `log_first_index` and `log_term_at` rely on. The log as if nothing had been dropped
from it is numbered from one; the store holds it from some entry on, which comes no later than the one after its newest
snapshot, and as far as the commit index at least. Every operation keeps this, whether it succeeds, is refused or fails,
and so does opening the directory again. -/

namespace Choreolog.Storage
open Lib State
open Lib.Program (Runs Triple)

/-! ### The shape -/

/-- The index of the newest snapshot. -/
def FileEngine.boundary (s : FileEngine) : Nat := (s.snapshot.map (·.index)).getD 0

/-- The store holds `log` without its first `b` entries. -/
structure Shaped (log : List Event) (b : Nat) (s : FileEngine) : Prop where
  cluster : s.options.commitOnAppend = false
  wal : s.wal = walOf (log.drop b)
  indexed : Indexed log
  short : log.length < maxIndex
  applied : s.state.lastApplied = s.commitIndex
  base : b ≤ s.boundary
  boundary : s.boundary ≤ s.commitIndex
  reach : s.commitIndex ≤ log.length

/-- The files agree with the store: the log file, the commit index in the metadata, and the names of the snapshots. -/
structure Backed (log : List Event) (b : Nat) (s : FileEngine) (d : Disk) : Prop extends Shaped log b s where
  file : d.wal = some (walFile (log.drop b))
  logged : ∀ e ∈ log.drop b, Logged e
  metadata : ∀ m, MetaHeld m d.metadata → m.commitIndex = s.commitIndex
  names : ∀ file ∈ snapshotFiles d, file.index ≤ s.commitIndex
  journal : d.journal = none

def Keeping (s : FileEngine) (d : Disk) : Prop := ∃ log b, Backed log b s d

section Shape
variable {log : List Event} {b : Nat} {s : FileEngine} {d : Disk}

theorem Shaped.le_length (h : Shaped log b s) : b ≤ log.length := h.base.trans (h.boundary.trans h.reach)

theorem Shaped.lastLogIndex (h : Shaped log b s) : s.lastLogIndex = log.length := by
  refine lastLogIndex_walOf h.wal h.indexed fun hempty => ?_
  have := h.base.trans h.boundary
  have := h.reach
  rw [h.applied]
  omega

theorem Shaped.logFirstIndex (h : Shaped log b s) : s.logFirstIndex = b + 1 := by
  unfold FileEngine.logFirstIndex
  rw [h.wal]
  simp only [walOf]
  cases hfirst : (log.drop b).head? with
  | none =>
    have hempty := List.drop_eq_nil_iff.mp (List.head?_eq_none_iff.mp hfirst)
    have hbase := h.base.trans h.boundary
    have hreach := h.reach
    have hb : s.commitIndex = b := by omega
    dsimp only
    rw [h.applied, hb]
  | some first => exact h.indexed.head hfirst

theorem Shaped.logEntry (h : Shaped log b s) (i : Nat) : s.wal.logEntry i = if b < i then log[i - 1]? else none := by
  rw [h.wal]
  exact logEntry_walOf h.indexed b i

/-- The entries in the file are there, and so is the term of the snapshot that comes right before them. -/
theorem Shaped.logTermAt (h : Shaped log b s) {i : Nat} (low : s.boundary ≤ i) (high : i ≤ log.length) :
    (s.logTermAt i).isSome = true := by
  unfold FileEngine.logTermAt
  by_cases hzero : i = 0
  · rw [if_pos hzero]
    rfl
  · rw [if_neg hzero, h.logEntry]
    by_cases hb : b < i
    · rw [if_pos hb, List.getElem?_eq_getElem (by omega)]
      rfl
    · rw [if_neg hb]
      have hbase := h.base
      have hi : s.boundary = i := by omega
      unfold FileEngine.boundary at hi
      cases hsnapshot : s.snapshot with
      | none =>
        rw [hsnapshot] at hi
        exact absurd hi.symm hzero
      | some snapshot =>
        rw [hsnapshot] at hi
        have hindex : snapshot.index = i := hi
        simp [hindex]

/-- Fields that the shape does not mention may change. -/
theorem Backed.same (h : Backed log b s d) {s' : FileEngine} (options : s'.options = s.options) (wal : s'.wal = s.wal)
    (applied : s'.state.lastApplied = s.state.lastApplied) (commit : s'.commitIndex = s.commitIndex)
    (snapshot : s'.snapshot = s.snapshot) : Backed log b s' d := by
  have hboundary : s'.boundary = s.boundary := by
    unfold FileEngine.boundary
    rw [snapshot]
  refine ⟨⟨?_, ?_, h.indexed, h.short, ?_, ?_, ?_, ?_⟩, h.file, h.logged, ?_, ?_, h.journal⟩
  · rw [options]
    exact h.cluster
  · rw [wal]
    exact h.wal
  · rw [applied, commit]
    exact h.applied
  · rw [hboundary]
    exact h.base
  · rw [hboundary, commit]
    exact h.boundary
  · rw [commit]
    exact h.reach
  · rw [commit]
    exact h.metadata
  · rw [commit]
    exact h.names

theorem Keeping.recovery (h : Keeping s d) : Keeping { s with recoveryRequired := true } d := by
  obtain ⟨log, b, h⟩ := h
  exact ⟨log, b, h.same rfl rfl rfl rfl rfl⟩

theorem Backed.retained (h : Backed log b s d) {anchor : Nat} {s' : FileEngine} (ok : s.retained anchor = .ok s') : Backed log b s' d := by
  unfold FileEngine.retained at ok
  split at ok
  · obtain ⟨state, hstate, ok⟩ := bind_ok ok
    cases ok
    exact h.same rfl rfl (congrArg Domain.lastApplied (retainStateHistoryFrom_cases hstate).domain) rfl rfl
  · cases ok
    exact h

end Shape

/-! ### Operations -/

/-- Whatever comes of it, the program leaves a store of this shape. -/
abbrev Shapes {α : Type} (pre : FileEngine → Disk → Prop) (m : Store FileEngine α) : Prop :=
  Triple pre m (fun _ s d => Keeping s d) (fun _ s d => Keeping s d) fun _ => True

section Operations
variable {log : List Event} {b : Nat} {e : FileEngine}

theorem shapes_checked {α : Type} {pre : FileEngine → Disk → Prop} {m : Store FileEngine α} (h : Shapes pre m) :
    Shapes pre (FileEngine.checkedMutation m) := .onError h fun _ _ _ h => h.recovery

theorem shapes_requireWritable : Shapes Keeping FileEngine.requireWritable :=
  .bind_memory fun _ => .ite (fun _ => .strengthen .fail fun _ _ h => h.2) fun _ => .strengthen (.pure ()) fun _ _ h => h.2

/-- An operation first checks that the store can be written, then reads its memory. -/
theorem shapes_writable {f : FileEngine → Store FileEngine Unit}
    (h : ∀ e log b, Shapes (fun s d => s = e ∧ Backed log b s d) (f e)) :
    Shapes Keeping (do FileEngine.requireWritable; f (← .memory)) := by
  refine .bind _ shapes_requireWritable fun _ => .bind_memory fun e => ?_
  rintro s d ⟨rfl, log, b, hkept⟩
  exact h s log b s d ⟨rfl, hkept⟩

theorem shapes_return {pre : FileEngine → Disk → Prop} (h : ∀ s d, pre s d → Keeping s d) :
    Shapes pre (pure () : Store FileEngine Unit) := .strengthen (.pure ()) h

theorem shapes_fail {pre : FileEngine → Disk → Prop} {α : Type} {x : Error} (h : ∀ s d, pre s d → Keeping s d) :
    Shapes pre (.fail x : Store FileEngine α) := .strengthen .fail h

/-- A result that could not be computed. -/
theorem shapes_error {pre : FileEngine → Disk → Prop} {α β : Type} {x : Except Error α} {error : Error} (hx : x = .error error)
    {f : α → Store FileEngine β} (h : ∀ s d, pre s d → Keeping s d) : Shapes pre (Program.of x >>= f) := by
  subst hx
  exact fun s d hs => ⟨nofun, h s d hs⟩

/-- A program whose run is known. -/
theorem shapes_runs {pre : FileEngine → Disk → Prop} {m : Store FileEngine Unit}
    (h : ∀ s d, pre s d → ∃ s' d', Runs m s d () s' d' ∧ Keeping s' d') : Shapes pre m := by
  intro s d hs
  obtain ⟨s', d', ⟨hresult, hmemory, hdisk⟩, hkeeping⟩ := h s d hs
  refine ⟨fun _ _ => trivial, ?_⟩
  rw [hresult, hmemory, hdisk]
  exact hkeeping

/-- A first step whose run is known. -/
theorem triple_runs {α β : Type} {pre : FileEngine → Disk → Prop} {m : Store FileEngine α} {f : α → Store FileEngine β}
    {post : β → FileEngine → Disk → Prop} {error : Error → FileEngine → Disk → Prop} (a : α) (mid : FileEngine → Disk → Prop)
    (first : ∀ s d, pre s d → ∃ s' d', Runs m s d a s' d' ∧ mid s' d') (rest : Triple mid (f a) post error fun _ => True) :
    Triple pre (m >>= f) post error fun _ => True := by
  intro s d hs
  obtain ⟨s', d', ⟨hresult, rfl, rfl⟩, hmid⟩ := first s d hs
  rw [Program.bind_of_ok hresult]
  exact ⟨fun _ _ => trivial, (rest _ _ hmid).2⟩

/-! ### Appending and truncating -/

theorem Backed.append {s : FileEngine} {d : Disk} (h : Backed log b s d) {event : Event} (logged : Logged event) (next : event.index = log.length + 1)
    (short : event.index < maxIndex) : Backed (log ++ [event]) b { s with wal := walOf ((log ++ [event]).drop b) }
      { d with wal := some (walFile ((log ++ [event]).drop b)), tail := [] } := by
  have hlength : (log ++ [event]).length = log.length + 1 := by simp
  refine { h with
    wal := rfl
    indexed := h.indexed.append next
    short := by omega
    reach := h.reach.trans (by omega)
    file := rfl
    logged := fun e he => ?_ }
  rw [List.drop_append_of_le_length h.le_length] at he
  rcases List.mem_append.mp he with he | he
  · exact h.logged e he
  · rw [List.mem_singleton.mp he]
    exact logged

theorem appendEvent_shapes {event : Event} (fits : event.Fits) (text : parseEvent (canonicalEvent event) = .ok event)
    (short : event.index < maxIndex) : Shapes Keeping (FileEngine.appendEvent event) := by
  refine shapes_writable fun e log b => .ite (fun _ => shapes_fail fun s d h => ⟨log, b, h.2⟩) fun hnext =>
    .ite (fun _ => shapes_fail fun s d h => ⟨log, b, h.2⟩) fun hsize => shapes_runs ?_
  rintro s d ⟨rfl, h⟩
  rw [not_not, h.lastLogIndex] at hnext
  rw [not_lt] at hsize
  exact ⟨_, _, checked_runs ((append_runs h.wal h.file h.le_length hsize).bind (.assign _)), _, _,
    h.append ⟨fits, text, hsize⟩ hnext short⟩

theorem Backed.truncate {s : FileEngine} {d : Disk} (h : Backed log b s d) {index : Nat} (committed : s.commitIndex ≤ index) :
    Backed (log.take index) b { s with wal := walOf ((log.take index).drop b) }
      { d with wal := some (walFile ((log.take index).drop b)), tail := [] } := by
  refine { h with
    wal := rfl
    indexed := h.indexed.take index
    short := (List.length_take_le' _ _).trans_lt h.short
    reach := ?_
    file := rfl
    logged := fun e he => ?_ }
  · change s.commitIndex ≤ (log.take index).length
    rw [List.length_take]
    exact le_min committed h.reach
  · rw [List.drop_take] at he
    exact h.logged e (List.mem_of_mem_take he)

theorem truncateAfter_shapes (index : Nat) : Shapes Keeping (FileEngine.truncateAfter index) := by
  refine shapes_writable fun e log b => .ite (fun _ => shapes_fail fun s d h => ⟨log, b, h.2⟩) fun hcommitted => shapes_runs ?_
  rintro s d ⟨rfl, h⟩
  exact ⟨_, _, checked_runs ((truncate_runs h.wal h.file h.indexed index).bind (.assign _)), _, _, h.truncate (not_lt.mp hcommitted)⟩

/-! ### Metadata -/

theorem loadMetadata_triple {μ : Type} {pre : μ → Disk → Prop} {error : Error → μ → Disk → Prop} {crash : Disk → Prop}
    (failed : ∀ x s d, pre s d → error x s d) :
    Triple pre (loadMetadata : Store μ NodeMetadata) (fun m s d => MetaHeld m d.metadata ∧ pre s d) error crash := by
  refine .bind_disk fun d => ?_
  cases hfile : d.metadata with
  | none =>
    refine .strengthen (.pure _) ?_
    rintro s d' ⟨rfl, h⟩
    exact ⟨by rw [hfile]; rfl, h⟩
  | some file =>
    refine .of ?_ fun x s d' _ h => failed x s d' h.2
    rintro m s d' hm ⟨rfl, h⟩
    exact ⟨by rw [hfile]; exact hm, h⟩

theorem decodeMetadata_reads {m : NodeMetadata} {file : File} (h : decodeMetadata file = .ok m) : m.commitIndex = readU 8 20 file := by
  unfold decodeMetadata at h
  split at h
  · cases h
  · split at h
    · cases h
    · split at h
      · cases h
      · dsimp only at h
        split at h
        · cases h
        · split at h
          · cases h
          · obtain ⟨term, -, h⟩ := bind_ok h
            split at h
            · cases h
              rfl
            · obtain ⟨vote, -, h⟩ := bind_ok h
              cases h
              rfl

/-- Whatever else the metadata holds, it gives its commit index back. -/
theorem decodeMetadata_commit {m m' : NodeMetadata} {file : File} (bound : m.commitIndex < 2 ^ 64) (encoded : encodeMetadata m = .ok file)
    (decoded : decodeMetadata file = .ok m') : m'.commitIndex = m.commitIndex := by
  obtain rfl := Except.ok.inj ((encodeMetadata_eq m).symm.trans encoded)
  rw [decodeMetadata_reads decoded]
  exact readU_commit bound _

/-- Metadata with another term and vote is stored. -/
theorem Backed.storeMetadata {s : FileEngine} {d : Disk} (h : Backed log b s d) {m : NodeMetadata} (same : m.commitIndex = s.commitIndex) {file : File}
    (encoded : encodeMetadata m = .ok file) : Backed log b s { d with metadata := some file } := by
  have hbound : m.commitIndex < 2 ^ 64 := same ▸ (h.reach.trans_lt h.short).trans (by decide)
  exact { h with metadata := fun m' hm' => (decodeMetadata_commit hbound encoded hm').trans same }

theorem persistConsensus_shapes (term : Nat) (vote : Option NodeId) : Shapes Keeping (FileEngine.persistConsensus term vote) := by
  refine .bind _ shapes_requireWritable fun _ => .bind (fun m s d => MetaHeld m d.metadata ∧ Keeping s d)
    (.onError (loadMetadata_triple fun _ _ _ h => h) fun _ _ _ h => h.recovery) fun m => .ite (fun _ => shapes_fail fun _ _ h => h.2) fun _ => ?_
  refine shapes_runs ?_
  rintro s d ⟨hheld, log, b, h⟩
  refine ⟨s, _, checked_runs (.of_bind (encodeMetadata_eq _) ⟨rfl, rfl, rfl⟩), log, b, h.storeMetadata ?_ (encodeMetadata_eq _)⟩
  exact h.metadata m hheld

/-! ### Compaction and snapshots -/

theorem rewrite_runs {μ : Type} {events : List Event} (logged : ∀ e ∈ events, Logged e) (s : μ) (d : Disk) :
    Runs (WriteAheadLog.rewrite events) s d (walOf events) s { d with wal := some (walFile events), tail := [] } := by
  have hwrite : Runs (writeWal (walFile events) : Store μ Unit) s d () s { d with wal := some (walFile events), tail := [] } := ⟨rfl, rfl, rfl⟩
  refine .of_bind (encodeWal_ok fun e he => (logged e he).size) (hwrite.bind ?_)
  refine ⟨?_, ?_, ?_⟩ <;> rw [load_file logged s rfl]

/-- The log loses entries that the newest snapshot covers. -/
theorem Backed.rebase {s : FileEngine} {d : Disk} (h : Backed log b s d) (b' : Nat) (later : b ≤ b') (covered : b' ≤ s.boundary) :
    Backed log b' { s with wal := walOf (log.drop b') } { d with wal := some (walFile (log.drop b')), tail := [] } := by
  refine { h with wal := rfl, base := covered, file := rfl, logged := fun e he => ?_ }
  rw [← Nat.add_sub_cancel' later, ← List.drop_drop] at he
  exact h.logged e (List.mem_of_mem_drop he)

theorem compact_shapes (anchor : Nat) : Shapes (fun s d => anchor ≤ s.boundary ∧ Keeping s d) (FileEngine.compact anchor) := by
  refine .each fun e d hpre => .bind_memory fun t => .fact (fun _ _ hs => (hs.1.symm.trans hs.2.1 : t = e)) fun ht => ?_
  subst ht
  obtain ⟨hcovered, log, b, h⟩ := hpre
  have hkeeping : ∀ s' d', s' = t ∧ s' = t ∧ d' = d → Keeping s' d' := by
    rintro _ _ ⟨rfl, -, rfl⟩
    exact ⟨log, b, h⟩
  rw [h.wal]
  simp only [walOf]
  split
  · rename_i first last hfirst hlast
    have hindex := h.indexed.head hfirst
    refine .ite (fun _ => shapes_return hkeeping) fun hinside => shapes_checked ?_
    -- The anchor's own record is the first that stays.
    have hdrop : (log.drop b).drop (anchor - first.index) = log.drop (anchor - 1) := by
      rw [List.drop_drop, hindex]
      congr 1
      omega
    have hkept := h.rebase (anchor - 1) (by omega) (by omega)
    change Shapes _ (WriteAheadLog.rewrite ((log.drop b).drop (anchor - first.index)) >>= _)
    rw [hdrop]
    refine triple_runs (walOf (log.drop (anchor - 1))) (fun s' d' => s' = t ∧ d' = { d with wal := some (walFile (log.drop (anchor - 1))), tail := [] })
      ?_ (.bind (fun _ s' d' => s' = { t with wal := walOf (log.drop (anchor - 1)) } ∧ Backed log (anchor - 1) s' d') (.assign ?_) fun _ => ?_)
    · rintro _ _ ⟨rfl, -, rfl⟩
      exact ⟨_, _, rewrite_runs hkept.logged _ _, rfl, rfl⟩
    · rintro _ _ ⟨rfl, rfl⟩
      exact ⟨rfl, hkept⟩
    · refine .bind (fun store _ d' => Backed log (anchor - 1) store d') (.of ?_ fun _ s' d' _ hs => ⟨log, anchor - 1, hs.2⟩) fun store =>
        .assign fun s' d' hs => ⟨log, anchor - 1, hs⟩
      rintro store s' d' hstore ⟨rfl, hs⟩
      exact hs.retained hstore
  · exact shapes_return hkeeping

/-! #### Snapshot files -/

theorem Backed.removeSnapshot {s : FileEngine} {d : Disk} (h : Backed log b s d) (name : String) (pruned : OrdMap String File) :
    Backed log b s { d with snapshots := d.snapshots.erase name, pruned } := by
  refine { h with names := fun file hfile => h.names file ?_ }
  obtain ⟨hfind, hindex⟩ := mem_snapshotFiles.mp hfile
  rw [OrdMap.find?_erase] at hfind
  split at hfind
  · cases hfind
  · exact mem_snapshotFiles.mpr ⟨hfind, hindex⟩

theorem removeSnapshots_shapes (files : List SnapshotFile) (error : Error → FileEngine → Disk → Prop) :
    Triple (fun s d => s = e ∧ Backed log b s d) (removeSnapshots files) (fun _ s d => s = e ∧ Backed log b s d) error fun _ => True := by
  induction files with
  | nil => exact .strengthen (.pure ()) fun _ _ h => h
  | cons file files ih =>
    refine .bind _ (.write (fun s d h => ?_) fun _ _ _ => ⟨trivial, fun _ _ => trivial, trivial⟩) fun _ => ih
    exact ⟨h.1, h.2.removeSnapshot _ _⟩

/-- The oldest snapshot that stays is one of those that were there. -/
theorem pruneSnapshots_shapes (keep : Nat) (error : Error → FileEngine → Disk → Prop) :
    Triple (fun s d => s = e ∧ Backed log b s d) (pruneSnapshots keep)
      (fun result s d => (s = e ∧ Backed log b s d) ∧ result.oldestIndex ≤ e.commitIndex) error fun _ => True := by
  refine .bind_disk fun d => .fact (fun _ _ h => (h.1 ▸ h.2.1 ▸ h.2.2.names : ∀ file ∈ snapshotFiles d, file.index ≤ e.commitIndex)) fun hnames => ?_
  refine .bind (fun _ s d => s = e ∧ Backed log b s d) (.strengthen (removeSnapshots_shapes _ error) fun _ _ h => h.2) fun _ => ?_
  split
  · exact .strengthen (.pure _) fun _ _ h => ⟨h, Nat.zero_le _⟩
  · rename_i oldest holdest
    exact .strengthen (.pure _) fun _ _ h => ⟨h, hnames oldest (List.mem_of_mem_take (List.mem_of_getLast? holdest))⟩

/-- The state of the store becomes its newest snapshot. -/
theorem Backed.saveSnapshot {s : FileEngine} {d : Disk} (h : Backed log b s d) (bytes : File) (removed : Option File) (pruned : OrdMap String File) :
    Backed log b { s with snapshot := some (.ofState s.state) }
      { d with snapshots := d.snapshots.insert (snapshotName s.state.lastApplied) bytes, pruned, removed } := by
  have hboundary : FileEngine.boundary { s with snapshot := some (.ofState s.state) } = s.commitIndex := h.applied
  refine { h with
    base := (h.base.trans h.boundary).trans hboundary.ge
    boundary := hboundary.le
    names := fun file hfile => ?_ }
  obtain ⟨hfind, hindex⟩ := mem_snapshotFiles.mp hfile
  rw [OrdMap.find?_insert] at hfind
  split at hfind
  · rename_i hname
    have hbound : s.state.lastApplied < 2 ^ 64 := h.applied ▸ (h.reach.trans_lt h.short).trans (by decide)
    rw [← hname, snapshotIndex_snapshotName hbound] at hindex
    exact (Option.some.inj hindex ▸ h.applied).le
  · exact h.names file (mem_snapshotFiles.mpr ⟨hfind, hindex⟩)

theorem takeSnapshot_shapes : Shapes Keeping FileEngine.takeSnapshot := by
  refine .each fun e d hpre => .bind_memory fun t => .fact (fun _ _ hs => (hs.1.symm.trans hs.2.1 : t = e)) fun ht => ?_
  subst ht
  obtain ⟨log, b, h⟩ := hpre
  cases hencoded : encodeSnapshot t.state with
  | error x =>
    have hrefused : (saveSnapshot t.state : Store FileEngine Unit) t d = ⟨.error x, t, d, []⟩ := by
      unfold saveSnapshot
      rw [hencoded]
      rfl
    rintro _ _ ⟨rfl, -, rfl⟩
    rw [Program.bind_of_error (by rw [hrefused]), hrefused]
    exact ⟨nofun, log, b, h⟩
  | ok bytes =>
    refine triple_runs () (fun s' d' => s' = t ∧ d' = { d with
        snapshots := d.snapshots.insert (snapshotName t.state.lastApplied) bytes
        pruned := d.pruned.erase (snapshotName t.state.lastApplied)
        removed := none }) ?_ (.bind (fun _ s' d' => s' = { t with snapshot := some (.ofState t.state) } ∧ Backed log b s' d') (.assign ?_) fun _ => ?_)
    · rintro _ _ ⟨rfl, -, rfl⟩
      exact ⟨_, _, .of_bind hencoded ⟨rfl, rfl, rfl⟩, rfl, rfl⟩
    · rintro _ _ ⟨rfl, rfl⟩
      exact ⟨rfl, h.saveSnapshot bytes none _⟩
    · refine .bind _ (pruneSnapshots_shapes 2 _) fun pruned => .ite (fun _ => ?_) fun _ => shapes_return fun _ _ hs => ⟨log, b, hs.1.2⟩
      refine .strengthen (compact_shapes pruned.oldestIndex) ?_
      rintro _ d' ⟨⟨rfl, hs⟩, holdest⟩
      exact ⟨holdest.trans h.applied.ge, log, b, hs⟩

theorem maybeSnapshot_shapes : Shapes Keeping FileEngine.maybeSnapshot := by
  have hreturn : ∀ t : FileEngine, Shapes (fun s d => s = t ∧ Keeping s d) (pure () : Store FileEngine Unit) :=
    fun t => shapes_return fun _ _ h => h.2
  exact .bind_memory fun t => .ite (fun _ => hreturn t) fun _ => .ite (fun _ => hreturn t) fun _ =>
    .strengthen takeSnapshot_shapes fun _ _ h => h.2

theorem checkpoint_shapes : Shapes Keeping FileEngine.checkpoint :=
  shapes_writable fun _ log b => .ite (fun _ => shapes_return fun _ _ h => ⟨log, b, h.2⟩) fun _ =>
    shapes_checked (.strengthen takeSnapshot_shapes fun _ _ h => ⟨log, b, h.2⟩)

theorem discardCompactedPrefix_shapes : Shapes Keeping FileEngine.discardCompactedPrefix := by
  refine shapes_writable fun e log b => ?_
  cases hsnapshot : e.snapshot with
  | none => exact shapes_fail fun _ _ h => ⟨log, b, h.2⟩
  | some snapshot =>
    have hboundary : e.boundary = snapshot.index := by
      unfold FileEngine.boundary
      rw [hsnapshot]
      rfl
    refine .strengthen (compact_shapes snapshot.index) ?_
    rintro _ d ⟨rfl, h⟩
    exact ⟨hboundary.ge, log, b, h⟩

/-! ### Commits -/

/-- Entries of the log are committed. -/
theorem Backed.commit {s : FileEngine} {d : Disk} (h : Backed log b s d) {index : Nat} (later : s.commitIndex ≤ index) (present : index ≤ log.length)
    {state : ChoreographyState} (applied : state.lastApplied = index) {m : NodeMetadata} (commit : m.commitIndex = index) {file : File}
    (encoded : encodeMetadata m = .ok file) :
    Backed log b { s with state, commitIndex := index } { d with metadata := some file } := by
  have hbound : m.commitIndex < 2 ^ 64 := commit ▸ (present.trans_lt h.short).trans (by decide)
  exact { h with
    applied := applied
    boundary := h.boundary.trans later
    reach := present
    metadata := fun m' hm' => (decodeMetadata_commit hbound encoded hm').trans commit
    names := fun file hfile => (h.names file hfile).trans later }

theorem commitThrough_shapes (index : Nat) : Shapes Keeping (FileEngine.commitThrough index) := by
  refine shapes_writable fun e log b => .ite (fun _ => shapes_return fun _ _ h => ⟨log, b, h.2⟩) fun hlater => ?_
  rw [not_lt] at hlater
  refine .bind (fun staged s d => prepareCommitted e.state (FileEngine.batch e.wal (index - e.commitIndex) (e.commitIndex + 1)) = .ok staged ∧
    s = e ∧ Backed log b s d) (.of (fun staged _ _ hstaged h => ⟨hstaged, h⟩) fun _ _ _ _ h => ⟨log, b, h.2⟩) fun staged => ?_
  refine .ite (fun _ => shapes_fail fun _ _ h => ⟨log, b, h.2.2⟩) fun hlast => shapes_checked ?_
  rw [not_not] at hlast
  refine .bind (fun m s d => MetaHeld m d.metadata ∧ _) (loadMetadata_triple fun _ _ _ h => ⟨log, b, h.2.2⟩) fun m => ?_
  have hpublished : (publishCommitted e.state staged).lastApplied = index := hlast
  -- The entry at the index was in the batch.
  have hpresent : ∀ d, Backed log b e d → prepareCommitted e.state (FileEngine.batch e.wal (index - e.commitIndex) (e.commitIndex + 1)) = .ok staged →
      index ≤ log.length := by
    intro d h hstaged
    rw [h.wal, batch_walOf h.indexed (h.base.trans h.boundary)] at hstaged
    rw [← hlast]
    refine lastApplied_prepareCommitted (h.applied.trans_le h.reach) (fun event hevent => ?_) hstaged
    obtain ⟨i, hi⟩ := List.getElem?_of_mem (List.mem_of_mem_drop (List.mem_of_mem_take hevent))
    have := h.indexed i event hi
    have := (List.getElem?_eq_some_iff.mp hi).1
    omega
  refine triple_runs () (fun s d => s = e ∧ Backed log b { e with state := publishCommitted e.state staged, commitIndex := index } d) ?_
    (.bind _ (.assign ?_) fun _ => maybeSnapshot_shapes)
  · rintro _ d ⟨-, hstaged, rfl, h⟩
    obtain ⟨file, hfile⟩ : ∃ file, encodeMetadata { m with commitIndex := index, term := max m.term staged.term } = .ok file :=
      ⟨_, encodeMetadata_eq _⟩
    exact ⟨_, _, .of_bind hfile ⟨rfl, rfl, rfl⟩, rfl, h.commit hlater (hpresent d h hstaged) hpublished rfl hfile⟩
  · rintro _ d ⟨rfl, h⟩
    exact ⟨log, b, h⟩

/-! ### Installs -/

theorem commitSnapshotTransaction_runs {t : SnapshotTransaction} {bytes : File} {d : Disk} (idle : d.journal = none) (encoded : t.encode = .ok bytes)
    (s : FileEngine) : Runs (commitSnapshotTransaction t) s d () s { d with
      snapshots := d.snapshots.insert (snapshotName t.index.toNat) t.snapshot
      pruned := d.pruned.erase (snapshotName t.index.toNat)
      metadata := some t.metadata
      wal := some t.wal
      tail := []
      journal := none
      removed := none } := by
  refine .disk_bind ?_
  rw [idle]
  refine .of_bind encoded ⟨rfl, rfl, rfl⟩

/-- Events that are numbered from an index on are the end of a log that is numbered from one. -/
theorem exists_log {events : List Event} (b : Nat) (numbered : ∀ i e, events[i]? = some e → e.index = b + 1 + i) :
    ∃ log, Indexed log ∧ log.drop b = events ∧ log.length = b + events.length := by
  have hlength : ((List.range b).map fun i => { firstNoOp with index := i + 1 }).length = b := by simp
  refine ⟨((List.range b).map fun i => { firstNoOp with index := i + 1 }) ++ events, fun i e hi => ?_, ?_, ?_⟩
  · rcases lt_or_ge i b with hlt | hge
    · rw [List.getElem?_append_left (by omega), List.getElem?_map, List.getElem?_range hlt] at hi
      cases hi
      rfl
    · rw [List.getElem?_append_right (by omega), hlength] at hi
      have := numbered _ e hi
      omega
  · exact List.drop_left' hlength
  · rw [List.length_append, hlength]

/-- A snapshot replaces the log, or the entries before it. -/
theorem Backed.install {s : FileEngine} {d : Disk} (h : Backed log b s d) {snapshot : Snapshot} {state : ChoreographyState}
    (replaced : FileEngine.replacement snapshot = .ok state) (later : s.commitIndex < snapshot.index) (short : snapshot.index < maxIndex) :
    ∃ log' b', FileEngine.keptSuffix s.wal snapshot = log'.drop b' ∧ (∀ e ∈ log'.drop b', Logged e) ∧ Shaped log' b' { s with
      wal := walOf (log'.drop b'), state, commitIndex := snapshot.index
      snapshot := some { snapshot with events := [], statePayload := snapshotPayload state } } := by
  have happlied : state.lastApplied = snapshot.index := (congrArg Snapshot.index (replacement_cases replaced)).symm
  have hbase := h.base.trans h.boundary
  have hentry : s.wal.logEntry snapshot.index = log[snapshot.index - 1]? := by rw [h.logEntry, if_pos (by omega)]
  unfold FileEngine.keptSuffix
  rw [hentry]
  split
  · rename_i hagrees
    obtain ⟨e, he, -⟩ := (Option.any_eq_true _ _).mp hagrees
    have hlt := (List.getElem?_eq_some_iff.mp he).1
    refine ⟨log, snapshot.index - 1, ?_, fun e he => ?_, ?_⟩
    · rw [h.wal]
      exact h.indexed.filter_from (by omega)
    · rw [← Nat.add_sub_cancel' (show b ≤ snapshot.index - 1 by omega), ← List.drop_drop] at he
      exact h.logged e (List.mem_of_mem_drop he)
    · exact ⟨h.cluster, rfl, h.indexed, h.short, happlied, Nat.sub_le _ _, le_rfl, by dsimp only; omega⟩
  · obtain ⟨log', hindexed, hdrop, hlength⟩ := exists_log snapshot.index (show ∀ i e, ([] : List Event)[i]? = some e → _ from nofun)
    rw [List.length_nil, Nat.add_zero] at hlength
    refine ⟨log', snapshot.index, hdrop.symm, fun e he => ?_, ?_⟩
    · rw [hdrop] at he
      cases he
    · exact ⟨h.cluster, rfl, hindexed, hlength ▸ short, happlied, le_rfl, le_rfl, hlength.ge⟩

/-- The files of the new snapshot agree with the store that it leaves. -/
theorem Shaped.installed {log' : List Event} {b' : Nat} {s s' : FileEngine} {d : Disk} (h : Backed log b s d) (shaped : Shaped log' b' s')
    (logged : ∀ e ∈ log'.drop b', Logged e) (later : s.commitIndex ≤ s'.commitIndex) {m : NodeMetadata} (commit : m.commitIndex = s'.commitIndex)
    {metadata : File} (encoded : encodeMetadata m = .ok metadata) (bytes tail : File) (pruned : OrdMap String File) (removed : Option File) :
    Backed log' b' s' { d with
      snapshots := d.snapshots.insert (snapshotName s'.commitIndex) bytes
      metadata := some metadata
      wal := some (walFile (log'.drop b'))
      journal := none
      pruned, tail, removed } := by
  have hbound : s'.commitIndex < 2 ^ 64 := (shaped.reach.trans_lt shaped.short).trans (by decide)
  refine ⟨shaped, rfl, logged, fun m' hm' => (decodeMetadata_commit (commit ▸ hbound) encoded hm').trans commit, fun file hfile => ?_, rfl⟩
  obtain ⟨hfind, hindex⟩ := mem_snapshotFiles.mp hfile
  rw [OrdMap.find?_insert] at hfind
  split at hfind
  · rename_i hname
    rw [← hname, snapshotIndex_snapshotName hbound] at hindex
    exact (Option.some.inj hindex).ge
  · exact (h.names file (mem_snapshotFiles.mpr ⟨hfind, hindex⟩)).trans later

theorem installSnapshot_shapes {snapshot : Snapshot} (short : snapshot.index < maxIndex) : Shapes Keeping (FileEngine.installSnapshot snapshot) := by
  refine shapes_writable fun e log b => .ite (fun _ => shapes_return fun _ _ h => ⟨log, b, h.2⟩) fun hlater => ?_
  rw [not_le] at hlater
  rcases hstate : FileEngine.replacement snapshot with x | state
  · exact shapes_error rfl fun _ _ h => ⟨log, b, h.2⟩
  refine .bind_of rfl (.bind (fun m s d => MetaHeld m d.metadata ∧ s = e ∧ Backed log b s d)
    (.onError (loadMetadata_triple fun _ _ _ h => h) fun _ _ _ h => Keeping.recovery ⟨log, b, h.2⟩) fun m => ?_)
  rcases hbytes : encodeSnapshot state with x | bytes
  · exact shapes_error rfl fun _ _ h => ⟨log, b, h.2.2⟩
  refine .each fun s d hpre => ?_
  obtain ⟨-, rfl, h⟩ := hpre
  obtain ⟨log', b', hsuffix, hlogged, hshaped⟩ := h.install hstate hlater short
  obtain ⟨metadata, hmetadata⟩ : ∃ file, encodeMetadata { m with commitIndex := snapshot.index, term := max m.term state.term } = .ok file :=
    ⟨_, encodeMetadata_eq _⟩
  have hwal : encodeWal (FileEngine.keptSuffix s.wal snapshot) = .ok (walFile (log'.drop b')) := by
    rw [hsuffix]
    exact encodeWal_ok fun e he => (hlogged e he).size
  refine .bind_of rfl (.bind_of hmetadata (.bind_of hwal (shapes_checked ?_)))
  have hindex : (UInt64.ofNat snapshot.index).toNat = snapshot.index := UInt64.toNat_ofNat_of_lt' (short.trans (by decide))
  rcases hencoded : (⟨UInt64.ofNat snapshot.index, bytes, metadata, walFile (log'.drop b')⟩ : SnapshotTransaction).encode with x | journal
  · rintro s' d' ⟨rfl, rfl⟩
    obtain ⟨x, hrefused⟩ := commitSnapshotTransaction_refused s' (.inr ⟨x, hencoded⟩)
    rw [Program.bind_of_error (by rw [hrefused]), hrefused]
    exact ⟨nofun, log, b, h⟩
  obtain ⟨store, hstore⟩ : ∃ store : FileEngine, store = { s with
      wal := walOf (log'.drop b'), state, commitIndex := snapshot.index
      snapshot := some { snapshot with events := [], statePayload := snapshotPayload state } } := ⟨_, rfl⟩
  have hcommit : snapshot.index = store.commitIndex := by rw [hstore]
  rw [← hstore] at hshaped
  refine triple_runs () (fun s' d' => s' = s ∧ Backed log' b' store d') ?_ (.bind_returns (fun s' d' hs => steady_open hlogged s' hs.2.file)
    (.bind (fun _ s' d' => s' = store ∧ Backed log' b' s' d') (.assign ?_) fun _ => .bind _ (pruneSnapshots_shapes 1 _) fun _ => .bind_memory fun t => ?_))
  · rintro _ _ ⟨rfl, rfl⟩
    refine ⟨_, _, commitSnapshotTransaction_runs h.journal hencoded _, rfl, ?_⟩
    dsimp only
    rw [hindex, hcommit]
    exact Shaped.installed h hshaped hlogged (hcommit ▸ hlater.le) hcommit hmetadata bytes [] _ none
  · rintro _ _ ⟨rfl, hs⟩
    exact ⟨hstore.symm, hstore ▸ hs⟩
  · refine .bind (fun store' _ d' => Backed log' b' store' d') (.of ?_ fun _ s' d' _ hs => ⟨log', b', hs.2.1.2⟩) fun _ =>
      .assign fun _ _ hs => ⟨log', b', hs⟩
    rintro store' s' d' hretained ⟨rfl, ⟨-, hs⟩, -⟩
    exact hs.retained hretained

end Operations

/-! ### Opening -/

/-- A directory with these events in its log and this commit index. -/
structure Openable (events : List Event) (c : Nat) (d : Disk) : Prop where
  file : d.wal = some (walFile events) ∨ d.wal = none ∧ events = []
  logged : ∀ e ∈ events, Logged e
  short : ∀ e ∈ events, e.index < maxIndex
  metadata : ∀ m, MetaHeld m d.metadata → m.commitIndex = c
  bound : c < maxIndex
  names : ∀ file ∈ snapshotFiles d, file.index ≤ c
  journal : d.journal = none

section Opening
variable {μ : Type} {events : List Event} {c : Nat}

theorem openWal_opens : Triple (fun _ d => Openable events c d) (WriteAheadLog.open : Store μ WriteAheadLog)
    (fun wal _ d => wal = walOf events ∧ d.wal = some (walFile events) ∧ Openable events c d) (fun _ _ _ => True) fun _ => True := by
  intro s d h
  refine ⟨fun _ _ => trivial, ?_⟩
  rcases h.file with hfile | ⟨hfile, rfl⟩
  · rw [steady_open h.logged s hfile]
    exact ⟨rfl, hfile, h⟩
  · have hruns : Runs (WriteAheadLog.open : Store μ WriteAheadLog) s d (walOf []) s
        { d with wal := some (walFile []), tail := [], removed := none } := by
      refine .disk_bind ?_
      rw [hfile]
      have hcreate : Runs (createWal walFileHeader : Store μ Unit) s d () s { d with wal := some (walFile []), tail := [] } := ⟨rfl, rfl, rfl⟩
      have hsync : Runs (syncDirectory : Store μ Unit) s { d with wal := some (walFile []), tail := [] } () s
        { d with wal := some (walFile []), tail := [], removed := none } := ⟨rfl, rfl, rfl⟩
      refine hcreate.bind (hsync.bind ?_)
      refine ⟨?_, ?_, ?_⟩ <;> rw [load_file h.logged s rfl]
    obtain ⟨hresult, hmemory, hdisk⟩ := hruns
    rw [hresult, hmemory, hdisk]
    exact ⟨rfl, rfl, { h with file := .inl rfl }⟩

theorem contiguous_numbered (h : FileEngine.contiguous events = true) {first : Event} (head : events.head? = some first) :
    0 < first.index ∧ ∀ i e, events[i]? = some e → e.index = first.index + i := by
  induction events generalizing first with
  | nil => cases head
  | cons event rest ih =>
    cases head
    cases rest with
    | nil =>
      refine ⟨Nat.pos_of_ne_zero (of_decide_eq_true h), fun i e hi => ?_⟩
      cases i with
      | zero =>
        cases hi
        rfl
      | succ i => cases hi
    | cons next rest =>
      rw [FileEngine.contiguous, Bool.and_eq_true, Bool.and_eq_true, decide_eq_true_eq, decide_eq_true_eq] at h
      obtain ⟨⟨hpos, hnext⟩, hrest⟩ := h
      refine ⟨Nat.pos_of_ne_zero hpos, fun i e hi => ?_⟩
      cases i with
      | zero =>
        cases hi
        rfl
      | succ i =>
        rw [(ih hrest rfl).2 i e hi, hnext]
        omega

/-- The state starts from the snapshot, at its index. -/
theorem restoreSnapshot_starts {records : List Event} {limit : Nat} {snapshot : Option Snapshot} {r : FileEngine.Restored}
    (h : FileEngine.restoreSnapshot records limit snapshot = .ok r) :
    r.startAfter ≤ limit ∧ r.state.lastApplied = r.startAfter ∧ (r.snapshot.map (·.index)).getD 0 = r.startAfter := by
  cases snapshot with
  | none =>
    cases h
    exact ⟨Nat.zero_le _, rfl, rfl⟩
  | some selected =>
    change (if limit < selected.index then _ else _) = _ at h
    split at h
    · cases h
      exact ⟨Nat.zero_le _, rfl, rfl⟩
    · rename_i hlimit
      obtain ⟨restored, hverified, h⟩ := bind_ok h
      split at h
      · rename_i hlegacy
        obtain ⟨state, hstate, h⟩ := bind_ok h
        cases h
        have hreplaced : FileEngine.replacement selected = .ok state := by
          unfold FileEngine.replacement
          rw [hverified]
          change (if selected.legacy = true then _ else _) = _
          rw [if_pos hlegacy, hstate]
        exact ⟨not_lt.mp hlimit, (congrArg Snapshot.index (replacement_cases hreplaced)).symm, rfl⟩
      · cases h
        exact ⟨not_lt.mp hlimit, (verifySnapshot_cases hverified).2.2.1, rfl⟩

/-- A replay leads to where it started, or to one of its entries. -/
theorem lastApplied_replay {events : List Event} {state state' : ChoreographyState} (h : events.foldlM apply state = .ok state') :
    state'.lastApplied = state.lastApplied ∨ ∃ e ∈ events, state'.lastApplied = e.index := by
  induction events generalizing state with
  | nil =>
    cases h
    exact .inl rfl
  | cons event events ih =>
    rw [List.foldlM_cons] at h
    obtain ⟨next, hnext, h⟩ := bind_ok h
    rcases ih h with heq | ⟨e, he, heq⟩
    · rcases lastApplied_applyAgainst hnext with hsame | hindex
      · exact .inl (heq.trans hsame)
      · exact .inr ⟨event, List.mem_cons_self, heq.trans hindex⟩
    · exact .inr ⟨e, List.mem_cons_of_mem _ he, heq⟩

theorem mem_replayed {records : List Event} {startAfter limit : Nat} {e : Event} (h : e ∈ FileEngine.replayed records startAfter limit) :
    e ∈ records ∧ startAfter < e.index ∧ e.index ≤ limit := by
  obtain ⟨htake, hlater⟩ := List.mem_filter.mp h
  have hlater := of_decide_eq_true hlater
  refine ⟨(List.takeWhile_prefix _).subset htake, hlater, ?_⟩
  have htaken := List.mem_takeWhile_imp htake
  rcases (of_decide_eq_true htaken : e.index ≤ startAfter ∨ e.index ≤ limit) with hearly | hbound
  · exact absurd hearly (not_le.mpr hlater)
  · exact hbound

/-- The log that is replayed on a snapshot is the one in the file, and it reaches from the snapshot on; or it is empty. -/
structure Joins (startAfter : Nat) (events : List Event) : Prop where
  contiguous : FileEngine.contiguous events = true
  first : ∀ e, events.head? = some e → e.index ≤ startAfter + 1
  last : ∀ e, events.getLast? = some e → startAfter ≤ e.index

theorem joins_nil (startAfter : Nat) : Joins startAfter [] := ⟨rfl, nofun, nofun⟩

/-- The log is refused, kept as one that joins, or dropped. -/
theorem joinSnapshot_cases (wal : WriteAheadLog) {snapshot : Option Snapshot} {startAfter : Nat} (index : (snapshot.map (·.index)).getD 0 = startAfter)
    (contiguous : FileEngine.contiguous wal.events = true) (covered : ¬(startAfter = 0 ∧ wal.events.head?.any (1 < ·.index) = true)) (m : NodeMetadata) :
    (∃ x, (FileEngine.joinSnapshot wal m snapshot : Store μ WriteAheadLog) = .fail x) ∨
      (FileEngine.joinSnapshot wal m snapshot : Store μ WriteAheadLog) = pure wal ∧ Joins startAfter wal.events ∨
        (FileEngine.joinSnapshot wal m snapshot : Store μ WriteAheadLog) = WriteAheadLog.rewrite [] := by
  cases snapshot with
  | none =>
    obtain rfl : 0 = startAfter := index
    refine .inr (.inl ⟨rfl, contiguous, fun e he => ?_, fun e _ => Nat.zero_le _⟩)
    by_contra hlater
    refine covered ⟨rfl, ?_⟩
    rw [he]
    exact decide_eq_true (by omega)
  | some boundary =>
    obtain rfl : boundary.index = startAfter := index
    unfold FileEngine.joinSnapshot
    dsimp only
    split
    · rename_i first last hfirst hlast
      split
      · split
        · exact .inl ⟨_, rfl⟩
        · exact .inr (.inr rfl)
      split
      · exact .inl ⟨_, rfl⟩
      split
      · exact .inl ⟨_, rfl⟩
      refine .inr (.inl ⟨rfl, contiguous, fun e he => ?_, fun e he => ?_⟩)
      · cases hfirst.symm.trans he
        omega
      · cases hlast.symm.trans he
        omega
    · rename_i hempty
      refine .inr (.inl ⟨rfl, ?_⟩)
      cases hevents : wal.events with
      | nil => exact joins_nil _
      | cons first rest =>
        rw [hevents] at hempty
        exact absurd (List.getLast?_eq_getLast_of_ne_nil (List.cons_ne_nil first rest)) (hempty _ _ rfl)

theorem joinSnapshot_joins {snapshot : Option Snapshot} {startAfter : Nat} (index : (snapshot.map (·.index)).getD 0 = startAfter)
    (contiguous : FileEngine.contiguous events = true) (covered : ¬(startAfter = 0 ∧ events.head?.any (1 < ·.index) = true)) (m : NodeMetadata) :
    Triple (fun _ d => d.wal = some (walFile events) ∧ Openable events c d) (FileEngine.joinSnapshot (walOf events) m snapshot : Store μ WriteAheadLog)
      (fun wal _ d => ∃ events', wal = walOf events' ∧ d.wal = some (walFile events') ∧ Openable events' c d ∧ Joins startAfter events')
      (fun _ _ _ => True) fun _ => True := by
  rcases joinSnapshot_cases (walOf events) index contiguous covered m with ⟨x, hrefused⟩ | ⟨hkept, hjoins⟩ | hdropped
  · rw [hrefused]
    exact .strengthen .fail fun _ _ _ => trivial
  · rw [hkept]
    exact .strengthen (.pure _) fun _ _ h => ⟨events, rfl, h.1, h.2, hjoins⟩
  · rw [hdropped]
    intro s d h
    obtain ⟨hresult, -, hdisk⟩ := rewrite_runs (List.forall_mem_nil Logged) s d
    refine ⟨fun _ _ => trivial, ?_⟩
    rw [hresult, hdisk]
    exact ⟨[], rfl, rfl, { h.2 with file := .inl rfl, logged := nofun, short := nofun }, joins_nil _⟩

/-- The log as if nothing had been dropped from it. -/
theorem Joins.exists_log {startAfter : Nat} (h : Joins startAfter events) : ∃ log b, Indexed log ∧ log.drop b = events ∧ b ≤ startAfter ∧
    startAfter ≤ log.length ∧ (log.length = startAfter ∨ ∃ e ∈ events, log.length = e.index) := by
  cases hfirst : events.head? with
  | none =>
    obtain rfl := List.head?_eq_none_iff.mp hfirst
    obtain ⟨log, hindexed, hdrop, hlength⟩ := Storage.exists_log startAfter (show ∀ i e, ([] : List Event)[i]? = some e → _ from nofun)
    have hlength : log.length = startAfter := hlength
    exact ⟨log, startAfter, hindexed, hdrop, le_rfl, hlength.ge, .inl hlength⟩
  | some first =>
    obtain ⟨hpos, hnumbered⟩ := contiguous_numbered h.contiguous hfirst
    obtain ⟨log, hindexed, hdrop, hlength⟩ := Storage.exists_log (first.index - 1) fun i e hi => by
      rw [hnumbered i e hi]
      omega
    -- The last entry gives the length of the log.
    obtain ⟨last, hlast⟩ : ∃ last, events.getLast? = some last := by
      cases hlast : events.getLast? with
      | none => rw [List.getLast?_eq_none_iff.mp hlast] at hfirst; cases hfirst
      | some last => exact ⟨last, rfl⟩
    have hend : log.length = last.index := by
      rw [← hdrop] at hlast
      exact (hindexed.getLast hlast).1.symm
    refine ⟨log, first.index - 1, hindexed, hdrop, ?_, hend ▸ h.last last hlast, .inr ⟨last, List.mem_of_getLast? hlast, hend⟩⟩
    have := h.first first hfirst
    omega

/-- What the events of an opened directory are replayed into. -/
theorem Openable.kept {d : Disk} (h : Openable events c d) (file : d.wal = some (walFile events)) {s : FileEngine} (cluster : s.options.commitOnAppend = false)
    (joins : Joins s.boundary events) (wal : s.wal = walOf events) (commit : s.commitIndex = c) (boundary : s.boundary ≤ c)
    (reached : c = s.boundary ∨ ∃ e ∈ events, c = e.index) (applied : s.state.lastApplied = c) : Keeping s d := by
  subst commit
  obtain ⟨log, b, hindexed, rfl, hbase, hreach, hend⟩ := joins.exists_log
  refine ⟨log, b, ⟨cluster, wal, hindexed, ?_, applied, hbase, boundary, ?_⟩, file, h.logged, h.metadata, h.names, h.journal⟩
  · rcases hend with heq | ⟨e, he, heq⟩
    · exact heq ▸ boundary.trans_lt h.bound
    · exact heq ▸ h.short e he
  · rcases reached with heq | ⟨e, he, heq⟩
    · exact heq.trans_le hreach
    · obtain ⟨i, hi⟩ := List.getElem?_of_mem (List.mem_of_mem_drop he)
      have := hindexed i e hi
      have := (List.getElem?_eq_some_iff.mp hi).1
      omega

theorem open_shapes {options : StoreOptions} (cluster : options.commitOnAppend = false) :
    Triple (fun _ d => Openable events c d) (FileEngine.open options : Store μ FileEngine) (fun s _ d => Keeping s d) (fun _ _ _ => True) fun _ => True := by
  have hfail : ∀ {pre : μ → Disk → Prop} {x : Error} {α : Type} {post : α → μ → Disk → Prop},
      Triple pre (.fail x : Store μ α) post (fun _ _ _ => True) fun _ => True := .strengthen .fail fun _ _ _ => trivial
  refine .bind (fun _ _ d => Openable events c d) ?_ fun _ => .bind _ openWal_opens fun wal =>
    .fact (fun _ _ h => h.1) fun hwal => ?_
  · refine .bind_disk fun d => .fact (fun _ _ h => (h.1 ▸ h.2.journal : d.journal = none)) fun hidle => ?_
    rw [hidle]
    exact .write (fun _ _ h => { h.2 with }) fun _ _ _ => ⟨trivial, nofun, trivial⟩
  subst hwal
  refine .ite (fun _ => hfail) fun hcontiguous => .bind (fun _ _ d => d.wal = some (walFile events) ∧ Openable events c d)
    (.bind_disk fun _ => .strengthen (.pure _) fun _ _ h => h.2.2) fun snapshot => .bind _ (loadMetadata_triple fun _ _ _ _ => trivial) fun m =>
    .fact (fun _ _ h => h.2.2.metadata m h.1) fun hcommit => ?_
  rw [not_not] at hcontiguous
  dsimp only
  rw [cluster, hcommit]
  rcases hrestored : FileEngine.restoreSnapshot (walOf events).events (if false = true then 2 ^ 64 - 1 else c) snapshot with x | r
  · exact fun _ _ _ => ⟨nofun, trivial⟩
  obtain ⟨hlimit, hstart, hindex⟩ := restoreSnapshot_starts hrestored
  refine .bind_of rfl (.ite (fun _ => hfail) fun hcovered => .bind _ (.strengthen (joinSnapshot_joins hindex hcontiguous hcovered m) fun _ _ h => h.2) fun wal => ?_)
  refine .each fun s d hpre => ?_
  obtain ⟨events', rfl, hfile, hopen, hjoins⟩ := hpre
  rcases hstate : (FileEngine.replayed (walOf events').events r.startAfter (if false = true then 2 ^ 64 - 1 else c)).foldlM apply r.state with x | state
  · exact fun _ _ _ => ⟨nofun, trivial⟩
  refine .bind_of rfl (.ite (fun _ => hfail) fun hcomplete => ?_)
  have hupdate : (FileEngine.updateMetadata options m state : Store μ Nat) = pure c := by
    unfold FileEngine.updateMetadata
    rw [cluster, ← hcommit]
    rfl
  rw [hupdate]
  refine .of (fun store s' d' hstore hs => ?_) fun _ _ _ _ _ => trivial
  obtain ⟨-, rfl⟩ := hs
  have hreplayed := lastApplied_replay hstate
  have happlied : state.lastApplied = c := by
    refine le_antisymm ?_ (not_lt.mp hcomplete)
    rcases hreplayed with heq | ⟨e, he, heq⟩
    · exact (heq.trans hstart).trans_le hlimit
    · exact heq.trans_le (mem_replayed he).2.2
  rw [happlied, hstart] at hreplayed
  have hreached : c = r.startAfter ∨ ∃ e ∈ events', c = e.index :=
    hreplayed.imp_right fun ⟨e, he, heq⟩ => ⟨e, (mem_replayed he).1, heq⟩
  have hboundary : FileEngine.boundary { options, wal := walOf events', state, commitIndex := c, snapshot := r.snapshot } = r.startAfter := hindex
  obtain ⟨log, b, hkept⟩ := hopen.kept hfile cluster (hboundary ▸ hjoins) rfl rfl (hboundary.trans_le hlimit) (hboundary ▸ hreached) happlied
  exact ⟨log, b, hkept.retained hstore⟩

end Opening

/-! ### Runs -/

/-- What a call is made with: an event that parses back, and an index below the bound. -/
def Op.Allowed : Op → Prop
  | append event => event.Fits ∧ parseEvent (canonicalEvent event) = .ok event ∧ event.index < maxIndex
  | install snapshot _ => snapshot.index < maxIndex
  | _ => True

/-- The stores that come of a new directory by calls, whatever their results, and by opening the directory again. -/
inductive Operated : FileEngine → Disk → Prop
  | start {options : StoreOptions} {s : FileEngine} {d : Disk} (cluster : options.commitOnAppend = false) (opens : Opens options {} s d) : Operated s d
  | call {s : FileEngine} {d : Disk} (op : Op) (allowed : op.Allowed) (before : Operated s d) : Operated (op.program s d).memory (op.program s d).disk
  | reopen {options : StoreOptions} {s s' : FileEngine} {d d' : Disk} (cluster : options.commitOnAppend = false) (before : Operated s d)
      (opens : Opens options d s' d') : Operated s' d'

theorem Op.shapes (op : Op) (allowed : op.Allowed) : Shapes Keeping op.program := by
  cases op with
  | append event => exact appendEvent_shapes allowed.1 allowed.2.1 allowed.2.2
  | truncate index => exact truncateAfter_shapes index
  | commit index => exact commitThrough_shapes index
  | persist term vote => exact persistConsensus_shapes term vote
  | checkpoint => exact checkpoint_shapes
  | discard => exact discardCompactedPrefix_shapes
  | install snapshot history => exact installSnapshot_shapes allowed

theorem Shapes.after {α : Type} {pre : FileEngine → Disk → Prop} {m : Store FileEngine α} (h : Shapes pre m) {s : FileEngine} {d : Disk} (hs : pre s d) :
    Keeping (m s d).memory (m s d).disk := by
  have hafter := (h s d hs).2
  cases hresult : (m s d).result with
  | ok a =>
    rw [hresult] at hafter
    exact hafter
  | error x =>
    rw [hresult] at hafter
    exact hafter

theorem Openable.opens {events : List Event} {c : Nat} {d d' : Disk} (h : Openable events c d) {options : StoreOptions} (cluster : options.commitOnAppend = false)
    {s : FileEngine} (opens : Opens options d s d') : Keeping s d' := by
  have hafter := (open_shapes cluster () d h).2
  rw [opens.1, opens.2] at hafter
  exact hafter

theorem Backed.openable {log : List Event} {b : Nat} {s : FileEngine} {d : Disk} (h : Backed log b s d) : Openable (log.drop b) s.commitIndex d := by
  refine ⟨.inl h.file, h.logged, fun e he => ?_, h.metadata, h.reach.trans_lt h.short, h.names, h.journal⟩
  obtain ⟨i, hi⟩ := List.getElem?_of_mem (List.mem_of_mem_drop he)
  have := h.indexed i e hi
  have := (List.getElem?_eq_some_iff.mp hi).1
  have := h.short
  omega

theorem openable_new : Openable [] 0 {} := by
  refine ⟨.inr ⟨rfl, rfl⟩, nofun, nofun, fun m hm => ?_, by decide, nofun, rfl⟩
  obtain rfl : m = {} := hm
  rfl

theorem Operated.keeping {s : FileEngine} {d : Disk} (h : Operated s d) : Keeping s d := by
  induction h with
  | start cluster opens => exact openable_new.opens cluster opens
  | call op allowed _ ih => exact (op.shapes allowed).after ih
  | reopen cluster _ opens ih =>
    obtain ⟨log, b, hkept⟩ := ih
    exact hkept.openable.opens cluster opens

/-! ### The representation -/

/-- What the store's functions on its log rely on. -/
structure LogRepresented (s : FileEngine) (d : Disk) : Prop where
  consecutive : ∀ i e e', s.wal.events[i]? = some e → s.wal.events[i + 1]? = some e' → e'.index = e.index + 1
  first : ∀ e, s.wal.events.head? = some e → e.index ≤ s.commitIndex + 1
  last : ∀ e, s.wal.events.getLast? = some e → s.commitIndex ≤ e.index
  applied : s.state.lastApplied = s.commitIndex
  entry : ∀ i, (s.wal.logEntry i).isSome = true ↔ s.logFirstIndex ≤ i ∧ i ≤ s.lastLogIndex
  index : ∀ i e, s.wal.logEntry i = some e → e.index = i
  lastTerm : (s.logTermAt s.lastLogIndex).isSome = true
  next : ∀ event, (FileEngine.appendEvent event s d).result = .ok () ↔
    s.recoveryRequired = false ∧ event.index = s.lastLogIndex + 1 ∧ (canonicalEvent event).toList.length ≤ maxPayloadBytes
  terms : ∀ i, s.boundary ≤ i → i ≤ s.lastLogIndex → (s.logTermAt i).isSome = true

/-- An append succeeds at the next index only, if the store can be written and the event is not too large. -/
theorem Backed.accepts {log : List Event} {b : Nat} {s : FileEngine} {d : Disk} (h : Backed log b s d) (event : Event) :
    (FileEngine.appendEvent event s d).result = .ok () ↔
      s.recoveryRequired = false ∧ event.index = s.lastLogIndex + 1 ∧ (canonicalEvent event).toList.length ≤ maxPayloadBytes := by
  cases hwritable : s.recoveryRequired with
  | true =>
    obtain ⟨x, hrefused⟩ : ∃ x, (FileEngine.requireWritable s d).result = .error x := by
      unfold FileEngine.requireWritable
      rw [Program.memory_bind, hwritable]
      exact ⟨_, rfl⟩
    refine ⟨fun hok => ?_, fun hbounds => nomatch hbounds.1⟩
    rw [FileEngine.appendEvent, Program.bind_of_error hrefused] at hok
    cases hok
  | false =>
    rw [FileEngine.appendEvent, Program.bind_of_ok (a := ()) (by rw [requireWritable_ok hwritable]), requireWritable_ok hwritable]
    dsimp only
    rw [Program.memory_bind]
    split
    · rename_i hnext
      exact ⟨nofun, fun hbounds => absurd hbounds.2.1 hnext⟩
    · rename_i hnext
      split
      · rename_i hsize
        exact ⟨nofun, fun hbounds => absurd hbounds.2.2 (not_le.mpr hsize)⟩
      · rename_i hsize
        refine ⟨fun _ => ⟨rfl, not_not.mp hnext, not_lt.mp hsize⟩, fun _ => ?_⟩
        exact (checked_runs ((append_runs h.wal h.file h.le_length (not_lt.mp hsize)).bind (.assign _))).1

theorem Backed.represented {log : List Event} {b : Nat} {s : FileEngine} {d : Disk} (h : Backed log b s d) : LogRepresented s d := by
  have hevents : s.wal.events = log.drop b := congrArg WriteAheadLog.events h.wal
  have hnumber : ∀ i e, s.wal.events[i]? = some e → e.index = b + i + 1 := by
    intro i e hi
    rw [hevents, List.getElem?_drop] at hi
    exact h.indexed _ e hi
  have hentry : ∀ i e, s.wal.logEntry i = some e → b < i ∧ log[i - 1]? = some e := by
    intro i e hi
    rw [h.logEntry] at hi
    split at hi
    · rename_i hb
      exact ⟨hb, hi⟩
    · cases hi
  have hle := h.le_length
  have hbase := h.base
  have hboundary := h.boundary
  refine ⟨fun i e e' hi hi' => ?_, fun e he => ?_, fun e he => ?_, h.applied, fun i => ?_, fun i e hi => ?_, ?_, h.accepts, ?_⟩
  · rw [hnumber _ e hi, hnumber _ e' hi']
    omega
  · rw [List.head?_eq_getElem?] at he
    rw [hnumber 0 e he]
    omega
  · rw [List.getLast?_eq_getElem?] at he
    rw [hnumber _ e he]
    have := h.reach
    have := (List.getElem?_eq_some_iff.mp he).1
    rw [hevents, List.length_drop] at *
    omega
  · rw [h.logEntry, h.logFirstIndex, h.lastLogIndex]
    split
    · rw [Option.isSome_iff_ne_none, ne_eq, List.getElem?_eq_none_iff]
      omega
    · refine ⟨nofun, fun hbounds => ?_⟩
      omega
  · obtain ⟨hb, hi⟩ := hentry i e hi
    have := h.indexed _ e hi
    omega
  · rw [h.lastLogIndex]
    exact h.logTermAt (hboundary.trans h.reach) le_rfl
  · rw [h.lastLogIndex]
    exact fun i low high => h.logTermAt low high

/-- At every point of a run the log is represented. -/
theorem log_representation {s : FileEngine} {d : Disk} (h : Operated s d) : LogRepresented s d := by
  obtain ⟨log, b, hkept⟩ := h.keeping
  exact hkept.represented

theorem Operated.calls {ops : List Op} {s s' : FileEngine} {d d' : Disk} (before : Operated s d) (allowed : ∀ op ∈ ops, op.Allowed)
    (returned : calls ops s d = some (s', d')) : Operated s' d' := by
  induction ops generalizing s d with
  | nil =>
    cases returned
    exact before
  | cons op ops ih =>
    have hcall := Operated.call op (allowed op List.mem_cons_self) before
    rw [Storage.calls] at returned
    cases hrun : op.program s d with
    | mk result memory disk images =>
      rw [hrun] at hcall returned
      cases result with
      | error x => cases returned
      | ok => exact ih hcall (fun op hop => allowed op (List.mem_cons_of_mem _ hop)) returned

/-- The log of a store that was reopened after commits and a snapshot. -/
theorem log_representation_reopened : ∃ s d, Operated s d ∧ LogRepresented s d ∧ s.commitIndex = 2 ∧ s.wal.events = [firstNoOp, reused] := by
  obtain ⟨⟨first, second, last⟩, hrun, hfacts⟩ := (Option.any_eq_true _ _).mp reuse_returns
  obtain ⟨-, -, -, -, hcommit, hevents⟩ := of_decide_eq_true hfacts
  simp only [reuse, Option.bind_eq_bind, Option.bind_eq_some_iff, Option.pure_def, Option.some.injEq, Prod.mk.injEq] at hrun
  obtain ⟨start, hstart, first', hcalls, again, hagain, second', hcalls', last', hlast, rfl, rfl, rfl⟩ := hrun
  have hnoop : (Op.append firstNoOp).Allowed := ⟨⟨by decide, by decide, by decide⟩, by decide +kernel, by decide⟩
  have hreused : (Op.append reused).Allowed := ⟨⟨by decide, by decide, by decide⟩, by decide +kernel, by decide⟩
  have hfirst : Operated first'.1 first'.2 :=
    (Operated.start rfl (opens_of_reopened hstart)).calls (by simpa [Op.Allowed] using hnoop) hcalls
  have hsecond : Operated second'.1 second'.2 :=
    (Operated.reopen rfl hfirst (opens_of_reopened hagain)).calls (by simpa [Op.Allowed] using hreused) hcalls'
  have hlast := Operated.reopen rfl hsecond (opens_of_reopened hlast)
  exact ⟨_, _, hlast, log_representation hlast, hcommit, hevents⟩

end Choreolog.Storage
