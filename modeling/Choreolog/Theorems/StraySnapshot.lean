import Choreolog.Theorems.Assemble

/-! # A snapshot file beyond the commit index

Opening looks at one snapshot file only, the first one by descending name that verifies. A file beyond the commit
index that comes first hides the snapshots before it, and the log alone has to make up for them. -/

namespace Choreolog.Storage
open Lib State

/-- A file is added to the snapshots folder. -/
def Disk.withSnapshot (d : Disk) (name : String) (bytes : File) : Disk := { d with snapshots := d.snapshots.insert name bytes }

/-- A file of this name is not looked at, or only after another one that verifies. -/
def Overlooks (d : Disk) (name : String) : Prop :=
  snapshotIndex name = none ∨ ∃ file ∈ snapshotFiles d, name < file.name ∧ ∃ snapshot, readSnapshot file.bytes = .ok snapshot

/-! ### Selecting a snapshot -/

def snapshotFileOf (entry : String × File) : Option SnapshotFile :=
  (snapshotIndex entry.1).map fun index => ⟨index, entry.1, entry.2⟩

theorem snapshotFileOf_name {entry : String × File} {file : SnapshotFile} (h : snapshotFileOf entry = some file) :
    file.name = entry.1 := by
  obtain ⟨index, -, rfl⟩ := Option.map_eq_some_iff.mp h
  rfl

theorem toOption_eq_some {α : Type} {x : Result α} {a : α} : x.toOption = some a ↔ x = .ok a := by
  cases x <;> simp [Except.toOption]

/-- An added file is looked at after the files with greater names and before those with smaller ones. -/
theorem selected_insert {d : Disk} {name : String} (absent : d.snapshots.find? name = none) :
    ∃ before after : Option Snapshot, selected d = before.or after ∧
      (∀ bytes, selected (d.withSnapshot name bytes) =
        before.or (((snapshotIndex name).bind fun _ => (readSnapshot bytes).toOption).or after)) ∧
      (before = none ↔ ¬∃ file ∈ snapshotFiles d, name < file.name ∧ ∃ snapshot, readSnapshot file.bytes = .ok snapshot) := by
  obtain ⟨front, back, hentries, hinsert, hlow, hhigh⟩ := OrdMap.entries_insert_absent absent
  let read : SnapshotFile → Option Snapshot := fun file => (readSnapshot file.bytes).toOption
  let files : List (String × File) → Option Snapshot := fun l => ((l.filterMap snapshotFileOf).reverse).findSome? read
  have happend : ∀ l l', files (l ++ l') = (files l').or (files l) := by
    intro l l'
    simp only [files, List.filterMap_append, List.reverse_append, List.findSome?_append]
  refine ⟨files back, files front, ?_, fun bytes => ?_, ?_⟩
  · rw [← happend, ← hentries]
    rfl
  · have hone : files [(name, bytes)] = (snapshotIndex name).bind fun _ => (readSnapshot bytes).toOption := by
      simp only [files, snapshotFileOf, List.filterMap_cons, List.filterMap_nil]
      cases snapshotIndex name with
      | none => rfl
      | some index => simp only [Option.map_some, List.reverse_singleton, List.findSome?_singleton, read, Option.bind_some]
    have hsplit : front ++ (name, bytes) :: back = front ++ ([(name, bytes)] ++ back) := rfl
    rw [← hone, ← Option.or_assoc, ← happend, ← happend, ← hsplit, ← hinsert]
    rfl
  · simp only [files, List.findSome?_eq_none_iff, List.mem_reverse, List.mem_filterMap]
    constructor
    · rintro hnone ⟨file, hfile, hlt, snapshot, hread⟩
      obtain ⟨entry, hentry, hof⟩ := List.mem_filterMap.mp (List.mem_reverse.mp hfile)
      have hof : snapshotFileOf entry = some file := hof
      have hmem : entry ∈ back := by
        rw [hentries] at hentry
        rcases List.mem_append.mp hentry with hentry | hentry
        · exact absurd (hlow entry hentry) (not_lt.mpr (snapshotFileOf_name hof ▸ hlt.le))
        · exact hentry
      have := hnone file ⟨entry, hmem, hof⟩
      simp only [read, hread] at this
      cases this
    · rintro hno file ⟨entry, hentry, hof⟩
      refine Option.eq_none_iff_forall_ne_some.mpr fun snapshot hread => hno ⟨file, ?_, ?_, snapshot, toOption_eq_some.mp hread⟩
      · exact List.mem_reverse.mpr (List.mem_filterMap.mpr ⟨entry, hentries ▸ List.mem_append_right _ hentry, hof⟩)
      · exact snapshotFileOf_name hof ▸ hhigh entry hentry

theorem selected_withSnapshot {d : Disk} {name : String} {bytes : File} {stray : Snapshot}
    (absent : d.snapshots.find? name = none) (verifies : readSnapshot bytes = .ok stray) :
    (Overlooks d name → selected (d.withSnapshot name bytes) = selected d) ∧
    (¬Overlooks d name → selected (d.withSnapshot name bytes) = some stray) := by
  obtain ⟨before, after, hold, hnew, hbefore⟩ := selected_insert absent
  rw [hold, hnew, verifies]
  constructor
  · rintro (hindex | hother)
    · rw [hindex]
      rfl
    · obtain ⟨x, hx⟩ := Option.ne_none_iff_exists'.mp (fun hnone => hbefore.mp hnone hother)
      rw [hx]
      rfl
  · intro hno
    obtain ⟨hindex, hother⟩ := not_or.mp hno
    obtain ⟨index, hindex⟩ := Option.ne_none_iff_exists'.mp hindex
    rw [hbefore.mpr hother, hindex]
    rfl

/-- A file that does not verify is passed over. -/
theorem selected_unverified {d : Disk} {name : String} {bytes : File} {x : Error} (absent : d.snapshots.find? name = none)
    (fails : readSnapshot bytes = .error x) : selected (d.withSnapshot name bytes) = selected d := by
  obtain ⟨before, after, hold, hnew, -⟩ := selected_insert absent
  rw [hold, hnew, fails]
  cases snapshotIndex name <;> rfl

/-! ### Programs that do not look at the snapshots -/

section Blind
variable {μ α β : Type}

/-- The program does the same whatever the snapshot files are, and leaves them alone. -/
def Blind (m : Store μ α) : Prop := ∀ s d snapshots,
  (m s { d with snapshots }).result = (m s d).result ∧ (m s { d with snapshots }).memory = (m s d).memory ∧
    (m s { d with snapshots }).disk = { (m s d).disk with snapshots }

namespace Blind

theorem pure (a : α) : Blind (pure a : Store μ α) := fun _ _ _ => ⟨rfl, rfl, rfl⟩

theorem of (x : Result α) : Blind (Program.of x : Store μ α) := fun _ _ _ => ⟨rfl, rfl, rfl⟩

theorem bind {m : Store μ α} {f : α → Store μ β} (first : Blind m) (rest : ∀ a, Blind (f a)) : Blind (m >>= f) := by
  intro s d snapshots
  obtain ⟨hresult, hmemory, hdisk⟩ := first s d snapshots
  cases hm : (m s d).result with
  | error e =>
    rw [Program.bind_of_error hm, Program.bind_of_error (hresult.trans hm)]
    exact ⟨rfl, hmemory, hdisk⟩
  | ok a =>
    rw [Program.bind_of_ok hm, Program.bind_of_ok (hresult.trans hm), hmemory, hdisk]
    exact rest a _ _ snapshots

theorem bind_disk {f : Disk → Store μ β} (same : ∀ d snapshots, f { d with snapshots } = f d) (rest : ∀ d, Blind (f d)) :
    Blind (Program.disk >>= f) := by
  intro s d snapshots
  have hdisk : ∀ d, ((Program.disk : Store μ Disk) >>= f) s d = { f d s d with images := [] ++ (f d s d).images } :=
    fun d => Program.bind_of_ok rfl
  rw [hdisk, hdisk, same]
  exact rest d s d snapshots

theorem ite {c : Prop} [Decidable c] {m m' : Store μ α} (yes : Blind m) (no : Blind m') : Blind (if c then m else m') := by
  split
  · exact yes
  · exact no

theorem load : Blind (WriteAheadLog.load : Store μ WriteAheadLog) := by
  refine bind_disk (fun _ _ => rfl) fun d => ?_
  split
  · exact of _
  · refine bind (of _) fun records => ite (bind ?_ fun _ => pure _) (pure _)
    exact fun _ _ _ => ⟨rfl, rfl, rfl⟩

theorem «open» : Blind (WriteAheadLog.open : Store μ WriteAheadLog) := by
  refine bind_disk (fun _ _ => rfl) fun d => ite (bind ?_ fun _ => bind ?_ fun _ => load) load
  · exact fun _ _ _ => ⟨rfl, rfl, rfl⟩
  · exact fun _ _ _ => ⟨rfl, rfl, rfl⟩

theorem loadMetadata : Blind (loadMetadata : Store μ NodeMetadata) := by
  refine bind_disk (fun _ _ => rfl) fun d => ?_
  split
  · exact pure _
  · exact of _

end Blind

end Blind

/-! ### Recovery of a pending install -/

/-- The files of an install. -/
def Disk.installed (d : Disk) (t : SnapshotTransaction) : Disk := { d with
  snapshots := d.snapshots.insert (snapshotName t.index.toNat) t.snapshot
  pruned := d.pruned.erase (snapshotName t.index.toNat)
  metadata := some t.metadata, wal := some t.wal, tail := [], journal := none, removed := none }

theorem recovers_idle_iff {d recovered : Disk} (journal : d.journal = none) :
    Recovers d recovered ↔ { d with removed := none } = recovered := by
  obtain ⟨⟨snapshots, metadata, wal, _⟩, pruned, tail, removed⟩ := d
  cases journal
  exact and_iff_right rfl

theorem recovers_pending_iff {d recovered : Disk} {bytes : File} (journal : d.journal = some bytes) :
    Recovers d recovered ↔ ¬maximumBytes < bytes.length ∧
      ∃ t, SnapshotTransaction.decode bytes = .ok t ∧ d.installed t = recovered := by
  obtain ⟨⟨snapshots, metadata, wal, _⟩, pruned, tail, removed⟩ := d
  cases journal
  unfold Recovers recoverSnapshotTransaction
  rw [Program.bind_of_ok rfl]
  dsimp only [Program.disk]
  by_cases hbig : maximumBytes < bytes.length
  · rw [if_pos hbig]
    exact iff_of_false (fun h => nomatch h.1) fun h => h.1 hbig
  · rw [if_neg hbig, and_iff_right hbig]
    cases hdecode : SnapshotTransaction.decode bytes with
    | error e => exact iff_of_false (fun h => nomatch h.1) (by rintro ⟨t, ht, -⟩; cases ht)
    | ok t =>
      rw [Program.bind_of_ok rfl]
      refine ⟨fun h => ⟨t, rfl, h.2⟩, ?_⟩
      rintro ⟨t', ht, rfl⟩
      cases ht
      exact ⟨rfl, rfl⟩

/-- A file that is added before the recovery is there after it, unless the install has a file of its name. -/
theorem recovers_withSnapshot {d recovered : Disk} {name : String} (bytes : File) (h : Recovers d recovered)
    (absent : d.snapshots.find? name = none) :
    (recovered.snapshots.find? name = none → Recovers (d.withSnapshot name bytes) (recovered.withSnapshot name bytes)) ∧
    (recovered.snapshots.find? name ≠ none → Recovers (d.withSnapshot name bytes) recovered) := by
  cases hj : d.journal with
  | none =>
    have hkept := (recovers_idle_iff hj).mp h
    refine ⟨fun _ => ?_, fun hne => ?_⟩
    · rw [recovers_idle_iff (d := d.withSnapshot name bytes) hj, ← hkept]
      rfl
    · rw [← hkept] at hne
      exact absurd absent hne
  | some journal =>
    obtain ⟨hsize, t, hdecode, rfl⟩ := (recovers_pending_iff hj).mp h
    rw [recovers_pending_iff (d := d.withSnapshot name bytes) hj, recovers_pending_iff (d := d.withSnapshot name bytes) hj]
    have hfind : (d.installed t).snapshots.find? name = if snapshotName t.index.toNat = name then some t.snapshot else none := by
      rw [Disk.installed, OrdMap.find?_insert, absent]
    refine ⟨fun hnone => ⟨hsize, t, hdecode, ?_⟩, fun hne => ⟨hsize, t, hdecode, ?_⟩⟩
    · have hother : snapshotName t.index.toNat ≠ name := fun heq => by simp [hfind, heq] at hnone
      have hswap : ((d.snapshots.insert name bytes).insert (snapshotName t.index.toNat) t.snapshot) =
          (d.snapshots.insert (snapshotName t.index.toNat) t.snapshot).insert name bytes := by
        refine OrdMap.ext_find? fun x => ?_
        simp only [OrdMap.find?_insert]
        by_cases hx : snapshotName t.index.toNat = x
        · rw [if_pos hx, if_pos hx, if_neg fun hn => hother (hx.trans hn.symm)]
        · rw [if_neg hx, if_neg hx]
      simp only [Disk.installed, Disk.withSnapshot, hswap]
    · have hsame : snapshotName t.index.toNat = name := by
        by_contra hother
        exact hne (by rw [hfind, if_neg hother])
      have hover : (d.snapshots.insert name bytes).insert name t.snapshot = d.snapshots.insert name t.snapshot := by
        refine OrdMap.ext_find? fun x => ?_
        simp only [OrdMap.find?_insert]
        by_cases hx : name = x
        · rw [if_pos hx, if_pos hx]
        · rw [if_neg hx, if_neg hx, if_neg hx]
      simp only [Disk.installed, Disk.withSnapshot, hsame, hover]

/-! ### What opening reads -/

theorem Reads.withSnapshot {d : Disk} {wal : WriteAheadLog} {metadata : NodeMetadata} {read : Disk} (h : Reads d wal metadata read)
    {name : String} (bytes : File) (absent : d.snapshots.find? name = none) :
    (read.snapshots.find? name = none → Reads (d.withSnapshot name bytes) wal metadata (read.withSnapshot name bytes)) ∧
    (read.snapshots.find? name ≠ none → Reads (d.withSnapshot name bytes) wal metadata read) := by
  obtain ⟨hcontiguous, hmetadata, recovered, hrecovers, hlog, rfl⟩ := h
  have hsnapshots : (WriteAheadLog.open () recovered).disk.snapshots = recovered.snapshots := by
    have hdisk : (WriteAheadLog.open () recovered).disk =
        { (WriteAheadLog.open () recovered).disk with snapshots := recovered.snapshots } :=
      (Blind.open () recovered recovered.snapshots).2.2
    rw [hdisk]
  rw [hsnapshots]
  obtain ⟨hkept, hreplaced⟩ := recovers_withSnapshot bytes hrecovers absent
  refine ⟨fun hnone => ⟨hcontiguous, ?_, _, hkept hnone, ?_, ?_⟩, fun hne => ⟨hcontiguous, hmetadata, _, hreplaced hne, hlog, rfl⟩⟩
  · exact (Blind.loadMetadata () _ _).1.trans hmetadata
  · exact (Blind.open () recovered _).1.trans hlog
  · rw [Disk.withSnapshot, Disk.withSnapshot, hsnapshots]
    exact (Blind.open () recovered _).2.2

theorem Reads.unique {d : Disk} {wal wal' : WriteAheadLog} {metadata metadata' : NodeMetadata} {read read' : Disk}
    (h : Reads d wal metadata read) (h' : Reads d wal' metadata' read') : wal = wal' ∧ metadata = metadata' ∧ read = read' := by
  obtain ⟨-, hmetadata, recovered, hrecovers, hlog, rfl⟩ := h
  obtain ⟨-, hmetadata', recovered', hrecovers', hlog', rfl⟩ := h'
  obtain rfl := hrecovers.unique hrecovers'
  exact ⟨Except.ok.inj (hlog.symm.trans hlog'), Except.ok.inj (hmetadata.symm.trans hmetadata'), rfl⟩

/-- Opening, once it is known what is read. -/
theorem open_reads_iff {options : StoreOptions} (cluster : options.commitOnAppend = false) {d : Disk} {wal : WriteAheadLog}
    {metadata : NodeMetadata} {read : Disk} (h : Reads d wal metadata read) {e : FileEngine} :
    (FileEngine.open options () d).result = .ok e ↔ assemble options wal metadata (selected read) = .ok e := by
  rw [open_iff cluster]
  refine ⟨?_, fun he => ⟨wal, metadata, read, h, he⟩⟩
  rintro ⟨wal', metadata', read', h', he⟩
  obtain ⟨rfl, rfl, rfl⟩ := h.unique h'
  exact he

/-! ### The log alone -/

/-- The two stores have the same commit index, log, canonical state and receipts. -/
structure Same (e e' : FileEngine) : Prop where
  commitIndex : e'.commitIndex = e.commitIndex
  log : e'.wal.events = e.wal.events
  state : canonicalState e'.state.toDomain = canonicalState e.state.toDomain
  receipts : e'.state.receipts = e.state.receipts

theorem Same.refl (e : FileEngine) : Same e e := ⟨rfl, rfl, rfl, rfl⟩

/-- No snapshot is needed for the state of `e`: the log holds the committed history from the first event on, and
    replaying it gives that state. -/
structure LogSuffices (options : StoreOptions) (records : List Event) (commit : Nat) (e : FileEngine) : Prop where
  whole : ∀ first, records.head? = some first → first.index ≤ 1
  replays : ∃ s, (FileEngine.replayed records 0 commit).foldlM apply {} = .ok s ∧ commit ≤ s.lastApplied ∧
    canonicalState s.toDomain = canonicalState e.state.toDomain ∧ s.receipts = e.state.receipts ∧
    (options.compactLog = true → ∀ entry ∈ s.appliedEvents.entries, ∃ event, parseEvent entry.2 = .ok event)

theorem lastApplied_foldlM {events : List Event} {c s : ChoreographyState} (h : events.foldlM apply c = .ok s) :
    s.lastApplied = c.lastApplied ∨ ∃ e ∈ events, s.lastApplied = e.index := by
  induction events generalizing c with
  | nil =>
    cases h
    exact .inl rfl
  | cons e events ih =>
    rw [List.foldlM_cons] at h
    obtain ⟨t, ht, h⟩ := bind_ok h
    rcases ih h with heq | ⟨e', he', heq⟩
    · cases applyAgainst_cases ht with
      | known known => exact .inl heq
      | fresh d new later index mutated => exact .inr ⟨e, List.mem_cons_self, heq⟩
    · exact .inr ⟨e', List.mem_cons_of_mem _ he', heq⟩

theorem index_le_last {events : List Event} (h : FileEngine.contiguous events = true) {last : Event}
    (hlast : events.getLast? = some last) : ∀ e ∈ events, e.index ≤ last.index := by
  induction events with
  | nil => nofun
  | cons event rest ih =>
    cases rest with
    | nil =>
      obtain rfl : event = last := Option.some.inj hlast
      intro e he
      rw [List.mem_singleton.mp he]
    | cons next rest =>
      rw [FileEngine.contiguous, Bool.and_eq_true, Bool.and_eq_true, decide_eq_true_eq, decide_eq_true_eq] at h
      have hrest := ih h.2 (by rw [List.getLast?_cons_cons] at hlast; exact hlast)
      intro e he
      rcases List.mem_cons.mp he with rfl | he
      · have := hrest next List.mem_cons_self
        omega
      · exact hrest e he

theorem retained_same {store e : FileEngine} {anchor : Nat} (h : store.retained anchor = .ok e) :
    e.commitIndex = store.commitIndex ∧ e.wal = store.wal ∧ e.state.toDomain = store.state.toDomain ∧
      e.state.receipts = store.state.receipts := by
  unfold FileEngine.retained at h
  split at h
  · obtain ⟨state, hstate, h⟩ := bind_ok h
    cases h
    have hretained := retainStateHistoryFrom_cases hstate
    exact ⟨rfl, rfl, hretained.domain, hretained.receipts⟩
  · cases h
    exact ⟨rfl, rfl, rfl, rfl⟩

theorem mapM_each {α β : Type} {f : α → Result β} {l : List α} {bs : List β} (h : l.mapM f = .ok bs) :
    ∀ a ∈ l, ∃ b, f a = .ok b := by
  induction l generalizing bs with
  | nil => nofun
  | cons a l ih =>
    rw [List.mapM_cons] at h
    obtain ⟨b, hb, h⟩ := bind_ok h
    obtain ⟨rest, hrest, -⟩ := bind_ok h
    intro x hx
    rcases List.mem_cons.mp hx with rfl | hx
    · exact ⟨b, hb⟩
    · exact ih hrest x hx

theorem retained_ok_iff (store : FileEngine) {anchor : Nat} : (∃ e, store.retained anchor = .ok e) ↔
    (store.options.compactLog = true → ∀ entry ∈ store.state.appliedEvents.entries, ∃ event, parseEvent entry.2 = .ok event) := by
  unfold FileEngine.retained
  by_cases hcompact : store.options.compactLog = true
  · rw [if_pos hcompact, forall_prop_of_true hcompact]
    constructor
    · rintro ⟨e, he⟩ entry hentry
      obtain ⟨state, hstate, -⟩ := bind_ok he
      obtain ⟨events, hevents, -⟩ := bind_ok hstate
      exact mapM_each hevents entry hentry
    · intro hall
      obtain ⟨events, hevents⟩ := mapM_total hall
      unfold retainStateHistoryFrom
      rw [hevents]
      exact ⟨_, rfl⟩
  · rw [if_neg hcompact]
    exact iff_of_true ⟨_, rfl⟩ fun h => absurd h hcompact

/-- A snapshot beyond the commit index counts as none. -/
theorem assemble_beyond {options : StoreOptions} {wal : WriteAheadLog} {metadata : NodeMetadata} {stray : Snapshot}
    (beyond : metadata.commitIndex < stray.index) :
    assemble options wal metadata (some stray) = assemble options wal metadata none := by
  have hrestore : FileEngine.restoreSnapshot wal.events metadata.commitIndex (some stray) = .ok {} := if_pos beyond
  unfold assemble
  rw [hrestore]
  rfl

theorem assemble_none_iff {options : StoreOptions} {wal : WriteAheadLog} {metadata : NodeMetadata} {e : FileEngine} :
    assemble options wal metadata none = .ok e ↔ (∀ first, wal.events.head? = some first → first.index ≤ 1) ∧
      ∃ s, (FileEngine.replayed wal.events 0 metadata.commitIndex).foldlM apply {} = .ok s ∧ metadata.commitIndex ≤ s.lastApplied ∧
        ∃ anchor, ({ options, wal, state := s, commitIndex := metadata.commitIndex, snapshot := none } : FileEngine).logFirstIndex = anchor ∧
          ({ options, wal, state := s, commitIndex := metadata.commitIndex, snapshot := none } : FileEngine).retained anchor = .ok e := by
  have hhead : (({} : FileEngine.Restored).startAfter = 0 ∧ wal.events.head?.any (1 < ·.index) = true) ↔
      ¬∀ first, wal.events.head? = some first → first.index ≤ 1 := by
    rw [and_iff_right rfl, Option.any_eq_true]
    push Not
    simp only [decide_eq_true_eq]
  unfold assemble FileEngine.restoreSnapshot
  change (if _ then _ else _ : Result FileEngine) = _ ↔ _
  by_cases hbad : ({} : FileEngine.Restored).startAfter = 0 ∧ wal.events.head?.any (1 < ·.index) = true
  · rw [if_pos hbad]
    exact iff_of_false nofun fun h => hhead.mp hbad h.1
  · rw [if_neg hbad, and_iff_right (not_not.mp fun h => hbad (hhead.mpr h))]
    constructor
    · intro h
      obtain ⟨w, hw, h⟩ := bind_ok h
      cases hw
      obtain ⟨s, hs, h⟩ := bind_ok h
      split at h
      · cases h
      · rename_i hreach
        exact ⟨s, hs, not_lt.mp hreach, _, rfl, h⟩
    · rintro ⟨s, hs, hreach, anchor, rfl, h⟩
      change ((FileEngine.replayed wal.events 0 metadata.commitIndex).foldlM apply {} >>= _ : Result FileEngine) = _
      rw [hs]
      change (if _ then _ else _ : Result FileEngine) = _
      rw [if_neg (not_lt.mpr hreach)]
      exact h

/-- The log of an assembled store: the one that was read, unless a snapshot at the commit index is past its end. -/
theorem assemble_log {options : StoreOptions} {wal : WriteAheadLog} {metadata : NodeMetadata} {snapshot : Option Snapshot}
    {e : FileEngine} (h : assemble options wal metadata snapshot = .ok e) : e.commitIndex = metadata.commitIndex ∧
      (e.wal = wal ∨ ∃ last, wal.events.getLast? = some last ∧ last.index < metadata.commitIndex) := by
  obtain ⟨restored, -, h⟩ := bind_ok h
  split at h
  · cases h
  · obtain ⟨w, hw, h⟩ := bind_ok h
    obtain ⟨s, hs, h⟩ := bind_ok h
    split at h
    · cases h
    · obtain ⟨hcommit, hwal, -⟩ := retained_same h
      refine ⟨hcommit, ?_⟩
      rw [hwal]
      unfold joined at hw
      split at hw
      · cases hw
        exact .inl rfl
      · split at hw
        · rename_i last hfirst hlast
          split at hw
          · rename_i hpast
            split at hw
            · cases hw
            · rename_i hmatch
              rw [not_or, not_not] at hmatch
              exact .inr ⟨last, hlast, hmatch.1 ▸ hpast⟩
          · split at hw
            · cases hw
            · split at hw
              · cases hw
              · cases hw
                exact .inl rfl
        · cases hw
          exact .inl rfl

theorem logSuffices_iff {options : StoreOptions} {wal : WriteAheadLog} {metadata : NodeMetadata} {snapshot : Option Snapshot}
    {e : FileEngine} (contiguous : FileEngine.contiguous wal.events = true) (h : assemble options wal metadata snapshot = .ok e) :
    (∃ e', assemble options wal metadata none = .ok e' ∧ Same e e') ↔ LogSuffices options wal.events metadata.commitIndex e := by
  obtain ⟨hcommit, hlog⟩ := assemble_log h
  constructor
  · rintro ⟨e', he', hsame⟩
    obtain ⟨hwhole, s, hs, hreach, anchor, -, hretained⟩ := assemble_none_iff.mp he'
    obtain ⟨-, -, hdomain, hreceipts⟩ := retained_same hretained
    exact ⟨hwhole, s, hs, hreach, by rw [← hsame.state, hdomain], by rw [← hsame.receipts, hreceipts],
      (retained_ok_iff _).mp ⟨e', hretained⟩⟩
  · rintro ⟨hwhole, s, hs, hreach, hdomain, hreceipts, hparse⟩
    obtain ⟨e', hretained⟩ := (retained_ok_iff ⟨options, wal, s, metadata.commitIndex, none, false⟩).mpr hparse
    refine ⟨e', assemble_none_iff.mpr ⟨hwhole, s, hs, hreach, _, rfl, hretained⟩, ?_⟩
    obtain ⟨hcommit', hwal', hdomain', hreceipts'⟩ := retained_same hretained
    refine ⟨hcommit'.trans hcommit.symm, ?_, by rw [hdomain', hdomain], hreceipts'.trans hreceipts⟩
    rw [hwal']
    rcases hlog with hlog | ⟨last, hlast, hpast⟩
    · rw [hlog]
    · -- The replay cannot go past the end of the log.
      exfalso
      rcases lastApplied_foldlM hs with hzero | ⟨event, hevent, hindex⟩
      · have hnone : ({} : ChoreographyState).lastApplied = 0 := rfl
        omega
      · have hmem : event ∈ wal.events := (List.takeWhile_sublist _).subset (List.mem_of_mem_filter hevent)
        have := index_le_last contiguous hlast event hmem
        omega

/-- Adding a verifiable snapshot file beyond the commit index to a directory that opens in cluster mode. The
    directory opens as before just when the file is overwritten by a pending install, is not the one that is
    selected, or no snapshot is needed. -/
theorem straySnapshot_ignored_iff {options : StoreOptions} (cluster : options.commitOnAppend = false) {d : Disk} {e : FileEngine}
    (opens : (FileEngine.open options () d).result = .ok e) {wal : WriteAheadLog} {metadata : NodeMetadata} {read : Disk}
    (reads : Reads d wal metadata read) {name : String} (absent : d.snapshots.find? name = none) {bytes : File} {stray : Snapshot}
    (verifies : readSnapshot bytes = .ok stray) (beyond : metadata.commitIndex < stray.index) :
    (∃ e', (FileEngine.open options () (d.withSnapshot name bytes)).result = .ok e' ∧ Same e e') ↔
      read.snapshots.find? name ≠ none ∨ Overlooks read name ∨ LogSuffices options wal.events metadata.commitIndex e := by
  have he := (open_reads_iff cluster reads).mp opens
  obtain ⟨hkept, hreplaced⟩ := reads.withSnapshot bytes absent
  by_cases hover : read.snapshots.find? name = none
  · rw [or_iff_right (not_not.mpr hover)]
    have hreads := hkept hover
    obtain ⟨hsame, hstray⟩ := selected_withSnapshot hover verifies
    by_cases hoverlooks : Overlooks read name
    · refine iff_of_true ⟨e, (open_reads_iff cluster hreads).mpr ?_, .refl e⟩ (.inl hoverlooks)
      rw [hsame hoverlooks]
      exact he
    · rw [or_iff_right hoverlooks, ← logSuffices_iff reads.contiguous he]
      refine exists_congr fun e' => and_congr_left fun _ => ?_
      rw [open_reads_iff cluster hreads, hstray hoverlooks, assemble_beyond beyond]
  · exact iff_of_true ⟨e, (open_reads_iff cluster (hreplaced hover)).mpr he, .refl e⟩ (.inl hover)

/-! ### A hidden snapshot -/

def clustered : StoreOptions := { commitOnAppend := false }

/-- The bytes of the snapshot file of a state. -/
def encodedFile (state : ChoreographyState) : File := (encodeSnapshot state).toOption.getD []

def secondNoOp : Event :=
  { firstNoOp with id := ⟨"noop-1-2", by decide⟩, commandId := ⟨"noop-1-2", by decide⟩, index := 2 }

/-- A directory as an install leaves it: a snapshot at index 1, which the metadata cover, and an empty log. -/
def justInstalled : Disk where
  snapshots := OrdMap.empty.insert (snapshotName 1) (encodedFile (advance {} firstNoOp))
  metadata := (encodeMetadata { term := 1, commitIndex := 1 }).toOption
  wal := some walFileHeader

set_option maxRecDepth 20000 in
/-- The directory opens with the state at index 1. With a snapshot file of index 2 beside it, it does not open. -/
theorem straySnapshot_hides :
    (FileEngine.open clustered () justInstalled).result.toOption.map (fun e => (e.commitIndex, e.state.lastApplied)) =
      some (1, 1) ∧
    (readSnapshot (encodedFile (advance (advance {} firstNoOp) secondNoOp))).toOption.map (·.index) = some 2 ∧
    (FileEngine.open clustered () (justInstalled.withSnapshot (snapshotName 2)
      (encodedFile (advance (advance {} firstNoOp) secondNoOp)))).result.isOk = false := by
  decide +kernel

set_option maxRecDepth 20000 in
/-- In a new directory the file is ignored. -/
theorem straySnapshot_ignored_new : ∃ e e', (FileEngine.open clustered () { wal := some walFileHeader }).result = .ok e ∧
    (FileEngine.open clustered () (Disk.withSnapshot { wal := some walFileHeader } (snapshotName 1)
      (encodedFile (advance {} firstNoOp)))).result = .ok e' ∧
    Same e e' := by
  have hopens : (FileEngine.open clustered () { wal := some walFileHeader }).result.toOption = some { options := clustered } := by
    decide +kernel
  have hopens := toOption_eq_some.mp hopens
  have hstray : (readSnapshot (encodedFile (advance {} firstNoOp))).toOption.map (·.index) = some 1 := by decide +kernel
  obtain ⟨stray, hread, hindex⟩ := Option.map_eq_some_iff.mp hstray
  obtain ⟨wal, metadata, read, hreads, he⟩ := (open_iff rfl).mp hopens
  obtain ⟨hcommit, hlog⟩ := assemble_log he
  have hzero : metadata.commitIndex = 0 := hcommit.symm
  have hnil : wal = {} := by
    rcases hlog with hlog | ⟨last, -, hpast⟩
    · exact hlog.symm
    · omega
  refine ⟨_, (straySnapshot_ignored_iff rfl hopens hreads rfl (toOption_eq_some.mp hread) (by omega)).mpr
    (.inr (.inr ?_)) |>.imp fun e' h => ⟨hopens, h⟩⟩
  rw [hnil, hzero]
  exact ⟨nofun, {}, rfl, le_rfl, rfl, rfl, fun _ => nofun⟩

end Choreolog.Storage
