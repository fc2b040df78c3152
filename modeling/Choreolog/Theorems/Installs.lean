import Choreolog.Theorems.Commits

/-! # Installing a snapshot

A snapshot of another node's history replaces the committed prefix. The records after it stay if the log
agrees with it at its index. -/

namespace Choreolog.Storage
open Lib State

/-! ### What is installed -/

/-- The log has an entry of the snapshot's term at its index. -/
def Record.agrees (r : Record) (snapshot : Snapshot) : Bool := r.log[snapshot.index - 1]?.any (·.term = snapshot.term)

/-- Where the log file starts after the install: with the snapshot's own entry, if it stays. -/
def installBase (r : Record) (snapshot : Snapshot) : Nat := if r.agrees snapshot then snapshot.index - 1 else snapshot.index

/-- The record after the install. The history before the snapshot is replayed from the origin. -/
def Record.installed (r : Record) (snapshot : Snapshot) (history : List Event) (origin : ChoreographyState) : Record :=
  { r with
    commit := snapshot.index
    term := max r.term snapshot.term
    log := history ++ (if r.agrees snapshot then r.log.drop snapshot.index else [])
    origin }

/-- The snapshot is that of a history. If the log agrees with the snapshot at its index, the entry there is the
    last one of the history. -/
structure Replaces (r : Record) (snapshot : Snapshot) (history : List Event) (origin state : ChoreographyState) : Prop where
  replacement : FileEngine.replacement snapshot = .ok state
  faithful : state.toDomain.dashless = state.toDomain
  indexed : Indexed history
  length : history.length = snapshot.index
  short : history.length < maxIndex
  rooted : Rooted { log := history, origin } (installBase r snapshot)
  offset : origin.lastApplied ≤ history.length
  view : ∃ u, Record.replay { log := history, origin } history.length = .ok u ∧ View u state
  last : ∀ e, r.log[snapshot.index - 1]? = some e → e.term = snapshot.term → history.getLast? = some e

section Install
variable {r : Record} {b : Nat} {newest : Option ChoreographyState} {snapshot : Snapshot} {history : List Event} {origin state : ChoreographyState}

theorem verifySnapshot_cases {verified : ChoreographyState} (h : verifySnapshot snapshot = .ok verified) :
    (if snapshot.legacy then replay snapshot.events none none else restoreState snapshot.statePayload) = .ok verified ∧
      State.stateHash verified.toDomain = snapshot.stateHash ∧ verified.lastApplied = snapshot.index ∧ verified.term = snapshot.term := by
  have hcheck : ∀ s : ChoreographyState, (if State.stateHash s.toDomain ≠ snapshot.stateHash ∨ s.lastApplied ≠ snapshot.index ∨
      s.term ≠ snapshot.term then .error ⟨.storeError, "snapshot state hash does not match its contents"⟩ else .ok s : Result ChoreographyState) = .ok verified →
      s = verified ∧ State.stateHash s.toDomain = snapshot.stateHash ∧ s.lastApplied = snapshot.index ∧ s.term = snapshot.term := by
    intro s hs
    split at hs
    · cases hs
    · rename_i hsame
      simp only [not_or, not_not] at hsame
      exact ⟨Except.ok.inj hs, hsame⟩
  unfold verifySnapshot at h
  dsimp only at h
  split at h
  · rename_i hlegacy
    obtain ⟨s, hs, h⟩ := bind_ok h
    obtain ⟨rfl, hsame⟩ := hcheck s h
    exact ⟨by rw [if_pos hlegacy, hs], hsame⟩
  · rename_i hlegacy
    obtain ⟨s, hs, h⟩ := bind_ok h
    obtain ⟨rfl, hsame⟩ := hcheck s h
    exact ⟨by rw [if_neg hlegacy, hs], hsame⟩

theorem replacement_cases (h : FileEngine.replacement snapshot = .ok state) :
    { snapshot with events := [], statePayload := snapshotPayload state } = Snapshot.ofState state := by
  obtain ⟨verified, hverified, h⟩ := bind_ok h
  obtain ⟨hread, hhash, hindex, hterm⟩ := verifySnapshot_cases hverified
  obtain rfl : verified = state := by
    split at h
    · rename_i hlegacy
      rw [if_pos hlegacy, replay_eq] at hread
      exact Except.ok.inj (hread.symm.trans h)
    · exact Except.ok.inj h
  rw [Snapshot.ofState, hhash, hindex, hterm]

theorem Replaces.index (h : Replaces r snapshot history origin state) : snapshot.index = state.lastApplied ∧ snapshot.term = state.term := by
  have hsnapshot := replacement_cases h.replacement
  exact ⟨congrArg Snapshot.index hsnapshot, congrArg Snapshot.term hsnapshot⟩

theorem keptSuffix_walOf (sound : Sound r b newest) (replaces : Replaces r snapshot history origin state) (later : r.commit < snapshot.index) :
    FileEngine.keptSuffix (walOf (r.log.drop b)) snapshot = (r.installed snapshot history origin).log.drop (installBase r snapshot) := by
  have hlength := replaces.length
  have hbase := sound.base
  have hentry : (walOf (r.log.drop b)).logEntry snapshot.index = r.log[snapshot.index - 1]? := by
    rw [logEntry_walOf sound.indexed, if_pos (by omega)]
  unfold FileEngine.keptSuffix Record.installed installBase
  rw [hentry]
  change (if r.agrees snapshot = true then _ else _) = _
  cases hagrees : r.agrees snapshot with
  | false =>
    simp only [Bool.false_eq_true, if_false, List.append_nil]
    rw [← hlength, List.drop_length]
  | true =>
    simp only [if_true]
    obtain ⟨e, he, hterm⟩ := (Option.any_eq_true _ _).mp hagrees
    obtain ⟨hlt, rfl⟩ := List.getElem?_eq_some_iff.mp he
    have hlast := replaces.last _ he (of_decide_eq_true hterm)
    have hhistory : history.drop (snapshot.index - 1) = [r.log[snapshot.index - 1]] := by
      rw [List.getLast?_eq_getElem?, hlength] at hlast
      obtain ⟨hlt', heq⟩ := List.getElem?_eq_some_iff.mp hlast
      rw [List.drop_eq_getElem_cons hlt', heq, List.drop_eq_nil_of_le (by omega)]
    change (r.log.drop b).filter _ = _
    rw [sound.indexed.filter_from (by omega), List.drop_append_of_le_length (by omega), hhistory, List.drop_eq_getElem_cons hlt, show snapshot.index - 1 + 1 = snapshot.index by omega]
    rfl

theorem Record.replay_installed (replaces : Replaces r snapshot history origin state) :
    ∃ u, (r.installed snapshot history origin).replay snapshot.index = .ok u ∧ View u state := by
  obtain ⟨u, hreplay, hview⟩ := replaces.view
  rw [replaces.length] at hreplay
  have hsame : (r.installed snapshot history origin).replay snapshot.index = Record.replay { log := history, origin } snapshot.index := by
    refine Record.replay_congr rfl ?_
    change (history ++ _).take snapshot.index = history.take snapshot.index
    rw [← replaces.length, List.take_left, List.take_length]
  exact ⟨u, hsame.trans hreplay, hview⟩

theorem installBase_le : installBase r snapshot ≤ snapshot.index := by
  unfold installBase
  split
  · exact Nat.sub_le _ _
  · exact le_rfl

theorem Rooted.install (sound : Sound r b newest) (replaces : Replaces r snapshot history origin state) (later : r.commit < snapshot.index) :
    Rooted (r.installed snapshot history origin) (installBase r snapshot) := by
  have hoffset := replaces.offset
  refine ⟨replaces.rooted.lawful, replaces.rooted.empty, fun e he => ?_, fun e he hpos => ?_, fun hb e he => ?_⟩
  · change e ∈ (history ++ _).drop origin.lastApplied at he
    rw [List.drop_append_of_le_length hoffset] at he
    rcases List.mem_append.mp he with he | he
    · exact replaces.rooted.fits e he
    · split at he
      · rw [← Nat.add_sub_cancel' (sound.base.trans later.le), ← List.drop_drop] at he
        exact (sound.logged e (List.mem_of_mem_drop he)).fits
      · cases he
  · have hlt : origin.lastApplied - 1 < history.length := (Nat.sub_one_lt (Nat.pos_iff_ne_zero.mp hpos)).trans_le hoffset
    refine replaces.rooted.anchor e ?_ hpos
    change (history ++ _)[origin.lastApplied - 1]? = some e at he
    rwa [List.getElem?_append_left hlt] at he
  · refine replaces.rooted.receipts hb e ?_
    change e ∈ (history ++ _).take origin.lastApplied at he
    rwa [List.take_append_of_le_length hoffset] at he

theorem Sound.install (sound : Sound r b newest) (replaces : Replaces r snapshot history origin state) (later : r.commit < snapshot.index) :
    Sound (r.installed snapshot history origin) (installBase r snapshot) (some state) := by
  obtain ⟨hindex, hterm⟩ := replaces.index
  obtain ⟨u, hreplay, hview⟩ := Record.replay_installed replaces
  have hlength := replaces.length
  have hoffset := hlength ▸ replaces.offset
  refine ⟨.install sound replaces later, fun e he => ?_, fun i e hi => ?_, ?_, installBase_le, hoffset, ?_, ?_, ?_, ⟨u, hreplay⟩, nofun, ?_⟩
  · rw [← keptSuffix_walOf sound replaces later] at he
    unfold FileEngine.keptSuffix at he
    split at he
    · exact sound.logged e (List.mem_of_mem_filter he)
    · cases he
  · change (history ++ _)[i]? = some e at hi
    rw [List.getElem?_append] at hi
    split at hi
    · exact replaces.indexed i e hi
    · split at hi
      · rw [List.getElem?_drop] at hi
        rw [sound.indexed _ e hi]
        omega
      · cases hi
  · change (history ++ _).length < maxIndex
    rw [List.length_append]
    have hshort := sound.short
    have hoffered := replaces.short
    split
    · rw [List.length_drop]
      omega
    · rw [List.length_nil]
      omega
  · change snapshot.index ≤ (history ++ _).length
    rw [List.length_append]
    omega
  · exact sound.positive.trans_le (le_max_left _ _)
  · exact max_lt sound.term (hterm ▸ hview.regular.term)
  · rintro _ ⟨⟩
    exact ⟨hview.regular, by omega, hindex.ge, hindex ▸ installBase_le, hindex ▸ hoffset, replaces.faithful, u, hindex ▸ hreplay,
      hview.restore replaces.faithful⟩

/-- The snapshot files beside the installed one are older. -/
def olderFiles (index : Nat) (name : String) (file back : Option File) : Prop :=
  file.isSome ∨ back.isSome → ∃ i, 0 < i ∧ i ≤ index ∧ name = snapshotName i

theorem basis_install {t : SnapshotTransaction} (sound : Sound r b newest) (later : r.commit < t.index.toNat) :
    Basis t (Held r b newest) (olderFiles t.index.toNat) where
  crashed h c := h.crashed c
  idle h := ⟨h.journal, h.removed⟩
  others {d} h name _ hname := by
    cases hnewest : newest with
    | none =>
      have hbare := h.snapshots
      rw [hnewest] at hbare
      obtain ⟨hfile, hpruned⟩ := hbare name
      rw [hfile, hpruned] at hname
      exact absurd hname (by simp)
    | some c =>
      have hsnaps := h.snapshots
      rw [hnewest] at hsnaps
      obtain ⟨-, -, -, hbelow⟩ := hsnaps
      obtain ⟨i, hi, hle, rfl⟩ := hbelow name hname
      have hcommit := (sound.newest c hnewest).committed
      exact ⟨i, hi, by omega, rfl⟩
  kept h hsome := h (.inl (by simpa using hsome))
  back h hsome := h (.inr (by simpa using hsome))

/-- What is decided leads to the new record. -/
theorem Stage.leaves {r' : Record} {t : SnapshotTransaction} {bytes : File} (sound : Sound r b newest) (later : r.commit < t.index.toNat)
    (encoded : t.encode = .ok bytes) (done : ∀ d, Installed t (olderFiles t.index.toNat) d → d.removed = none → Resting r' d) {d : Disk}
    (h : Stage t bytes (Held r b newest) (olderFiles t.index.toNat) d) : Leaves r r' d := by
  have hbasis := basis_install sound later
  have hnone : Basis t (fun _ => False) (olderFiles t.index.toNat) := ⟨False.elim, False.elim, False.elim, hbasis.kept, hbasis.back⟩
  have hpending : Stage t bytes (fun _ => False) (olderFiles t.index.toNat) d → Leaves r r' d := fun hstage =>
    Represents.leaves_after (.inr ⟨t, bytes, _, encoded, hnone, hstage, done⟩)
  cases h with
  | before undecided => exact (undecided.represents sound).leaves_before
  | decided others journal removed => exact hpending (.decided others journal removed)
  | completed installed removed => exact hpending (.completed installed removed)

theorem steady_commitSnapshotTransaction {μ : Type} (t : SnapshotTransaction) :
    Program.Steady (commitSnapshotTransaction t : Store μ Unit) := by
  have happly : Program.Steady (applyTransaction t : Store μ Unit) :=
    .bind (.write _ _) fun _ => .bind (.write _ _) fun _ => .bind (.write _ _) fun _ => .bind (.write _ _) fun _ =>
      .bind .disk fun _ => .ite (.fail _) (.bind (.write _ _) fun _ => .write _ _)
  exact .bind .disk fun _ => .ite (.fail _) (.bind (.of _) fun _ => .bind (.write _ _) fun _ => .bind (.write _ _) fun _ => happly)

theorem steady_open {μ : Type} {events : List Event} (logged : ∀ e ∈ events, Logged e) (s : μ) {d : Disk} (h : d.wal = some (walFile events)) :
    (WriteAheadLog.open : Store μ WriteAheadLog) s d = ⟨.ok (walOf events), s, d, []⟩ := by
  unfold WriteAheadLog.open
  rw [Program.bind_of_ok (a := d) rfl]
  simp only [Program.disk, h, Option.isNone_some, Bool.false_eq_true, if_false, List.nil_append]
  rw [load_file logged s h]


/-- The state that a snapshot holds is installed, with the records after it that stay. -/
theorem installSnapshot_replaces {e : FileEngine} (sound : Sound r b newest) (later : r.commit < snapshot.index)
    (replaces : Replaces r snapshot history origin state) (error : Error → FileEngine → Disk → Prop)
    (refused : ∀ x s d, s = e ∧ Serves r b newest s d → error x s d)
    (failed : ∀ x s d, s = e ∧ Serves r b newest s d → error x { s with recoveryRequired := true } d) :
    Program.Triple (fun s d => s = e ∧ Serves r b newest s d) (FileEngine.installSnapshot snapshot)
      (fun _ s d => (s.options = e.options ∧ (e.options.compactLog = false → s.state = state)) ∧
        Sound (r.installed snapshot history origin) (installBase r snapshot) (some state) ∧
        Serves (r.installed snapshot history origin) (installBase r snapshot) (some state) s d)
      error (Leaves r (r.installed snapshot history origin)) := by
  refine writable (.fact (fun _ _ h => (h.1 ▸ h.2.commitIndex : e.commitIndex = r.commit)) fun hcommit => ?_)
  rw [hcommit, if_neg (not_le.mpr later)]
  refine .fact (fun _ _ h => (h.1 ▸ h.2.events : e.wal = walOf (r.log.drop b))) fun hwal => .bind_of replaces.replacement ?_
  refine .fact (fun _ _ h => (⟨h.1 ▸ h.2.cluster, h.1 ▸ h.2.writable⟩ : e.options.commitOnAppend = false ∧ e.recoveryRequired = false))
    fun hopen => ?_
  obtain ⟨hindex, hterm⟩ := replaces.index
  obtain ⟨u, hreplay, hview⟩ := Record.replay_installed replaces
  have hsound := sound.install replaces later
  have hmetadata : { r.metadata with commitIndex := snapshot.index, term := max r.metadata.term state.term } =
      (r.installed snapshot history origin).metadata := by
    rw [← hterm]
    rfl
  refine .bind_returns (fun s d h => checkedMutation_loadMetadata h.2.metadata s) ?_
  rw [hmetadata, hwal, keptSuffix_walOf sound replaces later]
  refine .bind (fun bytes s d => encodeSnapshot state = .ok bytes ∧ s = e ∧ Serves r b newest s d)
    (.of (fun _ _ _ hbytes h => ⟨hbytes, h⟩) fun x s d _ h => refused x s d h) fun bytes => .fact (fun _ _ h => h.1) fun hbytes => ?_
  refine .bind_of (encodeMetadata_eq _) (.bind_of (encodeWal_ok fun e he => (hsound.logged e he).size) ?_)
  generalize ht : (⟨UInt64.ofNat snapshot.index, bytes, _, walFile ((r.installed snapshot history origin).log.drop (installBase r snapshot))⟩ :
    SnapshotTransaction) = t
  have htindex : t.index.toNat = state.lastApplied := by
    rw [← ht, ← hindex]
    exact UInt64.toNat_ofNat_of_lt' (replaces.length ▸ replaces.short.trans (by decide))
  have hmeta : MetaHeld (r.installed snapshot history origin).metadata (some t.metadata) := by
    rw [← ht]
    exact decodeMetadata_encode hsound.fits (encodeMetadata_eq _)
  have hwalBytes : t.wal = walFile ((r.installed snapshot history origin).log.drop (installBase r snapshot)) := by
    rw [← ht]
  have hsnapshotBytes : t.snapshot = bytes := by
    rw [← ht]
  -- The files of the install are those of the new record.
  have hheld : ∀ d, Installed t (olderFiles t.index.toNat) d → d.removed = none →
      Held (r.installed snapshot history origin) (installBase r snapshot) (some state) d ∧
        d.wal = some (walFile ((r.installed snapshot history origin).log.drop (installBase r snapshot))) := by
    intro d h hremoved
    have himages := h.images
    simp only [Files.images, SnapshotTransaction.images, Prod.mk.injEq, htindex, hwalBytes, hsnapshotBytes] at himages
    obtain ⟨hs, hm, hw⟩ := himages
    refine ⟨⟨?_, hm ▸ hmeta, ⟨bytes, hbytes, hs, fun name hname => ?_⟩, h.journal, hremoved⟩, hw⟩
    · rw [hw, h.tail]
      exact logHeld_file _ (.inl rfl)
    · by_cases hname' : name = snapshotName state.lastApplied
      · exact ⟨state.lastApplied, by omega, le_rfl, hname'⟩
      · have hother := h.others name (htindex ▸ hname') hname
        rwa [htindex] at hother
  cases hencoded : t.encode with
  | error x =>
    refine .onError (.bind (fun _ _ _ => False) (fun s d h => ?_) fun _ _ _ h => h.elim) fun x s d h => failed x s d h
    obtain ⟨x, hrefused⟩ := commitSnapshotTransaction_refused s (.inr ⟨x, hencoded⟩)
    rw [hrefused]
    exact ⟨(by rintro _ ⟨⟩), h.2⟩
  | ok journal =>
    have hcommitted := commitSnapshotTransaction_spec (basis_install sound (t := t) (by omega)) hencoded
      (fun _ (_ : FileEngine) _ => False)
    refine .onError (.bind _ (((hcommitted.steady (steady_commitSnapshotTransaction t) e).consequence ?_ (fun _ _ _ h => h) ?_ ?_)) fun _ => ?_)
      fun _ _ _ (h : False) => h.elim
    · exact fun s d h => ⟨h.2.1, h.2.2.toHeld⟩
    · exact fun _ _ _ h => h.2
    · exact fun d h => h.leaves sound (by omega) hencoded fun d' h' hr => ⟨_, _, hsound, (hheld d' h' hr).1⟩
    refine .bind_returns (fun s d h => steady_open hsound.logged s (hheld d h.2.1 h.2.2).2) ?_
    let store : FileEngine := { e with
      wal := walOf ((r.installed snapshot history origin).log.drop (installBase r snapshot))
      state
      commitIndex := snapshot.index
      snapshot := some { snapshot with events := [], statePayload := snapshotPayload state } }
    refine .bind (fun _ s d => s = store ∧ Serves (r.installed snapshot history origin) (installBase r snapshot) (some state) s d)
      (.assign ?_) fun _ => ?_
    · rintro s d ⟨rfl, h, hremoved⟩
      obtain ⟨hheld, hfile⟩ := hheld d h hremoved
      exact ⟨rfl, hheld, hfile, rfl, ⟨u, hreplay, hview⟩, rfl, congrArg some (replacement_cases replaces.replacement), hopen.1, hopen.2⟩
    refine .bind _ ((pruneSnapshots_spec hsound Nat.one_pos _).consequence (fun _ _ h => h) (fun _ _ _ h => h.1)
      (fun _ _ _ h => h) fun d h => h.leaves_after) fun _ => .bind_memory fun t => .fact (fun _ _ h => (h.1.symm.trans h.2.1 : t = store)) fun ht => ?_
    subst ht
    obtain ⟨hlawful, -⟩ := hsound.replayed hsound.offset hsound.commit hreplay
    obtain ⟨kept, hretained, hkept⟩ := retained_view store hview hlawful.history store.logFirstIndex
    have hkeeps := retained_keeps hretained
    refine .bind_of hretained (.assign fun s d h => ⟨⟨rfl, hkeeps.state⟩, hsound, ?_⟩)
    obtain ⟨-, rfl, h⟩ := h
    exact { h with state := ⟨u, hreplay, hkept⟩ }

end Install

/-! ### The snapshot of a whole history -/

/-- The log replays to this state, and the state's snapshot gives its domain back. -/
structure Told (log : List Event) (u : ChoreographyState) : Prop where
  replay : log.foldlM apply {} = .ok u
  faithful : u.toDomain.dashless = u.toDomain

/-- The snapshot is that of a history. -/
structure Offers (snapshot : Snapshot) (history : List Event) (state : ChoreographyState) : Prop where
  replacement : FileEngine.replacement snapshot = .ok state
  told : ∃ u, Told history u ∧ View u state
  logged : ∀ e ∈ history, Logged e
  indexed : Indexed history
  short : history.length < maxIndex

def Record.install (r : Record) (snapshot : Snapshot) (history : List Event) : Record :=
  if snapshot.index ≤ r.commit then r
  else { r with
    commit := snapshot.index
    term := max r.term snapshot.term
    log := history ++ (if r.agrees snapshot then r.log.drop snapshot.index else []) }

/-- If the log agrees with the snapshot at its index, the entry there is the last one of the history. -/
def Matches (r : Record) (snapshot : Snapshot) (history : List Event) : Prop :=
  ∀ e, r.log[snapshot.index - 1]? = some e → e.term = snapshot.term → history.getLast? = some e

section Whole
variable {r : Record} {snapshot : Snapshot} {history : List Event} {state : ChoreographyState}

theorem Record.replay_whole (h : r.origin = {}) (n : Nat) : r.replay n = (r.log.take n).foldlM apply {} := by
  unfold Record.replay Record.offset
  rw [h]
  rfl

theorem Offers.length (h : Offers snapshot history state) : history.length = snapshot.index := by
  obtain ⟨u, htold, hview⟩ := h.told
  have hfollows : Follows {} history := ⟨fun e he => (h.logged e he).fits, fun i e hi => by rw [h.indexed i e hi]; simp⟩
  obtain ⟨-, hlast, -⟩ := Reached.empty.lawful.fold hfollows htold.replay
  rw [congrArg Snapshot.index (replacement_cases h.replacement), show (Snapshot.ofState state).index = state.lastApplied from rfl,
    hview.domain, hlast]
  simp

theorem Offers.replaces (h : Offers snapshot history state) (last : Matches r snapshot history) : Replaces r snapshot history {} state := by
  obtain ⟨u, htold, hview⟩ := h.told
  refine ⟨h.replacement, ?_, h.indexed, h.length, h.short, ⟨Reached.empty.lawful, fun _ => rfl, ?_, ?_, ?_⟩, Nat.zero_le _, ⟨u, ?_, hview⟩, last⟩
  · rw [hview.domain]
    exact htold.faithful
  · exact fun e he => (h.logged e (List.mem_of_mem_drop he)).fits
  · exact fun _ _ hpos => absurd hpos (lt_irrefl 0)
  · exact fun _ e he => nomatch he
  · rw [Record.replay_whole rfl]
    change (history.take history.length).foldlM apply {} = .ok u
    rw [List.take_length]
    exact htold.replay

/-- A snapshot that does not verify is refused. -/
theorem installSnapshot_refused {x : Error} (later : r.commit < snapshot.index) (refused : FileEngine.replacement snapshot = .error x) :
    Program.Triple (fun e d => Running r e d) (FileEngine.installSnapshot snapshot) (fun _ _ _ => False) (fun _ e d => Running r e d)
      fun _ => False := by
  rintro e d ⟨b, newest, sound, hserves⟩
  have htriple : Program.Triple (fun s d => s = e ∧ Serves r b newest s d) (FileEngine.installSnapshot snapshot) (fun _ _ _ => False)
      (fun _ e d => Running r e d) fun _ => False := by
    refine writable (.fact (fun _ _ h => (h.1 ▸ h.2.commitIndex : e.commitIndex = r.commit)) fun hcommit => ?_)
    rw [hcommit, if_neg (not_le.mpr later)]
    refine .bind (fun _ _ _ => False) (.of ?_ ?_) fun _ _ _ h => h.elim
    · exact fun _ _ _ hok => (nomatch refused.symm.trans hok)
    · exact fun _ s d _ h => ⟨b, newest, sound, h.2⟩
  exact htriple e d ⟨rfl, hserves⟩

theorem installSnapshot_achieves (origin : r.origin = {}) (snapshot : Snapshot) (history : List Event)
    (offers : r.commit < snapshot.index → ∀ state, FileEngine.replacement snapshot = .ok state →
      Offers snapshot history state ∧ Matches r snapshot history) : Achieves r (r.install snapshot history) (FileEngine.installSnapshot snapshot) := by
  refine achieves fun e b newest sound => ?_
  have hrunning : ∀ s d, s = e ∧ Serves r b newest s d → Running r s d := fun s d h => ⟨b, newest, sound, h.2⟩
  rcases Nat.lt_or_ge r.commit snapshot.index with hlater | hle
  · have hinstall : r.install snapshot history = r.installed snapshot history {} := by
      rw [Record.install, if_neg (not_le.mpr hlater), Record.installed, ← origin]
    rw [hinstall]
    cases hstate : FileEngine.replacement snapshot with
    | error x => exact (installSnapshot_refused hlater hstate).consequence hrunning nofun (fun _ _ _ h => .inl h) nofun
    | ok state =>
      obtain ⟨hoffers, hlast⟩ := offers hlater state hstate
      refine (installSnapshot_replaces sound hlater (hoffers.replaces hlast) _ ?_ ?_).consequence (fun _ _ h => h) ?_ (fun _ _ _ h => h) fun _ h => h
      · exact fun _ s d h => .inl (hrunning s d h)
      · exact fun _ s d h => .inr ⟨rfl, .inl (h.2.represents sound)⟩
      · rintro _ s d ⟨-, hsound, hserves⟩
        exact ⟨_, _, hsound, hserves⟩
  · refine writable (.fact (fun _ _ h => (h.1 ▸ h.2.commitIndex : e.commitIndex = r.commit)) fun hcommit => ?_)
    rw [hcommit, if_pos hle, Record.install, if_pos hle]
    exact .strengthen (.pure _) hrunning

end Whole

end Choreolog.Storage
