import Choreolog.Theorems.Operations

/-! # Snapshots of a running store

A snapshot is saved under its own name, older ones are pruned, and only records that the oldest remaining
snapshot covers are dropped from the log. None of this changes the record. -/

namespace Choreolog.Storage
open Lib State

section Snapshots
variable {r : Record} {b : Nat} {c : ChoreographyState} {e : FileEngine} {d : Disk}

/-! ### Compaction -/

theorem load_file {μ : Type} {events : List Event} (logged : ∀ e ∈ events, Logged e) (s : μ) (h : d.wal = some (walFile events)) :
    (WriteAheadLog.load : Store μ WriteAheadLog) s d = ⟨.ok (walOf events), s, d, []⟩ := by
  have hread := readWal_file logged (.inl rfl : Torn [])
  rw [List.append_nil] at hread
  have hlog : (⟨(events.zip (endsFrom fileHeaderBytes events)).map Prod.fst, (events.zip (endsFrom fileHeaderBytes events)).map Prod.snd⟩ :
      WriteAheadLog) = walOf events := by
    rw [List.map_fst_zip (length_endsFrom _ _).ge, List.map_snd_zip (length_endsFrom _ _).le]
    rfl
  unfold WriteAheadLog.load
  rw [Program.bind_of_ok (a := d) rfl]
  simp only [Program.disk, h]
  rw [Program.bind_of_ok (a := events.zip (endsFrom fileHeaderBytes events)) (by rw [hread]; rfl)]
  dsimp only [Program.of]
  rw [hlog, fileEnd_walOf, if_neg (lt_irrefl _)]
  rfl

theorem Sound.withBase {newest : Option ChoreographyState} (h : Sound r b newest) {b' : Nat} (hc : newest = some c) (later : b ≤ b')
    (base : b' ≤ c.lastApplied) : Sound r b' newest := by
  refine { h with
    rooted := { h.rooted with receipts := fun hb => h.rooted.receipts (by omega) }
    logged := fun e he => ?_
    base := base.trans (h.newest c hc).committed
    bare := fun hnone => (nomatch hnone.symm.trans hc)
    newest := fun c' hc' => ?_ }
  · rw [← Nat.add_sub_cancel' later, ← List.drop_drop] at he
    exact h.logged e (List.mem_of_mem_drop he)
  · obtain rfl : c' = c := Option.some.inj (hc'.symm.trans hc)
    exact { h.newest c' hc' with base := base }

/-- The state stays unless the store forgets history. -/
structure Keeps (e s : FileEngine) : Prop where
  options : s.options = e.options
  state : e.options.compactLog = false → s.state = e.state

theorem Keeps.refl (e : FileEngine) : Keeps e e := ⟨rfl, fun _ => rfl⟩

theorem retained_keeps {store : FileEngine} {anchor : Nat} {e : FileEngine} (h : store.retained anchor = .ok e) : Keeps store e := by
  unfold FileEngine.retained at h
  split at h
  · rename_i hcompact
    obtain ⟨state, -, h⟩ := bind_ok h
    cases h
    exact ⟨rfl, fun hkeep => absurd hcompact (ne_true_of_eq_false hkeep)⟩
  · cases h
    exact .refl _

/-- Dropping records that the newest snapshot covers. What is dropped is below the anchor. -/
theorem compact_below (sound : Sound r b (some c)) {anchor : Nat} (positive : 0 < anchor) (covered : anchor ≤ c.lastApplied)
    (error : Error → FileEngine → Disk → Prop) :
    Program.Triple (fun s d => s = e ∧ Serves r b (some c) s d) (FileEngine.compact anchor)
      (fun _ s d => Keeps e s ∧ ∃ b', (b' = b ∨ b' < anchor) ∧ Sound r b' (some c) ∧ Serves r b' (some c) s d) error
      fun d => ∃ b', (b' = b ∨ b' < anchor) ∧ Sound r b' (some c) ∧ Held r b' (some c) d := by
  refine .bind_memory fun t => .fact (fun _ _ h => (h.1.symm.trans h.2.1 : t = e)) fun ht => ?_
  subst ht
  refine .fact (fun _ _ h => (h.2.1 ▸ h.2.2.events : t.wal = walOf (r.log.drop b))) fun hwal => ?_
  have hreturn : Program.Triple (fun s d => s = t ∧ s = t ∧ Serves r b (some c) s d) (pure () : Store FileEngine Unit)
      (fun _ s d => Keeps t s ∧ ∃ b', (b' = b ∨ b' < anchor) ∧ Sound r b' (some c) ∧ Serves r b' (some c) s d) error
      fun d => ∃ b', (b' = b ∨ b' < anchor) ∧ Sound r b' (some c) ∧ Held r b' (some c) d :=
    .strengthen (.pure _) fun s d h => ⟨h.1 ▸ .refl _, b, .inl rfl, sound, h.2.2⟩
  rw [hwal]
  simp only [walOf]
  cases hfirst : (r.log.drop b).head? with
  | none => exact hreturn
  | some first =>
    cases hlast : (r.log.drop b).getLast? with
    | none => exact hreturn
    | some last =>
      have hf := sound.indexed.head hfirst
      refine .ite (fun _ => hreturn) fun hbetween => .onError ?_ fun _ _ _ (h : False) => h.elim
      rw [not_or, not_le, hf] at hbetween
      have hbelow : anchor - 1 = b ∨ anchor - 1 < anchor := .inr (Nat.sub_one_lt positive.ne')
      have hsound : Sound r (anchor - 1) (some c) := sound.withBase rfl (by omega) (by omega)
      have hdrop : (r.log.drop b).drop (anchor - first.index) = r.log.drop (anchor - 1) := by
        rw [hf, List.drop_drop]
        congr 1
        omega
      have hafter : ∀ d, Serves r b (some c) t d → Serves r (anchor - 1) (some c) { t with wal := walOf (r.log.drop (anchor - 1)) }
          { d with wal := some (walFile (r.log.drop (anchor - 1))), tail := [] } := fun d h => h.withLog r rfl rfl rfl _
      rw [hdrop]
      refine .bind (fun wal s d => wal = walOf (r.log.drop (anchor - 1)) ∧ s = t ∧
        Serves r (anchor - 1) (some c) { t with wal := walOf (r.log.drop (anchor - 1)) } d) ?_ fun wal => .fact (fun _ _ h => h.1) fun hw => ?_
      · refine .bind_of (encodeWal_ok fun e he => (hsound.logged e he).size) (.bind (fun _ s d => s = t ∧
          Serves r (anchor - 1) (some c) { t with wal := walOf (r.log.drop (anchor - 1)) } d) (.write ?_ ?_) fun _ => ?_)
        · rintro s d ⟨rfl, -, h⟩
          exact ⟨rfl, hafter d h⟩
        · rintro s d ⟨rfl, -, h⟩
          exact ⟨⟨b, .inl rfl, sound, h.toHeld⟩, (by rintro _ ⟨⟩), anchor - 1, hbelow, hsound, (hafter d h).toHeld⟩
        · refine fun s d h => ?_
          rw [load_file hsound.logged s h.2.file]
          exact ⟨(by rintro _ ⟨⟩), rfl, h⟩
      · subst hw
        refine .bind (fun _ s d => Serves r (anchor - 1) (some c) { t with wal := walOf (r.log.drop (anchor - 1)) } d) (.assign ?_) fun _ => ?_
        · exact fun s d h => h.2.2
        · refine .fact (fun _ _ h => h.state) fun hstate => ?_
          obtain ⟨u, hreplay, hview⟩ := hstate
          obtain ⟨hlawful, -⟩ := sound.replayed sound.offset sound.commit hreplay
          obtain ⟨state, hretained, hview'⟩ :=
            retained_view { t with wal := walOf (r.log.drop (anchor - 1)) } hview hlawful.history anchor
          have hkeeps := retained_keeps hretained
          refine .bind_of hretained (.assign fun s d h => ⟨⟨rfl, hkeeps.state⟩, anchor - 1, hbelow, hsound, ?_⟩)
          exact { h with state := ⟨u, hreplay, hview'⟩ }

theorem compact_spec (sound : Sound r b (some c)) {anchor : Nat} (positive : 0 < anchor) (covered : anchor ≤ c.lastApplied)
    (error : Error → FileEngine → Disk → Prop) :
    Program.Triple (fun s d => s = e ∧ Serves r b (some c) s d) (FileEngine.compact anchor)
      (fun _ s d => Keeps e s ∧ ∃ b', Sound r b' (some c) ∧ Serves r b' (some c) s d) error (Represents r) := by
  refine (compact_below sound positive covered error).consequence (fun _ _ h => h) ?_ (fun _ _ _ h => h) ?_
  · rintro _ s d ⟨hkeeps, b', -, h⟩
    exact ⟨hkeeps, b', h⟩
  · rintro d ⟨b', -, sound', h⟩
    exact h.represents sound'

/-! ### Pruning -/

theorem Serves.removeSnapshot {name : String} {bytes : File} (h : Serves r b (some c) e d) (found : d.snapshots.find? name = some bytes)
    (other : name ≠ snapshotName c.lastApplied) : Serves r b (some c) e { d with
      snapshots := d.snapshots.erase name
      pruned := d.pruned.insert name bytes } := by
  obtain ⟨newest, hnewest, hfile, hbelow⟩ := h.snapshots
  refine { h with snapshots := ⟨newest, hnewest, ?_, fun x hx => hbelow x ?_⟩ }
  · rw [OrdMap.find?_erase, if_neg other.symm]
    exact hfile
  · rw [OrdMap.find?_erase, OrdMap.find?_insert] at hx
    by_cases hname : name = x
    · subst hname
      exact .inl (by rw [found]; rfl)
    · rwa [if_neg (Ne.symm hname), if_neg hname] at hx

theorem removeSnapshots_held (files : List SnapshotFile) (others : ∀ file ∈ files, file.name ≠ snapshotName c.lastApplied)
    (error : Error → FileEngine → Disk → Prop) : Program.Triple (fun s d => s = e ∧ Serves r b (some c) s d) (removeSnapshots files)
      (fun _ s d => s = e ∧ Serves r b (some c) s d) error (Held r b (some c)) := by
  induction files with
  | nil => exact .strengthen (.pure ()) fun _ _ h => h
  | cons file rest ih =>
    have hremoved : ∀ s d, Serves r b (some c) s d → Serves r b (some c) s (removeSnapshot file.name s d).disk := by
      intro s d h
      simp only [removeSnapshot, Program.write]
      cases hfind : d.snapshots.find? file.name with
      | none =>
        rw [OrdMap.erase_absent hfind]
        exact h
      | some bytes => exact h.removeSnapshot hfind (others file List.mem_cons_self)
    refine .bind (fun _ s d => s = e ∧ Serves r b (some c) s d) (.write (fun s d h => ⟨h.1, hremoved s d h.2⟩)
      fun s d h => ?_) fun _ => ih fun file hfile => others file (List.mem_cons_of_mem _ hfile)
    exact ⟨h.2.toHeld, (by rintro _ ⟨⟩), (hremoved s d h.2).toHeld⟩

/-- Pruning keeps the newest snapshot, and the oldest that remains is not after it. -/
theorem pruneSnapshots_held (sound : Sound r b (some c)) {keep : Nat} (some_kept : 0 < keep) (error : Error → FileEngine → Disk → Prop) :
    Program.Triple (fun s d => s = e ∧ Serves r b (some c) s d) (pruneSnapshots keep)
      (fun result s d => (s = e ∧ Serves r b (some c) s d) ∧ 0 < result.oldestIndex ∧ result.oldestIndex ≤ c.lastApplied) error
      (Held r b (some c)) := by
  have hcovers := sound.newest c rfl
  have hbound : c.lastApplied < maxIndex := (hcovers.committed.trans sound.commit).trans_lt sound.short
  refine .bind_disk fun d => .fact (fun _ _ h => (h.1 ▸ h.2.2.snapshots : NewestHeld (some c) d.snapshots d.pruned)) fun hsnaps => ?_
  obtain ⟨bytes, -, hheld⟩ := hsnaps
  obtain ⟨rest, hfiles, hrest⟩ := snapshotFiles_newest hheld hbound
  obtain ⟨n, rfl⟩ : ∃ n, keep = n + 1 := ⟨keep - 1, by omega⟩
  rw [hfiles]
  refine .bind (fun _ s d => s = e ∧ Serves r b (some c) s d) (.strengthen (removeSnapshots_held _ (fun file hfile => ?_) error) fun _ _ h => h.2)
    fun _ => ?_
  · rw [List.drop_succ_cons] at hfile
    obtain ⟨-, hlt, hname⟩ := hrest file (List.mem_of_mem_drop hfile)
    rw [hname]
    exact (snapshotName_lt hlt hbound).ne
  · cases hlast : (List.take (n + 1) (⟨c.lastApplied, snapshotName c.lastApplied, bytes⟩ :: rest)).getLast? with
    | none => exact absurd (List.getLast?_eq_none_iff.mp hlast) (by simp)
    | some oldest =>
      have hindex : 0 < oldest.index ∧ oldest.index ≤ c.lastApplied := by
        rcases List.mem_cons.mp (List.mem_of_mem_take (List.mem_of_getLast? hlast)) with rfl | hmem
        · exact ⟨hcovers.positive, le_rfl⟩
        · obtain ⟨h0, hlt, -⟩ := hrest oldest hmem
          exact ⟨h0, hlt.le⟩
      exact .strengthen (.pure _) fun s d h => ⟨h, hindex⟩

theorem pruneSnapshots_spec (sound : Sound r b (some c)) {keep : Nat} (some_kept : 0 < keep) (error : Error → FileEngine → Disk → Prop) :
    Program.Triple (fun s d => s = e ∧ Serves r b (some c) s d) (pruneSnapshots keep)
      (fun result s d => (s = e ∧ Serves r b (some c) s d) ∧ 0 < result.oldestIndex ∧ result.oldestIndex ≤ c.lastApplied) error (Represents r) :=
  (pruneSnapshots_held sound some_kept error).consequence (fun _ _ h => h) (fun _ _ _ h => h) (fun _ _ _ h => h) fun _ h => h.represents sound

/-! ### Taking a snapshot -/

/-- The state of a store becomes its newest snapshot. -/
theorem Serves.saveSnapshot {newest : Option ChoreographyState} (h : Serves r b newest e d) (sound : Sound r b newest) (positive : 0 < r.commit)
    (faithful : e.state.toDomain.dashless = e.state.toDomain) {bytes : File} (encoded : encodeSnapshot e.state = .ok bytes) :
    Sound r b (some e.state) ∧ Held r b (some e.state) { d with
      snapshots := d.snapshots.insert (snapshotName e.state.lastApplied) bytes
      pruned := d.pruned.erase (snapshotName e.state.lastApplied) } := by
  have happlied := h.applied sound
  refine ⟨{ sound with bare := nofun, newest := ?_ }, { h.toHeld with snapshots := ⟨bytes, encoded, ?_, fun name hname => ?_⟩ }⟩
  · rintro _ ⟨⟩
    obtain ⟨u, hreplay, hview⟩ := h.state
    refine ⟨hview.regular, happlied ▸ positive, happlied.le, happlied ▸ sound.base, happlied ▸ sound.offset, faithful, u, ?_,
      hview.restore faithful⟩
    rw [happlied]
    exact hreplay
  · rw [OrdMap.find?_insert, if_pos rfl]
  · rw [OrdMap.find?_insert, OrdMap.find?_erase] at hname
    by_cases hsame : name = snapshotName e.state.lastApplied
    · exact ⟨e.state.lastApplied, happlied ▸ positive, le_rfl, hsame⟩
    · rw [if_neg (Ne.symm hsame), if_neg hsame] at hname
      cases hnewest : newest with
      | none =>
        have hbare := h.snapshots
        rw [hnewest] at hbare
        obtain ⟨hfile, hpruned⟩ := hbare name
        rw [hfile, hpruned] at hname
        exact absurd hname (by simp)
      | some c =>
        have hsnaps := h.snapshots
        rw [hnewest] at hsnaps
        obtain ⟨-, -, -, hbelow⟩ := hsnaps
        obtain ⟨i, hi, hle, rfl⟩ := hbelow name hname
        have hcommit := (sound.newest c hnewest).committed
        exact ⟨i, hi, by omega, rfl⟩

theorem takeSnapshot_spec {newest : Option ChoreographyState} (sound : Sound r b newest) (positive : 0 < r.commit)
    (faithful : e.state.toDomain.dashless = e.state.toDomain) {bytes : File} (encoded : encodeSnapshot e.state = .ok bytes)
    (error : Error → FileEngine → Disk → Prop) :
    Program.Triple (fun s d => s = e ∧ Serves r b newest s d) FileEngine.takeSnapshot
      (fun _ s d => Keeps e s ∧ ∃ b', Sound r b' (some e.state) ∧ Serves r b' (some e.state) s d) error (Represents r) := by
  refine .fact (fun s d h => ?_) fun hsound : Sound r b (some e.state) => .bind_memory fun t => .fact (fun _ _ h => (h.1.symm.trans h.2.1 : t = e)) fun ht => ?_
  · obtain ⟨rfl, h⟩ := h
    exact (h.saveSnapshot sound positive faithful encoded).1
  subst ht
  refine .bind (fun _ s d => s = t ∧ ∃ d₀, Serves r b newest t d₀ ∧ d = { d₀ with
    snapshots := d₀.snapshots.insert (snapshotName t.state.lastApplied) bytes
    pruned := d₀.pruned.erase (snapshotName t.state.lastApplied) }) ?_ fun _ =>
    .bind (fun _ s d => s = { t with snapshot := some (.ofState t.state) } ∧ Serves r b (some t.state) s d) (.assign ?_) fun _ =>
    .bind _ (pruneSnapshots_spec hsound (by decide) _) fun pruned => .ite (fun _ => ?_) fun _ => ?_
  · refine .bind_of encoded (.bind (fun _ s d => s = t ∧ Serves r b newest t d) (.write ?_ ?_) fun _ => .write ?_ ?_)
    · rintro s d ⟨rfl, -, h⟩
      exact ⟨rfl, { h with removed := rfl }⟩
    · rintro s d ⟨rfl, -, h⟩
      exact ⟨h.represents sound, nofun, Held.represents { h.toHeld with removed := rfl } sound⟩
    · rintro s d ⟨rfl, h⟩
      exact ⟨rfl, d, h, rfl⟩
    · rintro s d ⟨rfl, h⟩
      exact ⟨h.represents sound, nofun, (h.saveSnapshot sound positive faithful encoded).2.represents hsound⟩
  · rintro s d ⟨rfl, d₀, h, rfl⟩
    exact ⟨rfl, { h with toHeld := (h.saveSnapshot sound positive faithful encoded).2, snapshot := rfl }⟩
  · refine .fact (fun _ _ h => h.2) fun holdest => (compact_spec hsound holdest.1 holdest.2 error).consequence (fun _ _ h => h.1)
      (fun _ _ _ h => ⟨⟨h.1.options, h.1.state⟩, h.2⟩) (fun _ _ _ h => h) fun _ h => h
  · refine .strengthen (.pure _) ?_
    rintro s d ⟨⟨rfl, h⟩, -⟩
    exact ⟨⟨rfl, fun _ => rfl⟩, b, hsound, h⟩

/-- A snapshot that cannot be encoded is not taken. -/
theorem takeSnapshot_refuses {x : Error} (refused : encodeSnapshot e.state = .error x) {post : Unit → FileEngine → Disk → Prop}
    {pre : FileEngine → Disk → Prop} {crash : Disk → Prop} :
    Program.Triple (fun s d => s = e ∧ pre s d) FileEngine.takeSnapshot post (fun _ s d => s = e ∧ pre s d) crash := by
  refine .bind_memory fun t => .fact (fun _ _ h => (h.1.symm.trans h.2.1 : t = e)) fun ht => ?_
  subst ht
  refine .bind (fun _ _ _ => False) (.bind (fun _ _ _ => False) (.of ?_ ?_) fun _ _ _ h => h.elim) fun _ _ _ h => h.elim
  · intro bytes s d hbytes
    exact nomatch refused.symm.trans hbytes
  · exact fun _ s d _ h => h.2

/-- The committed state has a snapshot that gives it back. -/
def Record.Faithful (r : Record) : Prop := ∀ u, r.replay r.commit = .ok u → u.toDomain.dashless = u.toDomain

theorem Serves.faithful {newest : Option ChoreographyState} (h : Serves r b newest e d) (faithful : r.Faithful) :
    e.state.toDomain.dashless = e.state.toDomain := by
  obtain ⟨u, hreplay, hview⟩ := h.state
  rw [hview.domain]
  exact faithful u hreplay

/-- A snapshot is taken or refused, and the record stays. -/
theorem takeSnapshot_running (positive : 0 < r.commit) (faithful : r.Faithful) :
    Program.Triple (fun s d => Running r s d) FileEngine.takeSnapshot (fun _ s d => Running r s d) (fun _ _ d => Represents r d)
      (Represents r) := by
  rintro e d ⟨b, newest, sound, hserves⟩
  have htriple : Program.Triple (fun s d => s = e ∧ Serves r b newest s d) FileEngine.takeSnapshot (fun _ s d => Running r s d)
      (fun _ _ d => Represents r d) (Represents r) := by
    cases hencoded : encodeSnapshot e.state with
    | error x => exact (takeSnapshot_refuses hencoded).consequence (fun _ _ h => h) (fun _ _ _ h => h) (fun _ _ _ h => h.2.represents sound) fun _ h => h
    | ok bytes =>
      refine (takeSnapshot_spec sound positive (hserves.faithful faithful) hencoded _).consequence (fun _ _ h => h) ?_ (fun _ _ _ h => h) fun _ h => h
      rintro _ s d ⟨-, b', sound', h⟩
      exact ⟨b', _, sound', h⟩
  exact htriple e d ⟨rfl, hserves⟩

theorem maybeSnapshot_spec (faithful : r.Faithful) :
    Program.Triple (fun s d => Running r s d) FileEngine.maybeSnapshot (fun _ s d => Running r s d)
      (fun _ _ d => Represents r d) (Represents r) := by
  have hreturn : ∀ e : FileEngine, Program.Triple (fun s d => s = e ∧ Running r s d) (pure () : Store FileEngine Unit)
      (fun _ s d => Running r s d) (fun _ _ d => Represents r d) (Represents r) :=
    fun e => .strengthen (.pure _) fun _ _ h => h.2
  refine .bind_memory fun e => .ite (fun _ => hreturn e) fun _ => .ite (fun _ => hreturn e) fun hdue => ?_
  refine .fact (fun s d h => ?_) fun hpositive => .strengthen (takeSnapshot_running hpositive faithful) fun _ _ h => h.2
  obtain ⟨rfl, b, newest, sound, h⟩ := h
  rw [h.applied sound] at hdue
  by_contra hzero
  rw [Nat.eq_zero_of_not_pos hzero, Nat.zero_div] at hdue
  exact hdue (Nat.zero_le _)

theorem checkpoint_achieves (faithful : r.Faithful) : Achieves r r FileEngine.checkpoint := by
  refine achieves fun e b newest sound => writable (.ite (fun _ => .strengthen (.pure _) fun s d h => ⟨b, newest, sound, h.2⟩) fun happlied => checked ?_)
  refine .fact (fun s d h => ?_) fun hpositive => (takeSnapshot_running hpositive faithful).consequence (fun s d h => ⟨b, newest, sound, h.2⟩)
    (fun _ _ _ h => h) (fun _ _ _ h => .inl h) fun d h => h.leaves_before
  obtain ⟨rfl, h⟩ := h
  rw [h.applied sound] at happlied
  exact Nat.pos_of_ne_zero happlied

/-- The log loses what the newest snapshot covers. -/
theorem discardCompactedPrefix_spec (sound : Sound r b (some c)) (error : Error → FileEngine → Disk → Prop) :
    Program.Triple (fun s d => s = e ∧ Serves r b (some c) s d) FileEngine.discardCompactedPrefix
      (fun _ s d => Keeps e s ∧ ∃ b', Sound r b' (some c) ∧ Serves r b' (some c) s d) error (Represents r) := by
  refine writable (.fact (fun _ _ h => (h.1 ▸ h.2.snapshot : e.snapshot = some (.ofState c))) fun hsnapshot => ?_)
  rw [hsnapshot]
  exact compact_spec sound (sound.newest c rfl).positive le_rfl error

theorem discardCompactedPrefix_achieves : Achieves r r FileEngine.discardCompactedPrefix := by
  refine achieves fun e b newest sound => ?_
  cases newest with
  | none =>
    refine writable (.fact (fun _ _ h => (h.1 ▸ h.2.snapshot : e.snapshot = none)) fun hsnapshot => ?_)
    rw [hsnapshot]
    exact refuses fun s d h => ⟨b, none, sound, h.2⟩
  | some c =>
    refine (discardCompactedPrefix_spec sound _).consequence (fun _ _ h => h) ?_ (fun _ _ _ h => h) fun d h => h.leaves_before
    rintro _ s d ⟨-, b', sound', h⟩
    exact ⟨b', some c, sound', h⟩

end Snapshots

end Choreolog.Storage
