import Choreolog.Theorems.CrashRecovery
import Choreolog.Theorems.StraySnapshot

/-! # Falling back to an older snapshot

A store prunes all but two snapshots and drops only records that both of them cover. If the newest file is
damaged, opening finds the one before it, or the whole log. -/

namespace Choreolog.Storage
open Lib State

/-! ### The files that are kept -/

/-- A file that holds a state of the history, under the name of its index. -/
def Archived (r : Record) (name : String) (bytes : File) : Prop :=
  ∃ c, encodeSnapshot c = .ok bytes ∧ name = snapshotName c.lastApplied ∧ Covers r 0 c

/-- Every snapshot file that is there or may come back holds a state of the history. If the first `b` entries of
    the log are gone, then one before the newest covers them as well. -/
structure Archives (r : Record) (b : Nat) (newest : Option ChoreographyState) (files pruned : OrdMap String File) : Prop where
  states : ∀ name bytes, files.find? name = some bytes ∨ pruned.find? name = some bytes → Archived r name bytes
  fallback : b = 0 ∨ ∃ i, b ≤ i ∧ i < startIndex newest ∧ (files.find? (snapshotName i)).isSome

section Archives
variable {r r' : Record} {b b' : Nat} {newest : Option ChoreographyState} {files pruned : OrdMap String File}

theorem Archives.crashed {d d' : Disk} (h : Archives r b newest d.snapshots d.pruned) (c : Crashed d d') :
    Archives r b newest d'.snapshots d'.pruned := by
  refine ⟨fun name bytes hfile => h.states name bytes ?_, h.fallback.imp_right fun ⟨i, hb, hi, hfile⟩ => ⟨i, hb, hi, ?_⟩⟩
  · rw [c.pruned, OrdMap.find?_empty, or_iff_left nofun] at hfile
    rcases c.snapshots name with heq | ⟨-, heq⟩
    · exact .inl (heq ▸ hfile)
    · exact .inr (heq ▸ hfile)
  · rcases c.snapshots (snapshotName i) with heq | ⟨hnone, -⟩
    · rwa [heq]
    · rw [hnone] at hfile
      cases hfile

/-- The history has gone on. -/
theorem Archives.next (h : Archives r b newest files pruned) (covers : ∀ c, Covers r 0 c → Covers r' 0 c) :
    Archives r' b newest files pruned := by
  refine ⟨fun name bytes hfile => ?_, h.fallback⟩
  obtain ⟨c, hbytes, hname, hc⟩ := h.states name bytes hfile
  exact ⟨c, hbytes, hname, covers c hc⟩

theorem Archives.lower (h : Archives r b newest files pruned) (le : b' ≤ b) : Archives r b' newest files pruned :=
  ⟨h.states, h.fallback.imp (fun hb => by omega) fun ⟨i, hb, hi⟩ => ⟨i, le.trans hb, hi⟩⟩

/-- A new snapshot is not before the others. -/
theorem Archives.save (h : Archives r b newest files pruned) {c : ChoreographyState} (covers : Covers r 0 c) {bytes : File}
    (encoded : encodeSnapshot c = .ok bytes) (later : startIndex newest ≤ c.lastApplied) :
    Archives r b (some c) (files.insert (snapshotName c.lastApplied) bytes) (pruned.erase (snapshotName c.lastApplied)) := by
  refine ⟨fun name bytes' hfile => ?_, h.fallback.imp_right fun ⟨i, hb, hi, hfile⟩ => ⟨i, hb, hi.trans_le later, ?_⟩⟩
  · rw [OrdMap.find?_insert, OrdMap.find?_erase] at hfile
    by_cases hname : name = snapshotName c.lastApplied
    · rw [if_pos hname.symm, if_pos hname, or_iff_left nofun] at hfile
      obtain rfl : bytes = bytes' := Option.some.inj hfile
      exact ⟨c, encoded, hname, covers⟩
    · rw [if_neg (Ne.symm hname), if_neg hname] at hfile
      exact h.states name bytes' hfile
  · rw [OrdMap.find?_insert]
    split
    · rfl
    · exact hfile

end Archives

/-! ### The files by name -/

section Files
variable {r : Record} {b : Nat} {d : Disk}

theorem snapshotName_le {i j : Nat} (hi : i < maxIndex) (h : snapshotName i ≤ snapshotName j) : i ≤ j := by
  by_contra hlt
  exact absurd h (not_le.mpr (snapshotName_lt (not_le.mp hlt) hi))

/-- After the newest file comes the one that a store falls back to. -/
theorem Archives.second {c : ChoreographyState} (h : Archives r b (some c) d.snapshots d.pruned) (bound : c.lastApplied < maxIndex)
    {first : SnapshotFile} {rest : List SnapshotFile} (files : snapshotFiles d = first :: rest) (newest : first.name = snapshotName c.lastApplied)
    (indexes : ∀ file ∈ rest, file.index < c.lastApplied ∧ file.name = snapshotName file.index) :
    b = 0 ∨ ∃ second more, rest = second :: more ∧ b ≤ second.index := by
  refine h.fallback.imp_right fun ⟨i, hb, hi, hfile⟩ => ?_
  have hi : i < c.lastApplied := hi
  obtain ⟨bytes, hbytes⟩ := Option.isSome_iff_exists.mp hfile
  have hbig : maxIndex < 2 ^ 64 := by decide
  have hmem : (⟨i, snapshotName i, bytes⟩ : SnapshotFile) ∈ snapshotFiles d :=
    mem_snapshotFiles.mpr ⟨hbytes, snapshotIndex_snapshotName ((hi.trans bound).trans hbig)⟩
  rw [files] at hmem
  rcases List.mem_cons.mp hmem with rfl | hmem
  · exact absurd newest (snapshotName_lt hi bound).ne
  · cases rest with
    | nil => cases hmem
    | cons second more =>
      refine ⟨second, more, rfl, hb.trans ?_⟩
      rcases List.mem_cons.mp hmem with rfl | hmem
      · exact le_rfl
      · have hsorted := snapshotFiles_sorted d
        rw [files, List.pairwise_cons, List.pairwise_cons] at hsorted
        have hlt := hsorted.2.1 _ hmem
        dsimp only at hlt
        rw [(indexes second List.mem_cons_self).2] at hlt
        exact snapshotName_le (hi.trans bound) hlt.le

end Files

/-! ### Pruning -/

section Pruning
variable {μ : Type} {r : Record} {b : Nat} {c : ChoreographyState}

/-- Files are removed, but not this one. -/
theorem removeSnapshots_states (kept : String) (files : List SnapshotFile) (others : ∀ file ∈ files, file.name ≠ kept)
    (error : Error → μ → Disk → Prop) :
    let P (d : Disk) : Prop := (∀ name bytes, d.snapshots.find? name = some bytes ∨ d.pruned.find? name = some bytes → Archived r name bytes) ∧
      (d.snapshots.find? kept).isSome
    Program.Triple (fun _ d => P d) (removeSnapshots files) (fun _ _ d => P d) error P := by
  intro P
  induction files with
  | nil => exact .strengthen (.pure ()) fun _ _ h => h
  | cons file rest ih =>
    have hremoved : ∀ s d, P d → P (removeSnapshot file.name (s : μ) d).disk := by
      rintro s d ⟨hstates, hkept⟩
      simp only [P, removeSnapshot, Program.write]
      refine ⟨fun name bytes hfile => hstates name bytes ?_, ?_⟩
      · rcases hfile with hfile | hfile
        · rw [OrdMap.find?_erase] at hfile
          split at hfile
          · cases hfile
          · exact .inl hfile
        · split at hfile
          · rename_i removed hfind
            rw [OrdMap.find?_insert] at hfile
            split at hfile
            · rename_i hname
              exact .inl (hname ▸ hfind.trans hfile)
            · exact .inr hfile
          · exact .inr hfile
      · rw [OrdMap.find?_erase, if_neg (others file List.mem_cons_self).symm]
        exact hkept
    refine .bind (fun _ _ d => P d) (.write (fun s d h => hremoved s d h) fun s d h => ⟨h, (by rintro _ ⟨⟩), hremoved s d h⟩) fun _ =>
      ih fun file hfile => others file (List.mem_cons_of_mem _ hfile)

/-- Two files are kept, if there are two, and the older one covers what is gone from the log. -/
theorem pruneSnapshots_archives (bound : c.lastApplied < maxIndex) (error : Error → μ → Disk → Prop) :
    Program.Triple (fun _ d => NewestHeld (some c) d.snapshots d.pruned ∧ Archives r b (some c) d.snapshots d.pruned)
      (pruneSnapshots 2 : Store μ PruneResult)
      (fun result _ d => Archives r b (some c) d.snapshots d.pruned ∧
        (2 ≤ result.remaining → Archives r result.oldestIndex (some c) d.snapshots d.pruned)) error
      fun d => Archives r b (some c) d.snapshots d.pruned := by
  refine .bind_disk fun d => .fact (fun _ _ h => (h.1 ▸ h.2 : NewestHeld (some c) d.snapshots d.pruned ∧ _)) fun ⟨hnewest, harchives⟩ => ?_
  obtain ⟨bytes, -, hheld⟩ := hnewest
  obtain ⟨rest, hfiles, hrest⟩ := snapshotFiles_newest hheld bound
  have hsecond := harchives.second bound hfiles rfl fun file hfile => (hrest file hfile).2
  rw [hfiles]
  cases rest with
  | nil =>
    refine .bind_returns (a := ()) (fun _ _ _ => rfl) (.strengthen (.pure _) ?_)
    rintro _ _ ⟨rfl, -⟩
    exact ⟨harchives, fun h => absurd h (by simp)⟩
  | cons second more =>
    obtain ⟨-, hlt, hname⟩ := hrest second List.mem_cons_self
    have hb : b = 0 ∨ b ≤ second.index := by
      refine hsecond.imp_right ?_
      rintro ⟨_, _, ⟨⟩, hb⟩
      exact hb
    have hsorted := snapshotFiles_sorted d
    rw [hfiles, List.pairwise_cons, List.pairwise_cons] at hsorted
    have hfile : second ∈ snapshotFiles d := hfiles ▸ List.mem_cons_of_mem _ List.mem_cons_self
    have hkept : ∀ d' : Disk, (d'.snapshots.find? second.name).isSome → (d'.snapshots.find? (snapshotName second.index)).isSome := by
      intro d' h
      rwa [← hname]
    refine .bind _ ((removeSnapshots_states (r := r) second.name more (fun file hmore => ?_) error).consequence ?_
      (fun _ _ _ h => h) (fun _ _ _ h => h) fun d' h => ⟨h.1, hb.imp_right fun hb => ⟨second.index, hb, hlt, hkept d' h.2⟩⟩) fun _ => ?_
    · exact (hsorted.2.1 file hmore).ne
    · rintro _ _ ⟨rfl, -⟩
      exact ⟨harchives.states, by rw [(mem_snapshotFiles.mp hfile).1]; rfl⟩
    · refine .strengthen (.pure _) fun _ d' h => ⟨⟨h.1, hb.imp_right fun hb => ⟨second.index, hb, hlt, hkept d' h.2⟩⟩, fun _ => ?_⟩
      exact ⟨h.1, .inr ⟨second.index, le_rfl, hlt, hkept d' h.2⟩⟩

end Pruning

/-! ### Programs that leave the snapshot files alone -/

/-- The snapshot files, and those that may come back. -/
def Disk.archive (d : Disk) : OrdMap String File × OrdMap String File := (d.snapshots, d.pruned)

section Frames
variable {μ : Type}

theorem frames_load : Program.Frames Disk.archive (WriteAheadLog.load : Store μ WriteAheadLog) := by
  refine .bind .disk fun d => ?_
  split
  · exact .fail _
  · exact .bind (.of _) fun records => .ite (.bind (.write (fun _ => rfl) nofun) fun _ => .pure _) (.pure _)

theorem frames_open : Program.Frames Disk.archive (WriteAheadLog.open : Store μ WriteAheadLog) := by
  refine .bind .disk fun d => .ite (.bind (.write (fun _ => rfl) fun d i hi => ?_) fun _ => .bind (.write (fun _ => rfl) nofun) fun _ =>
    frames_load) frames_load
  obtain ⟨part, -, rfl⟩ := List.mem_map.mp hi
  rfl

theorem frames_rewrite (events : List Event) : Program.Frames Disk.archive (WriteAheadLog.rewrite events : Store μ WriteAheadLog) :=
  .bind (.of _) fun _ => .bind (.write (fun _ => rfl) nofun) fun _ => frames_load

theorem frames_loadMetadata : Program.Frames Disk.archive (loadMetadata : Store μ NodeMetadata) := by
  refine .bind .disk fun d => ?_
  split
  · exact .pure _
  · exact .of _

theorem frames_storeMetadata (metadata : NodeMetadata) : Program.Frames Disk.archive (storeMetadata metadata : Store μ Unit) :=
  .bind (.of _) fun _ => .write (fun _ => rfl) nofun

theorem frames_joinSnapshot (wal : WriteAheadLog) (metadata : NodeMetadata) (snapshot : Option Snapshot) :
    Program.Frames Disk.archive (FileEngine.joinSnapshot wal metadata snapshot : Store μ WriteAheadLog) := by
  unfold FileEngine.joinSnapshot
  split
  · exact .pure _
  · split
    · exact .ite (.ite (.fail _) (frames_rewrite _)) (.ite (.fail _) (.ite (.fail _) (.pure _)))
    · exact .pure _

theorem frames_updateMetadata (options : StoreOptions) (metadata : NodeMetadata) (state : ChoreographyState) :
    Program.Frames Disk.archive (FileEngine.updateMetadata options metadata state : Store μ Nat) :=
  .ite (.ite (.bind (frames_storeMetadata _) fun _ => .pure _) (.pure _)) (.pure _)

theorem frames_requireWritable : Program.Frames Disk.archive FileEngine.requireWritable :=
  .bind .memory fun _ => .ite (.fail _) (.pure _)

theorem frames_appendEvent (event : Event) : Program.Frames Disk.archive (FileEngine.appendEvent event) := by
  refine .bind frames_requireWritable fun _ => .bind .memory fun _ => .ite (.fail _) (.ite (.fail _) (.onError _
    (.bind (.bind (.of _) fun record => .bind (.write (fun _ => rfl) fun d i hi => ?_) fun _ => .pure _) fun _ => .assign _)))
  obtain ⟨part, -, rfl⟩ := List.mem_map.mp hi
  rfl

theorem frames_truncateAfter (index : Nat) : Program.Frames Disk.archive (FileEngine.truncateAfter index) :=
  .bind frames_requireWritable fun _ => .bind .memory fun _ => .ite (.fail _) (.onError _
    (.bind (.bind (.write (fun _ => rfl) nofun) fun _ => .bind (.write (fun _ => rfl) nofun) fun _ => .pure _) fun _ => .assign _))

theorem frames_persistConsensus (term : Nat) (vote : Option NodeId) :
    Program.Frames Disk.archive (FileEngine.persistConsensus term vote) :=
  .bind frames_requireWritable fun _ => .bind (.onError _ frames_loadMetadata) fun _ => .ite (.fail _)
    (.onError _ (frames_storeMetadata _))

theorem frames_compact (anchor : Nat) : Program.Frames Disk.archive (FileEngine.compact anchor) := by
  refine .bind .memory fun store => ?_
  split
  · exact .ite (.pure _) (.onError _ (.bind (frames_rewrite _) fun _ => .bind (.assign _) fun _ => .bind (.of _) fun _ => .assign _))
  · exact .pure _

end Frames

/-! ### Operations -/

/-- An open store that can lose its newest snapshot. -/
def Guarded (r : Record) (e : FileEngine) (d : Disk) : Prop :=
  ∃ b newest, Sound r b newest ∧ Serves r b newest e d ∧ Archives r b newest d.snapshots d.pruned

/-- A directory that can lose its newest snapshot. -/
def Safe (r : Record) (d : Disk) : Prop := ∃ b newest, Sound r b newest ∧ Held r b newest d ∧ Archives r b newest d.snapshots d.pruned

/-- Whatever a crash settles, the directory can lose its newest snapshot. -/
def LeavesSafe (r r' : Record) (d : Disk) : Prop := ∀ d', Crashed d d' → Safe r d' ∨ Safe r' d'

/-- What an operation may do, as in `Achieves`. -/
def Guards (r r' : Record) (m : Store FileEngine Unit) : Prop :=
  Program.Triple (fun e d => Guarded r e d) m (fun _ e d => Guarded r' e d)
    (fun _ e d => Guarded r e d ∨ e.recoveryRequired = true ∧ (Safe r d ∨ Safe r' d)) (LeavesSafe r r')

section Operations
variable {r r' : Record} {b : Nat} {newest : Option ChoreographyState} {e : FileEngine} {m : Store FileEngine Unit}

theorem Safe.crashed {d d' : Disk} (h : Safe r d) (c : Crashed d d') : Safe r d' := by
  obtain ⟨b, newest, sound, held, archives⟩ := h
  exact ⟨b, newest, sound, held.crashed c, archives.crashed c⟩

theorem Guarded.safe {d : Disk} (h : Guarded r e d) : Safe r d := by
  obtain ⟨b, newest, sound, serves, archives⟩ := h
  exact ⟨b, newest, sound, serves.toHeld, archives⟩

theorem guards (h : ∀ e b newest, Sound r b newest → Program.Triple (fun s d => (s = e ∧ Serves r b newest s d) ∧
      Archives r b newest d.snapshots d.pruned) m (fun _ e d => Guarded r' e d)
      (fun _ e d => Guarded r e d ∨ e.recoveryRequired = true ∧ (Safe r d ∨ Safe r' d)) (LeavesSafe r r')) : Guards r r' m := by
  rintro e d ⟨b, newest, sound, serves, archives⟩
  exact h e b newest sound e d ⟨⟨rfl, serves⟩, archives⟩

/-- An operation that leaves the snapshot files alone succeeds. -/
theorem guards_succeeds (frames : Program.Frames Disk.archive m) (sound : Sound r b newest) (sound' : Sound r' b newest)
    (covers : ∀ c, Covers r 0 c → Covers r' 0 c) {e' : FileEngine} {error : Error → FileEngine → Disk → Prop}
    (h : Program.Triple (fun s d => s = e ∧ Serves r b newest s d) m (fun _ s d => s = e' ∧ Serves r' b newest s d)
      (fun _ _ _ => False) (Between r r' b newest)) :
    Program.Triple (fun s d => (s = e ∧ Serves r b newest s d) ∧ Archives r b newest d.snapshots d.pruned) m
      (fun _ e d => Guarded r' e d) error (LeavesSafe r r') := by
  refine (h.and (.frame frames fun files => Archives r b newest files.1 files.2)).consequence (fun _ _ h => h) ?_
    (fun _ _ _ h => h.1.elim) ?_
  · rintro _ s d ⟨⟨-, hserves⟩, harchives⟩
    exact ⟨b, newest, sound', hserves, harchives.next covers⟩
  · rintro d ⟨hbetween, harchives⟩ d' hcrashed
    rcases hbetween.crashed d' hcrashed with hheld | hheld
    · exact .inl ⟨b, newest, sound, hheld, Archives.crashed harchives hcrashed⟩
    · exact .inr ⟨b, newest, sound', hheld, (Archives.crashed harchives hcrashed).next covers⟩

theorem guards_refused (sound : Sound r b newest) (h : ∀ d, Serves r b newest e d → Refuses e d m)
    {post : Unit → FileEngine → Disk → Prop} {crash : Disk → Prop} :
    Program.Triple (fun s d => (s = e ∧ Serves r b newest s d) ∧ Archives r b newest d.snapshots d.pruned) m post
      (fun _ e d => Guarded r e d ∨ e.recoveryRequired = true ∧ (Safe r d ∨ Safe r' d)) crash := by
  refine .each ?_
  rintro s d ⟨⟨rfl, hserves⟩, harchives⟩
  refine (h d hserves).consequence (fun _ _ h => h) (fun _ _ _ h => h.elim) ?_ fun _ h => h.elim
  rintro _ _ _ ⟨rfl, rfl⟩
  exact .inl ⟨b, newest, sound, hserves, harchives⟩

theorem Covers.persist {c : ChoreographyState} (h : Covers r b c) (term : Nat) (vote : Option NodeId) : Covers (r.persist term vote) b c :=
  { h with }

theorem Covers.commitTo {c : ChoreographyState} {index : Nat} (h : Covers r b c) (later : r.commit ≤ index) : Covers (r.commitTo index) b c := by
  rw [Record.commitTo_of_le later]
  exact { h with committed := h.committed.trans later }

theorem appendEvent_guards {event : Event} (fits : event.Fits) (text : parseEvent (canonicalEvent event) = .ok event)
    (short : r.log.length + 1 < maxIndex) : Guards r (r.append event) (FileEngine.appendEvent event) := by
  refine guards fun e b newest sound => ?_
  by_cases haccepted : event.index = r.log.length + 1 ∧ (canonicalEvent event).toList.length ≤ maxPayloadBytes
  · have hlogged : Logged event := ⟨fits, text, haccepted.2⟩
    exact guards_succeeds (frames_appendEvent event) sound (sound.append hlogged haccepted.1 short)
      (fun c hc => hc.withLog (List.take_append_of_le_length sound.commit)) (appendEvent_spec sound hlogged haccepted.1)
  · exact guards_refused sound fun d h => appendEvent_refuses sound h haccepted

theorem truncateAfter_guards (index : Nat) : Guards r (r.truncate index) (FileEngine.truncateAfter index) := by
  refine guards fun e b newest sound => ?_
  rcases le_or_gt r.commit index with hle | hless
  · refine guards_succeeds (frames_truncateAfter index) sound (sound.truncate hle) (fun c hc => ?_) (truncateAfter_spec sound hle)
    rw [Record.truncate_of_le hle]
    exact hc.withLog (by rw [List.take_take, Nat.min_eq_left hle])
  · exact guards_refused sound fun d h => truncateAfter_refuses h hless

theorem persistConsensus_guards (term : Nat) (vote : Option NodeId) (bound : term < 2 ^ 64) :
    Guards r (r.persist term vote) (FileEngine.persistConsensus term vote) := by
  refine guards fun e b newest sound => ?_
  rcases le_or_gt r.term term with hle | hless
  · exact guards_succeeds (frames_persistConsensus term vote) sound (sound.persist vote hle bound) (fun c hc => hc.persist term vote)
      (persistConsensus_spec vote sound hle bound)
  · exact guards_refused sound fun d h => persistConsensus_refuses h vote hless

/-! ### Taking a snapshot -/

/-- Only records that two snapshots cover are dropped. -/
theorem takeSnapshot_guarded (sound : Sound r b newest) (positive : 0 < r.commit) (faithful : e.state.toDomain.dashless = e.state.toDomain)
    {bytes : File} (encoded : encodeSnapshot e.state = .ok bytes) (error : Error → FileEngine → Disk → Prop) :
    Program.Triple (fun s d => (s = e ∧ Serves r b newest s d) ∧ Archives r b newest d.snapshots d.pruned) FileEngine.takeSnapshot
      (fun _ s d => Guarded r s d) error (Safe r) := by
  refine .fact (fun s d h => ?_) fun (hfacts : Sound r b (some e.state) ∧ e.state.lastApplied = r.commit) =>
    .bind_memory fun t => .fact (fun _ _ h => (h.1.symm.trans h.2.1.1 : t = e)) fun ht => ?_
  · obtain ⟨⟨rfl, h⟩, -⟩ := h
    exact ⟨(h.saveSnapshot sound positive faithful encoded).1, h.applied sound⟩
  subst ht
  obtain ⟨hsound, happlied⟩ := hfacts
  have hcovers : Covers r 0 t.state := { hsound.newest _ rfl with base := Nat.zero_le _ }
  have hbound : t.state.lastApplied < maxIndex := (hcovers.committed.trans sound.commit).trans_lt sound.short
  have hlater : startIndex newest ≤ t.state.lastApplied := sound.starts.committed.trans happlied.ge
  let saved (d : Disk) : Disk := { d with
    snapshots := d.snapshots.insert (snapshotName t.state.lastApplied) bytes
    pruned := d.pruned.erase (snapshotName t.state.lastApplied) }
  have hsaved : ∀ d, Serves r b newest t d ∧ Archives r b newest d.snapshots d.pruned →
      Held r b (some t.state) (saved d) ∧ Archives r b (some t.state) (saved d).snapshots (saved d).pruned :=
    fun d h => ⟨(h.1.saveSnapshot sound positive faithful encoded).2, h.2.save hcovers encoded hlater⟩
  refine .bind (fun _ s d => s = t ∧ ∃ d₀, (Serves r b newest t d₀ ∧ Archives r b newest d₀.snapshots d₀.pruned) ∧ d = saved d₀) ?_ fun _ =>
    .bind (fun _ s d => (s = { t with snapshot := some (.ofState t.state) } ∧ Serves r b (some t.state) s d) ∧
      NewestHeld (some t.state) d.snapshots d.pruned ∧ Archives r b (some t.state) d.snapshots d.pruned) (.assign ?_) fun _ =>
    .bind _ (((pruneSnapshots_held hsound (by decide) fun _ _ _ => False).and
      (pruneSnapshots_archives hbound fun _ _ _ => False)).consequence (fun _ _ h => h) (fun _ _ _ h => h) (fun _ _ _ h => h.1.elim)
      fun d h => ⟨b, some t.state, hsound, h⟩) fun pruned => ?_
  · refine .bind_of encoded (.bind (fun _ s d => s = t ∧ Serves r b newest t d ∧ Archives r b newest d.snapshots d.pruned) (.write ?_ ?_)
      fun _ => .write ?_ ?_)
    · rintro s d ⟨rfl, ⟨-, h⟩, harchives⟩
      exact ⟨rfl, { h with removed := rfl }, harchives⟩
    · rintro s d ⟨rfl, ⟨-, h⟩, harchives⟩
      exact ⟨⟨b, newest, sound, h.toHeld, harchives⟩, nofun, b, newest, sound, { h.toHeld with removed := rfl }, harchives⟩
    · rintro s d ⟨rfl, h⟩
      exact ⟨rfl, d, h, rfl⟩
    · rintro s d ⟨rfl, h⟩
      exact ⟨⟨b, newest, sound, h.1.toHeld, h.2⟩, nofun, b, some s.state, hsound, hsaved d h⟩
  · rintro s d ⟨rfl, d₀, h, rfl⟩
    obtain ⟨hheld, harchives⟩ := hsaved d₀ h
    exact ⟨⟨rfl, { h.1 with toHeld := hheld, snapshot := rfl }⟩, hheld.snapshots, harchives⟩
  · refine .fact (fun _ _ h => h.1.2) fun holdest => .ite (fun htwo => ?_) fun _ => .strengthen (.pure _) ?_
    · refine ((compact_below (e := { t with snapshot := some (.ofState t.state) }) hsound holdest.1 holdest.2 fun _ _ _ => False).and (.frame (frames_compact pruned.oldestIndex) fun files =>
        Archives r b (some t.state) files.1 files.2 ∧ Archives r pruned.oldestIndex (some t.state) files.1 files.2)).consequence ?_ ?_
        (fun _ _ _ h => h.1.elim) ?_
      · rintro s d ⟨⟨h, -⟩, harchives, holder⟩
        exact ⟨h, harchives, holder htwo.2⟩
      · rintro _ s d ⟨⟨-, b', hb', hsound', h⟩, harchives, holder⟩
        refine ⟨b', _, hsound', h, ?_⟩
        rcases hb' with rfl | hless
        · exact harchives
        · exact holder.lower hless.le
      · rintro d ⟨⟨b', hb', hsound', h⟩, harchives, holder⟩
        refine ⟨b', _, hsound', h, ?_⟩
        rcases hb' with rfl | hless
        · exact harchives
        · exact holder.lower hless.le
    · rintro s d ⟨⟨⟨-, h⟩, -⟩, harchives, -⟩
      exact ⟨b, _, hsound, h, harchives⟩

theorem takeSnapshot_keeps (positive : 0 < r.commit) (faithful : r.Faithful) :
    Program.Triple (fun s d => Guarded r s d) FileEngine.takeSnapshot (fun _ s d => Guarded r s d) (fun _ _ d => Safe r d) (Safe r) := by
  rintro e d ⟨b, newest, sound, serves, archives⟩
  have htriple : Program.Triple (fun s d => (s = e ∧ Serves r b newest s d) ∧ Archives r b newest d.snapshots d.pruned)
      FileEngine.takeSnapshot (fun _ s d => Guarded r s d) (fun _ _ d => Safe r d) (Safe r) := by
    cases hencoded : encodeSnapshot e.state with
    | error x =>
      refine (takeSnapshot_refuses hencoded).consequence (fun _ _ h => ⟨h.1.1, h⟩) (fun _ _ _ h => h) ?_ fun _ h => h
      rintro _ s d ⟨rfl, ⟨-, h⟩, harchives⟩
      exact ⟨b, newest, sound, h.toHeld, harchives⟩
    | ok bytes => exact takeSnapshot_guarded sound positive (serves.faithful faithful) hencoded _
  exact htriple e d ⟨⟨rfl, serves⟩, archives⟩

theorem maybeSnapshot_guarded (faithful : r.Faithful) : Program.Triple (fun s d => Guarded r s d) FileEngine.maybeSnapshot
    (fun _ s d => Guarded r s d) (fun _ _ d => Safe r d) (Safe r) := by
  have hreturn : ∀ e : FileEngine, Program.Triple (fun s d => s = e ∧ Guarded r s d) (pure () : Store FileEngine Unit)
      (fun _ s d => Guarded r s d) (fun _ _ d => Safe r d) (Safe r) :=
    fun e => .strengthen (.pure _) fun _ _ h => h.2
  refine .bind_memory fun e => .ite (fun _ => hreturn e) fun _ => .ite (fun _ => hreturn e) fun hdue => ?_
  refine .fact (fun s d h => ?_) fun hpositive => .strengthen (takeSnapshot_keeps hpositive faithful) fun _ _ h => h.2
  obtain ⟨rfl, b, newest, sound, h, -⟩ := h
  rw [h.applied sound] at hdue
  by_contra hzero
  rw [Nat.eq_zero_of_not_pos hzero, Nat.zero_div] at hdue
  exact hdue (Nat.zero_le _)

theorem Safe.leaves_after {d : Disk} (h : Safe r' d) : LeavesSafe r r' d := fun _ c => .inr (h.crashed c)

theorem commitThrough_guards (index : Nat) (replays : r.commit ≤ index → index ≤ r.log.length → ∃ u, r.replay index = .ok u)
    (faithful : r.commit ≤ index → index ≤ r.log.length → (r.commitTo index).Faithful) :
    Guards r (r.commitTo index) (FileEngine.commitThrough index) := by
  refine guards fun e b newest sound => ?_
  rcases lt_or_ge index r.commit with hless | hlater
  · rw [Record.commitTo, if_pos hless]
    refine .each ?_
    rintro s d ⟨⟨rfl, hserves⟩, harchives⟩
    refine (commitThrough_past hserves hless _ _).consequence (fun _ _ h => h) ?_ (fun _ _ _ h => h) fun _ h => h
    rintro _ _ _ ⟨rfl, rfl⟩
    exact ⟨b, newest, sound, hserves, harchives⟩
  rcases le_or_gt index r.log.length with hpresent | habsent
  · obtain ⟨u, hu⟩ := replays hlater hpresent
    have hsound := sound.commitTo hlater hpresent hu
    refine commitThrough_framed sound hlater hpresent hu (Archives r b newest) (fun d hbetween harchives d' hcrashed => ?_) fun state _ => ?_
    · rcases hbetween.crashed d' hcrashed with hheld | hheld
      · exact .inl ⟨b, newest, sound, hheld, harchives.crashed hcrashed⟩
      · exact .inr ⟨b, newest, hsound, hheld, (harchives.crashed hcrashed).next fun c hc => hc.commitTo hlater⟩
    · exact (maybeSnapshot_guarded (faithful hlater hpresent)).consequence
        (fun s d h => ⟨b, newest, hsound, h.1.2, h.2.next fun c hc => hc.commitTo hlater⟩) (fun _ _ _ h => h)
        (fun _ _ _ h => .inr ⟨rfl, .inr h⟩) fun d h => h.leaves_after
  · exact guards_refused sound fun d h => commitThrough_refuses sound h habsent

theorem checkpoint_guards (faithful : r.Faithful) : Guards r r FileEngine.checkpoint := by
  refine guards fun e b newest sound => reads_memory (fun _ _ h => ⟨h.1.1, h.1.1 ▸ h.1.2.writable⟩)
    (.ite (fun _ => .strengthen (.pure _) fun s d h => ⟨b, newest, sound, h.1.2, h.2⟩) fun happlied => .onError ?_ fun _ _ _ h => .inr ⟨rfl, .inl h⟩)
  refine .fact (fun s d h => ?_) fun hpositive => (takeSnapshot_keeps hpositive faithful).consequence
    (fun s d h => ⟨b, newest, sound, h.1.2, h.2⟩) (fun _ _ _ h => h) (fun _ _ _ h => h) fun d h => h.leaves_after
  obtain ⟨⟨rfl, h⟩, -⟩ := h
  rw [h.applied sound] at happlied
  exact Nat.pos_of_ne_zero happlied

end Operations

end Choreolog.Storage
