import Choreolog.Theorems.Checkpoints

/-! # Commits

A commit stages the entries up to an index against the state, writes the metadata, publishes what was staged
and may take a snapshot. -/

namespace Choreolog.Storage
open Lib State

/-! ### The batch -/

theorem batch_walOf {log : List Event} (indexed : Indexed log) {b n : Nat} (base : b ≤ n) (count : Nat) :
    FileEngine.batch (walOf (log.drop b)) count (n + 1) = (log.drop n).take count := by
  induction count generalizing n with
  | zero => rfl
  | succ count ih =>
    rw [FileEngine.batch, logEntry_walOf indexed, if_pos (by omega), Nat.add_sub_cancel]
    cases hentry : log[n]? with
    | none => rw [List.drop_eq_nil_of_le (List.getElem?_eq_none_iff.mp hentry), List.take_nil]
    | some event =>
      obtain ⟨hlt, rfl⟩ := List.getElem?_eq_some_iff.mp hentry
      dsimp only
      rw [ih (by omega), List.drop_eq_getElem_cons hlt, List.take_succ_cons]

theorem lastApplied_applyAgainst {s t : ChoreographyState} {event : Event} {rule : IndexRule}
    {baseline : Option ChoreographyState} (ok : applyAgainst s event rule baseline = .ok t) : t.lastApplied = s.lastApplied ∨ t.lastApplied = event.index := by
  obtain ⟨_, -, ok⟩ := bind_ok ok
  obtain ⟨seen, -, ok⟩ := bind_ok ok
  cases seen with
  | true =>
    cases ok
    exact .inl rfl
  | false =>
    cases baseline with
    | none =>
      obtain ⟨_, -, ok⟩ := bind_ok ok
      obtain ⟨d, -, ok⟩ := bind_ok ok
      cases ok
      exact .inr rfl
    | some baseline =>
      obtain ⟨known, -, ok⟩ := bind_ok ok
      cases known with
      | true =>
        cases ok
        exact .inl rfl
      | false =>
        obtain ⟨_, -, ok⟩ := bind_ok ok
        obtain ⟨d, -, ok⟩ := bind_ok ok
        cases ok
        exact .inr rfl

/-- A batch leads no further than its entries. -/
theorem lastApplied_prepareCommitted {c staged : ChoreographyState} {events : List Event} {n : Nat} (start : c.lastApplied ≤ n)
    (bound : ∀ e ∈ events, e.index ≤ n) (ok : prepareCommitted c events = .ok staged) : staged.lastApplied ≤ n := by
  induction events using List.reverseRecOn generalizing staged with
  | nil =>
    cases ok
    exact start
  | append_singleton events event ih =>
    obtain ⟨before, hbefore, happly⟩ := foldlM_concat ok
    have hlast := ih (fun e he => bound e (List.mem_append_left _ he)) hbefore
    rcases lastApplied_applyAgainst happly with heq | heq
    · exact heq.trans_le hlast
    · exact heq.trans_le (bound event (List.mem_append_right _ List.mem_cons_self))

/-! ### The commit -/

section Commit
variable {r : Record} {b : Nat} {newest : Option ChoreographyState} {index : Nat}

def Record.commitTo (r : Record) (index : Nat) : Record :=
  if index < r.commit then r else { r with commit := index, term := max r.term (lastTerm (r.log.take index)) }

theorem Record.commitTo_of_le (h : r.commit ≤ index) :
    r.commitTo index = { r with commit := index, term := max r.term (lastTerm (r.log.take index)) } := if_neg (not_lt.mpr h)

theorem Sound.commitTo (h : Sound r b newest) (later : r.commit ≤ index) (present : index ≤ r.log.length) {u : ChoreographyState}
    (replays : r.replay index = .ok u) : Sound (r.commitTo index) b newest := by
  obtain ⟨hlawful, -, hterm⟩ := h.replayed (h.offset.trans later) present replays
  rw [Record.commitTo_of_le later]
  exact { h with
    rooted := { h.rooted with }
    base := h.base.trans later
    offset := h.offset.trans later
    commit := present
    positive := h.positive.trans_le (le_max_left _ _)
    term := max_lt h.term (hterm ▸ hlawful.regular.term)
    history := ⟨u, replays⟩
    newest := fun c hc => { h.newest c hc with committed := (h.newest c hc).committed.trans later } }

/-- The entries after the committed ones are staged; what is published is what applying them gives. -/
theorem Serves.stages {e : FileEngine} {d : Disk} (h : Serves r b newest e d) (sound : Sound r b newest) (later : r.commit ≤ index)
    {u : ChoreographyState} (replays : r.replay index = .ok u) :
    ∃ staged, prepareCommitted e.state ((r.log.take index).drop r.commit) = .ok staged ∧ staged.toDomain = u.toDomain ∧
      View u (publishCommitted e.state staged) ∧
      ((r.log.take index).drop r.commit).foldlM apply e.state = .ok (publishCommitted e.state staged) := by
  obtain ⟨v, hreplay, hview⟩ := h.state
  obtain ⟨hlawful, hlast, -⟩ := sound.replayed sound.offset sound.commit hreplay
  have hfollows : Follows v ((r.log.take index).drop r.commit) := Record.follows sound.indexed sound.rooted.fits sound.offset hlast
  rw [Record.replay_extend sound.offset later hreplay] at replays
  obtain ⟨staged, hstaged, hdomain, hview'⟩ := hview.prepare hlawful hfollows replays
  exact ⟨staged, hstaged, hdomain, hview', (View.prepareCommitted_fold (hview.past hlawful) (hview.follows hfollows) hstaged).1⟩

/-- The commit of entries that apply, up to the snapshot that it may take. Until there the snapshot files stay
    as they are. -/
theorem commitThrough_framed {e : FileEngine} (sound : Sound r b newest) (later : r.commit ≤ index) (present : index ≤ r.log.length)
    {u : ChoreographyState} (replays : r.replay index = .ok u) (P : OrdMap String File → OrdMap String File → Prop)
    {post : Unit → FileEngine → Disk → Prop} {error : Error → FileEngine → Disk → Prop} {crash : Disk → Prop}
    (between : ∀ d, Between r (r.commitTo index) b newest d → P d.snapshots d.pruned → crash d)
    (rest : ∀ state, ((r.log.take index).drop r.commit).foldlM apply e.state = .ok state →
      Program.Triple (fun s d => (s = { e with state, commitIndex := index } ∧ Serves (r.commitTo index) b newest s d) ∧
        P d.snapshots d.pruned)
        FileEngine.maybeSnapshot post (fun x s d => error x { s with recoveryRequired := true } d) crash) :
    Program.Triple (fun s d => (s = e ∧ Serves r b newest s d) ∧ P d.snapshots d.pruned) (FileEngine.commitThrough index) post error
      crash := by
  refine .bind_returns (fun _ _ hs => requireWritable_ok hs.1.2.writable) (.bind_memory fun t => ?_)
  refine .fact (fun _ _ hs => (hs.1.symm.trans hs.2.1.1 : t = e)) fun ht => ?_
  subst ht
  refine .fact (fun _ _ h => (h.1 ▸ h.2.1.2.commitIndex : t.commitIndex = r.commit)) fun hcommit => ?_
  rw [hcommit, if_neg (not_lt.mpr later)]
  refine .fact (fun _ _ h => (h.1 ▸ h.2.1.2.events : t.wal = walOf (r.log.drop b))) fun hwal => ?_
  refine .fact (fun _ _ h => h.1 ▸ h.2.1.2.stages sound later replays) fun ⟨staged, hstaged, hdomain, hview, hfold⟩ => ?_
  obtain ⟨-, hlast, hterm⟩ := sound.replayed (sound.offset.trans later) present replays
  have hsound := sound.commitTo later present replays
  rw [hwal, batch_walOf sound.indexed sound.base, ← List.drop_take]
  refine .bind_of hstaged ?_
  have hindex : staged.lastApplied = index := by rw [hdomain, hlast]
  rw [if_neg (not_not.mpr hindex)]
  have hmetadata : { r.metadata with commitIndex := index, term := max r.metadata.term staged.term } = (r.commitTo index).metadata := by
    rw [Record.commitTo_of_le later, show staged.term = lastTerm (r.log.take index) by rw [hdomain, hterm]]
    rfl
  have hafter : ∀ d bytes, Serves r b newest t d → MetaHeld (r.commitTo index).metadata (some bytes) →
      Serves (r.commitTo index) b newest { t with state := publishCommitted t.state staged, commitIndex := index }
        { d with metadata := some bytes } := by
    intro d bytes h held
    rw [Record.commitTo_of_le later] at held ⊢
    exact { h with
      metadata := held
      state := ⟨u, replays, hview⟩
      commitIndex := rfl }
  refine .onError (.bind_returns (fun s d h => loadMetadata_held h.2.1.2.metadata s) ?_) fun _ _ _ h => h
  rw [hmetadata]
  refine .bind (fun _ s d => (s = t ∧ Serves (r.commitTo index) b newest
    { t with state := publishCommitted t.state staged, commitIndex := index } d) ∧ P d.snapshots d.pruned)
    (storeMetadata_spec _ hsound.fits ?_ ?_) fun _ => .bind _ (.assign ?_) fun _ => rest _ hfold
  · rintro _ d ⟨rfl, ⟨-, h⟩, hP⟩
    exact between d h.toHeld.between_before hP
  · rintro _ d bytes ⟨rfl, ⟨-, h⟩, hP⟩ held
    exact ⟨⟨⟨rfl, hafter d bytes h held⟩, hP⟩, between _ (hafter d bytes h held).toHeld.between_after hP⟩
  · rintro _ d ⟨⟨rfl, h⟩, hP⟩
    exact ⟨⟨rfl, h⟩, hP⟩

theorem commitThrough_published {e : FileEngine} (sound : Sound r b newest) (later : r.commit ≤ index) (present : index ≤ r.log.length)
    {u : ChoreographyState} (replays : r.replay index = .ok u) {post : Unit → FileEngine → Disk → Prop}
    {error : Error → FileEngine → Disk → Prop} {crash : Disk → Prop}
    (between : ∀ d, Between r (r.commitTo index) b newest d → crash d)
    (rest : ∀ state, ((r.log.take index).drop r.commit).foldlM apply e.state = .ok state →
      Program.Triple (fun s d => s = { e with state, commitIndex := index } ∧ Serves (r.commitTo index) b newest s d)
        FileEngine.maybeSnapshot post (fun x s d => error x { s with recoveryRequired := true } d) crash) :
    Program.Triple (fun s d => s = e ∧ Serves r b newest s d) (FileEngine.commitThrough index) post error crash :=
  .strengthen (commitThrough_framed sound later present replays (fun _ _ => True) (fun d h _ => between d h) fun state h =>
    .strengthen (rest state h) fun _ _ hs => hs.1) fun _ _ hs => ⟨hs, trivial⟩

/-- What is committed already stays so. -/
theorem commitThrough_past {e : FileEngine} {d : Disk} (serves : Serves r b newest e d) (less : index < r.commit)
    (error : Error → FileEngine → Disk → Prop) (crash : Disk → Prop) :
    Program.Triple (fun s d' => s = e ∧ d' = d) (FileEngine.commitThrough index) (fun _ s d' => s = e ∧ d' = d) error crash := by
  refine reads_memory (fun _ _ hs => ⟨hs.1, serves.writable⟩) ?_
  rw [serves.commitIndex, if_pos less]
  exact .strengthen (.pure _) fun _ _ h => h

/-- What is not in the log is not committed. -/
theorem commitThrough_refuses {e : FileEngine} {d : Disk} (sound : Sound r b newest) (serves : Serves r b newest e d)
    (absent : r.log.length < index) : Refuses e d (FileEngine.commitThrough index) := by
  refine .writable serves ?_
  rw [serves.commitIndex, if_neg (not_lt.mpr (sound.commit.trans absent.le)), serves.events, batch_walOf sound.indexed sound.base,
    ← List.drop_take]
  refine .bind (fun staged s d' => prepareCommitted e.state ((r.log.take index).drop r.commit) = .ok staged ∧ s = e ∧ d' = d)
    (.of (fun _ _ _ hstaged h => ⟨hstaged, h⟩) fun _ _ _ _ h => h) fun staged =>
    .ite (fun _ => .strengthen .fail fun _ _ h => h.2) fun hindex => ?_
  rintro s d' ⟨hstaged, -⟩
  refine absurd absent (not_lt.mpr ?_)
  rw [← not_not.mp hindex]
  refine lastApplied_prepareCommitted ((serves.applied sound).trans_le sound.commit) (fun e he => ?_) hstaged
  obtain ⟨i, hi⟩ := List.getElem?_of_mem (List.mem_of_mem_take (List.mem_of_mem_drop he))
  rw [sound.indexed i e hi]
  exact (List.getElem?_eq_some_iff.mp hi).1

theorem commitThrough_achieves (index : Nat) (replays : r.commit ≤ index → index ≤ r.log.length → ∃ u, r.replay index = .ok u)
    (faithful : r.commit ≤ index → index ≤ r.log.length → (r.commitTo index).Faithful) :
    Achieves r (r.commitTo index) (FileEngine.commitThrough index) := by
  refine achieves fun e b newest sound => ?_
  rcases lt_or_ge index r.commit with hless | hlater
  · rw [Record.commitTo, if_pos hless]
    refine .each ?_
    rintro s d ⟨rfl, hserves⟩
    refine (commitThrough_past hserves hless _ _).consequence (fun _ _ h => h) ?_ (fun _ _ _ h => h) fun _ h => h
    rintro _ _ _ ⟨rfl, rfl⟩
    exact ⟨b, newest, sound, hserves⟩
  rcases le_or_gt index r.log.length with hpresent | habsent
  · obtain ⟨u, hu⟩ := replays hlater hpresent
    have hsound := sound.commitTo hlater hpresent hu
    refine commitThrough_published sound hlater hpresent hu (fun _ h => h.leaves sound hsound) fun state _ => ?_
    refine (maybeSnapshot_spec (faithful hlater hpresent)).consequence (fun s d h => ⟨b, newest, hsound, h.2⟩) (fun _ _ _ h => h)
      (fun _ _ _ h => .inr ⟨rfl, .inr h⟩) fun d h => h.leaves_after
  · exact Refuses.achieves (fun d h => commitThrough_refuses sound h habsent) sound

end Commit

end Choreolog.Storage
