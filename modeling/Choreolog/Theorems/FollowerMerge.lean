import Choreolog.Theorems.Exchange

/-! # The follower's merge against the reference

The loop of `recvAppend` works on a log that starts at a boundary and changes it in place. Seen by absolute
indexes it does what `Merge` of `formal/raft/ChoreoRaft.tla` says, entry by entry: it keeps the log up to the first
index where the message differs from it or goes beyond it, and takes the rest from the message. -/

namespace Choreolog.Raft
open Lib

/-! ### The reference -/

/-- The first index after `prev` at which the log does not hold the entry of the message. -/
def firstGap (old : Nat → Option Entry) : Nat → List Entry → Option Nat
  | _, [] => none
  | prev, entry :: rest => if old (prev + 1) = some entry then firstGap old (prev + 1) rest else some (prev + 1)

/-- The old log if it holds all entries of the message, otherwise the old log below the first gap and the message from
    there on. -/
def referenceMerge (old : Nat → Option Entry) (prev : Nat) (entries : List Entry) : Nat → Option Entry :=
  match firstGap old prev entries with
  | none => old
  | some gap => fun index => if index < gap then old index else entries[index - prev - 1]?

section Gap
variable {old : Nat → Option Entry} {prev gap : Nat} {entries : List Entry}

theorem firstGap_bounds (h : firstGap old prev entries = some gap) : prev < gap ∧ gap ≤ prev + entries.length := by
  induction entries generalizing prev with
  | nil => cases h
  | cons entry rest ih =>
    rw [firstGap] at h
    rw [List.length_cons]
    split at h
    · have := ih h
      omega
    · cases h
      omega

/-- The gap is at or below an index exactly if some entry up to there is not held. -/
theorem firstGap_le_iff (limit : Nat) : (∃ gap, firstGap old prev entries = some gap ∧ gap ≤ limit) ↔
    ¬ ∀ k entry, entries[k]? = some entry → prev + 1 + k ≤ limit → old (prev + 1 + k) = some entry := by
  induction entries generalizing prev with
  | nil => simp [firstGap]
  | cons entry rest ih =>
    rw [firstGap]
    split
    · rename_i hheld
      rw [ih, not_iff_not]
      constructor
      · intro h k
        cases k with
        | zero => exact fun e he _ => hheld.trans he
        | succ k =>
          intro e he hle
          rw [show prev + 1 + (k + 1) = prev + 1 + 1 + k by omega] at hle ⊢
          exact h k e he hle
      · intro h k e he hle
        rw [show prev + 1 + 1 + k = prev + 1 + (k + 1) by omega] at hle ⊢
        exact h (k + 1) e he hle
    · rename_i hdiffers
      constructor
      · rintro ⟨gap, hgap, hle⟩ h
        cases hgap
        exact hdiffers (h 0 entry rfl hle)
      · intro h
        refine ⟨prev + 1, rfl, ?_⟩
        by_contra hlimit
        exact h fun k e _ hle => absurd hle (by omega)

end Gap

/-! ### The loop -/

section Loop
variable {t : Durable} {prev : Nat}

theorem entryAt_le {i : Nat} {entry : Entry} (h : t.entryAt i = some entry) : i ≤ t.lastIndex := by
  unfold Durable.entryAt at h
  split at h
  · cases h
  · have := (List.getElem?_eq_some_iff.mp h).1
    unfold Durable.lastIndex
    omega

theorem firstGap_le_last {entries : List Entry} {gap : Nat} (high : prev ≤ t.lastIndex) (h : firstGap t.entryAt prev entries = some gap) :
    gap ≤ t.lastIndex + 1 := by
  induction entries generalizing prev with
  | nil => cases h
  | cons entry rest ih =>
    rw [firstGap] at h
    split at h
    · exact ih (entryAt_le ‹_›) h
    · cases h
      omega

/-- At the end of the log the loop only appends. -/
theorem mergeEntries_append (entries : List Entry) (end_ : t.lastIndex = prev) :
    mergeEntries t (prev + 1) entries = ({ t with log := t.log ++ entries }, true) := by
  induction entries generalizing t prev with
  | nil =>
    rw [List.append_nil]
    rfl
  | cons entry rest ih =>
    unfold mergeEntries
    rw [if_neg (by omega), if_pos (by omega)]
    dsimp only
    rw [ih (by dsimp only [Durable.lastIndex] at end_ ⊢; rw [List.length_append, List.length_singleton]; omega),
      List.append_assoc, List.singleton_append]

/-- The loop leaves the log alone, stops at a gap in the committed prefix, or cuts the log at the gap. -/
theorem mergeEntries_gap (entries : List Entry) (low : t.snapshotIndex ≤ prev) (high : prev ≤ t.lastIndex)
    (reach : t.commit ≤ t.lastIndex) :
    mergeEntries t (prev + 1) entries =
      match firstGap t.entryAt prev entries with
      | none => (t, true)
      | some gap =>
        if gap ≤ t.commit then (t, false)
        else ({ t with log := t.log.take (gap - 1 - t.snapshotIndex) ++ entries.drop (gap - prev - 1) }, true) := by
  induction entries generalizing prev with
  | nil => rfl
  | cons entry rest ih =>
    have hlast : t.lastIndex = t.snapshotIndex + t.log.length := rfl
    rw [firstGap]
    by_cases hheld : t.entryAt (prev + 1) = some entry
    · have hle := entryAt_le hheld
      unfold mergeEntries
      rw [if_neg (by simp [hheld]), if_neg (by omega), ih (by omega) hle, if_pos hheld]
      cases hgap : firstGap t.entryAt (prev + 1) rest with
      | none => rfl
      | some gap =>
        have := firstGap_bounds hgap
        dsimp only
        rw [show gap - prev - 1 = gap - (prev + 1) - 1 + 1 by omega, List.drop_succ_cons]
    · rw [if_neg hheld]
      dsimp only
      rw [Nat.add_sub_cancel, show prev + 1 - prev - 1 = 0 by omega, List.drop_zero]
      by_cases hend : t.lastIndex = prev
      · rw [mergeEntries_append _ hend, if_neg (by omega), List.take_of_length_le (by omega)]
      · unfold mergeEntries
        rw [if_pos ⟨by omega, hheld⟩]
        split
        · rfl
        · have hcut : ({ t with log := t.log.take (prev + 1 - t.snapshotIndex - 1) } : Durable).lastIndex = prev := by
            dsimp only [Durable.lastIndex]
            rw [List.length_take]
            omega
          have happend : ({ t with log := t.log.take (prev + 1 - t.snapshotIndex - 1) ++ [entry] } : Durable).lastIndex = prev + 1 := by
            dsimp only [Durable.lastIndex] at hcut ⊢
            rw [List.length_append, List.length_singleton]
            omega
          dsimp only
          rw [if_pos (by rw [hcut]), mergeEntries_append _ happend]
          dsimp only
          rw [List.append_assoc, List.singleton_append, show prev + 1 - t.snapshotIndex - 1 = prev - t.snapshotIndex by omega]

/-- The merged log by absolute indexes. -/
theorem entryAt_merge {entries : List Entry} (low : t.snapshotIndex ≤ prev) (high : prev ≤ t.lastIndex) (reach : t.commit ≤ t.lastIndex)
    (success : (mergeEntries t (prev + 1) entries).2 = true) :
    (mergeEntries t (prev + 1) entries).1.entryAt = referenceMerge t.entryAt prev entries := by
  have hlast : t.lastIndex = t.snapshotIndex + t.log.length := rfl
  rw [mergeEntries_gap entries low high reach] at success ⊢
  unfold referenceMerge
  cases hgap : firstGap t.entryAt prev entries with
  | none => rfl
  | some gap =>
    obtain ⟨hprev, -⟩ := firstGap_bounds hgap
    have hreach := firstGap_le_last high hgap
    rw [hgap] at success
    dsimp only at success ⊢
    split at success
    · cases success
    · rename_i hfree
      rw [if_neg hfree]
      funext index
      have hlength : (t.log.take (gap - 1 - t.snapshotIndex)).length = gap - 1 - t.snapshotIndex := by
        rw [List.length_take]
        omega
      unfold Durable.entryAt
      dsimp only
      by_cases hbase : index ≤ t.snapshotIndex
      · rw [if_pos hbase, if_pos hbase, if_pos (by omega)]
      · rw [if_neg hbase, if_neg hbase]
        split
        · rw [List.getElem?_append_left (by omega), List.getElem?_take_of_lt (by omega)]
        · rw [List.getElem?_append_right (by omega), hlength, List.getElem?_drop]
          congr 1
          omega

theorem mergeEntries_success (entries : List Entry) (low : t.snapshotIndex ≤ prev) (high : prev ≤ t.lastIndex)
    (reach : t.commit ≤ t.lastIndex) : (mergeEntries t (prev + 1) entries).2 = true ↔
      ∀ k entry, entries[k]? = some entry → prev + 1 + k ≤ t.commit → t.entryAt (prev + 1 + k) = some entry := by
  rw [mergeEntries_gap entries low high reach, ← not_iff_not, ← firstGap_le_iff]
  cases firstGap t.entryAt prev entries with
  | none => simp
  | some gap =>
    by_cases hgap : gap ≤ t.commit
    · simp [hgap]
    · simp [hgap]

end Loop

/-! ### The whole step -/

/-- A step, and the completion of the write that it asks for. -/
def settle (config : Config) (s : Node) (input : Input) : Node × List Outbound :=
  let (s', e) := step config s input
  match e.persist with
  | none => (s', e.sendNow)
  | some request =>
    let (s'', e') := step config s' (.persistCompleted request.token)
    (s'', e.sendNow ++ e'.sendNow)

/-- What the follower's durable log becomes, and what its reply says of that. -/
structure MergeReply (d : Durable) (m : AppendEntries) (reply : AppendReply) (d' : Durable) : Prop where
  boundary : d'.snapshotIndex = d.snapshotIndex
  success : reply.success = true ↔ d.termAt m.prevIndex = some m.prevTerm ∧
    ∀ k entry, m.entries[k]? = some entry → m.prevIndex + 1 + k ≤ d.commit → d.entryAt (m.prevIndex + 1 + k) = some entry
  log : reply.success = true → d'.entryAt = referenceMerge d.entryAt m.prevIndex m.entries
  commit : reply.success = true → d'.commit = max d.commit (min m.leaderCommit (m.prevIndex + m.entries.length))
  matched : reply.success = true → reply.matched = m.prevIndex + m.entries.length
  failed : reply.success = false → d'.log = d.log ∧ d'.commit = d.commit

section Step
variable {config : Config} {s : Node} {m : AppendEntries}

/-- The follower's answer goes out once its write is durable. -/
theorem settle_answer {input : Input} {d : Durable} {o : Outbound} {kind : PersistKind} (live : s.halted = false)
    (sound : WellFormed s.durable) (target : WellFormed d) (h : step config s input = answer s false d o kind) :
    (settle config s input).1.durable = d ∧ (settle config s input).2 = [o] := by
  unfold settle
  rw [h]
  unfold answer
  by_cases hd : d = s.durable
  · rw [if_neg (not_not.mpr hd)]
    exact ⟨hd.symm, rfl⟩
  · rw [if_pos hd]
    have hcompleted : step config (beginWrite (stepDown s {}).1 (stepDown s {}).2 d [o] [] false [] kind).1
          (.persistCompleted s.nextToken) =
        persistCompleted config (beginWrite (stepDown s {}).1 (stepDown s {}).2 d [o] [] false [] kind).1 s.nextToken := by
      unfold step
      exact if_neg (by simp [beginWrite, stepDown, sound.valid, target.valid])
    dsimp only [beginWrite, stepDown] at hcompleted ⊢
    rw [hcompleted]
    simp [persistCompleted, live, completeRead]

/-- A message that adopts a term leaves the log as it is. -/
theorem adoptTerm_log (d : Durable) (term : Nat) : ∃ vote term', adoptTerm d term = { d with term := term', votedFor := vote } := by
  unfold adoptTerm
  split
  · exact ⟨none, term, rfl⟩
  · exact ⟨d.votedFor, d.term, rfl⟩

/-- What the follower makes durable, and what it replies. -/
theorem recvAppend_merge (config : Config) (sound : WellFormed s.durable) (member : knownPeer s m.leader = true) (proper : Proper m)
    (term : s.durable.term ≤ m.term) (room : s.durable.termAt m.prevIndex = some m.prevTerm →
      m.prevIndex + m.entries.length - s.durable.snapshotIndex ≤ EntryLog.maximumEntries) :
    ∃ d reply, recvAppend config s m = answer s false d ⟨m.leader, .appendReply reply⟩ .stateUpdate ∧
      WellFormed d ∧ MergeReply s.durable m reply d := by
  have hadopt := changes_adoptTerm s.durable m.term
  have hterm : (adoptTerm s.durable m.term).term = m.term := Sound.adoptTerm_term term
  have hw := hadopt.wellFormed sound
  have hfits := proper.fits
  unfold recvAppend
  rw [if_neg (by simp [member]), if_neg proper.checks, if_neg (by simp [proper.ordered]), if_neg (by omega)]
  dsimp only
  obtain ⟨vote, term', hsame⟩ := adoptTerm_log s.durable m.term
  generalize adoptTerm s.durable m.term = t at *
  have hentry : t.entryAt = s.durable.entryAt := by rw [hsame]; rfl
  have htermAt : t.termAt = s.durable.termAt := by rw [hsame]; rfl
  have hcommit : t.commit = s.durable.commit := by rw [hsame]
  have hbase : t.snapshotIndex = s.durable.snapshotIndex := by rw [hsame]
  have hlog : t.log = s.durable.log := by rw [hsame]
  have hback : ({ t with log := s.durable.log, commit := s.durable.commit } : Durable) = t := by rw [hsame]
  by_cases hknown : t.termAt m.prevIndex = some m.prevTerm
  · have hroom := room (htermAt ▸ hknown)
    obtain ⟨hlow, hhigh⟩ := termAt_bounds hknown
    have hmerge := mergeEntries_eq t (m.prevIndex + 1) m.entries
    have hsuccess := mergeEntries_success m.entries hlow hhigh hw.reach
    rw [hentry, hcommit] at hsuccess
    simp only [hknown, beq_self_eq_true, Bool.true_and, hbase, decide_eq_true_eq, if_neg (Nat.not_lt.mpr hroom), if_true]
    cases hs : (mergeEntries t (m.prevIndex + 1) m.entries).2 with
    | true =>
      obtain ⟨hchanges, hreach⟩ := mergeEntries_changes m.entries hw hknown (by simpa [hterm] using proper.ordered)
        (by omega) (by omega) hs
      have hmerged := hchanges.wellFormed hw
      have hheld := entryAt_merge hlow hhigh hw.reach hs
      refine ⟨_, _, rfl, ?_, ?_⟩
      · exact Change.wellFormed (.commit _ (le_max_left _ _) (max_le hmerged.reach ((min_le_right _ _).trans hreach))) hmerged
      · refine ⟨?_, ?_, fun _ => ?_, fun _ => ?_, fun _ => rfl, nofun⟩
        · rw [hmerge]
          exact hbase
        · exact iff_of_true rfl ⟨htermAt ▸ hknown, hsuccess.mp hs⟩
        · rw [← hentry, ← hheld]
          rfl
        · rw [hmerge]
          exact congrArg (max · _) hcommit
    | false =>
      rw [hmerge]
      dsimp only
      rw [if_neg Bool.false_ne_true, if_neg Bool.false_ne_true, hback]
      refine ⟨_, _, rfl, hw, hbase, ?_, nofun, nofun, nofun, fun _ => ⟨hlog, hcommit⟩⟩
      refine iff_of_false Bool.false_ne_true fun h => ?_
      rw [hsuccess.mpr h.2] at hs
      cases hs
  · have hok : (t.termAt m.prevIndex == some m.prevTerm) = false := beq_eq_false_iff_ne.mpr hknown
    simp only [hok, Bool.false_and, Bool.false_eq_true, if_false, hback]
    refine ⟨_, _, rfl, hw, hbase, ?_, nofun, nofun, nofun, fun _ => ⟨hlog, hcommit⟩⟩
    exact iff_of_false Bool.false_ne_true fun h => hknown (htermAt ▸ h.1)

/-- A node with a valid durable log and no write outstanding merges a message of its members as the reference does. -/
theorem follower_merge (config : Config) (s : Node) (m : AppendEntries) (live : s.halted = false) (idle : s.pending = none)
    (valid : s.durable.valid = true) (representable : s.durable.snapshotIndex ≤ maximum)
    (member : knownPeer s m.leader = true) (proper : Proper m) (term : s.durable.term ≤ m.term)
    (room : s.durable.termAt m.prevIndex = some m.prevTerm →
      m.prevIndex + m.entries.length - s.durable.snapshotIndex ≤ EntryLog.maximumEntries) :
    ∃ reply, (settle config s (.recvAppend m)).2 = [⟨m.leader, .appendReply reply⟩] ∧
      MergeReply s.durable m reply (settle config s (.recvAppend m)).1.durable := by
  have sound := (valid_iff representable).mp valid
  obtain ⟨d, reply, hstep, htarget, hreply⟩ := recvAppend_merge config sound member proper term room
  obtain ⟨hdurable, hout⟩ := settle_answer live sound htarget
    ((step_ready sound live idle config (.recvAppend m)).trans hstep)
  refine ⟨reply, hout, ?_⟩
  rw [hdurable]
  exact hreply

/-- A follower whose last entry is from a term that the leader of the message never saw. -/
def divergent : Node :=
  { initial ⟨"b", ["a", "c"]⟩ with
    durable :=
      { term := 2, log := [⟨1, "x"⟩, ⟨1, "y"⟩, ⟨2, "stale"⟩], commit := 3, applied := 2, snapshotIndex := 1, snapshotTerm := 1 } }

/-- The leader's next entries after the snapshot, with one that the follower holds already. -/
def repair : AppendEntries :=
  { term := 3, leader := "a", prevIndex := 2, prevTerm := 1, entries := [⟨1, "y"⟩, ⟨3, "z"⟩], leaderCommit := 4, requestId := 7 }

theorem repair_proper : Proper repair := ⟨by decide, by decide, by decide, by decide, by decide⟩

theorem follower_merge_repair : ∃ reply, (settle ⟨"b", ["a", "c"]⟩ divergent (.recvAppend repair)).2 = [⟨"a", .appendReply reply⟩] ∧
    MergeReply divergent.durable repair reply (settle ⟨"b", ["a", "c"]⟩ divergent (.recvAppend repair)).1.durable :=
  follower_merge ⟨"b", ["a", "c"]⟩ divergent repair rfl rfl (by decide) (by decide) (by decide) repair_proper (by decide)
    fun _ => by decide

end Step

end Choreolog.Raft
