import Choreolog.Raft.DurableNode
import Choreolog.Theorems.ReadLife

/-! # Read results through the durable driver

The driver returns the effects of the last core step of a dispatch. What the first step reports is lost when
that step also stages a write, and a restart replaces the core without reporting its outstanding read. All
other dispatches report all there is. -/

namespace Choreolog.Raft
open Lib

/-! ### Merging

Which appends change the log of a follower. -/

namespace Durable

/-- The entries are in place, from `index` on. -/
def Has (d : Durable) (index : Nat) (entries : List Entry) : Prop :=
  ∀ k e, entries[k]? = some e → d.entryAt (index + k) = some e

/-- The entries agree with the committed ones, from `index` on. -/
def Allows (d : Durable) (index : Nat) (entries : List Entry) : Prop :=
  ∀ k e, entries[k]? = some e → index + k ≤ d.commit → d.entryAt (index + k) = some e

theorem has_cons {d : Durable} {index : Nat} {e : Entry} {rest : List Entry} :
    d.Has index (e :: rest) ↔ d.entryAt index = some e ∧ d.Has (index + 1) rest := by
  refine ⟨fun h => ⟨h 0 e rfl, fun k x hx => ?_⟩, fun h k x hx => ?_⟩
  · have := h (k + 1) x (by simpa using hx)
    rwa [Nat.add_right_comm, Nat.add_assoc]
  · cases k with
    | zero =>
      obtain rfl := Option.some.inj hx
      exact h.1
    | succ k =>
      have := h.2 k x (by simpa using hx)
      rwa [Nat.add_right_comm, Nat.add_assoc] at this

theorem allows_cons {d : Durable} {index : Nat} {e : Entry} {rest : List Entry} (h : d.entryAt index = some e) :
    d.Allows index (e :: rest) ↔ d.Allows (index + 1) rest := by
  refine ⟨fun ha k x hx hc => ?_, fun ha k x hx hc => ?_⟩
  · have := ha (k + 1) x (by simpa using hx) (by omega)
    rwa [Nat.add_right_comm, Nat.add_assoc]
  · cases k with
    | zero =>
      obtain rfl := Option.some.inj hx
      exact h
    | succ k =>
      have := ha k x (by simpa using hx) (by omega)
      rwa [Nat.add_right_comm, Nat.add_assoc] at this

end Durable

/-- Past the end of the log all entries are added. -/
theorem mergeEntries_past (d : Durable) (entries : List Entry) :
    mergeEntries d (d.lastIndex + 1) entries = ({ d with log := d.log ++ entries }, true) := by
  induction entries generalizing d with
  | nil => simp [mergeEntries]
  | cons e rest ih =>
    have hnot : ¬(d.lastIndex + 1 ≤ d.lastIndex ∧ d.entryAt (d.lastIndex + 1) ≠ some e) := fun h => by omega
    have hlast : ({ d with log := d.log ++ [e] } : Durable).lastIndex = d.lastIndex + 1 := by
      simp [Durable.lastIndex, Nat.add_assoc]
    have hih := ih { d with log := d.log ++ [e] }
    rw [hlast] at hih
    rw [mergeEntries, if_neg hnot]
    simp only [if_true, hih, List.append_assoc, List.cons_append, List.nil_append]

/-- The merge succeeds when it leaves the committed entries alone, and then it changes the log unless all entries
    are in place. -/
theorem mergeEntries_iff {d : Durable} {index : Nat} (entries : List Entry) (lower : d.snapshotIndex < index)
    (upper : index ≤ d.lastIndex + 1) (reach : d.commit ≤ d.lastIndex) :
    ((mergeEntries d index entries).2 = true ↔ d.Allows index entries) ∧
    ((mergeEntries d index entries).2 = true → ((mergeEntries d index entries).1.log = d.log ↔ d.Has index entries)) := by
  induction entries generalizing index with
  | nil => simp [mergeEntries, Durable.Allows, Durable.Has]
  | cons e rest ih =>
    by_cases hin : d.entryAt index = some e
    · -- In place: the loop goes on.
      have hle : index ≤ d.lastIndex := by
        unfold Durable.entryAt at hin
        rw [if_neg (by omega)] at hin
        have := (List.getElem?_eq_some_iff.mp hin).1
        unfold Durable.lastIndex
        omega
      have hstep : mergeEntries d index (e :: rest) = mergeEntries d (index + 1) rest := by
        rw [mergeEntries, if_neg (fun h => h.2 hin), if_neg (by omega)]
      rw [hstep, Durable.allows_cons hin, Durable.has_cons, and_iff_right hin]
      exact ih (by omega) (by omega)
    · have hno : ¬d.Has index (e :: rest) := fun h => hin (h 0 e rfl)
      by_cases hle : index ≤ d.lastIndex
      · by_cases hc : index ≤ d.commit
        · -- A committed entry disagrees.
          have hstep : mergeEntries d index (e :: rest) = (d, false) := by
            rw [mergeEntries, if_pos ⟨hle, hin⟩, if_pos hc]
          rw [hstep]
          exact ⟨iff_of_false nofun fun h => hin (h 0 e rfl hc), nofun⟩
        · -- The log is cut, and the rest is added.
          let cut : Durable := { d with log := d.log.take (index - d.snapshotIndex - 1) }
          have hlast : cut.lastIndex + 1 = index := by
            unfold Durable.lastIndex at hle ⊢
            simp only [cut, List.length_take]
            omega
          have hstep : mergeEntries d index (e :: rest) = ({ d with log := cut.log ++ e :: rest }, true) := by
            have hpast := mergeEntries_past cut (e :: rest)
            have hnot : ¬(cut.lastIndex + 1 ≤ cut.lastIndex ∧ cut.entryAt (cut.lastIndex + 1) ≠ some e) :=
              fun h => by omega
            rw [mergeEntries, if_neg hnot, if_pos rfl, hlast] at hpast
            rw [mergeEntries, if_pos ⟨hle, hin⟩, if_neg hc]
            show mergeEntries (if index = cut.lastIndex + 1 then { cut with log := cut.log ++ [e] } else cut) (index + 1) rest = _
            rw [if_pos hlast.symm]
            exact hpast
          rw [hstep]
          refine ⟨iff_of_true rfl fun k x hx hk => absurd hk (by omega), fun _ => iff_of_false (fun hlog => hin ?_) hno⟩
          have hlen : cut.log.length = index - d.snapshotIndex - 1 := by
            have : cut.snapshotIndex = d.snapshotIndex := rfl
            unfold Durable.lastIndex at hlast
            omega
          have hlog : cut.log ++ e :: rest = d.log := hlog
          unfold Durable.entryAt
          rw [if_neg (by omega), ← hlog, ← hlen, List.getElem?_append_right le_rfl, Nat.sub_self]
          rfl
      · -- The log ends before the entry.
        obtain rfl : index = d.lastIndex + 1 := by omega
        rw [mergeEntries_past]
        refine ⟨iff_of_true rfl fun k x hx hk => absurd hk (by omega), fun _ => iff_of_false (fun hlog => ?_) hno⟩
        have := congrArg List.length hlog
        simp at this

/-! ### Dispatches that lose a report -/

section Loses
variable (s : Node)

def RequestVote.Accepted (m : RequestVote) : Prop :=
  knownPeer s m.candidate = true ∧ m.term ≠ 0 ∧ m.lastTerm ≤ m.term ∧ (m.lastIndex = 0 ↔ m.lastTerm = 0)

def AppendEntries.Accepted (m : AppendEntries) : Prop :=
  knownPeer s m.leader = true ∧ m.term ≠ 0 ∧ m.prevIndex ≠ maximum ∧ m.entries.length ≤ maximum - 1 - m.prevIndex ∧
    m.prevTerm ≤ m.term ∧ (m.prevIndex = 0 ↔ m.prevTerm = 0) ∧ entriesOrdered m.term m.prevTerm m.entries = true

def SnapshotRequest.Accepted (m : SnapshotRequest) : Prop :=
  (knownPeer s m.leader = true ∧ m.term ≠ 0 ∧ m.index ≠ 0 ∧ m.index ≠ maximum ∧ m.snapshotTerm ≠ 0 ∧
    m.snapshotTerm ≤ m.term) ∧
  ¬(s.durable.commit < m.index ∧ (s.durable.termAt s.durable.commit).any (m.snapshotTerm < ·) = true)

end Loses

namespace Durable
variable (d : Durable)

/-- The previous entry matches, but the log may not hold that many entries. -/
def Overfull (m : AppendEntries) : Prop :=
  d.termAt m.prevIndex = some m.prevTerm ∧
    EntryLog.maximumEntries < m.prevIndex + m.entries.length - d.snapshotIndex

/-- An append of the node's own term changes its log or its commit index. -/
def News (m : AppendEntries) : Prop :=
  d.termAt m.prevIndex = some m.prevTerm ∧
    if EntryLog.maximumEntries < m.prevIndex + m.entries.length - d.snapshotIndex then
      d.commit < min m.leaderCommit m.prevIndex
    else d.Allows (m.prevIndex + 1) m.entries ∧
      (¬d.Has (m.prevIndex + 1) m.entries ∨ d.commit < min m.leaderCommit (m.prevIndex + m.entries.length))

end Durable

/-- A message of a member that makes the node step down and changes its durable state. -/
def Deposes (s : Node) : Input → Prop
  | .recvRequestVote m => m.Accepted s ∧ s.durable.term < m.term
  | .recvVoteReply m => knownPeer s m.voter = true ∧ s.durable.term < m.term
  | .recvAppendReply m => knownPeer s m.follower = true ∧ s.durable.term < m.term
  | .recvSnapshotReply m => knownPeer s m.follower = true ∧ s.durable.term < m.term
  | .recvAppend m => m.Accepted s ∧ (s.durable.term < m.term ∨ s.durable.term = m.term ∧ s.durable.News m)
  | .recvSnapshot m => m.Accepted s ∧
      (s.durable.term < m.term ∨ s.durable.term = m.term ∧ m.ready = true ∧ s.durable.commit < m.index)
  | _ => False

/-- The core has something to report besides the write: its outstanding read, or a log that is full. -/
def Owes (s : Node) (input : Input) : Prop :=
  s.reading.isSome = true ∨ ∃ m, input = .recvAppend m ∧ s.durable.Overfull m

/-- A step that stages a write and reports something else. -/
def Drops (r : Node × Effects) : Prop :=
  r.2.persist.isSome = true ∧ (r.2.read.isSome = true ∨ r.2.capacityExhausted = true)

section Handlers
variable {config : Config} {s : Node}

theorem not_drops {r : Node × Effects} (h : r.2.persist = none) : ¬Drops r := fun hd => by simp [Drops, h] at hd

theorem not_drops_silent {r : Node × Effects} (read : r.2.read = none) (capacity : r.2.capacityExhausted = false) :
    ¬Drops r := fun hd => by simp [Drops, read, capacity] at hd

theorem not_drops_ite {c : Prop} [Decidable c] {r r' : Node × Effects} (h : ¬Drops r) (h' : ¬Drops r') :
    ¬Drops (if c then r else r') := by
  split
  · exact h
  · exact h'

/-- A write staged by a node that has stepped down. -/
theorem drops_lowered {r : Node × Effects} (persist : r.2.persist.isSome = true)
    (answer : r.2.read = (stepDown s {}).2.read) (capacity : r.2.capacityExhausted = false) :
    Drops r ↔ s.reading.isSome = true := by
  have hread : r.2.read.isSome = s.reading.isSome := by
    rw [answer, ReadTurn.stepDown_read_eq, Node.reading, Option.isSome_map, Option.isSome_map]
  simp [Drops, persist, capacity, hread]

/-- A handler that writes its target if it is new, and answers at once if not. -/
theorem drops_write {t d : Durable} {x : Node} {e : Effects} {after out : List Outbound} (h : e.persist = none) :
    Drops (if t ≠ d then stage x e t after else (x, { e with sendNow := out })) ↔
      t ≠ d ∧ (e.read.isSome = true ∨ e.capacityExhausted = true) := by
  by_cases hne : t ≠ d
  · rw [if_pos hne, and_iff_right hne]
    exact and_iff_right rfl
  · rw [if_neg hne]
    exact iff_of_false (not_drops h) fun h => hne h.1

theorem owes_other (input : Input) (other : ∀ m, input ≠ .recvAppend m) : Owes s input ↔ s.reading.isSome = true :=
  or_iff_left fun ⟨m, hm, _⟩ => other m hm

theorem drops_adoptHigherTerm (T : Nat) : Drops (adoptHigherTerm s T) ↔ s.reading.isSome = true :=
  drops_lowered rfl rfl rfl

theorem drops_recvVoteReply (m : VoteReply) :
    Drops (recvVoteReply config s m) ↔ Deposes s (.recvVoteReply m) ∧ Owes s (.recvVoteReply m) := by
  rw [owes_other (.recvVoteReply m) fun _ => nofun]
  unfold recvVoteReply
  dsimp only [Deposes]
  by_cases hk : knownPeer s m.voter = true
  · rw [if_neg (by simp [hk]), and_iff_right hk]
    by_cases ht : s.durable.term < m.term
    · rw [if_pos ht, and_iff_right ht]
      exact drops_adoptHigherTerm m.term
    · rw [if_neg ht]
      exact iff_of_false (not_drops_ite (not_drops_ite (not_drops rfl) (not_drops rfl)) (not_drops rfl)) fun h => ht h.1
  · rw [if_pos (by simp [hk])]
    exact iff_of_false (not_drops rfl) fun h => hk h.1.1

theorem drops_recvSnapshotReply (m : SnapshotReply) :
    Drops (recvSnapshotReply s m) ↔ Deposes s (.recvSnapshotReply m) ∧ Owes s (.recvSnapshotReply m) := by
  rw [owes_other (.recvSnapshotReply m) fun _ => nofun]
  unfold recvSnapshotReply
  dsimp only [Deposes]
  by_cases hk : knownPeer s m.follower = true
  · rw [if_neg (by simp [hk]), and_iff_right hk]
    by_cases ht : s.durable.term < m.term
    · rw [if_pos ht, and_iff_right ht]
      exact drops_adoptHigherTerm m.term
    · rw [if_neg ht]
      exact iff_of_false (not_drops_ite (not_drops rfl) (not_drops rfl)) fun h => ht h.1
  · rw [if_pos (by simp [hk])]
    exact iff_of_false (not_drops rfl) fun h => hk h.1.1

theorem not_drops_completeRead {t : Node} {e : Effects} (h : e.persist = none) : ¬Drops (completeRead config t e) :=
  not_drops (by simpa using h)

theorem drops_recvAppendReply (m : AppendReply) :
    Drops (recvAppendReply config s m) ↔ Deposes s (.recvAppendReply m) ∧ Owes s (.recvAppendReply m) := by
  rw [owes_other (.recvAppendReply m) fun _ => nofun]
  unfold recvAppendReply
  dsimp only [Deposes]
  by_cases hk : knownPeer s m.follower = true
  · rw [if_neg (by simp [hk]), and_iff_right hk]
    by_cases ht : s.durable.term < m.term
    · rw [if_pos ht, and_iff_right ht]
      rcases completeRead_eq (adoptHigherTerm s m.term).1 (adoptHigherTerm s m.term).2 config with heq | ⟨b, hb, -⟩
      · rw [heq]
        exact drops_adoptHigherTerm m.term
      · cases hb
    · rw [if_neg ht]
      refine iff_of_false ?_ fun h => ht h.1
      split
      · split
        · exact not_drops rfl
        · split
          · exact not_drops rfl
          · exact not_drops_completeRead rfl
      · exact not_drops_completeRead rfl
  · rw [if_pos (by simp [hk])]
    exact iff_of_false (not_drops rfl) fun h => hk h.1.1

theorem drops_recvRequestVote (m : RequestVote) :
    Drops (recvRequestVote config s m) ↔ Deposes s (.recvRequestVote m) ∧ Owes s (.recvRequestVote m) := by
  rw [owes_other (.recvRequestVote m) fun _ => nofun]
  have hguard : (!knownPeer s m.candidate || m.term == 0 || m.term < m.lastTerm ||
      ((m.lastIndex == 0) != (m.lastTerm == 0))) = true ↔ ¬m.Accepted s := by
    have hzero : ((m.lastIndex == 0) = (m.lastTerm == 0)) ↔ (m.lastIndex = 0 ↔ m.lastTerm = 0) := by
      rw [Bool.eq_iff_iff, beq_iff_eq, beq_iff_eq]
    simp only [RequestVote.Accepted, ← hzero, Bool.or_eq_true, Bool.not_eq_true', beq_iff_eq, decide_eq_true_eq,
      bne_iff_ne, ne_eq, ← Bool.not_eq_true, not_and_or, not_not, not_le, or_assoc]
  unfold recvRequestVote
  dsimp only [Deposes]
  by_cases ha : m.Accepted s
  · rw [if_neg (fun h => hguard.mp h ha), and_iff_right ha]
    by_cases hold : m.term < s.durable.term
    · simp only [if_pos hold]
      exact iff_of_false (not_drops rfl) fun h => absurd h.1 (by omega)
    · simp only [if_neg hold]
      by_cases ht : s.durable.term < m.term
      · simp only [if_pos ht, and_iff_right ht]
        have hne : ∀ t : Durable, t.term = m.term → t ≠ s.durable := by
          rintro t hT rfl
          omega
        have hterm : (adoptTerm s.durable m.term).term = m.term := by
          rw [adoptTerm, if_pos ht]
        rw [if_pos (hne _ (by split <;> exact hterm))]
        exact drops_lowered rfl rfl rfl
      · simp only [if_neg ht]
        exact iff_of_false (not_drops_ite (not_drops_silent rfl rfl) (not_drops rfl)) fun h => ht h.1
  · rw [if_pos (hguard.mpr ha)]
    exact iff_of_false (not_drops rfl) fun h => ha h.1.1

theorem adoptTerm_ne {d : Durable} {T : Nat} (h : d.term < T) (t : Durable) (ht : t.term = (adoptTerm d T).term) : t ≠ d := by
  rintro rfl
  rw [adoptTerm, if_pos h] at ht
  exact absurd ht h.ne

theorem adoptTerm_same {d : Durable} {T : Nat} (h : ¬d.term < T) : adoptTerm d T = d := by
  rw [adoptTerm, if_neg h]

theorem drops_recvSnapshot (m : SnapshotRequest) :
    Drops (recvSnapshot config s m) ↔ Deposes s (.recvSnapshot m) ∧ Owes s (.recvSnapshot m) := by
  rw [owes_other (.recvSnapshot m) fun _ => nofun]
  have hguard : (!knownPeer s m.leader || m.term == 0 || m.index == 0 || m.index == maximum || m.snapshotTerm == 0 ||
      m.term < m.snapshotTerm) = true ↔ ¬(knownPeer s m.leader = true ∧ m.term ≠ 0 ∧ m.index ≠ 0 ∧ m.index ≠ maximum ∧
      m.snapshotTerm ≠ 0 ∧ m.snapshotTerm ≤ m.term) := by
    simp only [Bool.or_eq_true, Bool.not_eq_true', beq_iff_eq, decide_eq_true_eq, ne_eq, ← Bool.not_eq_true,
      not_and_or, not_not, not_le, or_assoc]
  unfold recvSnapshot
  dsimp only [Deposes]
  by_cases ha : m.Accepted s
  · rw [if_neg (fun h => hguard.mp h ha.1), if_neg ha.2, and_iff_right ha]
    by_cases hold : m.term < s.durable.term
    · rw [if_pos hold]
      exact iff_of_false (not_drops rfl) fun h => absurd h.1 (by omega)
    · rw [if_neg hold]
      by_cases ht : s.durable.term < m.term
      · -- The new term is staged, with the snapshot or without.
        rw [and_iff_right (.inl ht)]
        by_cases hready : m.ready = true
        · rw [if_neg (by simp [hready]), if_pos (adoptTerm_ne ht _ (by split <;> rfl))]
          exact drops_lowered rfl rfl rfl
        · rw [if_pos (by simpa using hready), if_pos (adoptTerm_ne ht _ rfl)]
          exact drops_lowered rfl rfl rfl
      · have hterm : s.durable.term = m.term := by omega
        simp only [adoptTerm_same ht]
        by_cases hready : m.ready = true
        · rw [if_neg (by simp [hready])]
          by_cases hi : s.durable.commit < m.index
          · simp only [decide_eq_true hi, if_true]
            rw [if_pos (fun h => absurd (congrArg Durable.commit h) (by simpa using hi.ne')),
              and_iff_right (.inr ⟨hterm, hready, hi⟩)]
            exact drops_lowered rfl rfl rfl
          · rw [if_neg (by simp [hi])]
            exact iff_of_false (not_drops rfl) fun h => h.1.elim ht fun h => hi h.2.2
        · rw [if_pos (by simpa using hready), if_neg (by simp)]
          exact iff_of_false (not_drops rfl) fun h => h.1.elim ht fun h => hready h.2.1
  · refine iff_of_false ?_ fun h => ha h.1.1
    by_cases hg : knownPeer s m.leader = true ∧ m.term ≠ 0 ∧ m.index ≠ 0 ∧ m.index ≠ maximum ∧ m.snapshotTerm ≠ 0 ∧
        m.snapshotTerm ≤ m.term
    · rw [if_neg (fun h => hguard.mp h hg), if_pos (not_not.mp fun h => ha ⟨hg, h⟩)]
      exact not_drops rfl
    · rw [if_pos (hguard.mpr hg)]
      exact not_drops rfl

theorem termAt_adoptTerm (d : Durable) (T i : Nat) : (adoptTerm d T).termAt i = d.termAt i := by
  unfold adoptTerm
  split <;> rfl

theorem snapshotIndex_adoptTerm (d : Durable) (T : Nat) : (adoptTerm d T).snapshotIndex = d.snapshotIndex := by
  unfold adoptTerm
  split <;> rfl

/-- What a matched append leaves, at the node's own term. -/
theorem merged_ne_iff {d : Durable} (hw : WellFormed d) {m : AppendEntries} (hprev : d.termAt m.prevIndex = some m.prevTerm) :
    (if (mergeEntries d (m.prevIndex + 1) m.entries).2 = true then
        { (mergeEntries d (m.prevIndex + 1) m.entries).1 with
          commit := max (mergeEntries d (m.prevIndex + 1) m.entries).1.commit
            (min m.leaderCommit (m.prevIndex + m.entries.length)) }
      else { (mergeEntries d (m.prevIndex + 1) m.entries).1 with log := d.log, commit := d.commit }) ≠ d ↔
    d.Allows (m.prevIndex + 1) m.entries ∧
      (¬d.Has (m.prevIndex + 1) m.entries ∨ d.commit < min m.leaderCommit (m.prevIndex + m.entries.length)) := by
  obtain ⟨hlower, hupper⟩ := termAt_bounds hprev
  obtain ⟨hok, hlog⟩ := mergeEntries_iff m.entries (Nat.lt_succ_of_le hlower) (Nat.succ_le_succ hupper) hw.reach
  have heq := mergeEntries_eq d (m.prevIndex + 1) m.entries
  generalize mergeEntries d (m.prevIndex + 1) m.entries = r at hok hlog heq ⊢
  obtain ⟨t, ok⟩ := r
  simp only at hok hlog heq ⊢
  generalize t.log = L at hlog heq
  subst heq
  by_cases hr : ok = true
  · rw [if_pos hr, and_iff_right (hok.mp hr), ← hlog hr]
    constructor
    · intro hne
      by_contra hsame
      rw [not_or, not_not, not_lt] at hsame
      obtain ⟨rfl, hle⟩ := hsame
      exact hne (by rw [max_eq_left hle])
    · rintro (hne | hlt) hd
      · exact hne (congrArg Durable.log hd)
      · have hcommit : max d.commit _ = d.commit := congrArg Durable.commit hd
        omega
  · rw [if_neg hr]
    exact iff_of_false (fun h => h rfl) fun h => hr (hok.mpr h.1)

theorem drops_recvAppend (hw : WellFormed s.durable) (m : AppendEntries) :
    Drops (recvAppend config s m) ↔ Deposes s (.recvAppend m) ∧ Owes s (.recvAppend m) := by
  have howes : Owes s (.recvAppend m) ↔ s.reading.isSome = true ∨ s.durable.Overfull m := by
    refine or_congr_right ⟨?_, fun h => ⟨m, rfl, h⟩⟩
    rintro ⟨m', heq, h⟩
    exact Input.recvAppend.inj heq ▸ h
  rw [howes]
  have hguard : (m.term == 0 || m.prevIndex == maximum || maximum - 1 - m.prevIndex < m.entries.length ||
      m.term < m.prevTerm || ((m.prevIndex == 0) != (m.prevTerm == 0))) = true ↔ ¬(m.term ≠ 0 ∧ m.prevIndex ≠ maximum ∧
      m.entries.length ≤ maximum - 1 - m.prevIndex ∧ m.prevTerm ≤ m.term ∧ (m.prevIndex = 0 ↔ m.prevTerm = 0)) := by
    have hzero : ((m.prevIndex == 0) = (m.prevTerm == 0)) ↔ (m.prevIndex = 0 ↔ m.prevTerm = 0) := by
      rw [Bool.eq_iff_iff, beq_iff_eq, beq_iff_eq]
    simp only [← hzero, Bool.or_eq_true, beq_iff_eq, decide_eq_true_eq, bne_iff_ne, ne_eq, not_and_or, not_not,
      not_le, or_assoc]
  unfold recvAppend
  dsimp only [Deposes]
  by_cases ha : m.Accepted s
  · rw [and_iff_right ha]
    obtain ⟨hk, h1, h2, h3, h4, h5, hordered⟩ := ha
    rw [if_neg (by simp [hk]), if_neg (fun h => hguard.mp h ⟨h1, h2, h3, h4, h5⟩), if_neg (by simp [hordered])]
    by_cases hold : m.term < s.durable.term
    · rw [if_pos hold]
      exact iff_of_false (not_drops rfl) fun h => absurd h.1 (by omega)
    · rw [if_neg hold]
      have hcond : ((adoptTerm s.durable m.term).termAt m.prevIndex == some m.prevTerm && decide (EntryLog.maximumEntries <
          m.prevIndex + m.entries.length - (adoptTerm s.durable m.term).snapshotIndex)) = true ↔ s.durable.Overfull m := by
        rw [termAt_adoptTerm, snapshotIndex_adoptTerm, Bool.and_eq_true, beq_iff_eq, decide_eq_true_eq]
        rfl
      have hread : (stepDown s {}).2.read.isSome = true ↔ s.reading.isSome = true := by
        rw [ReadTurn.stepDown_read_eq, Node.reading, Option.isSome_map, Option.isSome_map]
      by_cases hfull : s.durable.Overfull m
      · -- The append is refused, and the flag is raised.
        rw [if_pos (hcond.mpr hfull), drops_write rfl]
        refine and_congr ?_ (iff_of_true (.inr rfl) (.inr hfull))
        by_cases ht : s.durable.term < m.term
        · exact iff_of_true (adoptTerm_ne ht _ rfl) (.inl ht)
        · rw [adoptTerm_same ht, or_iff_right ht, and_iff_right (by omega), Durable.News, and_iff_right hfull.1,
            if_pos hfull.2]
          refine ⟨fun hne => ?_, fun hlt heq => ?_⟩
          · by_contra hle
            exact hne (by rw [max_eq_left (not_lt.mp hle)])
          · have hcommit : max s.durable.commit _ = s.durable.commit := congrArg Durable.commit heq
            omega
      · rw [if_neg (fun h => hfull (hcond.mp h)), drops_write rfl]
        refine and_congr ?_ (or_congr hread (iff_of_false Bool.false_ne_true hfull))
        by_cases ht : s.durable.term < m.term
        · refine iff_of_true (adoptTerm_ne ht _ ?_) (.inl ht)
          split
          · rw [mergeEntries_eq]
            split <;> rfl
          · rfl
        · rw [adoptTerm_same ht, or_iff_right ht, and_iff_right (by omega), Durable.News]
          by_cases hprev : s.durable.termAt m.prevIndex = some m.prevTerm
          · rw [and_iff_right hprev, if_neg (fun h => hfull ⟨hprev, h⟩)]
            simp only [hprev, beq_self_eq_true, if_true]
            exact merged_ne_iff hw hprev
          · simp only [beq_eq_false_iff_ne.mpr hprev, Bool.false_eq_true, if_false]
            exact iff_of_false (fun h => h rfl) fun h => hprev h.1
  · refine iff_of_false ?_ fun h => ha h.1.1
    by_cases hk : knownPeer s m.leader = true
    · rw [if_neg (by simp [hk])]
      by_cases hg : m.term ≠ 0 ∧ m.prevIndex ≠ maximum ∧ m.entries.length ≤ maximum - 1 - m.prevIndex ∧
          m.prevTerm ≤ m.term ∧ (m.prevIndex = 0 ↔ m.prevTerm = 0)
      · obtain ⟨h1, h2, h3, h4, h5⟩ := hg
        have hord : ¬entriesOrdered m.term m.prevTerm m.entries = true := fun h => ha ⟨hk, h1, h2, h3, h4, h5, h⟩
        rw [if_neg (fun h => hguard.mp h ⟨h1, h2, h3, h4, h5⟩), if_pos (by simpa using hord)]
        exact not_drops rfl
      · rw [if_pos (hguard.mpr hg)]
        exact not_drops rfl
    · rw [if_pos (by simp [hk])]
      exact not_drops rfl

theorem beginRead_persist (c : RequestId) : (beginRead config s c).2.persist = none := by
  unfold beginRead
  split
  · rfl
  · split
    · rfl
    · split
      · rfl
      · split
        · rfl
        · simp

theorem cancelRead_persist (c : RequestId) : (cancelRead s c).2.persist = none := by
  unfold cancelRead
  split
  · split <;> rfl
  · rfl

theorem drops_handle (h : s.Served) (hw : WellFormed s.durable) (input : Input) :
    Drops (handle config s input) ↔ Deposes s input ∧ Owes s input := by
  have hno : ∀ {r : Node × Effects} {i : Input}, ¬Drops r → (Deposes s i ↔ False) → (Drops r ↔ Deposes s i ∧ Owes s i) :=
    fun hr hi => iff_of_false hr fun hd => hi.mp hd.1
  cases input with
  | recvRequestVote m => exact drops_recvRequestVote m
  | recvVoteReply m => exact drops_recvVoteReply m
  | recvAppend m => exact drops_recvAppend hw m
  | recvAppendReply m => exact drops_recvAppendReply m
  | recvSnapshot m => exact drops_recvSnapshot m
  | recvSnapshotReply m => exact drops_recvSnapshotReply m
  | electionTimeout =>
    refine hno ?_ Iff.rfl
    dsimp only [handle]
    unfold electionTimeout
    split
    · -- Only a leader has a read.
      rename_i hrole
      have hread : s.volatile.read = none := by
        cases hb : s.volatile.read with
        | none => rfl
        | some b => exact absurd (h _ _ (Node.reading_some hb)).leads.1 hrole.1
      exact not_drops_silent (by simp [beginWrite, stepDown, hread]) rfl
    · exact not_drops rfl
  | heartbeatTimeout => exact hno (not_drops_ite (not_drops rfl) (not_drops rfl)) Iff.rfl
  | clientPropose command =>
    exact hno (not_drops_ite (not_drops rfl) (not_drops_ite (not_drops_silent rfl rfl) (not_drops rfl))) Iff.rfl
  | advanceCommit =>
    exact hno (not_drops_ite (not_drops_ite (not_drops_silent rfl rfl) (not_drops rfl)) (not_drops rfl)) Iff.rfl
  | applyCommitted => exact hno (not_drops_ite (not_drops_silent rfl rfl) (not_drops rfl)) Iff.rfl
  | compactCommitted =>
    refine hno (not_drops_ite (not_drops rfl) ?_) Iff.rfl
    dsimp only
    split
    · exact not_drops rfl
    · exact not_drops_silent rfl rfl
  | beginRead c | cancelRead c | persistCompleted c | persistFailed c | restart =>
    exact hno (not_drops rfl) Iff.rfl

/-- The steps of an idle node that stage a write and report something else. -/
theorem drops_step (h : Reading config s) (idle : s.pending = none) (input : Input) :
    Drops (step config s input) ↔ s.halted = false ∧ Deposes s input ∧ Owes s input := by
  have hvalid : ¬((!s.durable.valid || s.pending.any fun p => !p.target.valid) = true) := by
    simp [h.ruled.valid.1, idle]
  have hnone : ∀ {i : Input} {r : Node × Effects}, r.2.persist = none → (Deposes s i ↔ False) →
      (Drops r ↔ s.halted = false ∧ Deposes s i ∧ Owes s i) := fun hr hi =>
    iff_of_false (not_drops hr) fun hd => hi.mp hd.2.1
  have hhandle : ∀ i : Input, Drops (if s.halted = true ∨ s.pending.isSome = true then (s, {}) else handle config s i) ↔
      s.halted = false ∧ Deposes s i ∧ Owes s i := by
    intro i
    cases hh : s.halted with
    | true =>
      rw [if_pos (.inl rfl)]
      exact iff_of_false (not_drops rfl) fun hd => nomatch hd.1
    | false =>
      rw [if_neg (by simp [idle]), and_iff_right rfl]
      exact drops_handle h.served h.ruled.sound.durable i
  unfold step
  rw [if_neg hvalid]
  cases input with
  | persistCompleted token => exact hnone (by simp [persistCompleted, idle]) Iff.rfl
  | persistFailed token => exact hnone (by simp [persistFailed, idle]) Iff.rfl
  | restart => exact hnone rfl Iff.rfl
  | cancelRead c => exact hnone (cancelRead_persist c) Iff.rfl
  | beginRead c => exact hnone (beginRead_persist c) Iff.rfl
  | electionTimeout | heartbeatTimeout | clientPropose _ | recvRequestVote _ | recvVoteReply _ | recvAppend _
  | recvAppendReply _ | advanceCommit | applyCommitted | compactCommitted | recvSnapshot _ | recvSnapshotReply _ =>
    exact hhandle _

end Handlers

/-! ### The second step of a dispatch -/

section Settling
variable {config : Config} {s : Node}

theorem completeRead_capacity (config : Config) (s : Node) (e : Effects) :
    (completeRead config s e).2.capacityExhausted = e.capacityExhausted := by
  rcases completeRead_eq s e config with h | ⟨b, -, -, -, -, -, h⟩ <;> rw [h]

theorem persistCompleted_capacity (config : Config) (s : Node) (token : PersistToken) :
    (persistCompleted config s token).2.capacityExhausted = false := by
  unfold persistCompleted
  split
  · rfl
  · rename_i p hp
    split
    · have hread := completeRead_capacity config { s with pending := none, durable := p.target }
        { sendNow := p.after, apply := p.applyAfter, snapshotNeeded := p.snapshotAfter }
      dsimp only
      split
      · split
        · exact hread
        · exact hread
      · exact hread
    · rfl

theorem persistFailed_capacity (s : Node) (token : PersistToken) : (persistFailed s token).2.capacityExhausted = false := by
  unfold persistFailed
  split
  · rfl
  · split <;> rfl

/-- What the core may be told about its staged write. -/
inductive Ends (token : PersistToken) : Input → Prop
  | completed : Ends token (.persistCompleted token)
  | failed : Ends token (.persistFailed token)

namespace Ends
variable {token : PersistToken} {y : Input}

theorem fits (h : Ends token y) : y.Fits := by
  cases h <;> trivial

theorem other (h : Ends token y) (c : RequestId) : y ≠ .beginRead c := by
  cases h <;> nofun

theorem capacity (h : Ends token y) : (step config s y).2.capacityExhausted = false := by
  unfold step
  split
  · rfl
  · cases h with
    | completed => exact persistCompleted_capacity config s token
    | failed => exact persistFailed_capacity s token

/-- The write is over then. -/
theorem idle (h : Ends token y) {p : PendingWrite} (live : s.halted = false) (pending : s.pending = some p)
    (htoken : p.token = token) : (step config s y).1.pending = none := by
  have hs := step_stepped config s y
  generalize Raft.step config s y = r at hs ⊢
  cases hs with
  | answered ha role halted hother =>
    subst htoken
    cases h with
    | completed => exact absurd rfl (hother live p pending).1
    | failed => exact absurd rfl (hother live p pending).2
  | staged live idle q hst => exact nomatch idle.symm.trans pending
  | completed q live hp htoken hc => exact hc.pending
  | failed q live hp htoken heq =>
    subst heq
    rfl
  | restarted htoken heq =>
    subst heq
    rfl
  | invalid bad heq =>
    subst heq
    rfl

end Ends

end Settling

/-! ### Dispatches -/

/-- One call of `dispatch`, with what the file system does during it. -/
structure Dispatch where
  input : Input
  medium : Medium := {}

namespace DurableNode

def next (d : DurableNode) (x : Dispatch) : DurableNode := (d.dispatch x.input x.medium).1

/-- The effects that the caller gets. -/
def returned (d : DurableNode) (x : Dispatch) : Effects := (d.dispatch x.input x.medium).2.effects

/-- The effects of the core steps that a dispatch makes. The outcome of a write is told to the core in a second
    step, whose effects are the ones returned. -/
def coreEffects (d : DurableNode) (x : Dispatch) : List Effects :=
  match x.input with
  | .restart | .persistCompleted _ | .persistFailed _ | .applyCommitted => []
  | input =>
    let first := (step d.config d.node input).2
    match first.persist with
    | none => [first]
    | some _ => [first, d.returned x]

/-- All that the core reports reaches the caller, and an outstanding read stays or is answered. -/
structure Faithful (d : DurableNode) (x : Dispatch) : Prop where
  read : ∀ e ∈ d.coreEffects x, ∀ r, e.read = some r → (d.returned x).read = some r
  capacity : ∀ e ∈ d.coreEffects x, e.capacityExhausted = true → (d.returned x).capacityExhausted = true
  kept : ∀ c, d.node.outstanding = some c →
    (d.next x).node.outstanding = some c ∨ ∃ r, (d.returned x).read = some r ∧ r.context = c

/-- The dispatches that lose a report: a restart of a node with an outstanding read, and a message that takes
    effect with a write while the core has a read outstanding or is out of room. -/
def Loses (d : DurableNode) (x : Dispatch) : Prop :=
  match x.input with
  | .restart => d.node.outstanding ≠ none ∧
      ∃ durable, (d.checkpoint.recover x.medium).2 = .ok durable ∧ acceptableDurableVote d.config durable = true
  | input => d.node.durable.valid = true ∧ d.node.halted = false ∧ Deposes d.node input ∧ Owes d.node input

/-- The read that a dispatch puts to the core. A core whose durable state is invalid only stops. -/
def taken (d : DurableNode) (x : Dispatch) : Option RequestId := if d.node.durable.valid then x.input.begins else none

/-- A driver between two dispatches. -/
structure Driven (d : DurableNode) : Prop where
  idle : d.node.pending = none
  node : Reading d.config d.node ∨ d.node.durable.valid = false ∧ d.node.reading = none

/-- The outcomes of the core part of a dispatch. -/
inductive DriveCase (d : DurableNode) (input : Input) (r : DurableNode × DriveResult) : Prop
  | answered (persist : (step d.config d.node input).2.persist = none)
      (idle : (step d.config d.node input).1.pending = none)
      (node : r.1.node = (step d.config d.node input).1) (effects : r.2.effects = (step d.config d.node input).2)
  | settled (p : PendingWrite) (y : Input) (ends : Ends p.token y)
      (persist : (step d.config d.node input).2.persist.isSome = true)
      (pending : (step d.config d.node input).1.pending = some p)
      (live : (step d.config d.node input).1.halted = false)
      (node : r.1.node = (step d.config (step d.config d.node input).1 y).1)
      (effects : r.2.effects = (step d.config (step d.config d.node input).1 y).2)

variable {d : DurableNode} {x : Dispatch}

theorem drive_config (d : DurableNode) (input : Input) (medium : Medium) : (d.drive input medium).1.config = d.config := by
  unfold drive
  dsimp only
  split
  · rfl
  · split
    · rfl
    · split <;> rfl

theorem drive_eq {input : Input} {medium : Medium} (h : (step d.config d.node input).2.persist = none) :
    d.drive input medium =
      ({ d with node := (step d.config d.node input).1 }, { effects := (step d.config d.node input).2 }) := by
  unfold drive
  dsimp only
  rw [h]

theorem drive_cases (idle : d.node.pending = none) (input : Input) (medium : Medium) :
    DriveCase d input (d.drive input medium) := by
  have hanswered : (step d.config d.node input).2.persist = none → (step d.config d.node input).1.pending = none →
      DriveCase d input (d.drive input medium) := by
    intro hpersist hpending
    rw [drive_eq hpersist]
    exact .answered hpersist hpending rfl rfl
  cases step_stepped d.config d.node input with
  | answered ha => exact hanswered ha.persist (ha.pending.trans idle)
  | staged live hidle p hst =>
    obtain ⟨kind, hpersist⟩ := hst.persist
    have hsend : (step d.config d.node input).2.sendNow = [] := hst.silent.sendNow
    have happly : (step d.config d.node input).2.apply = [] := hst.silent.apply
    have hlive : (step d.config d.node input).1.halted = false := hst.kept.halted.trans live
    unfold drive
    simp only [hpersist, hsend, happly, List.isEmpty_nil, Bool.not_true, Bool.or_self, Bool.false_eq_true, if_false]
    split
    · exact .settled p _ .failed (by rw [hpersist]; rfl) hst.pending hlive rfl rfl
    · exact .settled p _ .completed (by rw [hpersist]; rfl) hst.pending hlive rfl rfl
  | completed p live pending token hc => exact nomatch idle.symm.trans pending
  | failed p live pending token heq => exact nomatch idle.symm.trans pending
  | restarted token heq => exact hanswered (by rw [heq]; rfl) (by rw [heq]; rfl)
  | invalid bad heq => exact hanswered (by rw [heq]; rfl) (by rw [heq]; rfl)

/-- A node that starts from a checkpoint of its cluster. -/
theorem reading_initial {config : Config} {durable : Durable} (valid : durable.valid = true)
    (fits : durable.snapshotIndex ≤ maximum) (vote : acceptableDurableVote config durable = true) :
    Reading config { initial config with durable } := by
  refine ⟨⟨⟨(valid_iff fits).mp valid, nofun, nofun, nofun⟩, fun _ hk => mem_initial_keys hk, fun v hv => ?_, nofun, nofun⟩,
    .unread rfl⟩
  have hvote : durable.votedFor = some v := hv
  simpa [acceptableDurableVote, hvote] using vote

theorem validState_snapshotIndex {value : Durable} (h : validState value = .ok ()) : value.snapshotIndex = 0 := by
  unfold validState at h
  split at h
  · cases h
  · rename_i hs
    rw [not_or, not_not] at hs
    exact hs.1

theorem readCheckpoint_snapshotIndex {file : Option Durable} {medium : Medium} {value : Durable}
    (h : CheckpointStore.readCheckpoint file medium = .ok value) : value.snapshotIndex = 0 := by
  unfold CheckpointStore.readCheckpoint at h
  split at h
  · cases h
  · cases h
    rfl
  · split at h
    · cases h
    · rename_i hok
      cases h
      exact validState_snapshotIndex hok

theorem open_eq {config : Config} {file : Option Durable} {medium : Medium}
    (h : DurableNode.open config file medium = .ok d) :
    ∃ checkpoint durable, d = { config, checkpoint, node := { initial config with durable } } := by
  unfold DurableNode.open at h
  split at h
  · cases h
  · split at h
    · cases h
    · split at h
      · cases h
      · cases h
        exact ⟨_, _, rfl⟩

/-- The outcomes of a restart. -/
inductive RestartCase (d : DurableNode) (medium : Medium) (r : DurableNode × DriveResult) : Prop
  | recovered (durable : Durable) (checkpoint : CheckpointStore) (read : (d.checkpoint.recover medium).2 = .ok durable)
      (base : durable.snapshotIndex = 0) (vote : acceptableDurableVote d.config durable = true)
      (eq : r = ({ d with checkpoint, node := { initial d.config with durable } }, {}))
  | halted (checkpoint : CheckpointStore) (error : String) (unread : ∀ durable,
        (d.checkpoint.recover medium).2 = .ok durable → acceptableDurableVote d.config durable = false)
      (eq : r = ({ d with checkpoint, node := { d.node with pending := none, halted := true } },
        { effects := { halt := true }, error := some error }))

theorem restart_cases (d : DurableNode) (medium : Medium) : RestartCase d medium (d.restart medium) := by
  unfold restart
  dsimp only
  split
  · rename_i checkpoint durable hrecover
    have hread : (d.checkpoint.recover medium).2 = .ok durable := by rw [hrecover]
    cases hvote : acceptableDurableVote d.config durable with
    | false =>
      refine .halted checkpoint _ (fun t ht => ?_) rfl
      obtain rfl := Except.ok.inj (hread.symm.trans ht)
      exact hvote
    | true =>
      refine .recovered durable checkpoint hread ?_ hvote rfl
      unfold CheckpointStore.recover at hread
      split at hread
      · cases hread
      · rename_i value hvalue
        cases hread
        exact readCheckpoint_snapshotIndex hvalue
  · rename_i checkpoint why hrecover
    refine .halted checkpoint why (fun t ht => ?_) rfl
    rw [hrecover] at ht
    cases ht

namespace Driven

theorem initial {config : Config} {checkpoint : CheckpointStore} {durable : Durable} (base : durable.snapshotIndex = 0)
    (vote : acceptableDurableVote config durable = true) :
    Driven { config, checkpoint, node := { initial config with durable } } := by
  refine ⟨rfl, ?_⟩
  by_cases hv : durable.valid = true
  · exact .inl (reading_initial hv (by omega) vote)
  · exact .inr ⟨by simpa using hv, rfl⟩

theorem «open» {config : Config} {file : Option Durable} {medium : Medium}
    (h : DurableNode.open config file medium = .ok d) : Driven d := by
  unfold DurableNode.open CheckpointStore.open at h
  split at h
  · cases h
  · split at h
    · cases h
    · rename_i checkpoint hopen
      split at hopen
      · cases hopen
      · rename_i value hread
        cases hopen
        split at h
        · cases h
        · rename_i hvote
          cases h
          exact initial (readCheckpoint_snapshotIndex hread) (by simpa using hvote)

/-- The first step of a dispatch that goes to the core. -/
theorem drive (h : Driven d) {input : Input} (fits : input.Fits) (medium : Medium) :
    Driven (d.drive input medium).1 := by
  have hconfig := drive_config d input medium
  have hcases := drive_cases h.idle input medium
  generalize d.drive input medium = r at hconfig hcases ⊢
  rcases h.node with hnode | ⟨hinvalid, hread⟩
  · have hfirst := hnode.step fits
    cases hcases with
    | answered persist idle node effects => exact ⟨node ▸ idle, .inl (by rw [hconfig, node]; exact hfirst)⟩
    | settled p y ends persist pending live node effects =>
      exact ⟨node ▸ ends.idle live pending rfl, .inl (by rw [hconfig, node]; exact hfirst.step ends.fits)⟩
  · have hstop : step d.config d.node input = failStop d.node := by
      unfold step
      rw [if_pos (by simp [hinvalid])]
    cases hcases with
    | answered persist idle node effects =>
      refine ⟨node ▸ idle, .inr ?_⟩
      rw [node, hstop]
      exact ⟨hinvalid, rfl⟩
    | settled p y ends persist pending live node effects =>
      rw [hstop] at persist
      cases persist

theorem restart (h : Driven d) (medium : Medium) : Driven (d.restart medium).1 := by
  cases restart_cases d medium with
  | recovered durable checkpoint read base vote eq =>
    rw [eq]
    exact initial base vote
  | halted checkpoint error unread eq =>
    rw [eq]
    refine ⟨rfl, h.node.imp (fun hn => ?_) id⟩
    refine ⟨⟨hn.ruled.sound.same rfl h.idle.symm id, hn.ruled.peers, hn.ruled.voted, nofun, fun _ => nofun⟩, ?_⟩
    exact hn.served.congr rfl rfl rfl fun p => nofun

theorem next (h : Driven d) (fits : x.input.Fits) : Driven (d.next x) := by
  unfold DurableNode.next dispatch
  split
  · exact h.restart x.medium
  · exact h
  · exact h
  · exact h
  · exact h.drive fits x.medium

end Driven

/-! ### What reaches the caller -/

/-- After a step that reported a read and staged a write, the second step has no read to report. -/
theorem settled_read {config : Config} {s : Node} (h : Reading config s) {input : Input} (fits : input.Fits)
    (persist : (step config s input).2.persist.isSome = true) {r : ReadResult} (read : (step config s input).2.read = some r)
    {token : PersistToken} {y : Input} (ends : Ends token y) :
    (step config (step config s input).1 y).2.read = none := by
  have hbegin : ∀ c, input = .beginRead c → (step config s input).2.persist = none := by
    rintro c rfl
    unfold step
    split
    · rfl
    · exact beginRead_persist c
  have hidle : (step config s input).1.reading = none := by
    cases (h.turn input).move with
    | kept other same quiet => exact nomatch quiet.symm.trans read
    | refused c x begins same answer context status =>
      rw [hbegin c begins] at persist
      cases persist
    | admitted c begins free leads reading quiet => exact nomatch quiet.symm.trans read
    | served c x begins free done answer context leads still => exact done
    | ended c T x other reading done answer context ready => exact done
  cases ((h.step fits).turn y).move with
  | kept other same quiet => exact quiet
  | refused c x begins same answer context status => exact absurd begins (ends.other c)
  | admitted c begins free leads reading quiet => exact quiet
  | served c x begins free done answer context leads still => exact absurd begins (ends.other c)
  | ended c T x other reading done answer context ready => exact nomatch hidle.symm.trans reading

/-- What the core part of a dispatch reports, and to whom. -/
theorem drive_balanced (h : Driven d) {input : Input} (fits : input.Fits) (medium : Medium)
    (keeps : ¬Drops (step d.config d.node input)) :
    ((d.drive input medium).2.effects.read.toList.map (·.context) ++ (d.drive input medium).1.node.outstanding.toList).Perm
      (d.node.outstanding.toList ++ (if d.node.durable.valid then input.begins else none).toList) := by
  have hcases := drive_cases h.idle input medium
  generalize d.drive input medium = r at hcases ⊢
  rcases h.node with hnode | ⟨hinvalid, hread⟩
  · rw [hnode.ruled.valid.1, if_pos rfl]
    have hfirst := (hnode.turn input).move.balanced
    cases hcases with
    | answered persist idle node effects =>
      rw [node, effects]
      exact hfirst
    | settled p y ends persist pending live node effects =>
      have hquiet : (step d.config d.node input).2.read = none := by
        by_contra hne
        exact keeps ⟨persist, .inl (Option.isSome_iff_ne_none.mpr hne)⟩
      have hsecond := ((hnode.step fits).turn y).move.balanced
      rw [node, effects]
      rw [hquiet] at hfirst
      rw [Input.begins_eq_none ends.other, Option.toList_none, List.append_nil] at hsecond
      exact hsecond.trans hfirst
  · have hstop : step d.config d.node input = failStop d.node := by
      unfold step
      rw [if_pos (by simp [hinvalid])]
    cases hcases with
    | answered persist idle node effects =>
      rw [node, effects, hstop, hinvalid]
      have hnone : d.node.volatile.read = none := Node.reading_none.mp hread
      simp [failStop, stepDown, Node.outstanding, Node.reading, hnone]
    | settled p y ends persist pending live node effects =>
      rw [hstop] at persist
      cases persist

/-- Where a dispatch goes. -/
inductive Route (d : DurableNode) (x : Dispatch) : Prop
  | restart (input : x.input = .restart)
  | refused (same : d.next x = d) (effects : d.returned x = {}) (core : d.coreEffects x = [])
      (loses : ¬d.Loses x) (begins : x.input.begins = none)
  | core (dispatch : d.dispatch x.input x.medium = d.drive x.input x.medium)
      (answered : (step d.config d.node x.input).2.persist = none → d.coreEffects x = [(step d.config d.node x.input).2])
      (settled : (step d.config d.node x.input).2.persist.isSome = true →
        d.coreEffects x = [(step d.config d.node x.input).2, d.returned x])
      (loses : d.Loses x ↔
        d.node.durable.valid = true ∧ d.node.halted = false ∧ Deposes d.node x.input ∧ Owes d.node x.input)

theorem route (d : DurableNode) (x : Dispatch) : Route d x := by
  obtain ⟨input, medium⟩ := x
  cases input with
  | restart => exact .restart rfl
  | persistCompleted token | persistFailed token | applyCommitted =>
    exact .refused rfl rfl rfl (fun h => h.2.2.1) rfl
  | electionTimeout | heartbeatTimeout | clientPropose _ | recvRequestVote _ | recvVoteReply _ | recvAppend _
  | recvAppendReply _ | advanceCommit | compactCommitted | recvSnapshot _ | recvSnapshotReply _ | beginRead _
  | cancelRead _ =>
    refine .core rfl (fun h => ?_) (fun h => ?_) Iff.rfl
    · simp only [coreEffects, h]
    · obtain ⟨request, hrequest⟩ := Option.isSome_iff_exists.mp h
      simp only [coreEffects, hrequest]

/-- A dispatch to the core loses a report when its first step does. -/
theorem loses_iff_drops (h : Driven d) (loses : d.Loses x ↔
    d.node.durable.valid = true ∧ d.node.halted = false ∧ Deposes d.node x.input ∧ Owes d.node x.input) :
    d.Loses x ↔ Drops (step d.config d.node x.input) := by
  rw [loses]
  rcases h.node with hnode | ⟨hinvalid, -⟩
  · rw [drops_step hnode h.idle, and_iff_right hnode.ruled.valid.1]
  · rw [hinvalid]
    refine iff_of_false (fun h => nomatch h.1) (not_drops ?_)
    unfold step
    rw [if_pos (by simp [hinvalid])]
    rfl

theorem balanced (h : Driven d) (fits : x.input.Fits) (keeps : ¬d.Loses x) :
    ((d.returned x).read.toList.map (·.context) ++ (d.next x).node.outstanding.toList).Perm
      (d.node.outstanding.toList ++ (d.taken x).toList) := by
  cases route d x with
  | restart input =>
    have hrestart : d.dispatch x.input x.medium = d.restart x.medium := by rw [input]; rfl
    have htaken : d.taken x = none := by
      unfold taken
      rw [input]
      exact ite_self _
    have hloses : d.Loses x ↔ d.node.outstanding ≠ none ∧ ∃ durable, (d.checkpoint.recover x.medium).2 = .ok durable ∧
        acceptableDurableVote d.config durable = true := by
      unfold Loses
      rw [input]
    unfold returned DurableNode.next
    rw [hrestart, htaken]
    cases restart_cases d x.medium with
    | recovered durable checkpoint read base vote eq =>
      have hnone : d.node.outstanding = none := by
        by_contra hne
        exact keeps (hloses.mpr ⟨hne, durable, read, vote⟩)
      rw [eq, hnone]
      exact .refl _
    | halted checkpoint error unread eq =>
      rw [eq]
      exact (List.append_nil _).symm ▸ .refl _
  | refused same effects core loses begins =>
    rw [same, effects, taken, begins, ite_self]
    simp
  | core dispatch answered settled loses =>
    unfold returned DurableNode.next
    rw [dispatch]
    exact drive_balanced h fits x.medium fun hd => keeps ((loses_iff_drops h loses).mpr hd)

/-- A dispatch reports all there is, unless it is one that loses a report. -/
theorem faithful_iff (h : Driven d) (fits : x.input.Fits) : d.Faithful x ↔ ¬d.Loses x := by
  have hkept : ¬d.Loses x → ∀ c, d.node.outstanding = some c →
      (d.next x).node.outstanding = some c ∨ ∃ r, (d.returned x).read = some r ∧ r.context = c := by
    intro keeps c hc
    have hmem := (balanced h fits keeps).symm.subset (List.mem_append_left _ (Option.mem_toList.mpr hc))
    rcases List.mem_append.mp hmem with hmem | hmem
    · obtain ⟨r, hr, hctx⟩ := List.mem_map.mp hmem
      exact .inr ⟨r, Option.mem_toList.mp hr, hctx⟩
    · exact .inl (Option.mem_toList.mp hmem)
  cases route d x with
  | restart input =>
    have hcore : d.coreEffects x = [] := by
      unfold coreEffects
      rw [input]
    refine ⟨fun hf hl => ?_, fun keeps => ⟨by simp [hcore], by simp [hcore], hkept keeps⟩⟩
    unfold Loses at hl
    rw [input] at hl
    obtain ⟨hne, durable, hread, hvote⟩ := hl
    obtain ⟨c, hc⟩ := Option.ne_none_iff_exists'.mp hne
    have hlost := hf.kept c hc
    have hrestart : d.dispatch x.input x.medium = d.restart x.medium := by rw [input]; rfl
    unfold returned DurableNode.next at hlost
    rw [hrestart] at hlost
    cases restart_cases d x.medium with
    | recovered durable' checkpoint read base vote eq =>
      rw [eq] at hlost
      rcases hlost with hlost | ⟨r, hr, -⟩
      · cases hlost
      · cases hr
    | halted checkpoint error unread eq => exact nomatch (unread durable hread).symm.trans hvote
  | refused same effects core loses begins =>
    exact iff_of_true ⟨by simp [core], by simp [core], hkept loses⟩ loses
  | core dispatch answered settled loses =>
    have hdrops := loses_iff_drops h loses
    have hcases := drive_cases h.idle x.input x.medium
    rw [← dispatch] at hcases
    rw [hdrops]
    cases hcases with
    | answered persist idle node effects =>
      have heffects : d.returned x = (step d.config d.node x.input).2 := effects
      refine iff_of_true ⟨?_, ?_, hkept fun hl => ?_⟩ (not_drops persist)
      · simp [answered persist, heffects]
      · simp [answered persist, heffects]
      · exact not_drops persist (hdrops.mp hl)
    | settled p y ends persist pending live node effects =>
      have heffects : d.returned x = (step d.config (step d.config d.node x.input).1 y).2 := effects
      have hcore := settled persist
      constructor
      · -- The report of the first step is not among the effects of the second.
        rintro hf ⟨-, hread | hflag⟩
        · obtain ⟨r, hr⟩ := Option.isSome_iff_exists.mp hread
          have hback := hf.read _ (by rw [hcore]; exact List.mem_cons_self) r hr
          rcases h.node with hnode | ⟨hinvalid, -⟩
          · rw [heffects, settled_read hnode fits persist hr ends] at hback
            cases hback
          · have hstop : step d.config d.node x.input = failStop d.node := by
              unfold step
              rw [if_pos (by simp [hinvalid])]
            rw [hstop] at persist
            cases persist
        · have hback := hf.capacity _ (by rw [hcore]; exact List.mem_cons_self) hflag
          rw [heffects, ends.capacity] at hback
          cases hback
      · intro keeps
        refine ⟨fun e he r hr => ?_, fun e he hflag => ?_, hkept fun hl => keeps (hdrops.mp hl)⟩
        · rw [hcore] at he
          rcases List.mem_pair.mp he with rfl | rfl
          · exact absurd ⟨persist, .inl (by rw [hr]; rfl)⟩ keeps
          · exact hr
        · rw [hcore] at he
          rcases List.mem_pair.mp he with rfl | rfl
          · exact absurd ⟨persist, .inr hflag⟩ keeps
          · exact hflag

/-! ### Runs of the driver -/

def after (d : DurableNode) (xs : List Dispatch) : DurableNode := xs.foldl next d

/-- The read results that the callers got, in order. -/
def results : DurableNode → List Dispatch → List ReadResult
  | _, [] => []
  | d, x :: xs => (d.returned x).read.toList ++ results (d.next x) xs

/-- The reads that were put to the core, in order. -/
def takenBy : DurableNode → List Dispatch → List RequestId
  | _, [] => []
  | d, x :: xs => (d.taken x).toList ++ takenBy (d.next x) xs

/-- The core takes on read `c`: it is outstanding after the dispatch, or was ready at once. -/
def Admits (d : DurableNode) (x : Dispatch) (c : RequestId) : Prop :=
  x.input = .beginRead c ∧
    ((d.next x).node.outstanding = some c ∨ ∃ r, (d.returned x).read = some r ∧ r.context = c ∧ r.status = .ready)

/-- No dispatch of the run loses a report. -/
def Lossless (d : DurableNode) (xs : List Dispatch) : Prop :=
  ∀ before x after, xs = before ++ x :: after → ¬(d.after before).Loses x

theorem Lossless.head {xs : List Dispatch} (h : d.Lossless (x :: xs)) : ¬d.Loses x := h [] x xs rfl

theorem Lossless.tail {xs : List Dispatch} (h : d.Lossless (x :: xs)) : (d.next x).Lossless xs :=
  fun before y after heq => h (x :: before) y after (by rw [heq, List.cons_append])

namespace Driven

theorem after (h : Driven d) (xs : List Dispatch) (fits : ∀ x ∈ xs, x.input.Fits) : Driven (d.after xs) := by
  induction xs generalizing d with
  | nil => exact h
  | cons x xs ih => exact ih (h.next (fits x List.mem_cons_self)) fun y hy => fits y (List.mem_cons_of_mem _ hy)

theorem balanced_run (h : Driven d) (xs : List Dispatch) (fits : ∀ x ∈ xs, x.input.Fits) (lossless : d.Lossless xs) :
    ((d.results xs).map (·.context) ++ (d.after xs).node.outstanding.toList).Perm
      (d.node.outstanding.toList ++ d.takenBy xs) := by
  induction xs generalizing d with
  | nil => simp [results, takenBy, DurableNode.after]
  | cons x xs ih =>
    have hfits := fits x List.mem_cons_self
    have hstep := balanced h hfits lossless.head
    have hrest := ih (h.next hfits) (fun y hy => fits y (List.mem_cons_of_mem _ hy)) lossless.tail
    rw [results, takenBy, List.map_append, List.append_assoc, ← List.append_assoc d.node.outstanding.toList]
    refine (hrest.append_left _).trans ?_
    rw [← List.append_assoc]
    exact hstep.append_right _

end Driven

theorem taken_sublist (d : DurableNode) (x : Dispatch) : (d.taken x).toList.Sublist x.input.begins.toList := by
  unfold taken
  split
  · exact .refl _
  · exact List.nil_sublist _

theorem takenBy_sublist (d : DurableNode) (xs : List Dispatch) : (d.takenBy xs).Sublist (begun (xs.map (·.input))) := by
  induction xs generalizing d with
  | nil => exact .refl _
  | cons x xs ih =>
    rw [List.map_cons, begun_cons]
    exact (taken_sublist d x).append (ih (d.next x))

theorem takenBy_append (d : DurableNode) (before xs : List Dispatch) :
    d.takenBy (before ++ xs) = d.takenBy before ++ (d.after before).takenBy xs := by
  induction before generalizing d with
  | nil => rfl
  | cons x before ih => rw [List.cons_append, takenBy, takenBy, ih, List.append_assoc]; rfl

/-- An admitted read was put to the core. -/
theorem Admits.taken {c : RequestId} (h : Driven d) (admits : d.Admits x c) (lossless : ¬d.Loses x) : d.taken x = some c := by
  obtain ⟨hinput, hadmitted⟩ := admits
  have hfits : x.input.Fits := by rw [hinput]; trivial
  have hbegins : x.input.begins = some c := by rw [hinput]; rfl
  rcases h.node with hnode | ⟨hinvalid, hread⟩
  · unfold DurableNode.taken
    rw [if_pos hnode.ruled.valid.1, hbegins]
  · -- A core in an invalid state answers nothing.
    have hperm := balanced h hfits lossless
    have hout : d.node.outstanding = none := by rw [Node.outstanding, hread]; rfl
    have htaken : d.taken x = none := by rw [DurableNode.taken, if_neg (by simp [hinvalid])]
    rw [hout, htaken] at hperm
    have hnil := hperm.eq_nil
    rcases hadmitted with hadmitted | ⟨r, hr, -⟩
    · simp [hadmitted] at hnil
    · simp [hr] at hnil

/-- A cluster of three, and a driver of it that starts without a checkpoint. -/
def trio : Config where
  self := "a"
  peers := ["b", "c"]

def started : DurableNode where
  config := trio
  checkpoint := {}
  node := initial trio

/-- The driver is elected, commits an entry with the help of `b`, and begins read 7. -/
def leading : List Dispatch :=
  [{ input := .electionTimeout },
    { input := .recvVoteReply { term := 1, voter := "b", granted := true, requestId := 1 } },
    { input := .clientPropose "entry" },
    { input := .recvAppendReply { term := 1, follower := "b", success := true, hint := 0, requestId := 3, matched := 0 } },
    { input := .heartbeatTimeout },
    { input := .recvAppendReply { term := 1, follower := "b", success := true, hint := 1, requestId := 5, matched := 1 } },
    { input := .advanceCommit },
    { input := .beginRead 7 }]

/-- A reply of a newer term. -/
def newerReply : Dispatch where
  input := .recvAppendReply { term := 2, follower := "c", success := false, hint := 0, requestId := 4, matched := 0 }

end DurableNode

end Choreolog.Raft
