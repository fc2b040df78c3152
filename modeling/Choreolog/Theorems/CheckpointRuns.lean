import Choreolog.Raft.DurableNode

/-! # Checkpoint files over whole runs

A store compares every target with the state in its memory. That is the state in the file unless a write failed, and then
nothing is written before the file is read again. So each new file follows the one before. -/

namespace Choreolog.Raft
open Relation (ReflTransGen)

namespace Durable

/-- What a later checkpoint keeps of an earlier one. -/
structure Follows (old new : Durable) : Prop where
  term : old.term ≤ new.term
  commit : old.commit ≤ new.commit
  vote : new.term = old.term → ∀ v, old.votedFor = some v → new.votedFor = some v
  log : new.log.take old.commit = old.log.take old.commit

theorem Follows.refl (d : Durable) : d.Follows d := ⟨le_rfl, le_rfl, fun _ _ h => h, rfl⟩

theorem Follows.trans {a b c : Durable} (hab : a.Follows b) (hbc : b.Follows c) : a.Follows c := by
  refine ⟨hab.term.trans hbc.term, hab.commit.trans hbc.commit, fun hterm v hv => ?_, ?_⟩
  · have hab' : b.term = a.term := le_antisymm (hterm ▸ hbc.term) hab.term
    exact hbc.vote (hterm.trans hab'.symm) v (hab.vote hab' v hv)
  · have hlog := congrArg (List.take a.commit) hbc.log
    rw [List.take_take, List.take_take, Nat.min_eq_left hab.commit] at hlog
    exact hlog.trans hab.log

end Durable

theorem validateTransition_follows {old next : Durable} (h : validateTransition old next = .ok ()) : old.Follows next := by
  unfold validateTransition at h
  split at h
  · cases h
  · split at h
    · cases h
    · rename_i hback
      split at h
      · cases h
      · rename_i hvote
        split at h
        · cases h
        · split at h
          · cases h
          · rename_i hlog
            rw [not_or, not_lt, not_lt] at hback
            refine ⟨hback.1, hback.2, fun hterm v hv => ?_, not_not.mp hlog⟩
            by_contra hne
            exact hvote ⟨hterm, hv ▸ rfl, fun heq => hne (heq.trans hv)⟩

/-! ### Processes -/

/-- A process that has a store open, or none that does. -/
inductive CheckpointProcess where
  | running (store : CheckpointStore)
  | stopped (file : Option Durable)

namespace CheckpointProcess

def file : CheckpointProcess → Option Durable
  | running store => store.file
  | stopped file => file

/-- What the file says; without a file that is the state of a new node. -/
def content (p : CheckpointProcess) : Durable := p.file.getD {}

/-- An operation on the store, with what the file system does during it. A crash within a write is a write that fails, in
    whose place it happens, and a crash. -/
inductive Step : CheckpointProcess → CheckpointProcess → Prop
  | persist (store : CheckpointStore) (target : Durable) (medium : Medium) :
      Step (running store) (running (store.persist target medium).1)
  | recover (store : CheckpointStore) (medium : Medium) : Step (running store) (running (store.recover medium).1)
  | crash (store : CheckpointStore) : Step (running store) (stopped store.file)
  | «open» (p : CheckpointProcess) (medium : Medium) (store : CheckpointStore)
      (opened : CheckpointStore.open p.file medium = .ok store) : Step p (running store)

/-- The memory is what the file says, unless a write failed. -/
def Trusted (p : CheckpointProcess) : Prop := ∀ store, p = running store → store.uncertain = false → store.current = p.content

variable {p q : CheckpointProcess}

theorem read_content {file : Option Durable} {medium : Medium} {value : Durable}
    (h : CheckpointStore.readCheckpoint file medium = .ok value) : value = file.getD {} := by
  unfold CheckpointStore.readCheckpoint at h
  split at h
  · cases h
  · cases h
    rfl
  · split at h
    · cases h
    · cases h
      rfl

/-- The outcomes of a write. -/
theorem persist_cases (store : CheckpointStore) (target : Durable) (medium : Medium) :
    (store.persist target medium).1 = store ∨ store.uncertain = false ∧ validateTransition store.current target = .ok () ∧
      ((store.persist target medium).1 = { store with file := some target, current := target } ∨
        ∃ replaced : Bool, (store.persist target medium).1 =
          { store with uncertain := true, file := if replaced then some target else store.file }) := by
  unfold CheckpointStore.persist
  split
  · exact .inl rfl
  · rename_i hsure
    split
    · exact .inl rfl
    · exact .inl rfl
    · rename_i hvalid _
      refine .inr ⟨Bool.eq_false_iff.mpr hsure, hvalid, ?_⟩
      split
      · exact .inr ⟨_, rfl⟩
      · exact .inl rfl

/-- One operation: the new file follows the old one, and the memory can be trusted after it. -/
theorem Step.kept (h : Step p q) (hp : p.Trusted) : p.content.Follows q.content ∧ q.Trusted ∧
    ∀ store, p = running store → store.uncertain = true → q.file = p.file := by
  cases h with
  | persist store target medium =>
    rcases persist_cases store target medium with hsame | ⟨hsure, hvalid, hwritten | ⟨replaced, hfailed⟩⟩
    · rw [hsame]
      exact ⟨.refl _, hp, fun _ _ _ => rfl⟩
    · have hfollows := validateTransition_follows hvalid
      rw [hp store rfl hsure] at hfollows
      rw [hwritten]
      refine ⟨hfollows, ?_, ?_⟩
      · rintro _ ⟨⟩ -
        rfl
      · rintro _ ⟨⟩ hunsure
        exact nomatch hsure.symm.trans hunsure
    · have hfollows := validateTransition_follows hvalid
      rw [hp store rfl hsure] at hfollows
      rw [hfailed]
      refine ⟨?_, ?_, ?_⟩
      · cases replaced
        · exact .refl _
        · exact hfollows
      · rintro _ ⟨⟩ ⟨⟩
      · rintro _ ⟨⟩ hunsure
        exact nomatch hsure.symm.trans hunsure
  | recover store medium =>
    unfold CheckpointStore.recover
    split
    · refine ⟨.refl _, ?_, fun _ _ _ => rfl⟩
      rintro _ ⟨⟩ ⟨⟩
    · rename_i value hread
      refine ⟨.refl _, ?_, fun _ _ _ => rfl⟩
      rintro _ ⟨⟩ -
      exact read_content hread
  | crash store => exact ⟨.refl _, nofun, fun _ _ _ => rfl⟩
  | «open» _ medium store opened =>
    unfold CheckpointStore.open at opened
    split at opened
    · cases opened
    · rename_i value hread
      cases opened
      refine ⟨.refl _, ?_, fun _ _ _ => rfl⟩
      rintro _ ⟨⟩ -
      exact read_content hread

theorem steps_kept (h : ReflTransGen Step p q) (hp : p.Trusted) : p.content.Follows q.content ∧ q.Trusted := by
  induction h with
  | refl => exact ⟨.refl _, hp⟩
  | tail _ step ih =>
    obtain ⟨hfollows, htrusted, -⟩ := step.kept ih.2
    exact ⟨ih.1.trans hfollows, htrusted⟩

/-- Whatever operations, failures and crashes there are: a later file follows an earlier one; the memory of a store is what
    the file says unless a write failed, and then the file stays as it is. -/
theorem checkpoint_follows {file : Option Durable} (start : ReflTransGen Step (stopped file) p) (run : ReflTransGen Step p q) :
    p.content.Follows q.content ∧ ∀ store, p = running store → (store.uncertain = false → store.current = p.content) ∧
      (store.uncertain = true → ∀ r, Step p r → r.file = p.file) := by
  have htrusted := (steps_kept start nofun).2
  refine ⟨(steps_kept run htrusted).1, fun store hstore => ⟨htrusted store hstore, fun hunsure r hstep => ?_⟩⟩
  exact (hstep.kept htrusted).2.2 store hstore hunsure

theorem checkpoint_follows_lost : let target : Durable := { term := 2, votedFor := some "a" }
    ∃ p q, ReflTransGen Step (stopped none) p ∧ ReflTransGen Step p q ∧ q.file = some target ∧ p.content.Follows q.content := by
  intro target
  have hstart : ReflTransGen Step (stopped none) (running {}) := .single (.open _ {} _ rfl)
  have hrun : ReflTransGen Step (running {}) (stopped (some target)) :=
    .head (.persist {} target { writeError := some (true, "sync failed") }) (.single (.crash _))
  exact ⟨_, _, hstart, hrun, rfl, (checkpoint_follows hstart hrun).1⟩

end CheckpointProcess

end Choreolog.Raft
