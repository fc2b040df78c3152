import Choreolog.Theorems.Validity
import Choreolog.Theorems.Reactions

/-! # The discipline of the durable state

One node, told anything at all: members may send what they like and the host may complete or fail any
token. The durable state stays valid, moves only forward, keeps its committed entries and its vote, and a
leader only adds to its log. -/

namespace Choreolog.Raft
open Lib

/-- The node after a sequence of inputs. -/
def run (config : Config) (inputs : List Input) : Node :=
  inputs.foldl (fun s input => (step config s input).1) (initial config)

theorem run_concat (config : Config) (inputs : List Input) (input : Input) :
    run config (inputs ++ [input]) = (step config (run config inputs) input).1 :=
  List.foldl_concat _ _ _ _

/-- How a later durable state of a node relates to an earlier one. -/
structure Forward (d t : Durable) : Prop where
  term : d.term ≤ t.term
  commit : d.commit ≤ t.commit
  applied : d.applied ≤ t.applied
  snapshotIndex : d.snapshotIndex ≤ t.snapshotIndex
  vote : t.term = d.term → t.votedFor = d.votedFor ∨ d.votedFor = none
  kept : ∀ i ≤ d.commit, t.snapshotIndex < i → t.entryAt i = d.entryAt i

namespace Forward

theorem refl (d : Durable) : Forward d d := ⟨le_rfl, le_rfl, le_rfl, le_rfl, fun _ => .inl rfl, fun _ _ _ => rfl⟩

theorem trans {d t u : Durable} (h : Forward d t) (h' : Forward t u) : Forward d u where
  term := h.term.trans h'.term
  commit := h.commit.trans h'.commit
  applied := h.applied.trans h'.applied
  snapshotIndex := h.snapshotIndex.trans h'.snapshotIndex
  vote hterm := by
    have h1 := h.term
    have h2 := h'.term
    rcases h.vote (by omega) with hd | hd
    · exact hd ▸ h'.vote (by omega)
    · exact .inr hd
  kept i hi hu := (h'.kept i (hi.trans h.commit) hu).trans (h.kept i hi (h'.snapshotIndex.trans_lt hu))

end Forward

theorem Change.forward {d t : Durable} (h : Change d t) (hw : WellFormed d) : Forward d t := by
  have hbase := hw.applied.trans hw.commit
  cases h with
  | raise T vote higher =>
    exact ⟨higher.le, le_rfl, le_rfl, le_rfl, fun hterm => absurd hterm higher.ne', fun _ _ _ => rfl⟩
  | vote candidate free => exact { Forward.refl d with vote := fun _ => .inr free }
  | cut k kept => exact { Forward.refl d with kept := fun i hi _ => entryAt_take (hi.trans kept) }
  | append e positive ordered current room below =>
    exact { Forward.refl d with kept := fun i hi _ => entryAt_append (hi.trans hw.reach) [e] }
  | commit n lower upper => exact { Forward.refl d with commit := lower }
  | apply n lower upper => exact { Forward.refl d with applied := lower }
  | compact t applied known =>
    exact { Forward.refl d with snapshotIndex := hbase, kept := fun i _ hi => entryAt_drop hbase rfl hi }
  | install i t above below positive current =>
    refine ⟨le_rfl, above.le, (hw.commit.trans above.le), hbase.trans above.le, fun _ => .inl rfl, fun j hj hi => ?_⟩
    -- The snapshot is past the commit index.
    exact absurd hi (by dsimp only; omega)

theorem Changes.forward {d t : Durable} (h : Changes d t) (hw : WellFormed d) : Forward d t := by
  induction h with
  | refl => exact .refl d
  | tail hs hc ih => exact ih.trans (hc.forward (Changes.wellFormed hs hw))

/-! ### The invariant -/

/-- What holds of a node whatever it was told. -/
structure Ruled (config : Config) (s : Node) : Prop where
  sound : Sound s
  peers : ∀ k ∈ s.volatile.peers.keys, k ∈ config.peers
  voted : ∀ v, s.durable.votedFor = some v → v = config.self ∨ v ∈ config.peers
  staged : ∀ p, s.pending = some p → ∀ v, p.target.votedFor = some v → v = config.self ∨ v ∈ config.peers
  leads : s.volatile.role = .leader → ∀ p, s.pending = some p → Extends s.durable p.target

variable {config : Config} {s : Node} {input : Input}

theorem mem_initial_keys {k : String} (h : k ∈ (initial config).volatile.peers.keys) : k ∈ config.peers := by
  have key : ∀ (peers : List String) (m : OrdMap String PeerProgress),
      k ∈ (peers.foldl (fun m peer => m.tryEmplace peer {}) m).keys → k ∈ peers ∨ k ∈ m.keys := by
    intro peers
    induction peers with
    | nil => exact fun _ h => .inr h
    | cons peer peers ih =>
      intro m h
      rcases ih _ h with h | h
      · exact .inl (List.mem_cons_of_mem _ h)
      · rcases OrdMap.mem_keys_tryEmplace.mp h with rfl | h
        · exact .inl List.mem_cons_self
        · exact .inr h
  rcases key _ _ h with h | h
  · exact h
  · exact nomatch h

namespace Ruled

theorem initial (config : Config) : Ruled config (initial config) :=
  ⟨.initial config, fun _ h => mem_initial_keys h, nofun, nofun, nofun⟩

theorem failStop (h : Ruled config s) : Ruled config (failStop s).1 :=
  ⟨h.sound.failStop, fun k hk => h.peers k (by simpa using hk), h.voted, nofun, nofun⟩

theorem step (h : Ruled config s) (fits : input.Fits) : Ruled config (step config s input).1 := by
  have hsound := h.sound.step config input fits
  have hs := step_stepped config s input
  generalize Raft.step config s input = r at hsound hs ⊢
  cases hs with
  | answered ha role halted =>
    refine ⟨hsound, ha.kept.keys ▸ h.peers, ha.kept.durable ▸ h.voted, ha.pending ▸ h.staged, fun hr p hp => ?_⟩
    rw [ha.kept.durable]
    rw [ha.pending] at hp
    rcases role hr with hl | hidle
    · exact h.leads hl p hp
    · exact nomatch hidle.symm.trans hp
  | staged live idle p hst =>
    refine ⟨hsound, hst.kept.keys ▸ h.peers, hst.kept.durable ▸ h.voted, fun p' hp v hv => ?_, fun hr p' hp => ?_⟩
    · obtain rfl := Option.some.inj (hst.pending.symm.trans hp)
      rcases hst.vote v hv with hv | hv | hv
      · exact h.voted v hv
      · exact .inl hv
      · exact .inr (h.peers v hv)
    · obtain rfl := Option.some.inj (hst.pending.symm.trans hp)
      exact hst.kept.durable ▸ hst.leads hr
  | completed p live pending token hc =>
    refine ⟨hsound, hc.keys ▸ h.peers, hc.durable ▸ h.staged p pending, fun p' hp => ?_, fun _ p' hp => ?_⟩
    · exact nomatch hc.pending.symm.trans hp
    · exact nomatch hc.pending.symm.trans hp
  | failed p live pending token heq => exact heq ▸ h.failStop
  | restarted token heq =>
    subst heq
    exact ⟨hsound, fun k hk => mem_initial_keys hk, h.voted, nofun, nofun⟩
  | invalid bad heq => exact heq ▸ h.failStop

theorem run (inputs : List Input) (fits : ∀ i ∈ inputs, i.Fits) : Ruled config (run config inputs) := by
  induction inputs using List.reverseRecOn with
  | nil => exact initial config
  | append_singleton inputs input ih =>
    rw [run_concat]
    exact (ih fun i hi => fits i (List.mem_append_left _ hi)).step (fits input (by simp))

/-- The targets of a ruled node are valid, so `step` never takes its invalid-state branch. -/
theorem valid (h : Ruled config s) : s.durable.valid = true ∧ ∀ p, s.pending = some p → p.target.valid = true :=
  ⟨h.sound.durable.valid, fun p hp => ((h.sound.pending p hp).wellFormed h.sound.durable).valid⟩

theorem halt (h : Ruled config s) (halt : (Raft.step config s input).2.halt = true) :
    ∃ p, s.pending = some p ∧ input = .persistFailed p.token := by
  have hs := step_stepped config s input
  generalize Raft.step config s input = r at hs halt
  cases hs with
  | answered ha => exact absurd halt (by simp [ha.halt])
  | staged live idle p hst => exact absurd halt (by simp [show r.2.halt = false from hst.silent.halt])
  | completed p live pending token hc => exact absurd halt (by simp [hc.halt])
  | failed p live pending token heq => exact ⟨p, pending, token⟩
  | restarted token heq =>
    subst heq
    exact nomatch halt
  | invalid bad heq =>
    obtain ⟨hd, hp⟩ := h.valid
    rcases bad with bad | ⟨p, hpend, bad⟩
    · exact nomatch bad.symm.trans hd
    · exact nomatch bad.symm.trans (hp p hpend)

theorem forward (h : Ruled config s) : Forward s.durable (Raft.step config s input).1.durable := by
  have hs := step_stepped config s input
  generalize Raft.step config s input = r at hs ⊢
  cases hs with
  | answered ha => exact ha.kept.durable ▸ .refl _
  | staged live idle p hst => exact hst.kept.durable ▸ .refl _
  | completed p live pending token hc =>
    rw [hc.durable]
    exact (h.sound.pending p pending).forward h.sound.durable
  | failed p live pending token heq => exact heq ▸ .refl _
  | restarted token heq => exact heq ▸ .refl _
  | invalid bad heq => exact heq ▸ .refl _

/-- The log of a leader only grows. -/
theorem extends_ (h : Ruled config s) (role : s.volatile.role = .leader) :
    Extends s.durable (Raft.step config s input).1.durable := by
  have hs := step_stepped config s input
  generalize Raft.step config s input = r at hs ⊢
  cases hs with
  | answered ha => exact ha.kept.durable ▸ .refl _
  | staged live idle p hst => exact hst.kept.durable ▸ .refl _
  | completed p live pending token hc => exact hc.durable ▸ h.leads role p pending
  | failed p live pending token heq => exact heq ▸ .refl _
  | restarted token heq => exact heq ▸ .refl _
  | invalid bad heq => exact heq ▸ .refl _

/-- From one point of a run to a later one. -/
theorem forward_run (before after : List Input) (fits : ∀ i ∈ before ++ after, i.Fits) :
    Forward (Raft.run config before).durable (Raft.run config (before ++ after)).durable := by
  induction after using List.reverseRecOn with
  | nil =>
    rw [List.append_nil]
    exact .refl _
  | append_singleton after input ih =>
    rw [← List.append_assoc] at fits ⊢
    have hfits : ∀ i ∈ before ++ after, i.Fits := fun i hi => fits i (List.mem_append_left _ hi)
    rw [run_concat]
    exact (ih hfits).trans (run _ hfits).forward

theorem extends_run (before after : List Input) (fits : ∀ i ∈ before ++ after, i.Fits)
    (role : ∀ part, part <+: after → (Raft.run config (before ++ part)).volatile.role = .leader) :
    Extends (Raft.run config before).durable (Raft.run config (before ++ after)).durable := by
  induction after using List.reverseRecOn with
  | nil =>
    rw [List.append_nil]
    exact .refl _
  | append_singleton after input ih =>
    have hrole := role after (List.prefix_append _ _)
    rw [← List.append_assoc] at fits ⊢
    have hfits : ∀ i ∈ before ++ after, i.Fits := fun i hi => fits i (List.mem_append_left _ hi)
    rw [run_concat]
    exact (ih hfits fun part hp => role part (hp.trans (List.prefix_append _ _))).trans
      ((run _ hfits).extends_ hrole)

end Ruled

/-- Whatever a node is told from its start on, all its durable states and staged targets are valid, so it
    halts only for a failed write. From any point of the run on, its durable state moves forward and its
    vote stays a member's, and as long as it is leader its log only grows. -/
theorem durable_discipline (config : Config) (inputs : List Input) (fits : ∀ i ∈ inputs, i.Fits) :
    (run config inputs).durable.valid = true ∧
    (∀ p, (run config inputs).pending = some p → p.target.valid = true) ∧
    (∀ input, (step config (run config inputs) input).2.halt = true →
      ∃ p, (run config inputs).pending = some p ∧ input = .persistFailed p.token) ∧
    (∀ v, (run config inputs).durable.votedFor = some v → v = config.self ∨ v ∈ config.peers) ∧
    ∀ before after, inputs = before ++ after →
      Forward (run config before).durable (run config inputs).durable ∧
      ((∀ part, part <+: after → (run config (before ++ part)).volatile.role = .leader) →
        Extends (run config before).durable (run config inputs).durable) := by
  have h : Ruled config (run config inputs) := .run inputs fits
  refine ⟨h.valid.1, h.valid.2, fun input => h.halt, h.voted, ?_⟩
  rintro before after rfl
  exact ⟨Ruled.forward_run before after fits, Ruled.extends_run before after fits⟩

/-- A node alone is elected in its first term and appends to its log as leader. -/
theorem durable_discipline_solo :
    (run ⟨"a", []⟩ [.electionTimeout, .persistCompleted 1]).durable.term = 1 ∧
    (run ⟨"a", []⟩ [.electionTimeout, .persistCompleted 1, .clientPropose "x", .persistCompleted 2]).durable.lastIndex = 1 ∧
    Extends (run ⟨"a", []⟩ [.electionTimeout, .persistCompleted 1]).durable
      (run ⟨"a", []⟩ [.electionTimeout, .persistCompleted 1, .clientPropose "x", .persistCompleted 2]).durable := by
  refine ⟨by decide, by decide, ?_⟩
  have h := durable_discipline ⟨"a", []⟩ [.electionTimeout, .persistCompleted 1, .clientPropose "x", .persistCompleted 2]
    (by simp [Input.Fits])
  refine (h.2.2.2.2 [.electionTimeout, .persistCompleted 1] [.clientPropose "x", .persistCompleted 2] rfl).2 ?_
  simp only [← List.mem_inits]
  decide

end Choreolog.Raft
