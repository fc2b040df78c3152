import Choreolog.Theorems.Discipline

/-! # Persist before effect

A node changes its durable state only by completing the write it has staged, and what it sends or hands to
the state machine is true of the durable state at that moment. A failed write takes everything that waited
for it along, and the node then stays silent until it is restarted. -/

namespace Choreolog.Raft

/-- The entries that a run hands to the state machine, each with the applied index it was released at. -/
def releases (config : Config) (inputs : List Input) : List (Nat × Entry) :=
  inputs.foldl (fun x input =>
    let r := step config x.1 input
    (r.1, x.2 ++ r.2.apply.map fun e => (r.1.durable.applied, e))) (initial config, []) |>.2

theorem releases_concat (config : Config) (inputs : List Input) (input : Input) :
    releases config (inputs ++ [input]) = releases config inputs ++
      (step config (run config inputs) input).2.apply.map
        fun e => ((step config (run config inputs) input).1.durable.applied, e) := by
  have hrun : ∀ inputs : List Input, (inputs.foldl (fun x input =>
      let r := step config x.1 input
      (r.1, x.2 ++ r.2.apply.map fun e => (r.1.durable.applied, e))) (initial config, ([] : List (Nat × Entry)))).1 =
      run config inputs := by
    intro inputs
    induction inputs using List.reverseRecOn with
    | nil => rfl
    | append_singleton inputs input ih =>
      rw [List.foldl_concat, run_concat, ← ih]
  unfold releases
  rw [List.foldl_concat, ← hrun]

/-- What the staged write of a node holds back, with all inputs so far in `asked`. -/
structure Waiting (config : Config) (asked : Input → Prop) (s : Node) : Prop where
  live : ∀ p, s.pending = some p → s.halted = false
  token : ∀ p, s.pending = some p → p.token < s.nextToken
  waits : ∀ p, s.pending = some p → ∀ o ∈ p.after, Warranted config asked p.target o
  applies : ∀ p, s.pending = some p → p.applyAfter = [] ∨
    p.target.applied = s.durable.applied + 1 ∧ p.applyAfter = (p.target.entryAt p.target.applied).toList

variable {config : Config} {asked asked' : Input → Prop} {s : Node} {input : Input}

theorem Waiting.idle (h : s.pending = none) : Waiting config asked s := by
  have hno : ∀ p, s.pending ≠ some p := by simp [h]
  exact ⟨fun p hp => absurd hp (hno p), fun p hp => absurd hp (hno p), fun p hp => absurd hp (hno p),
    fun p hp => absurd hp (hno p)⟩

theorem Waiting.step (h : Waiting config asked s) (more : ∀ i, asked i → asked' i) (now : asked' input) :
    Waiting config asked' (step config s input).1 := by
  have hs := step_stepped config s input
  generalize Raft.step config s input = r at hs ⊢
  cases hs with
  | answered ha =>
    refine ⟨?_, ?_, ?_, ?_⟩
    · rw [ha.pending, ha.kept.halted]
      exact h.live
    · rw [ha.pending, ha.token]
      exact h.token
    · rw [ha.pending]
      exact fun p hp o ho => (h.waits p hp o ho).mono more
    · rw [ha.pending, ha.kept.durable]
      exact h.applies
  | staged live idle p hst =>
    have hp : ∀ q, r.1.pending = some q → q = p := fun q hq => Option.some.inj (hq.symm.trans hst.pending)
    refine ⟨fun q hq => hst.kept.halted.trans live, fun q hq => ?_, fun q hq o ho => ?_, fun q hq => ?_⟩
    · rw [hp q hq, hst.fresh, hst.token]
      exact Nat.lt_succ_self _
    · rw [hp q hq] at ho ⊢
      exact (hst.waits o ho).mono fun i (hi : i = input) => hi ▸ now
    · rw [hp q hq, hst.kept.durable]
      exact hst.applies
  | completed p live pending token hc => exact .idle hc.pending
  | failed p live pending token heq => exact heq ▸ .idle rfl
  | restarted token heq => exact heq ▸ .idle rfl
  | invalid bad heq => exact heq ▸ .idle rfl

theorem Waiting.run (config : Config) (inputs : List Input) : Waiting config (· ∈ inputs) (run config inputs) := by
  induction inputs using List.reverseRecOn with
  | nil => exact .idle rfl
  | append_singleton inputs input ih =>
    rw [run_concat]
    exact ih.step (fun i hi => List.mem_append_left _ hi) (List.mem_append_right _ (List.mem_singleton_self input))

/-! ### One step -/

namespace Waiting

theorem completed (h : Waiting config asked s) (good : Ruled config s) {p : PendingWrite} (pending : s.pending = some p)
    (token : input = .persistCompleted p.token) : (Raft.step config s input).1.durable = p.target := by
  have hs := step_stepped config s input
  generalize Raft.step config s input = r at hs ⊢
  cases hs with
  | answered ha role halted other => exact absurd token (other (h.live p pending) p pending).1
  | staged live idle => exact nomatch idle.symm.trans pending
  | completed q live hq _ hc =>
    rw [hc.durable]
    exact congrArg _ (Option.some.inj (hq.symm.trans pending))
  | failed q live hq htoken => exact nomatch htoken.symm.trans token
  | restarted hrestart => exact nomatch hrestart.symm.trans token
  | invalid bad =>
    rcases bad with bad | ⟨q, hq, bad⟩
    · exact nomatch bad.symm.trans good.valid.1
    · exact nomatch bad.symm.trans (good.valid.2 q hq)

/-- A failed write leaves nothing staged behind. -/
theorem failed (h : Waiting config asked s) {p : PendingWrite} (pending : s.pending = some p)
    (token : input = .persistFailed p.token) : (Raft.step config s input).1 = (failStop s).1 := by
  have hs := step_stepped config s input
  generalize Raft.step config s input = r at hs ⊢
  cases hs with
  | answered ha role halted other => exact absurd token (other (h.live p pending) p pending).2
  | staged live idle => exact nomatch idle.symm.trans pending
  | completed q live hq htoken => exact nomatch htoken.symm.trans token
  | failed q live hq _ heq => rw [heq]
  | restarted hrestart => exact nomatch hrestart.symm.trans token
  | invalid bad heq => rw [heq]

/-- The durable state changes by the completion of the staged write only. -/
theorem unchanged (other : ∀ p, s.pending = some p → input ≠ .persistCompleted p.token) :
    (Raft.step config s input).1.durable = s.durable := by
  have hs := step_stepped config s input
  generalize Raft.step config s input = r at hs ⊢
  cases hs with
  | answered ha => exact ha.kept.durable
  | staged live idle p hst => exact hst.kept.durable
  | completed p live pending token hc => exact absurd token (other p pending)
  | failed p live pending token heq => exact heq ▸ rfl
  | restarted token heq => exact heq ▸ rfl
  | invalid bad heq => exact heq ▸ rfl

theorem sends (h : Waiting config asked s) (more : ∀ i, asked i → asked' i) (now : asked' input) {o : Outbound}
    (ho : o ∈ (Raft.step config s input).2.sendNow) :
    Warranted config asked' (Raft.step config s input).1.durable o := by
  have hs := step_stepped config s input
  generalize Raft.step config s input = r at hs ho ⊢
  cases hs with
  | answered ha =>
    rw [ha.kept.durable]
    exact (ha.sends o ho).mono fun i (hi : i = input) => hi ▸ now
  | staged live idle p hst => exact nomatch (show o ∈ [] from hst.silent.sendNow ▸ ho)
  | completed p live pending token hc =>
    rw [hc.durable]
    rcases hc.sends o ho with ho | ⟨m, hm⟩
    · exact (h.waits p pending o ho).mono more
    · unfold Warranted
      rw [hm]
      trivial
  | failed p live pending token heq =>
    subst heq
    cases ho
  | restarted token heq =>
    subst heq
    cases ho
  | invalid bad heq =>
    subst heq
    cases ho

/-- An entry is released by a step that has just moved the applied index to it. -/
theorem applied (h : Waiting config asked s) {e : Entry} (he : e ∈ (Raft.step config s input).2.apply) :
    (Raft.step config s input).2.apply = [e] ∧
    (Raft.step config s input).1.durable.applied = s.durable.applied + 1 ∧
    (Raft.step config s input).1.durable.entryAt (Raft.step config s input).1.durable.applied = some e := by
  have hs := step_stepped config s input
  generalize Raft.step config s input = r at hs he ⊢
  cases hs with
  | answered ha => exact nomatch (show e ∈ [] from ha.apply ▸ he)
  | staged live idle p hst => exact nomatch (show e ∈ [] from hst.silent.apply ▸ he)
  | completed p live pending token hc =>
    rw [hc.apply] at he ⊢
    rw [hc.durable]
    rcases h.applies p pending with hnone | ⟨happlied, hentry⟩
    · exact nomatch (show e ∈ [] from hnone ▸ he)
    · rw [hentry] at he ⊢
      rw [Option.mem_toList] at he
      rw [he]
      exact ⟨rfl, happlied, rfl⟩
  | failed p live pending token heq =>
    subst heq
    cases he
  | restarted token heq =>
    subst heq
    cases he
  | invalid bad heq =>
    subst heq
    cases he

end Waiting

/-! ### Runs -/

theorem releases_increasing (config : Config) (inputs : List Input) (fits : ∀ i ∈ inputs, i.Fits) :
    (releases config inputs).Pairwise (fun x y => x.1 < y.1) ∧
      ∀ x ∈ releases config inputs, x.1 ≤ (run config inputs).durable.applied := by
  induction inputs using List.reverseRecOn with
  | nil => exact ⟨.nil, nofun⟩
  | append_singleton inputs input ih =>
    have hfits : ∀ i ∈ inputs, i.Fits := fun i hi => fits i (List.mem_append_left _ hi)
    obtain ⟨hincreasing, hbound⟩ := ih hfits
    have hforward : Forward (run config inputs).durable (step config (run config inputs) input).1.durable :=
      (Ruled.run inputs hfits).forward
    have happlied : ∀ e ∈ (step config (run config inputs) input).2.apply, _ := fun _ => (Waiting.run config inputs).applied
    rw [releases_concat, run_concat]
    generalize step config (run config inputs) input = r at hforward happlied ⊢
    cases happly : r.2.apply with
    | nil =>
      simp only [List.map_nil, List.append_nil]
      exact ⟨hincreasing, fun x hx => (hbound x hx).trans hforward.applied⟩
    | cons e rest =>
      obtain ⟨hone, hnext, -⟩ := happlied e (by simp [happly])
      rw [← happly, hone, List.map_singleton]
      refine ⟨List.pairwise_append.mpr ⟨hincreasing, List.pairwise_singleton _ _, fun x hx y hy => ?_⟩, fun x hx => ?_⟩
      · rw [List.mem_singleton.mp hy, hnext]
        exact Nat.lt_succ_of_le (hbound x hx)
      · rcases List.mem_append.mp hx with hx | hx
        · exact (hbound x hx).trans hforward.applied
        · rw [List.mem_singleton.mp hx]

/-- A node that waits for nothing staged before token `k`. -/
structure Dropped (k : PersistToken) (s : Node) : Prop where
  token : k ≤ s.nextToken
  pending : ∀ q, s.pending = some q → k ≤ q.token

theorem Dropped.step {k : PersistToken} (h : Dropped k s) : Dropped k (step config s input).1 := by
  have hs := step_stepped config s input
  generalize Raft.step config s input = r at hs ⊢
  cases hs with
  | answered ha => exact ⟨ha.token ▸ h.token, ha.pending ▸ h.pending⟩
  | staged live idle p hst =>
    refine ⟨hst.token ▸ Nat.le_succ_of_le h.token, fun q hq => ?_⟩
    rw [← Option.some.inj (hst.pending.symm.trans hq), hst.fresh]
    exact h.token
  | completed p live pending token hc => exact ⟨hc.token ▸ h.token, fun q hq => nomatch hc.pending.symm.trans hq⟩
  | failed p live pending token heq => exact heq ▸ ⟨h.token, nofun⟩
  | restarted token heq => exact heq ▸ ⟨h.token, nofun⟩
  | invalid bad heq => exact heq ▸ ⟨h.token, nofun⟩

/-- A halted node with a valid durable state says nothing and stays halted. -/
theorem step_halted (halted : s.halted = true) (idle : s.pending = none) (valid : s.durable.valid = true)
    (running : input ≠ .restart) :
    Silent (step config s input).2 ∧ (step config s input).1.halted = true ∧
      (step config s input).1.pending = none ∧ (step config s input).1.durable = s.durable := by
  have hs := step_stepped config s input
  generalize Raft.step config s input = r at hs ⊢
  cases hs with
  | answered ha role hsilent =>
    exact ⟨hsilent halted, ha.kept.halted.trans halted, ha.pending.trans idle, ha.kept.durable⟩
  | staged live => exact nomatch live.symm.trans halted
  | completed p live => exact nomatch live.symm.trans halted
  | failed p live => exact nomatch live.symm.trans halted
  | restarted token => exact absurd token running
  | invalid bad =>
    rcases bad with bad | ⟨p, hp, -⟩
    · exact nomatch bad.symm.trans valid
    · exact nomatch idle.symm.trans hp

theorem run_append (config : Config) (inputs later : List Input) :
    run config (inputs ++ later) = later.foldl (fun s input => (step config s input).1) (run config inputs) :=
  List.foldl_append

theorem Dropped.foldl {k : PersistToken} (later : List Input) (h : Dropped k s) :
    Dropped k (later.foldl (fun s input => (Raft.step config s input).1) s) := by
  induction later generalizing s with
  | nil => exact h
  | cons input later ih => exact ih h.step

theorem foldl_halted (later : List Input) (halted : s.halted = true) (idle : s.pending = none)
    (valid : s.durable.valid = true) (running : .restart ∉ later) {next : Input} (hnext : next ≠ .restart) :
    Silent (step config (later.foldl (fun s input => (step config s input).1) s) next).2 := by
  induction later generalizing s with
  | nil => exact (step_halted halted idle valid hnext).1
  | cons input later ih =>
    rw [List.mem_cons, not_or] at running
    obtain ⟨-, hh, hi, hd⟩ := @step_halted config s input halted idle valid (Ne.symm running.1)
    exact ih hh hi (hd ▸ valid) running.2

end Choreolog.Raft
