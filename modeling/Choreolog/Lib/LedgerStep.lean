import Choreolog.Lib.LedgerInv

/-! # Replicated ledgers: every update keeps the invariant -/

namespace Lib.Ledger
open Stamped Function

section Growth
variable {N E : Type} {s t : State N E}

theorem Lost.grows {T n U U' : Nat} (hl : Lost s T n U) (g : Grows s t) (hn : n ≤ (s.book T).length) (hU : U ≤ U') :
    Lost t T n U' := by
  obtain ⟨T', h1, h2, h3, h4⟩ := hl
  refine ⟨T', h1, h2.trans hU, g.led h3, ?_⟩
  rw [g.take_book hn, g.base h3]
  exact h4

variable [Stamped E] {q : Quorums N}

theorem Backed.grows {L : List E} (hL : Backed s L) (g : Grows s t) : Backed t L :=
  fun P e hP => (hL P e hP).trans (g.book _)

theorem Inv.sealed_length (h : Inv q s) (T : Nat) : s.sealed T ≤ (s.book T).length := by
  by_cases h0 : 0 < s.sealed T
  · exact (h.sealed_chosen T h0).length
  · omega

theorem Inv.committed_grows (h : Inv q s) (g : Grows s t) {T T' : Nat} {P : List E} (hP : Committed s T P)
    (hT : T ≤ T') : Committed t T' P := by
  obtain ⟨T₀, hT₀, hP⟩ := hP
  refine ⟨T₀, hT₀.trans hT, hP.trans ?_⟩
  rw [← g.take_book (h.sealed_length T₀)]
  exact List.take_prefix_take_left (g.sealed T₀)

theorem Inv.elected_grows (h : Inv q s) (g : Grows s t) {T : Nat} {c : N} (hl : s.leader T = some c) :
    Elected q t T c where
  own := by
    rw [g.base (by simp [hl])]
    exact g.voted (h.elected T c hl).own
  quorum := by
    obtain ⟨Q, hQ, hv⟩ := (h.elected T c hl).quorum
    refine ⟨Q, hQ, fun v hv' => ?_⟩
    obtain ⟨b, hb, h'⟩ := hv v hv'
    rw [g.base (by simp [hl])]
    exact ⟨b, g.ballots hb, h'⟩

theorem inv_init : Inv q (init : State N E) where
  base_book _ := List.prefix_rfl
  base_lt _ _ h := by simp [init] at h
  book_new _ _ _ h := by simp [init] at h
  unled _ _ := ⟨rfl, rfl⟩
  led_pos _ h := absurd rfl h
  backed_log _ _ _ h := by simp [init] at h
  backed_book _ _ _ h := by simp [init] at h
  backed_ballot _ h := by simp [init] at h
  log_le _ _ h := by simp [init] at h
  ballot_le _ h := by simp [init] at h
  ballot_vote _ h := by simp [init] at h
  ballot_unique _ h := by simp [init] at h
  ballot_eligible _ h := by simp [init] at h
  ballot_timely _ h := by simp [init] at h
  vote_ballot _ _ h := by simp [init] at h
  elected _ _ h := by simp [init] at h
  ack_le _ _ _ h := by simp [init] at h
  ack_log _ _ _ h := by simp [init] at h
  ack_ballot _ h := by simp [init] at h
  commit_le _ := le_rfl
  commit_log _ := ⟨0, le_rfl, by simp [init]⟩
  sealed_chosen _ h := by simp [init] at h
  sealed_le _ _ h := by simp [init] at h

end Growth

section Steps
variable {N E : Type} [Stamped E] [DecidableEq N] {q : Quorums N} {s t : State N E}

theorem Step.grows (h : Inv q s) (st : Step q s t) : Grows s t := by
  cases st with
  | raise v T newer =>
    refine { Grows.refl s with term := fun w => ?_ }
    by_cases hw : w = v
    · subst hw
      simpa using newer.le
    · simp [hw]
  | grant v c free eligible => exact { Grows.refl s with ballots := Set.subset_insert _ _ }
  | elect c Q free pos own quorum votes =>
    have hne : ∀ {T}, s.leader T ≠ none → T ≠ s.term c := fun hT hc => hT (hc ▸ free)
    refine { Grows.refl s with leader := fun {T c'} hT => ?_, base := fun {T} hT => ?_, book := fun T => ?_ }
    · simpa [hne (T := T) (by simp [hT])] using hT
    · simp [hne hT]
    · by_cases hT : T = s.term c
      · subst hT
        simp [(h.unled _ free).1]
      · simp [hT]
  | extend e led =>
    refine { Grows.refl s with book := fun T => ?_ }
    by_cases hT : T = term e
    · subst hT
      simp
    · simp [hT]
  | adopt v L led sub keeps => exact { Grows.refl s with }
  | ack v n led length held => exact { Grows.refl s with acks := Set.subset_union_left }
  | «seal» c n led later held chosen =>
    refine { Grows.refl s with commit := fun w => ?_, «sealed» := fun T => ?_ }
    · by_cases hw : w = c
      · subst hw
        simpa using later
      · simp [hw]
    · by_cases hT : T = s.term c
      · subst hT
        simpa using (h.sealed_le _ c led).trans later
      · simp [hT]
  | learn v n later length committed =>
    refine { Grows.refl s with commit := fun w => ?_ }
    by_cases hw : w = v
    · subst hw
      simpa using later
    · simp [hw]

/-! ### The invariant, update by update -/

theorem Inv.raise (h : Inv q s) {v : N} {T : Nat} (newer : s.term v < T) :
    Inv q { s with term := update s.term v T, vote := update s.vote v none } := by
  have g : Grows s { s with term := update s.term v T, vote := update s.vote v none } := (Step.raise v T newer).grows h
  refine { h with
    log_le := fun w e he => (h.log_le w e he).trans (g.term w)
    ballot_le := fun b hb => (h.ballot_le b hb).trans (g.term _)
    ballot_vote := fun b hb ht => ?_
    vote_ballot := fun w c hw => ?_
    ack_le := fun w T' n ha => ⟨(h.ack_le w T' n ha).1, (h.ack_le w T' n ha).2.1.trans (g.term w), (h.ack_le w T' n ha).2.2⟩
    ack_log := fun w T' n ha => ?_
    commit_log := fun w => h.committed_grows g (h.commit_log w) (g.term w)
    sealed_chosen := fun T hT => g.chosen (h.sealed_chosen T hT)
    elected := fun _ _ hl => h.elected_grows g hl }
  · by_cases hw : b.voter = v
    · have := h.ballot_le b hb
      simp only [hw, update_self] at ht this
      omega
    · simp only [update_of_ne hw] at ht ⊢
      exact h.ballot_vote b hb ht
  · by_cases hv : w = v
    · subst hv
      simp at hw
    · simp only [update_of_ne hv] at hw ⊢
      exact h.vote_ballot w c hw
  · rcases h.ack_log w T' n ha with hl | hp
    · exact Or.inl (hl.grows g (h.ack_le w T' n ha).2.2 (g.term w))
    · exact Or.inr hp

theorem Inv.grant (h : Inv q s) {v c : N} (free : s.vote v = none)
    (eligible : c = v ∨ Eligible s c (s.term v) (s.log v)) :
    Inv q { s with
      vote := update s.vote v (some c)
      ballots := insert ⟨v, s.term v, c, s.log v, s.leader (s.term v) = none⟩ s.ballots } := by
  have g : Grows s { s with
      vote := update s.vote v (some c)
      ballots := insert ⟨v, s.term v, c, s.log v, s.leader (s.term v) = none⟩ s.ballots } :=
    (Step.grant (q := q) v c free eligible).grows h
  -- A node that has not voted in its term has no ballot in it.
  have fresh : ∀ b ∈ s.ballots, b.voter = v → b.term ≠ s.term v := fun b hb hv ht => by
    have := h.ballot_vote b hb (hv ▸ ht)
    rw [hv, free] at this
    cases this
  refine { h with
    backed_ballot := fun b hb => ?_
    ballot_le := fun b hb => ?_
    ballot_vote := fun b hb ht => ?_
    ballot_unique := fun b hb b' hb' hv ht => ?_
    ballot_eligible := fun b hb => ?_
    ballot_timely := fun b hb hl => ?_
    vote_ballot := fun w c' hw => ?_
    elected := fun _ _ hl => h.elected_grows g hl
    sealed_chosen := fun T hT => g.chosen (h.sealed_chosen T hT)
    ack_ballot := fun b hb ht T n ha hT => ?_ }
  · rcases hb with rfl | hb
    · exact h.backed_log v
    · exact h.backed_ballot b hb
  · rcases hb with rfl | hb
    · exact le_rfl
    · exact h.ballot_le b hb
  · rcases hb with rfl | hb
    · simp
    · by_cases hv : b.voter = v
      · exact absurd (hv ▸ ht) (fresh b hb hv)
      · simpa [hv] using h.ballot_vote b hb ht
  · rcases hb with rfl | hb <;> rcases hb' with rfl | hb'
    · exact ⟨rfl, rfl⟩
    · exact absurd ht.symm (fresh b' hb' hv.symm)
    · exact absurd ht (fresh b hb hv)
    · exact h.ballot_unique b hb b' hb' hv ht
  · rcases hb with rfl | hb
    · exact eligible.imp id g.eligible
    · exact (h.ballot_eligible b hb).imp id g.eligible
  · rcases hb with rfl | hb
    · exact hl
    · exact h.ballot_timely b hb hl
  · by_cases hv : w = v
    · subst hv
      simp only [update_self, Option.some.injEq] at hw
      exact ⟨s.log w, _, Set.mem_insert _ _, rfl, rfl, hw, rfl⟩
    · simp only [update_of_ne hv] at hw
      obtain ⟨L, hL⟩ := h.vote_ballot w c' hw
      exact ⟨L, g.voted hL⟩
  · rcases hb with rfl | hb
    · -- A timely vote: no leader of its own term can have lost the acknowledged prefix.
      rcases h.ack_log v T n ha with ⟨T', h1, h2, h3, h4⟩ | hp
      · refine Or.inl ⟨T', h1, ?_, h3, h4⟩
        have : T' ≠ s.term v := fun he => h3 (he ▸ ht)
        simp only
        omega
      · exact Or.inr hp
    · exact h.ack_ballot b hb ht T n ha hT

theorem Inv.elect (h : Inv q s) {c : N} {Q : Finset N} (free : s.leader (s.term c) = none) (pos : 0 < s.term c)
    (own : Voted s c (s.term c) c (s.log c)) (quorum : q.IsQuorum Q)
    (votes : ∀ v ∈ Q, ∃ L, Voted s v (s.term c) c L) :
    Inv q { s with
      leader := update s.leader (s.term c) (some c)
      base := update s.base (s.term c) (s.log c)
      book := update s.book (s.term c) (s.log c) } := by
  have g : Grows s { s with
      leader := update s.leader (s.term c) (some c)
      base := update s.base (s.term c) (s.log c)
      book := update s.book (s.term c) (s.log c) } := (Step.elect c Q free pos own quorum votes).grows h
  have hempty := h.unled _ free
  -- No entry of the new term exists yet.
  have hlt : ∀ e ∈ s.log c, term e < s.term c := fun e he => by
    have hne : term e ≠ s.term c := fun ht => by
      have := (h.backed_log c).mem he
      rw [ht, hempty.1] at this
      simp at this
    have := h.log_le c e he
    omega
  refine {
    base_book := fun T => ?_
    base_lt := fun T e he => ?_
    book_new := fun T P e hP => ?_
    unled := fun T hT => ?_
    led_pos := fun T hT => ?_
    backed_log := fun w => (h.backed_log w).grows g
    backed_book := fun T => ?_
    backed_ballot := fun b hb => (h.backed_ballot b hb).grows g
    log_le := h.log_le
    ballot_le := h.ballot_le
    ballot_vote := h.ballot_vote
    ballot_unique := h.ballot_unique
    ballot_eligible := h.ballot_eligible
    ballot_timely := fun b hb hl => ?_
    vote_ballot := h.vote_ballot
    elected := fun T c' hl => ?_
    ack_le := fun w T n ha => ?_
    ack_log := fun w T n ha => ?_
    ack_ballot := fun b hb ht T n ha hT => ?_
    commit_le := h.commit_le
    commit_log := fun w => h.committed_grows g (h.commit_log w) le_rfl
    sealed_chosen := fun T hT => g.chosen (h.sealed_chosen T hT)
    sealed_le := fun T c' hl => ?_ }
  · by_cases hT : T = s.term c
    · subst hT
      simp
    · simpa [hT] using h.base_book T
  · by_cases hT : T = s.term c
    · subst hT
      simp only [update_self] at he
      exact hlt e he
    · simp only [update_of_ne hT] at he
      exact h.base_lt T e he
  · by_cases hT : T = s.term c
    · subst hT
      simp only [update_self] at hP ⊢
      exact Or.inr hP
    · simp only [update_of_ne hT] at hP ⊢
      exact h.book_new T P e hP
  · by_cases h' : T = s.term c
    · subst h'
      simp at hT
    · simp only [update_of_ne h'] at hT ⊢
      exact h.unled T hT
  · by_cases h' : T = s.term c
    · exact h' ▸ pos
    · simp only [update_of_ne h'] at hT
      exact h.led_pos T hT
  · by_cases hT : T = s.term c
    · subst hT
      simp only [update_self]
      exact (h.backed_log c).grows g
    · simp only [update_of_ne hT]
      exact (h.backed_book T).grows g
  · by_cases h' : b.term = s.term c
    · simp [h'] at hl
    · simp only [update_of_ne h'] at hl
      exact h.ballot_timely b hb hl
  · by_cases hT : T = s.term c
    · subst hT
      simp only [update_self, Option.some.injEq] at hl
      subst hl
      refine ⟨by simp only [update_self]; exact own, Q, quorum, fun v hv => ?_⟩
      obtain ⟨L, b, hb, rfl, hbt, hbc, rfl⟩ := votes v hv
      refine ⟨b, hb, rfl, hbt, hbc, h.ballot_timely b hb (hbt ▸ free), ?_⟩
      obtain ⟨b₀, hb₀, h1, h2, h3, h4⟩ := own
      have same : ∀ {C}, Voted s c (s.term c) c C → C = s.log c := by
        rintro C ⟨b₁, hb₁, k1, k2, k3, rfl⟩
        rw [← h4]
        exact (h.ballot_unique b₁ hb₁ b₀ hb₀ (k1.trans h1.symm) (k2.trans h2.symm)).2
      simp only [update_self]
      rcases h.ballot_eligible b hb with hself | ⟨C, hC, hup⟩
      · have : b.log = s.log c := same ⟨b, hb, by rw [← hself, hbc], hbt, hbc, rfl⟩
        rw [this]
        exact UpToDate.refl _
      · rw [hbc, hbt] at hC
        rw [← same hC]
        exact hup
    · simp only [update_of_ne hT] at hl
      exact h.elected_grows g hl
  · obtain ⟨h1, h2, h3⟩ := h.ack_le w T n ha
    exact ⟨g.led h1, h2, h3.trans (g.book T).length_le⟩
  · have hle := (h.ack_le w T n ha).2.2
    rw [g.take_book hle]
    exact (h.ack_log w T n ha).imp (fun hl => hl.grows g hle le_rfl) id
  · have hle := (h.ack_le _ T n ha).2.2
    rw [g.take_book hle]
    exact (h.ack_ballot b hb ht T n ha hT).imp (fun hl => hl.grows g hle le_rfl) id
  · by_cases hT : T = s.term c
    · subst hT
      simp [hempty.2]
    · simp only [update_of_ne hT] at hl
      exact h.sealed_le T c' hl

theorem Inv.extend (h : Inv q s) {e : E} (led : s.leader (term e) ≠ none) :
    Inv q { s with book := update s.book (term e) (s.book (term e) ++ [e]) } := by
  have g : Grows s { s with book := update s.book (term e) (s.book (term e) ++ [e]) } := (Step.extend e led).grows h
  -- A prefix of the longer book is one of the old book, or ends in the new entry.
  have key : ∀ {T : Nat} {P : List E} {x : E}, P ++ [x] <+: update s.book (term e) (s.book (term e) ++ [e]) T →
      P ++ [x] <+: s.book T ∨ (T = term e ∧ P = s.book T ∧ x = e) := by
    intro T P x hP
    by_cases hT : T = term e
    · subst hT
      rw [update_self, List.prefix_concat_iff] at hP
      rcases hP with hP | hP
      · obtain ⟨h1, h2⟩ := List.append_inj' hP rfl
        simp only [List.cons.injEq, and_true] at h2
        exact Or.inr ⟨rfl, h1, h2⟩
      · exact Or.inl hP
    · rw [update_of_ne hT] at hP
      exact Or.inl hP
  refine { h with
    base_book := fun T => (h.base_book T).trans (g.book T)
    book_new := fun T P x hP => ?_
    unled := fun T hT => ?_
    backed_log := fun w => (h.backed_log w).grows g
    backed_book := fun T P x hP => ?_
    backed_ballot := fun b hb => (h.backed_ballot b hb).grows g
    elected := fun _ _ hl => h.elected_grows g hl
    ack_le := fun w T n ha => ?_
    ack_log := fun w T n ha => ?_
    ack_ballot := fun b hb ht T n ha hT => ?_
    commit_log := fun w => h.committed_grows g (h.commit_log w) le_rfl
    sealed_chosen := fun T hT => g.chosen (h.sealed_chosen T hT) }
  · rcases key hP with hP | ⟨hT, -, rfl⟩
    · exact h.book_new T P x hP
    · exact Or.inl hT.symm
  · have hne : T ≠ term e := fun he => led (he ▸ hT)
    simpa [hne] using h.unled T hT
  · rcases key hP with hP | ⟨hT, rfl, rfl⟩
    · exact (h.backed_book T P x hP).trans (g.book _)
    · subst hT
      simp
  · obtain ⟨h1, h2, h3⟩ := h.ack_le w T n ha
    exact ⟨h1, h2, h3.trans (g.book T).length_le⟩
  · have hle := (h.ack_le w T n ha).2.2
    rw [g.take_book hle]
    exact (h.ack_log w T n ha).imp (fun hl => hl.grows g hle le_rfl) id
  · have hle := (h.ack_le _ T n ha).2.2
    rw [g.take_book hle]
    exact (h.ack_ballot b hb ht T n ha hT).imp (fun hl => hl.grows g hle le_rfl) id

theorem Inv.adopt (h : Inv q s) {v : N} {L : List E} (led : s.leader (s.term v) ≠ none)
    (sub : L <+: s.book (s.term v)) (keeps : Keeps (s.book (s.term v)) (s.log v) L) :
    Inv q { s with log := update s.log v L } := by
  have g : Grows s { s with log := update s.log v L } := (Step.adopt (q := q) v L led sub keeps).grows h
  -- The committed prefix is in the book, so it is kept.
  have hcom : (s.log v).take (s.commit v) <+: L :=
    keeps _ (h.committed_book (h.commit_log v) led) (List.take_prefix _ _)
  have hlen : s.commit v ≤ L.length := by
    have := hcom.length_le
    rwa [List.length_take, Nat.min_eq_left (h.commit_le v)] at this
  refine { h with
    backed_log := fun w => ?_
    log_le := fun w e he => ?_
    elected := fun _ _ hl => h.elected_grows g hl
    sealed_chosen := fun T hT => g.chosen (h.sealed_chosen T hT)
    ack_log := fun w T n ha => ?_
    commit_le := fun w => ?_
    commit_log := fun w => ?_ }
  · by_cases hw : w = v
    · subst hw
      simp only [update_self]
      exact (h.backed_book _).of_sub sub
    · simp only [update_of_ne hw]
      exact h.backed_log w
  · by_cases hw : w = v
    · subst hw
      simp only [update_self] at he
      exact h.book_le (sub.mem he)
    · simp only [update_of_ne hw] at he
      exact h.log_le w e he
  · by_cases hw : w = v
    · subst hw
      simp only [update_self]
      rcases h.ack_log w T n ha with hl | hp
      · exact Or.inl hl
      · obtain ⟨-, hT, -⟩ := h.ack_le w T n ha
        rcases Nat.lt_or_ge T (s.term w) with hlt | hge
        · -- The leader of the present term was elected with the prefix, or it is lost.
          by_cases hb : (s.book T).take n <+: s.base (s.term w)
          · exact Or.inr (keeps _ (hb.trans (h.base_book _)) hp)
          · exact Or.inl ⟨s.term w, hlt, le_rfl, led, hb⟩
        · obtain rfl : T = s.term w := le_antisymm hT hge
          exact Or.inr (keeps _ (List.take_prefix _ _) hp)
    · simp only [update_of_ne hw]
      exact h.ack_log w T n ha
  · by_cases hw : w = v
    · subst hw
      simpa using hlen
    · simpa [hw] using h.commit_le w
  · by_cases hw : w = v
    · subst hw
      have : L.take (s.commit w) = (s.log w).take (s.commit w) := by
        rw [List.prefix_iff_eq_take] at hcom
        rw [hcom, List.length_take, Nat.min_eq_left (h.commit_le w)]
      simp only [update_self, this]
      exact h.commit_log w
    · simp only [update_of_ne hw]
      exact h.commit_log w

theorem Inv.ack (h : Inv q s) {v : N} {n : Nat} (led : s.leader (s.term v) ≠ none)
    (length : n ≤ (s.book (s.term v)).length) (held : (s.book (s.term v)).take n <+: s.log v) :
    Inv q { s with acks := s.acks ∪ { x | ∃ k ≤ n, x = (v, s.term v, k) } } := by
  have g : Grows s { s with acks := s.acks ∪ { x | ∃ k ≤ n, x = (v, s.term v, k) } } :=
    (Step.ack (q := q) v n led length held).grows h
  refine { h with
    elected := fun _ _ hl => h.elected_grows g hl
    ack_le := fun w T m ha => ?_
    ack_log := fun w T m ha => ?_
    ack_ballot := fun b hb ht T m ha hT => ?_
    sealed_chosen := fun T hT => g.chosen (h.sealed_chosen T hT) }
  · rcases ha with ha | ⟨k, hk, ha⟩
    · exact h.ack_le w T m ha
    · cases ha
      exact ⟨led, le_rfl, hk.trans length⟩
  · rcases ha with ha | ⟨k, hk, ha⟩
    · exact h.ack_log w T m ha
    · cases ha
      exact Or.inr ((List.take_prefix_take_left hk).trans held)
  · rcases ha with ha | ⟨k, -, ha⟩
    · exact h.ack_ballot b hb ht T m ha hT
    · have hle := h.ballot_le b hb
      simp only [Prod.mk.injEq] at ha
      rw [ha.1] at hle
      omega

theorem Inv.seal (h : Inv q s) {c : N} {n : Nat} (led : s.leader (s.term c) = some c) (later : s.commit c ≤ n)
    (held : (s.book (s.term c)).take n <+: s.log c) (chosen : Chosen q s (s.term c) n) :
    Inv q { s with commit := update s.commit c n, sealed := update s.sealed (s.term c) n } := by
  have st : Step q s { s with commit := update s.commit c n, sealed := update s.sealed (s.term c) n } :=
    Step.seal c n led later held chosen
  have g := st.grows h
  have hlen : n ≤ (s.log c).length := by
    have := held.length_le
    rwa [List.length_take, Nat.min_eq_left chosen.length] at this
  refine { h with
    unled := fun T hT => ?_
    elected := fun _ _ hl => h.elected_grows g hl
    commit_le := fun w => ?_
    commit_log := fun w => ?_
    sealed_chosen := fun T hT => ?_
    sealed_le := fun T c' hl => ?_ }
  · have hne : T ≠ s.term c := fun he => by simp [he, led] at hT
    simpa [hne] using h.unled T hT
  · by_cases hw : w = c
    · subst hw
      simpa using hlen
    · simpa [hw] using h.commit_le w
  · by_cases hw : w = c
    · subst hw
      refine ⟨s.term w, le_rfl, ?_⟩
      simp only [update_self]
      rw [List.prefix_iff_eq_take] at held
      rw [held, List.length_take, Nat.min_eq_left chosen.length]
    · simp only [update_of_ne hw]
      exact h.committed_grows g (h.commit_log w) le_rfl
  · by_cases hT' : T = s.term c
    · subst hT'
      simp only [update_self]
      exact g.chosen chosen
    · simp only [update_of_ne hT'] at hT ⊢
      exact g.chosen (h.sealed_chosen T hT)
  · by_cases hT : T = s.term c
    · subst hT
      rw [led] at hl
      cases hl
      simp
    · simp only [update_of_ne hT]
      exact (h.sealed_le T c' hl).trans (g.commit c')

theorem Inv.learn (h : Inv q s) {v : N} {n : Nat} (later : s.commit v ≤ n) (length : n ≤ (s.log v).length)
    (committed : Committed s (s.term v) ((s.log v).take n)) : Inv q { s with commit := update s.commit v n } := by
  have g : Grows s { s with commit := update s.commit v n } := (Step.learn (q := q) v n later length committed).grows h
  refine { h with
    elected := fun _ _ hl => h.elected_grows g hl
    sealed_chosen := fun T hT => g.chosen (h.sealed_chosen T hT)
    commit_le := fun w => ?_
    commit_log := fun w => ?_
    sealed_le := fun T c hl => (h.sealed_le T c hl).trans (g.commit c) }
  · by_cases hw : w = v
    · subst hw
      simpa using length
    · simpa [hw] using h.commit_le w
  · by_cases hw : w = v
    · subst hw
      simp only [update_self]
      exact committed
    · simp only [update_of_ne hw]
      exact h.commit_log w

theorem Step.inv (h : Inv q s) (st : Step q s t) : Inv q t := by
  cases st with
  | raise v T newer => exact h.raise newer
  | grant v c free eligible => exact h.grant free eligible
  | elect c Q free pos own quorum votes => exact h.elect free pos own quorum votes
  | extend e led => exact h.extend led
  | adopt v L led sub keeps => exact h.adopt led sub keeps
  | ack v n led length held => exact h.ack led length held
  | «seal» c n led later held chosen => exact h.seal led later held chosen
  | learn v n later length committed => exact h.learn later length committed

end Steps

end Lib.Ledger
