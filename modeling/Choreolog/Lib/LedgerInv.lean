import Choreolog.Lib.Ledger

/-! # Replicated ledgers: the invariant

Every entry of every log stands in the book of its own term, under the same entries (`Backed`): this is
log matching. What a node acknowledged in a term it keeps, unless a later leader up to its present term
was elected without it (`Lost`); what it held when it voted is on its ballot. Leader completeness follows
from these by induction on the term of the later leader (`Inv.chosen_base`). -/

namespace Lib.Ledger
open Stamped Function

section Defs
variable {N E : Type} [Stamped E]

/-- Every entry of `L` stands in the book of its term, under the entries that precede it in `L`. -/
def Backed (s : State N E) (L : List E) : Prop := ∀ P e, P ++ [e] <+: L → P ++ [e] <+: s.book (term e)

/-- A leader of a term after `T` and up to `U` was elected without the first `n` entries of the book of `T`. -/
def Lost (s : State N E) (T n U : Nat) : Prop :=
  ∃ T', T < T' ∧ T' ≤ U ∧ s.leader T' ≠ none ∧ ¬(s.book T).take n <+: s.base T'

/-- The election record of a term. -/
structure Elected (q : Quorums N) (s : State N E) (T : Nat) (c : N) : Prop where
  own : Voted s c T c (s.base T)
  quorum : ∃ Q, q.IsQuorum Q ∧ ∀ v ∈ Q, ∃ b ∈ s.ballots,
    b.voter = v ∧ b.term = T ∧ b.candidate = c ∧ b.timely ∧ UpToDate (s.base T) b.log

structure Inv (q : Quorums N) (s : State N E) : Prop where
  base_book : ∀ T, s.base T <+: s.book T
  base_lt : ∀ T, ∀ e ∈ s.base T, term e < T
  book_new : ∀ T P e, P ++ [e] <+: s.book T → term e = T ∨ P ++ [e] <+: s.base T
  unled : ∀ T, s.leader T = none → s.book T = [] ∧ s.sealed T = 0
  led_pos : ∀ T, s.leader T ≠ none → 0 < T
  backed_log : ∀ v, Backed s (s.log v)
  backed_book : ∀ T, Backed s (s.book T)
  backed_ballot : ∀ b ∈ s.ballots, Backed s b.log
  log_le : ∀ v, ∀ e ∈ s.log v, term e ≤ s.term v
  ballot_le : ∀ b ∈ s.ballots, b.term ≤ s.term b.voter
  ballot_vote : ∀ b ∈ s.ballots, b.term = s.term b.voter → s.vote b.voter = some b.candidate
  ballot_unique : ∀ b ∈ s.ballots, ∀ b' ∈ s.ballots, b.voter = b'.voter → b.term = b'.term →
    b.candidate = b'.candidate ∧ b.log = b'.log
  ballot_eligible : ∀ b ∈ s.ballots, b.candidate = b.voter ∨ Eligible s b.candidate b.term b.log
  ballot_timely : ∀ b ∈ s.ballots, s.leader b.term = none → b.timely
  vote_ballot : ∀ v c, s.vote v = some c → ∃ L, Voted s v (s.term v) c L
  elected : ∀ T c, s.leader T = some c → Elected q s T c
  ack_le : ∀ v T n, (v, T, n) ∈ s.acks → s.leader T ≠ none ∧ T ≤ s.term v ∧ n ≤ (s.book T).length
  ack_log : ∀ v T n, (v, T, n) ∈ s.acks → Lost s T n (s.term v) ∨ (s.book T).take n <+: s.log v
  ack_ballot : ∀ b ∈ s.ballots, b.timely → ∀ T n, (b.voter, T, n) ∈ s.acks → T < b.term →
    Lost s T n (b.term - 1) ∨ (s.book T).take n <+: b.log
  commit_le : ∀ v, s.commit v ≤ (s.log v).length
  commit_log : ∀ v, Committed s (s.term v) ((s.log v).take (s.commit v))
  sealed_chosen : ∀ T, 0 < s.sealed T → Chosen q s T (s.sealed T)
  sealed_le : ∀ T c, s.leader T = some c → s.sealed T ≤ s.commit c

end Defs

/-! ### Terms along a book -/

theorem mem_iff_take {E : Type} {e : E} {L : List E} : e ∈ L ↔ ∃ P, P ++ [e] <+: L := by
  constructor
  · intro h
    obtain ⟨P, R, rfl⟩ := List.append_of_mem h
    exact ⟨P, R, by simp⟩
  · rintro ⟨P, R, rfl⟩
    simp

section Terms
variable {N E : Type} [Stamped E] {q : Quorums N} {s : State N E}

theorem lastTerm_append (P : List E) (e : E) : lastTerm (P ++ [e]) = term e := by
  simp [lastTerm]

theorem UpToDate.refl (L : List E) : UpToDate L L := Or.inr ⟨rfl, le_rfl⟩

theorem Inv.book_le (h : Inv q s) {T : Nat} {e : E} (he : e ∈ s.book T) : term e ≤ T := by
  obtain ⟨P, hP⟩ := mem_iff_take.mp he
  rcases h.book_new T P e hP with h' | h'
  · exact h'.le
  · exact (h.base_lt T e (h'.mem (by simp))).le

theorem Inv.led_of_book (h : Inv q s) {T : Nat} (hne : s.book T ≠ []) : s.leader T ≠ none := fun hn =>
  hne (h.unled T hn).1

/-- An entry of a backed log stands in the book of its term. -/
theorem Backed.mem {L : List E} (hL : Backed s L) {e : E} (he : e ∈ L) : e ∈ s.book (term e) := by
  obtain ⟨P, hP⟩ := mem_iff_take.mp he
  exact (hL P e hP).mem (by simp)

theorem Backed.of_sub {L L' : List E} (hL : Backed s L) (h : L' <+: L) : Backed s L' :=
  fun P e hP => hL P e (hP.trans h)

/-- A backed log is a prefix of the book of its last term. -/
theorem Backed.sub_lastTerm {L : List E} (hL : Backed s L) (hne : L ≠ []) : L <+: s.book (lastTerm L) := by
  obtain ⟨P, e, rfl⟩ := (List.eq_nil_or_concat' L).resolve_left hne
  rw [lastTerm_append]
  exact hL P e List.prefix_rfl

/-- The terms of a backed log do not pass its last one. -/
theorem Backed.le_lastTerm (h : Inv q s) {L : List E} (hL : Backed s L) {e : E} (he : e ∈ L) :
    term e ≤ lastTerm L :=
  h.book_le ((hL.sub_lastTerm (List.ne_nil_of_mem he)).mem he)

end Terms

/-! ### Leader completeness -/

section Completeness
variable {N E : Type} [Stamped E] {q : Quorums N} {s : State N E}

/-- A log at least as up to date as one that holds a prefix of the book of `T` down to an entry of `T`
    holds it too, when every leader in between was elected with it. -/
theorem Inv.upToDate_holds (h : Inv q s) {P C L : List E} {e : E} {T : Nat} (hT : 0 < T) (he : term e = T)
    (hP : P ++ [e] <+: s.book T) (hL : Backed s L) (hC : Backed s C) (hPL : P ++ [e] <+: L)
    (hup : UpToDate C L)
    (between : ∀ T', T < T' → T' ≤ lastTerm C → s.leader T' ≠ none → P ++ [e] <+: s.base T') :
    P ++ [e] <+: C := by
  have hLne : L ≠ [] := by
    rintro rfl
    simp at hPL
  have hTL : T ≤ lastTerm L := he ▸ hL.le_lastTerm h (hPL.mem (by simp))
  have hCne : C ≠ [] := by
    rintro rfl
    simp only [UpToDate, lastTerm, List.getLast?_nil, Option.map_none, Option.getD_none] at hup hTL
    omega
  have hCb := hC.sub_lastTerm hCne
  rcases hup with hlt | ⟨heq, hlen⟩
  · -- The candidate's last term is newer: its leader was elected with the prefix.
    have hled : s.leader (lastTerm C) ≠ none :=
      h.led_of_book fun hnil => hCne (List.prefix_nil.mp (hnil ▸ hCb))
    have hPb := (between (lastTerm C) (by omega) le_rfl hled).trans (h.base_book _)
    rcases List.prefix_or_prefix_of_prefix hPb hCb with h' | h'
    · exact h'
    · obtain ⟨C', x, rfl⟩ := (List.eq_nil_or_concat' C).resolve_left hCne
      have hx : x ∈ s.book T := (h'.trans hP).mem (by simp)
      have := h.book_le hx
      rw [lastTerm_append] at hlt
      omega
  · -- The last terms agree: both logs are prefixes of one book.
    have hLb := hL.sub_lastTerm hLne
    rw [← heq] at hLb
    exact hPL.trans (List.prefix_of_prefix_length_le hLb hCb hlen)

/-- Leader completeness: every later leader was elected with what a quorum has acknowledged. -/
theorem Inv.chosen_base (h : Inv q s) {T n : Nat} (hc : Chosen q s T n) :
    ∀ {T' : Nat}, T < T' → s.leader T' ≠ none → (s.book T).take n <+: s.base T' := by
  intro T'
  induction T' using Nat.strong_induction_on with
  | _ T' ih =>
    intro hlt hled
    obtain ⟨c, hl⟩ := Option.ne_none_iff_exists'.mp hled
    have he := h.elected T' c hl
    obtain ⟨Q, hQ, hack⟩ := hc.quorum
    obtain ⟨Q', hQ', hvote⟩ := he.quorum
    obtain ⟨v, hv, hv'⟩ := q.meet hQ hQ'
    obtain ⟨b, hb, rfl, rfl, rfl, htime, hup⟩ := hvote v hv'
    -- The common member voted with what it had acknowledged.
    have hheld : (s.book T).take n <+: b.log := by
      rcases h.ack_ballot b hb htime T n (hack _ hv) hlt with ⟨T₁, h1, h2, h3, h4⟩ | h'
      · exact absurd (ih T₁ (by omega) h1 h3) h4
      · exact h'
    obtain ⟨P, e, hPe, het⟩ := hc.last
    rw [← hPe] at hheld ⊢
    have hPb : P ++ [e] <+: s.book T := hPe ▸ List.take_prefix _ _
    have hbase : Backed s (s.base b.term) := (h.backed_book b.term).of_sub (h.base_book _)
    refine h.upToDate_holds (h.led_pos T hc.elected) het hPb (h.backed_ballot b hb) hbase hheld hup ?_
    intro T₁ h1 h2 h3
    rw [hPe]
    refine ih T₁ ?_ h1 h3
    by_cases hne : s.base b.term = []
    · rw [hne] at h2
      simp only [lastTerm, List.getLast?_nil, Option.map_none, Option.getD_none] at h2
      omega
    · obtain ⟨B, x, hB⟩ := (List.eq_nil_or_concat' _).resolve_left hne
      have := h.base_lt b.term x (by simp [hB])
      rw [hB, lastTerm_append] at h2
      omega

/-- Every later leader was elected with what is committed by a term. -/
theorem Inv.committed_base (h : Inv q s) {T T' : Nat} {P : List E} (hP : Committed s T P) (hlt : T < T')
    (hl : s.leader T' ≠ none) : P <+: s.base T' := by
  obtain ⟨T₀, hT₀, hP⟩ := hP
  by_cases h0 : 0 < s.sealed T₀
  · exact hP.trans (h.chosen_base (h.sealed_chosen T₀ h0) (by omega) hl)
  · have : s.sealed T₀ = 0 := by omega
    rw [this, List.take_zero, List.prefix_nil] at hP
    simp [hP]

/-- What is committed by a term is in the book of that term. -/
theorem Inv.committed_book (h : Inv q s) {T : Nat} {P : List E} (hP : Committed s T P) (hl : s.leader T ≠ none) :
    P <+: s.book T := by
  obtain ⟨T₀, hT₀, hP⟩ := hP
  rcases Nat.lt_or_ge T₀ T with hlt | hge
  · exact (h.committed_base ⟨T₀, le_rfl, hP⟩ hlt hl).trans (h.base_book T)
  · obtain rfl : T₀ = T := le_antisymm hT₀ hge
    exact hP.trans (List.take_prefix _ _)

/-- Committed prefixes are comparable. -/
theorem Inv.committed_comparable (h : Inv q s) {T T' : Nat} {P P' : List E} (hP : Committed s T P)
    (hP' : Committed s T' P') : P <+: P' ∨ P' <+: P := by
  have key : ∀ {T₁ T₂ : Nat} {P₁ P₂ : List E}, T₁ ≤ T₂ → P₁ <+: (s.book T₁).take (s.sealed T₁) →
      P₂ <+: (s.book T₂).take (s.sealed T₂) → P₁ <+: P₂ ∨ P₂ <+: P₁ := by
    intro T₁ T₂ P₁ P₂ hle h₁ h₂
    by_cases hl : s.leader T₂ = none
    · rw [(h.unled T₂ hl).1, List.take_nil, List.prefix_nil] at h₂
      exact Or.inr (by simp [h₂])
    · exact List.prefix_or_prefix_of_prefix (h.committed_book ⟨T₁, hle, h₁⟩ hl)
        (h₂.trans (List.take_prefix _ _))
  obtain ⟨T₁, -, h₁⟩ := hP
  obtain ⟨T₂, -, h₂⟩ := hP'
  rcases Nat.le_total T₁ T₂ with hle | hle
  · exact key hle h₁ h₂
  · exact (key hle h₂ h₁).symm

/-- At most one node is elected in a term. -/
theorem Inv.quorum_unique (h : Inv q s) {T : Nat} {c c' : N} (hl : s.leader T = some c) {Q : Finset N}
    (hQ : q.IsQuorum Q) (hv : ∀ v ∈ Q, ∃ L, Voted s v T c' L) : c' = c := by
  obtain ⟨Q', hQ', hvote⟩ := (h.elected T c hl).quorum
  obtain ⟨v, hv₁, hv₂⟩ := q.meet hQ hQ'
  obtain ⟨L, b, hb, h1, h2, h3, -⟩ := hv v hv₁
  obtain ⟨b', hb', h1', h2', h3', -⟩ := hvote v hv₂
  have := (h.ballot_unique b hb b' hb' (h1.trans h1'.symm) (h2.trans h2'.symm)).1
  exact h3.symm.trans (this.trans h3')

/-- What is committed is in the logs of a quorum. -/
theorem Inv.committed_quorum (h : Inv q s) {T : Nat} {P : List E} (hP : Committed s T P) (some_ : P ≠ []) :
    ∃ Q, q.IsQuorum Q ∧ ∀ v ∈ Q, P <+: s.log v := by
  obtain ⟨T₀, -, hP⟩ := hP
  have hsealed : 0 < s.sealed T₀ := by
    by_contra h0
    rw [Nat.eq_zero_of_not_pos h0, List.take_zero, List.prefix_nil] at hP
    exact some_ hP
  have hc := h.sealed_chosen T₀ hsealed
  obtain ⟨Q, hQ, hack⟩ := hc.quorum
  refine ⟨Q, hQ, fun v hv => hP.trans ?_⟩
  rcases h.ack_log v T₀ _ (hack v hv) with ⟨T', hlt, -, hled, hlost⟩ | hheld
  · exact absurd (h.chosen_base hc hlt hled) hlost
  · exact hheld

end Completeness

end Lib.Ledger
