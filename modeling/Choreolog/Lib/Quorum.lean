import Mathlib

/-! Quorums: sets of members of which any two meet. -/

namespace Lib

/-- A family of sets of which any two have a common member. -/
structure Quorums (N : Type) where
  IsQuorum : Finset N → Prop
  meet : ∀ {P Q : Finset N}, IsQuorum P → IsQuorum Q → ∃ v, v ∈ P ∧ v ∈ Q

/-- The majorities of a finite set of members. -/
def majorities {N : Type} [DecidableEq N] (members : Finset N) : Quorums N where
  IsQuorum Q := Q ⊆ members ∧ members.card < 2 * Q.card
  meet {P Q} hP hQ := by
    by_contra h
    have hdisj : Disjoint P Q := Finset.disjoint_left.mpr fun v hv hv' => h ⟨v, hv, hv'⟩
    have hcard := Finset.card_le_card (Finset.union_subset hP.1 hQ.1)
    rw [Finset.card_union_of_disjoint hdisj] at hcard
    omega

end Lib
