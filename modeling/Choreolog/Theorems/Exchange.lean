import Choreolog.Theorems.Validity

/-! # What a follower does with a request

A live node with no write outstanding takes its step, and a request that is well formed passes the follower's checks. -/

namespace Choreolog.Raft
open Lib

/-- What a step of a live node with no write outstanding computes. -/
theorem step_ready {s : Node} (sound : WellFormed s.durable) (live : s.halted = false) (idle : s.pending = none)
    (config : Config) (input : Input) :
    step config s input = match input with
      | .persistCompleted token => persistCompleted config s token
      | .persistFailed token => persistFailed s token
      | .restart => restart config s
      | .cancelRead context => cancelRead s context
      | .beginRead context => beginRead config s context
      | input => handle config s input := by
  have hready : ¬(s.halted = true ∨ s.pending.isSome = true) := by simp [live, idle]
  unfold step
  rw [if_neg (by simp [sound.valid, idle])]
  cases input <;> first | rfl | exact if_neg hready

/-- The follower steps down, and answers after the write it needs, if it needs one. -/
def answer (s : Node) (full : Bool) (d' : Durable) (o : Outbound) (kind : PersistKind) : Node × Effects :=
  let e := { (stepDown s {}).2 with capacityExhausted := full }
  if d' ≠ s.durable then beginWrite (stepDown s {}).1 e d' [o] [] false [] kind
  else ((stepDown s {}).1, { e with sendNow := [o] })

/-- A request that passes the follower's checks. -/
structure Proper (m : AppendEntries) : Prop where
  term : m.term ≠ 0
  fits : m.prevIndex + m.entries.length < maximum
  prevTerm : m.prevTerm ≤ m.term
  boundary : m.prevIndex = 0 ↔ m.prevTerm = 0
  ordered : entriesOrdered m.term m.prevTerm m.entries = true

theorem Proper.checks {m : AppendEntries} (proper : Proper m) :
    ¬((m.term == 0 || m.prevIndex == maximum || decide (maximum - 1 - m.prevIndex < m.entries.length) ||
      decide (m.term < m.prevTerm) || ((m.prevIndex == 0) != (m.prevTerm == 0))) = true) := by
  have hterm := proper.term
  have hfits := proper.fits
  have hprev := proper.prevTerm
  have hzero : (m.prevIndex == 0) = (m.prevTerm == 0) := by
    rw [Bool.eq_iff_iff, beq_iff_eq, beq_iff_eq]
    exact proper.boundary
  simp only [Bool.or_eq_true, beq_iff_eq, decide_eq_true_eq, bne_iff_ne, ne_eq, hzero, not_true_eq_false, or_false]
  omega

end Choreolog.Raft
