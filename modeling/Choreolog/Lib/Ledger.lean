import Choreolog.Lib.Quorum

/-! # Replicated ledgers

The abstract protocol behind leader-based log replication, over any node and entry types. Each node has a
term, a vote, a log and a commit index. Besides, the state keeps what elections and replication have
done so far: the leader of each term, the log it was elected with (`base`), everything it has written in
its term (`book`), the length it has committed (`sealed`), the votes that were cast with the log of the
voter (`ballots`), and the prefixes of a book that a node held during its term (`acks`).

Nothing is compacted here and nothing is in flight: a node moves by single durable updates. -/

namespace Lib

/-- Entries that carry the term in which they were written. -/
class Stamped (E : Type) where
  term : E → Nat

namespace Ledger
open Stamped Function

variable {N E : Type}

/-- The term of the last entry, `0` for an empty log. -/
def lastTerm [Stamped E] (L : List E) : Nat := (L.getLast?.map term).getD 0

/-- `C` is at least as up to date as `L`. -/
def UpToDate [Stamped E] (C L : List E) : Prop :=
  lastTerm L < lastTerm C ∨ (lastTerm C = lastTerm L ∧ L.length ≤ C.length)

/-- A vote, with the log that the voter had then. It is timely when its term had no leader yet. -/
structure Ballot (N E : Type) where
  voter : N
  term : Nat
  candidate : N
  log : List E
  timely : Prop

structure State (N E : Type) where
  term : N → Nat
  vote : N → Option N
  log : N → List E
  commit : N → Nat
  leader : Nat → Option N
  base : Nat → List E
  book : Nat → List E
  sealed : Nat → Nat
  ballots : Set (Ballot N E)
  acks : Set (N × Nat × Nat)

/-- No node has moved yet. -/
def init : State N E where
  term _ := 0
  vote _ := none
  log _ := []
  commit _ := 0
  leader _ := none
  base _ := []
  book _ := []
  sealed _ := 0
  ballots := ∅
  acks := ∅

/-- A ballot of voter `v` for candidate `c` in term `T`. -/
def Voted (s : State N E) (v : N) (T : Nat) (c : N) (L : List E) : Prop :=
  ∃ b ∈ s.ballots, b.voter = v ∧ b.term = T ∧ b.candidate = c ∧ b.log = L

/-- Candidate `c` asks for votes in term `T` with a log at least as up to date as `L`. -/
def Eligible [Stamped E] (s : State N E) (c : N) (T : Nat) (L : List E) : Prop :=
  ∃ C, Voted s c T c C ∧ UpToDate C L

/-- `L` keeps all that the old log `O` shares with the book `B`. -/
def Keeps (B O L : List E) : Prop := ∀ P, P <+: B → P <+: O → P <+: L

/-- The committed prefixes as known in term `T`. -/
def Committed (s : State N E) (T : Nat) (P : List E) : Prop :=
  ∃ T₀ ≤ T, P <+: (s.book T₀).take (s.sealed T₀)

/-- A quorum held the first `n` entries of the book of `T` in that term, the last of them of term `T`. -/
structure Chosen [Stamped E] (q : Quorums N) (s : State N E) (T n : Nat) : Prop where
  elected : s.leader T ≠ none
  last : ∃ P e, P ++ [e] = (s.book T).take n ∧ term e = T
  length : n ≤ (s.book T).length
  quorum : ∃ Q, q.IsQuorum Q ∧ ∀ v ∈ Q, (v, T, n) ∈ s.acks

/-! ### What never goes back -/

/-- What a step keeps of all the nodes, terms and records. -/
structure Grows (s t : State N E) : Prop where
  term : ∀ v, s.term v ≤ t.term v
  commit : ∀ v, s.commit v ≤ t.commit v
  leader : ∀ {T c}, s.leader T = some c → t.leader T = some c
  base : ∀ {T}, s.leader T ≠ none → t.base T = s.base T
  book : ∀ T, s.book T <+: t.book T
  sealed : ∀ T, s.sealed T ≤ t.sealed T
  ballots : s.ballots ⊆ t.ballots
  acks : s.acks ⊆ t.acks

namespace Grows
variable {s t u : State N E}

theorem refl (s : State N E) : Grows s s :=
  ⟨fun _ => le_rfl, fun _ => le_rfl, id, fun _ => rfl, fun _ => List.prefix_rfl, fun _ => le_rfl, subset_rfl, subset_rfl⟩

theorem led (g : Grows s t) {T : Nat} (h : s.leader T ≠ none) : t.leader T ≠ none := by
  obtain ⟨c, hc⟩ := Option.ne_none_iff_exists'.mp h
  rw [g.leader hc]
  simp

theorem trans (g : Grows s t) (g' : Grows t u) : Grows s u where
  term v := (g.term v).trans (g'.term v)
  commit v := (g.commit v).trans (g'.commit v)
  leader h := g'.leader (g.leader h)
  base h := (g'.base (g.led h)).trans (g.base h)
  book T := (g.book T).trans (g'.book T)
  sealed T := (g.sealed T).trans (g'.sealed T)
  ballots := g.ballots.trans g'.ballots
  acks := g.acks.trans g'.acks

theorem voted (g : Grows s t) {v c : N} {T : Nat} {L : List E} (h : Voted s v T c L) : Voted t v T c L := by
  obtain ⟨b, hb, h⟩ := h
  exact ⟨b, g.ballots hb, h⟩

theorem eligible [Stamped E] (g : Grows s t) {c : N} {T : Nat} {L : List E} (h : Eligible s c T L) : Eligible t c T L := by
  obtain ⟨C, hC, h⟩ := h
  exact ⟨C, g.voted hC, h⟩

theorem take_book (g : Grows s t) {T n : Nat} (h : n ≤ (s.book T).length) :
    (t.book T).take n = (s.book T).take n := by
  obtain ⟨R, hR⟩ := g.book T
  rw [← hR, List.take_append_of_le_length h]

theorem chosen [Stamped E] {q : Quorums N} (g : Grows s t) {T n : Nat} (h : Chosen q s T n) : Chosen q t T n where
  elected := g.led h.elected
  last := by
    rw [g.take_book h.length]
    exact h.last
  length := h.length.trans (g.book T).length_le
  quorum := by
    obtain ⟨Q, hQ, hv⟩ := h.quorum
    exact ⟨Q, hQ, fun v hv' => g.acks (hv v hv')⟩

end Grows

/-! ### Updates -/

/-- The durable updates of the protocol. -/
inductive Step [Stamped E] [DecidableEq N] (q : Quorums N) : State N E → State N E → Prop
  /-- `v` enters a newer term and has not voted in it. -/
  | raise {s : State N E} (v : N) (T : Nat) (newer : s.term v < T) :
      Step q s { s with term := update s.term v T, vote := update s.vote v none }
  /-- `v` votes for itself, or for a candidate whose log is up to date. -/
  | grant {s : State N E} (v c : N) (free : s.vote v = none)
      (eligible : c = v ∨ Eligible s c (s.term v) (s.log v)) :
      Step q s { s with
        vote := update s.vote v (some c)
        ballots := insert ⟨v, s.term v, c, s.log v, s.leader (s.term v) = none⟩ s.ballots }
  /-- `c` leads its term with the votes of a quorum. -/
  | elect {s : State N E} (c : N) (Q : Finset N) (free : s.leader (s.term c) = none) (pos : 0 < s.term c)
      (own : Voted s c (s.term c) c (s.log c)) (quorum : q.IsQuorum Q)
      (votes : ∀ v ∈ Q, ∃ L, Voted s v (s.term c) c L) :
      Step q s { s with
        leader := update s.leader (s.term c) (some c)
        base := update s.base (s.term c) (s.log c)
        book := update s.book (s.term c) (s.log c) }
  /-- The leader of a term writes an entry of that term. -/
  | extend {s : State N E} (e : E) (led : s.leader (term e) ≠ none) :
      Step q s { s with book := update s.book (term e) (s.book (term e) ++ [e]) }
  /-- `v` takes a prefix of the book of its term, and keeps what it shares with that book. -/
  | adopt {s : State N E} (v : N) (L : List E) (led : s.leader (s.term v) ≠ none)
      (sub : L <+: s.book (s.term v)) (keeps : Keeps (s.book (s.term v)) (s.log v) L) :
      Step q s { s with log := update s.log v L }
  /-- `v` holds the first `n` entries of the book of its term, and so any fewer of them. -/
  | ack {s : State N E} (v : N) (n : Nat) (led : s.leader (s.term v) ≠ none)
      (length : n ≤ (s.book (s.term v)).length) (held : (s.book (s.term v)).take n <+: s.log v) :
      Step q s { s with acks := s.acks ∪ { x | ∃ k ≤ n, x = (v, s.term v, k) } }
  /-- The leader `c` commits what a quorum holds, down to an entry of its own term. -/
  | seal {s : State N E} (c : N) (n : Nat) (led : s.leader (s.term c) = some c) (later : s.commit c ≤ n)
      (held : (s.book (s.term c)).take n <+: s.log c) (chosen : Chosen q s (s.term c) n) :
      Step q s { s with commit := update s.commit c n, sealed := update s.sealed (s.term c) n }
  /-- `v` learns that a prefix of its log is committed. -/
  | learn {s : State N E} (v : N) (n : Nat) (later : s.commit v ≤ n) (length : n ≤ (s.log v).length)
      (committed : Committed s (s.term v) ((s.log v).take n)) :
      Step q s { s with commit := update s.commit v n }

end Ledger

end Lib
