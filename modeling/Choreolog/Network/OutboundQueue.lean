import Mathlib

/-! # Outbound queues

The queues of a node's sessions share one budget. Every queued frame holds a reservation, and so does every copy of its
buffer that a write handler took from the front: the last owner of a reservation gives its bytes back to the budget,
which may be after the queue is gone.

An unsigned subtraction that would wrap has no result here. -/

namespace Choreolog.Network

structure QueueBudget where
  bytes : Nat := 0
  clientBytes : Nat := 0

def globalBytes : Nat := 32 * 2 ^ 20

def clientBytes : Nat := 24 * 2 ^ 20

def sessionBytes : Nat := 2 * 2 ^ 20

/-- A reservation with the number of its owners. -/
structure Reservation where
  size : Nat
  peer : Bool
  uses : Nat

/-- The budget with all reservations ever made. One without owners was destroyed. -/
structure Reservations where
  budget : QueueBudget := {}
  made : List Reservation := []

def minus (a b : Nat) : Option Nat := if b ≤ a then some (a - b) else none

/-- `size > limit - used` -/
def exceeds (limit used size : Nat) : Option Bool := (minus limit used).map fun room => decide (room < size)

/-- The destructor of a reservation. -/
def Reservation.destroy (x : Reservation) (budget : QueueBudget) : Option QueueBudget := do
  let bytes ← minus budget.bytes x.size
  if x.peer then return { budget with bytes }
  else
    let client ← minus budget.clientBytes x.size
    return ⟨bytes, client⟩

namespace Reservations

/-- The constructor of a reservation. -/
def reserve (l : Reservations) (size : Nat) (peer : Bool) : Reservations :=
  { budget := {
      bytes := l.budget.bytes + size
      clientBytes := if peer then l.budget.clientBytes else l.budget.clientBytes + size }
    made := l.made ++ [⟨size, peer, 1⟩] }

/-- The number of owners changes. -/
def recount (l : Reservations) (r : Nat) (f : Nat → Nat) : Reservations :=
  { l with made := l.made.modify r fun x => { x with uses := f x.uses } }

/-- One more owner. -/
def share (l : Reservations) (r : Nat) : Reservations := l.recount r (· + 1)

/-- One owner less; the last one destroys the reservation. -/
def release (l : Reservations) (r : Nat) : Option Reservations := do
  let x ← l.made[r]?
  if x.uses = 1 then
    let budget ← x.destroy l.budget
    return { l.recount r (· - 1) with budget }
  else return l.recount r (· - 1)

/-- The size of the buffer. -/
def size (l : Reservations) (r : Nat) : Nat := (l.made[r]?.map Reservation.size).getD 0

end Reservations

abbrev RetryKey := UInt16 × UInt64

structure Frame where
  bytes : Nat
  retry : Option RetryKey

structure OutboundQueue where
  bytes : Nat := 0
  frames : List Frame := []

/-- The queues of a budget, and the buffers that were taken from them. -/
structure Outbound where
  ledger : Reservations := {}
  queues : List OutboundQueue := []
  taken : List Nat := []

namespace Outbound

/-- Whether there is no room for a frame. -/
def refuses (s : Outbound) (q : OutboundQueue) (size : Nat) (peer : Bool) : Option Bool :=
  if 64 ≤ q.frames.length then some true
  else (exceeds sessionBytes q.bytes size).bind fun
    | true => some true
    | false => (exceeds globalBytes s.ledger.budget.bytes size).bind fun
      | true => some true
      | false => if peer then some false else exceeds clientBytes s.ledger.budget.clientBytes size

def push (s : Outbound) (i : Nat) (size : Nat) (peer : Bool) (retry : Option RetryKey) : Option (Bool × Outbound) := do
  let q ← s.queues[i]?
  if retry.isSome ∧ q.frames.any (·.retry == retry) then return (true, s)
  else if ← s.refuses q size peer then return (false, s)
  else return (true, { s with
    ledger := s.ledger.reserve size peer
    queues := s.queues.set i ⟨q.bytes + size, q.frames ++ [⟨s.ledger.made.length, retry⟩]⟩ })

/-- The caller keeps the buffer. -/
def front (s : Outbound) (i : Nat) : Option Outbound := do
  let q ← s.queues[i]?
  let frame ← q.frames.head?
  return { s with ledger := s.ledger.share frame.bytes, taken := frame.bytes :: s.taken }

/-- A taken buffer goes away. -/
def drop (s : Outbound) (r : Nat) : Option Outbound := do
  let ledger ← s.ledger.release r
  return { s with ledger, taken := s.taken.erase r }

def pop (s : Outbound) (i : Nat) : Option Outbound := do
  let q ← s.queues[i]?
  let frame ← q.frames.head?
  let bytes ← minus q.bytes (s.ledger.size frame.bytes)
  let ledger ← s.ledger.release frame.bytes
  return { s with ledger, queues := s.queues.set i ⟨bytes, q.frames.tail⟩ }

/-- Also the destructor. -/
def clear (s : Outbound) (i : Nat) : Option Outbound := do
  let q ← s.queues[i]?
  q.frames.foldlM (fun s _ => s.pop i) s

end Outbound

/-- A call on the queues. A buffer that was taken before may be pushed: it is kept until it is dropped. -/
inductive OutboundCall where
  | create
  | push (queue size : Nat) (peer : Bool) (retry : Option RetryKey)
  | front (queue : Nat)
  | drop (buffer : Nat)
  | pop (queue : Nat)
  | clear (queue : Nat)

namespace Outbound

/-- What the caller must see to: the queue exists, a frame that is read or popped is there, and a buffer that is dropped
    was taken. -/
def Allowed (s : Outbound) : OutboundCall → Prop
  | .create => True
  | .push i _ _ _ | .clear i => i < s.queues.length
  | .front i | .pop i => ∃ q, s.queues[i]? = some q ∧ q.frames ≠ []
  | .drop r => r ∈ s.taken

def perform (s : Outbound) : OutboundCall → Option Outbound
  | .create => some { s with queues := s.queues ++ [{}] }
  | .push i size peer retry => (s.push i size peer retry).map (·.2)
  | .front i => s.front i
  | .drop r => s.drop r
  | .pop i => s.pop i
  | .clear i => s.clear i

end Outbound

end Choreolog.Network
