import Choreolog.Lib.OrdMap

/-! # Pending requests

The waiters of a node server. Each has an id and waits for a log index; the requests that a commit makes eligible are
found by index, without a scan of all waiters. -/

namespace Choreolog.Network
open Lib

structure Item (τ : Type) where
  index : Nat
  value : τ

/-- A set of ids is a map to nothing, so that its elements are in order. -/
structure PendingRequests (τ : Type) where
  next : Nat := 1
  items : OrdMap Nat (Item τ) := .empty
  byIndex : OrdMap Nat (OrdMap Nat Unit) := .empty

namespace PendingRequests
variable {τ : Type}

/-- The ids under an index. -/
def group (s : PendingRequests τ) (index : Nat) : OrdMap Nat Unit := (s.byIndex.find? index).getD .empty

def add (s : PendingRequests τ) (index : Nat) (item : τ) : Nat × PendingRequests τ :=
  (s.next, {
    next := (s.next + 1) % 2 ^ 64
    byIndex := s.byIndex.insert index ((s.group index).insert s.next ())
    items := s.items.tryEmplace s.next ⟨index, item⟩ })

/-- The source does not check that the group of an item is found. -/
def take (s : PendingRequests τ) (id : Nat) : Option τ × PendingRequests τ :=
  match s.items.find? id with
  | none => (none, s)
  | some item =>
    let group := (s.group item.index).erase id
    (some item.value, { s with
      byIndex := if group.entries.isEmpty then s.byIndex.erase item.index else s.byIndex.insert item.index group
      items := s.items.erase id })

/-- The loop as long as the fuel lasts. The first group must not be empty. -/
def takeThrough (commit : Nat) : Nat → PendingRequests τ → Option (List τ × PendingRequests τ)
  | 0, _ => none
  | fuel + 1, s =>
    match s.byIndex.entries with
    | [] => some ([], s)
    | (index, group) :: _ =>
      if index ≤ commit then
        match group.entries with
        | [] => none
        | (id, _) :: _ =>
          (takeThrough commit fuel (s.take id).2).map fun rest => ((s.take id).1.toList ++ rest.1, rest.2)
      else some ([], s)

def takeAll (s : PendingRequests τ) : List Nat → List τ × PendingRequests τ
  | [] => ([], s)
  | id :: ids =>
    let rest := takeAll (s.take id).2 ids
    ((s.take id).1.toList ++ rest.1, rest.2)

def removeIf (s : PendingRequests τ) (predicate : τ → Bool) : List τ × PendingRequests τ :=
  s.takeAll ((s.items.entries.filter fun e => predicate e.2.value).map Prod.fst)

end PendingRequests

/-- A call on the pending requests. -/
inductive PendingCall (τ : Type) where
  | add (index : Nat) (item : τ)
  | take (id : Nat)
  | takeThrough (commit : Nat)
  | removeIf (predicate : τ → Bool)

namespace PendingRequests
variable {τ : Type}

/-- What a call returns of the items. -/
def perform (fuel : Nat) (s : PendingRequests τ) : PendingCall τ → Option (List τ × PendingRequests τ)
  | .add index item => some ([], (s.add index item).2)
  | .take id => some ((s.take id).1.toList, (s.take id).2)
  | .takeThrough commit => takeThrough commit fuel s
  | .removeIf predicate => some (s.removeIf predicate)

def run (fuel : Nat) (s : PendingRequests τ) : List (PendingCall τ) → Option (List (List τ) × PendingRequests τ)
  | [] => some ([], s)
  | call :: calls => do
    let first ← s.perform fuel call
    let rest ← run fuel first.2 calls
    return (first.1 :: rest.1, rest.2)

end PendingRequests

end Choreolog.Network
