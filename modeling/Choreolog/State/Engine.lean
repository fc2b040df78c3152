import Choreolog.State.Machine

/-! # The engine

The class `Engine` of `cpp-runtime/src/state/machine.cpp`: a state and the events that led to it, as far as
they are still held. An operation that fails leaves the engine as it was. -/

namespace Choreolog.State
open Lib

structure Engine where
  state : ChoreographyState := {}
  events : List Event := []
  deriving DecidableEq

/-- The accepted event, or the one of the first time. -/
structure SubmitResult where
  event : Event
  duplicate : Bool := false
  deriving DecidableEq

namespace Engine

/-- The event is added even if it has been applied before. -/
def applyCommitted (engine : Engine) (event : Event) : Result Engine := do
  let state ← apply engine.state event
  return { state, events := engine.events ++ [event] }

def submit (engine : Engine) (command : Command) : Result (Engine × SubmitResult) :=
  if engine.state.appliedCommands.contains command.id.value || engine.state.receipts.contains command.id.value then do
    let receipt ← resolveReceipt engine.state command
    return (engine, { event := receipt, duplicate := true })
  else do
    let proposed ← propose engine.state command
    let engine ← engine.applyCommitted proposed
    return (engine, { event := proposed })

/-- The batch on a copy of the domain, against the history of the engine. -/
def prepareCommitted (engine : Engine) (batch : List Event) : Result Engine :=
  batch.foldlM (fun staged event => do
    let state ← applyAgainst staged.state event .contiguous (some engine.state)
    return { state, events := staged.events ++ [event] }) { state := { toDomain := engine.state.toDomain } }

def publishCommitted (engine staged : Engine) : Engine where
  state := State.publishCommitted engine.state staged.state
  events := engine.events ++ staged.events

/-- `std::lower_bound` finds the first event at or above the anchor. -/
def retainHistoryFrom (engine : Engine) (anchor : Nat) : Result Engine := do
  let state ← retainStateHistoryFrom engine.state anchor
  return { state, events := engine.events.dropWhile (·.index < anchor) }

def restore (state : ChoreographyState) (history : List Event) : Engine where
  state := restoreReceipts state history
  events := history

/-- Whether the events go back to the first one. -/
def complete (engine : Engine) : Bool :=
  match engine.events.head? with
  | none => engine.state.lastApplied = 0
  | some first => first.index = 1

def replayThrough (engine : Engine) (throughTick : Option MusicalTick) (throughIndex : Option Nat) : Result ChoreographyState :=
  if engine.complete then replay engine.events throughTick throughIndex
  else .error ⟨.storeError, "historical replay is unavailable after compaction"⟩

end Engine

end Choreolog.State
