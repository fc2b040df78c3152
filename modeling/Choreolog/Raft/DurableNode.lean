import Choreolog.Raft.Transition

/-! # The durable driver of the Raft core

`DurableNode` runs the core against one checkpoint file. It executes a staged write at once and reports the
outcome to the core, so that no write is in flight between two dispatches. -/

namespace Choreolog.Raft
open Lib

/-! ## The checkpoint store

The file is kept as the state that it encodes. What the file system does is told by a `Medium`. -/

def maximumFileBytes : Nat := 16 * 1024 * 1024
def maximumCommandBytes : Nat := 1024 * 1024
def maximumCheckpointEntries : Nat := 100000

/-- A checkpoint never records applied progress: it holds no choreography state to go with it. -/
def validState (value : Durable) : Except String Unit :=
  if value.snapshotIndex ≠ 0 ∨ value.snapshotTerm ≠ 0 then
    .error "Raft v1 checkpoint cannot store a snapshot boundary"
  else if value.log.length < value.commit ∨ value.commit < value.applied then
    .error "Raft checkpoint indexes violate applied <= commit <= log length"
  else if value.applied ≠ 0 then
    .error "Raft checkpoint cannot persist applied progress without state-machine snapshot"
  else if value.votedFor.any (64 < ·.utf8ByteSize) then .error "Raft checkpoint vote ID too large"
  else if maximumCheckpointEntries < value.log.length then .error "Raft checkpoint log too long"
  else if value.log.any fun entry =>
      entry.term == 0 || value.term < entry.term || entry.command.isEmpty ||
        maximumCommandBytes < entry.command.utf8ByteSize then
    .error "Raft checkpoint entry has invalid term or command length"
  else .ok ()

def validateTransition (old next : Durable) : Except String Unit :=
  match validState next with
  | .error why => .error why
  | .ok () =>
    if next.term < old.term ∨ next.commit < old.commit then
      .error "Raft checkpoint cannot roll back term or committed index"
    else if next.term = old.term ∧ old.votedFor.isSome ∧ next.votedFor ≠ old.votedFor then
      .error "Raft checkpoint cannot change a vote in the same term"
    else if next.log.length < old.commit then .error "Raft checkpoint cannot truncate committed entries"
    else if next.log.take old.commit ≠ old.log.take old.commit then
      .error "Raft checkpoint cannot rewrite committed prefix"
    else .ok ()

/-- Magic, version, payload length, three indexes, the vote and the entries, each with its length. -/
def encodedSize (value : Durable) : Nat :=
  8 + 4 + 4 + 8 * 3 + 4 + (value.votedFor.map (·.utf8ByteSize)).getD 0 + 4 +
    (value.log.map fun entry => 8 + 4 + entry.command.utf8ByteSize).sum

/-- The checks of the encoder. -/
def encodes (value : Durable) : Except String Unit :=
  match validState value with
  | .error why => .error why
  | .ok () =>
    if maximumFileBytes - 4 < encodedSize value then .error "Raft checkpoint exceeds maximum encoded size" else .ok ()

/-- What the file system does during one dispatch: a write may fail, before or after the new file is in
    place, and a read may fail. -/
structure Medium where
  writeError : Option (Bool × String) := none
  readError : Option String := none

structure CheckpointStore where
  file : Option Durable := none
  current : Durable := {}
  uncertain : Bool := false

namespace CheckpointStore

def readCheckpoint (file : Option Durable) (medium : Medium) : Except String Durable :=
  match medium.readError, file with
  | some why, _ => .error why
  | none, none => .ok {}
  | none, some value =>
    match validState value with
    | .error why => .error why
    | .ok () => .ok value

def «open» (file : Option Durable) (medium : Medium) : Except String CheckpointStore :=
  match readCheckpoint file medium with
  | .error why => .error why
  | .ok value => .ok { file, current := value }

/-- After a failed write the file is unknown, and no further write is made before a recovery. -/
def persist (self : CheckpointStore) (target : Durable) (medium : Medium) : CheckpointStore × Except String Unit :=
  if self.uncertain then (self, .error "Raft checkpoint requires recovery after previous write failure")
  else match validateTransition self.current target, encodes target with
  | .error why, _ => (self, .error why)
  | .ok (), .error why => (self, .error why)
  | .ok (), .ok () =>
    match medium.writeError with
    | some (replaced, why) =>
      ({ self with uncertain := true, file := if replaced then some target else self.file }, .error why)
    | none => ({ self with file := some target, current := target }, .ok ())

def recover (self : CheckpointStore) (medium : Medium) : CheckpointStore × Except String Durable :=
  match readCheckpoint self.file medium with
  | .error why => ({ self with uncertain := true }, .error why)
  | .ok value => ({ self with current := value, uncertain := false }, .ok value)

end CheckpointStore

/-! ## The driver -/

def validConfig (config : Config) : Bool :=
  !config.self.isEmpty && config.peers.all (!·.isEmpty) && decide (config.self :: config.peers).Nodup

def acceptableDurableVote (config : Config) (durable : Durable) : Bool :=
  durable.votedFor.all fun vote => vote == config.self || config.peers.contains vote

structure DriveResult where
  effects : Effects := {}
  error : Option String := none

structure DurableNode where
  config : Config
  checkpoint : CheckpointStore
  node : Node

namespace DurableNode

def «open» (config : Config) (file : Option Durable) (medium : Medium) : Except String DurableNode :=
  if !validConfig config then .error "Raft durable driver has invalid cluster IDs"
  else match CheckpointStore.open file medium with
  | .error why => .error why
  | .ok checkpoint =>
    if !acceptableDurableVote config checkpoint.current then
      .error "Recovered Raft vote does not belong to configured cluster"
    else .ok { config, checkpoint, node := { initial config with durable := checkpoint.current } }

/-- Restart reads the file again. Staged state, request ids and queued effects are not kept. -/
def restart (self : DurableNode) (medium : Medium) : DurableNode × DriveResult :=
  let halted : Node := { self.node with pending := none, halted := true }
  match self.checkpoint.recover medium with
  | (checkpoint, .ok durable) =>
    if !acceptableDurableVote self.config durable then
      ({ self with checkpoint, node := halted },
        { effects := { halt := true }, error := some "Recovered Raft vote does not belong to configured cluster" })
    else ({ self with checkpoint, node := { initial self.config with durable } }, {})
  | (checkpoint, .error why) =>
    ({ self with checkpoint, node := halted }, { effects := { halt := true }, error := some why })

/-- The core is told how its staged write ended, and what it then asks for is returned. -/
def settle (self : DurableNode) (input : Input) (error : Option String) : DurableNode × DriveResult :=
  let (node, effects) := step self.config self.node input
  ({ self with node }, { effects, error })

def drive (self : DurableNode) (input : Input) (medium : Medium) : DurableNode × DriveResult :=
  let (next, effects) := step self.config self.node input
  let self := { self with node := next }
  match effects.persist with
  | none => (self, { effects })
  | some request =>
    if !effects.sendNow.isEmpty || !effects.apply.isEmpty then
      self.settle (.persistFailed request.token) (some "Raft core emitted dependent effects before durable write")
    else match self.checkpoint.persist request.target medium with
    | (checkpoint, .error why) => { self with checkpoint }.settle (.persistFailed request.token) (some why)
    | (checkpoint, .ok ()) => { self with checkpoint }.settle (.persistCompleted request.token) none

/-- Completions of writes are private to the driver, and applied progress needs a choreography checkpoint. -/
def dispatch (self : DurableNode) (input : Input) (medium : Medium) : DurableNode × DriveResult :=
  match input with
  | .restart => self.restart medium
  | .persistCompleted _ | .persistFailed _ =>
    (self, { error := some "Persistence callbacks are private to the Raft storage driver" })
  | .applyCommitted =>
    (self, { error := some "ApplyCommitted requires atomic choreography checkpoint integration" })
  | input => self.drive input medium

end DurableNode

end Choreolog.Raft
