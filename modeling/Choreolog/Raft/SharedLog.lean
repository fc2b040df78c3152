import Choreolog.Raft.Transition

/-! # Entry logs over shared chunks

`cpp-runtime/include/choreoos/raft/entry_log.hpp`. Logs share the directories that name their chunks, and directories
share chunks; both are copied before a write that another owner could see. A heap keeps every directory and chunk ever
made, and `use_count` is the number of owners there are. What has no defined result in the source (a log that was moved
from or destroyed, an index past the end) has none here. -/

namespace Choreolog.Raft

/-- `EntryLog::kChunkSize` -/
def chunkSize : Nat := 256

/-- `EntryLog::Data`, with the places of its chunks. -/
structure LogData where
  chunks : List Nat := []
  size : Nat := 0
  valid : Bool := true

/-- A log is the place of its data, or nothing once it was moved from or destroyed. -/
structure LogHeap where
  chunks : List (List Entry) := []
  datas : List LogData := []
  logs : List (Option Nat) := []

namespace LogHeap

/-! ## Ownership -/

/-- `data_.use_count()` -/
def dataUses (h : LogHeap) (d : Nat) : Nat := h.logs.count (some d)

def directory (h : LogHeap) (d : Nat) : List Nat := (h.datas[d]?.map LogData.chunks).getD []

/-- `chunk.use_count()`: the directories of destroyed data own nothing. -/
def chunkUses (h : LogHeap) (c : Nat) : Nat := ∑ d ∈ h.logs.reduceOption.toFinset, (h.directory d).count c

def data (h : LogHeap) (log : Nat) : Option LogData := h.logs[log]?.join.bind (h.datas[·]?)

/-! ## Reading -/

/-- `operator[]` -/
def entry (h : LogHeap) (data : LogData) (index : Nat) : Option Entry := do
  let chunk ← h.chunks[← data.chunks[index / chunkSize]?]?
  chunk[index % chunkSize]?

/-- What an iterator reads in so many steps. -/
def iterate (h : LogHeap) (data : LogData) (index : Nat) : Nat → Option (List Entry)
  | 0 => some []
  | steps + 1 => do return (← h.entry data index) :: (← h.iterate data (index + 1) steps)

/-- An iteration from `begin()` to `end()`. -/
def entries (h : LogHeap) (data : LogData) : Option (List Entry) := h.iterate data 0 data.size

def back (h : LogHeap) (data : LogData) : Option Entry := h.entry data (data.size - 1)

def validTerms (h : LogHeap) (data : LogData) (before limit : Nat) : Bool :=
  data.valid && (data.size == 0 || ((h.entry data 0).all (before ≤ ·.term) && (h.back data).all (·.term ≤ limit)))

/-- The loop of `common_prefix_size`. -/
def commonPrefixFrom (h : LogHeap) (a b : LogData) (count index : Nat) : Nat :=
  if index < count then
    let chunk := index / chunkSize
    let stop := min count ((chunk + 1) * chunkSize)
    if a.chunks[chunk]? = b.chunks[chunk]? then commonPrefixFrom h a b count stop
    else match (List.range' index (stop - index)).find? fun i => h.entry a i ≠ h.entry b i with
      | some i => i
      | none => commonPrefixFrom h a b count stop
  else count
termination_by count - index
decreasing_by
  all_goals
    have hstop : index < (index / chunkSize + 1) * chunkSize := by
      unfold chunkSize
      omega
    omega

def commonPrefixSize (h : LogHeap) (log other : Nat) : Option Nat := do
  let a ← h.data log
  let b ← h.data other
  if h.logs[log]? = h.logs[other]? then return a.size
  else return h.commonPrefixFrom a b (min a.size b.size) 0

/-- `operator==` -/
def equal (h : LogHeap) (log other : Nat) : Option Bool := do
  let a ← h.data log
  let b ← h.data other
  if a.size = b.size then return (← h.commonPrefixSize log other) == a.size
  else return false

/-! ## Writing -/

/-- `data_ = std::make_shared<Data>(data)` -/
def assignData (h : LogHeap) (log : Nat) (data : LogData) : LogHeap :=
  { h with datas := h.datas ++ [data], logs := h.logs.set log (some h.datas.length) }

def detach (h : LogHeap) (log : Nat) : Option LogHeap := do
  let d ← h.logs[log]?.join
  let data ← h.datas[d]?
  return if h.dataUses d = 1 then h else h.assignData log data

/-- The writes of the log go to its own data. -/
def setData (h : LogHeap) (log : Nat) (chunks : List (List Entry)) (data : LogData) : Option LogHeap := do
  let d ← h.logs[log]?.join
  return { h with chunks, datas := h.datas.set d data }

/-- One round of the loop of `validate_terms`, on the flag and the previous term. -/
def validateTerm (s : Bool × Nat) (e : Entry) : Bool × Nat := (s.1 && !(e.term == 0 || decide (e.term < s.2)), e.term)

def validateTerms (h : LogHeap) (data : LogData) : Option LogData := do
  return { data with valid := ((← h.entries data).foldl validateTerm (true, 0)).1 }

def pushBack (h : LogHeap) (log : Nat) (entry : Entry) : Option LogHeap := do
  let h ← h.detach log
  let data ← h.data log
  let valid := data.valid && entry.term != 0 && (data.size == 0 || (h.back data).all (·.term ≤ entry.term))
  let size := data.size + 1
  if data.size % chunkSize = 0 then
    h.setData log (h.chunks ++ [[entry]]) { chunks := data.chunks ++ [h.chunks.length], size, valid }
  else
    let c ← data.chunks.getLast?
    let chunk ← h.chunks[c]?
    if h.chunkUses c = 1 then h.setData log (h.chunks.set c (chunk ++ [entry])) { data with size, valid }
    else
      h.setData log (h.chunks ++ [chunk ++ [entry]])
        { chunks := data.chunks.set (data.chunks.length - 1) h.chunks.length, size, valid }

def pushAll (h : LogHeap) (log : Nat) (entries : List Entry) : Option LogHeap := entries.foldlM (·.pushBack log ·) h

/-- The chunk at a place of the directory becomes a new one, and the terms are validated. -/
def replaceChunk (h : LogHeap) (log : Nat) (data : LogData) (place : Nat) (f : List Entry → List Entry) : Option LogHeap := do
  let chunk ← h.chunks[← data.chunks[place]?]?
  let chunks := h.chunks ++ [f chunk]
  let data ← { h with chunks }.validateTerms { data with chunks := data.chunks.set place h.chunks.length }
  h.setData log chunks data

def set (h : LogHeap) (log index : Nat) (entry : Entry) : Option LogHeap := do
  let h ← h.detach log
  let data ← h.data log
  guard (index < data.size)
  h.replaceChunk log data (index / chunkSize) (·.set (index % chunkSize) entry)

def resize (h : LogHeap) (log count : Nat) : Option LogHeap := do
  let data ← h.data log
  if data.size ≤ count then h.pushAll log (List.replicate (count - data.size) { command := "" })
  else
    let h ← h.detach log
    let data ← h.data log
    let data := { data with chunks := data.chunks.take ((count + chunkSize - 1) / chunkSize), size := count }
    if count % chunkSize = 0 then h.setData log h.chunks (← h.validateTerms data)
    else h.replaceChunk log data (data.chunks.length - 1) (·.take (count % chunkSize))

def popBack (h : LogHeap) (log : Nat) : Option LogHeap := do
  let data ← h.data log
  guard (0 < data.size)
  h.resize log (data.size - 1)

def clear (h : LogHeap) (log : Nat) : Option LogHeap := do
  guard (log < h.logs.length)
  return h.assignData log {}

end LogHeap

/-! ## Programs -/

/-- What a program does with its logs. Logs are numbered in the order of their construction. -/
inductive LogCall where
  | construct (entries : List Entry)
  | copy (other : Nat)
  | move (other : Nat)
  | assign (log other : Nat)
  | moveAssign (log other : Nat)
  | destroy (log : Nat)
  | pushBack (log : Nat) (entry : Entry)
  | set (log index : Nat) (entry : Entry)
  | resize (log count : Nat)
  | popBack (log : Nat)
  | clear (log : Nat)

def LogHeap.perform (h : LogHeap) : LogCall → Option LogHeap
  | .construct entries => ({ h with logs := h.logs ++ [none] }.assignData h.logs.length {}).pushAll h.logs.length entries
  | .copy other => do return { h with logs := h.logs ++ [some (← h.logs[other]?.join)] }
  | .move other => do return { h with logs := h.logs.set other none ++ [some (← h.logs[other]?.join)] }
  | .assign log other => do
    guard (log < h.logs.length)
    return { h with logs := h.logs.set log (some (← h.logs[other]?.join)) }
  | .moveAssign log other => do
    guard (log < h.logs.length)
    return { h with logs := (h.logs.set other none).set log (some (← h.logs[other]?.join)) }
  | .destroy log => do
    guard (log < h.logs.length)
    return { h with logs := h.logs.set log none }
  | .pushBack log entry => h.pushBack log entry
  | .set log index entry => h.set log index entry
  | .resize log count => h.resize log count
  | .popBack log => h.popBack log
  | .clear log => h.clear log

end Choreolog.Raft
