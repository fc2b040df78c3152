import Choreolog.Theorems.Commits

/-! # What the operations of a store write

The memory and the files after an operation that succeeds, for a store with the given log. Other files stay as
they are. -/

namespace Choreolog.Storage
open Lib State
open Lib.Program (Runs)

variable {s : FileEngine} {d : Disk} {log : List Event} {b : Nat}

theorem checked_runs {α : Type} {m : Store FileEngine α} {a : α} {s' : FileEngine} {d' : Disk} (h : Runs m s d a s' d') :
    Runs (FileEngine.checkedMutation m) s d a s' d' := h.onError

/-- The log file is cut after an index. -/
theorem truncate_runs (wal : s.wal = walOf (log.drop b)) (file : d.wal = some (walFile (log.drop b))) (indexed : Indexed log) (index : Nat) :
    Runs (s.wal.truncateAfter index) s d (walOf ((log.take index).drop b)) s
      { d with wal := some (walFile ((log.take index).drop b)), tail := [] } := by
  have hdrop : (log.take index).drop b = (log.drop b).take (index - b) := List.drop_take
  have hkept : (⟨s.wal.events.take (s.wal.events.takeWhile (·.index ≤ index)).length,
      s.wal.recordEnds.take (s.wal.events.takeWhile (·.index ≤ index)).length⟩ : WriteAheadLog) = walOf ((log.take index).drop b) := by
    rw [wal, walOf_take, show (walOf (log.drop b)).events = log.drop b from rfl, indexed.takeWhile, List.length_take, hdrop]
    congr 1
    rw [List.take_eq_take_iff]
    omega
  have hsplit : walFile (log.drop b) = walFile ((log.take index).drop b) ++ recordsOf ((log.drop b).drop (index - b)) := by
    rw [← walFile_append, hdrop, List.take_append_drop]
  unfold WriteAheadLog.truncateAfter
  dsimp only
  rw [hkept, fileEnd_walOf]
  refine ⟨rfl, rfl, ?_⟩
  change ({ d with wal := d.wal.map (·.take (walFile ((log.take index).drop b)).length), tail := [] } : Disk) = _
  rw [file, hsplit, Option.map_some, List.take_left]

/-- A record is added to the log file. -/
theorem append_runs (wal : s.wal = walOf (log.drop b)) (file : d.wal = some (walFile (log.drop b))) (base : b ≤ log.length) {event : Event}
    (size : (canonicalEvent event).toList.length ≤ maxPayloadBytes) :
    Runs (s.wal.append event) s d (walOf ((log ++ [event]).drop b)) s
      { d with wal := some (walFile ((log ++ [event]).drop b)), tail := [] } := by
  have hdrop : (log ++ [event]).drop b = log.drop b ++ [event] := List.drop_append_of_le_length base
  refine .of_bind (encodeRecord_ok size) ⟨?_, rfl, ?_⟩
  · rw [wal, hdrop, walOf_append]
    rfl
  · change ({ d with wal := some (d.wal.getD [] ++ recordOf event), tail := [] } : Disk) = _
    rw [file, hdrop, walFile_append, recordsOf_singleton]
    rfl

/-- The index of the last entry, also of a log that has none in its file. -/
theorem lastLogIndex_walOf (wal : s.wal = walOf (log.drop b)) (indexed : Indexed log) (empty : log.length ≤ b → s.state.lastApplied = log.length) :
    s.lastLogIndex = log.length := by
  unfold FileEngine.lastLogIndex
  rw [wal]
  simp only [walOf]
  cases hlast : (log.drop b).getLast? with
  | none => exact empty (List.drop_eq_nil_iff.mp (List.getLast?_eq_none_iff.mp hlast))
  | some last => exact (indexed.getLast hlast).1

end Choreolog.Storage
