import Choreolog.Theorems.Codec
import Choreolog.Theorems.View

/-! # Snapshot files by name

The names of snapshot files are ordered as their indexes, up to the sixteen digits that the names have. So
the file at the front of the list is the newest, and pruning keeps it. -/

namespace Choreolog.Storage
open Lib State

/-! ### Names -/

/-- Indexes of sixteen digits. -/
def maxIndex : Nat := 10 ^ 16

/-- The digits in the name of a snapshot file. -/
def paddedIndex (index : Nat) : List Char := List.replicate (16 - (Text.ofNat index).length) '0' ++ Text.ofNat index

theorem toList_snapshotName (index : Nat) : (snapshotName index).toList = paddedIndex index ++ ".snap".toList := by
  rw [snapshotName, String.toList_ofList, paddedIndex]

theorem digits_paddedIndex (index : Nat) : ∀ c ∈ paddedIndex index, c.isDigit = true := by
  intro c hc
  rcases List.mem_append.mp hc with hc | hc
  · obtain rfl := (List.mem_replicate.mp hc).2
    decide
  · exact Text.digits_ofNat c hc

theorem value_paddedIndex (index : Nat) : Nat.ofDigitChars 10 (paddedIndex index) 0 = index := by
  rw [paddedIndex, Nat.ofDigitChars_append, Nat.ofDigitChars_replicate_zero, Nat.mul_zero, Text.value_ofNat]

theorem length_paddedIndex {index : Nat} (h : index < maxIndex) : (paddedIndex index).length = 16 := by
  have hlen : (Text.ofNat index).length ≤ 16 := (Nat.length_toDigits_le_iff (by decide) (by decide)).mpr h
  rw [paddedIndex, List.length_append, List.length_replicate]
  omega

theorem snapshotIndex_snapshotName {index : Nat} (h : index < 2 ^ 64) : snapshotIndex (snapshotName index) = some index := by
  have hstem : (snapshotName index).toList.dropLast.dropLast.dropLast.dropLast.dropLast = paddedIndex index := by
    rw [toList_snapshotName]
    simp
  have hne : paddedIndex index ≠ [] := by
    intro hnil
    exact Text.ofNat_ne_nil (List.append_eq_nil_iff.mp hnil).2
  unfold snapshotIndex
  rw [hstem]
  dsimp only
  rw [if_pos ⟨toList_snapshotName index, hne, List.all_eq_true.mpr (digits_paddedIndex index)⟩, value_paddedIndex, if_pos h]

theorem snapshotName_lt {i j : Nat} (h : i < j) (hj : j < maxIndex) : snapshotName i < snapshotName j := by
  have hlength : (paddedIndex i).length = (paddedIndex j).length := by
    rw [length_paddedIndex hj, length_paddedIndex (h.trans hj)]
  have hvalue : Nat.ofDigitChars 10 (paddedIndex i) 0 < Nat.ofDigitChars 10 (paddedIndex j) 0 := by
    rw [value_paddedIndex, value_paddedIndex]
    exact h
  rw [String.lt_iff_toList_lt, toList_snapshotName, toList_snapshotName]
  exact Text.lt_of_value_lt hlength (digits_paddedIndex i) (digits_paddedIndex j) hvalue

theorem snapshotName_inj {i j : Nat} (h : snapshotName i = snapshotName j) : i = j := by
  have htext := congrArg String.toList h
  rw [toList_snapshotName, toList_snapshotName] at htext
  rw [← value_paddedIndex i, ← value_paddedIndex j, List.append_cancel_right htext]

/-! ### The files of a directory -/

/-- The names descend. -/
theorem snapshotFiles_sorted (d : Disk) : (snapshotFiles d).Pairwise fun a b => b.name < a.name := by
  unfold snapshotFiles
  rw [List.pairwise_reverse, List.pairwise_filterMap]
  refine (List.pairwise_map.mp d.snapshots.sorted).imp fun {a b} hlt x hx y hy => ?_
  obtain ⟨i, -, rfl⟩ := Option.map_eq_some_iff.mp hx
  obtain ⟨j, -, rfl⟩ := Option.map_eq_some_iff.mp hy
  exact hlt

theorem mem_snapshotFiles {d : Disk} {file : SnapshotFile} : file ∈ snapshotFiles d ↔
    d.snapshots.find? file.name = some file.bytes ∧ snapshotIndex file.name = some file.index := by
  unfold snapshotFiles
  rw [List.mem_reverse, List.mem_filterMap]
  constructor
  · rintro ⟨entry, hentry, hfile⟩
    obtain ⟨index, hindex, rfl⟩ := Option.map_eq_some_iff.mp hfile
    exact ⟨OrdMap.mem_entries.mp hentry, hindex⟩
  · rintro ⟨hfind, hindex⟩
    exact ⟨(file.name, file.bytes), OrdMap.mem_entries.mpr hfind, by rw [hindex]; rfl⟩

/-! ### The newest file -/

/-- The snapshot files of a directory: the newest one, and others below it that are there or may come back. -/
def SnapsHeld (newest : Option (Nat × File)) (files pruned : OrdMap String File) : Prop :=
  match newest with
  | none => ∀ name, files.find? name = none ∧ pruned.find? name = none
  | some (index, bytes) => files.find? (snapshotName index) = some bytes ∧
    ∀ name, (files.find? name).isSome ∨ (pruned.find? name).isSome → ∃ i, 0 < i ∧ i ≤ index ∧ name = snapshotName i

theorem SnapsHeld.crashed {newest : Option (Nat × File)} {d d' : Disk} (h : SnapsHeld newest d.snapshots d.pruned)
    (c : Crashed d d') : SnapsHeld newest d'.snapshots d'.pruned := by
  cases newest with
  | none =>
    intro name
    obtain ⟨hfile, hpruned⟩ := h name
    refine ⟨?_, by rw [c.pruned, OrdMap.find?_empty]⟩
    rcases c.snapshots name with hname | ⟨-, hname⟩
    · exact hname.trans hfile
    · exact hname.trans hpruned
  | some file =>
    obtain ⟨index, bytes⟩ := file
    obtain ⟨hfile, hbelow⟩ := h
    refine ⟨?_, fun name hname => hbelow name ?_⟩
    · rcases c.snapshots (snapshotName index) with hname | ⟨hnone, -⟩
      · exact hname.trans hfile
      · exact nomatch hnone.symm.trans hfile
    · rw [c.pruned, OrdMap.find?_empty, Option.isSome_none, Bool.false_eq_true, or_false] at hname
      rcases c.snapshots name with heq | ⟨-, heq⟩
      · exact .inl (heq ▸ hname)
      · exact .inr (heq ▸ hname)

theorem snapshotFiles_bare {d : Disk} (h : SnapsHeld none d.snapshots d.pruned) : snapshotFiles d = [] := by
  have hempty : d.snapshots.entries = [] := by
    refine List.eq_nil_iff_forall_not_mem.mpr fun entry hentry => ?_
    exact nomatch (h entry.1).1.symm.trans (OrdMap.mem_entries.mp hentry)
  unfold snapshotFiles
  rw [hempty]
  rfl

/-- The newest file is the first one, and the others have smaller indexes. -/
theorem snapshotFiles_newest {d : Disk} {index : Nat} {bytes : File} (h : SnapsHeld (some (index, bytes)) d.snapshots d.pruned)
    (bound : index < maxIndex) : ∃ rest, snapshotFiles d = ⟨index, snapshotName index, bytes⟩ :: rest ∧
      ∀ file ∈ rest, 0 < file.index ∧ file.index < index ∧ file.name = snapshotName file.index := by
  obtain ⟨hfile, hbelow⟩ := h
  have hbig : maxIndex < 2 ^ 64 := by decide
  have hparse : ∀ name, (d.snapshots.find? name).isSome → ∃ i, 0 < i ∧ i ≤ index ∧ name = snapshotName i ∧ snapshotIndex name = some i := by
    intro name hname
    obtain ⟨i, hpos, hle, rfl⟩ := hbelow name (.inl hname)
    exact ⟨i, hpos, hle, rfl, snapshotIndex_snapshotName (by omega)⟩
  -- The largest name is that of the largest index.
  have hlargest : ∀ name ∈ d.snapshots.keys, name ≤ snapshotName index := by
    intro name hname
    obtain ⟨i, -, hle, rfl, -⟩ := hparse name (OrdMap.mem_keys.mp hname)
    rcases hle.eq_or_lt with rfl | hlt
    · exact le_rfl
    · exact (snapshotName_lt hlt bound).le
  obtain ⟨front, hentries, hfront⟩ := OrdMap.entries_of_largest hfile hlargest
  have hmem : ∀ e ∈ front, (d.snapshots.find? e.1).isSome := by
    intro e he
    rw [OrdMap.mem_entries.mp (hentries ▸ List.mem_append_left _ he : (e.1, e.2) ∈ d.snapshots.entries)]
    rfl
  refine ⟨(front.filterMap fun entry => (snapshotIndex entry.1).map fun i => ⟨i, entry.1, entry.2⟩).reverse, ?_, ?_⟩
  · unfold snapshotFiles
    rw [hentries, List.filterMap_append, List.reverse_append]
    simp [snapshotIndex_snapshotName (bound.trans hbig)]
  · intro file hf
    obtain ⟨e, he, hsome⟩ := List.mem_filterMap.mp (List.mem_reverse.mp hf)
    obtain ⟨i, hpos, hle, hname, hindex⟩ := hparse e.1 (hmem e he)
    rw [hindex] at hsome
    cases hsome
    refine ⟨hpos, lt_of_le_of_ne hle ?_, hname⟩
    rintro rfl
    exact (hfront e he).ne hname

end Choreolog.Storage
