import Choreolog.Storage.Store
import Choreolog.Theorems.RoundTrip
import Choreolog.Theorems.SnapshotFiles

/-! # The order of snapshot files

The newest snapshot is looked for, and old ones are removed, in the order of the file names. The names have
sixteen digits or more, and as texts they are in the order of the indexes only as far as the longer ones do not
sort below the shorter ones. -/

namespace Choreolog.Storage
open Lib State

/-! ### Names as texts -/

/-- How many digits the name has. -/
def width (index : Nat) : Nat := (paddedIndex index).length

theorem width_mono {i j : Nat} (h : i ≤ j) : width i ≤ width j := by
  have hdigits : (Text.ofNat i).length ≤ (Text.ofNat j).length := by
    have hpos : (Text.ofNat j).length ≠ 0 := by simpa using Text.ofNat_ne_nil
    refine (Nat.length_toDigits_le_iff (by decide) (Nat.pos_of_ne_zero hpos)).mpr (h.trans_lt ?_)
    exact (Nat.length_toDigits_le_iff (by decide) (Nat.pos_of_ne_zero hpos)).mp le_rfl
  simp only [width, paddedIndex, List.length_append, List.length_replicate]
  omega

/-- When the name of a smaller index is the smaller text. -/
theorem snapshotName_lt_iff {i j : Nat} (h : i < j) : snapshotName i < snapshotName j ↔ i ≤ j / 10 ^ (width j - width i) := by
  have hwidth : width i ≤ width j := width_mono h.le
  have hi := digits_paddedIndex i
  have hj : ∀ c ∈ (paddedIndex j).take (width i), c.isDigit = true := fun c hc => digits_paddedIndex j c (List.mem_of_mem_take hc)
  have hlength : (paddedIndex i).length = ((paddedIndex j).take (width i)).length := by
    rw [List.length_take]
    exact (min_eq_left hwidth).symm
  have hvalue : Nat.ofDigitChars 10 ((paddedIndex j).take (width i)) 0 = j / 10 ^ (width j - width i) := by
    rw [Text.value_take (digits_paddedIndex j), value_paddedIndex]
    rfl
  have hname : (snapshotName j).toList = (paddedIndex j).take (width i) ++ ((paddedIndex j).drop (width i) ++ ".snap".toList) := by
    rw [toList_snapshotName, ← List.append_assoc, List.take_append_drop]
  rw [String.lt_iff_toList_lt, toList_snapshotName i, hname]
  rcases lt_trichotomy i (j / 10 ^ (width j - width i)) with hlt | heq | hgt
  · have hless : Nat.ofDigitChars 10 (paddedIndex i) 0 < Nat.ofDigitChars 10 ((paddedIndex j).take (width i)) 0 := by
      rw [value_paddedIndex, hvalue]
      exact hlt
    exact iff_of_true (Text.lt_of_value_lt hlength hi hj hless) hlt.le
  · -- The shorter name is a part of the longer one, and its dot is before any digit.
    refine iff_of_true ?_ heq.le
    have hvalues : Nat.ofDigitChars 10 (paddedIndex i) 0 = Nat.ofDigitChars 10 ((paddedIndex j).take (width i)) 0 := by
      rw [value_paddedIndex, hvalue]
      exact heq
    have hsame := Text.eq_of_value_eq hlength hi hj hvalues
    rw [← hsame]
    cases hrest : (paddedIndex j).drop (width i) with
    | nil =>
      have hall : (paddedIndex j).take (width i) = paddedIndex j := List.take_of_length_le (List.drop_eq_nil_iff.mp hrest)
      rw [← value_paddedIndex i, ← value_paddedIndex j, hsame, hall] at h
      exact absurd h (lt_irrefl _)
    | cons c rest =>
      have hdigit : c.isDigit = true := digits_paddedIndex j c (List.mem_of_mem_drop (hrest ▸ List.mem_cons_self))
      have hdot : '.' < c := by
        simp only [Char.isDigit, Bool.and_eq_true, decide_eq_true_eq] at hdigit
        exact lt_of_lt_of_le (by decide : '.' < '0') hdigit.1
      exact List.append_left_lt (List.cons_lt_cons_iff.mpr (.inl hdot))
  · have hless : Nat.ofDigitChars 10 ((paddedIndex j).take (width i)) 0 < Nat.ofDigitChars 10 (paddedIndex i) 0 := by
      rw [value_paddedIndex, hvalue]
      exact hgt
    exact iff_of_false (Text.lt_of_value_lt hlength.symm hj hi hless).not_gt hgt.not_ge

/-! ### Folders -/

/-- Every file was written for a state, under the name of its index. -/
def Written (d : Disk) : Prop :=
  ∀ name bytes, d.snapshots.find? name = some bytes → ∃ s : ChoreographyState, s.lastApplied < 2 ^ 64 ∧
    name = snapshotName s.lastApplied ∧ encodeSnapshot s = .ok bytes

/-- The indexes in the names of the files. -/
def indexes (d : Disk) : List Nat := d.snapshots.keys.filterMap snapshotIndex

/-- How many files have a greater index. -/
def newer (d : Disk) (i : Nat) : Nat := (indexes d).countP (i < ·)

/-- As texts, the names are in the order of the indexes. -/
def Aligned (d : Disk) : Prop := ∀ i ∈ indexes d, ∀ j ∈ indexes d, i < j → i ≤ j / 10 ^ (width j - width i)

section Folder
variable {d : Disk}

theorem Written.mem_files (h : Written d) {file : SnapshotFile} :
    file ∈ snapshotFiles d ↔ file.name = snapshotName file.index ∧ d.snapshots.find? file.name = some file.bytes := by
  rw [mem_snapshotFiles]
  constructor
  · rintro ⟨hfind, hindex⟩
    obtain ⟨s, hlt, hname, -⟩ := h _ _ hfind
    rw [hname, snapshotIndex_snapshotName hlt] at hindex
    exact ⟨by rw [hname, Option.some.inj hindex], hfind⟩
  · rintro ⟨hname, hfind⟩
    obtain ⟨s, hlt, hs, -⟩ := h _ _ hfind
    have hindex : file.index = s.lastApplied := snapshotName_inj (hname.symm.trans hs)
    refine ⟨hfind, ?_⟩
    rw [hname, hindex, snapshotIndex_snapshotName hlt]

theorem map_index_snapshotFiles (d : Disk) : (snapshotFiles d).map (·.index) = (indexes d).reverse := by
  unfold snapshotFiles indexes OrdMap.keys
  rw [List.map_reverse, List.map_filterMap, List.filterMap_map]
  congr 2
  funext entry
  rw [Option.map_map]
  exact Option.map_id'

theorem mem_indexes (h : Written d) {i : Nat} : i ∈ indexes d ↔ (d.snapshots.find? (snapshotName i)).isSome := by
  rw [← List.mem_reverse, ← map_index_snapshotFiles, List.mem_map]
  constructor
  · rintro ⟨file, hfile, rfl⟩
    obtain ⟨hname, hfind⟩ := h.mem_files.mp hfile
    rw [← hname, hfind]
    rfl
  · intro hsome
    obtain ⟨bytes, hbytes⟩ := Option.isSome_iff_exists.mp hsome
    exact ⟨⟨i, snapshotName i, bytes⟩, h.mem_files.mpr ⟨rfl, hbytes⟩, rfl⟩

/-- The indexes descend as the names do, if the names are in their order. -/
theorem Aligned.pairwise (h : Written d) (aligned : Aligned d) : (snapshotFiles d).Pairwise fun a b => b.index < a.index := by
  have hmem : ∀ file ∈ snapshotFiles d, file.index ∈ indexes d := by
    intro file hfile
    rw [← List.mem_reverse, ← map_index_snapshotFiles]
    exact List.mem_map_of_mem hfile
  refine (snapshotFiles_sorted d).imp_of_mem fun {a b} ha hb hlt => ?_
  rw [(h.mem_files.mp ha).1, (h.mem_files.mp hb).1] at hlt
  rcases lt_trichotomy b.index a.index with hless | heq | hgreater
  · exact hless
  · rw [heq] at hlt
    exact absurd hlt (lt_irrefl _)
  · exact absurd hlt ((snapshotName_lt_iff hgreater).mpr (aligned _ (hmem a ha) _ (hmem b hb) hgreater)).not_gt

end Folder

/-! ### Pruning -/

theorem removeSnapshots_runs {μ : Type} (files : List SnapshotFile) (s : μ) (d : Disk) : ∃ d',
    Program.Runs (removeSnapshots files) s d () s d' ∧
      ∀ name, d'.snapshots.find? name = if name ∈ files.map (·.name) then none else d.snapshots.find? name := by
  induction files generalizing d with
  | nil => exact ⟨d, .pure (), fun name => by simp⟩
  | cons file rest ih =>
    obtain ⟨d', hrun, hfind⟩ := ih (removeSnapshot file.name s d).disk
    refine ⟨d', .bind ⟨rfl, rfl, rfl⟩ hrun, fun name => ?_⟩
    rw [hfind, removeSnapshot, Program.write, OrdMap.find?_erase, List.map_cons]
    by_cases hname : name = file.name
    · simp [hname]
    · simp [hname]

theorem pruneSnapshots_runs (keep : Nat) (d : Disk) : ∃ d' pruned,
    Program.Runs (pruneSnapshots keep) () d pruned () d' ∧
      (∀ name, d'.snapshots.find? name =
        if name ∈ ((snapshotFiles d).drop keep).map (·.name) then none else d.snapshots.find? name) ∧
      ∀ file, ((snapshotFiles d).take keep).getLast? = some file → pruned.oldestIndex = file.index := by
  obtain ⟨d', hrun, hfind⟩ := removeSnapshots_runs ((snapshotFiles d).drop keep) () d
  cases hlast : ((snapshotFiles d).take keep).getLast? with
  | none =>
    refine ⟨d', {}, .disk_bind (hrun.bind ?_), hfind, nofun⟩
    rw [hlast]
    exact .pure _
  | some oldest =>
    refine ⟨d', ⟨min keep (snapshotFiles d).length, oldest.index⟩, .disk_bind (hrun.bind ?_), hfind, fun file hfile => ?_⟩
    · rw [hlast]
      exact .pure _
    · rw [← Option.some.inj hfile]

/-- In a descending list, the place of an element is the number of greater ones. -/
theorem countP_of_pairwise {l : List Nat} (descending : l.Pairwise fun a b => b < a) {k i : Nat} (found : l[k]? = some i) :
    l.countP (i < ·) = k := by
  induction l generalizing k with
  | nil => cases found
  | cons x l ih =>
    obtain ⟨hx, hl⟩ := List.pairwise_cons.mp descending
    cases k with
    | zero =>
      cases found
      have hnone : ∀ y ∈ l, y ≤ i := fun y hy => (hx y hy).le
      simpa using hnone
    | succ k =>
      have hgreater : i < x := hx i (List.mem_of_getElem? found)
      simp [ih hl found, hgreater]

/-! ### Selection by index -/

theorem readSnapshot_index {file : List UInt8} {s : Snapshot} (h : readSnapshot file = .ok s) : s.index = readU 8 12 file := by
  unfold readSnapshot at h
  have h := (unless_ok (unless_ok (unless_ok (unless_ok (unless_ok h).2).2).2).2).2
  obtain ⟨term, -, h⟩ := bind_ok h
  dsimp only at h
  split at h
  · obtain ⟨found, hfound, h⟩ := bind_ok h
    obtain ⟨_, _, h⟩ := bind_ok h
    rw [← Except.ok.inj h, ← Except.ok.inj hfound]
  · obtain ⟨events, -, h⟩ := bind_ok h
    obtain ⟨found, hfound, h⟩ := bind_ok h
    obtain ⟨_, _, h⟩ := bind_ok h
    rw [← Except.ok.inj h, ← Except.ok.inj hfound]

theorem Written.index {d : Disk} (h : Written d) {i : Nat} {bytes : File} (found : d.snapshots.find? (snapshotName i) = some bytes)
    {s : Snapshot} (read : readSnapshot bytes = .ok s) : s.index = i := by
  obtain ⟨state, hlt, hname, hbytes⟩ := h _ _ found
  obtain ⟨-, rfl⟩ := encodeSnapshot_cases hbytes
  have hmagic : (Bytes.ofText "CHOSSNAP").length = 8 := rfl
  have hnat : ∀ width n : Nat, (Bytes.ofNat width n).length = width := Bytes.length_ofNat
  rw [readSnapshot_index read, snapshotName_inj hname]
  simp only [readU, snapshotBody, List.append_assoc]
  rw [Bytes.slice_past hmagic (by decide), Bytes.slice_past (hnat 2 _) (by decide), Bytes.slice_past (hnat 2 _) (by decide),
    Bytes.slice_here (hnat 8 _), Bytes.toNat_ofNat hlt]

/-- A file stays if fewer than `keep` files have a greater index. -/
def Kept (d : Disk) (keep i : Nat) : Prop := i ∈ indexes d ∧ newer d i < keep

/-- The newest snapshot that verifies is found, and pruning removes all but the files with the greatest indexes and reports
    the smallest index that is left. -/
structure SelectsByIndex (d : Disk) : Prop where
  load : ∃ found, (loadLatestSnapshot () d).result = .ok found ∧
    (found = none → ∀ i bytes, d.snapshots.find? (snapshotName i) = some bytes → ∀ s, readSnapshot bytes ≠ .ok s) ∧
    ∀ s, found = some s → (∃ bytes, d.snapshots.find? (snapshotName s.index) = some bytes ∧ readSnapshot bytes = .ok s) ∧
      ∀ i bytes t, d.snapshots.find? (snapshotName i) = some bytes → readSnapshot bytes = .ok t → i ≤ s.index
  prune : ∀ keep, ∃ pruned, (pruneSnapshots keep () d).result = .ok pruned ∧
    (∀ i, (pruneSnapshots keep () d).disk.snapshots.find? (snapshotName i) =
      if newer d i < keep then d.snapshots.find? (snapshotName i) else none) ∧
    ∀ i, Kept d keep i → (∀ j, Kept d keep j → i ≤ j) → pruned.oldestIndex = i

section Selection
variable {d : Disk}

/-- The place of a file among the others. -/
theorem newer_of_getElem? (h : Written d) (aligned : Aligned d) {k : Nat} {file : SnapshotFile} (found : (snapshotFiles d)[k]? = some file) :
    newer d file.index = k := by
  have hpairwise : ((snapshotFiles d).map (·.index)).Pairwise fun a b => b < a := List.pairwise_map.mpr (aligned.pairwise h)
  have hplace : ((snapshotFiles d).map (·.index))[k]? = some file.index := by rw [List.getElem?_map, found]; rfl
  have hcount := countP_of_pairwise hpairwise hplace
  rwa [map_index_snapshotFiles, List.countP_reverse] at hcount

/-- A file is removed if it is not among the first ones. -/
theorem mem_drop_names {k : Nat} {file : SnapshotFile} (found : (snapshotFiles d)[k]? = some file) (keep : Nat) :
    file.name ∈ ((snapshotFiles d).drop keep).map (·.name) ↔ keep ≤ k := by
  have hnodup : ((snapshotFiles d).map (·.name)).Nodup := List.pairwise_map.mpr ((snapshotFiles_sorted d).imp fun hlt => hlt.ne')
  have hplace : ((snapshotFiles d).map (·.name))[k]? = some file.name := by rw [List.getElem?_map, found]; rfl
  rw [List.map_drop, List.mem_iff_getElem?]
  constructor
  · rintro ⟨m, hm⟩
    rw [List.getElem?_drop] at hm
    have hsame := (List.getElem?_inj (List.getElem?_eq_some_iff.mp hm).1 hnodup).mp (hm.trans hplace.symm)
    omega
  · intro hle
    refine ⟨k - keep, ?_⟩
    rw [List.getElem?_drop, Nat.add_sub_cancel' hle, hplace]

theorem kept_iff (h : Written d) (aligned : Aligned d) {keep i : Nat} :
    Kept d keep i ↔ ∃ file ∈ (snapshotFiles d).take keep, file.index = i := by
  constructor
  · rintro ⟨hmem, hnewer⟩
    rw [← List.mem_reverse, ← map_index_snapshotFiles] at hmem
    obtain ⟨file, hfile, rfl⟩ := List.mem_map.mp hmem
    obtain ⟨k, hk⟩ := List.mem_iff_getElem?.mp hfile
    rw [newer_of_getElem? h aligned hk] at hnewer
    exact ⟨file, List.mem_iff_getElem?.mpr ⟨k, by rw [List.getElem?_take, if_pos hnewer, hk]⟩, rfl⟩
  · rintro ⟨file, hfile, rfl⟩
    obtain ⟨k, hk⟩ := List.mem_iff_getElem?.mp hfile
    rw [List.getElem?_take] at hk
    split at hk
    · rename_i hlt
      refine ⟨?_, by rwa [newer_of_getElem? h aligned hk]⟩
      rw [← List.mem_reverse, ← map_index_snapshotFiles]
      exact List.mem_map_of_mem (List.mem_of_getElem? hk)
    · cases hk

theorem selectsByIndex_of_aligned (h : Written d) (aligned : Aligned d) : SelectsByIndex d := by
  have hpairwise := aligned.pairwise h
  refine ⟨⟨_, rfl, fun hnone i bytes hbytes s hs => ?_, fun s hfound => ?_⟩, fun keep => ?_⟩
  · have hall := List.findSome?_eq_none_iff.mp hnone ⟨i, snapshotName i, bytes⟩ (h.mem_files.mpr ⟨rfl, hbytes⟩)
    rw [hs] at hall
    cases hall
  · obtain ⟨front, file, rest, hfiles, hread, hfront⟩ := List.findSome?_eq_some_iff.mp hfound
    have hmem : file ∈ snapshotFiles d := by
      rw [hfiles]
      exact List.mem_append_right _ List.mem_cons_self
    obtain ⟨hname, hbytes⟩ := h.mem_files.mp hmem
    have hok : readSnapshot file.bytes = .ok s := by
      cases hresult : readSnapshot file.bytes with
      | error e =>
        rw [hresult] at hread
        cases hread
      | ok t =>
        rw [hresult] at hread
        rw [Option.some.inj hread]
    rw [hname] at hbytes
    have hindex := h.index hbytes hok
    refine ⟨⟨file.bytes, hindex ▸ hbytes, hok⟩, fun i bytes t hi ht => ?_⟩
    have hother : (⟨i, snapshotName i, bytes⟩ : SnapshotFile) ∈ snapshotFiles d := h.mem_files.mpr ⟨rfl, hi⟩
    rw [hfiles] at hother hpairwise
    rw [hindex]
    rcases List.mem_append.mp hother with hother | hother
    · have hfails := hfront _ hother
      rw [ht] at hfails
      cases hfails
    · rcases List.mem_cons.mp hother with rfl | hother
      · exact le_rfl
      · exact ((List.pairwise_cons.mp (List.pairwise_append.mp hpairwise).2.1).1 _ hother).le
  · obtain ⟨d', pruned, hrun, hfind, hlast⟩ := pruneSnapshots_runs keep d
    refine ⟨pruned, hrun.result, fun i => ?_, fun i hkept hleast => ?_⟩
    · rw [hrun.disk, hfind]
      cases hbytes : d.snapshots.find? (snapshotName i) with
      | none => simp
      | some bytes =>
        obtain ⟨k, hk⟩ := List.mem_iff_getElem?.mp (h.mem_files.mpr ⟨rfl, hbytes⟩ : (⟨i, snapshotName i, bytes⟩ : SnapshotFile) ∈ _)
        have hplace : newer d i = k := newer_of_getElem? h aligned hk
        have hdropped := mem_drop_names hk keep
        rw [hplace]
        by_cases hkeep : k < keep
        · rw [if_pos hkeep, if_neg (fun hmem => absurd (hdropped.mp hmem) (not_le.mpr hkeep))]
        · rw [if_neg hkeep, if_pos (hdropped.mpr (not_lt.mp hkeep))]
    · obtain ⟨file, hfile, rfl⟩ := (kept_iff h aligned).mp hkept
      obtain ⟨oldest, holdest⟩ := Option.ne_none_iff_exists'.mp (mt List.getLast?_eq_none_iff.mp (List.ne_nil_of_mem hfile))
      rw [hlast oldest holdest]
      refine le_antisymm ?_ (hleast _ ((kept_iff h aligned).mpr ⟨oldest, List.mem_of_getLast? holdest, rfl⟩))
      obtain ⟨front, hfront⟩ := List.getLast?_eq_some_iff.mp holdest
      have hordered := hpairwise.sublist (List.take_sublist keep _)
      rw [hfront] at hordered hfile
      rcases List.mem_append.mp hfile with hmem | hmem
      · exact ((List.pairwise_append.mp hordered).2.2 _ hmem _ List.mem_cons_self).le
      · rw [List.mem_singleton.mp hmem]

theorem aligned_of_selectsByIndex (h : Written d) (selects : SelectsByIndex d) : Aligned d := by
  intro i hi j hj hlt
  rw [← snapshotName_lt_iff hlt]
  by_contra hnot
  have hnames : snapshotName j < snapshotName i :=
    lt_of_le_of_ne (not_lt.mp hnot) fun heq => hlt.ne' (snapshotName_inj heq)
  obtain ⟨old, hold⟩ := Option.isSome_iff_exists.mp ((mem_indexes h).mp hi)
  obtain ⟨new, hnew⟩ := Option.isSome_iff_exists.mp ((mem_indexes h).mp hj)
  obtain ⟨a, ha⟩ := List.mem_iff_getElem?.mp (h.mem_files.mpr ⟨rfl, hold⟩ : (⟨i, snapshotName i, old⟩ : SnapshotFile) ∈ _)
  obtain ⟨b, hb⟩ := List.mem_iff_getElem?.mp (h.mem_files.mpr ⟨rfl, hnew⟩ : (⟨j, snapshotName j, new⟩ : SnapshotFile) ∈ _)
  -- The greater index comes later, so a pruning removes its file and leaves the other one.
  have hplaces : a < b := by
    rcases lt_trichotomy a b with hab | rfl | hab
    · exact hab
    · rw [ha] at hb
      cases hb
      exact absurd hlt (lt_irrefl _)
    · obtain ⟨hlast, ha⟩ := List.getElem?_eq_some_iff.mp ha
      obtain ⟨hfirst, hb⟩ := List.getElem?_eq_some_iff.mp hb
      have hdescend := List.pairwise_iff_getElem.mp (snapshotFiles_sorted d) b a hfirst hlast hab
      rw [ha, hb] at hdescend
      exact absurd hdescend hnames.not_gt
  obtain ⟨pruned, -, hfiles, -⟩ := selects.prune (a + 1)
  obtain ⟨d', found, hrun, hfind, -⟩ := pruneSnapshots_runs (a + 1) d
  rw [hrun.disk] at hfiles
  have hstays : newer d i < a + 1 := by
    by_contra hmany
    have hgone := hfiles i
    rw [if_neg hmany, hfind, if_neg (fun hmem => absurd ((mem_drop_names ha _).mp hmem) (by omega)), hold] at hgone
    cases hgone
  have hfewer : newer d j ≤ newer d i := List.countP_mono_left fun x _ hx => by
    simp only [decide_eq_true_eq] at hx ⊢
    exact hlt.trans hx
  have hgone := hfiles j
  rw [if_pos (by omega), hfind, if_pos ((mem_drop_names hb _).mpr hplaces), hnew] at hgone
  cases hgone

end Selection

/-- The folder is read and pruned in the order of the indexes if and only if the names are in that order. -/
theorem selectsByIndex_iff {d : Disk} (h : Written d) : SelectsByIndex d ↔ Aligned d :=
  ⟨aligned_of_selectsByIndex h, selectsByIndex_of_aligned h⟩

/-! ### An index of seventeen digits -/

/-- The state after this many events that left nothing. -/
def bareAt (index : Nat) : ChoreographyState := { lastApplied := index }

def bareFile (index : Nat) : File := snapshotBody (bareAt index) ++ Bytes.ofNat 4 (Bytes.crc32 (snapshotBody (bareAt index))).toNat

/-- A folder with two snapshots. -/
def twoSnapshots (i j : Nat) : Disk where
  snapshots := (OrdMap.empty.insert (snapshotName i) (bareFile i)).insert (snapshotName j) (bareFile j)

theorem written_twoSnapshots {i j : Nat} (hi : i < 2 ^ 64) (hj : j < 2 ^ 64) (sizei : (snapshotPayload (bareAt i)).toList.length ≤ maxPayload)
    (sizej : (snapshotPayload (bareAt j)).toList.length ≤ maxPayload) : Written (twoSnapshots i j) := by
  intro name bytes hfind
  unfold twoSnapshots at hfind
  rw [OrdMap.find?_insert, OrdMap.find?_insert, OrdMap.find?_empty] at hfind
  split at hfind
  · rename_i hname
    cases hfind
    exact ⟨bareAt j, hj, hname.symm, encodeSnapshot_ok sizej⟩
  · split at hfind
    · rename_i hname
      cases hfind
      exact ⟨bareAt i, hi, hname.symm, encodeSnapshot_ok sizei⟩
    · cases hfind

theorem indexes_twoSnapshots {i j : Nat} (written : Written (twoSnapshots i j)) {k : Nat} :
    k ∈ indexes (twoSnapshots i j) ↔ k = i ∨ k = j := by
  rw [mem_indexes written]
  unfold twoSnapshots
  rw [OrdMap.find?_insert, OrdMap.find?_insert, OrdMap.find?_empty]
  constructor
  · intro hsome
    split at hsome
    · exact .inr (snapshotName_inj ‹_›).symm
    · split at hsome
      · exact .inl (snapshotName_inj ‹_›).symm
      · cases hsome
  · rintro (rfl | rfl)
    · split <;> simp
    · simp

/-- The name of index 10¹⁶ sorts below the name of the index before it. -/
theorem selects_by_name : Written (twoSnapshots (10 ^ 16 - 1) (10 ^ 16)) ∧ ¬SelectsByIndex (twoSnapshots (10 ^ 16 - 1) (10 ^ 16)) := by
  have hwritten : Written (twoSnapshots (10 ^ 16 - 1) (10 ^ 16)) :=
    written_twoSnapshots (by decide) (by decide) (by decide +kernel) (by decide +kernel)
  refine ⟨hwritten, fun selects => ?_⟩
  have hmem := @indexes_twoSnapshots (10 ^ 16 - 1) (10 ^ 16) hwritten
  have haligned := aligned_of_selectsByIndex hwritten selects _ (hmem.mpr (.inl rfl)) _ (hmem.mpr (.inr rfl)) (by decide)
  exact absurd haligned (by decide +kernel)

theorem selectsByIndex_small : Written (twoSnapshots 1 2) ∧ SelectsByIndex (twoSnapshots 1 2) := by
  have hwritten : Written (twoSnapshots 1 2) := written_twoSnapshots (by decide) (by decide) (by decide +kernel) (by decide +kernel)
  refine ⟨hwritten, (selectsByIndex_iff hwritten).mpr fun i hi j hj hlt => ?_⟩
  have hmem := @indexes_twoSnapshots 1 2 hwritten
  rcases hmem.mp hi with rfl | rfl <;> rcases hmem.mp hj with rfl | rfl
  · omega
  · decide +kernel
  · omega
  · omega

end Choreolog.Storage
