import Choreolog.Storage.Store
import Choreolog.Theorems.Reach

/-! # Snapshot installs

The journal's text is exact: what decodes is the encoding of one transaction. Once it is on the disk the
install is decided, so stopping anywhere and recovering, any number of times, leaves the old files or the new
ones. -/

namespace Choreolog.Storage
open Lib State

namespace SnapshotTransaction

/-! ### The codec -/

theorem encode_cases {t : SnapshotTransaction} {bytes : File} (h : t.encode = .ok bytes) :
    t.snapshot.length + t.metadata.length + t.wal.length ≤ maximumBytes - headerBytes - 4 ∧
      t.index ≠ 0 ∧ t.snapshot ≠ [] ∧ t.metadata ≠ [] ∧ t.wal ≠ [] ∧
      bytes = t.body ++ Bytes.ofNat 4 (Bytes.crc32 t.body).toNat := by
  unfold encode at h
  split at h
  · cases h
  · rename_i hsize
    split at h
    · cases h
    · rename_i hparts
      simp only [not_or] at hparts
      cases h
      exact ⟨not_lt.mp hsize, hparts.1, hparts.2.1, hparts.2.2.1, hparts.2.2.2, rfl⟩

theorem encode_ok {t : SnapshotTransaction}
    (size : t.snapshot.length + t.metadata.length + t.wal.length ≤ maximumBytes - headerBytes - 4) (index : t.index ≠ 0)
    (snapshot : t.snapshot ≠ []) (metadata : t.metadata ≠ []) (wal : t.wal ≠ []) :
    t.encode = .ok (t.body ++ Bytes.ofNat 4 (Bytes.crc32 t.body).toNat) := by
  unfold encode
  rw [if_neg (not_lt.mpr size), if_neg (by simp [index, snapshot, metadata, wal])]

theorem readPart_cases {bytes part : File} {field cursor next : Nat} (h : readPart bytes field cursor = .ok (part, next)) :
    part ≠ [] ∧ part = Bytes.slice cursor part.length bytes ∧ next = cursor + part.length ∧ next ≤ bytes.length - 4 ∧
      Bytes.toNat (Bytes.slice field 4 bytes) = part.length := by
  unfold readPart at h
  dsimp only at h
  split at h
  · cases h
  · rename_i hlen
    rw [not_or, not_lt] at hlen
    cases h
    have hslice : (Bytes.slice cursor (Bytes.toNat (Bytes.slice field 4 bytes)) bytes).length =
        Bytes.toNat (Bytes.slice field 4 bytes) := Bytes.length_slice (by omega)
    refine ⟨fun hnil => hlen.1 ?_, by rw [hslice], by rw [hslice], by omega, hslice.symm⟩
    rw [← hslice, hnil]
    rfl

theorem readPart_ok {bytes part : File} {field cursor : Nat} (hlength : Bytes.toNat (Bytes.slice field 4 bytes) = part.length)
    (hne : part ≠ []) (hfits : part.length ≤ bytes.length - 4 - cursor) (hslice : Bytes.slice cursor part.length bytes = part) :
    readPart bytes field cursor = .ok (part, cursor + part.length) := by
  have hpos := List.length_pos_iff.mpr hne
  unfold readPart
  dsimp only
  rw [hlength, if_neg (by omega), hslice]

theorem decode_cases {bytes : File} {t : SnapshotTransaction} (h : decode bytes = .ok t) :
    headerBytes + 4 ≤ bytes.length ∧ bytes.length ≤ maximumBytes ∧
      Bytes.toText (Bytes.slice 0 8 bytes) = "CHOSTXN1" ∧ Bytes.toNat (Bytes.slice 8 4 bytes) = 1 ∧
      Bytes.toNat (Bytes.slice 12 8 bytes) ≠ 0 ∧
      (Bytes.crc32 (bytes.take (bytes.length - 4))).toNat = Bytes.toNat (Bytes.slice (bytes.length - 4) 4 bytes) ∧
      t.index = UInt64.ofNat (Bytes.toNat (Bytes.slice 12 8 bytes)) ∧
      readPart bytes 20 headerBytes = .ok (t.snapshot, headerBytes + t.snapshot.length) ∧
      readPart bytes 24 (headerBytes + t.snapshot.length) =
        .ok (t.metadata, headerBytes + t.snapshot.length + t.metadata.length) ∧
      readPart bytes 28 (headerBytes + t.snapshot.length + t.metadata.length) = .ok (t.wal, bytes.length - 4) := by
  unfold decode at h
  split at h
  · cases h
  · rename_i hsize
    split at h
    · cases h
    · rename_i hheader
      simp only [not_or, not_not, not_lt] at hsize hheader
      obtain ⟨⟨snapshot, c1⟩, h1, h⟩ := bind_ok h
      obtain ⟨⟨metadata, c2⟩, h2, h⟩ := bind_ok h
      obtain ⟨⟨wal, c3⟩, h3, h⟩ := bind_ok h
      dsimp only at h2 h3 h
      split at h
      · cases h
      · rename_i hend
        rw [not_not] at hend
        cases h
        obtain ⟨-, -, rfl, -⟩ := readPart_cases h1
        obtain ⟨-, -, rfl, -⟩ := readPart_cases h2
        exact ⟨hsize.1, hsize.2, hheader.1, hheader.2.1, hheader.2.2.1, hheader.2.2.2, rfl, h1, h2, hend ▸ h3⟩

/-- A journal that decodes is the encoding of what it decodes to. -/
theorem encode_of_decode {bytes : File} {t : SnapshotTransaction} (h : decode bytes = .ok t) : t.encode = .ok bytes := by
  obtain ⟨hmin, hmax, hmagic, hversion, hindex, hcrc, hidx, h1, h2, h3⟩ := decode_cases h
  obtain ⟨hs, hsnapshot, -, -, hslen⟩ := readPart_cases h1
  obtain ⟨hm, hmetadata, -, -, hmlen⟩ := readPart_cases h2
  obtain ⟨hw, hwal, hend, -, hwlen⟩ := readPart_cases h3
  unfold headerBytes at hmin hsnapshot hmetadata hwal hend
  have hnat : Bytes.toNat (Bytes.slice 12 8 bytes) < 2 ^ 64 := by
    refine (Bytes.toNat_lt _).trans_le ?_
    rw [Bytes.length_slice (by omega)]
    decide
  have hindexNat : t.index.toNat = Bytes.toNat (Bytes.slice 12 8 bytes) := by
    rw [hidx, UInt64.toNat_ofNat', Nat.mod_eq_of_lt hnat]
  -- The fields of the body are the slices of the file, one after the other.
  have hbody : t.body = bytes.take (bytes.length - 4) := by
    have hfield : ∀ {offset width n : Nat}, offset + width ≤ bytes.length → Bytes.toNat (Bytes.slice offset width bytes) = n →
        Bytes.ofNat width n = Bytes.slice offset width bytes :=
      fun hle hn => Bytes.ofNat_eq (Bytes.length_slice hle) hn
    have hparts : t.snapshot ++ (t.metadata ++ (t.wal ++ bytes.drop (bytes.length - 4))) = bytes.drop 32 := by
      have hw' := Bytes.slice_append_drop (32 + t.snapshot.length + t.metadata.length) t.wal.length bytes
      have hm' := Bytes.slice_append_drop (32 + t.snapshot.length) t.metadata.length bytes
      have hs' := Bytes.slice_append_drop 32 t.snapshot.length bytes
      rw [← hwal] at hw'
      rw [← hmetadata] at hm'
      rw [← hsnapshot] at hs'
      rw [hend, hw', hm', hs']
    have hchain : t.body ++ bytes.drop (bytes.length - 4) = bytes := by
      unfold body
      rw [Bytes.ofText_eq hmagic, hfield (by omega) hversion, hindexNat, hfield (by omega) rfl, hfield (by omega) hslen,
        hfield (by omega) hmlen, hfield (by omega) hwlen]
      simp only [List.append_assoc]
      rw [hparts, Bytes.slice_append_drop 28 4, Bytes.slice_append_drop 24 4, Bytes.slice_append_drop 20 4,
        Bytes.slice_append_drop 12 8, Bytes.slice_append_drop 8 4, Bytes.slice_append_drop 0 8, List.drop_zero]
    exact List.append_cancel_right (hchain.trans (List.take_append_drop _ _).symm)
  have hsum : Bytes.ofNat 4 (Bytes.crc32 t.body).toNat = bytes.drop (bytes.length - 4) := by
    have hslice : Bytes.slice (bytes.length - 4) 4 bytes = bytes.drop (bytes.length - 4) :=
      List.take_of_length_le (by rw [List.length_drop]; omega)
    rw [hbody, ← hslice]
    exact Bytes.ofNat_eq (Bytes.length_slice (by omega)) hcrc.symm
  have hne : t.index ≠ 0 := by
    intro hzero
    rw [hzero] at hindexNat
    exact hindex hindexNat.symm
  have hsize : t.snapshot.length + t.metadata.length + t.wal.length ≤ maximumBytes - headerBytes - 4 := by
    unfold headerBytes
    omega
  rw [encode_ok hsize hne hs hm hw, hsum, hbody, List.take_append_drop]

theorem length_body (t : SnapshotTransaction) :
    t.body.length = headerBytes + t.snapshot.length + t.metadata.length + t.wal.length := by
  have hmagic : (Bytes.ofText "CHOSTXN1").length = 8 := rfl
  simp only [body, List.length_append, hmagic, Bytes.length_ofNat, headerBytes]

theorem decode_of_encode {bytes : File} {t : SnapshotTransaction} (h : t.encode = .ok bytes) : decode bytes = .ok t := by
  obtain ⟨hsize, hindex, hs, hm, hw, rfl⟩ := encode_cases h
  have hbody := length_body t
  have hmagic : (Bytes.ofText "CHOSTXN1").length = 8 := rfl
  have hnat : ∀ width n : Nat, (Bytes.ofNat width n).length = width := Bytes.length_ofNat
  have hlen : (t.body ++ Bytes.ofNat 4 (Bytes.crc32 t.body).toNat).length - 4 = t.body.length := by
    rw [List.length_append, hnat]
    omega
  have hcrc : (Bytes.crc32 t.body).toNat < 256 ^ 4 := (Bytes.crc32 t.body).toNat_lt
  have hpart : ∀ n, n ≤ maximumBytes - headerBytes - 4 → n < 256 ^ 4 := fun n hn => hn.trans_lt (by decide)
  unfold headerBytes at hbody
  -- One field after the other, each where it was written.
  have h0 : Bytes.toText (Bytes.slice 0 8 (t.body ++ Bytes.ofNat 4 (Bytes.crc32 t.body).toNat)) = "CHOSTXN1" := by
    simp only [body, List.append_assoc]
    rw [Bytes.slice_here hmagic]
    exact Bytes.toText_ofText (by decide)
  have h8 : Bytes.toNat (Bytes.slice 8 4 (t.body ++ Bytes.ofNat 4 (Bytes.crc32 t.body).toNat)) = 1 := by
    simp only [body, List.append_assoc]
    rw [Bytes.slice_past hmagic (by decide), Bytes.slice_here (hnat 4 _), Bytes.toNat_ofNat (by decide)]
  have h12 : Bytes.toNat (Bytes.slice 12 8 (t.body ++ Bytes.ofNat 4 (Bytes.crc32 t.body).toNat)) = t.index.toNat := by
    simp only [body, List.append_assoc]
    rw [Bytes.slice_past hmagic (by decide), Bytes.slice_past (hnat 4 _) (by decide), Bytes.slice_here (hnat 8 _),
      Bytes.toNat_ofNat t.index.toNat_lt]
  have h20 : Bytes.toNat (Bytes.slice 20 4 (t.body ++ Bytes.ofNat 4 (Bytes.crc32 t.body).toNat)) = t.snapshot.length := by
    simp only [body, List.append_assoc]
    rw [Bytes.slice_past hmagic (by decide), Bytes.slice_past (hnat 4 _) (by decide), Bytes.slice_past (hnat 8 _) (by decide),
      Bytes.slice_here (hnat 4 _), Bytes.toNat_ofNat (hpart _ (by omega))]
  have h24 : Bytes.toNat (Bytes.slice 24 4 (t.body ++ Bytes.ofNat 4 (Bytes.crc32 t.body).toNat)) = t.metadata.length := by
    simp only [body, List.append_assoc]
    rw [Bytes.slice_past hmagic (by decide), Bytes.slice_past (hnat 4 _) (by decide), Bytes.slice_past (hnat 8 _) (by decide),
      Bytes.slice_past (hnat 4 _) (by decide), Bytes.slice_here (hnat 4 _), Bytes.toNat_ofNat (hpart _ (by omega))]
  have h28 : Bytes.toNat (Bytes.slice 28 4 (t.body ++ Bytes.ofNat 4 (Bytes.crc32 t.body).toNat)) = t.wal.length := by
    simp only [body, List.append_assoc]
    rw [Bytes.slice_past hmagic (by decide), Bytes.slice_past (hnat 4 _) (by decide), Bytes.slice_past (hnat 8 _) (by decide),
      Bytes.slice_past (hnat 4 _) (by decide), Bytes.slice_past (hnat 4 _) (by decide), Bytes.slice_here (hnat 4 _),
      Bytes.toNat_ofNat (hpart _ (by omega))]
  have hrest : ∀ offset count, 32 ≤ offset →
      Bytes.slice offset count (t.body ++ Bytes.ofNat 4 (Bytes.crc32 t.body).toNat) = Bytes.slice (offset - 32) count
        (t.snapshot ++ (t.metadata ++ (t.wal ++ Bytes.ofNat 4 (Bytes.crc32 t.body).toNat))) := by
    intro offset count hoffset
    simp only [body, List.append_assoc]
    rw [Bytes.slice_past hmagic (by omega), Bytes.slice_past (hnat 4 _) (by omega), Bytes.slice_past (hnat 8 _) (by omega),
      Bytes.slice_past (hnat 4 _) (by omega), Bytes.slice_past (hnat 4 _) (by omega), Bytes.slice_past (hnat 4 _) (by omega)]
    congr 1
  have htotal : (t.body ++ Bytes.ofNat 4 (Bytes.crc32 t.body).toNat).length = t.body.length + 4 := by
    rw [List.length_append, hnat]
  have htake : (t.body ++ Bytes.ofNat 4 (Bytes.crc32 t.body).toNat).take t.body.length = t.body := List.take_left
  have hsum : Bytes.toNat (Bytes.slice t.body.length 4 (t.body ++ Bytes.ofNat 4 (Bytes.crc32 t.body).toNat)) =
      (Bytes.crc32 t.body).toNat := by
    rw [Bytes.slice_past rfl le_rfl, Nat.sub_self, Bytes.slice, List.drop_zero, List.take_of_length_le (hnat 4 _).le,
      Bytes.toNat_ofNat hcrc]
  generalize t.body ++ Bytes.ofNat 4 (Bytes.crc32 t.body).toNat = bytes at *
  have h1 : readPart bytes 20 headerBytes = .ok (t.snapshot, 32 + t.snapshot.length) := by
    refine readPart_ok h20 hs (by unfold headerBytes; omega) ?_
    rw [headerBytes, hrest _ _ le_rfl, Nat.sub_self, Bytes.slice_here rfl]
  have h2 : readPart bytes 24 (32 + t.snapshot.length) = .ok (t.metadata, 32 + t.snapshot.length + t.metadata.length) := by
    refine readPart_ok h24 hm (by omega) ?_
    rw [hrest _ _ (by omega), Bytes.slice_past rfl (by omega), show 32 + t.snapshot.length - 32 - t.snapshot.length = 0 by omega,
      Bytes.slice_here rfl]
  have h3 : readPart bytes 28 (32 + t.snapshot.length + t.metadata.length) =
      .ok (t.wal, 32 + t.snapshot.length + t.metadata.length + t.wal.length) := by
    refine readPart_ok h28 hw (by omega) ?_
    rw [hrest _ _ (by omega), Bytes.slice_past rfl (by omega), Bytes.slice_past rfl (by omega),
      show 32 + t.snapshot.length + t.metadata.length - 32 - t.snapshot.length - t.metadata.length = 0 by omega,
      Bytes.slice_here rfl]
  have hindexNat : t.index.toNat ≠ 0 := fun hzero => hindex (UInt64.toNat_inj.mp hzero)
  unfold decode
  rw [if_neg (by unfold headerBytes; unfold headerBytes maximumBytes at hsize; unfold maximumBytes; omega), if_neg]
  · rw [h1]
    change (readPart bytes 24 (32 + t.snapshot.length) >>= _) = _
    rw [h2]
    change (readPart bytes 28 (32 + t.snapshot.length + t.metadata.length) >>= _) = _
    rw [h3]
    change (if 32 + t.snapshot.length + t.metadata.length + t.wal.length ≠ bytes.length - 4 then _ else _) = _
    rw [if_neg (by omega), h12, UInt64.ofNat_toNat]
    rfl
  · rw [h0, h8, h12, hlen, htake, hsum]
    simp [hindexNat]

end SnapshotTransaction

/-! ### Deciding and completing -/

/-- The three files that an install replaces. -/
def Files.images (files : Files) (t : SnapshotTransaction) : Option File × Option File × Option File :=
  (files.snapshots.find? (snapshotName t.index.toNat), files.metadata, files.wal)

def SnapshotTransaction.images (t : SnapshotTransaction) : Option File × Option File × Option File :=
  (some t.snapshot, some t.metadata, some t.wal)

/-- The directory between processes. -/
def Files.rest (files : Files) : Disk := { files with }

section Stages
variable {files : Files} {t : SnapshotTransaction} {bytes : File} {d d' : Disk} {μ : Type}

/-- What is to hold of the disks before the decision, and of the other snapshot files all along: each is
    described by its contents and by the contents that a crash may bring back. -/
structure Basis (t : SnapshotTransaction) (before : Disk → Prop) (other : String → Option File → Option File → Prop) : Prop where
  crashed : ∀ {d d'}, before d → Crashed d d' → before d'
  idle : ∀ {d}, before d → d.journal = none ∧ d.removed = none
  others : ∀ {d}, before d → ∀ name ≠ snapshotName t.index.toNat, other name (d.snapshots.find? name) (d.pruned.find? name)
  kept : ∀ {name file back}, other name file back → other name file none
  back : ∀ {name back}, other name none back → other name back none

variable {before : Disk → Prop} {other : String → Option File → Option File → Prop}

/-- The other snapshot files are as they should be. -/
def Others (t : SnapshotTransaction) (other : String → Option File → Option File → Prop) (d : Disk) : Prop :=
  ∀ name ≠ snapshotName t.index.toNat, other name (d.snapshots.find? name) (d.pruned.find? name)

theorem Others.crashed (basis : Basis t before other) (h : Others t other d) (c : Crashed d d') : Others t other d' := by
  intro name hne
  rw [c.pruned, OrdMap.find?_empty]
  rcases c.snapshots name with hname | ⟨hnone, hname⟩
  · rw [hname]
    exact basis.kept (h name hne)
  · rw [hname]
    have := h name hne
    rw [hnone] at this
    exact basis.back this

/-- The files of the install are in place, and no crash changes them. -/
structure Installed (t : SnapshotTransaction) (other : String → Option File → Option File → Prop) (d : Disk) : Prop where
  others : Others t other d
  images : d.images t = t.images
  tail : d.tail = []
  pruned : d.pruned.find? (snapshotName t.index.toNat) = none
  journal : d.journal = none

theorem Installed.crashed (basis : Basis t before other) (h : Installed t other d) (c : Crashed d d') (hj : d'.journal = none) :
    Installed t other d' := by
  have himages := h.images
  simp only [Files.images, SnapshotTransaction.images, Prod.mk.injEq] at himages
  obtain ⟨hsnapshot, hmetadata, hwal⟩ := himages
  refine ⟨h.others.crashed basis c, ?_, c.tail, by rw [c.pruned, OrdMap.find?_empty], hj⟩
  have hsnapshot' : d'.snapshots.find? (snapshotName t.index.toNat) = some t.snapshot := by
    rcases c.snapshots (snapshotName t.index.toNat) with hname | ⟨hnone, -⟩
    · exact hname.trans hsnapshot
    · exact nomatch hnone.symm.trans hsnapshot
  have hwal' : d'.wal = some t.wal := by
    rcases c.wal with hname | hname
    · exact hname.trans hwal
    · rw [hname, h.tail, hwal, Option.map_some, List.append_nil]
  simp only [Files.images, SnapshotTransaction.images, hsnapshot', c.metadata, hmetadata, hwal']

/-- Where an install stands: not decided, decided by the journal on the disk, or completed. The journal of a
    completed install may come back until its removal is synced. -/
inductive Stage (t : SnapshotTransaction) (bytes : File) (before : Disk → Prop) (other : String → Option File → Option File → Prop)
    (d : Disk) : Prop
  | before (undecided : before d)
  | decided (others : Others t other d) (journal : d.journal = some bytes) (removed : d.removed = none)
  | completed (installed : Installed t other d) (removed : d.removed = none ∨ d.removed = some bytes)

theorem Stage.crashed (basis : Basis t before other) (h : Stage t bytes before other d) (c : Crashed d d') :
    Stage t bytes before other d' := by
  cases h with
  | before undecided => exact .before (basis.crashed undecided c)
  | decided others journal removed =>
    refine .decided (others.crashed basis c) ?_ c.removed
    rcases c.journal with hj | ⟨hnone, -⟩
    · exact hj.trans journal
    · exact nomatch hnone.symm.trans journal
  | completed installed removed =>
    rcases c.journal with hj | ⟨-, hj⟩
    · exact .completed (installed.crashed basis c (hj.trans installed.journal)) (.inl c.removed)
    · rcases removed with hr | hr
      · exact .completed (installed.crashed basis c (hj.trans hr)) (.inl c.removed)
      · exact .decided (installed.others.crashed basis c) (hj.trans hr) c.removed

/-- The journal is there, and the files that the flags name have been replaced. -/
structure Redo (t : SnapshotTransaction) (bytes : File) (other : String → Option File → Option File → Prop)
    (snapshot metadata wal : Bool) (d : Disk) : Prop where
  others : Others t other d
  journal : d.journal = some bytes
  removed : d.removed = none
  snapshot : snapshot = true → d.snapshots.find? (snapshotName t.index.toNat) = some t.snapshot ∧
    d.pruned.find? (snapshotName t.index.toNat) = none
  metadata : metadata = true → d.metadata = some t.metadata
  wal : wal = true → d.wal = some t.wal ∧ d.tail = []

theorem Redo.stage {a b c : Bool} (h : Redo t bytes other a b c d) : Stage t bytes before other d :=
  .decided h.others h.journal h.removed

theorem Redo.installed (h : Redo t bytes other true true true d) :
    Installed t other { d with journal := none, removed := d.journal } where
  others := h.others
  images := by
    simp only [Files.images, SnapshotTransaction.images, (h.snapshot rfl).1, h.metadata rfl, (h.wal rfl).1]
  tail := (h.wal rfl).2
  pruned := (h.snapshot rfl).2
  journal := rfl

theorem applyTransaction_spec (error : Error → μ → Disk → Prop) :
    Program.Triple (fun _ d => Redo t bytes other false false false d) (applyTransaction t : Store μ Unit)
      (fun _ _ d => Installed t other d ∧ d.removed = none) error (Stage t bytes before other) := by
  have hstage : ∀ {a b c : Bool} d, Redo t bytes other a b c d → Stage t bytes before other d := fun _ h => h.stage
  refine .bind (fun _ _ => Redo t bytes other false false false) (.replace (fun d h => ?_) hstage hstage) fun _ => ?_
  · exact ⟨h.others, h.journal, rfl, nofun, nofun, nofun⟩
  refine .bind (fun _ _ => Redo t bytes other true false false) (.replace (fun d h => ?_) hstage hstage) fun _ => ?_
  · refine ⟨fun name hne => ?_, h.journal, h.removed, fun _ => ⟨?_, ?_⟩, nofun, nofun⟩
    · rw [OrdMap.find?_insert, if_neg hne.symm, OrdMap.find?_erase, if_neg hne]
      exact h.others name hne
    · rw [OrdMap.find?_insert, if_pos rfl]
    · rw [OrdMap.find?_erase, if_pos rfl]
  refine .bind (fun _ _ => Redo t bytes other true true false) (.replace (fun d h => ?_) hstage hstage) fun _ => ?_
  · exact ⟨h.others, h.journal, h.removed, h.snapshot, fun _ => rfl, nofun⟩
  refine .bind (fun _ _ => Redo t bytes other true true true) (.replace (fun d h => ?_) hstage hstage) fun _ => ?_
  · exact ⟨h.others, h.journal, h.removed, h.snapshot, h.metadata, fun _ => ⟨rfl, rfl⟩⟩
  refine .bind (fun a _ d => a = d ∧ Redo t bytes other true true true d) .disk fun seen => .ite (fun hnone => ?_) fun _ => ?_
  · rintro _ _ ⟨rfl, h⟩
    rw [h.journal] at hnone
    cases hnone
  refine .bind (fun _ _ d => Installed t other d ∧ d.removed = some bytes) (.write ?_ ?_) fun _ => .replace (fun d h => ?_)
    (fun d h => .completed h.1 (.inr h.2)) fun d h => .completed h.1 (.inl h.2)
  · rintro _ d ⟨-, h⟩
    exact ⟨h.installed, h.journal⟩
  · rintro _ d ⟨-, h⟩
    exact ⟨h.stage, nofun, .completed h.installed (.inr h.journal)⟩
  · exact ⟨⟨h.1.others, h.1.images, h.1.tail, h.1.pruned, h.1.journal⟩, rfl⟩

/-- What a recovery leaves: a disk from before the decision or one with the install completed, and no
    journal. -/
structure Settled (t : SnapshotTransaction) (before : Disk → Prop) (other : String → Option File → Option File → Prop) (d : Disk) :
    Prop where
  files : before d ∨ Installed t other d
  journal : d.journal = none
  removed : d.removed = none

theorem Settled.stage (h : Settled t before other d) : Stage t bytes before other d := by
  rcases h.files with hold | hnew
  · exact .before hold
  · exact .completed hnew (.inl h.removed)

theorem Settled.synced (basis : Basis t before other) (h : Stage t bytes before other d) (journal : d.journal = none) :
    Settled t before other { d with removed := none } := by
  cases h with
  | before undecided =>
    have hsame : ({ d with removed := none } : Disk) = d := by
      rw [← (basis.idle undecided).2]
    exact ⟨.inl (hsame.symm ▸ undecided), journal, rfl⟩
  | decided others hjournal removed => exact nomatch journal.symm.trans hjournal
  | completed h removed => exact ⟨.inr ⟨h.others, h.images, h.tail, h.pruned, h.journal⟩, journal, rfl⟩

theorem recoverSnapshotTransaction_spec (basis : Basis t before other) (encoded : t.encode = .ok bytes)
    (error : Error → μ → Disk → Prop) :
    Program.Triple (fun _ d => Stage t bytes before other d) (recoverSnapshotTransaction : Store μ Unit)
      (fun _ _ d => Settled t before other d) error (Stage t bytes before other) := by
  refine .bind (fun a _ d => a = d ∧ Stage t bytes before other d) .disk fun seen => ?_
  cases hjournal : seen.journal with
  | none =>
    refine .write ?_ ?_
    · rintro _ d ⟨rfl, h⟩
      exact .synced basis h hjournal
    · rintro _ d ⟨rfl, h⟩
      exact ⟨h, nofun, (Settled.synced basis h hjournal).stage⟩
  | some found =>
    have hredo : ∀ (s : μ) (d : Disk), seen = d ∧ Stage t bytes before other d → found = bytes ∧ Redo t bytes other false false false d := by
      rintro _ d ⟨rfl, h⟩
      cases h with
      | before undecided => exact nomatch hjournal.symm.trans (basis.idle undecided).1
      | decided others journal removed =>
        exact ⟨Option.some.inj (hjournal.symm.trans journal), others, journal, removed, nofun, nofun, nofun⟩
      | completed installed removed => exact nomatch hjournal.symm.trans installed.journal
    have hdecode := SnapshotTransaction.decode_of_encode encoded
    refine .fact (fun s d hs => (hredo s d hs).1) fun heq => ?_
    subst heq
    refine .strengthen (.ite (fun hlong => ?_) fun _ => ?_) fun s d hs => (hredo s d hs).2
    · exact absurd hlong (not_lt.mpr (SnapshotTransaction.decode_cases hdecode).2.1)
    · rw [hdecode]
      refine .bind (fun value _ d => value = t ∧ Redo t found other false false false d) (.of ?_ nofun) fun value =>
        .fact (fun _ _ h => h.1) fun heq => ?_
      · rintro value _ d hvalue h
        exact ⟨(Except.ok.inj hvalue).symm, h⟩
      · subst heq
        refine (applyTransaction_spec error).consequence (fun _ _ h => h.2) ?_ (fun _ _ _ h => h) fun _ h => h
        rintro _ _ d ⟨hinstalled, hremoved⟩
        exact ⟨.inr hinstalled, hinstalled.journal, hremoved⟩

theorem commitSnapshotTransaction_spec (basis : Basis t before other) (encoded : t.encode = .ok bytes)
    (error : Error → μ → Disk → Prop) :
    Program.Triple (fun _ d => before d) (commitSnapshotTransaction t : Store μ Unit)
      (fun _ _ d => Installed t other d ∧ d.removed = none) error (Stage t bytes before other) := by
  refine .bind (fun a _ d => a = d ∧ before d) .disk fun seen => .ite (fun hsome => ?_) fun _ => ?_
  · rintro _ _ ⟨rfl, h⟩
    rw [(basis.idle h).1] at hsome
    cases hsome
  rw [encoded]
  refine .bind (fun value _ d => value = bytes ∧ before d) (.of ?_ nofun) fun value => .fact (fun _ _ h => h.1) fun heq => ?_
  · rintro value _ d hvalue ⟨-, h⟩
    exact ⟨(Except.ok.inj hvalue).symm, h⟩
  subst heq
  refine .bind (fun _ _ d => before d) (.strengthen (.replace (fun d h => ?_) (fun d h => .before h) fun d h => .before h)
    fun _ _ h => h.2) fun _ => ?_
  · have hsame : ({ d with removed := none } : Disk) = d := by
      rw [← (basis.idle h).2]
    exact hsame.symm ▸ h
  refine .bind (fun _ _ d => Redo t value other false false false d) (.replace (fun d h => ?_) (fun d h => .before h)
    fun d h => h.stage) fun _ => applyTransaction_spec error
  exact ⟨fun name hne => basis.others h name hne, rfl, rfl, nofun, nofun, nofun⟩

end Stages

/-! ### Stops and recoveries -/

theorem recoverSnapshotTransaction_idle {μ : Type} {d : Disk} (s : μ) (journal : d.journal = none) (removed : d.removed = none) :
    recoverSnapshotTransaction s d = ⟨.ok (), s, d, [d, d]⟩ := by
  have hsame : ({ d with removed := none } : Disk) = d := by
    rw [← removed]
  unfold recoverSnapshotTransaction
  rw [Program.bind_of_ok (a := d) rfl]
  simp only [Program.disk, journal, syncDirectory, Program.write, hsame, List.nil_append]

theorem recoverSnapshotTransaction_damaged {μ : Type} {d : Disk} {bytes : File} (s : μ) (journal : d.journal = some bytes)
    (damaged : ∀ t : SnapshotTransaction, t.encode ≠ .ok bytes) :
    ∃ e, recoverSnapshotTransaction s d = ⟨.error e, s, d, []⟩ := by
  unfold recoverSnapshotTransaction
  rw [Program.bind_of_ok (a := d) rfl]
  simp only [Program.disk, journal, List.nil_append]
  split
  · exact ⟨_, rfl⟩
  · cases hdecode : SnapshotTransaction.decode bytes with
    | error e => exact ⟨e, rfl⟩
    | ok t => exact absurd (SnapshotTransaction.encode_of_decode hdecode) (damaged t)

theorem commitSnapshotTransaction_refused {μ : Type} {d : Disk} {t : SnapshotTransaction} (s : μ)
    (h : d.journal ≠ none ∨ ∃ e, t.encode = .error e) : ∃ e, commitSnapshotTransaction t s d = ⟨.error e, s, d, []⟩ := by
  unfold commitSnapshotTransaction
  rw [Program.bind_of_ok (a := d) rfl]
  simp only [Program.disk, List.nil_append]
  split
  · exact ⟨_, rfl⟩
  · rename_i hnone
    rcases h with hsome | ⟨e, he⟩
    · rw [Bool.not_eq_true, Option.isSome_eq_false_iff, Option.isNone_iff_eq_none] at hnone
      exact absurd hnone hsome
    · rw [he]
      exact ⟨e, rfl⟩

/-- The recovery returns and leaves this disk. -/
def Recovers (d d' : Disk) : Prop :=
  (recoverSnapshotTransaction () d).result = .ok () ∧ (recoverSnapshotTransaction () d).disk = d'

/-- The disks that stopping an install, and then any number of recoveries, may leave. -/
inductive Installing (files : Files) (t : SnapshotTransaction) : Disk → Prop
  | stopped {i : Disk} (image : i ∈ (commitSnapshotTransaction t () files.rest).images) : Installing files t i
  | returned : Installing files t (commitSnapshotTransaction t () files.rest).disk
  | recovering {d i : Disk} (h : Installing files t d) (image : i ∈ (recoverSnapshotTransaction () d).images) : Installing files t i
  | recovered {d : Disk} (h : Installing files t d) : Installing files t (recoverSnapshotTransaction () d).disk
  | crashed {d d' : Disk} (h : Installing files t d) (c : Crashed d d') : Installing files t d'

theorem Recovers.unique {d d₁ d₂ : Disk} (h₁ : Recovers d d₁) (h₂ : Recovers d d₂) : d₁ = d₂ := h₁.2.symm.trans h₂.2

theorem Recovers.idle {d : Disk} (journal : d.journal = none) (removed : d.removed = none) : Recovers d d := by
  have h := recoverSnapshotTransaction_idle () journal removed
  exact ⟨by rw [h], by rw [h]⟩

section Outcomes
variable {files : Files} {t u : SnapshotTransaction} {bytes : File} {d d' : Disk} {before : Disk → Prop}
  {other : String → Option File → Option File → Prop}

theorem Stage.recovers (basis : Basis u before other) (encoded : u.encode = .ok bytes) (h : Stage u bytes before other d) :
    (∀ i ∈ (recoverSnapshotTransaction () d).images, Stage u bytes before other i) ∧
      ∃ d', Recovers d d' ∧ Settled u before other d' := by
  obtain ⟨himages, hresult⟩ := recoverSnapshotTransaction_spec basis encoded (fun _ _ _ => False) () d h
  refine ⟨himages, (recoverSnapshotTransaction () d).disk, ?_⟩
  cases hr : (recoverSnapshotTransaction () d).result with
  | error e =>
    rw [hr] at hresult
    exact hresult.elim
  | ok a =>
    rw [hr] at hresult
    exact ⟨⟨hr, rfl⟩, hresult⟩

/-- A stage that the install may leave is never left. -/
theorem Installing.stage (basis : Basis u before other) (encoded : u.encode = .ok bytes)
    (images : ∀ i ∈ (commitSnapshotTransaction t () files.rest).images, Stage u bytes before other i)
    (last : Stage u bytes before other (commitSnapshotTransaction t () files.rest).disk) (h : Installing files t d) :
    Stage u bytes before other d := by
  induction h with
  | stopped image => exact images _ image
  | returned => exact last
  | recovering _ image ih => exact (ih.recovers basis encoded).1 _ image
  | recovered _ ih =>
    obtain ⟨-, _, ⟨-, rfl⟩, hsettled⟩ := ih.recovers basis encoded
    exact hsettled.stage
  | crashed _ c ih => exact ih.crashed basis c

/-- An install that was refused leaves a disk as it is, if recovery and crashes do. -/
theorem Installing.refused {P : Disk → Prop} (refused : ∃ e, commitSnapshotTransaction t () files.rest = ⟨.error e, (), files.rest, []⟩)
    (start : P files.rest) (crash : ∀ {d d'}, P d → Crashed d d' → P d')
    (recovers : ∀ d, P d → (∀ i ∈ (recoverSnapshotTransaction () d).images, P i) ∧ P (recoverSnapshotTransaction () d).disk)
    (h : Installing files t d) : P d := by
  obtain ⟨e, he⟩ := refused
  induction h with
  | stopped image =>
    rw [he] at image
    cases image
  | returned =>
    rw [he]
    exact start
  | recovering _ image ih => exact (recovers _ ih).1 _ image
  | recovered _ ih => exact (recovers _ ih).2
  | crashed _ c ih => exact crash ih c

/-- The disk has these files and nothing is pending. -/
structure Quiet (files : Files) (d : Disk) : Prop where
  snapshots : ∀ name, d.snapshots.find? name = files.snapshots.find? name
  metadata : d.metadata = files.metadata
  wal : d.wal = files.wal
  journal : d.journal = files.journal
  pruned : ∀ name, d.pruned.find? name = none
  tail : d.tail = []
  removed : d.removed = none

theorem quiet_rest (files : Files) : Quiet files files.rest :=
  ⟨fun _ => rfl, rfl, rfl, rfl, fun _ => OrdMap.find?_empty, rfl, rfl⟩

theorem Quiet.crashed (h : Quiet files d) (c : Crashed d d') : Quiet files d' where
  snapshots name := by
    rcases c.snapshots name with hname | ⟨hnone, hname⟩
    · exact hname.trans (h.snapshots name)
    · rw [hname, h.pruned, ← h.snapshots, hnone]
  metadata := c.metadata.trans h.metadata
  wal := by
    rcases c.wal with hwal | hwal
    · exact hwal.trans h.wal
    · rw [hwal, h.tail, ← h.wal]
      cases d.wal with
      | none => rfl
      | some file => rw [Option.map_some, List.append_nil]
  journal := by
    rcases c.journal with hj | ⟨hnone, hj⟩
    · exact hj.trans h.journal
    · rw [hj, h.removed, ← h.journal, hnone]
  pruned name := by rw [c.pruned, OrdMap.find?_empty]
  tail := c.tail
  removed := c.removed

theorem Quiet.images (h : Quiet files d) : d.images t = files.images t := by
  simp only [Files.images, h.snapshots, h.metadata, h.wal]

/-- The file is as it was. -/
def Unchanged (files : Files) (name : String) (file back : Option File) : Prop :=
  file = files.snapshots.find? name ∧ back = none

theorem basis_quiet (journal : files.journal = none) : Basis t (Quiet files) (Unchanged files) where
  crashed h c := h.crashed c
  idle h := ⟨h.journal.trans journal, h.removed⟩
  others h name _ := ⟨h.snapshots name, h.pruned name⟩
  kept h := ⟨h.1, rfl⟩
  back h := ⟨h.2.trans h.1, rfl⟩

theorem basis_decided : Basis u (fun _ => False) (Unchanged files) where
  crashed h := h.elim
  idle h := h.elim
  others h := h.elim
  kept h := ⟨h.1, rfl⟩
  back h := ⟨h.2.trans h.1, rfl⟩

/-- A completed install determines the files. -/
theorem Installed.images_eq (h : Installed u (Unchanged files) d) (h' : Installed u (Unchanged files) d') :
    d.images t = d'.images t := by
  have himages := h.images.trans h'.images.symm
  simp only [Files.images, Prod.mk.injEq] at himages ⊢
  refine ⟨?_, himages.2⟩
  by_cases hname : snapshotName t.index.toNat = snapshotName u.index.toNat
  · rw [hname]
    exact himages.1
  · rw [(h.others _ hname).1, (h'.others _ hname).1]

/-- Whatever the disk, a recovery that returns leaves no journal. -/
theorem Recovers.settled (h : Recovers d d') : d'.journal = none ∧ d'.removed = none := by
  obtain ⟨hok, rfl⟩ := h
  cases hjournal : d.journal with
  | none =>
    unfold recoverSnapshotTransaction
    rw [Program.bind_of_ok (a := d) rfl]
    simp only [Program.disk, hjournal, syncDirectory, Program.write, and_self]
  | some bytes =>
    by_cases hdamaged : ∀ t : SnapshotTransaction, t.encode ≠ .ok bytes
    · obtain ⟨e, he⟩ := recoverSnapshotTransaction_damaged () hjournal hdamaged
      rw [he] at hok
      cases hok
    · push Not at hdamaged
      obtain ⟨t, ht⟩ := hdamaged
      have happly : (applyTransaction t () d).disk.journal = none ∧ (applyTransaction t () d).disk.removed = none := by
        obtain ⟨⟨snapshots, metadata, wal, journal⟩, pruned, tail, removed⟩ := d
        cases hjournal
        exact ⟨rfl, rfl⟩
      have hdecode := SnapshotTransaction.decode_of_encode ht
      unfold recoverSnapshotTransaction
      rw [Program.bind_of_ok (a := d) rfl]
      simp only [Program.disk, hjournal]
      rw [if_neg (not_lt.mpr (SnapshotTransaction.decode_cases hdecode).2.1), hdecode, Program.bind_of_ok (a := t) rfl]
      exact happly

/-- With no journal before it, an install that the encoder accepts stays at one of its stages. -/
theorem Installing.started (none : files.journal = none) (encoded : t.encode = .ok bytes) (h : Installing files t d) :
    Stage t bytes (Quiet files) (Unchanged files) d := by
  obtain ⟨himages, hresult⟩ := commitSnapshotTransaction_spec (basis_quiet none) encoded (fun _ _ _ => False) () files.rest
    (quiet_rest files)
  refine h.stage (basis_quiet none) encoded himages ?_
  cases hr : (commitSnapshotTransaction t () files.rest).result with
  | error e =>
    rw [hr] at hresult
    exact hresult.elim
  | ok a =>
    rw [hr] at hresult
    exact .completed hresult.1 (.inl hresult.2)

theorem Installing.rejected {e : Error} (none : files.journal = none) (encoded : t.encode = .error e) (h : Installing files t d) :
    Quiet files d := by
  refine h.refused (commitSnapshotTransaction_refused () (.inr ⟨e, encoded⟩)) (quiet_rest files) Quiet.crashed fun d hd => ?_
  rw [recoverSnapshotTransaction_idle () (hd.journal.trans none) hd.removed]
  refine ⟨fun i hi => ?_, hd⟩
  obtain rfl : i = d := by simpa using hi
  exact hd

/-- An install finds the journal of another one and leaves everything to recovery. -/
theorem Installing.pending (some : files.journal = some bytes) (encoded : u.encode = .ok bytes) (h : Installing files t d) :
    Stage u bytes (fun _ => False) (Unchanged files) d := by
  refine h.refused (commitSnapshotTransaction_refused () (.inl ?_)) ?_ (fun hd c => hd.crashed basis_decided c) fun d hd => ?_
  · change files.journal ≠ none
    rw [some]
    exact Option.some_ne_none bytes
  · exact .decided (fun name _ => ⟨rfl, OrdMap.find?_empty⟩) some rfl
  · obtain ⟨himages, _, ⟨-, rfl⟩, hsettled⟩ := hd.recovers basis_decided encoded
    exact ⟨himages, hsettled.stage⟩

theorem Installing.damaged (some : files.journal = some bytes) (damaged : ∀ u : SnapshotTransaction, u.encode ≠ .ok bytes)
    (h : Installing files t d) : Quiet files d := by
  refine h.refused (commitSnapshotTransaction_refused () (.inl ?_)) (quiet_rest files) Quiet.crashed fun d hd => ?_
  · change files.journal ≠ none
    rw [some]
    exact Option.some_ne_none bytes
  · obtain ⟨e, he⟩ := recoverSnapshotTransaction_damaged () (hd.journal.trans some) damaged
    rw [he]
    exact ⟨nofun, hd⟩

/-- A recovery after an install leaves the old files or the new ones. -/
theorem Installing.outcome (h : Installing files t d) (hrec : Recovers d d') :
    (∃ d₀, Recovers files.rest d₀ ∧ d'.images t = d₀.images t) ∨ d'.images t = t.images := by
  cases hjournal : files.journal with
  | none =>
    have hrest : Recovers files.rest files.rest := .idle hjournal rfl
    cases encoded : t.encode with
    | error e =>
      have hquiet := h.rejected hjournal encoded
      obtain rfl := hrec.unique (.idle (hquiet.journal.trans hjournal) hquiet.removed)
      exact .inl ⟨files.rest, hrest, hquiet.images⟩
    | ok bytes =>
      obtain ⟨-, d₁, hrec₁, hsettled⟩ := (h.started hjournal encoded).recovers (basis_quiet hjournal) encoded
      obtain rfl := hrec.unique hrec₁
      rcases hsettled.files with hquiet | hinstalled
      · exact .inl ⟨files.rest, hrest, hquiet.images⟩
      · exact .inr hinstalled.images
  | some bytes =>
    by_cases hdamaged : ∀ u : SnapshotTransaction, u.encode ≠ .ok bytes
    · have hquiet := h.damaged hjournal hdamaged
      obtain ⟨e, he⟩ := recoverSnapshotTransaction_damaged () (hquiet.journal.trans hjournal) hdamaged
      have hok := hrec.1
      rw [he] at hok
      cases hok
    · push Not at hdamaged
      obtain ⟨u, hu⟩ := hdamaged
      have hrest : Stage u bytes (fun _ => False) (Unchanged files) files.rest :=
        .decided (fun name _ => ⟨rfl, OrdMap.find?_empty⟩) hjournal rfl
      obtain ⟨-, d₀, hrec₀, hsettled₀⟩ := hrest.recovers basis_decided hu
      obtain ⟨-, d₁, hrec₁, hsettled₁⟩ := (h.pending hjournal hu).recovers basis_decided hu
      obtain rfl := hrec.unique hrec₁
      exact .inl ⟨d₀, hrec₀, (hsettled₁.files.resolve_left id).images_eq (hsettled₀.files.resolve_left id)⟩

/-- With no journal before the install, every recovery after it returns. -/
theorem Installing.returns (none : files.journal = none) (h : Installing files t d) : ∃ d', Recovers d d' := by
  cases encoded : t.encode with
  | error e =>
    have hquiet := h.rejected none encoded
    exact ⟨d, .idle (hquiet.journal.trans none) hquiet.removed⟩
  | ok bytes =>
    obtain ⟨-, d', hrec, -⟩ := (h.started none encoded).recovers (basis_quiet none) encoded
    exact ⟨d', hrec⟩

end Outcomes

/-- An install is all or nothing. However often it and the recoveries after it are stopped, a recovery that
    returns leaves the files that recovery would have left without the install (so those from before it, if
    no journal was there) or all three new ones, and no journal; it does return if no journal was there
    before. Recovering again changes nothing. A journal that is no exact encoding makes every open fail, and
    nothing is written. -/
theorem install_all_or_nothing (files : Files) (t : SnapshotTransaction) :
    (∀ d d', Installing files t d → Recovers d d' →
      ((∃ d₀, Recovers files.rest d₀ ∧ d'.images t = d₀.images t) ∨ d'.images t = t.images) ∧
        d'.journal = none ∧ d'.removed = none) ∧
    (files.journal = none → Recovers files.rest files.rest ∧ ∀ d, Installing files t d → ∃ d', Recovers d d') ∧
    (∀ d d', Recovers d d' → Recovers d' d') ∧
    ∀ (d : Disk) (bytes : File) (options : StoreOptions), d.journal = some bytes →
      (∀ u : SnapshotTransaction, u.encode ≠ .ok bytes) →
      ∃ e, FileEngine.open options () d = ⟨.error e, (), d, []⟩ := by
  refine ⟨fun d d' hd hrec => ⟨hd.outcome hrec, hrec.settled⟩, fun hnone => ⟨.idle hnone rfl, fun d hd => hd.returns hnone⟩,
    fun d d' h => .idle h.settled.1 h.settled.2, ?_⟩
  · intro d bytes options journal damaged
    obtain ⟨e, he⟩ := recoverSnapshotTransaction_damaged () journal damaged
    refine ⟨e, ?_⟩
    unfold FileEngine.open
    rw [Program.bind_of_error (e := e) (by rw [he]), he]

end Choreolog.Storage
