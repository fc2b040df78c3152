import Choreolog.Lib.Crc
import Choreolog.Protocol.FrameCodec
import Choreolog.Theorems.Reach

/-! # What is accepted as a frame

A frame is read exactly from its own bytes, for whatever minor version stands in them. So all accepted bytes end with
their checksum, and a short burst, wherever it falls, never leads from one frame to another. -/

namespace Choreolog.Protocol
open Lib State

/-- What the checks of `decodeFrame` come to. -/
structure Accepted (data : List UInt8) (frame : WireFrame) : Prop where
  magic : Bytes.slice 0 4 data = frameMagic
  major : Bytes.slice 4 1 data = [protocolMajor]
  limit : readU 4 16 data ≤ maxFramePayload
  length : data.length = frameHeaderBytes + readU 4 16 data + 4
  checksum : (Bytes.crc32 (data.take (frameHeaderBytes + readU 4 16 data))).toNat = readU 4 (frameHeaderBytes + readU 4 16 data) data
  type : UInt16.ofNat (readU 2 6 data) = frame.type
  correlation : UInt64.ofNat (readU 8 8 data) = frame.correlation
  payload : Bytes.slice frameHeaderBytes (readU 4 16 data) data = frame.payload

theorem headerFrom_ok {data : List UInt8} {header : FrameHeader} (h : headerFrom data = .ok header) :
    Bytes.slice 0 4 data = frameMagic ∧ Bytes.slice 4 1 data = [protocolMajor] ∧ readU 4 16 data ≤ maxFramePayload ∧
      header = { type := UInt16.ofNat (readU 2 6 data), correlation := UInt64.ofNat (readU 8 8 data), payloadLength := readU 4 16 data } := by
  unfold headerFrom at h
  split at h
  · cases h
  · rename_i hmagic
    split at h
    · cases h
    · rename_i hmajor
      split at h
      · cases h
      · rename_i hlimit
        exact ⟨not_not.mp hmagic, not_not.mp hmajor, Nat.not_lt.mp hlimit, (Except.ok.inj h).symm⟩

theorem decodeFrame_iff {data : List UInt8} {frame : WireFrame} : decodeFrame data = .ok frame ↔ Accepted data frame := by
  constructor
  · intro h
    unfold decodeFrame at h
    obtain ⟨header, hheader, h⟩ := bind_ok (unless_ok h).2
    obtain ⟨hmagic, hmajor, hlimit, rfl⟩ := headerFrom_ok hheader
    obtain ⟨hlength, h⟩ := unless_ok (unless_ok h).2
    obtain ⟨hchecksum, h⟩ := unless_ok h
    rw [Nat.add_sub_cancel] at hchecksum
    cases h
    exact
      { magic := hmagic, major := hmajor, limit := hlimit, length := not_not.mp hlength, checksum := not_not.mp hchecksum
        type := rfl, correlation := rfl, payload := rfl }
  · intro h
    have hsize : ¬ data.length < frameHeaderBytes + 4 := by
      have := h.length
      omega
    have hheader : headerFrom data = .ok { type := frame.type, correlation := frame.correlation, payloadLength := readU 4 16 data } := by
      rw [headerFrom, if_neg (not_not.mpr h.magic), if_neg (not_not.mpr h.major), if_neg (Nat.not_lt.mpr h.limit), h.type, h.correlation]
    unfold decodeFrame
    rw [if_neg hsize, hheader]
    simp only [bind, Except.bind]
    rw [if_neg (Nat.not_lt.mpr h.length.ge), if_neg (not_not.mpr h.length), Nat.add_sub_cancel, if_neg (not_not.mpr h.checksum), h.payload]
    rfl

/-! ### The bytes of a frame -/

section Layout
variable {data : List UInt8} {minor : UInt8} {frame : WireFrame}

theorem length_frameBody (minor : UInt8) (frame : WireFrame) : (frameBody minor frame).length = frameHeaderBytes + frame.payload.length := by
  simp only [frameBody, frameMagic, frameHeaderBytes, List.length_append, Bytes.length_ofNat, List.length_cons, List.length_nil]

/-- The fields of the header are where they are looked for. -/
theorem accepted_frameBytes (h : frame.payload.length ≤ maxFramePayload) : Accepted (frameBytes minor frame) frame := by
  have hlimit : maxFramePayload < 256 ^ 4 := by decide
  have hsum : ∀ n : UInt32, n.toNat < 256 ^ 4 := fun n => n.toNat_lt
  have htype : Bytes.slice 6 2 (frameBytes minor frame) = Bytes.ofNat 2 frame.type.toNat := rfl
  have hcorrelation : Bytes.slice 8 8 (frameBytes minor frame) = Bytes.ofNat 8 frame.correlation.toNat := rfl
  have hsize : Bytes.slice 16 4 (frameBytes minor frame) = Bytes.ofNat 4 frame.payload.length := rfl
  have hlength : readU 4 16 (frameBytes minor frame) = frame.payload.length := by
    rw [readU, hsize, Bytes.toNat_ofNat (h.trans_lt hlimit)]
  have hbody := length_frameBody minor frame
  refine { magic := rfl, major := rfl, limit := hlength.trans_le h, length := ?_, checksum := ?_, type := ?_, correlation := ?_, payload := ?_ }
  · rw [hlength, frameBytes, List.length_append, hbody, Bytes.length_ofNat]
  · rw [hlength, ← hbody, frameBytes, List.take_left, readU, Bytes.slice_past rfl le_rfl, Nat.sub_self, Bytes.slice, List.drop_zero,
      List.take_of_length_le (Bytes.length_ofNat _ _).le, Bytes.toNat_ofNat (hsum _)]
  · rw [readU, htype, Bytes.toNat_ofNat (by exact frame.type.toNat_lt), UInt16.ofNat_toNat]
  · rw [readU, hcorrelation, Bytes.toNat_ofNat (by exact frame.correlation.toNat_lt), UInt64.ofNat_toNat]
  · rw [hlength]
    exact Bytes.slice_here rfl

/-- Nothing but the minor version is left open by the checks. -/
theorem Accepted.bytes (h : Accepted data frame) : ∃ minor, data = frameBytes minor frame := by
  have hlength := h.length
  have hpayload : frame.payload.length = readU 4 16 data := by
    rw [← h.payload]
    exact Bytes.length_slice (by omega)
  have hat : ∀ {offset width}, offset + width ≤ frameHeaderBytes → (Bytes.slice offset width data).length = width :=
    fun hle => Bytes.length_slice (by omega)
  obtain ⟨minor, hminor⟩ := List.length_eq_one_iff.mp (@hat 5 1 (by decide))
  have htype : Bytes.ofNat 2 frame.type.toNat = Bytes.slice 6 2 data := by
    refine Bytes.ofNat_eq (@hat 6 2 (by decide)) ?_
    rw [← h.type, UInt16.toNat_ofNat_of_lt']
    · rfl
    · exact (Bytes.toNat_lt _).trans_eq (by rw [@hat 6 2 (by decide)]; rfl)
  have hcorrelation : Bytes.ofNat 8 frame.correlation.toNat = Bytes.slice 8 8 data := by
    refine Bytes.ofNat_eq (@hat 8 8 (by decide)) ?_
    rw [← h.correlation, UInt64.toNat_ofNat_of_lt']
    · rfl
    · exact (Bytes.toNat_lt _).trans_eq (by rw [@hat 8 8 (by decide)]; rfl)
  have hsize : Bytes.ofNat 4 frame.payload.length = Bytes.slice 16 4 data :=
    Bytes.ofNat_eq (@hat 16 4 (by decide)) hpayload.symm
  have hmagic : data.take 4 = frameMagic := h.magic
  have hbody : frameBody minor frame = data.take (frameHeaderBytes + readU 4 16 data) := by
    rw [frameBody, ← hmagic, ← h.major, ← hminor, htype, hcorrelation, hsize, ← h.payload]
    simp only [Bytes.take_append_slice]
    exact Bytes.take_append_slice frameHeaderBytes _ data
  have hchecksum : Bytes.ofNat 4 (Bytes.crc32 (frameBody minor frame)).toNat = data.drop (frameHeaderBytes + readU 4 16 data) := by
    have hrest : (data.drop (frameHeaderBytes + readU 4 16 data)).length = 4 := by
      rw [List.length_drop]
      omega
    rw [hbody, h.checksum]
    exact Bytes.ofNat_eq hrest (congrArg Bytes.toNat (List.take_of_length_le hrest.le).symm)
  exact ⟨minor, by rw [frameBytes, hchecksum, hbody, List.take_append_drop]⟩

end Layout

theorem checked_of_decodeFrame {data : List UInt8} {frame : WireFrame} (h : decodeFrame data = .ok frame) : Bytes.Checked data := by
  obtain ⟨minor, rfl⟩ := (decodeFrame_iff.mp h).bytes
  exact ⟨_, rfl⟩

/-- A frame is read from its own bytes and no others, with any minor version. A change of at most four consecutive bytes of
    what `encodeFrame` writes is never read as a frame. -/
theorem frames_exact (frame : WireFrame) :
    (∀ data, decodeFrame data = .ok frame ↔ frame.payload.length ≤ maxFramePayload ∧ ∃ minor, data = frameBytes minor frame) ∧
      ∀ front burst changed back, encodeFrame frame = .ok (front ++ burst ++ back) → burst.length ≤ 4 → changed.length = burst.length →
        changed ≠ burst → ∃ e, decodeFrame (front ++ changed ++ back) = .error e := by
  constructor
  · intro data
    constructor
    · intro h
      have haccepted := decodeFrame_iff.mp h
      refine ⟨?_, haccepted.bytes⟩
      rw [← haccepted.payload, Bytes.length_slice (by have := haccepted.length; omega)]
      exact haccepted.limit
    · rintro ⟨hlimit, minor, rfl⟩
      exact decodeFrame_iff.mpr (accepted_frameBytes hlimit)
  · intro front burst changed back hencode hshort hlength hchanged
    cases hdecode : decodeFrame (front ++ changed ++ back) with
    | error e => exact ⟨e, rfl⟩
    | ok other =>
      -- Both would end with their checksum.
      have hchecked : Bytes.Checked (front ++ burst ++ back) := by
        unfold encodeFrame at hencode
        split at hencode
        · cases hencode
        · rw [← Except.ok.inj hencode]
          exact ⟨_, rfl⟩
      exact absurd (hchecked.burst (checked_of_decodeFrame hdecode) hlength hshort).symm hchanged

/-- A vote without a payload. -/
def emptyVote : WireFrame := { type := 4, correlation := 7, payload := [] }

/-- A burst over the last byte of the length field and three bytes of the checksum. -/
theorem frames_exact_straddling : ∃ e, decodeFrame
    ((frameBytes protocolMinor emptyVote).take 19 ++ [0, 0, 0, 0] ++ (frameBytes protocolMinor emptyVote).drop 23) = .error e := by
  refine (frames_exact emptyVote).2 ((frameBytes protocolMinor emptyVote).take 19) ((frameBytes protocolMinor emptyVote).drop 19 |>.take 4)
    [0, 0, 0, 0] _ ?_ ?_ ?_ ?_ <;> decide +kernel

end Choreolog.Protocol
