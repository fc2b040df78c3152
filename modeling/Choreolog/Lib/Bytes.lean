import Mathlib

/-! Bytes of a file: little-endian numbers, text with one byte a character, checksums, and reading at an
    offset what was written there. -/

namespace Lib

namespace Bytes

/-! ### Numbers -/

/-- The lowest `width` bytes of a number, the lowest first. -/
def ofNat : Nat → Nat → List UInt8
  | 0, _ => []
  | width + 1, n => UInt8.ofNat (n % 256) :: ofNat width (n / 256)

def toNat : List UInt8 → Nat
  | [] => 0
  | b :: rest => b.toNat + 256 * toNat rest

@[simp] theorem length_ofNat (width n : Nat) : (ofNat width n).length = width := by
  induction width generalizing n with
  | zero => rfl
  | succ width ih => simp [ofNat, ih]

theorem toNat_ofNat {width n : Nat} (h : n < 256 ^ width) : toNat (ofNat width n) = n := by
  induction width generalizing n with
  | zero =>
    rw [pow_zero] at h
    simp [ofNat, toNat]
    omega
  | succ width ih =>
    rw [pow_succ] at h
    have hdiv : n / 256 < 256 ^ width := (Nat.div_lt_iff_lt_mul (by decide)).mpr h
    have hmod : (UInt8.ofNat (n % 256)).toNat = n % 256 := by
      rw [UInt8.toNat_ofNat']
      omega
    rw [ofNat, toNat, ih hdiv, hmod]
    omega

theorem toNat_lt (bytes : List UInt8) : toNat bytes < 256 ^ bytes.length := by
  induction bytes with
  | nil => simp [toNat]
  | cons b rest ih =>
    have hb := b.toNat_lt
    rw [toNat, List.length_cons, pow_succ]
    omega

/-- The bytes of a number are the only ones of that width that read as it. -/
theorem ofNat_eq {bytes : List UInt8} {width n : Nat} (length : bytes.length = width) (h : toNat bytes = n) :
    ofNat width n = bytes := by
  subst length h
  induction bytes with
  | nil => rfl
  | cons b rest ih =>
    have hb := b.toNat_lt
    have hmod : (b.toNat + 256 * toNat rest) % 256 = b.toNat := by omega
    have hdiv : (b.toNat + 256 * toNat rest) / 256 = toNat rest := by omega
    rw [List.length_cons, ofNat, toNat, hmod, hdiv, ih, UInt8.ofNat_toNat]

/-! ### Text -/

/-- One byte for each character below 256. -/
def ofText (text : String) : List UInt8 := text.toList.map fun c => UInt8.ofNat c.toNat

def toText (bytes : List UInt8) : String := String.ofList (bytes.map fun b => Char.ofNat b.toNat)

@[simp] theorem length_ofText (text : String) : (ofText text).length = text.toList.length := by
  simp [ofText]

theorem toText_ofText {text : String} (h : ∀ c ∈ text.toList, c.toNat < 256) : toText (ofText text) = text := by
  have hmap : (ofText text).map (fun b => Char.ofNat b.toNat) = text.toList := by
    unfold ofText
    rw [List.map_map]
    refine (List.map_congr_left fun c hc => ?_).trans (List.map_id _)
    have := h c hc
    simp only [Function.comp_apply, UInt8.toNat_ofNat', id_eq]
    rw [Nat.mod_eq_of_lt this, Char.ofNat_toNat]
  rw [toText, hmap, String.ofList_toList]

theorem ofText_toText (bytes : List UInt8) : ofText (toText bytes) = bytes := by
  unfold ofText toText
  rw [String.toList_ofList, List.map_map]
  refine (List.map_congr_left fun b _ => ?_).trans (List.map_id _)
  have hvalid : b.toNat.isValidChar := .inl (b.toNat_lt.trans (by decide))
  have hchar : (Char.ofNat b.toNat).toNat = b.toNat := by
    rw [Char.ofNat, dif_pos hvalid]
    rfl
  simp only [Function.comp_apply, id_eq]
  rw [hchar, UInt8.ofNat_toNat]

theorem ofText_eq {bytes : List UInt8} {text : String} (h : toText bytes = text) : ofText text = bytes := by
  rw [← h, ofText_toText]

/-! ### Checksums -/

def crc32Bit (crc : UInt32) : UInt32 := if crc &&& 1 ≠ 0 then (crc >>> 1) ^^^ 0xEDB88320 else crc >>> 1

def crc32Byte (crc : UInt32) (byte : UInt8) : UInt32 :=
  crc32Bit (crc32Bit (crc32Bit (crc32Bit (crc32Bit (crc32Bit (crc32Bit (crc32Bit (crc ^^^ byte.toUInt32))))))))

/-- CRC-32 with the reflected polynomial. -/
def crc32 (bytes : List UInt8) : UInt32 := bytes.foldl crc32Byte 0xFFFFFFFF ^^^ 0xFFFFFFFF

/-! ### Offsets -/

/-- `count` bytes from an offset on. -/
def slice (offset count : Nat) (bytes : List UInt8) : List UInt8 := (bytes.drop offset).take count

theorem slice_past {front rest : List UInt8} {n offset count : Nat} (length : front.length = n) (h : n ≤ offset) :
    slice offset count (front ++ rest) = slice (offset - n) count rest := by
  unfold slice
  rw [← length, List.drop_append, List.drop_eq_nil_of_le (length.trans_le h), List.nil_append]

theorem slice_here {front rest : List UInt8} {count : Nat} (h : front.length = count) : slice 0 count (front ++ rest) = front := by
  simp [slice, ← h]

theorem length_slice {offset count : Nat} {bytes : List UInt8} (h : offset + count ≤ bytes.length) :
    (slice offset count bytes).length = count := by
  rw [slice, List.length_take, List.length_drop]
  omega

/-- Peels a field off the front of what is left. -/
theorem slice_append_drop (offset count : Nat) (bytes : List UInt8) :
    slice offset count bytes ++ bytes.drop (offset + count) = bytes.drop offset := by
  rw [slice, ← List.drop_drop, List.take_append_drop]

/-- Adds a field to what has been read. -/
theorem take_append_slice (offset count : Nat) (bytes : List UInt8) :
    bytes.take offset ++ slice offset count bytes = bytes.take (offset + count) := List.take_add.symm

end Bytes

end Lib
