import Choreolog.Lib.Bytes

/-! The CRC-32 of bytes as a linear map, and the bursts that it detects. Bytes with their checksum after them
    all leave the same remainder, wherever a change falls; a change of four bytes or fewer leaves another one. -/

namespace Lib

namespace Bytes

/-! ### One bit -/

theorem low_bit (c : UInt32) : (c &&& 1 ≠ 0) ↔ c.toNat % 2 = 1 := by
  rw [Ne, ← UInt32.toNat_inj, UInt32.toNat_and]
  change ¬ c.toNat &&& 1 = 0 ↔ _
  rw [Nat.and_one_is_mod]
  omega

theorem crc32Bit_of_even {c : UInt32} (h : c.toNat % 2 = 0) : crc32Bit c = c >>> 1 :=
  if_neg fun hodd => by
    rw [low_bit, h] at hodd
    cases hodd

theorem crc32Bit_of_odd {c : UInt32} (h : c.toNat % 2 = 1) : crc32Bit c = (c >>> 1) ^^^ 0xEDB88320 := if_pos ((low_bit c).mpr h)

theorem toNat_shift (c : UInt32) : (c >>> 1).toNat = c.toNat / 2 := by
  rw [UInt32.toNat_shiftRight]
  change c.toNat >>> 1 = _
  rw [Nat.shiftRight_one]

/-- The register moves linearly: a difference moves on its own. -/
theorem crc32Bit_xor (a b : UInt32) : crc32Bit (a ^^^ b) = crc32Bit a ^^^ crc32Bit b := by
  have hbit : (a ^^^ b).toNat % 2 = (a.toNat + b.toNat) % 2 := by
    rw [UInt32.toNat_xor]
    exact Nat.xor_mod_two_eq
  have hshift : (a ^^^ b) >>> 1 = a >>> 1 ^^^ b >>> 1 := UInt32.shiftRight_xor
  rcases Nat.mod_two_eq_zero_or_one a.toNat with ha | ha <;> rcases Nat.mod_two_eq_zero_or_one b.toNat with hb | hb
  · rw [crc32Bit_of_even (by omega), crc32Bit_of_even ha, crc32Bit_of_even hb, hshift]
  · rw [crc32Bit_of_odd (by omega), crc32Bit_of_even ha, crc32Bit_of_odd hb, hshift, UInt32.xor_assoc]
  · rw [crc32Bit_of_odd (by omega), crc32Bit_of_odd ha, crc32Bit_of_even hb, hshift, UInt32.xor_assoc, UInt32.xor_assoc,
      UInt32.xor_comm (b >>> 1)]
  · rw [crc32Bit_of_even (by omega), crc32Bit_of_odd ha, crc32Bit_of_odd hb, hshift, UInt32.xor_assoc,
      UInt32.xor_comm (b >>> 1), ← UInt32.xor_assoc 0xEDB88320, UInt32.xor_self, UInt32.zero_xor]

/-- A bit that drops out leaves the top bit set, so a register with a clear top bit was only shifted. -/
theorem double_of_crc32Bit_lt {c : UInt32} (h : (crc32Bit c).toNat < 2 ^ 31) : c.toNat = 2 * (crc32Bit c).toNat := by
  rcases Nat.mod_two_eq_zero_or_one c.toNat with hc | hc
  · rw [crc32Bit_of_even hc, toNat_shift]
    omega
  · exfalso
    rw [crc32Bit_of_odd hc, UInt32.toNat_xor, toNat_shift] at h
    have htop : (c.toNat / 2 ^^^ (0xEDB88320 : UInt32).toNat).testBit 31 = true := by
      have hsmall : c.toNat / 2 < 2 ^ 31 := by
        have := c.toNat_lt
        omega
      rw [Nat.testBit_xor, Nat.testBit_lt_two_pow hsmall]
      decide
    rw [Nat.testBit_lt_two_pow h] at htop
    cases htop

/-! ### Several bits -/

theorem iterate_crc32Bit_xor (n : Nat) (a b : UInt32) : crc32Bit^[n] (a ^^^ b) = crc32Bit^[n] a ^^^ crc32Bit^[n] b := by
  induction n generalizing a b with
  | zero => rfl
  | succ n ih => rw [Function.iterate_succ_apply, crc32Bit_xor, ih, ← Function.iterate_succ_apply, ← Function.iterate_succ_apply]

theorem toNat_iterate_crc32Bit {n m : Nat} {c : UInt32} (h : c.toNat = 2 ^ n * m) : (crc32Bit^[n] c).toNat = m := by
  induction n generalizing c with
  | zero => simpa using h
  | succ n ih =>
    rw [pow_succ, mul_comm _ 2, mul_assoc] at h
    rw [Function.iterate_succ_apply]
    refine ih ?_
    rw [crc32Bit_of_even (by omega), toNat_shift]
    omega

theorem eq_of_iterate_crc32Bit_lt {n : Nat} (hn : n ≤ 32) {c : UInt32} (h : (crc32Bit^[n] c).toNat < 2 ^ (32 - n)) :
    c.toNat = 2 ^ n * (crc32Bit^[n] c).toNat := by
  induction n generalizing c with
  | zero => simp
  | succ n ih =>
    rw [Function.iterate_succ_apply] at h ⊢
    have hrest := ih (by omega) (h.trans_le (Nat.pow_le_pow_right (by decide) (by omega)))
    have hsmall : (crc32Bit c).toNat < 2 ^ 31 := by
      calc (crc32Bit c).toNat = 2 ^ n * (crc32Bit^[n] (crc32Bit c)).toNat := hrest
        _ < 2 ^ n * 2 ^ (32 - (n + 1)) := Nat.mul_lt_mul_of_pos_left h (Nat.two_pow_pos n)
        _ = 2 ^ 31 := by rw [← Nat.pow_add, show n + (32 - (n + 1)) = 31 by omega]
    rw [double_of_crc32Bit_lt hsmall, pow_succ, mul_comm (2 ^ n) 2, mul_assoc, ← hrest]

theorem crc32Byte_eq (crc : UInt32) (byte : UInt8) : crc32Byte crc byte = crc32Bit^[8] (crc ^^^ byte.toUInt32) := rfl

theorem crc32Byte_xor (a b : UInt32) (x y : UInt8) : crc32Byte (a ^^^ b) (x ^^^ y) = crc32Byte a x ^^^ crc32Byte b y := by
  have hswap : a ^^^ b ^^^ (x ^^^ y).toUInt32 = (a ^^^ x.toUInt32) ^^^ (b ^^^ y.toUInt32) := by
    rw [UInt8.toUInt32_xor]
    ac_rfl
  rw [crc32Byte_eq, hswap, iterate_crc32Bit_xor]
  rfl

/-! ### Bytes -/

/-- The register after some bytes. -/
def remainder (bytes : List UInt8) (crc : UInt32) : UInt32 := bytes.foldl crc32Byte crc

theorem remainder_append (u v : List UInt8) (crc : UInt32) : remainder (u ++ v) crc = remainder v (remainder u crc) := List.foldl_append

theorem remainder_xor {u v : List UInt8} (h : u.length = v.length) (a b : UInt32) :
    remainder (List.zipWith (· ^^^ ·) u v) (a ^^^ b) = remainder u a ^^^ remainder v b := by
  induction u generalizing v a b with
  | nil =>
    obtain rfl := List.eq_nil_of_length_eq_zero h.symm
    rfl
  | cons x u ih =>
    obtain ⟨y, v, rfl⟩ := List.exists_cons_of_length_eq_add_one h.symm
    change remainder (List.zipWith _ u v) (crc32Byte (a ^^^ b) (x ^^^ y)) = _
    rw [crc32Byte_xor, ih (Nat.succ_inj.mp h)]
    rfl

/-- Four bytes or fewer that leave the register clear are all zero: each one before the last would have left bits that
    the bytes after it cannot reach. -/
theorem zero_of_remainder {d : List UInt8} (length : d.length ≤ 4) (h : (remainder d 0).toNat < 256 ^ (4 - d.length)) :
    remainder d 0 = 0 ∧ ∀ b ∈ d, b = 0 := by
  induction d using List.reverseRecOn with
  | nil => exact ⟨rfl, nofun⟩
  | append_singleton d b ih =>
    rw [List.length_append, List.length_singleton] at length h
    rw [remainder_append] at h ⊢
    change (crc32Bit^[8] (remainder d 0 ^^^ b.toUInt32)).toNat < _ at h
    change crc32Bit^[8] (remainder d 0 ^^^ b.toUInt32) = 0 ∧ _
    have hb : b.toUInt32.toNat < 256 := by
      rw [UInt8.toNat_toUInt32]
      exact b.toNat_lt
    have hpow : 256 ^ (4 - d.length) = 256 * 256 ^ (4 - (d.length + 1)) := by
      rw [← pow_succ', show 4 - (d.length + 1) + 1 = 4 - d.length by omega]
    have hle : 256 ^ (4 - (d.length + 1)) ≤ 2 ^ (32 - 8) :=
      (Nat.pow_le_pow_right (by decide) (by omega)).trans (by decide : 256 ^ 3 ≤ 2 ^ (32 - 8))
    have hback := eq_of_iterate_crc32Bit_lt (by decide) (h.trans_le hle)
    have hbefore : (remainder d 0).toNat = (2 ^ 8 * (crc32Bit^[8] (remainder d 0 ^^^ b.toUInt32)).toNat) ^^^ b.toUInt32.toNat := by
      rw [← hback, UInt32.toNat_xor, Nat.xor_assoc, Nat.xor_self, Nat.xor_zero]
    have hbound : (remainder d 0).toNat < 256 ^ (4 - d.length) := by
      rw [hbefore, hpow, show (256 : Nat) = 2 ^ 8 from rfl, ← pow_mul, ← pow_add]
      refine Nat.xor_lt_two_pow ?_ (hb.trans_le (Nat.pow_le_pow_right Nat.two_pos (Nat.le_add_right 8 _)))
      rw [pow_add, pow_mul]
      exact (Nat.mul_lt_mul_left (Nat.two_pow_pos 8)).mpr h
    obtain ⟨hzero, hall⟩ := ih (by omega) hbound
    rw [hzero, UInt32.zero_xor] at hback ⊢
    have hclear : (crc32Bit^[8] b.toUInt32).toNat = 0 := by omega
    have hlast : b = 0 := by
      rw [hclear, UInt8.toNat_toUInt32] at hback
      exact UInt8.toNat_inj.mp hback
    refine ⟨UInt32.toNat_inj.mp hclear, fun x hx => ?_⟩
    rcases List.mem_append.mp hx with hx | hx
    · exact hall x hx
    · exact (List.mem_singleton.mp hx).trans hlast

/-- Bursts of four bytes or fewer are told apart by the register after them. -/
theorem eq_of_remainder_eq {u v : List UInt8} {crc : UInt32} (length : v.length = u.length) (short : u.length ≤ 4)
    (h : remainder u crc = remainder v crc) : u = v := by
  have hdiff : remainder (List.zipWith (· ^^^ ·) u v) 0 = 0 := by
    have hxor := remainder_xor length.symm crc crc
    rwa [h, UInt32.xor_self, UInt32.xor_self] at hxor
  have hlength : (List.zipWith (· ^^^ ·) u v).length = u.length := by
    rw [List.length_zipWith, length, Nat.min_self]
  obtain ⟨-, hall⟩ := zero_of_remainder (hlength.trans_le short) (by rw [hdiff]; exact Nat.pow_pos (by decide))
  refine List.ext_getElem length.symm fun i hu hv => ?_
  have hzip := hall _ (List.getElem_mem (hlength.symm ▸ hu))
  rw [List.getElem_zipWith] at hzip
  exact UInt8.xor_eq_zero_iff.mp hzip

/-- What follows does not hide a difference. -/
theorem remainder_injective {back : List UInt8} {a b : UInt32} (h : remainder back a = remainder back b) : a = b := by
  induction back generalizing a b with
  | nil => exact h
  | cons x back ih =>
    have hbyte : crc32Byte a x = crc32Byte b x := ih h
    rw [crc32Byte_eq, crc32Byte_eq] at hbyte
    have hdiff : crc32Bit^[8] (a ^^^ b) = 0 := by
      have hsum : a ^^^ b = (a ^^^ x.toUInt32) ^^^ (b ^^^ x.toUInt32) := by
        rw [UInt32.xor_assoc, UInt32.xor_comm b, ← UInt32.xor_assoc x.toUInt32, UInt32.xor_self, UInt32.zero_xor]
      rw [hsum, iterate_crc32Bit_xor, hbyte, UInt32.xor_self]
    have hzero := eq_of_iterate_crc32Bit_lt (n := 8) (c := a ^^^ b) (by decide) (by rw [hdiff]; decide)
    rw [hdiff] at hzero
    exact UInt32.xor_eq_zero_iff.mp (UInt32.toNat_inj.mp hzero)

/-! ### Checksums at the end -/

theorem ofNat_xor (width a b : Nat) : ofNat width (a ^^^ b) = List.zipWith (· ^^^ ·) (ofNat width a) (ofNat width b) := by
  induction width generalizing a b with
  | zero => rfl
  | succ width ih =>
    have hdiv : (a ^^^ b) / 256 = a / 256 ^^^ b / 256 := Nat.xor_div_two_pow (n := 8)
    have hmod : (a ^^^ b) % 256 = a % 256 ^^^ b % 256 := Nat.xor_mod_two_pow (n := 8)
    rw [ofNat, ofNat, ofNat, List.zipWith_cons_cons, hdiv, hmod, ih, UInt8.ofNat_xor]

/-- The bytes of the register itself shift it out. -/
theorem remainder_self (width : Nat) (crc : UInt32) : (remainder (ofNat width crc.toNat) crc).toNat = crc.toNat / 256 ^ width := by
  induction width generalizing crc with
  | zero => simp [ofNat, remainder]
  | succ width ih =>
    have hlow : (UInt8.ofNat (crc.toNat % 256)).toUInt32.toNat = crc.toNat % 256 := by
      rw [UInt8.toNat_toUInt32, UInt8.toNat_ofNat']
      omega
    have hhigh : crc.toNat ^^^ crc.toNat % 256 = 2 ^ 8 * (crc.toNat / 256) := by
      refine Nat.eq_of_testBit_eq fun i => ?_
      rw [Nat.testBit_xor, show (256 : Nat) = 2 ^ 8 from rfl, Nat.testBit_mod_two_pow, Nat.testBit_two_pow_mul, Nat.testBit_div_two_pow]
      by_cases hi : i < 8
      · simp [hi, Nat.not_le.mpr hi]
      · simp [hi, Nat.not_lt.mp hi]
    have hstep : (crc32Byte crc (UInt8.ofNat (crc.toNat % 256))).toNat = crc.toNat / 256 := by
      rw [crc32Byte_eq]
      exact toNat_iterate_crc32Bit (by rw [UInt32.toNat_xor, hlow, hhigh])
    change (remainder (ofNat width (crc.toNat / 256)) (crc32Byte crc _)).toNat = _
    rw [← hstep, ih, hstep, Nat.div_div_eq_div_mul, pow_succ']

/-- The bytes end with their checksum. -/
def Checked (bytes : List UInt8) : Prop := ∃ body, bytes = body ++ ofNat 4 (crc32 body).toNat

/-- All bytes that end with their checksum leave this in the register. -/
def residue : UInt32 := remainder (ofNat 4 (0xFFFFFFFF : UInt32).toNat) 0

theorem Checked.remainder {bytes : List UInt8} (h : Checked bytes) : remainder bytes 0xFFFFFFFF = residue := by
  obtain ⟨body, rfl⟩ := h
  have hsum : crc32 body = Bytes.remainder body 0xFFFFFFFF ^^^ 0xFFFFFFFF := rfl
  have hself : Bytes.remainder (ofNat 4 (Bytes.remainder body 0xFFFFFFFF).toNat) (Bytes.remainder body 0xFFFFFFFF) = 0 := by
    refine UInt32.toNat_inj.mp ?_
    rw [remainder_self]
    exact Nat.div_eq_of_lt (UInt32.toNat_lt _)
  rw [remainder_append, hsum, UInt32.toNat_xor, ofNat_xor, ← UInt32.xor_zero (a := Bytes.remainder body 0xFFFFFFFF),
    remainder_xor (by simp), UInt32.xor_zero, hself, UInt32.zero_xor]
  rfl

/-- A burst of four bytes or fewer never turns bytes that end with their checksum into other such bytes. -/
theorem Checked.burst {front u v back : List UInt8} (hu : Checked (front ++ u ++ back)) (hv : Checked (front ++ v ++ back))
    (length : v.length = u.length) (short : u.length ≤ 4) : u = v := by
  have heq := hu.remainder.trans hv.remainder.symm
  simp only [remainder_append] at heq
  exact eq_of_remainder_eq length short (remainder_injective heq)

end Bytes

end Lib
