import Mathlib

/-! The protobuf wire format: a message is a sequence of fields, each a key and a value. A number is written
    in groups of seven bits, the lowest first. Zero numbers and empty byte strings are left out, and a reader
    passes over the fields that it does not know. -/

namespace Lib

namespace Wire

/-! ### Variable-length numbers -/

/-- At most one byte more than `groups`, which is enough for a number below `128 ^ (groups + 1)`. -/
def varintOf : Nat → Nat → List UInt8
  | 0, n => [UInt8.ofNat n]
  | groups + 1, n => if n < 128 then [UInt8.ofNat n] else UInt8.ofNat (n % 128 + 128) :: varintOf groups (n / 128)

/-- A 64-bit number. -/
def varint (n : Nat) : List UInt8 := varintOf 9 n

/-- The number at the start of the bytes, at most `left` of them. -/
def readVarintFrom : Nat → Nat → Nat → List UInt8 → Except String (Nat × List UInt8)
  | 0, _, _, _ => .error "protobuf varint exceeds ten bytes"
  | _ + 1, _, _, [] => .error "protobuf varint is truncated"
  | left + 1, shift, value, byte :: rest =>
    if shift = 63 ∧ 1 < byte.toNat then .error "protobuf varint overflows uint64"
    else
      let value := value + byte.toNat % 128 * 2 ^ shift
      if byte.toNat < 128 then .ok (value, rest) else readVarintFrom left (shift + 7) value rest

def readVarint (bytes : List UInt8) : Except String (Nat × List UInt8) := readVarintFrom 10 0 0 bytes

theorem varintOf_length_pos (groups n : Nat) : 0 < (varintOf groups n).length := by
  cases groups with
  | zero => exact Nat.one_pos
  | succ groups =>
    rw [varintOf]
    split
    · exact Nat.one_pos
    · exact Nat.succ_pos _

theorem varintOf_length_le (groups n : Nat) : (varintOf groups n).length ≤ groups + 1 := by
  induction groups generalizing n with
  | zero => exact Nat.le_refl _
  | succ groups ih =>
    rw [varintOf]
    split
    · exact Nat.le_add_left _ _
    · exact Nat.succ_le_succ (ih _)

theorem varintOf_length_mono {groups m n : Nat} (h : m ≤ n) : (varintOf groups m).length ≤ (varintOf groups n).length := by
  induction groups generalizing m n with
  | zero => exact Nat.le_refl _
  | succ groups ih =>
    by_cases hm : m < 128
    · rw [varintOf, if_pos hm]
      exact varintOf_length_pos (groups + 1) n
    · rw [varintOf, varintOf, if_neg hm, if_neg (by omega)]
      exact Nat.succ_le_succ (ih (Nat.div_le_div_right h))

theorem varint_length_pos (n : Nat) : 0 < (varint n).length := varintOf_length_pos 9 n

theorem varint_length_le (n : Nat) : (varint n).length ≤ 10 := varintOf_length_le 9 n

theorem varint_length_mono {m n : Nat} (h : m ≤ n) : (varint m).length ≤ (varint n).length := varintOf_length_mono h

/-- The last group is read at shift 63, where it may only be 0 or 1. -/
theorem readVarintFrom_varintOf {groups : Nat} (few : groups ≤ 9) {n : Nat} (h : n < 2 ^ (7 * groups + 1)) (value : Nat)
    (rest : List UInt8) :
    readVarintFrom (groups + 1) (63 - 7 * groups) value (varintOf groups n ++ rest) =
      .ok (value + n * 2 ^ (63 - 7 * groups), rest) := by
  induction groups generalizing n value with
  | zero =>
    have hn : n < 2 := h
    have hbyte : (UInt8.ofNat n).toNat = n := by
      rw [UInt8.toNat_ofNat']
      omega
    rw [varintOf, List.singleton_append, readVarintFrom, hbyte, if_neg (by omega), Nat.mod_eq_of_lt (by omega), if_pos (by omega)]
  | succ groups ih =>
    by_cases hn : n < 128
    · have hbyte : (UInt8.ofNat n).toNat = n := by
        rw [UInt8.toNat_ofNat']
        omega
      rw [varintOf, if_pos hn, List.singleton_append, readVarintFrom, hbyte, if_neg (by omega), Nat.mod_eq_of_lt (by omega), if_pos hn]
    · have hbyte : (UInt8.ofNat (n % 128 + 128)).toNat = n % 128 + 128 := by
        rw [UInt8.toNat_ofNat']
        omega
      have hless : n / 128 < 2 ^ (7 * groups + 1) := by
        rw [Nat.div_lt_iff_lt_mul (by decide)]
        calc n < 2 ^ (7 * (groups + 1) + 1) := h
          _ = 2 ^ (7 * groups + 1) * 128 := pow_add 2 (7 * groups + 1) 7
      have hshift : 63 - 7 * (groups + 1) + 7 = 63 - 7 * groups := by omega
      rw [varintOf, if_neg hn, List.cons_append, readVarintFrom, hbyte, if_neg (by omega)]
      dsimp only
      rw [if_neg (by omega), hshift, ih (by omega) hless]
      have hpow : 2 ^ (63 - 7 * groups) = 128 * 2 ^ (63 - 7 * (groups + 1)) := by
        rw [← hshift, pow_add]
        ring
      have hsum : (n % 128 + 128) % 128 = n % 128 := by omega
      have hdiv : n % 128 + 128 * (n / 128) = n := Nat.mod_add_div n 128
      rw [hpow, hsum]
      congr 2
      calc value + n % 128 * 2 ^ (63 - 7 * (groups + 1)) + n / 128 * (128 * 2 ^ (63 - 7 * (groups + 1)))
          = value + (n % 128 + 128 * (n / 128)) * 2 ^ (63 - 7 * (groups + 1)) := by ring
        _ = value + n * 2 ^ (63 - 7 * (groups + 1)) := by rw [hdiv]

theorem readVarint_varint {n : Nat} (h : n < 2 ^ 64) (rest : List UInt8) : readVarint (varint n ++ rest) = .ok (n, rest) := by
  have := readVarintFrom_varintOf (le_refl 9) h 0 rest
  rw [Nat.zero_add, pow_zero, Nat.mul_one] at this
  exact this

/-! ### Writing fields -/

def key (field type : Nat) : List UInt8 := varint (field * 8 + type)

def uint (field value : Nat) : List UInt8 := if value = 0 then [] else key field 0 ++ varint value

def bool (field : Nat) (value : Bool) : List UInt8 := if value then key field 0 ++ [1] else []

def bytes (field : Nat) (value : List UInt8) : List UInt8 :=
  if value = [] then [] else key field 2 ++ varint value.length ++ value

/-- A field number below 16 takes one byte. -/
theorem key_length {field type : Nat} (small : field < 16) (h : type < 8) : (key field type).length = 1 := by
  rw [key, varint, varintOf, if_pos (by omega)]
  rfl

theorem uint_length_le {field value : Nat} (small : field < 16) : (uint field value).length ≤ 11 := by
  unfold uint
  split
  · exact Nat.zero_le _
  · rw [List.length_append, key_length small (by decide)]
    have := varint_length_le value
    omega

theorem bytes_length {field : Nat} (small : field < 16) {value : List UInt8} (nonempty : value ≠ []) :
    (bytes field value).length = 1 + (varint value.length).length + value.length := by
  rw [bytes, if_neg nonempty, List.length_append, List.length_append, key_length small (by decide)]

theorem bytes_length_le {field : Nat} (small : field < 16) (value : List UInt8) :
    (bytes field value).length ≤ 11 + value.length := by
  by_cases h : value = []
  · rw [bytes, if_pos h]
    exact Nat.zero_le _
  · rw [bytes_length small h]
    have := varint_length_le value.length
    omega

theorem bytes_length_mono {field : Nat} (small : field < 16) {v w : List UInt8} (h : v.length ≤ w.length) :
    (bytes field v).length ≤ (bytes field w).length := by
  by_cases hv : v = []
  · rw [bytes, if_pos hv]
    exact Nat.zero_le _
  · have hw : w ≠ [] := by
      rintro rfl
      exact hv (List.length_eq_zero_iff.mp (Nat.le_zero.mp h))
    rw [bytes_length small hv, bytes_length small hw]
    have := varint_length_mono h
    omega

theorem bytes_length_congr (field : Nat) {v w : List UInt8} (h : v.length = w.length) :
    (bytes field v).length = (bytes field w).length := by
  have hnil : v = [] ↔ w = [] := by rw [← List.length_eq_zero_iff, ← List.length_eq_zero_iff, h]
  by_cases hv : v = []
  · rw [bytes, bytes, if_pos hv, if_pos (hnil.mp hv)]
  · rw [bytes, bytes, if_neg hv, if_neg (mt hnil.mpr hv)]
    simp only [List.length_append, h]

/-! ### Reading fields -/

inductive Value where
  | varint (n : Nat)
  | fixed64
  | bytes (content : List UInt8)
  | fixed32

/-- The wire type. -/
def Value.type : Value → Nat
  | .varint _ => 0
  | .fixed64 => 1
  | .bytes _ => 2
  | .fixed32 => 5

def readValue (type : Nat) (rest : List UInt8) : Except String (Value × List UInt8) :=
  match type with
  | 0 => do
    let (n, rest) ← readVarint rest
    return (.varint n, rest)
  | 2 => do
    let (length, rest) ← readVarint rest
    if rest.length < length then .error "protobuf length exceeds payload"
    else return (.bytes (rest.take length), rest.drop length)
  | 1 => if rest.length < 8 then .error "protobuf fixed64 is truncated" else .ok (.fixed64, rest.drop 8)
  | 5 => if rest.length < 4 then .error "protobuf fixed32 is truncated" else .ok (.fixed32, rest.drop 4)
  | _ => .error "protobuf wire type is unsupported"

theorem readVarintFrom_length {left shift value n : Nat} {bytes rest : List UInt8}
    (h : readVarintFrom left shift value bytes = .ok (n, rest)) : rest.length < bytes.length := by
  induction left generalizing shift value bytes with
  | zero => cases h
  | succ left ih =>
    cases bytes with
    | nil => cases h
    | cons byte bytes =>
      rw [readVarintFrom] at h
      split at h
      · cases h
      · dsimp only at h
        split at h
        · cases h
          exact Nat.lt_succ_self _
        · exact (ih h).trans (Nat.lt_succ_self _)

theorem readVarint_length {n : Nat} {bytes rest : List UInt8} (h : readVarint bytes = .ok (n, rest)) : rest.length < bytes.length :=
  readVarintFrom_length h

theorem bind_eq_ok {ε α β : Type} {x : Except ε α} {f : α → Except ε β} {b : β} : (x >>= f) = .ok b ↔ ∃ a, x = .ok a ∧ f a = .ok b := by
  cases x with
  | error e => exact ⟨nofun, nofun⟩
  | ok a => exact ⟨fun h => ⟨a, rfl, h⟩, fun ⟨_, heq, h⟩ => by cases heq; exact h⟩

theorem readValue_ok {type : Nat} {bytes rest : List UInt8} {value : Value} (h : readValue type bytes = .ok (value, rest)) :
    value.type = type ∧ rest.length ≤ bytes.length := by
  unfold readValue at h
  split at h
  · obtain ⟨⟨n, after⟩, hread, h⟩ := bind_eq_ok.mp h
    cases h
    exact ⟨rfl, (readVarint_length hread).le⟩
  · obtain ⟨⟨length, after⟩, hread, h⟩ := bind_eq_ok.mp h
    dsimp only at h
    split at h
    · cases h
    · cases h
      refine ⟨rfl, ?_⟩
      rw [List.length_drop]
      exact (Nat.sub_le _ _).trans (readVarint_length hread).le
  · split at h
    · cases h
    · cases h
      exact ⟨rfl, by rw [List.length_drop]; exact Nat.sub_le _ _⟩
  · split at h
    · cases h
    · cases h
      exact ⟨rfl, by rw [List.length_drop]; exact Nat.sub_le _ _⟩
  · cases h

/-! ### Messages -/

/-- The `int` that a field number is cast to. -/
def narrow (number : Nat) : Nat := number % 2 ^ 32

section Messages
variable {ε M : Type}

/-- Reads all fields of a message, each with `set`. A decoder compares the number that `cast` makes of the one in
    the key. A field has at least one byte, so the number of bytes is enough fuel. -/
def readFields (cast : Nat → Nat) (fail : String → ε) (set : M → Nat → Value → Except ε M) : Nat → List UInt8 → M → Except ε M
  | 0, _, message => .ok message
  | fuel + 1, rest, message =>
    if rest = [] then .ok message
    else do
      let (key, rest) ← (readVarint rest).mapError fail
      let (value, rest) ← (readValue (key % 8) rest).mapError fail
      let message ← set message (cast (key / 8)) value
      readFields cast fail set fuel rest message

def decodeWith (cast : Nat → Nat) (fail : String → ε) (set : M → Nat → Value → Except ε M) (message : M) (bytes : List UInt8) :
    Except ε M :=
  readFields cast fail set bytes.length bytes message

def decode (fail : String → ε) (set : M → Nat → Value → Except ε M) (message : M) (bytes : List UInt8) : Except ε M :=
  decodeWith narrow fail set message bytes

/-- The bytes of one field, whatever follows them. -/
def FieldOf (bytes : List UInt8) (number : Nat) (value : Value) : Prop :=
  ∃ key, key / 8 = number ∧ ∀ rest, ∃ content, readVarint (bytes ++ rest) = .ok (key, content) ∧
    readValue (key % 8) content = .ok (value, rest)

/-- The bytes of some fields. -/
inductive Fields : List UInt8 → Prop
  | nil : Fields []
  | cons {bytes rest : List UInt8} {number : Nat} {value : Value} (first : FieldOf bytes number value) (more : Fields rest) :
      Fields (bytes ++ rest)

theorem FieldOf.of_content {number type : Nat} (fits : number < 2 ^ 61) (htype : type < 8) {content : List UInt8} {value : Value}
    (read : ∀ rest, readValue type (content ++ rest) = .ok (value, rest)) : FieldOf (key number type ++ content) number value := by
  refine ⟨number * 8 + type, by omega, fun rest => ⟨content ++ rest, ?_, ?_⟩⟩
  · rw [List.append_assoc, key]
    exact readVarint_varint (by omega) _
  · rw [show (number * 8 + type) % 8 = type by omega]
    exact read rest

theorem FieldOf.varint {number n : Nat} (fits : number < 2 ^ 61) (h : n < 2 ^ 64) :
    FieldOf (key number 0 ++ Wire.varint n) number (.varint n) := by
  refine .of_content fits (by decide) fun rest => ?_
  simp only [readValue, readVarint_varint h, bind, Except.bind, pure, Except.pure]

theorem FieldOf.bytes {number : Nat} {content : List UInt8} (fits : number < 2 ^ 61) (h : content.length < 2 ^ 64) :
    FieldOf (key number 2 ++ (Wire.varint content.length ++ content)) number (.bytes content) := by
  refine .of_content fits (by decide) fun rest => ?_
  have hlength : ¬ (content ++ rest).length < content.length := by
    rw [List.length_append]
    omega
  simp only [readValue, List.append_assoc, readVarint_varint h, bind, Except.bind, pure, Except.pure, if_neg hlength,
    List.take_left, List.drop_left]

section Decoding
variable {cast : Nat → Nat} {fail : String → ε} {set : M → Nat → Value → Except ε M} {before after last : M}
  {piece first second rest : List UInt8}

theorem readFields_fuel {fuel fuel' : Nat} (h : rest.length ≤ fuel) (h' : rest.length ≤ fuel') :
    readFields cast fail set fuel rest before = readFields cast fail set fuel' rest before := by
  induction fuel generalizing fuel' rest before with
  | zero =>
    obtain rfl := List.eq_nil_of_length_eq_zero (Nat.le_zero.mp h)
    cases fuel' <;> rfl
  | succ fuel ih =>
    cases fuel' with
    | zero =>
      obtain rfl := List.eq_nil_of_length_eq_zero (Nat.le_zero.mp h')
      rfl
    | succ fuel' =>
      rw [readFields, readFields]
      split
      · rfl
      · cases hkey : readVarint rest with
        | error e => rfl
        | ok pair =>
          obtain ⟨key, content⟩ := pair
          simp only [Except.mapError, bind, Except.bind]
          cases hvalue : readValue (key % 8) content with
          | error e => rfl
          | ok pair =>
            obtain ⟨value, rest'⟩ := pair
            have hless := (readValue_ok hvalue).2.trans_lt (readVarint_length hkey)
            dsimp only
            cases set before (cast (key / 8)) value with
            | error e => rfl
            | ok message => exact ih (by omega) (by omega)

@[simp] theorem decodeWith_nil (message : M) : decodeWith cast fail set message [] = .ok message := rfl

/-- The first field is set, then the others are read. -/
theorem FieldOf.decodeWith {number : Nat} {value : Value} (h : FieldOf piece number value) :
    decodeWith cast fail set before (piece ++ rest) =
      set before (cast number) value >>= fun message => decodeWith cast fail set message rest := by
  obtain ⟨key, rfl, h⟩ := h
  obtain ⟨content, hkey, hvalue⟩ := h rest
  have hless := (readValue_ok hvalue).2.trans_lt (readVarint_length hkey)
  have hne : piece ++ rest ≠ [] := by
    intro hnil
    rw [hnil] at hless
    exact Nat.not_lt_zero _ hless
  obtain ⟨fuel, hfuel⟩ : ∃ fuel, (piece ++ rest).length = fuel + 1 := ⟨(piece ++ rest).length - 1, by omega⟩
  rw [Wire.decodeWith, hfuel, readFields, if_neg hne, hkey]
  simp only [Except.mapError, bind, Except.bind, hvalue]
  cases set before (cast (key / 8)) value with
  | error e => rfl
  | ok message => exact readFields_fuel (by omega) (Nat.le_refl _)

/-- A field that `set` passes over may stand anywhere between fields. -/
theorem Fields.decodeWith_insert {number : Nat} {value : Value} (h : Fields first) (field : FieldOf piece number value)
    (ignored : ∀ message, set message (cast number) value = .ok message) :
    decodeWith cast fail set before (first ++ piece ++ rest) = decodeWith cast fail set before (first ++ rest) := by
  induction h generalizing before with
  | nil =>
    rw [List.nil_append, List.nil_append, field.decodeWith, ignored]
    rfl
  | cons field' more ih =>
    rw [List.append_assoc, List.append_assoc, List.append_assoc, field'.decodeWith, field'.decodeWith]
    simp only [← List.append_assoc, ih]

/-- Reading the bytes, whatever follows them, leads from one message to the other. -/
def Reads (cast : Nat → Nat) (fail : String → ε) (set : M → Nat → Value → Except ε M) (bytes : List UInt8) (before after : M) : Prop :=
  ∀ rest, decodeWith cast fail set before (bytes ++ rest) = decodeWith cast fail set after rest

/-- The field numbers that messages use are compared as they are. -/
def Keeps (cast : Nat → Nat) : Prop := ∀ number < 2 ^ 32, cast number = number

theorem keeps_narrow : Keeps narrow := fun _ h => Nat.mod_eq_of_lt h

theorem keeps_id : Keeps id := fun _ _ => rfl

namespace Reads

theorem nil (message : M) : Reads cast fail set [] message message := fun _ => rfl

theorem append (h : Reads cast fail set first before after) (h' : Reads cast fail set second after last) :
    Reads cast fail set (first ++ second) before last := by
  intro rest
  rw [List.append_assoc, h, h']

theorem trans_eq (h : Reads cast fail set piece before after) (heq : after = last) : Reads cast fail set piece before last := heq ▸ h

theorem decodeWith (h : Reads cast fail set piece before after) : decodeWith cast fail set before piece = .ok after := by
  have heq := h []
  rwa [List.append_nil] at heq

theorem field {number : Nat} {value : Value} (keeps : Keeps cast) (small : number < 2 ^ 32) (h : FieldOf piece number value)
    (hset : set before number value = .ok after) : Reads cast fail set piece before after := by
  intro rest
  rw [h.decodeWith, keeps number small, hset]
  rfl

theorem uint {number n : Nat} (keeps : Keeps cast) (small : number < 2 ^ 32) (h : n < 2 ^ 64)
    (hset : n ≠ 0 → set before number (.varint n) = .ok after) (hzero : n = 0 → before = after) :
    Reads cast fail set (Wire.uint number n) before after := by
  unfold Wire.uint
  split
  · rename_i hn
    rw [hzero hn]
    exact .nil after
  · rename_i hn
    exact .field keeps small (.varint (by omega) h) (hset hn)

theorem bool {number : Nat} {flag : Bool} (keeps : Keeps cast) (small : number < 2 ^ 32)
    (hset : flag = true → set before number (.varint 1) = .ok after) (hfalse : flag = false → before = after) :
    Reads cast fail set (Wire.bool number flag) before after := by
  cases flag with
  | false =>
    rw [hfalse rfl]
    exact .nil after
  | true => exact .field keeps small (.varint (by omega) (by decide : 1 < 2 ^ 64)) (hset rfl)

theorem bytes {number : Nat} {content : List UInt8} (keeps : Keeps cast) (small : number < 2 ^ 32) (h : content.length < 2 ^ 64)
    (hset : content ≠ [] → set before number (.bytes content) = .ok after) (hempty : content = [] → before = after) :
    Reads cast fail set (Wire.bytes number content) before after := by
  unfold Wire.bytes
  split
  · rename_i hnil
    rw [hempty hnil]
    exact .nil after
  · rename_i hne
    rw [List.append_assoc]
    exact .field keeps small (.bytes (by omega) h) (hset hne)

end Reads

end Decoding

end Messages

end Wire

end Lib
