import Mathlib

/-! Line-oriented text: pieces between separators as `std::getline` reads them, decimal numerals as the
    `strto` functions read them, and extraction from a string stream. Each reader comes with the lemmas
    that it reads back what was written. -/

namespace Lib

namespace Text

/-- A question about the characters of a text is decided over that text, not over all characters. -/
instance (priority := high) decidableChars {p : Char → Prop} [DecidablePred p] (text : List Char) : Decidable (∀ c ∈ text, p c) :=
  List.decidableBAll p text

/-- One byte a character. -/
theorem utf8ByteSize_ascii {text : String} (h : ∀ c ∈ text.toList, c.toNat < 128) : text.utf8ByteSize = text.toList.length := by
  have hlen : ∀ cs : List Char, (∀ c ∈ cs, c.toNat < 128) → String.utf8Len cs = cs.length := by
    intro cs
    induction cs with
    | nil => exact fun _ => rfl
    | cons c cs ih =>
      intro hcs
      have hc : c.utf8Size = 1 := by
        rw [Char.utf8Size_eq_one_iff]
        exact Nat.le_of_lt_succ (hcs c List.mem_cons_self)
      rw [String.utf8Len_cons, ih fun x hx => hcs x (List.mem_cons_of_mem _ hx), hc, List.length_cons]
  rw [← hlen text.toList h, ← String.utf8ByteSize_ofList, String.ofList_toList]

/-! ### Pieces between separators -/

/-- The pieces that repeated `std::getline` calls return: no last piece after a final separator. -/
def getlines (sep : Char) (text : List Char) : List (List Char) :=
  let pieces := text.splitOn sep
  if pieces.getLast? = some [] then pieces.dropLast else pieces

theorem getlines_intercalate {sep : Char} {pieces : List (List Char)} (none : ∀ p ∈ pieces, sep ∉ p)
    (last : ∀ p, pieces.getLast? = some p → p ≠ []) : getlines sep ([sep].intercalate pieces) = pieces := by
  unfold getlines
  rcases List.eq_nil_or_concat pieces with rfl | ⟨front, p, rfl⟩
  · simp [List.intercalate]
  · rw [List.splitOn_intercalate sep none (by simp)]
    have hp : p ≠ [] := last p (by simp)
    simp [hp]

/-- Every line ends with the separator. -/
def terminated (sep : Char) (lines : List (List Char)) : List Char := lines.flatMap (· ++ [sep])

theorem terminated_eq_intercalate (sep : Char) (lines : List (List Char)) :
    terminated sep lines = [sep].intercalate (lines ++ [[]]) := by
  induction lines with
  | nil => simp [terminated, List.intercalate]
  | cons line lines ih =>
    have hne : lines ++ [[]] ≠ [] := by simp
    obtain ⟨next, rest, hnext⟩ := List.exists_cons_of_ne_nil hne
    simp only [terminated, List.flatMap_cons] at ih ⊢
    rw [ih, List.cons_append, hnext]
    simp [List.intercalate]

theorem getlines_terminated {sep : Char} {lines : List (List Char)} (none : ∀ l ∈ lines, sep ∉ l) :
    getlines sep (terminated sep lines) = lines := by
  unfold getlines
  rw [terminated_eq_intercalate, List.splitOn_intercalate sep _ (by simp)]
  · simp
  · intro l hl
    rcases List.mem_append.mp hl with h | h
    · exact none l h
    · obtain rfl := List.mem_singleton.mp h
      simp

/-! ### Decimal numerals -/

/-- An optional sign, the digits after it, and what is left. -/
structure Numeral where
  negative : Bool
  digits : List Char
  rest : List Char
  deriving DecidableEq, Repr

def numeral (text : List Char) : Numeral :=
  let negative := text.head? == some '-'
  let body := if negative || text.head? == some '+' then text.tail else text
  { negative, digits := body.takeWhile Char.isDigit, rest := body.dropWhile Char.isDigit }

/-- The value of an unsigned type of this width; a minus sign wraps. -/
def Numeral.unsigned (n : Numeral) (width : Nat) : Option Nat :=
  let magnitude := Nat.ofDigitChars 10 n.digits 0
  if n.digits = [] ∨ 2 ^ width ≤ magnitude then none
  else some (if n.negative then (2 ^ width - magnitude) % 2 ^ width else magnitude)

def Numeral.value (n : Numeral) : Int :=
  let magnitude : Int := Nat.ofDigitChars 10 n.digits 0
  if n.negative then -magnitude else magnitude

/-- The value of a signed type of this width. -/
def Numeral.signed (n : Numeral) (width : Nat) : Option Int :=
  if n.digits = [] ∨ n.value < -2 ^ (width - 1) ∨ 2 ^ (width - 1) ≤ n.value then none else some n.value

/-- What follows a numeral does not continue it. -/
def Ends (rest : List Char) : Prop := ∀ c ∈ rest.head?, c.isDigit = false

theorem Ends.nil : Ends [] := nofun

theorem Ends.cons {c : Char} {rest : List Char} (h : c.isDigit = false) : Ends (c :: rest) := by
  intro x hx
  simp only [List.head?_cons, Option.mem_def, Option.some.injEq] at hx
  rwa [← hx]

theorem takeWhile_digits {ds rest : List Char} (digits : ∀ c ∈ ds, c.isDigit = true) (ends : Ends rest) :
    (ds ++ rest).takeWhile Char.isDigit = ds ∧ (ds ++ rest).dropWhile Char.isDigit = rest := by
  rw [List.takeWhile_append_of_pos digits, List.dropWhile_append_of_pos digits]
  cases rest with
  | nil => simp
  | cons c rest =>
    have hc : c.isDigit = false := ends c (by simp)
    simp [hc]

theorem digit_ne_sign {c : Char} (h : c.isDigit = true) : c ≠ '-' ∧ c ≠ '+' := by
  constructor <;> rintro rfl <;> revert h <;> decide

theorem numeral_digits {ds rest : List Char} (nonempty : ds ≠ []) (digits : ∀ c ∈ ds, c.isDigit = true)
    (ends : Ends rest) : numeral (ds ++ rest) = { negative := false, digits := ds, rest } := by
  obtain ⟨c, cs, rfl⟩ := List.exists_cons_of_ne_nil nonempty
  obtain ⟨hminus, hplus⟩ := digit_ne_sign (digits c (by simp))
  obtain ⟨htake, hdrop⟩ := takeWhile_digits digits ends
  rw [List.cons_append] at htake hdrop
  simp [numeral, hminus, hplus, htake, hdrop]

/-- The digits of a natural number. -/
def ofNat (n : Nat) : List Char := Nat.toDigits 10 n

theorem digits_ofNat {n : Nat} : ∀ c ∈ ofNat n, c.isDigit = true := fun _ hc =>
  Nat.isDigit_of_mem_toDigits (by decide) (by decide) hc

theorem ofNat_ne_nil {n : Nat} : ofNat n ≠ [] := Nat.toDigits_ne_nil

@[simp] theorem toList_toString (n : Nat) : (toString n).toList = ofNat n := Nat.toList_repr

theorem value_ofNat (n : Nat) : Nat.ofDigitChars 10 (ofNat n) 0 = n := Nat.ofDigitChars_ten_toDigits

theorem ofNat_injective {m n : Nat} (h : ofNat m = ofNat n) : m = n := by
  rw [← value_ofNat m, h, value_ofNat]

theorem numeral_ofNat {n : Nat} {rest : List Char} (ends : Ends rest) :
    numeral (ofNat n ++ rest) = { negative := false, digits := ofNat n, rest } :=
  numeral_digits ofNat_ne_nil digits_ofNat ends

theorem unsigned_ofNat {n width : Nat} (h : n < 2 ^ width) (rest : List Char) :
    ({ negative := false, digits := ofNat n, rest } : Numeral).unsigned width = some n := by
  simp [Numeral.unsigned, value_ofNat, ofNat_ne_nil, Nat.not_le.mpr h]

/-- The sign and digits of an integer. -/
def ofInt : Int → List Char
  | .ofNat n => ofNat n
  | .negSucc n => '-' :: ofNat (n + 1)

@[simp] theorem toList_toString_int (i : Int) : (toString i).toList = ofInt i := by
  change i.repr.toList = ofInt i
  cases i with
  | ofNat n => exact Nat.toList_repr
  | negSucc n =>
    simp only [Int.repr, String.toList_append, Nat.toList_repr, ofInt]
    rfl

theorem numeral_ofInt {i : Int} {rest : List Char} (ends : Ends rest) :
    ∃ n, numeral (ofInt i ++ rest) = n ∧ n.digits ≠ [] ∧ n.value = i ∧ n.rest = rest := by
  cases i with
  | ofNat n =>
    refine ⟨_, numeral_ofNat ends, ofNat_ne_nil, ?_, rfl⟩
    simp [Numeral.value, value_ofNat]
  | negSucc n =>
    obtain ⟨htake, hdrop⟩ := takeWhile_digits (digits_ofNat (n := n + 1)) ends
    refine ⟨{ negative := true, digits := ofNat (n + 1), rest }, ?_, ofNat_ne_nil, ?_, rfl⟩
    · simp [ofInt, numeral, htake, hdrop]
    · simp [Numeral.value, value_ofNat, Int.negSucc_eq]

theorem signed_ofInt {i : Int} {width : Nat} {rest : List Char} (ends : Ends rest) (lower : -2 ^ (width - 1) ≤ i)
    (upper : i < 2 ^ (width - 1)) :
    (numeral (ofInt i ++ rest)).signed width = some i ∧ (numeral (ofInt i ++ rest)).rest = rest := by
  obtain ⟨n, hn, hdigits, hvalue, hrest⟩ := numeral_ofInt (i := i) ends
  rw [hn]
  refine ⟨?_, hrest⟩
  simp [Numeral.signed, hdigits, hvalue, lower, upper]

/-! ### Extraction from a stream -/

/-- `std::isspace` -/
def isSpace (c : Char) : Bool := c == ' ' || ('\t' ≤ c && c ≤ '\r')

/-- What is left of a string stream, and its state bits. -/
structure Stream where
  rest : List Char
  fail : Bool := false
  eof : Bool := false
  deriving DecidableEq, Repr

namespace Stream

/-- Formatted extraction first skips white space; it fails at the end and after an end or a failure. -/
def sentry (s : Stream) : Stream :=
  if s.fail || s.eof then { s with fail := true }
  else
    let rest := s.rest.dropWhile isSpace
    { rest, fail := rest.isEmpty, eof := rest.isEmpty }

/-- `stream >> text`, for a text that was empty -/
def word (s : Stream) : List Char × Stream :=
  let s := s.sentry
  if s.fail then ([], s)
  else
    let rest := s.rest.dropWhile fun c => !isSpace c
    (s.rest.takeWhile fun c => !isSpace c, { s with rest, eof := rest.isEmpty })

/-- `stream >> value`: nothing to read leaves the old value, no digits give zero, and a value out of
    range is the nearest one in range. -/
def unsigned (s : Stream) (width old : Nat) : Nat × Stream :=
  let s := s.sentry
  if s.fail then (old, s)
  else
    let n := numeral s.rest
    let s := { s with rest := n.rest, eof := n.rest.isEmpty }
    match n.unsigned width with
    | some value => (value, s)
    | none => (if n.digits = [] then 0 else 2 ^ width - 1, { s with fail := true })

def signed (s : Stream) (width : Nat) (old : Int) : Int × Stream :=
  let s := s.sentry
  if s.fail then (old, s)
  else
    let n := numeral s.rest
    let s := { s with rest := n.rest, eof := n.rest.isEmpty }
    match n.signed width with
    | some value => (value, s)
    | none =>
      (if n.digits = [] then 0 else if n.negative then -2 ^ (width - 1) else 2 ^ (width - 1) - 1, { s with fail := true })

end Stream

/-- A word of a line. -/
structure Word (w : List Char) : Prop where
  nonempty : w ≠ []
  solid : ∀ c ∈ w, isSpace c = false

theorem Word.of_digits {w : List Char} (nonempty : w ≠ []) (digits : ∀ c ∈ w, c.isDigit = true) : Word w := by
  refine ⟨nonempty, fun c hc => ?_⟩
  have hd := digits c hc
  simp only [Char.isDigit, Bool.and_eq_true, decide_eq_true_eq] at hd
  simp only [isSpace, Bool.or_eq_false_iff, Bool.and_eq_false_iff, beq_eq_false_iff_ne, decide_eq_false_iff_not]
  have hlow : ('\r' : Char).val < c.val := UInt32.lt_of_lt_of_le (by decide) hd.1
  refine ⟨?_, Or.inr fun h => ?_⟩
  · rintro rfl
    exact absurd hd.1 (by decide)
  · exact UInt32.lt_irrefl _ (UInt32.lt_of_lt_of_le hlow h)

theorem Word.ofNat (n : Nat) : Word (ofNat n) := .of_digits ofNat_ne_nil digits_ofNat

/-- The stream of a line once all but these words have been read. -/
def Stream.left (words : List (List Char)) : Stream :=
  { rest := words.flatMap (' ' :: ·), eof := words.isEmpty }

/-- The words of a line, one blank between them. -/
def unwords : List (List Char) → List Char
  | [] => []
  | w :: words => w ++ words.flatMap (' ' :: ·)

/-- Words hold no separator, so a line of them holds none but the blank. -/
theorem not_mem_unwords {words : List (List Char)} {c : Char} (space : isSpace c = true) (blank : c ≠ ' ')
    (h : ∀ w ∈ words, Word w) : c ∉ unwords words := by
  have hword : ∀ w ∈ words, c ∉ w := fun w hw hc => by simp [(h w hw).solid c hc] at space
  intro hc
  cases words with
  | nil => cases hc
  | cons w words =>
    rcases List.mem_append.mp hc with hc | hc
    · exact hword w List.mem_cons_self hc
    · obtain ⟨x, hx, hc⟩ := List.mem_flatMap.mp hc
      rcases List.mem_cons.mp hc with hc | hc
      · exact blank hc
      · exact hword x (List.mem_cons_of_mem _ hx) hc

theorem unwords_ne_nil {words : List (List Char)} (nonempty : words ≠ []) (h : ∀ w ∈ words, Word w) : unwords words ≠ [] := by
  obtain ⟨w, words, rfl⟩ := List.exists_cons_of_ne_nil nonempty
  simp [unwords, (h w List.mem_cons_self).nonempty]

section Reading
variable {w : List Char} {words : List (List Char)}

theorem Word.dropWhile (h : Word w) (rest : List Char) : (w ++ rest).dropWhile isSpace = w ++ rest := by
  obtain ⟨c, cs, rfl⟩ := List.exists_cons_of_ne_nil h.nonempty
  have hc := h.solid c (by simp)
  simp [hc]

theorem sentry_first (h : Word w) : ({ rest := unwords (w :: words) } : Stream).sentry = { rest := w ++ words.flatMap (' ' :: ·) } := by
  have hd := h.dropWhile (words.flatMap (' ' :: ·))
  simp [Stream.sentry, unwords, hd, h.nonempty]

theorem sentry_left (h : Word w) : (Stream.left (w :: words)).sentry = { rest := w ++ words.flatMap (' ' :: ·) } := by
  have hd := h.dropWhile (words.flatMap (' ' :: ·))
  have hblank : isSpace ' ' = true := by decide
  simp [Stream.sentry, Stream.left, hblank, hd, h.nonempty]

theorem span_word (words : List (List Char)) (h : Word w) :
    (w ++ words.flatMap (' ' :: ·)).takeWhile (fun c => !isSpace c) = w ∧
      (w ++ words.flatMap (' ' :: ·)).dropWhile (fun c => !isSpace c) = words.flatMap (' ' :: ·) := by
  have hw : ∀ c ∈ w, (!isSpace c) = true := fun c hc => by simp [h.solid c hc]
  rw [List.takeWhile_append_of_pos hw, List.dropWhile_append_of_pos hw]
  cases words with
  | nil => simp
  | cons w' words =>
    have hblank : isSpace ' ' = true := by decide
    simp [hblank]

theorem flatMap_isEmpty : (words.flatMap (' ' :: ·)).isEmpty = words.isEmpty := by
  cases words <;> simp

theorem ends_flatMap (words : List (List Char)) : Ends (words.flatMap (' ' :: ·)) := by
  cases words with
  | nil => exact .nil
  | cons w words => exact .cons (by decide)

theorem word_first (h : Word w) : ({ rest := unwords (w :: words) } : Stream).word = (w, .left words) := by
  obtain ⟨htake, hdrop⟩ := span_word words h
  simp only [Stream.word, sentry_first h, htake, hdrop, Stream.left, flatMap_isEmpty]
  rfl

theorem word_left (h : Word w) : (Stream.left (w :: words)).word = (w, .left words) := by
  obtain ⟨htake, hdrop⟩ := span_word words h
  simp only [Stream.word, sentry_left h, htake, hdrop, flatMap_isEmpty]
  rfl

theorem unsigned_left {n width old : Nat} (h : n < 2 ^ width) :
    (Stream.left (ofNat n :: words)).unsigned width old = (n, .left words) := by
  have hn := numeral_ofNat (n := n) (ends_flatMap words)
  simp only [Stream.unsigned, sentry_left (.ofNat n), hn, unsigned_ofNat h, flatMap_isEmpty]
  rfl

theorem Word.ofInt (i : Int) : Word (ofInt i) := by
  cases i with
  | ofNat n => exact .ofNat n
  | negSucc n =>
    refine ⟨by simp [Text.ofInt], fun c hc => ?_⟩
    rcases List.mem_cons.mp hc with rfl | hc
    · decide
    · exact (Word.ofNat (n + 1)).solid c hc

theorem signed_left {i old : Int} {width : Nat} (lower : -2 ^ (width - 1) ≤ i) (upper : i < 2 ^ (width - 1)) :
    (Stream.left (ofInt i :: words)).signed width old = (i, .left words) := by
  obtain ⟨hvalue, hrest⟩ := signed_ofInt (ends_flatMap words) lower upper
  simp only [Stream.signed, sentry_left (.ofInt i), hvalue, hrest, flatMap_isEmpty]
  rfl

theorem signed_first {i old : Int} {width : Nat} (lower : -2 ^ (width - 1) ≤ i) (upper : i < 2 ^ (width - 1)) :
    ({ rest := unwords (ofInt i :: words) } : Stream).signed width old = (i, .left words) := by
  obtain ⟨hvalue, hrest⟩ := signed_ofInt (ends_flatMap words) lower upper
  simp only [Stream.signed, sentry_first (.ofInt i), hvalue, hrest, flatMap_isEmpty]
  rfl

end Reading

/-! ### Padded numbers -/

theorem value_bounds {l : List Char} (digits : ∀ c ∈ l, c.isDigit = true) (init : Nat) :
    10 ^ l.length * init ≤ Nat.ofDigitChars 10 l init ∧ Nat.ofDigitChars 10 l init < 10 ^ l.length * (init + 1) := by
  induction l generalizing init with
  | nil => simp
  | cons c l ih =>
    have hdigit := digits c List.mem_cons_self
    simp only [Char.isDigit, Bool.and_eq_true, decide_eq_true_eq] at hdigit
    have hle : c.toNat ≤ 57 := hdigit.2
    obtain ⟨hlower, hupper⟩ := ih (fun x hx => digits x (List.mem_cons_of_mem _ hx)) (10 * init + (c.toNat - '0'.toNat))
    have hzero : '0'.toNat = 48 := rfl
    rw [Nat.ofDigitChars_cons, List.length_cons, Nat.pow_succ]
    refine ⟨le_trans ?_ hlower, hupper.trans_le ?_⟩
    · rw [Nat.mul_assoc]
      exact Nat.mul_le_mul_left _ (by omega)
    · rw [Nat.mul_assoc]
      exact Nat.mul_le_mul_left _ (by omega)

/-- The first digit decides. -/
theorem value_lt_of_head_lt {c e : Char} {l m : List Char} (length : l.length = m.length) (hc : c.isDigit = true)
    (hl : ∀ x ∈ l, x.isDigit = true) (hm : ∀ x ∈ m, x.isDigit = true) (head : c < e) (init : Nat) :
    Nat.ofDigitChars 10 (c :: l) init < Nat.ofDigitChars 10 (e :: m) init := by
  have hce : c.toNat < e.toNat := head
  simp only [Char.isDigit, Bool.and_eq_true, decide_eq_true_eq] at hc
  have hc48 : 48 ≤ c.toNat := hc.1
  have hzero : '0'.toNat = 48 := rfl
  have hlower := (value_bounds hm (10 * init + (e.toNat - '0'.toNat))).1
  have hupper := (value_bounds hl (10 * init + (c.toNat - '0'.toNat))).2
  rw [length] at hupper
  have hmono : 10 ^ m.length * (10 * init + (c.toNat - '0'.toNat) + 1) ≤ 10 ^ m.length * (10 * init + (e.toNat - '0'.toNat)) :=
    Nat.mul_le_mul_left _ (by omega)
  rw [Nat.ofDigitChars_cons, Nat.ofDigitChars_cons]
  omega

/-- Digit strings of one length are ordered as their values. -/
theorem lt_of_value_lt {s t : List Char} : ∀ {l m : List Char} {init : Nat}, l.length = m.length → (∀ c ∈ l, c.isDigit = true) →
    (∀ c ∈ m, c.isDigit = true) → Nat.ofDigitChars 10 l init < Nat.ofDigitChars 10 m init → l ++ s < m ++ t
  | [], [], _, _, _, _, h => absurd h (lt_irrefl _)
  | c :: l, e :: m, init, hlen, hl, hm, h => by
    have hl' := (List.forall_mem_cons.mp hl).2
    obtain ⟨he, hm'⟩ := List.forall_mem_cons.mp hm
    have hlen' : l.length = m.length := Nat.succ.inj hlen
    rw [List.cons_append, List.cons_append, List.cons_lt_cons_iff]
    rcases lt_trichotomy c e with hlt | rfl | hgt
    · exact .inl hlt
    · rw [Nat.ofDigitChars_cons, Nat.ofDigitChars_cons] at h
      exact .inr ⟨rfl, lt_of_value_lt hlen' hl' hm' h⟩
    · exact absurd h (value_lt_of_head_lt hlen'.symm he hm' hl' hgt init).not_gt

/-- Digit strings of one length are given by their values. -/
theorem eq_of_value_eq : ∀ {l m : List Char} {init : Nat}, l.length = m.length → (∀ c ∈ l, c.isDigit = true) →
    (∀ c ∈ m, c.isDigit = true) → Nat.ofDigitChars 10 l init = Nat.ofDigitChars 10 m init → l = m
  | [], [], _, _, _, _, _ => rfl
  | c :: l, e :: m, init, hlen, hl, hm, h => by
    obtain ⟨hc, hl'⟩ := List.forall_mem_cons.mp hl
    obtain ⟨he, hm'⟩ := List.forall_mem_cons.mp hm
    have hlen' : l.length = m.length := Nat.succ.inj hlen
    rcases lt_trichotomy c e with hlt | rfl | hgt
    · exact absurd h (value_lt_of_head_lt hlen' hc hl' hm' hlt init).ne
    · rw [Nat.ofDigitChars_cons, Nat.ofDigitChars_cons] at h
      rw [eq_of_value_eq hlen' hl' hm' h]
    · exact absurd h (value_lt_of_head_lt hlen'.symm he hm' hl' hgt init).ne'

/-- The value of the first digits. -/
theorem value_take {l : List Char} (digits : ∀ c ∈ l, c.isDigit = true) (m : Nat) :
    Nat.ofDigitChars 10 (l.take m) 0 = Nat.ofDigitChars 10 l 0 / 10 ^ (l.length - m) := by
  have hsplit : Nat.ofDigitChars 10 l 0 = Nat.ofDigitChars 10 (l.drop m) (Nat.ofDigitChars 10 (l.take m) 0) := by
    rw [← Nat.ofDigitChars_append, List.take_append_drop]
  have hdrop : ∀ c ∈ l.drop m, c.isDigit = true := fun c hc => digits c (List.mem_of_mem_drop hc)
  have hbounds := value_bounds hdrop (Nat.ofDigitChars 10 (l.take m) 0)
  rw [← hsplit, List.length_drop] at hbounds
  refine (Nat.div_eq_of_lt_le ?_ ?_).symm
  · rw [Nat.mul_comm]
    exact hbounds.1
  · rw [Nat.mul_comm]
    exact hbounds.2

/-! ### Reading separated texts -/

/-- What stands before the first separator. -/
theorem split_first {sep : Char} {a b a' b' : List Char} (ha : sep ∉ a) (ha' : sep ∉ a') (h : a ++ sep :: b = a' ++ sep :: b') :
    a = a' ∧ b = b' := by
  induction a generalizing a' with
  | nil =>
    cases a' with
    | nil => exact ⟨rfl, (List.cons.inj h).2⟩
    | cons c a' => exact absurd (List.cons.inj h).1 (List.ne_of_not_mem_cons ha')
  | cons c a ih =>
    cases a' with
    | nil => exact absurd (List.cons.inj h).1.symm (List.ne_of_not_mem_cons ha)
    | cons c' a' =>
      obtain ⟨rfl, hrest⟩ := List.cons.inj h
      obtain ⟨rfl, hb⟩ := ih (List.not_mem_of_not_mem_cons ha) (List.not_mem_of_not_mem_cons ha') hrest
      exact ⟨rfl, hb⟩

/-- What stands after the last separator. -/
theorem split_last {sep : Char} {a b a' b' : List Char} (hb : sep ∉ b) (hb' : sep ∉ b') (h : a ++ sep :: b = a' ++ sep :: b') :
    a = a' ∧ b = b' := by
  have hreverse := congrArg List.reverse h
  simp only [List.reverse_append, List.reverse_cons, List.append_assoc, List.singleton_append] at hreverse
  obtain ⟨hbr, har⟩ := split_first (by simpa using hb) (by simpa using hb') hreverse
  exact ⟨List.reverse_injective har, List.reverse_injective hbr⟩

theorem terminated_injective {sep : Char} {l l' : List (List Char)} (hl : ∀ x ∈ l, sep ∉ x) (hl' : ∀ x ∈ l', sep ∉ x)
    (h : terminated sep l = terminated sep l') : l = l' := by
  rw [← getlines_terminated hl, h, getlines_terminated hl']

theorem not_mem_ofNat {c : Char} (h : c.isDigit = false) (n : Nat) : c ∉ ofNat n := by
  intro hc
  rw [digits_ofNat c hc] at h
  cases h

theorem not_mem_ofInt {c : Char} (h : c.isDigit = false) (sign : c ≠ '-') (i : Int) : c ∉ ofInt i := by
  cases i with
  | ofNat n => exact not_mem_ofNat h n
  | negSucc n => exact List.not_mem_cons_of_ne_of_not_mem sign (not_mem_ofNat h _)

theorem ofInt_injective {i j : Int} (h : ofInt i = ofInt j) : i = j := by
  obtain ⟨n, hn, -, hi, -⟩ := numeral_ofInt (i := i) .nil
  obtain ⟨m, hm, -, hj, -⟩ := numeral_ofInt (i := j) .nil
  rw [← hi, ← hj, ← hn, ← hm, h]

end Text

end Lib
