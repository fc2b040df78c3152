import Choreolog.Raft.SharedLog
import Choreolog.Theorems.Changes

/-! # Shared logs are lists

Whatever the logs of a program share, each of them reads as the list that the same calls make of it: a write goes to a
directory and a chunk that no other log can see. -/

namespace Choreolog.Raft.LogHeap

variable {l l' l'' : EntryLog} {places : List Nat} {chunks chunks' : List (List Entry)} {e : Entry} {i j k c : Nat}

theorem index_unique {α : Type} [BEq α] [LawfulBEq α] {s : List α} {x : α} (once : s.count x = 1) (hi : s[i]? = some x)
    (hj : s[j]? = some x) : i = j := by
  induction s generalizing i j with
  | nil => cases hi
  | cons y s ih => rcases i with _ | i <;> rcases j with _ | j <;> grind

/-! ### Blocks of a list -/

/-- What the chunk at a place of the directory has to hold. -/
def block (l : EntryLog) (k : Nat) : List Entry := (l.drop (256 * k)).take 256

theorem getElem?_block : (block l k)[i]? = if i < 256 then l[256 * k + i]? else none := by
  rw [block, List.getElem?_take, List.getElem?_drop]

theorem block_append_of_le (h : 256 * k + 256 ≤ l.length) : block (l ++ [e]) k = block l k := by
  rw [block, block, List.drop_append_of_le_length (by omega), List.take_append_of_le_length (by simp; omega)]

theorem block_append_last (h : l.length < 256 * k + 256) (hk : 256 * k ≤ l.length) : block (l ++ [e]) k = block l k ++ [e] := by
  rw [block, block, List.drop_append_of_le_length hk, List.take_of_length_le (by simp; omega),
    List.take_of_length_le (by simp; omega)]

theorem block_set_of_ne (h : j ≠ i / 256) : block (l.set i e) j = block l j := by
  refine List.ext_getElem? fun k => ?_
  rw [getElem?_block, getElem?_block]
  split
  · rw [List.getElem?_set_ne (by omega)]
  · rfl

theorem block_set (l : EntryLog) (i : Nat) (e : Entry) : block (l.set i e) (i / 256) = (block l (i / 256)).set (i % 256) e := by
  have hi : i - 256 * (i / 256) = i % 256 := by omega
  rw [block, block, List.drop_set, if_neg (by omega), hi, List.take_set]

theorem block_take (l : EntryLog) (i k : Nat) : block (l.take i) k = (block l k).take (i - 256 * k) := by
  rw [block, block, List.drop_take, List.take_take, List.take_take, min_comm]

theorem block_take_of_le (h : 256 * k + 256 ≤ i) : block (l.take i) k = block l k := by
  rw [block_take, List.take_of_length_le]
  have hlength := List.length_take_le 256 (l.drop (256 * k))
  unfold block
  omega

/-- The chunks at these places are the blocks of the list. -/
structure Spread (chunks : List (List Entry)) (places : List Nat) (l : EntryLog) : Prop where
  length : places.length = (l.length + 255) / 256
  chunk : ∀ {k c}, places[k]? = some c → chunks[c]? = some (block l k)

namespace Spread

theorem keep (h : Spread chunks places l) (same : ∀ c ∈ places, chunks'[c]? = chunks[c]?) : Spread chunks' places l :=
  ⟨h.length, fun hc => (same _ (List.mem_of_getElem? hc)).trans (h.chunk hc)⟩

/-- A chunk that exists stays where it is when another is made. -/
theorem append_same (h : Spread chunks places l) (more : List (List Entry)) : ∀ c ∈ places, (chunks ++ more)[c]? = chunks[c]? := by
  intro c hc
  obtain ⟨k, hk⟩ := List.mem_iff_getElem?.mp hc
  exact List.getElem?_append_left (List.getElem?_eq_some_iff.mp (h.chunk hk)).1

/-- A new chunk for an entry after full ones. -/
theorem next (h : Spread chunks places l) (full : l.length % 256 = 0) :
    Spread (chunks ++ [[e]]) (places ++ [chunks.length]) (l ++ [e]) := by
  have hlength := h.length
  refine ⟨by simp; omega, fun {k c} hc => ?_⟩
  by_cases hk : k < places.length
  · rw [List.getElem?_append_left hk] at hc
    rw [h.append_same _ c (List.mem_of_getElem? hc), h.chunk hc, block_append_of_le (by omega)]
  · have hk' : k = places.length := by
      have := (List.getElem?_eq_some_iff.mp hc).1
      simp at this
      omega
    subst hk'
    rw [List.getElem?_concat_length] at hc
    obtain rfl := Option.some.inj hc
    rw [List.getElem?_concat_length, block_append_last (by omega) (by omega), block, List.drop_of_length_le (by omega)]
    rfl

/-- Another chunk at one place, for a list that differs in one block. -/
theorem replace (h : Spread chunks places l) (hk : k < places.length) (length : (l'.length + 255) / 256 = (l.length + 255) / 256)
    (other : ∀ j < places.length, j ≠ k → block l' j = block l j) :
    Spread (chunks ++ [block l' k]) (places.set k chunks.length) l' := by
  refine ⟨by rw [List.length_set, h.length, length], fun {j c} hc => ?_⟩
  by_cases hj : j = k
  · subst hj
    rw [List.getElem?_set_self hk] at hc
    obtain rfl := Option.some.inj hc
    exact List.getElem?_concat_length
  · rw [List.getElem?_set_ne (Ne.symm hj)] at hc
    rw [h.append_same _ c (List.mem_of_getElem? hc), h.chunk hc, other j (List.getElem?_eq_some_iff.mp hc).1 hj]

/-- A chunk that occurs once in the directory is written in place. -/
theorem here (h : Spread chunks places l) (hk : places[k]? = some c) (once : places.count c = 1)
    (length : (l'.length + 255) / 256 = (l.length + 255) / 256)
    (other : ∀ j < places.length, j ≠ k → block l' j = block l j) : Spread (chunks.set c (block l' k)) places l' := by
  refine ⟨by rw [h.length, length], fun {j c'} hc => ?_⟩
  by_cases hj : j = k
  · subst hj
    obtain rfl := Option.some.inj (hk.symm.trans hc)
    exact List.getElem?_set_self (List.getElem?_eq_some_iff.mp (h.chunk hk)).1
  · have hne : c ≠ c' := by
      rintro rfl
      exact hj (index_unique once hc hk)
    rw [List.getElem?_set_ne hne, h.chunk hc, other j (List.getElem?_eq_some_iff.mp hc).1 hj]

theorem take (h : Spread chunks places l) (n : Nat) : Spread chunks (places.take n) (l.take (256 * n)) := by
  have hlength := h.length
  refine ⟨by simp only [List.length_take]; omega, fun {k c} hc => ?_⟩
  rw [List.getElem?_take] at hc
  split at hc
  · rw [h.chunk hc, block_take_of_le (by omega)]
  · cases hc

/-- An index finds its entry. -/
theorem index (h : Spread chunks places l) (i : Nat) :
    (places[i / 256]?.bind fun c => chunks[c]?.bind fun chunk => chunk[i % 256]?) = l[i]? := by
  have hlength := h.length
  cases hc : places[i / 256]? with
  | none =>
    have hle := List.getElem?_eq_none_iff.mp hc
    exact (List.getElem?_eq_none (by omega)).symm
  | some c =>
    have hmod : i % 256 < 256 := Nat.mod_lt i (by decide)
    rw [Option.bind_some, h.chunk hc, Option.bind_some, getElem?_block, if_pos hmod, Nat.div_add_mod]

end Spread

/-! ### Validity of terms -/

theorem valid_append (l : EntryLog) (e : Entry) : EntryLog.valid (l ++ [e]) =
    (l.valid && e.term != 0 && (l.length == 0 || (l[l.length - 1]?).all (·.term ≤ e.term))) := by
  rw [Bool.eq_iff_iff]
  rcases List.eq_nil_or_concat' l with rfl | ⟨front, last, rfl⟩
  · simp [EntryLog.valid]
  · have hlast : ∀ x ∈ front, x.term ≤ last.term → last.term ≤ e.term → x.term ≤ e.term := fun _ _ => le_trans
    simp only [EntryLog.valid, List.pairwise_append, Bool.and_eq_true, decide_eq_true_eq]
    simp
    grind

/-- `previous` bounds the terms that are still to come. -/
theorem foldl_valid (l : EntryLog) (valid : Bool) (previous : Nat) :
    (l.foldl validateTerm (valid, previous)).1 = (valid && l.valid && l.all (previous ≤ ·.term)) := by
  induction l generalizing valid previous with
  | nil => simp [EntryLog.valid]
  | cons e l ih =>
    rw [List.foldl_cons, ih, Bool.eq_iff_iff]
    simp only [validateTerm, EntryLog.valid, List.pairwise_cons, Bool.and_eq_true, decide_eq_true_eq]
    simp
    grind

/-! ### Data -/

/-- The data holds these entries. -/
structure Holds (chunks : List (List Entry)) (data : LogData) (l : EntryLog) : Prop where
  size : data.size = l.length
  valid : data.valid = l.valid
  spread : Spread chunks data.chunks l

variable {h h' : LogHeap} {data data' a b : LogData} {d : Nat} {s : List (Option EntryLog)}

theorem entry_eq (spread : Spread h.chunks data.chunks l) (index : Nat) : h.entry data index = l[index]? := spread.index index

theorem back_eq (hold : Holds h.chunks data l) : h.back data = l[l.length - 1]? := by
  rw [LogHeap.back, entry_eq hold.spread, hold.size]

theorem iterate_eq (spread : Spread h.chunks data.chunks l) {steps : Nat} (hsteps : i + steps = l.length) :
    h.iterate data i steps = some (l.drop i) := by
  induction steps generalizing i with
  | zero => rw [List.drop_of_length_le (by omega), iterate]
  | succ steps ih =>
    have hlt : i < l.length := by omega
    rw [iterate, ih (by omega), entry_eq spread, List.getElem?_eq_getElem hlt, List.drop_eq_getElem_cons hlt]
    rfl

theorem entries_eq (spread : Spread h.chunks data.chunks l) (size : data.size = l.length) : h.entries data = some l :=
  iterate_eq spread (by rw [Nat.zero_add, size])

theorem validateTerms_eq (spread : Spread h.chunks places l) {size : Nat} {valid : Bool} (hsize : size = l.length) :
    h.validateTerms ⟨places, size, valid⟩ = some ⟨places, size, l.valid⟩ := by
  rw [validateTerms, entries_eq spread hsize]
  simp [foldl_valid]

theorem validTerms_eq (hold : Holds h.chunks data l) (before limit : Nat) :
    h.validTerms data before limit = l.validTerms before limit := by
  unfold LogHeap.validTerms EntryLog.validTerms
  rw [hold.valid, hold.size, entry_eq hold.spread, back_eq hold, List.head?_eq_getElem?, List.getLast?_eq_getElem?]
  cases l <;> rfl

/-! ### Common prefixes -/

def Agree (l l' : EntryLog) (n : Nat) : Prop := ∀ i < n, l[i]? = l'[i]?

theorem Agree.extend {m n : Nat} (h : Agree l l' m) (more : ∀ i, m ≤ i → i < n → l[i]? = l'[i]?) : Agree l l' n := by
  intro i hi
  by_cases hm : i < m
  · exact h i hm
  · exact more i (not_lt.mp hm) hi

/-- Two lists agree before `n`, and `n` is the end of one of them or a place where they differ. -/
structure Parts (l l' : EntryLog) (n : Nat) : Prop where
  le : n ≤ min l.length l'.length
  agree : Agree l l' n
  apart : n < min l.length l'.length → l[n]? ≠ l'[n]?

theorem commonPrefixFrom_parts (ha : Holds h.chunks a l) (hb : Holds h.chunks b l') {count index : Nat} (hcount : count = min l.length l'.length)
    (hle : index ≤ count) (agree : Agree l l' index) : Parts l l' (h.commonPrefixFrom a b count index) := by
  fun_induction commonPrefixFrom h a b count index with
  | case1 index hlt chunk stop hchunk ih =>
    -- One chunk for both: the logs agree in the whole block.
    refine ih (min_le_left _ _) (agree.extend fun i hi his => ?_)
    have hdiv : i / 256 = chunk := by
      simp only [chunk, stop, chunkSize] at his ⊢
      omega
    rw [← ha.spread.index i, ← hb.spread.index i, hdiv, hchunk]
  | case2 index hlt chunk stop hchunk n hfind =>
    obtain ⟨hne, hmem, hbefore⟩ := List.find?_range'_eq_some.mp hfind
    simp only [entry_eq ha.spread, entry_eq hb.spread, decide_not, Bool.not_eq_true', Bool.not_not, decide_eq_true_eq,
      decide_eq_false_iff_not] at hne hbefore
    have hn := List.mem_range'_1.mp hmem
    exact ⟨by omega, agree.extend hbefore, fun _ => hne⟩
  | case3 index hlt chunk stop hchunk hfind ih =>
    refine ih (min_le_left _ _) (agree.extend fun i hi his => ?_)
    have hnot := List.find?_eq_none.mp hfind i (List.mem_range'_1.mpr (by omega))
    rw [entry_eq ha.spread, entry_eq hb.spread] at hnot
    simpa using hnot
  | case4 index hlt =>
    exact ⟨hcount.le, fun i hi => agree i (by omega), fun h => absurd h (by omega)⟩

/-! ### Refinement -/

/-- A list for each log, changed as the call says. -/
def listPerform (s : List (Option EntryLog)) : LogCall → Option (List (Option EntryLog))
  | .construct entries => some (s ++ [some entries])
  | .copy other => do return s ++ [some (← s[other]?.join)]
  | .move other => do return s.set other none ++ [some (← s[other]?.join)]
  | .assign log other => do
    guard (log < s.length)
    return s.set log (some (← s[other]?.join))
  | .moveAssign log other => do
    guard (log < s.length)
    return (s.set other none).set log (some (← s[other]?.join))
  | .destroy log => do
    guard (log < s.length)
    return s.set log none
  | .pushBack log entry => do return s.set log (some ((← s[log]?.join) ++ [entry]))
  | .set log index entry => do
    let l ← s[log]?.join
    guard (index < l.length)
    return s.set log (some (l.set index entry))
  | .resize log count => do
    let l ← s[log]?.join
    return s.set log (some (l.take count ++ List.replicate (count - l.length) { command := "" }))
  | .popBack log => do
    let l ← s[log]?.join
    guard (0 < l.length)
    return s.set log (some l.dropLast)
  | .clear log => do
    guard (log < s.length)
    return s.set log (some [])

/-- The data at a place holds these entries. -/
def At (h : LogHeap) (d : Nat) (l : EntryLog) : Prop := ∃ data, h.datas[d]? = some data ∧ Holds h.chunks data l

/-- The logs read as these lists; a log without data as none. -/
structure Refines (h : LogHeap) (s : List (Option EntryLog)) : Prop where
  length : h.logs.length = s.length
  log : ∀ i : Nat, Option.Rel h.At h.logs[i]?.join s[i]?.join

/-- A log, its data and what it holds. -/
structure Owner (h : LogHeap) (i d : Nat) (data : LogData) (l : EntryLog) : Prop where
  log : h.logs[i]?.join = some d
  found : h.datas[d]? = some data
  holds : Holds h.chunks data l

theorem join_set {α : Type} {s : List (Option α)} {x : Option α} (hi : i < s.length) :
    (s.set i x)[j]?.join = if i = j then x else s[j]?.join := by
  rw [List.getElem?_set, if_pos hi]
  split <;> rfl

theorem join_concat {α : Type} {s : List (Option α)} {x : Option α} :
    (s ++ [x])[j]?.join = if s.length = j then x else s[j]?.join := by
  by_cases hj : s.length = j
  · rw [if_pos hj, ← hj, List.getElem?_concat_length]
    rfl
  · rw [if_neg hj]
    by_cases hlt : j < s.length
    · rw [List.getElem?_append_left hlt]
    · rw [List.getElem?_eq_none (by simp; omega), List.getElem?_eq_none (by omega)]

theorem set_same {α : Type} {s : List (Option α)} {x : α} (h : s[i]?.join = some x) : s.set i (some x) = s := by
  rw [← (List.getElem?_eq_some_iff.mp (Option.join_eq_some_iff.mp h)).2, List.set_getElem_self]

theorem lt_of_join {α : Type} {s : List (Option α)} {x : α} (h : s[i]?.join = some x) : i < s.length :=
  (List.getElem?_eq_some_iff.mp (Option.join_eq_some_iff.mp h)).1

namespace Refines

theorem owner (r : Refines h s) (hl : s[i]?.join = some l) : ∃ d data, Owner h i d data l := by
  have hlog := r.log i
  rw [hl] at hlog
  generalize hd : h.logs[i]?.join = p at hlog
  cases hlog with
  | some hat =>
    obtain ⟨data, hdata, hold⟩ := hat
    exact ⟨_, data, hd, hdata, hold⟩

theorem live (r : Refines h s) (hd : some d ∈ h.logs) : ∃ l, h.At d l := by
  obtain ⟨i, hi⟩ := List.mem_iff_getElem?.mp hd
  have hlog := r.log i
  rw [hi, Option.join_some] at hlog
  generalize s[i]?.join = p at hlog
  cases hlog with
  | some hat => exact ⟨_, hat⟩

/-- Logs move between places. -/
theorem set (r : Refines h s) {x : Option Nat} {y : Option EntryLog} (hi : i < s.length) (hx : Option.Rel h.At x y) :
    Refines { h with logs := h.logs.set i x } (s.set i y) := by
  refine ⟨by simp [r.length], fun j => ?_⟩
  rw [join_set (r.length ▸ hi), join_set hi]
  split
  · exact hx
  · exact r.log j

theorem concat (r : Refines h s) {x : Option Nat} {y : Option EntryLog} (hx : Option.Rel h.At x y) :
    Refines { h with logs := h.logs ++ [x] } (s ++ [y]) := by
  refine ⟨by simp [r.length], fun j => ?_⟩
  rw [join_concat, join_concat, r.length]
  split
  · exact hx
  · exact r.log j

theorem assignData (r : Refines h s) (hi : i < s.length) (hold : Holds h.chunks data l) :
    Refines (h.assignData i data) (s.set i (some l)) := by
  have hold' : Refines { h with datas := h.datas ++ [data] } s := by
    refine ⟨r.length, fun j => ?_⟩
    have hlog := r.log j
    generalize h.logs[j]?.join = p at hlog
    generalize s[j]?.join = q at hlog
    cases hlog with
    | none => exact .none
    | some hat =>
      obtain ⟨old, hdata, hold⟩ := hat
      exact .some ⟨old, (List.getElem?_append_left (List.getElem?_eq_some_iff.mp hdata).1).trans hdata, hold⟩
  exact hold'.set hi (.some ⟨data, List.getElem?_concat_length, hold⟩)

theorem detach (r : Refines h s) (hl : s[i]?.join = some l) :
    ∃ h' d data, h.detach i = some h' ∧ Refines h' s ∧ Owner h' i d data l ∧ h'.dataUses d = 1 := by
  obtain ⟨d, data, o⟩ := r.owner hl
  have hi := lt_of_join hl
  by_cases huses : h.dataUses d = 1
  · exact ⟨h, d, data, by simp [LogHeap.detach, o.log, o.found, huses], r, o, huses⟩
  · have hnew := r.assignData hi o.holds
    rw [set_same hl] at hnew
    refine ⟨h.assignData i data, h.datas.length, data, by simp [LogHeap.detach, o.log, o.found, huses], hnew, ⟨?_, ?_, o.holds⟩, ?_⟩
    · exact (join_set (r.length ▸ hi)).trans (if_pos rfl)
    · exact List.getElem?_concat_length
    · have hfresh : h.logs.count (some h.datas.length) = 0 := by
        refine List.count_eq_zero.mpr fun hmem => ?_
        obtain ⟨_, _, hdata, -⟩ := r.live hmem
        exact lt_irrefl _ (List.getElem?_eq_some_iff.mp hdata).1
      simp [dataUses, LogHeap.assignData, List.count_set (r.length ▸ hi), hfresh]

end Refines

/-- A chunk with one owner is in no other directory, and once in this one. -/
theorem chunkUses_one (hd : some d ∈ h.logs) (hc : c ∈ h.directory d) (one : h.chunkUses c = 1) :
    (h.directory d).count c = 1 ∧ ∀ d' ≠ d, some d' ∈ h.logs → c ∉ h.directory d' := by
  have hmem : ∀ {d}, some d ∈ h.logs → d ∈ h.logs.reduceOption.toFinset := fun hd =>
    List.mem_toFinset.mpr (List.reduceOption_mem_iff.mpr hd)
  have hsum := Finset.add_sum_erase _ (fun d => (h.directory d).count c) (hmem hd)
  have hpos := List.count_pos_iff.mpr hc
  unfold chunkUses at one
  refine ⟨by omega, fun d' hne hd' hc' => ?_⟩
  have hrest : ∑ d ∈ h.logs.reduceOption.toFinset.erase d, (h.directory d).count c = 0 := by omega
  exact (List.count_pos_iff.mpr hc').ne' (Finset.sum_eq_zero_iff.mp hrest d' (Finset.mem_erase.mpr ⟨hne, hmem hd'⟩))

theorem Owner.mem (o : Owner h i d data l) : some d ∈ h.logs := List.mem_of_getElem? (Option.join_eq_some_iff.mp o.log)

theorem Owner.at (o : Owner h i d data l) : h.At d l := ⟨data, o.found, o.holds⟩

theorem Owner.data_eq (o : Owner h i d data l) : h.data i = some data := by rw [LogHeap.data, o.log, Option.bind_some, o.found]

theorem Owner.directory_eq (o : Owner h i d data l) : h.directory d = data.chunks := by rw [directory, o.found]; rfl

namespace Refines

/-- A write to data with one owner, which leaves the chunks of the others as they are. -/
theorem write (r : Refines h s) (o : Owner h i d data l) (sole : h.dataUses d = 1) (hold : Holds chunks data' l')
    (frame : ∀ d' ≠ d, some d' ∈ h.logs → ∀ c ∈ h.directory d', chunks[c]? = h.chunks[c]?) :
    ∃ h', h.setData i chunks data' = some h' ∧ Refines h' (s.set i (some l')) := by
  refine ⟨{ h with chunks, datas := h.datas.set d data' }, by rw [setData, o.log]; rfl, by simp [r.length], fun j => ?_⟩
  have hi := lt_of_join o.log
  rw [join_set (r.length ▸ hi)]
  by_cases hj : i = j
  · subst hj
    rw [if_pos rfl, o.log]
    exact .some ⟨data', List.getElem?_set_self (List.getElem?_eq_some_iff.mp o.found).1, hold⟩
  · rw [if_neg hj]
    have hlog := r.log j
    generalize hp : h.logs[j]?.join = p at hlog
    generalize s[j]?.join = q at hlog
    cases hlog with
    | none => exact .none
    | @some d' _ hat =>
      have hne : d ≠ d' := by
        rintro rfl
        exact hj (index_unique sole (Option.join_eq_some_iff.mp o.log) (Option.join_eq_some_iff.mp hp))
      obtain ⟨other, hother, hholds⟩ := hat
      have hdirectory : h.directory d' = other.chunks := by rw [directory, hother]; rfl
      have hsame := frame d' hne.symm (List.mem_of_getElem? (Option.join_eq_some_iff.mp hp))
      rw [hdirectory] at hsame
      exact .some ⟨other, (List.getElem?_set_ne hne).trans hother, hholds.size, hholds.valid, hholds.spread.keep hsame⟩

/-- New chunks disturb nobody. -/
theorem write_new (r : Refines h s) (o : Owner h i d data l) (sole : h.dataUses d = 1) {more : List (List Entry)}
    (hold : Holds (h.chunks ++ more) data' l') : ∃ h', h.setData i (h.chunks ++ more) data' = some h' ∧ Refines h' (s.set i (some l')) := by
  refine r.write o sole hold fun d' _ hd' c hc => ?_
  obtain ⟨l', other, hother, hholds⟩ := r.live hd'
  rw [directory, hother] at hc
  exact hholds.spread.append_same more c hc

theorem pushBack (r : Refines h s) (hl : s[i]?.join = some l) (e : Entry) :
    ∃ h', h.pushBack i e = some h' ∧ Refines h' (s.set i (some (l ++ [e]))) := by
  obtain ⟨h, d, data, hdetach, r, o, sole⟩ := r.detach hl
  have hsize : data.size + 1 = (l ++ [e]).length := by rw [o.holds.size, List.length_append]; rfl
  have hvalid : (data.valid && e.term != 0 && (data.size == 0 || (h.back data).all (·.term ≤ e.term))) = EntryLog.valid (l ++ [e]) := by
    rw [valid_append, o.holds.valid, o.holds.size, back_eq o.holds]
  have hlength := o.holds.spread.length
  rw [LogHeap.pushBack, hdetach, Option.bind_eq_bind, Option.bind_some, o.data_eq, Option.bind_eq_bind, Option.bind_some]
  dsimp only
  rw [hvalid]
  by_cases hfull : data.size % chunkSize = 0
  · rw [if_pos hfull]
    exact r.write_new o sole ⟨hsize, rfl, o.holds.spread.next (o.holds.size ▸ hfull)⟩
  · -- The last chunk has room for the entry.
    rw [chunkSize, o.holds.size] at hfull
    obtain ⟨c, hc⟩ : ∃ c, data.chunks[data.chunks.length - 1]? = some c := ⟨_, List.getElem?_eq_getElem (by omega)⟩
    have hblock : block (l ++ [e]) (data.chunks.length - 1) = block l (data.chunks.length - 1) ++ [e] :=
      block_append_last (by omega) (by omega)
    have hceil : ((l ++ [e]).length + 255) / 256 = (l.length + 255) / 256 := by
      rw [List.length_append, List.length_singleton]
      omega
    have hother : ∀ j < data.chunks.length, j ≠ data.chunks.length - 1 → block (l ++ [e]) j = block l j := fun j hj hne =>
      block_append_of_le (by omega)
    rw [if_neg (by rwa [o.holds.size]), List.getLast?_eq_getElem?, hc]
    simp only [Option.bind_eq_bind, Option.bind_some, o.holds.spread.chunk hc, ← hblock]
    split
    · obtain ⟨once, frame⟩ := chunkUses_one o.mem (o.directory_eq ▸ List.mem_of_getElem? hc) (by assumption)
      rw [o.directory_eq] at once
      refine r.write o sole ⟨hsize, rfl, o.holds.spread.here hc once hceil hother⟩ fun d' hne hd' c' hc' => ?_
      refine List.getElem?_set_ne ?_
      rintro rfl
      exact frame d' hne hd' hc'
    · exact r.write_new o sole ⟨hsize, rfl, o.holds.spread.replace (by omega) hceil hother⟩

theorem pushAll (r : Refines h s) (hl : s[i]?.join = some l) (es : List Entry) :
    ∃ h', h.pushAll i es = some h' ∧ Refines h' (s.set i (some (l ++ es))) := by
  induction es generalizing h s l with
  | nil => exact ⟨h, rfl, by rwa [List.append_nil, set_same hl]⟩
  | cons e es ih =>
    obtain ⟨h₁, hpush, r₁⟩ := r.pushBack hl e
    obtain ⟨h₂, hrest, r₂⟩ := ih r₁ ((join_set (lt_of_join hl)).trans (if_pos rfl))
    refine ⟨h₂, ?_, by rwa [List.set_set, List.append_assoc] at r₂⟩
    rw [LogHeap.pushAll, List.foldlM_cons, hpush]
    exact hrest

/-- A new chunk at one place, and the terms are validated. -/
theorem replaceChunk (r : Refines h s) (o : Owner h i d data l) (sole : h.dataUses d = 1) {f : List Entry → List Entry} {size : Nat}
    {valid : Bool} (spread : Spread h.chunks places l') (hsize : size = l''.length) (hk : k < places.length)
    (length : (l''.length + 255) / 256 = (l'.length + 255) / 256)
    (other : ∀ j < places.length, j ≠ k → block l'' j = block l' j) (hf : f (block l' k) = block l'' k) :
    ∃ h', h.replaceChunk i ⟨places, size, valid⟩ k f = some h' ∧ Refines h' (s.set i (some l'')) := by
  have hreplaced := spread.replace hk length other
  obtain ⟨c, hc⟩ : ∃ c, places[k]? = some c := ⟨_, List.getElem?_eq_getElem hk⟩
  simp only [LogHeap.replaceChunk, hc, spread.chunk hc, hf, Option.bind_eq_bind, Option.bind_some,
    validateTerms_eq (h := { h with chunks := h.chunks ++ [block l'' k] }) hreplaced hsize]
  exact r.write_new o sole ⟨hsize, rfl, hreplaced⟩

theorem set_entry (r : Refines h s) (hl : s[i]?.join = some l) (hk : k < l.length) (e : Entry) :
    ∃ h', h.set i k e = some h' ∧ Refines h' (s.set i (some (l.set k e))) := by
  obtain ⟨h, d, data, hdetach, r, o, sole⟩ := r.detach hl
  have hlength := o.holds.spread.length
  rw [LogHeap.set, hdetach, Option.bind_eq_bind, Option.bind_some, o.data_eq, Option.bind_eq_bind, Option.bind_some,
    o.holds.size, guard, if_pos hk]
  exact r.replaceChunk o sole o.holds.spread (by rw [o.holds.size, List.length_set]) (by unfold chunkSize; omega)
    (by rw [List.length_set]) (fun j _ hj => block_set_of_ne hj) (block_set l k e).symm

theorem resize (r : Refines h s) (hl : s[i]?.join = some l) (n : Nat) :
    ∃ h', h.resize i n = some h' ∧ Refines h' (s.set i (some (l.take n ++ List.replicate (n - l.length) { command := "" }))) := by
  obtain ⟨d, data, o⟩ := r.owner hl
  rw [LogHeap.resize, o.data_eq, Option.bind_eq_bind, Option.bind_some, o.holds.size]
  by_cases hn : l.length ≤ n
  · rw [if_pos hn, List.take_of_length_le hn]
    exact r.pushAll hl _
  · obtain ⟨h, d, data, hdetach, r, o, sole⟩ := r.detach hl
    have hlength := o.holds.spread.length
    have htake := o.holds.spread.take ((n + 256 - 1) / 256)
    have hzero : n - l.length = 0 := by omega
    have hcount : n = (l.take n).length := by
      rw [List.length_take]
      omega
    rw [if_neg hn, hzero, List.replicate_zero, List.append_nil, hdetach, Option.bind_eq_bind, Option.bind_some, o.data_eq,
      Option.bind_some]
    dsimp only
    by_cases hfull : n % chunkSize = 0
    · rw [if_pos hfull]
      dsimp only [chunkSize] at hfull ⊢
      have hmul : 256 * ((n + 256 - 1) / 256) = n := by omega
      rw [hmul] at htake
      rw [validateTerms_eq htake hcount]
      exact r.write o sole ⟨hcount, rfl, htake⟩ fun _ _ _ _ _ => rfl
    · rw [if_neg hfull]
      dsimp only [chunkSize] at hfull ⊢
      have hplaces : (data.chunks.take ((n + 256 - 1) / 256)).length = n / 256 + 1 := by
        rw [List.length_take]
        omega
      refine r.replaceChunk o sole htake hcount (by omega) ?_ (fun j hj hne => ?_) ?_
      · simp only [List.length_take]
        omega
      · rw [block_take_of_le (by omega), block_take_of_le (by omega)]
      · have hrest : n - 256 * (n / 256) = n % 256 := by omega
        rw [hplaces, Nat.add_sub_cancel, block_take_of_le (by omega), block_take, hrest]

theorem popBack (r : Refines h s) (hl : s[i]?.join = some l) (hpos : 0 < l.length) :
    ∃ h', h.popBack i = some h' ∧ Refines h' (s.set i (some l.dropLast)) := by
  obtain ⟨d, data, o⟩ := r.owner hl
  have hzero : l.length - 1 - l.length = 0 := by omega
  obtain ⟨h', hresize, r'⟩ := r.resize hl (l.length - 1)
  rw [hzero, List.replicate_zero, List.append_nil, ← List.dropLast_eq_take] at r'
  refine ⟨h', ?_, r'⟩
  rw [LogHeap.popBack, o.data_eq, Option.bind_eq_bind, Option.bind_some, o.holds.size, guard, if_pos hpos]
  exact hresize

theorem holds_nil : Holds chunks {} [] := ⟨rfl, rfl, rfl, fun h => nomatch h⟩

theorem perform (r : Refines h s) {call : LogCall} {s' : List (Option EntryLog)} (hs : listPerform s call = some s') :
    ∃ h', h.perform call = some h' ∧ Refines h' s' := by
  have hbound : ∀ {α : Type} {p : Prop} [Decidable p] {x : Option α} {y : α}, (do guard p; x) = some y → p ∧ x = some y := by
    intro α p _ x y hxy
    obtain ⟨_, hp, hxy⟩ := Option.bind_eq_some_iff.mp hxy
    by_cases h : p
    · exact ⟨h, hxy⟩
    · rw [guard, if_neg h] at hp
      cases hp
  cases call with
  | construct entries =>
    obtain rfl := Option.some.inj hs
    obtain ⟨h', hpush, r'⟩ := ((r.concat .none).assignData (i := s.length) (by simp) holds_nil).pushAll (l := []) (i := s.length) (by simp) entries
    rw [← r.length] at hpush
    refine ⟨h', hpush, ?_⟩
    rwa [List.set_set, List.nil_append, List.set_append_right _ _ le_rfl, Nat.sub_self, List.set_cons_zero] at r'
  | copy other =>
    obtain ⟨l, hl, hs⟩ := Option.bind_eq_some_iff.mp hs
    obtain rfl := Option.some.inj hs
    obtain ⟨d, data, o⟩ := r.owner hl
    exact ⟨_, by rw [LogHeap.perform, o.log]; rfl, r.concat (.some o.at)⟩
  | move other =>
    obtain ⟨l, hl, hs⟩ := Option.bind_eq_some_iff.mp hs
    obtain rfl := Option.some.inj hs
    obtain ⟨d, data, o⟩ := r.owner hl
    exact ⟨_, by rw [LogHeap.perform, o.log]; rfl, (r.set (lt_of_join hl) .none).concat (.some o.at)⟩
  | assign log other =>
    obtain ⟨hlog, hs⟩ := hbound hs
    obtain ⟨l, hl, hs⟩ := Option.bind_eq_some_iff.mp hs
    obtain rfl := Option.some.inj hs
    obtain ⟨d, data, o⟩ := r.owner hl
    exact ⟨_, by rw [LogHeap.perform, o.log, r.length, guard, if_pos hlog]; rfl, r.set hlog (.some o.at)⟩
  | moveAssign log other =>
    obtain ⟨hlog, hs⟩ := hbound hs
    obtain ⟨l, hl, hs⟩ := Option.bind_eq_some_iff.mp hs
    obtain rfl := Option.some.inj hs
    obtain ⟨d, data, o⟩ := r.owner hl
    exact ⟨_, by rw [LogHeap.perform, o.log, r.length, guard, if_pos hlog]; rfl,
      (r.set (lt_of_join hl) .none).set (by rwa [List.length_set]) (.some o.at)⟩
  | destroy log =>
    obtain ⟨hlog, hs⟩ := hbound hs
    obtain rfl := Option.some.inj hs
    exact ⟨_, by rw [LogHeap.perform, r.length, guard, if_pos hlog]; rfl, r.set hlog .none⟩
  | pushBack log entry =>
    obtain ⟨l, hl, hs⟩ := Option.bind_eq_some_iff.mp hs
    obtain rfl := Option.some.inj hs
    exact r.pushBack hl entry
  | set log index entry =>
    obtain ⟨l, hl, hs⟩ := Option.bind_eq_some_iff.mp hs
    obtain ⟨hindex, hs⟩ := hbound hs
    obtain rfl := Option.some.inj hs
    exact r.set_entry hl hindex entry
  | resize log count =>
    obtain ⟨l, hl, hs⟩ := Option.bind_eq_some_iff.mp hs
    obtain rfl := Option.some.inj hs
    exact r.resize hl count
  | popBack log =>
    obtain ⟨l, hl, hs⟩ := Option.bind_eq_some_iff.mp hs
    obtain ⟨hpos, hs⟩ := hbound hs
    obtain rfl := Option.some.inj hs
    exact r.popBack hl hpos
  | clear log =>
    obtain ⟨hlog, hs⟩ := hbound hs
    obtain rfl := Option.some.inj hs
    exact ⟨_, by rw [LogHeap.perform, LogHeap.clear, r.length, guard, if_pos hlog]; rfl, r.assignData hlog holds_nil⟩

theorem run (r : Refines h s) {calls : List LogCall} {s' : List (Option EntryLog)} (hs : calls.foldlM listPerform s = some s') :
    ∃ h', calls.foldlM LogHeap.perform h = some h' ∧ Refines h' s' := by
  induction calls generalizing h s with
  | nil =>
    obtain rfl := Option.some.inj hs
    exact ⟨h, rfl, r⟩
  | cons call calls ih =>
    obtain ⟨s₁, hcall, hrest⟩ := Option.bind_eq_some_iff.mp hs
    obtain ⟨h₁, hperform, r₁⟩ := r.perform hcall
    obtain ⟨h₂, hrun, r₂⟩ := ih r₁ hrest
    exact ⟨h₂, by rw [List.foldlM_cons, hperform]; exact hrun, r₂⟩

end Refines

theorem Parts.longest {n : Nat} (h : Parts l l' n) : ∃ p, p <+: l ∧ p <+: l' ∧ p.length = n ∧ ∀ q, q <+: l → q <+: l' → q.length ≤ n := by
  have hle := h.le
  have htake : l.take n = l'.take n := by
    refine List.ext_getElem? fun i => ?_
    rw [List.getElem?_take, List.getElem?_take]
    split
    · exact h.agree i (by assumption)
    · rfl
  refine ⟨l.take n, List.take_prefix n l, htake ▸ List.take_prefix n l', ?_, fun q hq hq' => ?_⟩
  · rw [List.length_take]
    omega
  · by_contra hn
    have hlength := hq.length_le
    have hlength' := hq'.length_le
    refine h.apart (by omega) ?_
    obtain ⟨t, rfl⟩ := hq
    obtain ⟨t', rfl⟩ := hq'
    rw [List.getElem?_append_left (by omega), List.getElem?_append_left (by omega)]

theorem Owner.commonPrefixSize {d' : Nat} (o : Owner h i d data l) (o' : Owner h j d' data' l') :
    ∃ n, h.commonPrefixSize i j = some n ∧ Parts l l' n := by
  rw [LogHeap.commonPrefixSize, o.data_eq, o'.data_eq, Option.join_eq_some_iff.mp o.log, Option.join_eq_some_iff.mp o'.log]
  simp only [Option.bind_eq_bind, Option.bind_some, Option.some.injEq, o.holds.size, o'.holds.size]
  split
  · -- One data: the logs are the same list.
    rename_i hd
    subst hd
    obtain rfl := Option.some.inj (o.found.symm.trans o'.found)
    obtain rfl : l = l' := List.ext_getElem? fun i => (entry_eq o.holds.spread i).symm.trans (entry_eq o'.holds.spread i)
    exact ⟨_, rfl, by simp, fun _ _ => rfl, fun h => absurd h (by simp)⟩
  · exact ⟨_, rfl, commonPrefixFrom_parts o.holds o'.holds rfl (Nat.zero_le _) fun i hi => absurd hi (Nat.not_lt_zero i)⟩

/-- Each log of a program reads as the list that the same calls make of it. -/
theorem logs_are_lists (calls : List LogCall) (hs : calls.foldlM listPerform [] = some s) :
    ∃ h, calls.foldlM LogHeap.perform {} = some h ∧ ∀ i l, s[i]? = some (some l) → ∃ data, h.data i = some data ∧
      data.size = l.length ∧ (∀ index, h.entry data index = l[index]?) ∧ h.entries data = some l ∧
      (∀ before limit, h.validTerms data before limit = true ↔
        l.Pairwise (fun a b => a.term ≤ b.term) ∧ (∀ e ∈ l, 0 < e.term) ∧ (∀ e ∈ l, before ≤ e.term) ∧ ∀ e ∈ l, e.term ≤ limit) ∧
      ∀ j l', s[j]? = some (some l') → h.equal i j = some (decide (l = l')) ∧ ∃ p, h.commonPrefixSize i j = some p.length ∧
        p <+: l ∧ p <+: l' ∧ ∀ q, q <+: l → q <+: l' → q.length ≤ p.length := by
  have hempty : Refines {} [] := ⟨rfl, fun _ => .none⟩
  obtain ⟨h, hrun, r⟩ := hempty.run hs
  refine ⟨h, hrun, fun i l hl => ?_⟩
  obtain ⟨d, data, o⟩ := r.owner (i := i) (l := l) (by rw [hl]; rfl)
  refine ⟨data, o.data_eq, o.holds.size, entry_eq o.holds.spread, entries_eq o.holds.spread o.holds.size, fun before limit => ?_,
    fun j l' hl' => ?_⟩
  · rw [validTerms_eq o.holds, validTerms_iff]
  · obtain ⟨d', data', o'⟩ := r.owner (i := j) (l := l') (by rw [hl']; rfl)
    obtain ⟨n, hsize, parts⟩ := o.commonPrefixSize o'
    obtain ⟨p, hp, hp', rfl, hlongest⟩ := parts.longest
    refine ⟨?_, p, hsize, hp, hp', hlongest⟩
    rw [equal, o.data_eq, o'.data_eq, hsize]
    simp only [Option.bind_eq_bind, Option.bind_some, o.holds.size, o'.holds.size]
    by_cases hlength : l.length = l'.length
    · rw [if_pos hlength, Option.pure_def, Option.some.injEq, Bool.eq_iff_iff, beq_iff_eq, decide_eq_true_eq]
      constructor
      · intro hfull
        exact (hp.eq_of_length hfull).symm.trans (hp'.eq_of_length (hfull.trans hlength))
      · rintro rfl
        exact le_antisymm hp.length_le (hlongest l (List.prefix_refl l) (List.prefix_refl l))
    · rw [if_neg hlength, decide_eq_false fun heq => hlength (congrArg _ heq)]
      rfl

theorem logs_are_lists_copied :
    ∃ h data, [.construct [⟨1, "a"⟩], .copy 0, .pushBack 0 ⟨2, "b"⟩].foldlM LogHeap.perform {} = some h ∧ h.data 1 = some data ∧
      h.entries data = some [⟨1, "a"⟩] := by
  obtain ⟨h, hrun, hlogs⟩ := logs_are_lists [.construct [⟨1, "a"⟩], .copy 0, .pushBack 0 ⟨2, "b"⟩] rfl
  obtain ⟨data, hdata, -, -, hentries, -⟩ := hlogs 1 _ rfl
  exact ⟨h, data, hrun, hdata, hentries⟩

end Choreolog.Raft.LogHeap
