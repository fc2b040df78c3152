import Choreolog.Theorems.Sim

/-! # Merging a leader's entries

The loop of `recvAppend` over the entries of a message. The log it builds is the old one, or a prefix of
the leader's book that keeps all that the old log shared with that book. -/

namespace Choreolog.Raft
open Lib Lib.Ledger

/-- The loop has merged the first `i` entries of the book `B` into the old log `L`: it has the full log
    `X` behind the target `t`. -/
structure Merged (B L X : List Entry) (t : Durable) (i : Nat) : Prop where
  shows_ : Shows X t
  boundary : t.snapshotIndex ≤ i
  reach : i ≤ X.length
  agree : X.take i = B.take i
  log : X = L ∨ (X <+: B ∧ Keeps B L X)
  commit : t.commit ≤ X.length

/-- The loop changes the log only. -/
theorem mergeEntries_eq (t : Durable) (index : Nat) (entries : List Entry) :
    (mergeEntries t index entries).1 = { t with log := (mergeEntries t index entries).1.log } := by
  induction entries generalizing t index with
  | nil => rfl
  | cons entry rest ih =>
    unfold mergeEntries
    dsimp only
    split
    · split
      · rfl
      · rw [ih]
        split <;> rfl
    · rw [ih]
      split <;> rfl

section Merge
variable {B L X : List Entry} {t : Durable} {i : Nat} {entry : Entry}

theorem take_succ_of_getElem? (h : B[i]? = some entry) : B.take (i + 1) = B.take i ++ [entry] := by
  rw [List.take_add_one, h, Option.toList_some]

/-- The entry is in place already. -/
theorem Merged.present (h : Merged B L X t i) (hB : B[i]? = some entry) (hX : X[i]? = some entry) :
    Merged B L X t (i + 1) where
  shows_ := h.shows_
  boundary := h.boundary.trans (Nat.le_succ i)
  reach := (List.getElem?_eq_some_iff.mp hX).1
  agree := by rw [take_succ_of_getElem? hB, take_succ_of_getElem? hX, h.agree]
  log := h.log
  commit := h.commit

theorem take_of_long {P : List Entry} (hP : P <+: B) (hl : i ≤ P.length) : B.take i = P.take i := by
  obtain ⟨R, rfl⟩ := hP
  exact List.take_append_of_le_length hl

theorem take_length_le {P : List Entry} (hP : P <+: B) (hl : P.length ≤ i) : P <+: B.take i := by
  rw [List.prefix_take_iff]
  exact ⟨hP, hl⟩

/-- The log ends where the entry goes. -/
theorem Merged.append (h : Merged B L X t i) (hB : B[i]? = some entry) (hlen : X.length = i) :
    Merged B L (X ++ [entry]) { t with log := t.log ++ [entry] } (i + 1) := by
  have hX : X = B.take i := by
    rw [← h.agree, ← hlen, List.take_length]
  have hnew : X ++ [entry] = B.take (i + 1) := by rw [take_succ_of_getElem? hB, ← hX]
  refine ⟨h.shows_.append entry, h.boundary.trans (Nat.le_succ i), by simp [hlen], ?_, Or.inr ⟨?_, fun P hPB hPL => ?_⟩, ?_⟩
  · rw [List.take_of_length_le (by simp [hlen]), hnew]
  · rw [hnew]
    exact List.take_prefix _ _
  · rw [hnew]
    rcases h.log with heq | ⟨-, hk⟩
    · have := hPL.length_le
      rw [← heq, hlen] at this
      exact take_length_le hPB (by omega)
    · have := (hk P hPB hPL).length_le
      exact take_length_le hPB (by omega)
  · have := h.commit
    simp only [List.length_append, List.length_singleton]
    omega

/-- A conflicting tail is cut before the entry is written. -/
theorem Merged.replace (h : Merged B L X t i) (hB : B[i]? = some entry) (hi : i < X.length) (hX : X[i]? ≠ some entry)
    (hc : t.commit ≤ i) :
    Merged B L (X.take i ++ [entry])
      { t with log := t.log.take (i - t.snapshotIndex) ++ [entry] } (i + 1) := by
  have hnew : X.take i ++ [entry] = B.take (i + 1) := by rw [take_succ_of_getElem? hB, h.agree]
  have hlen : (X.take i).length = i := by simp [hi.le]
  refine ⟨(h.shows_.cut h.boundary).append entry, h.boundary.trans (Nat.le_succ i), by simp [hi.le], ?_,
    Or.inr ⟨?_, fun P hPB hPL => ?_⟩, ?_⟩
  · rw [List.take_of_length_le (by simp [hi.le]), hnew]
  · rw [hnew]
    exact List.take_prefix _ _
  · rw [hnew]
    by_contra hnot
    -- A longer common prefix would have both entries at `i`.
    have hlong : i < P.length := by
      by_contra hle
      exact hnot (take_length_le hPB (by omega))
    have hPi : P[i]? = some entry := by
      rw [← hB]
      exact (List.prefix_iff_getElem?.mp hPB i hlong).symm ▸ List.getElem?_eq_getElem hlong
    have hPX : P <+: X := by
      rcases h.log with heq | ⟨-, hk⟩
      · rw [heq]
        exact hPL
      · exact hk P hPB hPL
    apply hX
    rw [← hPi, List.prefix_iff_getElem?.mp hPX i hlong, List.getElem?_eq_getElem hlong]
  · simp only [List.length_append, hlen, List.length_singleton]
    omega

/-- The whole loop, when it ends without a conflict in the committed prefix. -/
theorem Merged.mergeEntries {entries : List Entry} (h : Merged B L X t i) (hlen : i + entries.length ≤ B.length)
    (hentries : entries = (B.drop i).take entries.length) (hok : (mergeEntries t (i + 1) entries).2 = true) :
    ∃ X', Merged B L X' (mergeEntries t (i + 1) entries).1 (i + entries.length) := by
  induction entries generalizing t i X with
  | nil => exact ⟨X, h⟩
  | cons entry rest ih =>
    simp only [List.length_cons] at hlen hentries ⊢
    have hi : i < B.length := by omega
    rw [List.drop_eq_getElem_cons hi, List.take_succ_cons, List.cons.injEq] at hentries
    obtain ⟨hentry, hrest⟩ := hentries
    have hB : B[i]? = some entry := by rw [hentry, List.getElem?_eq_getElem hi]
    have hlast := h.shows_.lastIndex
    have hat : t.entryAt (i + 1) = X[i]? := h.shows_.entryAt (Nat.lt_succ_of_le h.boundary)
    have hreach := h.reach
    have hb := h.boundary
    rw [show i + (rest.length + 1) = i + 1 + rest.length by omega]
    unfold Raft.mergeEntries at hok ⊢
    dsimp only at hok ⊢
    split at hok
    · rename_i hconf
      rw [hat, hlast] at hconf
      split at hok
      · cases hok
      · rename_i hcommit
        have hnew := h.replace hB (by omega) hconf.2 (by omega)
        have hcut := (h.shows_.cut h.boundary).lastIndex
        rw [show i + 1 - t.snapshotIndex - 1 = i - t.snapshotIndex by omega, hcut] at hok ⊢
        rw [if_pos (by simp [hreach])] at hok
        rw [if_pos (by rw [hat, hlast]; exact hconf), if_neg hcommit, if_pos (by simp [hreach])]
        exact ih hnew (by omega) hrest hok
    · rename_i hno
      rw [if_neg hno]
      rw [hat, hlast] at hno
      rw [hlast] at hok ⊢
      by_cases hend : X.length = i
      · rw [if_pos (by omega)] at hok ⊢
        exact ih (h.append hB hend) (by omega) hrest hok
      · rw [if_neg (by omega)] at hok ⊢
        have hX : X[i]? = some entry := by
          by_contra hne
          exact hno ⟨by omega, hne⟩
        exact ih (h.present hB hX) (by omega) hrest hok

end Merge

end Choreolog.Raft
