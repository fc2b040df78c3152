import Choreolog.Raft.Checkpoint

/-! # Checkpoint bytes

What a reader takes from the front of the bytes is what the writer put there, and nothing else reads as it. So a file is
accepted with a value exactly when it is the encoding of that value. -/

namespace Choreolog.Raft.Checkpoint
open Lib

variable {rest : List UInt8} {value : Value}

theorem takeString_iff {length : Nat} {bytes front back : List UInt8} :
    takeString length bytes = some (front, back) ↔ front.length = length ∧ bytes = front ++ back := by
  unfold takeString
  split
  · rename_i hless
    refine iff_of_false nofun ?_
    rintro ⟨rfl, rfl⟩
    rw [List.length_append] at hless
    omega
  · rename_i hless
    rw [Option.some.injEq, Prod.mk.injEq]
    constructor
    · rintro ⟨rfl, rfl⟩
      exact ⟨List.length_take_of_le (not_lt.mp hless), (List.take_append_drop _ _).symm⟩
    · rintro ⟨rfl, rfl⟩
      exact ⟨List.take_left, List.drop_left⟩

theorem takeU_iff {width n : Nat} {bytes back : List UInt8} :
    takeU width bytes = some (n, back) ↔ n < 256 ^ width ∧ bytes = Bytes.ofNat width n ++ back := by
  unfold takeU
  rw [Option.map_eq_some_iff]
  constructor
  · rintro ⟨⟨front, back'⟩, htake, heq⟩
    obtain ⟨hlength, rfl⟩ := takeString_iff.mp htake
    obtain ⟨rfl, rfl⟩ := Prod.mk.inj heq
    exact ⟨hlength ▸ Bytes.toNat_lt front, by rw [Bytes.ofNat_eq hlength rfl]⟩
  · rintro ⟨hlt, rfl⟩
    exact ⟨(Bytes.ofNat width n, back), takeString_iff.mpr ⟨Bytes.length_ofNat width n, rfl⟩, by rw [Bytes.toNat_ofNat hlt]⟩

theorem ofNat_toNat_64 {n : Nat} (h : n < 256 ^ 8) : (UInt64.ofNat n).toNat = n := by
  rw [UInt64.toNat_ofNat']
  exact Nat.mod_eq_of_lt h

theorem toNat_lt_64 (n : UInt64) : n.toNat < 256 ^ 8 := n.toNat_lt

theorem takeEntry_iff {bytes back : List UInt8} {entry : Entry} :
    takeEntry bytes = some (entry, back) ↔ entry.command.length ≤ maximumCommandBytes ∧ bytes = encodeEntry entry ++ back := by
  obtain ⟨term, command⟩ := entry
  unfold takeEntry encodeEntry
  simp only [Option.bind_eq_bind, Option.bind_eq_some_iff]
  constructor
  · rintro ⟨⟨n, rest₁⟩, hterm, ⟨length, rest₂⟩, hlength, h⟩
    obtain ⟨hn, rfl⟩ := takeU_iff.mp hterm
    obtain ⟨-, rfl⟩ := takeU_iff.mp hlength
    split at h
    · cases h
    · rename_i hlimit
      obtain ⟨⟨front, back'⟩, htake, heq⟩ := Option.bind_eq_some_iff.mp h
      obtain ⟨hfront, rfl⟩ := takeString_iff.mp htake
      cases heq
      dsimp only at *
      refine ⟨hfront ▸ not_lt.mp hlimit, ?_⟩
      rw [ofNat_toNat_64 hn, hfront]
      simp only [List.append_assoc]
  · rintro ⟨hlimit, rfl⟩
    have hlength : command.length < 256 ^ 4 := lt_of_le_of_lt hlimit (by decide)
    simp only [List.append_assoc]
    refine ⟨(term.toNat, _), takeU_iff.mpr ⟨toNat_lt_64 term, rfl⟩, (command.length, _), takeU_iff.mpr ⟨hlength, rfl⟩, ?_⟩
    rw [if_neg (not_lt.mpr hlimit), takeString_iff.mpr ⟨rfl, rfl⟩]
    simp only [Option.bind_some, UInt64.ofNat_toNat]
    rfl

theorem takeEntries_iff {count : Nat} {bytes back : List UInt8} {entries : List Entry} :
    takeEntries count bytes = some (entries, back) ↔ entries.length = count ∧
      (∀ e ∈ entries, e.command.length ≤ maximumCommandBytes) ∧ bytes = entries.flatMap encodeEntry ++ back := by
  induction count generalizing bytes entries back with
  | zero =>
    rw [takeEntries, Option.some.injEq, Prod.mk.injEq, List.length_eq_zero_iff]
    constructor
    · rintro ⟨rfl, rfl⟩
      exact ⟨rfl, nofun, rfl⟩
    · rintro ⟨rfl, -, rfl⟩
      exact ⟨rfl, rfl⟩
  | succ count ih =>
    simp only [takeEntries, Option.bind_eq_bind, Option.bind_eq_some_iff]
    constructor
    · rintro ⟨⟨entry, rest₁⟩, hentry, ⟨more, rest₂⟩, hmore, heq⟩
      obtain ⟨hlimit, rfl⟩ := takeEntry_iff.mp hentry
      obtain ⟨rfl, hlimits, rfl⟩ := ih.mp hmore
      cases heq
      exact ⟨rfl, List.forall_mem_cons.mpr ⟨hlimit, hlimits⟩, by simp only [List.flatMap_cons, List.append_assoc]⟩
    · rintro ⟨hlength, hlimits, rfl⟩
      obtain ⟨entry, more, rfl⟩ := List.exists_cons_of_length_eq_add_one hlength
      obtain ⟨hlimit, hlimits⟩ := List.forall_mem_cons.mp hlimits
      refine ⟨(entry, more.flatMap encodeEntry ++ back), takeEntry_iff.mpr ⟨hlimit, ?_⟩, (more, back),
        ih.mpr ⟨Nat.succ.inj hlength, hlimits, rfl⟩, rfl⟩
      simp only [List.flatMap_cons, List.append_assoc]

theorem bind_eq_ok {α β : Type} {x : Except String α} {f : α → Except String β} {b : β} :
    (x >>= f) = .ok b ↔ ∃ a, x = .ok a ∧ f a = .ok b := by
  cases x with
  | error e => exact iff_of_false nofun nofun
  | ok a => exact ⟨fun h => ⟨a, rfl, h⟩, fun ⟨_, ha, h⟩ => Except.ok.inj ha ▸ h⟩

theorem orError_eq_ok {α : Type} {message : String} {x : Option α} {a : α} : orError message x = .ok a ↔ x = some a := by
  cases x with
  | none => exact iff_of_false nofun nofun
  | some b => rw [orError, Except.ok.injEq, Option.some.injEq]

theorem takeVote_iff {bytes back : List UInt8} {vote : Option (List UInt8)} :
    (∃ length rest, takeU 4 bytes = some (length, rest) ∧ takeVote length rest = .ok (vote, back)) ↔
      (∀ id, vote = some id → id.length ≤ 64) ∧ bytes = encodeVote vote ++ back := by
  unfold takeVote
  constructor
  · rintro ⟨length, rest, hlength, h⟩
    obtain ⟨-, rfl⟩ := takeU_iff.mp hlength
    split at h
    · rename_i hno
      cases h
      exact ⟨nofun, by rw [hno, encodeVote]⟩
    · split at h
      · cases h
      · rename_i hlimit
        obtain ⟨⟨front, back'⟩, htake, heq⟩ := bind_eq_ok.mp h
        obtain ⟨rfl, rfl⟩ := takeString_iff.mp (orError_eq_ok.mp htake)
        cases heq
        refine ⟨?_, by rw [encodeVote, List.append_assoc]⟩
        rintro _ ⟨⟩
        exact not_lt.mp hlimit
  · rintro ⟨hlimit, rfl⟩
    cases vote with
    | none => exact ⟨noVote, back, takeU_iff.mpr ⟨(by decide : noVote < 256 ^ 4), rfl⟩, if_pos rfl⟩
    | some vote =>
      have hle := hlimit vote rfl
      refine ⟨vote.length, vote ++ back, takeU_iff.mpr ⟨by omega, List.append_assoc _ _ _⟩, ?_⟩
      rw [if_neg (by unfold noVote; omega), if_neg (by omega)]
      exact bind_eq_ok.mpr ⟨(vote, back), orError_eq_ok.mpr (takeString_iff.mpr ⟨rfl, rfl⟩), rfl⟩

/-- The lengths that a valid state keeps to. -/
structure Lengths (value : Value) : Prop where
  snapshot : value.snapshotIndex = 0 ∧ value.snapshotTerm = 0
  vote : ∀ vote, value.votedFor = some vote → vote.length ≤ 64
  log : value.log.length ≤ maximumCheckpointEntries
  commands : ∀ e ∈ value.log, e.command.length ≤ maximumCommandBytes

theorem validState_lengths (h : validState value = .ok ()) : Lengths value := by
  unfold validState at h
  split at h
  · cases h
  · rename_i hsnapshot
    split at h
    · cases h
    · split at h
      · cases h
      · split at h
        · cases h
        · rename_i hvote
          split at h
          · cases h
          · rename_i hlog
            split at h
            · cases h
            · rename_i hentries
              rw [not_or, not_not, not_not] at hsnapshot
              refine ⟨hsnapshot, fun vote hv => ?_, not_lt.mp hlog, fun e he => ?_⟩
              · simpa [hv] using hvote
              · rw [List.any_eq_true, not_exists] at hentries
                refine not_lt.mp fun hlong => hentries e ⟨he, ?_⟩
                rw [decide_eq_true hlong, Bool.or_true]

theorem read_iff {bytes : List UInt8} : read bytes = .ok value ↔
    validState value = .ok () ∧ ∃ back, back.length = 4 ∧ bytes = payload value ++ back := by
  unfold read payload
  simp only [bind_eq_ok, orError_eq_ok]
  constructor
  · rintro ⟨⟨term, rest₁⟩, hterm, ⟨commit, rest₂⟩, hcommit, ⟨applied, rest₃⟩, happlied, ⟨length, rest₄⟩, hlength, ⟨vote, rest₅⟩, hvote,
      ⟨count, rest₆⟩, hcount, h⟩
    obtain ⟨ht, rfl⟩ := takeU_iff.mp hterm
    obtain ⟨hc, rfl⟩ := takeU_iff.mp hcommit
    obtain ⟨ha, rfl⟩ := takeU_iff.mp happlied
    obtain ⟨-, rfl⟩ := takeVote_iff.mp ⟨length, rest₄, hlength, hvote⟩
    obtain ⟨-, rfl⟩ := takeU_iff.mp hcount
    split at h
    · cases h
    · obtain ⟨⟨log, rest₇⟩, hlog, h⟩ := bind_eq_ok.mp h
      obtain ⟨rfl, -, rfl⟩ := takeEntries_iff.mp (orError_eq_ok.mp hlog)
      split at h
      · cases h
      · rename_i hback
        obtain ⟨⟨⟩, hvalid, heq⟩ := bind_eq_ok.mp h
        cases heq
        refine ⟨hvalid, rest₇, not_not.mp hback, ?_⟩
        simp only [ofNat_toNat_64 ht, ofNat_toNat_64 hc, ofNat_toNat_64 ha, List.append_assoc]
  · rintro ⟨hvalid, back, hback, rfl⟩
    obtain ⟨hsnapshot, hvote, hlog, hcommands⟩ := validState_lengths hvalid
    have hcount : value.log.length < 256 ^ 4 := lt_of_le_of_lt hlog (by decide)
    simp only [List.append_assoc]
    obtain ⟨length, rest, hlength, hrest⟩ := takeVote_iff.mpr (⟨hvote, rfl⟩ : _ ∧ _ = encodeVote value.votedFor ++
      (Bytes.ofNat 4 value.log.length ++ (value.log.flatMap encodeEntry ++ back)))
    refine ⟨(value.term.toNat, _), takeU_iff.mpr ⟨toNat_lt_64 _, rfl⟩, (value.commit.toNat, _), takeU_iff.mpr ⟨toNat_lt_64 _, rfl⟩,
      (value.applied.toNat, _), takeU_iff.mpr ⟨toNat_lt_64 _, rfl⟩, _, hlength, _, hrest, (value.log.length, _),
      takeU_iff.mpr ⟨hcount, rfl⟩, ?_⟩
    rw [if_neg (not_lt.mpr hlog)]
    refine bind_eq_ok.mpr ⟨(value.log, back), orError_eq_ok.mpr (takeEntries_iff.mpr ⟨rfl, hcommands, rfl⟩), ?_⟩
    rw [if_neg (not_not.mpr hback)]
    obtain ⟨term, commit, applied, votedFor, snapshotIndex, snapshotTerm, log⟩ := value
    obtain ⟨rfl, rfl⟩ := hsnapshot
    simp only [UInt64.ofNat_toNat]
    exact bind_eq_ok.mpr ⟨(), hvalid, rfl⟩

theorem encode_iff {bytes : List UInt8} : encode value = .ok bytes ↔ validState value = .ok () ∧
    (body value).length ≤ maximumFileBytes - 4 ∧ bytes = body value ++ Bytes.ofNat 4 (Bytes.crc32 (body value)).toNat := by
  unfold encode
  rw [bind_eq_ok]
  constructor
  · rintro ⟨⟨⟩, hvalid, h⟩
    split at h
    · cases h
    · rename_i hsize
      exact ⟨hvalid, not_lt.mp hsize, (Except.ok.inj h).symm⟩
  · rintro ⟨hvalid, hsize, rfl⟩
    exact ⟨(), hvalid, by rw [if_neg (not_lt.mpr hsize)]; rfl⟩

theorem length_body (value : Value) : (body value).length = 16 + (payload value).length := by
  simp only [body, List.length_append, Bytes.length_ofNat, Bytes.length_ofText]
  rfl

theorem le_length_payload (value : Value) : 32 ≤ (payload value).length := by
  have hvote : 4 ≤ (encodeVote value.votedFor).length := by
    cases value.votedFor with
    | none => rw [encodeVote, Bytes.length_ofNat]
    | some vote =>
      rw [encodeVote, List.length_append, Bytes.length_ofNat]
      omega
  simp only [payload, List.length_append, Bytes.length_ofNat]
  omega

/-- The header that is asked for is the one of the payload. -/
theorem eq_body {bytes back : List UInt8} (hdrop : bytes.drop 16 = payload value ++ back) (hback : back.length = 4)
    (hmagic : Bytes.slice 0 8 bytes = Bytes.ofText "CHRAFT01") (hversion : Bytes.toNat (Bytes.slice 8 4 bytes) = 1)
    (hlength : Bytes.toNat (Bytes.slice 12 4 bytes) = bytes.length - 20) : bytes = body value ++ back := by
  have hpayload := le_length_payload value
  have hsize := congrArg List.length hdrop
  rw [List.length_drop, List.length_append, hback] at hsize
  have hlast : bytes.length - 20 = (payload value).length := by omega
  have htake : bytes.take 16 = Bytes.slice 0 8 bytes ++ Bytes.slice 8 4 bytes ++ Bytes.slice 12 4 bytes := by
    rw [← Bytes.take_append_slice 12 4, ← Bytes.take_append_slice 8 4]
    rfl
  rw [← List.take_append_drop 16 bytes, hdrop, htake, hmagic, ← Bytes.ofNat_eq (Bytes.length_slice (by omega)) hversion,
    ← Bytes.ofNat_eq (Bytes.length_slice (by omega)) (hlength.trans hlast), body]
  simp only [List.append_assoc]

theorem slices_body (value : Value) (back : List UInt8) :
    Bytes.slice 0 8 (body value ++ back) = Bytes.ofText "CHRAFT01" ∧ Bytes.slice 8 4 (body value ++ back) = Bytes.ofNat 4 1 ∧
      Bytes.slice 12 4 (body value ++ back) = Bytes.ofNat 4 (payload value).length ∧
      (body value ++ back).drop 16 = payload value ++ back := by
  have hmagic : (Bytes.ofText "CHRAFT01").length = 8 := rfl
  have hnat : ∀ n, (Bytes.ofNat 4 n).length = 4 := Bytes.length_ofNat 4
  have hheader : (Bytes.ofText "CHRAFT01" ++ Bytes.ofNat 4 1 ++ Bytes.ofNat 4 (payload value).length).length = 16 := by
    rw [List.length_append, List.length_append, hmagic, hnat, hnat]
  refine ⟨?_, ?_, ?_, ?_⟩
  · rw [body, List.append_assoc, List.append_assoc, List.append_assoc, Bytes.slice_here hmagic]
  · rw [body, List.append_assoc, List.append_assoc, List.append_assoc, Bytes.slice_past hmagic le_rfl, Bytes.slice_here (hnat 1)]
  · rw [body, List.append_assoc, List.append_assoc, List.append_assoc, Bytes.slice_past hmagic (by decide),
      Bytes.slice_past (hnat 1) (by decide), Bytes.slice_here (hnat _)]
  · rw [body, List.append_assoc, List.drop_left' hheader]

/-- A file is accepted with a value when it is the encoding of the value, and only then. -/
theorem decode_iff_encode (value : Value) (bytes : List UInt8) : decode bytes = .ok value ↔ encode value = .ok bytes := by
  have hmax : 4 ≤ maximumFileBytes := by decide
  have hpayload := le_length_payload value
  have hbody := length_body value
  rw [encode_iff]
  unfold decode
  constructor
  · intro h
    split at h
    · cases h
    · rename_i hsize
      split at h
      · cases h
      · rename_i hheader
        split at h
        · cases h
        · rename_i hsum
          rw [not_or, not_lt, not_lt] at hsize
          simp only [not_or, not_not] at hheader hsum
          obtain ⟨hvalid, back, hback, hdrop⟩ := read_iff.mp h
          obtain rfl := eq_body hdrop hback hheader.1 hheader.2.1 hheader.2.2
          rw [List.length_append, hback, Nat.add_sub_cancel] at hsum
          rw [List.length_append] at hsize
          rw [List.take_left, Bytes.slice_past rfl le_rfl, Nat.sub_self, ← List.append_nil back, Bytes.slice_here hback] at hsum
          exact ⟨hvalid, by omega, by rw [Bytes.ofNat_eq hback hsum.symm]⟩
  · rintro ⟨hvalid, hsize, rfl⟩
    obtain ⟨hmagic, hversion, hlength, hdrop⟩ := slices_body value (Bytes.ofNat 4 (Bytes.crc32 (body value)).toNat)
    have hcrc : (Bytes.ofNat 4 (Bytes.crc32 (body value)).toNat).length = 4 := Bytes.length_ofNat 4 _
    have hfile : (body value ++ Bytes.ofNat 4 (Bytes.crc32 (body value)).toNat).length = (body value).length + 4 := by
      rw [List.length_append, hcrc]
    have hfour : (payload value).length < 256 ^ 4 := by
      unfold maximumFileBytes at hsize
      omega
    rw [hmagic, hversion, hlength, hdrop, Bytes.toNat_ofNat (by decide), Bytes.toNat_ofNat hfour, hfile, Nat.add_sub_cancel, List.take_left,
      Bytes.slice_past rfl le_rfl, Nat.sub_self, ← List.append_nil (Bytes.ofNat 4 _), Bytes.slice_here hcrc,
      Bytes.toNat_ofNat (Bytes.crc32 (body value)).toNat_lt, List.append_nil, if_neg (by omega), if_neg (by simp; omega), if_neg (by simp)]
    exact read_iff.mpr ⟨hvalid, _, hcrc, rfl⟩

end Choreolog.Raft.Checkpoint
