import Choreolog.Theorems.Replicas

/-! # Batches of entries and the frame limit

A replica takes the first entry of a batch whatever its size, and further ones only within its limits. So a message
fits in a frame if and only if its first entry does. -/

namespace Choreolog.Protocol
open Lib State

/-- The bytes of an entry in a message: its text, in a record, in a field. -/
def framedSize (text : Nat) : Nat :=
  let record := 1 + (Wire.varint text).length + text
  1 + (Wire.varint record).length + record

theorem length_writeText {field : Nat} (small : field < 16) {text : String} (nonempty : text.toList ≠ []) :
    (writeText field text).length = 1 + (Wire.varint text.toList.length).length + text.toList.length := by
  have hne : Bytes.ofText text ≠ [] := by
    rw [← List.length_pos_iff_ne_nil, Bytes.length_ofText]
    exact List.length_pos_iff_ne_nil.mpr nonempty
  rw [writeText, Wire.bytes_length small hne, Bytes.length_ofText]

theorem length_writeEvent {field : Nat} (small : field < 16) (event : Event) :
    (writeEvent field event).length = framedSize (canonicalEvent event).toList.length := by
  have htext := length_writeText (show 1 < 16 by decide) (mt String.toList_eq_nil_iff.mp (canonicalEvent_ne_empty event))
  have hne : writeText 1 (canonicalEvent event) ≠ [] := by
    rw [← List.length_pos_iff_ne_nil, htext]
    omega
  rw [writeEvent, Wire.bytes_length small hne, htext, framedSize]

theorem framedSize_le (text : Nat) : framedSize text ≤ text + 32 := by
  have h := Wire.varint_length_le text
  have h' := Wire.varint_length_le (1 + (Wire.varint text).length + text)
  unfold framedSize
  dsimp only
  omega

namespace AppendEntries

/-- The bytes of a message besides its entries. -/
def overhead (message : AppendEntries) : Nat := ({ message with entries := [] } : AppendEntries).encode.length

theorem length_encode (message : AppendEntries) :
    message.encode.length = message.overhead + (message.entries.map fun e => framedSize (canonicalEvent e).toList.length).sum := by
  have hentries : (message.entries.flatMap (writeEvent 5)).length =
      (message.entries.map fun e => framedSize (canonicalEvent e).toList.length).sum := by
    rw [List.length_flatMap]
    exact congrArg List.sum (List.map_congr_left fun e _ => length_writeEvent (by decide) e)
  unfold overhead encode
  simp only [List.length_append, hentries, List.flatMap_nil, List.length_nil]
  omega

end AppendEntries

end Choreolog.Protocol

namespace Choreolog.Replication
open Lib State Storage Protocol

namespace Replica
variable {r : Replica} {w : World} {peer : Peer} {i : Nat} {force : Bool}

/-! ### What a batch holds -/

/-- After the first entry a batch stays below the limit. -/
theorem collect_within (left next count bytes : Nat) (positive : count ≠ 0) : r.collect left next count bytes = [] ∨
    bytes + ((r.collect left next count bytes).map entryCost).sum ≤ r.config.maxAppendBytes := by
  induction left generalizing next count bytes with
  | zero => exact .inl rfl
  | succ left ih =>
    rw [collect]
    cases r.findIndex next with
    | none => exact .inl rfl
    | some entry =>
      dsimp only
      split
      · exact .inl rfl
      · rename_i hroom
        push Not at hroom
        have hbytes := (hroom positive).2
        right
        rw [List.map_cons, List.sum_cons]
        rcases ih (next + 1) (count + 1) (bytes + entryCost entry) (Nat.succ_ne_zero count) with hnil | hle
        · rw [hnil, List.map_nil, List.sum_nil]
          exact hbytes
        · omega

/-- The entries of a batch: none if there is no next one, else that one and what the limit leaves room for. -/
theorem batch_entries (r : Replica) (peer : Peer) :
    r.findIndex peer.nextIndex = none ∧ (r.batch peer).entries = [] ∨
    ∃ entry more, r.findIndex peer.nextIndex = some entry ∧ (r.batch peer).entries = entry :: more ∧
      (more = [] ∨ ((entry :: more).map entryCost).sum ≤ r.config.maxAppendBytes) := by
  have hbatch : (r.batch peer).entries = r.collect (r.lastIndex + 1 - peer.nextIndex) peer.nextIndex 0 0 := rfl
  rw [hbatch]
  cases hfind : r.findIndex peer.nextIndex with
  | none =>
    refine .inl ⟨rfl, ?_⟩
    cases r.lastIndex + 1 - peer.nextIndex with
    | zero => rfl
    | succ left => rw [collect, hfind]
  | some entry =>
    have hlast := findIndex_le_last hfind
    obtain ⟨left, hleft⟩ : ∃ left, r.lastIndex + 1 - peer.nextIndex = left + 1 := ⟨r.lastIndex - peer.nextIndex, by omega⟩
    refine .inr ⟨entry, r.collect left (peer.nextIndex + 1) 1 (entryCost entry), rfl, ?_, ?_⟩
    · rw [hleft, collect, hfind]
      dsimp only
      rw [if_neg (by simp), Nat.zero_add, Nat.zero_add]
    · rw [List.map_cons, List.sum_cons]
      exact collect_within left (peer.nextIndex + 1) 1 (entryCost entry) Nat.one_ne_zero

/-- The next entry for a peer fits in a frame, in a message of its own. -/
def NextFits (r : Replica) (peer : Peer) : Prop :=
  ∀ entry, r.findIndex peer.nextIndex = some entry →
    (r.batch peer).overhead + framedSize (canonicalEvent entry).toList.length ≤ maxFramePayload

theorem batch_fits_iff (limit : r.config.maxAppendBytes + (r.batch peer).overhead ≤ maxFramePayload) :
    (r.batch peer).encode.length ≤ maxFramePayload ↔ NextFits r peer := by
  rw [AppendEntries.length_encode]
  unfold NextFits
  rcases batch_entries r peer with ⟨hnone, hentries⟩ | ⟨entry, more, hfind, hentries, hmore⟩
  · rw [hentries, hnone, List.map_nil, List.sum_nil]
    exact ⟨fun _ => nofun, fun _ => by omega⟩
  · rw [hentries, hfind]
    have hsum : ((entry :: more).map fun e => framedSize (canonicalEvent e).toList.length).sum ≤
        ((entry :: more).map entryCost).sum :=
      List.sum_le_sum fun e _ => framedSize_le _
    constructor
    · intro hle e he
      cases he
      rw [List.map_cons, List.sum_cons] at hle
      omega
    · intro hfits
      rcases hmore with rfl | hbound
      · simpa using hfits entry rfl
      · omega

end Replica

/-! ### A crowded stage

A stage with so many dancers that the formation of all of them just fits in the log. -/

/-- A name of 64 characters. -/
def crowdName (i : Nat) : String := String.ofList ((Text.ofNat (i % 10 ^ 6)).leftpad 64 'd')

theorem toList_crowdName (i : Nat) : (crowdName i).toList = (Text.ofNat (i % 10 ^ 6)).leftpad 64 'd' := String.toList_ofList

theorem length_crowdName (i : Nat) : (crowdName i).toList.length = 64 := by
  have hdigits : (Text.ofNat (i % 10 ^ 6)).length ≤ 6 := Nat.toDigits_length 10 _ 6 (by decide) (Nat.mod_lt _ (by decide))
  rw [toList_crowdName, List.length_leftpad]
  omega

theorem crowdName_valid (i : Nat) : validId (crowdName i) = true := by
  refine validId_iff.mpr ⟨fun hempty => ?_, (length_crowdName i).le, fun c hc => ?_⟩
  · have := length_crowdName i
    rw [hempty] at this
    exact absurd this (by decide)
  · rw [toList_crowdName, List.leftpad, List.mem_append, List.mem_replicate] at hc
    rcases hc with ⟨-, rfl⟩ | hc
    · decide
    · unfold isAllowedIdChar Char.isAlphanum
      rw [Text.digits_ofNat c hc]
      simp

theorem crowdName_injective {i j : Nat} (hi : i < 10 ^ 6) (hj : j < 10 ^ 6) (h : crowdName i = crowdName j) : i = j := by
  have hdigits : ∀ k, (crowdName k).toList.filter (·.isDigit) = Text.ofNat (k % 10 ^ 6) := by
    intro k
    rw [toList_crowdName, List.leftpad, List.filter_append, List.filter_eq_nil_iff.mpr, List.nil_append,
      List.filter_eq_self.mpr Text.digits_ofNat]
    intro c hc
    rw [(List.mem_replicate.mp hc).2]
    decide
  have heq : Text.ofNat (i % 10 ^ 6) = Text.ofNat (j % 10 ^ 6) := by rw [← hdigits i, ← hdigits j, h]
  have := Text.ofNat_injective heq
  rwa [Nat.mod_eq_of_lt hi, Nat.mod_eq_of_lt hj] at this

def crowdId {tag : IdTag} (i : Nat) : StrongId tag := ⟨crowdName i, crowdName_valid i⟩

def showId : ChoreographyId := ⟨"c", Eq.refl true⟩

def corner : Position := ⟨⟨0, Nat.zero_le _⟩, ⟨0, Nat.zero_le _⟩⟩

def crowdCreate : Event :=
  { id := ⟨"create", Eq.refl true⟩, commandId := ⟨"create", Eq.refl true⟩, choreographyId := showId, type := .choreographyCreated
    schemaVersion := 1, tick := ⟨0, MusicalTick.zero_lt⟩, index := 1, term := 1
    payload := .create ⟨showId, unitStage, .allowed, 0⟩ }

def crowdAdd (i : Nat) : Event :=
  { id := crowdId i, commandId := crowdId i, choreographyId := showId, type := .dancerAdded
    schemaVersion := 1, tick := ⟨0, MusicalTick.zero_lt⟩, index := i + 2, term := 1, payload := .dancer ⟨crowdId i, corner⟩ }

def crowdLog (n : Nat) : List Event := crowdCreate :: (List.range n).map crowdAdd

/-- Identifiers that the first `n` dancers leave free. -/
def Free (n : Nat) (x : String) : Prop := x = "f" ∨ ∃ i, n ≤ i ∧ i < 10 ^ 6 ∧ x = crowdName i

structure Crowd (n : Nat) (u : ChoreographyState) : Prop where
  created : u.requireCreated = .ok unitStage
  id : u.id = some showId
  overlap : u.overlap = .allowed
  last : u.lastApplied = n + 1
  term : u.term = 1
  formations : u.formations = .empty
  present : ∀ i < n, u.findDancer (crowdId i) = some { position := corner }
  absent : ∀ i, n ≤ i → i < 10 ^ 6 → u.findDancer (crowdId i) = none
  free : ∀ x, Free n x → u.appliedEvents.find? x = none ∧ ¬ u.Knows x

theorem crowdLog_succ (n : Nat) : crowdLog (n + 1) = crowdLog n ++ [crowdAdd n] := by
  rw [crowdLog, List.range_succ, List.map_append]
  rfl

theorem length_crowdLog (n : Nat) : (crowdLog n).length = n + 1 := by
  rw [crowdLog, List.length_cons, List.length_map, List.length_range]

theorem getElem?_crowdLog {n i : Nat} {e : Event} (h : (crowdLog n)[i]? = some e) :
    e.index = i + 1 ∧ e.term = 1 ∧ i < n + 1 := by
  have hlt := (List.getElem?_eq_some_iff.mp h).1
  rw [length_crowdLog] at hlt
  cases i with
  | zero =>
    cases h
    exact ⟨rfl, rfl, hlt⟩
  | succ i =>
    rw [crowdLog, List.getElem?_cons_succ, List.getElem?_map, List.getElem?_range (by omega), Option.map_some] at h
    cases h
    exact ⟨rfl, rfl, hlt⟩

theorem crowdName_ne (i : Nat) : crowdName i ≠ "create" ∧ crowdName i ≠ "f" := by
  have := length_crowdName i
  constructor <;> intro h <;> rw [h] at this <;> exact absurd this (by decide)

theorem fits_crowdLog {n : Nat} (h : n ≤ 10 ^ 6) : ∀ e ∈ crowdLog n, e.Fits := by
  intro e he
  obtain ⟨i, hi⟩ := List.getElem?_of_mem he
  obtain ⟨hindex, hterm, hlt⟩ := getElem?_crowdLog hi
  exact ⟨by omega, by rw [hterm]; decide, by rw [hterm]; decide⟩

/-- Every state of the crowd is reached by applying the log. -/
theorem crowd {n : Nat} (h : n ≤ 10 ^ 6) : ∃ u, (crowdLog n).foldlM apply {} = .ok u ∧ Crowd n u := by
  induction n with
  | zero =>
    have hfree : ∀ x, Free 0 x → x ≠ "create" := by
      rintro x (rfl | ⟨i, -, -, rfl⟩)
      · decide
      · exact (crowdName_ne i).1
    let d : Domain := { created := true, id := some showId, stage := some unitStage, overlap := .allowed, maxTravelMm := 0, term := 1 }
    have happly : apply {} crowdCreate = .ok (record {} d crowdCreate) :=
      (Reached.empty.lawful.past.apply_iff rfl).mpr ⟨rfl, rfl, d, rfl, rfl⟩
    refine ⟨record {} d crowdCreate, ?_, rfl, rfl, rfl, rfl, rfl, rfl, nofun, fun _ _ _ => rfl, fun x hx => ⟨?_, fun hknown => ?_⟩⟩
    · change List.foldlM apply {} [crowdCreate] = _
      rw [List.foldlM_cons, happly]
      rfl
    · change OrdMap.find? (OrdMap.tryEmplace .empty "create" _) x = none
      rw [OrdMap.find?_tryEmplace, OrdMap.find?_empty, if_neg (hfree x hx).symm]
      rfl
    · rcases knows_record.mp hknown with heq | hnone
      · exact hfree x hx heq
      · rcases hnone with hnone | hnone <;> cases hnone
  | succ n ih =>
    obtain ⟨u, hu, crowd⟩ := ih (by omega)
    have hfollows : Follows {} (crowdLog n) := ⟨fits_crowdLog (by omega), fun i e hi => by
      rw [(getElem?_crowdLog hi).1]
      exact (Nat.zero_add _).symm ▸ rfl⟩
    obtain ⟨hlawful, -⟩ := Reached.empty.lawful.fold hfollows hu
    obtain ⟨htext, hknows⟩ := crowd.free (crowdName n) (.inr ⟨n, le_rfl, by omega, rfl⟩)
    have hnew : existingEvent u (crowdAdd n) = .ok false := existingEvent_new_iff.mpr ⟨htext, hknows⟩
    let d : Domain := { u.toDomain with dancers := u.dancers.tryEmplace (crowdName n) { position := corner } }
    have hmutate : u.toDomain.mutate (crowdAdd n) = .ok d := by
      have hnone : u.toDomain.findDancer (crowdId n) = none := crowd.absent n le_rfl (by omega)
      change u.toDomain.applyAdd ⟨crowdId n, corner⟩ = _
      have hallowed : ¬ (u.overlap = .forbidden ∧ u.toDomain.markOccupied corner none = true) := by
        rw [crowd.overlap]
        nofun
      unfold Domain.applyAdd
      rw [crowd.created]
      simp only [bind, Except.bind, hnone]
      rw [if_neg (by decide), if_neg (by decide), if_neg hallowed]
      rfl
    have happly : apply u (crowdAdd n) = .ok (record u d (crowdAdd n)) :=
      (hlawful.past.apply_iff (by rw [crowd.last]; rfl)).mpr ⟨rfl, hnew, d, hmutate, rfl⟩
    have hdancers : ∀ i, (u.dancers.tryEmplace (crowdName n) { position := corner }).find? (crowdName i) =
        (u.findDancer (crowdId i)).or (if crowdName n = crowdName i then some { position := corner } else none) :=
      fun i => OrdMap.find?_tryEmplace
    refine ⟨record u d (crowdAdd n), ?_, ?_⟩
    · rw [crowdLog_succ, List.foldlM_append, hu]
      change List.foldlM apply u [crowdAdd n] = _
      rw [List.foldlM_cons, happly]
      rfl
    · refine ⟨crowd.created, crowd.id, crowd.overlap, rfl, rfl, crowd.formations, fun i hi => ?_, fun i hn hi => ?_, fun x hx => ?_⟩
      · refine (hdancers i).trans ?_
        rcases Nat.lt_succ_iff_lt_or_eq.mp hi with hlt | rfl
        · rw [crowd.present i hlt]
          rfl
        · rw [crowd.absent i le_rfl (by omega), if_pos rfl]
          rfl
      · refine (hdancers i).trans ?_
        rw [crowd.absent i (by omega) hi, if_neg fun heq => ?_]
        · rfl
        · have := crowdName_injective (by omega) hi heq
          omega
      · have hne : x ≠ crowdName n := by
          rcases hx with rfl | ⟨i, hn, hi, rfl⟩
          · exact (crowdName_ne n).2.symm
          · intro heq
            have := crowdName_injective hi (by omega) heq
            omega
        obtain ⟨hnone, hunknown⟩ := crowd.free x (hx.imp id fun ⟨i, hn, hi, heq⟩ => ⟨i, by omega, hi, heq⟩)
        refine ⟨?_, fun hk => ?_⟩
        · change (u.appliedEvents.tryEmplace (crowdName n) _).find? x = none
          rw [OrdMap.find?_tryEmplace, hnone, if_neg hne.symm]
          rfl
        · rcases (knows_record (s := u)).mp hk with heq | hk
          · exact hne heq
          · exact hunknown hk


/-! ### Members without repetition -/

theorem insertMember_perm {x : DancerId} : ∀ {l : List DancerId}, x ∉ l → (insertMember x l).Perm (x :: l)
  | [], _ => .refl _
  | y :: l, hx => by
    rw [insertMember]
    split
    · exact .refl _
    · rw [if_neg (List.ne_of_not_mem_cons hx)]
      exact ((insertMember_perm (List.not_mem_of_not_mem_cons hx)).cons y).trans (.swap x y l)

theorem uniqueSorted_perm {l : List DancerId} (h : l.Nodup) : (uniqueSorted l).Perm l := by
  induction l with
  | nil => exact .refl _
  | cons x l ih =>
    obtain ⟨hx, hl⟩ := List.nodup_cons.mp h
    have hperm := ih hl
    exact (insertMember_perm fun hmem => hx (hperm.mem_iff.mp hmem)).trans (hperm.cons x)

theorem length_intercalate_members {members : List DancerId} {k : Nat} (h : ∀ m ∈ members, m.value.toList.length = k)
    (nonempty : members ≠ []) : (writeMembers members).toList.length + 1 = members.length * (k + 1) := by
  rw [toList_writeMembers]
  induction members with
  | nil => exact absurd rfl nonempty
  | cons m members ih =>
    have hm := h m List.mem_cons_self
    cases members with
    | nil => simp [List.intercalate, hm]
    | cons m' members =>
      have hrest := ih (fun x hx => h x (List.mem_cons_of_mem _ hx)) (List.cons_ne_nil _ _)
      rw [List.map_cons] at hrest
      rw [List.map_cons, List.map_cons, List.intercalate_cons_cons, List.length_cons, Nat.succ_mul, ← hrest]
      simp only [List.length_append, List.length_singleton, hm]
      omega

def crowdMembers (n : Nat) : List DancerId := (List.range n).map crowdId

theorem crowdMembers_nodup {n : Nat} (h : n ≤ 10 ^ 6) : (crowdMembers n).Nodup := by
  refine List.Nodup.map_on (fun i hi j hj heq => ?_) List.nodup_range
  rw [List.mem_range] at hi hj
  exact crowdName_injective (by omega) (by omega) (congrArg StrongId.value heq)

theorem mem_crowd {n : Nat} (h : n ≤ 10 ^ 6) {m : DancerId} (hm : m ∈ uniqueSorted (crowdMembers n)) : ∃ i < n, m = crowdId i := by
  obtain ⟨i, hi, rfl⟩ := List.mem_map.mp ((uniqueSorted_perm (crowdMembers_nodup h)).mem_iff.mp hm)
  exact ⟨i, List.mem_range.mp hi, rfl⟩

def everyoneId : FormationId := ⟨"everyone-is-on-stage-by-now", by decide⟩

/-- The command that puts the first `n` dancers in one formation. -/
def everyone (n : Nat) : Command :=
  { id := ⟨"f", Eq.refl true⟩, choreographyId := showId, type := .defineFormation, schemaVersion := 1, tick := ⟨0, MusicalTick.zero_lt⟩
    payload := .formation ⟨everyoneId, crowdMembers n⟩ }

def everyoneEvent (n : Nat) : Event :=
  makeEvent (everyone n) (n + 2) 1 (.formation ⟨everyoneId, uniqueSorted (crowdMembers n)⟩)

theorem forM_ok {α : Type} {f : α → Result Unit} : ∀ {l : List α}, (∀ a ∈ l, f a = .ok ()) → l.forM f = .ok ()
  | [], _ => rfl
  | a :: l, h => by
    change (f a >>= fun _ => l.forM f) = .ok ()
    rw [h a List.mem_cons_self]
    exact forM_ok fun b hb => h b (List.mem_cons_of_mem _ hb)

theorem mutate_everyone {n : Nat} (positive : 0 < n) (h : n ≤ 10 ^ 6) {u : ChoreographyState} (crowd : Crowd n u) :
    ∃ d, u.toDomain.mutate (everyoneEvent n) = .ok d := by
  have hperm : (uniqueSorted (uniqueSorted (crowdMembers n))).Perm (uniqueSorted (crowdMembers n)) :=
    uniqueSorted_perm ((uniqueSorted_perm (crowdMembers_nodup h)).nodup_iff.mpr (crowdMembers_nodup h))
  have hmembers : u.toDomain.validateFormationMembers (uniqueSorted (uniqueSorted (crowdMembers n))) = .ok () := by
    unfold Domain.validateFormationMembers
    rw [if_neg, forM_ok]
    · intro m hm
      obtain ⟨i, hi, rfl⟩ := mem_crowd h (hperm.mem_iff.mp hm)
      unfold Domain.validateMember
      rw [crowd.present i hi]
      rfl
    · intro hnil
      rw [hnil] at hperm
      have hlen := (hperm.trans (uniqueSorted_perm (crowdMembers_nodup h))).length_eq
      rw [crowdMembers, List.length_map, List.length_range, List.length_nil] at hlen
      omega
  have hnew : u.formations.contains everyoneId.value = false := by
    rw [crowd.formations]
    rfl
  have hmutate : u.toDomain.mutate (everyoneEvent n) = u.toDomain.applyFormation .formationDefined ⟨everyoneId, uniqueSorted (crowdMembers n)⟩ := rfl
  rw [hmutate]
  unfold Domain.applyFormation
  rw [crowd.created]
  simp only [bind, Except.bind, hmembers, hnew]
  exact ⟨_, rfl⟩

/-- The command is proposed on any view of the crowd. -/
theorem propose_everyone {n : Nat} (positive : 0 < n) (h : n ≤ 10 ^ 6) {u c : ChoreographyState} (crowd : Crowd n u) (view : View u c) :
    State.propose c (everyone n) = .ok (everyoneEvent n) := by
  obtain ⟨-, hunknown⟩ := crowd.free "f" (.inl rfl)
  have happlied : (c.appliedCommands.contains "f" || c.receipts.contains "f") = false := by
    rw [Bool.or_eq_false_iff]
    refine ⟨Bool.eq_false_iff.mpr fun hc => hunknown (view.commands _ hc), Bool.eq_false_iff.mpr fun hc => hunknown (.inr ?_)⟩
    rwa [← view.receipts]
  obtain ⟨d, hd⟩ := mutate_everyone positive h crowd
  have htentative : apply { toDomain := c.toDomain } (everyoneEvent n) = .ok (record { toDomain := c.toDomain } d (everyoneEvent n)) := by
    refine (apply_next_iff ?_ ?_).mpr ⟨rfl, rfl, d, ?_, rfl⟩
    · rw [view.domain, crowd.last]
      rfl
    · exact nofun
    · rw [view.domain]
      exact hd
  have hevent : makeEvent (everyone n) (c.lastApplied + 1) c.term (normalizePayload (everyone n).payload) = everyoneEvent n := by
    rw [view.domain, crowd.last, crowd.term]
    rfl
  have hcreated : c.requireCreated = .ok unitStage := by
    rw [view.domain]
    exact crowd.created
  have hid : ¬ c.id ≠ some (everyone n).choreographyId := by
    rw [view.domain, crowd.id]
    exact fun hne => hne rfl
  unfold State.propose
  have hschema : requireSchema (everyone n).schemaVersion = .ok () := rfl
  have htype : (everyone n).type ≠ .createChoreography := nofun
  simp only [bind, Except.bind, hschema, show (everyone n).id.value = "f" from rfl, happlied, if_pos htype, hcreated,
    if_neg hid, hevent]
  dsimp only at htentative
  rw [if_neg Bool.false_ne_true, htentative]
  rfl

theorem fits_everyone {n : Nat} (h : n ≤ 10 ^ 6) : (everyoneEvent n).Fits := ⟨by change n + 2 < _; omega, by change 1 < _; decide, Nat.one_pos⟩

theorem apply_everyone {n : Nat} (positive : 0 < n) (h : n ≤ 10 ^ 6) {u c : ChoreographyState} (crowd : Crowd n u) (lawful : Lawful u)
    (view : View u c) : ∃ c', apply c (everyoneEvent n) = .ok c' := by
  obtain ⟨d, hd⟩ := mutate_everyone positive h crowd
  have hnext : (everyoneEvent n).index = u.lastApplied + 1 := by
    rw [crowd.last]
    rfl
  have happly : apply u (everyoneEvent n) = .ok (record u d (everyoneEvent n)) :=
    (lawful.past.apply_iff hnext).mpr ⟨rfl, existingEvent_new_iff.mpr (crowd.free "f" (.inl rfl)), d, hd, rfl⟩
  obtain ⟨c', hc', -⟩ := view.apply lawful (fits_everyone h) hnext happly
  exact ⟨c', hc'⟩

/-- The length of a line: a separator goes after each field but the last. -/
theorem length_line : ∀ {fields : Fields}, fields ≠ [] →
    (line fields).toList.length + 1 = (fields.map fun f => f.1.toList.length + f.2.toList.length + 2).sum
  | [], h => absurd rfl h
  | [f], _ => by
    have hline : line [f] = f.1 ++ "=" ++ f.2 := rfl
    have heq : "=".toList.length = 1 := by decide
    rw [hline, String.toList_append, String.toList_append, List.length_append, List.length_append, heq, List.map_singleton,
      List.sum_singleton]
    omega
  | f :: f' :: fields, _ => by
    have hrest := length_line (List.cons_ne_nil f' fields)
    have heq : "=".toList.length = 1 := by decide
    have hsep : ";".toList.length = 1 := by decide
    have hline : (line (f :: f' :: fields)).toList = (f.1 ++ "=" ++ f.2).toList ++ ";".toList ++ (line (f' :: fields)).toList := by
      rw [line, line, String.toList_intercalate, String.toList_intercalate]
      exact List.intercalate_cons_cons
    rw [List.map_cons, List.sum_cons, ← hrest, hline, String.toList_append, String.toList_append]
    simp only [List.length_append, heq, hsep]
    omega

theorem length_everyone {n : Nat} (positive : 0 < n) (h : n ≤ 10 ^ 6) :
    (canonicalEvent (everyoneEvent n)).toList.length + 1 = 122 + (toString (n + 2)).toList.length + n * 65 := by
  have hperm := uniqueSorted_perm (crowdMembers_nodup h)
  have hlen : (uniqueSorted (crowdMembers n)).length = n := by
    rw [hperm.length_eq, crowdMembers, List.length_map, List.length_range]
  have hmembers : (writeMembers (uniqueSorted (crowdMembers n))).toList.length + 1 = n * (64 + 1) := by
    conv_rhs => rw [← hlen]
    refine length_intercalate_members (fun m hm => ?_) fun hnil => ?_
    · obtain ⟨i, -, rfl⟩ := mem_crowd h hm
      exact length_crowdName i
    · rw [hnil, List.length_nil] at hlen
      omega
  have hfields : eventFields (everyoneEvent n) = [("schema", toString (UInt16.toNat 1)), ("type", "FORMATION_DEFINED"), ("event", "f"),
      ("cmd", "f"), ("choreo", "c"), ("tick", toString 0), ("index", toString (n + 2)), ("term", toString 1), ("formation", "everyone-is-on-stage-by-now"),
      ("members", writeMembers (uniqueSorted (crowdMembers n)))] := rfl
  have hline := length_line (show eventFields (everyoneEvent n) ≠ [] by rw [hfields]; exact List.cons_ne_nil _ _)
  rw [← canonicalEvent] at hline
  have hkeys : "schema".toList.length = 6 ∧ "type".toList.length = 4 ∧ "event".toList.length = 5 ∧ "cmd".toList.length = 3 ∧
      "choreo".toList.length = 6 ∧ "tick".toList.length = 4 ∧ "index".toList.length = 5 ∧ "term".toList.length = 4 ∧
      "formation".toList.length = 9 ∧ "members".toList.length = 7 := by decide
  have hvalues : (toString (UInt16.toNat 1)).toList.length = 1 ∧ (toString 1).toList.length = 1 ∧ (toString 0).toList.length = 1 ∧ "FORMATION_DEFINED".toList.length = 17 ∧ "f".toList.length = 1 ∧ "c".toList.length = 1 ∧
      "everyone-is-on-stage-by-now".toList.length = 27 := by decide
  rw [hline, hfields]
  simp only [List.map_cons, List.map_nil, List.sum_cons, List.sum_nil]
  omega

theorem length_crowdAdd {i : Nat} (h : i < 10 ^ 6) : (canonicalEvent (crowdAdd i)).toList.length ≤ 400 := by
  have hfields : eventFields (crowdAdd i) = [("schema", toString (UInt16.toNat 1)), ("type", "DANCER_ADDED"), ("event", crowdName i),
      ("cmd", crowdName i), ("choreo", "c"), ("tick", toString 0), ("index", toString (i + 2)), ("term", toString 1),
      ("dancer", crowdName i), ("x", toString 0), ("y", toString 0)] := rfl
  have hline := length_line (show eventFields (crowdAdd i) ≠ [] by rw [hfields]; exact List.cons_ne_nil _ _)
  rw [← canonicalEvent] at hline
  have hkeys : "schema".toList.length = 6 ∧ "type".toList.length = 4 ∧ "event".toList.length = 5 ∧ "cmd".toList.length = 3 ∧
      "choreo".toList.length = 6 ∧ "tick".toList.length = 4 ∧ "index".toList.length = 5 ∧ "term".toList.length = 4 ∧
      "dancer".toList.length = 6 ∧ "x".toList.length = 1 ∧ "y".toList.length = 1 := by decide
  have hvalues : (toString (UInt16.toNat 1)).toList.length = 1 ∧ (toString 1).toList.length = 1 ∧ (toString 0).toList.length = 1 ∧
      "DANCER_ADDED".toList.length = 12 ∧ "c".toList.length = 1 := by decide
  have hindex : (toString (i + 2)).toList.length ≤ 7 := by
    rw [Text.toList_toString]
    exact Nat.toDigits_length 10 _ 7 (by decide) (by omega)
  have hname := length_crowdName i
  rw [hfields] at hline
  simp only [List.map_cons, List.map_nil, List.sum_cons, List.sum_nil] at hline
  omega

theorem logged_crowd {n : Nat} (h : n ≤ 10 ^ 6) : ∀ e ∈ crowdLog n, Logged e := by
  intro e he
  have hfits := fits_crowdLog h e he
  rcases List.mem_cons.mp he with rfl | he
  · exact ⟨hfits, parseEvent_canonicalEvent hfits trivial, by decide +kernel⟩
  · obtain ⟨i, hi, rfl⟩ := List.mem_map.mp he
    rw [List.mem_range] at hi
    exact ⟨hfits, parseEvent_canonicalEvent hfits trivial, (length_crowdAdd (by omega)).trans (by decide)⟩

theorem logged_everyone {n : Nat} (positive : 0 < n) (h : n ≤ 10 ^ 6) (size : 121 + (toString (n + 2)).toList.length + n * 65 ≤ maxPayloadBytes) :
    Logged (everyoneEvent n) := by
  refine ⟨fits_everyone h, parseEvent_canonicalEvent (fits_everyone h) trivial, ?_⟩
  have := length_everyone positive h
  omega

/-! ### The replica of the crowd -/

def crowdRecord (n : Nat) : Record := { log := crowdLog n }

def crowdDisk (n : Nat) : Disk := { wal := some (walFile (crowdLog n)) }

theorem sound_crowd {n : Nat} (h : n ≤ 10 ^ 6) : Sound (crowdRecord n) 0 none where
  rooted := ⟨Reached.empty.lawful, fun _ => rfl, fun e he => fits_crowdLog h e he, fun _ _ hpos => absurd hpos (lt_irrefl 0), nofun⟩
  logged := logged_crowd h
  indexed i e hi := (getElem?_crowdLog hi).1
  short := by
    change (crowdLog n).length < maxIndex
    rw [length_crowdLog]
    unfold maxIndex
    omega
  base := le_rfl
  offset := le_rfl
  commit := Nat.zero_le _
  positive := Nat.one_pos
  term := by change 1 < _; decide
  history := ⟨{}, rfl⟩
  bare _ := ⟨rfl, rfl⟩
  newest := nofun

theorem held_crowd (n : Nat) : Held (crowdRecord n) 0 none (crowdDisk n) :=
  ⟨logHeld_file (crowdLog n) (.inl rfl), rfl, fun _ => ⟨rfl, rfl⟩, rfl, rfl⟩

/-- The fixed leader of two replicas. -/
def crowdConfig : ReplicaConfig := { id := "a", leaderId := "a", peers := ["b"] }


theorem termsAgree_crowd (n : Nat) : Replica.termsAgree 1 none 0 (crowdLog n) = true := by
  have hall : ∀ (events : List Event) (previous : Nat), previous ≤ 1 → (∀ e ∈ events, e.term = 1) →
      Replica.termsAgree 1 none previous events = true := by
    intro events
    induction events with
    | nil => exact fun _ _ _ => rfl
    | cons e events ih =>
      intro previous hle hterms
      have hterm := hterms e List.mem_cons_self
      rw [Replica.termsAgree, hterm, ih 1 le_rfl fun e' he' => hterms e' (List.mem_cons_of_mem _ he')]
      simp [hle]
  refine hall _ 0 (Nat.zero_le 1) fun e he => ?_
  obtain ⟨i, hi⟩ := List.getElem?_of_mem he
  exact (getElem?_crowdLog hi).2.1

/-- A replica that has opened the directory of a crowd. -/
structure Crowded (n : Nat) (u : ChoreographyState) (r : Replica) (d : Disk) : Prop where
  config : r.config = crowdConfig
  running : r.halted = false
  role : r.role = .leader
  term : r.currentTerm = 1
  peers : r.peers = [{ id := "b", nextIndex := n + 2 }]
  clean : r.speculativeDirty = false
  anchor : r.historyAnchor = 0
  counter : r.messagesDroppedOversize = 0
  store : Serves (crowdRecord n) 0 none r.store d
  view : View u r.speculative
  command : r.findCommand "f" = none

theorem open_crowd {n : Nat} (h : n ≤ 10 ^ 6) {u : ChoreographyState} (replayed : (crowdLog n).foldlM apply {} = .ok u) :
    ∃ r d, Program.Runs (Replica.open crowdConfig : Store Unit Replica) () (crowdDisk n) r () d ∧ Crowded n u r d := by
  have hsound := sound_crowd h
  have hcluster : ({ snapshotEvery := 100, commitOnAppend := false, compactLog := true } : StoreOptions).commitOnAppend = false := rfl
  obtain ⟨e, hresult, hopened⟩ := (open_held (μ := Unit) hcluster hsound fun _ _ _ => False).returns (s := ()) (held_crowd n)
  have hserves := hopened.toServes
  obtain ⟨v, hv, hview⟩ := hserves.state
  obtain rfl : ({} : ChoreographyState) = v := Except.ok.inj hv
  have hfollows : Follows {} (crowdLog n) := ⟨fits_crowdLog h, fun i e hi => by
    rw [(getElem?_crowdLog hi).1]
    exact (Nat.zero_add _).symm ▸ rfl⟩
  obtain ⟨c, hc, hspec⟩ := hview.replay Reached.empty.lawful hfollows replayed
  have hsnapshot : e.snapshot = none := hserves.snapshot
  have hevents : e.wal.events = crowdLog n := by
    rw [hserves.events]
    rfl
  refine ⟨Replica.resume crowdConfig e c {}, _, Replica.open_runs ⟨hresult, Subsingleton.elim _ _, rfl⟩ ?_ (loadMetadata_held hserves.metadata ()) ?_ ?_, ?_⟩
  · rw [Replica.buildSpeculative_eq hsound hserves]
    exact hc
  · rw [hsnapshot]
    rfl
  · rw [hsnapshot, hevents]
    exact termsAgree_crowd n
  · have hlast : e.lastLogIndex = n + 1 := (hserves.lastLogIndex hsound).trans (length_crowdLog n)
    obtain ⟨rng, timeout, hresume⟩ := Replica.resume_fixed (show crowdConfig.elections = false from rfl) (by decide) e c {}
    rw [hresume]
    refine ⟨rfl, rfl, rfl, ?_, ?_, rfl, rfl, rfl, hserves, hspec, ?_⟩
    · change max 1 e.state.term = 1
      rw [hview.domain]
      rfl
    · change [({ id := "b", nextIndex := e.lastLogIndex + 1 } : Peer)] = _
      rw [hlast]
    · unfold Replica.findCommand
      rw [Replica.find?_rebuildCommandIndex]
      intro e' he'
      change e' ∈ e.wal.events at he'
      rw [hevents] at he'
      rcases List.mem_cons.mp he' with rfl | he'
      · decide
      · obtain ⟨i, -, rfl⟩ := List.mem_map.mp he'
        exact (crowdName_ne i).2

/-- The formation of the whole crowd is accepted into the log, and its message is dropped. -/
theorem enqueue_crowd {n : Nat} (positive : 0 < n) (h : n ≤ 10 ^ 6) (size : 121 + (toString (n + 2)).toList.length + n * 65 = maxPayloadBytes)
    {u : ChoreographyState} (crowd : Crowd n u) (lawful : Lawful u) {r : Replica} {d : Disk} (crowded : Crowded n u r d) :
    ∃ answer r' d', Program.Runs (Replica.enqueue (everyone n)) r ⟨d, []⟩ answer r' ⟨d', []⟩ ∧ answer.duplicate = false ∧
      r'.findIndex answer.event.index = some answer.event ∧ r'.messagesDroppedOversize = 1 := by
  have hsound := sound_crowd h
  have hserves := crowded.store
  have hleads : r.isLeader = true := by
    unfold Replica.isLeader
    rw [crowded.running, crowded.config]
    rfl
  have hunknown : ¬ (r.store.state.appliedCommands.contains "f" = true ∨ r.store.state.receipts.contains "f" = true) := by
    obtain ⟨v, hv, hview⟩ := hserves.state
    obtain rfl : ({} : ChoreographyState) = v := Except.ok.inj hv
    rintro (hc | hc)
    · exact (hview.commands _ hc).elim (fun hnone => nomatch hnone) fun hnone => nomatch hnone
    · rw [hview.receipts] at hc
      cases hc
  -- The trimmed state is still a view of the crowd.
  obtain ⟨c, hretained, hview⟩ := crowded.view.retains lawful.history 1
  let r₁ : Replica := { r with historyAnchor := 1, speculative := c, commandIndex := r.commandIndex.filter fun _ index => 1 ≤ index }
  have hensure : r.ensureSpeculative = r₁ := by
    have hfirst : r.store.logFirstIndex = 1 := by
      unfold FileEngine.logFirstIndex
      rw [hserves.events]
      rfl
    have htrim : r.trimRetainedHistory = r₁ := by
      unfold Replica.trimRetainedHistory
      dsimp only
      rw [hfirst, crowded.anchor, if_neg (by decide), hretained]
    unfold Replica.ensureSpeculative
    rw [htrim, if_neg (ne_true_of_eq_false (show r₁.speculativeDirty = false from crowded.clean))]
  have hlogged := logged_everyone positive h size.le
  have hnext : (everyoneEvent n).index = (crowdRecord n).log.length + 1 := congrArg (· + 1) (length_crowdLog n).symm
  obtain ⟨⟨⟩, hresult, -, hserves'⟩ := (appendEvent_spec hsound hlogged hnext).returns (s := r.store) ⟨rfl, hserves⟩
  obtain ⟨c', happly⟩ := apply_everyone positive h crowd lawful hview
  generalize happended : FileEngine.appendEvent (everyoneEvent n) r.store d = x at hresult hserves'
  let r₂ : Replica := { r₁ with
    store := x.memory, commandIndex := r₁.commandIndex.insert (everyoneEvent n).commandId.value (everyoneEvent n).index, speculative := c' }
  have hfind : r₂.findIndex (n + 2) = some (everyoneEvent n) := by
    change x.memory.wal.logEntry (n + 2) = _
    rw [hserves'.events, logEntry_walOf (hsound.append hlogged hnext ?_).indexed, if_pos (by omega)]
    · change (crowdLog n ++ [everyoneEvent n])[n + 1]? = _
      rw [List.getElem?_append_right (by rw [length_crowdLog]), length_crowdLog, Nat.sub_self]
      rfl
    · change (crowdLog n).length + 1 < maxIndex
      rw [length_crowdLog]
      unfold maxIndex
      omega
  have hpeers : r₂.peers = [{ id := "b", nextIndex := n + 2 }] := crowded.peers
  have hlarge : maxFramePayload < (r₂.batch { id := "b", nextIndex := n + 2 }).encode.length := by
    rw [AppendEntries.length_encode]
    rcases Replica.batch_entries r₂ { id := "b", nextIndex := n + 2 } with ⟨hnone, -⟩ | ⟨entry, more, hentry, hentries, -⟩
    · rw [hfind] at hnone
      cases hnone
    · rw [hfind] at hentry
      cases hentry
      have hlength := length_everyone positive h
      rw [hentries, List.map_cons, List.sum_cons, show (canonicalEvent (everyoneEvent n)).toList.length = maxFramePayload by
        change _ = maxPayloadBytes
        omega]
      unfold framedSize
      dsimp only
      omega
  have hreplicated := Replica.replicateAll_dropped (w := ⟨x.disk, []⟩) hpeers crowded.running rfl (.inr (by
    change x.memory.snapshot.filter _ = none
    rw [hserves'.snapshot]
    rfl)) hlarge
  refine ⟨_, _, _, Replica.enqueue_fixed crowded.running hleads hunknown crowded.command hensure ?_ (propose_everyone positive h crowd hview)
    ⟨?_, ?_, ?_⟩ happly hreplicated ?_, rfl, hfind, ?_⟩
  · rw [show r₁.config = crowdConfig from crowded.config]
    rfl
  · exact (congrArg Outcome.result happended).trans hresult
  · exact congrArg Outcome.memory happended
  · exact congrArg Outcome.disk happended
  · refine Replica.committable_none (fun index hpos => ?_) _
    unfold Replica.copies Replica.majority Replica.requested Replica.setPeer
    dsimp only
    rw [hpeers]
    have hzero : ¬ index ≤ 0 := by omega
    simp [List.modify, hzero]
  · change r₂.messagesDroppedOversize + 1 = 1
    rw [show r₂.messagesDroppedOversize = 0 from crowded.counter]

/-! ### Sending a batch -/

/-- A leader whose limits leave room for the rest of the message gets the next entry of the log to a peer if and only
    if that entry fits in a frame by itself; otherwise the message is dropped. -/
theorem replicate_fits_iff {r : Replica} {w : World} {peer : Peer} {i : Nat} {force : Bool} (leads : r.isLeader = true) (hpeer : r.peers[i]? = some peer)
    (idle : peer.probe.filter (·.term = r.currentTerm) = none) (serves : r.LogServes peer)
    (limit : r.config.maxAppendBytes + (r.batch peer).overhead ≤ maxFramePayload) :
    ((Replica.replicate i force r w).memory.messagesDroppedOversize = r.messagesDroppedOversize ∧
      (∃ frame, frame.type = .appendEntries ∧ frame.payload = (r.batch peer).encode ∧ frame.payload.length ≤ maxFramePayload ∧
        (Replica.replicate i force r w).disk.sent = w.sent ++ [(peer.id, frame)]) ∧
      ∀ entry, r.findIndex peer.nextIndex = some entry → entry ∈ (r.batch peer).entries) ↔
    r.NextFits peer := by
  have hrunning : r.halted = false := by
    unfold Replica.isLeader at leads
    rw [Bool.and_eq_true, Bool.not_eq_true'] at leads
    exact leads.1
  rw [← Replica.batch_fits_iff limit, Replica.replicate_new hpeer idle serves]
  constructor
  · rintro ⟨-, ⟨frame, -, hpayload, hfits, -⟩, -⟩
    rwa [← hpayload]
  · intro hfits
    have hsent : Replica.send peer.id (r.batchFrame peer) (r.requested i peer) w =
        Replica.transmit peer.id (r.batchFrame peer) (r.requested i peer) w :=
      Replica.send_fits hrunning hfits
    rw [hsent]
    refine ⟨rfl, ⟨r.batchFrame peer, rfl, rfl, hfits, rfl⟩, fun entry hentry => ?_⟩
    rcases Replica.batch_entries r peer with ⟨hnone, -⟩ | ⟨first, more, hfirst, hentries, -⟩
    · rw [hnone] at hentry
      cases hentry
    · rw [hfirst] at hentry
      cases hentry
      rw [hentries]
      exact List.mem_cons_self

/-- The fixed leader of two replicas, with one entry that the other one lacks. -/
def laggedLeader : Replica :=
  { config := crowdConfig, store := { options := { commitOnAppend := false }, wal := walOf [crowdCreate] }
    peers := [{ id := "b" }], role := .leader }

theorem replicate_fits_lagged : laggedLeader.findIndex 1 = some crowdCreate ∧
    ((Replica.replicate 0 false laggedLeader {}).memory.messagesDroppedOversize = 0 ∧
      (∃ frame, frame.type = .appendEntries ∧ frame.payload = (laggedLeader.batch { id := "b" }).encode ∧
        frame.payload.length ≤ maxFramePayload ∧ (Replica.replicate 0 false laggedLeader {}).disk.sent = [("b", frame)]) ∧
      ∀ entry, laggedLeader.findIndex 1 = some entry → entry ∈ (laggedLeader.batch { id := "b" }).entries) := by
  have hpeer : laggedLeader.peers[0]? = some { id := "b" } := rfl
  refine ⟨rfl, (replicate_fits_iff (w := {}) rfl hpeer rfl (.inr rfl) (by decide +kernel)).mpr ?_⟩
  intro entry hentry
  obtain rfl : crowdCreate = entry := Option.some.inj hentry
  decide +kernel

/-- The fixed leader opens a directory with 16130 dancers and takes the formation of all of them into its log. Its text
    has the 1 MiB that the log allows, so that no frame can carry it: the message is dropped, and nothing is sent. -/
theorem enqueue_drops_message : ∃ (d d' d'' : Disk) (r r' : Replica) (answer : EnqueueResult),
    Program.Runs (Replica.open crowdConfig : Store Unit Replica) () d r () d' ∧ r.isLeader = true ∧
      r.config.maxAppendBytes = 256 * 1024 ∧ r.messagesDroppedOversize = 0 ∧
      Program.Runs (Replica.enqueue (everyone 16130)) r ⟨d', []⟩ answer r' ⟨d'', []⟩ ∧ answer.duplicate = false ∧
      r'.findIndex answer.event.index = some answer.event ∧ r'.messagesDroppedOversize = 1 := by
  have hsize : 121 + (toString (16130 + 2)).toList.length + 16130 * 65 = maxPayloadBytes := by decide
  obtain ⟨u, hu, hcrowd⟩ := crowd (n := 16130) (by decide)
  have hfollows : Follows {} (crowdLog 16130) := ⟨fits_crowdLog (by decide), fun i e hi => by
    rw [(getElem?_crowdLog hi).1]
    exact (Nat.zero_add _).symm ▸ rfl⟩
  obtain ⟨hlawful, -⟩ := Reached.empty.lawful.fold hfollows hu
  obtain ⟨r, d', hopen, hcrowded⟩ := open_crowd (by decide) hu
  obtain ⟨answer, r', d'', henqueue, hnew, hfind, hdropped⟩ := enqueue_crowd (by decide) (by decide) hsize hcrowd hlawful hcrowded
  refine ⟨crowdDisk 16130, d', d'', r, r', answer, hopen, ?_, ?_, hcrowded.counter, henqueue, hnew, hfind, hdropped⟩
  · unfold Replica.isLeader
    rw [hcrowded.running, hcrowded.config]
    rfl
  · rw [hcrowded.config]
    rfl

end Choreolog.Replication
