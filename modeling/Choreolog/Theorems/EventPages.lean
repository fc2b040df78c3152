import Choreolog.Network.ManagementPages
import Choreolog.Theorems.Batches
import Choreolog.Theorems.LogShape

/-! # Pages of events

A page is a run of the committed events after its cursor, as long as the next event is not too large for any page. The
loop looks at that event before it looks at the limits, so that an event which fits is not returned when it stands right
before one that does not. -/

namespace Choreolog.Network
open Lib State Protocol Storage Replication

variable {log rest : List Event} {a b c limit bytes : Nat} {reply : ManagementReply} {s : FileEngine} {d : Disk}

/-- The event fits in a page. -/
def PageFits (event : Event) : Prop := (canonicalEvent event).length ≤ maxEventPageBytes

instance : DecidablePred PageFits := fun event => inferInstanceAs (Decidable ((canonicalEvent event).length ≤ maxEventPageBytes))

/-! ### The loop -/

/-- A page with `n` more events after its cursor `a`. -/
def extended (reply : ManagementReply) (rest : List Event) (a c n : Nat) : ManagementReply :=
  { reply with events := reply.events ++ (rest.take n).map canonicalEvent, nextAfterIndex := a + n, hasMore := decide (a + n < c) }

theorem extended_zero (reply : ManagementReply) (rest : List Event) (c : Nat) (more : reply.hasMore = decide (reply.nextAfterIndex < c)) :
    extended reply rest reply.nextAfterIndex c 0 = reply := by
  simp [extended, ← more]

/-- Committed events that all fit are taken up to the limits. -/
theorem collectEvents_eq (rest : List Event) (bytes : Nat) (reply : ManagementReply)
    (indexed : ∀ i e, rest[i]? = some e → e.index = reply.nextAfterIndex + i + 1)
    (present : c ≤ reply.nextAfterIndex + rest.length) (fits : ∀ e ∈ rest.take (c - reply.nextAfterIndex), PageFits e)
    (room : reply.events.length ≤ limit) (space : bytes ≤ maxEventPageBytes) (fresh : reply.hasMore = false) :
    ∃ n ≤ c - reply.nextAfterIndex, collectEvents c limit rest bytes reply = extended reply rest reply.nextAfterIndex c n ∧
      reply.events.length + n ≤ limit ∧ bytes + ((rest.take n).map fun e => (canonicalEvent e).length).sum ≤ maxEventPageBytes ∧
      (reply.nextAfterIndex < c → reply.events.length < limit → bytes = 0 → 0 < n) := by
  induction rest generalizing bytes reply with
  | nil =>
    rw [List.length_nil, Nat.add_zero] at present
    refine ⟨0, Nat.zero_le _, (extended_zero reply [] c ?_).symm, room, space, fun h => absurd h (not_lt.mpr present)⟩
    rw [fresh, decide_eq_false (not_lt.mpr present)]
  | cons event rest ih =>
    have hindex : event.index = reply.nextAfterIndex + 1 := indexed 0 event rfl
    rw [collectEvents, hindex]
    by_cases hc : c < reply.nextAfterIndex + 1
    · rw [if_pos hc]
      refine ⟨0, Nat.zero_le _, (extended_zero reply _ c ?_).symm, room, space, fun h => by omega⟩
      rw [fresh, decide_eq_false (by omega)]
    · have hcount : c - reply.nextAfterIndex = c - (reply.nextAfterIndex + 1) + 1 := by omega
      rw [hcount, List.take_succ_cons] at fits
      have hfits : PageFits event := fits event List.mem_cons_self
      rw [if_neg hc]
      dsimp only
      rw [if_neg (not_lt.mpr hfits)]
      by_cases hfull : reply.events.length = limit ∨ maxEventPageBytes - bytes < (canonicalEvent event).length
      · rw [if_pos hfull]
        refine ⟨0, Nat.zero_le _, ?_, room, space, fun _ hroom hempty => ?_⟩
        · rw [show (true : Bool) = decide (reply.nextAfterIndex < c) from (decide_eq_true (by omega)).symm]
          simp [extended]
        · unfold PageFits at hfits
          omega
      · rw [if_neg hfull]
        push Not at hfull
        obtain ⟨n, hn, hcollect, hroom, hspace, -⟩ := ih (bytes + (canonicalEvent event).length)
          { reply with events := reply.events ++ [canonicalEvent event], nextAfterIndex := reply.nextAfterIndex + 1 }
          (fun i e he => (indexed (i + 1) e he).trans (by dsimp only; omega)) (by simp only [List.length_cons] at present; dsimp only; omega)
          (fun e he => fits e (List.mem_cons_of_mem _ he)) (by simp only [List.length_append, List.length_singleton]; omega)
          (by omega) fresh
        refine ⟨n + 1, by dsimp only at hn; omega, hcollect.trans ?_, ?_, ?_, fun _ _ _ => Nat.succ_pos n⟩
        · simp [extended, Nat.add_assoc, Nat.add_comm 1 n]
        · simp only [List.length_append, List.length_singleton] at hroom
          omega
        · rw [List.take_succ_cons, List.map_cons, List.sum_cons]
          omega

/-! ### Pages -/

/-- The committed events after a cursor. -/
def committedAfter (s : FileEngine) (a : Nat) : List Event := (s.wal.events.takeWhile (·.index ≤ s.commitIndex)).filter (a < ·.index)

/-- A page as a client needs it: a run of committed events after the cursor, in a message that a frame can carry. -/
def PageRuns (s : FileEngine) (a pageSize : Nat) : Prop :=
  ∃ n, 0 < n ∧ n ≤ (committedAfter s a).length ∧
    eventPage s a pageSize =
      { events := ((committedAfter s a).take n).map canonicalEvent, nextAfterIndex := a + n, hasMore := decide (a + n < s.commitIndex) } ∧
    (eventPage s a pageSize).encode.length ≤ maxFramePayload

/-- What a client gets that follows the cursors. -/
def followPages (s : FileEngine) (sizes : Nat → Nat) : Nat → Nat → Nat → List String
  | 0, _, _ => []
  | queries + 1, page, after =>
    let reply := eventPage s after (sizes page)
    reply.events ++ if reply.errorCode = "" ∧ reply.hasMore then followPages s sizes queries (page + 1) reply.nextAfterIndex else []

/-- At most 11 bytes frame an event, and what the budget leaves is enough for 128 of them. -/
theorem length_encode_events (events : List Event) (few : events.length ≤ 128)
    (small : (events.map fun e => (canonicalEvent e).length).sum ≤ maxEventPageBytes) (a : Nat) (more : Bool) :
    ({ events := events.map canonicalEvent, nextAfterIndex := a, hasMore := more } : ManagementReply).encode.length ≤ maxFramePayload := by
  have hevents : ∀ events : List Event, ((events.map canonicalEvent).flatMap (writeText 3)).length ≤
      11 * events.length + (events.map fun e => (canonicalEvent e).length).sum := by
    intro events
    induction events with
    | nil => exact le_rfl
    | cons e events ih =>
      have hone := Wire.bytes_length_le (show 3 < 16 by decide) (Bytes.ofText (canonicalEvent e))
      rw [Bytes.length_ofText, String.length_toList] at hone
      simp only [List.map_cons, List.flatMap_cons, List.length_append, List.length_cons, List.sum_cons, writeText]
      omega
  have hall := hevents events
  have hindex : (Wire.uint 4 a).length ≤ 11 := Wire.uint_length_le (by decide)
  have hmore : (Wire.bool 5 more).length ≤ 2 := by
    cases more <;> decide
  have hencode : ({ events := events.map canonicalEvent, nextAfterIndex := a, hasMore := more } : ManagementReply).encode =
      (events.map canonicalEvent).flatMap (writeText 3) ++ Wire.uint 4 a ++ Wire.bool 5 more := by
    simp [ManagementReply.encode, writeText, Wire.bytes, Wire.uint, Bytes.ofText]
  rw [hencode, List.length_append, List.length_append]
  unfold maxEventPageBytes maxFramePayload at *
  omega

section Store
variable (h : Shaped log b s)
include h

theorem committedAfter_eq (hb : b ≤ a) : committedAfter s a = (log.take s.commitIndex).drop a := by
  rw [committedAfter, h.wal, ← h.indexed.filter a s.commitIndex hb, ← h.indexed.takeWhile]
  rfl

theorem eventPage_eq (hb : b ≤ a) (ha : a < s.commitIndex) (pageSize : Nat) : eventPage s a pageSize =
    collectEvents s.commitIndex (if pageSize = 0 then 64 else pageSize) (log.drop a) 0 { nextAfterIndex := a } := by
  have hlt : b < log.length := hb.trans_lt (ha.trans_le h.reach)
  have hseek : seekAfter (log.drop b) a = a - b := by
    have hhead : (log.drop b).head? = some log[b] := by rw [List.head?_drop, List.getElem?_eq_getElem hlt]
    have hreach := h.reach
    rw [seekAfter, hhead]
    dsimp only
    rw [h.indexed.head hhead, List.length_drop]
    split <;> omega
  have hwal : s.wal.events = log.drop b := by rw [h.wal]; rfl
  unfold eventPage
  dsimp only
  rw [h.logFirstIndex, if_neg (by omega), hwal, hseek, List.drop_drop, Nat.add_sub_cancel' hb]

theorem pageRuns_of_fits (hb : b ≤ a) (ha : a < s.commitIndex) (fits : ∀ e ∈ committedAfter s a, PageFits e) {pageSize : Nat}
    (size : pageSize ≤ 128) : PageRuns s a pageSize := by
  have hreach := h.reach
  rw [committedAfter_eq h hb, List.drop_take] at fits
  have hlimit : 0 < (if pageSize = 0 then 64 else pageSize) ∧ (if pageSize = 0 then 64 else pageSize) ≤ 128 := by
    split <;> omega
  obtain ⟨n, hn, hpage, hroom, hspace, hsome⟩ := collectEvents_eq (log.drop a) 0 { nextAfterIndex := a }
    (fun i e he => (h.indexed (a + i) e (by rwa [List.getElem?_drop] at he))) (c := s.commitIndex) (by rw [List.length_drop]; dsimp only; omega)
    fits hlimit.1.le (Nat.zero_le _) rfl
  dsimp only at hn
  have htake : (committedAfter s a).take n = (log.drop a).take n := by
    rw [committedAfter_eq h hb, List.drop_take, List.take_take, Nat.min_eq_left hn]
  have hpage : eventPage s a pageSize = { events := ((committedAfter s a).take n).map canonicalEvent, nextAfterIndex := a + n, hasMore := decide (a + n < s.commitIndex) } := by
    rw [eventPage_eq h hb ha, hpage, htake]
    rfl
  refine ⟨n, hsome ha hlimit.1 rfl, ?_, hpage, ?_⟩
  · rw [committedAfter_eq h hb, List.length_drop, List.length_take]
    omega
  · rw [hpage]
    refine length_encode_events _ ?_ ?_ _ _
    · rw [htake, List.length_take]
      simp only [List.length_nil, Nat.zero_add] at hroom
      omega
    · rw [htake]
      simpa using hspace

theorem followPages_eq (hb : b ≤ a) (ha : a < s.commitIndex) (fits : ∀ e ∈ committedAfter s a, PageFits e) {sizes : Nat → Nat}
    (size : ∀ page, sizes page ≤ 128) {queries : Nat} (enough : s.commitIndex - a ≤ queries) (page : Nat) :
    followPages s sizes queries page a = (committedAfter s a).map canonicalEvent := by
  induction queries generalizing a page with
  | zero => omega
  | succ queries ih =>
    obtain ⟨n, hpos, hn, hpage, -⟩ := pageRuns_of_fits h hb ha fits (size page)
    have hsplit : committedAfter s a = (committedAfter s a).take n ++ committedAfter s (a + n) := by
      rw [committedAfter_eq h hb, committedAfter_eq h (hb.trans (Nat.le_add_right a n)), ← List.drop_drop, List.take_append_drop]
    rw [followPages, hpage]
    dsimp only
    conv_rhs => rw [hsplit, List.map_append]
    congr 1
    by_cases hmore : a + n < s.commitIndex
    · rw [if_pos ⟨rfl, decide_eq_true hmore⟩]
      exact ih (hb.trans (Nat.le_add_right a n)) hmore (fun e he => fits e (hsplit ▸ List.mem_append_right _ he)) (by omega) (page + 1)
    · rw [if_neg fun hand => hmore (of_decide_eq_true hand.2), committedAfter_eq h (hb.trans (Nat.le_add_right a n)),
        List.drop_of_length_le (by rw [List.length_take]; omega)]
      rfl

/-- An event that does not fit, right after one that does, costs the page of the one that does. -/
theorem eventPage_too_large {i : Nat} {e e' : Event} (he : s.wal.logEntry i = some e) (he' : s.wal.logEntry (i + 1) = some e')
    (committed : i + 1 ≤ s.commitIndex) (fits : PageFits e) (large : ¬PageFits e') : (eventPage s (i - 1) 1).errorCode = "EventTooLarge" := by
  have hb : b < i := by
    by_contra hnot
    rw [h.logEntry, if_neg hnot] at he
    cases he
  rw [h.logEntry, if_pos hb] at he
  rw [h.logEntry, if_pos (by omega), Nat.add_sub_cancel] at he'
  obtain ⟨hlt, rfl⟩ := List.getElem?_eq_some_iff.mp he
  obtain ⟨hlt', rfl⟩ := List.getElem?_eq_some_iff.mp he'
  have hindex := h.indexed _ _ he
  have hindex' := h.indexed _ _ he'
  have hdrop : log.drop (i - 1) = log[i - 1] :: log[i] :: log.drop (i + 1) := by
    rw [List.drop_eq_getElem_cons hlt, Nat.sub_add_cancel (by omega), List.drop_eq_getElem_cons hlt']
  unfold PageFits at fits large
  rw [eventPage_eq h (by omega) (by omega), hdrop, collectEvents, if_neg (by omega)]
  dsimp only
  rw [if_neg (by omega), if_neg (by simp; omega), collectEvents, if_neg (by omega)]
  dsimp only
  rw [if_pos (by omega)]

end Store

theorem event_pages_iff (h : Operated s d) :
    (∀ a, s.logFirstIndex ≤ a + 1 → a < s.commitIndex → (∀ e, s.wal.logEntry (a + 1) = some e → PageFits e) →
      (∀ pageSize ≤ 128, PageRuns s a pageSize) ∧
      ∀ sizes : Nat → Nat, (∀ page, sizes page ≤ 128) → ∀ queries, s.commitIndex - a ≤ queries →
        followPages s sizes queries 0 a = ((committedAfter s a).takeWhile PageFits).map canonicalEvent) ↔
    ∀ i e e', s.wal.logEntry i = some e → s.wal.logEntry (i + 1) = some e' → i + 1 ≤ s.commitIndex → PageFits e → PageFits e' := by
  obtain ⟨log, b, hkept⟩ := h.keeping
  have hshape := hkept.toShaped
  constructor
  · intro hpages i e e' he he' hcommitted hfits
    by_contra hlarge
    have hb : b < i := by
      by_contra hnot
      rw [hshape.logEntry, if_neg hnot] at he
      cases he
    have hi : i - 1 + 1 = i := by omega
    obtain ⟨hruns, -⟩ := hpages (i - 1) (by rw [hshape.logFirstIndex]; omega) (by omega) fun x hx => by
      rw [hi, he] at hx
      cases hx
      exact hfits
    obtain ⟨n, -, -, hpage, -⟩ := hruns 1 (by decide)
    have herror := eventPage_too_large hshape he he' hcommitted hfits hlarge
    rw [hpage] at herror
    exact absurd herror (show "" ≠ "EventTooLarge" by decide)
  · intro hnext a hfirst ha hfits
    rw [hshape.logFirstIndex] at hfirst
    have hentry : ∀ k, s.wal.logEntry (a + k + 1) = log[a + k]? := fun k => by rw [hshape.logEntry, if_pos (by omega), Nat.add_sub_cancel]
    have hfrom : ∀ k e, a + k < s.commitIndex → log[a + k]? = some e → PageFits e := by
      intro k
      induction k with
      | zero => exact fun e _ he => hfits e ((hentry 0).trans he)
      | succ k ih =>
        intro e hk he
        have hlt := (List.getElem?_eq_some_iff.mp he).1
        have hbefore : log[a + k]? = some log[a + k] := List.getElem?_eq_getElem (by omega)
        exact hnext (a + k + 1) _ e ((hentry k).trans hbefore) ((hentry (k + 1)).trans he) hk (ih _ (by omega) hbefore)
    have hall : ∀ e ∈ committedAfter s a, PageFits e := by
      intro e he
      rw [committedAfter_eq hshape (by omega), List.drop_take] at he
      obtain ⟨k, hk⟩ := List.mem_iff_getElem?.mp he
      rw [List.getElem?_take] at hk
      split at hk
      · rw [List.getElem?_drop] at hk
        exact hfrom k e (by omega) hk
      · cases hk
    refine ⟨fun pageSize size => pageRuns_of_fits hshape (by omega) ha hall size, fun sizes size queries enough => ?_⟩
    rw [followPages_eq hshape (by omega) ha hall size enough, List.takeWhile_eq_self_iff.mpr (by simpa using hall)]

/-! ### A log with a large event -/

section Large
variable {events : List Event}

def plainOptions : StoreOptions := { snapshotEvery := 0, commitOnAppend := false }

/-- Events that are logged can be appended one after the other. -/
theorem appended (logged : ∀ e ∈ events, Logged e) (indexed : Indexed events) (short : events.length < maxIndex) :
    ∃ s d, Operated s d ∧ s.options = plainOptions ∧ Sound { log := events } 0 none ∧ Serves { log := events } 0 none s d := by
  induction events using List.reverseRecOn with
  | nil =>
    obtain ⟨s, hopen, hopened⟩ := (open_held (show plainOptions.commitOnAppend = false from rfl) sound_created fun _ _ _ => False).returns
      (s := ()) held_created
    have hfresh : Opens plainOptions {} s (FileEngine.open plainOptions () created).disk :=
      ⟨(open_fresh _).1.trans hopen, (open_fresh _).2⟩
    exact ⟨s, _, .start rfl hfresh, hopened.opened, sound_created, hopened.toServes⟩
  | append_singleton events event ih =>
    have hlast : (events ++ [event])[events.length]? = some event := List.getElem?_concat_length
    have hbefore : Indexed events := by
      have := indexed.take events.length
      rwa [List.take_left] at this
    rw [List.length_append, List.length_singleton] at short
    obtain ⟨s, d, hrun, hoptions, sound, serves⟩ := ih (fun e he => logged e (List.mem_append_left _ he)) hbefore (by omega)
    have hlogged := logged event (List.mem_append_right _ (List.mem_singleton_self event))
    have hnext := indexed _ event hlast
    obtain ⟨-, -, hstore, hserves⟩ := (appendEvent_spec sound hlogged hnext).returns ⟨rfl, serves⟩
    refine ⟨_, _, .call (.append event) ⟨hlogged.fits, hlogged.text, by omega⟩ hrun, ?_, sound.append hlogged hnext short, hserves⟩
    change (FileEngine.appendEvent event s d).memory.options = _
    rw [hstore]
    exact hoptions

/-- A log that replays is the committed log of a store. -/
theorem committed (events : List Event) (logged : ∀ e ∈ events, Logged e) (indexed : Indexed events) (short : events.length < maxIndex)
    {u : ChoreographyState} (replays : events.foldlM apply {} = .ok u) :
    ∃ s d, Operated s d ∧ s.wal = walOf events ∧ s.commitIndex = events.length := by
  obtain ⟨s, d, hrun, hoptions, sound, serves⟩ := appended logged indexed short
  have hreplay : ({ log := events } : Record).replay events.length = .ok u := by
    rw [Record.replay_whole rfl, List.take_length]
    exact replays
  have hcommit : Program.Triple (fun s' d' => s' = s ∧ Serves { log := events } 0 none s' d') (FileEngine.commitThrough events.length)
      (fun _ => Serves (Record.commitTo { log := events } events.length) 0 none) (fun _ _ _ => False) fun _ => True := by
    refine commitThrough_published sound (Nat.zero_le _) le_rfl hreplay (fun _ _ => trivial) fun state _ => .bind_memory fun t => ?_
    refine .fact (fun _ _ hs => (congrArg FileEngine.options (hs.1.symm.trans hs.2.1)).trans hoptions) fun ht => ?_
    -- Without a period there is no snapshot.
    rw [ht]
    exact .strengthen (.pure _) fun _ _ hs => hs.2.2
  obtain ⟨-, -, hserves⟩ := hcommit.returns ⟨rfl, serves⟩
  rw [Record.commitTo_of_le (Nat.zero_le _)] at hserves
  exact ⟨_, _, .call (.commit events.length) trivial hrun, hserves.events, hserves.commitIndex⟩

end Large

theorem indexed_crowd (n : Nat) : Indexed (crowdLog n ++ [everyoneEvent n]) :=
  Indexed.append (fun _ _ hi => (getElem?_crowdLog hi).1) (by rw [length_crowdLog]; rfl)

theorem logEntry_crowd {n : Nat} (hwal : s.wal = walOf (crowdLog n ++ [everyoneEvent n])) (i : Nat) :
    s.wal.logEntry (i + 1) = (crowdLog n ++ [everyoneEvent n])[i]? := by
  rw [hwal]
  exact (logEntry_walOf (indexed_crowd n) 0 (i + 1)).trans (if_pos (Nat.succ_pos i))

/-- The dancers of a crowd and the formation of all of them. -/
theorem committed_crowd {n : Nat} (positive : 0 < n) (h : n ≤ 10 ^ 6) (size : 121 + (toString (n + 2)).toList.length + n * 65 ≤ maxPayloadBytes) :
    ∃ s d, Operated s d ∧ s.wal = walOf (crowdLog n ++ [everyoneEvent n]) ∧ s.commitIndex = n + 2 := by
  obtain ⟨u, hu, hcrowd⟩ := crowd h
  obtain ⟨hlawful, -⟩ := Reached.empty.lawful.fold
    ⟨fits_crowdLog h, fun i e hi => (getElem?_crowdLog hi).1.trans (congrArg (· + 1) (Nat.zero_add i).symm)⟩ hu
  obtain ⟨u', hu'⟩ := apply_everyone positive h hcrowd hlawful (.refl hlawful.regular)
  have hlength : (crowdLog n ++ [everyoneEvent n]).length = n + 2 := by rw [List.length_append, length_crowdLog]; rfl
  obtain ⟨s, d, hrun, hwal, hcommit⟩ := committed (crowdLog n ++ [everyoneEvent n])
    (List.forall_mem_append.mpr ⟨logged_crowd h, List.forall_mem_singleton.mpr (logged_everyone positive h size)⟩)
    (indexed_crowd n) (by rw [hlength]; unfold maxIndex; omega) (u := u') (by rw [List.foldlM_append, hu]; exact (bind_pure _).trans hu')
  exact ⟨s, d, hrun, hwal, hcommit.trans hlength⟩

theorem pageFits_iff {event : Event} : PageFits event ↔ (canonicalEvent event).toList.length ≤ maxEventPageBytes := by
  rw [String.length_toList]
  rfl

theorem pageFits_crowdAdd {i : Nat} (h : i < 10 ^ 6) : PageFits (crowdAdd i) :=
  pageFits_iff.mpr ((length_crowdAdd h).trans (by decide))

theorem pageFits_crowd {n : Nat} (h : n ≤ 10 ^ 6) : ∀ e ∈ crowdLog n, PageFits e := by
  intro e he
  rcases List.mem_cons.mp he with rfl | he
  · rw [pageFits_iff]
    decide +kernel
  · obtain ⟨i, hi, rfl⟩ := List.mem_map.mp he
    rw [List.mem_range] at hi
    exact pageFits_crowdAdd (by omega)

theorem pageFits_everyone {n : Nat} (positive : 0 < n) (h : n ≤ 10 ^ 6) :
    PageFits (everyoneEvent n) ↔ 121 + (toString (n + 2)).toList.length + n * 65 ≤ maxEventPageBytes := by
  have hlength := length_everyone positive h
  rw [pageFits_iff]
  omega

/-- The events of two dancers and their formation, all small. -/
theorem event_pages_pair : ∃ s d, Operated s d ∧ s.commitIndex = 4 ∧ PageRuns s 1 2 := by
  obtain ⟨s, d, hrun, hwal, hcommit⟩ := committed_crowd (n := 2) (by decide) (by decide) (by decide)
  have heveryone : PageFits (everyoneEvent 2) := (pageFits_everyone (by decide) (by decide)).mpr (by decide)
  have hall : ∀ e ∈ crowdLog 2 ++ [everyoneEvent 2], PageFits e :=
    List.forall_mem_append.mpr ⟨pageFits_crowd (by decide), List.forall_mem_singleton.mpr heveryone⟩
  have hfits : ∀ i e, s.wal.logEntry (i + 1) = some e → PageFits e := fun i e he =>
    hall e (List.mem_of_getElem? ((logEntry_crowd hwal i).symm.trans he))
  have hfirst : s.logFirstIndex ≤ 2 := by
    unfold FileEngine.logFirstIndex
    rw [hwal]
    exact (show 1 ≤ 2 by decide)
  obtain ⟨hpage, -⟩ := (event_pages_iff hrun).mpr (fun i _ e' _ he' _ _ => hfits i e' he') 1 hfirst (by omega) (hfits 1)
  exact ⟨s, d, hrun, hcommit, hpage 2 (by decide)⟩

/-- 16130 dancers and the formation of all of them: the event of the last dancer is small, and its page is an error. -/
theorem small_event_lost : ∃ s d e e', Operated s d ∧ s.logFirstIndex ≤ 16131 ∧ s.commitIndex = 16132 ∧ s.wal.logEntry 16131 = some e ∧ PageFits e ∧
    s.wal.logEntry 16132 = some e' ∧ ¬PageFits e' ∧ (eventPage s 16130 1).errorCode = "EventTooLarge" := by
  have hsize : 121 + (toString (16130 + 2)).toList.length + 16130 * 65 = maxPayloadBytes := by decide
  obtain ⟨s, d, hrun, hwal, hcommit⟩ := committed_crowd (n := 16130) (by decide) (by decide) hsize.le
  obtain ⟨log, b, hkept⟩ := hrun.keeping
  have he : s.wal.logEntry 16131 = some (crowdAdd 16129) := by
    rw [logEntry_crowd hwal, crowdLog_succ, List.append_assoc, List.getElem?_append_right (length_crowdLog _).le, length_crowdLog, Nat.sub_self]
    rfl
  have he' : s.wal.logEntry 16132 = some (everyoneEvent 16130) := by
    rw [logEntry_crowd hwal, List.getElem?_append_right (length_crowdLog _).le, length_crowdLog, Nat.sub_self]
    rfl
  have hfits : PageFits (crowdAdd 16129) := pageFits_crowdAdd (by decide)
  have hlarge : ¬PageFits (everyoneEvent 16130) := by
    rw [pageFits_everyone (by decide) (by decide), hsize]
    decide
  refine ⟨s, d, _, _, hrun, ?_, hcommit, he, hfits, he', hlarge, eventPage_too_large hkept.toShaped he he' hcommit.ge hfits hlarge⟩
  rw [hkept.logFirstIndex]
  by_contra hlate
  rw [hkept.logEntry, if_neg (by omega)] at he
  cases he

end Choreolog.Network
