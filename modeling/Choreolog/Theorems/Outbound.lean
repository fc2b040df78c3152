import Choreolog.Network.OutboundQueue

/-! # Outbound byte budgets

A reservation has as many uses as it has owners: the frame it was made for, and the buffers taken from there. So the
budget is the sum of the sizes of all frames that are queued or still held. -/

namespace Choreolog.Network

/-! ### Reservations -/

namespace Reservations
variable {l : Reservations} {owners : List Nat} {r : Nat}

/-- What a reservation takes of the clients' part. -/
def clientSize (l : Reservations) (r : Nat) : Nat := (l.made[r]?.map fun x => if x.peer then 0 else x.size).getD 0

/-- The counters are exact for these owners. -/
structure Balanced (owners : List Nat) (l : Reservations) : Prop where
  uses : ∀ r, (l.made[r]?.map Reservation.uses).getD 0 = owners.count r
  bytes : l.budget.bytes = ∑ r ∈ owners.toFinset, l.size r
  client : l.budget.clientBytes = ∑ r ∈ owners.toFinset, l.clientSize r

/-- Sizes stay as they are. -/
structure Fixed (l l' : Reservations) (r : Nat) : Prop where
  size : l'.size r = l.size r
  client : l'.clientSize r = l.clientSize r

theorem Balanced.perm (h : Balanced owners l) {others : List Nat} (hp : owners.Perm others) : Balanced others l := by
  have hset : others.toFinset = owners.toFinset := List.toFinset_eq_of_perm _ _ hp.symm
  exact ⟨fun r => (h.uses r).trans (hp.count_eq r), hset ▸ h.bytes, hset ▸ h.client⟩

theorem Balanced.lt (h : Balanced owners l) (hr : r ∈ owners) : r < l.made.length := by
  by_contra hge
  have huses := h.uses r
  rw [List.getElem?_eq_none (not_lt.mp hge)] at huses
  exact (List.count_pos_iff.mpr hr).ne huses

/-- The new counters are sums over the new owners, given what happens to their sizes. -/
theorem sum_fixed {l' : Reservations} (set : Finset Nat) (fixed : ∀ r ∈ set, Fixed l l' r) :
    ∑ r ∈ set, l'.size r = ∑ r ∈ set, l.size r ∧ ∑ r ∈ set, l'.clientSize r = ∑ r ∈ set, l.clientSize r :=
  ⟨Finset.sum_congr rfl fun r hr => (fixed r hr).size, Finset.sum_congr rfl fun r hr => (fixed r hr).client⟩

theorem reserve_fixed (size : Nat) (peer : Bool) (hr : r < l.made.length) : Fixed l (l.reserve size peer) r := by
  unfold reserve
  constructor
  · simp only [Reservations.size, List.getElem?_append_left hr]
  · simp only [clientSize, List.getElem?_append_left hr]

theorem Balanced.reserve (h : Balanced owners l) (size : Nat) (peer : Bool) :
    Balanced (l.made.length :: owners) (l.reserve size peer) := by
  have hnew : l.made.length ∉ owners := fun hmem => lt_irrefl _ (h.lt hmem)
  have hnot : l.made.length ∉ owners.toFinset := fun hmem => hnew (List.mem_toFinset.mp hmem)
  obtain ⟨hsize, hclient⟩ := sum_fixed owners.toFinset fun r hr =>
    reserve_fixed size peer (h.lt (List.mem_toFinset.mp hr))
  have hlast : (l.reserve size peer).made[l.made.length]? = some ⟨size, peer, 1⟩ := List.getElem?_concat_length
  refine ⟨fun r => ?_, ?_, ?_⟩
  · by_cases hr : r = l.made.length
    · rw [hr, hlast, List.count_cons_self, List.count_eq_zero_of_not_mem hnew]
      rfl
    · rw [List.count_cons_of_ne (Ne.symm hr), ← h.uses]
      by_cases hlt : r < l.made.length
      · simp only [Reservations.reserve, List.getElem?_append_left hlt]
      · rw [List.getElem?_eq_none (not_lt.mp hlt), List.getElem?_eq_none]
        simp only [Reservations.reserve, List.length_append, List.length_singleton]
        omega
  · rw [List.toFinset_cons, Finset.sum_insert hnot, hsize, ← h.bytes]
    simp only [Reservations.size, hlast]
    exact Nat.add_comm _ _
  · rw [List.toFinset_cons, Finset.sum_insert hnot, hclient, ← h.client, clientSize, hlast]
    cases peer
    · exact Nat.add_comm _ _
    · exact (Nat.zero_add _).symm

theorem recount_fixed (l : Reservations) (r : Nat) (f : Nat → Nat) (budget : QueueBudget) (k : Nat) :
    Fixed l { l.recount r f with budget } k := by
  unfold recount
  constructor
  · simp only [Reservations.size, List.getElem?_modify]
    cases l.made[k]? with
    | none => rfl
    | some x => by_cases hk : r = k <;> simp [hk]
  · simp only [clientSize, List.getElem?_modify]
    cases l.made[k]? with
    | none => rfl
    | some x => by_cases hk : r = k <;> simp [hk]

theorem recount_uses {x : Reservation} (hx : l.made[r]? = some x) (f : Nat → Nat) (k : Nat) :
    ((l.recount r f).made[k]?.map Reservation.uses).getD 0 = if r = k then f x.uses else (l.made[k]?.map Reservation.uses).getD 0 := by
  simp only [recount, List.getElem?_modify]
  by_cases hk : r = k
  · subst hk
    simp [hx]
  · cases l.made[k]? <;> simp [hk]

theorem Balanced.found (h : Balanced owners l) (hr : r ∈ owners) : ∃ x, l.made[r]? = some x ∧ x.uses = owners.count r := by
  refine ⟨_, List.getElem?_eq_getElem (h.lt hr), ?_⟩
  have huses := h.uses r
  rwa [List.getElem?_eq_getElem (h.lt hr)] at huses

theorem Balanced.share (h : Balanced owners l) (hr : r ∈ owners) : Balanced (r :: owners) (l.share r) := by
  obtain ⟨x, hx, huses⟩ := h.found hr
  have hset : (r :: owners).toFinset = owners.toFinset := by
    rw [List.toFinset_cons, Finset.insert_eq_of_mem (List.mem_toFinset.mpr hr)]
  obtain ⟨hsize, hclient⟩ := sum_fixed owners.toFinset fun k _ => recount_fixed l r (· + 1) l.budget k
  refine ⟨fun k => ?_, ?_, ?_⟩
  · rw [Reservations.share, recount_uses hx, List.count_cons, h.uses]
    by_cases hk : r = k
    · subst hk
      simp [huses]
    · simp [hk]
  · rw [hset]
    exact h.bytes.trans hsize.symm
  · rw [hset]
    exact h.client.trans hclient.symm

theorem minus_add (a b : Nat) : minus (a + b) a = some b := by
  rw [minus, if_pos (Nat.le_add_right a b), Nat.add_sub_cancel_left]

theorem destroy_eq {x : Reservation} {budget : QueueBudget} {bytes client : Nat} (hbytes : budget.bytes = x.size + bytes)
    (hclient : budget.clientBytes = (if x.peer then 0 else x.size) + client) : x.destroy budget = some ⟨bytes, client⟩ := by
  unfold Reservation.destroy
  rw [hbytes, minus_add]
  cases hpeer : x.peer with
  | true =>
    rw [hpeer, if_pos rfl, Nat.zero_add] at hclient
    rw [← hclient]
    rfl
  | false =>
    rw [hpeer, if_neg Bool.false_ne_true] at hclient
    rw [hclient, minus_add]
    rfl

theorem Balanced.release (h : Balanced (r :: owners) l) : ∃ l', l.release r = some l' ∧ Balanced owners l' ∧
    (∀ k, Fixed l l' k) ∧ l'.budget.bytes ≤ l.budget.bytes ∧ l'.budget.clientBytes ≤ l.budget.clientBytes := by
  obtain ⟨x, hx, huses⟩ := h.found List.mem_cons_self
  rw [List.count_cons_self] at huses
  have hcounts : ∀ k, ((l.recount r (· - 1)).made[k]?.map Reservation.uses).getD 0 = owners.count k := by
    intro k
    rw [recount_uses hx, h.uses, List.count_cons]
    by_cases hk : r = k
    · subst hk
      simp [huses]
    · simp [hk]
  have hsums := fun budget => sum_fixed owners.toFinset fun k _ => recount_fixed l r (· - 1) budget k
  unfold Reservations.release
  rw [hx, Option.bind_eq_bind, Option.bind_some]
  by_cases hlast : x.uses = 1
  · -- The last owner: its size leaves the sums.
    have hnot : r ∉ owners.toFinset := by
      rw [List.mem_toFinset, ← List.count_eq_zero]
      omega
    have hbytes := h.bytes
    have hclient := h.client
    rw [List.toFinset_cons, Finset.sum_insert hnot, Reservations.size, hx] at hbytes
    rw [List.toFinset_cons, Finset.sum_insert hnot, clientSize, hx] at hclient
    dsimp only [Option.map_some, Option.getD_some] at hbytes hclient
    refine ⟨{ l.recount r (· - 1) with
      budget := ⟨∑ k ∈ owners.toFinset, l.size k, ∑ k ∈ owners.toFinset, l.clientSize k⟩ }, ?_,
      ⟨hcounts, (hsums _).1.symm, (hsums _).2.symm⟩, recount_fixed l r _ _, ?_, ?_⟩
    · rw [if_pos hlast, destroy_eq hbytes hclient]
      rfl
    · exact hbytes ▸ Nat.le_add_left _ _
    · exact hclient ▸ Nat.le_add_left _ _
  · rw [if_neg hlast]
    have hset : (r :: owners).toFinset = owners.toFinset := by
      rw [List.toFinset_cons, Finset.insert_eq_of_mem]
      rw [List.mem_toFinset, ← List.count_pos_iff]
      omega
    have hbytes := h.bytes
    have hclient := h.client
    rw [hset] at hbytes hclient
    exact ⟨_, rfl, ⟨hcounts, hbytes.trans (hsums _).1.symm, hclient.trans (hsums _).2.symm⟩, recount_fixed l r (· - 1) l.budget, le_rfl, le_rfl⟩

end Reservations

/-! ### Queues -/

/-- The buffers in a queue. -/
def OutboundQueue.buffers (q : OutboundQueue) : List Nat := q.frames.map (·.bytes)

/-- The queue's own counter is exact and within its limits. -/
structure OutboundQueue.Within (l : Reservations) (q : OutboundQueue) : Prop where
  bytes : q.bytes = (q.buffers.map l.size).sum
  limit : q.bytes ≤ sessionBytes
  frames : q.frames.length ≤ 64

theorem OutboundQueue.Within.fixed {l l' : Reservations} {q : OutboundQueue} (h : q.Within l)
    (fixed : ∀ r ∈ q.buffers, l.Fixed l' r) : q.Within l' := by
  refine ⟨?_, h.limit, h.frames⟩
  rw [h.bytes, List.map_congr_left fun r hr => (fixed r hr).size]

namespace Outbound
open Reservations (Balanced Fixed)
variable {s t : Outbound} {i : Nat} {q : OutboundQueue}

/-- The owners of the reservations: queued frames, and buffers that were taken. -/
def owners (s : Outbound) : List Nat := s.queues.flatMap (·.buffers) ++ s.taken

/-- All counters are exact and within their limits. -/
structure Accounted (s : Outbound) : Prop where
  ledger : Balanced s.owners s.ledger
  bytes : s.ledger.budget.bytes ≤ globalBytes
  client : s.ledger.budget.clientBytes ≤ clientBytes
  queues : ∀ q ∈ s.queues, q.Within s.ledger

/-- The owners in one queue, and the others. -/
theorem owners_set (h : s.queues[i]? = some q) : ∃ rest, s.owners.Perm (q.buffers ++ rest) ∧
    ∀ q', ((s.queues.set i q').flatMap (·.buffers) ++ s.taken).Perm (q'.buffers ++ rest) := by
  obtain ⟨hi, hq⟩ := List.getElem?_eq_some_iff.mp h
  refine ⟨(s.queues.take i).flatMap (·.buffers) ++ ((s.queues.drop (i + 1)).flatMap (·.buffers) ++ s.taken), ?_, fun q' => ?_⟩
  · have hsplit : s.queues = s.queues.take i ++ q :: s.queues.drop (i + 1) := by
      rw [← hq, List.cons_getElem_drop_succ, List.take_append_drop]
    unfold owners
    nth_rewrite 1 [hsplit]
    rw [List.flatMap_append, List.flatMap_cons, List.append_assoc, List.append_assoc]
    exact List.perm_append_comm_assoc _ _ _
  · rw [List.set_eq_take_append_cons_drop, if_pos hi, List.flatMap_append, List.flatMap_cons, List.append_assoc, List.append_assoc]
    exact List.perm_append_comm_assoc _ _ _

theorem Accounted.lt (h : s.Accounted) (hq : q ∈ s.queues) {r : Nat} (hr : r ∈ q.buffers) : r < s.ledger.made.length :=
  h.ledger.lt (List.mem_append_left _ (List.mem_flatMap.mpr ⟨q, hq, hr⟩))

theorem Accounted.front (h : s.Accounted) (hq : s.queues[i]? = some q) (ne : q.frames ≠ []) :
    ∃ t, s.front i = some t ∧ t.Accounted := by
  obtain ⟨frame, frames, hframes⟩ := List.exists_cons_of_ne_nil ne
  have hmem : frame.bytes ∈ s.owners := by
    refine List.mem_append_left _ (List.mem_flatMap.mpr ⟨q, List.mem_of_getElem? hq, ?_⟩)
    rw [OutboundQueue.buffers, hframes]
    exact List.mem_cons_self
  unfold Outbound.front
  rw [hq, Option.bind_eq_bind, Option.bind_some, hframes]
  refine ⟨_, rfl, (h.ledger.share hmem).perm List.perm_middle.symm, h.bytes, h.client, fun x hx => ?_⟩
  exact (h.queues x hx).fixed fun r _ => s.ledger.recount_fixed frame.bytes (· + 1) s.ledger.budget r

/-- A reservation loses an owner. -/
theorem Accounted.release (h : s.Accounted) {r : Nat} {others : List Nat} (hp : s.owners.Perm (r :: others)) :
    ∃ l, s.ledger.release r = some l ∧ (∀ k, Fixed s.ledger l k) ∧ Balanced others l ∧ l.budget.bytes ≤ globalBytes ∧
      l.budget.clientBytes ≤ clientBytes := by
  obtain ⟨l, hl, hbalanced, hfixed, hbytes, hclient⟩ := (h.ledger.perm hp).release
  exact ⟨l, hl, hfixed, hbalanced, hbytes.trans h.bytes, hclient.trans h.client⟩

theorem Accounted.drop (h : s.Accounted) {r : Nat} (hr : r ∈ s.taken) : ∃ t, s.drop r = some t ∧ t.Accounted := by
  have hperm : s.owners.Perm (r :: (s.queues.flatMap (·.buffers) ++ s.taken.erase r)) :=
    ((List.perm_cons_erase hr).append_left _).trans List.perm_middle
  obtain ⟨l, hl, hfixed, hbalanced, hbytes, hclient⟩ := h.release hperm
  unfold Outbound.drop
  rw [hl]
  exact ⟨_, rfl, hbalanced, hbytes, hclient, fun q hq => (h.queues q hq).fixed fun k _ => hfixed k⟩

theorem Accounted.pop (h : s.Accounted) (hq : s.queues[i]? = some q) {frame : Frame} {frames : List Frame}
    (hframes : q.frames = frame :: frames) : ∃ t bytes, s.pop i = some t ∧ t.Accounted ∧
      t.queues[i]? = some ⟨bytes, frames⟩ := by
  have hwithin := h.queues q (List.mem_of_getElem? hq)
  have hsum := hwithin.bytes
  rw [OutboundQueue.buffers, hframes, List.map_cons, List.map_cons, List.sum_cons] at hsum
  obtain ⟨rest, hold, hnew⟩ := owners_set hq
  rw [OutboundQueue.buffers, hframes] at hold
  obtain ⟨l, hl, hfixed, hbalanced, hbytes, hclient⟩ := h.release hold
  unfold Outbound.pop
  simp only [hq, hframes, hsum, Reservations.minus_add, hl, Option.bind_eq_bind, Option.bind_some, List.head?_cons, List.tail_cons]
  refine ⟨_, _, rfl, ⟨hbalanced.perm (hnew ⟨_, frames⟩).symm, hbytes, hclient, fun x hx => ?_⟩,
    List.getElem?_set_self (List.getElem?_eq_some_iff.mp hq).1⟩
  · rcases List.mem_or_eq_of_mem_set hx with hx | rfl
    · exact (h.queues x hx).fixed fun k _ => hfixed k
    · have hlimit := hwithin.limit
      have hlength := hwithin.frames
      rw [hframes, List.length_cons] at hlength
      have hrest : OutboundQueue.Within s.ledger ⟨((frames.map (·.bytes)).map s.ledger.size).sum, frames⟩ :=
        ⟨rfl, by rw [hsum] at hlimit; exact (Nat.le_add_left _ _).trans hlimit, Nat.le_of_succ_le hlength⟩
      exact hrest.fixed fun k _ => hfixed k

theorem Accounted.clear (h : s.Accounted) (hq : s.queues[i]? = some q) : ∃ t, s.clear i = some t ∧ t.Accounted := by
  unfold Outbound.clear
  rw [hq, Option.bind_eq_bind, Option.bind_some]
  obtain ⟨bytes, frames⟩ := q
  dsimp only
  induction frames generalizing s bytes with
  | nil => exact ⟨s, rfl, h⟩
  | cons frame frames ih =>
    obtain ⟨t, bytes', hpop, ht, hqueue⟩ := h.pop hq rfl
    rw [List.foldlM_cons, hpop]
    exact ih ht bytes' hqueue

theorem exceeds_eq {limit used : Nat} (h : used ≤ limit) (size : Nat) : exceeds limit used size = some (decide (limit < used + size)) := by
  unfold exceeds minus
  rw [if_pos h, Option.map_some, decide_eq_decide.mpr (by omega : limit - used < size ↔ limit < used + size)]

/-- There is room for a frame when no limit is passed with it. -/
theorem Accounted.refuses (h : s.Accounted) (hq : q ∈ s.queues) (size : Nat) (peer : Bool) :
    s.refuses q size peer = some true ∨ s.refuses q size peer = some false ∧ q.frames.length < 64 ∧
      q.bytes + size ≤ sessionBytes ∧ s.ledger.budget.bytes + size ≤ globalBytes ∧
      (peer = false → s.ledger.budget.clientBytes + size ≤ clientBytes) := by
  unfold Outbound.refuses
  rw [exceeds_eq (h.queues q hq).limit, exceeds_eq h.bytes, exceeds_eq h.client]
  by_cases hfull : 64 ≤ q.frames.length
  · exact .inl (if_pos hfull)
  by_cases hsession : sessionBytes < q.bytes + size
  · exact .inl (by simp [hfull, hsession])
  by_cases hglobal : globalBytes < s.ledger.budget.bytes + size
  · exact .inl (by simp [hfull, hsession, hglobal])
  by_cases hclient : peer = false ∧ clientBytes < s.ledger.budget.clientBytes + size
  · exact .inl (by simp [hfull, hsession, hglobal, hclient])
  · refine .inr ⟨?_, not_le.mp hfull, not_lt.mp hsession, not_lt.mp hglobal, fun hp => not_lt.mp fun hlt => hclient ⟨hp, hlt⟩⟩
    cases peer with
    | true => simp [hfull, hsession, hglobal]
    | false =>
      rw [and_iff_right rfl] at hclient
      simp [hfull, hsession, hglobal, hclient]

/-- The frame is queued. -/
theorem Accounted.queued (h : s.Accounted) (hq : s.queues[i]? = some q) {size : Nat} {peer : Bool} (retry : Option RetryKey)
    (frames : q.frames.length < 64) (session : q.bytes + size ≤ sessionBytes)
    (global : s.ledger.budget.bytes + size ≤ globalBytes)
    (client : peer = false → s.ledger.budget.clientBytes + size ≤ clientBytes) :
    Accounted { s with
      ledger := s.ledger.reserve size peer
      queues := s.queues.set i ⟨q.bytes + size, q.frames ++ [⟨s.ledger.made.length, retry⟩]⟩ } := by
  obtain ⟨rest, hold, hnew⟩ := owners_set hq
  have hfixed : ∀ x ∈ s.queues, x.Within (s.ledger.reserve size peer) := fun x hx =>
    (h.queues x hx).fixed fun r hr => Reservations.reserve_fixed size peer (h.lt hx hr)
  refine ⟨(h.ledger.reserve size peer).perm ?_, global, ?_, fun x hx => ?_⟩
  · refine (hold.cons _).trans (.trans ?_ (hnew _).symm)
    unfold OutboundQueue.buffers
    rw [List.map_append, List.append_assoc]
    exact List.perm_middle.symm
  · cases peer
    · exact client rfl
    · exact h.client
  · rcases List.mem_or_eq_of_mem_set hx with hx | rfl
    · exact hfixed x hx
    · refine ⟨?_, session, ?_⟩
      · have hsize : (s.ledger.reserve size peer).size s.ledger.made.length = size := by
          simp [Reservations.size, Reservations.reserve]
        have hbytes := (hfixed q (List.mem_of_getElem? hq)).bytes
        rw [OutboundQueue.buffers, List.map_append, List.map_append, List.sum_append, ← OutboundQueue.buffers, ← hbytes]
        simp [hsize]
      · rw [List.length_append, List.length_singleton]
        exact frames

/-- A push queues the frame, refuses it, or finds its retry key in the queue. -/
theorem Accounted.push (h : s.Accounted) (hq : s.queues[i]? = some q) (size : Nat) (peer : Bool) (retry : Option RetryKey) :
    ∃ result t, s.push i size peer retry = some (result, t) ∧ t.Accounted ∧
      (result = false ∨ (∃ key, retry = some key ∧ ∃ f ∈ q.frames, f.retry = some key) ∨
        t.queues = s.queues.set i ⟨q.bytes + size, q.frames ++ [⟨s.ledger.made.length, retry⟩]⟩) := by
  unfold Outbound.push
  rw [hq, Option.bind_eq_bind, Option.bind_some]
  by_cases hretry : retry.isSome = true ∧ (q.frames.any fun f => f.retry == retry) = true
  · rw [if_pos hretry]
    obtain ⟨key, rfl⟩ := Option.isSome_iff_exists.mp hretry.1
    obtain ⟨f, hf, hkey⟩ := List.any_eq_true.mp hretry.2
    exact ⟨true, s, rfl, h, .inr (.inl ⟨key, rfl, f, hf, beq_iff_eq.mp hkey⟩)⟩
  · rw [if_neg hretry]
    rcases h.refuses (List.mem_of_getElem? hq) size peer with hfull | ⟨hroom, hframes, hsession, hglobal, hclient⟩
    · rw [hfull]
      exact ⟨false, s, rfl, h, .inl rfl⟩
    · rw [hroom]
      exact ⟨true, _, rfl, h.queued hq retry hframes hsession hglobal hclient, .inr (.inr rfl)⟩

/-! ### Runs -/

/-- The states that allowed calls lead to. -/
inductive Reached : Outbound → Prop
  | start : Reached {}
  | call {s t : Outbound} (reached : Reached s) (call : OutboundCall) (allowed : s.Allowed call) (run : s.perform call = some t) : Reached t

theorem Accounted.perform (h : s.Accounted) {call : OutboundCall} (allowed : s.Allowed call) :
    ∃ t, s.perform call = some t ∧ t.Accounted := by
  cases call with
  | create =>
    refine ⟨_, rfl, ?_, h.bytes, h.client, List.forall_mem_append.mpr ⟨h.queues, List.forall_mem_singleton.mpr ?_⟩⟩
    · have howners : ({ s with queues := s.queues ++ [{}] } : Outbound).owners = s.owners := by
        rw [owners, List.flatMap_append]
        exact congrArg (· ++ s.taken) (List.append_nil _)
      rw [howners]
      exact h.ledger
    · exact ⟨rfl, Nat.zero_le _, Nat.zero_le _⟩
  | push i size peer retry =>
    obtain ⟨result, t, hpush, ht, -⟩ := h.push (List.getElem?_eq_getElem allowed) size peer retry
    exact ⟨t, by rw [Outbound.perform, hpush]; rfl, ht⟩
  | front i =>
    obtain ⟨q, hq, hne⟩ := allowed
    exact h.front hq hne
  | drop r => exact h.drop allowed
  | pop i =>
    obtain ⟨q, hq, hne⟩ := allowed
    obtain ⟨frame, frames, hframes⟩ := List.exists_cons_of_ne_nil hne
    obtain ⟨t, bytes, hpop, ht, -⟩ := h.pop hq hframes
    exact ⟨t, hpop, ht⟩
  | clear i => exact h.clear (List.getElem?_eq_getElem allowed)

theorem Reached.accounted (h : Reached s) : s.Accounted := by
  induction h with
  | start => exact ⟨⟨fun r => rfl, rfl, rfl⟩, Nat.zero_le _, Nat.zero_le _, nofun⟩
  | call reached _ allowed run ih =>
    obtain ⟨t, ht, haccounted⟩ := ih.perform allowed
    rwa [Option.some.inj (run.symm.trans ht)]

end Outbound

end Choreolog.Network
